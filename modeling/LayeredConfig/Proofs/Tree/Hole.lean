import LayeredConfig.Proofs.Tree.Overwriting

/-!
# A value with a hole

`Value.IsHole C l` says that the function `C` puts a value at the location `l` of something larger,
and that locations below `l` are read and written in that value. It lets a statement about a whole
tree be proved by recursion on a part of it: `IsHole.entry` and `IsHole.item` go one step down, from
a container to one of its parts.

The step into an entry is where a repeated key would do harm: the key of the entry must not be shown
by an entry before it.
-/

namespace LayeredConfig

namespace Value

/-- `C v` holds `v` at the location `l`. -/
structure IsHole (C : Value → Value) (l : Location) : Prop where
  /-- What is read below the location is read in the value. -/
  at?_append : ∀ v r, (C v).at? (l ++ r) = v.at? r
  /-- What is written below the location is written in the value. -/
  putAt?_append : ∀ {v v' w : Value} {r : Location}, putAt? w r v = some v' →
    putAt? w (l ++ r) (C v) = some (C v')

namespace IsHole

variable {C : Value → Value} {l : Location}

/-- The whole is a hole for itself. -/
theorem root : IsHole id [] where
  at?_append _ _ := rfl
  putAt?_append h := h

/-- From a mapping to the value of an entry. -/
theorem entry (h : IsHole C l) {before : List (Value × Value)} (after : List (Value × Value))
    {k : Value} (hbefore : ∀ e ∈ before, e.1.same k = false) :
    IsHole (fun v ↦ C (.mapping (before ++ (k, v) :: after))) (l ++ [.key k]) where
  at?_append v r := by
    rw [List.append_assoc, h.at?_append]
    simp [at?, Tree.find?_append_cons hbefore (same_refl k)]
  putAt?_append {v v' w r} hput := by
    rw [List.append_assoc]
    refine h.putAt?_append ?_
    simp [putAt?, Tree.find?_append_cons hbefore (same_refl k), hput,
      Tree.insert_append_cons hbefore (same_refl k)]

/-- From a sequence to an item. -/
theorem item (h : IsHole C l) (before after : List Value) :
    IsHole (fun v ↦ C (.sequence (before ++ v :: after))) (l ++ [.index before.length]) where
  at?_append v r := by
    rw [List.append_assoc, h.at?_append]
    simp [at?]
  putAt?_append {v v' w r} hput := by
    rw [List.append_assoc]
    refine h.putAt?_append ?_
    simp [putAt?, hput]

end IsHole

end Value

end LayeredConfig
