import LayeredConfig.Proofs.Tree.Removal

/-!
# What a removal takes away

`Tree.remove?` takes away the value that the path reads (`Tree.exists_remove?_iff`), and nothing
besides (`Tree.remove?_exact`): one container loses one entry or item, those around it keep their
keys and their lengths, and whatever is apart from it is as it was.

There is one exception to the first. What is taken away is looked up in what the path before the
last separator leads to, and the empty path leads nowhere when it is read. So a path of one segment
behind an empty one, such as `.x`, reads the entry `x` below the key with the empty text, and
removes nothing (`Tree.remove?_misses_named`).
-/

namespace LayeredConfig

namespace Tree

variable {t t' : Tree} {path : String} {x : Value}

/-- **A path removes what it reads**, and removes nothing where it reads nothing. A path of one
segment behind an empty one removes nothing at all. -/
theorem exists_remove?_iff (hpath : path ≠ "") : (∃ t', t.remove? path = some (x, t')) ↔
    t.get? path = some x ∧ ∀ last, segments path ≠ ["", last] := by
  rw [get?, if_neg hpath]
  constructor
  · rintro ⟨t', h⟩
    obtain ⟨parent, last, hsplit, hparent, hremoved⟩ := remove?_eq_some_iff.1 h
    refine ⟨hsplit ▸ Value.exists_removeAt?_iff.1 ⟨_, hremoved⟩, ?_⟩
    intro last' hlast
    have hempty : parent ++ [last] = [""] ++ [last'] := hsplit.symm.trans hlast
    exact hparent (List.append_inj' hempty rfl).1
  · rintro ⟨hx, hlast⟩
    obtain ⟨parent, last, hsplit⟩ : ∃ parent last, segments path = parent ++ [last] :=
      ⟨_, _, (List.dropLast_concat_getLast (segments_ne_nil path)).symm⟩
    have hparent : parent ≠ [""] := by
      rintro rfl
      exact hlast last hsplit
    obtain ⟨v', hremoved⟩ := Value.exists_removeAt?_iff.2 (hsplit ▸ hx)
    obtain ⟨t', rfl⟩ := (Value.removed_of_removeAt? hremoved).exists_mapping
    exact ⟨t', remove?_eq_some_iff.2 ⟨parent, last, hsplit, hparent, hremoved⟩⟩

/-- A port under a number, hosts in a list, and a setting below two empty keys. -/
def portsAndHosts : Tree :=
  [(.string "ports", .mapping [(.int 8080, .string "web"), (.bool true, .null)]),
    (.string "hosts", .sequence [.string "a", .mapping [(.string "b", .int 1)], .string "c"]),
    (.string "", .mapping [(.string "", .mapping [(.string "x", .int 2)])])]

/-- A number as a key, an index with a sign, and two empty segments are no exceptions. -/
theorem exists_remove?_portsAndHosts :
    "ports.8080" ≠ "" ∧ (∃ t', portsAndHosts.remove? "ports.8080" = some (.string "web", t')) ∧
    "hosts.+2" ≠ "" ∧ (∃ t', portsAndHosts.remove? "hosts.+2" = some (.string "c", t')) ∧
    "..x" ≠ "" ∧ ∃ t', portsAndHosts.remove? "..x" = some (.int 2, t') := by
  have hport : "ports.8080" ≠ "" := by decide
  have hhost : "hosts.+2" ≠ "" := by decide
  have hempty : "..x" ≠ "" := by decide
  refine ⟨hport, (exists_remove?_iff hport).2 ⟨by decide, ?_⟩,
    hhost, (exists_remove?_iff hhost).2 ⟨by decide, ?_⟩,
    hempty, (exists_remove?_iff hempty).2 ⟨by decide, ?_⟩⟩
  · have hsegments : segments "ports.8080" = ["ports", "8080"] := by decide
    simp [hsegments]
  · have hsegments : segments "hosts.+2" = ["hosts", "+2"] := by decide
    simp [hsegments]
  · have hsegments : segments "..x" = ["", "", "x"] := by decide
    simp [hsegments]

/-- **What is directly below the key with the empty text is read but not removed.** -/
theorem remove?_misses_named : ¬∀ (t : Tree) (path : String) (x : Value), path ≠ "" →
    t.WellFormed → ((∃ t', t.remove? path = some (x, t')) ↔ t.get? path = some x) := by
  intro h
  let t : Tree := [(.string "", .mapping [(.string "x", .int 1)])]
  have ht : t.WellFormed := by simp [t, WellFormed, Value.WellFormed, Value.WellFormedEntries]
  have hread : t.get? ".x" = some (.int 1) := by decide
  have hremove : t.remove? ".x" = none := by decide
  obtain ⟨t', ht'⟩ := (h t ".x" (.int 1) (by decide) ht).2 hread
  rw [hremove] at ht'
  cases ht'

/-- **A removal takes one entry or one item, and leaves all else.** If nothing is taken away, the
tree is as it was. Otherwise the container that the segments before the last lead to, or the root if
there are none, loses the value that the last segment names in it. Containers around it keep their
keys and their lengths, and what is at any other position is as it was. -/
theorem remove?_exact (t : Tree) (path : String) :
    (t.remove? path = none → t.without path = t) ∧
    ∀ x t', t.remove? path = some (x, t') → t.without path = t' ∧
      ∃ parent last l c c', segments path = parent ++ [last] ∧
        (Value.mapping t).position? parent = some l ∧ t.within? l = some c ∧
        c.child? last = some x ∧ Value.Loses x c c' ∧ t'.within? l = some c' ∧
        (∀ m, ¬l <+: m → ¬m <+: l → t'.within? m = t.within? m) ∧
        ∀ m, m <+: l → m ≠ l →
          (t'.within? m).map Value.surface = (t.within? m).map Value.surface := by
  refine ⟨fun h ↦ by rw [without, h], fun x t' h ↦ ⟨by rw [without, h], ?_⟩⟩
  obtain ⟨parent, last, hsplit, -, hremoved⟩ := remove?_eq_some_iff.1 h
  obtain ⟨l, c, c', hl, hlost, hreplaced⟩ := Value.exists_replaced_of_removeAt? hremoved
  obtain ⟨hc, hc'⟩ := hreplaced.within?_self
  exact ⟨parent, last, l, c, c', hsplit, hl, hc, Value.exists_removeChild?_iff.1 ⟨c', hlost⟩,
    Value.loses_of_removeChild? hlost, hc', fun _ ↦ hreplaced.within?_of_apart,
    fun _ hml hne ↦ (hreplaced.surface_of_above hml hne).symm⟩

/-- The ports and the hosts without the second host. -/
def portsAndTwoHosts : Tree :=
  [(.string "ports", .mapping [(.int 8080, .string "web"), (.bool true, .null)]),
    (.string "hosts", .sequence [.string "a", .string "c"]),
    (.string "", .mapping [(.string "", .mapping [(.string "x", .int 2)])])]

/-- When the second host is taken away, only the list of hosts changes, the second entry. -/
theorem remove?_exact_portsAndHosts :
    portsAndHosts.remove? "hosts.01" =
      some (.mapping [(.string "b", .int 1)], portsAndTwoHosts) ∧
    (∀ m, ¬[1] <+: m → ¬m <+: [1] → portsAndTwoHosts.within? m = portsAndHosts.within? m) ∧
    (portsAndTwoHosts.within? []).map Value.surface =
      (portsAndHosts.within? []).map Value.surface := by
  have hremove : portsAndHosts.remove? "hosts.01" =
      some (.mapping [(.string "b", .int 1)], portsAndTwoHosts) := by
    decide
  obtain ⟨-, parent, last, l, c, c', hsplit, hl, -, -, -, -, hapart, habove⟩ :=
    (remove?_exact portsAndHosts "hosts.01").2 _ _ hremove
  obtain rfl : ["hosts"] = parent := by
    have hsegments : segments "hosts.01" = ["hosts"] ++ ["01"] := by decide
    exact (List.append_inj' (hsegments.symm.trans hsplit) rfl).1
  obtain rfl : [1] = l := by
    have hposition : (Value.mapping portsAndHosts).position? ["hosts"] = some [1] := by
      decide
    exact Option.some.inj (hposition.symm.trans hl)
  exact ⟨hremove, hapart, habove [] List.nil_prefix (List.cons_ne_nil _ _).symm⟩

end Tree

end LayeredConfig
