import LayeredConfig.Proofs.Tree.Focus

/-!
# Writing where a path reads

`Tree.get?` reads the value at a path, and `Tree.replace?` writes another one over it. They descend
each in its own way, and address one place, the position of the path: one succeeds where the other
does, and what was written is read (`Tree.replace?_exact`). A write over a value changes nothing
else. Every container keeps its keys and its length, up to the one that the value is in, so no path
is led astray on its way (`Value.Replaced.position?_eq_some`), and one that leads to a place apart
reads the same there.

Where a path leads is told by positions and not by segments, since one place has many spellings: in
a sequence `1`, `01` and `+1` are the same.
-/

namespace LayeredConfig

namespace Value

variable {v v' x x' : Value} {l m : Position} {path : List String}

/-- **A path that does not go on inside of a replaced value** leads where it led. -/
theorem Replaced.position?_eq_some (h : Replaced x x' l v v') (hm : v.position? path = some m)
    (hinside : l <+: m → m = l) : v'.position? path = some m := by
  refine position?_congr hm fun n hnm hne ↦ h.surface_of_not_inside fun hln ↦ hne ?_
  obtain rfl := hinside (hln.trans hnm)
  exact hnm.eq_of_length_le hln.length_le

end Value

namespace Tree

variable {t t' : Tree} {path : String} {l : Position} {v w : Value}

/-- A write that succeeds replaces the value at the position of the path. -/
theorem exists_replaced_of_replace? (h : t.replace? path w = some t') :
    ∃ l v, t.position? path = some l ∧ Value.Replaced v w l (.mapping t) (.mapping t') := by
  obtain ⟨f, hf, rfl⟩ := Option.map_eq_some_iff.1 h
  obtain ⟨l, hl, hwrite⟩ := exists_replaced_of_focus? hf
  exact ⟨l, f.value, hl, hwrite w⟩

/-- There is something to write over exactly where there is something to read. -/
theorem isSome_replace? (t : Tree) (path : String) (w : Value) :
    (t.replace? path w).isSome = (t.get? path).isSome := by
  rw [replace?, Option.isSome_map, ← map_value_focus?, Option.isSome_map]

theorem get?_of_position? (h : t.position? path = some l) : t.get? path = t.within? l := by
  rw [position?] at h
  split at h
  · cases h
  · rename_i hpath
    rw [get?, if_neg hpath]
    exact (Value.within?_of_position? h).symm

/-- A path that does not lead inside of a replaced value leads to the same position. -/
theorem position?_of_replaced (h : Value.Replaced v w l (.mapping t) (.mapping t')) {q : String}
    {m : Position} (hm : t.position? q = some m) (hinside : l <+: m → m = l) :
    t'.position? q = some m := by
  rw [position?] at hm ⊢
  split at hm
  · cases hm
  · rename_i hq
    rw [if_neg hq, h.position?_eq_some hm hinside]

/-- **Reading and writing address the same place.** What stands at the place that a path leads a
writer to is what the path reads, so there is something to write over exactly where there is
something to read. Then what was written is read, no container outside of it has other keys or
another length, and every path that led neither into it nor around it reads what it read. -/
theorem replace?_exact (t : Tree) (path : String) (w : Value) :
    (t.focus? path).map Focus.value = t.get? path ∧
    (t.replace? path w).isSome = (t.get? path).isSome ∧
    ∀ t', t.replace? path w = some t' → t'.get? path = some w ∧
      ∃ l, t.position? path = some l ∧ t'.position? path = some l ∧
        (∀ m, ¬l <+: m →
          (t'.within? m).map Value.surface = (t.within? m).map Value.surface) ∧
        ∀ q m, t.position? q = some m → ¬l <+: m → ¬m <+: l →
          t'.position? q = some m ∧ t'.get? q = t.get? q := by
  refine ⟨map_value_focus? t path, isSome_replace? t path w, fun t' h ↦ ?_⟩
  obtain ⟨l, v, hl, hreplaced⟩ := exists_replaced_of_replace? h
  have hl' : t'.position? path = some l := position?_of_replaced hreplaced hl fun _ ↦ rfl
  refine ⟨(get?_of_position? hl').trans hreplaced.within?_self.2, l, hl, hl', ?_, ?_⟩
  · exact fun m hlm ↦ (hreplaced.surface_of_not_inside hlm).symm
  · intro q m hm hlm hml
    have hm' : t'.position? q = some m :=
      position?_of_replaced hreplaced hm fun hlm' ↦ absurd hlm' hlm
    refine ⟨hm', ?_⟩
    rw [get?_of_position? hm', get?_of_position? hm]
    exact hreplaced.within?_of_apart hlm hml

/-- Two hosts in a list, and a port under a number. -/
def hostsAndPort : Tree :=
  [(.string "hosts", .sequence [.string "a", .mapping [(.string "b", .int 1)]]),
    (.string "ports", .mapping [(.int 8080, .string "web")])]

/-- The same with null in place of the second host. -/
def hostAndPort : Tree :=
  [(.string "hosts", .sequence [.string "a", .null]),
    (.string "ports", .mapping [(.int 8080, .string "web")])]

/-- A write over the second host leaves the list its length, and the first host and the port what
they were, however their indexes are spelled. -/
theorem replace?_exact_hosts : hostsAndPort.replace? "hosts.01" .null = some hostAndPort ∧
    hostAndPort.get? "hosts.01" = some .null ∧
    (hostAndPort.within? [0]).map Value.surface = (hostsAndPort.within? [0]).map Value.surface ∧
    hostAndPort.get? "hosts.+0" = hostsAndPort.get? "hosts.+0" ∧
    hostAndPort.get? "ports.8080" = hostsAndPort.get? "ports.8080" := by
  have hwrite : hostsAndPort.replace? "hosts.01" .null = some hostAndPort := by decide +kernel
  obtain ⟨hread, l, hl, -, hsurface, hapart⟩ :=
    (replace?_exact hostsAndPort "hosts.01" .null).2.2 hostAndPort hwrite
  obtain rfl : [0, 1] = l := by
    have hposition : hostsAndPort.position? "hosts.01" = some [0, 1] := by decide +kernel
    exact Option.some.inj (hposition.symm.trans hl)
  have hfirst : hostsAndPort.position? "hosts.+0" = some [0, 0] := by decide +kernel
  have hport : hostsAndPort.position? "ports.8080" = some [1, 0] := by decide +kernel
  exact ⟨hwrite, hread, hsurface [0] (by decide),
    (hapart "hosts.+0" [0, 0] hfirst (by decide) (by decide)).2,
    (hapart "ports.8080" [1, 0] hport (by decide) (by decide)).2⟩

end Tree

end LayeredConfig
