import LayeredConfig.Proofs.Tree.Entries
import LayeredConfig.Tree.Location

/-!
# The strings of a tree

`Value.strings` lists the strings that substitution looks at: those in the values of mappings and in
the items of sequences, at every depth, but none below a tag. They are the strings that
`Value.stringLocations` gives the places of, without the places.

A part of a value has no string that the value does not have, whichever way the part is reached: by
one segment, along a dotted path, or at a location.
-/

namespace LayeredConfig

namespace Value

mutual

/-- The strings of a value, in document order; tagged values are left out. -/
def strings : Value → List String
  | .string s => [s]
  | .sequence items => itemStrings items
  | .mapping entries => entryStrings entries
  | _ => []

/-- The strings of items. -/
def itemStrings : List Value → List String
  | [] => []
  | v :: r => v.strings ++ itemStrings r

/-- The strings in the values of entries. -/
def entryStrings : List (Value × Value) → List String
  | [] => []
  | (_, v) :: r => v.strings ++ entryStrings r

end

variable {v x : Value} {s : String}

theorem mem_itemStrings {items : List Value} :
    s ∈ itemStrings items ↔ ∃ v ∈ items, s ∈ v.strings := by
  induction items with
  | nil => simp [itemStrings]
  | cons v r ih => simp [itemStrings, ih]

theorem mem_entryStrings {entries : List (Value × Value)} :
    s ∈ entryStrings entries ↔ ∃ e ∈ entries, s ∈ e.2.strings := by
  induction entries with
  | nil => simp [entryStrings]
  | cons e r ih =>
    obtain ⟨k, v⟩ := e
    simp [entryStrings, ih]

/-! ### Strings of parts -/

theorem strings_subset_of_find? {t : Tree} {k : Value} (h : Tree.find? k t = some x) :
    x.strings ⊆ (Value.mapping t).strings := by
  obtain ⟨k', hmem⟩ := Tree.exists_mem_of_find? h
  intro s hs
  exact mem_entryStrings.2 ⟨(k', x), hmem, hs⟩

theorem strings_subset_of_getElem? {items : List Value} {i : Nat} (h : items[i]? = some x) :
    x.strings ⊆ (Value.sequence items).strings := by
  intro s hs
  exact mem_itemStrings.2 ⟨x, List.mem_of_getElem? h, hs⟩

theorem strings_subset_of_child? {segment : String} (h : v.child? segment = some x) :
    x.strings ⊆ v.strings := by
  cases v with
  | mapping t =>
    obtain ⟨k, -, hfind⟩ := Option.bind_eq_some_iff.1 h
    exact strings_subset_of_find? hfind
  | sequence items =>
    obtain ⟨i, -, hget⟩ := Option.bind_eq_some_iff.1 h
    exact strings_subset_of_getElem? hget
  | null | bool _ | int _ | float _ | string _ | tagged _ _ => simp [child?] at h

theorem strings_subset_of_descend? {segments : List String} (h : v.descend? segments = some x) :
    x.strings ⊆ v.strings := by
  induction segments generalizing v with
  | nil =>
    obtain rfl : v = x := Option.some.inj h
    exact List.Subset.refl _
  | cons segment r ih =>
    obtain ⟨c, hc, hx⟩ := Option.bind_eq_some_iff.1 h
    exact List.Subset.trans (ih hx) (strings_subset_of_child? hc)

theorem strings_subset_of_at? {l : Location} (h : v.at? l = some x) : x.strings ⊆ v.strings := by
  induction l generalizing v with
  | nil =>
    obtain rfl : v = x := by simpa [at?] using h
    exact List.Subset.refl _
  | cons step r ih =>
    cases v with
    | mapping t =>
      cases step with
      | index i => simp [at?] at h
      | key k =>
        obtain ⟨c, hc, hx⟩ := Option.bind_eq_some_iff.1 h
        exact List.Subset.trans (ih hx) (strings_subset_of_find? hc)
    | sequence items =>
      cases step with
      | key k => simp [at?] at h
      | index i =>
        obtain ⟨c, hc, hx⟩ := Option.bind_eq_some_iff.1 h
        exact List.Subset.trans (ih hx) (strings_subset_of_getElem? hc)
    | null | bool _ | int _ | float _ | string _ | tagged _ _ => simp [at?] at h

end Value

namespace Tree

/-- The strings of a tree. -/
def strings (t : Tree) : List String :=
  (Value.mapping t).strings

/-- What a path reads has strings of the tree only. -/
theorem strings_subset_of_get? {t : Tree} {path : String} {v : Value} (h : t.get? path = some v) :
    v.strings ⊆ t.strings :=
  Value.strings_subset_of_descend? (get?_eq_some_iff.1 h).2

/-- A string at a location is one of the strings of the tree. -/
theorem mem_strings_of_at? {t : Tree} {l : Location} {s : String}
    (h : t.at? l = some (.string s)) : s ∈ t.strings := by
  have hs : s ∈ (Value.string s).strings := by simp [Value.strings]
  exact Value.strings_subset_of_at? h hs

end Tree

end LayeredConfig
