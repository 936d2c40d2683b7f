import LayeredConfig.Tree.DottedPath
import LayeredConfig.Value.WellFormed

/-!
# Writing over an entry

Every value is its own key (`Value.same_refl`), so in a tree without a repeated key each entry is
found under the key that it shows, and written in its place.

What a key finds is the first entry that shows it, wherever the tree is cut (`find?_split`). So
writing over the value of one entry leaves the keys, and what every other key finds, as they are:
that is `find?_of_overwrite`, and `keyNamed?_of_keys_eq` for the keys that segments of dotted paths
name.
-/

namespace LayeredConfig

namespace Value

mutual

/-- Every value is the same key as itself. -/
theorem same_refl : ∀ v : Value, v.same v = true
  | .null => rfl
  | .bool b => by simp [same]
  | .int i => by simp [same]
  | .float x => by simp [same, Binary64.same_self]
  | .string s => by simp
  | .sequence items => by simp [same, sameItems_refl items]
  | .mapping entries => by
    simp [same, sameEntries_of_subset entries entries (List.Subset.refl entries)]
  | .tagged tag v => by simp [same, same_refl v]

theorem sameItems_refl : ∀ items : List Value, sameItems items items = true
  | [] => rfl
  | v :: r => by simp [sameItems, same_refl v, sameItems_refl r]

/-- Entries are found in every list that holds them. -/
theorem sameEntries_of_subset :
    ∀ entries all : List (Value × Value), entries ⊆ all → sameEntries entries all = true
  | [], _, _ => rfl
  | (k, v) :: r, all, h => by
    have hhead : all.any (fun e ↦ k.same e.1 && v.same e.2) = true :=
      List.any_eq_true.2 ⟨(k, v), h List.mem_cons_self, by simp [same_refl k, same_refl v]⟩
    rw [sameEntries, hhead, sameEntries_of_subset r all fun _ he ↦ h (List.mem_cons_of_mem _ he)]
    rfl

end

/-- Keys that are told apart are different values. -/
theorem ne_of_same_eq_false {v w : Value} (h : v.same w = false) : v ≠ w := by
  rintro rfl
  rw [same_refl] at h
  cases h

end Value

namespace Tree

variable {before after t : Tree} {k k' v w x : Value}

/-! ### An entry within its tree -/

/-- The first entry that shows a key is the one that the key finds. -/
theorem find?_append_cons (hbefore : ∀ e ∈ before, e.1.same k = false)
    (hk : k'.same k = true) : find? k (before ++ (k', v) :: after) = some v := by
  induction before with
  | nil => simp [find?, hk]
  | cons e r ih =>
    rw [List.cons_append, find?, hbefore e List.mem_cons_self]
    exact ih fun e' he' ↦ hbefore e' (List.mem_cons_of_mem _ he')

/-- And it is the one that is written over. -/
theorem insert_append_cons (hbefore : ∀ e ∈ before, e.1.same k = false)
    (hk : k'.same k = true) :
    insert k w (before ++ (k', v) :: after) = before ++ (k', w) :: after := by
  induction before with
  | nil => simp [insert, hk]
  | cons e r ih =>
    obtain ⟨ke, ve⟩ := e
    have hke : ke.same k = false := hbefore (ke, ve) List.mem_cons_self
    rw [List.cons_append, insert, hke]
    simp only [Bool.false_eq_true, if_false, List.cons_append, List.cons.injEq, true_and]
    exact ih fun e' he' ↦ hbefore e' (List.mem_cons_of_mem _ he')

/-- Where a key finds something, it finds the first entry that shows it. -/
theorem find?_split (h : find? k t = some v) :
    ∃ before k' after, t = before ++ (k', v) :: after ∧ (∀ e ∈ before, e.1.same k = false) ∧
      k'.same k = true := by
  induction t with
  | nil => simp [find?] at h
  | cons e r ih =>
    obtain ⟨ke, ve⟩ := e
    by_cases hke : ke.same k = true
    · obtain rfl : ve = v := by simpa [find?, hke] using h
      exact ⟨[], ke, r, rfl, by simp, hke⟩
    · simp only [find?, hke, Bool.false_eq_true, if_false] at h
      obtain ⟨before, k', after, rfl, hbefore, hk'⟩ := ih h
      refine ⟨(ke, ve) :: before, k', after, rfl, ?_, hk'⟩
      rintro e (_ | ⟨_, he⟩)
      · exact Bool.not_eq_true _ ▸ hke
      · exact hbefore e he

/-- What a key finds is the value of an entry. -/
theorem exists_mem_of_find? (h : find? k t = some v) : ∃ k', (k', v) ∈ t := by
  obtain ⟨before, k', after, rfl, -, -⟩ := find?_split h
  exact ⟨k', by simp⟩

/-- A key finds the value of the first entry that shows it. -/
theorem find?_eq_findIdx? (k : Value) (t : Tree) : find? k t =
    (t.keys.findIdx? (·.same k)).bind fun i ↦ (t.map Prod.snd)[i]? := by
  induction t with
  | nil => rfl
  | cons e r ih =>
    obtain ⟨c, x⟩ := e
    rw [find?, keys, List.map_cons, List.findIdx?_cons]
    split
    · rfl
    · rw [ih, Option.bind_map]
      rfl

/-- Without a repeated key, a key finds the value of its own entry. -/
theorem find?_of_mem (ht : t.Pairwise fun e f ↦ e.1.same f.1 = false) (h : (k, v) ∈ t) :
    find? k t = some v := by
  obtain ⟨before, after, rfl⟩ := List.append_of_mem h
  have hbefore : ∀ e ∈ before, e.1.same k = false := fun e he ↦
    (List.pairwise_append.1 ht).2.2 e he (k, v) List.mem_cons_self
  exact find?_append_cons hbefore (Value.same_refl k)

/-! ### Every other entry stays -/

/-- What a key finds once the value of one entry is written over: what it found before, unless that
was the value that is gone. -/
theorem find?_of_overwrite (w : Value) (h : find? k (before ++ (k', v) :: after) = some x) :
    find? k (before ++ (k', w) :: after) = some x ∨
      x = v ∧ find? k (before ++ (k', w) :: after) = some w := by
  induction before with
  | nil =>
    by_cases hk' : k'.same k = true
    · simp only [List.nil_append, find?, hk', if_true, Option.some.injEq] at h ⊢
      exact Or.inr ⟨h.symm, trivial⟩
    · simp only [List.nil_append, find?, hk', Bool.false_eq_true, if_false] at h ⊢
      exact Or.inl h
  | cons e r ih =>
    by_cases he : e.1.same k = true
    · simp only [List.cons_append, find?, he, if_true] at h ⊢
      exact Or.inl h
    · simp only [List.cons_append, find?, he, Bool.false_eq_true, if_false] at h ⊢
      exact ih h

theorem contains_eq_any_keys (k : Value) (t : Tree) :
    t.contains k = t.keys.any fun k' ↦ k'.same k := by
  induction t with
  | nil => rfl
  | cons e r ih =>
    by_cases he : e.1.same k = true
    · simp [contains, find?, keys, he]
    · simp only [contains, find?, keys, he, Bool.false_eq_true, if_false, List.map_cons,
        List.any_cons, Bool.false_or] at ih ⊢
      exact ih

theorem contains_of_mem_keys (hk : k ∈ t.keys) : t.contains k = true := by
  rw [contains_eq_any_keys, List.any_eq_true]
  exact ⟨k, hk, Value.same_refl k⟩

/-- Which key a segment names hangs on the keys alone. -/
theorem keyNamed?_of_keys_eq {t t' : Tree} (h : t.keys = t'.keys) (segment : String) :
    t.keyNamed? segment = t'.keyNamed? segment := by
  rw [keyNamed?, keyNamed?, contains_eq_any_keys, contains_eq_any_keys, h]

/-- A path reads what its segments lead to, unless it is empty. -/
theorem get?_eq_some_iff {path : String} :
    t.get? path = some v ↔
      path ≠ "" ∧ (Value.mapping t).descend? (segments path) = some v := by
  rw [get?]
  split
  · simp [*]
  · simp [*]

end Tree

end LayeredConfig
