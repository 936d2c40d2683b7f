import LayeredConfig.Proofs.Store.FilePath
import LayeredConfig.Store.Memory
import Mathlib.Data.List.Induction

/-!
# What a store in memory answers

Texts are put into a store one after another, each under a path. What one of them changes is said
for every path at once (`MemoryStore.get?_insert`): the path finds the new text if it folds to the
same, and else what it found before. So a path finds the text that was put in last under a path that
folds to the same, and nothing if there was none (`MemoryStore.get?_ofList`).

A folded path folds to itself, so a store answers for a path what it answers for the place that the
path leads to. This is the case of all questions but one (`MemoryStore.answers_by_folded_path`): the
fault of a text that is not there tells the path as it was asked for, in its own spelling
(`MemoryStore.read_tells_spelling`).
-/

namespace LayeredConfig.MemoryStore

variable {m : MemoryStore} {documents : List (FilePath × String)} {p q : FilePath} {s : String}

/-! ### Putting texts in -/

theorem lookup_filter_of_ne {place place' : FilePath} (h : place' ≠ place) :
    (documents.filter (·.1 ≠ place)).lookup place' = documents.lookup place' := by
  induction documents with
  | nil => rfl
  | cons d r ih =>
    by_cases hd : d.1 = place
    · have hother : (place' == d.1) = false := by
        rw [hd]
        exact beq_false_of_ne h
      rw [List.filter_cons_of_neg (by simpa using hd), ih, List.lookup_cons, hother]
    · rw [List.filter_cons_of_pos (by simpa using hd), List.lookup_cons, List.lookup_cons, ih]

/-- **A text that is put in is found under the paths that fold to the same**, and other paths find
what they found before. -/
theorem get?_insert (m : MemoryStore) (p q : FilePath) (s : String) :
    (m.insert p s).get? q = if p.normalize = q.normalize then some s else m.get? q := by
  rw [get?, insert, List.lookup_cons]
  by_cases h : p.normalize = q.normalize
  · rw [if_pos h, h, beq_self_eq_true]
  · rw [if_neg h, beq_false_of_ne (Ne.symm h)]
    exact lookup_filter_of_ne (Ne.symm h)

theorem ofList_append_singleton (documents : List (FilePath × String)) (d : FilePath × String) :
    ofList (documents ++ [d]) = (ofList documents).insert d.1 d.2 := by
  rw [ofList, List.foldl_append]
  rfl

/-- **A path finds the text that was put in last** under a path that folds to the same. -/
theorem get?_ofList (documents : List (FilePath × String)) (q : FilePath) :
    (ofList documents).get? q =
      (documents.reverse.find? fun d ↦ d.1.normalize = q.normalize).map Prod.snd := by
  induction documents using List.reverseRecOn with
  | nil => rfl
  | append_singleton r d ih =>
    rw [ofList_append_singleton, get?_insert, ih, List.reverse_append, List.reverse_singleton,
      List.singleton_append]
    by_cases h : d.1.normalize = q.normalize
    · rw [if_pos h, List.find?_cons_of_pos (by simpa using h)]
      rfl
    · rw [if_neg h, List.find?_cons_of_neg (by simpa using h)]

/-- Of texts that were put in one after another, `s` is the last one under a path that folds to the
same as `q`. -/
def IsLast (documents : List (FilePath × String)) (q : FilePath) (s : String) : Prop :=
  ∃ before p after, documents = before ++ (p, s) :: after ∧ p.normalize = q.normalize ∧
    ∀ d ∈ after, d.1.normalize ≠ q.normalize

theorem get?_ofList_eq_some_iff : (ofList documents).get? q = some s ↔ IsLast documents q s := by
  rw [get?_ofList, Option.map_eq_some_iff]
  constructor
  · rintro ⟨⟨p, s⟩, hfind, rfl⟩
    obtain ⟨hp, later, earlier, hsplit, hlater⟩ := List.find?_eq_some_iff_append.1 hfind
    refine ⟨earlier.reverse, p, later.reverse, ?_, of_decide_eq_true hp, fun d hd ↦ ?_⟩
    · rw [← List.reverse_reverse documents, hsplit, List.reverse_append, List.reverse_cons,
        List.append_assoc, List.singleton_append]
    · simpa using hlater d (List.mem_reverse.1 hd)
  · rintro ⟨before, p, after, rfl, hp, hafter⟩
    refine ⟨(p, s), List.find?_eq_some_iff_append.2 ⟨decide_eq_true hp, after.reverse,
      before.reverse, ?_, fun d hd ↦ ?_⟩, rfl⟩
    · rw [List.reverse_append, List.reverse_cons, List.append_assoc, List.singleton_append]
    · simpa using hafter d (List.mem_reverse.1 hd)

theorem get?_ofList_eq_none_iff :
    (ofList documents).get? q = none ↔ ∀ d ∈ documents, d.1.normalize ≠ q.normalize := by
  rw [get?_ofList, Option.map_eq_none_iff, List.find?_eq_none]
  simp

/-! ### What is asked of a store -/

theorem read_eq_ok_iff : m.read q = .ok s ↔ m.get? q = some s := by
  rw [read]
  cases m.get? q <;> simp

/-- A fault tells the path as it was asked for. -/
theorem read_eq_error_iff {e : NotFound} : m.read q = .error e ↔ m.get? q = none ∧ e = ⟨q⟩ := by
  rw [read]
  cases m.get? q <;> simp [eq_comm]

theorem contains_iff : m.contains q = true ↔ ∃ s, m.read q = .ok s := by
  rw [contains, Option.isSome_iff_exists]
  exact exists_congr fun s ↦ read_eq_ok_iff.symm

theorem reader_identity (m : MemoryStore) (q : FilePath) : m.reader.identity q = q.normalize := rfl

/-- The path and the place that it leads to find the same. -/
theorem get?_identity (m : MemoryStore) (q : FilePath) :
    m.get? (m.reader.identity q) = m.get? q := by
  rw [get?, get?, reader_identity, q.normalize_normalize]

theorem read_identity (m : MemoryStore) (q : FilePath) :
    m.read (m.reader.identity q) = (m.read q).mapError fun _ ↦ ⟨m.reader.identity q⟩ := by
  rw [read, get?_identity, read]
  cases m.get? q <;> rfl

/-- **A store in memory knows paths by what they fold to.** A path folds to one with nothing left to
fold. Reading it finds the text that was put in last under a path that folds to the same, and fails
exactly if there is none; a path exists if reading it does not fail. And no answer for a path
differs from the one for the place that it leads to, except in the spelling that a fault tells. -/
theorem answers_by_folded_path (q : FilePath) :
    (q.normalize.normalize = q.normalize ∧ Component.IsFolded q.normalize.components) ∧
    (∀ documents : List (FilePath × String),
      (∀ s, (ofList documents).read q = .ok s ↔ IsLast documents q s) ∧
      ∀ e, (ofList documents).read q = .error e ↔
        (∀ d ∈ documents, d.1.normalize ≠ q.normalize) ∧ e = ⟨q⟩) ∧
    ∀ m : MemoryStore,
      (m.contains q = true ↔ ∃ s, m.read q = .ok s) ∧
      m.contains (m.reader.identity q) = m.contains q ∧
      m.reader.identity (m.reader.identity q) = m.reader.identity q ∧
      m.read (m.reader.identity q) = (m.read q).mapError fun _ ↦ ⟨m.reader.identity q⟩ := by
  refine ⟨⟨q.normalize_normalize, q.isFolded_components_normalize⟩,
    fun documents ↦ ⟨fun s ↦ ?_, fun e ↦ ?_⟩,
    fun m ↦ ⟨contains_iff, ?_, ?_, read_identity m q⟩⟩
  · rw [read_eq_ok_iff, get?_ofList_eq_some_iff]
  · rw [read_eq_error_iff, get?_ofList_eq_none_iff]
  · rw [contains, contains, get?_identity]
  · rw [reader_identity, reader_identity, q.normalize_normalize]

/-- **A fault tells the spelling of the path**: reading a missing path and reading the place that it
leads to fail with different faults. -/
theorem read_tells_spelling :
    ¬∀ (documents : List (FilePath × String)) (q : FilePath),
      (ofList documents).read ((ofList documents).reader.identity q) =
        (ofList documents).read q := by
  intro h
  have hsame := h [(⟨"/cfg/a.yaml"⟩, "foo: bar")] ⟨"/cfg/./b.yaml"⟩
  revert hsame
  decide

end LayeredConfig.MemoryStore
