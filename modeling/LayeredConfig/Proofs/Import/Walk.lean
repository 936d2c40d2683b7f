import LayeredConfig.Proofs.Stages
import LayeredConfig.Import.Assembly

/-!
# The walk along imports

What one document does on a walk, said once: `Sources.assemble_eq` is the whole of it, with the
stages behind the reading of the document named `Sources.assembleImports`, and
`Sources.assemble_eq_ok` and `Sources.assemble_eq_error` say how a document can succeed and fail.

`Reader.walk_induction` is the induction of the walk: a statement about a document holds if it
follows from the same statement about every document that it may go on with, whose stack has one
more place. No measure appears in the proofs that use it.
-/

namespace LayeredConfig

/-- **Induction along a walk.** What holds of a path and a stack as soon as it holds of every path
once the place of this one is on the stack, holds always. -/
theorem Reader.walk_induction (r : Reader) {motive : List FilePath → FilePath → Prop}
    (step : ∀ stack path, (∀ text, r.look path = .text text → r.identity path ∉ stack →
      ∀ next, motive (r.identity path :: stack) next) → motive stack path)
    (stack : List FilePath) (path : FilePath) : motive stack path := by
  induction stack using unvisited_induction r.places generalizing path with
  | step stack ih =>
    refine step stack path fun text hlook hstack next ↦ ?_
    exact ih _ (r.identity_mem path (by simp [hlook])) hstack next

namespace Sources

variable {s : Sources} {suppress : Bool} {stack : List FilePath} {depth : Nat}
  {path entry : FilePath}

/-- What a document with the given imports is laid over. -/
def baseLayer (s : Sources) (suppress : Bool) (depth : Nat) (imports : List ImportEntry) :
    Except LoadError Assembly :=
  if suppress || imports.any (·.isDefault) then .ok .empty else s.defaultLayer depth

/-- A document that has been read, laid over all that it imports. -/
def assembleImports (s : Sources) (suppress : Bool) (stack : List FilePath) (depth : Nat)
    (path : FilePath) (imports : List ImportEntry) (own : Tree) : Except LoadError Assembly := do
  let base ← s.baseLayer suppress depth imports
  let below := s.assemble true (s.reader.identity path :: stack) (depth + 1)
  let layers ← base.addAll (s.contribution below (depth + 1) path) imports
  .ok ⟨layers.tree.merge own,
    ⟨path, if depth = 0 then .entry else .imported, depth⟩ :: layers.documents⟩

/-- All that a document on a walk does. -/
theorem assemble_eq (s : Sources) (suppress : Bool) (stack : List FilePath) (depth : Nat)
    (path : FilePath) :
    s.assemble suppress stack depth path =
      if s.reader.identity path ∈ stack then
        .error (.circularImport (s.reader.identity path :: stack).reverse)
      else match s.reader.look path with
        | .text text => readDocument path text >>= fun d ↦
          s.assembleImports suppress stack depth path d.1 d.2
        | _ => .error (.unreadable path) := by
  by_cases hstack : s.reader.identity path ∈ stack
  · rw [assemble, dif_pos hstack, if_pos hstack]
  · rw [assemble, dif_neg hstack, if_neg hstack]
    split
    · rename_i text hlook
      rw [hlook]
      refine congrArg (readDocument path text >>= ·) (funext fun d ↦ ?_)
      obtain ⟨imports, own⟩ := d
      dsimp only [assembleImports, baseLayer]
      split <;> rfl
    · rename_i hlook
      split
      · rename_i text hlook'
        exact absurd hlook' (hlook text)
      · rfl

/-- How a document succeeds. -/
theorem assemble_eq_ok {a : Assembly} (h : s.assemble suppress stack depth path = .ok a) :
    s.reader.identity path ∉ stack ∧ ∃ text imports own, s.reader.look path = .text text ∧
      readDocument path text = .ok (imports, own) ∧
      s.assembleImports suppress stack depth path imports own = .ok a := by
  rw [assemble_eq] at h
  split at h
  · cases h
  · refine ⟨‹_›, ?_⟩
    split at h
    · rename_i text hlook
      obtain ⟨⟨imports, own⟩, hread, h⟩ := bind_eq_ok_iff.1 h
      exact ⟨text, imports, own, hlook, hread, h⟩
    · cases h

/-- How a document fails: its place is on the stack, it cannot be read, it is not a document, or
what is laid under it fails. -/
theorem assemble_eq_error {e : LoadError} (h : s.assemble suppress stack depth path = .error e) :
    s.reader.identity path ∈ stack ∧
        e = .circularImport (s.reader.identity path :: stack).reverse ∨
      e = .unreadable path ∨
      ∃ text, s.reader.look path = .text text ∧ (readDocument path text = .error e ∨
        s.reader.identity path ∉ stack ∧ ∃ imports own,
          readDocument path text = .ok (imports, own) ∧
          s.assembleImports suppress stack depth path imports own = .error e) := by
  rw [assemble_eq] at h
  split at h
  · cases h
    exact Or.inl ⟨‹_›, rfl⟩
  · split at h
    · rename_i hstack _ text hlook
      refine Or.inr (Or.inr ⟨text, hlook, ?_⟩)
      rcases bind_eq_error_iff.1 h with h | ⟨⟨imports, own⟩, hread, h⟩
      · exact Or.inl h
      · exact Or.inr ⟨hstack, imports, own, hread, h⟩
    · cases h
      exact Or.inr (Or.inl rfl)

/-- A document that succeeds exists. -/
theorem has_of_assemble {a : Assembly} (h : s.assemble suppress stack depth path = .ok a) :
    s.reader.has path = true := by
  obtain ⟨-, text, -, -, hlook, -⟩ := assemble_eq_ok h
  simp [Reader.has, hlook]

/-- An entry that exists is assembled like an import, on an empty stack. -/
theorem assembleEntry_of_has (h : s.reader.has entry = true) :
    s.assembleEntry entry suppress = s.assemble suppress [] 0 entry := by
  rw [assembleEntry, if_pos h]

/-- An import that fails does so by itself, or because of the document that it names. -/
theorem contribution_eq_error {assemble : FilePath → Except LoadError Assembly}
    {importer : FilePath} {i : ImportEntry} {e : LoadError}
    (h : s.contribution assemble depth importer i = .error e) :
    i.isDefault = true ∧ s.defaultLayer depth = .error e ∨
      s.importPath importer i.path = .error e ∨
      i.isDefault = false ∧ ∃ next, s.importPath importer i.path = .ok next ∧
        (assemble next = .error e ∨ e = .missingImport next importer) := by
  rw [contribution] at h
  split at h
  · exact Or.inl ⟨‹_›, h⟩
  · rename_i hdefault
    rcases bind_eq_error_iff.1 h with h | ⟨next, hnext, h⟩
    · exact Or.inr (Or.inl h)
    · refine Or.inr (Or.inr ⟨by simpa using hdefault, next, hnext, ?_⟩)
      split at h
      · exact Or.inl h
      · cases h
        exact Or.inr rfl

end Sources

/-- If laying imports over one another fails, one of the imports does. -/
theorem Assembly.addAll_eq_error {contribution : ImportEntry → Except LoadError Assembly}
    {base : Assembly} {imports : List ImportEntry} {e : LoadError}
    (h : base.addAll contribution imports = .error e) :
    ∃ i ∈ imports, contribution i = .error e := by
  induction imports generalizing base with
  | nil => cases h
  | cons i r ih =>
    rcases bind_eq_error_iff.1 h with h | ⟨b, -, h⟩
    · exact ⟨i, List.mem_cons_self, h⟩
    · obtain ⟨i', hi', h⟩ := ih h
      exact ⟨i', List.mem_cons_of_mem _ hi', h⟩

/-- If laying imports over one another succeeds, every import does. -/
theorem Assembly.exists_of_addAll {contribution : ImportEntry → Except LoadError Assembly}
    {base a : Assembly} {imports : List ImportEntry}
    (h : base.addAll contribution imports = .ok a) {i : ImportEntry} (hi : i ∈ imports) :
    ∃ b, contribution i = .ok b := by
  induction imports generalizing base with
  | nil => cases hi
  | cons i' r ih =>
    obtain ⟨b, hb, h⟩ := bind_eq_ok_iff.1 h
    rcases List.mem_cons.1 hi with rfl | hi
    · exact ⟨b, hb⟩
    · exact ih h hi

end LayeredConfig
