import LayeredConfig.Proofs.Placeholder.Occurrences
import LayeredConfig.Proofs.Placeholder.Strictness

/-!
# A text that stands in no tree

A path to import is a text whose placeholders may name environment variables and constants; a
reference has nothing to refer to and no value. `expand_exact` says what such a text becomes: cut at
the placeholders that `Placeholder.occurrences` finds, with the text of its value in the place of
each (`Scope.filledIn`). A value is put in as it is, and is not searched for placeholders again.

Going through the pieces of a text is going from one occurrence to the next, in whatever tree the
text stands (`piecesText_eq_splice`). A text that is one placeholder is not gone through, since its
value is to keep its kind; without a tree all values are texts, and it makes no difference
(`expand_eq_splice`).
-/

namespace LayeredConfig

/-! ### Cutting a text when a placeholder may have no text -/

namespace Placeholder

variable {ε : Type} {s : String} {last : Nat} {os : List Occurrence}

/-- If every placeholder has a text, nothing stops the cutting. -/
theorem splice_ok (g : Placeholder → String) :
    splice s (fun p ↦ (Except.ok (g p) : Except ε String)) last os =
      .ok (Id.run (splice s (fun p ↦ pure (g p)) last os)) := by
  induction os generalizing last with
  | nil => rfl
  | cons o r ih =>
    simp only [splice, ih]
    rfl

/-- If placeholders without a text are errors, the first of them is the one that is answered. -/
theorem splice_find? (g : Placeholder → Option String) (e : Placeholder → ε) :
    splice s (fun p ↦ match g p with
      | some text => Except.ok text
      | none => Except.error (e p)) last os =
    match os.find? fun o ↦ (g o.placeholder).isNone with
    | none => .ok (Id.run (splice s (fun p ↦ pure ((g p).getD "")) last os))
    | some o => .error (e o.placeholder) := by
  induction os generalizing last with
  | nil => rfl
  | cons o r ih =>
    cases h : g o.placeholder with
    | none =>
      simp only [splice, h, List.find?_cons, Option.isNone_none]
      rfl
    | some text =>
      simp only [splice, h, ih, List.find?_cons, Option.isNone_some, Option.getD_some]
      cases List.find? (fun o ↦ (g o.placeholder).isNone) r <;> rfl

end Placeholder

namespace Scope

open Placeholder (occurrences splice spell)

variable {σ : Scope} {lookup : Lookup} {key text : String}

/-! ### The pieces of a text one after another -/

theorem piecesText_eq_mapM (ps : List Piece) :
    σ.piecesText lookup key ps = String.join <$> ps.mapM (σ.pieceText lookup key) := by
  induction ps with
  | nil => rfl
  | cons piece r ih =>
    rw [piecesText, ih, List.mapM_cons]
    simp only [map_eq_pure_bind, bind_assoc, pure_bind, String.join_cons]
    rfl

/-- **A text is gone through from one placeholder to the next.** -/
theorem piecesText_eq_splice (σ : Scope) (lookup : Lookup) (key text : String) :
    σ.piecesText lookup key (Placeholder.ofString text) =
      splice text (fun p ↦ σ.pieceText lookup key (.placeholder p)) 0 (occurrences text) := by
  have hspell : σ.pieceText lookup key =
      spell fun p ↦ σ.pieceText lookup key (.placeholder p) := by
    funext piece
    cases piece <;> rfl
  rw [Placeholder.splice_occurrences, piecesText_eq_mapM, ← hspell]

/-! ### Without a tree -/

/-- The text of a placeholder that stands in no tree. -/
def textOutside? (σ : Scope) (p : Placeholder) : Option String :=
  match p.kind with
  | .environment => σ.environment p.identifier
  | .constant => σ.constants.get? p.identifier
  | .configuration => none

/-- Where there is no tree, no reference has a value. -/
theorem reference?_nil (stack : List String) (path key : String) :
    σ.reference? [] [] stack path key = .ok none := by
  rw [reference?_eq]
  simp

theorem value?_outside (key : String) (p : Placeholder) :
    σ.value? (σ.reference? [] [] []) key p = .ok ((σ.textOutside? p).map .string) := by
  obtain ⟨kind, identifier⟩ := p
  cases kind with
  | environment | constant => rfl
  | configuration => exact reference?_nil [] identifier key

theorem pieceText_outside (key : String) (p : Placeholder) :
    σ.pieceText (σ.reference? [] [] []) key (.placeholder p) =
      match σ.textOutside? p with
      | some s => .ok s
      | none => σ.absent key p "" := by
  rw [pieceText, value?_outside]
  cases σ.textOutside? p <;> rfl

/-- **A text that is one placeholder is no exception**: what it becomes is what going through it
would make of it. -/
theorem expand_eq_splice (σ : Scope) (key text : String) :
    σ.expand key text =
      splice text (fun p ↦ σ.pieceText (σ.reference? [] [] []) key (.placeholder p)) 0
        (occurrences text) := by
  rw [← piecesText_eq_splice, expand, substituteIn, substitute]
  split
  · rename_i p hlone
    rw [hlone, piecesText, piecesText, pieceText_outside]
    -- The references of the empty tree are none.
    have hvalue : σ.value? (σ.reference? [] (Tree.references []) []) key p =
        .ok ((σ.textOutside? p).map .string) := value?_outside key p
    rw [hvalue]
    cases σ.textOutside? p with
    | none =>
      simp only [absent]
      split <;> rfl
    | some s => exact congrArg Except.ok String.append_empty.symm
  · change (σ.piecesText (σ.reference? [] [] []) key _ >>= _) >>= _ = _
    cases σ.piecesText (σ.reference? [] [] []) key (Placeholder.ofString text) <;> rfl

/-- The text with the text of its value in the place of each placeholder, and with nothing in the
place of one without a value. -/
def filledIn (σ : Scope) (text : String) : String :=
  Id.run (splice text (fun p ↦ pure ((σ.textOutside? p).getD "")) 0 (occurrences text))

theorem expand_lenient (σ : Scope) (key text : String) :
    σ.lenient.expand key text = .ok (σ.filledIn text) := by
  have hpiece : ∀ p, σ.lenient.pieceText (σ.lenient.reference? [] [] []) key (.placeholder p) =
      .ok ((σ.textOutside? p).getD "") := by
    intro p
    have htext : σ.lenient.textOutside? p = σ.textOutside? p := rfl
    rw [pieceText_outside, htext]
    cases σ.textOutside? p <;> rfl
  rw [expand_eq_splice, funext hpiece, Placeholder.splice_ok, filledIn]

theorem expand_of_strict (hσ : σ.strict = true) (key text : String) :
    σ.expand key text =
      match (occurrences text).find? fun o ↦ (σ.textOutside? o.placeholder).isNone with
      | none => .ok (σ.filledIn text)
      | some o => .error (.unresolvedPlaceholder o.placeholder.expression key) := by
  have hpiece : ∀ p, σ.pieceText (σ.reference? [] [] []) key (.placeholder p) =
      match σ.textOutside? p with
      | some s => .ok s
      | none => .error (.unresolvedPlaceholder p.expression key) := by
    intro p
    rw [pieceText_outside, absent, if_pos hσ]
  rw [expand_eq_splice, funext hpiece, Placeholder.splice_find?, filledIn]

/-- **What a text becomes that stands in no tree.** Without strictness each placeholder gives way to
its text, or to nothing if it has none, and all else stays; with it, the first placeholder that has
no text is an error, and the same text is answered if there is none. -/
theorem expand_exact (σ : Scope) (key text : String) :
    σ.lenient.expand key text = .ok (σ.filledIn text) ∧
    { σ with strict := true }.expand key text =
      (match (occurrences text).find? fun o ↦ (σ.textOutside? o.placeholder).isNone with
      | none => .ok (σ.filledIn text)
      | some o => .error (.unresolvedPlaceholder o.placeholder.expression key)) ∧
    σ.expand key text =
      splice text (fun p ↦ σ.pieceText (σ.reference? [] [] []) key (.placeholder p)) 0
        (occurrences text) ∧
    ∀ p k, σ.expand key text ≠ .error (.nonScalarInterpolation p k) := by
  refine ⟨expand_lenient σ key text,
    expand_of_strict (σ := { σ with strict := true }) rfl key text,
    expand_eq_splice σ key text, fun p k h ↦ ?_⟩
  cases hσ : σ.strict with
  | false =>
    have hlenient : σ.lenient = σ := by rw [lenient, ← hσ]
    rw [← hlenient, expand_lenient] at h
    cases h
  | true =>
    rw [expand_of_strict hσ] at h
    split at h <;> cases h

/-- A value that looks like a placeholder is put in as it is. -/
example : filledIn ⟨fun _ ↦ some "%env(A)%", .empty, false⟩ "<%env(A)%|%conf(a)%>" =
    "<%env(A)%|>" := by
  decide +kernel

end Scope

end LayeredConfig
