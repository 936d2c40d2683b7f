import LayeredConfig.Proofs.Placeholder.Rendering
import LayeredConfig.Proofs.Placeholder.Strictness
import LayeredConfig.Proofs.Tree.Overwriting

/-!
# Substitution whose look-ups answer

A strict substitution ends for one of two reasons: a placeholder has no value, or a container cannot
be embedded in a text. When every look-up answers (`Scope.Answers`), the first is out of the
question (`Scope.failsOnlyWith_substituteValue`).

Whether a look-up answers may depend on the key of the string that it is made for. So the strings of
a value are listed with the keys that substitution gives them (`Value.keyedStrings`). These are not
places: the items of a sequence all have the key of the sequence. Writing over one string keeps the
keys of the others (`Value.Overwritten.mem_keyedStrings_of_mem`).
-/

namespace LayeredConfig

/-! ### Keys of strings -/

namespace Value

mutual

/-- The strings of the value at `key`, each with the key that substitution on demand gives it. -/
def keyedStrings (key : String) : Value → List (String × String)
  | .string s => [(key, s)]
  | .sequence items => keyedItemStrings key items
  | .mapping entries => keyedEntryStrings key entries
  | _ => []

/-- The strings of items, which have the key of their sequence. -/
def keyedItemStrings (key : String) : List Value → List (String × String)
  | [] => []
  | v :: r => v.keyedStrings key ++ keyedItemStrings key r

/-- The strings in the values of entries, which have the text of the entry's key behind the key of
their mapping. -/
def keyedEntryStrings (key : String) : List (Value × Value) → List (String × String)
  | [] => []
  | (k, v) :: r =>
    v.keyedStrings (key ++ pathSeparator.toString ++ k.keyText) ++ keyedEntryStrings key r

end

mutual

/-- Without their keys they are the strings of the value. -/
theorem map_snd_keyedStrings :
    ∀ (v : Value) (key : String), (v.keyedStrings key).map Prod.snd = v.strings
  | .string _, _ => rfl
  | .sequence items, key => map_snd_keyedItemStrings items key
  | .mapping entries, key => map_snd_keyedEntryStrings entries key
  | .null, _ | .bool _, _ | .int _, _ | .float _, _ | .tagged _ _, _ => rfl

theorem map_snd_keyedItemStrings :
    ∀ (items : List Value) (key : String),
      (keyedItemStrings key items).map Prod.snd = itemStrings items
  | [], _ => rfl
  | v :: r, key => by
    rw [keyedItemStrings, List.map_append, map_snd_keyedStrings, map_snd_keyedItemStrings,
      itemStrings]

theorem map_snd_keyedEntryStrings :
    ∀ (entries : List (Value × Value)) (key : String),
      (keyedEntryStrings key entries).map Prod.snd = entryStrings entries
  | [], _ => rfl
  | (k, v) :: r, key => by
    rw [keyedEntryStrings, List.map_append, map_snd_keyedStrings, map_snd_keyedEntryStrings,
      entryStrings]

end

variable {v v' w : Value} {s key : String}

theorem mem_strings_of_mem_keyedStrings {e : String × String} (he : e ∈ v.keyedStrings key) :
    e.2 ∈ v.strings := by
  rw [← map_snd_keyedStrings v key]
  exact List.mem_map_of_mem he

theorem exists_mem_keyedStrings (key : String) (hs : s ∈ v.strings) :
    ∃ e ∈ v.keyedStrings key, e.2 = s := by
  rw [← map_snd_keyedStrings v key] at hs
  exact List.mem_map.1 hs

theorem keyedItemStrings_append (items items' : List Value) :
    keyedItemStrings key (items ++ items') =
      keyedItemStrings key items ++ keyedItemStrings key items' := by
  induction items with
  | nil => rfl
  | cons v r ih =>
    rw [List.cons_append, keyedItemStrings, ih, ← List.append_assoc, keyedItemStrings]

theorem keyedEntryStrings_append (entries entries' : List (Value × Value)) :
    keyedEntryStrings key (entries ++ entries') =
      keyedEntryStrings key entries ++ keyedEntryStrings key entries' := by
  induction entries with
  | nil => rfl
  | cons e r ih =>
    obtain ⟨k, v⟩ := e
    rw [List.cons_append, keyedEntryStrings, ih, ← List.append_assoc, keyedEntryStrings]

namespace Overwritten

/-- The string that is written over was there. -/
theorem self_mem_strings (h : Overwritten s w v v') : s ∈ v.strings := by
  induction h with
  | here => exact List.mem_singleton_self _
  | @item before after c _ _ ih => exact mem_itemStrings.2 ⟨c, by simp, ih⟩
  | @entry before after k c _ _ ih => exact mem_entryStrings.2 ⟨(k, c), by simp, ih⟩

/-- Writing over a string keeps the keys of the others. -/
theorem mem_keyedStrings_of_mem (h : Overwritten s w v v') {e : String × String}
    (he : e ∈ v'.keyedStrings key) : e ∈ v.keyedStrings key ∨ e.2 ∈ w.strings := by
  induction h generalizing key with
  | here => exact Or.inr (mem_strings_of_mem_keyedStrings he)
  | item _ ih =>
    rw [keyedStrings, keyedItemStrings_append, keyedItemStrings] at he ⊢
    rcases List.mem_append.1 he with he | he
    · exact Or.inl (List.mem_append_left _ he)
    · rcases List.mem_append.1 he with he | he
      · exact (ih he).imp_left fun he ↦ List.mem_append_right _ (List.mem_append_left _ he)
      · exact Or.inl (List.mem_append_right _ (List.mem_append_right _ he))
  | entry _ ih =>
    rw [keyedStrings, keyedEntryStrings_append, keyedEntryStrings] at he ⊢
    rcases List.mem_append.1 he with he | he
    · exact Or.inl (List.mem_append_left _ he)
    · rcases List.mem_append.1 he with he | he
      · exact (ih he).imp_left fun he ↦ List.mem_append_right _ (List.mem_append_left _ he)
      · exact Or.inl (List.mem_append_right _ (List.mem_append_right _ he))

end Overwritten

end Value

namespace Scope

variable {σ : Scope} {s key : String}

/-- Every variable and every constant that the text names has a value. -/
def Supplies (σ : Scope) (s : String) : Prop :=
  ∀ p, .placeholder p ∈ Placeholder.ofString s →
    (p.kind = .environment → ∃ value, σ.environment p.identifier = some value) ∧
    (p.kind = .constant → ∃ value, σ.constants.get? p.identifier = some value)

/-! ### Answers -/

open LoadError (IsNonScalar)

/-- A look-up answers when it finds a value, or else ends with a container that a text cannot hold.
-/
structure Answers (x : Except LoadError (Option Value)) : Prop where
  /-- How it can end. -/
  failsOnlyWith : FailsOnlyWith IsNonScalar x
  /-- It does not go without a value. -/
  ne_none : x ≠ .ok none

section Lookups

variable {lookup : Lookup}

theorem answers_value? {p : Placeholder} (hs : σ.Supplies s)
    (hp : .placeholder p ∈ Placeholder.ofString s)
    (h : ∀ path ∈ Placeholder.references s, Answers (lookup path key)) :
    Answers (σ.value? lookup key p) := by
  rw [value?]
  split
  · rename_i hkind
    obtain ⟨value, hvalue⟩ := (hs p hp).1 hkind
    exact ⟨.ok _, by simp [hvalue]⟩
  · rename_i hkind
    obtain ⟨value, hvalue⟩ := (hs p hp).2 hkind
    exact ⟨.ok _, by simp [hvalue]⟩
  · rename_i hkind
    refine h p.identifier (Placeholder.mem_references.2 ?_)
    rw [← hkind]
    exact hp

theorem failsOnlyWith_pieceText {piece : Piece}
    (h : ∀ p, piece = .placeholder p → Answers (σ.value? lookup key p)) :
    FailsOnlyWith IsNonScalar (σ.pieceText lookup key piece) := by
  cases piece with
  | literal text => exact .ok _
  | placeholder p =>
    intro e he
    rcases bind_eq_error_iff.1 he with he | ⟨_ | v, hv, he⟩
    · exact (h p rfl).failsOnlyWith e he
    · exact absurd hv (h p rfl).ne_none
    · cases hscalar : v.scalarText? with
      | some s => simp [hscalar] at he
      | none =>
        refine ⟨p.expression, key, ?_⟩
        simpa [hscalar, eq_comm] using he

theorem failsOnlyWith_piecesText {ps : List Piece}
    (h : ∀ p, .placeholder p ∈ ps → Answers (σ.value? lookup key p)) :
    FailsOnlyWith IsNonScalar (σ.piecesText lookup key ps) := by
  induction ps with
  | nil => exact .ok _
  | cons piece r ih =>
    have hpiece : ∀ p, piece = .placeholder p → Answers (σ.value? lookup key p) := by
      rintro p rfl
      exact h p List.mem_cons_self
    have hrest := ih fun p hp ↦ h p (List.mem_cons_of_mem _ hp)
    exact .bind (failsOnlyWith_pieceText hpiece) fun _ ↦ .bind hrest fun _ ↦ .ok _

/-- A text whose look-ups answer is not left with a placeholder without a value. -/
theorem failsOnlyWith_substitute (hs : σ.Supplies s)
    (h : ∀ path ∈ Placeholder.references s, Answers (lookup path key)) :
    FailsOnlyWith IsNonScalar (σ.substitute lookup key s) := by
  have hvalue : ∀ p, .placeholder p ∈ Placeholder.ofString s →
      Answers (σ.value? lookup key p) :=
    fun p hp ↦ answers_value? hs hp h
  rw [substitute]
  split
  · rename_i p hlone
    have hp := hvalue p (hlone ▸ List.mem_singleton_self _)
    intro e he
    rcases bind_eq_error_iff.1 he with he | ⟨_ | v, hv, he⟩
    · exact hp.failsOnlyWith e he
    · exact absurd hv hp.ne_none
    · cases he
  · exact .bind (failsOnlyWith_piecesText hvalue) fun _ ↦ .ok _

mutual

/-- The same for all strings of a value, each at its own key. -/
theorem failsOnlyWith_substituteValue : ∀ {v : Value} {key : String},
    (∀ e ∈ v.keyedStrings key, σ.Supplies e.2 ∧
      ∀ path ∈ Placeholder.references e.2, Answers (lookup path e.1)) →
    FailsOnlyWith IsNonScalar (σ.substituteValue lookup key v)
  | .string s, key, h => by
    obtain ⟨hs, hlookup⟩ := h (key, s) (List.mem_singleton_self _)
    exact failsOnlyWith_substitute hs hlookup
  | .sequence _, _, h => .bind (failsOnlyWith_substituteItems h) fun _ ↦ .ok _
  | .mapping _, _, h => .bind (failsOnlyWith_substituteEntries h) fun _ ↦ .ok _
  | .null, _, _ | .bool _, _, _ | .int _, _, _ | .float _, _, _ | .tagged _ _, _, _ => .ok _

theorem failsOnlyWith_substituteItems : ∀ {items : List Value} {key : String},
    (∀ e ∈ Value.keyedItemStrings key items, σ.Supplies e.2 ∧
      ∀ path ∈ Placeholder.references e.2, Answers (lookup path e.1)) →
    FailsOnlyWith IsNonScalar (σ.substituteItems lookup key items)
  | [], _, _ => .ok _
  | _ :: _, _, h =>
    .bind (failsOnlyWith_substituteValue fun e he ↦ h e (List.mem_append_left _ he)) fun _ ↦
      .bind (failsOnlyWith_substituteItems fun e he ↦ h e (List.mem_append_right _ he)) fun _ ↦
        .ok _

theorem failsOnlyWith_substituteEntries : ∀ {entries : List (Value × Value)} {key : String},
    (∀ e ∈ Value.keyedEntryStrings key entries, σ.Supplies e.2 ∧
      ∀ path ∈ Placeholder.references e.2, Answers (lookup path e.1)) →
    FailsOnlyWith IsNonScalar (σ.substituteEntries lookup key entries)
  | [], _, _ => .ok _
  | (_, _) :: _, _, h =>
    .bind (failsOnlyWith_substituteValue fun e he ↦ h e (List.mem_append_left _ he)) fun _ ↦
      .bind (failsOnlyWith_substituteEntries fun e he ↦ h e (List.mem_append_right _ he)) fun _ ↦
        .ok _

end

end Lookups

end Scope

end LayeredConfig
