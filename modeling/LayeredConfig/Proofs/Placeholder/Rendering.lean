import LayeredConfig.Proofs.Stages
import LayeredConfig.Placeholder.Substitution

/-!
# Rendering under a reading

The meaning of a text with placeholders, without a walk, a stack or a cause of failure: a `Reading`
says what each reference reads, `Scope.read` what each placeholder then stands for, and
`Scope.render` what the text becomes. There is no rendering if a placeholder has no value, or if an
embedded one stands for a mapping or a sequence. `Scope.renderValue` renders every string of a value
in its place, tagged values left out.

Three facts tie renderings together and to the substitution that runs:

* a rendering stays when the reading is extended, and only the references of the value count
  (`renderValue_mono_on`);
* a value without placeholders, which `Value.isSettled` tells, renders to itself under every reading
  (`renderValue_of_isSettled`);
* in a strict scope, what substitution answers is a rendering under every reading that agrees with
  its look-ups (`renderValue_of_substituteValue`). Strictness is used: a lenient substitution goes
  on where there is no rendering.
-/

namespace LayeredConfig

/-- What references read: the value of each identifier that has one. -/
abbrev Reading := String → Option Value

/-- A reading extends another when it reads the same wherever the other reads something. -/
def Reading.Extends (ρ' ρ : Reading) : Prop :=
  ∀ ⦃path v⦄, ρ path = some v → ρ' path = some v

namespace Scope

/-- What a placeholder stands for. -/
def read (σ : Scope) (ρ : Reading) (p : Placeholder) : Option Value :=
  match p.kind with
  | .environment => (σ.environment p.identifier).map .string
  | .constant => (σ.constants.get? p.identifier).map .string
  | .configuration => ρ p.identifier

/-- Pieces of a text with the text of its value for each placeholder. -/
def renderPieces (σ : Scope) (ρ : Reading) : List Piece → Option String
  | [] => some ""
  | .literal text :: r => (σ.renderPieces ρ r).map (String.ofList text ++ ·)
  | .placeholder p :: r =>
    (σ.read ρ p).bind fun v ↦ v.scalarText?.bind fun s ↦ (σ.renderPieces ρ r).map (s ++ ·)

/-- What a text becomes: a lone placeholder the value that it stands for, of whatever kind, any
other text a string. -/
def render (σ : Scope) (ρ : Reading) (text : String) : Option Value :=
  match Placeholder.ofString text with
  | [.placeholder p] => σ.read ρ p
  | pieces => (σ.renderPieces ρ pieces).map .string

/-- A lone placeholder keeps the kind of what it stands for. -/
theorem render_of_lone {σ : Scope} {ρ : Reading} {text : String} {p : Placeholder}
    (h : Placeholder.ofString text = [.placeholder p]) : σ.render ρ text = σ.read ρ p := by
  rw [render, h]

/-- Any other text becomes a string. -/
theorem render_of_not_lone {σ : Scope} {ρ : Reading} {text : String}
    (h : ∀ p, Placeholder.ofString text ≠ [.placeholder p]) :
    σ.render ρ text = (σ.renderPieces ρ (Placeholder.ofString text)).map .string := by
  rw [render]
  split
  · rename_i p hp
    exact absurd hp (h p)
  · rfl

mutual

/-- A value with every string rendered. -/
def renderValue (σ : Scope) (ρ : Reading) : Value → Option Value
  | .string s => σ.render ρ s
  | .sequence items => (renderItems σ ρ items).map .sequence
  | .mapping entries => (renderEntries σ ρ entries).map .mapping
  | v => some v

/-- Items with every string rendered. -/
def renderItems (σ : Scope) (ρ : Reading) : List Value → Option (List Value)
  | [] => some []
  | v :: r => (renderValue σ ρ v).bind fun v' ↦ (renderItems σ ρ r).map (v' :: ·)

/-- Entries with every string of their values rendered. -/
def renderEntries (σ : Scope) (ρ : Reading) :
    List (Value × Value) → Option (List (Value × Value))
  | [] => some []
  | (k, v) :: r => (renderValue σ ρ v).bind fun v' ↦ (renderEntries σ ρ r).map ((k, v') :: ·)

end

end Scope

namespace Value

mutual

/-- No string of the value holds a placeholder, tagged values left out. -/
def isSettled : Value → Bool
  | .string s => !Placeholder.occursIn s
  | .sequence items => itemsSettled items
  | .mapping entries => entriesSettled entries
  | _ => true

/-- No string of the items holds a placeholder. -/
def itemsSettled : List Value → Bool
  | [] => true
  | v :: r => v.isSettled && itemsSettled r

/-- No string in the values of the entries holds a placeholder. -/
def entriesSettled : List (Value × Value) → Bool
  | [] => true
  | (_, v) :: r => v.isSettled && entriesSettled r

end

end Value

/-! ### Pieces give the text back -/

namespace Placeholder

theorem pieces_of_read?_eq_some {c : Char} {r rest : List Char} {p : Placeholder}
    (h : read? (c :: r) = some (p, rest)) : pieces (c :: r) = .placeholder p :: pieces rest := by
  rw [pieces]
  split
  · rename_i p' rest' h'
    obtain ⟨rfl, rfl⟩ : p = p' ∧ rest = rest' := by simpa [h] using h'
    rfl
  · rename_i h'
    simp [h] at h'

theorem pieces_of_read?_eq_none {c : Char} {r : List Char} (h : read? (c :: r) = none) :
    pieces (c :: r) = consLiteral c (pieces r) := by
  rw [pieces]
  split
  · rename_i h'
    simp [h] at h'
  · rfl

/-- A piece as it stands in the text. -/
def written : Piece → List Char
  | .literal text => text
  | .placeholder p => p.expression.toList

theorem flatMap_written_consLiteral (c : Char) (ps : List Piece) :
    (consLiteral c ps).flatMap written = c :: ps.flatMap written := by
  unfold consLiteral
  split <;> simp [written]

/-- **The pieces of a text, put together, are the text.** -/
theorem flatMap_written_pieces (cs : List Char) : (pieces cs).flatMap written = cs := by
  induction cs using pieces.induct with
  | case1 => simp [pieces]
  | case2 c r p rest h ih =>
    rw [pieces_of_read?_eq_some h, List.flatMap_cons, ih, eq_of_read?_eq_some h]
    rfl
  | case3 c r h ih => rw [pieces_of_read?_eq_none h, flatMap_written_consLiteral, ih]

end Placeholder

theorem Placeholder.mem_references {s path : String} :
    path ∈ Placeholder.references s ↔
      .placeholder ⟨.configuration, path⟩ ∈ Placeholder.ofString s := by
  rw [Placeholder.references, List.mem_filterMap]
  constructor
  · rintro ⟨piece, hpiece, hpath⟩
    split at hpath
    · obtain rfl := Option.some.inj hpath
      exact hpiece
    · cases hpath
  · intro h
    exact ⟨_, h, rfl⟩

/-- A text that `occursIn` finds no placeholder in has none among its pieces. -/
theorem Placeholder.not_mem_of_occursIn_eq_false {s : String} (h : Placeholder.occursIn s = false)
    (p : Placeholder) : .placeholder p ∉ Placeholder.ofString s := by
  intro hp
  have := List.any_eq_false.1 h _ hp
  simp at this

/-- Nor has it a reference. -/
theorem Placeholder.not_mem_references {s path : String}
    (h : Placeholder.occursIn s = false) : path ∉ Placeholder.references s :=
  fun hpath ↦ Placeholder.not_mem_of_occursIn_eq_false h _ (Placeholder.mem_references.1 hpath)

/-! ### Renderings under two readings -/

/-- A reading extends another on the given references. -/
def Reading.ExtendsOn (ρ' ρ : Reading) (paths : List String) : Prop :=
  ∀ path ∈ paths, ∀ v, ρ path = some v → ρ' path = some v

theorem Reading.Extends.on {ρ ρ' : Reading} (h : ρ'.Extends ρ) (paths : List String) :
    ρ'.ExtendsOn ρ paths :=
  fun _ _ _ hv ↦ h hv

theorem Reading.ExtendsOn.mono {ρ ρ' : Reading} {paths paths' : List String}
    (h : ρ'.ExtendsOn ρ paths') (hsub : paths ⊆ paths') : ρ'.ExtendsOn ρ paths :=
  fun path hpath ↦ h path (hsub hpath)

namespace Scope

variable {σ : Scope} {ρ ρ' : Reading}

theorem read_mono {p : Placeholder} {v : Value}
    (h : p.kind = .configuration → ρ p.identifier = some v → ρ' p.identifier = some v)
    (hv : σ.read ρ p = some v) : σ.read ρ' p = some v := by
  cases hkind : p.kind with
  | environment => simpa [read, hkind] using hv
  | constant => simpa [read, hkind] using hv
  | configuration =>
    have hρ : ρ p.identifier = some v := by simpa [read, hkind] using hv
    simpa [read, hkind] using h hkind hρ

theorem renderPieces_mono {ps : List Piece}
    (h : ∀ path, .placeholder ⟨.configuration, path⟩ ∈ ps →
      ∀ v, ρ path = some v → ρ' path = some v)
    {s : String} (hs : σ.renderPieces ρ ps = some s) : σ.renderPieces ρ' ps = some s := by
  induction ps generalizing s with
  | nil => exact hs
  | cons piece r ih =>
    have ih : ∀ {s : String}, σ.renderPieces ρ r = some s → σ.renderPieces ρ' r = some s :=
      ih fun path hpath ↦ h path (List.mem_cons_of_mem _ hpath)
    cases piece with
    | literal text =>
      obtain ⟨s', hs', rfl⟩ := Option.map_eq_some_iff.1 hs
      rw [renderPieces, ih hs', Option.map_some]
    | placeholder p =>
      obtain ⟨v, hv, hs⟩ := Option.bind_eq_some_iff.1 hs
      obtain ⟨s₁, hs₁, hs⟩ := Option.bind_eq_some_iff.1 hs
      obtain ⟨s₂, hs₂, rfl⟩ := Option.map_eq_some_iff.1 hs
      have hv' : σ.read ρ' p = some v := by
        refine read_mono (fun hkind ↦ h p.identifier ?_ v) hv
        rw [← hkind]
        exact List.mem_cons_self
      simp [renderPieces, hv', hs₁, ih hs₂]

/-- The references of a text are all that its rendering reads. -/
theorem render_mono_on {text : String} (h : ρ'.ExtendsOn ρ (Placeholder.references text))
    {v : Value} (hv : σ.render ρ text = some v) : σ.render ρ' text = some v := by
  by_cases hlone : ∃ p, Placeholder.ofString text = [.placeholder p]
  · obtain ⟨p, hp⟩ := hlone
    rw [render_of_lone hp] at hv ⊢
    refine read_mono (fun hkind ↦ h p.identifier (Placeholder.mem_references.2 ?_) v) hv
    rw [hp, ← hkind]
    exact List.mem_singleton_self _
  · rw [not_exists] at hlone
    rw [render_of_not_lone hlone] at hv ⊢
    obtain ⟨s, hs, rfl⟩ := Option.map_eq_some_iff.1 hv
    rw [renderPieces_mono (fun path hpath ↦ h path (Placeholder.mem_references.2 hpath)) hs,
      Option.map_some]

mutual

/-- **A rendering stays when the reading is extended**, if only on the references of the value. -/
theorem renderValue_mono_on : ∀ {v w : Value}, ρ'.ExtendsOn ρ v.references →
    σ.renderValue ρ v = some w → σ.renderValue ρ' v = some w
  | .string _, _, h, hw => render_mono_on h hw
  | .sequence items, w, h, hw => by
    obtain ⟨items', hitems, rfl⟩ := Option.map_eq_some_iff.1 hw
    rw [renderValue, renderItems_mono_on h hitems, Option.map_some]
  | .mapping entries, w, h, hw => by
    obtain ⟨entries', hentries, rfl⟩ := Option.map_eq_some_iff.1 hw
    rw [renderValue, renderEntries_mono_on h hentries, Option.map_some]
  | .null, _, _, hw | .bool _, _, _, hw | .int _, _, _, hw | .float _, _, _, hw
  | .tagged _ _, _, _, hw => hw

theorem renderItems_mono_on : ∀ {items items' : List Value},
    ρ'.ExtendsOn ρ (Value.itemReferences items) → σ.renderItems ρ items = some items' →
      σ.renderItems ρ' items = some items'
  | [], _, _, hw => hw
  | v :: r, _, h, hw => by
    obtain ⟨v', hv, hw⟩ := Option.bind_eq_some_iff.1 hw
    obtain ⟨r', hr, rfl⟩ := Option.map_eq_some_iff.1 hw
    rw [renderItems, renderValue_mono_on (h.mono (List.subset_append_left _ _)) hv,
      Option.bind_some, renderItems_mono_on (h.mono (List.subset_append_right _ _)) hr,
      Option.map_some]

theorem renderEntries_mono_on : ∀ {entries entries' : List (Value × Value)},
    ρ'.ExtendsOn ρ (Value.entryReferences entries) → σ.renderEntries ρ entries = some entries' →
      σ.renderEntries ρ' entries = some entries'
  | [], _, _, hw => hw
  | (k, v) :: r, _, h, hw => by
    obtain ⟨v', hv, hw⟩ := Option.bind_eq_some_iff.1 hw
    obtain ⟨r', hr, rfl⟩ := Option.map_eq_some_iff.1 hw
    rw [renderEntries, renderValue_mono_on (h.mono (List.subset_append_left _ _)) hv,
      Option.bind_some, renderEntries_mono_on (h.mono (List.subset_append_right _ _)) hr,
      Option.map_some]

end

theorem render_mono (h : ρ'.Extends ρ) {text : String} {v : Value}
    (hv : σ.render ρ text = some v) : σ.render ρ' text = some v :=
  render_mono_on (h.on _) hv

theorem renderValue_mono (h : ρ'.Extends ρ) {v w : Value} (hw : σ.renderValue ρ v = some w) :
    σ.renderValue ρ' v = some w :=
  renderValue_mono_on (h.on _) hw

/-! ### Settled values -/

/-- Pieces without a placeholder render to what is written. -/
theorem renderPieces_of_literals {ps : List Piece} (h : ∀ p, .placeholder p ∉ ps) :
    σ.renderPieces ρ ps = some (String.ofList (ps.flatMap Placeholder.written)) := by
  induction ps with
  | nil => rfl
  | cons piece r ih =>
    cases piece with
    | literal text =>
      have hr := ih fun p hp ↦ h p (List.mem_cons_of_mem _ hp)
      rw [renderPieces, hr]
      simp [Placeholder.written]
    | placeholder p => exact absurd List.mem_cons_self (h p)

/-- A text without a placeholder stands for itself. -/
theorem render_of_occursIn_eq_false {s : String} (h : Placeholder.occursIn s = false) :
    σ.render ρ s = some (.string s) := by
  have hnone : ∀ p, .placeholder p ∉ Placeholder.ofString s :=
    Placeholder.not_mem_of_occursIn_eq_false h
  have hlone : ∀ p, Placeholder.ofString s ≠ [.placeholder p] := by
    intro p hp
    exact hnone p (hp ▸ List.mem_singleton_self _)
  rw [render_of_not_lone hlone, renderPieces_of_literals hnone, Placeholder.ofString,
    Placeholder.flatMap_written_pieces]
  simp

mutual

/-- **A settled value renders to itself**, under every reading. -/
theorem renderValue_of_isSettled :
    ∀ {v : Value}, v.isSettled = true → σ.renderValue ρ v = some v
  | .string s, h => render_of_occursIn_eq_false (by simpa [Value.isSettled] using h)
  | .sequence items, h => by
    rw [renderValue, renderItems_of_itemsSettled h, Option.map_some]
  | .mapping entries, h => by
    rw [renderValue, renderEntries_of_entriesSettled h, Option.map_some]
  | .null, _ | .bool _, _ | .int _, _ | .float _, _ | .tagged _ _, _ => rfl

theorem renderItems_of_itemsSettled :
    ∀ {items : List Value}, Value.itemsSettled items = true →
      σ.renderItems ρ items = some items
  | [], _ => rfl
  | v :: r, h => by
    obtain ⟨hv, hr⟩ := (Bool.and_eq_true _ _).mp h
    rw [renderItems, renderValue_of_isSettled hv, Option.bind_some,
      renderItems_of_itemsSettled hr, Option.map_some]

theorem renderEntries_of_entriesSettled :
    ∀ {entries : List (Value × Value)}, Value.entriesSettled entries = true →
      σ.renderEntries ρ entries = some entries
  | [], _ => rfl
  | (k, v) :: r, h => by
    obtain ⟨hv, hr⟩ := (Bool.and_eq_true _ _).mp h
    rw [renderEntries, renderValue_of_isSettled hv, Option.bind_some,
      renderEntries_of_entriesSettled hr, Option.map_some]

end

end Scope

/-! ### What strict substitution answers -/

/-- A reading agrees with look-ups when it reads all that they find. -/
def Reading.Agrees (ρ : Reading) (lookup : Scope.Lookup) : Prop :=
  ∀ ⦃path key v⦄, lookup path key = .ok (some v) → ρ path = some v

namespace Scope

variable {σ : Scope} {ρ : Reading} {lookup : Lookup} {key : String}

theorem read_of_value? (h : ρ.Agrees lookup) {p : Placeholder} {v : Value}
    (hv : σ.value? lookup key p = .ok (some v)) : σ.read ρ p = some v := by
  cases hkind : p.kind with
  | environment => simpa [read, value?, hkind] using hv
  | constant => simpa [read, value?, hkind] using hv
  | configuration =>
    have hlookup : lookup p.identifier key = .ok (some v) := by simpa [value?, hkind] using hv
    simpa [read, hkind] using h hlookup

/-- In a strict scope a placeholder without a value answers nothing. -/
theorem absent_ne_ok (hσ : σ.strict = true) {α : Type} {p : Placeholder} {otherwise a : α} :
    σ.absent key p otherwise ≠ .ok a := by
  simp [absent, hσ]

theorem pieceText_placeholder (hσ : σ.strict = true) {p : Placeholder} {s : String}
    (hs : σ.pieceText lookup key (.placeholder p) = .ok s) :
    ∃ v, σ.value? lookup key p = .ok (some v) ∧ v.scalarText? = some s := by
  obtain ⟨_ | v, hv, hs⟩ := bind_eq_ok_iff.1 hs
  · exact absurd hs (absent_ne_ok hσ)
  · refine ⟨v, hv, ?_⟩
    cases hscalar : v.scalarText? with
    | none => simp [hscalar] at hs
    | some s' => simpa [hscalar] using hs

theorem renderPieces_of_piecesText (hσ : σ.strict = true) (h : ρ.Agrees lookup)
    {ps : List Piece} {s : String} (hs : σ.piecesText lookup key ps = .ok s) :
    σ.renderPieces ρ ps = some s := by
  induction ps generalizing s with
  | nil => simpa [piecesText, renderPieces] using hs
  | cons piece r ih =>
    obtain ⟨s₁, hs₁, hs⟩ := bind_eq_ok_iff.1 hs
    obtain ⟨s₂, hs₂, hs⟩ := bind_eq_ok_iff.1 hs
    obtain rfl : s₁ ++ s₂ = s := by simpa using hs
    cases piece with
    | literal text =>
      obtain rfl : String.ofList text = s₁ := by simpa [pieceText] using hs₁
      rw [renderPieces, ih hs₂, Option.map_some]
    | placeholder p =>
      obtain ⟨v, hv, hscalar⟩ := pieceText_placeholder hσ hs₁
      simp [renderPieces, read_of_value? h hv, hscalar, ih hs₂]

theorem render_of_substitute (hσ : σ.strict = true) (h : ρ.Agrees lookup) {text : String}
    {v : Value} (hv : σ.substitute lookup key text = .ok v) : σ.render ρ text = some v := by
  rw [substitute] at hv
  split at hv
  · rename_i p hlone
    obtain ⟨_ | v', hv', hv⟩ := bind_eq_ok_iff.1 hv
    · exact absurd hv (absent_ne_ok hσ)
    · obtain rfl : v' = v := by simpa using hv
      rw [render_of_lone hlone, read_of_value? h hv']
  · rename_i hlone
    obtain ⟨s, hs, hv⟩ := bind_eq_ok_iff.1 hv
    obtain rfl : Value.string s = v := by simpa using hv
    rw [render_of_not_lone hlone, renderPieces_of_piecesText hσ h hs, Option.map_some]

mutual

/-- **What strict substitution answers is a rendering**, under every reading that agrees with its
look-ups. -/
theorem renderValue_of_substituteValue (hσ : σ.strict = true) (h : ρ.Agrees lookup) :
    ∀ {v w : Value} {key : String}, σ.substituteValue lookup key v = .ok w →
      σ.renderValue ρ v = some w
  | .string _, _, _, hw => render_of_substitute hσ h hw
  | .sequence items, w, _, hw => by
    obtain ⟨items', hitems, hw⟩ := bind_eq_ok_iff.1 hw
    obtain rfl : Value.sequence items' = w := by simpa using hw
    rw [renderValue, renderItems_of_substituteItems hσ h hitems, Option.map_some]
  | .mapping entries, w, _, hw => by
    obtain ⟨entries', hentries, hw⟩ := bind_eq_ok_iff.1 hw
    obtain rfl : Value.mapping entries' = w := by simpa using hw
    rw [renderValue, renderEntries_of_substituteEntries hσ h hentries, Option.map_some]
  | .null, _, _, hw | .bool _, _, _, hw | .int _, _, _, hw | .float _, _, _, hw
  | .tagged _ _, _, _, hw => by
    cases hw
    rfl

theorem renderItems_of_substituteItems (hσ : σ.strict = true) (h : ρ.Agrees lookup) :
    ∀ {items items' : List Value} {key : String},
      σ.substituteItems lookup key items = .ok items' → σ.renderItems ρ items = some items'
  | [], _, _, hw => by
    cases hw
    rfl
  | v :: r, items', _, hw => by
    obtain ⟨v', hv, hw⟩ := bind_eq_ok_iff.1 hw
    obtain ⟨r', hr, hw⟩ := bind_eq_ok_iff.1 hw
    obtain rfl : v' :: r' = items' := by simpa using hw
    rw [renderItems, renderValue_of_substituteValue hσ h hv, Option.bind_some,
      renderItems_of_substituteItems hσ h hr, Option.map_some]

theorem renderEntries_of_substituteEntries (hσ : σ.strict = true) (h : ρ.Agrees lookup) :
    ∀ {entries entries' : List (Value × Value)} {key : String},
      σ.substituteEntries lookup key entries = .ok entries' →
        σ.renderEntries ρ entries = some entries'
  | [], _, _, hw => by
    cases hw
    rfl
  | (k, v) :: r, entries', _, hw => by
    obtain ⟨v', hv, hw⟩ := bind_eq_ok_iff.1 hw
    obtain ⟨r', hr, hw⟩ := bind_eq_ok_iff.1 hw
    obtain rfl : (k, v') :: r' = entries' := by simpa using hw
    rw [renderEntries, renderValue_of_substituteValue hσ h hv, Option.bind_some,
      renderEntries_of_substituteEntries hσ h hr, Option.map_some]

end

end Scope

end LayeredConfig
