import LayeredConfig.Proofs.Number.Format
import LayeredConfig.Proofs.Placeholder.Acyclic

/-!
# Texts without stray per cent signs

That references lead to values without placeholders can be told from the texts themselves. Where
variables and constants have values without per cent signs, and every per cent sign of the tree
belongs to a placeholder (`Tree.NoStraySign`), no value that substitution makes holds a per cent
sign (`plain_of_reading`): the signs of the placeholders go with them, and numbers have none. What
is made then holds no placeholder, and an acyclic tree resolves without a false cycle
(`resolve_ne_unresolvedPlaceholder_of_noStraySign`).

A tag hides a text from substitution but not from being embedded in another, so tagged scalars may
not hold a per cent sign at all.
-/

namespace LayeredConfig

/-- Every per cent sign of the text belongs to a placeholder. -/
def Placeholder.NoStraySign (s : String) : Prop :=
  ∀ text, .literal text ∈ Placeholder.ofString s → '%' ∉ text

/-- Every per cent sign of the tree belongs to a placeholder. -/
structure Tree.NoStraySign (t : Tree) : Prop where
  /-- In the strings that are substituted. -/
  strings : ∀ s ∈ t.strings, Placeholder.NoStraySign s
  /-- A tagged scalar holds no per cent sign. -/
  tagged : ∀ path tag v, t.get? path = some (.tagged tag v) →
    ∀ text, v.scalarText? = some text → '%' ∉ text.toList

/-- Without a per cent sign there is no placeholder. -/
theorem Placeholder.occursIn_eq_false {s : String} (h : '%' ∉ s.toList) :
    Placeholder.occursIn s = false := by
  refine List.any_eq_false.2 fun piece hpiece ↦ ?_
  cases piece with
  | literal text => simp
  | placeholder p =>
    refine absurd ?_ h
    rw [← Placeholder.flatMap_written_pieces s.toList]
    exact List.mem_flatMap.2 ⟨_, hpiece, by simp [Placeholder.written, Placeholder.expression]⟩

/-! ### Values without per cent signs -/

namespace Value

variable {v : Value}

/-- No string of the value holds a per cent sign, nor does its text, if it is a scalar. -/
structure Plain (v : Value) : Prop where
  /-- The strings that are substituted. -/
  strings : ∀ s ∈ v.strings, '%' ∉ s.toList
  /-- The text that is embedded. -/
  text : ∀ text, v.scalarText? = some text → '%' ∉ text.toList

theorem Plain.isSettled (h : v.Plain) : v.isSettled = true :=
  isSettled_iff.2 fun s hs ↦ Placeholder.occursIn_eq_false (h.strings s hs)

theorem plain_string {s : String} (h : '%' ∉ s.toList) : (Value.string s).Plain where
  strings _ hs' := List.mem_singleton.1 hs' ▸ h
  text _ heq := Option.some.inj heq ▸ h

theorem plain_int (i : Int) : (Value.int i).Plain where
  strings _ hs := by cases hs
  text _ heq hmem := by
    obtain rfl := Option.some.inj heq
    rcases Text.mem_signedNumeral hmem with h | h <;> cases h

theorem plain_float (x : Binary64) : (Value.float x).Plain where
  strings _ hs := by cases hs
  text _ heq hmem := by
    obtain rfl := Option.some.inj heq
    rcases NumberFormat.mem_render hmem with (h | h | h | h) | h
    · cases h
    · cases h
    · cases h
    · cases h
    · revert h
      decide

theorem plain_bool (b : Bool) : (Value.bool b).Plain where
  strings _ hs := by cases hs
  text _ heq := by
    obtain rfl := Option.some.inj heq
    cases b <;> decide

theorem plain_null : Value.null.Plain where
  strings _ hs := by cases hs
  text _ heq := by
    obtain rfl := Option.some.inj heq
    decide

end Value

/-! ### Renderings -/

namespace Scope

variable {σ : Scope} {ρ : Reading} {t : Tree}

/-- No value of a variable or a constant holds a per cent sign. -/
structure Plain (σ : Scope) : Prop where
  /-- The variables. -/
  environment : ∀ name value, σ.environment name = some value → '%' ∉ value.toList
  /-- The constants. -/
  constants : ∀ name value, σ.constants.get? name = some value → '%' ∉ value.toList

section Render

variable (hσ : σ.Plain) (hρ : ∀ path v, ρ path = some v → v.Plain)

include hσ hρ

theorem plain_of_read {p : Placeholder} {v : Value} (h : σ.read ρ p = some v) : v.Plain := by
  rw [read] at h
  split at h
  · obtain ⟨value, hvalue, rfl⟩ := Option.map_eq_some_iff.1 h
    exact Value.plain_string (hσ.environment _ _ hvalue)
  · obtain ⟨value, hvalue, rfl⟩ := Option.map_eq_some_iff.1 h
    exact Value.plain_string (hσ.constants _ _ hvalue)
  · exact hρ _ v h

theorem not_mem_of_renderPieces {pieces : List Piece} {s : String}
    (hliterals : ∀ text, .literal text ∈ pieces → '%' ∉ text)
    (h : σ.renderPieces ρ pieces = some s) : '%' ∉ s.toList := by
  induction pieces generalizing s with
  | nil =>
    obtain rfl := Option.some.inj h
    simp
  | cons piece r ih =>
    have ih : ∀ {s : String}, σ.renderPieces ρ r = some s → '%' ∉ s.toList :=
      ih fun text htext ↦ hliterals text (List.mem_cons_of_mem _ htext)
    cases piece with
    | literal text =>
      obtain ⟨rest, hrest, rfl⟩ := Option.map_eq_some_iff.1 h
      have htext : '%' ∉ text := hliterals text List.mem_cons_self
      simpa [htext] using ih hrest
    | placeholder p =>
      obtain ⟨v, hv, h⟩ := Option.bind_eq_some_iff.1 h
      obtain ⟨text, htext, h⟩ := Option.bind_eq_some_iff.1 h
      obtain ⟨rest, hrest, rfl⟩ := Option.map_eq_some_iff.1 h
      have hplain : '%' ∉ text.toList := (plain_of_read hσ hρ hv).text text htext
      simpa [hplain] using ih hrest

/-- A text without stray per cent signs renders to a value without per cent signs. -/
theorem plain_of_render {s : String} {w : Value} (hs : Placeholder.NoStraySign s)
    (h : σ.render ρ s = some w) : w.Plain := by
  by_cases hlone : ∃ p, Placeholder.ofString s = [.placeholder p]
  · obtain ⟨p, hp⟩ := hlone
    rw [render_of_lone hp] at h
    exact plain_of_read hσ hρ h
  · rw [not_exists] at hlone
    rw [render_of_not_lone hlone] at h
    obtain ⟨text, htext, rfl⟩ := Option.map_eq_some_iff.1 h
    exact Value.plain_string (not_mem_of_renderPieces hσ hρ hs htext)

end Render

mutual

/-- A string of a rendered value comes from the rendering of a string of the value. -/
theorem exists_render_of_mem_strings : ∀ {v w : Value} {y : String}, σ.renderValue ρ v = some w →
    y ∈ w.strings → ∃ s ∈ v.strings, ∃ x, σ.render ρ s = some x ∧ y ∈ x.strings
  | .string s, w, _, hw, hy => ⟨s, List.mem_singleton_self s, w, hw, hy⟩
  | .sequence _, _, _, hw, hy => by
    obtain ⟨items, hitems, rfl⟩ := Option.map_eq_some_iff.1 hw
    exact exists_render_of_mem_itemStrings hitems hy
  | .mapping _, _, _, hw, hy => by
    obtain ⟨entries, hentries, rfl⟩ := Option.map_eq_some_iff.1 hw
    exact exists_render_of_mem_entryStrings hentries hy
  | .null, _, _, hw, hy | .bool _, _, _, hw, hy | .int _, _, _, hw, hy | .float _, _, _, hw, hy
  | .tagged _ _, _, _, hw, hy => by
    obtain rfl := Option.some.inj hw
    cases hy

theorem exists_render_of_mem_itemStrings : ∀ {items items' : List Value} {y : String},
    σ.renderItems ρ items = some items' → y ∈ Value.itemStrings items' →
      ∃ s ∈ Value.itemStrings items, ∃ x, σ.render ρ s = some x ∧ y ∈ x.strings
  | [], _, _, hw, hy => by
    obtain rfl := Option.some.inj hw
    cases hy
  | v :: r, _, _, hw, hy => by
    obtain ⟨v', hv, hw⟩ := Option.bind_eq_some_iff.1 hw
    obtain ⟨r', hr, rfl⟩ := Option.map_eq_some_iff.1 hw
    rcases List.mem_append.1 hy with hy | hy
    · obtain ⟨s, hs, hx⟩ := exists_render_of_mem_strings hv hy
      exact ⟨s, List.mem_append_left _ hs, hx⟩
    · obtain ⟨s, hs, hx⟩ := exists_render_of_mem_itemStrings hr hy
      exact ⟨s, List.mem_append_right _ hs, hx⟩

theorem exists_render_of_mem_entryStrings :
    ∀ {entries entries' : List (Value × Value)} {y : String},
      σ.renderEntries ρ entries = some entries' → y ∈ Value.entryStrings entries' →
        ∃ s ∈ Value.entryStrings entries, ∃ x, σ.render ρ s = some x ∧ y ∈ x.strings
  | [], _, _, hw, hy => by
    obtain rfl := Option.some.inj hw
    cases hy
  | (k, v) :: r, _, _, hw, hy => by
    obtain ⟨v', hv, hw⟩ := Option.bind_eq_some_iff.1 hw
    obtain ⟨r', hr, rfl⟩ := Option.map_eq_some_iff.1 hw
    rcases List.mem_append.1 hy with hy | hy
    · obtain ⟨s, hs, hx⟩ := exists_render_of_mem_strings hv hy
      exact ⟨s, List.mem_append_left _ hs, hx⟩
    · obtain ⟨s, hs, hx⟩ := exists_render_of_mem_entryStrings hr hy
      exact ⟨s, List.mem_append_right _ hs, hx⟩

end

/-! ### Trees without stray signs -/

/-- **No value that is read holds a per cent sign**, however deep references are followed. -/
theorem plain_of_reading (hσ : σ.Plain) (ht : t.NoStraySign) {depth : Nat} {path : String}
    {w : Value} (h : σ.reading t depth path = some w) : w.Plain := by
  induction depth generalizing path w with
  | zero => cases h
  | succ depth ih =>
    obtain ⟨v, hv, hw⟩ := reading_succ_eq_some_iff.1 h
    have hrender : ∀ s ∈ v.strings, ∀ x, σ.render (σ.reading t depth) s = some x → x.Plain :=
      fun s hs _ hx ↦
        plain_of_render hσ (fun _ _ ↦ ih) (ht.strings s (Tree.strings_subset_of_get? hv hs)) hx
    constructor
    · intro y hy
      obtain ⟨s, hs, x, hx, hyx⟩ := exists_render_of_mem_strings hw hy
      exact (hrender s hs x hx).strings y hyx
    · cases v with
      | string s => exact (hrender s (List.mem_singleton_self s) w hw).text
      | sequence items =>
        obtain ⟨items', -, rfl⟩ := Option.map_eq_some_iff.1 hw
        exact fun _ heq ↦ by cases heq
      | mapping entries =>
        obtain ⟨entries', -, rfl⟩ := Option.map_eq_some_iff.1 hw
        exact fun _ heq ↦ by cases heq
      | tagged tag v => exact Option.some.inj hw ▸ ht.tagged path tag v hv
      | int i => exact Option.some.inj hw ▸ (Value.plain_int i).text
      | float x => exact Option.some.inj hw ▸ (Value.plain_float x).text
      | bool b => exact Option.some.inj hw ▸ (Value.plain_bool b).text
      | null => exact Option.some.inj hw ▸ Value.plain_null.text

/-- What a string of the tree renders to holds no placeholder. -/
theorem settles_of_noStraySign (hσ : σ.Plain) (ht : t.NoStraySign) {s : String}
    (hs : s ∈ t.strings) : σ.Settles t s := by
  intro depth v hv
  have hplain : v.Plain :=
    plain_of_render hσ (fun _ _ ↦ plain_of_reading hσ ht) (ht.strings s hs) hv
  exact hplain.isSettled

/-- **No false cycles in a tree without stray signs**: with values for all variables and constants,
without per cent signs in them, and with references that all lead somewhere, an acyclic tree whose
references are not spelled like the key of their own string does not end with a placeholder without
a value. -/
theorem resolve_ne_unresolvedPlaceholder_of_noStraySign (hstrict : σ.strict = true)
    (hwell : t.WellFormed) (hσ : σ.Plain) (ht : t.NoStraySign)
    (hsupplied : ∀ s ∈ t.strings, σ.Supplies s)
    (hleads : ∀ path ∈ t.references, ∃ v, t.get? path = some v) (hacyclic : t.Acyclic)
    (hkeys : t.KeysApart) (placeholder key : String) :
    σ.resolve t ≠ .error (.unresolvedPlaceholder placeholder key) := by
  have hanswerable : σ.Answerable t t :=
    answerable_self hwell hleads hacyclic hkeys fun _ _ _ hmentions ↦
      settles_of_noStraySign hσ ht hmentions.mem_strings
  exact resolve_ne_of_answerable hstrict hwell hsupplied hkeys hanswerable placeholder key

end Scope

end LayeredConfig
