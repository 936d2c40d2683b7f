import LayeredConfig.Proofs.Placeholder.Reading
import LayeredConfig.Proofs.Placeholder.Walk
import LayeredConfig.Proofs.Tree.Strings

/-!
# Nothing is left unresolved

A strict resolution that answers a tree has met every string and found a value for every
placeholder in it. The walk meets every string that is not below a tag
(`exists_substituted_of_walked`), a strict substitution answers a rendering, and a rendering reads
every placeholder of its text (`exists_read_of_render`). So every variable and every constant that
the tree names has a value (`exists_value_of_resolve`).

Strings below a tag are not met, although they are embedded in texts and encoded as if there were no
tag. A placeholder there stays, and a strict resolution says nothing of it (`resolve_passes_tags`).
-/

namespace LayeredConfig

/-- What is found in a text is one of its pieces. -/
theorem Placeholder.mem_of_mem_occurrencesFrom {o : Occurrence} {ps : List Piece} {offset : Nat}
    (h : o ∈ occurrencesFrom offset ps) : .placeholder o.placeholder ∈ ps := by
  induction ps generalizing offset with
  | nil => cases h
  | cons piece r ih =>
    cases piece with
    | literal text => exact List.mem_cons_of_mem _ (ih h)
    | placeholder p =>
      rcases List.mem_cons.1 h with rfl | h
      · exact List.mem_cons_self
      · exact List.mem_cons_of_mem _ (ih h)

namespace Scope

variable {σ : Scope} {t t' : Tree} {ρ : Reading}

/-! ### A rendering reads every placeholder -/

theorem exists_read_of_renderPieces {ps : List Piece} {s : String}
    (h : σ.renderPieces ρ ps = some s) {p : Placeholder} (hp : .placeholder p ∈ ps) :
    ∃ v, σ.read ρ p = some v := by
  induction ps generalizing s with
  | nil => cases hp
  | cons piece r ih =>
    cases piece with
    | literal text =>
      obtain ⟨s', hs', -⟩ := Option.map_eq_some_iff.1 h
      rcases List.mem_cons.1 hp with hp | hp
      · cases hp
      · exact ih hs' hp
    | placeholder p' =>
      obtain ⟨v, hv, h⟩ := Option.bind_eq_some_iff.1 h
      obtain ⟨s₁, -, h⟩ := Option.bind_eq_some_iff.1 h
      obtain ⟨s₂, hs₂, -⟩ := Option.map_eq_some_iff.1 h
      rcases List.mem_cons.1 hp with hp | hp
      · obtain rfl : p = p' := Piece.placeholder.inj hp
        exact ⟨v, hv⟩
      · exact ih hs₂ hp

theorem exists_read_of_render {text : String} {v : Value} (h : σ.render ρ text = some v)
    {p : Placeholder} (hp : .placeholder p ∈ Placeholder.ofString text) :
    ∃ v, σ.read ρ p = some v := by
  by_cases hlone : ∃ p, Placeholder.ofString text = [.placeholder p]
  · obtain ⟨p', hp'⟩ := hlone
    rw [hp'] at hp
    obtain rfl : p = p' := Piece.placeholder.inj (List.mem_singleton.1 hp)
    exact ⟨v, render_of_lone hp' ▸ h⟩
  · rw [not_exists] at hlone
    rw [render_of_not_lone hlone] at h
    obtain ⟨s, hs, -⟩ := Option.map_eq_some_iff.1 h
    exact exists_read_of_renderPieces hs hp

mutual

/-- A rendering of a value renders every string in it. -/
theorem exists_render_of_renderValue {s : String} :
    ∀ {v w : Value}, σ.renderValue ρ v = some w → s ∈ v.strings → ∃ x, σ.render ρ s = some x
  | .string _, w, h, hs => ⟨w, by rw [List.mem_singleton.1 hs]; exact h⟩
  | .sequence items, _, h, hs => by
    obtain ⟨items', hitems, -⟩ := Option.map_eq_some_iff.1 h
    exact exists_render_of_renderItems hitems hs
  | .mapping entries, _, h, hs => by
    obtain ⟨entries', hentries, -⟩ := Option.map_eq_some_iff.1 h
    exact exists_render_of_renderEntries hentries hs
  | .null, _, _, hs | .bool _, _, _, hs | .int _, _, _, hs | .float _, _, _, hs
  | .tagged _ _, _, _, hs => by cases hs

theorem exists_render_of_renderItems {s : String} :
    ∀ {items items' : List Value}, σ.renderItems ρ items = some items' →
      s ∈ Value.itemStrings items → ∃ x, σ.render ρ s = some x
  | [], _, _, hs => by cases hs
  | v :: r, _, h, hs => by
    obtain ⟨v', hv, h⟩ := Option.bind_eq_some_iff.1 h
    obtain ⟨r', hr, -⟩ := Option.map_eq_some_iff.1 h
    rcases List.mem_append.1 hs with hs | hs
    · exact exists_render_of_renderValue hv hs
    · exact exists_render_of_renderItems hr hs

theorem exists_render_of_renderEntries {s : String} :
    ∀ {entries entries' : List (Value × Value)}, σ.renderEntries ρ entries = some entries' →
      s ∈ Value.entryStrings entries → ∃ x, σ.render ρ s = some x
  | [], _, _, hs => by cases hs
  | (k, v) :: r, _, h, hs => by
    obtain ⟨v', hv, h⟩ := Option.bind_eq_some_iff.1 h
    obtain ⟨r', hr, -⟩ := Option.map_eq_some_iff.1 h
    rcases List.mem_append.1 hs with hs | hs
    · exact exists_render_of_renderValue hv hs
    · exact exists_render_of_renderEntries hr hs

end

/-! ### The walk meets every string -/

theorem exists_substituted_of_walked {v w : Value} (h : σ.Walked t v w t') :
    ∀ s ∈ v.strings, ∃ u x u', σ.Substituted u s x u' :=
  (invariant_of_walked (P := fun _ ↦ True) (fun _ hs ↦ ⟨⟨_, _, _, hs⟩, trivial⟩) h trivial).1

/-! ### Strict resolution -/

/-- **A strict resolution finds a value for every variable and every constant** that a string of the
tree names. -/
theorem exists_value_of_resolve (hσ : σ.strict = true) (ht : t.WellFormed)
    (h : σ.resolve t = .ok t') {text : String} (htext : text ∈ t.strings)
    {o : Placeholder.Occurrence} (ho : o ∈ Placeholder.occurrences text) :
    (o.placeholder.kind = .environment →
      ∃ value, σ.environment o.placeholder.identifier = some value) ∧
    (o.placeholder.kind = .constant →
      ∃ value, σ.constants.get? o.placeholder.identifier = some value) := by
  obtain ⟨u, x, u', ⟨key, hanswer⟩, -⟩ :=
    exists_substituted_of_walked (walked_of_resolve ht h) text htext
  obtain ⟨depth, hrender⟩ := render_of_substituteIn hσ hanswer
  obtain ⟨v, hv⟩ := exists_read_of_render hrender (Placeholder.mem_of_mem_occurrencesFrom ho)
  constructor
  · intro hkind
    rw [read, hkind] at hv
    obtain ⟨value, hvalue, -⟩ := Option.map_eq_some_iff.1 hv
    exact ⟨value, hvalue⟩
  · intro hkind
    rw [read, hkind] at hv
    obtain ⟨value, hvalue, -⟩ := Option.map_eq_some_iff.1 hv
    exact ⟨value, hvalue⟩

/-- A strict scope with one variable and no constants. -/
def portScope : Scope :=
  ⟨fun name ↦ if name = "PORT" then some "8080" else none, .empty, true⟩

/-- A list of addresses, one of which names the variable. -/
def addresses : Tree :=
  [(.string "listen", .sequence [.string "localhost", .string "0.0.0.0:%env(PORT)%"])]

theorem exists_value_addresses : ∃ value, portScope.environment "PORT" = some value := by
  have hoccurs : ⟨⟨.environment, "PORT"⟩, 8, 19⟩ ∈
      Placeholder.occurrences "0.0.0.0:%env(PORT)%" := by
    decide +kernel
  have hresolve : portScope.resolve addresses = .ok
      [(.string "listen", .sequence [.string "localhost", .string "0.0.0.0:8080"])] := by
    decide +kernel
  have hwellFormed : addresses.WellFormed := by
    simp [addresses, Tree.WellFormed, Value.WellFormed, Value.WellFormedEntries,
      Value.WellFormedItems]
  exact (exists_value_of_resolve rfl hwellFormed hresolve (by decide) hoccurs).1 rfl

end Scope

/-- The text is a string of the value, at whatever depth, tags entered. -/
inductive Value.Holds (text : String) : Value → Prop where
  /-- The value is the string itself. -/
  | here : Holds text (.string text)
  /-- The string is inside an item. -/
  | item {items : List Value} {v : Value} (hv : v ∈ items) (h : Holds text v) :
    Holds text (.sequence items)
  /-- The string is inside the value of an entry. -/
  | entry {entries : List (Value × Value)} {k v : Value} (hv : (k, v) ∈ entries)
    (h : Holds text v) : Holds text (.mapping entries)
  /-- The string is below a tag. -/
  | content {tag : String} {v : Value} (h : Holds text v) : Holds text (.tagged tag v)

/-- **Placeholders below a tag are passed over**: a strict resolution answers a tree although a
variable that the tree names has no value. -/
theorem Scope.resolve_passes_tags :
    ¬∀ (σ : Scope) (t t' : Tree), σ.strict = true → t.WellFormed → σ.resolve t = .ok t' →
      ∀ text, (Value.mapping t).Holds text → ∀ o ∈ Placeholder.occurrences text,
        o.placeholder.kind = .environment →
          ∃ value, σ.environment o.placeholder.identifier = some value := by
  intro h
  let t : Tree := [(.string "password", .tagged "secret" (.string "%env(PASSWORD)%"))]
  have hwellFormed : t.WellFormed := by
    simp [t, Tree.WellFormed, Value.WellFormed, Value.WellFormedEntries]
  have hholds : (Value.mapping t).Holds "%env(PASSWORD)%" :=
    .entry List.mem_cons_self (.content .here)
  have hoccurs :
      ⟨⟨.environment, "PASSWORD"⟩, 0, 15⟩ ∈ Placeholder.occurrences "%env(PASSWORD)%" := by
    decide +kernel
  obtain ⟨value, hvalue⟩ := h portScope t t rfl hwellFormed rfl _ hholds _ hoccurs rfl
  have hunset : portScope.environment "PASSWORD" = none := by decide
  rw [hunset] at hvalue
  cases hvalue

end LayeredConfig
