import LayeredConfig.Proofs.Placeholder.Reading
import LayeredConfig.Proofs.Placeholder.Walk
import LayeredConfig.Proofs.Tree.Parts

/-!
# A resolved tree agrees with its references

The strings of a tree are substituted one after another, each against a tree in which some strings
are substituted already and others are not. Nevertheless a strict resolution that leaves no
placeholder behind has one meaning: every string is rendered with each reference reading the
*resolved* tree, whether the string it refers to stood before or behind it
(`at?_eq_render_of_resolve`).

The walk (`Scope.Walked`) is followed by recursion on the tree. Two facts are carried along
(`covers_of_walked`), both read backwards from the tree at the end of a part's walk. A reading that
has everything the later tree reads also has what the earlier tree read, because every step writes a
rendering over its string. And under such a reading the part renders to what the walk left in its
place. For the whole tree the later tree is the resolved one, whose references read by look-up
alone.
-/

namespace LayeredConfig

namespace Scope

variable {σ : Scope} {t t' : Tree} {l : Location}

/-- **One step of the walk, read backwards.** What reads all that the tree afterwards reads also
has what the tree before read, and renders the string to the value in its place, if that value is
settled. -/
theorem covers_of_substituted (hσ : σ.strict = true) {s : String} {w : Value}
    (h : σ.Substituted t s w t') (hw : w.isSettled = true) {ρ : Reading} (hρ : ρ.Covers σ t') :
    ρ.Covers σ t ∧ σ.render ρ s = some w := by
  obtain ⟨⟨key, hanswer⟩, hover⟩ := h
  obtain ⟨depth, hrender⟩ := render_of_substituteIn hσ hanswer
  have hcovers : ρ.Covers σ t := fun depth' _ _ hx ↦
    hρ depth' (extends_reading_of_overwritten hrender hw hover depth' hx)
  exact ⟨hcovers, render_mono (hcovers depth) hrender⟩

mutual

/-- **The walk over a value, read backwards.** -/
theorem covers_of_walked (hσ : σ.strict = true) {ρ : Reading} :
    ∀ {v w : Value} {t t' : Tree}, σ.Walked t v w t' → w.isSettled = true → ρ.Covers σ t' →
      ρ.Covers σ t ∧ σ.renderValue ρ v = some w
  | .string s, w, t, t', h, hw, hρ => covers_of_substituted hσ h hw hρ
  | .sequence items, w, t, t', h, hw, hρ => by
    obtain ⟨items', rfl, hitems⟩ := h
    obtain ⟨hρt, hrender⟩ := covers_of_walkedItems hσ hitems hw hρ
    exact ⟨hρt, by rw [renderValue, hrender, Option.map_some]⟩
  | .mapping entries, w, t, t', h, hw, hρ => by
    obtain ⟨entries', rfl, hentries⟩ := h
    obtain ⟨hρt, hrender⟩ := covers_of_walkedEntries hσ hentries hw hρ
    exact ⟨hρt, by rw [renderValue, hrender, Option.map_some]⟩
  | .null, _, _, _, h, _, hρ | .bool _, _, _, _, h, _, hρ | .int _, _, _, _, h, _, hρ
  | .float _, _, _, _, h, _, hρ | .tagged _ _, _, _, _, h, _, hρ => by
    obtain ⟨rfl, rfl⟩ := h
    exact ⟨hρ, rfl⟩

theorem covers_of_walkedItems (hσ : σ.strict = true) {ρ : Reading} :
    ∀ {items items' : List Value} {t t' : Tree}, σ.WalkedItems t items items' t' →
      Value.itemsSettled items' = true → ρ.Covers σ t' →
      ρ.Covers σ t ∧ σ.renderItems ρ items = some items'
  | [], _, t, t', h, _, hρ => by
    obtain ⟨rfl, rfl⟩ := h
    exact ⟨hρ, rfl⟩
  | v :: r, _, t, t', h, hsettled, hρ => by
    obtain ⟨w, r', u, rfl, hv, hr⟩ := h
    obtain ⟨hw, hr'⟩ := (Bool.and_eq_true _ _).mp hsettled
    -- The items behind are walked over last.
    obtain ⟨hρu, hrenderr⟩ := covers_of_walkedItems hσ hr hr' hρ
    obtain ⟨hρt, hrender⟩ := covers_of_walked hσ hv hw hρu
    exact ⟨hρt, by rw [renderItems, hrender, Option.bind_some, hrenderr, Option.map_some]⟩

theorem covers_of_walkedEntries (hσ : σ.strict = true) {ρ : Reading} :
    ∀ {entries entries' : List (Value × Value)} {t t' : Tree},
      σ.WalkedEntries t entries entries' t' → Value.entriesSettled entries' = true →
      ρ.Covers σ t' → ρ.Covers σ t ∧ σ.renderEntries ρ entries = some entries'
  | [], _, t, t', h, _, hρ => by
    obtain ⟨rfl, rfl⟩ := h
    exact ⟨hρ, rfl⟩
  | (k, v) :: r, _, t, t', h, hsettled, hρ => by
    obtain ⟨w, r', u, rfl, hv, hr⟩ := h
    obtain ⟨hw, hr'⟩ := (Bool.and_eq_true _ _).mp hsettled
    obtain ⟨hρu, hrenderr⟩ := covers_of_walkedEntries hσ hr hr' hρ
    obtain ⟨hρt, hrender⟩ := covers_of_walked hσ hv hw hρu
    exact ⟨hρt, by rw [renderEntries, hrender, Option.bind_some, hrenderr, Option.map_some]⟩

end

/-- **A resolved tree is its own rendering**: the tree before with every string rendered, each
reference reading the tree afterwards. -/
theorem renderValue_of_resolve (hσ : σ.strict = true) (ht : t.WellFormed)
    (h : σ.resolve t = .ok t') (hsettled : (Value.mapping t').isSettled = true) :
    σ.renderValue t'.get? (.mapping t) = some (.mapping t') := by
  exact (covers_of_walked hσ (walked_of_resolve ht h) hsettled (Reading.covers_get? hsettled)).2

/-! ### The strings of the tree -/

theorem forall₂_of_renderItems {ρ : Reading} {items items' : List Value}
    (h : σ.renderItems ρ items = some items') :
    List.Forall₂ (fun v w ↦ σ.renderValue ρ v = some w) items items' := by
  induction items generalizing items' with
  | nil =>
    obtain rfl := Option.some.inj h
    exact .nil
  | cons v r ih =>
    obtain ⟨v', hv, h⟩ := Option.bind_eq_some_iff.1 h
    obtain ⟨r', hr, rfl⟩ := Option.map_eq_some_iff.1 h
    exact .cons hv (ih hr)

theorem forall₂_of_renderEntries {ρ : Reading} {entries entries' : List (Value × Value)}
    (h : σ.renderEntries ρ entries = some entries') :
    List.Forall₂ (fun e e' ↦ e'.1 = e.1 ∧ σ.renderValue ρ e.2 = some e'.2) entries entries' := by
  induction entries generalizing entries' with
  | nil =>
    obtain rfl := Option.some.inj h
    exact .nil
  | cons e r ih =>
    obtain ⟨v', hv, h⟩ := Option.bind_eq_some_iff.1 h
    obtain ⟨r', hr, rfl⟩ := Option.map_eq_some_iff.1 h
    exact .cons ⟨rfl, hv⟩ (ih hr)

/-- Rendering goes part by part. -/
theorem isPartwise_renderValue (σ : Scope) (ρ : Reading) :
    Value.IsPartwise fun v w ↦ σ.renderValue ρ v = some w where
  sequence h := by
    obtain ⟨items', hitems, rfl⟩ := Option.map_eq_some_iff.1 h
    exact ⟨items', rfl, forall₂_of_renderItems hitems⟩
  mapping h := by
    obtain ⟨entries', hentries, rfl⟩ := Option.map_eq_some_iff.1 h
    exact ⟨entries', rfl, forall₂_of_renderEntries hentries⟩

/-- A string of a value renders to what stands in its place in the rendering of the value. -/
theorem at?_of_renderValue {ρ : Reading} {v w : Value} {text : String}
    (h : σ.renderValue ρ v = some w) (hl : v.at? l = some (.string text)) :
    ∃ x, w.at? l = some x ∧ σ.render ρ text = some x :=
  (isPartwise_renderValue σ ρ).at? h hl

/-- **References agree with the resolved tree.** After a strict resolution that leaves no
placeholder behind, what stands in the place of a string is that string rendered, with each
reference reading the resolved tree. In particular a string that is one reference has given way to
the very value that the reference leads to. -/
theorem at?_eq_render_of_resolve (hσ : σ.strict = true) (ht : t.WellFormed)
    (h : σ.resolve t = .ok t') (hsettled : (Value.mapping t').isSettled = true) {text : String}
    (hl : t.at? l = some (.string text)) :
    ∃ v, t'.at? l = some v ∧ σ.render t'.get? text = some v ∧
      ∀ path, Placeholder.ofString text = [.placeholder ⟨.configuration, path⟩] →
        t'.get? path = some v := by
  obtain ⟨v, hv, hrender⟩ := at?_of_renderValue (renderValue_of_resolve hσ ht h hsettled) hl
  refine ⟨v, hv, hrender, fun path hpath ↦ ?_⟩
  rw [render_of_lone hpath] at hrender
  exact hrender

/-- A strict scope with one variable. -/
def rootScope : Scope :=
  ⟨fun name ↦ if name = "ROOT" then some "/srv" else none, .empty, true⟩

/-- A tree whose first string refers to a sequence behind it, which refers to scalars behind that;
its last string refers back to the first. -/
def crossReferences : Tree :=
  [(.string "dirs", .string "%conf(paths)%"),
    (.string "paths", .sequence [.string "%env(ROOT)%", .string "%conf(name)%-%conf(limit)%"]),
    (.string "name", .string "app"), (.string "limit", .int 5),
    (.string "copy", .string "%conf(dirs)%")]

/-- What it resolves to. -/
def crossReferencesResolved : Tree :=
  [(.string "dirs", .sequence [.string "/srv", .string "app-5"]),
    (.string "paths", .sequence [.string "/srv", .string "app-5"]),
    (.string "name", .string "app"), (.string "limit", .int 5),
    (.string "copy", .sequence [.string "/srv", .string "app-5"])]

theorem at?_eq_render_crossReferences :
    rootScope.resolve crossReferences = .ok crossReferencesResolved ∧
    ∃ v, crossReferencesResolved.at? [.key (.string "dirs")] = some v ∧
      rootScope.render crossReferencesResolved.get? "%conf(paths)%" = some v ∧
      ∀ path, Placeholder.ofString "%conf(paths)%" = [.placeholder ⟨.configuration, path⟩] →
        crossReferencesResolved.get? path = some v := by
  have hresolve : rootScope.resolve crossReferences = .ok crossReferencesResolved := by
    decide +kernel
  refine ⟨hresolve, at?_eq_render_of_resolve rfl ?_ hresolve (by decide +kernel) rfl⟩
  simp [crossReferences, Tree.WellFormed, Value.WellFormed, Value.WellFormedEntries,
    Value.WellFormedItems]

end Scope

end LayeredConfig
