import LayeredConfig.Proofs.Placeholder.Consistency
import LayeredConfig.Proofs.Placeholder.Expansion
import LayeredConfig.Proofs.Placeholder.Walk
import LayeredConfig.Proofs.Tree.Parts
import LayeredConfig.Proofs.Tree.Writing

/-!
# What a resolution leaves as it was

A resolution, strict or not, changes nothing but strings that hold a placeholder. At every location
of the tree there is something afterwards, and it has the outline of what was there before
(`Value.SameOutline`): a mapping has the same keys in the same order, a sequence the same number of
items, and anything else is the same, a string with a placeholder excepted. In the place of such a
string there may be a mapping or a sequence afterwards, with locations of its own.

Both halves of `outline_of_resolve` are about locations, and come from two facts about the walk. The
walk over a value is a walk over each of its parts (`isPartwise_walkedSomewhere`). And whenever it
comes to a string, the tree still has that string, so that it can be read and written over
(`at?_of_resolveAll`).
-/

namespace LayeredConfig

namespace Value

/-- The second value is like the first one level deep: it differs only in what a container holds, or
if the first is a string with a placeholder. -/
def SameOutline : Value → Value → Prop
  | .mapping t, w => ∃ t', w = .mapping t' ∧ Tree.keys t' = Tree.keys t
  | .sequence items, w => ∃ items', w = .sequence items' ∧ items'.length = items.length
  | .string s, w => Placeholder.occursIn s = false → w = .string s
  | v, w => w = v

/-- What is put at a location is there. -/
theorem at?_of_putAt? {l : Location} {w v v' : Value} (h : putAt? w l v = some v') :
    v'.at? l = some w := by
  induction l generalizing v v' with
  | nil =>
    obtain rfl : w = v' := Option.some.inj h
    rfl
  | cons step r ih =>
    cases v with
    | mapping t =>
      cases step with
      | index i => simp [putAt?] at h
      | key k =>
        rw [putAt?] at h
        split at h
        · obtain ⟨c', hc', rfl⟩ := Option.map_eq_some_iff.1 h
          rw [at?, Tree.find?_insert_self, Option.bind_some, ih hc']
        · cases h
    | sequence items =>
      cases step with
      | key k => simp [putAt?] at h
      | index i =>
        rw [putAt?] at h
        split at h
        · rename_i c hc
          obtain ⟨c', hc', rfl⟩ := Option.map_eq_some_iff.1 h
          obtain ⟨hi, -⟩ := List.getElem?_eq_some_iff.1 hc
          rw [at?, List.getElem?_set_self hi, Option.bind_some, ih hc']
        · cases h
    | null | bool _ | int _ | float _ | string _ | tagged _ _ => simp [putAt?] at h

end Value

namespace Scope

variable {σ : Scope} {t t' : Tree} {v w : Value}

/-- A text without a placeholder stands for itself, whatever references read. -/
theorem substitute_of_occursIn_eq_false {lookup : Lookup} {key s : String}
    (h : Placeholder.occursIn s = false) : σ.substitute lookup key s = .ok (.string s) := by
  have hnone : Placeholder.occurrences s = [] := by
    by_contra hsome
    exact Bool.false_ne_true (h.symm.trans (Placeholder.occursIn_iff.2 hsome))
  have hslice : Text.slice s 0 s.utf8ByteSize = s := by
    simpa using Text.slice_append "" s ""
  rw [substitute]
  split
  · rename_i p hlone
    exact absurd (hlone ▸ List.mem_singleton_self _) (Placeholder.not_mem_of_occursIn_eq_false h p)
  · rw [piecesText_eq_splice, hnone, Placeholder.splice, hslice]
    rfl

/-! ### The walk over parts -/

/-- The walk over the value, in whatever tree it stands, leaves the other in its place. -/
def WalkedSomewhere (σ : Scope) (v w : Value) : Prop :=
  ∃ t t', σ.Walked t v w t'

theorem forall₂_of_walkedItems {items items' : List Value} (h : σ.WalkedItems t items items' t') :
    List.Forall₂ σ.WalkedSomewhere items items' := by
  induction items generalizing items' t with
  | nil =>
    obtain ⟨rfl, -⟩ := h
    exact .nil
  | cons v r ih =>
    obtain ⟨w, r', u, rfl, hw, hr⟩ := h
    exact .cons ⟨t, u, hw⟩ (ih hr)

theorem forall₂_of_walkedEntries {entries entries' : List (Value × Value)}
    (h : σ.WalkedEntries t entries entries' t') :
    List.Forall₂ (fun e e' ↦ e'.1 = e.1 ∧ σ.WalkedSomewhere e.2 e'.2) entries entries' := by
  induction entries generalizing entries' t with
  | nil =>
    obtain ⟨rfl, -⟩ := h
    exact .nil
  | cons e r ih =>
    obtain ⟨w, r', u, rfl, hw, hr⟩ := h
    exact .cons ⟨rfl, t, u, hw⟩ (ih hr)

/-- **The walk over a value is a walk over each of its parts.** -/
theorem isPartwise_walkedSomewhere (σ : Scope) : Value.IsPartwise σ.WalkedSomewhere where
  sequence := by
    rintro items w ⟨t, t', items', rfl, hitems⟩
    exact ⟨items', rfl, forall₂_of_walkedItems hitems⟩
  mapping := by
    rintro entries w ⟨t, t', entries', rfl, hentries⟩
    exact ⟨entries', rfl, forall₂_of_walkedEntries hentries⟩

theorem sameOutline_of_walkedSomewhere (h : σ.WalkedSomewhere v w) : v.SameOutline w := by
  cases v with
  | mapping entries =>
    obtain ⟨entries', rfl, hentries⟩ := (isPartwise_walkedSomewhere σ).mapping h
    exact ⟨entries', rfl, Tree.keys_of_forall₂ hentries⟩
  | sequence items =>
    obtain ⟨items', rfl, hitems⟩ := (isPartwise_walkedSomewhere σ).sequence h
    exact ⟨items', rfl, hitems.length_eq.symm⟩
  | string s =>
    intro hs
    obtain ⟨t, t', hsubstituted⟩ := h
    obtain ⟨key, hw⟩ := hsubstituted.answered
    rw [substituteIn, substitute_of_occursIn_eq_false hs] at hw
    exact (Except.ok.inj hw).symm
  | null | bool _ | int _ | float _ | tagged _ _ =>
    obtain ⟨t, t', hstays, -⟩ := h
    exact hstays

/-- **A resolution changes strings that hold a placeholder and nothing else.** What is at a location
of the tree has kept its outline afterwards. And whichever string the walk comes to, what the tree
has there is that string, and whatever is to be written over it arrives. -/
theorem outline_of_resolve (σ : Scope) (ht : t.WellFormed) :
    (∀ t', σ.resolve t = .ok t' → ∀ l v, t.at? l = some v →
      ∃ w, t'.at? l = some w ∧ v.SameOutline w) ∧
    ∀ done l rest u, t.stringLocations = done ++ l :: rest → σ.resolveAll done t = .ok u →
      ∃ s, t.at? l = some (.string s) ∧ u.at? l = some (.string s) ∧
        ∀ w, ∃ u', Value.putAt? w l (.mapping u) = some (.mapping u') ∧
          Tree.at? l u' = some w := by
  refine ⟨fun t' h l v hl ↦ ?_, fun done l rest u hsplit h ↦ ?_⟩
  · have hwalked : σ.WalkedSomewhere (.mapping t) (.mapping t') := ⟨t, t', walked_of_resolve ht h⟩
    obtain ⟨w, hw, hvw⟩ := (isPartwise_walkedSomewhere σ).at? hwalked hl
    exact ⟨w, hw, sameOutline_of_walkedSomewhere hvw⟩
  · obtain ⟨s, hs, hu⟩ := at?_of_resolveAll ht hsplit h
    refine ⟨s, hs, hu, fun w ↦ ?_⟩
    obtain ⟨v, hput⟩ := Value.exists_putAt? w hu
    obtain ⟨u', rfl⟩ := (Value.Overwritten.of_putAt? hu hput).exists_mapping
    exact ⟨u', hput, Value.at?_of_putAt? hput⟩

/-- The tree of `crossReferences` once its first string has given way to a sequence. -/
def crossReferencesUnderway : Tree :=
  (.string "dirs", .sequence [.string "/srv", .string "app-5"]) :: crossReferences.tail

/-- The strings behind it are found all the same. -/
theorem outline_crossReferences :
    (∀ l v, crossReferences.at? l = some v →
      ∃ w, crossReferencesResolved.at? l = some w ∧ v.SameOutline w) ∧
    ∃ s, crossReferences.at? [.key (.string "paths"), .index 0] = some (.string s) ∧
      crossReferencesUnderway.at? [.key (.string "paths"), .index 0] = some (.string s) ∧
      ∀ w, ∃ u', Value.putAt? w [.key (.string "paths"), .index 0]
          (.mapping crossReferencesUnderway) = some (.mapping u') ∧
        Tree.at? [.key (.string "paths"), .index 0] u' = some w := by
  have hwf : crossReferences.WellFormed := by
    simp [crossReferences, Tree.WellFormed, Value.WellFormed, Value.WellFormedEntries,
      Value.WellFormedItems]
  have houtline := outline_of_resolve rootScope hwf
  refine ⟨houtline.1 _ (by decide +kernel), ?_⟩
  exact houtline.2 [[.key (.string "dirs")]] _ _ crossReferencesUnderway rfl (by decide +kernel)

end Scope

end LayeredConfig
