import LayeredConfig.Tree.Location
import Mathlib.Data.List.Forall2

/-!
# Values that are alike part by part

A stage that goes through a value and rebuilds it relates the value to its answer, and each part of
the value to the part of the answer in its place. `Value.IsPartwise` says this of a relation: what
is related to a sequence is a sequence of the same length, and what is related to a mapping has its
keys in its order, with related parts. Then related values have related parts at every location
(`IsPartwise.at?`).
-/

namespace LayeredConfig

variable {R : Value → Value → Prop}

namespace Tree

variable {t t' : Tree}

theorem keys_of_forall₂ (h : List.Forall₂ (fun e e' ↦ e'.1 = e.1 ∧ R e.2 e'.2) t t') :
    t'.keys = t.keys := by
  induction h with
  | nil => rfl
  | cons he _ ih => exact congrArg₂ List.cons he.1 ih

theorem find?_of_forall₂ (h : List.Forall₂ (fun e e' ↦ e'.1 = e.1 ∧ R e.2 e'.2) t t')
    {k v : Value} (hv : t.find? k = some v) : ∃ w, t'.find? k = some w ∧ R v w := by
  induction h with
  | nil => cases hv
  | @cons e e' _ _ he _ ih =>
    by_cases hk : e.1.same k = true
    · obtain rfl : e.2 = v := by simpa [find?, hk] using hv
      exact ⟨e'.2, by simp [find?, he.1, hk], he.2⟩
    · obtain ⟨w, hw, hvw⟩ := ih (by simpa [find?, hk] using hv)
      exact ⟨w, by simpa [find?, he.1, hk] using hw, hvw⟩

end Tree

namespace Value

/-- Containers are related to containers of the same kind and size, with related parts. -/
structure IsPartwise (R : Value → Value → Prop) : Prop where
  /-- Items are related one by one. -/
  sequence : ∀ {items w}, R (.sequence items) w →
    ∃ items', w = .sequence items' ∧ List.Forall₂ R items items'
  /-- So are the values of entries, under keys that stay. -/
  mapping : ∀ {entries w}, R (.mapping entries) w →
    ∃ entries', w = .mapping entries' ∧
      List.Forall₂ (fun e e' ↦ e'.1 = e.1 ∧ R e.2 e'.2) entries entries'

/-- **Parts of related values are related**, wherever they stand. -/
theorem IsPartwise.at? (hR : IsPartwise R) {v w x : Value} {l : Location} (h : R v w)
    (hl : v.at? l = some x) : ∃ y, w.at? l = some y ∧ R x y := by
  induction l generalizing v w with
  | nil =>
    obtain rfl : v = x := by simpa [Value.at?] using hl
    exact ⟨w, rfl, h⟩
  | cons step r ih =>
    cases v with
    | mapping entries =>
      obtain ⟨entries', rfl, hentries⟩ := hR.mapping h
      cases step with
      | index i => simp [Value.at?] at hl
      | key k =>
        obtain ⟨c, hc, hl⟩ := Option.bind_eq_some_iff.1 hl
        obtain ⟨c', hc', hcc'⟩ := Tree.find?_of_forall₂ hentries hc
        simpa [Value.at?, hc'] using ih hcc' hl
    | sequence items =>
      obtain ⟨items', rfl, hitems⟩ := hR.sequence h
      cases step with
      | key k => simp [Value.at?] at hl
      | index i =>
        obtain ⟨c, hc, hl⟩ := Option.bind_eq_some_iff.1 hl
        obtain ⟨hi, rfl⟩ := List.getElem?_eq_some_iff.1 hc
        have hi' : i < items'.length := hitems.length_eq ▸ hi
        simpa [Value.at?, List.getElem?_eq_getElem hi'] using ih (hitems.get hi hi') hl
    | null | bool _ | int _ | float _ | string _ | tagged _ _ => simp [Value.at?] at hl

end Value

end LayeredConfig
