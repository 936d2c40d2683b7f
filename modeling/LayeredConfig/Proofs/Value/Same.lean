import LayeredConfig.Proofs.Tree.Overwriting

/-!
# Being the same key is an equivalence

`Value.same` is a comparison that runs. Here it is an equivalence, as far as it has to be:
reflexive (`Value.same_refl`) and transitive (`same_trans`) on all values, symmetric
(`same_symm`) from a well-formed value. Symmetry needs that much, since two mappings are compared
by finding every entry of the first in the second: a first mapping with a repeated entry would be
found in a second one that has more to show.

Each kind of value is taken apart by one lemma (`same_sequence_iff`, `same_mapping_iff`,
`same_tagged_iff`), and the comparison is opened nowhere else. Mappings come down to counting: as
many entries as there are on the other side, no two of them found in one place, leave no place
without an entry (`exists_of_pairwise`).
-/

namespace LayeredConfig

theorem Binary64.same_trans {x y z : Binary64} (hxy : x.same y = true) (hyz : y.same z = true) :
    x.same z = true := by
  cases x <;> cases y <;> simp only [same, Bool.false_eq_true] at hxy <;>
    cases z <;> simp only [same, Bool.false_eq_true] at hyz ⊢
  · simp only [Bool.and_eq_true, Bool.or_eq_true, decide_eq_true_eq] at hxy hyz ⊢
    obtain ⟨rfl, hsign⟩ := hxy
    obtain ⟨rfl, hsign'⟩ := hyz
    refine ⟨rfl, ?_⟩
    rcases hsign with rfl | hzero
    · exact hsign'
    · exact Or.inr hzero
  · simp only [decide_eq_true_eq] at hxy hyz ⊢
    exact hxy.trans hyz

namespace Value

variable {u v w : Value}

/-! ### One lemma for each kind -/

theorem same_null_iff : Value.null.same v = true ↔ .null = v := by
  cases v <;> simp [same]

theorem same_bool_iff {b : Bool} : (Value.bool b).same v = true ↔ .bool b = v := by
  cases v <;> simp [same]

theorem same_int_iff {i : Int} : (Value.int i).same v = true ↔ .int i = v := by
  cases v <;> simp [same]

theorem same_string_iff {s : String} : (Value.string s).same v = true ↔ .string s = v := by
  cases v <;> simp [same]

theorem same_string_right_iff {s : String} : v.same (.string s) = true ↔ v = .string s := by
  cases v <;> simp [same]

theorem same_float_iff {x : Binary64} :
    (Value.float x).same v = true ↔ ∃ y, v = .float y ∧ x.same y = true := by
  cases v <;> simp [same]

theorem same_sequence_iff {items : List Value} :
    (Value.sequence items).same v = true ↔
      ∃ items', v = .sequence items' ∧ sameItems items items' = true := by
  cases v <;> simp [same]

theorem same_tagged_iff {tag : String} {content : Value} :
    (Value.tagged tag content).same v = true ↔
      ∃ content', v = .tagged tag content' ∧ content.same content' = true := by
  cases v with
  | tagged tag' content' =>
    simp only [same, Bool.and_eq_true, beq_iff_eq, tagged.injEq]
    constructor
    · rintro ⟨rfl, h⟩
      exact ⟨content', ⟨rfl, rfl⟩, h⟩
    · rintro ⟨_, ⟨rfl, rfl⟩, h⟩
      exact ⟨rfl, h⟩
  | null | bool _ | int _ | float _ | string _ | sequence _ | mapping _ => simp [same]

/-- The two entries have the same key and the same value. -/
def SameEntry (e f : Value × Value) : Prop :=
  e.1.same f.1 = true ∧ e.2.same f.2 = true

theorem sameEntries_iff {entries entries' : List (Value × Value)} :
    sameEntries entries entries' = true ↔ ∀ e ∈ entries, ∃ f ∈ entries', SameEntry e f := by
  induction entries with
  | nil => simp [sameEntries]
  | cons e r ih =>
    obtain ⟨k, x⟩ := e
    rw [sameEntries, Bool.and_eq_true, ih, List.any_eq_true, List.forall_mem_cons]
    simp [SameEntry]

theorem same_mapping_iff {entries : List (Value × Value)} :
    (Value.mapping entries).same v = true ↔
      ∃ entries', v = .mapping entries' ∧ entries.length = entries'.length ∧
        ∀ e ∈ entries, ∃ f ∈ entries', SameEntry e f := by
  cases v with
  | mapping entries' =>
    simp only [same, Bool.and_eq_true, beq_iff_eq, sameEntries_iff, mapping.injEq]
    constructor
    · intro h
      exact ⟨entries', rfl, h⟩
    · rintro ⟨_, rfl, h⟩
      exact h
  | null | bool _ | int _ | float _ | string _ | sequence _ | tagged _ _ => simp [same]

/-! ### Transitivity -/

mutual

/-- **Keys that are the same as one key are the same.** -/
theorem same_trans : ∀ {u v w : Value}, u.same v = true → v.same w = true → u.same w = true
  | .null, _, _, huv, hvw => same_null_iff.1 huv ▸ hvw
  | .bool _, _, _, huv, hvw => same_bool_iff.1 huv ▸ hvw
  | .int _, _, _, huv, hvw => same_int_iff.1 huv ▸ hvw
  | .string _, _, _, huv, hvw => same_string_iff.1 huv ▸ hvw
  | .float x, _, _, huv, hvw => by
    obtain ⟨y, rfl, hxy⟩ := same_float_iff.1 huv
    obtain ⟨z, rfl, hyz⟩ := same_float_iff.1 hvw
    exact same_float_iff.2 ⟨z, rfl, Binary64.same_trans hxy hyz⟩
  | .sequence a, _, _, huv, hvw => by
    obtain ⟨b, rfl, hab⟩ := same_sequence_iff.1 huv
    obtain ⟨c, rfl, hbc⟩ := same_sequence_iff.1 hvw
    exact same_sequence_iff.2 ⟨c, rfl, sameItems_trans hab hbc⟩
  | .mapping a, _, _, huv, hvw => by
    obtain ⟨b, rfl, hlen, hab⟩ := same_mapping_iff.1 huv
    obtain ⟨c, rfl, hlen', hbc⟩ := same_mapping_iff.1 hvw
    refine same_mapping_iff.2 ⟨c, rfl, hlen.trans hlen', fun e he ↦ ?_⟩
    obtain ⟨f, hf, hef⟩ := hab e he
    obtain ⟨g, hg, hfg⟩ := hbc f hf
    exact ⟨g, hg, sameEntry_trans a e he hef hfg⟩
  | .tagged _ x, _, _, huv, hvw => by
    obtain ⟨y, rfl, hxy⟩ := same_tagged_iff.1 huv
    obtain ⟨z, rfl, hyz⟩ := same_tagged_iff.1 hvw
    exact same_tagged_iff.2 ⟨z, rfl, same_trans hxy hyz⟩

theorem sameItems_trans :
    ∀ {a b c : List Value}, sameItems a b = true → sameItems b c = true → sameItems a c = true
  | [], [], [], _, _ => rfl
  | x :: r, y :: s, z :: t, hab, hbc => by
    obtain ⟨hxy, hrs⟩ := (Bool.and_eq_true _ _).mp hab
    obtain ⟨hyz, hst⟩ := (Bool.and_eq_true _ _).mp hbc
    rw [sameItems, same_trans hxy hyz, sameItems_trans hrs hst]
    rfl

/-- The entries of a mapping one by one. -/
theorem sameEntry_trans : ∀ (entries : List (Value × Value)), ∀ e ∈ entries,
    ∀ {f g : Value × Value}, SameEntry e f → SameEntry f g → SameEntry e g
  | [], _, he, _, _, _, _ => absurd he List.not_mem_nil
  | (k, x) :: r, e, he, f, g, hef, hfg => by
    rcases List.mem_cons.1 he with rfl | he
    · exact ⟨same_trans hef.1 hfg.1, same_trans hef.2 hfg.2⟩
    · exact sameEntry_trans r e he hef hfg

end

/-! ### Symmetry -/

/-- As many as there are on the other side, no two of them related to one place, leave no place
out. -/
theorem exists_of_pairwise {α β : Type} {R : α → β → Prop} {a : List α} {b : List β}
    (hlen : b.length ≤ a.length) (hR : ∀ x ∈ a, ∃ y ∈ b, R x y)
    (ha : a.Pairwise fun x x' ↦ ∀ y, R x y → ¬R x' y) : ∀ y ∈ b, ∃ x ∈ a, R x y := by
  induction a generalizing b with
  | nil =>
    obtain rfl : b = [] := List.length_eq_zero_iff.1 (Nat.le_zero.1 hlen)
    simp
  | cons x r ih =>
    obtain ⟨hx, hr⟩ := List.pairwise_cons.1 ha
    obtain ⟨y, hy, hxy⟩ := hR x List.mem_cons_self
    obtain ⟨before, after, rfl⟩ := List.append_of_mem hy
    have hmem : ∀ y' ∈ before ++ y :: after, y' ≠ y → y' ∈ before ++ after := by
      intro y' hy' hne
      rcases List.mem_append.1 hy' with hy' | hy'
      · exact List.mem_append_left _ hy'
      · exact List.mem_append_right _ ((List.mem_cons.1 hy').resolve_left hne)
    -- The others are related to places that are not `y`, of which there is one less.
    have hrest : ∀ x' ∈ r, ∃ y' ∈ before ++ after, R x' y' := by
      intro x' hx'
      obtain ⟨y', hy', hxy'⟩ := hR x' (List.mem_cons_of_mem _ hx')
      refine ⟨y', hmem y' hy' ?_, hxy'⟩
      rintro rfl
      exact hx x' hx' y' hxy hxy'
    have hlen' : (before ++ after).length ≤ r.length := by
      simp only [List.length_append, List.length_cons] at hlen ⊢
      omega
    intro y' hy'
    by_cases hyy' : y' = y
    · exact ⟨x, List.mem_cons_self, hyy' ▸ hxy⟩
    · obtain ⟨x', hx', hR'⟩ := ih hlen' hrest hr y' (hmem y' hy' hyy')
      exact ⟨x', List.mem_cons_of_mem _ hx', hR'⟩

mutual

/-- **From a well-formed value, being the same key goes both ways.** -/
theorem same_symm : ∀ {v w : Value}, v.WellFormed → v.same w = true → w.same v = true
  | .null, _, _, h => by rw [← same_null_iff.1 h, same_refl]
  | .bool _, _, _, h => by rw [← same_bool_iff.1 h, same_refl]
  | .int _, _, _, h => by rw [← same_int_iff.1 h, same_refl]
  | .string _, _, _, h => by rw [← same_string_iff.1 h, same_refl]
  | .float x, _, _, h => by
    obtain ⟨y, rfl, hxy⟩ := same_float_iff.1 h
    exact same_float_iff.2 ⟨x, rfl, Binary64.same_comm y x ▸ hxy⟩
  | .sequence a, _, hv, h => by
    obtain ⟨b, rfl, hab⟩ := same_sequence_iff.1 h
    exact same_sequence_iff.2 ⟨a, rfl, sameItems_symm hv hab⟩
  | .mapping a, _, hv, h => by
    obtain ⟨b, rfl, hlen, hab⟩ := same_mapping_iff.1 h
    have hsymm := sameEntry_symm hv.2
    -- Two entries found in one place would have the same key.
    have hapart : a.Pairwise fun e e' ↦ ∀ f, SameEntry e f → ¬SameEntry e' f := by
      refine hv.1.imp_of_mem fun {e e'} _ he' hne f hef hef' ↦ ?_
      have hee' : e.1.same e'.1 = true := same_trans hef.1 (hsymm e' he' hef').1
      simp [hee'] at hne
    refine same_mapping_iff.2 ⟨a, rfl, hlen.symm, fun f hf ↦ ?_⟩
    obtain ⟨e, he, hef⟩ := exists_of_pairwise (Nat.le_of_eq hlen.symm) hab hapart f hf
    exact ⟨e, he, hsymm e he hef⟩
  | .tagged _ x, _, hv, h => by
    obtain ⟨y, rfl, hxy⟩ := same_tagged_iff.1 h
    exact same_tagged_iff.2 ⟨x, rfl, same_symm (v := x) hv hxy⟩

theorem sameItems_symm :
    ∀ {a b : List Value}, WellFormedItems a → sameItems a b = true → sameItems b a = true
  | [], [], _, _ => rfl
  | x :: r, y :: s, ha, hab => by
    obtain ⟨hxy, hrs⟩ := (Bool.and_eq_true _ _).mp hab
    rw [sameItems, same_symm ha.1 hxy, sameItems_symm ha.2 hrs]
    rfl

theorem sameEntry_symm : ∀ {entries : List (Value × Value)}, WellFormedEntries entries →
    ∀ e ∈ entries, ∀ {f : Value × Value}, SameEntry e f → SameEntry f e
  | [], _, _, he, _, _ => absurd he List.not_mem_nil
  | (k, x) :: r, hentries, e, he, f, hef => by
    rcases List.mem_cons.1 he with rfl | he
    · exact ⟨same_symm hentries.1 hef.1, same_symm hentries.2.1 hef.2⟩
    · exact sameEntry_symm hentries.2.2 e he hef

end

/-- A key that is the same as another is the same as a third exactly when the other is. -/
theorem same_congr (hu : u.WellFormed) (huv : u.same v = true) : u.same w = v.same w := by
  rw [Bool.eq_iff_iff]
  exact ⟨same_trans (same_symm hu huv), same_trans huv⟩

end Value

end LayeredConfig
