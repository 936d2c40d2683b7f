import LayeredConfig.Proofs.Tree.Layering

/-!
# How layers may be grouped

Laying one tree over another is nearly the operation of a monoid. A layer laid twice counts once
(`Tree.merge_merge_self`), and three layers may be grouped either way, with one exception: where the
layer in the middle has something else than a mapping between two mappings
(`Tree.Interrupts`). Laid one after another, the middle layer takes the lower mapping away before
the upper one comes; laid on the lower layer together, the two mappings meet.
`Tree.merge_assoc_iff` says that the exception is one exactly where the lower mapping would add to
the upper one.

Equality is equality of trees, the order of entries included. It is proved key by key: trees with
the same keys in the same order, under which they have the same values, are equal
(`Tree.eq_of_keys_eq`). Keys and values of the two groupings are read off the layers by
`Tree.keys_merge` and `Tree.find?_merge`, and the mappings among the values are trees further down,
which `Tree.induction_on_mappings` provides for.
-/

namespace LayeredConfig

namespace Value

variable {v w : Value} {below : Option Value}

/-- Three values, one laid over another, may be grouped either way, if three mappings may, and if a
mapping below adds nothing to one above where the value between them is no mapping. -/
theorem over_over
    (hmeet : ∀ lower middle upper : Tree, below = some (.mapping lower) → v = .mapping middle →
      w = .mapping upper → (lower.merge middle).merge upper = lower.merge (middle.merge upper))
    (hbetween : ∀ lower upper : Tree, below = some (.mapping lower) →
      (∀ middle, v ≠ .mapping middle) → w = .mapping upper → lower.merge upper = upper) :
    w.over (some (v.over below)) = (w.over (some v)).over below := by
  by_cases hw : ∃ upper, w = .mapping upper
  · obtain ⟨upper, rfl⟩ := hw
    by_cases hv : ∃ middle, v = .mapping middle
    · obtain ⟨middle, rfl⟩ := hv
      rw [over_mapping_mapping]
      by_cases hbelow : ∃ lower, below = some (.mapping lower)
      · obtain ⟨lower, rfl⟩ := hbelow
        rw [over_mapping_mapping, over_mapping_mapping, over_mapping_mapping,
          hmeet lower middle upper rfl rfl rfl]
      · have hkeep : ∀ t : Tree, (mapping t).over below = .mapping t := fun t ↦
          over_eq_self fun _ lower _ h ↦ hbelow ⟨lower, h⟩
        rw [hkeep, hkeep, over_mapping_mapping]
    · have hv : ∀ middle, v ≠ .mapping middle := fun middle h ↦ hv ⟨middle, h⟩
      rw [over_eq_self fun middle _ h _ ↦ hv middle h,
        over_eq_self fun _ middle _ h ↦ hv middle (Option.some.inj h)]
      rcases over_eq (.mapping upper) below with hover | ⟨_, lower, hupper, hlower, hover⟩
      · rw [hover]
      · obtain rfl := mapping.inj hupper
        rw [hover, hbetween lower upper hlower hv rfl]
  · have hkeep : ∀ x, w.over x = w := fun _ ↦ over_eq_self fun upper _ h _ ↦ hw ⟨upper, h⟩
    rw [hkeep, hkeep, hkeep]

end Value

namespace Tree

variable {a b c t t' : Tree}

/-! ### Equality of trees -/

/-- Trees with the same keys are equal if every key finds the same in both. -/
theorem eq_of_keys_eq (ht : t.keys.Pairwise fun k k' ↦ k.same k' = false) (hkeys : t.keys = t'.keys)
    (hfind : ∀ k ∈ t.keys, t.find? k = t'.find? k) : t = t' := by
  induction t generalizing t' with
  | nil => exact (List.map_eq_nil_iff.1 hkeys.symm).symm
  | cons e r ih =>
    obtain ⟨k, v⟩ := e
    cases t' with
    | nil => cases hkeys
    | cons e' r' =>
      obtain ⟨k', v'⟩ := e'
      obtain ⟨rfl, hrest⟩ : k = k' ∧ keys r = keys r' := List.cons.inj hkeys
      obtain ⟨hapart, hpair⟩ := List.pairwise_cons.1 ht
      have hv : some v = some v' := by
        simpa [find?, Value.same_refl] using hfind k List.mem_cons_self
      have hr : ∀ d ∈ keys r, find? d r = find? d r' := by
        intro d hd
        simpa [find?, hapart d hd] using hfind d (List.mem_cons_of_mem _ hd)
      rw [Option.some.inj hv, ih hpair hrest hr]

theorem sizeOf_lt_of_find? {k v : Value} (h : t.find? k = some v) : sizeOf v < sizeOf t := by
  obtain ⟨k', hmem⟩ := exists_mem_of_find? h
  have hentry := List.sizeOf_lt_of_mem hmem
  simp only [Prod.mk.sizeOf_spec] at hentry
  omega

/-- What holds of a tree as soon as it holds of the mappings under its keys holds of every tree. -/
theorem induction_on_mappings {P : Tree → Prop}
    (step : ∀ t : Tree, (∀ k inner, t.find? k = some (.mapping inner) → P inner) → P t)
    (t : Tree) : P t :=
  step t fun k inner h ↦
    have : sizeOf inner < sizeOf t := by
      have := sizeOf_lt_of_find? h
      simp only [Value.mapping.sizeOf_spec] at this
      omega
    induction_on_mappings step inner
termination_by sizeOf t

/-! ### A layer laid over itself -/

/-- **A layer laid over itself** is that layer. -/
theorem merge_self (ht : t.WellFormed) : t.merge t = t := by
  induction t using induction_on_mappings with
  | step t ih =>
    have hkeys : (t.merge t).keys = t.keys := by
      have hnone : t.keys.filter (fun k ↦ !t.contains k) = [] := by
        refine List.filter_eq_nil_iff.2 fun k hk ↦ ?_
        simp [contains_of_mem_keys hk]
      rw [keys_merge (fun _ ↦ ht.key) ht, hnone, List.append_nil]
    refine (eq_of_keys_eq (wellFormed_iff.1 ht).1 hkeys.symm fun k _ ↦ ?_).symm
    rw [find?_merge (fun _ ↦ ht.key) ht]
    cases hv : t.find? k with
    | none => rfl
    | some v =>
      refine congrArg some ?_
      rcases Value.over_eq v (some v) with hover | ⟨inner, lower, rfl, hlower, hover⟩
      · exact hover.symm
      · obtain rfl : inner = lower := Value.mapping.inj (Option.some.inj hlower)
        rw [hover, ih k inner hv (ht.value hv)]

/-! ### Three layers -/

theorem at?_singleton {k : Value} : t.at? ([k].map .key) = t.find? k := by
  rw [List.map_singleton, at?_key_cons]
  cases t.find? k <;> rfl

/-- Some keys lead to a mapping in the lower and in the upper layer, and to something else in the
layer between. -/
def Interrupts (middle lower upper : Tree) : Prop :=
  ∃ (ks : List Value) (below above : Tree) (v : Value),
    lower.at? (ks.map .key) = some (.mapping below) ∧
    upper.at? (ks.map .key) = some (.mapping above) ∧
    middle.at? (ks.map .key) = some v ∧ ∀ entries, v ≠ .mapping entries

/-- Wherever the layer between interrupts two mappings, the lower one adds nothing to the upper
one. -/
def InterruptsHarmlessly (middle lower upper : Tree) : Prop :=
  ∀ (ks : List Value) (below above : Tree) (v : Value),
    lower.at? (ks.map .key) = some (.mapping below) →
    upper.at? (ks.map .key) = some (.mapping above) →
    middle.at? (ks.map .key) = some v → (∀ entries, v ≠ .mapping entries) →
      below.merge above = above

theorem interruptsHarmlessly_of_not_interrupts (h : ¬Interrupts b a c) :
    InterruptsHarmlessly b a c :=
  fun ks below above v hbelow habove hv hmapping ↦
    absurd ⟨ks, below, above, v, hbelow, habove, hv, hmapping⟩ h

/-- What holds of three layers holds of the mappings that they have under one key. -/
theorem InterruptsHarmlessly.inner {k : Value} {a' b' c' : Tree} (h : InterruptsHarmlessly b a c)
    (ha : a.find? k = some (.mapping a')) (hb : b.find? k = some (.mapping b'))
    (hc : c.find? k = some (.mapping c')) : InterruptsHarmlessly b' a' c' := by
  intro ks below above v hbelow habove hv
  refine h (k :: ks) below above v ?_ ?_ ?_
  · rw [List.map_cons, at?_key_cons, ha]
    exact hbelow
  · rw [List.map_cons, at?_key_cons, hc]
    exact habove
  · rw [List.map_cons, at?_key_cons, hb]
    exact hv

/-- The keys of three layers do not hang on the grouping. -/
theorem keys_merge_merge (ha : a.WellFormed) (hb : b.WellFormed) (hc : c.WellFormed) :
    ((a.merge b).merge c).keys = (a.merge (b.merge c)).keys := by
  have hka : ∀ k ∈ a.keys, k.WellFormed := fun _ ↦ ha.key
  rw [keys_merge (fun _ ↦ (ha.merge hb).key) hc, keys_merge hka hb, keys_merge hka (hb.merge hc),
    keys_merge (fun _ ↦ hb.key) hc, List.filter_append, List.filter_filter, List.append_assoc]
  congr 2
  refine List.filter_congr fun k _ ↦ ?_
  rw [contains_merge hka hb, Bool.not_or]

/-- **Three layers may be grouped either way** where the one between interrupts harmlessly. -/
theorem merge_assoc_of_harmless (ha : a.WellFormed) (hb : b.WellFormed) (hc : c.WellFormed)
    (h : InterruptsHarmlessly b a c) : (a.merge b).merge c = a.merge (b.merge c) := by
  induction c using induction_on_mappings generalizing a b with
  | step c ih =>
    have hab := ha.merge hb
    refine eq_of_keys_eq (wellFormed_iff.1 (hab.merge hc)).1 (keys_merge_merge ha hb hc)
      fun k _ ↦ ?_
    rw [find?_merge (fun _ ↦ hab.key) hc, find?_merge (fun _ ↦ ha.key) hb,
      find?_merge (fun _ ↦ ha.key) (hb.merge hc), find?_merge (fun _ ↦ hb.key) hc]
    cases hw : c.find? k with
    | none => rfl
    | some w =>
      cases hv : b.find? k with
      | none =>
        have hkeep : w.over none = w := Value.over_eq_self fun _ _ _ h ↦ by cases h
        exact congrArg (fun x ↦ some (x.over (a.find? k))) hkeep.symm
      | some v =>
        refine congrArg some (Value.over_over ?_ ?_)
        · rintro lower middle upper hlower rfl rfl
          exact ih k upper hw (ha.value hlower) (hb.value hv) (hc.value hw) (h.inner hlower hv hw)
        · rintro lower upper hlower hmapping rfl
          exact h [k] lower upper v (at?_singleton.trans hlower) (at?_singleton.trans hw)
            (at?_singleton.trans hv) hmapping

/-- **Where the grouping matters**: exactly where the layer between takes a mapping away that would
add something to the one above. -/
theorem merge_assoc_iff (ha : a.WellFormed) (hb : b.WellFormed) (hc : c.WellFormed) :
    (a.merge b).merge c = a.merge (b.merge c) ↔ InterruptsHarmlessly b a c := by
  refine ⟨fun h ks below above v hbelow habove hv hmapping ↦ ?_, merge_assoc_of_harmless ha hb hc⟩
  have hmiddle : ∀ lower, some v ≠ some (.mapping lower) := by simpa using hmapping
  have hleft : ((a.merge b).merge c).at? (ks.map .key) = some (.mapping above) := by
    rw [at?_merge_of_at? (ha.merge hb) hc habove, at?_merge_of_at? ha hb hv,
      Value.over_eq_self (v := v) fun middle _ hv _ ↦ hmapping middle hv,
      Value.over_eq_self fun _ lower _ ↦ hmiddle lower]
  have hgrouped : (b.merge c).at? (ks.map .key) = some (.mapping above) := by
    rw [at?_merge_of_at? hb hc habove, hv, Value.over_eq_self fun _ lower _ ↦ hmiddle lower]
  have hright : (a.merge (b.merge c)).at? (ks.map .key) = some (.mapping (below.merge above)) := by
    rw [at?_merge_of_at? ha (hb.merge hc) hgrouped, hbelow, Value.over_mapping_mapping]
  rw [h, hright] at hleft
  exact Value.mapping.inj (Option.some.inj hleft)

theorem merge_assoc (ha : a.WellFormed) (hb : b.WellFormed) (hc : c.WellFormed)
    (h : ¬Interrupts b a c) : (a.merge b).merge c = a.merge (b.merge c) :=
  (merge_assoc_iff ha hb hc).2 (interruptsHarmlessly_of_not_interrupts h)

/-- A layer does not interrupt itself. -/
theorem not_interrupts_self (a b : Tree) : ¬Interrupts b a b := by
  rintro ⟨ks, below, above, v, -, habove, hv, hmapping⟩
  exact hmapping above (Option.some.inj (hv.symm.trans habove))

/-- **A layer that is laid twice** in a row counts once. -/
theorem merge_merge_self (ha : a.WellFormed) (hb : b.WellFormed) :
    (a.merge b).merge b = a.merge b := by
  rw [merge_assoc ha hb hb (not_interrupts_self a b), merge_self hb]

/-- **The algebra of layers.** A layer laid twice in a row counts once, and three layers may be
grouped either way unless the one between interrupts the other two. -/
theorem merge_idem_and_assoc (ha : a.WellFormed) (hb : b.WellFormed) :
    (a.merge b).merge b = a.merge b ∧
    ∀ c : Tree, c.WellFormed → ¬Interrupts b a c → (a.merge b).merge c = a.merge (b.merge c) :=
  ⟨merge_merge_self ha hb, fun _ hc ↦ merge_assoc ha hb hc⟩

/-- A layer above the site's own. -/
def siteLocal : Tree :=
  [(.string "debug", .bool true), (.string "db", .mapping [(.int 1, .string "local")])]

/-- The site's two layers together. -/
def siteMerged : Tree :=
  [(.string "db", .mapping [(.int 1, .string "primary"),
      (.string "host", .mapping [(.string "name", .string "b")]), (.string "user", .string "u")]),
    (.string "cache", .bool false)]

/-- All three layers together. -/
def siteComplete : Tree :=
  [(.string "db", .mapping [(.int 1, .string "local"),
      (.string "host", .mapping [(.string "name", .string "b")]), (.string "user", .string "u")]),
    (.string "cache", .bool false), (.string "debug", .bool true)]

theorem merge_idem_and_assoc_site :
    siteDefaults.WellFormed ∧ siteOverrides.WellFormed ∧ siteLocal.WellFormed ∧
    ¬Interrupts siteOverrides siteDefaults siteLocal ∧
    (siteDefaults.merge siteOverrides).merge siteOverrides = siteDefaults.merge siteOverrides ∧
    (siteDefaults.merge siteOverrides).merge siteLocal =
      siteDefaults.merge (siteOverrides.merge siteLocal) ∧
    siteDefaults.merge siteOverrides = siteMerged ∧ siteMerged.merge siteLocal = siteComplete := by
  have hlocal : siteLocal.WellFormed := by
    simp [siteLocal, WellFormed, Value.WellFormed, Value.WellFormedEntries, Value.same]
  have hgoes : ¬Interrupts siteOverrides siteDefaults siteLocal := by
    rintro ⟨ks, below, above, v, -, habove, hv, hmapping⟩
    -- The upper layer has mappings at its root and under `db`, and so has the layer between.
    have hpath : ks = [] ∨ ks = [.string "db"] := by
      cases ks with
      | nil => exact Or.inl rfl
      | cons k r =>
        obtain ⟨x, hx, hr⟩ := Option.bind_eq_some_iff.1 habove
        obtain ⟨inner, rfl⟩ := Value.exists_mapping_of_at? hr
        simp only [siteLocal, find?] at hx
        split at hx
        · cases hx
        · obtain ⟨hk, hinner⟩ := Option.ite_none_right_eq_some.1 hx
          obtain rfl := Value.same_string_iff.1 hk
          cases hinner
          cases r with
          | nil => exact Or.inr rfl
          | cons k' r' =>
            obtain ⟨y, hy, hr'⟩ := Option.bind_eq_some_iff.1 hr
            obtain ⟨inner, rfl⟩ := Value.exists_mapping_of_at? hr'
            simp [find?] at hy
    rcases hpath with rfl | rfl
    · exact hmapping siteOverrides (Option.some.inj hv).symm
    · exact hmapping _ (Option.some.inj hv).symm
  obtain ⟨hidem, hassoc⟩ := merge_idem_and_assoc wellFormed_siteDefaults wellFormed_siteOverrides
  exact ⟨wellFormed_siteDefaults, wellFormed_siteOverrides, hlocal, hgoes, hidem,
    hassoc siteLocal hlocal hgoes, by decide, by decide⟩

/-- A mapping that is taken away in between and comes back empty. -/
example :
    ((merge [(.string "cache", .mapping [(.string "ttl", .int 5)])]
      [(.string "cache", .bool false)]).merge [(.string "cache", .mapping [])] : Tree) ≠
    merge [(.string "cache", .mapping [(.string "ttl", .int 5)])]
      (merge [(.string "cache", .bool false)] [(.string "cache", .mapping [])]) := by
  decide +kernel

end Tree

end LayeredConfig
