import LayeredConfig.Proofs.Tree.Place
import LayeredConfig.Proofs.Tree.WellFormed

/-!
# What keys lead to in two layers

What one key finds in the merged tree is read off the layers (`Tree.find?_merge`). This module goes
on along a list of keys, to any depth.

Where the upper layer has a value, the merged tree has it too, laid over what the lower layer has at
the same place (`Tree.at?_merge_of_at?`): only two mappings are merged there, anything else is as in
the upper layer. Where the upper layer has nothing, it may still have replaced what the lower layer
has: a value on the way that is not a mapping takes everything below it along
(`Tree.at?_merge_of_stopsAlong`). Everything else is as in the lower layer
(`Tree.at?_merge_of_at?_eq_none`). `Tree.at?_merge` puts the cases together, and adds the keys of
the mappings that are merged.

A mapping is an untagged one throughout: a merge does not look behind a tag.
-/

namespace LayeredConfig

namespace Value

variable {v w : Value} {below : Option Value} {k : Value} {l : Location} {ks : List Value}

theorem over_mapping_mapping (above lower : Tree) :
    (mapping above).over (some (.mapping lower)) = .mapping (lower.merge above) := by
  rw [Value.over, Tree.merge]

/-- Unless both are mappings, the upper value is there as it is. -/
theorem over_eq_self (h : ∀ above lower, v = .mapping above → below ≠ some (.mapping lower)) :
    v.over below = v := by
  rcases over_eq v below with hover | ⟨above, lower, hv, hbelow, -⟩
  · exact hover
  · exact absurd hbelow (h above lower hv)

/-- Only a mapping has something under a key. -/
theorem exists_mapping_of_at?_cons (h : v.at? (.key k :: l) = some w) : ∃ t, v = .mapping t := by
  cases v with
  | mapping t => exact ⟨t, rfl⟩
  | null | bool _ | int _ | float _ | string _ | sequence _ | tagged _ _ => cases h

/-- Only a mapping has a mapping at the end of some keys. -/
theorem exists_mapping_of_at? {entries : Tree} (h : v.at? (ks.map .key) = some (.mapping entries)) :
    ∃ t, v = .mapping t := by
  cases ks with
  | nil => exact ⟨entries, Option.some.inj h⟩
  | cons k r => exact exists_mapping_of_at?_cons h

end Value

namespace Tree

variable {base overlay t : Tree} {k v : Value} {ks : List Value}

theorem at?_key_cons (k : Value) (l : Location) (t : Tree) :
    t.at? (.key k :: l) = (t.find? k).bind (Value.at? l) := rfl

/-- Some of the keys, but not all of them, lead to a value that is not a mapping. -/
def StopsAlong (ks : List Value) (t : Tree) : Prop :=
  ∃ before after v, ks = before ++ after ∧ before ≠ [] ∧ after ≠ [] ∧
    t.at? (before.map .key) = some v ∧ ∀ entries, v ≠ .mapping entries

theorem not_stopsAlong_nil (t : Tree) : ¬t.StopsAlong [] := by
  rintro ⟨before, after, v, hsplit, hbefore, -⟩
  exact hbefore (List.append_eq_nil_iff.1 hsplit.symm).1

/-- The first key leads to such a value and is not the last, or the way goes on in a mapping. -/
theorem stopsAlong_cons_iff : t.StopsAlong (k :: ks) ↔
    (ks ≠ [] ∧ ∃ v, t.find? k = some v ∧ ∀ entries, v ≠ .mapping entries) ∨
      ∃ inner, t.find? k = some (.mapping inner) ∧ StopsAlong ks inner := by
  constructor
  · rintro ⟨before, after, v, hsplit, hbefore, hafter, hv, hmapping⟩
    obtain ⟨k', before, rfl⟩ := List.exists_cons_of_ne_nil hbefore
    obtain ⟨rfl, rfl⟩ := List.cons.inj hsplit
    rw [List.map_cons, at?_key_cons] at hv
    obtain ⟨c, hc, hv⟩ := Option.bind_eq_some_iff.1 hv
    cases before with
    | nil =>
      obtain rfl : c = v := Option.some.inj hv
      exact Or.inl ⟨hafter, c, hc, hmapping⟩
    | cons k' before =>
      obtain ⟨inner, rfl⟩ := Value.exists_mapping_of_at?_cons hv
      exact Or.inr ⟨inner, hc, k' :: before, after, v, rfl, List.cons_ne_nil _ _, hafter, hv,
        hmapping⟩
  · rintro (⟨hks, v, hv, hmapping⟩ |
      ⟨inner, hinner, before, after, v, rfl, -, hafter, hv, hmapping⟩)
    · refine ⟨[k], ks, v, rfl, List.cons_ne_nil _ _, hks, ?_, hmapping⟩
      rw [List.map_cons, at?_key_cons, hv]
      rfl
    · refine ⟨k :: before, after, v, rfl, List.cons_ne_nil _ _, hafter, ?_, hmapping⟩
      rw [List.map_cons, at?_key_cons, hinner]
      exact hv

/-! ### The merged tree at the end of some keys -/

/-- **Where the upper layer has a value**, it is laid over what the lower layer has there. -/
theorem at?_merge_of_at? (hbase : base.WellFormed) (hoverlay : overlay.WellFormed)
    (hv : overlay.at? (ks.map .key) = some v) :
    (base.merge overlay).at? (ks.map .key) = some (v.over (base.at? (ks.map .key))) := by
  induction ks generalizing base overlay with
  | nil =>
    obtain rfl : .mapping overlay = v := Option.some.inj hv
    exact congrArg some (Value.over_mapping_mapping overlay base).symm
  | cons k r ih =>
    rw [List.map_cons, at?_key_cons] at hv ⊢
    obtain ⟨c, hc, hv⟩ := Option.bind_eq_some_iff.1 hv
    rw [find?_merge (fun _ ↦ hbase.key) hoverlay, hc, Option.bind_some, at?_key_cons]
    by_cases hboth : ∃ above lower, c = .mapping above ∧ base.find? k = some (.mapping lower)
    · obtain ⟨above, lower, rfl, hlower⟩ := hboth
      rw [hlower, Value.over_mapping_mapping, Option.bind_some]
      exact ih (hbase.value hlower) (hoverlay.value hc) hv
    · have hc' : c.over (base.find? k) = c :=
        Value.over_eq_self fun above lower hmapping hlower ↦ hboth ⟨above, lower, hmapping, hlower⟩
      -- If the places below held two mappings, so would the layers here.
      have hv' : v.over ((base.find? k).bind (Value.at? (r.map .key))) = v := by
        refine Value.over_eq_self fun above lower hmapping hlower ↦ hboth ?_
        obtain ⟨d, hd, hlower⟩ := Option.bind_eq_some_iff.1 hlower
        obtain ⟨lower', rfl⟩ := Value.exists_mapping_of_at? hlower
        obtain ⟨above', rfl⟩ := Value.exists_mapping_of_at? (hmapping ▸ hv)
        exact ⟨above', lower', rfl, hd⟩
      rw [hc', hv, hv']

/-- **Where the upper layer stops along the way**, nothing is left of the lower one. -/
theorem at?_merge_of_stopsAlong (hbase : base.WellFormed) (hoverlay : overlay.WellFormed)
    (h : overlay.StopsAlong ks) : (base.merge overlay).at? (ks.map .key) = none := by
  obtain ⟨before, after, v, rfl, -, hafter, hv, hmapping⟩ := h
  have hmerged := at?_merge_of_at? hbase hoverlay hv
  rw [Value.over_eq_self fun above _ hv _ ↦ hmapping above hv] at hmerged
  obtain ⟨k, r, rfl⟩ := List.exists_cons_of_ne_nil hafter
  have hstop : v.at? (.key k :: r.map .key) = none := by
    refine Option.eq_none_iff_forall_ne_some.2 fun w hw ↦ ?_
    obtain ⟨entries, hentries⟩ := Value.exists_mapping_of_at?_cons hw
    exact hmapping entries hentries
  rw [at?, List.map_append, Value.at?_append, ← at?, hmerged]
  exact hstop

/-- **Where the upper layer has nothing** and did not stop along the way, the lower one stays. -/
theorem at?_merge_of_at?_eq_none (hbase : base.WellFormed) (hoverlay : overlay.WellFormed)
    (hnone : overlay.at? (ks.map .key) = none) (hgoes : ¬overlay.StopsAlong ks) :
    (base.merge overlay).at? (ks.map .key) = base.at? (ks.map .key) := by
  induction ks generalizing base overlay with
  | nil => cases hnone
  | cons k r ih =>
    rw [List.map_cons, at?_key_cons] at hnone ⊢
    rw [find?_merge (fun _ ↦ hbase.key) hoverlay, at?_key_cons]
    cases hc : overlay.find? k with
    | none => rfl
    | some c =>
      rw [hc, Option.bind_some] at hnone
      -- The upper layer has something here and nothing at the end, so it has a mapping here.
      obtain ⟨k', r', rfl⟩ : ∃ k' r', r = k' :: r' := by
        cases r with
        | nil => cases hnone
        | cons k' r' => exact ⟨k', r', rfl⟩
      obtain ⟨above, rfl⟩ : ∃ above, c = .mapping above := by
        refine Classical.byContradiction fun hmapping ↦ hgoes (stopsAlong_cons_iff.2 (Or.inl ?_))
        exact ⟨List.cons_ne_nil _ _, c, hc, fun entries hentries ↦ hmapping ⟨entries, hentries⟩⟩
      rw [Option.bind_some]
      by_cases hboth : ∃ lower, base.find? k = some (.mapping lower)
      · obtain ⟨lower, hlower⟩ := hboth
        rw [hlower, Value.over_mapping_mapping, Option.bind_some]
        refine ih (hbase.value hlower) (hoverlay.value hc) hnone fun h ↦ hgoes ?_
        exact stopsAlong_cons_iff.2 (Or.inr ⟨above, hc, h⟩)
      · have hbelow : (base.find? k).bind (Value.at? ((k' :: r').map .key)) = none := by
          refine Option.eq_none_iff_forall_ne_some.2 fun w hw ↦ hboth ?_
          obtain ⟨d, hd, hw⟩ := Option.bind_eq_some_iff.1 hw
          obtain ⟨lower, rfl⟩ := Value.exists_mapping_of_at?_cons hw
          exact ⟨lower, hd⟩
        rw [Value.over_eq_self fun _ lower _ hlower ↦ hboth ⟨lower, hlower⟩, hnone, hbelow]

/-- **The merged tree at the end of any keys.** The upper layer's value, if it is not a mapping;
both mappings merged, with the lower one's keys first; the upper layer's mapping, if it is the only
one; nothing, where the upper layer stops on the way; and the lower layer's value otherwise. -/
theorem at?_merge (hbase : base.WellFormed) (hoverlay : overlay.WellFormed) (ks : List Value) :
    (∀ v, overlay.at? (ks.map .key) = some v → (∀ entries, v ≠ .mapping entries) →
      (base.merge overlay).at? (ks.map .key) = some v) ∧
    (∀ above below : Tree, overlay.at? (ks.map .key) = some (.mapping above) →
      base.at? (ks.map .key) = some (.mapping below) →
        (base.merge overlay).at? (ks.map .key) = some (.mapping (below.merge above)) ∧
        (below.merge above).keys = below.keys ++ above.keys.filter (fun k ↦ !below.contains k) ∧
        (∀ k, (below.merge above).contains k = (below.contains k || above.contains k)) ∧
        (below.merge above).keys.Pairwise fun k k' ↦ k.same k' = false) ∧
    (∀ above, overlay.at? (ks.map .key) = some (.mapping above) →
      (∀ below, base.at? (ks.map .key) ≠ some (.mapping below)) →
        (base.merge overlay).at? (ks.map .key) = some (.mapping above)) ∧
    (overlay.StopsAlong ks → (base.merge overlay).at? (ks.map .key) = none) ∧
    (overlay.at? (ks.map .key) = none → ¬overlay.StopsAlong ks →
      (base.merge overlay).at? (ks.map .key) = base.at? (ks.map .key)) := by
  refine ⟨fun v hv hmapping ↦ ?_, fun above below habove hbelow ↦ ⟨?_, ?_⟩,
    fun above habove hbelow ↦ ?_, at?_merge_of_stopsAlong hbase hoverlay,
    at?_merge_of_at?_eq_none hbase hoverlay⟩
  · rw [at?_merge_of_at? hbase hoverlay hv, Value.over_eq_self fun above _ hv _ ↦ hmapping above hv]
  · rw [at?_merge_of_at? hbase hoverlay habove, hbelow, Value.over_mapping_mapping]
  · have hbelow : below.WellFormed := Value.WellFormed.at? hbase hbelow
    have habove : above.WellFormed := Value.WellFormed.at? hoverlay habove
    have hkeys : ∀ c ∈ below.keys, c.WellFormed := fun _ ↦ hbelow.key
    exact ⟨keys_merge hkeys habove, fun _ ↦ contains_merge hkeys habove,
      (wellFormed_iff.1 (hbelow.merge habove)).1⟩
  · rw [at?_merge_of_at? hbase hoverlay habove,
      Value.over_eq_self fun _ lower _ hlower ↦ hbelow lower hlower]

/-- A lower layer. -/
def siteDefaults : Tree :=
  [(.string "db", .mapping [(.int 1, .string "primary"), (.string "host", .string "a")]),
    (.string "cache", .mapping [(.string "ttl", .int 5)])]

/-- An upper layer that merges, replaces and adds. -/
def siteOverrides : Tree :=
  [(.string "cache", .bool false),
    (.string "db", .mapping [(.string "user", .string "u"),
      (.string "host", .mapping [(.string "name", .string "b")])])]

theorem wellFormed_siteDefaults : siteDefaults.WellFormed := by
  simp [siteDefaults, WellFormed, Value.WellFormed, Value.WellFormedEntries, Value.same]

theorem wellFormed_siteOverrides : siteOverrides.WellFormed := by
  simp [siteOverrides, WellFormed, Value.WellFormed, Value.WellFormedEntries, Value.same]

/-- One mapping is merged, another is replaced, a third is new, and the number stays. -/
theorem at?_merge_site :
    siteDefaults.WellFormed ∧ siteOverrides.WellFormed ∧
    (siteDefaults.merge siteOverrides).at? [.key (.string "cache")] = some (.bool false) ∧
    (siteDefaults.merge siteOverrides).at? [.key (.string "cache"), .key (.string "ttl")] = none ∧
    (∃ db : Tree, (siteDefaults.merge siteOverrides).at? [.key (.string "db")] =
      some (.mapping db) ∧ db.keys = [.int 1, .string "host", .string "user"]) ∧
    (siteDefaults.merge siteOverrides).at? [.key (.string "db"), .key (.string "host")] =
      some (.mapping [(.string "name", .string "b")]) ∧
    (siteDefaults.merge siteOverrides).at? [.key (.string "db"), .key (.int 1)] =
      some (.string "primary") := by
  have hstops : siteOverrides.StopsAlong [.string "cache", .string "ttl"] :=
    stopsAlong_cons_iff.2 (Or.inl ⟨List.cons_ne_nil _ _, .bool false, rfl, by simp⟩)
  have hgoes : ¬siteOverrides.StopsAlong [.string "db", .int 1] := by
    simp [stopsAlong_cons_iff, not_stopsAlong_nil, siteOverrides, find?, Value.same]
  have hhost : ∀ below : Tree, siteDefaults.at? [.key (.string "db"), .key (.string "host")] ≠
      some (.mapping below) := by
    simp [siteDefaults, at?_key_cons, find?, Value.same, Value.at?]
  have hall := at?_merge wellFormed_siteDefaults wellFormed_siteOverrides
  obtain ⟨hdb, hkeys, -⟩ := (hall [.string "db"]).2.1 _ _ rfl rfl
  exact ⟨wellFormed_siteDefaults, wellFormed_siteOverrides,
    (hall [.string "cache"]).1 _ rfl (by simp),
    (hall [.string "cache", .string "ttl"]).2.2.2.1 hstops, ⟨_, hdb, hkeys⟩,
    (hall [.string "db", .string "host"]).2.2.1 _ rfl hhost,
    (hall [.string "db", .int 1]).2.2.2.2 rfl hgoes⟩

end Tree

end LayeredConfig
