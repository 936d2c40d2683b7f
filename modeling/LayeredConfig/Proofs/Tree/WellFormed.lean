import LayeredConfig.Proofs.Tree.Merge
import LayeredConfig.Proofs.Tree.Strings

/-!
# What stays well-formed

A part of a well-formed value is well-formed, whichever path leads to it
(`Value.WellFormed.descend?`). And trees stay well-formed when an entry is put in or when entries
are left out, so that two layers make a well-formed tree (`Tree.WellFormed.merge`).

In a well-formed value every string has a place of its own: each string that `Value.strings` lists
is found at a location (`Value.exists_at?_of_mem_strings`). Behind a repeated key it would not be.
-/

namespace LayeredConfig

namespace Value

theorem wellFormedItems_iff {items : List Value} :
    WellFormedItems items ↔ ∀ v ∈ items, v.WellFormed := by
  induction items with
  | nil => simp [WellFormedItems]
  | cons v r ih => rw [WellFormedItems, ih, List.forall_mem_cons]

/-! ### Parts -/

variable {v x : Value} {s : String}

theorem WellFormed.child? (hv : v.WellFormed) {segment : String}
    (h : v.child? segment = some x) : x.WellFormed := by
  cases v with
  | mapping t =>
    obtain ⟨k, -, hfind⟩ := Option.bind_eq_some_iff.1 h
    exact Tree.WellFormed.value hv hfind
  | sequence items =>
    obtain ⟨i, -, hget⟩ := Option.bind_eq_some_iff.1 h
    exact wellFormedItems_iff.1 hv x (List.mem_of_getElem? hget)
  | null | bool _ | int _ | float _ | string _ | tagged _ _ => cases h

/-- What segments lead to in a well-formed value is well-formed. -/
theorem WellFormed.descend? (hv : v.WellFormed) {segments : List String}
    (h : v.descend? segments = some x) : x.WellFormed := by
  induction segments generalizing v with
  | nil => exact Option.some.inj h ▸ hv
  | cons s r ih =>
    obtain ⟨c, hc, h⟩ := Option.bind_eq_some_iff.1 h
    exact ih (hv.child? hc) h

/-- What stands at a location in a well-formed value is well-formed. -/
theorem WellFormed.at? (hv : v.WellFormed) {l : Location} (h : v.at? l = some x) :
    x.WellFormed := by
  induction l generalizing v with
  | nil => exact Option.some.inj h ▸ hv
  | cons step r ih =>
    cases v with
    | mapping t =>
      cases step with
      | key k =>
        obtain ⟨c, hc, h⟩ := Option.bind_eq_some_iff.1 h
        exact ih (Tree.WellFormed.value hv hc) h
      | index i => cases h
    | sequence items =>
      cases step with
      | key k => cases h
      | index i =>
        obtain ⟨c, hc, h⟩ := Option.bind_eq_some_iff.1 h
        exact ih (wellFormedItems_iff.1 hv c (List.mem_of_getElem? hc)) h
    | null | bool _ | int _ | float _ | string _ | tagged _ _ => cases step <;> cases h

mutual

/-- **Every string of a well-formed value has a location.** -/
theorem exists_at?_of_mem_strings :
    ∀ {v : Value}, v.WellFormed → s ∈ v.strings → ∃ l, v.at? l = some (.string s)
  | .string text, _, hs => ⟨[], by rw [List.mem_singleton.1 hs]; rfl⟩
  | .sequence items, hv, hs => by
    obtain ⟨i, c, l, hget, hl⟩ := exists_at?_of_mem_itemStrings hv hs
    exact ⟨.index i :: l, by rw [at?, hget, Option.bind_some, hl]⟩
  | .mapping entries, hv, hs => by
    obtain ⟨k, c, l, hmem, hl⟩ := exists_at?_of_mem_entryStrings hv.2 hs
    exact ⟨.key k :: l, by rw [at?, Tree.find?_of_mem hv.1 hmem, Option.bind_some, hl]⟩
  | .null, _, hs | .bool _, _, hs | .int _, _, hs | .float _, _, hs | .tagged _ _, _, hs => by
    cases hs

theorem exists_at?_of_mem_itemStrings : ∀ {items : List Value}, WellFormedItems items →
    s ∈ itemStrings items → ∃ (i : Nat) (c : Value) (l : Location),
      items[i]? = some c ∧ c.at? l = some (.string s)
  | [], _, hs => by cases hs
  | v :: r, hitems, hs => by
    rcases List.mem_append.1 hs with hs | hs
    · obtain ⟨l, hl⟩ := exists_at?_of_mem_strings hitems.1 hs
      exact ⟨0, v, l, rfl, hl⟩
    · obtain ⟨i, c, l, hget, hl⟩ := exists_at?_of_mem_itemStrings hitems.2 hs
      exact ⟨i + 1, c, l, hget, hl⟩

theorem exists_at?_of_mem_entryStrings : ∀ {entries : List (Value × Value)},
    WellFormedEntries entries → s ∈ entryStrings entries →
      ∃ (k c : Value) (l : Location), (k, c) ∈ entries ∧ c.at? l = some (.string s)
  | [], _, hs => by cases hs
  | (k, v) :: r, hentries, hs => by
    rcases List.mem_append.1 hs with hs | hs
    · obtain ⟨l, hl⟩ := exists_at?_of_mem_strings hentries.2.1 hs
      exact ⟨k, v, l, List.mem_cons_self, hl⟩
    · obtain ⟨k', c, l, hmem, hl⟩ := exists_at?_of_mem_entryStrings hentries.2.2 hs
      exact ⟨k', c, l, List.mem_cons_of_mem _ hmem, hl⟩

end

end Value

namespace Tree

variable {t base overlay : Tree} {k w : Value}

theorem wellFormed_iff : t.WellFormed ↔ t.keys.Pairwise (fun k k' ↦ k.same k' = false) ∧
    ∀ e ∈ t, e.1.WellFormed ∧ e.2.WellFormed := by
  rw [keys, List.pairwise_map, ← Value.wellFormedEntries_iff]
  rfl

theorem wellFormed_nil : WellFormed [] :=
  ⟨List.Pairwise.nil, True.intro⟩

/-! ### Entries put in -/

/-- An entry with a new key goes to the end. -/
theorem insert_of_contains_eq_false (hnew : t.contains k = false) :
    t.insert k w = t ++ [(k, w)] := by
  induction t with
  | nil => rfl
  | cons e r ih =>
    obtain ⟨c, x⟩ := e
    rw [contains, find?] at hnew
    split at hnew
    · cases hnew
    · rename_i hc
      rw [insert, if_neg hc, ih hnew, List.cons_append]

/-- An entry after an insertion is an old one, or it holds the new value under the new key or under
one that was there. -/
theorem mem_insert {e : Value × Value} (h : e ∈ t.insert k w) :
    e ∈ t ∨ e.2 = w ∧ (e.1 = k ∨ e.1 ∈ t.keys) := by
  induction t with
  | nil =>
    obtain rfl := List.mem_singleton.1 h
    exact Or.inr ⟨rfl, Or.inl rfl⟩
  | cons f r ih =>
    obtain ⟨c, x⟩ := f
    rw [insert] at h
    split at h
    · rcases List.mem_cons.1 h with rfl | h
      · exact Or.inr ⟨rfl, Or.inr List.mem_cons_self⟩
      · exact Or.inl (List.mem_cons_of_mem _ h)
    · rcases List.mem_cons.1 h with rfl | h
      · exact Or.inl List.mem_cons_self
      · refine (ih h).imp (List.mem_cons_of_mem _) (And.imp_right ?_)
        exact Or.imp_right (List.mem_cons_of_mem _)

theorem WellFormed.insert (ht : t.WellFormed) (hk : k.WellFormed) (hw : w.WellFormed) :
    (t.insert k w).WellFormed := by
  refine wellFormed_iff.2 ⟨?_, fun e he ↦ ?_⟩
  · rw [keys_insert]
    split
    · exact (wellFormed_iff.1 ht).1
    · rename_i hnew
      -- The new key is at the end, and no key before it is the same.
      have hapart : ∀ c ∈ t.keys, c.same k = false :=
        find?_eq_none_iff.1 (by simpa [contains] using hnew)
      refine List.pairwise_append.2 ⟨(wellFormed_iff.1 ht).1, List.pairwise_singleton _ _, ?_⟩
      intro c hc k' hk'
      rw [List.mem_singleton.1 hk']
      exact hapart c hc
  · rcases mem_insert he with he | ⟨rfl, rfl | hkey⟩
    · exact (wellFormed_iff.1 ht).2 e he
    · exact ⟨hk, hw⟩
    · exact ⟨ht.key hkey, hw⟩

end Tree

mutual

theorem Value.WellFormed.over : ∀ {v : Value} {below : Option Value}, v.WellFormed →
    (∀ x, below = some x → x.WellFormed) → (v.over below).WellFormed
  | .mapping above, below, hv, hbelow => by
    rcases Value.over_eq (.mapping above) below with h | ⟨above', lower, habove, rfl, h⟩
    · rw [h]
      exact hv
    · obtain rfl := Value.mapping.inj habove
      rw [h]
      exact Tree.WellFormed.mergeEntries hv.2 (hbelow _ rfl)
  | .null, below, hv, _ | .bool _, below, hv, _ | .int _, below, hv, _ | .float _, below, hv, _
  | .string _, below, hv, _ | .sequence _, below, hv, _ | .tagged _ _, below, hv, _ => by
    simpa [Value.over] using hv

theorem Tree.WellFormed.mergeEntries : ∀ {overlay : List (Value × Value)} {base : Tree},
    Value.WellFormedEntries overlay → base.WellFormed →
      (Tree.mergeEntries overlay base).WellFormed
  | [], _, _, hbase => by
    rw [Tree.mergeEntries]
    exact hbase
  | (k, v) :: r, base, hoverlay, hbase => by
    have hover : (v.over (base.find? k)).WellFormed :=
      Value.WellFormed.over hoverlay.2.1 fun _ hx ↦ hbase.value hx
    rw [Tree.mergeEntries]
    exact Tree.WellFormed.mergeEntries hoverlay.2.2 (hbase.insert hoverlay.1 hover)

end

namespace Tree

variable {t t' base overlay : Tree} {k : Value}

/-- **Two well-formed layers make a well-formed tree.** -/
theorem WellFormed.merge (hbase : base.WellFormed) (hoverlay : overlay.WellFormed) :
    (base.merge overlay).WellFormed :=
  WellFormed.mergeEntries hoverlay.2 hbase

/-! ### Entries left out -/

theorem WellFormed.sublist (ht : t.WellFormed) (h : t'.Sublist t) : t'.WellFormed := by
  obtain ⟨hkeys, hentries⟩ := wellFormed_iff.1 ht
  exact wellFormed_iff.2 ⟨hkeys.sublist (h.map Prod.fst), fun e he ↦ hentries e (h.subset he)⟩

theorem erase_sublist (k : Value) (t : Tree) : (t.erase k).Sublist t := by
  induction t with
  | nil => exact List.Sublist.refl _
  | cons e r ih =>
    obtain ⟨c, x⟩ := e
    rw [erase]
    split
    · exact List.sublist_cons_self _ _
    · exact ih.cons_cons _

end Tree

end LayeredConfig
