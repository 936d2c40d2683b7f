import LayeredConfig.Proofs.Value.Same
import LayeredConfig.Tree.Merge

/-!
# What a path reads in two layers

Layers are merged key by key, and keys are compared as values; a dotted path names keys by their
texts. This module brings the two views together.

What a key finds in the merged tree is read off the layers (`Tree.find?_merge`), and so are the keys
(`Tree.keys_merge`): those of the lower layer, then the new ones. Hence a segment that names a key
of the upper layer names it in the merged tree too, provided that it names no other key below, which
`Tree.NamesAlike` says. Where that holds along a path, the upper layer wins under the path
(`Tree.get?_merge`).

The condition is needed. A text and a number of one written form are two keys with one name, the
text is preferred, and so the lower layer's text hides the upper layer's number
(`Tree.get?_merge_needs_namesAlike`). An upper layer whose keys are all strings meets the condition
with every lower layer (`Tree.get?_merge_of_stringKeyed`).
-/

namespace LayeredConfig

namespace Value

theorem wellFormedEntries_iff {entries : List (Value × Value)} :
    WellFormedEntries entries ↔ ∀ e ∈ entries, e.1.WellFormed ∧ e.2.WellFormed := by
  induction entries with
  | nil => simp [WellFormedEntries]
  | cons e r ih =>
    obtain ⟨k, v⟩ := e
    rw [WellFormedEntries, ih, List.forall_mem_cons, and_assoc]

mutual

/-- Every key is a string, in all mappings that are reached through mappings. -/
def StringKeyed : Value → Prop
  | .mapping entries => EntriesStringKeyed entries
  | _ => True

/-- Every key of the entries, and in the mappings among their values, is a string. -/
def EntriesStringKeyed : List (Value × Value) → Prop
  | [] => True
  | (k, v) :: r => (∃ s, k = .string s) ∧ StringKeyed v ∧ EntriesStringKeyed r

end

theorem entriesStringKeyed_iff {entries : List (Value × Value)} :
    EntriesStringKeyed entries ↔ ∀ e ∈ entries, (∃ s, e.1 = .string s) ∧ e.2.StringKeyed := by
  induction entries with
  | nil => simp [EntriesStringKeyed]
  | cons e r ih =>
    obtain ⟨k, v⟩ := e
    rw [EntriesStringKeyed, ih, List.forall_mem_cons, and_assoc]

/-- Only two mappings are merged; whatever else a layer brings is there as it is. -/
theorem over_eq (v : Value) (below : Option Value) : v.over below = v ∨
    ∃ above lower, v = .mapping above ∧ below = some (.mapping lower) ∧
      v.over below = .mapping (Tree.merge lower above) := by
  cases v with
  | mapping above =>
    match below with
    | some (.mapping lower) => exact Or.inr ⟨above, lower, rfl, rfl, by rw [Value.over, Tree.merge]⟩
    | none | some .null | some (.bool _) | some (.int _) | some (.float _) | some (.string _)
    | some (.sequence _) | some (.tagged _ _) => exact Or.inl (by simp [Value.over])
  | null | bool _ | int _ | float _ | string _ | sequence _ | tagged _ _ =>
    exact Or.inl (by simp [Value.over])

end Value

namespace Tree

variable {base overlay t : Tree} {k k' v w : Value} {segment : String}

/-! ### Keys and values of a well-formed tree -/

theorem WellFormed.key (ht : t.WellFormed) (hk : k ∈ t.keys) : k.WellFormed := by
  obtain ⟨e, he, rfl⟩ := List.mem_map.1 hk
  exact (Value.wellFormedEntries_iff.1 ht.2 e he).1

theorem WellFormed.value (ht : t.WellFormed) (hv : find? k t = some v) : v.WellFormed := by
  obtain ⟨k', hmem⟩ := exists_mem_of_find? hv
  exact (Value.wellFormedEntries_iff.1 ht.2 _ hmem).2

/-- A key finds nothing exactly when no key of the tree is the same. -/
theorem find?_eq_none_iff : find? k t = none ↔ ∀ k' ∈ t.keys, k'.same k = false := by
  have hcontains := contains_eq_any_keys k t
  rw [contains] at hcontains
  rw [← Option.not_isSome_iff_eq_none, hcontains, List.any_eq_true]
  simp

/-- Keys that are the same find the same. -/
theorem find?_congr (hk : k.WellFormed) (h : k.same k' = true) (t : Tree) :
    find? k t = find? k' t := by
  induction t with
  | nil => rfl
  | cons e r ih =>
    have he : e.1.same k = e.1.same k' := by
      rw [Bool.eq_iff_iff]
      exact ⟨fun hek ↦ Value.same_trans hek h,
        fun hek' ↦ Value.same_trans hek' (Value.same_symm hk h)⟩
    rw [find?, find?, he, ih]

/-! ### Insertion -/

/-- **What a key finds after an insertion.** -/
theorem find?_insert (ht : ∀ c ∈ t.keys, c.WellFormed) (hk' : k'.WellFormed) :
    find? k (insert k' w t) = if k'.same k then some w else find? k t := by
  induction t with
  | nil => rfl
  | cons e r ih =>
    obtain ⟨c, x⟩ := e
    have hc : c.WellFormed := ht c List.mem_cons_self
    have ih := ih fun d hd ↦ ht d (List.mem_cons_of_mem _ hd)
    rw [insert]
    by_cases hck' : c.same k' = true
    · rw [if_pos hck', find?, find?, ← Value.same_congr hc hck']
      split <;> rfl
    · rw [if_neg hck', find?, find?, ih]
      by_cases hk'k : k'.same k = true
      · -- The key in front is not the new one, so it is not the one that is looked for either.
        have hck : ¬c.same k = true := fun hck ↦
          hck' (Value.same_trans hck (Value.same_symm hk' hk'k))
        rw [if_neg hck, if_pos hk'k, if_pos hk'k]
      · rw [if_neg hk'k, if_neg hk'k]

/-- A new key goes to the end. -/
theorem keys_insert (k w : Value) (t : Tree) :
    (insert k w t).keys = if t.contains k then t.keys else t.keys ++ [k] := by
  induction t with
  | nil => rfl
  | cons e r ih =>
    obtain ⟨c, x⟩ := e
    have hkeys : keys ((c, x) :: r) = c :: keys r := rfl
    by_cases hck : c.same k = true
    · have hcontains : contains k ((c, x) :: r) = true := by rw [contains, find?, if_pos hck]; rfl
      rw [insert, if_pos hck, if_pos hcontains]
      rfl
    · have hcontains : contains k ((c, x) :: r) = contains k r := by
        rw [contains, find?, if_neg hck, ← contains]
      rw [insert, if_neg hck, hcontains, hkeys]
      change c :: keys (insert k w r) = _
      rw [ih]
      split <;> rfl

theorem wellFormed_of_mem_keys_insert (ht : ∀ c ∈ t.keys, c.WellFormed) (hk : k.WellFormed) :
    ∀ c ∈ (insert k w t).keys, c.WellFormed := by
  intro c hc
  rw [keys_insert] at hc
  split at hc
  · exact ht c hc
  · rcases List.mem_append.1 hc with hc | hc
    · exact ht c hc
    · exact List.mem_singleton.1 hc ▸ hk

/-! ### Keys of the merged tree -/

/-- **What a key finds in two layers**: what it finds in the upper one, laid over what it finds in
the lower one. -/
theorem find?_merge (hbase : ∀ c ∈ base.keys, c.WellFormed) (hoverlay : overlay.WellFormed) :
    find? k (base.merge overlay) =
      match find? k overlay with
      | some v => some (v.over (find? k base))
      | none => find? k base := by
  induction overlay generalizing base with
  | nil => rfl
  | cons e r ih =>
    obtain ⟨c, v⟩ := e
    obtain ⟨hapart, hpair⟩ := List.pairwise_cons.1 hoverlay.1
    obtain ⟨hc, -, hr⟩ := hoverlay.2
    have hr : WellFormed r := ⟨hpair, hr⟩
    rw [merge_cons, ih (wellFormed_of_mem_keys_insert hbase hc) hr, find?_insert hbase hc]
    by_cases hck : c.same k = true
    · -- No entry behind has this key.
      have hnone : find? k r = none := by
        refine find?_eq_none_iff.2 fun d hd ↦ Bool.eq_false_iff.2 fun hdk ↦ ?_
        obtain ⟨f, hf, rfl⟩ := List.mem_map.1 hd
        have hkf : k.same f.1 = true := Value.same_symm (hr.key hd) hdk
        have hcf : c.same f.1 = true := Value.same_trans hck hkf
        simp [hapart f hf] at hcf
      rw [hnone, find?, if_pos hck, if_pos hck, find?_congr hc hck]
    · rw [if_neg hck, find?, if_neg hck]

theorem contains_merge (hbase : ∀ c ∈ base.keys, c.WellFormed) (hoverlay : overlay.WellFormed) :
    (base.merge overlay).contains k = (base.contains k || overlay.contains k) := by
  rw [contains, find?_merge hbase hoverlay, contains, contains]
  cases find? k overlay <;> simp

/-- **The keys of two layers**: those of the lower one, then the new ones of the upper one. -/
theorem keys_merge (hbase : ∀ c ∈ base.keys, c.WellFormed) (hoverlay : overlay.WellFormed) :
    (base.merge overlay).keys = base.keys ++ overlay.keys.filter fun k ↦ !base.contains k := by
  induction overlay generalizing base with
  | nil => simp [keys]
  | cons e r ih =>
    obtain ⟨c, v⟩ := e
    obtain ⟨hapart, hpair⟩ := List.pairwise_cons.1 hoverlay.1
    obtain ⟨hc, -, hr⟩ := hoverlay.2
    -- The key in front is none of those behind, so it takes no part in what is new among them.
    have hnew : (keys r).filter (fun k ↦ !(base.insert c (v.over (base.find? c))).contains k) =
        (keys r).filter fun k ↦ !base.contains k := by
      refine List.filter_congr fun d hd ↦ ?_
      obtain ⟨f, hf, rfl⟩ := List.mem_map.1 hd
      rw [contains, find?_insert hbase hc, hapart f hf]
      rfl
    rw [merge_cons, ih (wellFormed_of_mem_keys_insert hbase hc) ⟨hpair, hr⟩, hnew, keys_insert]
    have hkeys : keys ((c, v) :: r) = c :: keys r := rfl
    by_cases hcontains : base.contains c = true
    · rw [if_pos hcontains, hkeys, List.filter_cons_of_neg (by simp [hcontains])]
    · rw [if_neg hcontains, hkeys, List.filter_cons_of_pos (by simp [hcontains]),
        List.append_assoc, List.singleton_append]

/-! ### Segments -/

/-- A segment that does not name the string with its text names the first other key of that text. -/
theorem keyNamed?_eq_some_iff (hk : k ≠ .string segment) :
    t.keyNamed? segment = some k ↔ t.contains (.string segment) = false ∧
      t.keys.find? (fun k ↦ !k.isString && k.keyText == segment) = some k := by
  rw [keyNamed?]
  split
  · rename_i hcontains
    simp [hcontains, hk.symm]
  · rename_i hcontains
    simp [hcontains]

theorem keyNamed?_eq_none_iff :
    t.keyNamed? segment = none ↔ t.contains (.string segment) = false ∧
      t.keys.find? (fun k ↦ !k.isString && k.keyText == segment) = none := by
  rw [keyNamed?]
  split
  · rename_i hcontains
    simp [hcontains]
  · rename_i hcontains
    simp [hcontains]

/-- The string with the text of a segment is what the segment names as soon as it is there. -/
theorem keyNamed?_eq_string_iff :
    t.keyNamed? segment = some (.string segment) ↔ t.contains (.string segment) = true := by
  rw [keyNamed?]
  split
  · rename_i hcontains
    simp [hcontains]
  · rename_i hcontains
    refine iff_of_false (fun h ↦ ?_) hcontains
    have := List.find?_some h
    simp [Value.isString, Value.untagged] at this

/-- The segment names no other key in the lower layer than the one that it names in the upper one.
A key that is the string itself is beyond doubt; any other may be there in both layers, or new. -/
def NamesAlike (segment : String) (base overlay : Tree) : Prop :=
  ∀ k, overlay.keyNamed? segment = some k → k = .string segment ∨
    match base.keyNamed? segment with
    | some k' => k'.same k = true
    | none => base.find? k = none

/-- A key that a segment names in the upper layer is found by the segment in both layers. -/
theorem find?_keyNamed?_merge (hbase : base.WellFormed) (hoverlay : overlay.WellFormed)
    (halike : NamesAlike segment base overlay) (hk : overlay.keyNamed? segment = some k) :
    ∃ k', (base.merge overlay).keyNamed? segment = some k' ∧
      find? k' (base.merge overlay) = find? k (base.merge overlay) := by
  have hkeys : ∀ c ∈ base.keys, c.WellFormed := fun c hc ↦ hbase.key hc
  by_cases hstring : k = .string segment
  · subst hstring
    have hcontains : (base.merge overlay).contains (.string segment) = true := by
      rw [contains_merge hkeys hoverlay, keyNamed?_eq_string_iff.1 hk, Bool.or_true]
    exact ⟨_, keyNamed?_eq_string_iff.2 hcontains, rfl⟩
  · obtain ⟨hoverlayNot, hfirst⟩ := (keyNamed?_eq_some_iff hstring).1 hk
    have halike := (halike k hk).resolve_left hstring
    cases hnamed : base.keyNamed? segment with
    | some k' =>
      -- The key stands in the lower layer, in front of all that is new.
      have hsame : k'.same k = true := by simpa [hnamed] using halike
      have hstring' : k' ≠ .string segment := by
        rintro rfl
        exact hstring (Value.same_string_iff.1 hsame).symm
      obtain ⟨hbaseNot, hfirst'⟩ := (keyNamed?_eq_some_iff hstring').1 hnamed
      refine ⟨k', (keyNamed?_eq_some_iff hstring').2 ⟨?_, ?_⟩, ?_⟩
      · rw [contains_merge hkeys hoverlay, hbaseNot, hoverlayNot, Bool.or_false]
      · rw [keys_merge hkeys hoverlay, List.find?_append, hfirst', Option.some_or]
      · exact find?_congr (hbase.key (List.mem_of_find?_eq_some hfirst')) hsame _
    | none =>
      -- The key is new, and no key before it has the text.
      have hnew : base.find? k = none := by simpa [hnamed] using halike
      obtain ⟨hbaseNot, hnone⟩ := keyNamed?_eq_none_iff.1 hnamed
      refine ⟨k, (keyNamed?_eq_some_iff hstring).2 ⟨?_, ?_⟩, rfl⟩
      · rw [contains_merge hkeys hoverlay, hbaseNot, hoverlayNot, Bool.or_false]
      · rw [keys_merge hkeys hoverlay, List.find?_append, hnone, Option.none_or]
        obtain ⟨htext, before, after, hsplit, hbefore⟩ := List.find?_eq_some_iff_append.1 hfirst
        refine List.find?_eq_some_iff_append.2 ⟨htext,
          before.filter fun k ↦ !base.contains k, after.filter fun k ↦ !base.contains k, ?_, ?_⟩
        · rw [hsplit, List.filter_append, List.filter_cons_of_pos (by simp [contains, hnew])]
        · exact fun c hc ↦ hbefore c (List.mem_filter.1 hc).1

/-- Layers with the same keys name alike. -/
theorem namesAlike_of_keys_eq (h : base.keys = overlay.keys) (segment : String) :
    NamesAlike segment base overlay := by
  intro k hk
  refine Or.inr ?_
  rw [keyNamed?_of_keys_eq h, hk]
  exact Value.same_refl k

/-! ### Paths -/

/-- Along the segments, as long as they lead to mappings in both layers, each names alike. -/
def NamesAlikeAlong : List String → Tree → Tree → Prop
  | [], _, _ => True
  | s :: r, base, overlay => NamesAlike s base overlay ∧
    ∀ k below above, overlay.keyNamed? s = some k → base.find? k = some (.mapping below) →
      overlay.find? k = some (.mapping above) → NamesAlikeAlong r below above

theorem descend?_merge {segments : List String} (hbase : base.WellFormed)
    (hoverlay : overlay.WellFormed) (halike : NamesAlikeAlong segments base overlay)
    (hv : (Value.mapping overlay).descend? segments = some v)
    (hmapping : ∀ entries, v ≠ .mapping entries) :
    (Value.mapping (base.merge overlay)).descend? segments = some v := by
  induction segments generalizing base overlay with
  | nil =>
    obtain rfl : Value.mapping overlay = v := Option.some.inj hv
    exact absurd rfl (hmapping overlay)
  | cons s r ih =>
    obtain ⟨x, hx, hv⟩ := Option.bind_eq_some_iff.1 hv
    obtain ⟨k, hk, hkx⟩ := Option.bind_eq_some_iff.1 hx
    obtain ⟨hs, hr⟩ := halike
    have hkeys : ∀ c ∈ base.keys, c.WellFormed := fun c hc ↦ hbase.key hc
    obtain ⟨k', hk', hfind⟩ := find?_keyNamed?_merge hbase hoverlay hs hk
    have hchild : (Value.mapping (base.merge overlay)).child? s = some (x.over (base.find? k)) := by
      rw [Value.child?, hk', Option.bind_some, hfind, find?_merge hkeys hoverlay, hkx]
    rw [Value.descend?, hchild, Option.bind_some]
    rcases Value.over_eq x (base.find? k) with hover | ⟨above, below, rfl, hbelow, hover⟩
    · rw [hover]
      exact hv
    · rw [hover]
      exact ih (hbase.value hbelow) (hoverlay.value hkx) (hr k below above hk hbelow hkx) hv

/-- **The upper layer wins under a path** whose segments name no other keys in the lower layer: what
the path reads in the upper layer, if that is not a mapping, it reads in the two together. -/
theorem get?_merge {path : String} (hbase : base.WellFormed) (hoverlay : overlay.WellFormed)
    (halike : NamesAlikeAlong (segments path) base overlay) (hv : overlay.get? path = some v)
    (hmapping : ∀ entries, v ≠ .mapping entries) : (base.merge overlay).get? path = some v := by
  obtain ⟨hpath, hv⟩ := get?_eq_some_iff.1 hv
  exact get?_eq_some_iff.2 ⟨hpath, descend?_merge hbase hoverlay halike hv hmapping⟩

/-- A layer with the number `8080` as a key. -/
def numberedPorts (content : String) : Tree :=
  [(.string "ports", .mapping [(.int 8080, .string content), (.null, .sequence [])])]

/-- A layer with the text `8080` as a key. -/
def namedPorts (content : String) : Tree :=
  [(.string "ports", .mapping [(.string "8080", .string content)])]

theorem wellFormed_numberedPorts (content : String) : (numberedPorts content).WellFormed := by
  simp [numberedPorts, WellFormed, Value.WellFormed, Value.WellFormedEntries,
    Value.WellFormedItems, Value.same]

theorem wellFormed_namedPorts (content : String) : (namedPorts content).WellFormed := by
  simp [namedPorts, WellFormed, Value.WellFormed, Value.WellFormedEntries]

theorem get?_merge_numberedPorts :
    ((numberedPorts "old").merge (numberedPorts "new")).get? "ports.8080" =
      some (.string "new") := by
  have hsegments : segments "ports.8080" = ["ports", "8080"] := by decide +kernel
  have halike : NamesAlikeAlong ["ports", "8080"] (numberedPorts "old") (numberedPorts "new") := by
    refine ⟨namesAlike_of_keys_eq rfl _, fun k below above hk hbelow habove ↦ ?_⟩
    obtain rfl : Value.string "ports" = k := Option.some.inj hk
    obtain rfl : [(.int 8080, .string "old"), (.null, .sequence [])] = below := by
      simpa [numberedPorts, find?] using hbelow
    obtain rfl : [(.int 8080, .string "new"), (.null, .sequence [])] = above := by
      simpa [numberedPorts, find?] using habove
    exact ⟨namesAlike_of_keys_eq rfl _, fun _ _ _ _ _ _ ↦ trivial⟩
  exact get?_merge (wellFormed_numberedPorts _) (wellFormed_numberedPorts _) (hsegments ▸ halike)
    (by decide +kernel) (by simp)

/-- **The condition on names is needed**: a text in the lower layer hides a number of the same
written form in the upper one. -/
theorem get?_merge_needs_namesAlike :
    ¬∀ (base overlay : Tree) (path : String) (v : Value), base.WellFormed → overlay.WellFormed →
      overlay.get? path = some v → (∀ entries, v ≠ .mapping entries) →
        (base.merge overlay).get? path = some v := by
  intro h
  have hnew := h (namedPorts "old") (numberedPorts "new") "ports.8080" (.string "new")
    (wellFormed_namedPorts _) (wellFormed_numberedPorts _) (by decide +kernel) (by simp)
  have hold : ((namedPorts "old").merge (numberedPorts "new")).get? "ports.8080" =
      some (.string "old") := by
    decide +kernel
  rw [hold] at hnew
  simp at hnew

/-- A layer whose keys are all strings names alike with every layer below. -/
theorem namesAlikeAlong_of_stringKeyed (hoverlay : (Value.mapping overlay).StringKeyed)
    (segments : List String) (base : Tree) : NamesAlikeAlong segments base overlay := by
  induction segments generalizing base overlay with
  | nil => trivial
  | cons s r ih =>
    refine ⟨fun k hk ↦ Or.inl ?_, fun k below above _ _ habove ↦ ?_⟩
    · refine Decidable.byContradiction fun hstring ↦ ?_
      obtain ⟨-, hfirst⟩ := (keyNamed?_eq_some_iff hstring).1 hk
      obtain ⟨e, he, rfl⟩ := List.mem_map.1 (List.mem_of_find?_eq_some hfirst)
      obtain ⟨⟨text, htext⟩, -⟩ := Value.entriesStringKeyed_iff.1 hoverlay e he
      have hother := List.find?_some hfirst
      simp [htext, Value.isString, Value.untagged] at hother
    · obtain ⟨k', hmem⟩ := exists_mem_of_find? habove
      exact ih (Value.entriesStringKeyed_iff.1 hoverlay _ hmem).2 below

/-- **A layer whose keys are all strings wins under every path**, over whatever keys below. -/
theorem get?_merge_of_stringKeyed {path : String} (hbase : base.WellFormed)
    (hoverlay : overlay.WellFormed) (hstrings : (Value.mapping overlay).StringKeyed)
    (hv : overlay.get? path = some v) (hmapping : ∀ entries, v ≠ .mapping entries) :
    (base.merge overlay).get? path = some v := by
  obtain ⟨hpath, hv⟩ := get?_eq_some_iff.1 hv
  have halike := namesAlikeAlong_of_stringKeyed hstrings (segments path) base
  exact get?_eq_some_iff.2 ⟨hpath, descend?_merge hbase hoverlay halike hv hmapping⟩

end Tree

end LayeredConfig
