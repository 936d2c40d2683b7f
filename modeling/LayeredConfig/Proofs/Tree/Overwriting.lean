import LayeredConfig.Proofs.Tree.Strings

/-!
# Writing over one string

`Value.Overwritten s w v v'` says that `v'` is `v` with the value `w` over one string `s` inside it.
It is what `Value.putAt?` does at the location of a string (`of_putAt?`), with the location left
out.

Reading a dotted path survives it: where the path led in `v`, it leads in `v'`, to the same value or
to that value with the string written over (`descend?`, `Tree.get?_of_overwritten`). No path is
lost, since a path that leads into a string leads nowhere. Of the strings only `s` is lost
(`mem_strings`).
-/

namespace LayeredConfig

namespace Value

/-- Where something is, something can be put. -/
theorem exists_putAt? {l : Location} {v x : Value} (w : Value) (h : v.at? l = some x) :
    ∃ v', putAt? w l v = some v' := by
  induction l generalizing v with
  | nil => exact ⟨w, rfl⟩
  | cons step r ih =>
    cases v with
    | mapping t =>
      cases step with
      | index i => simp [at?] at h
      | key k =>
        obtain ⟨c, hfind, hc⟩ := Option.bind_eq_some_iff.1 h
        obtain ⟨c', hc'⟩ := ih hc
        exact ⟨.mapping (Tree.insert k c' t), by simp [putAt?, hfind, hc']⟩
    | sequence items =>
      cases step with
      | key k => simp [at?] at h
      | index i =>
        obtain ⟨c, hget, hc⟩ := Option.bind_eq_some_iff.1 h
        obtain ⟨c', hc'⟩ := ih hc
        exact ⟨.sequence (items.set i c'), by simp [putAt?, hget, hc']⟩
    | null | bool _ | int _ | float _ | string _ | tagged _ _ => simp [at?] at h

/-- The second value is the first with `w` over one of its strings `s`. -/
inductive Overwritten (s : String) (w : Value) : Value → Value → Prop where
  /-- The value is the string itself. -/
  | here : Overwritten s w (.string s) w
  /-- The string is inside an item. -/
  | item {before after : List Value} {v v' : Value} (h : Overwritten s w v v') :
    Overwritten s w (.sequence (before ++ v :: after)) (.sequence (before ++ v' :: after))
  /-- The string is inside the value of an entry. -/
  | entry {before after : List (Value × Value)} {k v v' : Value} (h : Overwritten s w v v') :
    Overwritten s w (.mapping (before ++ (k, v) :: after)) (.mapping (before ++ (k, v') :: after))

namespace Overwritten

variable {s : String} {w v v' x : Value}

/-- Putting a value at the location of a string writes over that string. -/
theorem of_putAt? {l : Location} (hat : v.at? l = some (.string s))
    (hput : putAt? w l v = some v') : Overwritten s w v v' := by
  induction l generalizing v v' with
  | nil =>
    obtain rfl : v = .string s := by simpa [at?] using hat
    obtain rfl : w = v' := by simpa [putAt?] using hput
    exact here
  | cons step r ih =>
    cases v with
    | mapping t =>
      cases step with
      | index i => simp [at?] at hat
      | key k =>
        obtain ⟨c, hfind, hc⟩ := Option.bind_eq_some_iff.1 hat
        rw [putAt?, hfind] at hput
        obtain ⟨c', hc', rfl⟩ := Option.map_eq_some_iff.1 hput
        obtain ⟨before, k', after, rfl, hbefore, hk'⟩ := Tree.find?_split hfind
        rw [Tree.insert_append_cons hbefore hk']
        exact entry (ih hc hc')
    | sequence items =>
      cases step with
      | key k => simp [at?] at hat
      | index i =>
        obtain ⟨c, hget, hc⟩ := Option.bind_eq_some_iff.1 hat
        rw [putAt?, hget] at hput
        obtain ⟨c', hc', rfl⟩ := Option.map_eq_some_iff.1 hput
        obtain ⟨hi, rfl⟩ := List.getElem?_eq_some_iff.1 hget
        have hitems : items = items.take i ++ items[i] :: items.drop (i + 1) := by simp
        rw [List.set_eq_take_append_cons_drop, if_pos hi]
        conv in Value.sequence items => rw [hitems]
        exact item (ih hc hc')
    | null | bool _ | int _ | float _ | string _ | tagged _ _ => simp [at?] at hat

/-- A mapping stays a mapping. -/
theorem exists_mapping {t : Tree} (h : Overwritten s w (.mapping t) v') :
    ∃ t', v' = .mapping t' := by
  cases h with
  | @entry before after k _ c' _ => exact ⟨before ++ (k, c') :: after, rfl⟩

/-- Only the string that is written over is lost. -/
theorem mem_strings (h : Overwritten s w v v') {y : String} (hy : y ∈ v.strings) :
    y = s ∨ y ∈ v'.strings := by
  induction h with
  | here => exact Or.inl (List.mem_singleton.1 hy)
  | @item before after c c' _ ih =>
    obtain ⟨d, hd, hyd⟩ := mem_itemStrings.1 hy
    rcases List.mem_append.1 hd with hd | hd
    · exact Or.inr (mem_itemStrings.2 ⟨d, List.mem_append_left _ hd, hyd⟩)
    · rcases List.mem_cons.1 hd with rfl | hd
      · exact (ih hyd).imp_right fun hyc' ↦ mem_itemStrings.2 ⟨c', by simp, hyc'⟩
      · exact Or.inr (mem_itemStrings.2 ⟨d, by simp [hd], hyd⟩)
  | @entry before after k c c' _ ih =>
    obtain ⟨e, he, hye⟩ := mem_entryStrings.1 hy
    rcases List.mem_append.1 he with he | he
    · exact Or.inr (mem_entryStrings.2 ⟨e, List.mem_append_left _ he, hye⟩)
    · rcases List.mem_cons.1 he with rfl | he
      · exact (ih hye).imp_right fun hyc' ↦ mem_entryStrings.2 ⟨(k, c'), by simp, hyc'⟩
      · exact Or.inr (mem_entryStrings.2 ⟨e, by simp [he], hye⟩)

/-- What an index finds once one item is written over: what it found before, unless that was the
item that is gone. -/
theorem getElem?_of_overwrite {before after : List Value} {i : Nat} (c' : Value) {c : Value}
    (h : (before ++ c :: after)[i]? = some x) :
    (before ++ c' :: after)[i]? = some x ∨ x = c ∧ (before ++ c' :: after)[i]? = some c' := by
  -- The items in front and behind keep their index.
  rcases Nat.lt_trichotomy i before.length with hi | rfl | hi
  · rw [List.getElem?_append_left hi] at h ⊢
    exact Or.inl h
  · obtain rfl : c = x := by simpa using h
    exact Or.inr ⟨rfl, by simp⟩
  · obtain ⟨j, hj⟩ : ∃ j, i - before.length = j + 1 := ⟨i - before.length - 1, by omega⟩
    rw [List.getElem?_append_right (Nat.le_of_lt hi), hj, List.getElem?_cons_succ] at h ⊢
    exact Or.inl h

/-- The part that a segment names is still named by it. -/
theorem child? (h : Overwritten s w v v') {segment : String} (hx : v.child? segment = some x) :
    ∃ x', v'.child? segment = some x' ∧ (x' = x ∨ Overwritten s w x x') := by
  cases h with
  | here => simp [Value.child?] at hx
  | @item before after c c' hc =>
    obtain ⟨i, hseg, hget⟩ := Option.bind_eq_some_iff.1 hx
    rcases getElem?_of_overwrite c' hget with hget' | ⟨rfl, hget'⟩
    · exact ⟨x, by simp [Value.child?, hseg, hget'], Or.inl rfl⟩
    · exact ⟨c', by rw [Value.child?, hseg, Option.bind_some, hget'], Or.inr hc⟩
  | @entry before after k c c' hc =>
    obtain ⟨k', hnamed, hfind⟩ := Option.bind_eq_some_iff.1 hx
    have hkeys : Tree.keys (before ++ (k, c') :: after) =
        Tree.keys (before ++ (k, c) :: after) := by
      simp [Tree.keys]
    have hnamed' : Tree.keyNamed? segment (before ++ (k, c') :: after) = some k' := by
      rw [Tree.keyNamed?_of_keys_eq hkeys segment, hnamed]
    rcases Tree.find?_of_overwrite c' hfind with hfind' | ⟨rfl, hfind'⟩
    · exact ⟨x, by simp [Value.child?, hnamed', hfind'], Or.inl rfl⟩
    · exact ⟨c', by simp [Value.child?, hnamed', hfind'], Or.inr hc⟩

/-- Where segments led, they lead. -/
theorem descend? (h : Overwritten s w v v') {segments : List String}
    (hx : v.descend? segments = some x) :
    ∃ x', v'.descend? segments = some x' ∧ (x' = x ∨ Overwritten s w x x') := by
  induction segments generalizing v v' with
  | nil =>
    obtain rfl : v = x := by simpa [Value.descend?] using hx
    exact ⟨v', rfl, Or.inr h⟩
  | cons segment r ih =>
    obtain ⟨c, hc, hr⟩ := Option.bind_eq_some_iff.1 hx
    obtain ⟨c', hc', rfl | hcc'⟩ := h.child? hc
    · exact ⟨x, by rw [Value.descend?, hc']; exact hr, Or.inl rfl⟩
    · obtain ⟨x', hx', hxx'⟩ := ih hcc' hr
      exact ⟨x', by rw [Value.descend?, hc']; exact hx', hxx'⟩

end Overwritten

end Value

/-- **A path that led somewhere still leads there** once a string of the tree is written over. -/
theorem Tree.get?_of_overwritten {s : String} {w v : Value} {t t' : Tree}
    (h : Value.Overwritten s w (.mapping t) (.mapping t')) {path : String}
    (hv : t.get? path = some v) :
    ∃ v', t'.get? path = some v' ∧ (v' = v ∨ Value.Overwritten s w v v') := by
  obtain ⟨hpath, hv⟩ := get?_eq_some_iff.1 hv
  obtain ⟨v', hv', hvv'⟩ := h.descend? hv
  exact ⟨v', get?_eq_some_iff.2 ⟨hpath, hv'⟩, hvv'⟩

end LayeredConfig
