import LayeredConfig.Proofs.Tree.Position

/-!
# Writing through a place

Reading a path goes from value to value, and writing goes from place to place: two descents, each
with its own way into a mapping and into a sequence. They keep in step. Both find something along
the same segments, and what stands at the place is what is read there (`Focus.map_value_descend?`,
`Tree.map_value_focus?`).

A place hands on what is written to it from one container to the one around it, up to the whole.
All that comes to is that one value stands for another at the position of the path
(`Focus.exists_replaced_of_descend?`, `Tree.exists_replaced_of_focus?`).
-/

namespace LayeredConfig

namespace Focus

variable {α β : Type} {f : Focus α} {segment : String} {path : List String} {v : Value}

/-! ### Reading and writing in step -/

/-- **One step**: a segment leads a writer to the part that it leads a reader to. -/
theorem map_value_child? (f : Focus α) (segment : String) :
    (f.child? segment).map value = f.value.child? segment := by
  obtain ⟨v, put⟩ := f
  cases v with
  | mapping t =>
    simp [child?, Value.child?, Tree.focusKey?, Option.map_bind, Function.comp_def]
  | sequence items =>
    simp [child?, Value.child?, Option.map_bind, Function.comp_def]
  | null | bool _ | int _ | float _ | string _ | tagged _ _ => rfl

/-- **The whole way**: segments lead a writer to what they lead a reader to. -/
theorem map_value_descend? (path : List String) (f : Focus α) :
    (f.descend? path).map value = f.value.descend? path := by
  induction path generalizing f with
  | nil => rfl
  | cons s r ih =>
    rw [descend?, Value.descend?, ← map_value_child?, Option.map_bind, Option.bind_map]
    exact congrArg _ (funext ih)

/-! ### Places in what is around -/

/-- The place in something around the whole. -/
def within (outer : α → β) (f : Focus α) : Focus β :=
  ⟨f.value, fun w ↦ outer (f.put w)⟩

/-- All of a value. -/
def whole (v : Value) : Focus Value :=
  ⟨v, fun w ↦ w⟩

theorem child?_within (outer : α → β) (f : Focus α) (segment : String) :
    (f.within outer).child? segment = (f.child? segment).map (within outer) := by
  obtain ⟨v, put⟩ := f
  cases v with
  | mapping t =>
    simp [within, child?, Function.comp_def]
  | sequence items =>
    simp [within, child?, Option.map_bind, Function.comp_def]
  | null | bool _ | int _ | float _ | string _ | tagged _ _ => rfl

/-- What is around the whole does not matter on the way down. -/
theorem descend?_within (outer : α → β) (path : List String) (f : Focus α) :
    (f.within outer).descend? path = (f.descend? path).map (within outer) := by
  induction path generalizing f with
  | nil => rfl
  | cons s r ih =>
    rw [descend?, child?_within, descend?, Option.map_bind, Option.bind_map]
    exact congrArg _ (funext ih)

/-- Going on from a place is going down in what stands there. -/
theorem descend?_eq (path : List String) (f : Focus α) :
    f.descend? path = ((whole f.value).descend? path).map (within f.put) :=
  descend?_within f.put path (whole f.value)

theorem descend?_cons_eq_some_iff {f : Focus Value} :
    (whole v).descend? (segment :: path) = some f ↔
      ∃ g f', (whole v).child? segment = some g ∧ (whole g.value).descend? path = some f' ∧
        f'.within g.put = f := by
  rw [descend?, Option.bind_eq_some_iff]
  refine exists_congr fun g ↦ ?_
  rw [descend?_eq, Option.map_eq_some_iff, exists_and_left]

theorem child?_of_whole {f : Focus Value} (h : (whole v).child? segment = some f) :
    v.child? segment = some f.value := by
  have hstep : ((whole v).child? segment).map value = v.child? segment := map_value_child? _ _
  rw [← hstep, h, Option.map_some]

theorem remove?_within (outer : α → β) (segment : String) (f : Focus α) :
    (f.within outer).remove? segment = (f.remove? segment).map fun (v, c) ↦ (v, outer c) := by
  rw [remove?, remove?, Option.map_map]
  rfl

/-! ### What is written -/

/-- The place of an entry: its value, and the mapping with another value under its key. -/
theorem child?_mapping_eq_some_iff {t : Tree} {f : Focus Value} :
    (whole (.mapping t)).child? segment = some f ↔
      ∃ k w, t.keyNamed? segment = some k ∧ t.find? k = some w ∧
        ⟨w, fun c ↦ .mapping (t.insert k c)⟩ = f := by
  constructor
  · intro h
    obtain ⟨g, hg, rfl⟩ := Option.map_eq_some_iff.1 h
    obtain ⟨k, hk, hg⟩ := Option.bind_eq_some_iff.1 hg
    obtain ⟨w, hfind, rfl⟩ := Option.map_eq_some_iff.1 hg
    exact ⟨k, w, hk, hfind, rfl⟩
  · rintro ⟨k, w, hk, hfind, rfl⟩
    simp [whole, child?, Tree.focusKey?, hk, hfind]

/-- The place of an item: the item, and the sequence with another one at its index. -/
theorem child?_sequence_eq_some_iff {items : List Value} {f : Focus Value} :
    (whole (.sequence items)).child? segment = some f ↔
      ∃ i w, segmentIndex? segment = some i ∧ items[i]? = some w ∧
        ⟨w, fun c ↦ .sequence (items.set i c)⟩ = f := by
  constructor
  · intro h
    obtain ⟨i, hi, hitem⟩ := Option.bind_eq_some_iff.1 h
    obtain ⟨w, hget, rfl⟩ := Option.map_eq_some_iff.1 hitem
    exact ⟨i, w, hi, hget, rfl⟩
  · rintro ⟨i, w, hi, hget, rfl⟩
    simp [whole, child?, hi, hget]

/-- Writing to the place of a part is replacing at the number of its segment. -/
theorem exists_replaced_of_child? {f : Focus Value} (h : (whole v).child? segment = some f) :
    ∃ i, v.number? segment = some i ∧ v.parts[i]? = some f.value ∧
      ∀ {x x' w : Value} {l : Position}, Value.Replaced x x' l f.value w →
        Value.Replaced x x' (i :: l) v (f.put w) := by
  cases v with
  | mapping t =>
    obtain ⟨k, c, hk, hfind, rfl⟩ := child?_mapping_eq_some_iff.1 h
    obtain ⟨before, k', after, rfl, hbefore, hk'⟩ := Tree.find?_split hfind
    have hnone : (Tree.keys before).findIdx? (fun c ↦ c.same k) = none := by
      rw [Tree.keys, List.findIdx?_map, List.findIdx?_eq_none_iff]
      exact hbefore
    refine ⟨before.length, ?_, ?_, fun {x x' w l} hw ↦ ?_⟩
    · have hkeys : Tree.keys (before ++ (k', c) :: after) =
          Tree.keys before ++ k' :: Tree.keys after := List.map_append
      rw [Value.number?, hk, Option.bind_some, hkeys, List.findIdx?_append, hnone,
        List.findIdx?_cons, hk']
      simp [Tree.keys]
    · simp [Value.parts]
    · dsimp only
      rw [Tree.insert_append_cons hbefore hk']
      exact .entry hw
  | sequence items =>
    obtain ⟨i, c, hi, hget, rfl⟩ := child?_sequence_eq_some_iff.1 h
    obtain ⟨hlt, rfl⟩ := List.getElem?_eq_some_iff.1 hget
    refine ⟨i, hi, hget, fun {x x' w l} hw ↦ ?_⟩
    have hitems : items = items.take i ++ items[i] :: items.drop (i + 1) := by simp
    have hlength : (items.take i).length = i := List.length_take_of_le (Nat.le_of_lt hlt)
    dsimp only
    rw [List.set_eq_take_append_cons_drop, if_pos hlt]
    conv in Value.sequence items => rw [hitems]
    conv in i :: l => rw [← hlength]
    exact .item hw
  | null | bool _ | int _ | float _ | string _ | tagged _ _ => cases h

/-- **Writing where segments lead** is replacing at their position. -/
theorem exists_replaced_of_descend? {f : Focus Value} (h : (whole v).descend? path = some f) :
    ∃ l, v.position? path = some l ∧ ∀ w, Value.Replaced f.value w l v (f.put w) := by
  induction path generalizing v f with
  | nil =>
    obtain rfl := Option.some.inj h
    exact ⟨[], rfl, fun _ ↦ .here⟩
  | cons s r ih =>
    obtain ⟨g, f', hg, hf', rfl⟩ := descend?_cons_eq_some_iff.1 h
    obtain ⟨i, hi, hpart, hreplaced⟩ := exists_replaced_of_child? hg
    obtain ⟨l, hl, hwrite⟩ := ih hf'
    exact ⟨i :: l, Value.position?_cons_eq_some_iff.2 ⟨i, g.value, l, hi, hpart, hl, rfl⟩,
      fun w ↦ hreplaced (hwrite w)⟩

end Focus

namespace Tree

variable {t : Tree} {path : String}

/-- In a tree the descent is that in the mapping of its entries. -/
theorem map_within_focus? (hpath : path ≠ "") :
    (t.focus? path).map (Focus.within Value.mapping) =
      (Focus.whole (.mapping t)).descend? (segments path) := by
  obtain ⟨s, r, hsegments⟩ := List.exists_cons_of_ne_nil (segments_ne_nil path)
  rw [focus?, if_neg hpath, hsegments]
  change ((t.focusKey? s).bind fun f ↦ f.descend? r).map _ =
    ((t.focusKey? s).map (Focus.within Value.mapping)).bind fun f ↦ f.descend? r
  rw [Option.map_bind, Option.bind_map]
  exact congrArg _ (funext fun f ↦ (Focus.descend?_within _ r f).symm)

/-- **Reading and writing keep in step**: a path leads a writer to what it leads a reader to. -/
theorem map_value_focus? (t : Tree) (path : String) :
    (t.focus? path).map Focus.value = t.get? path := by
  rw [get?]
  split
  · rename_i hpath
    rw [focus?, if_pos hpath]
    rfl
  · rename_i hpath
    have hdescend := Focus.map_value_descend? (segments path) (Focus.whole (.mapping t))
    rw [← map_within_focus? hpath, Option.map_map] at hdescend
    exact hdescend

/-- **Writing where a path leads** is replacing at its position. -/
theorem exists_replaced_of_focus? {f : Focus Tree} (h : t.focus? path = some f) :
    ∃ l, t.position? path = some l ∧
      ∀ w, Value.Replaced f.value w l (.mapping t) (.mapping (f.put w)) := by
  have hpath : path ≠ "" := by
    rintro rfl
    cases h
  have hdescend := map_within_focus? (t := t) hpath
  rw [h] at hdescend
  obtain ⟨l, hl, hwrite⟩ := Focus.exists_replaced_of_descend? hdescend.symm
  exact ⟨l, by rw [position?, if_neg hpath, hl], hwrite⟩

end Tree

end LayeredConfig
