import LayeredConfig.Proofs.Tree.Focus
import LayeredConfig.Proofs.Tree.WellFormed

/-!
# What a path reads once something is taken away

`Tree.without` takes one entry out of a mapping, or one item out of a sequence, somewhere in the
tree (`Value.Removed`, `Tree.without_eq_or_removed`). A removal can bring to light what was hidden:
the items behind take lower indexes, and a number as a key is found once the text of the same form
is gone.

Along a path that goes through mappings only, each with one key at most that the next segment names,
there is nothing to bring to light (`Value.ClearAlong`). What the path reads after a removal, it
read before (`Value.Removed.exists_descend?`), so what is gone stays gone; and a removal at the path
itself leaves nothing there (`Tree.descend?_without_self`).
-/

namespace LayeredConfig

/-! ### Keys with one name -/

/-- The segment is the name of the key: the key is the string with this text, or it is no string and
is written like this. -/
def Value.isNamed (segment : String) (k : Value) : Bool :=
  k = .string segment || !k.isString && k.keyText == segment

theorem Value.keyText_of_isNamed {segment : String} {k : Value} (h : k.isNamed segment = true) :
    k.keyText = segment := by
  rw [isNamed, Bool.or_eq_true, decide_eq_true_eq, Bool.and_eq_true, beq_iff_eq] at h
  rcases h with rfl | ⟨-, htext⟩
  · rfl
  · exact htext

namespace Tree

variable {t : Tree} {k k' v w : Value} {segment : String}

/-- No two keys of the tree have the segment as their name. -/
def NamesOnce (segment : String) (t : Tree) : Prop :=
  ∀ k ∈ t.keys, ∀ k' ∈ t.keys, k.isNamed segment = true → k'.isNamed segment = true → k = k'

instance (segment : String) (t : Tree) : Decidable (t.NamesOnce segment) :=
  inferInstanceAs (Decidable (∀ k ∈ t.keys, ∀ k' ∈ t.keys,
    k.isNamed segment = true → k'.isNamed segment = true → k = k'))

theorem contains_string_iff {s : String} :
    t.contains (.string s) = true ↔ .string s ∈ t.keys := by
  rw [contains_eq_any_keys, List.any_eq_true]
  constructor
  · rintro ⟨k, hk, hsame⟩
    exact Value.same_string_right_iff.1 hsame ▸ hk
  · exact fun h ↦ ⟨_, h, Value.same_refl _⟩

theorem mem_keys_of_keyNamed? (h : t.keyNamed? segment = some k) :
    k ∈ t.keys ∧ k.isNamed segment = true := by
  rw [keyNamed?] at h
  split at h
  · rename_i hcontains
    obtain rfl := Option.some.inj h
    exact ⟨contains_string_iff.1 hcontains, by simp [Value.isNamed]⟩
  · have hother := List.find?_some h
    exact ⟨List.mem_of_find?_eq_some h, by rw [Value.isNamed, hother, Bool.or_true]⟩

theorem exists_keyNamed? (hk : k ∈ t.keys) (hnamed : k.isNamed segment = true) :
    ∃ k', t.keyNamed? segment = some k' := by
  rw [keyNamed?]
  split
  · exact ⟨_, rfl⟩
  · rename_i hcontains
    rw [Value.isNamed, Bool.or_eq_true, decide_eq_true_eq] at hnamed
    rcases hnamed with rfl | hother
    · exact absurd (contains_string_iff.2 hk) hcontains
    · exact Option.isSome_iff_exists.1 (List.find?_isSome.2 ⟨k, hk, hother⟩)

/-- What a segment names in a well-formed mapping is the value of an entry whose key has this name.
-/
theorem exists_mem_of_child? (ht : t.WellFormed) (h : (Value.mapping t).child? segment = some v) :
    ∃ k, t.keyNamed? segment = some k ∧ k.isNamed segment = true ∧ (k, v) ∈ t := by
  obtain ⟨k, hk, hfind⟩ := Option.bind_eq_some_iff.1 h
  obtain ⟨hmem, hnamed⟩ := mem_keys_of_keyNamed? hk
  obtain ⟨⟨k, w⟩, hentry, rfl⟩ := List.mem_map.1 hmem
  obtain rfl : w = v := Option.some.inj ((find?_of_mem ht.1 hentry).symm.trans hfind)
  exact ⟨k, hk, hnamed, hentry⟩

/-- And the other way round, if no other key has the name. -/
theorem child?_of_mem (ht : t.WellFormed) (honce : t.NamesOnce segment) (hmem : (k, v) ∈ t)
    (hnamed : k.isNamed segment = true) : (Value.mapping t).child? segment = some v := by
  have hk : k ∈ t.keys := List.mem_map_of_mem hmem
  obtain ⟨k', hk'⟩ := exists_keyNamed? hk hnamed
  obtain ⟨hmem', hnamed'⟩ := mem_keys_of_keyNamed? hk'
  obtain rfl : k' = k := honce k' hmem' k hk hnamed' hnamed
  rw [Value.child?, hk', Option.bind_some, find?_of_mem ht.1 hmem]

/-- The first entry that shows a key is the one that is erased. -/
theorem erase_append_cons {before after : Tree} (hbefore : ∀ e ∈ before, e.1.same k = false)
    (hk : k'.same k = true) : erase k (before ++ (k', v) :: after) = before ++ after := by
  induction before with
  | nil => simp [erase, hk]
  | cons e r ih =>
    have he : e.1.same k = false := hbefore e List.mem_cons_self
    rw [List.cons_append, erase, he]
    simp only [Bool.false_eq_true, if_false, List.cons_append, List.cons.injEq, true_and]
    exact ih fun e' he' ↦ hbefore e' (List.mem_cons_of_mem _ he')

end Tree

/-! ### One removal -/

namespace Value

/-- The second value is the first with one entry or one item taken out, at some depth. -/
inductive Removed : Value → Value → Prop where
  /-- An entry of the mapping is gone. -/
  | entry {before after : List (Value × Value)} {k v : Value} :
    Removed (.mapping (before ++ (k, v) :: after)) (.mapping (before ++ after))
  /-- An item of the sequence is gone. -/
  | item {before after : List Value} {v : Value} :
    Removed (.sequence (before ++ v :: after)) (.sequence (before ++ after))
  /-- Something is gone inside the value of an entry. -/
  | insideEntry {before after : List (Value × Value)} {k v v' : Value} (h : Removed v v') :
    Removed (.mapping (before ++ (k, v) :: after)) (.mapping (before ++ (k, v') :: after))
  /-- Something is gone inside an item. -/
  | insideItem {before after : List Value} {v v' : Value} (h : Removed v v') :
    Removed (.sequence (before ++ v :: after)) (.sequence (before ++ v' :: after))

variable {v v' w w' x : Value} {segment : String}

/-- What is written to the place of a part is read behind its segment. -/
theorem child?_put {f : Focus Value} (h : (Focus.whole v).child? segment = some f) (w : Value) :
    (f.put w).child? segment = some w := by
  obtain ⟨i, hi, -, hwrite⟩ := Focus.exists_replaced_of_child? h
  have hreplaced : Replaced f.value w [i] v (f.put w) := hwrite .here
  have hsurface : v.surface = (f.put w).surface := hreplaced.exists_parts.1
  refine child?_eq_some_iff.2 ⟨i, (number?_congr hsurface segment).symm.trans hi, ?_⟩
  obtain ⟨c, hc, hw⟩ := Option.bind_eq_some_iff.1 hreplaced.within?_self.2
  obtain rfl : c = w := Option.some.inj hw
  exact hc

/-- The second container is the first without one of its entries or items, and this one has the
value `x`. -/
inductive Loses (x : Value) : Value → Value → Prop where
  /-- An entry of a mapping is lost. -/
  | entry {before after : List (Value × Value)} {k : Value} :
    Loses x (.mapping (before ++ (k, x) :: after)) (.mapping (before ++ after))
  /-- An item of a sequence is lost. -/
  | item {before after : List Value} :
    Loses x (.sequence (before ++ x :: after)) (.sequence (before ++ after))

/-- How a mapping loses an entry. -/
theorem removeChild?_mapping_eq_some_iff {t : Tree} :
    (mapping t).removeChild? segment = some (x, v') ↔
      ∃ k, t.keyNamed? segment = some k ∧ t.find? k = some x ∧ mapping (t.erase k) = v' := by
  constructor
  · intro h
    obtain ⟨⟨y, t'⟩, hkey, heq⟩ := Option.map_eq_some_iff.1 h
    obtain ⟨k, hk, hkey⟩ := Option.bind_eq_some_iff.1 hkey
    obtain ⟨z, hfind, hpair⟩ := Option.map_eq_some_iff.1 hkey
    cases hpair
    cases heq
    exact ⟨k, hk, hfind, rfl⟩
  · rintro ⟨k, hk, hfind, rfl⟩
    simp [removeChild?, Tree.removeKey?, hk, hfind]

/-- How a sequence loses an item. -/
theorem removeChild?_sequence_eq_some_iff {items : List Value} :
    (sequence items).removeChild? segment = some (x, v') ↔
      ∃ i, segmentIndex? segment = some i ∧ items[i]? = some x ∧
        sequence (items.eraseIdx i) = v' := by
  constructor
  · intro h
    obtain ⟨i, hi, hitem⟩ := Option.bind_eq_some_iff.1 h
    obtain ⟨y, hget, hpair⟩ := Option.map_eq_some_iff.1 hitem
    cases hpair
    exact ⟨i, hi, hget, rfl⟩
  · rintro ⟨i, hi, hget, rfl⟩
    simp [removeChild?, hi, hget]

theorem loses_of_removeChild? (h : v.removeChild? segment = some (x, v')) : Loses x v v' := by
  cases v with
  | mapping t =>
    obtain ⟨k, -, hfind, rfl⟩ := removeChild?_mapping_eq_some_iff.1 h
    obtain ⟨before, k', after, rfl, hbefore, hk'⟩ := Tree.find?_split hfind
    rw [Tree.erase_append_cons hbefore hk']
    exact .entry
  | sequence items =>
    obtain ⟨i, -, hget, rfl⟩ := removeChild?_sequence_eq_some_iff.1 h
    obtain ⟨hlt, rfl⟩ := List.getElem?_eq_some_iff.1 hget
    have hitems : items = items.take i ++ items[i] :: items.drop (i + 1) := by simp
    rw [List.eraseIdx_eq_take_drop_succ]
    conv in Value.sequence items => rw [hitems]
    exact .item
  | null | bool _ | int _ | float _ | string _ | tagged _ _ => cases h

theorem Removed.of_loses (h : Loses x v v') : Removed v v' := by
  cases h with
  | entry => exact .entry
  | item => exact .item

/-- What is removed inside of a place is removed inside of the whole. -/
theorem Removed.of_replaced {l : Position} (h : Removed w w') (hv : Replaced w w' l v v') :
    Removed v v' := by
  induction hv with
  | here => exact h
  | entry _ ih => exact .insideEntry ih
  | item _ ih => exact .insideItem ih

theorem removed_of_removeChild? (h : v.removeChild? segment = some (x, v')) : Removed v v' :=
  .of_loses (loses_of_removeChild? h)

/-! ### A removal along segments -/

/-- Takes the part that a segment names out of what the segments before it lead to. -/
def removeAt? (parent : List String) (last : String) (v : Value) : Option (Value × Value) :=
  ((Focus.whole v).descend? parent).bind fun f ↦ f.remove? last

variable {parent : List String}

theorem removeAt?_nil (segment : String) (v : Value) :
    v.removeAt? [] segment = v.removeChild? segment :=
  Option.map_id'

theorem removeAt?_cons (s : String) (parent : List String) (segment : String) (v : Value) :
    v.removeAt? (s :: parent) segment = ((Focus.whole v).child? s).bind fun f ↦
      (f.value.removeAt? parent segment).map fun (y, c) ↦ (y, f.put c) := by
  rw [removeAt?, Focus.descend?, Option.bind_assoc]
  refine congrArg _ (funext fun f ↦ ?_)
  rw [Focus.descend?_eq, removeAt?, Option.bind_map, Option.map_bind]
  exact congrArg _ (funext fun g ↦ Focus.remove?_within f.put segment g)

/-- A removal along segments changes what the first of them lead to, and hands the change on. -/
theorem exists_replaced_of_removeAt? (h : v.removeAt? parent segment = some (x, v')) :
    ∃ l c c', v.position? parent = some l ∧ c.removeChild? segment = some (x, c') ∧
      Replaced c c' l v v' := by
  obtain ⟨f, hf, h⟩ := Option.bind_eq_some_iff.1 h
  obtain ⟨⟨y, c'⟩, hremove, heq⟩ := Option.map_eq_some_iff.1 h
  obtain ⟨rfl, rfl⟩ := Prod.mk.inj heq
  obtain ⟨l, hl, hwrite⟩ := Focus.exists_replaced_of_descend? hf
  exact ⟨l, f.value, c', hl, hremove, hwrite c'⟩

theorem removed_of_removeAt? (h : v.removeAt? parent segment = some (x, v')) : Removed v v' := by
  obtain ⟨l, w, w', -, hw, hv⟩ := exists_replaced_of_removeAt? h
  exact (removed_of_removeChild? hw).of_replaced hv

namespace Removed

variable {t t' : Tree}

theorem exists_mapping (h : Removed (.mapping t) v') : ∃ t', v' = .mapping t' := by
  cases h with
  | @entry before after _ _ => exact ⟨before ++ after, rfl⟩
  | @insideEntry before after k _ w' _ => exact ⟨before ++ (k, w') :: after, rfl⟩

/-- A removal takes keys away and brings none. -/
theorem keys_sublist (h : Removed (.mapping t) (.mapping t')) : t'.keys.Sublist t.keys := by
  cases h with
  | entry => exact (List.Sublist.append_left (List.sublist_cons_self _ _) _).map _
  | insideEntry _ => simp [Tree.keys]

/-- An entry that is left was there, with its value or with the value that the removal went into. -/
theorem exists_mem (h : Removed (.mapping t) (.mapping t')) {k : Value} (hmem : (k, v') ∈ t') :
    ∃ v, (k, v) ∈ t ∧ (v' = v ∨ Removed v v') := by
  cases h with
  | entry =>
    refine ⟨v', ?_, Or.inl rfl⟩
    rcases List.mem_append.1 hmem with hmem | hmem
    · exact List.mem_append_left _ hmem
    · exact List.mem_append_right _ (List.mem_cons_of_mem _ hmem)
  | @insideEntry before after c w w' hw =>
    rcases List.mem_append.1 hmem with hmem | hmem
    · exact ⟨v', List.mem_append_left _ hmem, Or.inl rfl⟩
    · rcases List.mem_cons.1 hmem with heq | hmem
      · obtain ⟨rfl, rfl⟩ := Prod.mk.inj heq
        exact ⟨w, by simp, Or.inr hw⟩
      · exact ⟨v', List.mem_append_right _ (List.mem_cons_of_mem _ hmem), Or.inl rfl⟩

theorem wellFormed (h : Removed v v') (hv : v.WellFormed) : v'.WellFormed := by
  induction h with
  | entry =>
    exact Tree.WellFormed.sublist hv (List.Sublist.append_left (List.sublist_cons_self _ _) _)
  | item =>
    refine wellFormedItems_iff.2 fun c hc ↦ wellFormedItems_iff.1 hv c ?_
    rcases List.mem_append.1 hc with hc | hc
    · exact List.mem_append_left _ hc
    · exact List.mem_append_right _ (List.mem_cons_of_mem _ hc)
  | @insideEntry before after k w w' _ ih =>
    obtain ⟨hkeys, hentries⟩ := Tree.wellFormed_iff.1 hv
    refine Tree.wellFormed_iff.2 ⟨by simpa [Tree.keys] using hkeys, fun e he ↦ ?_⟩
    rcases List.mem_append.1 he with he | he
    · exact hentries e (List.mem_append_left _ he)
    · rcases List.mem_cons.1 he with rfl | he
      · obtain ⟨hk, hw⟩ := hentries (k, w) (by simp)
        exact ⟨hk, ih hw⟩
      · exact hentries e (List.mem_append_right _ (List.mem_cons_of_mem _ he))
  | @insideItem before after w w' _ ih =>
    have hitems := wellFormedItems_iff.1 hv
    refine wellFormedItems_iff.2 fun c hc ↦ ?_
    rcases List.mem_append.1 hc with hc | hc
    · exact hitems c (List.mem_append_left _ hc)
    · rcases List.mem_cons.1 hc with rfl | hc
      · exact ih (hitems w (by simp))
      · exact hitems c (List.mem_append_right _ (List.mem_cons_of_mem _ hc))

end Removed

/-! ### Along a path -/

/-- The segment can name one part of the value only, whatever is taken away: the value is no
sequence, and if it is a mapping, no two of its keys have the name. -/
def Unambiguous (segment : String) : Value → Prop
  | .mapping t => Tree.NamesOnce segment t
  | .sequence _ => False
  | _ => True

/-- Each of the segments can name one part only of what those before it lead to. -/
def ClearAlong : List String → Value → Prop
  | [], _ => True
  | s :: r, v => v.Unambiguous s ∧ ∀ c, v.child? s = some c → ClearAlong r c

theorem clearAlong_iff {segments : List String} : v.ClearAlong segments ↔
    ∀ before s after, segments = before ++ s :: after →
      ∀ w, v.descend? before = some w → w.Unambiguous s := by
  induction segments generalizing v with
  | nil => simp [ClearAlong]
  | cons s r ih =>
    constructor
    · rintro ⟨hs, hr⟩ before s' after hsplit w hw
      cases before with
      | nil =>
        obtain ⟨rfl, -⟩ := List.cons.inj hsplit
        obtain rfl : v = w := Option.some.inj hw
        exact hs
      | cons b before =>
        obtain ⟨rfl, hsplit'⟩ := List.cons.inj hsplit
        obtain ⟨c, hc, hw⟩ := Option.bind_eq_some_iff.1 hw
        exact ih.1 (hr c hc) before s' after hsplit' w hw
    · intro h
      refine ⟨h [] s r rfl v rfl, fun c hc ↦ ih.2 fun before s' after hsplit w hw ↦ ?_⟩
      refine h (s :: before) s' after (by rw [hsplit, List.cons_append]) w ?_
      rw [descend?, hc, Option.bind_some, hw]

namespace Removed

variable {segments : List String}

/-- **A removal brings nothing to light**: what an unambiguous segment names afterwards it named
before, with what was taken out of it. -/
theorem exists_child? (h : Removed v v') (hv : v.WellFormed) (hclear : v.Unambiguous segment)
    (hx : v'.child? segment = some x) :
    ∃ c, v.child? segment = some c ∧ (x = c ∨ Removed c x) := by
  cases v with
  | mapping t =>
    obtain ⟨t', rfl⟩ := h.exists_mapping
    obtain ⟨k, -, hnamed, hmem⟩ := Tree.exists_mem_of_child? (h.wellFormed hv) hx
    obtain ⟨c, hmem', hc⟩ := h.exists_mem hmem
    exact ⟨c, Tree.child?_of_mem hv hclear hmem' hnamed, hc⟩
  | sequence items => exact hclear.elim
  | null | bool _ | int _ | float _ | string _ | tagged _ _ => cases h

theorem unambiguous (h : Removed v v') (hclear : v.Unambiguous segment) :
    v'.Unambiguous segment := by
  cases v with
  | mapping t =>
    obtain ⟨t', rfl⟩ := h.exists_mapping
    have hkeys := h.keys_sublist.subset
    exact fun k hk k' hk' ↦ hclear k (hkeys hk) k' (hkeys hk')
  | sequence items => exact hclear.elim
  | null | bool _ | int _ | float _ | string _ | tagged _ _ => cases h

theorem clearAlong (h : Removed v v') (hv : v.WellFormed) (hclear : v.ClearAlong segments) :
    v'.ClearAlong segments := by
  induction segments generalizing v v' with
  | nil => trivial
  | cons s r ih =>
    obtain ⟨hs, hr⟩ := hclear
    refine ⟨h.unambiguous hs, fun x hx ↦ ?_⟩
    obtain ⟨c, hc, rfl | hcx⟩ := h.exists_child? hv hs hx
    · exact hr x hc
    · exact ih hcx (hv.child? hc) (hr c hc)

/-- Where segments lead after a removal, they led before. -/
theorem exists_descend? (h : Removed v v') (hv : v.WellFormed) (hclear : v.ClearAlong segments)
    (hx : v'.descend? segments = some x) : ∃ y, v.descend? segments = some y := by
  induction segments generalizing v v' with
  | nil => exact ⟨v, rfl⟩
  | cons s r ih =>
    obtain ⟨hs, hr⟩ := hclear
    obtain ⟨c', hc', hx⟩ := Option.bind_eq_some_iff.1 hx
    obtain ⟨c, hc, rfl | hcc'⟩ := h.exists_child? hv hs hc'
    · exact ⟨x, by rw [descend?, hc, Option.bind_some, hx]⟩
    · obtain ⟨y, hy⟩ := ih hcc' (hv.child? hc) (hr c hc) hx
      exact ⟨y, by rw [descend?, hc, Option.bind_some, hy]⟩

end Removed

/-! ### The removal at the path -/

/-- A removal at an unambiguous segment leaves nothing there. -/
theorem child?_of_removeChild? (hv : v.WellFormed) (hclear : v.Unambiguous segment)
    (h : v.removeChild? segment = some (x, v')) : v'.child? segment = none := by
  have hv' : v'.WellFormed := (removed_of_removeChild? h).wellFormed hv
  cases v with
  | mapping t =>
    obtain ⟨k, hk, hfind, rfl⟩ := removeChild?_mapping_eq_some_iff.1 h
    obtain ⟨before, k₀, after, rfl, hbefore, hk₀⟩ := Tree.find?_split hfind
    obtain ⟨hmem, hnamed⟩ := Tree.mem_keys_of_keyNamed? hk
    rw [Tree.erase_append_cons hbefore hk₀] at hv' ⊢
    refine Option.eq_none_iff_forall_ne_some.2 fun c hc ↦ ?_
    -- A key with the name would be the key that is gone, which is there only once.
    obtain ⟨k', -, hnamed', hmem'⟩ := Tree.exists_mem_of_child? hv' hc
    have hold : (k', c) ∈ before ++ (k₀, x) :: after := by
      rcases List.mem_append.1 hmem' with hmem' | hmem'
      · exact List.mem_append_left _ hmem'
      · exact List.mem_append_right _ (List.mem_cons_of_mem _ hmem')
    obtain rfl : k' = k := hclear k' (List.mem_map_of_mem hold) k hmem hnamed' hnamed
    rcases List.mem_append.1 hmem' with hmem' | hmem'
    · exact absurd rfl (ne_of_same_eq_false (hbefore _ hmem'))
    · have hapart := (List.pairwise_cons.1 (List.pairwise_append.1 hv.1).2.1).1 _ hmem'
      rw [hk₀] at hapart
      cases hapart
  | sequence items => exact hclear.elim
  | null | bool _ | int _ | float _ | string _ | tagged _ _ => cases h

/-- A container gives away what it has. -/
theorem exists_removeChild?_iff :
    (∃ v', v.removeChild? segment = some (x, v')) ↔ v.child? segment = some x := by
  cases v with
  | mapping t =>
    rw [child?, Option.bind_eq_some_iff]
    constructor
    · rintro ⟨v', h⟩
      obtain ⟨k, hk, hfind, -⟩ := removeChild?_mapping_eq_some_iff.1 h
      exact ⟨k, hk, hfind⟩
    · rintro ⟨k, hk, hfind⟩
      exact ⟨_, removeChild?_mapping_eq_some_iff.2 ⟨k, hk, hfind, rfl⟩⟩
  | sequence items =>
    rw [child?, Option.bind_eq_some_iff]
    constructor
    · rintro ⟨v', h⟩
      obtain ⟨i, hi, hget, -⟩ := removeChild?_sequence_eq_some_iff.1 h
      exact ⟨i, hi, hget⟩
    · rintro ⟨i, hi, hget⟩
      exact ⟨_, removeChild?_sequence_eq_some_iff.2 ⟨i, hi, hget, rfl⟩⟩
  | null | bool _ | int _ | float _ | string _ | tagged _ _ => simp [removeChild?, child?]

/-- **What can be taken away along segments is what they lead to.** -/
theorem exists_removeAt?_iff :
    (∃ v', v.removeAt? parent segment = some (x, v')) ↔
      v.descend? (parent ++ [segment]) = some x := by
  have hlast (w : Value) : w.descend? [segment] = w.child? segment := by
    rw [descend?]
    exact Option.bind_fun_some _
  have hparent : ((Focus.whole v).descend? parent).map Focus.value = v.descend? parent :=
    Focus.map_value_descend? parent _
  rw [descend?_append, ← hparent, Option.bind_map, Option.bind_eq_some_iff]
  constructor
  · rintro ⟨v', h⟩
    obtain ⟨f, hf, h⟩ := Option.bind_eq_some_iff.1 h
    obtain ⟨⟨y, c⟩, hremove, heq⟩ := Option.map_eq_some_iff.1 h
    obtain ⟨rfl, -⟩ := Prod.mk.inj heq
    exact ⟨f, hf, (hlast f.value).trans (exists_removeChild?_iff.1 ⟨c, hremove⟩)⟩
  · rintro ⟨f, hf, hx⟩
    obtain ⟨c, hremove⟩ := exists_removeChild?_iff.2 ((hlast f.value).symm.trans hx)
    exact ⟨f.put c, Option.bind_eq_some_iff.2 ⟨f, hf, Option.map_eq_some_iff.2 ⟨_, hremove, rfl⟩⟩⟩

/-- A removal at the end of a clear path leaves nothing there. -/
theorem descend?_of_removeAt? (hv : v.WellFormed) (hclear : v.ClearAlong (parent ++ [segment]))
    (h : v.removeAt? parent segment = some (x, v')) :
    v'.descend? (parent ++ [segment]) = none := by
  induction parent generalizing v v' with
  | nil =>
    rw [removeAt?_nil] at h
    rw [List.nil_append, descend?, child?_of_removeChild? hv hclear.1 h, Option.bind_none]
  | cons s r ih =>
    rw [removeAt?_cons] at h
    obtain ⟨f, hf, h⟩ := Option.bind_eq_some_iff.1 h
    obtain ⟨⟨y, c⟩, hremove, heq⟩ := Option.map_eq_some_iff.1 h
    obtain ⟨rfl, rfl⟩ := Prod.mk.inj heq
    have hchild : v.child? s = some f.value := Focus.child?_of_whole hf
    rw [List.cons_append, descend?, child?_put hf, Option.bind_some]
    exact ih (hv.child? hchild) (hclear.2 f.value hchild) hremove

/-- Without a removal there was nothing. -/
theorem descend?_of_removeAt?_eq_none (h : v.removeAt? parent segment = none) :
    v.descend? (parent ++ [segment]) = none := by
  refine Option.eq_none_iff_forall_ne_some.2 fun x hx ↦ ?_
  obtain ⟨v', hv'⟩ := exists_removeAt?_iff.2 hx
  rw [h] at hv'
  cases hv'

end Value

/-! ### Trees -/

namespace Tree

variable {t t' : Tree} {path : String} {x : Value}

theorem segments_of_cutLast {parent last : List Char}
    (h : Text.cutLast pathSeparator path.toList = some (parent, last)) :
    segments path = segments (String.ofList parent) ++ [String.ofList last] := by
  rw [segments, Text.split, Text.splitOn_eq_of_cutLast h, segments, Text.split]
  simp

theorem segments_of_cutLast_eq_none (h : Text.cutLast pathSeparator path.toList = none) :
    segments path = [path] := by
  rw [segments, Text.split, Text.splitOn_of_cutLast_eq_none h]
  simp

theorem segments_eq_singleton_empty_iff : segments path = [""] ↔ path = "" := by
  constructor
  · intro h
    have hcut : Text.cutLast pathSeparator path.toList = none := by
      cases hcut : Text.cutLast pathSeparator path.toList with
      | none => rfl
      | some cut =>
        have hsegments := segments_of_cutLast hcut
        rw [h, segments, Text.split] at hsegments
        have hlength := congrArg List.length hsegments
        simp [Text.splitOn_ne_nil] at hlength
    simpa [segments_of_cutLast_eq_none hcut] using h
  · rintro rfl
    rfl

/-- In a tree a removal behind a path is that in the mapping of its entries. -/
theorem removeAt?_segments (hpath : path ≠ "") (last : String) :
    (Value.mapping t).removeAt? (segments path) last =
      ((t.focus? path).bind fun f ↦ f.remove? last).map fun (y, t') ↦ (y, .mapping t') := by
  rw [Value.removeAt?, ← map_within_focus? hpath, Option.bind_map, Option.map_bind]
  exact congrArg _ (funext fun f ↦ Focus.remove?_within Value.mapping last f)

/-- What a removal takes away: the part that the last segment names in what the segments before it
lead to. The path before the last separator may not be empty, for the empty path leads nowhere. -/
theorem remove?_eq_some_iff : t.remove? path = some (x, t') ↔
    ∃ parent last, segments path = parent ++ [last] ∧ parent ≠ [""] ∧
      (Value.mapping t).removeAt? parent last = some (x, .mapping t') := by
  have hmapping (removed : Option (Value × Tree)) : removed = some (x, t') ↔
      removed.map (fun (y, t'') ↦ (y, Value.mapping t'')) = some (x, .mapping t') := by
    simp
  rw [remove?]
  split
  · rename_i parent last hcut
    rw [segments_of_cutLast hcut]
    constructor
    · intro h
      have hparent : String.ofList parent ≠ "" := fun hempty ↦ by
        rw [hempty] at h
        cases h
      refine ⟨_, _, rfl, (not_congr segments_eq_singleton_empty_iff).2 hparent, ?_⟩
      rw [removeAt?_segments hparent]
      exact (hmapping _).1 h
    · rintro ⟨parent', last', hsplit, hparent, h⟩
      obtain ⟨rfl, hlast⟩ := List.append_inj' hsplit rfl
      obtain rfl := List.singleton_inj.1 hlast
      rw [removeAt?_segments ((not_congr segments_eq_singleton_empty_iff).1 hparent)] at h
      exact (hmapping _).2 h
  · rename_i hcut
    rw [segments_of_cutLast_eq_none hcut]
    constructor
    · intro h
      refine ⟨[], path, rfl, by simp, ?_⟩
      rw [Value.removeAt?_nil]
      exact (hmapping _).1 h
    · rintro ⟨parent, last, hsplit, -, h⟩
      have hsplit : [] ++ [path] = parent ++ [last] := hsplit
      obtain ⟨rfl, hlast⟩ := List.append_inj' hsplit rfl
      obtain rfl := List.singleton_inj.1 hlast
      rw [Value.removeAt?_nil] at h
      exact (hmapping _).2 h

theorem removed_of_remove? (h : t.remove? path = some (x, t')) :
    Value.Removed (.mapping t) (.mapping t') := by
  obtain ⟨_, _, -, -, hremoved⟩ := remove?_eq_some_iff.1 h
  exact Value.removed_of_removeAt? hremoved

/-- Taking something away from a tree leaves it as it is, or is one removal. -/
theorem without_eq_or_removed (t : Tree) (path : String) :
    t.without path = t ∨ Value.Removed (.mapping t) (.mapping (t.without path)) := by
  rw [without]
  split
  · rename_i hremove
    exact Or.inr (removed_of_remove? hremove)
  · exact Or.inl rfl

/-- What is left after a removal, whether it finds something or not. -/
theorem mapping_without_eq {parent : List String} {last : String}
    (hsplit : segments path = parent ++ [last]) (hparent : parent ≠ [""]) :
    Value.mapping (t.without path) =
      (((Value.mapping t).removeAt? parent last).map Prod.snd).getD (.mapping t) := by
  cases hremoved : (Value.mapping t).removeAt? parent last with
  | some found =>
    obtain ⟨x, v'⟩ := found
    obtain ⟨t', rfl⟩ := (Value.removed_of_removeAt? hremoved).exists_mapping
    rw [without, remove?_eq_some_iff.2 ⟨parent, last, hsplit, hparent, hremoved⟩]
    rfl
  | none =>
    have hremove : t.remove? path = none := by
      refine Option.eq_none_iff_forall_ne_some.2 fun ⟨x, t'⟩ h ↦ ?_
      obtain ⟨parent', last', hsplit', -, h⟩ := remove?_eq_some_iff.1 h
      obtain ⟨rfl, hlast⟩ := List.append_inj' (hsplit.symm.trans hsplit') rfl
      obtain rfl := List.singleton_inj.1 hlast
      rw [hremoved] at h
      cases h
    rw [without, hremove]
    rfl

/-- **What is taken away is gone**, if the path is clear. -/
theorem descend?_without_self (ht : t.WellFormed)
    (hclear : (Value.mapping t).ClearAlong (segments path))
    (hparent : ∀ last, segments path ≠ ["", last]) :
    (Value.mapping (t.without path)).descend? (segments path) = none := by
  obtain ⟨parent, last, hsplit⟩ : ∃ parent last, segments path = parent ++ [last] :=
    ⟨_, _, (List.dropLast_concat_getLast (segments_ne_nil path)).symm⟩
  have hne : parent ≠ [""] := by
    rintro rfl
    exact hparent last hsplit
  rw [mapping_without_eq hsplit hne]
  rw [hsplit] at hclear ⊢
  cases hremoved : (Value.mapping t).removeAt? parent last with
  | some found => exact Value.descend?_of_removeAt? ht hclear hremoved
  | none => exact Value.descend?_of_removeAt?_eq_none hremoved

end Tree

end LayeredConfig
