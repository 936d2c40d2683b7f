import LayeredConfig.Processor.Basic
import LayeredConfig.Proofs.Legacy.Keys
import LayeredConfig.Proofs.Tree.Removal
import LayeredConfig.Proofs.Tree.Spelling

/-!
# The order of removals

A removal looks for one entry and takes it away. `Value.cut` says what that comes to without looking
for anything: it goes through all entries and leaves out, or cuts further, those whose keys have the
name of the next segment. Cuts commute, and a second one changes nothing (`Value.cut_comm`,
`Value.cut_cut_self`), on all values and along all paths.

A removal is a cut as long as a segment is the name of one key at most and no item is taken out of a
sequence, where the items behind would take its index (`Value.SteadyAlong`,
`Tree.mapping_without`). Cuts keep a path steady. So it does not matter in which order and how often
the paths of a list are removed (`Tree.run_removeKeys_congr`).
-/

namespace LayeredConfig

/-- A fold of steps that commute and do nothing a second time hangs on the members of the list
alone. -/
theorem foldl_congr_of_mem_iff {α β : Type} {f : β → α → β} [RightCommutative f]
    (hidem : ∀ b a, f (f b a) a = f b a) {l l' : List α} (h : ∀ a, a ∈ l ↔ a ∈ l') (b : β) :
    l.foldl f b = l'.foldl f b := by
  have habsorb (l : List α) (a : α) (ha : a ∈ l) : f (l.foldl f b) a = l.foldl f b := by
    obtain ⟨before, after, rfl⟩ := List.append_of_mem ha
    have hperm : (before ++ a :: after).Perm (before ++ after ++ [a]) :=
      List.perm_middle.trans (List.perm_append_singleton a _).symm
    rw [hperm.foldl_eq b, List.foldl_append, List.foldl_cons, List.foldl_nil, hidem]
  -- So one list goes on from the other without a change.
  have hafter (l l' : List α) (hsubset : l' ⊆ l) : (l ++ l').foldl f b = l.foldl f b := by
    rw [List.foldl_append]
    induction l' with
    | nil => rfl
    | cons a r ih =>
      rw [List.foldl_cons, habsorb l a (hsubset List.mem_cons_self)]
      exact ih fun a' ha' ↦ hsubset (List.mem_cons_of_mem _ ha')
  calc l.foldl f b = (l ++ l').foldl f b := (hafter l l' fun a ↦ (h a).2).symm
    _ = (l' ++ l).foldl f b := List.perm_append_comm.foldl_eq b
    _ = l'.foldl f b := hafter l' l fun a ↦ (h a).1

/-- Keys that are spelled apart have names of their own. -/
theorem Tree.SpelledApart.namesOnce {t : Tree} (h : t.SpelledApart) (segment : String) :
    t.NamesOnce segment := by
  intro k hk k' hk' hnamed hnamed'
  refine List.inj_on_of_nodup_map h hk hk' ?_
  rw [Value.keyText_of_isNamed hnamed, Value.keyText_of_isNamed hnamed']

namespace Value

variable {v v' w c c' : Value} {k : Value} {s s' : String} {p q r r' : List String} {t : Tree}

/-! ### Cutting a path out -/

/-- What is left of a value when a path is cut out of it. At the end of the path nothing is left. In
a mapping all entries are cut whose keys have the name of the next segment, in a sequence the item
at this index is; the item itself is never taken out. -/
def cut? : List String → Value → Option Value
  | [], _ => none
  | s :: r, .mapping t => some (.mapping (t.filterMap fun e ↦
    (if e.1.isNamed s then cut? r e.2 else some e.2).map (e.1, ·)))
  | s :: r, .sequence items => some (.sequence (items.mapIdx fun i c ↦
    if segmentIndex? s = some i then (cut? r c).getD c else c))
  | _ :: _, v => some v

/-- The value when a path inside of it is cut out. -/
def cut (segments : List String) (v : Value) : Value :=
  (v.cut? segments).getD v

/-- What is left of a value under a key. -/
def cutUnder? (s : String) (r : List String) (k c : Value) : Option Value :=
  if k.isNamed s then cut? r c else some c

/-- What is left of the entries of a mapping. -/
def cutEntries (s : String) (r : List String) (t : Tree) : Tree :=
  t.filterMap fun e ↦ (cutUnder? s r e.1 e.2).map (e.1, ·)

/-- What is left of an item at an index. -/
def cutItem (s : String) (r : List String) (i : Nat) (c : Value) : Value :=
  if segmentIndex? s = some i then cut r c else c

theorem cut?_mapping (s : String) (r : List String) (t : Tree) :
    cut? (s :: r) (.mapping t) = some (.mapping (cutEntries s r t)) := rfl

theorem cut?_sequence (s : String) (r : List String) (items : List Value) :
    cut? (s :: r) (.sequence items) = some (.sequence (items.mapIdx (cutItem s r))) := rfl

theorem cut_mapping (s : String) (r : List String) (t : Tree) :
    cut (s :: r) (.mapping t) = .mapping (cutEntries s r t) := rfl

theorem cut_sequence (s : String) (r : List String) (items : List Value) :
    cut (s :: r) (.sequence items) = .sequence (items.mapIdx (cutItem s r)) := rfl

/-- Something is left of a value that the path goes into. -/
theorem cut?_eq_some_cut (hp : p ≠ []) (v : Value) : v.cut? p = some (v.cut p) := by
  obtain ⟨s, r, rfl⟩ := List.exists_cons_of_ne_nil hp
  cases v <;> rfl

/-! ### One cut after another -/

theorem cutEntries_cutEntries (s s' : String) (r r' : List String) (t : Tree) :
    cutEntries s' r' (cutEntries s r t) =
      t.filterMap fun e ↦ ((cutUnder? s r e.1 e.2).bind (cutUnder? s' r' e.1)).map (e.1, ·) := by
  rw [cutEntries, cutEntries, List.filterMap_filterMap]
  refine congrArg (List.filterMap · t) (funext fun e ↦ ?_)
  rw [Option.bind_map, Option.map_bind]
  rfl

theorem cut_comm_of_cut?_comm (h : (v.cut? p).bind (cut? q) = (v.cut? q).bind (cut? p)) :
    (v.cut p).cut q = (v.cut q).cut p := by
  cases p with
  | nil => rfl
  | cons s r =>
    cases q with
    | nil => rfl
    | cons s' r' => simpa [cut?_eq_some_cut] using h

theorem cut?_comm (p q : List String) (v : Value) :
    (v.cut? p).bind (cut? q) = (v.cut? q).bind (cut? p) := by
  induction p generalizing q v with
  | nil => exact (Option.bind_fun_none _).symm
  | cons s r ih =>
    cases q with
    | nil => exact Option.bind_fun_none _
    | cons s' r' =>
      cases v with
      | mapping t =>
        have hunder (k c : Value) : (cutUnder? s r k c).bind (cutUnder? s' r' k) =
            (cutUnder? s' r' k c).bind (cutUnder? s r k) := by
          unfold cutUnder?
          split <;> split <;> simp [ih]
        simp only [cut?_mapping, Option.bind_some, cutEntries_cutEntries, hunder]
      | sequence items =>
        have hitem (i : Nat) (c : Value) : cutItem s' r' i (cutItem s r i c) =
            cutItem s r i (cutItem s' r' i c) := by
          unfold cutItem
          split <;> split
          · exact cut_comm_of_cut?_comm (ih r' c)
          all_goals rfl
        simp only [cut?_sequence, Option.bind_some, List.mapIdx_mapIdx, Function.comp_def, hitem]
      | null | bool _ | int _ | float _ | string _ | tagged _ _ => rfl

/-- **Cuts commute**, along all paths. -/
theorem cut_comm (p q : List String) (v : Value) : (v.cut p).cut q = (v.cut q).cut p :=
  cut_comm_of_cut?_comm (cut?_comm p q v)

theorem cut_cut_self_of_cut? (h : (v.cut? p).bind (cut? p) = v.cut? p) :
    (v.cut p).cut p = v.cut p := by
  cases p with
  | nil => rfl
  | cons s r => simpa [cut?_eq_some_cut] using h

theorem cut?_bind_self (p : List String) (v : Value) : (v.cut? p).bind (cut? p) = v.cut? p := by
  induction p generalizing v with
  | nil => rfl
  | cons s r ih =>
    cases v with
    | mapping t =>
      have hunder (k c : Value) :
          (cutUnder? s r k c).bind (cutUnder? s r k) = cutUnder? s r k c := by
        unfold cutUnder?
        split <;> simp [ih]
      simp only [cut?_mapping, Option.bind_some, cutEntries_cutEntries, hunder]
      rfl
    | sequence items =>
      have hitem (i : Nat) (c : Value) : cutItem s r i (cutItem s r i c) = cutItem s r i c := by
        unfold cutItem
        split
        · exact cut_cut_self_of_cut? (ih c)
        · rfl
      simp only [cut?_sequence, Option.bind_some, List.mapIdx_mapIdx, Function.comp_def, hitem]
    | null | bool _ | int _ | float _ | string _ | tagged _ _ => rfl

/-- **A second cut along the same path** changes nothing. -/
theorem cut_cut_self (p : List String) (v : Value) : (v.cut p).cut p = v.cut p :=
  cut_cut_self_of_cut? (cut?_bind_self p v)

/-! ### What a cut keeps -/

theorem keys_cutEntries_sublist (s : String) (r : List String) (t : Tree) :
    (Tree.keys (cutEntries s r t)).Sublist (Tree.keys t) := by
  induction t with
  | nil => exact List.Sublist.refl _
  | cons e t ih =>
    rw [cutEntries, List.filterMap_cons]
    cases cutUnder? s r e.1 e.2 with
    | none => exact ih.cons _
    | some c => exact ih.cons_cons _

theorem mem_cutEntries_iff : (k, c') ∈ cutEntries s r t ↔
    ∃ c, (k, c) ∈ t ∧ cutUnder? s r k c = some c' := by
  rw [cutEntries, List.mem_filterMap]
  constructor
  · rintro ⟨⟨k', c⟩, hmem, h⟩
    obtain ⟨d, hd, heq⟩ := Option.map_eq_some_iff.1 h
    obtain ⟨rfl, rfl⟩ := Prod.mk.inj heq
    exact ⟨c, hmem, hd⟩
  · rintro ⟨c, hmem, h⟩
    exact ⟨(k, c), hmem, by rw [h, Option.map_some]⟩

theorem getElem?_mapIdx_cutItem_eq_some_iff {items : List Value} {i : Nat} :
    (items.mapIdx (cutItem s r))[i]? = some c' ↔
      ∃ c, items[i]? = some c ∧ cutItem s r i c = c' := by
  rw [List.getElem?_mapIdx, Option.map_eq_some_iff]

/-- What is left of a value is the value with a path cut out. -/
theorem eq_cut_of_cut? (h : v.cut? p = some v') : v' = v.cut p := by
  rw [cut, h, Option.getD_some]

/-- What is left under a key, or of an item, is what was there with some path cut out. -/
theorem exists_eq_cut_of_cutUnder? (h : cutUnder? s r k c = some c') : ∃ q, c' = c.cut q := by
  rw [cutUnder?] at h
  split at h
  · exact ⟨r, eq_cut_of_cut? h⟩
  · exact ⟨[], (Option.some.inj h).symm⟩

theorem exists_cutItem_eq_cut (s : String) (r : List String) (i : Nat) (c : Value) :
    ∃ q, cutItem s r i c = c.cut q := by
  rw [cutItem]
  split
  · exact ⟨r, rfl⟩
  · exact ⟨[], rfl⟩

theorem WellFormed.cut (hv : v.WellFormed) : (v.cut p).WellFormed := by
  induction p generalizing v with
  | nil => exact hv
  | cons s r ih =>
    cases v with
    | mapping t =>
      obtain ⟨hkeys, hentries⟩ := Tree.wellFormed_iff.1 hv
      refine Tree.wellFormed_iff.2 ⟨hkeys.sublist (keys_cutEntries_sublist s r t), ?_⟩
      rintro ⟨k, c'⟩ hmem
      obtain ⟨c, hmem, hc⟩ := mem_cutEntries_iff.1 hmem
      obtain ⟨hk, hwell⟩ := hentries (k, c) hmem
      rw [cutUnder?] at hc
      split at hc
      · exact ⟨hk, eq_cut_of_cut? hc ▸ ih hwell⟩
      · exact ⟨hk, Option.some.inj hc ▸ hwell⟩
    | sequence items =>
      refine wellFormedItems_iff.2 fun c' hmem ↦ ?_
      obtain ⟨i, hi⟩ := List.getElem?_of_mem hmem
      obtain ⟨c, hc, rfl⟩ := getElem?_mapIdx_cutItem_eq_some_iff.1 hi
      have hwell : c.WellFormed := wellFormedItems_iff.1 hv c (List.mem_of_getElem? hc)
      rw [cutItem]
      split
      · exact ih hwell
      · exact hwell
    | null | bool _ | int _ | float _ | string _ | tagged _ _ => exact hv

/-! ### Steady paths -/

/-- Whatever is cut out of the value, the segment names in it what it named before, or nothing. It
is the name of one key of a mapping at most, and in a sequence it does not stand at the end of a
path, so that no item is taken out. -/
def SteadyAt (s : String) (r : List String) : Value → Prop
  | .mapping t => Tree.NamesOnce s t
  | .sequence _ => r ≠ []
  | _ => True

/-- Each of the segments is steady in what those before it lead to. -/
def SteadyAlong : List String → Value → Prop
  | [], _ => True
  | s :: r, v => v.SteadyAt s r ∧ ∀ c, v.child? s = some c → SteadyAlong r c

theorem SteadyAt.cut (h : v.SteadyAt s r) (q : List String) : (v.cut q).SteadyAt s r := by
  cases q with
  | nil => exact h
  | cons s' r' =>
    cases v with
    | mapping t =>
      have hkeys := (keys_cutEntries_sublist s' r' t).subset
      exact fun k hk k' hk' ↦ h k (hkeys hk) k' (hkeys hk')
    | sequence items => exact h
    | null | bool _ | int _ | float _ | string _ | tagged _ _ => exact h

/-- **A cut brings nothing to light**: what a steady segment names afterwards it named before, with
some path cut out of it. -/
theorem SteadyAt.exists_child? (h : v.SteadyAt s r) (hv : v.WellFormed)
    (hc : (v.cut q).child? s = some c') : ∃ c q', v.child? s = some c ∧ c' = c.cut q' := by
  cases q with
  | nil => exact ⟨c', [], hc, rfl⟩
  | cons s' r' =>
    cases v with
    | mapping t =>
      have hcut : ((Value.mapping t).cut (s' :: r')).WellFormed := hv.cut
      obtain ⟨k, -, hnamed, hmem⟩ := Tree.exists_mem_of_child? hcut hc
      obtain ⟨c, hmem, hc⟩ := mem_cutEntries_iff.1 hmem
      obtain ⟨q', hq'⟩ := exists_eq_cut_of_cutUnder? hc
      exact ⟨c, q', Tree.child?_of_mem hv h hmem hnamed, hq'⟩
    | sequence items =>
      obtain ⟨i, hi, hget⟩ := Option.bind_eq_some_iff.1 hc
      obtain ⟨c, hitem, rfl⟩ := getElem?_mapIdx_cutItem_eq_some_iff.1 hget
      obtain ⟨q', hq'⟩ := exists_cutItem_eq_cut s' r' i c
      exact ⟨c, q', by rw [child?, hi, Option.bind_some, hitem], hq'⟩
    | null | bool _ | int _ | float _ | string _ | tagged _ _ => cases hc

/-- **Steady paths stay steady.** -/
theorem SteadyAlong.cut (h : v.SteadyAlong p) (hv : v.WellFormed) (q : List String) :
    (v.cut q).SteadyAlong p := by
  induction p generalizing v q with
  | nil => trivial
  | cons s r ih =>
    refine ⟨h.1.cut q, fun c' hc' ↦ ?_⟩
    obtain ⟨c, q', hc, rfl⟩ := h.1.exists_child? hv hc'
    exact ih (h.2 c hc) (hv.child? hc) q'

/-! ### A removal is a cut -/

/-- Entries whose keys have another name stay. -/
theorem cutEntries_of_not_named (h : ∀ e ∈ t, e.1.isNamed s = false) (r : List String) :
    cutEntries s r t = t := by
  induction t with
  | nil => rfl
  | cons e t ih =>
    obtain ⟨he, ht⟩ := List.forall_mem_cons.1 h
    rw [cutEntries, List.filterMap_cons, cutUnder?, he]
    exact congrArg _ (ih ht)

/-- Where a segment names nothing, nothing is cut out. -/
theorem cut_of_child?_eq_none (h : v.child? s = none) (r : List String) : v.cut (s :: r) = v := by
  cases v with
  | mapping t =>
    refine congrArg _ (cutEntries_of_not_named (fun e he ↦ Bool.eq_false_iff.2 fun hnamed ↦ ?_) r)
    obtain ⟨k, hk⟩ := Tree.exists_keyNamed? (List.mem_map_of_mem he) hnamed
    rw [child?, hk, Option.bind_some, Tree.find?_eq_none_iff] at h
    exact ne_of_same_eq_false (h k (Tree.mem_keys_of_keyNamed? hk).1) rfl
  | sequence items =>
    have hitem (i : Nat) : items[i]?.map (cutItem s r i) = items[i]? := by
      cases hget : items[i]? with
      | none => rfl
      | some c =>
        have hindex : segmentIndex? s ≠ some i := fun hi ↦ by
          rw [child?, hi, Option.bind_some, hget] at h
          cases h
        rw [Option.map_some, cutItem, if_neg hindex]
    rw [cut_sequence]
    refine congrArg _ (List.ext_getElem? fun i ↦ ?_)
    rw [List.getElem?_mapIdx, hitem]
  | null | bool _ | int _ | float _ | string _ | tagged _ _ => rfl

/-- The entry that a segment names, among entries with other names. -/
theorem exists_split_of_child? (ht : t.WellFormed) (honce : Tree.NamesOnce s t)
    (h : (Value.mapping t).child? s = some w) : ∃ before k after, t = before ++ (k, w) :: after ∧
      Tree.keyNamed? s t = some k ∧ (∀ e ∈ before, e.1.same k = false) ∧
      ∀ r, cutEntries s r t = before ++ (((cut? r w).map (k, ·)).toList ++ after) := by
  obtain ⟨k, hk, hnamed, hmem⟩ := Tree.exists_mem_of_child? ht h
  obtain ⟨before, after, rfl⟩ := List.append_of_mem hmem
  obtain ⟨-, hafter, hbefore⟩ := List.pairwise_append.1 ht.1
  have hbefore (e : Value × Value) (he : e ∈ before) : e.1.same k = false :=
    hbefore e he (k, w) List.mem_cons_self
  have hafter (e : Value × Value) (he : e ∈ after) : k.same e.1 = false :=
    (List.pairwise_cons.1 hafter).1 e he
  -- An entry with the same name would have the same key.
  have hother (e : Value × Value) (he : e ∈ before ++ (k, w) :: after) (hne : e.1 ≠ k) :
      e.1.isNamed s = false :=
    Bool.eq_false_iff.2 fun hename ↦
      hne (honce e.1 (List.mem_map_of_mem he) k (List.mem_map_of_mem hmem) hename hnamed)
  refine ⟨before, k, after, rfl, hk, hbefore, fun r ↦ ?_⟩
  have hbeforeCut : cutEntries s r before = before :=
    cutEntries_of_not_named (fun e he ↦
      hother e (List.mem_append_left _ he) (ne_of_same_eq_false (hbefore e he))) r
  have hafterCut : cutEntries s r after = after :=
    cutEntries_of_not_named (fun e he ↦
      hother e (by simp [he]) (ne_of_same_eq_false (hafter e he)).symm) r
  have hsplit : cutEntries s r (before ++ (k, w) :: after) =
      cutEntries s r before ++ (((cut? r w).map (k, ·)).toList ++ cutEntries s r after) := by
    rw [cutEntries, List.filterMap_append, List.filterMap_cons, cutUnder?, if_pos hnamed]
    cases cut? r w <;> rfl
  rw [hsplit, hbeforeCut, hafterCut]

/-- At the end of a steady path a removal is a cut. -/
theorem removeChild?_eq_cut (hv : v.WellFormed) (h : v.SteadyAt s []) (hw : v.child? s = some w) :
    v.removeChild? s = some (w, v.cut [s]) := by
  cases v with
  | mapping t =>
    obtain ⟨before, k, after, rfl, hk, hbefore, hcut⟩ := exists_split_of_child? hv h hw
    have hfind : Tree.find? k (before ++ (k, w) :: after) = some w :=
      Tree.find?_append_cons hbefore (same_refl k)
    refine removeChild?_mapping_eq_some_iff.2 ⟨k, hk, hfind, ?_⟩
    rw [Tree.erase_append_cons hbefore (same_refl k), cut_mapping, hcut]
    rfl
  | sequence items => exact absurd rfl h
  | null | bool _ | int _ | float _ | string _ | tagged _ _ => cases hw

/-- Before its end a cut goes on in what the segment names. -/
theorem cut_eq_put (hv : v.WellFormed) (hr : r ≠ []) (h : v.SteadyAt s r) {f : Focus Value}
    (hf : (Focus.whole v).child? s = some f) : v.cut (s :: r) = f.put (f.value.cut r) := by
  cases v with
  | mapping t =>
    obtain ⟨k', w, hk', -, rfl⟩ := Focus.child?_mapping_eq_some_iff.1 hf
    have hw : (mapping t).child? s = some w := Focus.child?_of_whole hf
    obtain ⟨before, k, after, rfl, hk, hbefore, hcut⟩ := exists_split_of_child? hv h hw
    obtain rfl : k' = k := Option.some.inj (hk'.symm.trans hk)
    dsimp only
    rw [Tree.insert_append_cons hbefore (same_refl k'), cut_mapping, hcut, cut?_eq_some_cut hr]
    rfl
  | sequence items =>
    obtain ⟨i, w, hi, hget, rfl⟩ := Focus.child?_sequence_eq_some_iff.1 hf
    obtain ⟨hlt, -⟩ := List.getElem?_eq_some_iff.1 hget
    rw [cut_sequence]
    refine congrArg sequence (List.ext_getElem? fun j ↦ ?_)
    rw [List.getElem?_mapIdx, List.getElem?_set]
    by_cases hij : i = j
    · obtain rfl := hij
      rw [if_pos rfl, if_pos hlt, hget, Option.map_some, cutItem, if_pos hi]
    · have hother (c : Value) : cutItem s r j c = c :=
        if_neg fun hj ↦ hij (Option.some.inj (hi.symm.trans hj))
      rw [if_neg hij, funext hother, Option.map_id']
  | null | bool _ | int _ | float _ | string _ | tagged _ _ => cases hf

/-- **Along a steady path a removal is a cut.** -/
theorem removeAt?_eq_cut {parent : List String} {last : String} (hv : v.WellFormed)
    (h : v.SteadyAlong (parent ++ [last])) :
    ((v.removeAt? parent last).map Prod.snd).getD v = v.cut (parent ++ [last]) := by
  induction parent generalizing v with
  | nil =>
    rw [List.nil_append, removeAt?_nil]
    cases hw : v.child? last with
    | none =>
      have hnone : v.removeChild? last = none := by
        refine Option.eq_none_iff_forall_ne_some.2 fun found hx ↦ ?_
        rw [exists_removeChild?_iff.1 ⟨found.2, hx⟩] at hw
        cases hw
      rw [hnone, cut_of_child?_eq_none hw]
      rfl
    | some w =>
      rw [removeChild?_eq_cut hv h.1 hw]
      rfl
  | cons s parent ih =>
    have hne : parent ++ [last] ≠ [] := by simp
    rw [List.cons_append, removeAt?_cons]
    have hstep : ((Focus.whole v).child? s).map Focus.value = v.child? s :=
      Focus.map_value_child? _ s
    cases hf : (Focus.whole v).child? s with
    | none =>
      rw [hf] at hstep
      exact (cut_of_child?_eq_none hstep.symm _).symm
    | some f =>
      rw [hf] at hstep
      obtain ⟨i, -, -, hself⟩ := Focus.exists_replaced_of_child? hf
      rw [cut_eq_put hv hne h.1 hf, ← ih (hv.child? hstep.symm) (h.2 f.value hstep.symm),
        Option.bind_some]
      cases f.value.removeAt? parent last with
      | none => exact (hself .here).eq
      | some found => rfl

/-! ### Keys of different texts -/

theorem mem_itemMappings {items : List Value} :
    t ∈ itemMappings items ↔ ∃ v ∈ items, t ∈ v.mappings := by
  induction items with
  | nil => simp [itemMappings]
  | cons v r ih => simp [itemMappings, ih]

theorem mem_entryMappings {entries : List (Value × Value)} :
    t ∈ entryMappings entries ↔ ∃ e ∈ entries, t ∈ e.2.mappings := by
  induction entries with
  | nil => simp [entryMappings]
  | cons e r ih =>
    obtain ⟨k, v⟩ := e
    simp [entryMappings, ih]

/-- The mappings in a part are mappings in the whole. -/
theorem mappings_subset_of_child? (h : v.child? s = some c) : c.mappings ⊆ v.mappings := by
  intro m hm
  cases v with
  | mapping t =>
    obtain ⟨k, -, hfind⟩ := Option.bind_eq_some_iff.1 h
    obtain ⟨k', hmem⟩ := Tree.exists_mem_of_find? hfind
    exact List.mem_cons_of_mem _ (mem_entryMappings.2 ⟨(k', c), hmem, hm⟩)
  | sequence items =>
    obtain ⟨i, -, hget⟩ := Option.bind_eq_some_iff.1 h
    exact mem_itemMappings.2 ⟨c, List.mem_of_getElem? hget, hm⟩
  | null | bool _ | int _ | float _ | string _ | tagged _ _ => cases h

/-- Where no mapping has two keys of one text, a segment that takes no item out is steady. -/
theorem steadyAt_of_spelledApart (hnames : ∀ m ∈ v.mappings, Tree.SpelledApart m)
    (hitems : r = [] → ∀ items, v ≠ .sequence items) : v.SteadyAt s r := by
  cases v with
  | mapping t => exact (hnames t List.mem_cons_self).namesOnce s
  | sequence items => exact fun hr ↦ hitems hr items rfl
  | null | bool _ | int _ | float _ | string _ | tagged _ _ => trivial

/-- So is a path whose last segment takes no item out. -/
theorem steadyAlong_of_spelledApart {parent : List String} {last : String}
    (hnames : ∀ m ∈ v.mappings, Tree.SpelledApart m)
    (hparent : ∀ items, v.descend? parent ≠ some (.sequence items)) :
    v.SteadyAlong (parent ++ [last]) := by
  induction parent generalizing v with
  | nil =>
    refine ⟨steadyAt_of_spelledApart hnames fun _ items h ↦ ?_, fun _ _ ↦ trivial⟩
    exact hparent items (congrArg some h)
  | cons s parent ih =>
    refine ⟨steadyAt_of_spelledApart hnames fun h ↦ absurd h (by simp), fun c hc ↦ ?_⟩
    refine ih (fun m hm ↦ hnames m (mappings_subset_of_child? hc hm)) fun items hitems ↦ ?_
    exact hparent items (by rw [descend?, hc, Option.bind_some, hitems])

end Value

namespace Tree

variable {t : Tree} {path : String} {paths paths' : List String}

/-- The segments along which a removal goes. Of one segment behind an empty one nothing is taken
away, for the empty path leads nowhere. -/
def removalSegments (path : String) : List String :=
  match segments path with
  | ["", _] => []
  | ss => ss

theorem removalSegments_cases (path : String) :
    (∃ last, segments path = ["", last]) ∧ removalSegments path = [] ∨
      (∀ last, segments path ≠ ["", last]) ∧ removalSegments path = segments path := by
  rw [removalSegments]
  split
  · rename_i last h
    exact Or.inl ⟨⟨last, h⟩, rfl⟩
  · rename_i h
    exact Or.inr ⟨h, rfl⟩

/-- The segments before others are those of a path too, if there are any. -/
theorem exists_segments_eq {parent rest : List String} (hne : parent ≠ [])
    (hsplit : segments path = parent ++ rest) : ∃ front, segments front = parent := by
  refine ⟨Text.joinWith (String.singleton pathSeparator) parent, Text.split_joinWith hne ?_⟩
  intro s hs
  have hmem : s ∈ segments path := hsplit ▸ List.mem_append_left rest hs
  exact Text.not_mem_of_mem_split hmem

/-- Behind one empty segment nothing is removed. -/
theorem without_of_segments {last : String} (h : segments path = ["", last]) :
    t.without path = t := by
  have hremove : t.remove? path = none := by
    refine Option.eq_none_iff_forall_ne_some.2 fun ⟨x, t'⟩ hx ↦ ?_
    obtain ⟨parent, last', hsplit, hparent, -⟩ := remove?_eq_some_iff.1 hx
    have hempty : parent ++ [last'] = [""] ++ [last] := hsplit.symm.trans h
    exact hparent (List.append_inj' hempty rfl).1
  rw [without, hremove]

/-- **A removal at a steady path** cuts the path out. -/
theorem mapping_without (ht : t.WellFormed)
    (h : (Value.mapping t).SteadyAlong (removalSegments path)) :
    Value.mapping (t.without path) = (Value.mapping t).cut (removalSegments path) := by
  rcases removalSegments_cases path with ⟨⟨last, hsegments⟩, hremoval⟩ | ⟨hpath, hremoval⟩
  · rw [hremoval, without_of_segments hsegments]
    rfl
  · obtain ⟨parent, last, hsplit⟩ : ∃ parent last, segments path = parent ++ [last] :=
      ⟨_, _, (List.dropLast_concat_getLast (segments_ne_nil path)).symm⟩
    have hparent : parent ≠ [""] := by
      rintro rfl
      exact hpath last hsplit
    rw [hremoval, hsplit] at h ⊢
    rw [mapping_without_eq hsplit hparent]
    exact Value.removeAt?_eq_cut ht h

/-- Removals at steady paths cut one path after another out. -/
theorem mapping_foldl_without (ht : t.WellFormed)
    (h : ∀ path ∈ paths, (Value.mapping t).SteadyAlong (removalSegments path)) :
    Value.mapping (paths.foldl Tree.without t) =
      paths.foldl (fun v path ↦ v.cut (removalSegments path)) (Value.mapping t) := by
  induction paths generalizing t with
  | nil => rfl
  | cons path r ih =>
    obtain ⟨hpath, hr⟩ := List.forall_mem_cons.1 h
    have hcut := mapping_without ht hpath
    rw [List.foldl_cons, List.foldl_cons, ← hcut]
    refine ih ?_ fun path' hpath' ↦ ?_
    · rw [WellFormed, hcut]
      exact Value.WellFormed.cut ht
    · rw [hcut]
      exact (hr path' hpath').cut ht _

/-- A path is steady if no item is taken out of a sequence along it. -/
theorem steadyAlong_removalSegments (hnames : ∀ m ∈ (Value.mapping t).mappings, SpelledApart m)
    (hitems : ∀ front last, segments path = segments front ++ [last] →
      ∀ items, t.get? front ≠ some (.sequence items)) :
    (Value.mapping t).SteadyAlong (removalSegments path) := by
  rcases removalSegments_cases path with ⟨-, hremoval⟩ | ⟨hpath, hremoval⟩
  · rw [hremoval]
    trivial
  · obtain ⟨parent, last, hsplit⟩ : ∃ parent last, segments path = parent ++ [last] :=
      ⟨_, _, (List.dropLast_concat_getLast (segments_ne_nil path)).symm⟩
    rw [hremoval, hsplit]
    refine Value.steadyAlong_of_spelledApart hnames fun items hparent ↦ ?_
    cases parent with
    | nil => cases hparent
    | cons s parent =>
      obtain ⟨front, hfront⟩ := exists_segments_eq (List.cons_ne_nil s parent) hsplit
      refine hitems front last (by rw [hsplit, hfront]) items (get?_eq_some_iff.2 ⟨?_, ?_⟩)
      · rintro rfl
        refine hpath last ?_
        rw [hsplit, ← hfront]
        rfl
      · rwa [hfront]

/-- **The order of removals does not matter**, nor how often a path is removed, in a tree where no
mapping has two keys of one text, if none of the paths takes an item out of a sequence; so in
particular if none has a prefix that leads to one. -/
theorem run_removeKeys_congr (ht : t.WellFormed)
    (hnames : ∀ m ∈ (Value.mapping t).mappings, SpelledApart m)
    (hitems : ∀ path ∈ paths, ∀ front last, segments path = segments front ++ [last] →
      ∀ items, t.get? front ≠ some (.sequence items))
    (hpaths : ∀ path, path ∈ paths ↔ path ∈ paths') :
    Processor.run t (.removeKeys paths) = Processor.run t (.removeKeys paths') := by
  have : RightCommutative fun (v : Value) path ↦ v.cut (removalSegments path) :=
    ⟨fun v _ _ ↦ Value.cut_comm _ _ v⟩
  have hsteady (path : String) (hpath : path ∈ paths) :=
    steadyAlong_removalSegments hnames (hitems path hpath)
  refine congrArg Except.ok (Value.mapping.inj ?_)
  rw [mapping_foldl_without ht hsteady,
    mapping_foldl_without ht fun path hpath ↦ hsteady path ((hpaths path).2 hpath)]
  exact foldl_congr_of_mem_iff (fun v path ↦ Value.cut_cut_self _ v) hpaths _

/-- A password, and two hosts in a list. -/
def passwordAndHosts : Tree :=
  [(.string "db", .mapping [(.string "password", .string "x"), (.int 1, .null)]),
    (.string "hosts", .sequence [.mapping [(.string "name", .string "a"), (.bool true, .int 2)],
      .mapping [(.string "name", .string "b")]])]

/-- A path below another one, a path through an item, and paths that are removed twice. -/
theorem run_removeKeys_congr_passwordAndHosts : passwordAndHosts.WellFormed ∧
    Processor.run passwordAndHosts
        (.removeKeys ["db.password", "db", "hosts.0.name", "db.1", "db"]) =
      Processor.run passwordAndHosts (.removeKeys ["hosts.0.name", "db", "db.1", "db.password"]) ∧
    Processor.run passwordAndHosts (.removeKeys ["hosts.0.name", "db", "db.1", "db.password"]) =
      .ok [(.string "hosts", .sequence [.mapping [(.bool true, .int 2)],
        .mapping [(.string "name", .string "b")]])] := by
  have ht : passwordAndHosts.WellFormed := by
    simp [passwordAndHosts, WellFormed, Value.WellFormed, Value.WellFormedEntries,
      Value.WellFormedItems, Value.same]
  have hnames : ∀ m ∈ (Value.mapping passwordAndHosts).mappings, SpelledApart m := by
    decide +kernel
  refine ⟨ht, run_removeKeys_congr ht hnames ?_ fun path ↦ ?_, by decide +kernel⟩
  · intro path hpath front last hsplit items hitems
    have hfront : segments front = (segments path).dropLast := by rw [hsplit, List.dropLast_concat]
    obtain ⟨-, hitems⟩ := get?_eq_some_iff.1 hitems
    rw [hfront] at hitems
    simp only [List.mem_cons, List.not_mem_nil, or_false] at hpath
    rcases hpath with rfl | rfl | rfl | rfl | rfl <;> cases hitems
  · simp only [List.mem_cons, List.not_mem_nil, or_false]
    tauto

end Tree

end LayeredConfig
