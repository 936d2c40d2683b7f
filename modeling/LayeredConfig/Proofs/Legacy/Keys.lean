import LayeredConfig.Proofs.Legacy.RoundTrip
import LayeredConfig.Proofs.Tree.Spelling

/-!
# Keys of encoded arrays

Whoever reads an encoded array stores its entries by their keys, and an entry whose key is there
already takes the place of the earlier one (`store`). So all announced entries are kept exactly when
their keys are distinct (`length_store_eq_iff`), and whether they are depends on how the keys of a
mapping are spelled: a key is written by its text alone, and different texts are different keys
(`Key.ofText_injective`). The keys of all arrays in an encoding are distinct exactly when no mapping
in the value, at any depth and behind tags too, has two keys of one text
(`keysNodup_arrays_datum_iff`). The keys of a sequence always are.

Keys of a mapping are told apart by their kinds too, so the condition is needed. A number and the
text of its digits may stand side by side in a document, and one of the two settings is lost
(`number_and_digits_collide`). Where all keys are scalars, a string beside such a number, truth
value or null is the only way to lose one (`keysNodup_arrays_datum_iff_of_scalars`).
-/

namespace LayeredConfig

/-! ### Mappings of a value -/

namespace Value

mutual

/-- The mappings in a value, at any depth, behind tags too. Those in keys do not count. -/
def mappings : Value → List Tree
  | .mapping entries => entries :: entryMappings entries
  | .sequence items => itemMappings items
  | .tagged _ v => mappings v
  | _ => []

/-- The mappings in items. -/
def itemMappings : List Value → List Tree
  | [] => []
  | v :: r => mappings v ++ itemMappings r

/-- The mappings in the values of entries. -/
def entryMappings : List (Value × Value) → List Tree
  | [] => []
  | (_, v) :: r => mappings v ++ entryMappings r

end

mutual

theorem WellFormed.mem_mappings {t : Tree} : ∀ {v : Value}, v.WellFormed → t ∈ v.mappings →
    t.WellFormed
  | .mapping _, h, hmem => by
    rcases List.mem_cons.1 hmem with rfl | hmem
    · exact h
    · exact WellFormedEntries.mem_mappings h.2 hmem
  | .sequence _, h, hmem => WellFormedItems.mem_mappings h hmem
  | .tagged _ v, h, hmem => WellFormed.mem_mappings (v := v) h hmem

theorem WellFormedItems.mem_mappings {t : Tree} : ∀ {items : List Value}, WellFormedItems items →
    t ∈ itemMappings items → t.WellFormed
  | _ :: _, h, hmem => (List.mem_append.1 hmem).elim (WellFormed.mem_mappings h.1)
    (WellFormedItems.mem_mappings h.2)

theorem WellFormedEntries.mem_mappings {t : Tree} : ∀ {entries : List (Value × Value)},
    WellFormedEntries entries → t ∈ entryMappings entries → t.WellFormed
  | (_, _) :: _, h, hmem => (List.mem_append.1 hmem).elim (WellFormed.mem_mappings h.2.1)
    (WellFormedEntries.mem_mappings h.2.2)

end

end Value

namespace Legacy

/-! ### Storing by key -/

section Store

variable {α : Type}

/-- The keys of entries are distinct. -/
def KeysNodup (entries : List (Key × α)) : Prop :=
  (entries.map Prod.fst).Nodup

/-- Stores a value under a key: over the one that is there, or else at the end. -/
def put (k : Key) (a : α) : List (Key × α) → List (Key × α)
  | [] => [(k, a)]
  | (k', a') :: r => if k' = k then (k, a) :: r else (k', a') :: put k a r

/-- Stores entries by key, one after another, after those that are stored already. -/
def storeAfter (stored entries : List (Key × α)) : List (Key × α) :=
  entries.foldl (fun stored e ↦ put e.1 e.2 stored) stored

/-- What a reader has after it stored all entries by key. -/
def store (entries : List (Key × α)) : List (Key × α) :=
  storeAfter [] entries

variable {k : Key} {a : α} {stored entries : List (Key × α)}

/-- A new key goes to the end. -/
theorem put_of_not_mem (h : k ∉ stored.map Prod.fst) : put k a stored = stored ++ [(k, a)] := by
  induction stored with
  | nil => rfl
  | cons e r ih =>
    obtain ⟨hk, hr⟩ := not_or.1 (List.mem_cons.not.1 h)
    rw [put, if_neg (Ne.symm hk), ih hr, List.cons_append]

/-- A key that is there keeps its place, and no key is added. -/
theorem keys_put_of_mem (h : k ∈ stored.map Prod.fst) :
    (put k a stored).map Prod.fst = stored.map Prod.fst := by
  induction stored with
  | nil => cases h
  | cons e r ih =>
    obtain ⟨k', a'⟩ := e
    rw [put]
    split
    · rename_i hk
      rw [List.map_cons, List.map_cons, hk]
    · rename_i hk
      have hr : k ∈ r.map Prod.fst := (List.mem_cons.1 h).resolve_left (Ne.symm hk)
      rw [List.map_cons, List.map_cons, ih hr]

theorem length_put_of_mem (h : k ∈ stored.map Prod.fst) :
    (put k a stored).length = stored.length := by
  have hkeys := congrArg List.length (keys_put_of_mem (a := a) h)
  rwa [List.length_map, List.length_map] at hkeys

/-- Nothing is stored that was not brought. -/
theorem length_storeAfter_le (stored entries : List (Key × α)) :
    (storeAfter stored entries).length ≤ stored.length + entries.length := by
  induction entries generalizing stored with
  | nil => exact Nat.le_refl _
  | cons e r ih =>
    have hrest := ih (put e.1 e.2 stored)
    have hput : (put e.1 e.2 stored).length ≤ stored.length + 1 := by
      by_cases hmem : e.1 ∈ stored.map Prod.fst
      · rw [length_put_of_mem hmem]
        exact Nat.le_succ _
      · rw [put_of_not_mem hmem, List.length_append]
        exact Nat.le_refl _
    rw [storeAfter, List.foldl_cons, ← storeAfter, List.length_cons]
    omega

/-- Entries with distinct keys are stored as they are. -/
theorem storeAfter_of_keysNodup (h : KeysNodup (stored ++ entries)) :
    storeAfter stored entries = stored ++ entries := by
  induction entries generalizing stored with
  | nil => exact (List.append_nil stored).symm
  | cons e r ih =>
    have hnew : e.1 ∉ stored.map Prod.fst := by
      rw [KeysNodup, List.map_append, List.nodup_append] at h
      exact fun hmem ↦ h.2.2 _ hmem _ List.mem_cons_self rfl
    rw [List.append_cons] at h ⊢
    rw [storeAfter, List.foldl_cons, ← storeAfter, put_of_not_mem hnew]
    exact ih h

/-- Where nothing stored was lost, the keys are distinct. -/
theorem keysNodup_of_length_storeAfter (hstored : KeysNodup stored)
    (h : (storeAfter stored entries).length = stored.length + entries.length) :
    KeysNodup (stored ++ entries) := by
  induction entries generalizing stored with
  | nil => rwa [List.append_nil]
  | cons e r ih =>
    rw [storeAfter, List.foldl_cons, ← storeAfter, List.length_cons] at h
    have hle := length_storeAfter_le (put e.1 e.2 stored) r
    have hnew : e.1 ∉ stored.map Prod.fst := fun hmem ↦ by
      rw [length_put_of_mem hmem] at hle
      omega
    rw [put_of_not_mem hnew] at h
    have hstored' : KeysNodup (stored ++ [(e.1, e.2)]) := by
      rw [KeysNodup, List.map_append, List.nodup_append]
      refine ⟨hstored, List.nodup_singleton _, fun k hk k' hk' ↦ ?_⟩
      rw [List.mem_singleton.1 hk']
      exact fun hsame ↦ hnew (hsame ▸ hk)
    have hall := ih hstored' (by rw [h, List.length_append, List.length_singleton]; omega)
    rwa [← List.append_cons] at hall

/-- **A reader keeps all entries exactly when their keys are distinct.** -/
theorem length_store_eq_iff : (store entries).length = entries.length ↔ KeysNodup entries := by
  constructor
  · intro h
    have hnil : KeysNodup ([] : List (Key × α)) := List.nodup_nil
    exact keysNodup_of_length_storeAfter hnil (by rwa [List.length_nil, Nat.zero_add])
  · intro h
    have hstore : storeAfter [] entries = [] ++ entries := storeAfter_of_keysNodup h
    rw [store, hstore, List.nil_append]

end Store

/-! ### Keys of an encoded value -/

/-- The key that is written for a text. -/
def Key.ofText (text : String) : Key :=
  match numeralOf? text with
  | some i => .int i
  | none => .text (bytes text)

/-- **Different texts are different keys.** -/
theorem Key.ofText_injective : Function.Injective Key.ofText := by
  intro s t h
  rw [Key.ofText, Key.ofText] at h
  cases hs : numeralOf? s with
  | none =>
    cases ht : numeralOf? t with
    | none =>
      rw [hs, ht] at h
      exact bytes_injective (Key.text.inj h)
    | some j =>
      rw [hs, ht] at h
      cases h
  | some i =>
    cases ht : numeralOf? t with
    | none =>
      rw [hs, ht] at h
      cases h
    | some j =>
      rw [hs, ht] at h
      obtain rfl := Key.int.inj h
      rw [(numeralOf?_eq_some_iff.1 hs).2, (numeralOf?_eq_some_iff.1 ht).2]

theorem keyDatum_eq (k : Value) : keyDatum k = Key.ofText k.keyText := rfl

theorem keys_entryData (entries : List (Value × Value)) :
    (entryData entries).map Prod.fst = (Tree.keys entries).map keyDatum := by
  induction entries with
  | nil => rfl
  | cons e r ih =>
    obtain ⟨k, v⟩ := e
    rw [entryData, List.map_cons, ih]
    rfl

/-- The keys of an encoded mapping are distinct exactly when their texts are. -/
theorem keysNodup_entryData_iff (t : Tree) : KeysNodup (entryData t) ↔ t.SpelledApart := by
  have htexts : t.keys.map keyDatum = (t.keys.map Value.keyText).map Key.ofText := by
    rw [List.map_map]
    exact List.map_congr_left fun k _ ↦ keyDatum_eq k
  rw [KeysNodup, keys_entryData, htexts, List.nodup_map_iff Key.ofText_injective]
  rfl

theorem keys_itemData (i : Nat) (items : List Value) :
    (itemData i items).map Prod.fst = (List.range' i items.length).map fun n : Nat ↦ .int n := by
  induction items generalizing i with
  | nil => rfl
  | cons v r ih =>
    rw [itemData, List.map_cons, ih, List.length_cons, List.range'_succ, List.map_cons]

/-- Indexes are distinct. -/
theorem keysNodup_itemData (i : Nat) (items : List Value) : KeysNodup (itemData i items) := by
  have hinjective : Function.Injective fun n : Nat ↦ Key.int n :=
    fun _ _ h ↦ Int.ofNat.inj (Key.int.inj h)
  rw [KeysNodup, keys_itemData, List.nodup_map_iff hinjective]
  exact List.nodup_range'

mutual

/-- The arrays in a decoded value, at any depth. -/
def Datum.arrays : Datum → List (List (Key × Datum))
  | .array entries => entries :: Datum.entryArrays entries
  | _ => []

/-- The arrays in the values of entries. -/
def Datum.entryArrays : List (Key × Datum) → List (List (Key × Datum))
  | [] => []
  | (_, d) :: r => Datum.arrays d ++ Datum.entryArrays r

end

mutual

/-- **The keys of all arrays are distinct exactly when no mapping has two keys of one text.** -/
theorem keysNodup_arrays_datum_iff : ∀ v : Value,
    (∀ entries ∈ (datum v).arrays, KeysNodup entries) ↔ ∀ t ∈ v.mappings, t.SpelledApart
  | .null | .bool _ | .float _ | .string _ => by simp [datum, Datum.arrays, Value.mappings]
  | .int i => by
    rw [datum]
    split <;> simp [Datum.arrays, Value.mappings]
  | .sequence items => by
    rw [datum, Datum.arrays, Value.mappings, List.forall_mem_cons]
    rw [keysNodup_arrays_itemData_iff 0 items]
    exact and_iff_right (keysNodup_itemData 0 items)
  | .mapping entries => by
    rw [datum, Datum.arrays, Value.mappings, List.forall_mem_cons, List.forall_mem_cons]
    exact and_congr (keysNodup_entryData_iff entries) (keysNodup_arrays_entryData_iff entries)
  | .tagged tag v => by
    rw [datum, Value.mappings]
    exact keysNodup_arrays_datum_iff v

theorem keysNodup_arrays_itemData_iff : ∀ (i : Nat) (items : List Value),
    (∀ entries ∈ Datum.entryArrays (itemData i items), KeysNodup entries) ↔
      ∀ t ∈ Value.itemMappings items, t.SpelledApart
  | _, [] => by simp [itemData, Datum.entryArrays, Value.itemMappings]
  | i, v :: r => by
    rw [itemData, Datum.entryArrays, Value.itemMappings, List.forall_mem_append,
      List.forall_mem_append]
    exact and_congr (keysNodup_arrays_datum_iff v) (keysNodup_arrays_itemData_iff (i + 1) r)

theorem keysNodup_arrays_entryData_iff : ∀ entries : List (Value × Value),
    (∀ e ∈ Datum.entryArrays (entryData entries), KeysNodup e) ↔
      ∀ t ∈ Value.entryMappings entries, t.SpelledApart
  | [] => by simp [entryData, Datum.entryArrays, Value.entryMappings]
  | (k, v) :: r => by
    rw [entryData, Datum.entryArrays, Value.entryMappings, List.forall_mem_append,
      List.forall_mem_append]
    exact and_congr (keysNodup_arrays_datum_iff v) (keysNodup_arrays_entryData_iff r)

end

/-- **Where all keys are scalars, only a string that is written like another key is in the way.** -/
theorem keysNodup_arrays_datum_iff_of_scalars {v : Value} (hv : v.WellFormed)
    (hscalars : ∀ t ∈ v.mappings, t.HasScalarKeys) :
    (∀ entries ∈ (datum v).arrays, KeysNodup entries) ↔ ∀ t ∈ v.mappings, t.StringsApart := by
  rw [keysNodup_arrays_datum_iff]
  exact forall₂_congr fun t ht ↦
    Tree.spelledApart_iff_of_scalars (hv.mem_mappings ht) (hscalars t ht)

/-- **A reader of an encoding keeps every setting** exactly when no mapping in the value has two
keys of one text. -/
theorem keeps_every_setting_iff (v : Value) :
    ∃ d, decode? (bytes (encode v)) = some (d, []) ∧
      ((∀ entries ∈ d.arrays, KeysNodup entries) ↔ ∀ t ∈ v.mappings, t.SpelledApart) ∧
      ((∀ entries ∈ d.arrays, (store entries).length = entries.length) ↔
        ∀ t ∈ v.mappings, t.SpelledApart) := by
  have hdecode := decode?_encode v []
  rw [List.append_nil] at hdecode
  refine ⟨datum v, hdecode, keysNodup_arrays_datum_iff v, ?_⟩
  rw [← keysNodup_arrays_datum_iff v]
  exact forall₂_congr fun entries _ ↦ length_store_eq_iff

/-- **A number and the text of its digits are one key** of an encoded array, and the setting under
the number is lost. -/
theorem number_and_digits_collide :
    ¬∀ v : Value, v.WellFormed → ∃ d, decode? (bytes (encode v)) = some (d, []) ∧
      ∀ entries ∈ d.arrays, KeysNodup entries ∧ (store entries).length = entries.length := by
  intro h
  let v : Value := .mapping [(.int 1, .string "a"), (.string "1", .string "b")]
  have hv : v.WellFormed := by
    simp [v, Value.WellFormed, Value.WellFormedEntries, Value.same]
  obtain ⟨d, hd, hdistinct⟩ := h v hv
  have hdecode := decode?_encode v []
  rw [List.append_nil, hd] at hdecode
  obtain rfl : d = datum v := congrArg Prod.fst (Option.some.inj hdecode)
  have hnodup := (hdistinct _ List.mem_cons_self).1
  have hspelled := (keysNodup_entryData_iff _).1 hnodup
  revert hspelled
  decide +kernel

end Legacy

end LayeredConfig
