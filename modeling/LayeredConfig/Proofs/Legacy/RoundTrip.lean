import LayeredConfig.Proofs.Legacy.Decoder
import LayeredConfig.Proofs.Legacy.IntegerKey
import LayeredConfig.Proofs.Number.Format

/-!
# The legacy encoding can be decoded

Decoding the encoding of a value gives back all that the encoding keeps of it, with any bytes behind
it left over (`decode?_encode`). What it keeps is the `datum` of the value: tags are gone, a
sequence has become an array with the keys `0`, `1` and so on, a mapping an array of its entries in
order, and an integer that does not fit in 64 bits with a sign the float of the same digits. So no
two values with different data have encodings of which one begins the other
(`datum_eq_of_append_eq`).

A key is known by its text alone. The text is an integer key if it is the numeral of an integer of
64 bits, which `numeralOf?` says without a look at characters.

The decoder splits at no delimiter inside a string, since the length of a string is known before its
bytes are read. A number or a float does end at a semicolon, so these texts must not hold one; for
the digits of a float that is `not_mem_render`.
-/

namespace LayeredConfig.Legacy

/-! ### What an encoding keeps of a value -/

/-- The integer of 64 bits of which a text is the numeral. -/
def numeralOf? (text : String) : Option Int :=
  (Text.integer? text.toList).filter fun i ↦ IsSigned64 i ∧ text = Text.signedNumeral i

theorem numeralOf?_eq_some_iff {text : String} {i : Int} :
    numeralOf? text = some i ↔ IsSigned64 i ∧ text = Text.signedNumeral i := by
  rw [numeralOf?, Option.filter_eq_some_iff, decide_eq_true_eq]
  refine ⟨And.right, fun h ↦ ⟨?_, h⟩⟩
  rw [h.2]
  exact Text.integer?_signedNumeral i

/-- The characters of a key tell its numeral. -/
theorem integerKey?_eq_numeralOf? (text : String) : integerKey? text = numeralOf? text := by
  refine Option.ext fun i ↦ ?_
  rw [integerKey?_eq_some_iff, numeralOf?_eq_some_iff]

/-- A key by its text: an integer if the text is a numeral, and else the bytes of the text. -/
def keyDatum (k : Value) : Key :=
  match numeralOf? k.keyText with
  | some i => .int i
  | none => .text (bytes k.keyText)

mutual

/-- What the encoding keeps of a value. -/
def datum : Value → Datum
  | .null => .null
  | .bool b => .bool b
  | .int i =>
    if i < 0x8000000000000000 then .int i else .float (bytes (Text.signedNumeral i))
  | .float x => .float (bytes (number.render x))
  | .string s => .text (bytes s)
  | .sequence items => .array (itemData 0 items)
  | .mapping entries => .array (entryData entries)
  | .tagged _ v => datum v

/-- Items under their indexes, of which the first is `i`. -/
def itemData (i : Nat) : List Value → List (Key × Datum)
  | [] => []
  | v :: r => (.int i, datum v) :: itemData (i + 1) r

/-- Entries in order. -/
def entryData : List (Value × Value) → List (Key × Datum)
  | [] => []
  | (k, v) :: r => (keyDatum k, datum v) :: entryData r

end

/-! ### The text of a float -/

/-- **No float has a semicolon in its text.** -/
theorem not_mem_render (x : Binary64) : ';' ∉ (number.render x).toList := by
  intro h
  rcases NumberFormat.mem_render h with (h | h | h | h) | h
  · cases h
  · cases h
  · cases h
  · cases h
  · revert h
    decide

/-! ### Where the bytes of an encoding stand -/

theorem bytes_encodeInt (i : Int) (rest : List UInt8) : bytes (encodeInt i) ++ rest =
    'i'.toUInt8 :: (bytes ":" ++ (bytes (Text.signedNumeral i) ++ ';'.toUInt8 :: rest)) := by
  rw [encodeInt, bytes_append, bytes_append, List.append_assoc, List.append_assoc]
  rfl

theorem bytes_encodeString (s : String) (rest : List UInt8) : bytes (encodeString s) ++ rest =
    's'.toUInt8 :: (bytes ":" ++ (bytes (Text.numeral (bytes s).length) ++ ':'.toUInt8 ::
      (bytes "\"" ++ (bytes s ++ (bytes "\";" ++ rest))))) := by
  rw [encodeString, ← length_bytes]
  simp only [bytes_append, List.append_assoc]
  rfl

theorem bytes_encodeArray (count : Nat) (content : String) (rest : List UInt8) :
    bytes (encodeArray count content) ++ rest =
      'a'.toUInt8 :: (bytes ":" ++ (bytes (Text.numeral count) ++ ':'.toUInt8 ::
        (bytes "\x7b" ++ (bytes content ++ (bytes "\x7d" ++ rest))))) := by
  simp only [encodeArray, bytes_append, List.append_assoc]
  rfl

/-- The float with a given text. -/
theorem bytes_float (text : String) (rest : List UInt8) : bytes ("d:" ++ text ++ ";") ++ rest =
    'd'.toUInt8 :: (bytes ":" ++ (bytes text ++ ';'.toUInt8 :: rest)) := by
  simp only [bytes_append, List.append_assoc]
  rfl

/-! ### Reading an encoding back -/

theorem readKey?_encodeInt (i : Int) (rest : List UInt8) :
    readKey? (bytes (encodeInt i) ++ rest) = some (.int i, rest) := by
  rw [bytes_encodeInt]
  change (readInt? _).bind _ = _
  rw [readInt?_append]
  rfl

theorem readKey?_encodeString (s : String) (rest : List UInt8) :
    readKey? (bytes (encodeString s) ++ rest) = some (.text (bytes s), rest) := by
  rw [bytes_encodeString]
  change (readText? _).bind _ = _
  rw [readText?_append]
  rfl

theorem readKey?_encodeKey (k : Value) (rest : List UInt8) :
    readKey? (bytes (encodeKey k) ++ rest) = some (keyDatum k, rest) := by
  rw [encodeKey, keyDatum, integerKey?_eq_numeralOf?]
  cases numeralOf? k.keyText with
  | some i => exact readKey?_encodeInt i rest
  | none => exact readKey?_encodeString k.keyText rest

theorem readDatum?_null (depth : Nat) (rest : List UInt8) :
    readDatum? (depth + 1) (bytes "N;" ++ rest) = some (.null, rest) := by
  have hlayout : bytes "N;" ++ rest = 'N'.toUInt8 :: (bytes ";" ++ rest) := rfl
  have hread : ∀ bs, readDatum? (depth + 1) ('N'.toUInt8 :: bs) =
      (skip? ";" bs).bind fun bs ↦ some (.null, bs) := fun _ ↦ rfl
  rw [hlayout, hread, skip?_append]
  rfl

theorem readDatum?_bool (depth : Nat) (b : Bool) (rest : List UInt8) :
    readDatum? (depth + 1) (bytes (if b then "b:1;" else "b:0;") ++ rest) =
      some (.bool b, rest) := by
  have hlayout : bytes (if b then "b:1;" else "b:0;") ++ rest =
      'b'.toUInt8 :: (bytes (if b then ":1;" else ":0;") ++ rest) := by cases b <;> rfl
  rw [hlayout]
  change (readBool? _).bind _ = _
  rw [readBool?_append]
  rfl

theorem readDatum?_encodeInt (depth : Nat) (i : Int) (rest : List UInt8) :
    readDatum? (depth + 1) (bytes (encodeInt i) ++ rest) = some (.int i, rest) := by
  rw [bytes_encodeInt]
  change (readInt? _).bind _ = _
  rw [readInt?_append]
  rfl

theorem readDatum?_encodeString (depth : Nat) (s : String) (rest : List UInt8) :
    readDatum? (depth + 1) (bytes (encodeString s) ++ rest) = some (.text (bytes s), rest) := by
  rw [bytes_encodeString]
  change (readText? _).bind _ = _
  rw [readText?_append]
  rfl

theorem readDatum?_float (depth : Nat) {text : String} (h : ';' ∉ text.toList)
    (rest : List UInt8) : readDatum? (depth + 1) (bytes ("d:" ++ text ++ ";") ++ rest) =
      some (.float (bytes text), rest) := by
  rw [bytes_float]
  change (readFloat? _).bind _ = _
  rw [readFloat?_append h]
  rfl

theorem readDatum?_encodeArray {depth count : Nat} {content : String} {rest : List UInt8}
    {entries : List (Key × Datum)}
    (h : readMany? (readPair? (readDatum? depth)) count (bytes content ++ (bytes "\x7d" ++ rest)) =
      some (entries, bytes "\x7d" ++ rest)) :
    readDatum? (depth + 1) (bytes (encodeArray count content) ++ rest) =
      some (.array entries, rest) := by
  rw [bytes_encodeArray]
  change (readArray? _ _).bind _ = _
  rw [readArray?_append h]
  rfl

theorem length_lt_encodeArray (count : Nat) (content : String) :
    (bytes content).length < (bytes (encodeArray count content)).length := by
  have hlayout := congrArg List.length (bytes_encodeArray count content [])
  simp only [List.append_nil, List.length_append, List.length_cons] at hlayout
  omega

mutual

/-- **An encoding is read back, whatever stands behind it**, given room for its nesting. -/
theorem readDatum?_encode : ∀ (v : Value) (depth : Nat) (rest : List UInt8),
    (bytes (encode v)).length ≤ depth →
      readDatum? (depth + 1) (bytes (encode v) ++ rest) = some (datum v, rest)
  | .null => fun depth rest _ ↦ readDatum?_null depth rest
  | .bool b => fun depth rest _ ↦ readDatum?_bool depth b rest
  | .int i => by
    intro depth rest _
    rw [encode, datum]
    split
    · exact readDatum?_encodeInt depth i rest
    · refine readDatum?_float depth (fun h ↦ ?_) rest
      rcases Text.mem_signedNumeral h with h | h <;> cases h
  | .float x => fun depth rest _ ↦ readDatum?_float depth (not_mem_render x) rest
  | .string s => fun depth rest _ ↦ readDatum?_encodeString depth s rest
  | .sequence items => by
    intro depth rest h
    have hlength := length_lt_encodeArray items.length (encodeItems 0 items)
    rw [encode] at h
    obtain ⟨depth, rfl⟩ : ∃ d, depth = d + 1 := ⟨depth - 1, by omega⟩
    exact readDatum?_encodeArray (readMany?_encodeItems 0 items depth _ (by omega))
  | .mapping entries => by
    intro depth rest h
    have hlength := length_lt_encodeArray entries.length (encodeEntries entries)
    rw [encode] at h
    obtain ⟨depth, rfl⟩ : ∃ d, depth = d + 1 := ⟨depth - 1, by omega⟩
    exact readDatum?_encodeArray (readMany?_encodeEntries entries depth _ (by omega))
  | .tagged _ v => by
    intro depth rest h
    rw [encode] at h ⊢
    exact readDatum?_encode v depth rest h

theorem readMany?_encodeItems : ∀ (i : Nat) (items : List Value) (depth : Nat) (rest : List UInt8),
    (bytes (encodeItems i items)).length ≤ depth →
      readMany? (readPair? (readDatum? (depth + 1))) items.length
        (bytes (encodeItems i items) ++ rest) = some (itemData i items, rest)
  | _, [] => fun _ _ _ ↦ rfl
  | i, v :: r => by
    intro depth rest h
    rw [encodeItems, bytes_append, bytes_append, List.length_append, List.length_append] at h
    rw [encodeItems, bytes_append, bytes_append, List.append_assoc, List.append_assoc]
    have hkey := readKey?_encodeInt i (bytes (encode v) ++ (bytes (encodeItems (i + 1) r) ++ rest))
    have hvalue := readDatum?_encode v depth (bytes (encodeItems (i + 1) r) ++ rest) (by omega)
    exact readMany?_cons (readPair?_eq_some hkey hvalue)
      (readMany?_encodeItems (i + 1) r depth rest (by omega))

theorem readMany?_encodeEntries :
    ∀ (entries : List (Value × Value)) (depth : Nat) (rest : List UInt8),
      (bytes (encodeEntries entries)).length ≤ depth →
        readMany? (readPair? (readDatum? (depth + 1))) entries.length
          (bytes (encodeEntries entries) ++ rest) = some (entryData entries, rest)
  | [] => fun _ _ _ ↦ rfl
  | (k, v) :: r => by
    intro depth rest h
    rw [encodeEntries, bytes_append, bytes_append, List.length_append, List.length_append] at h
    rw [encodeEntries, bytes_append, bytes_append, List.append_assoc, List.append_assoc]
    have hkey := readKey?_encodeKey k (bytes (encode v) ++ (bytes (encodeEntries r) ++ rest))
    have hvalue := readDatum?_encode v depth (bytes (encodeEntries r) ++ rest) (by omega)
    exact readMany?_cons (readPair?_eq_some hkey hvalue)
      (readMany?_encodeEntries r depth rest (by omega))

end

/-- **Every encoding is decoded**, whatever stands behind it. -/
theorem decode?_encode (v : Value) (rest : List UInt8) :
    decode? (bytes (encode v) ++ rest) = some (datum v, rest) := by
  refine readDatum?_encode v _ rest ?_
  rw [List.length_append]
  exact Nat.le_add_right _ _

/-- An encoding tells where it ends: of two values with different data, none has an encoding that
begins the other's. -/
theorem datum_eq_of_append_eq {v w : Value} {rest rest' : List UInt8}
    (h : bytes (encode v) ++ rest = bytes (encode w) ++ rest') :
    datum v = datum w ∧ rest = rest' := by
  have hv := readDatum?_encode v _ rest
    (Nat.le_max_left (bytes (encode v)).length (bytes (encode w)).length)
  have hw := readDatum?_encode w _ rest'
    (Nat.le_max_right (bytes (encode v)).length (bytes (encode w)).length)
  rw [h, hw] at hv
  obtain ⟨hdatum, hrest⟩ := Prod.mk.inj (Option.some.inj hv)
  exact ⟨hdatum.symm, hrest.symm⟩

end LayeredConfig.Legacy
