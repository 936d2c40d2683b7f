import LayeredConfig.Proofs.Text.Numeral
import Mathlib.Data.List.Basic

/-!
# A decoder for the legacy encoding

What a consumer of the legacy encoding does with its bytes. `decode?` reads one value from the front
of a byte string and answers it with the bytes behind it, or nothing where the bytes are no
encoding. It knows no text, only bytes: a string is as many bytes as its length announces, whatever
they are, and an array is as many entries as its count announces.

A value that was read is a `Datum`. It has no tags, it tells sequences and mappings apart by their
keys only, and a float is the text that stands for it.

Every reader comes with the lemma that it reads back what was written, and leaves the rest: a fixed
word (`skip?_append`), a field up to its end mark (`readUntil?_append`), a number
(`readNatural?_numeral`, `readInteger?_signedNumeral`), a string (`readText?_append`).
-/

namespace LayeredConfig.Legacy

/-! ### What is decoded -/

/-- A key of an array. -/
inductive Key where
  /-- A whole number. -/
  | int (i : Int)
  /-- A byte string. -/
  | text (content : List UInt8)
deriving DecidableEq

/-- A decoded value. -/
inductive Datum where
  /-- The absent value. -/
  | null
  /-- A truth value. -/
  | bool (b : Bool)
  /-- A whole number. -/
  | int (i : Int)
  /-- A floating point number, as its text. -/
  | float (numeral : List UInt8)
  /-- A byte string. -/
  | text (content : List UInt8)
  /-- Entries in order. -/
  | array (entries : List (Key × Datum))

/-! ### Readers -/

/-- The bytes of a text. -/
def bytes (s : String) : List UInt8 :=
  s.toList.flatMap String.utf8EncodeChar

/-- The bytes behind a word. -/
def skip? (word : String) (bs : List UInt8) : Option (List UInt8) :=
  (bytes word).isPrefixOf? bs

/-- The bytes before the end mark. -/
def readUntil? (mark : Char) : List UInt8 → Option (List UInt8 × List UInt8)
  | [] => none
  | b :: r =>
    if b = mark.toUInt8 then some ([], r)
    else do
      let (field, rest) ← readUntil? mark r
      some (b :: field, rest)

/-- The natural number before the end mark. -/
def readNatural? (mark : Char) (bs : List UInt8) : Option (Nat × List UInt8) := do
  let (field, rest) ← readUntil? mark bs
  let n ← Text.ofDigits? 10 (field.map Char.ofUInt8)
  some (n, rest)

/-- The whole number before the end mark. -/
def readInteger? (mark : Char) (bs : List UInt8) : Option (Int × List UInt8) := do
  let (field, rest) ← readUntil? mark bs
  let i ← Text.integer? (field.map Char.ofUInt8)
  some (i, rest)

/-- A truth value behind its letter. -/
def readBool? (bs : List UInt8) : Option (Bool × List UInt8) :=
  match skip? ":0;" bs, skip? ":1;" bs with
  | some rest, _ => some (false, rest)
  | none, some rest => some (true, rest)
  | none, none => none

/-- A whole number behind its letter. -/
def readInt? (bs : List UInt8) : Option (Int × List UInt8) := do
  let bs ← skip? ":" bs
  readInteger? ';' bs

/-- A float behind its letter, as its text. -/
def readFloat? (bs : List UInt8) : Option (List UInt8 × List UInt8) := do
  let bs ← skip? ":" bs
  readUntil? ';' bs

/-- The first `size` bytes. -/
def readChunk? (size : Nat) (bs : List UInt8) : Option (List UInt8 × List UInt8) :=
  if size ≤ bs.length then some (bs.take size, bs.drop size) else none

/-- A string behind its letter: its length, and between quotation marks as many bytes. -/
def readText? (bs : List UInt8) : Option (List UInt8 × List UInt8) := do
  let bs ← skip? ":" bs
  let (size, bs) ← readNatural? ':' bs
  let bs ← skip? "\"" bs
  let (content, bs) ← readChunk? size bs
  let bs ← skip? "\";" bs
  some (content, bs)

/-- What `read` reads, `count` times over. -/
def readMany? {α : Type} (read : List UInt8 → Option (α × List UInt8)) :
    (count : Nat) → List UInt8 → Option (List α × List UInt8)
  | 0, bs => some ([], bs)
  | count + 1, bs => do
    let (a, bs) ← read bs
    let (as, bs) ← readMany? read count bs
    some (a :: as, bs)

/-- A key. -/
def readKey? : List UInt8 → Option (Key × List UInt8)
  | [] => none
  | letter :: bs =>
    match Char.ofUInt8 letter with
    | 'i' => do
      let (i, bs) ← readInt? bs
      some (.int i, bs)
    | 's' => do
      let (content, bs) ← readText? bs
      some (.text content, bs)
    | _ => none

/-- A key and what `read` reads. -/
def readPair? {α : Type} (read : List UInt8 → Option (α × List UInt8)) (bs : List UInt8) :
    Option ((Key × α) × List UInt8) := do
  let (k, bs) ← readKey? bs
  let (a, bs) ← read bs
  some ((k, a), bs)

/-- An array behind its letter: the number of its entries, and between braces as many entries with
what `read` reads. -/
def readArray? {α : Type} (read : List UInt8 → Option (α × List UInt8)) (bs : List UInt8) :
    Option (List (Key × α) × List UInt8) := do
  let bs ← skip? ":" bs
  let (count, bs) ← readNatural? ':' bs
  let bs ← skip? "\x7b" bs
  let (entries, bs) ← readMany? (readPair? read) count bs
  let bs ← skip? "\x7d" bs
  some (entries, bs)

/-- A value in which fewer than `depth` arrays are nested. -/
def readDatum? : (depth : Nat) → List UInt8 → Option (Datum × List UInt8)
  | 0, _ | _ + 1, [] => none
  | depth + 1, letter :: bs =>
    match Char.ofUInt8 letter with
    | 'N' => do
      let bs ← skip? ";" bs
      some (.null, bs)
    | 'b' => do
      let (b, bs) ← readBool? bs
      some (.bool b, bs)
    | 'i' => do
      let (i, bs) ← readInt? bs
      some (.int i, bs)
    | 'd' => do
      let (numeral, bs) ← readFloat? bs
      some (.float numeral, bs)
    | 's' => do
      let (content, bs) ← readText? bs
      some (.text content, bs)
    | 'a' => do
      let (entries, bs) ← readArray? (readDatum? depth) bs
      some (.array entries, bs)
    | _ => none

/-- **The decoder.** Arrays cannot be nested deeper than there are bytes. -/
def decode? (bs : List UInt8) : Option (Datum × List UInt8) :=
  readDatum? (bs.length + 1) bs

/-! ### Bytes of a text -/

@[simp] theorem bytes_append (s t : String) : bytes (s ++ t) = bytes s ++ bytes t := by
  simp [bytes]

theorem toByteArray_eq (s : String) : s.toByteArray = (bytes s).toByteArray := by
  rw [bytes, ← List.utf8Encode, String.utf8Encode_toList]

/-- A text announces the number of its bytes. -/
theorem length_bytes (s : String) : (bytes s).length = s.utf8ByteSize := by
  rw [String.utf8ByteSize, toByteArray_eq, List.size_toByteArray]

/-- Texts with the same bytes are one text. -/
theorem bytes_injective : Function.Injective bytes := by
  intro s t h
  rw [← String.toByteArray_inj, toByteArray_eq s, toByteArray_eq t, h]

/-- A byte of the ASCII range stands for the character with its code, and for no other. -/
theorem mem_utf8EncodeChar_iff {b : UInt8} {c : Char} (hb : b.toNat < 128) :
    b ∈ String.utf8EncodeChar c ↔ c.toNat = b.toNat := by
  have hvalid : c.val.toNat < 1114112 := by
    have := c.valid
    simp only [UInt32.isValidChar, Nat.isValidChar] at this
    omega
  have hc : c.toNat = c.val.toNat := rfl
  rw [hc]
  unfold String.utf8EncodeChar
  -- All bytes of a longer form have their highest bit set.
  dsimp only
  split_ifs <;>
    simp only [List.mem_cons, List.not_mem_nil, or_false, ← UInt8.toNat_inj,
      UInt8.toNat_ofNat'] <;>
    omega

theorem mem_bytes_iff {mark : Char} (hmark : mark.toNat < 128) {s : String} :
    mark.toUInt8 ∈ bytes s ↔ mark ∈ s.toList := by
  have hbyte : mark.toUInt8.toNat = mark.toNat := by
    change mark.toNat % 256 = mark.toNat
    omega
  have hsame : ∀ c : Char, mark.toUInt8 ∈ String.utf8EncodeChar c ↔ c = mark := by
    intro c
    rw [mem_utf8EncodeChar_iff (by omega), hbyte, Char.toNat_inj]
  simp only [bytes, List.mem_flatMap, hsame]
  exact ⟨fun ⟨c, hc, h⟩ ↦ h ▸ hc, fun h ↦ ⟨mark, h, rfl⟩⟩

/-- A text of ASCII characters has one byte for each. -/
theorem map_ofUInt8_bytes {s : String} (h : ∀ c ∈ s.toList, c.toNat < 128) :
    (bytes s).map Char.ofUInt8 = s.toList := by
  rw [bytes]
  generalize s.toList = cs at h ⊢
  induction cs with
  | nil => rfl
  | cons c r ih =>
    have hc : c.toNat < 128 := h c List.mem_cons_self
    have hbytes : String.utf8EncodeChar c = [c.toUInt8] := by
      unfold String.utf8EncodeChar
      exact if_pos (Nat.le_of_lt_succ hc)
    have hback : Char.ofUInt8 c.toUInt8 = c := by
      have hbyte : c.toUInt8.toNat = c.toNat % 256 := rfl
      have hchar : (Char.ofUInt8 c.toUInt8).toNat = c.toUInt8.toNat := rfl
      rw [← Char.toNat_inj, hchar, hbyte]
      omega
    rw [List.flatMap_cons, List.map_append, hbytes,
      ih fun c' hc' ↦ h c' (List.mem_cons_of_mem _ hc')]
    simp [hback]

/-! ### What was written is read back -/

theorem skip?_append (word : String) (rest : List UInt8) :
    skip? word (bytes word ++ rest) = some rest :=
  List.isPrefixOf?_eq_some_iff_append_eq.2 rfl

theorem readUntil?_append {mark : Char} {field : List UInt8} (h : mark.toUInt8 ∉ field)
    (rest : List UInt8) : readUntil? mark (field ++ mark.toUInt8 :: rest) = some (field, rest) := by
  induction field with
  | nil => simp [readUntil?]
  | cons b r ih =>
    have hb : b ≠ mark.toUInt8 := fun hb ↦ h (hb ▸ List.mem_cons_self)
    have hr : mark.toUInt8 ∉ r := fun hr ↦ h (List.mem_cons_of_mem _ hr)
    rw [List.cons_append, readUntil?, if_neg hb, ih hr]
    rfl

theorem readChunk?_append (content rest : List UInt8) :
    readChunk? content.length (content ++ rest) = some (content, rest) := by
  rw [readChunk?, if_pos (by simp), List.take_left, List.drop_left]

/-- A character that ends a numeral: it is an ASCII character other than those of a numeral. -/
def IsMark (mark : Char) : Prop :=
  mark.toNat < 128 ∧ Text.isDigit mark = false ∧ mark ≠ '-'

theorem isMark_colon : IsMark ':' :=
  ⟨by decide, by decide, by decide⟩

theorem isMark_semicolon : IsMark ';' :=
  ⟨by decide, by decide, by decide⟩

theorem toNat_lt_of_mem_signedNumeral {i : Int} {c : Char}
    (h : c ∈ (Text.signedNumeral i).toList) : c.toNat < 128 := by
  rcases Text.mem_signedNumeral h with rfl | h
  · decide
  · have := Text.isDigit_iff_toNat.1 h
    omega

section Numerals

variable {mark : Char} (hmark : IsMark mark)

include hmark

theorem not_mem_bytes_signedNumeral (i : Int) : mark.toUInt8 ∉ bytes (Text.signedNumeral i) := by
  rw [mem_bytes_iff hmark.1]
  intro h
  rcases Text.mem_signedNumeral h with h | h
  · exact hmark.2.2 h
  · rw [hmark.2.1] at h
    cases h

/-- The bytes of a numeral are its characters. -/
theorem readInteger?_signedNumeral (i : Int) (rest : List UInt8) :
    readInteger? mark (bytes (Text.signedNumeral i) ++ mark.toUInt8 :: rest) = some (i, rest) := by
  have hfield := readUntil?_append (not_mem_bytes_signedNumeral hmark i) rest
  have hchars : (bytes (Text.signedNumeral i)).map Char.ofUInt8 = (Text.signedNumeral i).toList :=
    map_ofUInt8_bytes fun _ hc ↦ toNat_lt_of_mem_signedNumeral hc
  rw [readInteger?, hfield]
  simp [hchars, Text.integer?_signedNumeral]

theorem readNatural?_numeral (n : Nat) (rest : List UInt8) :
    readNatural? mark (bytes (Text.numeral n) ++ mark.toUInt8 :: rest) = some (n, rest) := by
  have hsigned : Text.numeral n = Text.signedNumeral n := rfl
  have hfield := readUntil?_append (not_mem_bytes_signedNumeral hmark n) rest
  have hchars : (bytes (Text.signedNumeral n)).map Char.ofUInt8 = (Text.signedNumeral n).toList :=
    map_ofUInt8_bytes fun _ hc ↦ toNat_lt_of_mem_signedNumeral hc
  have htext : (Text.signedNumeral n).toList = Nat.toDigits 10 n := Text.toList_numeral n
  rw [hsigned, readNatural?, hfield]
  simp [hchars, htext, Text.ofDigits?_toDigits]

end Numerals

theorem readBool?_append (b : Bool) (rest : List UInt8) :
    readBool? (bytes (if b then ":1;" else ":0;") ++ rest) = some (b, rest) := by
  cases b with
  | false => simp [readBool?, skip?_append]
  | true =>
    have hfalse : skip? ":0;" (bytes ":1;" ++ rest) = none := rfl
    simp [readBool?, skip?_append, hfalse]

theorem readInt?_append (i : Int) (rest : List UInt8) :
    readInt? (bytes ":" ++ (bytes (Text.signedNumeral i) ++ ';'.toUInt8 :: rest)) =
      some (i, rest) := by
  simp [readInt?, skip?_append, readInteger?_signedNumeral isMark_semicolon]

/-- A text without a semicolon is read as it is. -/
theorem readFloat?_append {text : String} (h : ';' ∉ text.toList) (rest : List UInt8) :
    readFloat? (bytes ":" ++ (bytes text ++ ';'.toUInt8 :: rest)) = some (bytes text, rest) := by
  have hfield : ';'.toUInt8 ∉ bytes text := by rwa [mem_bytes_iff (by decide)]
  simp [readFloat?, skip?_append, readUntil?_append hfield]

/-- A string is read whatever its bytes are. -/
theorem readText?_append (content rest : List UInt8) :
    readText? (bytes ":" ++ (bytes (Text.numeral content.length) ++ ':'.toUInt8 ::
      (bytes "\"" ++ (content ++ (bytes "\";" ++ rest))))) = some (content, rest) := by
  simp [readText?, skip?_append, readNatural?_numeral isMark_colon, readChunk?_append]

section Arrays

variable {α : Type} {read : List UInt8 → Option (α × List UInt8)}

theorem readPair?_eq_some {bs bs' rest : List UInt8} {k : Key} {a : α}
    (hk : readKey? bs = some (k, bs')) (ha : read bs' = some (a, rest)) :
    readPair? read bs = some ((k, a), rest) := by
  simp [readPair?, hk, ha]

/-- What is written piece by piece is read piece by piece. -/
theorem readMany?_cons {count : Nat} {bs bs' rest : List UInt8} {a : α} {as : List α}
    (h : read bs = some (a, bs')) (hr : readMany? read count bs' = some (as, rest)) :
    readMany? read (count + 1) bs = some (a :: as, rest) := by
  simp [readMany?, h, hr]

/-- An array is read when its entries are. -/
theorem readArray?_append {count : Nat} {content rest : List UInt8} {entries : List (Key × α)}
    (h : readMany? (readPair? read) count (content ++ (bytes "\x7d" ++ rest)) =
      some (entries, bytes "\x7d" ++ rest)) :
    readArray? read (bytes ":" ++ (bytes (Text.numeral count) ++ ':'.toUInt8 ::
      (bytes "\x7b" ++ (content ++ (bytes "\x7d" ++ rest))))) = some (entries, rest) := by
  simp [readArray?, skip?_append, readNatural?_numeral isMark_colon, h]

end Arrays

end LayeredConfig.Legacy
