import LayeredConfig.Number.Format
import LayeredConfig.Value.KeyText

/-!
# The legacy encoding

Consumers of extension settings take each extension's settings as one string. Every value is a
letter with its content: `N;` for null, `b:1;`, `i:5;`, `d:0.5;`, `s:3:"foo";` with the number of
bytes, and `a:2:{…}` with the number of entries and then keys and values in turn. A sequence is an
array with the keys `0`, `1` and so on. Tags are passed over.

A key that is a canonical decimal of 64 bits is written as an integer, every other key as a string.
-/

namespace LayeredConfig.Legacy

/-- Numbers in the legacy encoding: the fewest digits, always positional, whole numbers without a
point. -/
def number : NumberFormat :=
  ⟨none, false, .up, "NAN", "INF", "-INF"⟩

/-- The decimal digits of a number in its one canonical form, without its sign. -/
def isCanonicalDigits (digits : List Char) : Bool :=
  !digits.isEmpty && digits.all Text.isDigit && (digits == ['0'] || digits.head? != some '0')

/-- The integer that a key text is the canonical decimal of, if it has 64 bits. There is no plus
sign, no leading zero and no negative zero. -/
def integerKey? (key : String) : Option Int :=
  let (negative, digits) := match key.toList with
    | '-' :: r => (true, r)
    | cs => (false, cs)
  if isCanonicalDigits digits && key != "-0" then
    match Text.ofDigits? 10 digits with
    | some n =>
      let i : Int := if negative then -(n : Int) else n
      if -0x8000000000000000 ≤ i ∧ i < 0x8000000000000000 then some i else none
    | none => none
  else none

/-- A string with the number of its bytes. -/
def encodeString (s : String) : String :=
  "s:" ++ Text.numeral s.utf8ByteSize ++ ":\"" ++ s ++ "\";"

/-- A whole number. -/
def encodeInt (i : Int) : String :=
  "i:" ++ Text.signedNumeral i ++ ";"

/-- A key. -/
def encodeKey (k : Value) : String :=
  match integerKey? k.keyText with
  | some i => encodeInt i
  | none => encodeString k.keyText

/-- An array of `count` entries with the given content. -/
def encodeArray (count : Nat) (content : String) : String :=
  "a:" ++ Text.numeral count ++ ":\x7b" ++ content ++ "\x7d"

mutual
/-- The encoding of a value. An integer above the signed range of 64 bits becomes a float. -/
def encode : Value → String
  | .null => "N;"
  | .bool b => if b then "b:1;" else "b:0;"
  -- Readers of the encoding know signed integers only and take greater ones for floats.
  | .int i => if i < 0x8000000000000000 then encodeInt i else "d:" ++ Text.signedNumeral i ++ ";"
  | .float x => "d:" ++ number.render x ++ ";"
  | .string s => encodeString s
  | .sequence items => encodeArray items.length (encodeItems 0 items)
  | .mapping entries => encodeArray entries.length (encodeEntries entries)
  | .tagged _ v => encode v

/-- Items with their indexes, of which the first is `i`. -/
def encodeItems (i : Nat) : List Value → String
  | [] => ""
  | v :: r => encodeInt i ++ encode v ++ encodeItems (i + 1) r

/-- Keys and values in turn. -/
def encodeEntries : List (Value × Value) → String
  | [] => ""
  | (k, v) :: r => encodeKey k ++ encode v ++ encodeEntries r
end

end LayeredConfig.Legacy
