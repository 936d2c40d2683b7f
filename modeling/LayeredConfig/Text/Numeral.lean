/-!
# Numerals

Whole numbers as digits in a base between two and sixteen. `numeral` writes a natural number in
base ten, `ofDigits?` reads digits back, most significant digit first.
-/

namespace LayeredConfig.Text

/-- The value of a digit: `0` to `9`, then the letters `a` to `z` in either case for 10 to 35. -/
def digitValue? (c : Char) : Option Nat :=
  if '0' ≤ c ∧ c ≤ '9' then some (c.toNat - 48)
  else if 'a' ≤ c ∧ c ≤ 'z' then some (c.toNat - 87)
  else if 'A' ≤ c ∧ c ≤ 'Z' then some (c.toNat - 55)
  else none

/-- The number that the digits of `cs` denote in base `base` after the digits read so far, which
denote `acc`. A character that is no digit of the base refuses the whole text. -/
def ofDigitsFrom? (base : Nat) (acc : Nat) : List Char → Option Nat
  | [] => some acc
  | c :: r =>
    match digitValue? c with
    | some d => if d < base then ofDigitsFrom? base (base * acc + d) r else none
    | none => none

/-- The number that a non-empty list of digits denotes. -/
def ofDigits? (base : Nat) (cs : List Char) : Option Nat :=
  if cs.isEmpty then none else ofDigitsFrom? base 0 cs

/-- A digit of base ten. -/
def isDigit (c : Char) : Bool :=
  '0' ≤ c && c ≤ '9'

/-- The first `width` characters as a number in base ten, and the rest. All of them must be
digits. -/
def fixedDigits? (width : Nat) (cs : List Char) : Option (Nat × List Char) :=
  let digits := cs.take width
  if digits.length = width ∧ digits.all isDigit then
    (ofDigits? 10 digits).map fun n ↦ (n, cs.drop width)
  else none

/-- A digit of base sixteen, in either case. -/
def isHexDigit (c : Char) : Bool :=
  isDigit c || ('a' ≤ c && c ≤ 'f') || ('A' ≤ c && c ≤ 'F')

/-- The character with a code, if there is one. -/
def charOfCode? (n : Nat) : Option Char :=
  if h : n.isValidChar then some (Char.ofNatAux n h) else none

/-- The character that the first `width` characters are the hexadecimal code of. -/
def hexChar? (width : Nat) (cs : List Char) : Option Char :=
  let digits := cs.take width
  if digits.length = width ∧ digits.all isHexDigit then
    (ofDigits? 16 digits).bind charOfCode?
  else none

/-- The digits of a natural number in base ten, without leading zeros. -/
def numeral (n : Nat) : String :=
  String.ofList (Nat.toDigits 10 n)

/-- The digits of a natural number in base ten, filled up with zeros to `width` digits. -/
def paddedNumeral (width n : Nat) : String :=
  let digits := Nat.toDigits 10 n
  String.ofList (List.replicate (width - digits.length) '0' ++ digits)

/-- A whole number in base ten: a minus sign for a negative one, never a plus sign. -/
def signedNumeral (i : Int) : String :=
  if i < 0 then "-" ++ numeral i.natAbs else numeral i.natAbs

/-- The upper-case digits of `n` in base sixteen, filled up with zeros to `width` digits. -/
def hexNumeral (width n : Nat) : String :=
  let digits := (Nat.toDigits 16 n).map Char.toUpper
  String.ofList (List.replicate (width - digits.length) '0' ++ digits)

end LayeredConfig.Text
