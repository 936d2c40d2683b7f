import LayeredConfig.Number.Binary64
import LayeredConfig.Text.Numeral

/-!
# Reading decimals

`Decimal.read?` reads a number in positional or scientific notation: an optional sign, digits with
at most one point among them, at least one digit in all, and an optional exponent. Nothing else may
stand before or after. The value is exact; `Decimal.toBinary64` rounds it once.
-/

namespace LayeredConfig

/-- The decimal `digits * 10 ^ exponent` with a sign. -/
structure Decimal where
  /-- Below zero, or minus zero. -/
  negative : Bool
  /-- All digits as one number. -/
  digits : Nat
  /-- The power of ten. -/
  exponent : Int

namespace Decimal

/-- The binary number nearest to a decimal. -/
def toBinary64 (d : Decimal) : Binary64 :=
  Binary64.ofDecimal d.negative d.digits d.exponent

/-- A sign at the front, if there is one, and the rest. -/
def takeSign : List Char → Bool × List Char
  | '-' :: r => (true, r)
  | '+' :: r => (false, r)
  | cs => (false, cs)

/-- The exponent that an exponent part denotes; an absent part denotes zero. -/
def readExponent? : List Char → Option Int
  | [] => some 0
  | c :: r =>
    if c = 'e' ∨ c = 'E' then
      let (negative, digits) := takeSign r
      if digits.all Text.isDigit then
        (Text.ofDigits? 10 digits).map fun n ↦ if negative then -(n : Int) else n
      else none
    else none

/-- Reads a decimal that fills the whole text. -/
def read? (cs : List Char) : Option Decimal :=
  let (negative, body) := takeSign cs
  let whole := body.takeWhile Text.isDigit
  let afterWhole := body.dropWhile Text.isDigit
  let (fraction, rest) := match afterWhole with
    | '.' :: r => (r.takeWhile Text.isDigit, r.dropWhile Text.isDigit)
    | r => ([], r)
  match Text.ofDigits? 10 (whole ++ fraction), readExponent? rest with
  | some digits, some exponent => some ⟨negative, digits, exponent - fraction.length⟩
  | _, _ => none

end Decimal

end LayeredConfig
