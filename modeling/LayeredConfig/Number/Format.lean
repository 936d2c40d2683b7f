import LayeredConfig.Number.Shortest
import LayeredConfig.Text.Numeral

/-!
# How a number is written

A `NumberFormat` is the list of decisions that turn the shortest decimal of a number into text:
where positional notation ends, whether whole numbers keep a point, and the names of what is not
finite. `NumberFormat.render` carries them out. Every format of the library that writes numbers is
one such record; the digits themselves come from `Magnitude.shortest`.
-/

namespace LayeredConfig

/-- The decisions of one way to write numbers. -/
structure NumberFormat where
  /-- The range of decimal points `lo < p ≤ hi`, for a number `0.d₁d₂… * 10 ^ p`, that is written
  positionally; without a range every number is. -/
  positional : Option (Int × Int)
  /-- Whole numbers in positional notation end in `.0`. -/
  wholePoint : Bool
  /-- The choice between two equally near shortest decimals. -/
  tie : Tie
  /-- The name of NaN. -/
  nan : String
  /-- The name of the positive infinity. -/
  infinity : String
  /-- The name of the negative infinity. -/
  negativeInfinity : String

namespace NumberFormat

/-- The digits of a magnitude without zeros at the end, and the place of its decimal point. Zero is
written with one digit before the point. -/
def digits (f : NumberFormat) (m : Magnitude) : List Char × Int :=
  if m.significand = 0 then (['0'], 1)
  else
    let (c, e) := m.shortest f.tie
    let all := Nat.toDigits 10 c
    ((all.reverse.dropWhile (· = '0')).reverse, all.length + e)

/-- Whether a number with its point at `p` is written positionally. -/
def isPositional (f : NumberFormat) (p : Int) : Bool :=
  match f.positional with
  | none => true
  | some (lo, hi) => lo < p && p ≤ hi

/-- Digits with the point at place `p`, positionally. -/
def layPositional (f : NumberFormat) (ds : List Char) (p : Int) : List Char :=
  if p ≤ 0 then '0' :: '.' :: (List.replicate (-p).toNat '0' ++ ds)
  else if ds.length ≤ p.toNat then
    ds ++ List.replicate (p.toNat - ds.length) '0' ++ (if f.wholePoint then ['.', '0'] else [])
  else ds.take p.toNat ++ '.' :: ds.drop p.toNat

/-- Digits with the point at place `p`, as one digit, the others after a point, and an exponent. -/
def layScientific (ds : List Char) (p : Int) : List Char :=
  let mantissa := match ds with
    | d :: r@(_ :: _) => d :: '.' :: r
    | one => one
  mantissa ++ 'e' :: (Text.signedNumeral (p - 1)).toList

/-- The text of a number. -/
def render (f : NumberFormat) : Binary64 → String
  | .nan => f.nan
  | .infinite negative => if negative then f.negativeInfinity else f.infinity
  | .finite negative m =>
    let (ds, p) := f.digits m
    let laid := if f.isPositional p then f.layPositional ds p else layScientific ds p
    String.ofList (if negative then '-' :: laid else laid)

/-- Numbers as they appear in documents and in texts: the fewest digits, a point in every number,
and an exponent from `10 ^ 16` up and below `10 ^ -5`. -/
def document : NumberFormat :=
  ⟨some (-5, 16), true, .even, ".nan", ".inf", "-.inf"⟩

end NumberFormat

end LayeredConfig
