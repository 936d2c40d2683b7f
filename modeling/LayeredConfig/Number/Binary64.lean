/-!
# Binary floating point numbers of 64 bits

The numbers of IEEE 754 `binary64` as exact data: a finite number is a sign and a magnitude, a
magnitude is a significand below `2 ^ 53` scaled by a power of two. All magnitudes are whole
multiples of one unit, `2 ^ -1074`, so comparing and rounding is arithmetic on natural numbers.

There is one NaN. The canonical form is a field of `Magnitude`, so that two magnitudes with the same
value are equal.
-/

namespace LayeredConfig

/-- A finite magnitude, `significand * 2 ^ shift` units of `2 ^ -1074`. The significand has 53 bits
unless the number is too small for that. -/
structure Magnitude where
  /-- The leading bits. -/
  significand : Nat
  /-- How many binary places the significand is shifted up. -/
  shift : Nat
  /-- One form per value, and none above the greatest finite number. -/
  canonical : significand < Nat.pow 2 53 ∧ (shift = 0 ∨ Nat.pow 2 52 ≤ significand) ∧ shift ≤ 2045
deriving DecidableEq

namespace Magnitude

/-- The value in units of `2 ^ -1074`. -/
def units (m : Magnitude) : Nat :=
  m.significand * Nat.pow 2 m.shift

/-- The magnitude of zero. -/
def zero : Magnitude :=
  ⟨0, 0, by decide⟩

/-- The quotient rounded to the nearest whole number, a half to the even neighbour. -/
def roundDiv (num den : Nat) : Nat :=
  let q := num / den
  let twice := 2 * (num % den)
  if twice < den then q
  else if den < twice then q + 1
  else if q % 2 = 0 then q else q + 1

/-- The magnitude nearest to `num / den`, of two equally near ones the one with the even
significand; `none` when that is above the greatest finite number. -/
def nearest? (num den : Nat) : Option Magnitude :=
  -- Rounding may carry into one more bit, which moves the significand up by one place.
  let scaled := num * Nat.pow 2 1074
  let shift := (scaled / den).log2 - 52
  let significand := roundDiv scaled (den * Nat.pow 2 shift)
  let carried :=
    if significand = Nat.pow 2 53 then (Nat.pow 2 52, shift + 1) else (significand, shift)
  if h : carried.1 < Nat.pow 2 53 ∧ (carried.2 = 0 ∨ Nat.pow 2 52 ≤ carried.1) ∧
      carried.2 ≤ 2045 then
    some ⟨carried.1, carried.2, h⟩
  else none

end Magnitude

/-- A number in `binary64`. -/
inductive Binary64 where
  /-- A finite number; zero has a sign too. -/
  | finite (negative : Bool) (magnitude : Magnitude)
  /-- One of the two infinities. -/
  | infinite (negative : Bool)
  /-- The value that is no number. -/
  | nan
deriving DecidableEq

namespace Binary64

/-- Neither an infinity nor NaN. -/
def isFinite : Binary64 → Bool
  | .finite .. => true
  | _ => false

/-- The number nearest to `digits * 10 ^ exponent`, with a sign of its own. Decimal exponents far
outside the range of the format are answered without computing the power. -/
def ofDecimal (negative : Bool) (digits : Nat) (exponent : Int) : Binary64 :=
  if digits = 0 then .finite negative .zero
  else
    let position := exponent + (Nat.toDigits 10 digits).length
    if position < -400 then .finite negative .zero
    else if 400 < position then .infinite negative
    else
      let nearest :=
        if 0 ≤ exponent then Magnitude.nearest? (digits * Nat.pow 10 exponent.toNat) 1
        else Magnitude.nearest? digits (Nat.pow 10 (-exponent).toNat)
      match nearest with
      | some m => .finite negative m
      | none => .infinite negative

/-- Equal as numbers: zero has one value whatever its sign, and NaN counts as equal to itself. -/
def same : Binary64 → Binary64 → Bool
  | .finite s m, .finite t n => m = n && (s = t || m.significand = 0)
  | .infinite s, .infinite t => s = t
  | .nan, .nan => true
  | _, _ => false

theorem same_self (x : Binary64) : x.same x = true := by
  cases x <;> simp [same]

theorem same_comm (x y : Binary64) : x.same y = y.same x := by
  cases x <;> cases y <;> simp only [same]
  · rename_i s m t n
    by_cases h : m = n
    · subst h; simp [eq_comm]
    · simp [h, Ne.symm h]
  · simp [eq_comm]

end Binary64

end LayeredConfig
