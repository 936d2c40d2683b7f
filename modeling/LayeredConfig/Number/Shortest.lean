import LayeredConfig.Number.Binary64

/-!
# The shortest decimal of a binary number

A finite number rounds from a whole interval of decimals. `Magnitude.shortest` finds the decimal in
that interval with the fewest digits, and of those the one nearest to the number.

The search is by grids. At `n` digits the decimals form a grid, and the only candidates are the two
grid points around the number: if any point of the grid lies in the interval, so does one of these.
The first `n` with a hit wins, and seventeen digits always suffice. The interval contains its ends
when the significand is even, since a decimal half way between two numbers is read as the even one.
-/

namespace LayeredConfig

/-- Which of two equally near decimals is taken. -/
inductive Tie where
  /-- The one whose last digit is even. -/
  | even
  /-- The greater one. -/
  | up
deriving DecidableEq

namespace Magnitude

/-- The lower and the upper end of the interval that rounds to `m`, and the number itself, in
quarters of a unit. Below a power of two the next number is half as far away as above it. -/
def interval (m : Magnitude) : Nat × Nat × Nat :=
  let ulp := Nat.pow 2 m.shift
  let low := if m.significand = Nat.pow 2 52 ∧ m.shift ≠ 0 then ulp else 2 * ulp
  (4 * m.units - low, 4 * m.units, 4 * m.units + 2 * ulp)

/-- The place of the decimal point: the `p` with `10 ^ (p - 1) ≤ m < 10 ^ p`, for `m` not zero. -/
def point (m : Magnitude) : Int :=
  let whole := m.units / Nat.pow 2 1074
  if whole ≠ 0 then (Nat.toDigits 10 whole).length
  else
    match (List.range 400).find? fun k ↦ Nat.pow 2 1074 ≤ m.units * Nat.pow 10 k with
    | some k => 1 - (k : Int)
    | none => 0

/-- The candidate on the grid of step `10 ^ exponent`, as a multiple of the step: a neighbour of
the number that lies in its interval, the nearer one if both do. -/
def onGrid? (m : Magnitude) (tie : Tie) (exponent : Int) : Option Nat :=
  let up := Nat.pow 10 (-exponent).toNat
  let step := Nat.pow 2 1076 * Nat.pow 10 exponent.toNat
  let (low, value, high) := m.interval
  let inside (c : Nat) : Bool :=
    if m.significand % 2 = 0 then low * up ≤ c * step && c * step ≤ high * up
    else low * up < c * step && c * step < high * up
  -- The neighbours are `c` and `c + 1` steps; `twice` tells which of them is nearer.
  let c := value * up / step
  let twice := 2 * (value * up % step)
  if inside c && inside (c + 1) then
    if twice < step then some c
    else if step < twice then some (c + 1)
    else match tie with
      | .even => if c % 2 = 0 then some c else some (c + 1)
      | .up => some (c + 1)
  else if inside c then some c
  else if inside (c + 1) then some (c + 1)
  else none

/-- The decimal `c * 10 ^ e` with the fewest digits that rounds to `m`. -/
def shortest (m : Magnitude) (tie : Tie) : Nat × Int :=
  let p := m.point
  let hit := (List.range 17).findSome? fun (n : Nat) ↦
    (m.onGrid? tie (p - (n + 1))).map fun c ↦ (c, p - (n + 1))
  hit.getD (0, 0)

end Magnitude

end LayeredConfig
