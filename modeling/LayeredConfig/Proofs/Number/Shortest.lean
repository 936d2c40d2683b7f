import LayeredConfig.Number.Shortest
import Mathlib.Data.Rat.Cast.Order
import Mathlib.Algebra.Order.Field.Power
import Mathlib.Tactic.Ring
import Mathlib.Tactic.Positivity
import Mathlib.Tactic.Linarith

/-!
# The shortest decimal rounds to its number

Each magnitude has an interval of numbers that round to it (`Magnitude.Covers`). The intervals of
two magnitudes are apart, or they meet at an end that belongs to at most one of them, since of two
neighbours one has an odd significand (`high_le_low`). So a number rounds to one magnitude only
(`Covers.unique`).

The search for the shortest decimal finds one in the interval (`covers_shortest`). Each grid offers
nothing else (`covers_of_onGrid?`), and the grid of seventeen digits offers something, since its
step is less than the interval is wide (`gridStep_lt`): a unit in the seventeenth place is less than
`10 ^ -16` of the number, and the interval is at least three quarters of the distance to the next
number wide, which is more.

Ends of intervals are natural numbers in quarters of the unit `2 ^ -1074`, and a grid point is
compared with them after clearing denominators. The two constants of that scale are irreducible,
because nothing here depends on their digits.
-/

namespace LayeredConfig.Magnitude

variable {m n : Magnitude} {q : ℚ}

/-! ### The interval of a magnitude -/

/-- The number of quarters of a unit in one. -/
@[irreducible]
def quarters : Nat :=
  Nat.pow 2 1076

/-- The number rounds to `m`: it lies in the interval, to which the ends belong if the significand
is even. -/
def Covers (m : Magnitude) (q : ℚ) : Prop :=
  (m.interval.1 : ℚ) ≤ q * quarters ∧ q * quarters ≤ m.interval.2.2 ∧
    (m.significand % 2 = 0 ∨
      (m.interval.1 : ℚ) ≠ q * quarters ∧ q * quarters ≠ m.interval.2.2)

theorem high_eq (m : Magnitude) : m.interval.2.2 = (4 * m.significand + 2) * 2 ^ m.shift := by
  change 4 * (m.significand * 2 ^ m.shift) + 2 * 2 ^ m.shift = _
  ring

/-- How far below the number its interval begins, in quarters of its unit. -/
def lowGap (m : Magnitude) : Nat :=
  if m.significand = Nat.pow 2 52 ∧ m.shift ≠ 0 then 1 else 2

theorem low_add (hm : m.significand ≠ 0) :
    m.interval.1 + m.lowGap * 2 ^ m.shift = 4 * m.significand * 2 ^ m.shift := by
  have hgap : m.lowGap ≤ 4 * m.significand := by
    rw [lowGap]
    split <;> omega
  have hlow : m.interval.1 = 4 * m.significand * 2 ^ m.shift - m.lowGap * 2 ^ m.shift := by
    rw [lowGap, ite_mul, one_mul, mul_assoc]
    rfl
  rw [hlow, Nat.sub_add_cancel (Nat.mul_le_mul_right _ hgap)]

theorem lowGap_le (m : Magnitude) : m.lowGap ≤ 2 := by
  rw [lowGap]
  split <;> omega

theorem lowGap_pos (m : Magnitude) : 0 < m.lowGap := by
  rw [lowGap]
  split <;> omega

/-- A magnitude that is not less is not shifted less. -/
theorem shift_le_of_units_le (h : m.units ≤ n.units) : m.shift ≤ n.shift := by
  refine Nat.le_of_not_lt fun hshift ↦ absurd h (Nat.not_le.2 ?_)
  have hm : Nat.pow 2 52 ≤ m.significand := m.canonical.2.1.resolve_left (by omega)
  have hpow : 2 * 2 ^ n.shift ≤ 2 ^ m.shift := by
    rw [← Nat.pow_succ']
    exact Nat.pow_le_pow_right Nat.two_pos hshift
  calc n.significand * 2 ^ n.shift
      < (Nat.pow 2 52 * 2) * 2 ^ n.shift :=
        Nat.mul_lt_mul_of_pos_right n.canonical.1 (Nat.two_pow_pos _)
    _ = Nat.pow 2 52 * (2 * 2 ^ n.shift) := Nat.mul_assoc ..
    _ ≤ m.significand * 2 ^ m.shift := Nat.mul_le_mul hm hpow

/-- Magnitudes of one value are one. -/
theorem units_injective : Function.Injective units := by
  intro m n h
  have hshift : m.shift = n.shift :=
    Nat.le_antisymm (shift_le_of_units_le h.le) (shift_le_of_units_le h.ge)
  have hsignificand : m.significand = n.significand := by
    rw [units, units, hshift] at h
    exact Nat.eq_of_mul_eq_mul_right (Nat.two_pow_pos _) h
  cases m
  cases n
  cases hshift
  cases hsignificand
  rfl

/-- **The intervals of two magnitudes are apart**, or they meet at an end that is not in both. -/
theorem high_le_low (h : m.units < n.units) : m.interval.2.2 ≤ n.interval.1 ∧
    (m.interval.2.2 = n.interval.1 → m.significand % 2 = 1 ∨ n.significand % 2 = 1) := by
  have hn : n.significand ≠ 0 := by
    intro hzero
    rw [units, units, hzero, Nat.zero_mul] at h
    exact Nat.not_lt_zero _ h
  have hlow := low_add hn
  have hgap := n.lowGap_le
  obtain ⟨k, hk⟩ := Nat.exists_eq_add_of_le (shift_le_of_units_le h.le)
  have hpos : 0 < 2 ^ m.shift := Nat.two_pow_pos _
  -- Both ends in units of the lesser magnitude.
  have hends : 4 * m.significand + 2 + n.lowGap * 2 ^ k ≤ 4 * n.significand * 2 ^ k ∧
      (4 * m.significand + 2 + n.lowGap * 2 ^ k = 4 * n.significand * 2 ^ k →
        m.significand % 2 = 1 ∨ n.significand % 2 = 1) := by
    cases k with
    | zero =>
      have hlt : m.significand < n.significand := by
        rw [units, units, hk, Nat.add_zero] at h
        exact Nat.lt_of_mul_lt_mul_right h
      omega
    | succ k =>
      have hbound : m.significand < 9007199254740992 := m.canonical.1
      have hlead : 4503599627370496 ≤ n.significand := n.canonical.2.1.resolve_left (by omega)
      have hgap' : n.lowGap = 1 ∧ n.significand = 4503599627370496 ∨
          4503599627370496 < n.significand := by
        rw [lowGap]
        split
        · rename_i hpower
          exact Or.inl ⟨rfl, hpower.1⟩
        · rename_i hpower
          refine Or.inr (Nat.lt_of_le_of_ne hlead fun heq ↦ hpower ⟨heq.symm, ?_⟩)
          omega
      have htwo : 2 ≤ 2 ^ (k + 1) := by
        rw [Nat.pow_succ]
        exact Nat.le_mul_of_pos_left 2 (Nat.two_pow_pos k)
      have hmul := Nat.mul_le_mul_left (4 * n.significand - n.lowGap) htwo
      rw [Nat.sub_mul, Nat.sub_mul] at hmul
      generalize 2 ^ (k + 1) = r at *
      have hle : n.lowGap * r ≤ 4 * n.significand * r := Nat.mul_le_mul_right r (by omega)
      omega
  have hlow' : n.interval.1 + n.lowGap * 2 ^ k * 2 ^ m.shift =
      4 * n.significand * 2 ^ k * 2 ^ m.shift := by
    rw [hk, Nat.add_comm m.shift k, Nat.pow_add] at hlow
    rw [Nat.mul_assoc, hlow, Nat.mul_assoc (4 * n.significand)]
  have hhigh : m.interval.2.2 + n.lowGap * 2 ^ k * 2 ^ m.shift =
      (4 * m.significand + 2 + n.lowGap * 2 ^ k) * 2 ^ m.shift := by
    rw [high_eq, Nat.add_mul _ (n.lowGap * 2 ^ k)]
  constructor
  · have := Nat.mul_le_mul_right (2 ^ m.shift) hends.1
    omega
  · intro hmeet
    exact hends.2 (Nat.eq_of_mul_eq_mul_right hpos (by omega))

theorem Covers.not_units_lt (hm : m.Covers q) (hn : n.Covers q) : ¬m.units < n.units := by
  intro h
  obtain ⟨hle, hparity⟩ := high_le_low h
  obtain ⟨-, hmhigh, hmends⟩ := hm
  obtain ⟨hnlow, -, hnends⟩ := hn
  have hle' : (m.interval.2.2 : ℚ) ≤ n.interval.1 := by exact_mod_cast hle
  have hmeet : (m.interval.2.2 : ℚ) = n.interval.1 := le_antisymm hle' (hnlow.trans hmhigh)
  have hqm : q * quarters = m.interval.2.2 := le_antisymm hmhigh (hmeet.le.trans hnlow)
  have hqn : (n.interval.1 : ℚ) = q * quarters := hmeet.symm.trans hqm.symm
  rcases hparity (by exact_mod_cast hmeet) with hodd | hodd
  · exact (hmends.resolve_left (by omega)).2 hqm
  · exact (hnends.resolve_left (by omega)).1 hqn

/-- **A number rounds to one magnitude.** -/
theorem Covers.unique (hm : m.Covers q) (hn : n.Covers q) : m = n :=
  units_injective (Nat.le_antisymm (Nat.le_of_not_lt (hn.not_units_lt hm))
    (Nat.le_of_not_lt (hm.not_units_lt hn)))

/-- Zero rounds to zero only. -/
theorem covers_zero_iff : m.Covers 0 ↔ m.significand = 0 := by
  rw [Covers, zero_mul]
  constructor
  · rintro ⟨hlow, -, -⟩
    have hzero : m.interval.1 = 0 := Nat.le_zero.1 (by exact_mod_cast hlow)
    refine Decidable.byContradiction fun hm ↦ ?_
    have hends := low_add hm
    rw [hzero, Nat.zero_add] at hends
    have hgap := Nat.eq_of_mul_eq_mul_right (Nat.two_pow_pos m.shift) hends
    have := m.lowGap_le
    omega
  · intro hm
    have hlow : m.interval.1 = 0 := by
      change 4 * (m.significand * Nat.pow 2 m.shift) - _ = 0
      rw [hm, Nat.zero_mul, Nat.mul_zero, Nat.zero_sub]
    rw [hlow, hm]
    exact ⟨le_refl _, Nat.cast_nonneg _, Or.inl rfl⟩

/-! ### Points of a grid -/

/-- The power of ten that clears the denominators on the grid of step `10 ^ e`. -/
def gridScale (e : Int) : Nat :=
  Nat.pow 10 (-e).toNat

/-- The step `10 ^ e` in quarters of a unit, with denominators cleared. -/
def gridStep (e : Int) : Nat :=
  quarters * Nat.pow 10 e.toNat

/-- The grid point `c * 10 ^ e` lies in the interval. -/
def isInside (m : Magnitude) (e : Int) (c : Nat) : Bool :=
  if m.significand % 2 = 0 then
    m.interval.1 * gridScale e ≤ c * gridStep e && c * gridStep e ≤ m.interval.2.2 * gridScale e
  else m.interval.1 * gridScale e < c * gridStep e && c * gridStep e < m.interval.2.2 * gridScale e

/-- The greatest grid point that is not above the number. -/
def gridFloor (m : Magnitude) (e : Int) : Nat :=
  m.interval.2.1 * gridScale e / gridStep e

theorem onGrid?_eq (m : Magnitude) (tie : Tie) (e : Int) : m.onGrid? tie e =
    if m.isInside e (m.gridFloor e) && m.isInside e (m.gridFloor e + 1) then
      if 2 * (m.interval.2.1 * gridScale e % gridStep e) < gridStep e then some (m.gridFloor e)
      else if gridStep e < 2 * (m.interval.2.1 * gridScale e % gridStep e) then
        some (m.gridFloor e + 1)
      else match tie with
        | .even => if m.gridFloor e % 2 = 0 then some (m.gridFloor e) else some (m.gridFloor e + 1)
        | .up => some (m.gridFloor e + 1)
    else if m.isInside e (m.gridFloor e) then some (m.gridFloor e)
    else if m.isInside e (m.gridFloor e + 1) then some (m.gridFloor e + 1)
    else none := by
  unfold onGrid? isInside gridFloor gridStep gridScale quarters
  rfl

theorem ten_zpow_mul_gridScale (e : Int) : (10 : ℚ) ^ e * gridScale e = 10 ^ e.toNat := by
  have hscale : (gridScale e : ℚ) = 10 ^ (-e).toNat := by
    rw [gridScale, Nat.pow_eq, Nat.cast_pow]
    rfl
  rw [hscale, ← zpow_natCast, ← zpow_natCast, ← zpow_add₀ (by norm_num)]
  congr 1
  omega

theorem gridScale_pos (e : Int) : 0 < gridScale e :=
  Nat.pow_pos (by norm_num)

/-- A grid point in quarters of a unit. -/
theorem grid_mul_gridScale (c : Nat) (e : Int) :
    (c * (10 : ℚ) ^ e) * quarters * gridScale e = (c * gridStep e : Nat) := by
  have hstep : ((gridStep e : Nat) : ℚ) = quarters * 10 ^ e.toNat := by
    rw [gridStep, Nat.pow_eq, Nat.cast_mul, Nat.cast_pow]
    rfl
  rw [Nat.cast_mul, hstep, ← ten_zpow_mul_gridScale]
  ring

/-- The test for a grid point is whether it rounds to the number. -/
theorem isInside_iff (m : Magnitude) (e : Int) (c : Nat) :
    m.isInside e c = true ↔ m.Covers (c * (10 : ℚ) ^ e) := by
  have hpos : (0 : ℚ) < gridScale e := by exact_mod_cast gridScale_pos e
  have hle : ∀ n : Nat, n * gridScale e ≤ c * gridStep e ↔
      (n : ℚ) ≤ c * (10 : ℚ) ^ e * quarters := fun n ↦ by
    rw [← mul_le_mul_iff_of_pos_right hpos, grid_mul_gridScale, ← Nat.cast_mul, Nat.cast_le]
  have hge : ∀ n : Nat, c * gridStep e ≤ n * gridScale e ↔
      c * (10 : ℚ) ^ e * quarters ≤ n := fun n ↦ by
    rw [← mul_le_mul_iff_of_pos_right hpos, grid_mul_gridScale, ← Nat.cast_mul, Nat.cast_le]
  rw [isInside, Covers]
  split
  · rename_i heven
    rw [Bool.and_eq_true, decide_eq_true_eq, decide_eq_true_eq, hle, hge,
      and_iff_left (Or.inl heven)]
  · rename_i hodd
    rw [Bool.and_eq_true, decide_eq_true_eq, decide_eq_true_eq, ← Nat.not_le, ← Nat.not_le, hle,
      hge, not_le, not_le, lt_iff_le_and_ne, lt_iff_le_and_ne, or_iff_right hodd]
    exact ⟨fun h ↦ ⟨h.1.1, h.2.1, h.1.2, h.2.2⟩, fun h ↦ ⟨⟨h.1, h.2.2.1⟩, h.2.1, h.2.2.2⟩⟩

/-- **What the grid offers rounds to the number.** -/
theorem covers_of_onGrid? {tie : Tie} {e : Int} {c : Nat} (h : m.onGrid? tie e = some c) :
    m.Covers (c * (10 : ℚ) ^ e) := by
  rw [← isInside_iff]
  rw [onGrid?_eq] at h
  split at h
  · rename_i hboth
    obtain ⟨hfloor, hnext⟩ := (Bool.and_eq_true _ _).mp hboth
    have hc : m.gridFloor e = c ∨ m.gridFloor e + 1 = c := by
      split at h
      · exact Or.inl (Option.some.inj h)
      · split at h
        · exact Or.inr (Option.some.inj h)
        · split at h
          · split at h
            · exact Or.inl (Option.some.inj h)
            · exact Or.inr (Option.some.inj h)
          · exact Or.inr (Option.some.inj h)
    rcases hc with rfl | rfl
    · exact hfloor
    · exact hnext
  · split at h
    · rename_i hfloor
      exact Option.some.inj h ▸ hfloor
    · split at h
      · rename_i hnext
        exact Option.some.inj h ▸ hnext
      · cases h

/-- What lies strictly between the ends lies in the interval. -/
theorem isInside_of_lt {e : Int} {c : Nat} (hlow : m.interval.1 * gridScale e < c * gridStep e)
    (hhigh : c * gridStep e < m.interval.2.2 * gridScale e) : m.isInside e c = true := by
  rw [isInside]
  split
  · simp [hlow.le, hhigh.le]
  · simp [hlow, hhigh]

theorem quarters_pos : 0 < quarters := by
  decide +kernel

theorem gridStep_pos (e : Int) : 0 < gridStep e :=
  Nat.mul_pos quarters_pos (Nat.pow_pos (by norm_num))

theorem exists_onGrid?_of_isInside {e : Int} (tie : Tie)
    (h : m.isInside e (m.gridFloor e) = true ∨ m.isInside e (m.gridFloor e + 1) = true) :
    ∃ c, m.onGrid? tie e = some c := by
  rw [onGrid?_eq]
  split
  · split
    · exact ⟨_, rfl⟩
    · split
      · exact ⟨_, rfl⟩
      · split
        · split <;> exact ⟨_, rfl⟩
        · exact ⟨_, rfl⟩
  · split
    · exact ⟨_, rfl⟩
    · rename_i hfloor
      rw [if_pos (h.resolve_left hfloor)]
      exact ⟨_, rfl⟩

/-- **A grid that is finer than the interval is wide has a point in it.** -/
theorem exists_onGrid? {e : Int} (tie : Tie) (hm : m.significand ≠ 0)
    (hfine : gridStep e < (m.lowGap + 2) * 2 ^ m.shift * gridScale e) :
    ∃ c, m.onGrid? tie e = some c := by
  have hpos : 0 < 2 ^ m.shift * gridScale e := Nat.mul_pos (Nat.two_pow_pos _) (gridScale_pos e)
  have hgap : 0 < m.lowGap * (2 ^ m.shift * gridScale e) := Nat.mul_pos m.lowGap_pos hpos
  have hvalue : m.interval.2.1 * gridScale e = 4 * m.significand * 2 ^ m.shift * gridScale e := by
    rw [Nat.mul_assoc 4]
    rfl
  have hlow := congrArg (· * gridScale e) (low_add hm)
  have hhigh := congrArg (· * gridScale e) (high_eq m)
  have hfloor : m.gridFloor e * gridStep e ≤ m.interval.2.1 * gridScale e := Nat.div_mul_le_self _ _
  have hnext : m.interval.2.1 * gridScale e < m.gridFloor e * gridStep e + gridStep e :=
    Nat.lt_div_mul_add (gridStep_pos e)
  -- One neighbour is above the lower end, or else the other one is below the upper end.
  refine exists_onGrid?_of_isInside tie ?_
  by_cases hbelow : m.interval.1 * gridScale e < m.gridFloor e * gridStep e
  · exact Or.inl (isInside_of_lt hbelow (by linarith))
  · exact Or.inr (isInside_of_lt (by linarith) (by linarith))

/-! ### Seventeen digits suffice -/

/-- The number of units in one. -/
@[irreducible]
def unitsInOne : Nat :=
  Nat.pow 2 1074

theorem quarters_eq : quarters = 4 * unitsInOne := by
  decide +kernel

theorem point_eq (m : Magnitude) : m.point =
    if m.units / unitsInOne ≠ 0 then ((Nat.toDigits 10 (m.units / unitsInOne)).length : Int)
    else ((List.range 400).find? fun k ↦ unitsInOne ≤ m.units * Nat.pow 10 k).elim 0
      fun k ↦ 1 - (k : Int) := by
  unfold point unitsInOne
  dsimp only
  split
  · rfl
  · split
    · rename_i k hk
      rw [hk, Option.elim_some]
    · rename_i hk
      rw [hk, Option.elim_none]

/-- A number that is not zero has at least as many units as its first digit tells. -/
theorem pow_length_toDigits_le {n : Nat} (hn : n ≠ 0) :
    10 ^ ((Nat.toDigits 10 n).length - 1) ≤ n := by
  by_cases hlength : (Nat.toDigits 10 n).length - 1 = 0
  · rw [hlength]
    exact Nat.pos_of_ne_zero hn
  · refine Nat.le_of_not_lt fun hlt ↦ ?_
    have := (Nat.length_toDigits_le_iff (by decide) (Nat.pos_of_ne_zero hlength)).2 hlt
    omega

/-- **The first digit stands where the point says**: the number is not below `10 ^ (p - 1)`. -/
theorem le_units (hm : m.significand ≠ 0) :
    (10 : ℚ) ^ (m.point - 1) * unitsInOne ≤ m.units := by
  rw [point_eq]
  split
  · rename_i hwhole
    have hlead := Nat.mul_le_of_le_div _ _ _ (pow_length_toDigits_le hwhole)
    have hpos : 0 < (Nat.toDigits 10 (m.units / unitsInOne)).length :=
      List.length_pos_iff.2 Nat.toDigits_ne_nil
    obtain ⟨k, hk⟩ := Nat.exists_eq_succ_of_ne_zero hpos.ne'
    rw [hk, Nat.succ_sub_one] at hlead
    rw [hk, Nat.succ_eq_add_one, Nat.cast_add_one, add_sub_cancel_right, zpow_natCast]
    exact_mod_cast hlead
  · cases hfind : (List.range 400).find? fun k ↦ unitsInOne ≤ m.units * Nat.pow 10 k with
    | some k =>
      have hk : unitsInOne ≤ m.units * Nat.pow 10 k := by
        simpa using List.find?_some hfind
      have hexponent : 1 - (k : Int) - 1 = -(k : Int) := by omega
      rw [Option.elim_some, hexponent, zpow_neg, zpow_natCast, inv_mul_le_iff₀ (by positivity)]
      have hk' : ((unitsInOne : Nat) : ℚ) ≤ (m.units * 10 ^ k : Nat) := Nat.cast_le.2 hk
      rw [Nat.cast_mul, Nat.cast_pow, mul_comm] at hk'
      exact hk'
    | none =>
      -- Four hundred places after the point are more than the smallest number needs.
      have hk := List.find?_eq_none.1 hfind 399 (List.mem_range.2 (by decide))
      have hpow : unitsInOne ≤ Nat.pow 10 399 := by decide +kernel
      have hunits : 0 < m.units :=
        Nat.mul_pos (Nat.pos_of_ne_zero hm) (Nat.two_pow_pos _)
      refine absurd (decide_eq_true ?_) hk
      exact hpow.trans (Nat.le_mul_of_pos_left _ hunits)

/-- At seventeen digits the grid is finer than the interval is wide. -/
theorem gridStep_lt (hm : m.significand ≠ 0) :
    gridStep (m.point - 17) < (m.lowGap + 2) * 2 ^ m.shift * gridScale (m.point - 17) := by
  have hpos : (0 : ℚ) < gridScale (m.point - 17) := by exact_mod_cast gridScale_pos _
  have hdigits : 4 * m.significand < (m.lowGap + 2) * 10 ^ 16 := by
    have hbound : m.significand < 9007199254740992 := m.canonical.1
    rw [lowGap]
    split
    · rename_i hpower
      have : m.significand = 4503599627370496 := hpower.1
      omega
    · omega
  have hpoint : (10 : ℚ) ^ (m.point - 17) * 10 ^ 16 = 10 ^ (m.point - 1) := by
    rw [← zpow_natCast, ← zpow_add₀ (by norm_num)]
    congr 1
    norm_num
    ring
  have hstep : (10 : ℚ) ^ (m.point - 17) * quarters < (m.lowGap + 2) * 2 ^ m.shift := by
    refine lt_of_mul_lt_mul_right ?_ (by positivity : (0 : ℚ) ≤ 10 ^ 16)
    calc (10 : ℚ) ^ (m.point - 17) * quarters * 10 ^ 16
        = 4 * (10 ^ (m.point - 1) * unitsInOne) := by
          rw [← hpoint, quarters_eq]
          push_cast
          ring
      _ ≤ 4 * m.units := by linarith [le_units hm]
      _ = 4 * m.significand * 2 ^ m.shift := by
          rw [units, Nat.pow_eq]
          push_cast
          ring
      _ < (m.lowGap + 2) * 10 ^ 16 * 2 ^ m.shift := by
          refine mul_lt_mul_of_pos_right ?_ (by positivity)
          exact_mod_cast hdigits
      _ = (m.lowGap + 2) * 2 ^ m.shift * 10 ^ 16 := by ring
  have hgrid := grid_mul_gridScale 1 (m.point - 17)
  rw [Nat.cast_one, one_mul, Nat.one_mul] at hgrid
  have hlt := mul_lt_mul_of_pos_right hstep hpos
  rw [hgrid] at hlt
  exact_mod_cast hlt

/-- **The shortest decimal of a number rounds to it.** -/
theorem covers_shortest (tie : Tie) (hm : m.significand ≠ 0) :
    m.Covers ((m.shortest tie).1 * (10 : ℚ) ^ (m.shortest tie).2) := by
  rw [shortest]
  cases hhit : (List.range 17).findSome? fun n : Nat ↦
      (m.onGrid? tie (m.point - (n + 1))).map fun c ↦ (c, m.point - (n + 1)) with
  | none =>
    obtain ⟨c, hc⟩ := exists_onGrid? tie hm (gridStep_lt hm)
    have hnone := List.findSome?_eq_none_iff.1 hhit 16 (List.mem_range.2 (by decide))
    have hlast : m.point - ((16 : Nat) + 1) = m.point - 17 := rfl
    rw [hlast, hc] at hnone
    cases hnone
  | some hit =>
    obtain ⟨n, -, hn⟩ := List.exists_of_findSome?_eq_some hhit
    obtain ⟨c, hc, rfl⟩ := Option.map_eq_some_iff.1 hn
    exact covers_of_onGrid? hc

end LayeredConfig.Magnitude
