import LayeredConfig.Text.Numeral
import Mathlib.Data.List.Induction

/-!
# Numerals and the numbers that they denote

Writing a number in base ten and reading it are inverse to each other, in both directions: the
digits of a number denote it (`ofDigits?_toDigits`), and a text of digits without a leading zero is
the numeral of the number that it denotes (`toDigits_ofDigitChars`). The second direction is what
makes a numeral canonical: the numeral of a whole number is the one text with the form of a decimal
that denotes it (`isDecimal_iff`).

Reading is compared with `Nat.ofDigitChars`, which computes a value for any characters; on digits
the two agree (`ofDigitsFrom?_eq_some`), and nothing but digits is read.
-/

namespace LayeredConfig.Text

/-! ### Digits -/

theorem isDigit_iff {c : Char} : isDigit c = true ↔ '0' ≤ c ∧ c ≤ '9' := by
  rw [isDigit, Bool.and_eq_true, decide_eq_true_eq, decide_eq_true_eq]

theorem isDigit_iff_toNat {c : Char} : isDigit c = true ↔ 48 ≤ c.toNat ∧ c.toNat ≤ 57 :=
  isDigit_iff.trans Iff.rfl

/-- Digits of base ten as core's class has them. -/
theorem isDigit_eq (c : Char) : isDigit c = c.isDigit := by
  rw [Bool.eq_iff_iff, isDigit_iff_toNat, Char.isDigit_iff_toNat]
  exact Iff.rfl

theorem isDigit_of_mem_toDigits {n : Nat} {c : Char} (h : c ∈ Nat.toDigits 10 n) :
    isDigit c = true := by
  rw [isDigit_eq]
  exact Nat.isDigit_of_mem_toDigits (by decide) (by decide) h

theorem digitValue?_of_isDigit {c : Char} (h : isDigit c = true) :
    digitValue? c = some (c.toNat - 48) := by
  rw [digitValue?, if_pos (isDigit_iff.1 h)]

/-- A digit is the one that is written for its value. -/
theorem digitChar_of_isDigit {c : Char} (h : isDigit c = true) :
    Nat.digitChar (c.toNat - 48) = c := by
  obtain ⟨hlo, hhi⟩ := isDigit_iff_toNat.1 h
  obtain ⟨d, hd⟩ : ∃ d, c.toNat = 48 + d := ⟨c.toNat - 48, by omega⟩
  have hlt : d < 10 := by omega
  have hc : c = Char.ofNat (48 + d) := by rw [← hd, Char.ofNat_toNat]
  rw [hd, Nat.add_sub_cancel_left, hc]
  match d, hlt with
  | 0, _ | 1, _ | 2, _ | 3, _ | 4, _ | 5, _ | 6, _ | 7, _ | 8, _ | 9, _ => rfl

/-! ### Reading -/

/-- Digits are read as their value. -/
theorem ofDigitsFrom?_eq_some {cs : List Char} (h : ∀ c ∈ cs, isDigit c = true) (acc : Nat) :
    ofDigitsFrom? 10 acc cs = some (Nat.ofDigitChars 10 cs acc) := by
  induction cs generalizing acc with
  | nil => rfl
  | cons c r ih =>
    have hc : isDigit c = true := h c List.mem_cons_self
    have hlt : c.toNat - 48 < 10 := by
      have := isDigit_iff_toNat.1 hc
      omega
    simp only [ofDigitsFrom?, digitValue?_of_isDigit hc, if_pos hlt]
    rw [Nat.ofDigitChars_cons, ih fun c' hc' ↦ h c' (List.mem_cons_of_mem _ hc')]
    rfl

theorem ofDigits?_eq_some {cs : List Char} (hne : cs ≠ []) (h : ∀ c ∈ cs, isDigit c = true) :
    ofDigits? 10 cs = some (Nat.ofDigitChars 10 cs 0) := by
  rw [ofDigits?, List.isEmpty_eq_false_iff.2 hne]
  exact ofDigitsFrom?_eq_some h 0

/-- **The digits of a number denote it.** -/
theorem ofDigits?_toDigits (n : Nat) : ofDigits? 10 (Nat.toDigits 10 n) = some n := by
  rw [ofDigits?_eq_some Nat.toDigits_ne_nil fun _ hc ↦ isDigit_of_mem_toDigits hc,
    Nat.ofDigitChars_toDigits (by decide) (by decide)]

/-! ### Canonical digits -/

/-- Only zero is written as a lone zero. -/
theorem eq_zero_of_toDigits {n : Nat} (h : Nat.toDigits 10 n = ['0']) : n = 0 := by
  have hn := ofDigits?_toDigits n
  rw [h] at hn
  exact (Option.some.inj hn).symm

/-- **Digits without a leading zero are the numeral of their value.** -/
theorem toDigits_ofDigitChars {cs : List Char} (hdigits : ∀ c ∈ cs, isDigit c = true)
    (hne : cs ≠ []) (hlead : cs = ['0'] ∨ cs.head? ≠ some '0') :
    Nat.toDigits 10 (Nat.ofDigitChars 10 cs 0) = cs := by
  -- The last digit is the remainder, so the induction takes digits off the end.
  induction cs using List.reverseRecOn with
  | nil => exact absurd rfl hne
  | append_singleton r c ih =>
    have hc : isDigit c = true := hdigits c (by simp)
    have hlt : c.toNat - 48 < 10 := by
      have := isDigit_iff_toNat.1 hc
      omega
    have hlast : Nat.toDigits 10 (c.toNat - 48) = [c] := by
      rw [Nat.toDigits_eq_if (by decide), if_pos hlt, digitChar_of_isDigit hc]
    by_cases hr : r = []
    · subst hr
      simpa [Nat.ofDigitChars_cons] using hlast
    · have hhead : (r ++ [c]).head? = r.head? := by
        rw [List.head?_append, Option.or_of_isSome (List.isSome_head?.2 hr)]
      have hlead' : r.head? ≠ some '0' := by
        rcases hlead with h | h
        · have hlength := congrArg List.length h
          have := List.length_pos_iff.2 hr
          simp only [List.length_append, List.length_singleton] at hlength
          omega
        · rwa [hhead] at h
      have hvalue := ih (fun c' hc' ↦ hdigits c' (List.mem_append_left _ hc')) hr (Or.inr hlead')
      -- A value of zero would have been written as a zero.
      have hpos : 0 < Nat.ofDigitChars 10 r 0 := by
        refine Nat.pos_of_ne_zero fun hzero ↦ hlead' ?_
        rw [← hvalue, hzero]
        rfl
      rw [Nat.ofDigitChars_append, Nat.ofDigitChars_cons, Nat.ofDigitChars_nil]
      change Nat.toDigits 10 (10 * Nat.ofDigitChars 10 r 0 + (c.toNat - 48)) = _
      rw [← Nat.toDigits_append_toDigits (by decide) hpos hlt, hvalue, hlast]

/-- A number of more than one digit has no leading zero. -/
theorem toDigits_eq_or_head? (n : Nat) :
    Nat.toDigits 10 n = ['0'] ∨ (Nat.toDigits 10 n).head? ≠ some '0' := by
  induction n using Nat.strongRecOn with
  | ind n ih =>
    rw [Nat.toDigits_eq_if (by decide)]
    split
    · rename_i hlt
      by_cases hzero : n = 0
      · exact Or.inl (by rw [hzero]; rfl)
      · refine Or.inr ?_
        simpa [Nat.digitChar_eq_zero] using hzero
    · rename_i hge
      refine Or.inr ?_
      rw [List.head?_append, Option.or_of_isSome (List.isSome_head?.2 Nat.toDigits_ne_nil)]
      rcases ih (n / 10) (by omega) with h | h
      · have := eq_zero_of_toDigits h
        omega
      · exact h

/-! ### Whole numbers with a sign -/

theorem toList_numeral (n : Nat) : (numeral n).toList = Nat.toDigits 10 n := by
  simp [numeral]

theorem toList_signedNumeral (i : Int) : (signedNumeral i).toList =
    if i < 0 then '-' :: Nat.toDigits 10 i.natAbs else Nat.toDigits 10 i.natAbs := by
  rw [signedNumeral]
  split <;> simp [toList_numeral]

/-- A numeral holds nothing but digits and a sign. -/
theorem mem_signedNumeral {i : Int} {c : Char} (h : c ∈ (signedNumeral i).toList) :
    c = '-' ∨ isDigit c = true := by
  rw [toList_signedNumeral] at h
  split at h
  · rcases List.mem_cons.1 h with rfl | h
    · exact Or.inl rfl
    · exact Or.inr (isDigit_of_mem_toDigits h)
  · exact Or.inr (isDigit_of_mem_toDigits h)

/-! ### Splitting the sign off -/

/-- The sign of a numeral and the characters behind it. -/
def splitSign : List Char → Bool × List Char
  | '-' :: r => (true, r)
  | cs => (false, cs)

/-- The number with a sign. -/
def withSign (negative : Bool) (n : Nat) : Int :=
  if negative then -(n : Int) else n

/-- The sign and the characters behind it are all of a numeral. -/
theorem eq_of_splitSign {cs digits : List Char} {negative : Bool}
    (h : splitSign cs = (negative, digits)) :
    cs = if negative then '-' :: digits else digits := by
  unfold splitSign at h
  split at h <;>
    · obtain ⟨rfl, rfl⟩ := Prod.mk.inj h
      rfl

theorem splitSign_signedNumeral (i : Int) : splitSign (signedNumeral i).toList =
    (decide (i < 0), Nat.toDigits 10 i.natAbs) := by
  rw [toList_signedNumeral]
  split
  · rename_i hi
    rw [decide_eq_true hi]
    rfl
  · rename_i hi
    have hsign : ∀ r, Nat.toDigits 10 i.natAbs ≠ '-' :: r := by
      intro r hr
      have hmem : '-' ∈ Nat.toDigits 10 i.natAbs := hr ▸ List.mem_cons_self
      cases isDigit_of_mem_toDigits hmem
    rw [splitSign.eq_2 _ hsign, decide_eq_false hi]

theorem withSign_natAbs (i : Int) : withSign (decide (i < 0)) i.natAbs = i := by
  by_cases hi : i < 0
  · have habs : -(i.natAbs : Int) = i := by omega
    rw [decide_eq_true hi, withSign, if_pos rfl, habs]
  · have habs : (i.natAbs : Int) = i := by omega
    rw [decide_eq_false hi, withSign, if_neg (by decide), habs]

/-- Minus zero is the numeral of no number. -/
theorem signedNumeral_ne (i : Int) : signedNumeral i ≠ "-0" := by
  intro h
  have hsplit := splitSign_signedNumeral i
  rw [h] at hsplit
  obtain ⟨hnegative, hdigits⟩ := Prod.mk.inj (hsplit : (true, ['0']) = _)
  have hzero := eq_zero_of_toDigits hdigits.symm
  have : i < 0 := of_decide_eq_true hnegative.symm
  omega

/-- A number with the sign that was split off has the text as its numeral. -/
theorem eq_signedNumeral_withSign {s : String} {n : Nat} {negative : Bool}
    (h : splitSign s.toList = (negative, Nat.toDigits 10 n)) (hs : s ≠ "-0") :
    s = signedNumeral (withSign negative n) := by
  have hlist := eq_of_splitSign h
  rw [← String.toList_inj, toList_signedNumeral]
  cases negative with
  | false =>
    have hn : ¬withSign false n < 0 := Int.not_lt.2 (Int.natCast_nonneg n)
    rw [if_neg hn]
    exact hlist
  | true =>
    have hzero : n ≠ 0 := by
      rintro rfl
      exact hs (String.toList_inj.1 hlist)
    have hn : withSign true n < 0 := by
      change -(n : Int) < 0
      omega
    have habs : (withSign true n).natAbs = n := Int.natAbs_neg n
    rw [if_pos hn, habs]
    exact hlist

/-! ### The form of a decimal -/

/-- The characters are the decimal digits of a natural number: digits of ASCII, the first of which
is no zero unless it is the only one. -/
structure IsDigitsOf (digits : List Char) (n : Nat) : Prop where
  /-- There is a digit. -/
  ne_nil : digits ≠ []
  /-- Every character is a digit of ASCII. -/
  ascii : ∀ c ∈ digits, '0' ≤ c ∧ c ≤ '9'
  /-- There is no leading zero. -/
  lead : digits = ['0'] ∨ digits.head? ≠ some '0'
  /-- Digit by digit they denote the number. -/
  value : Nat.ofDigitChars 10 digits 0 = n

/-- The text is the decimal of a whole number: the digits of its absolute value, behind a minus sign
exactly if it is negative. -/
def IsDecimal (s : String) (i : Int) : Prop :=
  ∃ digits, IsDigitsOf digits i.natAbs ∧ s.toList = if i < 0 then '-' :: digits else digits

theorem isDigitsOf_iff {digits : List Char} {n : Nat} :
    IsDigitsOf digits n ↔ Nat.toDigits 10 n = digits := by
  constructor
  · rintro ⟨hne, hascii, hlead, rfl⟩
    exact toDigits_ofDigitChars (fun c hc ↦ isDigit_iff.2 (hascii c hc)) hne hlead
  · rintro rfl
    exact ⟨Nat.toDigits_ne_nil, fun c hc ↦ isDigit_iff.1 (isDigit_of_mem_toDigits hc),
      toDigits_eq_or_head? n, Nat.ofDigitChars_toDigits (by decide) (by decide)⟩

/-- **The numeral of a whole number is its only decimal.** -/
theorem isDecimal_iff {s : String} {i : Int} : IsDecimal s i ↔ s = signedNumeral i := by
  rw [← String.toList_inj, toList_signedNumeral]
  constructor
  · rintro ⟨digits, hdigits, hs⟩
    rw [isDigitsOf_iff.1 hdigits]
    exact hs
  · exact fun hs ↦ ⟨_, isDigitsOf_iff.2 rfl, hs⟩

/-! ### Reading whole numbers -/

/-- The number that digits denote, with a minus sign before them if it is negative. -/
def integer? (cs : List Char) : Option Int :=
  (ofDigits? 10 (splitSign cs).2).map (withSign (splitSign cs).1)

/-- **The numeral of a whole number denotes it.** -/
theorem integer?_signedNumeral (i : Int) : integer? (signedNumeral i).toList = some i := by
  rw [integer?, splitSign_signedNumeral, ofDigits?_toDigits, Option.map_some, withSign_natAbs]

end LayeredConfig.Text
