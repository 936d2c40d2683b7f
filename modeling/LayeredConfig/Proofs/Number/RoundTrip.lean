import LayeredConfig.Number.Decimal
import LayeredConfig.Proofs.Number.Format
import LayeredConfig.Proofs.Number.Shortest
import Mathlib.Data.List.TakeWhile

/-!
# Numbers are read back

Whichever way a number is written, the text is read as a decimal that rounds to the number
(`NumberFormat.exists_read?_render`). The digits of a number are those of its shortest decimal, and
positional and scientific notation are two ways to put the point at the same place
(`readsAs_layPositional`, `readsAs_layScientific`).

A decimal rounds to one number, so different numbers are written differently, the two zeros
included (`NumberFormat.render_injective`). And the numbers of a document are written unlike
anything else that is not a text: a whole number has neither point nor exponent
(`signedNumeral_ne_render`).
-/

namespace LayeredConfig

namespace Decimal

variable {whole fraction rest : List Char} {exponent : Int}

/-- The value of a decimal, its sign apart. -/
def value (d : Decimal) : ℚ :=
  d.digits * 10 ^ d.exponent

/-- The rest of a text behind its digits does not begin with a digit. -/
def EndsDigits (rest : List Char) : Prop :=
  ∀ c ∈ rest.head?, Text.isDigit c = false

theorem takeWhile_isDigit_append (hwhole : ∀ c ∈ whole, Text.isDigit c = true)
    (hrest : EndsDigits rest) : (whole ++ rest).takeWhile Text.isDigit = whole ∧
      (whole ++ rest).dropWhile Text.isDigit = rest := by
  rw [List.takeWhile_append_of_pos hwhole, List.dropWhile_append_of_pos hwhole]
  cases rest with
  | nil => exact ⟨List.append_nil whole, rfl⟩
  | cons c r =>
    have hc : Text.isDigit c = false := hrest c rfl
    simp [hc]

/-- A text that begins with a digit has no sign. -/
theorem takeSign_append (hne : whole ≠ []) (hwhole : ∀ c ∈ whole, Text.isDigit c = true) :
    takeSign (whole ++ rest) = (false, whole ++ rest) := by
  obtain ⟨c, r, rfl⟩ := List.exists_cons_of_ne_nil hne
  have hc := hwhole c List.mem_cons_self
  unfold takeSign
  split
  · rename_i heq
    obtain rfl := (List.cons.inj heq).1
    cases hc
  · rename_i heq
    obtain rfl := (List.cons.inj heq).1
    cases hc
  · rfl

/-- Digits with a point among them. -/
theorem read?_point (hne : whole ≠ []) (hwhole : ∀ c ∈ whole, Text.isDigit c = true)
    (hfraction : ∀ c ∈ fraction, Text.isDigit c = true) (hrest : EndsDigits rest)
    (hexponent : readExponent? rest = some exponent) :
    read? (whole ++ '.' :: (fraction ++ rest)) =
      some ⟨false, Nat.ofDigitChars 10 (whole ++ fraction) 0, exponent - fraction.length⟩ := by
  have hpoint : EndsDigits ('.' :: (fraction ++ rest)) := by
    intro c hc
    obtain rfl := Option.some.inj hc
    rfl
  obtain ⟨hbefore, hafter⟩ := takeWhile_isDigit_append hwhole hpoint
  obtain ⟨hbefore', hafter'⟩ := takeWhile_isDigit_append hfraction hrest
  have hdigits : Text.ofDigits? 10 (whole ++ fraction) =
      some (Nat.ofDigitChars 10 (whole ++ fraction) 0) := by
    refine Text.ofDigits?_eq_some (by simp [hne]) fun c hc ↦ ?_
    exact (List.mem_append.1 hc).elim (hwhole c) (hfraction c)
  rw [read?, takeSign_append hne hwhole]
  simp only [hbefore, hafter, hbefore', hafter', hdigits, hexponent]

/-- Digits without a point. -/
theorem read?_plain (hne : whole ≠ []) (hwhole : ∀ c ∈ whole, Text.isDigit c = true)
    (hrest : EndsDigits rest) (hpoint : rest.head? ≠ some '.')
    (hexponent : readExponent? rest = some exponent) :
    read? (whole ++ rest) = some ⟨false, Nat.ofDigitChars 10 whole 0, exponent⟩ := by
  obtain ⟨hbefore, hafter⟩ := takeWhile_isDigit_append hwhole hrest
  have hdigits := Text.ofDigits?_eq_some hne hwhole
  rw [read?, takeSign_append hne hwhole]
  simp only [hbefore, hafter]
  cases rest with
  | nil => simp [hdigits, hexponent]
  | cons c r =>
    have hc : c ≠ '.' := fun h ↦ hpoint (by rw [h]; rfl)
    simp [hc, hdigits, hexponent]

/-- A minus sign in front changes the sign only. -/
theorem read?_minus (hne : whole ≠ []) (hwhole : ∀ c ∈ whole, Text.isDigit c = true) :
    read? ('-' :: (whole ++ rest)) =
      (read? (whole ++ rest)).map fun d ↦ ⟨true, d.digits, d.exponent⟩ := by
  rw [read?, read?, takeSign_append hne hwhole]
  simp only [takeSign]
  cases Text.ofDigits? 10 _ <;> cases readExponent? _ <;> rfl

/-- The text is read as the number, and with a minus sign in front as the number below zero. -/
def ReadsAs (text : List Char) (q : ℚ) : Prop :=
  ∀ negative : Bool, ∃ d, read? (if negative then '-' :: text else text) = some d ∧
    d.negative = negative ∧ d.value = q

theorem readsAs_of_read? {digits : Nat} {q : ℚ} (hne : whole ≠ [])
    (hwhole : ∀ c ∈ whole, Text.isDigit c = true)
    (h : read? (whole ++ rest) = some ⟨false, digits, exponent⟩)
    (hq : (digits : ℚ) * 10 ^ exponent = q) : ReadsAs (whole ++ rest) q := by
  intro negative
  cases negative with
  | false => exact ⟨_, h, rfl, hq⟩
  | true =>
    refine ⟨⟨true, digits, exponent⟩, ?_, rfl, hq⟩
    rw [if_pos rfl, read?_minus hne hwhole, h]
    rfl

theorem endsDigits_nil : EndsDigits [] :=
  fun _ h ↦ by cases h

end Decimal

namespace NumberFormat

variable {f : NumberFormat} {m : Magnitude} {ds : List Char} {p : Int}

/-- The number that the digits `d₁d₂…` denote as `0.d₁d₂… * 10 ^ p`. -/
def pointValue (ds : List Char) (p : Int) : ℚ :=
  Nat.ofDigitChars 10 ds 0 * 10 ^ (p - ds.length)

theorem isDigit_of_mem_replicate {c : Char} {n : Nat} (h : c ∈ List.replicate n '0') :
    Text.isDigit c = true := by
  rw [List.eq_of_mem_replicate h]
  rfl

/-- Zeros behind the digits shift them. -/
theorem pointValue_shift {k : Nat} {e : Int} (hp : p = ds.length + k + e) :
    pointValue ds p = Nat.ofDigitChars 10 (ds ++ List.replicate k '0') 0 * 10 ^ e := by
  have hexponent : p - ds.length = k + e := by omega
  rw [pointValue, hexponent, zpow_add₀ (by norm_num), zpow_natCast, Nat.ofDigitChars_append,
    Nat.ofDigitChars_replicate_zero]
  push_cast
  ring

theorem readsAs_layPositional (hne : ds ≠ []) (hds : ∀ c ∈ ds, Text.isDigit c = true) :
    Decimal.ReadsAs (f.layPositional ds p) (pointValue ds p) := by
  have hzero : ∀ c ∈ ['0'], Text.isDigit c = true := fun c hc ↦ List.mem_singleton.1 hc ▸ rfl
  rw [layPositional]
  split
  · rename_i hp
    have hfraction : ∀ c ∈ List.replicate (-p).toNat '0' ++ ds, Text.isDigit c = true :=
      fun c hc ↦ (List.mem_append.1 hc).elim isDigit_of_mem_replicate (hds c)
    have hread := Decimal.read?_point (List.cons_ne_nil _ _) hzero hfraction Decimal.endsDigits_nil
      rfl
    rw [List.append_nil] at hread
    refine Decimal.readsAs_of_read? (List.cons_ne_nil _ _) hzero hread ?_
    have hexponent : 0 - (((-p).toNat + ds.length : Nat) : Int) = p - ds.length := by omega
    rw [pointValue, List.length_append, List.length_replicate, List.singleton_append,
      Nat.ofDigitChars_cons, Nat.ofDigitChars_append, Nat.ofDigitChars_replicate_zero, hexponent]
    rfl
  · rename_i hp
    split
    · rename_i hlength
      have hk : p = ds.length + (p.toNat - ds.length : Nat) + 0 := by omega
      rw [pointValue_shift hk, zpow_zero, mul_one]
      generalize p.toNat - ds.length = k
      have hwhole : ∀ c ∈ ds ++ List.replicate k '0', Text.isDigit c = true :=
        fun c hc ↦ (List.mem_append.1 hc).elim (hds c) isDigit_of_mem_replicate
      have hne' : ds ++ List.replicate k '0' ≠ [] := List.append_ne_nil_of_left_ne_nil hne _
      split
      · have hread := Decimal.read?_point hne' hwhole hzero Decimal.endsDigits_nil rfl
        refine Decimal.readsAs_of_read? hne' hwhole hread ?_
        have hlast : ∀ l : List Char, Nat.ofDigitChars 10 (l ++ ['0']) 0 =
            10 * Nat.ofDigitChars 10 l 0 := fun l ↦ by
          rw [Nat.ofDigitChars_append, Nat.ofDigitChars_cons, Nat.ofDigitChars_nil]
          rfl
        rw [hlast]
        push_cast
        norm_num
        ring
      · have hread := Decimal.read?_plain hne' hwhole Decimal.endsDigits_nil (by simp) rfl
        exact Decimal.readsAs_of_read? hne' hwhole hread (by rw [zpow_zero, mul_one])
    · rename_i hlength
      have hwhole : ∀ c ∈ ds.take p.toNat, Text.isDigit c = true :=
        fun c hc ↦ hds c (List.mem_of_mem_take hc)
      have hfraction : ∀ c ∈ ds.drop p.toNat, Text.isDigit c = true :=
        fun c hc ↦ hds c (List.mem_of_mem_drop hc)
      have hne' : ds.take p.toNat ≠ [] := by
        rw [Ne, List.take_eq_nil_iff, not_or]
        exact ⟨by omega, hne⟩
      have hread := Decimal.read?_point hne' hwhole hfraction Decimal.endsDigits_nil rfl
      rw [List.append_nil] at hread
      refine Decimal.readsAs_of_read? hne' hwhole hread ?_
      have hexponent : 0 - ((ds.drop p.toNat).length : Int) = p - ds.length := by
        rw [List.length_drop]
        omega
      rw [pointValue, List.take_append_drop, hexponent]

theorem readExponent?_signedNumeral (i : Int) :
    Decimal.readExponent? ('e' :: (Text.signedNumeral i).toList) = some i := by
  have hdigits : (Nat.toDigits 10 i.natAbs).all Text.isDigit = true :=
    List.all_eq_true.2 fun _ hc ↦ Text.isDigit_of_mem_toDigits hc
  rw [Decimal.readExponent?, if_pos (Or.inl rfl), Text.toList_signedNumeral]
  by_cases hi : i < 0
  · have habs : -(i.natAbs : Int) = i := by omega
    rw [if_pos hi]
    simp only [Decimal.takeSign, hdigits, if_true, Text.ofDigits?_toDigits]
    exact congrArg some habs
  · have habs : (i.natAbs : Int) = i := by omega
    have hsign : Decimal.takeSign (Nat.toDigits 10 i.natAbs ++ []) =
        (false, Nat.toDigits 10 i.natAbs ++ []) :=
      Decimal.takeSign_append Nat.toDigits_ne_nil fun _ hc ↦ Text.isDigit_of_mem_toDigits hc
    rw [List.append_nil] at hsign
    rw [if_neg hi, hsign]
    simp only [hdigits, if_true, Text.ofDigits?_toDigits]
    exact congrArg some habs

theorem readsAs_layScientific (hne : ds ≠ []) (hds : ∀ c ∈ ds, Text.isDigit c = true) :
    Decimal.ReadsAs (layScientific ds p) (pointValue ds p) := by
  have hexponent := readExponent?_signedNumeral (p - 1)
  have hends : Decimal.EndsDigits ('e' :: (Text.signedNumeral (p - 1)).toList) := fun c hc ↦ by
    obtain rfl := Option.some.inj hc
    rfl
  match ds with
  | [] => exact absurd rfl hne
  | [d] =>
    have hread := Decimal.read?_plain hne hds hends (by simp) hexponent
    exact Decimal.readsAs_of_read? hne hds hread rfl
  | d :: d' :: r =>
    have hwhole : ∀ c ∈ [d], Text.isDigit c = true :=
      fun c hc ↦ hds c (List.mem_singleton.1 hc ▸ List.mem_cons_self)
    have hfraction : ∀ c ∈ d' :: r, Text.isDigit c = true :=
      fun c hc ↦ hds c (List.mem_cons_of_mem _ hc)
    have hread := Decimal.read?_point (List.cons_ne_nil d []) hwhole hfraction hends hexponent
    have hvalue : (Nat.ofDigitChars 10 ([d] ++ d' :: r) 0 : ℚ) *
        10 ^ (p - 1 - (d' :: r).length) = pointValue (d :: d' :: r) p := by
      rw [pointValue, List.singleton_append]
      congr 2
      simp only [List.length_cons]
      omega
    have hlaid : layScientific (d :: d' :: r) p =
        [d] ++ '.' :: (d' :: r ++ 'e' :: (Text.signedNumeral (p - 1)).toList) := rfl
    rw [hlaid]
    exact Decimal.readsAs_of_read? (List.cons_ne_nil d []) hwhole hread hvalue

/-! ### The digits of a magnitude -/

/-- Only zeros are cut off at the end. -/
theorem exists_eq_append_replicate (cs : List Char) :
    ∃ k, cs = (cs.reverse.dropWhile (· = '0')).reverse ++ List.replicate k '0' := by
  refine ⟨(cs.reverse.takeWhile (· = '0')).length, ?_⟩
  have hzeros : cs.reverse.takeWhile (· = '0') =
      List.replicate (cs.reverse.takeWhile (· = '0')).length '0' :=
    List.eq_replicate_iff.2 ⟨rfl, fun c hc ↦ by simpa using List.mem_takeWhile_imp hc⟩
  have hreverse := congrArg List.reverse hzeros
  rw [List.reverse_replicate] at hreverse
  rw [← hreverse, ← List.reverse_append, List.takeWhile_append_dropWhile, List.reverse_reverse]

theorem digits_of_ne_zero (hm : m.significand ≠ 0) : f.digits m =
    (((Nat.toDigits 10 (m.shortest f.tie).1).reverse.dropWhile (· = '0')).reverse,
      (Nat.toDigits 10 (m.shortest f.tie).1).length + (m.shortest f.tie).2) := by
  rw [digits, if_neg hm]

/-- **The digits of a number round to it.** -/
theorem covers_pointValue_digits (f : NumberFormat) (m : Magnitude) :
    (f.digits m).1 ≠ [] ∧ m.Covers (pointValue (f.digits m).1 (f.digits m).2) := by
  by_cases hm : m.significand = 0
  · rw [digits, if_pos hm]
    have hvalue : pointValue ['0'] 1 = 0 := by
      rw [pointValue, Nat.ofDigitChars_cons, Nat.ofDigitChars_nil]
      exact zero_mul _
    exact ⟨List.cons_ne_nil _ _, hvalue ▸ Magnitude.covers_zero_iff.2 hm⟩
  · have hcovers := Magnitude.covers_shortest f.tie hm
    rw [digits_of_ne_zero hm]
    generalize m.shortest f.tie = hit at hcovers
    obtain ⟨c, e⟩ := hit
    obtain ⟨k, hk⟩ := exists_eq_append_replicate (Nat.toDigits 10 c)
    have hc := Nat.ofDigitChars_toDigits (b := 10) (n := c) (by decide) (by decide)
    have hlength := congrArg List.length hk
    rw [List.length_append, List.length_replicate] at hlength
    dsimp only at hcovers ⊢
    generalize ((Nat.toDigits 10 c).reverse.dropWhile (· = '0')).reverse = ds at hk hlength ⊢
    rw [hk] at hc
    have hvalue : pointValue ds ((Nat.toDigits 10 c).length + e) = c * 10 ^ e := by
      rw [pointValue_shift (k := k) (e := e) (by omega), hc]
    refine ⟨?_, hvalue ▸ hcovers⟩
    rintro rfl
    -- Without digits the decimal would be zero, which rounds to zero only.
    rw [List.nil_append, Nat.ofDigitChars_replicate_zero, Nat.mul_zero] at hc
    rw [← hc, Nat.cast_zero, zero_mul] at hcovers
    exact hm (Magnitude.covers_zero_iff.1 hcovers)

/-- **What is written for a number is read as a decimal that rounds to it**, in every format. -/
theorem exists_read?_render (f : NumberFormat) (negative : Bool) (m : Magnitude) :
    ∃ d, Decimal.read? (f.render (.finite negative m)).toList = some d ∧
      d.negative = negative ∧ m.Covers d.value := by
  obtain ⟨hne, hcovers⟩ := covers_pointValue_digits f m
  have hdigits : ∀ c ∈ (f.digits m).1, Text.isDigit c = true := fun _ ↦ isDigit_of_mem_digits
  have hreads : Decimal.ReadsAs (if f.isPositional (f.digits m).2
      then f.layPositional (f.digits m).1 (f.digits m).2
      else layScientific (f.digits m).1 (f.digits m).2)
      (pointValue (f.digits m).1 (f.digits m).2) := by
    split
    · exact readsAs_layPositional hne hdigits
    · exact readsAs_layScientific hne hdigits
  obtain ⟨d, hread, hnegative, hvalue⟩ := hreads negative
  refine ⟨d, ?_, hnegative, hvalue ▸ hcovers⟩
  rw [render, String.toList_ofList]
  exact hread

/-- The names of what is not finite are told apart, and none of them reads as a decimal. -/
structure NamesApart (f : NumberFormat) : Prop where
  /-- NaN is not written like a number. -/
  nan : Decimal.read? f.nan.toList = none
  /-- The positive infinity is not written like a number. -/
  infinity : Decimal.read? f.infinity.toList = none
  /-- The negative infinity is not written like a number. -/
  negativeInfinity : Decimal.read? f.negativeInfinity.toList = none
  /-- NaN is not written like an infinity. -/
  nan_ne : f.nan ≠ f.infinity ∧ f.nan ≠ f.negativeInfinity
  /-- The infinities are told apart. -/
  infinity_ne : f.infinity ≠ f.negativeInfinity

theorem namesApart_document : document.NamesApart :=
  ⟨rfl, rfl, rfl, by decide, by decide⟩

theorem read?_render_eq_none (hf : f.NamesApart) {x : Binary64} (hx : x.isFinite = false) :
    Decimal.read? (f.render x).toList = none := by
  cases x with
  | finite negative m => cases hx
  | infinite negative =>
    cases negative with
    | false => exact hf.infinity
    | true => exact hf.negativeInfinity
  | nan => exact hf.nan

/-- What is not finite is known by its name. -/
theorem eq_of_render_eq_of_not_isFinite (hf : f.NamesApart) {x y : Binary64}
    (hx : x.isFinite = false) (hy : y.isFinite = false) (h : f.render x = f.render y) : x = y := by
  cases x with
  | finite negative m => cases hx
  | infinite negative =>
    cases y with
    | finite negative m => cases hy
    | infinite negative' =>
      cases negative <;> cases negative'
      · rfl
      · exact absurd h hf.infinity_ne
      · exact absurd h hf.infinity_ne.symm
      · rfl
    | nan =>
      cases negative
      · exact absurd h hf.nan_ne.1.symm
      · exact absurd h hf.nan_ne.2.symm
  | nan =>
    cases y with
    | finite negative m => cases hy
    | infinite negative =>
      cases negative
      · exact absurd h hf.nan_ne.1
      · exact absurd h hf.nan_ne.2
    | nan => rfl

/-- **Different numbers are written differently.** -/
theorem render_injective (hf : f.NamesApart) : Function.Injective f.render := by
  intro x y h
  cases x with
  | finite negative m =>
    obtain ⟨d, hd, hnegative, hcovers⟩ := exists_read?_render f negative m
    cases y with
    | finite negative' n =>
      obtain ⟨d', hd', hnegative', hcovers'⟩ := exists_read?_render f negative' n
      obtain rfl : d = d' := Option.some.inj (hd.symm.trans (h ▸ hd'))
      rw [hcovers.unique hcovers', ← hnegative, ← hnegative']
    | infinite negative' | nan =>
      rw [h, read?_render_eq_none hf rfl] at hd
      cases hd
  | infinite negative | nan =>
    cases y with
    | finite negative' n =>
      obtain ⟨d', hd', -⟩ := exists_read?_render f negative' n
      rw [← h, read?_render_eq_none hf rfl] at hd'
      cases hd'
    | infinite negative' | nan => exact eq_of_render_eq_of_not_isFinite hf rfl rfl h

/-! ### Numbers in documents -/

theorem point_mem_layPositional (hpoint : f.wholePoint = true) (ds : List Char) (p : Int) :
    '.' ∈ f.layPositional ds p := by
  rw [layPositional, if_pos hpoint]
  split
  · exact List.mem_cons_of_mem _ List.mem_cons_self
  · split
    · exact List.mem_append_right _ List.mem_cons_self
    · exact List.mem_append_right _ List.mem_cons_self

theorem exponent_mem_layScientific (ds : List Char) (p : Int) : 'e' ∈ layScientific ds p :=
  List.mem_append_right _ List.mem_cons_self

/-- A number in a document has a point or an exponent, or it is a name with a point. -/
theorem exists_mem_render_document (x : Binary64) :
    ∃ c ∈ (document.render x).toList, c = '.' ∨ c = 'e' := by
  cases x with
  | nan => exact ⟨'.', by decide, Or.inl rfl⟩
  | infinite negative => cases negative <;> exact ⟨'.', by decide, Or.inl rfl⟩
  | finite negative m =>
    have hlaid : ∃ c ∈ (if document.isPositional (document.digits m).2
        then document.layPositional (document.digits m).1 (document.digits m).2
        else layScientific (document.digits m).1 (document.digits m).2), c = '.' ∨ c = 'e' := by
      split
      · exact ⟨'.', point_mem_layPositional rfl _ _, Or.inl rfl⟩
      · exact ⟨'e', exponent_mem_layScientific _ _, Or.inr rfl⟩
    obtain ⟨c, hc, hmark⟩ := hlaid
    refine ⟨c, ?_, hmark⟩
    rw [render, String.toList_ofList]
    cases negative
    · exact hc
    · exact List.mem_cons_of_mem _ hc

/-- No whole number is written like a number with a point. -/
theorem signedNumeral_ne_render (i : Int) (x : Binary64) :
    Text.signedNumeral i ≠ document.render x := by
  intro h
  obtain ⟨c, hc, hmark⟩ := exists_mem_render_document x
  rw [← h] at hc
  rcases hmark with rfl | rfl <;> rcases Text.mem_signedNumeral hc with hc | hc <;> cases hc

/-- A text that is no decimal and none of the names is not the text of a number. -/
theorem render_document_ne {s : String} (hread : Decimal.read? s.toList = none)
    (hname : s ≠ ".nan" ∧ s ≠ ".inf" ∧ s ≠ "-.inf") (x : Binary64) : document.render x ≠ s := by
  rintro rfl
  cases x with
  | nan => exact hname.1 rfl
  | infinite negative =>
    cases negative
    · exact hname.2.1 rfl
    · exact hname.2.2 rfl
  | finite negative m =>
    obtain ⟨d, hd, -⟩ := exists_read?_render document negative m
    rw [hread] at hd
    cases hd

end NumberFormat

end LayeredConfig
