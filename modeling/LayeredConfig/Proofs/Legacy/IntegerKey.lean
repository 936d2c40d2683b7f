import LayeredConfig.Legacy.Encoding
import LayeredConfig.Proofs.Text.Numeral

/-!
# Keys that are written as integers

`integerKey?` looks at the characters of a key. What it finds has a description without characters:
the text is the numeral of an integer of 64 bits (`integerKey?_eq_some_iff`). Both directions are
needed of the encoding. A key that is written as an integer is still known by its text, and a key
that could be taken for an integer never stays a string. So an integer of 64 bits is written as an
integer key wherever it is a key of a mapping (`integerKey?_exact`).
-/

namespace LayeredConfig.Legacy

/-- The integers that fit in 64 bits with a sign. -/
def IsSigned64 (i : Int) : Prop :=
  -0x8000000000000000 ≤ i ∧ i < 0x8000000000000000

instance (i : Int) : Decidable (IsSigned64 i) :=
  inferInstanceAs (Decidable (_ ∧ _))

/-! ### Canonical digits -/

theorem isCanonicalDigits_iff {digits : List Char} : isCanonicalDigits digits = true ↔
    (digits ≠ [] ∧ ∀ c ∈ digits, Text.isDigit c = true) ∧
      (digits = ['0'] ∨ digits.head? ≠ some '0') := by
  simp [isCanonicalDigits]

theorem isCanonicalDigits_toDigits (n : Nat) : isCanonicalDigits (Nat.toDigits 10 n) = true :=
  isCanonicalDigits_iff.2 ⟨⟨Nat.toDigits_ne_nil, fun _ hc ↦ Text.isDigit_of_mem_toDigits hc⟩,
    Text.toDigits_eq_or_head? n⟩

/-- Canonical digits are the digits of the number that they denote. -/
theorem exists_of_isCanonicalDigits {digits : List Char} (h : isCanonicalDigits digits = true) :
    ∃ n, Text.ofDigits? 10 digits = some n ∧ Nat.toDigits 10 n = digits := by
  obtain ⟨⟨hne, hdigits⟩, hlead⟩ := isCanonicalDigits_iff.1 h
  exact ⟨_, Text.ofDigits?_eq_some hne hdigits, Text.toDigits_ofDigitChars hdigits hne hlead⟩

/-! ### Integer keys -/

theorem integerKey?_eq (key : String) : integerKey? key =
    if isCanonicalDigits (Text.splitSign key.toList).2 && key != "-0" then
      match Text.ofDigits? 10 (Text.splitSign key.toList).2 with
      | some n =>
        if IsSigned64 (Text.withSign (Text.splitSign key.toList).1 n) then
          some (Text.withSign (Text.splitSign key.toList).1 n)
        else none
      | none => none
    else none := by
  unfold integerKey? Text.splitSign
  rfl

/-- **A key is written as an integer exactly when it is the numeral of an integer of 64 bits.** -/
theorem integerKey?_eq_some_iff {key : String} {i : Int} :
    integerKey? key = some i ↔ IsSigned64 i ∧ key = Text.signedNumeral i := by
  constructor
  · intro h
    rw [integerKey?_eq] at h
    split at h
    · rename_i hcanonical
      rw [Bool.and_eq_true, bne_iff_ne] at hcanonical
      obtain ⟨n, hn, hdigits⟩ := exists_of_isCanonicalDigits hcanonical.1
      have hkey : key = Text.signedNumeral (Text.withSign (Text.splitSign key.toList).1 n) :=
        Text.eq_signedNumeral_withSign (by rw [hdigits]) hcanonical.2
      rw [hn] at h
      obtain ⟨hsigned, hi⟩ := Option.ite_none_right_eq_some.1 h
      obtain rfl := Option.some.inj hi
      exact ⟨hsigned, hkey⟩
    · cases h
  · rintro ⟨hsigned, rfl⟩
    have hcanonical : (isCanonicalDigits (Nat.toDigits 10 i.natAbs) &&
        Text.signedNumeral i != "-0") = true :=
      (Bool.and_eq_true _ _).mpr
        ⟨isCanonicalDigits_toDigits _, bne_iff_ne.2 (Text.signedNumeral_ne i)⟩
    rw [integerKey?_eq, Text.splitSign_signedNumeral]
    dsimp only
    rw [if_pos hcanonical, Text.ofDigits?_toDigits]
    dsimp only
    rw [Text.withSign_natAbs, if_pos hsigned]

/-! ### Keys of a mapping -/

/-- An integer of 64 bits is a key of its own kind. -/
theorem encodeKey_int {i : Int} (h : IsSigned64 i) : encodeKey (.int i) = encodeInt i := by
  have hkey : integerKey? (Value.int i).keyText = some i := integerKey?_eq_some_iff.2 ⟨h, rfl⟩
  rw [encodeKey, hkey]

theorem encodeEntries_append (before after : List (Value × Value)) :
    encodeEntries (before ++ after) = encodeEntries before ++ encodeEntries after := by
  induction before with
  | nil => exact String.empty_append.symm
  | cons e r ih =>
    rw [List.cons_append, encodeEntries, encodeEntries, ih, String.append_assoc,
      String.append_assoc, String.append_assoc]

/-- **Integer keys are exactly the canonical decimals of 64 bits.** So no two texts are the same
integer key, and every key of a mapping that is an integer of 64 bits is written as one, whatever
stands before and after it. -/
theorem integerKey?_exact :
    (∀ key i, integerKey? key = some i ↔ IsSigned64 i ∧ Text.IsDecimal key i) ∧
    (∀ key key' i, integerKey? key = some i → integerKey? key' = some i → key = key') ∧
    ∀ (before after : List (Value × Value)) (i : Int) (v : Value), IsSigned64 i →
      encode (.mapping (before ++ (.int i, v) :: after)) =
        encodeArray (before ++ (.int i, v) :: after).length
          (encodeEntries before ++ (encodeInt i ++ encode v ++ encodeEntries after)) := by
  refine ⟨fun key i ↦ ?_, fun key key' i h h' ↦ ?_, fun before after i v hsigned ↦ ?_⟩
  · rw [integerKey?_eq_some_iff, Text.isDecimal_iff]
  · rw [(integerKey?_eq_some_iff.1 h).2, (integerKey?_eq_some_iff.1 h').2]
  · rw [encode, encodeEntries_append, encodeEntries, encodeKey_int hsigned]

theorem integerKey?_exact_least :
    (integerKey? "-9223372036854775808" = some (-0x8000000000000000) ∧
      Text.IsDecimal "-9223372036854775808" (-0x8000000000000000)) ∧
    (∀ key, integerKey? key = some (-0x8000000000000000) → key = "-9223372036854775808") ∧
    encode (.mapping [(.string "host", .null), (.int (-0x8000000000000000), .bool true)]) =
      "a:2:\x7bs:4:\"host\";N;i:-9223372036854775808;b:1;\x7d" := by
  have hkey : integerKey? "-9223372036854775808" = some (-0x8000000000000000) := by
    decide
  obtain ⟨hexact, hinjective, hwritten⟩ := integerKey?_exact
  refine ⟨⟨hkey, ((hexact _ _).1 hkey).2⟩, fun key h ↦ hinjective _ _ _ h hkey, ?_⟩
  refine (hwritten [(.string "host", .null)] [] _ _ (by decide)).trans ?_
  decide

end LayeredConfig.Legacy
