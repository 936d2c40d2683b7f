import LayeredConfig.Proofs.Number.RoundTrip
import LayeredConfig.Proofs.Value.Same
import LayeredConfig.Tree.Entries
import LayeredConfig.Value.KeyText
import LayeredConfig.Value.WellFormed
import Mathlib.Data.List.Nodup

/-!
# The spelling of keys

Keys of a mapping are told apart by their kinds, but named by their texts. Null, truth values and
numbers are each written in a way of their own, so no two of them share a text
(`Value.eq_of_keyText_eq`). A string may be written like any of them, and among scalars nothing else
happens: their keys are spelled apart exactly when no string among them is the text of another key
(`Tree.spelledApart_iff_of_scalars`). Where all keys are strings, they are always spelled apart
(`Tree.spelledApart_of_strings`).
-/

namespace LayeredConfig

namespace Value

variable {k k' : Value}

/-- Null, a truth value or a number, without a tag. -/
def IsPlain : Value → Prop
  | .null | .bool _ | .int _ | .float _ => True
  | _ => False

/-! ### Words and numbers -/

/-- A text that is not read as a number of either kind. -/
structure IsWord (s : String) : Prop where
  /-- It is no whole number. -/
  integer : Text.integer? s.toList = none
  /-- It is no decimal. -/
  decimal : Decimal.read? s.toList = none
  /-- It is no name of a number. -/
  name : s ≠ ".nan" ∧ s ≠ ".inf" ∧ s ≠ "-.inf"

theorem isWord_null : IsWord (keyText .null) :=
  ⟨rfl, rfl, by decide⟩

theorem isWord_bool (b : Bool) : IsWord (keyText (.bool b)) := by
  cases b <;> exact ⟨rfl, rfl, by decide⟩

theorem IsWord.ne_int {s : String} (h : IsWord s) (i : Int) : s ≠ keyText (.int i) := by
  intro hs
  have htext : s = Text.signedNumeral i := hs
  have hread := Text.integer?_signedNumeral i
  rw [← htext, h.integer] at hread
  cases hread

theorem IsWord.ne_float {s : String} (h : IsWord s) (x : Binary64) : s ≠ keyText (.float x) :=
  (NumberFormat.render_document_ne h.decimal h.name x).symm

theorem keyText_null_ne_bool (b : Bool) : keyText .null ≠ keyText (.bool b) := by
  cases b <;> decide

theorem keyText_bool_injective {b b' : Bool} (h : keyText (.bool b) = keyText (.bool b')) :
    b = b' := by
  revert h
  cases b <;> cases b' <;> decide

theorem keyText_int_injective {i j : Int} (h : keyText (.int i) = keyText (.int j)) : i = j := by
  have hi := Text.integer?_signedNumeral i
  have hj := Text.integer?_signedNumeral j
  have htext : Text.signedNumeral i = Text.signedNumeral j := h
  rw [htext, hj] at hi
  exact (Option.some.inj hi).symm

theorem keyText_float_injective {x y : Binary64} (h : keyText (.float x) = keyText (.float y)) :
    x = y :=
  NumberFormat.render_injective NumberFormat.namesApart_document h

/-- **Null, truth values and numbers are known by their texts.** -/
theorem eq_of_keyText_eq (hk : k.IsPlain) (hk' : k'.IsPlain) (h : k.keyText = k'.keyText) :
    k = k' := by
  match k, k' with
  | .null, .null => rfl
  | .null, .bool b => exact absurd h (keyText_null_ne_bool b)
  | .null, .int j => exact absurd h (isWord_null.ne_int j)
  | .null, .float y => exact absurd h (isWord_null.ne_float y)
  | .bool b, .null => exact absurd h.symm (keyText_null_ne_bool b)
  | .bool b, .bool b' => rw [keyText_bool_injective h]
  | .bool b, .int j => exact absurd h ((isWord_bool b).ne_int j)
  | .bool b, .float y => exact absurd h ((isWord_bool b).ne_float y)
  | .int i, .null => exact absurd h.symm (isWord_null.ne_int i)
  | .int i, .bool b => exact absurd h.symm ((isWord_bool b).ne_int i)
  | .int i, .int j => rw [keyText_int_injective h]
  | .int i, .float y => exact absurd h (NumberFormat.signedNumeral_ne_render i y)
  | .float x, .null => exact absurd h.symm (isWord_null.ne_float x)
  | .float x, .bool b => exact absurd h.symm ((isWord_bool b).ne_float x)
  | .float x, .int j => exact absurd h.symm (NumberFormat.signedNumeral_ne_render j x)
  | .float x, .float y => rw [keyText_float_injective h]

end Value

namespace Tree

variable {t : Tree}

/-- No two keys have the same text. -/
def SpelledApart (t : Tree) : Prop :=
  (t.keys.map Value.keyText).Nodup

instance (t : Tree) : Decidable t.SpelledApart :=
  inferInstanceAs (Decidable (List.Nodup _))

/-- Keys are spelled apart exactly when each is known by its text among the others. -/
theorem spelledApart_iff (ht : t.WellFormed) : t.SpelledApart ↔
    ∀ k ∈ t.keys, ∀ k' ∈ t.keys, k.keyText = k'.keyText → k = k' := by
  constructor
  · exact fun h k hk k' hk' htext ↦ List.inj_on_of_nodup_map h hk hk' htext
  · intro h
    have hdifferent : t.keys.Pairwise fun k k' ↦ k.same k' = false := List.pairwise_map.2 ht.1
    refine List.pairwise_map.2 (hdifferent.imp_of_mem fun {k k'} hk hk' hsame htext ↦ ?_)
    exact Value.ne_of_same_eq_false hsame (h k hk k' hk' htext)

/-- Strings are spelled as they are. -/
theorem spelledApart_of_strings (ht : t.WellFormed) (hstrings : ∀ k ∈ t.keys, ∃ s, k = .string s) :
    t.SpelledApart := by
  refine (spelledApart_iff ht).2 fun k hk k' hk' htext ↦ ?_
  obtain ⟨s, rfl⟩ := hstrings k hk
  obtain ⟨s', rfl⟩ := hstrings k' hk'
  exact congrArg Value.string htext

/-- All keys are strings, numbers, truth values or null, without a tag. -/
def HasScalarKeys (t : Tree) : Prop :=
  ∀ k ∈ t.keys, k.IsPlain ∨ ∃ s, k = .string s

/-- No string among the keys is the text of another key. -/
def StringsApart (t : Tree) : Prop :=
  ∀ s, .string s ∈ t.keys → ∀ k ∈ t.keys, k.keyText = s → k = .string s

/-- **Among scalars only strings are spelled like other keys.** -/
theorem spelledApart_iff_of_scalars (ht : t.WellFormed) (hscalars : t.HasScalarKeys) :
    t.SpelledApart ↔ t.StringsApart := by
  rw [spelledApart_iff ht]
  constructor
  · exact fun h s hs k hk htext ↦ h k hk (.string s) hs htext
  · intro h k hk k' hk' htext
    rcases hscalars k hk with hplain | ⟨s, rfl⟩
    · rcases hscalars k' hk' with hplain' | ⟨s', rfl⟩
      · exact Value.eq_of_keyText_eq hplain hplain' htext
      · exact h s' hk' k hk htext
    · exact (h s hk k' hk' htext.symm).symm

end Tree

end LayeredConfig
