import LayeredConfig.Number.Format
import LayeredConfig.Proofs.Text.Numeral

/-!
# What the text of a number holds

Whichever way a number is written, its text holds digits, a point, a minus sign and the letter `e`
only, or it is one of the names of what is not finite (`NumberFormat.mem_render`). So a text that
ends at a character of another kind can be read off again, and a text that is looked through for
such a character is not affected by the numbers in it.
-/

namespace LayeredConfig.NumberFormat

variable {f : NumberFormat} {m : Magnitude} {ds : List Char} {p : Int} {c : Char}

/-- The character is a digit, a point, a minus sign or the letter of an exponent. -/
def IsNumberChar (c : Char) : Prop :=
  Text.isDigit c = true ∨ c = '.' ∨ c = '-' ∨ c = 'e'

theorem isDigit_of_mem_digits (h : c ∈ (f.digits m).1) : Text.isDigit c = true := by
  rw [digits] at h
  split at h
  · obtain rfl := List.mem_singleton.1 h
    rfl
  · refine Text.isDigit_of_mem_toDigits (n := (m.shortest f.tie).1) ?_
    have hmem := (List.dropWhile_suffix _).subset (List.mem_reverse.1 h)
    exact List.mem_reverse.1 hmem

/-- A number that is laid out positionally holds its digits, zeros and at most one point. -/
theorem mem_layPositional (h : c ∈ f.layPositional ds p) : c ∈ ds ∨ c = '0' ∨ c = '.' := by
  rw [layPositional] at h
  split at h
  · simp only [List.mem_cons, List.mem_append, List.mem_replicate] at h
    tauto
  · split at h
    · simp only [List.mem_append, List.mem_replicate] at h
      split at h <;> simp at h <;> tauto
    · simp only [List.mem_cons, List.mem_append] at h
      rcases h with h | h | h
      · exact Or.inl (List.mem_of_mem_take h)
      · exact Or.inr (Or.inr h)
      · exact Or.inl (List.mem_of_mem_drop h)

/-- A number with an exponent holds its digits, a point, the letter of the exponent and the
exponent. -/
theorem mem_layScientific (h : c ∈ layScientific ds p) :
    c ∈ ds ∨ c = '.' ∨ c = 'e' ∨ c ∈ (Text.signedNumeral (p - 1)).toList := by
  rcases List.mem_append.1 h with h | h
  · match ds with
    | [] => cases h
    | [d] => exact Or.inl h
    | d :: d' :: r =>
      simp only [List.mem_cons] at h ⊢
      tauto
  · rcases List.mem_cons.1 h with h | h
    · exact Or.inr (Or.inr (Or.inl h))
    · exact Or.inr (Or.inr (Or.inr h))

theorem isNumberChar_of_mem_layPositional (h : c ∈ f.layPositional (f.digits m).1 p) :
    IsNumberChar c := by
  rcases mem_layPositional h with h | rfl | rfl
  · exact Or.inl (isDigit_of_mem_digits h)
  · exact Or.inl rfl
  · exact Or.inr (Or.inl rfl)

theorem isNumberChar_of_mem_layScientific (h : c ∈ layScientific (f.digits m).1 p) :
    IsNumberChar c := by
  rcases mem_layScientific h with h | rfl | rfl | h
  · exact Or.inl (isDigit_of_mem_digits h)
  · exact Or.inr (Or.inl rfl)
  · exact Or.inr (Or.inr (Or.inr rfl))
  · rcases Text.mem_signedNumeral h with rfl | h
    · exact Or.inr (Or.inr (Or.inl rfl))
    · exact Or.inl h

/-- **The characters of a number**: those of a numeral with a point or an exponent, and those of the
three names. -/
theorem mem_render {x : Binary64} (h : c ∈ (f.render x).toList) :
    IsNumberChar c ∨ c ∈ (f.nan ++ f.infinity ++ f.negativeInfinity).toList := by
  simp only [String.toList_append, List.mem_append]
  cases x with
  | nan => exact Or.inr (Or.inl (Or.inl h))
  | infinite negative =>
    cases negative with
    | true => exact Or.inr (Or.inr h)
    | false => exact Or.inr (Or.inl (Or.inr h))
  | finite negative m =>
    refine Or.inl ?_
    rw [render] at h
    dsimp only at h
    have hlaid : ∀ c ∈ (if f.isPositional (f.digits m).2
        then f.layPositional (f.digits m).1 (f.digits m).2
        else layScientific (f.digits m).1 (f.digits m).2), IsNumberChar c := by
      intro c hc
      split at hc
      · exact isNumberChar_of_mem_layPositional hc
      · exact isNumberChar_of_mem_layScientific hc
    rw [String.toList_ofList] at h
    split at h
    · rcases List.mem_cons.1 h with rfl | h
      · exact Or.inr (Or.inr (Or.inl rfl))
      · exact hlaid c h
    · exact hlaid c h

end LayeredConfig.NumberFormat
