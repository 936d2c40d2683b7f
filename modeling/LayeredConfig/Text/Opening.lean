/-!
# What a text opens with

`after? word cs` is the rest of a text that opens with `word`. It exists exactly when the text does
open so (`after?_eq_some_iff`).
-/

namespace LayeredConfig.Text

/-- The characters behind `word` at the start of a text; `none` when the text opens otherwise. -/
def after? : (word cs : List Char) → Option (List Char)
  | [], cs => some cs
  | w :: word, c :: cs => if w = c then after? word cs else none
  | _ :: _, [] => none

theorem after?_eq_some_iff {word cs rest : List Char} :
    after? word cs = some rest ↔ cs = word ++ rest := by
  induction word generalizing cs with
  | nil => simp [after?]
  | cons w word ih =>
    cases cs with
    | nil => simp [after?]
    | cons c cs =>
      by_cases h : w = c
      · subst h; simp [after?, ih]
      · simp [after?, h, Ne.symm h]

end LayeredConfig.Text
