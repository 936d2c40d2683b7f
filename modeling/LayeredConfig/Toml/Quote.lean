import LayeredConfig.Text.Numeral

/-!
# How strings and keys are written in TOML

A string is written in the first of these forms that holds it without escapes: between quotation
marks, between apostrophes, between three quotation marks, between three apostrophes. If none does,
it is written with escapes, between three quotation marks if it has a line break. A string with a
line break begins on a line of its own.

A tab never decides about the form, but where there can be escapes it is written as one.
-/

namespace LayeredConfig.Toml

/-- The longest run of a character. -/
def longestRun (c : Char) (cs : List Char) : Nat :=
  (cs.foldl (fun (run, longest) d ↦
    let run := if d = c then run + 1 else 0
    (run, max longest run)) (0, 0)).2

/-- The text holds a control character other than a tab or a line feed. -/
def needsCodes (cs : List Char) : Bool :=
  cs.any fun c ↦ (c.toNat < 0x20 && c ≠ '\t' && c ≠ '\n') || c.toNat = 0x7f

/-- The escape of a character between quotation marks; `none` for a character that is written as
itself. -/
def quoteEscape? (multiline : Bool) (c : Char) : Option String :=
  match c with
  | '\x08' => some "\\b"
  | '\t' => some "\\t"
  | '\n' => if multiline then none else some "\\n"
  | '\x0c' => some "\\f"
  | '\r' => some "\\r"
  | '\\' => some "\\\\"
  | c =>
    if c.toNat < 0x20 || c.toNat = 0x7f then some ("\\u" ++ Text.hexNumeral 4 c.toNat) else none

/-- Characters between quotation marks. Of quotation marks side by side `most` may stand as they
are, and `run` of them come before. -/
def quoteChars (multiline : Bool) (most run : Nat) : List Char → String
  | [] => ""
  | c :: r =>
    if c = '"' then
      if run < most then "\"" ++ quoteChars multiline most (run + 1) r
      else "\\\"" ++ quoteChars multiline most 0 r
    else match quoteEscape? multiline c with
      | some escape => escape ++ quoteChars multiline most 0 r
      | none => c.toString ++ quoteChars multiline most 0 r

/-- Between quotation marks. -/
def basic (cs : List Char) : String :=
  "\"" ++ quoteChars false 0 0 cs ++ "\""

/-- The line break behind the opening marks of a string with line breaks. -/
def openingBreak (cs : List Char) : String :=
  if '\n' ∈ cs then "\n" else ""

/-- Between three quotation marks. -/
def basicLines (cs : List Char) : String :=
  "\"\"\"" ++ openingBreak cs ++ quoteChars true 2 0 cs ++ "\"\"\""

/-- Between apostrophes. -/
def literal (cs : List Char) : String :=
  "'" ++ String.ofList cs ++ "'"

/-- Between three apostrophes. -/
def literalLines (cs : List Char) : String :=
  "'''" ++ openingBreak cs ++ String.ofList cs ++ "'''"

/-- One line of text that quotation marks hold without escapes. -/
def fitsBasic (cs : List Char) : Bool :=
  !needsCodes cs && cs.all fun c ↦ c ≠ '\\' && c ≠ '"' && c ≠ '\n'

/-- One line of text that apostrophes hold. -/
def fitsLiteral (cs : List Char) : Bool :=
  !needsCodes cs && cs.all fun c ↦ c ≠ '\'' && c ≠ '\n'

/-- A string. -/
def writeString (s : String) : String :=
  let cs := s.toList
  if fitsBasic cs then basic cs
  else if fitsLiteral cs then literal cs
  else if !needsCodes cs && '\\' ∉ cs && longestRun '"' cs ≤ 2 then basicLines cs
  else if !needsCodes cs && longestRun '\'' cs ≤ 2 then literalLines cs
  else if '\n' ∈ cs then basicLines cs
  else basic cs

/-- A character of a key that stands without quotes. -/
def isBareChar (c : Char) : Bool :=
  Text.isDigit c || ('A' ≤ c && c ≤ 'Z') || ('a' ≤ c && c ≤ 'z') || c = '_' || c = '-'

/-- A part of a key. -/
def writeKey (s : String) : String :=
  let cs := s.toList
  if !cs.isEmpty && cs.all isBareChar then s
  else if fitsBasic cs then basic cs
  else if fitsLiteral cs then literal cs
  else basic cs

end LayeredConfig.Toml
