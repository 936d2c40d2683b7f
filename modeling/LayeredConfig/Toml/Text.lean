import LayeredConfig.Text.Numeral
import LayeredConfig.Toml.Fault

/-!
# Blanks, comments and strings of TOML

Strings come in four forms: with escapes or without, on one line or on several. In a string of
several lines the break right behind its opening marks does not count, and a backslash at the end of
a line swallows all white space up to the next word. Up to two quotes may stand in front of the
closing three.
-/

namespace LayeredConfig.Toml

/-- A space or a tab. -/
def isBlank (c : Char) : Bool :=
  c = ' ' || c = '\t'

/-- A control character other than the tab. -/
def isControl (c : Char) : Bool :=
  (c.toNat < 0x20 && c ≠ '\t') || c.toNat = 0x7f

/-- The text behind its blanks. -/
def skipBlanks (cs : List Char) : List Char :=
  cs.dropWhile isBlank

/-- The text behind the line break that it begins with: a line feed, perhaps with a carriage return
before it. -/
def skipBreak? : List Char → Option (List Char)
  | '\n' :: r => some r
  | '\r' :: '\n' :: r => some r
  | _ => none

theorem length_lt_of_skipBreak? {cs r : List Char} (h : skipBreak? cs = some r) :
    r.length < cs.length := by
  unfold skipBreak? at h
  split at h
  · simp_all
  · simp only [Option.some.injEq] at h
    subst h
    simp only [List.length_cons]
    omega
  · simp at h

/-- The text behind the comment that it begins with, if it does. -/
def skipComment (cs : List Char) : List Char :=
  match cs with
  | '#' :: r => r.dropWhile (!isControl ·)
  | _ => cs

theorem length_skipBlanks_le (cs : List Char) : (skipBlanks cs).length ≤ cs.length :=
  (List.dropWhile_suffix _).length_le

theorem length_skipComment_le (cs : List Char) : (skipComment cs).length ≤ cs.length := by
  unfold skipComment
  split
  · exact Nat.le_trans (List.dropWhile_suffix _).length_le (by simp)
  · exact Nat.le_refl _

/-- The text behind all blanks, comments and line breaks. -/
def skipSpace (cs : List Char) : List Char :=
  match _h : skipBreak? (skipComment (skipBlanks cs)) with
  | some r => skipSpace r
  | none => skipComment (skipBlanks cs)
termination_by cs.length
decreasing_by
  exact Nat.lt_of_lt_of_le (length_lt_of_skipBreak? _h)
    (Nat.le_trans (length_skipComment_le _) (length_skipBlanks_le cs))

/-! ### Strings -/

/-- A text and what stands behind it. -/
abbrev Taken := Except Fault (String × List Char)

/-- The character that an escape stands for, read from behind its backslash, and how many
characters the escape takes up. -/
def escape? : List Char → Option (Char × Nat)
  | 'b' :: _ => some ('\x08', 1)
  | 't' :: _ => some ('\t', 1)
  | 'n' :: _ => some ('\n', 1)
  | 'f' :: _ => some ('\x0c', 1)
  | 'r' :: _ => some ('\r', 1)
  | 'e' :: _ => some ('\x1b', 1)
  | '"' :: _ => some ('"', 1)
  | '\\' :: _ => some ('\\', 1)
  | 'x' :: r => (Text.hexChar? 2 r).map (·, 3)
  | 'u' :: r => (Text.hexChar? 4 r).map (·, 5)
  | 'U' :: r => (Text.hexChar? 8 r).map (·, 9)
  | _ => none

/-- The rest of a string with escapes on one line, behind its opening quote. -/
def takeBasic (text : String) (cs : List Char) : Taken :=
  match cs with
  | [] => .error .badString
  | c :: r =>
    if c = '"' then .ok (text, r)
    else if c = '\\' then
      match escape? r with
      | some (d, n) => takeBasic (text.push d) (r.drop n)
      | none => .error .badString
    else if isControl c then .error .badString
    else takeBasic (text.push c) r
termination_by cs.length
decreasing_by
  · simp only [List.length_drop, List.length_cons]
    omega
  · simp

/-- The rest of a string without escapes on one line, behind its opening quote. -/
def takeLiteral (text : String) : List Char → Taken
  | [] => .error .badString
  | c :: r =>
    if c = '\'' then .ok (text, r)
    else if isControl c then .error .badString
    else takeLiteral (text.push c) r

/-- The text behind three closing quotes; one or two more quotes belong to the string. -/
def closeLines (quote : Char) (text : String) : List Char → String × List Char
  | a :: b :: r =>
    if a = quote ∧ b = quote then ((text.push quote).push quote, r)
    else if a = quote then (text.push quote, b :: r)
    else (text, a :: b :: r)
  | [a] => if a = quote then (text.push quote, []) else (text, [a])
  | [] => (text, [])

/-- The three closing quotes come next. -/
def atClosing (quote : Char) (cs : List Char) : Bool :=
  cs.take 3 = [quote, quote, quote]

/-- White space and line breaks. -/
def skipWhite (cs : List Char) : List Char :=
  match cs with
  | '\r' :: '\n' :: r => skipWhite r
  | c :: r => if isBlank c || c = '\n' then skipWhite r else cs
  | [] => []

theorem length_skipWhite_le (cs : List Char) : (skipWhite cs).length ≤ cs.length := by
  fun_induction skipWhite cs with
  | case1 r ih => simp only [List.length_cons]; omega
  | case2 c r _ _ ih => simp only [List.length_cons]; omega
  | case3 => exact Nat.le_refl _
  | case4 => exact Nat.le_refl _

/-- A break ends the line behind these blanks. -/
def endsLine (cs : List Char) : Bool :=
  (skipBreak? (skipBlanks cs)).isSome

/-- The rest of a string on several lines, behind its opening quotes. -/
def takeLines (quote : Char) (hasEscapes : Bool) (text : String) (cs : List Char) : Taken :=
  if atClosing quote cs then .ok (closeLines quote text (cs.drop 3))
  else match cs with
    | [] => .error .badString
    | '\r' :: '\n' :: r => takeLines quote hasEscapes ((text.push '\r').push '\n') r
    | c :: r =>
      if hasEscapes && c = '\\' then
        if endsLine r then
          takeLines quote hasEscapes text (skipWhite r)
        else match escape? r with
          | some (d, n) => takeLines quote hasEscapes (text.push d) (r.drop n)
          | none => .error .badString
      else if isControl c && c ≠ '\n' then .error .badString
      else takeLines quote hasEscapes (text.push c) r
termination_by cs.length
decreasing_by
  · simp only [List.length_cons]
    omega
  · have := length_skipWhite_le r
    simp only [List.length_cons]
    omega
  · simp only [List.length_drop, List.length_cons]
    omega
  · simp

/-- The text behind the line break that it may begin with. -/
def skipFirstBreak (cs : List Char) : List Char :=
  (skipBreak? cs).getD cs

/-- Reads a string on one line. The answer is absent when no quote comes next. -/
def takeQuoted? : List Char → Option Taken
  | '"' :: r => some (takeBasic "" r)
  | '\'' :: r => some (takeLiteral "" r)
  | _ => none

/-- Reads a string of any form. The answer is absent when no quote comes next. -/
def takeString? (cs : List Char) : Option Taken :=
  if atClosing '"' cs then some (takeLines '"' true "" (skipFirstBreak (cs.drop 3)))
  else if atClosing '\'' cs then some (takeLines '\'' false "" (skipFirstBreak (cs.drop 3)))
  else takeQuoted? cs

end LayeredConfig.Toml
