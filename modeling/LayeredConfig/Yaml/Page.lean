import LayeredConfig.Yaml.Style
import LayeredConfig.Text.Numeral

/-!
# The page a document is written on

A `Page` is the text written so far with the little that decides about blanks and line breaks before
the next word: the column, whether the last thing written was a blank or a break, and whether the
line so far holds nothing but indentation and item markers.

Indentation is counted from the left margin; `none` means that no collection is open yet, and is
written like zero.
-/

namespace LayeredConfig.Yaml

/-- What has been written, and the state of the current line. -/
structure Page where
  /-- Everything written so far. -/
  text : String := ""
  /-- The number of characters on the current line. -/
  column : Nat := 0
  /-- A blank or a break was written last, or nothing at all. -/
  afterBlank : Bool := true
  /-- The line holds indentation and item markers only. -/
  fresh : Bool := true

namespace Page

/-- Writes a text without line breaks, and leaves the other state alone. -/
def put (p : Page) (s : String) : Page :=
  { p with text := p.text ++ s, column := p.column + s.length }

/-- Writes a character that ends the line. -/
def breakWith (p : Page) (c : Char) : Page :=
  { p with text := p.text.push c, column := 0 }

/-- Ends the line. -/
def newline (p : Page) : Page :=
  p.breakWith '\n'

/-- Writes a blank unless one was written last. -/
def separate (p : Page) : Page :=
  if p.afterBlank then p else p.put " "

/-- Goes to a line that holds nothing but the given indentation, or stays on it. -/
def startLine (p : Page) (indent : Option Nat) : Page :=
  let n := indent.getD 0
  let p := if !p.fresh || n < p.column || (p.column = n && !p.afterBlank) then p.newline else p
  let p := p.put (String.ofList (List.replicate (n - p.column) ' '))
  { p with afterBlank := true, fresh := true }

/-- Writes an item marker, which leaves the line fresh. -/
def marker (p : Page) (s : String) : Page :=
  { p.separate.put s with afterBlank := false }

/-- Writes a word after a blank. -/
def word (p : Page) (s : String) : Page :=
  { p.separate.put s with afterBlank := false, fresh := false }

/-- Writes a mark directly behind what was written last. -/
def attached (p : Page) (s : String) : Page :=
  { p.put s with afterBlank := false, fresh := false }

/-! ### Scalars -/

/-- Writes text between apostrophes, an apostrophe twice. A line break in it is written as it is and
the next line indented. -/
def singleQuoted (p : Page) (indent : Option Nat) (cs : List Char) : Page :=
  let opened := p.word "'"
  let (p, broken) := cs.foldl (fun (p, broken) c ↦
    if isBreak c then ({ p.breakWith c with fresh := true }, true)
    else
      let p := if broken then p.startLine indent else p
      let p := if c = '\'' then p.put "''" else p.put c.toString
      ({ p with fresh := if c = ' ' then p.fresh else false }, if c = ' ' then broken else false))
    (opened, false)
  (if broken then p.startLine indent else p).attached "'"

/-- The escape of a character that double quotes do not hold as it is. -/
def escape (c : Char) : String :=
  match c.toNat with
  | 0x00 => "\\0"
  | 0x07 => "\\a"
  | 0x08 => "\\b"
  | 0x09 => "\\t"
  | 0x0a => "\\n"
  | 0x0b => "\\v"
  | 0x0c => "\\f"
  | 0x0d => "\\r"
  | 0x1b => "\\e"
  | 0x22 => "\\\""
  | 0x5c => "\\\\"
  | 0x85 => "\\N"
  | 0xa0 => "\\_"
  | 0x2028 => "\\L"
  | 0x2029 => "\\P"
  | n =>
    if n ≤ 0xff then "\\x" ++ Text.hexNumeral 2 n
    else if n ≤ 0xffff then "\\u" ++ Text.hexNumeral 4 n
    else "\\U" ++ Text.hexNumeral 8 n

/-- Writes text between quotation marks, with escapes. -/
def doubleQuoted (p : Page) (cs : List Char) : Page :=
  let escaped := cs.map fun c ↦
    if isPrintable c && !isBreak c && c ≠ '"' && c ≠ '\\' then c.toString else escape c
  p.word ("\"" ++ String.join escaped ++ "\"")

/-- The signs behind the bar of a literal block: a digit for the indentation if the text begins with
a space or a break, then a sign for its end. Without a sign the text ends in one break. -/
def literalHints (cs : List Char) : String :=
  let indentation := if cs.head?.any (fun c ↦ c = ' ' || isBreak c) then "2" else ""
  let ending := match cs.reverse with
    | a :: r =>
      if !isBreak a then "-"
      else match r with
        | b :: _ => if isBreak b then "+" else ""
        | [] => "+"
    | [] => "-"
  indentation ++ ending

/-- Writes a literal block: a bar, and below it the lines of the text, indented. -/
def literal (p : Page) (indent : Option Nat) (cs : List Char) : Page :=
  let opened := { (p.word ("|" ++ literalHints cs)).newline with afterBlank := true, fresh := true }
  (cs.foldl (fun (p, broken) c ↦
    if isBreak c then ({ p.breakWith c with fresh := true }, true)
    else
      let p := if broken then p.startLine indent else p
      ({ p.put c.toString with fresh := false }, false))
    (opened, true)).1

/-- Writes the text of a scalar in a style. -/
def scalar (p : Page) (indent : Option Nat) (style : Style) (s : String) : Page :=
  match style with
  | .plain => p.word s
  | .singleQuoted => p.singleQuoted indent s.toList
  | .doubleQuoted => p.doubleQuoted s.toList
  | .literal => p.literal indent s.toList

end Page

end LayeredConfig.Yaml
