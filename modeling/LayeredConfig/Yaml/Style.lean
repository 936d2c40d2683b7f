import LayeredConfig.Yaml.Character
import LayeredConfig.Yaml.Plain

/-!
# Which style a scalar is written in

A string is written plain if it can be, in single quotes if it would be taken for something else,
in double quotes if it has characters that need an escape, and as a literal block if it has lines.
The questions about a text that decide this are predicates on its characters; `Style.ofString`
combines them.
-/

namespace LayeredConfig.Yaml

/-- The styles in which a scalar can be written. -/
inductive Style where
  /-- As it is. -/
  | plain
  /-- Between apostrophes. -/
  | singleQuoted
  /-- Between quotation marks, with escapes. -/
  | doubleQuoted
  /-- Line by line below a bar. -/
  | literal
deriving DecidableEq

namespace Style

/-- Somewhere a character with `p` is directly followed by one with `q`. -/
def hasAdjacent (p q : Char → Bool) : List Char → Bool
  | a :: b :: r => (p a && q b) || hasAdjacent p q (b :: r)
  | _ => false

/-- The text has more than one line. -/
def isMultiline (cs : List Char) : Bool :=
  cs.any isBreak

/-- A character that begins some other construct when it is the first of a scalar. -/
def isIndicator (c : Char) : Bool :=
  c ∈ ['#', ',', '[', ']', '{', '}', '&', '*', '!', '|', '>', '\'', '"', '%', '@', '`']

/-- The first character begins some other construct. -/
def startsWithIndicator : List Char → Bool
  | [] => false
  | c :: r => isIndicator c || ((c = '?' || c = ':' || c = '-') && gapFollows r)

/-- After its first character the text has a colon before a gap, or a hash after one. -/
def hasInnerIndicator : List Char → Bool
  | a :: b :: r =>
    (b = ':' && gapFollows r) || (b = '#' && isGap a) || hasInnerIndicator (b :: r)
  | _ => false

/-- The text begins like a document marker. -/
def startsWithMarker : List Char → Bool
  | '-' :: '-' :: '-' :: _ => true
  | '.' :: '.' :: '.' :: _ => true
  | _ => false

/-- The text has a space or a line break at one of its ends. -/
def hasOuterSpace (cs : List Char) : Bool :=
  let outer (c : Char) : Bool := c = ' ' || isBreak c
  cs.head?.any outer || cs.getLast?.any outer

/-- Only double quotes can hold the text: it has a character that needs an escape, or a line break
next to a space. -/
def needsEscapes (cs : List Char) : Bool :=
  cs.any (!isPrintable ·) || hasAdjacent (· = ' ') isBreak cs || hasAdjacent isBreak (· = ' ') cs

/-- The text can stand without quotes, outside of flow collections. -/
def plainAllowed (cs : List Char) : Bool :=
  !(startsWithMarker cs || startsWithIndicator cs || hasInnerIndicator cs || hasOuterSpace cs
    || needsEscapes cs || isMultiline cs)

/-- The text can stand in a literal block: no space at its end, none before a line break, and no
character that needs an escape. -/
def literalAllowed (cs : List Char) : Bool :=
  !(cs.isEmpty || cs.getLast? = some ' ' || cs.any (!isPrintable ·)
    || hasAdjacent (· = ' ') isBreak cs)

/-- The style for a text that has to be quoted. -/
def quoted (cs : List Char) : Style :=
  if needsEscapes cs then .doubleQuoted else .singleQuoted

/-- The style for the text of null, a truth value or a number. -/
def ofWord (cs : List Char) : Style :=
  if plainAllowed cs then .plain else quoted cs

/-- The style for a string. -/
def ofString (s : String) : Style :=
  let cs := s.toList
  -- A text with line feeds is never taken for another kind of scalar.
  if cs.contains '\n' then (if literalAllowed cs then .literal else .doubleQuoted)
  else if Plain.needsQuotes s then quoted cs
  else ofWord cs

end Style

end LayeredConfig.Yaml
