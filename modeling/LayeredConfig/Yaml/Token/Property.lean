import LayeredConfig.Yaml.Cursor
import LayeredConfig.Yaml.Fault
import LayeredConfig.Yaml.Token.Basic
import LayeredConfig.Yaml.Token.Scalar

/-!
# Anchors, tags and directives

The tokens that say something about the node or the document behind them. Names of anchors are made
of word characters. A tag is written in full between angles, or as a handle and a suffix; the suffix
may hold octets as two hexadecimal digits behind a percent sign. How many of them follow one another
is told by the first, as in UTF-8.
-/

namespace LayeredConfig.Yaml

/-- A token and the place behind it. -/
abbrev Lexeme := Token × Cursor

/-! ### Anchors and aliases -/

/-- Reads the name of an anchor or alias, with the place at its sign. -/
def readName (cur : Cursor) : Except Fault (String × Cursor) :=
  let (name, behind) := (cur.skip 1).span isWordChar
  let isClosed := gapFollows behind.rest ||
    behind.sees (· ∈ ['?', ':', ',', ']', '\x7d', '%', '@', '\x60'])
  if name.isEmpty || !isClosed then .error .badAnchor else .ok (String.ofList name, behind)

/-! ### Tags -/

/-- A character of a tag's text. Brackets and commas count only where the tag is written in full. -/
def continuesTag (inFull : Bool) (c : Char) : Bool :=
  isWordChar c || c ∈ ";/?:@&=+$.%!~*'()".toList || (inFull && c ∈ [',', '[', ']'])

/-- The octet that a percent sign and two hexadecimal digits stand for. -/
def escapedOctet? : List Char → Option UInt8
  | '%' :: a :: b :: _ =>
    if Text.isHexDigit a && Text.isHexDigit b then (Text.ofDigits? 16 [a, b]).map UInt8.ofNat
    else none
  | _ => none

/-- How many octets the character takes that begins with the octet `o`. -/
def octetCount? (o : UInt8) : Option Nat :=
  if o < 0x80 then some 1
  else if o < 0xc0 then none
  else if o < 0xe0 then some 2
  else if o < 0xf0 then some 3
  else if o < 0xf8 then some 4
  else none

/-- The next `n` escaped octets, if each may stand in a character behind its first octet. -/
def escapedTail? : (n : Nat) → List Char → Option (List UInt8)
  | 0, _ => some []
  | n + 1, cs => do
    let o ← escapedOctet? cs
    if 0x80 ≤ o ∧ o < 0xc0 then (escapedTail? n (cs.drop 3)).map (o :: ·) else none

/-- The escaped octets that make up one character. Whether there is such a character is not
asked. -/
def escapedOctets? (cs : List Char) : Option (List UInt8) := do
  let first ← escapedOctet? cs
  let count ← octetCount? first
  (escapedTail? (count - 1) (cs.drop 3)).map (first :: ·)

/-- The octets of a tag, with the escapes read, and how many characters they take up. -/
def tagOctets (inFull : Bool) (cs : List Char) : Except Fault (List UInt8 × Nat) :=
  match cs with
  | [] => .ok ([], 0)
  | c :: r =>
    if c = '%' then
      match escapedOctets? (c :: r) with
      | some octets => do
        let (more, n) ← tagOctets inFull (r.drop (3 * octets.length - 1))
        .ok (octets ++ more, n + 3 * octets.length)
      | none => .error .badTag
    else if continuesTag inFull c then do
      let (more, n) ← tagOctets inFull r
      .ok (String.utf8EncodeChar c ++ more, n + 1)
    else .ok ([], 0)
termination_by cs.length
decreasing_by
  · simp only [List.length_drop, List.length_cons]
    omega
  · simp

/-- Reads a tag, or the end of one, that takes up one character at least. -/
def readTagText (inFull : Bool) (cur : Cursor) : Except Fault (Tag × Cursor) := do
  let (octets, n) ← tagOctets inFull cur.rest
  if n = 0 then .error .badTag else .ok (.ofOctets octets, cur.skip n)

/-- Reads a handle: an exclamation mark, word characters, and perhaps another exclamation mark. The
answer says whether the second one stands there. -/
def readHandle (cur : Cursor) : Except Fault (String × Bool × Cursor) :=
  if cur.sees (· = '!') then
    let (word, behind) := (cur.skip 1).span isWordChar
    let name := String.ofList ('!' :: word)
    if behind.sees (· = '!') then .ok (name ++ "!", true, behind.skip 1)
    else .ok (name, false, behind)
  else .error .badTag

/-- Reads a tag. A tag without a second exclamation mark has the handle `!`; the exclamation mark
alone is the suffix of no handle. -/
def readTag (inFlow : Bool) (cur : Cursor) : Except Fault Lexeme := do
  let (token, behind) ←
    if (cur.skip 1).sees (· = '<') then do
      let (text, behind) ← readTagText true (cur.skip 2)
      if behind.sees (· = '>') then .ok (Token.tag "" text, behind.skip 1) else .error .badTag
    else do
      let (handle, isNamed, behind) ← readHandle cur
      if isNamed then
        let (suffix, behind) ← readTagText false behind
        .ok (Token.tag handle suffix, behind)
      else
        let (more, n) ← tagOctets false behind.rest
        let suffix := Tag.ofString (handle.drop 1).toString ++ Tag.ofOctets more
        let token :=
          if suffix.isEmpty then Token.tag "" (.ofString "!") else Token.tag "!" suffix
        .ok (token, behind.skip n)
  if gapFollows behind.rest || (inFlow && behind.sees (· = ',')) then .ok (token, behind)
  else .error .badTag

/-! ### Directives -/

/-- Reads a number of at most nine digits. -/
def readVersionNumber (cur : Cursor) : Except Fault (Nat × Cursor) :=
  let (digits, behind) := cur.span Text.isDigit
  match Text.ofDigits? 10 digits with
  | some n => if digits.length ≤ 9 then .ok (n, behind) else .error .badDirective
  | none => .error .badDirective

/-- Reads a version, two numbers with a point between them. -/
def readVersion (cur : Cursor) : Except Fault Lexeme := do
  let (major, behind) ← readVersionNumber cur
  if behind.sees (· = '.') then
    let (minor, behind) ← readVersionNumber (behind.skip 1)
    .ok (.versionDirective major minor, behind)
  else .error .badDirective

/-- Reads a handle and what it stands for. -/
def readHandleDefinition (cur : Cursor) : Except Fault Lexeme := do
  let (handle, isNamed, behind) ← readHandle cur
  if (isNamed || handle = "!") && behind.sees isSpaceOrTab then
    let (expansion, behind) ← readTagText true (behind.skipWhile isSpaceOrTab)
    if gapFollows behind.rest then .ok (.tagDirective handle expansion, behind)
    else .error .badDirective
  else .error .badDirective

/-- Reads a directive up to the end of its line. -/
def readDirective (cur : Cursor) : Except Fault Lexeme := do
  let (name, behind) := (cur.skip 1).span isWordChar
  if name.isEmpty || !gapFollows behind.rest then .error .badDirective
  else
    let argument := behind.skipWhile isSpaceOrTab
    let (token, behind) ←
      if name = "YAML".toList then readVersion argument
      else if name = "TAG".toList then readHandleDefinition argument
      else .error .badDirective
    let behind := (behind.skipWhile isSpaceOrTab).skipComment
    if behind.rest.isEmpty then .ok (token, behind)
    else if behind.sees isBreak then .ok (token, behind.skipBreak)
    else .error .badDirective

end LayeredConfig.Yaml
