import LayeredConfig.Yaml.Token.Property

/-!
# From text to tokens

A `Scan` is the state of reading tokens. Two things make it more than a place in the text.

Indentation opens and closes block collections: `indents` holds the columns of the open ones, and a
line that begins left of such a column closes the collection (`Scan.closeBlocks`).

A key of a mapping often has no mark of its own: only the colon behind it shows that it is one. So
the place where a key may have begun is remembered, one for each open flow collection and one for
the block around them, and the token for the key is inserted there when a colon comes
(`Scan.value`). Such a key must stand on one line and may have at most 1024 characters.
-/

namespace LayeredConfig.Yaml

/-- A place where a key may have begun. -/
structure PossibleKey where
  /-- The number of tokens before it. -/
  position : Nat
  /-- The number of characters before it. -/
  index : Nat
  /-- Its line. -/
  line : Nat
  /-- Its column. -/
  column : Nat
  /-- Nothing but a key can stand here. -/
  isRequired : Bool

/-- A place where a key may have begun, as long as the cursor has not gone too far from it. A place
where a key has to be is not given up. -/
def PossibleKey.live? (cur : Cursor) : Option PossibleKey → Except Fault (Option PossibleKey)
  | none => .ok none
  | some k =>
    if k.line < cur.line ∨ k.index + 1024 < cur.index then
      if k.isRequired then .error .missingColon else .ok none
    else .ok (some k)

/-- The state of reading tokens. -/
structure Scan where
  /-- The place in the text. -/
  cursor : Cursor
  /-- The tokens read. -/
  tokens : Array Token
  /-- The columns of the open block collections, innermost first. -/
  indents : List Nat
  /-- A key may begin here. -/
  keyAllowed : Bool
  /-- Where a key may have begun in the innermost collection. -/
  possibleKey : Option PossibleKey
  /-- Where a key may have begun in the collections around it, one for each open flow
  collection. -/
  outerKeys : List (Option PossibleKey)

namespace Scan

/-- The state before a text. -/
def start (cs : List Char) : Scan :=
  ⟨.start cs, #[], [], true, none, []⟩

/-- A flow collection is open. -/
def inFlow (s : Scan) : Bool :=
  !s.outerKeys.isEmpty

/-- Adds a token, and moves behind its characters. -/
def push (s : Scan) (token : Token) (behind : Cursor) : Scan :=
  { s with tokens := s.tokens.push token, cursor := behind }

/-! ### Indentation -/

/-- Closes the block collections whose columns are not `kept`. Inside of flow collections
indentation has no meaning. -/
def closeBlocks (kept : Nat → Bool) (s : Scan) : Scan :=
  if s.inFlow then s
  else
    let closed := s.indents.takeWhile (!kept ·)
    { s with
      tokens := s.tokens ++ List.replicate closed.length Token.blockEnd
      indents := s.indents.drop closed.length }

/-- Opens a block collection at a column, as the token at `position`, if the column is right of the
innermost open one. -/
def openBlock (token : Token) (column position : Nat) (s : Scan) : Scan :=
  if !s.inFlow && s.indents.head?.all (· < column) then
    { s with
      tokens := s.tokens.insertIdxIfInBounds position token
      indents := column :: s.indents }
  else s

/-! ### Keys -/

/-- Gives up the places of keys that are too far behind. -/
def dropStaleKeys (s : Scan) : Except Fault Scan := do
  let outerKeys ← s.outerKeys.mapM (PossibleKey.live? s.cursor)
  let possibleKey ← PossibleKey.live? s.cursor s.possibleKey
  .ok { s with outerKeys, possibleKey }

/-- What comes next does not continue a key. -/
def dropKey (s : Scan) : Except Fault Scan :=
  if s.possibleKey.any (·.isRequired) then .error .missingColon
  else .ok { s with possibleKey := none }

/-- What comes next may be a key, if keys are allowed here. It has to be one where it stands in the
column of a block mapping. -/
def markKey (s : Scan) : Except Fault Scan :=
  if s.keyAllowed then do
    let s ← s.dropKey
    let isRequired := !s.inFlow && s.indents.head? = some s.cursor.column
    let key : PossibleKey :=
      ⟨s.tokens.size, s.cursor.index, s.cursor.line, s.cursor.column, isRequired⟩
    .ok { s with possibleKey := some key }
  else .ok s

/-! ### Tokens -/

/-- The end of the text closes all. -/
def finish (s : Scan) : Except Fault (Array Token) := do
  let s ← (s.closeBlocks fun _ ↦ false).dropKey
  .ok (s.tokens.push .streamEnd)

/-- A directive or document marker closes all blocks. -/
def outside (s : Scan) : Except Fault Scan := do
  let s ← (s.closeBlocks fun _ ↦ false).dropKey
  .ok { s with keyAllowed := false }

/-- A flow collection begins, which may be a key itself. -/
def flowStart (token : Token) (s : Scan) : Except Fault Scan := do
  let s ← s.markKey
  let s := s.push token (s.cursor.skip 1)
  .ok { s with outerKeys := s.possibleKey :: s.outerKeys, possibleKey := none, keyAllowed := true }

/-- A flow collection ends. -/
def flowEnd (token : Token) (s : Scan) : Except Fault Scan := do
  let s ← s.dropKey
  let s := s.push token (s.cursor.skip 1)
  match s.outerKeys with
  | key :: outer => .ok { s with outerKeys := outer, possibleKey := key, keyAllowed := false }
  | [] => .ok { s with keyAllowed := false }

/-- A comma. -/
def flowEntry (s : Scan) : Except Fault Scan := do
  let s ← s.dropKey
  .ok { s.push .flowEntry (s.cursor.skip 1) with keyAllowed := true }

/-- Opens a block collection for the mark that comes next, which may only stand where a key may. -/
def openFor (token : Token) (s : Scan) : Except Fault Scan :=
  if s.inFlow then .ok s
  else if s.keyAllowed then .ok (s.openBlock token s.cursor.column s.tokens.size)
  else .error .misplacedIndicator

/-- The hyphen of an item. -/
def blockEntry (s : Scan) : Except Fault Scan := do
  let s ← s.openFor .blockSequenceStart
  let s ← s.dropKey
  .ok { s.push .blockEntry (s.cursor.skip 1) with keyAllowed := true }

/-- The question mark of a key. -/
def key (s : Scan) : Except Fault Scan := do
  let s ← s.openFor .blockMappingStart
  let s ← s.dropKey
  .ok { s.push .key (s.cursor.skip 1) with keyAllowed := !s.inFlow }

/-- The colon of a value. What stood at the remembered place was a key then. -/
def value (s : Scan) : Except Fault Scan :=
  match s.possibleKey with
  | some k =>
    -- The mapping opens in front of its first key, at the same position.
    let s := { s with tokens := s.tokens.insertIdxIfInBounds k.position .key }
    let s := s.openBlock .blockMappingStart k.column k.position
    .ok { s.push .value (s.cursor.skip 1) with possibleKey := none, keyAllowed := false }
  | none => do
    let s ← s.openFor .blockMappingStart
    .ok { s.push .value (s.cursor.skip 1) with keyAllowed := !s.inFlow }

/-- A token that may begin a key. -/
def inKey (read : Scan → Except Fault Lexeme) (s : Scan) : Except Fault Scan := do
  let s ← s.markKey
  let (token, behind) ← read s
  .ok { s.push token behind with keyAllowed := false }

/-- A plain scalar. Where it ends with its line a key may follow. -/
def plain (total : Nat) (s : Scan) : Except Fault Scan := do
  let s ← s.markKey
  let least := (s.indents.head?.map (· + 1)).getD 0
  let scalar ← readPlain total s.inFlow least "" .none s.cursor
  .ok { s.push (.scalar true scalar.text) scalar.cursor with keyAllowed := scalar.endsLine }

/-- A block scalar. -/
def block (total : Nat) (isLiteral : Bool) (s : Scan) : Except Fault Scan := do
  let s ← s.dropKey
  let scalar ← readBlock total isLiteral s.indents.head? (s.cursor.skip 1)
  .ok { s.push (.scalar false scalar.text) scalar.cursor with keyAllowed := true }

/-- A quoted scalar. -/
def quoted (total : Nat) (isSingle : Bool) : Scan → Except Fault Scan :=
  inKey fun s ↦ do
    let scalar ← readQuoted total isSingle "" (s.cursor.skip 1)
    .ok (.scalar false scalar.text, scalar.cursor)

/-- Moves to the next token, over white space and comments. In a block a key may begin on a new
line. Tabs are white space where they cannot be indentation. -/
def skipSpace (inFlow keyAllowed : Bool) (cur : Cursor) : Bool × Cursor :=
  let behind := (((cur.skipIf fun c ↦ cur.column = 0 && c.toNat = 0xfeff).skipWhile fun c ↦
    c = ' ' || ((inFlow || !keyAllowed) && c = '\t'))).skipComment
  if _h : behind.sees isBreak then skipSpace inFlow (keyAllowed || !inFlow) behind.skipBreak
  else (keyAllowed, behind)
termination_by cur.rest.length
decreasing_by
  exact Nat.lt_of_lt_of_le (Cursor.length_rest_skipBreak_lt (Cursor.ne_nil_of_sees _h))
    (Nat.le_trans (Cursor.length_rest_skipComment_le _)
      (Nat.le_trans (Cursor.length_rest_skipWhile_le _ _) (Cursor.length_rest_skipIf_le _ _)))

/-- A plain scalar may begin with this character, with `r` behind it. A tab begins none: where it is
not passed over, it stands for indentation. -/
def beginsPlain (inFlow : Bool) (c : Char) (r : List Char) : Bool :=
  if c = '-' then !(r.head?.any isSpaceOrTab)
  else if c = '?' || c = ':' then !inFlow && !gapFollows r
  else !isGap c && c ∉ ",[]\x7b\x7d#&*!|>'\"%@\x60".toList

/-- Reads the token that comes next. -/
def next (total : Nat) (s : Scan) (c : Char) (r : List Char) : Except Fault Scan :=
  if s.cursor.column = 0 && c = '%' then do
    let s ← s.outside
    let (token, behind) ← readDirective s.cursor
    .ok (s.push token behind)
  -- Document markers are found inside of flow collections too.
  else if s.cursor.atMarker '-' then do
    let s ← s.outside
    .ok (s.push .documentStart (s.cursor.skip 3))
  else if s.cursor.atMarker '.' then do
    let s ← s.outside
    .ok (s.push .documentEnd (s.cursor.skip 3))
  else if c = '[' then s.flowStart .flowSequenceStart
  else if c = '\x7b' then s.flowStart .flowMappingStart
  else if c = ']' then s.flowEnd .flowSequenceEnd
  else if c = '\x7d' then s.flowEnd .flowMappingEnd
  else if c = ',' then s.flowEntry
  else if c = '-' && gapFollows r then s.blockEntry
  else if c = '?' && (s.inFlow || gapFollows r) then s.key
  else if c = ':' && (s.inFlow || gapFollows r) then s.value
  else if c = '*' then s.inKey fun s ↦ do
    let (name, behind) ← readName s.cursor
    .ok (.alias name, behind)
  else if c = '&' then s.inKey fun s ↦ do
    let (name, behind) ← readName s.cursor
    .ok (.anchor name, behind)
  else if c = '!' then s.inKey fun s ↦ readTag s.inFlow s.cursor
  else if c = '|' && !s.inFlow then s.block total true
  else if c = '>' && !s.inFlow then s.block total false
  else if c = '\'' then s.quoted total true
  else if c = '"' then s.quoted total false
  else if beginsPlain s.inFlow c r then s.plain total
  else .error .unexpectedCharacter

/-- Reads all tokens of a text of `total` characters from a state on. -/
def run (total : Nat) (s : Scan) : Except Fault (Array Token) := do
  let (keyAllowed, cursor) := skipSpace s.inFlow s.keyAllowed s.cursor
  let ready ← { s with keyAllowed, cursor }.dropStaleKeys
  let ready := ready.closeBlocks (· ≤ cursor.column)
  match cursor.rest with
  | [] => ready.finish
  | c :: r =>
    let after ← ready.next total c r
    if _h : s.cursor.index < after.cursor.index ∧ after.cursor.index ≤ total then
      after.run total
    else .error .unexpectedCharacter
termination_by total - s.cursor.index

end Scan

/-- The tokens of a text. The mark of the byte order at its start does not belong to it, and some
control characters may not stand in it at all. -/
def Token.ofText (text : String) : Except Fault (Array Token) :=
  let cs := match text.toList with
    | c :: r => if c.toNat = 0xfeff then r else c :: r
    | [] => []
  if cs.all isAllowed then (Scan.start cs).run cs.length else .error .forbiddenCharacter

end LayeredConfig.Yaml
