import LayeredConfig.Toml.Moment
import LayeredConfig.Toml.Number
import LayeredConfig.Toml.Quote
import LayeredConfig.Toml.Table
import LayeredConfig.Toml.Text

/-!
# Keys, values and statements

The statements of a document and what they are made of. Arrays and inline tables may take several
lines, hold comments, and end in a comma. They nest at most 80 deep, and a key has at most 80 parts.

Loops over items go on only as long as the text behind an item is shorter than the text before it,
which every item guarantees.
-/

namespace LayeredConfig.Toml

/-- How deep values nest, and how many parts a key has. -/
def maxDepth : Nat := 80

/-! ### Keys -/

/-- Reads one part of a key. -/
def takeKeyPart (cs : List Char) : Taken :=
  match takeQuoted? cs with
  | some taken => taken
  | none =>
    let word := cs.takeWhile isBareChar
    if word.isEmpty then .error .badKey else .ok (String.ofList word, cs.drop word.length)

/-- A key: the parts before the last, and the last. -/
structure Key where
  /-- The parts before the last. -/
  path : List String
  /-- The last part. -/
  last : String

/-- Reads a key of at most `parts + 1` parts, with dots between them. -/
def takeKey (path : List String) : (parts : Nat) → List Char → Except Fault (Key × List Char)
  | 0, _ => .error .badKey
  | parts + 1, cs => do
    let (part, r) ← takeKeyPart (skipBlanks cs)
    match skipBlanks r with
    | '.' :: r => takeKey (path ++ [part]) parts r
    | r => .ok (⟨path, part⟩, r)

/-! ### Scalars -/

/-- A character of a number, a date, a time or a word. -/
def isScalarChar (c : Char) : Bool :=
  isBareChar c || c = '+' || c = '.' || c = ':'

/-- The characters of a scalar. A blank may stand between a date and a time. -/
def takeScalarText (cs : List Char) : List Char × List Char :=
  let first := cs.takeWhile isScalarChar
  let behind := cs.drop first.length
  match Date.take? first, behind with
  | some (_, []), ' ' :: d :: r =>
    if Text.isDigit d then
      let second := (d :: r).takeWhile isScalarChar
      (first ++ ' ' :: second, (d :: r).drop second.length)
    else (first, behind)
  | _, _ => (first, behind)

/-- The value of a scalar. -/
def readScalar (cs : List Char) : Except Fault Value :=
  if cs = "true".toList then .ok (.bool true)
  else if cs = "false".toList then .ok (.bool false)
  else match readInteger? cs with
    | some integer => integer
    | none =>
      match readFloat? cs with
      | some float => float
      | none =>
        match Moment.read? cs with
        | some moment => .ok (.string moment.render)
        | none => .error .badValue

/-! ### Values -/

/-- A value and the text behind it. -/
abbrev TakenValue := Except Fault (Value × List Char)

/-- Reads the rest of an array, its values given. -/
def takeItems (value : List Char → TakenValue) (items : List Value) (cs : List Char) :
    TakenValue :=
  match skipSpace cs with
  | ']' :: r => .ok (.sequence items, r)
  | start => do
    let (item, r) ← value start
    let items := items ++ [item]
    match skipSpace r with
    | ']' :: r => .ok (.sequence items, r)
    | ',' :: r =>
      if _h : r.length < cs.length then takeItems value items r else .error .badArray
    | _ => .error .badArray
termination_by cs.length

/-- Reads a key, an equals sign and a value. -/
def takeEntry (value : List Char → TakenValue) (cs : List Char) :
    Except Fault ((Key × Value) × List Char) := do
  let (key, r) ← takeKey [] maxDepth cs
  match r with
  | '=' :: r =>
    let (v, r) ← value (skipBlanks r)
    .ok ((key, v), r)
  | _ => .error .badValue

/-- The finished inline table. -/
def closeInline (t : Table) : Value :=
  .mapping (entryValues t)

/-- Reads the rest of an inline table, its values given. -/
def takeInline (value : List Char → TakenValue) (t : Table) (cs : List Char) : TakenValue :=
  match skipSpace cs with
  | '\x7d' :: r => .ok (closeInline t, r)
  | start => do
    let ((key, v), r) ← takeEntry value start
    let t ← t.insert key.path key.last v
    match skipSpace r with
    | '\x7d' :: r => .ok (closeInline t, r)
    | ',' :: r =>
      if _h : r.length < cs.length then takeInline value t r else .error .badInlineTable
    | _ => .error .badInlineTable
termination_by cs.length

/-- Reads a value that is not nested, or one in which `nested` reads the values. -/
def takeValueWith (nested : Option (List Char → TakenValue)) (cs : List Char) : TakenValue :=
  match takeString? cs with
  | some taken => taken.map fun p ↦ (.string p.1, p.2)
  | none =>
    match cs, nested with
    | '[' :: r, some value => takeItems value [] r
    | '\x7b' :: r, some value => takeInline value [] r
    | '[' :: _, none | '\x7b' :: _, none => .error .tooDeep
    | cs, _ => do
      let (text, r) := takeScalarText cs
      let v ← readScalar text
      .ok (v, r)

/-- Reads a value with at most `depth` levels of arrays and inline tables. -/
def takeValue : (depth : Nat) → List Char → TakenValue
  | 0 => takeValueWith none
  | depth + 1 => takeValueWith (some (takeValue depth))

/-! ### Statements -/

/-- A statement. -/
inductive Statement where
  /-- The header of a table. -/
  | header (h : Header)
  /-- An entry of the open table. -/
  | entry (key : Key) (v : Value)

/-- Reads the header of a table behind its first bracket. -/
def takeHeader (cs : List Char) : Except Fault (Statement × List Char) :=
  match cs with
  | '[' :: r => do
    let (key, r) ← takeKey [] maxDepth r
    match r with
    | ']' :: ']' :: r => .ok (.header ⟨key.path, key.last, true⟩, r)
    | _ => .error .badHeader
  | r => do
    let (key, r) ← takeKey [] maxDepth r
    match r with
    | ']' :: r => .ok (.header ⟨key.path, key.last, false⟩, r)
    | _ => .error .badHeader

/-- Reads a statement. -/
def takeStatement (cs : List Char) : Except Fault (Statement × List Char) :=
  match cs with
  | '[' :: r => takeHeader r
  | r => do
    let ((key, v), r) ← takeEntry (takeValue maxDepth) r
    .ok (.entry key v, r)

/-- Carries out a statement. -/
def Draft.add (d : Draft) : Statement → Except Fault Draft
  | .header h => d.startTable h
  | .entry key v => d.insert key.path key.last v

/-- Carries out the statements of a text, one a line. -/
def Draft.extend (d : Draft) (cs : List Char) : Except Fault Draft :=
  match skipSpace cs with
  | [] => .ok d
  | start => do
    let (statement, r) ← takeStatement start
    let d ← d.add statement
    match skipComment (skipBlanks r) with
    | [] => .ok d
    | r =>
      match skipBreak? r with
      | some r => if _h : r.length < cs.length then d.extend r else .error .badLine
      | none => .error .badLine
termination_by cs.length

/-- The tree of a text. The mark of the byte order at its start does not belong to it. -/
def read (text : String) : Except Fault Tree := do
  let cs := match text.toList with
    | c :: r => if c.toNat = 0xfeff then r else c :: r
    | [] => []
  let draft ← Draft.empty.extend cs
  let root ← draft.close
  .ok (entryValues root)

end LayeredConfig.Toml
