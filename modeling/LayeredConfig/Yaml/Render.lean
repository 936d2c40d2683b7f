import LayeredConfig.Number.Format
import LayeredConfig.Value.Basic
import LayeredConfig.Yaml.Page

/-!
# Writing values as YAML

`render` writes a value in block style: two blanks per level, sequences not indented below their
key, empty collections as brackets, and no line folded. A key that is short and has one line stands
before its colon; any other key stands on lines of its own behind a question mark.

Two kinds of value have no written form, and `isWritable` tells them: a tag directly on a tagged
value, and a mapping of one entry whose key is tagged or is itself a mapping of one entry, unless
the mapping carries a tag.
-/

namespace LayeredConfig.Yaml

/-! ### Values with a written form -/

/-- A key that a mapping of one entry cannot be written with. -/
def isBlockedKey : Value → Bool
  | .tagged .. => true
  | .mapping [_] => true
  | _ => false

mutual
/-- The value has a written form; `underTag` says that it stands directly below a tag. -/
def isWritable (underTag : Bool) : Value → Bool
  | .tagged _ v => !underTag && isWritable true v
  | .sequence items => areItemsWritable items
  | .mapping entries =>
    (underTag || !(match entries with
      | [(k, _)] => isBlockedKey k
      | _ => false)) && areEntriesWritable entries
  | _ => true

/-- Every item has a written form. -/
def areItemsWritable : List Value → Bool
  | [] => true
  | v :: r => isWritable false v && areItemsWritable r

/-- Every key and every value has a written form. -/
def areEntriesWritable : List (Value × Value) → Bool
  | [] => true
  | (k, v) :: r => isWritable false k && isWritable false v && areEntriesWritable r
end

/-! ### Words -/

/-- The text of a scalar with its style; `none` for a collection or a tagged value. -/
def scalarText? : Value → Option (Style × String)
  | .null => some (.plain, "null")
  | .bool b => some (.plain, if b then "true" else "false")
  | .int i =>
    let s := Text.signedNumeral i
    some (Style.ofWord s.toList, s)
  | .float x =>
    let s := NumberFormat.document.render x
    some (Style.ofWord s.toList, s)
  | .string s => some (Style.ofString s, s)
  | _ => none

/-- A character that a tag holds as it is. -/
def isTagChar (c : Char) : Bool :=
  isWordChar c || c ∈ [';', '/', '?', ':', '@', '&', '=', '+', '$', ',', '.', '~', '*', '\'',
    '(', ')', '[', ']']

/-- The text of a tag with every other character as the codes of its bytes. -/
def escapeTag (s : String) : String :=
  String.join (s.toList.map fun c ↦
    if isTagChar c then c.toString
    else String.join (c.toString.toUTF8.toList.map fun b ↦ "%" ++ Text.hexNumeral 2 b.toNat))

/-- The word that puts a tag on a value. A lone exclamation mark is written in angle brackets. -/
def tagWord (tag : String) : String :=
  if tag = "!" then "!<%21>"
  else "!" ++ escapeTag (if tag.startsWith "!" then String.ofList tag.toList.tail else tag)

/-- The number of bytes that a tag adds to the length of a key. -/
def tagSize (tag : String) : Nat :=
  if tag.startsWith "!" then tag.utf8ByteSize else tag.utf8ByteSize + 1

/-- The number of bytes of a key that can stand on the line of its value: a scalar of one line or
an empty collection, with its tag. -/
def inlineSize? : Value → Option Nat
  | .tagged t v => (inlineSize? v).map (tagSize t + ·)
  | .sequence [] | .mapping [] => some 0
  | .sequence _ | .mapping _ => none
  | v =>
    match scalarText? v with
    | some (_, s) => if Style.isMultiline s.toList then none else some s.utf8ByteSize
    | none => none

/-- A key that stands before its colon: one line of at most 128 bytes. -/
def isInlineKey (k : Value) : Bool :=
  match inlineSize? k with
  | some n => n ≤ 128
  | none => false

/-! ### Layout -/

/-- One level deeper. -/
def deeper : Option Nat → Option Nat
  | none => some 0
  | some n => some (n + 2)

/-- The indentation of a scalar's further lines: one level deeper, and never at the margin. -/
def scalarIndent (indent : Option Nat) : Option Nat :=
  some (indent.getD 0 + 2)

mutual
/-- Writes a value. The items of a sequence that is the value of a key are not indented when the
key is on the line. -/
def writeValue (indent : Option Nat) (inMapping : Bool) (p : Page) : Value → Page
  | .tagged t v => writeValue indent inMapping (p.word (tagWord t)) v
  | .sequence [] => p.word "[]"
  | .mapping [] => p.word "\x7b\x7d"
  | .sequence items =>
    -- Behind the marker of an item or of a long key the line is fresh still.
    let aligned := inMapping && !p.fresh && indent.isSome
    writeItems (if aligned then indent else deeper indent) p items
  | .mapping entries => writeEntries (deeper indent) p entries
  | .string s => p.scalar (scalarIndent indent) (Style.ofString s) s
  | v =>
    match scalarText? v with
    | some (style, s) => p.scalar (scalarIndent indent) style s
    | none => p

/-- Writes the items of a sequence, each on a line of its own. -/
def writeItems (indent : Option Nat) (p : Page) : List Value → Page
  | [] => p
  | v :: r =>
    writeItems indent (writeValue indent false ((p.startLine indent).marker "-") v) r

/-- Writes the entries of a mapping, each on a line of its own. -/
def writeEntries (indent : Option Nat) (p : Page) : List (Value × Value) → Page
  | [] => p
  | (k, v) :: r =>
    let p := p.startLine indent
    let p :=
      if isInlineKey k then (writeValue indent true p k).attached ":"
      else ((writeValue indent true (p.marker "?") k).startLine indent).marker ":"
    writeEntries indent (writeValue indent true p v) r
end

/-- The document that holds a value; `none` when the value has no written form. -/
def render? (v : Value) : Option String :=
  if isWritable false v then
    some ((writeValue none false { : Page } v).startLine none).text
  else none

end LayeredConfig.Yaml
