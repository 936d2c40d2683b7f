import LayeredConfig.Number.Format
import LayeredConfig.Text.Split
import LayeredConfig.Toml.Quote
import LayeredConfig.Value.Basic

/-!
# Writing trees as TOML

A tree is written as sections with a blank line between them. The section of a table holds the
entries that are no tables, and the sections of the tables in it follow, each under its full key; a
sequence that holds nothing but tables has a section for each. A table that holds nothing but tables
has no section of its own. A tagged value is a table of one entry, whose key is the tag.

Keys are strings, integers or truth values, and a null has no written form; `WriteFault` tells which
of the two cannot be written.
-/

namespace LayeredConfig.Toml

/-- Why a tree cannot be written. -/
inductive WriteFault where
  /-- A key is neither a string nor an integer nor a truth value. -/
  | keyNotText
  /-- There is a null. -/
  | nullValue
deriving DecidableEq

/-- The text of a fault. -/
def WriteFault.reason : WriteFault → String
  | .keyNotText => "map key was not a string"
  | .nullValue => "unsupported unit type"

/-- The text that stands for a key. -/
def keyText (k : Value) : Except WriteFault String :=
  match k with
  | .string s => .ok s
  | .bool b => .ok (if b then "true" else "false")
  | .int i => .ok (Text.signedNumeral i)
  | _ => .error .keyNotText

/-- The key of the entry that a tagged value is written as. -/
def tagKey (tag : String) : String :=
  "!" ++ tag

/-- How numbers are written: the fewest digits, always positional and with a point. -/
def number : NumberFormat :=
  ⟨none, true, .up, "nan", "inf", "-inf"⟩

/-- The value is written as a table. -/
def isTable : Value → Bool
  | .mapping _ | .tagged .. => true
  | _ => false

/-! ### On one line -/

/-- Texts with commas between them, in brackets that stand apart from them unless there are none. -/
def enclose (opening closing gap : String) (texts : List String) : String :=
  if texts.isEmpty then opening ++ closing
  else opening ++ gap ++ Text.joinWith ", " texts ++ gap ++ closing

/-- An entry, key and value written. -/
def entryLine (key value : String) : String :=
  writeKey key ++ " = " ++ value

/-- A table on one line. -/
def inlineTable (texts : List String) : String :=
  enclose "\x7b" "\x7d" " " texts

mutual
/-- A value on one line. -/
def inlineValue : Value → Except WriteFault String
  | .null => .error .nullValue
  | .bool b => .ok (if b then "true" else "false")
  | .int i => .ok (Text.signedNumeral i)
  | .float x => .ok (number.render x)
  | .string s => .ok (writeString s)
  | .sequence items => do
    let texts ← inlineItems items
    .ok (enclose "[" "]" "" texts)
  | .mapping entries => do
    let texts ← inlineEntries entries
    .ok (inlineTable texts)
  | .tagged tag v => do
    let text ← inlineValue v
    .ok (inlineTable [entryLine (tagKey tag) text])

/-- Items, each on one line. -/
def inlineItems : List Value → Except WriteFault (List String)
  | [] => .ok []
  | v :: r => do
    let text ← inlineValue v
    let rest ← inlineItems r
    .ok (text :: rest)

/-- Entries, each on one line. -/
def inlineEntries : List (Value × Value) → Except WriteFault (List String)
  | [] => .ok []
  | (k, v) :: r => do
    let key ← keyText k
    let text ← inlineValue v
    let rest ← inlineEntries r
    .ok (entryLine key text :: rest)
end

/-! ### In sections -/

/-- A section: its header and its entries, each on a line. -/
structure Section where
  /-- The header with its brackets; the root has none. -/
  header : List String
  /-- The entries. -/
  lines : List String

/-- What a table is written as: lines of its own section, and sections that follow. -/
structure Parts where
  /-- The lines. -/
  lines : List String
  /-- The sections. -/
  sections : List Section

namespace Parts

/-- One line. -/
def line (s : String) : Parts := ⟨[s], []⟩

/-- Both of two parts. -/
def append (a b : Parts) : Parts := ⟨a.lines ++ b.lines, a.sections ++ b.sections⟩

/-- A key with all its parts. -/
def fullKey (path : List String) : String :=
  Text.joinWith "." (path.map writeKey)

/-- The sections of a table with a header. The header may be left out where the table holds nothing
but tables. -/
def underHeader (path : List String) (p : Parts) : List Section :=
  if p.lines.isEmpty && !p.sections.isEmpty then p.sections
  else ⟨["[" ++ fullKey path ++ "]"], p.lines⟩ :: p.sections

/-- The sections of a table in a sequence of tables. -/
def underItemHeader (path : List String) (p : Parts) : List Section :=
  ⟨["[[" ++ fullKey path ++ "]]"], p.lines⟩ :: p.sections

/-- The sections of the root. -/
def atRoot (p : Parts) : List Section :=
  if p.lines.isEmpty then p.sections else ⟨[], p.lines⟩ :: p.sections

end Parts

mutual
/-- The entry of a table with the given full key. -/
def memberParts (path : List String) (key : String) : Value → Except WriteFault Parts
  | .mapping entries => do
    let parts ← tableParts (path ++ [key]) entries
    .ok ⟨[], parts.underHeader (path ++ [key])⟩
  | .tagged tag v => do
    let parts ← memberParts (path ++ [key]) (tagKey tag) v
    .ok ⟨[], parts.underHeader (path ++ [key])⟩
  | .sequence items =>
    if !items.isEmpty && items.all isTable then do
      let sections ← itemSections (path ++ [key]) items
      .ok ⟨[], sections⟩
    else do
      let text ← inlineValue (.sequence items)
      .ok (.line (entryLine key text))
  | v => do
    let text ← inlineValue v
    .ok (.line (entryLine key text))

/-- The entries of the table with the given full key. -/
def tableParts (path : List String) : List (Value × Value) → Except WriteFault Parts
  | [] => .ok ⟨[], []⟩
  | (k, v) :: r => do
    let key ← keyText k
    let first ← memberParts path key v
    let rest ← tableParts path r
    .ok (first.append rest)

/-- The tables of a sequence of tables with the given full key. -/
def itemSections (path : List String) : List Value → Except WriteFault (List Section)
  | [] => .ok []
  | v :: r => do
    let first ← itemParts path v
    let rest ← itemSections path r
    .ok (first.underItemHeader path ++ rest)

/-- A table in a sequence of tables. -/
def itemParts (path : List String) : Value → Except WriteFault Parts
  | .mapping entries => tableParts path entries
  | .tagged tag v => memberParts path (tagKey tag) v
  | _ => .ok ⟨[], []⟩
end

/-- The text of a section. -/
def Section.text (s : Section) : String :=
  String.join ((s.header ++ s.lines).map (· ++ "\n"))

/-- The document that holds a tree. -/
def render (t : Tree) : Except WriteFault String := do
  let parts ← tableParts [] t
  .ok (Text.joinWith "\n" (parts.atRoot.map Section.text))

end LayeredConfig.Toml
