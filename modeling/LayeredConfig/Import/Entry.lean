import LayeredConfig.Text.Blank
import LayeredConfig.Tree.Entries

/-!
# The list of imports

A document names what it builds on under the key `imports`: one path, or a list of items. An item is
a path, a mapping of the field `path` (or `resource`) and, if keys are to be left out, the field
`exclude`, or a sequence of the two. A path is not blank. `Tree.takeImports` takes the list out of
the document.

The fields of a mapping may be named by their position too, the path by `0` and the excluded keys by
`1`.
-/

namespace LayeredConfig

/-- The key of the list of imports. -/
def importsKey : String := "imports"

/-- The path that stands for the default layer. -/
def defaultImport : String := "@default"

/-- One import. -/
structure ImportEntry where
  /-- The path as it was written. -/
  path : String
  /-- The dotted paths that are left out once the import is merged. -/
  exclude : List String
deriving DecidableEq

/-- The entry imports the default layer. -/
def ImportEntry.isDefault (e : ImportEntry) : Bool :=
  e.path == defaultImport

/-- Why a list of imports is not well-formed. -/
inductive ImportFault where
  /-- The list is neither a path nor a sequence. -/
  | notAList
  /-- A tag stands on or in an item. -/
  | tagged
  /-- An item is neither a path nor an entry. -/
  | notAnEntry
  /-- A path is blank. -/
  | blankPath
deriving DecidableEq

/-- The text of a fault. -/
def ImportFault.reason : ImportFault → String
  | .notAList => "'imports' must be a list of paths or import entries"
  | .tagged => "untagged and internally tagged enums do not support enum input"
  | .notAnEntry => "data did not match any variant of untagged enum RawImport"
  | .blankPath => "import path must be a non-empty string"

namespace ImportEntry

/-- The fields of an entry that is a mapping, as far as they have been read. -/
structure Fields where
  /-- The path. -/
  path : Option String
  /-- The excluded keys. -/
  exclude : Option (List String)

/-- The key names the path. -/
def isPathField (k : Value) : Bool :=
  k = .string "path" || k = .string "resource" || k = .int 0

/-- The key names the excluded keys. -/
def isExcludeField (k : Value) : Bool :=
  k = .string "exclude" || k = .int 1

/-- Reads the fields of a mapping. Every key is a field, no field is given twice, a path is a string
and the excluded keys are a sequence of strings. -/
def readFields? (acc : Fields) : List (Value × Value) → Option Fields
  | [] => some acc
  | (k, v) :: r =>
    if isPathField k then
      match acc.path, v with
      | none, .string s => readFields? { acc with path := some s } r
      | _, _ => none
    else if isExcludeField k then
      match acc.exclude, v with
      | none, .sequence items =>
        match Value.strings? items with
        | some paths => readFields? { acc with exclude := some paths } r
        | none => none
      | _, _ => none
    else none

/-- Reads an item that has no tag; `none` when it is not an entry. -/
def ofUntagged? : Value → Option ImportEntry
  | .string path => some ⟨path, []⟩
  | .sequence [.string path] => some ⟨path, []⟩
  | .sequence [.string path, .sequence items] =>
    (Value.strings? items).map fun exclude ↦ ⟨path, exclude⟩
  | .mapping entries =>
    match readFields? ⟨none, none⟩ entries with
    | some ⟨some path, exclude⟩ => some ⟨path, exclude.getD []⟩
    | _ => none
  | _ => none

/-- Reads an item of the list. -/
def ofItem (v : Value) : Except ImportFault ImportEntry :=
  if v.hasTag then .error .tagged
  else match ofUntagged? v with
    | some e => .ok e
    | none => .error .notAnEntry

/-- Refuses a blank path. -/
def checkPath (e : ImportEntry) : Except ImportFault ImportEntry :=
  if Text.isAllBlank e.path then .error .blankPath else .ok e

/-- Reads the value of the key `imports`. All items are read before any path is looked at. -/
def ofList : Value → Except ImportFault (List ImportEntry)
  | .null => .ok []
  | .string path => do
    let e ← checkPath ⟨path, []⟩
    .ok [e]
  | .sequence items => do
    let entries ← items.mapM ofItem
    entries.mapM checkPath
  | _ => .error .notAList

end ImportEntry

/-- The imports of a document, in order, and the document without them. -/
def Tree.takeImports (t : Tree) : Except ImportFault (List ImportEntry × Tree) :=
  match t.find? (.string importsKey) with
  | none => .ok ([], t)
  | some v => do
    let entries ← ImportEntry.ofList v
    .ok (entries, t.erase (.string importsKey))

end LayeredConfig
