import LayeredConfig.Processor.Basic
import LayeredConfig.Text.Quoted

/-!
# Processors declared in a document

A document may list built-in processors under the key `processors`. An item is a mapping with the
field `type` and the fields of that type, or a sequence of the type and the values of the fields in
order. `Tree.takeProcessors` takes the list out of a tree.

Fields that a type does not have are passed over. A field may be named by its position too. Faults
are reported in the order in which a reader of the item meets them: first the type and the tags of
all other parts, then the fields as they come, and last the fields that are missing.
-/

namespace LayeredConfig

/-- The key of the list of processors. -/
def processorsKey : String := "processors"

/-- Why a list of processors is not well-formed. -/
inductive DeclarationFault where
  /-- The list is not a sequence. -/
  | notAList
  /-- A tag stands in an item. -/
  | tagInside
  /-- A field is missing. -/
  | missingField (name : String)
  /-- A field is given twice. -/
  | duplicateField (name : String)
  /-- There is no such type of processor. -/
  | unknownType (name : String)
  /-- A value is of another kind than is wanted at its place. -/
  | wrongKind (got : Value) (wanted : String)
  /-- A sequence has fewer parts than the type has fields. -/
  | tooShort (parts : Nat) (kind : String) (fields : Nat)
  /-- A sequence has more parts than the type has fields. -/
  | tooLong (parts fields : Nat)
deriving DecidableEq

namespace DeclarationFault

/-- Numbers in messages: always positional, with a point. -/
def number : NumberFormat :=
  ⟨none, true, .up, "NaN", "inf", "-inf"⟩

/-- What a value is, for a message. -/
def describe : Value → String
  | .null => "unit value"
  | .bool b => "boolean `" ++ (if b then "true" else "false") ++ "`"
  | .int i => "integer `" ++ Text.signedNumeral i ++ "`"
  | .float x => "floating point `" ++ number.render x ++ "`"
  | .string s => "string " ++ Text.quoted s
  | .sequence _ => "sequence"
  | .mapping _ => "map"
  | .tagged .. => "enum"

/-- A number of elements, for a message. -/
def elements (n : Nat) : String :=
  if n = 1 then "1 element" else Text.numeral n ++ " elements"

/-- The text of a fault. -/
def reason : DeclarationFault → String
  | .notAList => "'processors' must be a list of processor entries"
  | .tagInside => "untagged and internally tagged enums do not support enum input"
  | .missingField name => "missing field `" ++ name ++ "`"
  | .duplicateField name => "duplicate field `" ++ name ++ "`"
  | .unknownType name =>
    "unknown variant `" ++ name ++ "`, expected one of `remove_keys`, `merge`, `rename`"
  | .wrongKind got wanted => "invalid type: " ++ describe got ++ ", expected " ++ wanted
  | .tooShort parts kind fields =>
    "invalid length " ++ Text.numeral parts ++ ", expected struct variant DeclaredProcessor::"
      ++ kind ++ " with " ++ elements fields
  | .tooLong parts fields =>
    "invalid length " ++ Text.numeral parts ++ ", expected " ++ elements fields ++ " in sequence"

end DeclarationFault

namespace Processor

open DeclarationFault

/-- The types of processors that can be declared. -/
inductive Kind where
  /-- Takes keys away. -/
  | removeKeys
  /-- Lays values over the tree. -/
  | merge
  /-- Moves a value. -/
  | rename
deriving DecidableEq

/-- The name of a type within a message about the length of a sequence. -/
def Kind.label : Kind → String
  | .removeKeys => "RemoveKeys"
  | .merge => "Merge"
  | .rename => "Rename"

/-- The fields of a type, in order. -/
def Kind.fields : Kind → List String
  | .removeKeys => ["paths"]
  | .merge => ["values"]
  | .rename => ["from", "to"]

/-- Reads the value of the field `type`. A tag on it is passed over. -/
def readKind (v : Value) : Except DeclarationFault Kind :=
  match v.untagged with
  | .string "remove_keys" => .ok .removeKeys
  | .string "merge" => .ok .merge
  | .string "rename" => .ok .rename
  | .string s => .error (.unknownType s)
  | w => .error (.wrongKind w "variant identifier")

/-- Reads a string. -/
def readString : Value → Except DeclarationFault String
  | .string s => .ok s
  | v => .error (.wrongKind v "a string")

/-- Reads a list of strings. -/
def readStrings : Value → Except DeclarationFault (List String)
  | .sequence items => items.mapM readString
  | v => .error (.wrongKind v "a sequence")

/-- Reads a tree. -/
def readTree : Value → Except DeclarationFault Tree
  | .mapping entries => .ok entries
  | v => .error (.wrongKind v "a YAML mapping")

/-- The field of a type that a key names, by its name or by its position; `none` when the type has
no such field. -/
def fieldNamed (names : List String) : Value → Except DeclarationFault (Option String)
  | .string s => .ok (if s ∈ names then some s else none)
  | .int (.ofNat n) => .ok names[n]?
  | k => .error (.wrongKind k "field identifier")

/-- Reads the fields of a mapping, in order, each with `read`. -/
def readFields {α : Type} (names : List String) (read : Value → Except DeclarationFault α)
    (found : List (String × α)) :
    List (Value × Value) → Except DeclarationFault (List (String × α))
  | [] => .ok found
  | (k, v) :: r => do
    match ← fieldNamed names k with
    | some name =>
      if (found.lookup name).isSome then .error (.duplicateField name)
      else
        let a ← read v
        readFields names read ((name, a) :: found) r
    | none => readFields names read found r

/-- The value of a field that has to be there. -/
def required {α : Type} (found : List (String × α)) (name : String) :
    Except DeclarationFault α :=
  match found.lookup name with
  | some a => .ok a
  | none => .error (.missingField name)

/-- Builds a processor from the entries of a mapping other than its type. -/
def ofFields (entries : List (Value × Value)) : Kind → Except DeclarationFault Processor
  | .removeKeys => do
    let found ← readFields Kind.removeKeys.fields readStrings [] entries
    let paths ← required found "paths"
    .ok (.removeKeys paths)
  | .merge => do
    let found ← readFields Kind.merge.fields readTree [] entries
    let values ← required found "values"
    .ok (.mergeValues values)
  | .rename => do
    let found ← readFields Kind.rename.fields readString [] entries
    let source ← required found "from"
    let target ← required found "to"
    .ok (.renameKey source target)

/-- Builds a processor from the parts of a sequence behind its type. -/
def ofParts (parts : List Value) : Kind → Except DeclarationFault Processor
  | .removeKeys =>
    match parts with
    | [] => .error (.tooShort 0 Kind.removeKeys.label 1)
    | v :: r => do
      let paths ← readStrings v
      if r.isEmpty then .ok (.removeKeys paths) else .error (.tooLong parts.length 1)
  | .merge =>
    match parts with
    | [] => .error (.tooShort 0 Kind.merge.label 1)
    | v :: r => do
      let values ← readTree v
      if r.isEmpty then .ok (.mergeValues values) else .error (.tooLong parts.length 1)
  | .rename =>
    match parts with
    | [] => .error (.tooShort 0 Kind.rename.label 2)
    | v :: r => do
      let source ← readString v
      match r with
      | [] => .error (.tooShort 1 Kind.rename.label 2)
      | w :: r => do
        let target ← readString w
        if r.isEmpty then .ok (.renameKey source target) else .error (.tooLong parts.length 2)

/-- Reads the type of a mapping and checks all its other entries for tags, in order. -/
def readType (found : Option Kind) : List (Value × Value) → Except DeclarationFault Kind
  | [] =>
    match found with
    | some kind => .ok kind
    | none => .error (.missingField "type")
  | (k, v) :: r =>
    -- A wrong type in front of a tag is reported first, and the tag otherwise.
    if k = .string "type" then do
      let kind ← readKind v
      readType (some kind) r
    else if k.hasTag || v.hasTag then .error .tagInside
    else readType found r

/-- Reads one item of the list. -/
def ofItem : Value → Except DeclarationFault Processor
  | .mapping entries => do
    let kind ← readType none entries
    ofFields (entries.filter fun e ↦ e.1 ≠ .string "type") kind
  | .sequence [] => .error (.missingField "type")
  | .sequence (v :: parts) => do
    let kind ← readKind v
    if Value.itemsHaveTag parts then .error .tagInside else ofParts parts kind
  | v => .error (.wrongKind v "internally tagged enum DeclaredProcessor")

/-- Reads the value of the key `processors`. -/
def ofList : Value → Except DeclarationFault (List Processor)
  | .null => .ok []
  | .sequence items => items.mapM ofItem
  | _ => .error .notAList

end Processor

/-- The processors that a tree declares, in order, and the tree without them. -/
def Tree.takeProcessors (t : Tree) : Except LoadError (List Processor × Tree) :=
  match t.find? (.string processorsKey) with
  | none => .ok ([], t)
  | some v =>
    match Processor.ofList v with
    | .ok processors => .ok (processors, t.erase (.string processorsKey))
    | .error fault => .error (.invalidProcessor fault.reason)

end LayeredConfig
