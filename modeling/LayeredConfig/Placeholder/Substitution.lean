import LayeredConfig.Error
import LayeredConfig.Placeholder.Expression
import LayeredConfig.Placeholder.Scope
import LayeredConfig.Tree.DottedPath
import LayeredConfig.Tree.Location
import LayeredConfig.Unvisited

/-!
# Substituting placeholders

A string that is one placeholder takes the placeholder's value as it is, of whatever kind; in any
other string each placeholder is replaced by the text of its value, which must be a scalar. A
placeholder without a value is an error in a strict scope, and stands for null or for no text
otherwise.

The strings of a tree are substituted in document order, and each result is written into the tree
before the next string is looked at. A reference to another place of the tree reads the tree as it
is then, and what it finds is substituted in turn. A reference that is on its way already has no
value; this is what ends a cycle. The identifiers on their way are the `stack` of
`Scope.reference?`, and since each stands somewhere in the tree, there are only so many of them.
-/

namespace LayeredConfig

namespace Scope

/-- How references to places of the configuration are looked up: by identifier, for a string at the
given key. -/
abbrev Lookup := (identifier key : String) → Except LoadError (Option Value)

/-- The value of a placeholder in the string at `key`. -/
def value? (σ : Scope) (lookup : Lookup) (key : String) (p : Placeholder) :
    Except LoadError (Option Value) :=
  match p.kind with
  | .environment => .ok ((σ.environment p.identifier).map .string)
  | .constant => .ok ((σ.constants.get? p.identifier).map .string)
  | .configuration => lookup p.identifier key

/-- What becomes of a placeholder without a value: an error in a strict scope. -/
def absent {α : Type} (σ : Scope) (key : String) (p : Placeholder) (otherwise : α) :
    Except LoadError α :=
  if σ.strict then .error (.unresolvedPlaceholder p.expression key) else .ok otherwise

/-- The text that a piece of the string at `key` contributes. -/
def pieceText (σ : Scope) (lookup : Lookup) (key : String) : Piece → Except LoadError String
  | .literal text => .ok (String.ofList text)
  | .placeholder p => do
    match ← σ.value? lookup key p with
    | some v =>
      match v.scalarText? with
      | some s => .ok s
      | none => .error (.nonScalarInterpolation p.expression key)
    | none => σ.absent key p ""

/-- The texts that pieces contribute, one after another. -/
def piecesText (σ : Scope) (lookup : Lookup) (key : String) :
    List Piece → Except LoadError String
  | [] => .ok ""
  | p :: r => do
    let s ← σ.pieceText lookup key p
    let rest ← σ.piecesText lookup key r
    .ok (s ++ rest)

/-- The value of the string at `key`. -/
def substitute (σ : Scope) (lookup : Lookup) (key text : String) : Except LoadError Value :=
  match Placeholder.ofString text with
  -- The text is one placeholder, whose value keeps its kind.
  | [.placeholder p] => do
    match ← σ.value? lookup key p with
    | some v => .ok v
    | none => σ.absent key p .null
  | pieces => do
    let s ← σ.piecesText lookup key pieces
    .ok (.string s)

mutual
/-- A value at `key` with its strings substituted. The key of an entry is the key of the mapping and
the text of the entry's key; items have the key of their sequence. -/
def substituteValue (σ : Scope) (lookup : Lookup) (key : String) :
    Value → Except LoadError Value
  | .string s => σ.substitute lookup key s
  | .sequence items => do
    let items ← substituteItems σ lookup key items
    .ok (.sequence items)
  | .mapping entries => do
    let entries ← substituteEntries σ lookup key entries
    .ok (.mapping entries)
  | v => .ok v

/-- The items of a sequence at `key` with their strings substituted. -/
def substituteItems (σ : Scope) (lookup : Lookup) (key : String) :
    List Value → Except LoadError (List Value)
  | [] => .ok []
  | v :: r => do
    let v ← substituteValue σ lookup key v
    let r ← substituteItems σ lookup key r
    .ok (v :: r)

/-- The entries of a mapping at `key` with the strings of their values substituted. -/
def substituteEntries (σ : Scope) (lookup : Lookup) (key : String) :
    List (Value × Value) → Except LoadError (List (Value × Value))
  | [] => .ok []
  | (k, v) :: r => do
    let v ← substituteValue σ lookup (key ++ pathSeparator.toString ++ k.keyText) v
    let r ← substituteEntries σ lookup key r
    .ok ((k, v) :: r)
end

end Scope

/-! ### References within a tree -/

/-- The identifiers of the references in a text. -/
def Placeholder.references (s : String) : List String :=
  (Placeholder.ofString s).filterMap fun
    | .placeholder ⟨.configuration, identifier⟩ => some identifier
    | _ => none

mutual
/-- The identifiers of the references in a value, tagged values left out. -/
def Value.references : Value → List String
  | .string s => Placeholder.references s
  | .sequence items => Value.itemReferences items
  | .mapping entries => Value.entryReferences entries
  | _ => []

/-- The identifiers of the references in items. -/
def Value.itemReferences : List Value → List String
  | [] => []
  | v :: r => v.references ++ Value.itemReferences r

/-- The identifiers of the references in the values of entries. -/
def Value.entryReferences : List (Value × Value) → List String
  | [] => []
  | (_, v) :: r => v.references ++ Value.entryReferences r
end

/-- The identifiers of the references in a tree. -/
def Tree.references (t : Tree) : List String :=
  (Value.mapping t).references

namespace Scope

/-- The value of a reference from the string at `key` of a tree, with its own strings substituted.
`names` are the references that occur in the tree, `stack` those that are on their way. A reference
to the key itself has no value, nor has one that is on its way. -/
def reference? (σ : Scope) (t : Tree) (names stack : List String) (path key : String) :
    Except LoadError (Option Value) :=
  -- The key of a string is not on the stack: no reference has led to it yet.
  if path = key then .ok none
  else if _h : path ∈ names ∧ path ∉ stack then
    match t.get? path with
    | some v => do
      let v ← σ.substituteValue (fun p k ↦ σ.reference? t names (path :: stack) p k) path v
      .ok (some v)
    | none => .ok none
  else .ok none
termination_by unvisited names stack
decreasing_by exact unvisited_cons_lt _h.1 _h.2

/-- All of a reference: nothing for a reference to the key itself or one that is on its way, and
otherwise what it leads to, substituted. -/
theorem reference?_eq (σ : Scope) (t : Tree) (names stack : List String) (path key : String) :
    σ.reference? t names stack path key =
      if path = key then .ok none
      else if path ∈ names ∧ path ∉ stack then
        match t.get? path with
        | some v => do
          let v ← σ.substituteValue (fun p k ↦ σ.reference? t names (path :: stack) p k) path v
          .ok (some v)
        | none => .ok none
      else .ok none := by
  rw [reference?]
  rfl

/-- The value of the string `text` at `key` of a tree. -/
def substituteIn (σ : Scope) (t : Tree) (key text : String) : Except LoadError Value :=
  σ.substitute (σ.reference? t t.references []) key text

/-- A text that stands in no tree, such as the path of an import: references have no value there. -/
def expand (σ : Scope) (key text : String) : Except LoadError String := do
  let v ← σ.substituteIn [] key text
  .ok (v.scalarText?.getD "")

/-- The dotted form of a location: texts of keys and indexes. -/
def dottedKey (l : Location) : String :=
  Text.joinWith pathSeparator.toString (l.map fun
    | .key k => k.keyText
    | .index i => Text.numeral i)

/-- The tree with the string at a location substituted. -/
def resolveAt (σ : Scope) (t : Tree) (l : Location) : Except LoadError Tree :=
  match t.at? l with
  | some (.string text) => do
    let v ← σ.substituteIn t (dottedKey l) text
    .ok (t.putAt v l)
  | _ => .ok t

/-- The tree with the strings at locations substituted, one after another. -/
def resolveAll (σ : Scope) : List Location → Tree → Except LoadError Tree
  | [], t => .ok t
  | l :: r, t => do
    let t ← σ.resolveAt t l
    σ.resolveAll r t

/-- The tree with all its strings substituted, in document order. -/
def resolve (σ : Scope) (t : Tree) : Except LoadError Tree :=
  σ.resolveAll t.stringLocations t

end Scope

end LayeredConfig
