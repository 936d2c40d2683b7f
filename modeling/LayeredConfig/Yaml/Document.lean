import LayeredConfig.Tree.Entries
import LayeredConfig.Yaml.Node.Grammar
import LayeredConfig.Yaml.Plain
import LayeredConfig.Yaml.Token.Scan

/-!
# Reading YAML documents

`read` makes the value of a text: its tokens, its nodes, and the nodes' values.

A scalar without quotes is read by its form, unless a tag of the core schema says what it is. Other
tags of that schema say nothing, but a scalar under one stays a string; a tag of an application is
kept if it is text. An alias stands for a copy of its node. Aliases may be followed at most a
hundred times for each mark of the document, and collections nest at most 128 deep, aliases
followed; so an alias inside of its own node is refused.
-/

namespace LayeredConfig.Yaml

/-- The value of a scalar without quotes. -/
def plainValue (text : String) : Except Fault Value :=
  match Plain.read text with
  | .null => .ok .null
  | .bool b => .ok (.bool b)
  | .int i => .ok (.int i)
  | .oversized => .error .oversizedInteger
  | .float x => .ok (.float x)
  | .text => .ok (.string text)

/-- The integer that a text denotes, if it is not too large. -/
def integerValue? (text : String) : Option Value :=
  match (Plain.integer? text.toList).bind Plain.ofInt? with
  | some (.int i) => some (.int i)
  | _ => none

/-- The value of a scalar without a tag. -/
def untaggedValue (isPlain : Bool) (text : String) : Except Fault Value :=
  if isPlain then plainValue text else .ok (.string text)

/-- The value of a scalar under a tag of the core schema. -/
def coreValue (tag : Tag) (text : String) : Except Fault Value :=
  let value? : Option Value :=
    if tag = .ofString "tag:yaml.org,2002:null" then
      if Plain.isNullWord text then some .null else none
    else if tag = .ofString "tag:yaml.org,2002:bool" then (Plain.truth? text).map .bool
    else if tag = .ofString "tag:yaml.org,2002:int" then integerValue? text
    else if tag = .ofString "tag:yaml.org,2002:float" then (Plain.float? text).map .float
    else some (.string text)
  match value? with
  | some v => .ok v
  | none => .error .wrongKind

/-- The value of a scalar. An application's tag says nothing about it. -/
def scalarValue (tag : Option Tag) (isPlain : Bool) (text : String) : Except Fault Value :=
  match tag with
  | none => untaggedValue isPlain text
  | some t => if t.isLocal then untaggedValue isPlain text else coreValue t text

/-- The name that a tag gives to a value. Only an application's tag that is text gives one. -/
def applicationTag? (tag : Option Tag) : Option String := do
  let t ← tag
  if t.isLocal then t.text?.map fun name ↦ Value.tagName (Value.tagName name) else none

/-- What aliases need of a document. -/
structure Aliases where
  /-- The nodes with names. -/
  named : List (Nat × Node)
  /-- How often aliases may be followed. -/
  limit : Nat

/-- The aliases of a document. -/
def Aliases.of (root : Node) : Aliases :=
  ⟨root.named.reverse, 100 * root.size⟩

/-- A computation that counts the aliases it follows. -/
abbrev Following := StateT Nat (Except Fault)

/-- The node that an alias repeats; any other node is itself. -/
def Aliases.follow (aliases : Aliases) : Node → Following Node
  | .alias id => do
    let followed ← get
    if aliases.limit ≤ followed then throw .tooManyAliases
    set (followed + 1)
    match List.lookup id aliases.named with
    | some node => pure node
    | none => throw .unknownAlias
  | node => pure node

/-- The entries of a mapping, the values of its nodes given. A key may not come twice. -/
def entryValues (value : Node → Following Value) (before : Tree) :
    List (Node × Node) → Following Tree
  | [] => pure before
  | (k, v) :: r => do
    -- A repeated key is refused before its value is looked at.
    let key ← value k
    if before.contains key then throw .duplicateKey
    let v ← value v
    entryValues value (before ++ [(key, v)]) r

/-- The value of a node that is no alias; `below` makes the values of the nodes in it, and is absent
where no collection may stand. -/
def contentValue (below : Option (Node → Following Value)) : Node → Following Value
  | .alias _ => throw .unknownAlias
  | .scalar props isPlain text => liftM (scalarValue props.tag isPlain text)
  | .sequence _ items =>
    match below with
    | some value => do
      let items ← items.mapM value
      pure (.sequence items)
    | none => throw .tooDeep
  | .mapping _ entries =>
    match below with
    | some value => do
      let entries ← entryValues value [] entries
      pure (.mapping entries)
    | none => throw .tooDeep

/-- The value of a node, with its tag. -/
def taggedValue (aliases : Aliases) (below : Option (Node → Following Value)) (node : Node) :
    Following Value := do
  let node ← aliases.follow node
  let content ← contentValue below node
  match applicationTag? node.props.tag with
  | some tag => pure (.tagged tag content)
  | none => pure content

/-- The value of a node in which collections nest at most `depth` deep. -/
def nodeValue (aliases : Aliases) : (depth : Nat) → Node → Following Value
  | 0 => taggedValue aliases none
  | depth + 1 => taggedValue aliases (some (nodeValue aliases depth))

/-- How deep the collections of a document may nest. -/
def maxDepth : Nat := 128

/-- The value of a text. -/
def read (text : String) : Except Fault Value := do
  let tokens ← Token.ofText text
  let root ← Node.ofTokens tokens.toList
  let (value, _) ← (nodeValue (.of root) maxDepth root).run 0
  .ok value

end LayeredConfig.Yaml
