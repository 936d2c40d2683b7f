import LayeredConfig.Yaml.Tag

/-!
# Nodes of YAML

The structure of a document before its scalars are read as values. A node may carry a name, by
which an alias elsewhere repeats it, and a tag. Names are numbered: an alias holds the number that
its name had where the alias stands, and repeats the last node of the document with that number.
-/

namespace LayeredConfig.Yaml

/-- What stands in front of a node. -/
structure Properties where
  /-- The number of its name. -/
  anchor : Option Nat
  /-- Its tag, with the handle expanded. -/
  tag : Option Tag

/-- Nothing stands in front of the node. -/
def Properties.none : Properties := ⟨.none, .none⟩

/-- A node. -/
inductive Node where
  /-- The repetition of a node. -/
  | alias (id : Nat)
  /-- A scalar, and whether it stands there without quotes and bars. -/
  | scalar (props : Properties) (isPlain : Bool) (text : String)
  /-- A sequence. -/
  | sequence (props : Properties) (items : List Node)
  /-- A mapping. -/
  | mapping (props : Properties) (entries : List (Node × Node))

namespace Node

/-- A node that is left out. -/
def empty (props : Properties) : Node :=
  .scalar props true ""

/-- What stands in front of the node. -/
def props : Node → Properties
  | .alias _ => .none
  | .scalar p .. => p
  | .sequence p _ => p
  | .mapping p _ => p

/-- The node itself, if it has a name. -/
def ownName (n : Node) : List (Nat × Node) :=
  (n.props.anchor.map fun id ↦ (id, n)).toList

mutual
/-- The nodes with names, in the order of the document. -/
def named : Node → List (Nat × Node)
  | .alias _ => []
  | .scalar p isPlain text => (Node.scalar p isPlain text).ownName
  | .sequence p items => (Node.sequence p items).ownName ++ namedItems items
  | .mapping p entries => (Node.mapping p entries).ownName ++ namedEntries entries

/-- The items with names and those inside of items. -/
def namedItems : List Node → List (Nat × Node)
  | [] => []
  | n :: r => named n ++ namedItems r

/-- The keys and values with names and those inside of them. -/
def namedEntries : List (Node × Node) → List (Nat × Node)
  | [] => []
  | (k, v) :: r => named k ++ named v ++ namedEntries r
end

mutual
/-- How many marks a node takes: one for a scalar or an alias, two around a collection. -/
def size : Node → Nat
  | .alias _ => 1
  | .scalar .. => 1
  | .sequence _ items => 2 + sizeItems items
  | .mapping _ entries => 2 + sizeEntries entries

/-- The size of all items. -/
def sizeItems : List Node → Nat
  | [] => 0
  | n :: r => size n + sizeItems r

/-- The size of all keys and values. -/
def sizeEntries : List (Node × Node) → Nat
  | [] => 0
  | (k, v) :: r => size k + size v + sizeEntries r
end

end Node

end LayeredConfig.Yaml
