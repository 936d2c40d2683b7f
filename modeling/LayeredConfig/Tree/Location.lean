import LayeredConfig.Tree.Entries

/-!
# Locations in a tree

A location is the way from the root to a value inside: at each mapping the key, at each sequence the
index. Unlike a dotted path it does not depend on how keys are written. Tags are not entered, so a
location leads through untagged mappings and sequences only.

`Value.at?` reads a location, `Value.putAt?` replaces what is there, and `Tree.stringLocations`
lists where the strings of a tree are, in document order.
-/

namespace LayeredConfig

/-- One step into a container. -/
inductive Step where
  /-- To the value under a key of a mapping. -/
  | key (k : Value)
  /-- To an item of a sequence, counted from zero. -/
  | index (i : Nat)
deriving DecidableEq

/-- The steps from the root to a value. -/
abbrev Location := List Step

namespace Value

/-- The value at a location. -/
def at? : Location → Value → Option Value
  | [], v => some v
  | .key k :: r, .mapping t => (Tree.find? k t).bind (at? r)
  | .index i :: r, .sequence items => items[i]?.bind (at? r)
  | _ :: _, _ => none

/-- The value with `w` at a location that is there. -/
def putAt? (w : Value) : Location → Value → Option Value
  | [], _ => some w
  | .key k :: r, .mapping t =>
    match Tree.find? k t with
    | some v => (putAt? w r v).map fun v' ↦ .mapping (Tree.insert k v' t)
    | none => none
  | .index i :: r, .sequence items =>
    match items[i]? with
    | some v => (putAt? w r v).map fun v' ↦ .sequence (items.set i v')
    | none => none
  | _ :: _, _ => none

mutual
/-- Where the strings of a value are, in document order. -/
def stringLocations : Value → List Location
  | .string _ => [[]]
  | .mapping entries => entryStringLocations entries
  | .sequence items => itemStringLocations 0 items
  | _ => []

/-- Where the strings in the values of entries are. -/
def entryStringLocations : List (Value × Value) → List Location
  | [] => []
  | (k, v) :: r => (stringLocations v).map (.key k :: ·) ++ entryStringLocations r

/-- Where the strings in items are, when the first item has the index `i`. -/
def itemStringLocations (i : Nat) : List Value → List Location
  | [] => []
  | v :: r => (stringLocations v).map (.index i :: ·) ++ itemStringLocations (i + 1) r
end

end Value

namespace Tree

/-- The value at a location. -/
def at? (l : Location) (t : Tree) : Option Value :=
  (Value.mapping t).at? l

/-- The tree with `w` at a location that is there; any other location leaves it as it is. -/
def putAt (w : Value) (l : Location) (t : Tree) : Tree :=
  match Value.putAt? w l (.mapping t) with
  | some (.mapping t') => t'
  | _ => t

/-- Where the strings of a tree are, in document order. -/
def stringLocations (t : Tree) : List Location :=
  (Value.mapping t).stringLocations

end Tree

end LayeredConfig
