import LayeredConfig.Text.Split
import LayeredConfig.Tree.Entries
import LayeredConfig.Value.KeyText

/-!
# Dotted paths

A dotted path such as `db.hosts.0` names a place in a tree by the texts of keys and by indexes,
between full stops. A segment names the string key with that text if there is one, and otherwise
the first key of another kind whose text it is, so that `ports.8080` finds an integer key. In a
sequence a segment is an index. Tagged values are not entered.

Four operations follow a path: `Tree.get?` reads, `Tree.replace?` writes a value over one that is
there, `Tree.remove?` takes one away, and `Tree.set` writes a value wherever the path leads, making
mappings on the way. The empty path names nothing when it is read.

Reading goes down from value to value. Writing over a value and taking one away need a place to
write to, a `Focus`, and go from focus to focus in a descent of their own (`Tree.focus?`).
-/

namespace LayeredConfig

/-- The separator of the segments. -/
def pathSeparator : Char := '.'

/-- The segments of a dotted path. -/
def segments (path : String) : List String :=
  Text.split pathSeparator path

theorem segments_ne_nil (path : String) : segments path ≠ [] := by
  simp [segments, Text.split, Text.splitOn_ne_nil]

/-- The index that a segment denotes: decimal digits, with a plus sign or leading zeros allowed,
below `2 ^ 64`. -/
def segmentIndex? (segment : String) : Option Nat :=
  let digits := match segment.toList with
    | '+' :: r => r
    | cs => cs
  if digits.all Text.isDigit then
    match Text.ofDigits? 10 digits with
    | some n => if n < 0x10000000000000000 then some n else none
    | none => none
  else none

namespace Tree

/-- The key that a segment names. -/
def keyNamed? (segment : String) (t : Tree) : Option Value :=
  -- A tagged string is a string too, but never the key itself.
  if t.contains (.string segment) then some (.string segment)
  else t.keys.find? fun k ↦ !k.isString && k.keyText == segment

/-- The key under which a segment writes: the one that it names, or a new string. -/
def keyFor (segment : String) (t : Tree) : Value :=
  (t.keyNamed? segment).getD (.string segment)

/-- Takes the entry that a segment names out of a mapping. -/
def removeKey? (segment : String) (t : Tree) : Option (Value × Tree) :=
  (t.keyNamed? segment).bind fun k ↦ (t.find? k).map fun v ↦ (v, t.erase k)

end Tree

namespace Value

/-- The part of a container that a segment names. -/
def child? (segment : String) : Value → Option Value
  | .mapping t => (Tree.keyNamed? segment t).bind fun k ↦ Tree.find? k t
  | .sequence items => (segmentIndex? segment).bind fun i ↦ items[i]?
  | _ => none

/-- The value that segments lead to. -/
def descend? : List String → Value → Option Value
  | [], v => some v
  | s :: r, v => (v.child? s).bind (descend? r)

/-- Takes the part that a segment names out of a container. -/
def removeChild? (segment : String) : Value → Option (Value × Value)
  | .mapping t => (Tree.removeKey? segment t).map fun (v, t') ↦ (v, .mapping t')
  | .sequence items =>
    (segmentIndex? segment).bind fun i ↦ items[i]?.map fun v ↦ (v, .sequence (items.eraseIdx i))
  | _ => none

end Value

/-- A place inside of a whole, for writing. -/
structure Focus (α : Type) where
  /-- What stands there. -/
  value : Value
  /-- The whole with another value in its stead. -/
  put : Value → α

/-- The place of the entry that a segment names. -/
def Tree.focusKey? (segment : String) (t : Tree) : Option (Focus Tree) :=
  (t.keyNamed? segment).bind fun k ↦ (t.find? k).map fun v ↦ ⟨v, fun w ↦ t.insert k w⟩

namespace Focus

variable {α : Type}

/-- The place, inside of what stands at a place, of the part that a segment names. -/
def child? (segment : String) (f : Focus α) : Option (Focus α) :=
  match f.value with
  | .mapping t =>
    (Tree.focusKey? segment t).map fun g ↦ ⟨g.value, fun w ↦ f.put (.mapping (g.put w))⟩
  | .sequence items =>
    (segmentIndex? segment).bind fun i ↦
      items[i]?.map fun v ↦ ⟨v, fun w ↦ f.put (.sequence (items.set i w))⟩
  | _ => none

/-- The place that segments lead to from a place. -/
def descend? : List String → Focus α → Option (Focus α)
  | [], f => some f
  | s :: r, f => (f.child? s).bind fun g ↦ g.descend? r

/-- Takes the part that a segment names out of what stands at a place. -/
def remove? (segment : String) (f : Focus α) : Option (Value × α) :=
  (f.value.removeChild? segment).map fun (v, c) ↦ (v, f.put c)

end Focus

namespace Tree

/-- The value at a path. -/
def get? (t : Tree) (path : String) : Option Value :=
  if path = "" then none else (Value.mapping t).descend? (segments path)

/-- The place that a path leads to, for writing. -/
def focus? (t : Tree) (path : String) : Option (Focus Tree) :=
  if path = "" then none
  else match segments path with
    | [] => none
    | s :: r => (t.focusKey? s).bind fun f ↦ f.descend? r

/-- The tree with `w` over the value at a path; `none` when the path leads nowhere. -/
def replace? (t : Tree) (path : String) (w : Value) : Option Tree :=
  (t.focus? path).map fun f ↦ f.put w

/-- Takes the value at a path away, and answers it with the tree that is left. The last segment is
looked up in what the path before it leads to; a path without a separator is looked up at the root.
-/
def remove? (t : Tree) (path : String) : Option (Value × Tree) :=
  match Text.cutLast pathSeparator path.toList with
  | some (parent, last) =>
    (t.focus? (String.ofList parent)).bind fun f ↦ f.remove? (String.ofList last)
  | none => t.removeKey? path

/-- The tree without the value at a path, if there is one. -/
def without (t : Tree) (path : String) : Tree :=
  match t.remove? path with
  | some (_, t') => t'
  | none => t

/-- Writes a value where segments lead. A mapping on the way is entered, anything else gives way to
a new mapping, except that nothing is written below a tagged mapping. -/
def setSegments (v : Value) : List String → Tree → Tree
  | [], t => t
  | [s], t => t.insert (t.keyFor s) v
  | s :: r, t =>
    let k := t.keyFor s
    match t.find? k with
    | some (.mapping inner) => t.insert k (.mapping (setSegments v r inner))
    -- A tagged mapping counts as a mapping, but only an untagged one is entered.
    | some w => if w.isMapping then t else t.insert k (.mapping (setSegments v r []))
    | none => t.insert k (.mapping (setSegments v r []))

/-- Writes a value at a path. -/
def set (t : Tree) (path : String) (v : Value) : Tree :=
  t.setSegments v (segments path)

end Tree

end LayeredConfig
