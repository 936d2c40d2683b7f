import LayeredConfig.Toml.Fault
import LayeredConfig.Value.Basic

/-!
# Tables under construction

Statements of a document add to tables, and what a statement may add to a table depends on how the
table came about: by a header of its own, by being on the way to a deeper header, or by a dotted
key. `Table.update` goes down a path to the table that a statement means, and makes what is
missing on the way. Inline tables and arrays are values and cannot be added to; below an array of
tables the way goes on in its last table.

A document is a `Draft`: the root, and apart from it the table that the last header opened. That
table takes its place among its neighbours when the next header comes, which is why a table that is
opened after one of its own subtables stands behind all that came before its header.
-/

namespace LayeredConfig.Toml

/-- How a table came about. -/
inductive Origin where
  /-- It has a header. -/
  | header
  /-- It is on the way to a header. -/
  | implied
  /-- It is on the way to the end of a dotted key. -/
  | dotted
deriving DecidableEq

/-- What stands under a key. -/
inductive Item where
  /-- A finished value. -/
  | value (v : Value)
  /-- A table. -/
  | table (origin : Origin) (entries : List (String × Item))
  /-- An array of tables that headers make, the last one apart. -/
  | tables (before : List (List (String × Item))) (last : List (String × Item))

/-- The entries of a table, in order. -/
abbrev Table := List (String × Item)

mutual
/-- What stands under a key, as a value. -/
def Item.toValue : Item → Value
  | .value v => v
  | .table _ entries => .mapping (entryValues entries)
  | .tables before last => .sequence (tableValues before ++ [.mapping (entryValues last)])

/-- The entries of a table, as values. -/
def entryValues : List (String × Item) → List (Value × Value)
  | [] => []
  | (k, item) :: r => (.string k, item.toValue) :: entryValues r

/-- Tables, as values. -/
def tableValues : List (List (String × Item)) → List Value
  | [] => []
  | t :: r => .mapping (entryValues t) :: tableValues r
end

namespace Table

/-- What stands under a key. -/
def find? (key : String) (t : Table) : Option Item :=
  List.lookup key t

/-- The table with another item under a key that it has. -/
def replace (key : String) (item : Item) : Table → Table
  | [] => []
  | (k, old) :: r => if k = key then (k, item) :: r else (k, old) :: replace key item r

/-- The table without a key. -/
def erase (key : String) (t : Table) : Table :=
  t.filter fun e ↦ e.1 ≠ key

/-- Changes the table at a path and answers what the change answers. The path is made of dotted
keys or stands in a header; tables that are missing on the way are made. A dotted key cannot go
through a table that has a header. -/
def update {α : Type} (isDotted : Bool) (change : Origin → Table → Except Fault (Table × α)) :
    (path : List String) → Origin → Table → Except Fault (Table × α)
  | [], origin, t => change origin t
  | key :: path, _, t =>
    match t.find? key with
    | none => do
      let origin := if isDotted then Origin.dotted else Origin.implied
      let (new, answer) ← update isDotted change path origin []
      .ok (t ++ [(key, .table origin new)], answer)
    | some (.table origin entries) =>
      if isDotted && origin = .header then .error .duplicateKey
      else do
        let (new, answer) ← update isDotted change path origin entries
        .ok (t.replace key (.table origin new), answer)
    | some (.tables before last) => do
      let (new, answer) ← update isDotted change path .header last
      .ok (t.replace key (.tables before new), answer)
    | some (.value _) => .error .closedValue

/-- The table with a value under a key that may have parts before its last one. A dotted key may
only add to tables that dotted keys made. -/
def insert (path : List String) (key : String) (v : Value) (t : Table) : Except Fault Table := do
  let add (origin : Origin) (t : Table) : Except Fault (Table × Unit) :=
    if decide (origin = .dotted) ≠ !path.isEmpty || (t.find? key).isSome then .error .duplicateKey
    else .ok (t ++ [(key, .value v)], ())
  let (new, _) ← update true add path .header t
  .ok new

end Table

/-- The header of a table, or of one more table in an array. -/
structure Header where
  /-- The parts of the key before its last one. -/
  path : List String
  /-- The last part. -/
  key : String
  /-- The table belongs to an array. -/
  isArray : Bool

/-- A document under construction. -/
structure Draft where
  /-- The root, without the open table. -/
  root : Table
  /-- The open table. -/
  current : Table
  /-- Its header; at first the open table is the root. -/
  header : Option Header

namespace Draft

/-- The empty document. -/
def empty : Draft := ⟨[], [], none⟩

/-- The root with the open table in its place. -/
def close (d : Draft) : Except Fault Table :=
  match d.header with
  | none => .ok d.current
  | some h => do
    let place (_ : Origin) (t : Table) : Except Fault (Table × Unit) :=
      if h.isArray then
        match t.find? h.key with
        | none => .ok (t ++ [(h.key, .tables [] d.current)], ())
        | some (.tables before last) =>
          .ok (t.replace h.key (.tables (before ++ [last]) d.current), ())
        | some _ => .error .duplicateKey
      else .ok (t ++ [(h.key, .table .header d.current)], ())
    let (root, _) ← Table.update false place h.path .header d.root
    .ok root

/-- Opens the table of a header. A table that was on the way to a deeper header before goes on with
what it holds; any other use of the key is refused. -/
def startTable (h : Header) (d : Draft) : Except Fault Draft := do
  let root ← d.close
  if h.isArray then .ok ⟨root, [], some h⟩
  else
    let takeOut (_ : Origin) (t : Table) : Except Fault (Table × Table) :=
      match t.find? h.key with
      | none => .ok (t, [])
      -- Its place is now at the end, where its header stands.
      | some (.table .implied entries) => .ok (t.erase h.key, entries)
      | some _ => .error .duplicateKey
    let (root, current) ← Table.update false takeOut h.path .header root
    .ok ⟨root, current, some h⟩

/-- Adds an entry to the open table. -/
def insert (path : List String) (key : String) (v : Value) (d : Draft) : Except Fault Draft := do
  let current ← d.current.insert path key v
  .ok { d with current }

end Draft

end LayeredConfig.Toml
