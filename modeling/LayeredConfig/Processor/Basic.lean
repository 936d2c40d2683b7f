import LayeredConfig.Error
import LayeredConfig.Tree.DottedPath
import LayeredConfig.Tree.Merge

/-!
# Processors

A processor changes a tree that is otherwise complete. Three are built in: one takes keys away, one
merges fixed values over the tree, and one moves a value to another path. Any other function on
trees can be a processor under a name of its own, and may fail with a reason.

A chain runs processors in order, each on the result of the one before, and ends at the first that
fails.
-/

namespace LayeredConfig

/-- A change of a whole tree. -/
inductive Processor where
  /-- Takes the values at the paths away, one after another. -/
  | removeKeys (paths : List String)
  /-- Lays values over the tree. -/
  | mergeValues (values : Tree)
  /-- Moves the value at one path to another; nothing happens if there is none. -/
  | renameKey (source target : String)
  /-- A change under a name of its own. -/
  | custom (name : String) (run : Tree → Except String Tree)

namespace Processor

/-- The name of a processor. -/
def name : Processor → String
  | .removeKeys _ => "remove_keys"
  | .mergeValues _ => "merge"
  | .renameKey .. => "rename"
  | .custom name _ => name

/-- Runs a processor. -/
def run (t : Tree) : Processor → Except String Tree
  | .removeKeys paths => .ok (paths.foldl Tree.without t)
  | .mergeValues values => .ok (t.merge values)
  | .renameKey source target =>
    match t.remove? source with
    | some (v, rest) => .ok (rest.set target v)
    | none => .ok t
  | .custom _ run => run t

/-- Runs processors in order. -/
def runChain (t : Tree) : List Processor → Except LoadError Tree
  | [] => .ok t
  | p :: r =>
    match p.run t with
    | .ok t' => runChain t' r
    | .error reason => .error (.processorFailed p.name reason)

end Processor

end LayeredConfig
