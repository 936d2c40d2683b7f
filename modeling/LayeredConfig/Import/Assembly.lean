import LayeredConfig.DefaultLayer
import LayeredConfig.Import.Entry
import LayeredConfig.Placeholder.Substitution
import LayeredConfig.Tree.Merge

/-!
# Assembling a tree from documents

A document's tree is laid over what it imports: first the default layer, if the document is the
entry and does not import it by itself; then each import in order, whose excluded keys are taken out
right after it was merged; and at last the document's own keys. An imported document is assembled in
the same way, without the default layer.

The places of the documents on the way from the entry are the `stack` of `Sources.assemble`. A
document whose place is on it imports itself, which is an error; so no place is entered twice, and
the descent ends.
-/

namespace LayeredConfig

/-- How a document came into the tree. -/
inductive DocumentKind where
  /-- It is the document that was asked for. -/
  | entry
  /-- It was imported. -/
  | imported
  /-- It is the default layer. -/
  | default
deriving DecidableEq

/-- A document that a tree was assembled from. -/
structure LoadedDocument where
  /-- Its path, or the description of the default layer. -/
  path : FilePath
  /-- How it came into the tree. -/
  kind : DocumentKind
  /-- The number of imports on the way to it. -/
  depth : Nat
deriving DecidableEq

/-- A tree with the documents that it was assembled from, in the order in which they were loaded. -/
structure Assembly where
  /-- The tree. -/
  tree : Tree
  /-- The documents. -/
  documents : List LoadedDocument
deriving DecidableEq

namespace Assembly

/-- Nothing. -/
def empty : Assembly := ⟨[], []⟩

/-- Lays an import over what was assembled before, and takes the excluded keys out of both. -/
def add (a : Assembly) (e : ImportEntry) (contribution : Assembly) : Assembly :=
  ⟨e.exclude.foldl Tree.without (a.tree.merge contribution.tree),
    a.documents ++ contribution.documents⟩

/-- Lays imports over what was assembled before, in order. -/
def addAll (contribution : ImportEntry → Except LoadError Assembly) (a : Assembly) :
    List ImportEntry → Except LoadError Assembly
  | [] => .ok a
  | e :: r => do
    let b ← contribution e
    addAll contribution (a.add e b) r

end Assembly

/-- Where a configuration is assembled from. -/
structure Sources where
  /-- The documents. -/
  reader : Reader
  /-- The default layer, if there is one. -/
  defaults : Option DefaultLayer
  /-- What placeholders in the paths of imports are replaced from. -/
  scope : Scope
  /-- The directory that a path beginning with `~/` starts from, if there is one. -/
  home : Option FilePath

namespace Sources

/-- The default layer as the contribution of something at a depth. -/
def defaultLayer (s : Sources) (depth : Nat) : Except LoadError Assembly :=
  match s.defaults with
  | none => .ok .empty
  | some layer => do
    let tree ← layer.tree
    .ok ⟨tree, [⟨⟨layer.description⟩, .default, depth⟩]⟩

/-- The file that an import names. Placeholders in its path are substituted, `~/` is the home
directory, without which there is no such file, and any other relative path starts from the
directory of the importing document. -/
def importPath (s : Sources) (importer : FilePath) (written : String) :
    Except LoadError FilePath := do
  let path ← s.scope.expand importsKey written
  match Text.after? ['~', '/'] path.toList with
  | some rest =>
    match s.home with
    | some home => .ok (home.join (String.ofList rest)).normalize
    | none => .error .homeNotFound
  | none => .ok (FilePath.resolveIn importer.directory ⟨path⟩)

/-- Reads a document: its imports and its own keys. -/
def readDocument (path : FilePath) (text : String) :
    Except LoadError (List ImportEntry × Tree) := do
  let tree ← Document.parse path text
  match tree.takeImports with
  | .ok imports => .ok imports
  | .error fault => .error (.invalidImport path fault.reason)

/-- What an import contributes; `assemble` goes on with the document that it names. -/
def contribution (s : Sources) (assemble : FilePath → Except LoadError Assembly) (depth : Nat)
    (importer : FilePath) (e : ImportEntry) : Except LoadError Assembly :=
  if e.isDefault then s.defaultLayer depth
  else do
    let path ← s.importPath importer e.path
    if s.reader.has path then assemble path else .error (.missingImport path importer)

/-- The document at a depth with all that it imports. `stack` holds the places of the documents on
the way to it, the last one first. -/
def assemble (s : Sources) (suppressDefault : Bool) (stack : List FilePath) (depth : Nat)
    (path : FilePath) : Except LoadError Assembly :=
  let here := s.reader.identity path
  if _hstack : here ∈ stack then .error (.circularImport (here :: stack).reverse)
  else match _hlook : s.reader.look path with
    | .text text => do
      let (imports, own) ← readDocument path text
      let self : LoadedDocument := ⟨path, if depth = 0 then .entry else .imported, depth⟩
      -- An import of the default layer takes the place of the one that comes by itself.
      let base ←
        if suppressDefault || imports.any (·.isDefault) then .ok .empty else s.defaultLayer depth
      let below (p : FilePath) := s.assemble true (here :: stack) (depth + 1) p
      let layers ← base.addAll (s.contribution below (depth + 1) path) imports
      .ok ⟨layers.tree.merge own, self :: layers.documents⟩
    | _ => .error (.unreadable path)
termination_by unvisited s.reader.places stack
decreasing_by
  exact unvisited_cons_lt (s.reader.identity_mem path (by simp [_hlook])) _hstack

/-- The entry document with all that it imports. Without the document there is only the default
layer. -/
def assembleEntry (s : Sources) (entry : FilePath) (suppressDefault : Bool) :
    Except LoadError Assembly :=
  if s.reader.has entry then s.assemble suppressDefault [] 0 entry
  else if suppressDefault then .ok .empty
  else s.defaultLayer 0

end Sources

end LayeredConfig
