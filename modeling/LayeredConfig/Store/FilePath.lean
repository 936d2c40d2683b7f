import LayeredConfig.Text.Split

/-!
# File paths

A `FilePath` is the text of a path with `/` as the separator. Its components are the names between
the separators, after the root if the text begins with a separator; empty names count for nothing,
and neither does a dot, except at the start of a relative path.

`FilePath.normalize` folds a path without looking at any file: a dot goes away, and `..` takes the
component before it away. Where there is none to take, `..` stays, and a later `..` takes it.
-/

namespace LayeredConfig

/-- A path as text. -/
structure FilePath where
  /-- The path as it was written. -/
  text : String
deriving DecidableEq, Inhabited

/-- One component of a path. -/
inductive Component where
  /-- The root directory. -/
  | root
  /-- The dot, the directory itself. -/
  | current
  /-- Two dots, the directory above. -/
  | parent
  /-- A name. -/
  | name (s : String)
deriving DecidableEq

namespace Component

/-- The component that stands between two separators; `none` for what counts for nothing. -/
def ofPiece? (s : String) : Option Component :=
  if s = "" ∨ s = "." then none
  else if s = ".." then some .parent
  else some (.name s)

/-- The text of a component below the root. -/
def text : Component → String
  | .root => ""
  | .current => "."
  | .parent => ".."
  | .name s => s

/-- One step of folding: the components so far, the last one first, with one more. -/
def fold (acc : List Component) : Component → List Component
  | .current => acc
  | .parent =>
    match acc with
    | [] | .root :: _ => .parent :: acc
    | _ :: below => below
  | c => c :: acc

/-- Folds components without looking at any file. -/
def normalize (cs : List Component) : List Component :=
  (cs.foldl fold []).reverse

end Component

namespace FilePath

/-- A path that begins at the root. -/
def isAbsolute (p : FilePath) : Bool :=
  p.text.toList.head? = some '/'

/-- The components of a path. -/
def components (p : FilePath) : List Component :=
  let pieces := Text.split '/' p.text
  let named := pieces.filterMap Component.ofPiece?
  if p.isAbsolute then .root :: named
  else if pieces.head? = some "." then .current :: named
  else named

/-- The path with the given components. -/
def ofComponents : List Component → FilePath
  | .root :: r => ⟨"/" ++ Text.joinWith "/" (r.map Component.text)⟩
  | cs => ⟨Text.joinWith "/" (cs.map Component.text)⟩

/-- The path folded without looking at any file. -/
def normalize (p : FilePath) : FilePath :=
  ofComponents (Component.normalize p.components)

/-- The components of the directory that holds the file; none for the root and the empty path. -/
def directory (p : FilePath) : List Component :=
  match p.components with
  | [.root] => []
  | cs => cs.dropLast

/-- The path of a file named relative to a directory, folded. -/
def resolveIn (directory : List Component) (p : FilePath) : FilePath :=
  if p.isAbsolute then p.normalize
  else ofComponents (Component.normalize (directory ++ p.components))

/-- The path of `rest` below a directory; an absolute `rest` stands alone. -/
def join (p : FilePath) (rest : String) : FilePath :=
  if rest.toList.head? = some '/' ∨ p.text = "" then ⟨rest⟩
  else if p.text.toList.getLast? = some '/' then ⟨p.text ++ rest⟩
  else ⟨p.text ++ "/" ++ rest⟩

/-- The extension of the file's name: what follows its last dot, when something stands before it.
-/
def extension? (p : FilePath) : Option String :=
  match p.components.getLast? with
  | some (.name s) =>
    match Text.cutLast '.' s.toList with
    | some (_ :: _, after) => some (String.ofList after)
    | _ => none
  | _ => none

end FilePath

end LayeredConfig
