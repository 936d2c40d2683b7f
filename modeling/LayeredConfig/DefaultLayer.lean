import LayeredConfig.Document
import LayeredConfig.Store.Reader

/-!
# The default layer

The layer that a configuration is laid over. It is a fixed tree, or the first document of a
framework's defaults below the framework's root directory. A framework without such a document has
an empty default layer.
-/

namespace LayeredConfig

/-- A default layer. -/
structure DefaultLayer where
  /-- Where it comes from, for a reader. -/
  description : String
  /-- Its tree, or why it cannot be loaded. -/
  tree : Except LoadError Tree

namespace DefaultLayer

/-- A fixed tree. -/
def fixed (t : Tree) : DefaultLayer :=
  ⟨"<static defaults>", .ok t⟩

/-- The directory of a framework's defaults below its root. -/
def frameworkDirectory : String := "typo3/sysext/core/Configuration"

/-- The names of the document with a framework's defaults, the first that exists counts. -/
def frameworkNames : List String :=
  ["DefaultConfiguration.yaml", "DefaultConfiguration.yml", "DefaultConfiguration.toml"]

/-- The directory of the defaults below a root. -/
def directoryBelow (root : FilePath) : FilePath :=
  root.join frameworkDirectory

/-- The paths that may hold the defaults below a root, in order. -/
def candidates (root : FilePath) : List FilePath :=
  frameworkNames.map (directoryBelow root).join

/-- The first of the paths with a file. -/
def discover? (r : Reader) (root : FilePath) : Option FilePath :=
  (candidates root).find? r.has

/-- The tree of the document at a path. -/
def readDocument (r : Reader) (p : FilePath) : Except LoadError Tree :=
  match r.look p with
  | .text s => Document.parse p s
  | _ => .error (.unreadable p)

/-- The defaults of the framework below a root. -/
def framework (r : Reader) (root : FilePath) : DefaultLayer :=
  match discover? r root with
  | some p => ⟨p.text, readDocument r p⟩
  | none => ⟨(directoryBelow root).text, .ok []⟩

end DefaultLayer

end LayeredConfig
