import LayeredConfig.Import.Assembly
import LayeredConfig.Legacy.Section
import LayeredConfig.Processor.Declared

/-!
# Loading a configuration

A `Loader` holds everything that a load depends on. A load has four stages, in this order: the tree
is assembled from its documents, its placeholders are substituted, its sections are put into the
legacy encoding, and its processors run, those that the documents declare before those of the
loader.
-/

namespace LayeredConfig

/-- What a load depends on. -/
structure Loader where
  /-- The entry document. -/
  entry : FilePath
  /-- A placeholder without a value is an error. -/
  strict : Bool
  /-- The documents. -/
  reader : Reader
  /-- Environment variables. -/
  environment : Environment
  /-- The home directory, if there is one. -/
  home : Option FilePath
  /-- Named constants. -/
  constants : Constants
  /-- The default layer, if there is one. -/
  defaults : Option DefaultLayer
  /-- The dotted paths of the sections that are encoded. -/
  sections : List String
  /-- Processors that run after those that the documents declare. -/
  processors : List Processor

namespace Loader

/-- The loader of a document, with the constants and the section that every configuration has, and
nothing else. -/
def ofEntry (entry : FilePath) (reader : Reader) (environment : Environment)
    (home : Option FilePath) : Loader :=
  ⟨entry, false, reader, environment, home, .builtin, none, [Legacy.extensionSection], []⟩

/-- The loader with one more section; a section is not encoded twice. -/
def withSection (l : Loader) (path : String) : Loader :=
  if path ∈ l.sections then l else { l with sections := l.sections ++ [path] }

/-- What placeholders are substituted from. -/
def scope (l : Loader) : Scope :=
  ⟨l.environment, l.constants, l.strict⟩

/-- Where the tree is assembled from. -/
def sources (l : Loader) : Sources :=
  ⟨l.reader, l.defaults, l.scope, l.home⟩

/-- Everything that happens to the tree once it is assembled. -/
def finish (l : Loader) (t : Tree) : Except LoadError Tree := do
  let resolved ← l.scope.resolve t
  let (declared, rest) ← (resolved.encodeSections l.sections).takeProcessors
  Processor.runChain rest (declared ++ l.processors)

/-- Loads the configuration: its tree, and the documents that it was assembled from. -/
def load (l : Loader) : Except LoadError Assembly := do
  let assembled ← l.sources.assembleEntry l.entry false
  let tree ← l.finish assembled.tree
  .ok ⟨tree, assembled.documents⟩

/-- Texts between brackets, in quotation marks. -/
def describeList (texts : List String) : String :=
  "[" ++ Text.joinWith ", " (texts.map Text.quoted) ++ "]"

/-- The settings of a loader on one line. -/
def describe (l : Loader) : String :=
  let defaults := match l.defaults with
    | some layer => "Some(" ++ Text.quoted layer.description ++ ")"
    | none => "None"
  "ConfigLoader \x7b path: " ++ Text.quoted l.entry.text
    ++ ", strict: " ++ (if l.strict then "true" else "false")
    ++ ", defaults: " ++ defaults
    ++ ", serialize_paths: " ++ describeList l.sections
    ++ ", processors: " ++ describeList (l.processors.map (·.name)) ++ ", .. \x7d"

end Loader

end LayeredConfig
