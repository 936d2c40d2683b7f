import LayeredConfig.Store.FilePath

/-!
# Why a configuration cannot be loaded

Every cause has its own constructor with the facts that it reports, one message and one stable code.
Both kinds of syntax error share a code.
-/

namespace LayeredConfig

/-- The cause of a failed load. -/
inductive LoadError where
  /-- An import names a file that does not exist. -/
  | missingImport (path importer : FilePath)
  /-- A placeholder has no value where every placeholder must have one. -/
  | unresolvedPlaceholder (placeholder key : String)
  /-- A document imports itself through the given chain. -/
  | circularImport (chain : List FilePath)
  /-- A document exists and cannot be read as text. -/
  | unreadable (path : FilePath)
  /-- A document is not well-formed YAML. -/
  | malformedYaml (path : FilePath)
  /-- A document is not well-formed TOML. -/
  | malformedToml (path : FilePath)
  /-- The root of a document is not a mapping. -/
  | rootNotMapping (path : FilePath)
  /-- A document's list of imports is not well-formed. -/
  | invalidImport (path : FilePath) (reason : String)
  /-- A placeholder inside a text stands for a mapping or a sequence. -/
  | nonScalarInterpolation (placeholder key : String)
  /-- A declared processor is not well-formed. -/
  | invalidProcessor (reason : String)
  /-- A processor failed. -/
  | processorFailed (name reason : String)
  /-- A path starts from the home directory, and there is none. -/
  | homeNotFound
deriving DecidableEq

namespace LoadError

/-- The message for a reader. A processor's own reason is not part of it. -/
def message : LoadError → String
  | .missingImport path importer =>
    "Imported config file does not exist: " ++ path.text ++ " (imported from " ++ importer.text
      ++ ")"
  | .unresolvedPlaceholder placeholder key =>
    "Could not resolve placeholder " ++ placeholder ++ " in \"" ++ key ++ "\""
  | .circularImport chain =>
    "Circular import detected: " ++ Text.joinWith " -> " (chain.map FilePath.text)
  | .unreadable path => "Failed to read config file: " ++ path.text
  | .malformedYaml path => "Failed to parse YAML config file: " ++ path.text
  | .malformedToml path => "Failed to parse TOML config file: " ++ path.text
  | .rootNotMapping path => "Config file must contain a mapping at its root: " ++ path.text
  | .invalidImport path reason => "Invalid import entry in " ++ path.text ++ ": " ++ reason
  | .nonScalarInterpolation placeholder key =>
    "Placeholder " ++ placeholder ++ " in \"" ++ key
      ++ "\" resolves to a mapping or sequence and cannot be embedded in text"
  | .invalidProcessor reason => "Invalid processor declaration: " ++ reason
  | .processorFailed name _ => "Processor \"" ++ name ++ "\" failed"
  | .homeNotFound => "Failed to resolve home directory"

/-- The stable code of a cause. -/
def code : LoadError → Nat
  | .unresolvedPlaceholder .. => 1519640359
  | .missingImport .. => 1519640360
  | .circularImport .. => 1519640361
  | .unreadable .. => 1519640362
  | .malformedYaml .. | .malformedToml .. => 1519640363
  | .rootNotMapping .. => 1519640364
  | .invalidImport .. => 1519640365
  | .nonScalarInterpolation .. => 1519640366
  | .invalidProcessor .. => 1519640367
  | .processorFailed .. => 1519640368
  | .homeNotFound => 1519640369

end LoadError

end LayeredConfig
