import LayeredConfig.CommandLine.Request
import LayeredConfig.Loader
import LayeredConfig.Toml.Render
import LayeredConfig.Tree.Prune

/-!
# What a command answers

A command loads the configuration and answers an `Outcome`: what the program writes, and whether it
succeeded. Where a command line asks for nothing that the program can do, there is no outcome.
-/

namespace LayeredConfig

/-- What the program runs on. -/
structure Host where
  /-- The files. -/
  reader : Reader
  /-- Environment variables. -/
  environment : Environment
  /-- The home directory, if there is one. -/
  home : Option FilePath

/-- What the program writes. -/
structure Outcome where
  /-- The program succeeded. -/
  succeeded : Bool
  /-- The text for the output. -/
  output : String
  /-- The line of an error, without its break. -/
  error : String
deriving DecidableEq

namespace Outcome

/-- The program succeeded with this output. -/
def success (output : String) : Outcome := ⟨true, output, ""⟩

/-- The program failed with this error. -/
def failure (error : String) : Outcome := ⟨false, "", error⟩

end Outcome

/-- The environment variable that names the root of the framework. -/
def frameworkVariable : String := "TYPO3_PATH_ROOT"

/-- The root of the framework; the working directory where the environment names none. -/
def frameworkRoot (environment : Environment) : FilePath :=
  match environment frameworkVariable with
  | some root => if root = "" then ⟨"."⟩ else ⟨root⟩
  | none => ⟨"."⟩

namespace LoadError

/-- What is behind an error, where something is. -/
def cause? : LoadError → Option String
  | .processorFailed _ reason => some reason
  | .unreadable _ => some "stream did not contain valid UTF-8"
  | _ => none

/-- The message and what is behind it. -/
def fullMessage (e : LoadError) : String :=
  match e.cause? with
  | some cause => e.message ++ ": " ++ cause
  | none => e.message

end LoadError

namespace Command

/-- The loader of a command. -/
def loader (c : Command) (host : Host) : Loader :=
  let base := Loader.ofEntry c.path host.reader host.environment host.home
  let defaults := if c.withDefaults then
    some (DefaultLayer.framework host.reader (frameworkRoot host.environment)) else none
  { base with strict := c.strict, defaults }

/-- A load failed. -/
def loadFailure (path : FilePath) (e : LoadError) : Outcome :=
  .failure ("error [" ++ Text.numeral e.code ++ "]: Failed to load " ++ path.text ++ ": "
    ++ e.fullMessage)

/-- A value as YAML. -/
def yamlOutcome (v : Value) : Outcome :=
  match Yaml.render? v with
  | some s => .success s
  | none =>
    .failure "error: Failed to render YAML: serializing nested enums in YAML is not supported yet"

/-- A tree as TOML, without its nulls. -/
def tomlOutcome (t : Tree) : Outcome :=
  match Toml.render (Tree.withoutNulls t) with
  | .ok s => .success s
  | .error fault => .failure ("error: Failed to render TOML: " ++ fault.reason)

/-- A value on its own. Strings and other scalars stand there as they are. -/
def valueOutcome : Value → Outcome
  | .string s => .success (s ++ "\n")
  | .null => .success "null\n"
  | .bool b => .success (if b then "true\n" else "false\n")
  | .int i => .success (Text.signedNumeral i ++ "\n")
  | .float x => .success (NumberFormat.document.render x ++ "\n")
  | v => yamlOutcome v

/-- The word for how a document came into the tree. -/
def kindWord : DocumentKind → String
  | .entry => "entry"
  | .imported => "import"
  | .default => "default"

/-- The line of a document, indented by its depth. -/
def documentLine (d : LoadedDocument) : String :=
  String.join (List.replicate d.depth "  ") ++ d.path.text ++ " (" ++ kindWord d.kind ++ ")\n"

/-- The list of documents. -/
def listing (documents : List LoadedDocument) : String :=
  if documents.isEmpty then "No configuration documents found.\n"
  else String.join (documents.map documentLine)

/-- The line that says that a configuration is valid. -/
def validLine (path : FilePath) (a : Assembly) : String :=
  "Configuration is valid: " ++ path.text ++ " (" ++ Text.numeral a.documents.length
    ++ " documents, " ++ Text.numeral a.tree.length ++ " top-level keys)\n"

/-- What a command answers to a loaded configuration. -/
def answer (c : Command) (a : Assembly) : Outcome :=
  match c.action with
  | .print .yaml => yamlOutcome (.mapping a.tree)
  | .print .toml => tomlOutcome a.tree
  | .look key =>
    match a.tree.get? key with
    | some v => valueOutcome v
    | none => .failure ("Key not found: " ++ key)
  | .validate => .success (validLine c.path a)
  | .list => .success (listing a.documents)

/-- What a command answers to a failed load. -/
def answerFailure (c : Command) (e : LoadError) : Outcome :=
  match c.action with
  | .validate =>
    .failure ("Configuration error [" ++ Text.numeral e.code ++ "]: " ++ e.message)
  | _ => loadFailure c.path e

/-- Runs a command. -/
def run (c : Command) (host : Host) : Outcome :=
  match (c.loader host).load with
  | .ok a => c.answer a
  | .error e => c.answerFailure e

end Command

/-- The line that names the version of the program. -/
def versionLine : String := "confstack 0.1.0\n"

/-- How the program is used, line by line. -/
def usageLines : List String :=
  ["Usage: confstack [-v | -q] <COMMAND>",
    "",
    "Commands:",
    "  show <PATH> [--format yaml|toml]  Print the fully resolved configuration",
    "  get <PATH> <KEY>                  Print a single value by dotted key path",
    "  validate <PATH>                   Load the configuration and report whether it is valid",
    "  imports <PATH>                    List every document merged into the configuration",
    "",
    "Options of every command:",
    "  --strict       Fail on unresolved placeholders instead of substituting null",
    "  --no-defaults  Do not merge the framework default configuration"]

/-- How the program is used. -/
def usage : String :=
  String.join (usageLines.map (· ++ "\n"))

/-- What the program answers to a command line; nothing where the command line is wrong. -/
def Request.answer? (host : Host) : Request → Option Outcome
  | .run c => some (c.run host)
  | .version => some (.success versionLine)
  | .help => some (.success usage)
  | .misuse => none

end LayeredConfig
