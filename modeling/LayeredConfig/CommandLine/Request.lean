import LayeredConfig.Placeholder.Scope
import LayeredConfig.Store.FilePath
import LayeredConfig.Text.Opening

/-!
# What a command line asks for

`Request.read` reads the words of a command line from left to right and stops at the first that is
wrong. Words that begin with a hyphen are options, in one cluster if they are single letters; behind
`--` no word is an option. No option may be given twice, and asking for more messages and for fewer
at once is refused, unless one stands before the command and the other behind it.

That placeholders must have values can also be asked for by an environment variable, which counts
where the option is not given.
-/

namespace LayeredConfig

/-- A format of the output. -/
inductive OutputFormat where
  /-- YAML. -/
  | yaml
  /-- TOML. -/
  | toml
deriving DecidableEq

/-- What is to be done with a configuration. -/
inductive Action where
  /-- Writing all of it. -/
  | print (format : OutputFormat)
  /-- Writing the value at a dotted path. -/
  | look (key : String)
  /-- Saying whether it can be loaded. -/
  | validate
  /-- Listing its documents. -/
  | list
deriving DecidableEq

/-- A command. -/
structure Command where
  /-- What is to be done. -/
  action : Action
  /-- The entry document. -/
  path : FilePath
  /-- A placeholder without a value is an error. -/
  strict : Bool
  /-- The configuration is laid over the framework's defaults. -/
  withDefaults : Bool
deriving DecidableEq

/-- What a command line asks for. -/
inductive Request where
  /-- A command. -/
  | run (c : Command)
  /-- The version of the program. -/
  | version
  /-- How the program is used. -/
  | help
  /-- Nothing that the program can do. -/
  | misuse
deriving DecidableEq

namespace Request

/-- The environment variable that asks for strict placeholders. -/
def strictVariable : String := "CONFSTACK_STRICT"

/-- The words for commands. -/
inductive Verb where
  /-- Writes the configuration. -/
  | print
  /-- Writes a value. -/
  | look
  /-- Checks the configuration. -/
  | validate
  /-- Lists documents. -/
  | list
deriving DecidableEq

namespace Verb

/-- The command that a word stands for. -/
def ofWord? : String → Option Verb
  | "show" => some .print
  | "get" => some .look
  | "validate" => some .validate
  | "imports" => some .list
  | _ => none

/-- How many words a command takes. -/
def arity : Verb → Nat
  | .look => 2
  | _ => 1

end Verb

/-- Switches that may stand before or behind the command. -/
structure Volume where
  /-- More messages. -/
  verbose : Bool
  /-- Fewer messages. -/
  quiet : Bool

/-- What was read behind a command. -/
structure Arguments where
  /-- How many messages are wanted. -/
  volume : Volume
  /-- A placeholder without a value is an error. -/
  strict : Bool
  /-- The defaults are left out. -/
  noDefaults : Bool
  /-- The format of the output. -/
  format : Option OutputFormat
  /-- The words that are no options. -/
  words : List String

/-- Nothing was read. -/
def Arguments.start : Arguments :=
  ⟨⟨false, false⟩, false, false, none, []⟩

/-- A part of a command line, or the request that ends the reading. -/
abbrev Reading := Except Request

/-- Sets a switch that was not set before. -/
def setOnce (switch : Bool) : Reading Bool :=
  if switch then .error .misuse else .ok true

/-- More messages. -/
def Volume.setVerbose (v : Volume) : Reading Volume := do
  let verbose ← setOnce v.verbose
  .ok { v with verbose }

/-- Fewer messages. -/
def Volume.setQuiet (v : Volume) : Reading Volume := do
  let quiet ← setOnce v.quiet
  .ok { v with quiet }

/-- Refuses both switches at once. -/
def Volume.check (v : Volume) : Reading Unit :=
  if v.verbose && v.quiet then .error .misuse else .ok ()

/-- Reads a cluster of single letters. Only before the command is there a letter for the version. -/
def readLetters (hasVersion : Bool) (v : Volume) : List Char → Reading Volume
  | [] => .ok v
  | c :: r => do
    if c = 'v' then
      let v ← v.setVerbose
      readLetters hasVersion v r
    else if c = 'q' then
      let v ← v.setQuiet
      readLetters hasVersion v r
    else if c = 'h' then .error .help
    else if c = 'V' && hasVersion then .error .version
    else .error .misuse

/-- The letters of a word that is a cluster of single-letter options. -/
def letters? (word : String) : Option (List Char) :=
  match word.toList with
  | '-' :: c :: r => if c = '-' then none else some (c :: r)
  | _ => none

/-- The word is an option in full. -/
def isLong (word : String) : Bool :=
  (Text.after? ['-', '-'] word.toList).isSome

/-- The value behind the equals sign of the option for the format. -/
def attachedFormat? (word : String) : Option String :=
  (Text.after? "--format=".toList word.toList).map String.ofList

namespace Arguments

/-- Adds a word. There are only so many, and the path of the entry is not empty. -/
def addWord (verb : Verb) (a : Arguments) (word : String) : Reading Arguments :=
  if verb.arity ≤ a.words.length ∨ (a.words = [] ∧ word = "") then .error .misuse
  else .ok { a with words := a.words ++ [word] }

/-- Sets the format. -/
def setFormat (verb : Verb) (a : Arguments) (word : String) : Reading Arguments :=
  if verb ≠ .print || a.format.isSome then .error .misuse
  else match word with
    | "yaml" => .ok { a with format := some .yaml }
    | "toml" => .ok { a with format := some .toml }
    | _ => .error .misuse

/-- Reads an option that stands alone. -/
def setLong (a : Arguments) : String → Reading Arguments
  | "--help" => .error .help
  | "--verbose" => do
    let volume ← a.volume.setVerbose
    .ok { a with volume }
  | "--quiet" => do
    let volume ← a.volume.setQuiet
    .ok { a with volume }
  | "--strict" => do
    let strict ← setOnce a.strict
    .ok { a with strict }
  | "--no-defaults" => do
    let noDefaults ← setOnce a.noDefaults
    .ok { a with noDefaults }
  | _ => .error .misuse

/-- Reads the words behind a command. -/
def read (verb : Verb) (a : Arguments) : List String → Reading Arguments
  | [] => .ok a
  | "--" :: r => r.foldlM (addWord verb) a
  | "--format" :: value :: r => do
    let a ← a.setFormat verb value
    read verb a r
  | word :: r => do
    let next ← match attachedFormat? word, letters? word with
      | some value, _ => a.setFormat verb value
      | none, some letters => do
        let volume ← readLetters false a.volume letters
        .ok { a with volume }
      | none, none => if isLong word then a.setLong word else a.addWord verb word
    read verb next r

/-- What is to be done. -/
def action? (verb : Verb) (a : Arguments) : Option (Action × FilePath) :=
  match verb, a.words with
  | .print, [path] => some (.print (a.format.getD .yaml), ⟨path⟩)
  | .look, [path, key] => some (.look key, ⟨path⟩)
  | .validate, [path] => some (.validate, ⟨path⟩)
  | .list, [path] => some (.list, ⟨path⟩)
  | _, _ => none

/-- Whether placeholders must have values. -/
def isStrict (environment : Environment) (a : Arguments) : Reading Bool :=
  if a.strict then .ok true
  else match environment strictVariable with
    | none => .ok false
    | some "true" => .ok true
    | some "false" => .ok false
    | some _ => .error .misuse

/-- The command. -/
def command (environment : Environment) (verb : Verb) (a : Arguments) : Reading Command := do
  let strict ← a.isStrict environment
  a.volume.check
  match a.action? verb with
  | some (action, path) => .ok ⟨action, path, strict, !a.noDefaults⟩
  | none => .error .misuse

end Arguments

/-- Reads the words up to the command, and those behind it. -/
def readCommand (environment : Environment) (v : Volume) : List String → Reading Command
  | [] => .error .misuse
  | word :: r => do
    match Verb.ofWord? word, letters? word with
    | some verb, _ => do
      -- The switches behind the command are counted apart from those before it.
      let arguments ← Arguments.start.read verb r
      let command ← arguments.command environment verb
      v.check
      .ok command
    | none, some letters => do
      let v ← readLetters true v letters
      readCommand environment v r
    | none, none =>
      match word with
      | "--version" => .error .version
      | "--help" | "help" => .error .help
      | "--verbose" => do
        let v ← v.setVerbose
        readCommand environment v r
      | "--quiet" => do
        let v ← v.setQuiet
        readCommand environment v r
      | _ => .error .misuse

/-- What a command line asks for. -/
def read (environment : Environment) (words : List String) : Request :=
  match readCommand environment ⟨false, false⟩ words with
  | .ok command => .run command
  | .error request => request

end Request

end LayeredConfig
