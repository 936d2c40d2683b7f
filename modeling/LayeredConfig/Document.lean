import LayeredConfig.Error
import LayeredConfig.Toml.Expression
import LayeredConfig.Yaml.Document

/-!
# Documents

A document is a text in one of two formats, which the extension of its file's name tells. Its root
is a mapping; an empty document is an empty tree.
-/

namespace LayeredConfig

/-- A format of documents. -/
inductive DocumentFormat where
  /-- YAML. -/
  | yaml
  /-- TOML. -/
  | toml
deriving DecidableEq

namespace DocumentFormat

/-- The format of a file: TOML for the extension `toml` in any mixture of cases, YAML for all
others. -/
def ofPath (path : FilePath) : DocumentFormat :=
  match path.extension? with
  | some extension =>
    if extension.toList.map Char.toLower = "toml".toList then .toml else .yaml
  | none => .yaml

end DocumentFormat

namespace Document

/-- The tree of a YAML text. -/
def parseYaml (path : FilePath) (text : String) : Except LoadError Tree :=
  match Yaml.read text with
  | .ok .null => .ok []
  | .ok (.mapping entries) => .ok entries
  | .ok _ => .error (.rootNotMapping path)
  | .error _ => .error (.malformedYaml path)

/-- The tree of a TOML text. -/
def parseToml (path : FilePath) (text : String) : Except LoadError Tree :=
  match Toml.read text with
  | .ok entries => .ok entries
  | .error _ => .error (.malformedToml path)

/-- The tree of the document at a path, whose text is given. -/
def parse (path : FilePath) (text : String) : Except LoadError Tree :=
  match DocumentFormat.ofPath path with
  | .yaml => parseYaml path text
  | .toml => parseToml path text

end Document

end LayeredConfig
