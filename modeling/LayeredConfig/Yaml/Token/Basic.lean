import LayeredConfig.Yaml.Tag

/-!
# Tokens of YAML

What the text of a document falls into. Beside the words and marks that stand in the text there are
tokens for the beginning and the end of a block collection, which indentation brings about, and for
the key of a mapping, which often only the colon behind it shows.
-/

namespace LayeredConfig.Yaml

/-- A token. -/
inductive Token where
  /-- The end of the text. -/
  | streamEnd
  /-- The version that a document is written in. -/
  | versionDirective (major minor : Nat)
  /-- A handle for tags, and what it stands for. -/
  | tagDirective (handle : String) (expansion : Tag)
  /-- The mark that begins a document. -/
  | documentStart
  /-- The mark that ends a document. -/
  | documentEnd
  /-- A block sequence begins. -/
  | blockSequenceStart
  /-- A block mapping begins. -/
  | blockMappingStart
  /-- A block collection ends. -/
  | blockEnd
  /-- An opening square bracket. -/
  | flowSequenceStart
  /-- A closing square bracket. -/
  | flowSequenceEnd
  /-- An opening brace. -/
  | flowMappingStart
  /-- A closing brace. -/
  | flowMappingEnd
  /-- The hyphen before an item. -/
  | blockEntry
  /-- The comma between items or entries. -/
  | flowEntry
  /-- A key follows. -/
  | key
  /-- A value follows. -/
  | value
  /-- A reference to a named node. -/
  | alias (name : String)
  /-- A name for the node that follows. -/
  | anchor (name : String)
  /-- A tag, as a handle and what stands behind it. -/
  | tag (handle : String) (suffix : Tag)
  /-- A scalar, and whether it stands there without quotes and bars. -/
  | scalar (isPlain : Bool) (text : String)
deriving DecidableEq

end LayeredConfig.Yaml
