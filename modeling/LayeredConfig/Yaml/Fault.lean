/-!
# Why a text is not YAML

The causes for which a YAML text is refused, by the construct in which the fault lies. All of them
mean the same to someone who loads a document: it is malformed.
-/

namespace LayeredConfig.Yaml

/-- The cause for which a text is refused. -/
inductive Fault where
  /-- A character that no document may hold. -/
  | forbiddenCharacter
  /-- A character that begins no construct. -/
  | unexpectedCharacter
  /-- A tab where only blanks indent. -/
  | tabIndentation
  /-- A quoted scalar without its closing mark. -/
  | unclosedQuote
  /-- An escape that stands for no character. -/
  | badEscape
  /-- The line that opens a block scalar. -/
  | badBlockHeader
  /-- A colon in a plain scalar in front of a flow indicator. -/
  | ambiguousColon
  /-- The name of an anchor or alias. -/
  | badAnchor
  /-- A tag, or the handle of a tag. -/
  | badTag
  /-- A directive. -/
  | badDirective
  /-- A key without its colon. -/
  | missingColon
  /-- An item, key or value where none may begin. -/
  | misplacedIndicator
  /-- A token that the structure does not allow at its place. -/
  | unexpectedToken
  /-- An alias of something that was not named before. -/
  | unknownAlias
  /-- Aliases that repeat too much. -/
  | tooManyAliases
  /-- Collections nested too deeply. -/
  | tooDeep
  /-- A scalar that is not of the kind that its tag says. -/
  | wrongKind
  /-- An integer that is too large. -/
  | oversizedInteger
  /-- A key that a mapping has already. -/
  | duplicateKey
  /-- More than one document. -/
  | manyDocuments
deriving DecidableEq

end LayeredConfig.Yaml
