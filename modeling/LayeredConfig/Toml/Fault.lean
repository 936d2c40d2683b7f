/-!
# Why a text is not TOML

The causes for which a TOML text is refused, by the construct in which the fault lies. All of them
mean the same to someone who loads a document: it is malformed.
-/

namespace LayeredConfig.Toml

/-- The cause for which a text is refused. -/
inductive Fault where
  /-- A comment that holds a control character, or does not end with its line. -/
  | badComment
  /-- A string that is not closed, or holds what it may not. -/
  | badString
  /-- A key that is none, or has too many parts. -/
  | badKey
  /-- A value that is none. -/
  | badValue
  /-- A number that no integer or floating point number of 64 bits holds. -/
  | outOfRange
  /-- An array without its bracket or a comma. -/
  | badArray
  /-- An inline table without its brace or a comma. -/
  | badInlineTable
  /-- Values nested too deeply. -/
  | tooDeep
  /-- A header without its brackets. -/
  | badHeader
  /-- Something behind a statement on its line. -/
  | badLine
  /-- A key or table that there is already. -/
  | duplicateKey
  /-- An entry below something that is closed. -/
  | closedValue
deriving DecidableEq

end LayeredConfig.Toml
