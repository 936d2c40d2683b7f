import LayeredConfig.Store.FilePath

/-!
# Where documents are read from

A `Reader` says what is found at a path, and which paths mean the same file: the identity of a path
is the one place that all its spellings lead to. There are finitely many places with a file, and the
identity of every path that leads to a file is one of them.
-/

namespace LayeredConfig

/-- What is found at a path. -/
inductive Content where
  /-- No file. -/
  | absent
  /-- A file that is not text. -/
  | unreadable
  /-- A file with this text. -/
  | text (s : String)
deriving DecidableEq

/-- A source of documents. -/
structure Reader where
  /-- What is found at a path. -/
  look : FilePath → Content
  /-- The place that a path leads to. -/
  identity : FilePath → FilePath
  /-- All places with a file. -/
  places : List FilePath
  /-- A path that leads to a file leads to one of the places. -/
  identity_mem : ∀ p, look p ≠ .absent → identity p ∈ places

/-- There is a file at the path. -/
def Reader.has (r : Reader) (p : FilePath) : Bool :=
  r.look p ≠ .absent

end LayeredConfig
