import LayeredConfig.Text.Blank
import LayeredConfig.Text.Opening

/-!
# Placeholders in a text

A placeholder is `%env(NAME)%`, `%const(NAME)%` or `%conf(dotted.path)%`. The identifier between the
brackets is not empty and holds no bracket, no per cent sign and no blank character.

`pieces` cuts a text into its placeholders and the literal text between them, from left to right;
a per cent sign that begins no placeholder is literal text. Putting the pieces together again gives
the text back.
-/

namespace LayeredConfig

/-- Where a placeholder takes its value from. -/
inductive PlaceholderKind where
  /-- An environment variable. -/
  | environment
  /-- A named constant. -/
  | constant
  /-- Another place of the configuration. -/
  | configuration
deriving DecidableEq

/-- The word that stands for a kind in an expression. -/
def PlaceholderKind.word : PlaceholderKind → String
  | .environment => "env"
  | .constant => "const"
  | .configuration => "conf"

/-- A placeholder. -/
structure Placeholder where
  /-- Where the value comes from. -/
  kind : PlaceholderKind
  /-- The name of the variable or constant, or the dotted path. -/
  identifier : String
deriving DecidableEq

/-- A part of a text. -/
inductive Piece where
  /-- Text that stands for itself. -/
  | literal (text : List Char)
  /-- A placeholder. -/
  | placeholder (p : Placeholder)
deriving DecidableEq

namespace Placeholder

/-- The placeholder as it is written. -/
def expression (p : Placeholder) : String :=
  "%" ++ p.kind.word ++ "(" ++ p.identifier ++ ")%"

/-- A character that an identifier may hold. -/
def isIdentifierChar (c : Char) : Bool :=
  !(c = '(' || c = ')' || c = '%' || Text.isBlank c)

/-- The kinds in the order in which they are tried; no text opens with the words of two. -/
def kinds : List PlaceholderKind :=
  [.environment, .constant, .configuration]

/-- What a placeholder of a kind begins with. -/
def opening (kind : PlaceholderKind) : List Char :=
  '%' :: kind.word.toList ++ ['(']

/-- The kind of placeholder that a text opens with, and the text behind the bracket. -/
def readOpening? (cs : List Char) : Option (PlaceholderKind × List Char) :=
  kinds.findSome? fun kind ↦ (Text.after? (opening kind) cs).map fun r ↦ (kind, r)

/-- The placeholder that a text opens with, and the text behind it. -/
def read? (cs : List Char) : Option (Placeholder × List Char) :=
  match readOpening? cs with
  | some (kind, body) =>
    match body.takeWhile isIdentifierChar, body.dropWhile isIdentifierChar with
    | c :: identifier, ')' :: '%' :: rest => some (⟨kind, String.ofList (c :: identifier)⟩, rest)
    | _, _ => none
  | none => none

theorem eq_of_readOpening?_eq_some {cs r : List Char} {kind : PlaceholderKind}
    (h : readOpening? cs = some (kind, r)) : cs = opening kind ++ r := by
  obtain ⟨k, -, hk⟩ := List.exists_of_findSome?_eq_some h
  obtain ⟨r', hr', heq⟩ := Option.map_eq_some_iff.1 hk
  simp only [Prod.mk.injEq] at heq
  obtain ⟨rfl, rfl⟩ := heq
  exact Text.after?_eq_some_iff.1 hr'

/-- What is read is the expression of the placeholder. -/
theorem eq_of_read?_eq_some {cs r : List Char} {p : Placeholder} (h : read? cs = some (p, r)) :
    cs = p.expression.toList ++ r := by
  unfold read? at h
  split at h
  · rename_i kind body hopen
    split at h
    · rename_i c identifier rest htake hdrop
      simp only [Option.some.injEq, Prod.mk.injEq] at h
      obtain ⟨rfl, rfl⟩ := h
      have hbody := List.takeWhile_append_dropWhile (p := isIdentifierChar) (l := body)
      rw [htake, hdrop] at hbody
      rw [eq_of_readOpening?_eq_some hopen, ← hbody]
      simp [expression, opening]
    · simp at h
  · simp at h

/-- A placeholder takes up at least one character. -/
theorem length_lt_of_read?_eq_some {cs r : List Char} {p : Placeholder}
    (h : read? cs = some (p, r)) : r.length < cs.length := by
  rw [eq_of_read?_eq_some h]
  simp [expression]
  omega

/-- Puts a literal character before pieces. -/
def consLiteral (c : Char) : List Piece → List Piece
  | .literal text :: r => .literal (c :: text) :: r
  | pieces => .literal [c] :: pieces

/-- The pieces of a text, from left to right. -/
def pieces (cs : List Char) : List Piece :=
  match cs with
  | [] => []
  | c :: r =>
    match _h : read? (c :: r) with
    | some (p, rest) => .placeholder p :: pieces rest
    | none => consLiteral c (pieces r)
termination_by cs.length
decreasing_by
  · exact length_lt_of_read?_eq_some _h
  · simp

/-- The pieces of a string. -/
def ofString (s : String) : List Piece :=
  pieces s.toList

/-- A placeholder with the place where it stands, in bytes from the start of the text. -/
structure Occurrence where
  /-- What was found. -/
  placeholder : Placeholder
  /-- The byte at which it begins. -/
  start : Nat
  /-- The byte at which the text goes on. -/
  stop : Nat
deriving DecidableEq

/-- The placeholders among pieces of which the first begins at the byte `offset`. -/
def occurrencesFrom (offset : Nat) : List Piece → List Occurrence
  | [] => []
  | .literal text :: r => occurrencesFrom (offset + (String.ofList text).utf8ByteSize) r
  | .placeholder p :: r =>
    let stop := offset + p.expression.utf8ByteSize
    ⟨p, offset, stop⟩ :: occurrencesFrom stop r

/-- Every placeholder of a text, from left to right. -/
def occurrences (s : String) : List Occurrence :=
  occurrencesFrom 0 (ofString s)

/-- The text has a placeholder. -/
def occursIn (s : String) : Bool :=
  (ofString s).any fun
    | .placeholder _ => true
    | .literal _ => false

end Placeholder

end LayeredConfig
