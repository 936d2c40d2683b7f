import LayeredConfig.Yaml.Character

/-!
# A place in a text

A `Cursor` is the part of a text that is still to be read, with the place where it begins: how many
characters were read, and the line and column. A carriage return with the line feed behind it is one
break. Every move shortens what is left.
-/

namespace LayeredConfig.Yaml

/-- The unread part of a text and where it begins. -/
structure Cursor where
  /-- What is still to be read. -/
  rest : List Char
  /-- The number of characters read. -/
  index : Nat
  /-- The number of lines read. -/
  line : Nat
  /-- The number of characters read on this line. -/
  column : Nat

namespace Cursor

/-- The start of a text. -/
def start (cs : List Char) : Cursor :=
  ⟨cs, 0, 0, 0⟩

/-- Behind `n` characters of this line. -/
def skip (cur : Cursor) (n : Nat) : Cursor :=
  { cur with rest := cur.rest.drop n, index := cur.index + n, column := cur.column + n }

/-- Behind the break that comes next. -/
def skipBreak (cur : Cursor) : Cursor :=
  match cur.rest with
  | '\r' :: '\n' :: r => ⟨r, cur.index + 2, cur.line + 1, 0⟩
  | _ :: r => ⟨r, cur.index + 1, cur.line + 1, 0⟩
  | [] => cur

/-- The character that the break that comes next stands for. -/
def breakChar (cur : Cursor) : Char :=
  match cur.rest with
  | c :: _ => if c.toNat = 0x2028 || c.toNat = 0x2029 then c else '\n'
  | [] => '\n'

/-- A character with `p` comes next. -/
def sees (cur : Cursor) (p : Char → Bool) : Bool :=
  cur.rest.head?.any p

/-- The characters with `p` that come next, and the place behind them. -/
def span (cur : Cursor) (p : Char → Bool) : List Char × Cursor :=
  let taken := cur.rest.takeWhile p
  (taken, cur.skip taken.length)

/-- Behind the characters with `p` that come next. -/
def skipWhile (cur : Cursor) (p : Char → Bool) : Cursor :=
  (cur.span p).2

/-- Behind the character that comes next, if it has `p`. -/
def skipIf (cur : Cursor) (p : Char → Bool) : Cursor :=
  if cur.sees p then cur.skip 1 else cur

/-- Behind the comment that comes next, if one does: a number sign and the rest of its line. -/
def skipComment (cur : Cursor) : Cursor :=
  if cur.sees (· = '#') then cur.skipWhile (!isBreak ·) else cur

/-- The line opens with three times the mark, alone or in front of a gap. -/
def atMarker (cur : Cursor) (mark : Char) : Bool :=
  cur.column = 0 &&
    match cur.rest with
    | a :: b :: c :: r => a = mark && b = mark && c = mark && gapFollows r
    | _ => false

/-- A document ends or begins here. -/
def atDocumentMarker (cur : Cursor) : Bool :=
  cur.atMarker '-' || cur.atMarker '.'

theorem length_rest_skip_le (cur : Cursor) (n : Nat) :
    (cur.skip n).rest.length ≤ cur.rest.length := by
  simp [skip]

theorem length_rest_skip_lt {cur : Cursor} {n : Nat} (hn : 0 < n) (h : cur.rest ≠ []) :
    (cur.skip n).rest.length < cur.rest.length := by
  have := List.length_pos_iff.2 h
  simp only [skip, List.length_drop]
  omega

theorem length_rest_skipWhile_le (cur : Cursor) (p : Char → Bool) :
    (cur.skipWhile p).rest.length ≤ cur.rest.length :=
  length_rest_skip_le cur _

theorem length_rest_skipIf_le (cur : Cursor) (p : Char → Bool) :
    (cur.skipIf p).rest.length ≤ cur.rest.length := by
  unfold skipIf
  split
  · exact length_rest_skip_le cur 1
  · exact Nat.le_refl _

theorem length_rest_skipComment_le (cur : Cursor) :
    cur.skipComment.rest.length ≤ cur.rest.length := by
  unfold skipComment
  split
  · exact length_rest_skipWhile_le cur _
  · exact Nat.le_refl _

theorem length_rest_skipBreak_lt {cur : Cursor} (h : cur.rest ≠ []) :
    cur.skipBreak.rest.length < cur.rest.length := by
  unfold skipBreak
  split
  · rename_i r hrest
    rw [hrest]
    simp only [List.length_cons]
    omega
  · simp_all
  · contradiction

theorem ne_nil_of_sees {cur : Cursor} {p : Char → Bool} (h : cur.sees p = true) :
    cur.rest ≠ [] := by
  intro hnil
  simp [sees, hnil] at h

end Cursor

end LayeredConfig.Yaml
