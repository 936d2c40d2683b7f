import LayeredConfig.Number.Decimal

/-!
# What a plain scalar stands for

A scalar without quotes is read as null, a truth value or a number if its text has that form, and as
a string otherwise. `Plain.read` decides, for the reader that builds values and for the writer that
has to know which strings need quotes.

Integers are decimal, or hexadecimal, octal or binary after `0x`, `0o` or `0b`, with an optional
sign. Digits behind a leading zero are no number. An integer that needs more than 64 but not more
than 128 bits is a class of its own, `oversized`, since documents refuse it; a still larger one is
read as a floating point number. A number above the finite range is a string.
-/

namespace LayeredConfig.Yaml

/-- The reading of a plain scalar. -/
inductive Plain where
  /-- An absent value. -/
  | null
  /-- A truth value. -/
  | bool (b : Bool)
  /-- An integer of at most 64 bits. -/
  | int (i : Int)
  /-- An integer of more than 64 and at most 128 bits. -/
  | oversized
  /-- A floating point number. -/
  | float (x : Binary64)
  /-- Any other text. -/
  | text
deriving DecidableEq

namespace Plain

/-- The words for null. -/
def isNullWord (s : String) : Bool :=
  s == "null" || s == "Null" || s == "NULL" || s == "~"

/-- The truth value that a word stands for. -/
def truth? (s : String) : Option Bool :=
  if s == "true" || s == "True" || s == "TRUE" then some true
  else if s == "false" || s == "False" || s == "FALSE" then some false
  else none

/-- Two or more digits of which the first is zero, after at most one sign. -/
def hasLeadingZero (cs : List Char) : Bool :=
  match (Decimal.takeSign cs).2 with
  | '0' :: r => !r.isEmpty && r.all Text.isDigit
  | _ => false

/-- The magnitude of an integer without its sign: digits in base ten, or in the base that a mark at
the front names. -/
def magnitude? : List Char → Option Nat
  | '0' :: 'x' :: r => Text.ofDigits? 16 r
  | '0' :: 'o' :: r => Text.ofDigits? 8 r
  | '0' :: 'b' :: r => Text.ofDigits? 2 r
  | cs => if hasLeadingZero cs then none else Text.ofDigits? 10 cs

/-- The integer that a text denotes, of any size. -/
def integer? : List Char → Option Int
  | '-' :: r => (magnitude? r).map fun n ↦ -(n : Int)
  | '+' :: r => (magnitude? r).map fun n ↦ n
  | cs => (magnitude? cs).map fun n ↦ n

/-- An integer by its size; `none` when it has more than 128 bits. -/
def ofInt? (i : Int) : Option Plain :=
  if -0x8000000000000000 ≤ i ∧ i < 0x10000000000000000 then some (.int i)
  else if -0x80000000000000000000000000000000 ≤ i ∧ i < 0x100000000000000000000000000000000 then
    some .oversized
  else none

/-- The floating point number that a text denotes. Infinities and NaN have names of their own; a
decimal that rounds to an infinity is refused. -/
def float? (s : String) : Option Binary64 :=
  if s ∈ [".inf", ".Inf", ".INF", "+.inf", "+.Inf", "+.INF"] then some (.infinite false)
  else if s ∈ ["-.inf", "-.Inf", "-.INF"] then some (.infinite true)
  else if s ∈ [".nan", ".NaN", ".NAN"] then some .nan
  else
    match (Decimal.read? s.toList).map Decimal.toBinary64 with
    | some x => if x.isFinite then some x else none
    | none => none

/-- What the text of a plain scalar stands for. -/
def read (s : String) : Plain :=
  if s.isEmpty || isNullWord s then .null
  else match truth? s with
    | some b => .bool b
    | none =>
      match (integer? s.toList).bind ofInt? with
      | some p => p
      | none =>
        if hasLeadingZero s.toList then .text
        else match float? s with
          | some x => .float x
          | none => .text

/-- A string with this text has to be quoted, or it would be read as something else. Digits behind
a leading zero are quoted too, since other readers take them for a number. -/
def needsQuotes (s : String) : Bool :=
  read s != .text || hasLeadingZero s.toList

end Plain

end LayeredConfig.Yaml
