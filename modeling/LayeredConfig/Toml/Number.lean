import LayeredConfig.Number.Decimal
import LayeredConfig.Toml.Fault
import LayeredConfig.Value.Basic

/-!
# Numbers of TOML

Integers are decimal with an optional sign, or hexadecimal, octal or binary without one, and have 64
bits. Floating point numbers have digits on both sides of the point, an exponent, or both; one that
rounds to an infinity is refused. No decimal number begins with a zero in front of another digit.
Digits may be grouped by single underscores between them.
-/

namespace LayeredConfig.Toml

/-- The digits of a text without the underscores between them; absent when the text is no row of
digits so grouped. -/
def ungroup? (isDigit : Char → Bool) : List Char → Option (List Char)
  | [] => none
  | [c] => if isDigit c then some [c] else none
  | c :: '_' :: r => if isDigit c then (ungroup? isDigit r).map (c :: ·) else none
  | c :: r => if isDigit c then (ungroup? isDigit r).map (c :: ·) else none

/-- A row of decimal digits with no zero too many at its front. -/
def wholeDigits? (cs : List Char) : Option (List Char) :=
  match ungroup? Text.isDigit cs with
  | some ('0' :: _ :: _) => none
  | ds => ds

/-- A whole number as far as 64 bits hold it. -/
def intValue (i : Int) : Except Fault Value :=
  if -0x8000000000000000 ≤ i ∧ i < 0x8000000000000000 then .ok (.int i) else .error .outOfRange

/-- The integer of digits in a base. The answer is absent when they are no digits of the base. -/
def baseInteger? (base : Nat) (isDigit : Char → Bool) (cs : List Char) :
    Option (Except Fault Value) :=
  ((ungroup? isDigit cs).bind (Text.ofDigits? base)).map fun n ↦ intValue n

/-- The integer that a text denotes. The answer is absent when the text is none. -/
def readInteger? : List Char → Option (Except Fault Value)
  | '0' :: 'x' :: r => baseInteger? 16 Text.isHexDigit r
  | '0' :: 'o' :: r => baseInteger? 8 (fun c ↦ '0' ≤ c && c ≤ '7') r
  | '0' :: 'b' :: r => baseInteger? 2 (fun c ↦ c = '0' || c = '1') r
  | cs =>
    let (negative, body) := Decimal.takeSign cs
    ((wholeDigits? body).bind (Text.ofDigits? 10)).map fun n ↦
      intValue (if negative then -(n : Int) else n)

/-- A text cut in front of the first character with `p`. -/
def cutBefore (p : Char → Bool) (cs : List Char) : List Char × List Char :=
  (cs.takeWhile (!p ·), cs.dropWhile (!p ·))

/-- The digits behind a point, with the point; nothing when there is no point. -/
def fraction? : List Char → Option (List Char)
  | [] => some []
  | _ :: r => (ungroup? Text.isDigit r).map ('.' :: ·)

/-- The exponent with its letter; nothing when there is none. -/
def exponent? : List Char → Option (List Char)
  | [] => some []
  | _ :: r =>
    let (negative, digits) := Decimal.takeSign r
    (ungroup? Text.isDigit digits).map fun ds ↦ 'e' :: (if negative then ['-'] else []) ++ ds

/-- The decimal that a text denotes, if it has a point or an exponent. -/
def readDecimal? (cs : List Char) : Option Decimal := do
  let (negative, body) := Decimal.takeSign cs
  let (mantissa, exponent) := cutBefore (fun c ↦ c = 'e' || c = 'E') body
  let (whole, fraction) := cutBefore (· = '.') mantissa
  if exponent.isEmpty && fraction.isEmpty then none
  else
    let whole ← wholeDigits? whole
    let fraction ← fraction? fraction
    let exponent ← exponent? exponent
    Decimal.read? ((if negative then ['-'] else []) ++ whole ++ fraction ++ exponent)

/-- The floating point number that a text denotes. The answer is absent when the text is none. -/
def readFloat? (cs : List Char) : Option (Except Fault Value) :=
  match String.ofList (Decimal.takeSign cs).2 with
  | "inf" => some (.ok (.float (.infinite (Decimal.takeSign cs).1)))
  | "nan" => some (.ok (.float .nan))
  | _ => (readDecimal? cs).map fun d ↦
    let x := d.toBinary64
    if x.isFinite then .ok (.float x) else .error .outOfRange

end LayeredConfig.Toml
