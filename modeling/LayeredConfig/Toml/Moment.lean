import LayeredConfig.Text.Numeral

/-!
# Dates and times

A `Moment` is a date, a time, or both, and then perhaps a distance from universal time. `render`
gives its one written form: a capital `T` between date and time, the seconds always, a fraction of
at most nine digits without zeros at its end, and `Z` or a signed distance.
-/

namespace LayeredConfig.Toml

/-- A day of the calendar. -/
structure Date where
  /-- The year. -/
  year : Nat
  /-- The month, from 1. -/
  month : Nat
  /-- The day of the month, from 1. -/
  day : Nat

namespace Date

/-- The year has a 29th of February. -/
def isLeap (year : Nat) : Bool :=
  year % 4 = 0 && (year % 100 ≠ 0 || year % 400 = 0)

/-- The number of days in a month. -/
def daysIn (year month : Nat) : Nat :=
  if month = 2 then if isLeap year then 29 else 28
  else if month ∈ [4, 6, 9, 11] then 30
  else 31

/-- There is such a day. -/
def inCalendar (d : Date) : Bool :=
  1 ≤ d.month && d.month ≤ 12 && 1 ≤ d.day && d.day ≤ daysIn d.year d.month

/-- Reads a date at the front of a text. -/
def take? (cs : List Char) : Option (Date × List Char) :=
  match Text.fixedDigits? 4 cs with
  | some (year, '-' :: r) =>
    match Text.fixedDigits? 2 r with
    | some (month, '-' :: r) =>
      match Text.fixedDigits? 2 r with
      | some (day, r) =>
        let date : Date := ⟨year, month, day⟩
        if date.inCalendar then some (date, r) else none
      | none => none
    | _ => none
  | _ => none

/-- A date as text. -/
def render (d : Date) : String :=
  Text.paddedNumeral 4 d.year ++ "-" ++ Text.paddedNumeral 2 d.month ++ "-" ++
    Text.paddedNumeral 2 d.day

end Date

/-- A time of day. -/
structure Time where
  /-- The hour, below 24. -/
  hour : Nat
  /-- The minute, below 60. -/
  minute : Nat
  /-- The second, at most 60. -/
  second : Nat
  /-- Billionths of a second. -/
  nanosecond : Nat

namespace Time

/-- Reads the digits of a fraction, of which nine count. -/
def takeFraction? : List Char → Option (Nat × List Char)
  | '.' :: r =>
    let digits := r.takeWhile Text.isDigit
    let counted := digits.take 9
    (Text.ofDigits? 10 counted).map fun n ↦
      (n * Nat.pow 10 (9 - counted.length), r.dropWhile Text.isDigit)
  | r => some (0, r)

/-- Reads the seconds, which may be left out with all that follows. -/
def takeSeconds? : List Char → Option ((Nat × Nat) × List Char)
  | ':' :: r => do
    let (second, r) ← Text.fixedDigits? 2 r
    let (nanosecond, r) ← takeFraction? r
    some ((second, nanosecond), r)
  | r => some ((0, 0), r)

/-- Reads a time at the front of a text. -/
def take? (cs : List Char) : Option (Time × List Char) :=
  match Text.fixedDigits? 2 cs with
  | some (hour, ':' :: r) => do
    let (minute, r) ← Text.fixedDigits? 2 r
    let ((second, nanosecond), r) ← takeSeconds? r
    if hour < 24 ∧ minute < 60 ∧ second ≤ 60 then some (⟨hour, minute, second, nanosecond⟩, r)
    else none
  | _ => none

/-- A fraction as text, without zeros at its end. -/
def renderFraction (nanosecond : Nat) : String :=
  if nanosecond = 0 then ""
  else
    let digits := (Text.paddedNumeral 9 nanosecond).toList
    "." ++ String.ofList (digits.reverse.dropWhile (· = '0')).reverse

/-- A time as text. -/
def render (t : Time) : String :=
  Text.paddedNumeral 2 t.hour ++ ":" ++ Text.paddedNumeral 2 t.minute ++ ":" ++
    Text.paddedNumeral 2 t.second ++ renderFraction t.nanosecond

end Time

/-- The distance from universal time. -/
inductive Offset where
  /-- Universal time itself. -/
  | zulu
  /-- Minutes before or behind it, at most a day. -/
  | shift (minutes : Int)

namespace Offset

/-- Reads a distance that fills the rest of a text. -/
def read? : List Char → Option Offset
  | ['Z'] | ['z'] => some .zulu
  | sign :: r =>
    match sign = '+' || sign = '-', Text.fixedDigits? 2 r with
    | true, some (hours, ':' :: r) =>
      match Text.fixedDigits? 2 r with
      | some (minutes, []) =>
        let n := hours * 60 + minutes
        if n ≤ 24 * 60 then some (.shift (if sign = '-' then -(n : Int) else n)) else none
      | _ => none
    | _, _ => none
  | [] => none

/-- A distance as text. -/
def render : Offset → String
  | .zulu => "Z"
  | .shift n =>
    (if n < 0 then "-" else "+") ++ Text.paddedNumeral 2 (n.natAbs / 60) ++ ":" ++
      Text.paddedNumeral 2 (n.natAbs % 60)

end Offset

/-- A date, a time, or both. -/
inductive Moment where
  /-- A date. -/
  | date (d : Date)
  /-- A time. -/
  | time (t : Time)
  /-- A time on a day. -/
  | both (d : Date) (t : Time) (offset : Option Offset)

namespace Moment

/-- Reads a time, and perhaps a distance, that fills the rest of a text behind a date. -/
def readTimeOn? (d : Date) (cs : List Char) : Option Moment :=
  match Time.take? cs with
  | some (t, []) => some (.both d t none)
  | some (t, r) => (Offset.read? r).map fun offset ↦ .both d t (some offset)
  | none => none

/-- Reads a moment that fills the whole text. -/
def read? (cs : List Char) : Option Moment :=
  match Date.take? cs with
  | some (d, []) => some (.date d)
  | some (d, c :: r) => if c ∈ ['T', 't', ' '] then readTimeOn? d r else none
  | none =>
    match Time.take? cs with
    | some (t, []) => some (.time t)
    | _ => none

/-- A moment as text. -/
def render : Moment → String
  | .date d => d.render
  | .time t => t.render
  | .both d t offset =>
    d.render ++ "T" ++ t.render ++ (match offset with
      | some o => o.render
      | none => "")

end Moment

end LayeredConfig.Toml
