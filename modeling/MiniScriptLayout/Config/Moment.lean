import MiniScriptLayout.Text.DecimalDigit

/-!
Dates and times of day as configuration values: their two spellings, one for reading and one that
names all parts.
-/

namespace MiniScriptLayout
namespace Config

structure Date where
  year : Nat
  month : Nat
  day : Nat
  deriving DecidableEq, Repr

structure Time where
  hour : Nat
  minute : Nat
  second : Nat
  microsecond : Nat
  deriving DecidableEq, Repr

/-- A date, a time of day, or both with an offset from universal time in minutes if it is known. -/
inductive Moment where
  | date (d : Date)
  | time (t : Time)
  | both (d : Date) (t : Time) (offset : Option Int)
  deriving DecidableEq, Repr

namespace Date

def isLeap (year : Nat) : Bool :=
  year % 4 == 0 && (year % 100 != 0 || year % 400 == 0)

def daysOf (year month : Nat) : Nat :=
  if month = 2 then if isLeap year then 29 else 28
  else if month = 4 ∨ month = 6 ∨ month = 9 ∨ month = 11 then 30
  else 31

/-- The day exists; years count from one. -/
def isValid (d : Date) : Bool :=
  1 ≤ d.year && 1 ≤ d.month && d.month ≤ 12 && 1 ≤ d.day && d.day ≤ daysOf d.year d.month

end Date

namespace Moment

/-- A number with zeros before it, up to a width. -/
def padded (width n : Nat) : List Char :=
  let digits := Text.decimal n
  List.replicate (width - digits.length) '0' ++ digits

def writeDate (d : Date) : List Char :=
  padded 4 d.year ++ '-' :: padded 2 d.month ++ '-' :: padded 2 d.day

def writeTime (t : Time) : List Char :=
  padded 2 t.hour ++ ':' :: padded 2 t.minute ++ ':' :: padded 2 t.second ++
    if t.microsecond = 0 then [] else '.' :: padded 6 t.microsecond

def writeOffset (minutes : Int) : List Char :=
  (if minutes < 0 then '-' else '+') :: padded 2 (minutes.natAbs / 60) ++
    ':' :: padded 2 (minutes.natAbs % 60)

/-- Writes a moment for reading. -/
def write : Moment → List Char
  | date d => writeDate d
  | time t => writeTime t
  | both d t offset =>
    writeDate d ++ ' ' :: writeTime t ++
      match offset with
      | none => []
      | some minutes => writeOffset minutes

/-- The parts of a time; seconds and microseconds are left out if they and all after them are zero.
-/
def timeParts (t : Time) : List Nat :=
  if t.microsecond ≠ 0 then [t.hour, t.minute, t.second, t.microsecond]
  else if t.second ≠ 0 then [t.hour, t.minute, t.second]
  else [t.hour, t.minute]

def listParts (parts : List Nat) : String :=
  ", ".intercalate (parts.map toString)

/-- Names an offset by whole days and the seconds after them. -/
def nameOffset (minutes : Int) : String :=
  if minutes = 0 then "datetime.timezone.utc"
  else
    let seconds := 60 * minutes
    let days := seconds / 86400
    let rest := seconds % 86400
    if days = 0 then s!"datetime.timezone(datetime.timedelta(seconds={rest}))"
    else s!"datetime.timezone(datetime.timedelta(days={days}, seconds={rest}))"

/-- Names a moment with all its parts. -/
def name : Moment → String
  | date d => "datetime.date(" ++ listParts [d.year, d.month, d.day] ++ ")"
  | time t => "datetime.time(" ++ listParts (timeParts t) ++ ")"
  | both d t offset =>
    "datetime.datetime(" ++ listParts ([d.year, d.month, d.day] ++ timeParts t) ++
      (match offset with
      | none => ""
      | some minutes => ", tzinfo=" ++ nameOffset minutes) ++ ")"

end Moment

end Config
end MiniScriptLayout
