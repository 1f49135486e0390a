import Schemata.Text

/-!
# Dates and timestamps

Days of the proleptic Gregorian calendar, and moments of a day with
nanoseconds. A leap second is a 59th second with a thousand million
nanoseconds or more; it shows as second 60.
-/

namespace Schemata

namespace Calendar

def isLeapYear (year : Int) : Bool :=
  year % 4 == 0 && (year % 100 != 0 || year % 400 == 0)

def daysInMonth (year : Int) (month : Nat) : Nat :=
  match month with
  | 2 => if isLeapYear year then 29 else 28
  | 4 | 6 | 9 | 11 => 30
  | _ => 31

/-- The years that are supported. -/
def hasYear (year : Int) : Bool := -262143 ≤ year && year ≤ 262142

def hasDay (year : Int) (month day : Nat) : Bool :=
  hasYear year && 1 ≤ month && month ≤ 12 &&
    1 ≤ day && day ≤ daysInMonth year month

def nanosPerSecond : Nat := 1000000000

def hasMoment (hour minute second nanosecond : Nat) : Bool :=
  hour < 24 && minute < 60 && second < 60 &&
    (nanosecond < nanosPerSecond ||
      (second == 59 && nanosecond < 2 * nanosPerSecond))

end Calendar

structure Date where
  year : Int
  month : Nat
  day : Nat
  valid : Calendar.hasDay year month day = true
deriving DecidableEq

structure Timestamp where
  date : Date
  hour : Nat
  minute : Nat
  second : Nat
  nanosecond : Nat
  valid : Calendar.hasMoment hour minute second nanosecond = true
deriving DecidableEq

namespace Date

def of? (year : Int) (month day : Nat) : Option Date :=
  if h : Calendar.hasDay year month day = true then
    some ⟨year, month, day, h⟩
  else none

/-- Four digits; a year that is negative or needs more has a sign. -/
def yearText (year : Int) : String :=
  let digits := Text.padded 4 year.natAbs
  if year < 0 then "-" ++ digits
  else if 9999 < year then "+" ++ digits
  else digits

def render (d : Date) : String :=
  yearText d.year ++ "-" ++ Text.padded 2 d.month ++ "-" ++
    Text.padded 2 d.day

end Date

namespace Timestamp

def of? (date : Date) (hour minute second nanosecond : Nat) :
    Option Timestamp :=
  if h : Calendar.hasMoment hour minute second nanosecond = true then
    some ⟨date, hour, minute, second, nanosecond, h⟩
  else none

/-- Nothing, or 3, 6 or 9 digits behind the point, as few as are exact. -/
def fractionText (nanosecond : Nat) : String :=
  if nanosecond = 0 then ""
  else if nanosecond % 1000000 = 0 then
    "." ++ Text.padded 3 (nanosecond / 1000000)
  else if nanosecond % 1000 = 0 then
    "." ++ Text.padded 6 (nanosecond / 1000)
  else "." ++ Text.padded 9 nanosecond

def render (t : Timestamp) : String :=
  t.date.render ++ " " ++ Text.padded 2 t.hour ++ ":" ++
    Text.padded 2 t.minute ++ ":" ++
    Text.padded 2 (t.second + t.nanosecond / Calendar.nanosPerSecond) ++
    fractionText (t.nanosecond % Calendar.nanosPerSecond)

end Timestamp

end Schemata
