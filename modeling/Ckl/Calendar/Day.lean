/-!
# Days of the Gregorian calendar

The Gregorian calendar, extended to all years, year 0 and negative years included. A day is its number,
counted from the first of January of year 1, which is day 1. `dayNumber?` counts a date and refuses
those that do not exist; `Civil.ofDay` names the date of a day.
-/

namespace Ckl.Calendar

/-- Whether a year has a 29th of February. -/
def isLeapYear (year : Int) : Bool := year % 4 = 0 && (year % 100 ≠ 0 || year % 400 = 0)

/-- The number of days of a month, zero for a number that names none. -/
def monthLength (year : Int) (month : Nat) : Nat :=
  match month with
  | 1 | 3 | 5 | 7 | 8 | 10 | 12 => 31
  | 4 | 6 | 9 | 11 => 30
  | 2 => if isLeapYear year then 29 else 28
  | _ => 0

/-- The number of days of a year. -/
def yearLength (year : Int) : Nat := if isLeapYear year then 366 else 365

/-- The days before the first of January of a year, counted from year 1. -/
def daysBeforeYear (year : Int) : Int :=
  let past := year - 1
  past * 365 + past / 4 - past / 100 + past / 400

/-- The days of the year before the first of a month. -/
def daysBeforeMonth (year : Int) : Nat → Nat
  | 0 | 1 => 0
  | month + 1 => daysBeforeMonth year month + monthLength year month

/-- The first and the last year whose days can be named. -/
def firstYear : Int := -262143

/-- The last year whose days can be named. -/
def lastYear : Int := 262142

/-- A date by its names. -/
structure Civil where
  year : Int
  month : Nat
  day : Nat
  deriving DecidableEq, Repr

namespace Civil

/-- Whether there is such a date, in a year that can be named. -/
def isValid (date : Civil) : Bool :=
  firstYear ≤ date.year && date.year ≤ lastYear &&
    1 ≤ date.day && date.day ≤ monthLength date.year date.month

/-- The number of the day, for dates that exist. -/
def toDay (date : Civil) : Int :=
  daysBeforeYear date.year + daysBeforeMonth date.year date.month + date.day

/-- The number of the day within its year. -/
def ordinal (date : Civil) : Nat := daysBeforeMonth date.year date.month + date.day

/-- The month and day of the `rest`-th day of what remains of a year from `month` on; `fuel` counts the
months to try. -/
def ofOrdinal (year : Int) (month rest : Nat) : Nat → Civil
  | 0 => ⟨year, month, rest⟩
  | fuel + 1 =>
    if rest ≤ monthLength year month then ⟨year, month, rest⟩
    else ofOrdinal year (month + 1) (rest - monthLength year month) fuel

/-- The date of a day. The year is found from the mean length of a year, which is off by one at most. -/
def ofDay (day : Int) : Civil :=
  let guess := (day - 1) * 400 / 146097 + 1
  let year :=
    if day ≤ daysBeforeYear guess then guess - 1
    else if daysBeforeYear (guess + 1) < day then guess + 1
    else guess
  ofOrdinal year 1 (day - daysBeforeYear year).toNat 11

end Civil

/-- The number of a date that exists. -/
def dayNumber? (year : Int) (month day : Nat) : Option Int :=
  let date : Civil := ⟨year, month, day⟩
  if date.isValid then some date.toDay else none

/-- The number of the day that is the `ordinal`-th of a year. -/
def ordinalDay? (year : Int) (ordinal : Nat) : Option Int :=
  if firstYear ≤ year ∧ year ≤ lastYear ∧ 1 ≤ ordinal ∧ ordinal ≤ yearLength year then
    some (daysBeforeYear year + ordinal)
  else none

/-- The first and the last day that can be named. -/
def firstDay : Int := daysBeforeYear firstYear + 1

/-- The last day that can be named. -/
def lastDay : Int := daysBeforeYear (lastYear + 1)

/-- The day of the week, 0 for Monday. -/
def weekday (day : Int) : Nat := ((day - 1) % 7).toNat

end Ckl.Calendar
