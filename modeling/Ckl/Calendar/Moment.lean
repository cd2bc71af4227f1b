import Ckl.Calendar.Day
import Ckl.Number.Decimal

/-!
# Moments

A moment is a day and a second of that day. The last second of a minute may be followed by a leap
second, which is written as second 60 and takes part in differences and shifts only where it is left.
-/

namespace Ckl.Calendar

/-- A second of the day. -/
structure TimeOfDay where
  /-- Whole seconds since midnight. -/
  second : Nat
  /-- Whether it is the leap second after that second. -/
  leap : Bool
  deriving DecidableEq, Repr

/-- A day with a time of the day. -/
structure Moment where
  day : Int
  time : TimeOfDay
  deriving DecidableEq, Repr

/-- The seconds of a day. -/
def daySeconds : Nat := 86400

/-- The beginning of a day. -/
def Moment.midnight (day : Int) : Moment := ⟨day, ⟨0, false⟩⟩

/-- Decimal digits filled up with zeros to at least `width`. -/
def padded (width n : Nat) : List Char :=
  let ds := Number.digitsOf n
  List.replicate (width - ds.length) '0' ++ ds

/-- A year: four digits, and a sign when it has more or is negative. -/
def yearText (year : Int) : List Char :=
  if 0 ≤ year ∧ year ≤ 9999 then padded 4 year.toNat
  else (if year < 0 then '-' else '+') :: padded 4 year.natAbs

/-- The canonical text: year, month, day, hour, minute and second without separators. -/
def Moment.text (moment : Moment) : List Char :=
  let date := Civil.ofDay moment.day
  let second := moment.time.second
  yearText date.year ++ padded 2 date.month ++ padded 2 date.day ++ padded 2 (second / 3600) ++
    padded 2 (second / 60 % 60) ++ padded 2 (second % 60 + if moment.time.leap then 1 else 0)

/-- Moments in time order. -/
def Moment.order (a b : Moment) : Ordering :=
  (compare a.day b.day).then
    ((compare a.time.second b.time.second).then (compare a.time.leap.toNat b.time.leap.toNat))

/-- The greatest number of seconds by which a moment can be asked to move. -/
def greatestShift : Int := 9223372036854775

/-- The moment some seconds later, or earlier for a negative number. A leap second that is left
forwards counts as the second before it, one that is left backwards as the second after it. -/
def Moment.shift? (moment : Moment) (seconds : Int) : Option Moment :=
  if seconds < -greatestShift ∨ greatestShift < seconds then none
  else if seconds = 0 then some moment
  else
    let start : Int :=
      if moment.time.leap ∧ seconds < 0 then moment.time.second + 1 else moment.time.second
    let total := start + seconds
    let day := moment.day + total / daySeconds
    if firstDay ≤ day ∧ day ≤ lastDay then
      some ⟨day, ⟨(total % daySeconds).toNat, false⟩⟩
    else none

/-- The seconds from the second time to the first, a leap second between them included. -/
def TimeOfDay.secondsSince (a b : TimeOfDay) : Int :=
  let between : Int :=
    if b.second < a.second ∧ b.leap then 1
    else if a.second < b.second ∧ a.leap then -1
    else 0
  (a.second : Int) - b.second + between + (a.leap.toNat - b.leap.toNat : Int)

/-- The whole days from the second moment to the first. -/
def Moment.daysSince (a b : Moment) : Int :=
  ((a.day - b.day) * daySeconds + a.time.secondsSince b.time).tdiv daySeconds

end Ckl.Calendar
