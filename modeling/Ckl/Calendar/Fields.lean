import Ckl.Calendar.Moment

/-!
# Fields of a date and a time

What a text says about a date and a time, field by field. A field can be said twice, but not with two
values. `Fields.date?` and `Fields.time?` put the fields together: enough of them must be known, they
must exist in the calendar, and the others must agree.
-/

namespace Ckl.Calendar

/-- Known fields. -/
structure Fields where
  year : Option Int := none
  /-- The years in hundreds. -/
  century : Option Nat := none
  /-- The last two digits of the year. -/
  yearOfCentury : Option Nat := none
  month : Option Nat := none
  day : Option Nat := none
  /-- The day of the year. -/
  ordinal : Option Nat := none
  /-- The day of the week, 0 for Monday. -/
  weekday : Option Nat := none
  /-- Whether it is after noon. -/
  afternoon : Option Bool := none
  /-- The hour since midnight or noon. -/
  halfHour : Option Nat := none
  minute : Option Nat := none
  second : Option Nat := none
  deriving Repr

/-- A field after it has been said to be `value`, unless it was said to be something else. -/
def agree [DecidableEq α] (known : Option α) (value : α) : Option (Option α) :=
  match known with
  | none => some (some value)
  | some before => if before = value then some known else none

/-- A number within bounds. -/
def within (low high : Nat) (n : Nat) : Option Nat := if low ≤ n ∧ n ≤ high then some n else none

namespace Fields

/-! ## Saying a field

Each function says one more field. It refuses a number that the field cannot have, and a second value
that differs from the first. -/

/-- The full year, which 32 bits hold. -/
def withYear (fields : Fields) (n : Int) : Option Fields :=
  if -2147483648 ≤ n ∧ n ≤ 2147483647 then
    (agree fields.year n).map fun year => { fields with year }
  else none

/-- The years in hundreds. -/
def withCentury (fields : Fields) (n : Nat) : Option Fields :=
  (agree fields.century n).map fun century => { fields with century }

/-- The last two digits of the year. -/
def withYearOfCentury (fields : Fields) (n : Nat) : Option Fields := do
  let yearOfCentury ← agree fields.yearOfCentury (← within 0 99 n)
  return { fields with yearOfCentury }

/-- The month of the year. -/
def withMonth (fields : Fields) (n : Nat) : Option Fields := do
  let month ← agree fields.month (← within 1 12 n)
  return { fields with month }

/-- The day of the month. -/
def withDay (fields : Fields) (n : Nat) : Option Fields := do
  let day ← agree fields.day (← within 1 31 n)
  return { fields with day }

/-- The day of the year. -/
def withOrdinal (fields : Fields) (n : Nat) : Option Fields := do
  let ordinal ← agree fields.ordinal (← within 1 366 n)
  return { fields with ordinal }

/-- The day of the week, 0 for Monday. -/
def withWeekday (fields : Fields) (n : Nat) : Option Fields := do
  let weekday ← agree fields.weekday (← within 0 6 n)
  return { fields with weekday }

/-- Whether it is after noon. -/
def withAfternoon (fields : Fields) (value : Bool) : Option Fields :=
  (agree fields.afternoon value).map fun afternoon => { fields with afternoon }

/-- The hour of the day, which also tells whether it is after noon. -/
def withHour (fields : Fields) (n : Nat) : Option Fields := do
  let hour ← within 0 23 n
  let fields ← fields.withAfternoon (12 ≤ hour)
  let halfHour ← agree fields.halfHour (hour % 12)
  return { fields with halfHour }

/-- The hour on a dial of twelve, where 12 comes before 1. -/
def withHalfHour (fields : Fields) (n : Nat) : Option Fields := do
  let hour ← within 1 12 n
  let halfHour ← agree fields.halfHour (hour % 12)
  return { fields with halfHour }

/-- The minute of the hour. -/
def withMinute (fields : Fields) (n : Nat) : Option Fields := do
  let minute ← agree fields.minute (← within 0 59 n)
  return { fields with minute }

/-- The second, where 60 stands for a leap second. -/
def withSecond (fields : Fields) (n : Nat) : Option Fields := do
  let second ← agree fields.second (← within 0 60 n)
  return { fields with second }

/-! ## Putting fields together -/

/-- The year. Two digits alone mean a year from 1970 to 2069; a full year must agree with its parts,
which only years from 0 on have. -/
def fullYear? (fields : Fields) : Option Int :=
  match fields.year, fields.century, fields.yearOfCentury with
  | some year, none, none => some year
  | some year, century, rest =>
    if 0 ≤ year ∧ (century.getD (year / 100).toNat : Int) = year / 100 ∧
        (rest.getD (year % 100).toNat : Int) = year % 100 then some year
    else none
  | none, some century, some rest => some (century * 100 + rest)
  | none, none, some rest => some (if rest < 70 then 2000 + rest else 1900 + rest)
  | none, _, none => none

/-- Whether the year, month and day that are known are those of a date. -/
def agreesWithDate (fields : Fields) (date : Civil) : Bool :=
  fields.month.getD date.month = date.month && fields.day.getD date.day = date.day

/-- Whether the day of the week and of the year that are known are those of a day. -/
def agreesWithDay (fields : Fields) (day : Int) : Bool :=
  fields.weekday.getD (Calendar.weekday day) = Calendar.weekday day &&
    fields.ordinal.getD (Civil.ofDay day).ordinal = (Civil.ofDay day).ordinal

/-- The day that the fields name, by month and day or else by the day of the year. -/
def date? (fields : Fields) : Option Int := do
  let year ← fields.fullYear?
  match fields.month, fields.day with
  | some month, some day =>
    let number ← dayNumber? year month day
    if fields.agreesWithDay number then some number else none
  | _, _ =>
    let number ← ordinalDay? year (← fields.ordinal)
    if fields.agreesWithDate (Civil.ofDay number) && fields.agreesWithDay number then some number
    else none

/-- The time that the fields name: hour and minute must be known, the second is 0 if not said. -/
def time? (fields : Fields) : Option TimeOfDay := do
  let afternoon ← fields.afternoon
  let halfHour ← fields.halfHour
  let minute ← fields.minute
  let second := fields.second.getD 0
  let before := (afternoon.toNat * 12 + halfHour) * 3600 + minute * 60
  return if second = 60 then ⟨before + 59, true⟩ else ⟨before + second, false⟩

/-- The moment that the fields name. -/
def moment? (fields : Fields) : Option Moment := do
  let day ← fields.date?
  let time ← fields.time?
  return ⟨day, time⟩

end Fields

end Ckl.Calendar
