import Ckl.Calendar.Format

/-!
# Dates in texts

Which texts name a moment, and which ones pass as a date or a time of fixed width.
-/

namespace Ckl.Calendar

/-- The format of a date without separators. -/
def compactDate : Format := Format.ofText "%Y%m%d"

/-- The formats of a date with the hour, the minute and the second or some of these. -/
def compactMoments : List Format :=
  ["%Y%m%d%H%M%S", "%Y%m%d%H%M", "%Y%m%d%H"].map Format.ofText

/-- The format of an hour with a minute. -/
def compactTime : Format := Format.ofText "%H%M"

/-- The day that a text in a format names. -/
def Format.readDay (format : Format) (text : String) : Option Int :=
  (format.read text).bind Fields.date?

/-- The moment that a text in a format names: with a time, or else the beginning of a day. -/
def Format.readMoment (format : Format) (text : String) : Option Moment :=
  ((format.read text).bind Fields.moment?).or ((format.readDay text).map Moment.midnight)

/-- The moment that a text without separators names. -/
def readMoment (text : String) : Option Moment :=
  (compactMoments.findSome? fun format => (format.read text).bind Fields.moment?).or
    ((compactDate.readDay text).map Moment.midnight)

/-- A text divided after `size` bytes, unless a character stands across that place. -/
def splitBytes : (size : Nat) → List Char → Option (List Char × List Char)
  | 0, cs => some ([], cs)
  | _ + 1, [] => none
  | size, c :: cs =>
    if c.utf8Size ≤ size then
      (splitBytes (size - c.utf8Size) cs).map fun parts => (c :: parts.1, parts.2)
    else none
termination_by _ cs => cs

/-- Whether an hour of the day is written. -/
def isHour (cs : List Char) : Bool := (Number.readNatural cs).any (· < 24)

/-- Whether a text passes as a date of eight bytes. -/
def isDate (text : String) : Bool := text.utf8ByteSize == 8 && (compactDate.readDay text).isSome

/-- Whether a text passes as a date of eight bytes with an hour behind it. -/
def isDateWithHour (text : String) : Bool :=
  text.utf8ByteSize == 10 &&
    (splitBytes 8 text.toList).any fun parts =>
      (compactDate.readDay (String.ofList parts.1)).isSome && isHour parts.2

/-- Whether a text passes as an hour and a minute in four bytes. -/
def isTime (text : String) : Bool :=
  text.utf8ByteSize == 4 && ((compactTime.read text).bind Fields.time?).isSome

end Ckl.Calendar
