import Ckl.Calendar.Fields

/-!
# Date formats

A format is a text with fields marked by a percent sign. `Format.ofText` reads it into items, and
`Format.read` matches a text against them. A number skips blanks before it and takes as many digits as
its field can have; the names of months and days are read in any case of letters; a blank in the
format stands for any number of blanks.
-/

namespace Ckl.Calendar

/-- A field that is written as a number. -/
inductive NumberField where
  | year
  | century
  | yearOfCentury
  | month
  | day
  | ordinal
  /-- The day of the week, 1 for Monday. -/
  | weekdayFromMonday
  /-- The day of the week, 0 for Sunday. -/
  | weekdayFromSunday
  | hour
  | halfHour
  | minute
  | second
  deriving DecidableEq, Repr

/-- One item of a format. -/
inductive FormatItem where
  | literal (text : List Char)
  | blanks
  | number (field : NumberField)
  /-- The name of a month; the long form may follow the short one. -/
  | monthName (long : Bool)
  /-- The name of a day of the week; the long form may follow the short one. -/
  | weekdayName (long : Bool)
  | halfDay
  /-- A mark that names no field. -/
  | unknown
  deriving DecidableEq, Repr

/-- The items of a format, in order. -/
abbrev Format := List FormatItem

namespace NumberField

/-- The greatest number of digits. -/
def width : NumberField → Nat
  | .year => 4
  | .ordinal => 3
  | .weekdayFromMonday | .weekdayFromSunday => 1
  | _ => 2

/-- The fields after this one has been read as `n`. -/
def set (field : NumberField) (fields : Fields) (n : Nat) : Option Fields :=
  match field with
  | .year => fields.withYear n
  | .century => fields.withCentury n
  | .yearOfCentury => fields.withYearOfCentury n
  | .month => fields.withMonth n
  | .day => fields.withDay n
  | .ordinal => fields.withOrdinal n
  | .weekdayFromMonday => do fields.withWeekday ((← within 1 7 n) - 1)
  | .weekdayFromSunday => do fields.withWeekday (((← within 0 6 n) + 6) % 7)
  | .hour => fields.withHour n
  | .halfHour => fields.withHalfHour n
  | .minute => fields.withMinute n
  | .second => fields.withSecond n

end NumberField

namespace Format

/-- The field that is one number for a letter. -/
def numberField? : Char → Option NumberField
  | 'Y' => some .year
  | 'C' => some .century
  | 'y' => some .yearOfCentury
  | 'm' => some .month
  | 'd' | 'e' => some .day
  | 'j' => some .ordinal
  | 'u' => some .weekdayFromMonday
  | 'w' => some .weekdayFromSunday
  | 'H' | 'k' => some .hour
  | 'I' | 'l' => some .halfHour
  | 'M' => some .minute
  | 'S' => some .second
  | _ => none

/-- A letter that stands for several items. -/
def compound? : Char → Option Format
  | 'F' => some [.number .year, .literal ['-'], .number .month, .literal ['-'], .number .day]
  | 'D' | 'x' =>
    some [.number .month, .literal ['/'], .number .day, .literal ['/'], .number .yearOfCentury]
  | 'T' | 'X' =>
    some [.number .hour, .literal [':'], .number .minute, .literal [':'], .number .second]
  | 'R' => some [.number .hour, .literal [':'], .number .minute]
  | 'r' =>
    some [.number .halfHour, .literal [':'], .number .minute, .literal [':'], .number .second,
      .blanks, .halfDay]
  | 'v' =>
    some [.number .day, .literal ['-'], .monthName false, .literal ['-'], .number .year]
  | 'c' =>
    some [.weekdayName false, .blanks, .monthName false, .blanks, .number .day, .blanks,
      .number .hour, .literal [':'], .number .minute, .literal [':'], .number .second, .blanks,
      .number .year]
  | _ => none

/-- The items that a letter after the percent sign stands for. -/
def itemsOf (letter : Char) : Format :=
  match numberField? letter, compound? letter with
  | some field, _ => [.number field]
  | none, some items => items
  | none, none =>
    match letter with
    | 'b' | 'h' => [.monthName false]
    | 'B' => [.monthName true]
    | 'a' => [.weekdayName false]
    | 'A' => [.weekdayName true]
    | 'p' | 'P' => [.halfDay]
    | 'n' | 't' => [.blanks]
    | '%' => [.literal ['%']]
    | _ => [.unknown]

/-- The items that a letter stands for when a sign before it asks for a padding, which numbers alone
can have. -/
def paddedItemsOf (letter : Char) : Format :=
  match numberField? letter with
  | some field => [.number field]
  | none => [.unknown]

/-- Reads a format. Characters that mark nothing stand for themselves. -/
def ofChars : List Char → Format
  | [] => []
  | '%' :: sign :: letter :: rest =>
    if sign = '-' ∨ sign = '_' ∨ sign = '0' then paddedItemsOf letter ++ ofChars rest
    else itemsOf sign ++ ofChars (letter :: rest)
  | ['%', letter] => if letter = '-' ∨ letter = '_' ∨ letter = '0' then [.unknown] else itemsOf letter
  | ['%'] => [.unknown]
  | c :: rest => (if Text.isBlank c then .blanks else .literal [c]) :: ofChars rest

/-! ## Matching -/

/-- The text without blanks in front. -/
def skipBlanks (cs : List Char) : List Char := cs.dropWhile Text.isBlank

/-- A number of at most `width` digits, and the rest. -/
def takeNumber (width : Nat) (cs : List Char) : Option (Nat × List Char) :=
  let ds := (cs.take width).takeWhile Char.isDigit
  if ds.isEmpty then none else some (Number.ofDigits ds, cs.drop ds.length)

/-- Reads a number for a field. A year with a sign has no greatest number of digits. -/
def readNumber (field : NumberField) (fields : Fields) (cs : List Char) :
    Option (Fields × List Char) :=
  match field, skipBlanks cs with
  | .year, '-' :: rest => do
    let (n, rest) ← takeNumber rest.length rest
    return (← fields.withYear (-n), rest)
  | .year, '+' :: rest => do
    let (n, rest) ← takeNumber rest.length rest
    return (← fields.withYear n, rest)
  | _, rest => do
    let (n, rest) ← takeNumber field.width rest
    return (← field.set fields n, rest)

/-- The text after `expected`, read in any case of ASCII letters. -/
def dropCaseless (expected cs : List Char) : Option (List Char) :=
  if (cs.take expected.length).map Char.toLower = expected then some (cs.drop expected.length)
  else none

/-- The first name of a list that the text begins with, by its number, and the rest. Names are given by
their short form and what completes it. -/
def readName (long : Bool) (cs : List Char) : List (String × String) → Nat → Option (Nat × List Char)
  | [], _ => none
  | (short, more) :: names, number =>
    match dropCaseless short.toList cs with
    | some rest =>
      some (number, if long then (dropCaseless more.toList rest).getD rest else rest)
    | none => readName long cs names (number + 1)

/-- The months of the year. -/
def monthNames : List (String × String) :=
  [("jan", "uary"), ("feb", "ruary"), ("mar", "ch"), ("apr", "il"), ("may", ""), ("jun", "e"),
    ("jul", "y"), ("aug", "ust"), ("sep", "tember"), ("oct", "ober"), ("nov", "ember"),
    ("dec", "ember")]

/-- The days of the week. -/
def weekdayNames : List (String × String) :=
  [("mon", "day"), ("tue", "sday"), ("wed", "nesday"), ("thu", "rsday"), ("fri", "day"),
    ("sat", "urday"), ("sun", "day")]

/-- Matches one item. -/
def readItem (item : FormatItem) (fields : Fields) (cs : List Char) :
    Option (Fields × List Char) :=
  match item with
  | .literal text => if text.isPrefixOf cs then some (fields, cs.drop text.length) else none
  | .blanks => some (fields, skipBlanks cs)
  | .number field => readNumber field fields cs
  | .monthName long => do
    let (n, rest) ← readName long cs monthNames 1
    return (← fields.withMonth n, rest)
  | .weekdayName long => do
    let (n, rest) ← readName long cs weekdayNames 0
    return (← fields.withWeekday n, rest)
  | .halfDay =>
    match dropCaseless ['a', 'm'] cs, dropCaseless ['p', 'm'] cs with
    | some rest, _ => (fields.withAfternoon false).map (·, rest)
    | none, some rest => (fields.withAfternoon true).map (·, rest)
    | none, none => none
  | .unknown => none

/-- Matches a whole text. -/
def readFrom (fields : Fields) : Format → List Char → Option Fields
  | [], [] => some fields
  | [], _ :: _ => none
  | item :: items, cs => do
    let (fields, rest) ← readItem item fields cs
    readFrom fields items rest

/-- The fields that a text in this format names. -/
def read (format : Format) (text : String) : Option Fields := readFrom {} format text.toList

end Format

/-- The format that a text describes. -/
def Format.ofText (text : String) : Format := Format.ofChars text.toList

end Ckl.Calendar
