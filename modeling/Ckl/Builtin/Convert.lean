import Ckl.Builtin.Arguments
import Ckl.Calendar.Reading
import Ckl.Number.Whole
import Ckl.Text.Blank
import Ckl.Value.Access

/-!
# Built-in conversions

The functions that make a value of a certain type from another value, and ranges of integers.
-/

namespace Ckl.Builtin

open Collection (KeySet)

variable (store : Store) (arguments : Arguments)

/-- The error that a value cannot be converted, for values that are no texts. -/
def unconvertible {α : Type} (value : Value) : Checked α :=
  .error (.unusable .convertToInt value.type)

/-- An integer. -/
def convertInt : Checked Value := do
  match ← arguments.need "obj" with
  | .int n => return .int n
  | .decimal x => return .int (Number.truncate x)
  | .boolean value => return .int (if value then 1 else 0)
  | .string text =>
    match Number.readWhole (Text.trimBlanks text.toList) with
    | some n => return .int n
    | none => throw (.unreadableNumber text .int)
  | value => unconvertible value

/-- A decimal. -/
def convertDecimal : Checked Value := do
  match ← arguments.need "obj" with
  | .string text =>
    match Number.readDecimal (Text.trimBlanks text.toList) with
    | some x => return .decimal x
    | none => throw (.unreadableNumber text .decimal)
  | value => return .decimal (← value.asDecimal)

/-- A set. -/
def convertSet : Checked Fresh := do
  let elements ← match ← arguments.need "obj" with
    | .map ref => .ok ((store.sortedEntries ref).map Prod.fst)
    | value => store.elements value
  return .set (KeySet.ofList store.keyRule elements)

/-- A date. Without an argument it is the moment of the store, whose clock stands still: two calls of
`date()` give the same date however much is done between them. -/
def convertDate : Checked Value := do
  match arguments.optional "obj" with
  | none => return .date store.now
  | some (.date moment) => return .date moment
  | some value =>
    let text ← value.asString
    let format ← arguments.optionalAs "fmt" Value.asString
    let moment := match format with
      | some format => (Calendar.Format.ofText format).readMoment text
      | none => Calendar.readMoment text
    match moment with
    | some moment => return .date moment
    | none => throw (.unreadableDate text)

/-- A list of integers: those from zero up to a limit, or those between two limits by a step. The second
limit is never reached. -/
def rangeItems : Checked Fresh := do
  let (start, limit) ← match arguments.optional "b" with
    | some limit => do
      let start ← arguments.needInt "a"
      pure (start, ← limit.asInt)
    | none => do pure (0, ← arguments.needInt "a")
  let step := (← arguments.optionalAs "step" Value.asInt).getD 1
  if step == 0 then throw .zeroStep
  return .list ((Number.progression start limit step).map Value.int).toArray

end Ckl.Builtin
