import Ckl.Builtin.Arguments
import Ckl.Calendar.Reading
import Ckl.Pattern.Reading
import Ckl.Text.Occurrence
import Ckl.Text.WordChar
import Ckl.Value.Access

/-!
# Built-in tests

The functions that answer with a truth value: comparisons, and what is asked of numbers, texts and
collections. Tests of the form of a text are false for values that are no texts.
-/

namespace Ckl.Builtin

variable (store : Store) (arguments : Arguments)

/-- Whether the arguments are equal. -/
def areEqual : Checked Bool := do
  return store.equal (← arguments.need "a") (← arguments.need "b")

/-- Whether the order of the arguments is one that is accepted. -/
def areOrdered (accepted : Ordering → Bool) : Checked Bool := do
  return accepted (store.order (← arguments.need "a") (← arguments.need "b"))

/-- Whether the argument is null or has nothing in it. -/
def testEmpty : Checked Bool := do
  let value ← arguments.need "obj"
  if value.isNull then return true
  return (← store.length value) == 0

/-- Whether a number is zero. -/
def testZero : Checked Bool := do
  let value ← arguments.need "obj"
  let _ ← value.asDecimal
  return value.isZero

/-- Whether a number is below zero. -/
def testNegative : Checked Bool := do
  return (← (← arguments.need "obj").asDecimal) < 0.0

/-- A test of the text that an argument is. -/
def testText (test : String → Checked Bool) : Checked Bool := do
  match ← arguments.need "str" with
  | .string text => test text
  | _ => return false

/-- Whether a text consists of accepted characters, and as many of them as the arguments ask for. -/
def testChars (accept : Char → Bool) : Checked Bool :=
  testText arguments fun text => do
    let length : Int := text.length
    let least ← arguments.optionalAs "min_len" Value.asInt
    let most ← arguments.optionalAs "max_len" Value.asInt
    let exact ← arguments.optionalAs "exact_len" Value.asInt
    return text.toList.all accept && least.all (·.toInt ≤ length) && most.all (length ≤ ·.toInt) &&
      exact.all (length == ·.toInt)

/-- Whether a text is a date, with an hour if that is asked for. -/
def testDate : Checked Bool :=
  testText arguments fun text => do
    let withHour ← arguments.optionalAs "with_hour" Value.asBool
    return if withHour.getD false then Calendar.isDateWithHour text else Calendar.isDate text

/-- Whether a text is a time. -/
def testTime : Checked Bool := testText arguments fun text => return Calendar.isTime text

/-- Whether one text stands in another one at a place that the test knows. -/
def testPart (test : List Char → List Char → Bool) : Checked Bool := do
  let text ← arguments.needString "str"
  let part ← arguments.needString "part"
  return test part.toList text.toList

/-- Whether a value contains another one. -/
def testContains : Checked Bool := do
  let container ← arguments.need "obj"
  store.contains container (← arguments.need "part")

/-- Whether a pattern is found in a text. -/
def testPattern : Checked Bool := do
  let text ← arguments.needString "str"
  match ← arguments.need "pattern" with
  | .pattern source | .string source =>
    match Pattern.found? source text with
    | some found => return found
    | none => throw .invalidPattern
  | value => value.refuse .pattern

end Ckl.Builtin
