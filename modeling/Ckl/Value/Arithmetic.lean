import Ckl.Value.Conversion
import Ckl.Number.Whole

/-!
# Arithmetic on values

What the five operations give for two values. Integers stay integers, and an exact result that 64 bits
do not hold is an error; a decimal among two numbers makes the result a decimal. Texts join with every
value that is no reference, dates move by days, and collections are joined and reduced. Results that
are collections are fresh: the operands keep what they hold.
-/

namespace Ckl.Store

open Collection (Table KeySet)
open Number (ofWhole)

variable (store : Store)

/-- The result of an operation on integers. -/
def exactly (result : Option Int64) : Checked Fresh :=
  match result with
  | some n => .ok (.value (.int n))
  | none => .error .integerOverflow

/-- A decimal result. -/
def decimalResult (x : Float) : Checked Fresh := .ok (.value (.decimal x))

/-- A text result. -/
def textResult (text : String) : Checked Fresh := .ok (.value (.string text))

/-- A list result. -/
def listResult (items : List Value) : Checked Fresh := .ok (.list items.toArray)

/-- The seconds of a day. -/
def secondsPerDay : Float := 86400.0

/-- A date moved by days, to the nearest second. -/
def moveDate (date : Calendar.Moment) (days : Float) : Checked Fresh :=
  match date.shift? (Number.roundHalfAway (days * secondsPerDay)).toInt with
  | some moved => .ok (.value (.date moved))
  | none => .error .dateOutOfRange

/-- The error that an operation has no meaning for two values. -/
def meaningless (operation : Operation) (a b : Value) : Checked Fresh :=
  .error (.operands operation a.type b.type)

/-- The sum of two values. -/
def add : Value → Value → Checked Fresh
  | .int a, .int b => exactly (Number.sum? a b)
  | .int a, .decimal b => decimalResult (ofWhole a + b)
  | .decimal a, .int b => decimalResult (a + ofWhole b)
  | .decimal a, .decimal b => decimalResult (a + b)
  | .list a, .list b => listResult ((store.items a).toList ++ (store.items b).toList)
  | .list a, item => listResult ((store.items a).toList ++ [item])
  | .set a, .set b =>
    .ok (.set (KeySet.addAll store.keyRule (store.keySet a) (store.keySet b).keys))
  | .set a, item => .ok (.set (KeySet.add store.keyRule (store.keySet a) item))
  | .map a, .map b =>
    .ok (.map ((store.table b).entries.foldl
      (fun table entry => table.insert store.keyRule entry.1 entry.2) (store.table a)))
  | .date date, .int days => moveDate date (ofWhole days)
  | .date date, .decimal days => moveDate date days
  | .string a, b =>
    if b.isAtomic then textResult (a ++ store.plainText b) else meaningless .add (.string a) b
  | a, .string b =>
    if a.isAtomic then textResult (store.plainText a ++ b) else meaningless .add a (.string b)
  | a, b => meaningless .add a b

/-- The items that equal none of some keys. -/
def withoutKeys (items keys : List Value) : List Value :=
  let unwanted := KeySet.ofList store.keyRule keys
  items.filter fun item => !unwanted.contains store.keyRule item

/-- The difference of two values. -/
def subtract : Value → Value → Checked Fresh
  | .int a, .int b => exactly (Number.difference? a b)
  | .int a, .decimal b => decimalResult (ofWhole a - b)
  | .decimal a, .int b => decimalResult (a - ofWhole b)
  | .decimal a, .decimal b => decimalResult (a - b)
  | .list a, .list b =>
    listResult (store.withoutKeys (store.items a).toList (store.items b).toList)
  | .list a, .set b => listResult (store.withoutKeys (store.items a).toList (store.sortedKeys b))
  | .list a, item =>
    listResult ((store.items a).toList.filter fun existing => !store.equal existing item)
  | .set a, .set b =>
    .ok (.set (KeySet.eraseAll store.keyRule (store.keySet a) (store.keySet b).keys))
  | .set a, .list b =>
    .ok (.set (KeySet.eraseAll store.keyRule (store.keySet a) (store.items b).toList))
  | .set a, item => .ok (.set ((store.keySet a).erase store.keyRule item))
  | .date a, .date b => .ok (.value (.int (Int64.ofInt (a.daysSince b))))
  | .date date, .int days => moveDate date (-ofWhole days)
  | .date date, .decimal days => moveDate date (-days)
  | a, b => meaningless .subtract a b

/-- The greatest length of a repetition, of texts in bytes. -/
def repetitionLimit : Nat := Nat.pow 2 28

/-- How often to repeat something of some length; a negative number repeats nothing. -/
def repetitions (length : Nat) (times : Int64) : Checked Nat :=
  let count := times.toInt.toNat
  if length = 0 then .ok 0
  else if length * count ≤ repetitionLimit then .ok count
  else .error .repetitionTooLarge

/-- The product of two values. -/
def multiply : Value → Value → Checked Fresh
  | .int a, .int b => exactly (Number.product? a b)
  | .int a, .decimal b => decimalResult (ofWhole a * b)
  | .decimal a, .int b => decimalResult (a * ofWhole b)
  | .decimal a, .decimal b => decimalResult (a * b)
  | .string text, .int n => do
    let count ← repetitions text.utf8ByteSize n
    textResult (String.join (List.replicate count text))
  | .list ref, .int n => do
    let items := (store.items ref).toList
    let count ← repetitions items.length n
    listResult (List.replicate count items).flatten
  | a, b => meaningless .multiply a b

/-- Whether two values are numbers of which the second is zero. -/
def dividesByZero (a b : Value) : Bool := a.isNumeric && b.isNumeric && b.isZero

/-- The quotient of two values. -/
def divide (a b : Value) : Checked Fresh :=
  if dividesByZero a b then .error .divideByZero
  else
    match a, b with
    | .int a, .int b => exactly (Number.quotient? a b)
    | .int a, .decimal b => decimalResult (ofWhole a / b)
    | .decimal a, .int b => decimalResult (a / ofWhole b)
    | .decimal a, .decimal b => decimalResult (a / b)
    | a, b => meaningless .divide a b

/-- The remainder of the division of two values. -/
def remainder (a b : Value) : Checked Fresh :=
  if dividesByZero a b then .error .divideByZero
  else
    match a, b with
    | .int a, .int b => exactly (Number.remainder? a b)
    | .int a, .decimal b => decimalResult (Number.remainder (ofWhole a) b)
    | .decimal a, .int b => decimalResult (Number.remainder a (ofWhole b))
    | .decimal a, .decimal b => decimalResult (Number.remainder a b)
    | a, b => meaningless .remainder a b

end Ckl.Store
