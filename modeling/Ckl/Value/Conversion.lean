import Ckl.Value.Canonical

/-!
# Values as what an operation asks for

An operation that asks for a truth value, a number, a text or a function accepts certain types and
refuses the others by an error that names both. Integers and decimals stand for each other.
-/

namespace Ckl

/-- The outcome of an operation on values. -/
abbrev Checked (α : Type) := Except RuntimeError α

namespace Value

/-- The error that a value has the wrong type. -/
def refuse {α : Type} (value : Value) (wanted : Wanted) : Checked α :=
  .error (.unexpectedType wanted value.type)

/-- A truth value. -/
def asBool : Value → Checked Bool
  | boolean value => .ok value
  | value => value.refuse .boolean

/-- An integer; decimals lose their fraction. -/
def asInt : Value → Checked Int64
  | int value => .ok value
  | decimal value => .ok (Number.truncate value)
  | value => value.refuse .int

/-- A decimal. -/
def asDecimal : Value → Checked Float
  | int value => .ok (Number.ofWhole value)
  | decimal value => .ok value
  | value => value.refuse .decimal

/-- A text. -/
def asString : Value → Checked String
  | string value => .ok value
  | value => value.refuse .string

/-- A function. -/
def asFunction : Value → Checked (Ref .func)
  | func ref => .ok ref
  | value => value.refuse .func

/-- An input stream. -/
def asInput : Value → Checked (Ref .input)
  | input ref => .ok ref
  | value => value.refuse .input

/-- An output stream. -/
def asOutput : Value → Checked (Ref .output)
  | output ref => .ok ref
  | value => value.refuse .output

end Value

/-- The elements of a list, or those of a set in order. -/
def Store.elements (store : Store) : Value → Checked (List Value)
  | .list ref => .ok (store.items ref).toList
  | .set ref => .ok (store.sortedKeys ref)
  | value => value.refuse .listOrSet

end Ckl
