import Ckl.Value.Conversion

/-!
# Arguments of built-in functions

A built-in function finds its arguments by the names of its parameters. An argument that is asked for
must be there; one that is optional counts as missing when it is null.
-/

namespace Ckl

/-- Arguments by the names of their parameters. -/
abbrev Arguments := Bindings Value

namespace Arguments

/-- An argument that must be there. -/
def need (arguments : Arguments) (name : String) : Checked Value :=
  match arguments.get? name with
  | some value => .ok value
  | none => .error (.missingArgument name)

/-- An argument that may be missing. -/
def optional (arguments : Arguments) (name : String) : Option Value :=
  (arguments.get? name).filter fun value => !value.isNull

/-- An argument that may be missing, as what the function asks for. -/
def optionalAs {α : Type} (arguments : Arguments) (name : String) (read : Value → Checked α) :
    Checked (Option α) :=
  match arguments.optional name with
  | some value => (read value).map some
  | none => .ok none

/-- An integer that must be there. -/
def needInt (arguments : Arguments) (name : String) : Checked Int64 := do
  (← arguments.need name).asInt

/-- A text that must be there. -/
def needString (arguments : Arguments) (name : String) : Checked String := do
  (← arguments.need name).asString

end Arguments

end Ckl
