import Ckl.Value.Conversion
import Ckl.Source.Node

/-!
# Arguments and parameters

Named arguments go to the parameters of their names. Positional ones then fill the parameters that are
left, in order. What is left over goes to the rest parameter: positional arguments first, then named
ones that name no parameter. Without a rest parameter nothing may be left over, and no parameter takes
two arguments.
-/

namespace Ckl

open Source (Argument)

/-- A parameter with its argument, if it has one yet. -/
structure Slot where
  name : String
  value : Option Value := none

namespace Slot

/-- What becomes of a named argument. -/
inductive Naming where
  | unknown
  | taken
  | filled (slots : List Slot)

/-- Gives a value to the first parameter of a name. -/
def fillNamed (name : String) (value : Value) : List Slot → Naming
  | [] => .unknown
  | slot :: rest =>
    if slot.name = name then
      if slot.value.isSome then .taken else .filled ({ slot with value := some value } :: rest)
    else
      match fillNamed name value rest with
      | .filled rest => .filled (slot :: rest)
      | naming => naming

/-- Gives a value to the first parameter that has none. -/
def fillNext (value : Value) : List Slot → Option (List Slot)
  | [] => none
  | slot :: rest =>
    if slot.value.isNone then some ({ slot with value := some value } :: rest)
    else (fillNext value rest).map (slot :: ·)

/-- The parameters that have arguments, in order. -/
def bound (slots : List Slot) : List (String × Value) :=
  slots.filterMap fun slot => slot.value.map fun value => (slot.name, value)

end Slot

/-- The arguments of a call, bound to parameters. -/
structure BoundArguments where
  parameters : List (String × Value)
  /-- The rest parameter with what is left over, if the function has one. -/
  rest : Option (String × List Value)

/-- Parameters on the way to be bound, with the arguments left over so far. -/
structure Binding where
  slots : List Slot
  surplus : List Value := []

namespace Binding

/-- Binds a named argument. -/
def addNamed (function : Function) (binding : Binding) (name : String) (value : Value) :
    Checked Binding :=
  match Slot.fillNamed name value binding.slots with
  | .filled slots => .ok { binding with slots }
  | .taken => .error (.argumentBoundTwice name function.name)
  | .unknown =>
    if function.rest.isSome then .ok { binding with surplus := binding.surplus ++ [value] }
    else .error (.unknownArgument name function.name)

/-- Binds a positional argument. -/
def addPositional (function : Function) (binding : Binding) (value : Value) : Checked Binding :=
  match Slot.fillNext value binding.slots with
  | some slots => .ok { binding with slots }
  | none =>
    if function.rest.isSome then .ok { binding with surplus := binding.surplus ++ [value] }
    else .error (.tooManyArguments function.name)

end Binding

/-- The named ones among arguments. -/
def namedArguments (arguments : List (Argument Value)) : List (String × Value) :=
  arguments.filterMap fun argument => argument.name.map fun name => (name, argument.value)

/-- The positional ones among arguments. -/
def positionalArguments (arguments : List (Argument Value)) : List Value :=
  (arguments.filter (·.name.isNone)).map (·.value)

/-- Binds arguments to the parameters of a function. -/
def bindArguments (function : Function) (arguments : List (Argument Value)) :
    Checked BoundArguments := do
  let start : Binding := { slots := function.parameters.map fun name => { name } }
  let named ← (namedArguments arguments).foldlM
    (fun binding argument => binding.addNamed function argument.1 argument.2) start
  let all ← (positionalArguments arguments).foldlM
    (fun binding value => binding.addPositional function value) { named with surplus := [] }
  return {
    parameters := Slot.bound all.slots
    rest := function.rest.map fun name => (name, all.surplus ++ named.surplus) }

end Ckl
