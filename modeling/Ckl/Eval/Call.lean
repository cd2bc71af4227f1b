import Ckl.Builtin.Run
import Ckl.Eval.Binding

/-!
# Calls

A call binds its arguments and runs the function. The body of a script's function is evaluated in a
frame of its own inside the frame in which the function was made; built-in functions run in the frame of
the caller. A failure that leaves a call is marked with the call: its function, its arguments as they
are by then, and its place.
-/

namespace Ckl

open Source (Position Node Lambda Parameter Argument)

/-- The greatest length of an argument in the mark of a call. -/
def markLimit : Nat := 20

/-- A text that is cut if it is long. -/
def shortened (cs : List Char) : List Char :=
  if markLimit < cs.length then cs.take markLimit ++ "...".toList else cs

/-- The mark of a call. -/
def callMark (store : Store) (function : Function) (arguments : List (Argument Value))
    (position : Position) : String :=
  let texts := arguments.map fun argument =>
    Source.named argument.name (shortened (store.chars argument.value))
  function.name ++ "(" ++ String.ofList (Source.commas texts) ++ ") @ " ++ position.text

/-- The entries that arguments in place of one are: themselves, or what a spread collection holds. -/
def spreadArgument (position : Position) (value : Value) : Run (List (Argument Value)) :=
  match value with
  | .list _ | .set _ => do
    return Builtin.positional (← Run.check position (← Run.read (·.elements value)))
  | value => do
    let entries ← Run.check position (← Run.read (·.spreadEntries value))
    Run.read fun store => entries.map fun entry => ⟨some (store.plainText entry.1), entry.2⟩

/-- Evaluates an argument. -/
def evaluateArgument (evaluator : Evaluator) (frame : FrameRef) (argument : Argument Node) :
    Run (List (Argument Value)) :=
  match argument.name, argument.value.form with
  | none, .spread inner => do spreadArgument inner.position (← evaluator.value inner frame)
  | name, _ => do return [⟨name, ← evaluator.value argument.value frame⟩]

/-- Evaluates arguments from left to right. -/
def evaluateArguments (evaluator : Evaluator) (frame : FrameRef)
    (arguments : List (Argument Node)) : Run (List (Argument Value)) := do
  return (← arguments.mapM (evaluateArgument evaluator frame)).flatten

/-- Binds the parameters that have no argument to what they fall back to. -/
def bindFallbacks (evaluator : Evaluator) (function : String) (frame : FrameRef)
    (position : Position) : List (Parameter Node) → Run Unit
  | [] => return ()
  | parameter :: rest => do
    if (← Run.read (·.getLocal? frame parameter.name)).isNone then
      match parameter.fallback with
      | some fallback => Run.define frame parameter.name (← evaluator.value fallback frame)
      | none => Run.fail (.missingParameter parameter.name function) position
    bindFallbacks evaluator function frame position rest

/-- The bound arguments as bindings; the rest parameter is bound to a new list. -/
def argumentBindings (bound : BoundArguments) : Run (Bindings Value) := do
  let bindings := Bindings.empty.putAll bound.parameters
  match bound.rest with
  | some (name, values) => return bindings.put name (← Run.placeList values)
  | none => return bindings

/-- Runs a function with its arguments. -/
def invoke (evaluator : Evaluator) (function : Function) (arguments : List (Argument Value))
    (frame : FrameRef) (position : Position) : Run Value := do
  let bindings ← argumentBindings (← Run.check position (bindArguments function arguments))
  match function with
  | .builtin builtin => builtin.run bindings evaluator frame position
  | .host host => do
    let items ← Run.read fun store ref => (store.items ref).toList
    Run.conclude (host.run items bindings position)
  | .lambda definition made => do
    let inner ← Run.enter made bindings
    bindFallbacks evaluator function.name inner position definition.parameters
    finish definition.body.position (evaluator.node definition.body inner)

/-- Calls a function; a failure that leaves the call is marked with it. -/
def callStep (evaluator : Evaluator) (ref : Ref .func) (arguments : List (Argument Value))
    (frame : FrameRef) (position : Position) : Run Value := do
  let function ← Run.read (·.function ref)
  match ← Run.attempt (invoke evaluator function arguments frame position) with
  | .ok value => return value
  | .error failure =>
    let mark ← Run.read fun store => callMark store function arguments position
    Run.stop (failure.leaving mark)

end Ckl
