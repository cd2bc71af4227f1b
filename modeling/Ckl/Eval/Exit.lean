import Ckl.Run

/-!
# Exits

Evaluation ends with a value or by an exit: a loop is left or continued, or a function is left with a
value. An exit passes through everything up to the loop or the function that it ends; where a value is
asked for it is an error.
-/

namespace Ckl

open Source (Position Node Argument)

/-- How evaluation ends ahead. -/
inductive Exit where
  | break
  | continue
  | return (value : Value)
  deriving Repr

/-- The kind of an exit. -/
def Exit.jump : Exit → Jump
  | .break => .break
  | .continue => .continue
  | .return _ => .return

/-- Work that ends with a result or by an exit. -/
structure Eval (α : Type) where
  run : Run (Except Exit α)

namespace Eval

variable {α β : Type}

/-- Ends by an exit. -/
def exit (exit : Exit) : Eval α := ⟨pure (.error exit)⟩

/-- Goes on after some work with its result; an exit of the work ends both. -/
def andThen (work : Eval α) (next : α → Eval β) : Eval β where
  run := do
    match ← work.run with
    | .ok value => (next value).run
    | .error exit => return .error exit

instance : Monad Eval where
  pure value := ⟨pure (.ok value)⟩
  bind := andThen

/-- Work that takes no exit. -/
def ofRun (work : Run α) : Eval α := ⟨do return .ok (← work)⟩

instance : MonadLift Run Eval := ⟨ofRun⟩

/-- How some work ends: with a result or by an exit. -/
def outcome (work : Eval α) : Eval (Except Exit α) := ofRun work.run

end Eval

/-- How the parts of a node are evaluated: nodes in frames, and calls of functions with arguments from a
frame and a place. -/
structure Evaluator where
  node : Node → FrameRef → Eval Value
  call : Ref .func → List (Argument Value) → FrameRef → Position → Run Value

/-- The value of a node where no exit is allowed. -/
def Evaluator.value (evaluator : Evaluator) (node : Node) (frame : FrameRef) : Run Value := do
  match ← (evaluator.node node frame).run with
  | .ok value => return value
  | .error exit => Run.fail (.misplaced exit.jump) node.position

/-- The result of a script, a module or a function body: a `return` ends it with a value, but it is not
the body of a loop. -/
def finish (position : Position) (work : Eval Value) : Run Value := do
  match ← work.run with
  | .ok value | .error (.return value) => return value
  | .error exit => Run.fail (.misplaced exit.jump) position

end Ckl
