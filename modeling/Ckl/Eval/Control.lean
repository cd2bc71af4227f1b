import Ckl.Eval.Iteration
import Ckl.Source.Node.FreeNames

/-!
# Control flow

Sequences, choices, loops and blocks. A block runs its statements; if they fail, the first handler that
matches runs instead, and in any case its cleanup runs at the end. Faults of texts are not handled. A
handler finds the error under a name that has its former meaning afterwards, and so have the names of a
loop.
-/

namespace Ckl

open Source (Position Node Branch Handler Loop lastErrorName)

/-- The truth value of a node. -/
def evaluateTruth (evaluator : Evaluator) (node : Node) (frame : FrameRef) : Eval Bool := do
  Run.check node.position (← evaluator.node node frame).asBool

/-- Runs nodes in order; the value is that of the last one. -/
def evaluateSequence (evaluator : Evaluator) (frame : FrameRef) (nodes : List Node) : Eval Value :=
  nodes.foldlM (fun _ node => evaluator.node node frame) .null

/-- Evaluates what belongs to the first condition that holds. -/
def evaluateChoice (evaluator : Evaluator) (frame : FrameRef) (otherwise : Option Node) :
    List (Branch Node) → Eval Value
  | [] =>
    match otherwise with
    | some node => evaluator.node node frame
    | none => return .null
  | branch :: rest => do
    if ← evaluateTruth evaluator branch.condition frame then evaluator.node branch.body frame
    else evaluateChoice evaluator frame otherwise rest

/-! ## Blocks -/

/-- What a handler finds of a failure. -/
structure Caught where
  /-- The value that a script raised, if one did. -/
  payload : Option Value
  /-- The value that stands for the failure. -/
  shown : Value

/-- What handlers find of a failure; they find nothing of a fault of a text. -/
def Failure.caught? : Failure → Option Caught
  | .diagnosed { cause := .fault _, .. } => none
  | .diagnosed { cause := .raised payload _, .. } => some ⟨some payload, payload⟩
  | .diagnosed { cause := .runtime error, .. } => some ⟨none, .string error.message⟩
  | .unreadable problem => some ⟨none, .string problem.message⟩

/-- Whether a handler is meant for a failure. -/
def handles (evaluator : Evaluator) (frame : FrameRef) (caught : Caught) (handler : Handler Node) :
    Run Bool :=
  match handler.filter with
  | none => return true
  | some filter => do
    let expected ← evaluator.value filter frame
    Run.read fun store => caught.payload.any (store.equal · expected)

/-- Runs a handler. -/
def runHandler (evaluator : Evaluator) (frame : FrameRef) (caught : Caught)
    (handler : Handler Node) : Run (Except Exit Value) := do
  let before ← Run.read (·.getLocal? frame lastErrorName)
  Run.restore frame lastErrorName (some caught.shown)
  let outcome ← Run.attempt (evaluateSequence evaluator frame handler.body).run
  Run.restore frame lastErrorName before
  Run.conclude outcome

/-- Runs the first handler that is meant for a failure. -/
def handleFailure (evaluator : Evaluator) (frame : FrameRef) (failure : Failure) (caught : Caught) :
    List (Handler Node) → Run (Except Exit Value)
  | [] => Run.stop failure
  | handler :: rest => do
    if ← handles evaluator frame caught handler then runHandler evaluator frame caught handler
    else handleFailure evaluator frame failure caught rest

/-- Runs a block up to its cleanup. -/
def runHandled (evaluator : Evaluator) (frame : FrameRef) (body : List Node)
    (handlers : List (Handler Node)) : Run (Except Exit Value) := do
  match ← Run.attempt (evaluateSequence evaluator frame body).run with
  | .ok outcome => return outcome
  | .error failure =>
    match failure.caught? with
    | some caught => handleFailure evaluator frame failure caught handlers
    | none => Run.stop failure

/-- Evaluates a block. Exits of the cleanup have no effect; a failure of it counts. -/
def evaluateBlock (evaluator : Evaluator) (frame : FrameRef) (body : List Node)
    (handlers : List (Handler Node)) (cleanup : List Node) : Eval Value where
  run := do
    let outcome ← Run.attempt (runHandled evaluator frame body handlers)
    let _ ← (evaluateSequence evaluator frame cleanup).run
    Run.conclude outcome

/-! ## Loops -/

/-- Binds the names of a loop to an item, or to its parts. -/
def bindItem (parts : Loop Node) (frame : FrameRef) (position : Position) (item : Value) :
    Run Unit := do
  if parts.destructures then
    let elements ← Run.check position (← Run.read (·.destructure item parts.names.length))
    modify (·.defineAll frame (parts.names.zip elements))
  else
    modify (·.defineAll frame (parts.names.take 1 |>.map (·, item)))

/-- Gives names the meaning in a frame that they had before. -/
def restoreAll (frame : FrameRef) (before : List (String × Option Value)) : Run Unit :=
  before.forM fun entry => Run.restore frame entry.1 entry.2

/-- Evaluates a loop over a source. -/
def evaluateLoop (evaluator : Evaluator) (parts : Loop Node) (frame : FrameRef)
    (position : Position) : Eval Value := do
  let source ← evaluator.node parts.source frame
  let iteration ← Iteration.ofSource source parts.selection position
  let before ← Run.read fun store => parts.names.map fun name => (name, store.getLocal? frame name)
  let rounds ← Run.read fun store => iteration.rounds store
  let body (item : Value) : Eval Value := do
    bindItem parts frame position item
    evaluator.node parts.body frame
  let outcome ← Run.attempt (iteration.loop body rounds .null).run
  restoreAll frame before
  ⟨Run.conclude outcome⟩

/-- Evaluates a loop with a condition, for at most `rounds` rounds. -/
def evaluateWhile (evaluator : Evaluator) (condition body : Node) (frame : FrameRef) :
    (rounds : Nat) → (last : Value) → Eval Value
  | 0, _ => Run.exhausted
  | rounds + 1, last => do
    if ← evaluateTruth evaluator condition frame then
      match ← (evaluator.node body frame).outcome with
      | .ok value => evaluateWhile evaluator condition body frame rounds value
      | .error .break => return last
      | .error .continue => evaluateWhile evaluator condition body frame rounds last
      | .error (.return value) => Eval.exit (.return value)
    else return last

end Ckl
