import Ckl.Eval.Call
import Ckl.Eval.Collection
import Ckl.Eval.Control
import Ckl.Eval.Require

/-!
# Evaluation

A node is evaluated in a frame by a single step, which evaluates the parts of the node by an evaluator
that it is given. `evaluate` ties this together: the parts of a node, and the bodies of functions that
it calls, are evaluated with one less as the bound. With bound zero there is no answer; what has an
answer with some bound has it with every greater one.
-/

namespace Ckl

open Source (Position Node Literal)

/-- The value of a literal. -/
def literalValue : Literal → Value
  | .boolean value => .boolean value
  | .int value => .int value
  | .decimal value => .decimal value
  | .string value => .string value
  | .pattern source => .pattern source

/-- Changes what a container holds at an index. -/
def assignIndex (target key value : Value) (position : Position) : Run Unit := do
  match target with
  | .list ref =>
    let length ← Run.read fun store => (store.items ref).size
    let slot ← Run.check position (Store.slot key length)
    modify (·.changeItems ref (·.setIfInBounds slot value))
  | .map ref =>
    if ← Run.read (·.reaches key target) then Run.fail .mapAsOwnKey position
    let hash ← Run.read (·.keyRule.hash key)
    let existing ← Run.read fun store =>
      (store.table ref).locate hash fun entry => store.keyRule.same entry key
    modify (·.changeTable ref (·.place ⟨hash, key, value⟩ existing))
  | .object ref =>
    let name ← Run.check position key.asString
    modify (·.changeMembers ref (·.put name value))
  | value => Run.fail (.unusable .assign value.type) position

/-- Gives names that are known other values, one after the other. -/
def assignAll (frame : FrameRef) (position : Position) (entries : List (String × Value)) : Run Unit :=
  entries.forM fun entry => Run.assign frame entry.1 entry.2 position

/-- The parts of a value for some names. -/
def partsFor (names : List String) (value : Value) (position : Position) :
    Run (List (String × Value)) := do
  let elements ← Run.check position (← Run.read (·.destructure value names.length))
  return names.zip elements

/-- Evaluates a node, with its parts evaluated by the given evaluator. Loops with a condition take at
most `rounds` rounds. -/
def step (rounds : Nat) (evaluator : Evaluator) (node : Node) (frame : FrameRef) : Eval Value :=
  let position := node.position
  match node.form with
  | .literal value => return literalValue value
  | .name name => Run.lookup frame name position
  | .spread _ => Run.fail .misplacedSpread position
  | .list items => evaluateList evaluator frame items
  | .set items => evaluateSet evaluator frame items
  | .map items => evaluateMap evaluator frame items
  | .object members => evaluateObject evaluator frame members
  | .comprehension parts => evaluateComprehension evaluator parts frame position
  | .block body handlers cleanup => evaluateBlock evaluator frame body handlers cleanup
  | .choice branches otherwise => evaluateChoice evaluator frame otherwise branches
  | .and left right => do
    if ← evaluateTruth evaluator left frame then
      return .boolean (← evaluateTruth evaluator right frame)
    else return .boolean false
  | .or left right => do
    if ← evaluateTruth evaluator left frame then return .boolean true
    else return .boolean (← evaluateTruth evaluator right frame)
  | .not operand => do return .boolean (!(← evaluateTruth evaluator operand frame))
  | .contained element container => do
    let element ← evaluator.node element frame
    let container ← evaluator.node container frame
    return .boolean (← Run.check position (← Run.read (·.contains container element)))
  | .call callee arguments => do
    let value ← evaluator.node callee frame
    let function ← Run.check callee.position value.asFunction
    evaluator.call function (← evaluateArguments evaluator frame arguments) frame position
  | .index target key => do
    let target ← evaluator.node target frame
    let key ← evaluator.node key frame
    Run.check position (← Run.read (·.index target key))
  | .assignIndex target key value => do
    let target ← evaluator.node target frame
    let key ← evaluator.node key frame
    let value ← evaluator.node value frame
    assignIndex target key value position
    return value
  | .invoke target member arguments => do
    let target ← evaluator.node target frame
    let function ← Run.check position (← Run.read (·.memberFunction target member))
    evaluator.call function (← evaluateArguments evaluator frame arguments) frame position
  | .assign name value => do
    let value ← evaluator.node value frame
    Run.assign frame name value position
    return value
  | .assignAll names value => do
    let value ← evaluator.node value frame
    assignAll frame position (← partsFor names value position)
    return value
  | .define name value => do
    let value ← evaluator.node value frame
    Run.define frame name value
    return value
  | .defineAll names value => do
    let value ← evaluator.node value frame
    let entries ← partsFor names value position
    modify (·.defineAll frame entries)
    return value
  | .function definition => modifyGet (·.placeFunction (.lambda definition frame))
  | .loop parts => evaluateLoop evaluator parts frame position
  | .loopWhile condition body => evaluateWhile evaluator condition body frame rounds .null
  | .breakLoop => Eval.exit .break
  | .continueLoop => Eval.exit .continue
  | .giveBack value =>
    match value with
    | some value => do Eval.exit (.return (← evaluator.node value frame))
    | none => Eval.exit (.return .null)
  | .raise payload => do
    let payload ← evaluator.node payload frame
    let text ← Run.read (·.plainText payload)
    Run.stop (.diagnosed { cause := .raised payload text, position })
  | .require module style => requireModule evaluator module style frame position

mutual

/-- Evaluates a node in a frame. -/
def evaluate : (bound : Nat) → Node → FrameRef → Eval Value
  | 0, _, _ => Run.exhausted
  | bound + 1, node, frame => step bound ⟨evaluate bound, call bound⟩ node frame
termination_by structural bound => bound

/-- Calls a function. -/
def call : (bound : Nat) → Ref .func → List (Source.Argument Value) → FrameRef → Position → Run Value
  | 0, _, _, _, _ => Run.exhausted
  | bound + 1, ref, arguments, frame, position =>
    callStep ⟨evaluate bound, call bound⟩ ref arguments frame position
termination_by structural bound => bound

end

/-- The evaluator with a bound. -/
def evaluator (bound : Nat) : Evaluator := ⟨evaluate bound, call bound⟩

end Ckl
