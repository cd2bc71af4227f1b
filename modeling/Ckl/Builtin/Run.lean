import Ckl.Builtin.Convert
import Ckl.Builtin.Sorting
import Ckl.Builtin.Test
import Ckl.Eval.Exit
import Ckl.Source.Script
import Ckl.Text.Lines
import Ckl.Value.Arithmetic
import Ckl.Value.Reach

/-!
# What built-in functions do

A built-in function runs with its arguments, in the frame from which it was called. Only `sorted` and
`eval` evaluate anything, and only `append` and the functions on streams change something.
-/

namespace Ckl

open Source (Position Argument)

namespace Builtin

variable (arguments : Arguments)

/-- The name that may be bound to a value that divisions by zero give. -/
def divisionFallbackName : String := "DIV_0_VALUE"

/-- The name of the stream that is written to if no other is given. -/
def outputName : String := "stdout"

/-- The name of the stream that is read if no other is given. -/
def inputName : String := "stdin"

/-- An operation on the first two arguments. -/
def operate (operation : Store → Value → Value → Checked Fresh) (store : Store) : Checked Fresh := do
  let a ← arguments.need "a"
  let b ← arguments.need "b"
  operation store a b

/-- A division of the first two arguments, with the value that is bound for divisions by zero. -/
def divided (operation : Store → Value → Value → Checked Fresh) (frame : FrameRef) (store : Store) :
    Checked Fresh := do
  let a ← arguments.need "a"
  let b ← arguments.need "b"
  let fallback := (store.lookup? frame divisionFallbackName).filter fun value => !value.isNull
  match fallback with
  | some value => if Store.dividesByZero a b then return .value value else operation store a b
  | none => operation store a b

/-- The argument for a stream, or else the stream that a name is bound to. -/
def streamOr (argument name : String) (frame : FrameRef) (position : Position) : Run Value :=
  match arguments.optional argument with
  | some value => return value
  | none => Run.lookup frame name position

/-- Writes the plain text of a value and `ending` to a stream. -/
def writeTo (ending : String) (frame : FrameRef) (position : Position) : Run Value := do
  let text ← match arguments.optional "obj" with
    | some value => Run.read (·.plainText value)
    | none => pure ""
  let stream ← streamOr arguments "out" outputName frame position
  let output ← Run.check position stream.asOutput
  modify (·.write output (text ++ ending))
  return .null

/-- Reads a line from a stream; at its end there is none. -/
def readFrom (frame : FrameRef) (position : Position) : Run Value := do
  let stream ← streamOr arguments "input" inputName frame position
  let input ← Run.check position stream.asInput
  return (← Run.readLine input).elim .null .string

/-- Appends an element to a list or a set, which all references to it see. -/
def appendTo (position : Position) : Run Value := do
  let target ← Run.check position (arguments.need "lst")
  let element ← Run.check position (arguments.need "element")
  match target with
  | .list ref => modify (·.changeItems ref (·.push element))
  | .set ref =>
    if ← Run.read (·.reaches element target) then Run.fail .setInItself position
    let known ← Run.read (·.hasKey ref element)
    let hash ← Run.read (·.keyRule.hash element)
    unless known do
      modify (·.changeKeySet ref (·.place ⟨hash, element, ()⟩ none))
  | value => Run.fail (.unusable .append value.type) position
  return target

/-- A list of the parts of a value. -/
def convertList (position : Position) : Run Value := do
  match ← Run.check position (arguments.need "obj") with
  | .map ref => Run.placeList (← Run.placePairs (← Run.read (·.sortedEntries ref)))
  | .string text => Run.placeList ((Text.graphemes text).map .string)
  | value => Run.placeList (← Run.check position (← Run.read (·.elements value)))

/-- Positional arguments. -/
def positional (values : List Value) : List (Argument Value) := values.map (⟨none, ·⟩)

/-- Sorts the elements of a list or a set: by what a function gives for each, or as they are, and by a
function that compares, or in the order of values. -/
def sortElements (evaluator : Evaluator) (frame : FrameRef) (position : Position) : Run Value := do
  let target ← Run.check position (arguments.need "lst")
  let elements ← Run.check position (← Run.read (·.elements target))
  let keyFunction ← Run.check position (arguments.optionalAs "key" Value.asFunction)
  let keyed ← elements.mapM fun element =>
    match keyFunction with
    | some function => return (← evaluator.call function (positional [element]) frame position, element)
    | none => return (element, element)
  let sorted ← match arguments.optional "cmp" with
    | none => Run.read fun store => sortBy (fun a b => store.order a.1 b.1) keyed
    | some comparison => do
      let function ← Run.check position comparison.asFunction
      let less (a b : Value × Value) : Run Bool := do
        let result ← evaluator.call function (positional [a.1, b.1]) frame position
        return (← Run.check position result.asDecimal) < 0.0
      sortWith less keyed
  Run.placeList (sorted.map Prod.snd)

/-- Reads a script; positions are in the file from which the function is called. -/
def readSource (source : String) (position : Position) : Run Source.Node :=
  match Source.readScript position.file source with
  | .ok node => return node
  | .error fault => Run.stop (Failure.ofFault fault)

/-- Evaluates a syntax tree or the text of a script in a frame of its own. -/
def evaluateArgument (evaluator : Evaluator) (frame : FrameRef) (position : Position) :
    Run Value := do
  let node ← match ← Run.check position (arguments.need "obj") with
    | .node ref => Run.read (·.tree ref)
    | .string source => readSource source position
    | value => Run.fail (.unusable .evaluate value.type) position
  let inner ← Run.enter frame Bindings.empty
  finish node.position (evaluator.node node inner)

/-- The truth value of a test on the store, whose error is placed. -/
def answer (position : Position) (test : Store → Checked Bool) : Run Value := do
  return .boolean (← Run.check position (← Run.read test))

/-- A value that is made from the arguments alone. -/
def give (position : Position) (value : Checked Value) : Run Value := Run.check position value

/-- Runs a built-in function. -/
def run (evaluator : Evaluator) (builtin : Builtin) (frame : FrameRef) (position : Position) :
    Run Value :=
  match builtin with
  | .add => Run.compute position (operate arguments Store.add)
  | .sub => Run.compute position (operate arguments Store.subtract)
  | .mul => Run.compute position (operate arguments Store.multiply)
  | .div => Run.compute position (divided arguments (fun _ => Store.divide) frame)
  | .mod => Run.compute position (divided arguments (fun _ => Store.remainder) frame)
  | .equals => answer position fun store => areEqual store arguments
  | .notEquals => answer position fun store => (areEqual store arguments).map not
  | .less => answer position fun store => areOrdered store arguments (· == .lt)
  | .lessEquals => answer position fun store => areOrdered store arguments (· != .gt)
  | .greater => answer position fun store => areOrdered store arguments (· == .gt)
  | .greaterEquals => answer position fun store => areOrdered store arguments (· != .lt)
  | .isEmpty => answer position fun store => testEmpty store arguments
  | .isZero => answer position fun _ => testZero arguments
  | .isNegative => answer position fun _ => testNegative arguments
  | .isNumerical => answer position fun _ => testChars arguments Char.isDigit
  | .isAlphanumerical => answer position fun _ => testChars arguments Text.isAlphanumeric
  | .isDate => answer position fun _ => testDate arguments
  | .isTime => answer position fun _ => testTime arguments
  | .startsWith => answer position fun _ => testPart arguments List.isPrefixOf
  | .endsWith => answer position fun _ => testPart arguments List.isSuffixOf
  | .contains => answer position fun store => testContains store arguments
  | .matchesPattern => answer position fun _ => testPattern arguments
  | .range => Run.compute position fun _ => rangeItems arguments
  | .length => do
    let value ← Run.check position (arguments.need "obj")
    let length ← Run.check position (← Run.read (·.length value))
    return .int (Int64.ofNat length)
  | .sorted => sortElements arguments evaluator frame position
  | .append => appendTo arguments position
  | .type => give position ((arguments.need "obj").map fun value => .string value.type.name)
  | .string => do
    let value ← Run.check position (arguments.need "obj")
    return .string (← Run.read (·.plainText value))
  | .int => give position (convertInt arguments)
  | .decimal => give position (convertDecimal arguments)
  | .list => convertList arguments position
  | .set => Run.compute position fun store => convertSet store arguments
  | .date => do Run.check position (← Run.read fun store => convertDate store arguments)
  | .println => writeTo arguments "\n" frame position
  | .print => writeTo arguments "" frame position
  | .strInput => do
    let text ← Run.check position (arguments.needString "str")
    modifyGet fun store => store.placeInput ((Text.lines text).map .ok)
  | .readLine => readFrom arguments frame position
  | .parse => do
    let source ← Run.check position (arguments.needString "str")
    let node ← readSource source position
    modifyGet fun store => store.placeNode node
  | .eval => evaluateArgument arguments evaluator frame position

end Builtin

end Ckl
