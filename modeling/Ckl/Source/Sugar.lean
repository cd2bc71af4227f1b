import Ckl.Source.Node
import Ckl.Source.Fault

/-!
# Derived forms

What operators and assignments stand for. An operator is a call of the function that computes it, a
chain of comparisons the conjunction of its links, and an assignment with an operator assigns the
result of a call whose first argument is the target itself.
-/

namespace Ckl.Source

/-- A call of a named function with the given operands. -/
def Node.callOf (function : String) (position : Position) (operands : List Node) : Node :=
  .mk position (.call (.mk position (.name function)) (operands.map fun value => ⟨none, value⟩))

/-- The node, or its negation. -/
def Node.negatedIf (negated : Bool) (position : Position) (node : Node) : Node :=
  if negated then .mk position (.not node) else node

/-- The node behind a minus sign. A number that is written out becomes the opposite number. -/
def Node.opposite (position : Position) : Node → Node
  | .mk _ (.literal (.int value)) => .mk position (.literal (.int (-value)))
  | .mk _ (.literal (.decimal value)) => .mk position (.literal (.decimal (-value)))
  | operand => .callOf "sub" position [.mk position (.literal (.int 0)), operand]

/-- A comparison behind its left operand: the function, the place of the operator, and the right
operand. -/
structure Link where
  function : String
  position : Position
  right : Node

/-- The calls that the links of a chain stand for: each right operand is the left operand of the next
link. -/
def Link.calls (left : Node) : List Link → List Node
  | [] => []
  | link :: links =>
    .callOf link.function link.position [left, link.right] :: calls link.right links

/-- The conjunction of nodes, which groups to the left. -/
def Node.conjunction (first : Node) (rest : List Node) : Node :=
  rest.foldl (fun left right => .mk left.position (.and left right)) first

/-- A chain of comparisons. -/
def Link.chain (left : Node) (links : List Link) : Node :=
  match calls left links with
  | [] => left
  | first :: rest => first.conjunction rest

/-- The names of a list that holds names alone; otherwise the place of the first item that is none. -/
def Node.names? : List Node → Except Position (List String)
  | [] => .ok []
  | .mk position form :: nodes =>
    match form with
    | .name name => (names? nodes).map (name :: ·)
    | _ => .error position

/-- The assignment of a value to a target: a name, a place in a collection, or a list of names. -/
def Node.assigned (target value : Node) : Except Fault Node :=
  match target with
  | .mk position form =>
    match form with
    | .name name => .ok (.mk position (.assign name value))
    | .index collection key => .ok (.mk position (.assignIndex collection key value))
    | .list items =>
      match Node.names? items with
      | .ok names => .ok (.mk position (.assignAll names value))
      | .error place => .error ⟨.notNames, place⟩
    | _ => .error ⟨.notAssignable, position⟩

/-- The node, which takes a name if it is a function that has none. -/
def Node.withName (name : String) : Node → Node
  | .mk position (.function ⟨none, parameters, rest, body⟩) =>
    .mk position (.function ⟨some name, parameters, rest, body⟩)
  | node => node

end Ckl.Source
