import Ckl.Eval.Iteration

/-!
# Evaluating collections

Collections that are written out, and comprehensions. Elements are added as soon as they are evaluated,
from left to right; a spread collection adds all its elements. A comprehension has a frame of its own
for its variable.
-/

namespace Ckl

open Collection (Table KeySet)
open Source (Position Node MapItem Member Comprehension CollectionKind)

/-- The values that an item stands for. -/
def itemValues (evaluator : Evaluator) (frame : FrameRef) (item : Node) : Eval (List Value) :=
  match item.form with
  | .spread inner => do
    let value ← evaluator.node inner frame
    Run.check inner.position (← Run.read (·.elements value))
  | _ => do return [← evaluator.node item frame]

/-- Evaluates a list. -/
def evaluateList (evaluator : Evaluator) (frame : FrameRef) (items : List Node) : Eval Value := do
  let values ← items.mapM (itemValues evaluator frame)
  Run.placeList values.flatten

/-- Evaluates a set. -/
def evaluateSet (evaluator : Evaluator) (frame : FrameRef) (items : List Node) : Eval Value := do
  let keys ← items.foldlM (fun keys item => do
    let values ← itemValues evaluator frame item
    Run.read fun store => KeySet.addAll store.keyRule keys values) (Table.empty : KeySet Value)
  Run.place (.set keys)

/-- The entries that an item of a map stands for. -/
def itemEntries (evaluator : Evaluator) (frame : FrameRef) (item : MapItem Node) :
    Eval (List (Value × Value)) :=
  match item with
  | .entry key value => do
    let key ← evaluator.node key frame
    return [(key, ← evaluator.node value frame)]
  | .spread inner => do
    let value ← evaluator.node inner frame
    Run.check inner.position (← Run.read (·.spreadEntries value))

/-- A table with entries added in order. -/
def addEntries (store : Store) (table : Table Value Value) (entries : List (Value × Value)) :
    Table Value Value :=
  entries.foldl (fun table entry => table.insert store.keyRule entry.1 entry.2) table

/-- Evaluates a map. -/
def evaluateMap (evaluator : Evaluator) (frame : FrameRef) (items : List (MapItem Node)) :
    Eval Value := do
  let table ← items.foldlM (fun table item => do
    let entries ← itemEntries evaluator frame item
    Run.read fun store => addEntries store table entries) (Table.empty : Table Value Value)
  Run.place (.map table)

/-- Evaluates an object. -/
def evaluateObject (evaluator : Evaluator) (frame : FrameRef) (members : List (Member Node)) :
    Eval Value := do
  let bindings ← members.foldlM (fun (bindings : Bindings Value) (member : Member Node) => do
    return bindings.put member.name (← evaluator.node member.value frame)) Bindings.empty
  Run.place (.object bindings)

/-- A collection without elements. -/
def emptyCollection : CollectionKind → Fresh
  | .list => .list #[]
  | .set => .set Table.empty
  | .map => .map Table.empty

/-- A collection with an element added, and a value for it if the collection is a map. -/
def addElement (store : Store) (element value : Value) : Fresh → Fresh
  | .list items => .list (items.push element)
  | .set keys => .set (KeySet.add store.keyRule keys element)
  | .map entries => .map (entries.insert store.keyRule element value)
  | fresh => fresh

/-- The truth value of a node where no exit is allowed. -/
def Evaluator.truth (evaluator : Evaluator) (node : Node) (frame : FrameRef) : Run Bool := do
  Run.check node.position (← evaluator.value node frame).asBool

/-- One round of a comprehension. -/
def gather (evaluator : Evaluator) (parts : Comprehension Node) (frame : FrameRef)
    (collection : Fresh) (item : Value) : Run Fresh := do
  Run.define frame parts.binder item
  let accepted ← match parts.condition with
    | some condition => evaluator.truth condition frame
    | none => pure true
  if accepted then
    let element ← evaluator.value parts.element frame
    let value ← match parts.value with
      | some value => evaluator.value value frame
      | none => pure .null
    Run.read fun store => addElement store element value collection
  else return collection

/-- Evaluates a comprehension. -/
def evaluateComprehension (evaluator : Evaluator) (parts : Comprehension Node) (frame : FrameRef)
    (position : Position) : Eval Value := do
  let source ← evaluator.node parts.source frame
  let inner ← Run.enter frame Bindings.empty
  let iteration ← Iteration.ofSource source .items position
  let rounds ← Run.read fun store => iteration.rounds store
  let collection ← iteration.fold (gather evaluator parts inner) rounds (emptyCollection parts.kind)
  Run.place collection

end Ckl
