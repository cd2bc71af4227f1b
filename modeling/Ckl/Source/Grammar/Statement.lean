import Ckl.Source.Grammar.Operator

/-!
# Statements

Definitions, loops, assignments and the `require` of a module. Any expression is a statement too.
-/

namespace Ckl.Source.Grammar

open Reading

/-- The name or the path of a module. -/
def moduleName : Reading Node := do
  match ← ahead? 0 with
  | some (.name name) =>
    let ⟨_, position⟩ ← next
    return .mk position (.name name)
  | some (.string path) =>
    let ⟨_, position⟩ ← next
    return .mk position (.literal (.string path))
  | _ => fail (.expected .moduleName)

/-- A name to be imported, with its alias. -/
def importedName : Reading (String × String) := do
  let (name, _) ← expectName .importedName
  if ← tookKeyword .as then
    let (localName, _) ← expectName .localName
    return (name, localName)
  else
    return (name, name)

/-- How the names of a module are to be bound. -/
def importStyle (bound : Nat) : Reading ImportStyle := do
  if ← tookKeyword .unqualified then
    return .unqualified
  else if ← tookKeyword .as then
    let (localName, _) ← expectName .localName
    return .qualified (some localName)
  else if ← tookKeyword .import then
    let _ ← expectSymbol .openBracket .importList
    let names ← if ← upcomingSymbol .closeBracket then pure [] else separated importedName bound
    let _ ← expectSymbol .closeBracket .importListEnd
    return .listed names
  else
    return .qualified none

/-- A `require` after its keyword. -/
def require (bound : Nat) (position : Position) : Reading Node := do
  let module ← moduleName
  return .mk position (.require module (← importStyle bound))

/-- Names up to a closing bracket, which is taken. -/
def bracketedNames (bound : Nat) : Reading (List String) := do
  let names ← separated (expectName .listedName) bound
  let _ ← expectSymbol .closeBracket .namesEnd
  return names.map Prod.fst

/-- A definition after its keyword. -/
def definition (recur : Recur) (bound : Nat) (position : Position) : Reading Node := do
  if ← tookSymbol .openBracket then
    let names ← bracketedNames bound
    let _ ← expectSymbol .assign .destructuringAssign
    return .mk position (.defineAll names (← recur .expression))
  else
    let (name, place) ← expectName .definedName
    if ← upcomingSymbol .openParen then
      return .mk position (.define name (← function recur bound (some name) place))
    else
      let _ ← expectSymbol .assign .definitionAssign
      return .mk position (.define name ((← recur .expression).withName name))

/-- The words that select what a loop takes from its source. -/
def selections : List (String × Selection) :=
  [("keys", .keys), ("values", .values), ("entries", .entries)]

/-- Whether a lexeme behind the word for a selection shows that it is one and not the source. -/
def beginsSource : Lexeme → Bool
  | .name _ | .string _ => true
  | .symbol mark => mark ∈ [.openParen, .openBracket, .openObject, .openSet, .openMap]
  | _ => false

/-- The selection of a loop. -/
def selection : Reading Selection := do
  match ← ahead? 0 with
  | some (.name name) =>
    match selections.lookup name with
    | some selection =>
      if (← ahead? 1).any beginsSource then
        advance 1
        return selection
      else
        return .items
    | none => return .items
  | _ => return .items

/-- The names of a loop, and whether they take an item apart. -/
def loopNames (bound : Nat) : Reading (List String × Bool) := do
  if ← tookSymbol .openBracket then
    return (← bracketedNames bound, true)
  else
    let names ← separated (expectName .loopVariable) bound
    return (names.map Prod.fst, names.length > 1)

/-- A loop over a source after its keyword. -/
def loop (recur : Recur) (bound : Nat) (position : Position) : Reading Node := do
  let (names, destructures) ← loopNames bound
  let _ ← expectKeyword .in .loopSource
  let selection ← selection
  let source ← recur .expression
  let body ← recur .statement
  return .mk position (.loop ⟨names, destructures, selection, source, body⟩)

/-- A loop under a condition after its keyword. -/
def loopWhile (recur : Recur) (position : Position) : Reading Node := do
  let condition ← recur .expression
  return .mk position (.loopWhile condition (← recur .statement))

/-- The operators of assignments, with the functions that compute the new value. -/
def assignmentFunctions : List (Symbol × String) :=
  [(.plusAssign, "add"), (.minusAssign, "sub"), (.starAssign, "mul"), (.slashAssign, "div"),
    (.percentAssign, "mod")]

/-- An expression, or an assignment to what it denotes. -/
def assignment (recur : Recur) (bound : Nat) : Reading Node := do
  let target ← expression recur bound
  match ← ahead? 0 with
  | some (.symbol .assign) =>
    advance 1
    let value ← recur .expression
    target.assigned value
  | some (.symbol mark) =>
    match assignmentFunctions.lookup mark with
    | some function =>
      let ⟨_, position⟩ ← next
      let operand ← recur .expression
      target.assigned (.callOf function position [target, operand])
    | none => return target
  | _ => return target

/-- A statement. -/
def statement (recur : Recur) (bound : Nat) : Reading Node := do
  match ← ahead? 0 with
  | some (.keyword .require) => require bound (← next).position
  | some (.keyword .define) => definition recur bound (← next).position
  | some (.keyword .for) => loop recur bound (← next).position
  | some (.keyword .while) => loopWhile recur (← next).position
  | _ => assignment recur bound

end Ckl.Source.Grammar
