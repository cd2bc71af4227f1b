import Ckl.Source.Tokens
import Ckl.Source.Sugar

/-!
# The grammar

The grammar is written as reading steps that refer to each other through `Recur`: the phrases that can
stand inside others are read by the steps that it holds. Loops are limited by a number that is at least
that of the tokens left, so the limit is never felt. This module has the phrases in brackets: blocks,
functions, collections and arguments.
-/

namespace Ckl.Source

/-- The phrases that nest. -/
inductive Phrase where
  | statement
  | expression
  /-- An expression that is no `if`. -/
  | disjunction
  /-- An operand of a comparison. -/
  | sum
  deriving DecidableEq, Repr

/-- The steps for the phrases inside the one being read. -/
abbrev Recur := Phrase → Reading Node

namespace Grammar

open Reading

/-- Statements up to one of the given keywords or the end of the text. Semicolons may stand between
them. -/
def statements (recur : Recur) (stops : List Keyword) : (bound : Nat) → Reading (List Node)
  | 0 => return []
  | bound + 1 => do
    let _ ← takeAll (.symbol .semicolon)
    let stop ← ahead? 0
    if stop.all fun lexeme => stops.any fun word => lexeme == .keyword word then
      return []
    else
      let first ← recur .statement
      let _ ← takeSymbol? .semicolon
      return first :: (← statements recur stops bound)

/-- A parameter, or the name of the parameter for surplus arguments. -/
inductive ParameterItem where
  | single (parameter : Parameter Node)
  | surplus (name : String)

/-- Parameters with commas between them; the parameter for surplus arguments is the last one. -/
def parameterItems (recur : Recur) :
    (bound : Nat) → Reading (List (Parameter Node) × Option String)
  | 0 => do
    let (name, _) ← expectName .parameterName
    return ([⟨name, none⟩], none)
  | bound + 1 => do
    let (name, _) ← expectName .parameterName
    if ← tookSymbol .spread then
      return ([], some name)
    else
      let fallback ← if ← tookSymbol .assign then some <$> recur .expression else pure none
      if ← tookSymbol .comma then
        let (parameters, rest) ← parameterItems recur bound
        return (⟨name, fallback⟩ :: parameters, rest)
      else
        return ([⟨name, fallback⟩], none)

/-- The parameters and the body of a function. -/
def function (recur : Recur) (bound : Nat) (name : Option String) (position : Position) :
    Reading Node := do
  let _ ← expectSymbol .openParen .parameters
  let (parameters, rest) ←
    if ← upcomingSymbol .closeParen then pure ([], none) else parameterItems recur bound
  let _ ← expectSymbol .closeParen .parametersEnd
  let body ← recur .statement
  return .mk position (.function ⟨name, parameters, rest, body⟩)

/-- The keywords that end a part of a block. -/
def blockStops : List Keyword := [.catch, .finally, .end]

/-- The handlers of a block. -/
def handlers (recur : Recur) : (bound : Nat) → Reading (List (Handler Node))
  | 0 => return []
  | bound + 1 => do
    if ← tookKeyword .catch then
      let filter ←
        match ← take? (.name "all") with
        | some _ => pure none
        | none => some <$> recur .expression
      let body ← statements recur blockStops bound
      return ⟨filter, body⟩ :: (← handlers recur bound)
    else
      return []

/-- A block after its `do`. -/
def block (recur : Recur) (bound : Nat) (position : Position) : Reading Node := do
  let body ← statements recur blockStops bound
  let handlers ← handlers recur bound
  let cleanup ← if ← tookKeyword .finally then statements recur [.end] bound else pure []
  let _ ← expectKeyword .end .blockEnd
  return .mk position (.block body handlers cleanup)

/-- The conditions of an `if` with their consequences. -/
def branches (recur : Recur) : (bound : Nat) → Reading (List (Branch Node))
  | 0 => return [← branch]
  | bound + 1 => do
    let first ← branch
    if ← tookKeyword .elif then
      return first :: (← branches recur bound)
    else
      return [first]
where
  /-- A condition and its consequence. -/
  branch : Reading (Branch Node) := do
    let condition ← recur .disjunction
    let _ ← expectKeyword .then .consequence
    return ⟨condition, ← recur .statement⟩

/-- An `if` after its keyword. -/
def choice (recur : Recur) (bound : Nat) (position : Position) : Reading Node := do
  let branches ← branches recur bound
  let otherwise ← if ← tookKeyword .else then some <$> recur .statement else pure none
  return .mk position (.choice branches otherwise)

/-- An item of a list or set. -/
def item (recur : Recur) : Reading Node := do
  match ← takeSymbol? .spread with
  | some position => return .mk position (.spread (← recur .expression))
  | none => recur .expression

/-- The loop of a comprehension behind what it builds. -/
def comprehension (recur : Recur) (kind : CollectionKind) (element : Node) (value : Option Node)
    (position : Position) : Reading Node := do
  let _ ← expectKeyword .for .comprehensionLoop
  let (binder, _) ← expectName .comprehensionVariable
  let _ ← expectKeyword .in .comprehensionSource
  let source ← recur .disjunction
  let condition ← if ← tookKeyword .if then some <$> recur .disjunction else pure none
  return .mk position (.comprehension ⟨kind, element, value, binder, source, condition⟩)

/-- The items of a list or set after the first one. -/
def moreItems (recur : Recur) (bound : Nat) (close : Symbol) : Reading (List Node) := do
  if ← tookSymbol .comma then
    if ← upcomingSymbol close then return [] else separatedBefore close (item recur) bound
  else
    return []

/-- A list, or a comprehension that builds one, after its bracket; likewise for sets. -/
def collection (recur : Recur) (bound : Nat) (kind : CollectionKind) (form : List Node → Form)
    (close : Symbol) (position : Position) : Reading Node := do
  if ← tookSymbol close then
    return .mk position (form [])
  else
    let first ← item recur
    let node ←
      if ← upcomingKeyword .for then comprehension recur kind first none position
      else pure (.mk position (form (first :: (← moreItems recur bound close))))
    let _ ← expectSymbol close (.closing close)
    return node

/-- The entries of a map after the first one. -/
def mapItem (recur : Recur) : Reading (MapItem Node) := do
  if ← tookSymbol .spread then
    return .spread (← recur .expression)
  else
    let key ← recur .expression
    let _ ← expectSymbol .fatArrow .mapArrow
    return .entry key (← recur .expression)

/-- The entries of a map behind the first one. -/
def moreMapItems (recur : Recur) (bound : Nat) : Reading (List (MapItem Node)) := do
  if ← tookSymbol .comma then
    if ← upcomingSymbol .closeMap then return []
    else separatedBefore .closeMap (mapItem recur) bound
  else
    return []

/-- A map, or a comprehension that builds one, after its bracket. -/
def map (recur : Recur) (bound : Nat) (position : Position) : Reading Node := do
  if ← tookSymbol .closeMap then
    return .mk position (.map [])
  else
    let first ← mapItem recur
    let node ←
      match first, ← upcomingKeyword .for with
      | .entry key value, true => comprehension recur .map key (some value) position
      | _, _ => pure (.mk position (.map (first :: (← moreMapItems recur bound))))
    let _ ← expectSymbol .closeMap (.closing .closeMap)
    return node

/-- A member of an object. -/
def member (recur : Recur) : Reading (Member Node) := do
  let (name, _) ← expectName .objectMember
  let _ ← expectSymbol .assign .memberAssign
  return ⟨name, ← recur .expression⟩

/-- An object after its bracket. -/
def object (recur : Recur) (bound : Nat) (position : Position) : Reading Node := do
  let members ←
    if ← upcomingSymbol .closeObject then pure []
    else separatedBefore .closeObject (member recur) bound
  let _ ← expectSymbol .closeObject .objectEnd
  return .mk position (.object members)

/-- An argument of a call. -/
def argument (recur : Recur) : Reading (Argument Node) := do
  match ← takeSymbol? .spread with
  | some position => return ⟨none, .mk position (.spread (← recur .expression))⟩
  | none =>
    match ← ahead? 0, ← ahead? 1 with
    | some (.name name), some (.symbol .assign) =>
      advance 2
      return ⟨some name, ← recur .expression⟩
    | _, _ => return ⟨none, ← recur .expression⟩

/-- The arguments of a call after the opening parenthesis, and the closing one. -/
def arguments (recur : Recur) (bound : Nat) : Reading (List (Argument Node)) := do
  let arguments ←
    if ← upcomingSymbol .closeParen then pure [] else separated (argument recur) bound
  let _ ← expectSymbol .closeParen .argumentsEnd
  return arguments

end Grammar

end Ckl.Source
