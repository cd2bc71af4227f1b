import Ckl.Source.Grammar
import Ckl.Pattern.Reading

/-!
# Operands

The phrases that operators stand between: literals, names, bracketed phrases and blocks, with calls,
indices, members and pipelines behind them.
-/

namespace Ckl.Source.Grammar

open Reading

/-- Whether a lexeme can begin the value behind a `return`. -/
def beginsValue : Lexeme → Bool
  | .keyword word => word ∉ [.end, .else, .elif, .catch, .finally, .then]
  | .symbol mark =>
    mark ∈ [.openParen, .openBracket, .openObject, .minus, .openSet, .openMap]
  | _ => true

/-- An integer literal, which must fit into 64 bits. -/
def wholeLiteral (ds : String) (position : Position) : Reading Node :=
  match Number.readWhole ds.toList with
  | some value => return .mk position (.literal (.int value))
  | none => failAt position .integerOutOfRange

/-- A decimal literal. -/
def decimalLiteral (written : String) (position : Position) : Reading Node :=
  return .mk position (.literal (.decimal ((Number.readDecimal written.toList).getD 0)))

/-- A pattern literal, which must be well formed. -/
def patternLiteral (source : String) (position : Position) : Reading Node :=
  if (Pattern.read? source).isSome then return .mk position (.literal (.pattern source))
  else failAt position .malformedPattern

/-- A phrase that begins with a keyword. -/
def keywordOperand (recur : Recur) (bound : Nat) (word : Keyword) (position : Position) :
    Reading Node := do
  match word with
  | .if => choice recur bound position
  | .fn => function recur bound none position
  | .do => block recur bound position
  | .break => return .mk position .breakLoop
  | .continue => return .mk position .continueLoop
  | .return =>
    let value ←
      if (← ahead? 0).any beginsValue then some <$> recur .expression else pure none
    return .mk position (.giveBack value)
  | .error => return .mk position (.raise (← recur .expression))
  | word => failAt position (.unexpectedToken word.text)

/-- A phrase that begins with a symbol. -/
def symbolOperand (recur : Recur) (bound : Nat) (mark : Symbol) (position : Position) :
    Reading Node := do
  match mark with
  | .openParen =>
    let inner ← recur .expression
    let _ ← expectSymbol .closeParen .expressionEnd
    return inner
  | .openBracket => collection recur bound .list .list .closeBracket position
  | .openObject => object recur bound position
  | .openSet => collection recur bound .set .set .closeSet position
  | .openMap => map recur bound position
  | mark => failAt position (.unexpectedToken mark.text)

/-- An operand without anything behind it. -/
def operand (recur : Recur) (bound : Nat) : Reading Node := do
  let ⟨lexeme, position⟩ ← next
  match lexeme with
  | .whole ds => wholeLiteral ds position
  | .decimal written => decimalLiteral written position
  | .string content => return .mk position (.literal (.string content))
  | .boolean value => return .mk position (.literal (.boolean value))
  | .pattern source => patternLiteral source position
  | .name name => return .mk position (.name name)
  | .keyword word => keywordOperand recur bound word position
  | .symbol mark => symbolOperand recur bound mark position

/-- A member by name, which is an index by a string. -/
def memberOf (target : Node) (name : String) (place : Position) : Node :=
  .mk target.position (.index target (.mk place (.literal (.string name))))

/-- The members behind the callee of a pipeline. -/
def memberPath : (bound : Nat) → Node → Reading Node
  | 0, target => return target
  | bound + 1, target => do
    if ← tookSymbol .arrow then
      let (name, place) ← expectName .memberName
      memberPath bound (memberOf target name place)
    else
      return target

/-- A pipeline behind its subject, which becomes the first argument of the call. -/
def pipeline (recur : Recur) (bound : Nat) (subject : Node) : Reading Node := do
  let written ← upcomingKeyword .fn
  let callee ← operand recur bound
  let first : Argument Node := ⟨none, subject⟩
  if written then
    return .mk subject.position (.call callee [first])
  else
    let callee ← memberPath bound callee
    let rest ← if ← tookSymbol .openParen then arguments recur bound else pure []
    return .mk subject.position (.call callee (first :: rest))

/-- What can stand behind an operand: a call, an index, a member or a pipeline. -/
def suffix? (recur : Recur) (bound : Nat) (target : Node) : Reading (Option Node) := do
  let position := target.position
  match ← ahead? 0 with
  | some (.symbol .openParen) =>
    advance 1
    return some (.mk position (.call target (← arguments recur bound)))
  | some (.symbol .openBracket) =>
    advance 1
    let key ← recur .expression
    let _ ← expectSymbol .closeBracket .indexEnd
    return some (.mk position (.index target key))
  | some (.symbol .arrow) =>
    advance 1
    let (name, place) ← expectName .memberName
    if ← tookSymbol .openParen then
      return some (.mk position (.invoke target name (← arguments recur bound)))
    else
      return some (memberOf target name place)
  | some (.symbol .pipe) =>
    advance 1
    return some (← pipeline recur bound target)
  | _ => return none

/-- Everything that stands behind an operand. -/
def suffixes (recur : Recur) (limit : Nat) : (bound : Nat) → Node → Reading Node
  | 0, target => return target
  | bound + 1, target => do
    match ← suffix? recur limit target with
    | some target => suffixes recur limit bound target
    | none => return target

/-- An operand with everything behind it. -/
def suffixed (recur : Recur) (bound : Nat) : Reading Node := do
  suffixes recur bound bound (← operand recur bound)

end Ckl.Source.Grammar
