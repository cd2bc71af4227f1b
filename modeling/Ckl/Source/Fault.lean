import Ckl.Source.Position
import Ckl.Source.Symbol

/-!
# Faults of a script's text

Why a text cannot be read as a script. The causes found while the text is split into tokens are
lexical, the others grammatical. A fault is incomplete when more text could still mend it: a literal
that is not closed, or a script that ends too soon.
-/

namespace Ckl.Source

/-- What the grammar asks for at some place. -/
inductive Expectation where
  | moduleName
  | localName
  | importList
  | importedName
  | importListEnd
  | destructuringAssign
  | definedName
  | definitionAssign
  | loopVariable
  | loopSource
  | consequence
  | indexEnd
  | memberName
  | argumentsEnd
  | expressionEnd
  | closing (symbol : Symbol)
  | mapArrow
  | comprehensionLoop
  | comprehensionVariable
  | comprehensionSource
  | objectMember
  | memberAssign
  | objectEnd
  | parameters
  | parameterName
  | parametersEnd
  | blockEnd
  | listedName
  | namesEnd
  deriving DecidableEq, Repr

namespace Expectation

/-- The expectation in words. -/
def text : Expectation → String
  | .moduleName => "module name after `require`"
  | .localName => "alias after `as`"
  | .importList => "`[` after `import`"
  | .importedName => "symbol name in import list"
  | .importListEnd => "`]` to close import list"
  | .destructuringAssign => "`=` after destructuring target"
  | .definedName => "name after `def`"
  | .definitionAssign => "`=` after definition name"
  | .loopVariable => "loop variable"
  | .loopSource => "`in` after loop variable"
  | .consequence => "`then` after condition"
  | .indexEnd => "`]` after index"
  | .memberName => "member name after `->`"
  | .argumentsEnd => "`)` after arguments"
  | .expressionEnd => "`)` after expression"
  | .closing symbol => "`" ++ symbol.text ++ "`"
  | .mapArrow => "`=>` in map literal"
  | .comprehensionLoop => "`for` in comprehension"
  | .comprehensionVariable => "comprehension variable"
  | .comprehensionSource => "`in` in comprehension"
  | .objectMember => "member name in object literal"
  | .memberAssign => "`=` after member name"
  | .objectEnd => "`*>` to close object literal"
  | .parameters => "`(` before parameters"
  | .parameterName => "parameter name"
  | .parametersEnd => "`)` after parameters"
  | .blockEnd => "`end` to close block"
  | .listedName => "identifier"
  | .namesEnd => "closing bracket after names"

end Expectation

/-- Why a text is no script. -/
inductive FaultCause where
  | unexpectedCharacter (c : Char)
  | unclosedString
  | unclosedPattern
  | unexpectedEnd
  | expected (what : Expectation)
  | unexpectedToken (text : String)
  | integerOutOfRange
  | malformedPattern
  | notAssignable
  | notNames
  deriving DecidableEq, Repr

namespace FaultCause

/-- Whether the text could not even be split into tokens. -/
def isLexical : FaultCause → Bool
  | .unexpectedCharacter _ | .unclosedString | .unclosedPattern => true
  | _ => false

/-- Whether more text could mend the fault. -/
def isIncomplete : FaultCause → Bool
  | .unclosedString | .unclosedPattern | .unexpectedEnd => true
  | _ => false

/-- The cause in words. -/
def message : FaultCause → String
  | .unexpectedCharacter c => "unexpected character `" ++ c.toString ++ "`"
  | .unclosedString => "unterminated string literal"
  | .unclosedPattern => "unterminated pattern literal"
  | .unexpectedEnd => "unexpected end of input"
  | .expected what => "expected " ++ what.text
  | .unexpectedToken text => "unexpected token `" ++ text ++ "`"
  | .integerOutOfRange => "integer literal out of range"
  | .malformedPattern => "invalid pattern literal"
  | .notAssignable => "invalid assignment target"
  | .notNames => "destructuring target must list identifiers"

end FaultCause

/-- A cause with the place where it was found. -/
structure Fault where
  cause : FaultCause
  position : Position
  deriving DecidableEq, Repr

end Ckl.Source
