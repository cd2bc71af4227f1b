import Ckl.Value
import Ckl.Source.Fault

/-!
# Failures

Why a script stops without a value: its text has a fault, an operation does not apply, the script
raised an error itself, or reading a stream or a file did not succeed. All but the last are diagnosed:
they have a place and a trace of the calls that were left, the innermost one first.
-/

namespace Ckl

open Source (Position FaultCause Fault)

/-- What an operation asks of a value. -/
inductive Wanted where
  | boolean
  | int
  | decimal
  | string
  | func
  | pattern
  | input
  | output
  | listOrSet
  | container
  deriving DecidableEq, Repr

/-- The name of what is wanted. -/
def Wanted.name : Wanted → String
  | boolean => "boolean"
  | int => "int"
  | decimal => "decimal"
  | string => "string"
  | func => "func"
  | pattern => "pattern"
  | input => "input"
  | output => "output"
  | listOrSet => "list or set"
  | container => "container"

/-- The operations of arithmetic. -/
inductive Operation where
  | add
  | subtract
  | multiply
  | divide
  | remainder
  deriving DecidableEq, Repr

/-- What an operation does to its operands. -/
def Operation.verb : Operation → String
  | add => "add"
  | subtract => "subtract"
  | multiply => "multiply"
  | divide => "divide"
  | remainder => "take the remainder of"

/-- What a value cannot be used for. -/
inductive Usage where
  | index
  | assign
  | iterate
  | append
  | evaluate
  | convertToInt
  | spreadIntoMap
  | invoke (member : String)
  deriving DecidableEq, Repr

/-- That a value cannot be used so. -/
def Usage.refusal (type : String) : Usage → String
  | index => "cannot index into " ++ type
  | assign => "cannot assign into " ++ type
  | iterate => "cannot iterate over " ++ type
  | append => "cannot append to " ++ type
  | evaluate => "cannot evaluate " ++ type
  | convertToInt => "cannot convert " ++ type ++ " to int"
  | spreadIntoMap => "cannot spread " ++ type ++ " into a map"
  | invoke member => "cannot invoke `" ++ member ++ "` on " ++ type

/-- What leaves a loop or a function ahead of its end. -/
inductive Jump where
  | break
  | continue
  | return
  deriving DecidableEq, Repr

/-- Why an operation does not apply. -/
inductive RuntimeError where
  | unexpectedType (wanted : Wanted) (got : ValueType)
  | operands (operation : Operation) (left right : ValueType)
  | unusable (usage : Usage) (got : ValueType)
  | noLength (got : ValueType)
  | integerOverflow
  | divideByZero
  | repetitionTooLarge
  | dateOutOfRange
  | undefinedName (name : String)
  | misplaced (jump : Jump)
  | misplacedSpread
  | indexOutOfRange (index : Int64) (length : Nat)
  | keyNotFound (key : String)
  | noMember (name : String)
  | noMemberToInvoke (name : String)
  | mapAsOwnKey
  | setInItself
  | argumentBoundTwice (argument function : String)
  | unknownArgument (argument function : String)
  | tooManyArguments (function : String)
  | missingArgument (argument : String)
  | missingParameter (argument function : String)
  | invalidPattern
  | zeroStep
  | unreadableNumber (text : String) (wanted : Wanted)
  | unreadableDate (text : String)
  | noModules
  | moduleNotFound (file : String)
  | circularModules (cycle : List String)
  | noPublicName (module name : String)
  | malformedSpecifier
  deriving DecidableEq, Repr

/-- The error in words. -/
def RuntimeError.message : RuntimeError → String
  | unexpectedType wanted got => "expected " ++ wanted.name ++ " but got " ++ got.name
  | operands operation left right =>
    "cannot " ++ operation.verb ++ " " ++ left.name ++ " and " ++ right.name
  | unusable usage got => usage.refusal got.name
  | noLength got => got.name ++ " has no length"
  | integerOverflow => "integer overflow"
  | divideByZero => "divide by zero"
  | repetitionTooLarge => "repetition too large"
  | dateOutOfRange => "date out of range"
  | undefinedName name => "undefined symbol `" ++ name ++ "`"
  | misplaced .break => "`break` outside loop"
  | misplaced .continue => "`continue` outside loop"
  | misplaced .return => "`return` is not allowed here"
  | misplacedSpread => "spread is only allowed in literals and argument lists"
  | indexOutOfRange index length =>
    "index " ++ toString index ++ " out of range for length " ++ toString length
  | keyNotFound key => "key " ++ key ++ " not found in map"
  | noMember name => "object has no member `" ++ name ++ "`"
  | noMemberToInvoke name => "no member `" ++ name ++ "` to invoke"
  | mapAsOwnKey => "cannot use a map as its own key"
  | setInItself => "cannot add a set to itself"
  | argumentBoundTwice argument function =>
    "argument `" ++ argument ++ "` bound twice in call to `" ++ function ++ "`"
  | unknownArgument argument function =>
    "unknown argument `" ++ argument ++ "` for `" ++ function ++ "`"
  | tooManyArguments function => "too many arguments for `" ++ function ++ "`"
  | missingArgument argument => "missing argument `" ++ argument ++ "`"
  | missingParameter argument function =>
    "missing argument `" ++ argument ++ "` in call to `" ++ function ++ "`"
  | invalidPattern => "invalid pattern"
  | zeroStep => "range step must not be zero"
  | unreadableNumber text wanted => "cannot convert '" ++ text ++ "' to " ++ wanted.name
  | unreadableDate text => "cannot parse date '" ++ text ++ "'"
  | noModules => "environment has no module registry"
  | moduleNotFound file => "module not found: " ++ file
  | circularModules cycle => "circular module dependency: " ++ " -> ".intercalate cycle
  | noPublicName module name =>
    "module `" ++ module ++ "` has no public symbol `" ++ name ++ "`"
  | malformedSpecifier => "module specifier must be an identifier or a string"

/-- Why a stream or a file cannot be read. -/
inductive ReadProblem where
  | notFound
  | notDirectory
  | isDirectory
  | notText
  deriving DecidableEq, Repr

/-- The problem in words. -/
def ReadProblem.message : ReadProblem → String
  | notFound => "No such file or directory (os error 2)"
  | notDirectory => "Not a directory (os error 20)"
  | isDirectory => "Is a directory (os error 21)"
  | notText => "stream did not contain valid UTF-8"

/-- What is diagnosed. -/
inductive Cause where
  | fault (cause : FaultCause)
  | runtime (error : RuntimeError)
  /-- An error that a script raised, with the text that its payload had then. -/
  | raised (payload : Value) (text : String)
  deriving Repr

namespace Cause

/-- The cause in words. -/
def message : Cause → String
  | fault cause => cause.message
  | runtime error => error.message
  | raised _ text => text

/-- The word for the kind of a cause. -/
def kindName : Cause → String
  | fault cause => if cause.isLexical then "Lexer" else "Parser"
  | runtime _ => "Runtime"
  | raised _ _ => "User"

/-- Whether more text could mend the cause. -/
def isIncomplete : Cause → Bool
  | fault cause => cause.isIncomplete
  | _ => false

end Cause

/-- A cause with its place and the calls that were left since, the innermost one first. -/
structure Diagnostic where
  cause : Cause
  position : Position
  trace : List String := []
  deriving Repr

/-- Why a script stops without a value. -/
inductive Failure where
  | diagnosed (diagnostic : Diagnostic)
  | unreadable (problem : ReadProblem)
  deriving Repr

namespace Failure

/-- A fault of a text. -/
def ofFault (fault : Fault) : Failure := .diagnosed { cause := .fault fault.cause, position := fault.position }

/-- An operation that does not apply at a place. -/
def runtime (error : RuntimeError) (position : Position) : Failure :=
  .diagnosed { cause := .runtime error, position }

/-- The failure after a call has been left; problems of reading keep no trace. -/
def leaving (call : String) : Failure → Failure
  | diagnosed diagnostic => diagnosed { diagnostic with trace := diagnostic.trace ++ [call] }
  | unreadable problem => unreadable problem

/-- Whether more text could mend the failure. -/
def isIncomplete : Failure → Bool
  | diagnosed diagnostic => diagnostic.cause.isIncomplete
  | unreadable _ => false

/-- The failure as it is reported: kind, message, place and a line for each call. -/
def report : Failure → String
  | diagnosed diagnostic =>
    diagnostic.cause.kindName ++ ": " ++ diagnostic.cause.message ++ " (" ++
      diagnostic.position.text ++ ")" ++
      String.join (diagnostic.trace.map fun call => "\n  at " ++ call)
  | unreadable problem => "I/O error: " ++ problem.message

end Failure

end Ckl
