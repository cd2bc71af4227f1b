/-!
# Built-in functions

The functions that every script can call, with their parameters. What they do is said in
`Ckl.Builtin.Run` and the modules it uses.
-/

namespace Ckl

/-- A built-in function. -/
inductive Builtin where
  | add
  | sub
  | mul
  | div
  | mod
  | equals
  | notEquals
  | less
  | lessEquals
  | greater
  | greaterEquals
  | isEmpty
  | isZero
  | isNegative
  | isNumerical
  | isAlphanumerical
  | isDate
  | isTime
  | startsWith
  | endsWith
  | contains
  | matchesPattern
  | range
  | length
  | sorted
  | append
  | type
  | string
  | int
  | decimal
  | list
  | set
  | date
  | println
  | print
  | strInput
  | readLine
  | parse
  | eval
  deriving DecidableEq, Repr

namespace Builtin

/-- The name that a built-in function is bound to. -/
def name : Builtin → String
  | add => "add"
  | sub => "sub"
  | mul => "mul"
  | div => "div"
  | mod => "mod"
  | equals => "equals"
  | notEquals => "not_equals"
  | less => "less"
  | lessEquals => "less_equals"
  | greater => "greater"
  | greaterEquals => "greater_equals"
  | isEmpty => "is_empty"
  | isZero => "is_zero"
  | isNegative => "is_negative"
  | isNumerical => "is_numerical"
  | isAlphanumerical => "is_alphanumerical"
  | isDate => "is_date"
  | isTime => "is_time"
  | startsWith => "starts_with"
  | endsWith => "ends_with"
  | contains => "contains"
  | matchesPattern => "matches"
  | range => "range"
  | length => "length"
  | sorted => "sorted"
  | append => "append"
  | type => "type"
  | string => "string"
  | int => "int"
  | decimal => "decimal"
  | list => "list"
  | set => "set"
  | date => "date"
  | println => "println"
  | print => "print"
  | strInput => "str_input"
  | readLine => "read_line"
  | parse => "parse"
  | eval => "eval"

/-- The parameters of a built-in function. -/
def parameters : Builtin → List String
  | add | sub | mul | div | mod | equals | notEquals | less | lessEquals | greater
  | greaterEquals => ["a", "b"]
  | isEmpty | isZero | isNegative | length | type | string | int | decimal | list | set | eval => ["obj"]
  | isNumerical | isAlphanumerical => ["str", "min_len", "max_len", "exact_len"]
  | isDate => ["str", "with_hour"]
  | isTime | strInput | parse => ["str"]
  | startsWith | endsWith => ["str", "part"]
  | contains => ["obj", "part"]
  | matchesPattern => ["str", "pattern"]
  | range => ["a", "b", "step"]
  | sorted => ["lst", "cmp", "key"]
  | append => ["lst", "element"]
  | date => ["obj", "fmt"]
  | println | print => ["obj", "out"]
  | readLine => ["input"]

/-- All built-in functions, in the order in which they are bound. -/
def all : List Builtin :=
  [add, sub, mul, div, mod, equals, notEquals, less, lessEquals, greater, greaterEquals, isEmpty,
    isZero, isNegative, isNumerical, isAlphanumerical, isDate, isTime, startsWith, endsWith, contains,
    matchesPattern, range, length, sorted, append, type, string, int, decimal, list, set, date, println,
    print, strInput, readLine, parse, eval]

end Builtin

end Ckl
