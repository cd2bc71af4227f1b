import Ckl.Calendar.Moment

/-!
# Values

The values of scripts. Numbers, texts, dates and patterns are written in the value itself. Collections,
objects, functions, streams and syntax trees are references: copies of such a value share one storage,
which is kept apart (see `Ckl.Store`).
-/

namespace Ckl

/-- The types of values. -/
inductive ValueType where
  | null
  | boolean
  | int
  | decimal
  | string
  | date
  | pattern
  | list
  | set
  | map
  | object
  | func
  | input
  | output
  | node
  deriving DecidableEq, Repr

namespace ValueType

/-- The name of a type. -/
def name : ValueType → String
  | null => "null"
  | boolean => "boolean"
  | int => "int"
  | decimal => "decimal"
  | string => "string"
  | date => "date"
  | pattern => "pattern"
  | list => "list"
  | set => "set"
  | map => "map"
  | object => "object"
  | func => "func"
  | input => "input"
  | output => "output"
  | node => "node"

end ValueType

/-- A reference to the storage of a value of the given type. -/
structure Ref (type : ValueType) where
  index : Nat
  deriving DecidableEq, Repr

/-- A value. -/
inductive Value where
  | null
  | boolean (value : Bool)
  | int (value : Int64)
  | decimal (value : Float)
  | string (value : String)
  | date (value : Calendar.Moment)
  | pattern (source : String)
  | list (ref : Ref .list)
  | set (ref : Ref .set)
  | map (ref : Ref .map)
  | object (ref : Ref .object)
  | func (ref : Ref .func)
  | input (ref : Ref .input)
  | output (ref : Ref .output)
  | node (ref : Ref .node)
  deriving Repr, Inhabited

/-- The storages that hold other values. -/
inductive Container where
  | list (ref : Ref .list)
  | set (ref : Ref .set)
  | map (ref : Ref .map)
  | object (ref : Ref .object)
  deriving DecidableEq, Repr

namespace Value

/-- The type of a value. -/
def type : Value → ValueType
  | null => .null
  | boolean _ => .boolean
  | int _ => .int
  | decimal _ => .decimal
  | string _ => .string
  | date _ => .date
  | pattern _ => .pattern
  | list _ => .list
  | set _ => .set
  | map _ => .map
  | object _ => .object
  | func _ => .func
  | input _ => .input
  | output _ => .output
  | node _ => .node

/-- Whether a value is the null value. -/
def isNull : Value → Bool
  | null => true
  | _ => false

/-- Whether a value is a number. -/
def isNumeric : Value → Bool
  | int _ | decimal _ => true
  | _ => false

/-- Whether a value joins with texts: all but the references. -/
def isAtomic : Value → Bool
  | null | boolean _ | int _ | decimal _ | string _ | date _ | pattern _ => true
  | _ => false

/-- Whether a value is the number zero. -/
def isZero : Value → Bool
  | int n => n == 0
  | decimal x => x == 0.0
  | _ => false

/-- The storage of a value that holds other values. -/
def container? : Value → Option Container
  | list ref => some (.list ref)
  | set ref => some (.set ref)
  | map ref => some (.map ref)
  | object ref => some (.object ref)
  | _ => none

/-- A number that tells the storages of one type apart. -/
def identity : Value → Nat
  | list ref => ref.index
  | set ref => ref.index
  | map ref => ref.index
  | object ref => ref.index
  | func ref => ref.index
  | input ref => ref.index
  | output ref => ref.index
  | node ref => ref.index
  | _ => 0

end Value

end Ckl
