import Ckl.Source.Node.Printed
import Ckl.Text.Hash
import Ckl.Value.Reach

/-!
# Equality, order, texts and keys of values

Four readings of a value that depend on each other: the order of the elements of a set decides its text,
the texts of values decide the order of values of different types, equality of sets looks elements up by
their keys, and keys list elements in order.

* Two values are equal if they have the same structure; integers and decimals are compared as numbers.
* Numbers, texts, dates, truth values and lists have an order of their own. Other values, and values of
  different types, are equal or in the order of their texts.
* The canonical text of a value is what a script could write for it.
* The key of a value is its canonical text with numbers written as decimals, and the members of objects
  in the order of their names, so that equal numbers and equal objects have one key.

Each reading of a container reads what it holds with one less as the bound. This is bounded by the number
of containers that the value reaches, which suffices for every value that does not contain itself.
-/

namespace Ckl

open Collection (Table KeySet KeyRule)
open Number (ofWhole wholeText decimalText decimalKey)
open Source (commas booleanText patternText)

/-- The elements in an order; those that are equal in it stay as they are. -/
def sortBy {α : Type} (order : α → α → Ordering) (values : List α) : List α :=
  values.mergeSort fun a b => order a b != .gt

/-- The first difference of two lists, or else which one is shorter. -/
def orderLists {α : Type} (order : α → α → Ordering) : List α → List α → Ordering
  | [], [] => .eq
  | [], _ :: _ => .lt
  | _ :: _, [] => .gt
  | a :: as, b :: bs => (order a b).then (orderLists order as bs)

/-- The order of two decimals; what is no number is equal to every number. -/
def orderDecimals (x y : Float) : Ordering :=
  if x < y then .lt else if y < x then .gt else .eq

/-- How functions are written. -/
def functionText (name : String) : List Char := "<#".toList ++ name.toList ++ ['>']

/-- The text of elements between marks. -/
def enclosed (opening closing : String) (texts : List (List Char)) : List Char :=
  opening.toList ++ commas texts ++ closing.toList

namespace Store

variable (store : Store)

/-! ## One level of each reading -/

/-- The text of a value, from those of the values in it and their order. -/
def textStep (text : Value → List Char) (order : Value → Value → Ordering) : Value → List Char
  | .null => "NULL".toList
  | .boolean value => booleanText value
  | .int value => wholeText value.toInt
  | .decimal value => decimalText value
  | .string value => Text.quote value.toList
  | .date value => value.text
  | .pattern source => patternText source
  | .list ref => enclosed "[" "]" ((store.items ref).toList.map text)
  | .set ref => enclosed "<<" ">>" ((sortBy order (store.keySet ref).keys).map text)
  | .map ref =>
    enclosed "<<<" ">>>" ((sortBy (fun a b => order a.1 b.1) (store.table ref).entries).map
      fun entry => text entry.1 ++ " => ".toList ++ text entry.2)
  | .object ref =>
    enclosed "<*" "*>" ((store.members ref).entries.map
      fun entry => entry.1.toList ++ '=' :: text entry.2)
  | .func ref => functionText (store.function ref).name
  | .input _ => "<!input-stream>".toList
  | .output _ => "<!output-stream>".toList
  | .node ref => (store.tree ref).chars

/-- The key of a value, from those of the values in it and their order. -/
def keyStep (key : Value → List Char) (order : Value → Value → Ordering) : Value → List Char
  | .int value => decimalKey (ofWhole value)
  | .decimal value => decimalKey value
  | .list ref => enclosed "[" "]" ((store.items ref).toList.map key)
  | .set ref => enclosed "<<" ">>" ((sortBy order (store.keySet ref).keys).map key)
  | .map ref =>
    enclosed "<<<" ">>>" ((sortBy (fun a b => order a.1 b.1) (store.table ref).entries).map
      fun entry => key entry.1 ++ " => ".toList ++ key entry.2)
  | .object ref =>
    enclosed "<*" "*>" ((sortBy (fun a b => compare a.1 b.1) (store.members ref).entries).map
      fun entry => entry.1.toList ++ '=' :: key entry.2)
  | value => store.textStep key order value

/-- The rule for keys that are values. -/
def keyRuleStep (equal : Value → Value → Bool) (key : Value → List Char) : KeyRule Value where
  hash value := Text.hash (String.ofList (key value))
  same := equal

/-- Whether two values are equal, from the equality and the keys of the values in them. -/
def equalStep (equal : Value → Value → Bool) (key : Value → List Char) : Value → Value → Bool
  | .null, .null => true
  | .boolean a, .boolean b => a == b
  | .int a, .int b => a == b
  | .int a, .decimal b => ofWhole a == b
  | .decimal a, .int b => a == ofWhole b
  | .decimal a, .decimal b => a == b
  | .string a, .string b => a == b
  | .date a, .date b => a == b
  | .pattern a, .pattern b => a == b
  | .list a, .list b =>
    a == b ||
      let as := (store.items a).toList
      let bs := (store.items b).toList
      as.length == bs.length && (as.zip bs).all fun pair => equal pair.1 pair.2
  | .set a, .set b =>
    a == b ||
      let as := store.keySet a
      let bs := store.keySet b
      as.count == bs.count && as.keys.all (bs.contains (keyRuleStep equal key))
  | .map a, .map b =>
    a == b ||
      let as := store.table a
      let bs := store.table b
      as.count == bs.count && as.entries.all fun entry =>
        (bs.get? (keyRuleStep equal key) entry.1).any (equal entry.2)
  | .object a, .object b =>
    a == b ||
      let as := store.members a
      let bs := store.members b
      as.size == bs.size && as.entries.all fun entry => (bs.get? entry.1).any (equal entry.2)
  | .func a, .func b => a == b
  | .input a, .input b => a == b
  | .output a, .output b => a == b
  | .node a, .node b => a == b
  | _, _ => false

/-- The order of two values without one of their own: equal, or by texts, types and identities. -/
def orderByText (equal : Value → Value → Bool) (text : Value → List Char) (a b : Value) : Ordering :=
  if equal a b then .eq
  else
    (compare (text a) (text b)).then
      ((compare a.type.name b.type.name).then (compare a.identity b.identity))

/-- The order of two values, from the order of the values in them and from their equality and texts. -/
def orderStep (order : Value → Value → Ordering) (equal : Value → Value → Bool)
    (text : Value → List Char) : Value → Value → Ordering
  | .boolean a, .boolean b => compare a b
  | .int a, .int b => compare a.toInt b.toInt
  | .int a, .decimal b => orderDecimals (ofWhole a) b
  | .decimal a, .int b => orderDecimals a (ofWhole b)
  | .decimal a, .decimal b => orderDecimals a b
  | .string a, .string b => compare a b
  | .date a, .date b => a.order b
  | .list a, .list b => orderLists order (store.items a).toList (store.items b).toList
  | a, b => orderByText equal text a b

/-! ## The readings up to a depth -/

mutual

/-- The text of a value of at most the given depth. -/
def textAt : (depth : Nat) → Value → List Char
  | 0, _ => []
  | depth + 1, value => store.textStep (textAt depth) (orderAt depth) value
termination_by structural depth => depth

/-- The key of a value of at most the given depth. -/
def keyAt : (depth : Nat) → Value → List Char
  | 0, _ => []
  | depth + 1, value => store.keyStep (keyAt depth) (orderAt depth) value
termination_by structural depth => depth

/-- Whether two values of at most the given depth are equal. -/
def equalAt : (depth : Nat) → Value → Value → Bool
  | 0, _, _ => false
  | depth + 1, a, b => store.equalStep (equalAt depth) (keyAt depth) a b
termination_by structural depth => depth

/-- The order of two values of at most the given depth. -/
def orderAt : (depth : Nat) → Value → Value → Ordering
  | 0, _, _ => .eq
  | depth + 1, a, b =>
    store.orderStep (orderAt depth) (store.equalStep (equalAt depth) (keyAt depth))
      (store.textStep (textAt depth) (orderAt depth)) a b
termination_by structural depth => depth

end

/-- At most so many steps lead down from a value that does not contain itself. -/
def span (value : Value) : Nat := (store.spanned value).length

/-- The canonical text of a value as characters. -/
def chars (value : Value) : List Char := store.textAt (store.span value + 1) value

/-- The canonical text of a value. -/
def text (value : Value) : String := String.ofList (store.chars value)

/-- The plain text of a value: a string itself, any other value its canonical text. -/
def plainText : Value → String
  | .string value => value
  | value => store.text value

/-- The key of a value as characters. -/
def keyChars (value : Value) : List Char := store.keyAt (store.span value + 1) value

/-- The key of a value. -/
def key (value : Value) : String := String.ofList (store.keyChars value)

/-- Whether two values are equal. -/
def equal (a b : Value) : Bool := store.equalAt (max (store.span a) (store.span b) + 1) a b

/-- The order of two values. -/
def order (a b : Value) : Ordering := store.orderAt (max (store.span a) (store.span b) + 1) a b

/-- The rule by which values are keys of sets and maps. -/
def keyRule : KeyRule Value := keyRuleStep store.equal store.keyChars

/-- The elements of a set in order. -/
def sortedKeys (ref : Ref .set) : List Value := sortBy store.order (store.keySet ref).keys

/-- The entries of a table in the order of their keys. -/
def sortedTable (table : Table Value Value) : List (Value × Value) :=
  sortBy (fun a b => store.order a.1 b.1) table.entries

/-- The entries of a map in the order of their keys. -/
def sortedEntries (ref : Ref .map) : List (Value × Value) := store.sortedTable (store.table ref)

end Store

end Ckl
