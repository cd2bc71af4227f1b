import Ckl.Value.Conversion
import Ckl.Text.Grapheme
import Ckl.Text.Occurrence

/-!
# Lengths, members and indices

The length of texts and containers, membership in them, and reading by index. A text counts as its
graphemes. An index below zero counts from the end.
-/

namespace Ckl.Store

open Collection (Table KeySet)

variable (store : Store)

/-- How many graphemes, elements, entries or members a value has. -/
def length : Value → Checked Nat
  | .string value => .ok (Text.graphemes value).length
  | .list ref => .ok (store.items ref).size
  | .set ref => .ok (store.keySet ref).count
  | .map ref => .ok (store.table ref).count
  | .object ref => .ok (store.members ref).size
  | value => .error (.noLength value.type)

/-- Whether a set has an element. -/
def hasKey (ref : Ref .set) (value : Value) : Bool := (store.keySet ref).contains store.keyRule value

/-- The value of a key of a map. -/
def getKey? (ref : Ref .map) (key : Value) : Option Value := (store.table ref).get? store.keyRule key

/-- Whether a value contains another one: as an element, a key, the name of a member or a part of a
text. -/
def contains (container element : Value) : Checked Bool :=
  match container with
  | .list ref => .ok ((store.items ref).toList.any fun item => store.equal item element)
  | .set ref => .ok (store.hasKey ref element)
  | .map ref => .ok (store.getKey? ref element).isSome
  | .object ref => element.asString.map (store.members ref).binds
  | .string text => element.asString.map fun part => Text.occursIn part.toList text.toList
  | value => value.refuse .container

/-- The place that an index denotes among `length` ones. -/
def slot (index : Value) (length : Nat) : Checked Nat := do
  let raw ← index.asInt
  let resolved := if raw.toInt < 0 then raw.toInt + length else raw.toInt
  if 0 ≤ resolved ∧ resolved < length then .ok resolved.toNat
  else .error (.indexOutOfRange raw length)

/-- The value at an index. -/
def index (target index : Value) : Checked Value :=
  match target with
  | .list ref => do
    let items := store.items ref
    return items[← slot index items.size]?.getD .null
  | .string text => do
    let parts := Text.graphemes text
    return .string (parts[← slot index parts.length]?.getD "")
  | .map ref =>
    match store.getKey? ref index with
    | some value => .ok value
    | none => .error (.keyNotFound (store.text index))
  | .object ref => do
    let name ← index.asString
    match (store.members ref).get? name with
    | some value => .ok value
    | none => .error (.noMember name)
  | value => .error (.unusable .index value.type)

/-- The function that a member of an object, or an entry of a map, holds. -/
def memberFunction (target : Value) (name : String) : Checked (Ref .func) := do
  let found ← match target with
    | .object ref => .ok ((store.members ref).get? name)
    | .map ref => .ok (store.getKey? ref (.string name))
    | value => .error (.unusable (.invoke name) value.type)
  match found with
  | some value => value.asFunction
  | none => .error (.noMemberToInvoke name)

/-- Exactly `count` elements of a list or a set, with null values for those that are missing. -/
def destructure (value : Value) (count : Nat) : Checked (List Value) := do
  let elements ← store.elements value
  return elements.take count ++ List.replicate (count - elements.length) .null

/-- The entries that a map or an object gives to a map. -/
def spreadEntries : Value → Checked (List (Value × Value))
  | .map ref => .ok (store.sortedEntries ref)
  | .object ref =>
    .ok ((store.members ref).entries.map fun entry => (.string entry.1, entry.2))
  | value => .error (.unusable .spreadIntoMap value.type)

end Ckl.Store
