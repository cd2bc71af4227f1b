import Ckl.Builtin.Run
import Ckl.Proofs.Value.Moved

/-!
# Operations on stores with one list more

What operations on values tell, and the fresh values and errors that they give, are the same for a store and
its twin, but for the numbers of lists.
-/

namespace Ckl

open Collection (Table KeySet KeyRule)

/-! ## Values as what an operation asks for -/

namespace Value

variable {gap : Nat} (value : Value)

/-- What is demanded of a value does not depend on where lists are stored, and so for all the demands below.
-/
@[simp]
theorem asBool_moved : (value.moved gap).asBool = value.asBool := by
  cases value <;> rfl

@[simp]
theorem asInt_moved : (value.moved gap).asInt = value.asInt := by
  cases value <;> rfl

@[simp]
theorem asDecimal_moved : (value.moved gap).asDecimal = value.asDecimal := by
  cases value <;> rfl

@[simp]
theorem asString_moved : (value.moved gap).asString = value.asString := by
  cases value <;> rfl

@[simp]
theorem asFunction_moved : (value.moved gap).asFunction = value.asFunction := by
  cases value <;> rfl

@[simp]
theorem asInput_moved : (value.moved gap).asInput = value.asInput := by
  cases value <;> rfl

@[simp]
theorem asOutput_moved : (value.moved gap).asOutput = value.asOutput := by
  cases value <;> rfl

end Value

namespace Store

variable {gap : Nat} {store twin : Store} (h : Twin gap store twin)

namespace Twin

include h

/-- The text of a value is that of its moved twin. -/
theorem chars (value : Value) : twin.chars (value.moved gap) = store.chars value := by
  rw [Store.chars, Store.chars, h.span]
  exact (h.readings _).1 value

/-- So is the text under which it is a key. -/
theorem keyChars (value : Value) : twin.keyChars (value.moved gap) = store.keyChars value := by
  rw [Store.keyChars, Store.keyChars, h.span]
  exact (h.readings _).2.1 value

theorem text (value : Value) : twin.text (value.moved gap) = store.text value :=
  congrArg String.ofList (h.chars value)

theorem plainText (value : Value) : twin.plainText (value.moved gap) = store.plainText value := by
  cases value with
  | string => rfl
  | list ref => exact h.text (.list ref)
  | _ => exact h.text _

/-- Moving keeps what is equal. -/
theorem equal (a b : Value) : twin.equal (a.moved gap) (b.moved gap) = store.equal a b := by
  rw [Store.equal, Store.equal, h.span, h.span]
  exact (h.readings _).2.2.1 a b

/-- Moving keeps the order. -/
theorem order (a b : Value) : twin.order (a.moved gap) (b.moved gap) = store.order a b := by
  rw [Store.order, Store.order, h.span, h.span]
  exact (h.readings _).2.2.2 a b

/-- So moved values are the same keys. -/
theorem keyRule : store.keyRule.Follows (Value.moved gap) twin.keyRule :=
  keyRuleStep_follows h.keyChars h.equal

/-- The elements of a set are listed in the same order. -/
theorem sortedKeys (ref : Ref .set) :
    twin.sortedKeys ref = (store.sortedKeys ref).map (Value.moved gap) := by
  rw [Store.sortedKeys, Store.sortedKeys, h.keySet, KeySet.keys_map, sortBy_map h.order]

/-- So are the entries of a map. -/
theorem sortedEntries (ref : Ref .map) :
    twin.sortedEntries ref =
      (store.sortedEntries ref).map (Prod.map (Value.moved gap) (Value.moved gap)) := by
  rw [Store.sortedEntries, Store.sortedEntries, Store.sortedTable, Store.sortedTable, h.table,
    Table.entries_map, sortBy_map fun a b => h.order a.1 b.1]

/-! ## Lengths, members and indices -/

/-- What a collection gives to a loop is moved. -/
theorem elements (value : Value) :
    twin.elements (value.moved gap) = (store.elements value).map (List.map (Value.moved gap)) := by
  cases value with
  | list ref =>
    show Except.ok (twin.items (ref.moved gap)).toList = .ok _
    rw [h.items, Array.toList_map]
  | set ref => exact congrArg Except.ok (h.sortedKeys ref)
  | _ => rfl

/-- Lengths are not. -/
theorem length (value : Value) : twin.length (value.moved gap) = store.length value := by
  cases value with
  | list ref =>
    show Except.ok (twin.items (ref.moved gap)).size = .ok _
    rw [h.items, Array.size_map]
  | set ref =>
    show Except.ok (twin.keySet ref).count = .ok _
    rw [h.keySet]
    rfl
  | map ref =>
    show Except.ok (twin.table ref).count = .ok _
    rw [h.table]
    rfl
  | object ref =>
    show Except.ok (twin.members ref).size = .ok _
    rw [h.members, Bindings.size_map]
  | _ => rfl

/-- A moved value is a key of a set if the value is. -/
theorem hasKey (ref : Ref .set) (value : Value) :
    twin.hasKey ref (value.moved gap) = store.hasKey ref value := by
  rw [Store.hasKey, Store.hasKey, h.keySet]
  exact KeySet.contains_map h.keyRule _ value

/-- A map has the moved value under the moved key. -/
theorem getKey? (ref : Ref .map) (key : Value) :
    twin.getKey? ref (key.moved gap) = (store.getKey? ref key).map (Value.moved gap) := by
  rw [Store.getKey?, Store.getKey?, h.table]
  exact Table.get?_map _ h.keyRule _ key

/-- Membership is kept, of items, of keys and of parts of texts. -/
theorem contains (container element : Value) :
    twin.contains (container.moved gap) (element.moved gap) = store.contains container element := by
  cases container with
  | list ref =>
    show Except.ok ((twin.items (ref.moved gap)).toList.any _) = .ok _
    rw [h.items, Array.toList_map, List.any_map]
    exact congrArg Except.ok (congrArg (List.any _) (funext fun item => h.equal item element))
  | set ref => exact congrArg Except.ok (h.hasKey ref element)
  | map ref =>
    show Except.ok (twin.getKey? ref (element.moved gap)).isSome = .ok _
    rw [h.getKey?, Option.isSome_map]
  | object ref =>
    show (element.moved gap).asString.map (twin.members ref).binds = _
    have hbinds : (twin.members ref).binds = (store.members ref).binds := by
      rw [h.members]
      exact funext fun name => Bindings.binds_map ..
    rw [Value.asString_moved, hbinds]
    rfl
  | string text =>
    show (element.moved gap).asString.map _ = _
    rw [Value.asString_moved]
    rfl
  | _ => rfl

omit h in
/-- Indices are numbers and stay where they are. -/
theorem slot (index : Value) (length : Nat) :
    Store.slot (index.moved gap) length = Store.slot index length := by
  rw [Store.slot, Store.slot, Value.asInt_moved]

/-- Indexing gives the moved item. -/
theorem index (target key : Value) :
    twin.index (target.moved gap) (key.moved gap) = (store.index target key).map (Value.moved gap) := by
  have hget := fun ref => h.getKey? ref key
  have htext := h.text key
  have hslot := fun length => @slot gap key length
  have hname := @Value.asString_moved gap key
  unfold Store.index
  -- set apart, because to compare texts with the search for a key unfolded takes too long
  generalize twin.getKey? = lookup', store.getKey? = lookup, key.moved gap = key',
    store.text key = text at hget htext hslot hname
  generalize twin.text key' = text' at htext
  as_aux_lemma =>
  subst htext
  cases target with
  | list ref =>
    dsimp only [Value.moved]
    rw [hslot, h.items, Array.size_map]
    cases Store.slot key (store.items ref).size with
    | error error => rfl
    | ok position =>
      show Except.ok (((store.items ref).map (Value.moved gap))[position]?.getD .null) = .ok _
      rw [Array.getElem?_map]
      cases (store.items ref)[position]? <;> rfl
  | string text =>
    dsimp only [Value.moved]
    rw [hslot]
    cases Store.slot key (Text.graphemes text).length <;> rfl
  | map ref =>
    dsimp only [Value.moved]
    rw [hget]
    cases lookup ref key <;> rfl
  | object ref =>
    dsimp only [Value.moved]
    rw [hname, h.members]
    cases key.asString with
    | error error => rfl
    | ok name =>
      have hmember := Bindings.get?_map (Value.moved gap) (store.members ref) name
      dsimp only [bind, Except.bind]
      rw [hmember]
      cases (store.members ref).get? name <;> rfl
  | _ => rfl

/-- The function in a member of an object is the same one. -/
theorem memberFunction (target : Value) (name : String) :
    twin.memberFunction (target.moved gap) name = store.memberFunction target name := by
  have hget := fun ref => h.getKey? ref (.string name)
  unfold Store.memberFunction
  dsimp only [Value.moved] at hget
  generalize twin.getKey? = lookup', store.getKey? = lookup at hget
  as_aux_lemma =>
  cases target with
  | object ref =>
    dsimp only [Value.moved]
    rw [h.members, Bindings.get?_map]
    cases (store.members ref).get? name with
    | none => rfl
    | some value => exact Value.asFunction_moved value
  | map ref =>
    dsimp only [Value.moved]
    rw [hget]
    cases lookup ref (.string name) with
    | none => rfl
    | some value => exact Value.asFunction_moved value
  | _ => rfl

/-- The parts of a value are moved. -/
theorem destructure (value : Value) (count : Nat) :
    twin.destructure (value.moved gap) count =
      (store.destructure value count).map (List.map (Value.moved gap)) := by
  rw [Store.destructure, Store.destructure, h.elements]
  cases store.elements value with
  | error error => rfl
  | ok elements =>
    refine congrArg Except.ok ?_
    rw [List.map_append, List.map_take, List.map_replicate, List.length_map]
    rfl

/-- So are the entries that it spreads into. -/
theorem spreadEntries (value : Value) :
    twin.spreadEntries (value.moved gap) =
      (store.spreadEntries value).map (List.map (Prod.map (Value.moved gap) (Value.moved gap))) := by
  cases value with
  | map ref => exact congrArg Except.ok (h.sortedEntries ref)
  | object ref =>
    show Except.ok ((twin.members ref).entries.map _) = .ok _
    rw [h.members, Bindings.entries_map, List.map_map, List.map_map]
    rfl
  | _ => rfl

/-! ## Arithmetic -/

omit h in
/-- Numbers are not moved. -/
@[simp]
theorem exactly_moved (result : Option Int64) : (exactly result).map (Fresh.moved gap) = exactly result := by
  cases result <;> rfl

omit h in
/-- Dates are not moved by a gap. -/
theorem moveDate_moved (date : Calendar.Moment) (days : Float) :
    (moveDate date days).map (Fresh.moved gap) = moveDate date days := by
  rw [moveDate]
  cases date.shift? (Number.roundHalfAway (days * secondsPerDay)).toInt <;> rfl

omit h in
/-- A fresh list of moved items is the moved list. -/
theorem listResult_moved (items : List Value) :
    (listResult items).map (Fresh.moved gap) = listResult (items.map (Value.moved gap)) :=
  congrArg (fun items => Except.ok (Fresh.list items)) List.map_toArray

omit h in
/-- What is no list is appended to a list as an item. -/
theorem add_item (store : Store) (a : Ref .list) {item : Value} (hitem : item.type ≠ .list) :
    store.add (.list a) item = listResult ((store.items a).toList ++ [item]) := by
  cases item with
  | list => exact absurd rfl hitem
  | _ => rfl

omit h in
/-- What is no set is added to a set as an element. -/
theorem add_key (store : Store) (a : Ref .set) {item : Value} (hitem : item.type ≠ .set) :
    store.add (.set a) item = .ok (.set (KeySet.add store.keyRule (store.keySet a) item)) := by
  cases item with
  | set => exact absurd rfl hitem
  | _ => rfl

/-- Sums of moved values are moved sums. -/
theorem add (a b : Value) :
    twin.add (a.moved gap) (b.moved gap) = (store.add a b).map (Fresh.moved gap) := by
  cases a with
  | int a =>
    cases b with
    | int b => exact (exactly_moved _).symm
    | _ => rfl
  | list a =>
    -- a list takes any other value as an item, so the types are told apart first
    by_cases hb : b.type = .list
    · cases b with
      | list b =>
        show listResult ((twin.items (a.moved gap)).toList ++ (twin.items (b.moved gap)).toList) =
          (listResult ((store.items a).toList ++ (store.items b).toList)).map (Fresh.moved gap)
        rw [listResult_moved, h.items, h.items, Array.toList_map, Array.toList_map, List.map_append]
      | _ => cases hb
    · rw [add_item store a hb, Value.moved_list, add_item twin _ (by rwa [Value.type_moved]),
        listResult_moved, h.items, Array.toList_map, List.map_append]
      rfl
  | set a =>
    by_cases hb : b.type = .set
    · cases b with
      | set b =>
        show Except.ok (Fresh.set (KeySet.addAll twin.keyRule (twin.keySet a) (twin.keySet b).keys)) =
          .ok (Fresh.set (KeySet.map _ (KeySet.addAll store.keyRule (store.keySet a) (store.keySet b).keys)))
        rw [KeySet.map_addAll h.keyRule, h.keySet, h.keySet, KeySet.keys_map]
      | _ => cases hb
    · rw [add_key store a hb]
      show twin.add (.set a) (b.moved gap) = _
      rw [add_key twin a (by rwa [Value.type_moved]), h.keySet, ← KeySet.map_add h.keyRule]
      rfl
  | map a =>
    cases b with
    | map b =>
      show Except.ok (Fresh.map ((twin.table b).entries.foldl _ (twin.table a))) =
        .ok (Fresh.map (Table.map _ _ _))
      rw [Table.map_foldl_insert _ h.keyRule, h.table, h.table, Table.entries_map]
    | _ => rfl
  | date date =>
    cases b with
    | int days => exact (moveDate_moved ..).symm
    | decimal days => exact (moveDate_moved ..).symm
    | _ => rfl
  | string a => cases b <;> rfl
  | _ => cases b <;> rfl

/-- What is taken away by equality is the same. -/
theorem withoutKeys (items keys : List Value) :
    twin.withoutKeys (items.map (Value.moved gap)) (keys.map (Value.moved gap)) =
      (store.withoutKeys items keys).map (Value.moved gap) := by
  have hkept : ∀ item : Value, (!Table.contains twin.keyRule
      (KeySet.ofList twin.keyRule (keys.map (Value.moved gap))) (item.moved gap)) =
        !Table.contains store.keyRule (KeySet.ofList store.keyRule keys) item := by
    intro item
    rw [← KeySet.map_ofList h.keyRule, KeySet.contains_map h.keyRule]
  simp only [Store.withoutKeys, List.filter_map, Function.comp_def, hkept]

omit h in
/-- What is neither a list nor a set is taken out of a list wherever it equals an item. -/
theorem subtract_item (store : Store) (a : Ref .list) {item : Value} (hlist : item.type ≠ .list)
    (hset : item.type ≠ .set) :
    store.subtract (.list a) item =
      listResult ((store.items a).toList.filter fun existing => !store.equal existing item) := by
  cases item with
  | list => exact absurd rfl hlist
  | set => exact absurd rfl hset
  | _ => rfl

omit h in
/-- From a set it is erased as an element. -/
theorem subtract_key (store : Store) (a : Ref .set) {item : Value} (hlist : item.type ≠ .list)
    (hset : item.type ≠ .set) :
    store.subtract (.set a) item = .ok (.set ((store.keySet a).erase store.keyRule item)) := by
  cases item with
  | list => exact absurd rfl hlist
  | set => exact absurd rfl hset
  | _ => rfl

/-- Differences with a list on the left. -/
theorem subtract_list (a : Ref .list) (b : Value) :
    twin.subtract (.list (a.moved gap)) (b.moved gap) =
      (store.subtract (.list a) b).map (Fresh.moved gap) := by
  by_cases hlist : b.type = .list
  · cases b with
    | list b =>
      show listResult (twin.withoutKeys (twin.items (a.moved gap)).toList (twin.items (b.moved gap)).toList) =
        (listResult (store.withoutKeys (store.items a).toList (store.items b).toList)).map (Fresh.moved gap)
      rw [listResult_moved, h.items, h.items, Array.toList_map, Array.toList_map, h.withoutKeys]
    | _ => cases hlist
  · by_cases hset : b.type = .set
    · cases b with
      | set b =>
        show listResult (twin.withoutKeys (twin.items (a.moved gap)).toList (twin.sortedKeys b)) =
          (listResult (store.withoutKeys (store.items a).toList (store.sortedKeys b))).map (Fresh.moved gap)
        rw [listResult_moved, h.items, h.sortedKeys, Array.toList_map, h.withoutKeys]
      | _ => cases hset
    · rw [subtract_item store a hlist hset, subtract_item twin _ (by rwa [Value.type_moved])
        (by rwa [Value.type_moved]), listResult_moved, h.items, Array.toList_map, List.filter_map]
      refine congrArg (fun keep => listResult (List.map _ (List.filter keep _))) (funext fun item => ?_)
      exact congrArg not (h.equal item b)

/-- Differences with a set on the left. -/
theorem subtract_set (a : Ref .set) (b : Value) :
    twin.subtract (.set a) (b.moved gap) = (store.subtract (.set a) b).map (Fresh.moved gap) := by
  by_cases hlist : b.type = .list
  · cases b with
    | list b =>
      show Except.ok (Fresh.set
          (KeySet.eraseAll twin.keyRule (twin.keySet a) (twin.items (b.moved gap)).toList)) =
        .ok (Fresh.set (KeySet.map _ (KeySet.eraseAll store.keyRule (store.keySet a) (store.items b).toList)))
      rw [KeySet.map_eraseAll h.keyRule, h.keySet, h.items, Array.toList_map]
    | _ => cases hlist
  · by_cases hset : b.type = .set
    · cases b with
      | set b =>
        show Except.ok (Fresh.set (KeySet.eraseAll twin.keyRule (twin.keySet a) (twin.keySet b).keys)) =
          .ok (Fresh.set (KeySet.map _
            (KeySet.eraseAll store.keyRule (store.keySet a) (store.keySet b).keys)))
        rw [KeySet.map_eraseAll h.keyRule, h.keySet, h.keySet, KeySet.keys_map]
      | _ => cases hset
    · rw [subtract_key store a hlist hset, subtract_key twin a (by rwa [Value.type_moved])
        (by rwa [Value.type_moved]), h.keySet]
      exact congrArg (fun set => Except.ok (Fresh.set set)) (Table.map_erase id h.keyRule _ b).symm

/-- Differences of moved values are moved differences. -/
theorem subtract (a b : Value) :
    twin.subtract (a.moved gap) (b.moved gap) = (store.subtract a b).map (Fresh.moved gap) := by
  cases a with
  | int a =>
    cases b with
    | int b => exact (exactly_moved _).symm
    | _ => rfl
  | list a => exact h.subtract_list a b
  | set a => exact h.subtract_set a b
  | date date =>
    cases b with
    | int days => exact (moveDate_moved ..).symm
    | decimal days => exact (moveDate_moved ..).symm
    | _ => rfl
  | _ => cases b <;> rfl

/-- Products are moved, those of lists with numbers among them. -/
theorem multiply (a b : Value) :
    twin.multiply (a.moved gap) (b.moved gap) = (store.multiply a b).map (Fresh.moved gap) := by
  cases a with
  | int a =>
    cases b with
    | int b => exact (exactly_moved _).symm
    | _ => rfl
  | string text =>
    cases b with
    | int n =>
      show (do
        let count ← repetitions text.utf8ByteSize n
        textResult (String.join (List.replicate count text))) = Except.map _ (do
        let count ← repetitions text.utf8ByteSize n
        textResult (String.join (List.replicate count text)))
      cases repetitions text.utf8ByteSize n <;> rfl
    | _ => rfl
  | list ref =>
    cases b with
    | int n =>
      show (do
        let count ← repetitions (twin.items (ref.moved gap)).toList.length n
        listResult (List.replicate count (twin.items (ref.moved gap)).toList).flatten) = Except.map _ (do
        let count ← repetitions (store.items ref).toList.length n
        listResult (List.replicate count (store.items ref).toList).flatten)
      rw [h.items, Array.toList_map, List.length_map]
      cases repetitions (store.items ref).toList.length n with
      | error error => rfl
      | ok count =>
        show listResult _ = (listResult _).map (Fresh.moved gap)
        rw [listResult_moved, List.map_flatten, List.map_replicate]
    | _ => rfl
  | _ => cases b <;> rfl

omit h in
theorem dividesByZero_moved (a b : Value) :
    dividesByZero (a.moved gap) (b.moved gap) = dividesByZero a b := by
  rw [dividesByZero, dividesByZero, Value.isNumeric_moved, Value.isNumeric_moved, Value.isZero_moved]

omit h in
/-- Quotients are numbers. -/
theorem divide (a b : Value) :
    Store.divide (a.moved gap) (b.moved gap) = (Store.divide a b).map (Fresh.moved gap) := by
  unfold Store.divide
  rw [dividesByZero_moved]
  split
  · rfl
  · cases a with
    | int a =>
      cases b with
      | int b => exact (exactly_moved _).symm
      | _ => rfl
    | _ => cases b <;> rfl

omit h in
/-- So are remainders. -/
theorem remainder (a b : Value) :
    Store.remainder (a.moved gap) (b.moved gap) = (Store.remainder a b).map (Fresh.moved gap) := by
  unfold Store.remainder
  rw [dividesByZero_moved]
  split
  · rfl
  · cases a with
    | int a =>
      cases b with
      | int b => exact (exactly_moved _).symm
      | _ => rfl
    | _ => cases b <;> rfl

end Twin

end Store

end Ckl
