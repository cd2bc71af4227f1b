import Ckl.Proofs.Collection.Mapped
import Ckl.Proofs.Value.Order
import Ckl.Scope

/-!
# Stores with one list more

A store holds the same as another one, and one list more: the lists from the number `gap` on have got the
next numbers, and whatever holds a list refers to it by the number that it has got. So the values with the
other numbers reach as many containers, and the twin reads them as the store reads the values: texts, keys,
equality and order do not show the numbers of lists.
-/

namespace Ckl

open Collection (Table KeySet KeyRule)
open Source (Node)

/-! ## Other numbers for lists -/

/-- The number that a list gets when another list is put in at a number. -/
def Ref.moved (gap : Nat) (ref : Ref .list) : Ref .list :=
  ⟨if ref.index < gap then ref.index else ref.index + 1⟩

/-- The value that refers to the same list by the number that it has got. -/
def Value.moved (gap : Nat) : Value → Value
  | .list ref => .list (ref.moved gap)
  | value => value

/-- The storage with the number that it has got. -/
def Container.moved (gap : Nat) : Container → Container
  | .list ref => .list (ref.moved gap)
  | container => container

/-- The fresh value that holds the values with the other numbers. -/
def Fresh.moved (gap : Nat) : Fresh → Fresh
  | .value stored => .value (stored.moved gap)
  | .list items => .list (items.map (Value.moved gap))
  | .set keys => .set (KeySet.map (Value.moved gap) keys)
  | .map entries => .map (entries.map (Value.moved gap) (Value.moved gap))
  | .object members => .object (members.map (Value.moved gap))

/-- The frame in which the names are bound to the values with the other numbers. -/
def Frame.moved (gap : Nat) (frame : Frame) : Frame :=
  { frame with bindings := frame.bindings.map (Value.moved gap) }

/-- The cause of a failure, with the other numbers in the value that a script has raised. -/
def Cause.moved (gap : Nat) : Cause → Cause
  | .raised payload text => .raised (payload.moved gap) text
  | cause => cause

/-- The failure, with the other numbers in the value that a script has raised. -/
def Failure.moved (gap : Nat) : Failure → Failure
  | .diagnosed diagnostic => .diagnosed { diagnostic with cause := diagnostic.cause.moved gap }
  | .unreadable problem => .unreadable problem

/-- The outcome with the failure moved, or else with another result. -/
def movedOutcome {α β : Type} (gap : Nat) (f : α → β) : Except Failure α → Except Failure β
  | .ok a => .ok (f a)
  | .error failure => .error (failure.moved gap)

/-- The host function does not tell lists by their numbers. -/
def HostFunction.Blind (host : HostFunction) : Prop :=
  ∀ gap items others arguments position,
    (∀ ref : Ref .list, others (ref.moved gap) = (items ref).map (Value.moved gap)) →
      host.run others (arguments.map (Value.moved gap)) position =
        movedOutcome gap (Value.moved gap) (host.run items arguments position)

/-- Different lists stay different. -/
theorem Ref.moved_inj {gap : Nat} {a b : Ref .list} : a.moved gap = b.moved gap ↔ a = b := by
  obtain ⟨i⟩ := a
  obtain ⟨j⟩ := b
  simp only [Ref.moved, Ref.mk.injEq]
  split <;> split <;> omega

theorem Ref.beq_moved {gap : Nat} (a b : Ref .list) : (a.moved gap == b.moved gap) = (a == b) := by
  rw [Bool.eq_iff_iff, beq_iff_eq, beq_iff_eq, Ref.moved_inj]

/-- Lists stay in their order. -/
theorem Ref.compare_moved {gap : Nat} (a b : Ref .list) :
    compare (a.moved gap).index (b.moved gap).index = compare a.index b.index := by
  have hlt : ∀ a b : Ref .list, (a.moved gap).index < (b.moved gap).index ↔ a.index < b.index := by
    intro a b
    simp only [Ref.moved]
    split <;> split <;> omega
  simp only [Nat.compare_eq_ite_lt, hlt]

namespace Value

variable {gap : Nat}

@[simp]
theorem moved_list (ref : Ref .list) : (Value.list ref).moved gap = .list (ref.moved gap) := rfl

/-- Moving keeps the types of values, and so what is asked of them by type. -/
@[simp]
theorem type_moved (value : Value) : (value.moved gap).type = value.type := by
  cases value <;> rfl

@[simp]
theorem isNull_moved (value : Value) : (value.moved gap).isNull = value.isNull := by
  cases value <;> rfl

@[simp]
theorem isNumeric_moved (value : Value) : (value.moved gap).isNumeric = value.isNumeric := by
  cases value <;> rfl

@[simp]
theorem isZero_moved (value : Value) : (value.moved gap).isZero = value.isZero := by
  cases value <;> rfl

/-- A container is moved as the value is that refers to it. -/
theorem container?_moved (value : Value) :
    (value.moved gap).container? = value.container?.map (Container.moved gap) := by
  cases value <;> rfl

/-- Among values of one type the order of references is kept. -/
theorem compare_identity_moved {a b : Value} (h : a.type = b.type) :
    compare (a.moved gap).identity (b.moved gap).identity = compare a.identity b.identity := by
  cases a with
  | list a =>
    cases b with
    | list b => exact Ref.compare_moved a b
    | _ => cases h
  | _ => cases b <;> first | rfl | cases h

end Value

/-- Sorting commutes with a map that keeps the order. -/
theorem sortBy_map {α β : Type} {f : α → β} {order : α → α → Ordering} {order' : β → β → Ordering}
    (h : ∀ a b, order' (f a) (f b) = order a b) (values : List α) :
    sortBy order' (values.map f) = (sortBy order values).map f := by
  rw [sortBy, sortBy, List.map_mergeSort]
  exact fun a _ b _ => congrArg (· != Ordering.gt) (h a b).symm

/-- The order of lists by their items is kept by such a map. -/
theorem orderLists_map {α β : Type} {f : α → β} {order : α → α → Ordering} {order' : β → β → Ordering}
    (h : ∀ a b, order' (f a) (f b) = order a b) (as bs : List α) :
    orderLists order' (as.map f) (bs.map f) = orderLists order as bs := by
  induction as generalizing bs with
  | nil => cases bs <;> rfl
  | cons a as ih =>
    cases bs with
    | nil => rfl
    | cons b bs =>
      show (order' (f a) (f b)).then _ = _
      rw [h, ih]
      rfl

namespace Store

/-! ## Twins -/

/-- The twin holds one list more, at the number `gap`, and the same otherwise. The host functions do not tell
lists by their numbers. -/
structure Twin (gap : Nat) (store twin : Store) : Prop where
  now : twin.now = store.now
  gap_le : gap ≤ store.lists.size
  size_lists : twin.lists.size = store.lists.size + 1
  lists : ∀ ref : Ref .list,
    twin.lists[(ref.moved gap).index]? = store.lists[ref.index]?.map (Array.map (Value.moved gap))
  sets : twin.sets = store.sets.map (KeySet.map (Value.moved gap))
  maps : twin.maps = store.maps.map (Table.map (Value.moved gap) (Value.moved gap))
  objects : twin.objects = store.objects.map (Bindings.map (Value.moved gap))
  functions : twin.functions = store.functions
  inputs : twin.inputs = store.inputs
  outputs : twin.outputs = store.outputs
  nodes : twin.nodes = store.nodes
  frames : twin.frames = store.frames.map (Frame.moved gap)
  hosts : ∀ host, Function.host host ∈ store.functions → host.Blind

/-- What holds of all host functions holds of those to which function values refer. -/
theorem host_of_function {holds : HostFunction → Prop} {store : Store} {ref : Ref .func}
    {host : HostFunction} (h : ∀ host, Function.host host ∈ store.functions → holds host)
    (hfunction : store.function ref = .host host) : holds host := by
  rw [Store.function] at hfunction
  cases hget : store.functions[ref.index]? with
  | none =>
    rw [hget] at hfunction
    cases hfunction
  | some function =>
    rw [hget] at hfunction
    cases hfunction
    exact h host (Array.mem_of_getElem? hget)

variable {gap : Nat} {store twin : Store} (h : Twin gap store twin)

include h

namespace Twin

/-- There is one more container in the twin. -/
theorem containerCount : twin.containerCount = store.containerCount + 1 := by
  rw [Store.containerCount, Store.containerCount, h.size_lists, h.sets, h.maps, h.objects, Array.size_map,
    Array.size_map, Array.size_map]
  omega

/-- A moved list has the moved items. -/
theorem items (ref : Ref .list) :
    twin.items (ref.moved gap) = (store.items ref).map (Value.moved gap) := by
  rw [Store.items, Store.items, h.lists]
  cases store.lists[ref.index]? with
  | none => exact Array.map_empty.symm
  | some items => rfl

/-- Sets keep their place and have moved elements, -/
theorem keySet (ref : Ref .set) : twin.keySet ref = KeySet.map (Value.moved gap) (store.keySet ref) := by
  rw [Store.keySet, Store.keySet, h.sets, Array.getElem?_map]
  cases store.sets[ref.index]? with
  | none => exact (Table.map_empty ..).symm
  | some set => rfl

/-- maps moved keys and values, -/
theorem table (ref : Ref .map) :
    twin.table ref = (store.table ref).map (Value.moved gap) (Value.moved gap) := by
  rw [Store.table, Store.table, h.maps, Array.getElem?_map]
  cases store.maps[ref.index]? with
  | none => exact (Table.map_empty ..).symm
  | some table => rfl

/-- objects moved members. -/
theorem members (ref : Ref .object) : twin.members ref = (store.members ref).map (Value.moved gap) := by
  rw [Store.members, Store.members, h.objects, Array.getElem?_map]
  cases store.objects[ref.index]? <;> rfl

/-- Functions, inputs and syntax trees are the same in both. -/
theorem function (ref : Ref .func) : twin.function ref = store.function ref := by
  rw [Store.function, Store.function, h.functions]

theorem lines (ref : Ref .input) : twin.lines ref = store.lines ref := by
  rw [Store.lines, Store.lines, h.inputs]

theorem tree (ref : Ref .node) : twin.tree ref = store.tree ref := by
  rw [Store.tree, Store.tree, h.nodes]

/-- Frames are the same but for the values that are bound in them. -/
theorem frame (ref : FrameRef) : twin.frame ref = (store.frame ref).moved gap := by
  rw [Store.frame, Store.frame, h.frames, Array.getElem?_map]
  cases store.frames[ref.index]? <;> rfl

/-! ## Names -/

/-- So frames have the same frames around them. -/
theorem chain (ref : FrameRef) : twin.chain ref = store.chain ref := by
  rw [Store.chain, Store.chain, h.frame]
  rfl

theorem root (ref : FrameRef) : twin.root ref = store.root ref := by
  rw [Store.root, Store.root, h.frame]
  rfl

theorem getLocal? (ref : FrameRef) (name : String) :
    twin.getLocal? ref name = (store.getLocal? ref name).map (Value.moved gap) := by
  rw [Store.getLocal?, Store.getLocal?, h.frame]
  exact Bindings.get?_map ..

/-- A name is bound to the moved value. -/
theorem lookup? (ref : FrameRef) (name : String) :
    twin.lookup? ref name = (store.lookup? ref name).map (Value.moved gap) := by
  rw [Store.lookup?, Store.lookup?, h.chain, funext fun ref => h.getLocal? ref name]
  exact (List.map_findSome? ..).symm

/-- It is bound in the same frame. -/
theorem owner? (ref : FrameRef) (name : String) : twin.owner? ref name = store.owner? ref name := by
  rw [Store.owner?, Store.owner?, h.chain]
  refine congrArg₂ _ (funext fun ref => ?_) rfl
  rw [h.frame]
  exact Bindings.binds_map ..

/-! ## Containers inside of values -/

/-- What a moved container holds is moved. -/
theorem parts (container : Container) :
    twin.parts (container.moved gap) = (store.parts container).map (Value.moved gap) := by
  cases container with
  | list ref =>
    show (twin.items (ref.moved gap)).toList = _
    rw [h.items, Array.toList_map]
    rfl
  | set ref =>
    show (twin.keySet ref).keys = _
    rw [h.keySet, KeySet.keys_map]
    rfl
  | map ref =>
    show (twin.table ref).entries.flatMap _ = _
    rw [h.table, Table.entries_map, List.flatMap_map, Store.parts, List.map_flatMap]
    rfl
  | object ref =>
    show (twin.members ref).values = _
    rw [h.members, Bindings.values_map]
    rfl

/-- The search that has come as far, with the other numbers. -/
def searchMoved (gap : Nat) (search : Search) : Search :=
  { search with entered := search.entered.map (Container.moved gap) }

omit h in
theorem moved_container_inj {a b : Container} : a.moved gap = b.moved gap ↔ a = b := by
  cases a <;> cases b <;> simp [Container.moved, Ref.moved_inj]

/-- The search goes the same ways through moved containers. -/
theorem searchFrom (goal : Option Container) (bound : Nat) (search : Search) (value : Value) :
    twin.searchFrom (goal.map (Container.moved gap)) bound (searchMoved gap search) (value.moved gap) =
      searchMoved gap (store.searchFrom goal bound search value) := by
  induction bound generalizing search value with
  | zero => rfl
  | succ bound ih =>
    rw [Store.searchFrom, Store.searchFrom, Value.container?_moved]
    cases value.container? with
    | none => rfl
    | some container =>
      have hentered : (search.entered.map (Container.moved gap)).contains (container.moved gap) =
          search.entered.contains container := by
        rw [Bool.eq_iff_iff, List.contains_iff_mem, List.contains_iff_mem,
          List.mem_map_of_injective (fun _ _ => moved_container_inj.mp)]
      have hgoal : some (container.moved gap) = goal.map (Container.moved gap) ↔ some container = goal := by
        rw [← Option.map_some, (Option.map_injective fun _ _ => moved_container_inj.mp).eq_iff]
      have hfold : ∀ (parts : List Value) (search : Search),
          (parts.map (Value.moved gap)).foldl (twin.searchFrom (goal.map (Container.moved gap)) bound)
              (searchMoved gap search) =
            searchMoved gap (parts.foldl (store.searchFrom goal bound) search) := by
        intro parts
        induction parts with
        | nil => exact fun _ => rfl
        | cons part parts ihParts =>
          intro search
          rw [List.map_cons, List.foldl_cons, ih, ihParts, List.foldl_cons]
      show (if search.found || (search.entered.map (Container.moved gap)).contains (container.moved gap)
        then searchMoved gap search
        else if some (container.moved gap) = goal.map (Container.moved gap) then _ else
          (twin.parts (container.moved gap)).foldl
            (twin.searchFrom (goal.map (Container.moved gap)) bound)
            (searchMoved gap { search with entered := container :: search.entered })) = _
      simp only [hentered, hgoal, h.parts, hfold]
      split
      · rfl
      · split <;> rfl

/-- The twin has room for one container more, but that is not needed. -/
theorem search (goal : Option Container) (value : Value) :
    twin.searchFrom (goal.map (Container.moved gap)) (twin.containerCount + 1) {} (value.moved gap) =
      searchMoved gap (store.searchFrom goal (store.containerCount + 1) {} value) := by
  have hroom : store.room ({} : Search).entered < store.containerCount + 1 := store.room_nil_lt
  rw [h.containerCount, ← searchFrom_succ hroom]
  exact h.searchFrom goal _ {} value

/-- So a moved value reaches what the value reaches. -/
theorem reaches (value target : Value) :
    twin.reaches (value.moved gap) (target.moved gap) = store.reaches value target := by
  rw [Store.reaches, Store.reaches, Value.container?_moved]
  cases target.container? with
  | none => rfl
  | some goal =>
    have hsearch := congrArg Search.found (h.search (some goal) value)
    exact hsearch

/-- It spans as much. -/
theorem span (value : Value) : twin.span (value.moved gap) = store.span value := by
  have hspanned : twin.spanned (value.moved gap) = (store.spanned value).map (Container.moved gap) :=
    congrArg Search.entered (h.search none value)
  rw [Store.span, Store.span, hspanned, List.length_map]

/-! ## One level of the readings -/

section Levels

variable {text text' key key' : Value → List Char} {order order' : Value → Value → Ordering}
  {equal equal' : Value → Value → Bool} (ht : ∀ p, text' (p.moved gap) = text p)
  (hk : ∀ p, key' (p.moved gap) = key p)
  (ho : ∀ p q, order' (p.moved gap) (q.moved gap) = order p q)
  (he : ∀ p q, equal' (p.moved gap) (q.moved gap) = equal p q)

include ht ho

omit h in
/-- The entries of a map are written in the same order. -/
theorem map_entries_moved (table : Table Value Value) :
    ((sortBy (fun a b => order' a.1 b.1) (table.map (Value.moved gap) (Value.moved gap)).entries).map
      fun entry => text' entry.1 ++ " => ".toList ++ text' entry.2) =
    (sortBy (fun a b => order a.1 b.1) table.entries).map
      fun entry => text entry.1 ++ " => ".toList ++ text entry.2 := by
  rw [Table.entries_map, sortBy_map fun a b => ho a.1 b.1, List.map_map]
  refine List.map_congr_left fun entry _ => ?_
  show text' (entry.1.moved gap) ++ _ ++ text' (entry.2.moved gap) = _
  rw [ht, ht]

/-- If the texts and the order of what is inside are kept, the text is. -/
theorem textStep (value : Value) :
    twin.textStep text' order' (value.moved gap) = store.textStep text order value := by
  cases value with
  | list ref =>
    refine congrArg (enclosed "[" "]") ?_
    rw [h.items, Array.toList_map, List.map_map]
    exact List.map_congr_left fun p _ => ht p
  | set ref =>
    refine congrArg (enclosed "<<" ">>") ?_
    rw [h.keySet, KeySet.keys_map, sortBy_map ho, List.map_map]
    exact List.map_congr_left fun p _ => ht p
  | map ref =>
    refine congrArg (enclosed "<<<" ">>>") ?_
    rw [h.table]
    exact map_entries_moved ht ho _
  | object ref =>
    refine congrArg (enclosed "<*" "*>") ?_
    rw [h.members, Bindings.entries_map, List.map_map]
    refine List.map_congr_left fun entry _ => ?_
    exact congrArg (entry.1.toList ++ '=' :: ·) (ht entry.2)
  | func ref =>
    show functionText (twin.function ref).name = functionText (store.function ref).name
    rw [h.function]
  | node ref =>
    show (twin.tree ref).chars = (store.tree ref).chars
    rw [h.tree]
  | _ => rfl

omit ht in
include hk in
/-- So is the text as a key. -/
theorem keyStep (value : Value) :
    twin.keyStep key' order' (value.moved gap) = store.keyStep key order value := by
  cases value with
  | list ref =>
    refine congrArg (enclosed "[" "]") ?_
    rw [h.items, Array.toList_map, List.map_map]
    exact List.map_congr_left fun p _ => hk p
  | set ref =>
    refine congrArg (enclosed "<<" ">>") ?_
    rw [h.keySet, KeySet.keys_map, sortBy_map ho, List.map_map]
    exact List.map_congr_left fun p _ => hk p
  | map ref =>
    refine congrArg (enclosed "<<<" ">>>") ?_
    rw [h.table]
    exact map_entries_moved hk ho _
  | object ref =>
    refine congrArg (enclosed "<*" "*>") ?_
    rw [h.members, Bindings.entries_map, sortBy_map fun _ _ => rfl, List.map_map]
    refine List.map_congr_left fun entry _ => ?_
    exact congrArg (entry.1.toList ++ '=' :: ·) (hk entry.2)
  | int | decimal => rfl
  | func ref => exact h.textStep hk ho (.func ref)
  | node ref => exact h.textStep hk ho (.node ref)
  | _ => rfl

omit ht ho h in
include hk he in
/-- Keys are compared alike. -/
theorem keyRuleStep_follows :
    (keyRuleStep equal key).Follows (Value.moved gap) (keyRuleStep equal' key') where
  hash p := congrArg (fun chars => Text.hash (String.ofList chars)) (hk p)
  same := he

omit ht ho in
include hk he in
/-- If equality and keys are kept inside, equality is. -/
theorem equalStep (a b : Value) :
    twin.equalStep equal' key' (a.moved gap) (b.moved gap) = store.equalStep equal key a b := by
  -- each kind reduces to its parts, which the two equalities given compare alike
  have hrule := keyRuleStep_follows hk he
  cases a with
  | list a =>
    cases b with
    | list b =>
      have hall := congrArg (List.all ((store.items a).toList.zip (store.items b).toList))
        (funext fun pair => he pair.1 pair.2)
      simp only [Value.moved_list, Store.equalStep, Ref.beq_moved, h.items, Array.toList_map,
        List.length_map, List.zip_map, List.all_map, ← hall]
      rfl
    | _ => rfl
  | set a =>
    cases b with
    | set b =>
      have hall := congrArg (List.all (store.keySet a).keys)
        (funext fun p => KeySet.contains_map hrule (store.keySet b) p)
      simp only [Value.moved, Store.equalStep, h.keySet, KeySet.keys_map, KeySet.count_map,
        List.all_map, ← hall]
      rfl
    | _ => rfl
  | map a =>
    cases b with
    | map b =>
      have hentry : ∀ entry : Value × Value,
          (((store.table b).map (Value.moved gap) (Value.moved gap)).get? (keyRuleStep equal' key')
              (entry.1.moved gap)).any (equal' (entry.2.moved gap)) =
            ((store.table b).get? (keyRuleStep equal key) entry.1).any (equal entry.2) := by
        intro entry
        rw [Table.get?_map _ hrule, Option.any_map]
        exact congrArg (Option.any · _) (funext fun p => he entry.2 p)
      have hall := congrArg (List.all (store.table a).entries) (funext hentry)
      simp only [Value.moved, Store.equalStep, h.table, Table.entries_map, Table.count_map, List.all_map,
        ← hall]
      rfl
    | _ => rfl
  | object a =>
    cases b with
    | object b =>
      have hentry : ∀ entry : String × Value,
          (((store.members b).map (Value.moved gap)).get? entry.1).any (equal' (entry.2.moved gap)) =
            ((store.members b).get? entry.1).any (equal entry.2) := by
        intro entry
        rw [Bindings.get?_map, Option.any_map]
        exact congrArg (Option.any · _) (funext fun p => he entry.2 p)
      have hall := congrArg (List.all (store.members a).entries) (funext hentry)
      simp only [Value.moved, Store.equalStep, h.members, Bindings.entries_map, Bindings.size_map,
        List.all_map, ← hall]
      rfl
    | _ => rfl
  | _ => cases b <;> rfl

omit h ho in
include he in
/-- Values of different kinds are ordered by their texts, which are kept. -/
theorem orderByText_moved (a b : Value) :
    orderByText equal' text' (a.moved gap) (b.moved gap) = orderByText equal text a b := by
  rw [orderByText, orderByText, he, ht, ht, Value.type_moved, Value.type_moved]
  by_cases htype : a.type = b.type
  · rw [Value.compare_identity_moved htype]
  · -- values of different types are told apart before their numbers are compared
    have hname : compare a.type.name b.type.name ≠ .eq := fun heq =>
      htype (name_injective (Std.LawfulEqOrd.compare_eq_iff_eq.mp heq))
    cases hcompare : compare a.type.name b.type.name with
    | eq => exact absurd hcompare hname
    | lt => rfl
    | gt => rfl

include he in
/-- If order, equality and texts are kept inside, the order is. -/
theorem orderStep (a b : Value) :
    twin.orderStep order' equal' text' (a.moved gap) (b.moved gap) =
      store.orderStep order equal text a b := by
  have htext := orderByText_moved ht he a b
  cases a with
  | list a =>
    cases b with
    | list b =>
      show orderLists order' _ _ = orderLists order _ _
      rw [h.items, h.items, Array.toList_map, Array.toList_map, orderLists_map ho]
    | _ => exact htext
  | _ => cases b <;> first | rfl | exact htext

end Levels

/-! ## Readings -/

/-- Up to every depth the twin reads values as the store does. -/
theorem readings (depth : Nat) :
    (∀ a, twin.textAt depth (a.moved gap) = store.textAt depth a) ∧
      (∀ a, twin.keyAt depth (a.moved gap) = store.keyAt depth a) ∧
      (∀ a b, twin.equalAt depth (a.moved gap) (b.moved gap) = store.equalAt depth a b) ∧
      ∀ a b, twin.orderAt depth (a.moved gap) (b.moved gap) = store.orderAt depth a b := by
  induction depth with
  | zero => exact ⟨fun _ => rfl, fun _ => rfl, fun _ _ => rfl, fun _ _ => rfl⟩
  | succ depth ih =>
    obtain ⟨htext, hkey, hequal, horder⟩ := ih
    have htexts := h.textStep htext horder
    have hequals := h.equalStep hkey hequal
    exact ⟨htexts, h.keyStep hkey horder, hequals, h.orderStep htexts horder hequals⟩

end Twin

end Store

end Ckl
