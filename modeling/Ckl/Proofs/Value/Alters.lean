import Ckl.Eval
import Ckl.Proofs.Value.Drawn

/-!
# Changes of containers

What is stored in a container is changed in five ways: an item is put at the end of a list or in the place of
another one, a key is added to a set, an entry is stored in a map, and a member is put into an object. Each
of them alters one container and leaves everything else in the store as it is.
-/

namespace Ckl.Store

open Collection (Table KeySet Slot)

/-- The keys of a set or a map. -/
def keysOf (store : Store) : Container → List Value
  | .set ref => (store.keySet ref).keys
  | .map ref => (store.table ref).keys
  | _ => []

/-- The stores have the same frames and functions, and as many containers of each kind. -/
structure SameOutline (store after : Store) : Prop where
  frames : after.frames = store.frames
  functions : after.functions = store.functions
  lists : after.lists.size = store.lists.size
  sets : after.sets.size = store.sets.size
  maps : after.maps.size = store.maps.size
  objects : after.objects.size = store.objects.size

/-- A container holds other values than before, among which only some are new. A new key does not reach the
container, as far as the search for it goes. -/
structure Alters (store after : Store) (container : Container) (added : List Value) : Prop
    extends store.SameOutline after where
  others : ∀ other, other ≠ container →
    after.parts other = store.parts other ∧ after.keysOf other = store.keysOf other
  parts : ∀ part ∈ after.parts container, part ∈ store.parts container ∨ part ∈ added
  keys : ∀ key ∈ after.keysOf container, key ∈ store.keysOf container ∨
    key ∈ added ∧ ∀ target : Value, target.container? = some container →
      store.reaches key target = false

/-- The stores have the same containers, functions and frames. -/
structure SameContents (store after : Store) : Prop where
  frames : after.frames = store.frames
  functions : after.functions = store.functions
  lists : after.lists = store.lists
  sets : after.sets = store.sets
  maps : after.maps = store.maps
  objects : after.objects = store.objects

variable {store : Store}

/-- What a container holds does not depend on frames and functions. -/
theorem parts_congr {after : Store} (hlists : after.lists = store.lists) (hsets : after.sets = store.sets)
    (hmaps : after.maps = store.maps) (hobjects : after.objects = store.objects) (container : Container) :
    after.parts container = store.parts container := by
  cases container <;> simp only [Store.parts, items, keySet, table, members, hlists, hsets, hmaps, hobjects]

/-- Containers with the same contents have the same parts. -/
theorem SameContents.parts {after : Store} (h : store.SameContents after) (container : Container) :
    after.parts container = store.parts container :=
  parts_congr h.lists h.sets h.maps h.objects container

/-! ## Storages after a change -/

section Modify

variable {α : Type} {storage : Array α} {index : Nat} {change : α → α} {default : α}

/-- Another place of the storage is not changed. -/
theorem getD_modify_of_ne {other : Nat} (h : other ≠ index) :
    (storage.modify index change)[other]?.getD default = storage[other]?.getD default := by
  rw [Array.getElem?_modify, if_neg (Ne.symm h)]

/-- A place of the storage is left or changed as said. -/
theorem getD_modify (storage : Array α) (index : Nat) (change : α → α) (default : α) :
    (storage.modify index change)[index]?.getD default = storage[index]?.getD default ∨
      (storage.modify index change)[index]?.getD default =
        change (storage[index]?.getD default) := by
  rw [Array.getElem?_modify, if_pos rfl]
  cases storage[index]? with
  | none => exact .inl rfl
  | some a => exact .inr rfl

end Modify

/-- The items of a list are left, if it does not exist, or changed as said. -/
theorem items_changeItems (ref : Ref .list) (change : Array Value → Array Value) :
    (store.changeItems ref change).items ref = store.items ref ∨
      (store.changeItems ref change).items ref = change (store.items ref) :=
  getD_modify ..

/-- The keys of a set are left, if it does not exist, or changed as said. -/
theorem keySet_changeKeySet (ref : Ref .set) (change : KeySet Value → KeySet Value) :
    (store.changeKeySet ref change).keySet ref = store.keySet ref ∨
      (store.changeKeySet ref change).keySet ref = change (store.keySet ref) :=
  getD_modify ..

/-- The table of a map is left, if it does not exist, or changed as said. -/
theorem table_changeTable (ref : Ref .map) (change : Table Value Value → Table Value Value) :
    (store.changeTable ref change).table ref = store.table ref ∨
      (store.changeTable ref change).table ref = change (store.table ref) :=
  getD_modify ..

/-- The members of an object are left, if it does not exist, or changed as said. -/
theorem members_changeMembers (ref : Ref .object) (change : Bindings Value → Bindings Value) :
    (store.changeMembers ref change).members ref = store.members ref ∨
      (store.changeMembers ref change).members ref = change (store.members ref) :=
  getD_modify ..

/-- Different references of one type have different numbers. -/
theorem index_ne_of_ne {type : ValueType} {a b : Ref type} (h : a ≠ b) : a.index ≠ b.index := by
  cases a
  cases b
  exact fun heq => h (congrArg Ref.mk heq)

/-- What containers hold once a fresh value is stored. -/
theorem parts_place (store : Store) (fresh : Fresh) (container : Container) :
    (store.place fresh).2.parts container = store.parts container ∨
      (store.place fresh).2.parts container = fresh.parts := by
  have hpush : ∀ {α : Type} (storage : Array α) (a default : α) (index : Nat),
      (storage.push a)[index]?.getD default = storage[index]?.getD default ∨
        (storage.push a)[index]?.getD default = a := by
    intro α storage a default index
    rw [Array.getElem?_push]
    split
    · exact .inr rfl
    · exact .inl rfl
  cases fresh with
  | value => exact .inl rfl
  | list items =>
    cases container with
    | list ref =>
      exact (hpush store.lists items #[] ref.index).imp (congrArg Array.toList) (congrArg Array.toList)
    | _ => exact .inl rfl
  | set keys =>
    cases container with
    | set ref =>
      exact (hpush store.sets keys Table.empty ref.index).imp (congrArg Table.keys)
        (congrArg Table.keys)
    | _ => exact .inl rfl
  | map entries =>
    cases container with
    | map ref =>
      exact (hpush store.maps entries Table.empty ref.index).imp
        (congrArg fun table => (Fresh.map table).parts) (congrArg fun table => (Fresh.map table).parts)
    | _ => exact .inl rfl
  | object members =>
    cases container with
    | object ref =>
      exact (hpush store.objects members Bindings.empty ref.index).imp (congrArg Bindings.values)
        (congrArg Bindings.values)
    | _ => exact .inl rfl

/-! ## The five changes -/

section Changes

variable {added : List Value}

/-- A list is altered by a change that brings in nothing but what is added. -/
theorem alters_changeItems {ref : Ref .list} {change : Array Value → Array Value}
    (h : ∀ part ∈ change (store.items ref), part ∈ store.items ref ∨ part ∈ added) :
    store.Alters (store.changeItems ref change) (.list ref) added where
  frames := rfl
  functions := rfl
  lists := Array.size_modify
  sets := rfl
  maps := rfl
  objects := rfl
  others other hne := by
    cases other with
    | list other =>
      have hindex := index_ne_of_ne fun heq : other = ref => hne (congrArg Container.list heq)
      exact ⟨congrArg Array.toList (getD_modify_of_ne hindex), rfl⟩
    | _ => exact ⟨rfl, rfl⟩
  parts part hpart := by
    have hitems : part ∈ (store.changeItems ref change).items ref := Array.mem_toList_iff.mp hpart
    show part ∈ (store.items ref).toList ∨ part ∈ added
    rw [Array.mem_toList_iff]
    rcases store.items_changeItems ref change with heq | heq
    · exact .inl (heq ▸ hitems)
    · exact h part (heq ▸ hitems)
  keys key hkey := nomatch hkey

/-- Pushing an element onto a list adds the element. -/
theorem alters_push (ref : Ref .list) (element : Value) :
    store.Alters (store.changeItems ref (·.push element)) (.list ref) [element] :=
  alters_changeItems fun part hpart => by
    simpa only [Array.mem_push, List.mem_singleton] using hpart

/-- Setting an item of a list adds the item. -/
theorem alters_setItem (ref : Ref .list) (slot : Nat) (value : Value) :
    store.Alters (store.changeItems ref (·.setIfInBounds slot value)) (.list ref) [value] :=
  alters_changeItems fun part hpart => by
    rcases Array.mem_or_eq_of_mem_setIfInBounds hpart with hpart | rfl
    · exact .inl hpart
    · exact .inr (List.mem_singleton_self _)

/-- A key is added to a set, or stored in a place. -/
theorem alters_addKey {ref : Ref .set} {key : Value} {hash : UInt64} {existing : Option Nat}
    (h : store.reaches key (.set ref) = false) :
    store.Alters (store.changeKeySet ref (·.place ⟨hash, key, ()⟩ existing)) (.set ref) [key] := by
  have hkeys : ∀ other ∈ ((store.changeKeySet ref (·.place ⟨hash, key, ()⟩ existing)).keySet ref).keys,
      other ∈ (store.keySet ref).keys ∨ other = key := by
    intro other hother
    have hall : ((store.keySet ref).place ⟨hash, key, ()⟩ existing).All fun other _ =>
        other ∈ (store.keySet ref).keys ∨ other = key :=
      Table.All.place (fun slot hslot => .inl (List.mem_map_of_mem hslot)) (.inr rfl) existing
    rcases store.keySet_changeKeySet ref (·.place ⟨hash, key, ()⟩ existing) with heq | heq
    · exact .inl (heq ▸ hother)
    · exact hall.keys (heq ▸ hother)
  exact {
    frames := rfl
    functions := rfl
    lists := rfl
    sets := Array.size_modify
    maps := rfl
    objects := rfl
    others := fun other hne => by
      cases other with
      | set other =>
        have hindex := index_ne_of_ne fun heq : other = ref => hne (congrArg Container.set heq)
        have heq : (store.changeKeySet ref (·.place ⟨hash, key, ()⟩ existing)).keySet other =
            store.keySet other := getD_modify_of_ne hindex
        exact ⟨congrArg Table.keys heq, congrArg Table.keys heq⟩
      | _ => exact ⟨rfl, rfl⟩
    parts := fun part hpart => (hkeys part hpart).imp id List.mem_singleton.mpr
    keys := fun other hother => (hkeys other hother).imp id fun heq =>
      ⟨List.mem_singleton.mpr heq, fun target htarget => by
        rw [container?_injective htarget (b := .set ref) rfl, heq]
        exact h⟩ }

/-- An entry is stored in a map. -/
theorem alters_putEntry {ref : Ref .map} {key value : Value} {hash : UInt64} {existing : Option Nat}
    (h : store.reaches key (.map ref) = false) :
    store.Alters (store.changeTable ref (·.place ⟨hash, key, value⟩ existing)) (.map ref)
      [key, value] := by
  have hentries : ((store.changeTable ref (·.place ⟨hash, key, value⟩ existing)).table ref).All
      fun other item => (other, item) ∈ (store.table ref).entries ∨ other = key ∧ item = value := by
    have hold : (store.table ref).All fun other item =>
        (other, item) ∈ (store.table ref).entries ∨ other = key ∧ item = value :=
      fun slot hslot => .inl (List.mem_map_of_mem hslot)
    rcases store.table_changeTable ref (·.place ⟨hash, key, value⟩ existing) with heq | heq
    · rw [heq]
      exact hold
    · rw [heq]
      exact hold.place (.inr ⟨rfl, rfl⟩) existing
  exact {
    frames := rfl
    functions := rfl
    lists := rfl
    sets := rfl
    maps := Array.size_modify
    objects := rfl
    others := fun other hne => by
      cases other with
      | map other =>
        have hindex := index_ne_of_ne fun heq : other = ref => hne (congrArg Container.map heq)
        have heq : (store.changeTable ref (·.place ⟨hash, key, value⟩ existing)).table other =
            store.table other := getD_modify_of_ne hindex
        exact ⟨congrArg (fun table => (Fresh.map table).parts) heq, congrArg Table.keys heq⟩
      | _ => exact ⟨rfl, rfl⟩
    parts := fun part hpart => by
      obtain ⟨entry, hentry, hpart⟩ := List.mem_flatMap.mp hpart
      rcases hentries.entries hentry with hold | ⟨hkey, hvalue⟩
      · exact .inl (List.mem_flatMap.mpr ⟨entry, hold, hpart⟩)
      · rw [hkey, hvalue] at hpart
        exact .inr hpart
    keys := fun other hother => by
      obtain ⟨slot, hslot, rfl⟩ := List.mem_map.mp hother
      rcases hentries slot hslot with hold | ⟨hkey, -⟩
      · obtain ⟨old, hold, heq⟩ := List.mem_map.mp hold
        exact .inl (List.mem_map.mpr ⟨old, hold, congrArg Prod.fst heq⟩)
      · refine .inr ⟨by simp [hkey], fun target htarget => ?_⟩
        rw [container?_injective htarget (b := .map ref) rfl, hkey]
        exact h }

/-- Putting a member into an object adds its value. -/
theorem alters_putMember (ref : Ref .object) (name : String) (value : Value) :
    store.Alters (store.changeMembers ref (·.put name value)) (.object ref) [value] where
  frames := rfl
  functions := rfl
  lists := rfl
  sets := rfl
  maps := rfl
  objects := Array.size_modify
  others other hne := by
    cases other with
    | object other =>
      have hindex := index_ne_of_ne fun heq : other = ref => hne (congrArg Container.object heq)
      exact ⟨congrArg Bindings.values (getD_modify_of_ne hindex), rfl⟩
    | _ => exact ⟨rfl, rfl⟩
  parts part hpart := by
    have hpart' : part ∈ ((store.changeMembers ref (·.put name value)).members ref).values := hpart
    rcases store.members_changeMembers ref (·.put name value) with heq | heq
    · exact .inl (show part ∈ (store.members ref).values from heq ▸ hpart')
    · exact (Bindings.mem_values_put (heq ▸ hpart')).imp id List.mem_singleton.mpr
  keys key hkey := nomatch hkey

end Changes

end Ckl.Store
