import Ckl.Proofs.Run.Discipline
import Ckl.Proofs.Scope.Chain
import Ckl.Proofs.Value.MapKeys

/-!
# Assigning and reading by index

What is assigned at an index of a list, a map or an object is what is read there afterwards, and at every
other place the same is read as before (`Store.Updates`). `assignments_agree` says so for all three kinds of
containers, together with when an item of a list can be assigned and that a failed assignment changes nothing.

For maps this rests on the keys: they are values that can serve as keys, and they read as they did when they
were stored. A key that reaches the map itself is none of its keys, before and after, though its text changes
with the map. A key that has been changed since it was stored lies where its old text sends it, and whether it
is found depends on the size of the table (`reading_moves_with_changed_key`).
-/

namespace Ckl

namespace Bindings

variable {α : Type} (bindings : Bindings α) (name : String) (value : α)

/-- Binding a name adds one exactly if it was not bound. -/
theorem size_put : (bindings.put name value).size =
    if (bindings.get? name).isSome then bindings.size else bindings.size + 1 := by
  rw [isSome_get?_eq]
  unfold put
  split
  · simp only [replace, size, replaceIn, List.length_map]
  · simp only [append, size, List.length_append, List.length_singleton]

end Bindings

namespace Store

open Collection (Table)
open Source (Position)

variable {store after : Store} {among : Value → Prop} {target key value : Value} {position : Position}

/-! ## Places -/

/-- Two indices denote one place of a container: a position in a list, counted from either end, a key of a
map, or the name of a member of an object. -/
inductive SameSlot (store : Store) : Value → Value → Value → Prop where
  | list {ref : Ref .list} {key other : Value} {place : Nat}
      (hkey : slot key (store.items ref).size = .ok place)
      (hother : slot other (store.items ref).size = .ok place) : SameSlot store (.list ref) key other
  | map {ref : Ref .map} {key other : Value} (h : store.equal key other = true) :
      SameSlot store (.map ref) key other
  | object {ref : Ref .object} {key other : Value} {name : String} (hkey : key.asString = .ok name)
      (hother : other.asString = .ok name) : SameSlot store (.object ref) key other

/-- An index gives the place counted from the front, or from the end if it is negative. -/
theorem slot_eq_ok_iff {index : Value} {length place : Nat} :
    slot index length = .ok place ↔ ∃ raw, index.asInt = .ok raw ∧ place < length ∧
      (place : Int) = if raw.toInt < 0 then raw.toInt + length else raw.toInt := by
  unfold slot
  cases index.asInt with
  | error error => simp [bind, Except.bind]
  | ok raw =>
    simp only [bind, Except.bind, Except.ok.injEq, exists_eq_left']
    generalize (if raw.toInt < 0 then raw.toInt + (length : Int) else raw.toInt) = resolved
    by_cases hinside : 0 ≤ resolved ∧ resolved < length
    · rw [if_pos hinside, Except.ok.injEq]
      omega
    · rw [if_neg hinside]
      constructor
      · nofun
      · intro hplace
        omega

/-- The positions from the beginning of a list, and those from its end. -/
theorem exists_slot_iff {index : Value} {length : Nat} :
    (∃ place, slot index length = .ok place) ↔
      ∃ raw, index.asInt = .ok raw ∧ -(length : Int) ≤ raw.toInt ∧ raw.toInt < length := by
  simp only [slot_eq_ok_iff]
  constructor
  · rintro ⟨place, raw, hraw, hlt, hplace⟩
    refine ⟨raw, hraw, ?_⟩
    split at hplace <;> omega
  · rintro ⟨raw, hraw, hfrom, hto⟩
    refine ⟨(if raw.toInt < 0 then raw.toInt + (length : Int) else raw.toInt).toNat, raw, hraw, ?_⟩
    split <;> omega

/-- The place of an index is within the length. -/
theorem slot_lt {index : Value} {length place : Nat} (h : slot index length = .ok place) :
    place < length := by
  obtain ⟨raw, -, hlt, -⟩ := slot_eq_ok_iff.mp h
  exact hlt

/-! ## What an assignment does -/

/-- What is stored at a changed place is what the change gives. -/
theorem getD_modify_of_lt {α : Type} {storage : Array α} {index : Nat} (h : index < storage.size)
    (change : α → α) (default : α) :
    (storage.modify index change)[index]?.getD default = change (storage[index]?.getD default) := by
  rw [Array.getElem?_modify, if_pos rfl, Array.getElem?_eq_getElem h]
  rfl

/-- Only what a change does to the table of the map matters. -/
theorem changeTable_congr {ref : Ref .map} {change change' : Table Value Value → Table Value Value}
    (h : change (store.table ref) = change' (store.table ref)) :
    store.changeTable ref change = store.changeTable ref change' := by
  have hmaps : store.maps.modify ref.index change = store.maps.modify ref.index change' := by
    apply Array.ext_getElem?
    intro index
    rw [Array.getElem?_modify, Array.getElem?_modify]
    split
    · next heq =>
      subst heq
      cases hget : store.maps[ref.index]? with
      | none => rfl
      | some table =>
        simp only [Store.table, hget, Option.getD_some] at h
        simp only [Option.map_some, h]
    · rfl
  simp only [changeTable, hmaps]

/-- Assigning to a list sets the item at the index. -/
theorem assignIndex_list (ref : Ref .list) :
    assignIndex (.list ref) key value position store =
      match slot key (store.items ref).size with
      | .ok place => .ok () (store.changeItems ref (·.setIfInBounds place value))
      | .error error => .error (.failed (Failure.runtime error position)) store := by
  unfold assignIndex
  dsimp only
  rw [Run.read_bind]
  cases slot key (store.items ref).size <;> rfl

/-- Assigning to a map inserts the key unless the key holds the map. -/
theorem assignIndex_map (ref : Ref .map) :
    assignIndex (.map ref) key value position store =
      if store.reaches key (.map ref) = true then
        .error (.failed (Failure.runtime .mapAsOwnKey position)) store
      else .ok () (store.changeTable ref fun table => table.insert store.keyRule key value) := by
  have hinsert : store.changeTable ref (fun table => table.insert store.keyRule key value) =
      store.changeTable ref (·.place ⟨store.keyRule.hash key, key, value⟩
        ((store.table ref).locate (store.keyRule.hash key) fun entry => store.keyRule.same entry key)) :=
    changeTable_congr (Table.insert_eq ..)
  rw [hinsert]
  unfold assignIndex
  dsimp only
  rw [Run.read_bind]
  split <;> rfl

/-- Assigning to an object puts the member of that name. -/
theorem assignIndex_object (ref : Ref .object) :
    assignIndex (.object ref) key value position store =
      match key.asString with
      | .ok name => .ok () (store.changeMembers ref (·.put name value))
      | .error error => .error (.failed (Failure.runtime error position)) store := by
  unfold assignIndex
  cases key.asString <;> rfl

/-! ## What is to be shown -/

/-- A container that exists, and an index. For a map, the keys are values that can serve as keys, and they are
as they were when they were stored. -/
inductive Addressed (store : Store) (among : Value → Prop) : Value → Value → Prop where
  | list {ref : Ref .list} {key : Value} (hexists : store.Has (.list ref)) :
      Addressed store among (.list ref) key
  | map {ref : Ref .map} {key : Value} (hexists : store.Has (.map ref)) (hkeys : store.MapKeys among)
      (hsound : (store.table ref).Sound store.keyRule) (hamong : ∀ key ∈ (store.table ref).keys, among key)
      (hkey : among key) : Addressed store among (.map ref) key
  | object {ref : Ref .object} {key : Value} (hexists : store.Has (.object ref)) :
      Addressed store among (.object ref) key

/-- Reading at an index ends as before. Where the index reaches the map it was no key of the map and is none
now; the failure names it by the text that it has at the time. -/
def ReadsAs (before after : Store) (target key : Value) : Prop :=
  after.index target key = before.index target key ∨
    before.reaches key target = true ∧ before.index target key = .error (.keyNotFound (before.text key)) ∧
      after.index target key = .error (.keyNotFound (after.text key))

/-- What a successful assignment at an index does to reading at indices. -/
structure Updates (store : Store) (among : Value → Prop) (target key value : Value) (after : Store) :
    Prop where
  /-- The value is found at the index. -/
  assigned : after.index target key = .ok value
  /-- At an index of a different place, be it different before or after, nothing has changed. -/
  others : ∀ other, ¬ (store.SameSlot target key other ∧ after.SameSlot target key other) →
    (∀ ref, target = .map ref → among other ∧ (store.reaches other target = true → after.MapKeys among)) →
    store.ReadsAs after target other
  /-- Nothing is added where something could be read. -/
  replaced : (∃ found, store.index target key = .ok found) → after.length target = store.length target
  /-- Where nothing could be read, one place is added. -/
  added : (∃ error, store.index target key = .error error) →
    ∃ length, store.length target = .ok length ∧ after.length target = .ok (length + 1)

/-! ## Lists -/

/-- Reading a list gives the item at the index. -/
theorem index_list (ref : Ref .list) (key : Value) :
    store.index (.list ref) key =
      (slot key (store.items ref).size).map fun place => (store.items ref)[place]?.getD .null := by
  unfold index
  dsimp only
  generalize slot key (store.items ref).size = place
  cases place <;> rfl

/-- Setting an item updates the list at its index. -/
theorem updates_list {ref : Ref .list} (hexists : store.Has (.list ref)) {place : Nat}
    (hslot : slot key (store.items ref).size = .ok place) :
    store.Updates among (.list ref) key value (store.changeItems ref (·.setIfInBounds place value)) := by
  have hitems : (store.changeItems ref (·.setIfInBounds place value)).items ref =
      (store.items ref).setIfInBounds place value :=
    getD_modify_of_lt (mem_containers_iff.mp (hexists _ rfl)) _ _
  have hlt := slot_lt hslot
  constructor
  case assigned =>
    rw [index_list, hitems, Array.size_setIfInBounds, hslot]
    simp [Except.map, hlt]
  case others =>
    intro other hother _
    left
    rw [index_list, index_list, hitems, Array.size_setIfInBounds]
    cases hplace : slot other (store.items ref).size with
    | error error => rfl
    | ok otherPlace =>
      have hne : place ≠ otherPlace := by
        rintro rfl
        apply hother
        have hsize : ((store.changeItems ref (·.setIfInBounds place value)).items ref).size =
            (store.items ref).size := by rw [hitems, Array.size_setIfInBounds]
        exact ⟨.list hslot hplace, .list (hsize ▸ hslot) (hsize ▸ hplace)⟩
      simp only [Except.map, Array.getElem?_setIfInBounds_ne hne]
  case replaced =>
    intro _
    simp only [length, hitems, Array.size_setIfInBounds]
  case added =>
    rintro ⟨error, herror⟩
    rw [index_list, hslot] at herror
    cases herror

/-! ## Objects -/

/-- Reading an object gives the member of that name. -/
theorem index_object (ref : Ref .object) (key : Value) :
    store.index (.object ref) key = key.asString.bind fun name =>
      match (store.members ref).get? name with
      | some value => .ok value
      | none => .error (.noMember name) := by
  unfold index
  dsimp only
  generalize key.asString = name
  cases name <;> rfl

/-- Putting a member updates the object at its name. -/
theorem updates_object {ref : Ref .object} (hexists : store.Has (.object ref)) {name : String}
    (hname : key.asString = .ok name) :
    store.Updates among (.object ref) key value (store.changeMembers ref (·.put name value)) := by
  have hmembers : (store.changeMembers ref (·.put name value)).members ref =
      (store.members ref).put name value :=
    getD_modify_of_lt (mem_containers_iff.mp (hexists _ rfl)) _ _
  constructor
  case assigned =>
    rw [index_object, hmembers, hname]
    simp [Except.bind, Bindings.get?_put_self]
  case others =>
    intro other hother _
    left
    rw [index_object, index_object, hmembers]
    cases hotherName : other.asString with
    | error error => rfl
    | ok otherName =>
      have hne : otherName ≠ name := by
        rintro rfl
        exact hother ⟨.object hname hotherName, .object hname hotherName⟩
      simp only [Except.bind, Bindings.get?_put_of_ne _ _ _ hne]
  case replaced =>
    rintro ⟨found, hfound⟩
    rw [index_object, hname] at hfound
    cases hget : (store.members ref).get? name with
    | none =>
      simp only [Except.bind, hget] at hfound
      cases hfound
    | some old => simp only [length, hmembers, Bindings.size_put, hget, Option.isSome_some, if_true]
  case added =>
    rintro ⟨error, herror⟩
    rw [index_object, hname] at herror
    cases hget : (store.members ref).get? name with
    | none =>
      refine ⟨_, rfl, ?_⟩
      simp only [length, hmembers, Bindings.size_put, hget, Option.isSome_none, Bool.false_eq_true, if_false]
    | some old =>
      simp only [Except.bind, hget] at herror
      cases herror

/-! ## Maps -/

theorem index_of_eq_map {ref : Ref .map} (h : target = .map ref) (key : Value) :
    store.index target key = (store.getKey? ref key).elim (.error (.keyNotFound (store.text key))) .ok := by
  unfold index
  -- set apart, because to compare texts with the search for a key unfolded takes too long
  generalize store.getKey? = lookup
  as_aux_lemma =>
    subst h
    dsimp only
    cases lookup ref key <;> rfl

/-- Reading a map gives the value of the key. -/
theorem index_map (ref : Ref .map) (key : Value) :
    store.index (.map ref) key = (store.getKey? ref key).elim (.error (.keyNotFound (store.text key))) .ok :=
  index_of_eq_map rfl key

section Map

variable {ref : Ref .map} (hexists : store.Has (.map ref))

include hexists

/-- A change of the table of a map is seen at the map. -/
theorem table_of_change (change : Table Value Value → Table Value Value) :
    (store.changeTable ref change).table ref = change (store.table ref) :=
  getD_modify_of_lt (mem_containers_iff.mp (hexists _ rfl)) _ _

/-- The keys of a map after a value is stored under a key. -/
theorem mem_keys_assigned {other : Value}
    (h : other ∈ ((store.changeTable ref (·.insert store.keyRule key value)).table ref).keys) :
    other ∈ (store.table ref).keys ∨ other = key := by
  rw [table_of_change hexists] at h
  have hall : (store.table ref).All fun other _ => other ∈ (store.table ref).keys ∨ other = key :=
    fun slot hslot => .inl (List.mem_map_of_mem hslot)
  exact (hall.insert store.keyRule (.inr rfl)).keys h

variable (hkeys : store.MapKeys among) (hsound : (store.table ref).Sound store.keyRule)
  (hamong : ∀ key ∈ (store.table ref).keys, among key) (hkey : among key)
  (hreaches : store.reaches key (.map ref) = false)

include hkeys hsound hamong hkey hreaches

/-- What is found, after a value is stored under a key, for keys that do not reach the map. -/
theorem getKey?_assigned {other : Value} (hother : among other)
    (hfar : store.reaches other (.map ref) = false) :
    (store.changeTable ref (·.insert store.keyRule key value)).getKey? ref other =
      if store.equal key other = true then some value else store.getKey? ref other := by
  have hreads := (spares_changeTable store ref (·.insert store.keyRule key value)).readsAlike
  have hafter : ∀ other ∈ ((store.changeTable ref (·.insert store.keyRule key value)).table ref).keys,
      store.reaches other (.map ref) = false := by
    intro other hother
    rcases mem_keys_assigned hexists hother with hold | rfl
    · exact hkeys.not_reaches hamong hold
    · exact hreaches
  have hslots : ∀ slot ∈ (store.table ref).slots, among slot.key :=
    fun slot hslot => hamong _ (Table.key_mem hslot)
  have hfind := hsound.find?_insert hkeys.toKeyUniverse.lawful_rule.toCoherent hslots hkey hother value
  rw [getKey?, hreads.get?_eq hafter hfar, table_of_change hexists, Table.get?, hfind]
  show Option.map _ (if store.equal key other = true then _ else _) = _
  split <;> rfl

/-- Inserting a key updates the map at the key. -/
theorem updates_map :
    store.Updates among (.map ref) key value (store.changeTable ref (·.insert store.keyRule key value)) := by
  have hfound : ∀ {other : Value}, among other → store.reaches other (.map ref) = false →
      (store.changeTable ref (·.insert store.keyRule key value)).getKey? ref other =
        if store.equal key other = true then some value else store.getKey? ref other :=
    fun hother hfar => getKey?_assigned hexists hkeys hsound hamong hkey hreaches hother hfar
  have hreads := (spares_changeTable store ref (·.insert store.keyRule key value)).readsAlike
  have hcount : ((store.table ref).insert store.keyRule key value).count =
      if (store.getKey? ref key).isSome then (store.table ref).count else (store.table ref).count + 1 := by
    rw [getKey?, Table.get?, Option.isSome_map]
    exact (store.table ref).count_insert key value
  constructor
  case assigned =>
    rw [index_map, hfound hkey hreaches, if_pos (hkeys.refl key hkey), Option.elim_some]
  case others =>
    intro other hdiffers hother
    obtain ⟨hother, hlater⟩ := hother ref rfl
    -- a key that reaches the map reads otherwise afterwards, but no such key is stored in it
    cases hfar : store.reaches other (.map ref) with
    | false =>
      left
      have hne : ¬ store.equal key other = true := by
        intro hequal
        refine hdiffers ⟨.map hequal, .map ?_⟩
        rw [hreads.equal key other hreaches hfar]
        exact hequal
      rw [index_map, index_map, hfound hother hfar, if_neg hne, hreads.text_eq hfar]
    | true =>
      right
      -- it is found neither before nor after
      have hafter : ∀ other ∈ ((store.changeTable ref (·.insert store.keyRule key value)).table ref).keys,
          among other := by
        intro other hother
        rcases mem_keys_assigned hexists hother with hold | rfl
        · exact hamong other hold
        · exact hkey
      refine ⟨hfar, ?_, ?_⟩
      · rw [index_map, hkeys.getKey?_of_reaches hamong hother hfar, Option.elim_none]
      · rw [index_map, (hlater hfar).getKey?_of_reaches hafter hother (reaches_changeTable _ hfar),
          Option.elim_none]
  case replaced =>
    rintro ⟨found, hread⟩
    rw [index_map] at hread
    cases hget : store.getKey? ref key with
    | none =>
      rw [hget] at hread
      cases hread
    | some old =>
      rw [length, length, table_of_change hexists, hcount, hget, Option.isSome_some, if_pos rfl]
  case added =>
    rintro ⟨error, hread⟩
    rw [index_map] at hread
    cases hget : store.getKey? ref key with
    | none =>
      refine ⟨_, rfl, ?_⟩
      rw [length, table_of_change hexists, hcount, hget, Option.isSome_none, if_neg Bool.false_ne_true]
    | some old =>
      rw [hget] at hread
      cases hread

end Map

/-! ## All containers -/

/-- An item can be assigned where it can be read, and that is at the positions from either end of the list. -/
theorem assignable_list_iff (ref : Ref .list) :
    ((∃ after, assignIndex (.list ref) key value position store = .ok () after) ↔
      ∃ found, store.index (.list ref) key = .ok found) ∧
    ((∃ found, store.index (.list ref) key = .ok found) ↔ ∃ raw, key.asInt = .ok raw ∧
      -((store.items ref).size : Int) ≤ raw.toInt ∧ raw.toInt < (store.items ref).size) := by
  rw [assignIndex_list, index_list, ← exists_slot_iff]
  cases slot key (store.items ref).size with
  | error error => simp [Except.map]
  | ok place => simp [Except.map]

/-- A failed assignment changes nothing. -/
theorem unchanged_of_error {stop : Stop}
    (h : assignIndex target key value position store = .error stop after) : after = store := by
  cases target with
  | list ref =>
    rw [assignIndex_list] at h
    cases hslot : slot key (store.items ref).size with
    | error error =>
      rw [hslot] at h
      cases h
      rfl
    | ok place =>
      rw [hslot] at h
      cases h
  | map ref =>
    rw [assignIndex_map] at h
    split at h
    · cases h
      rfl
    · cases h
  | object ref =>
    rw [assignIndex_object] at h
    cases hname : key.asString with
    | error error =>
      rw [hname] at h
      cases h
      rfl
    | ok name =>
      rw [hname] at h
      cases h
  | _ =>
    cases h
    rfl

/-- What an assignment leaves is updated at the key that was assigned to. -/
theorem updates_of_assigned (addressed : store.Addressed among target key)
    (h : assignIndex target key value position store = .ok () after) :
    store.Updates among target key value after := by
  cases addressed with
  | @list ref key hexists =>
    rw [assignIndex_list] at h
    cases hslot : slot key (store.items ref).size with
    | error error =>
      rw [hslot] at h
      cases h
    | ok place =>
      rw [hslot] at h
      cases h
      exact updates_list hexists hslot
  | @map ref key hexists hkeys hsound hamong hkey =>
    rw [assignIndex_map] at h
    cases hreaches : store.reaches key (.map ref) with
    | true =>
      rw [if_pos hreaches] at h
      cases h
    | false =>
      rw [hreaches, if_neg Bool.false_ne_true] at h
      cases h
      exact updates_map hexists hkeys hsound hamong hkey hreaches
  | @object ref key hexists =>
    rw [assignIndex_object] at h
    cases hname : key.asString with
    | error error =>
      rw [hname] at h
      cases h
    | ok name =>
      rw [hname] at h
      cases h
      exact updates_object hexists hname

/-- **Assigning and reading by index agree.** -/
theorem assignments_agree (store : Store) (among : Value → Prop) {target key : Value}
    (addressed : store.Addressed among target key) (value : Value) (position : Position) :
    (∀ ref, target = .list ref →
      ((∃ after, assignIndex target key value position store = .ok () after) ↔
        ∃ found, store.index target key = .ok found) ∧
      ((∃ found, store.index target key = .ok found) ↔ ∃ raw, key.asInt = .ok raw ∧
        -((store.items ref).size : Int) ≤ raw.toInt ∧ raw.toInt < (store.items ref).size)) ∧
    (∀ after, assignIndex target key value position store = .ok () after →
      store.Updates among target key value after) ∧
    ∀ stop after, assignIndex target key value position store = .error stop after → after = store := by
  refine ⟨?_, fun after h => updates_of_assigned addressed h, fun stop after h => unchanged_of_error h⟩
  rintro ref rfl
  exact assignable_list_iff ref

/-- A store with one map. -/
def mapStore (table : Table Value Value) : Store := { bare with maps := #[table] }

/-- The texts. -/
def isText (value : Value) : Prop := ∃ text, value = .string text

/-- Maps keyed by texts are well behaved in every store. -/
theorem mapKeys_texts (store : Store) : store.MapKeys isText := by
  apply (mapKeys_without_decimals store).mono
  rintro value ⟨text, rfl⟩
  exact .atom rfl nofun

/-- Texts are the same in all stores. -/
theorem spares_texts (before after : Store) : before.Spares after isText where
  same := by
    rintro value ⟨text, rfl⟩
    trivial
  held := by
    rintro value ⟨text, rfl⟩ part hpart
    cases hpart

/-- In a map with a text as its key a second text gets a value. -/
theorem assignments_agree_texts :
    let store := mapStore (Table.empty.insert bare.keyRule (.string "a") (.int 1))
    store.Addressed isText (.map ⟨0⟩) (.string "b") ∧
      ∃ after, assignIndex (.map ⟨0⟩) (.string "b") (.int 2) default store = .ok () after ∧
        store.Updates isText (.map ⟨0⟩) (.string "b") (.int 2) after := by
  have hlawful := (mapKeys_texts bare).toKeyUniverse.lawful_rule
  have hnone : ∀ slot ∈ (Table.empty : Table Value Value).slots, isText slot.key := by
    rw [Table.slots_empty]
    nofun
  have hsound := (Table.sound_empty.insert hlawful.toCoherent hnone ⟨"a", rfl⟩ (Value.int 1)).1
  have hkeys : (Table.empty.insert bare.keyRule (Value.string "a") (Value.int 1)).All
      fun key _ => isText key :=
    Table.all_empty.insert bare.keyRule ⟨"a", rfl⟩
  generalize Table.empty.insert bare.keyRule (Value.string "a") (Value.int 1) = table at hsound hkeys ⊢
  intro store
  have haddressed : store.Addressed isText (.map ⟨0⟩) (.string "b") := by
    apply Addressed.map
    case hexists =>
      rintro inner ⟨⟩
      exact mem_containers_iff.mpr Nat.zero_lt_one
    case hkeys => exact mapKeys_texts store
    case hsound =>
      have hreads := (spares_texts bare store).readsAlike
      exact (hreads.sound_iff fun key hkey => hkeys.keys hkey).mpr hsound
    case hamong => exact fun key hkey => hkeys.keys hkey
    case hkey => exact ⟨"b", rfl⟩
  have hassign : assignIndex (.map ⟨0⟩) (.string "b") (.int 2) default store = _ := assignIndex_map ⟨0⟩
  rw [if_neg (by simp [reaches, searchFrom, Value.container?])] at hassign
  exact ⟨haddressed, _, hassign, (assignments_agree store isText haddressed (.int 2) default).2.1 _ hassign⟩

/-! ## Keys that have been changed -/

/-- Two lists, the second of one text. -/
def keyListsStore : Store := { bare with lists := #[#[], #[.string "g"]] }

/-- The two lists and the texts. -/
def listOrText (value : Value) : Prop := value = .list ⟨0⟩ ∨ value = .list ⟨1⟩ ∨ isText value

/-- Five keys of a map, the first of which is the first list. -/
def fiveEntries : List (Value × Value) :=
  [(.list ⟨0⟩, .null), (.string "a", .null), (.string "b", .null), (.string "c", .null), (.string "d", .null)]

/-- The map of these keys. -/
def fiveKeyMap : Table Value Value :=
  fiveEntries.foldl (fun table entry => table.insert keyListsStore.keyRule entry.1 entry.2) Table.empty

theorem all_fiveKeyMap : fiveKeyMap.All fun key _ => listOrText key := by
  have hentries : ∀ entry ∈ fiveEntries, listOrText entry.1 := by simp [fiveEntries, listOrText, isText]
  unfold fiveKeyMap
  exact Table.all_foldl_insert Table.all_empty hentries

/-- A store with a map, after the first list has got the text as well. -/
def changedKeyStore (table : Table Value Value) : Store :=
  { keyListsStore with maps := #[table] }.changeItems ⟨0⟩ (·.push (.string "g"))

theorem table_changedKeyStore (table : Table Value Value) : (changedKeyStore table).table ⟨0⟩ = table := rfl

/-- Maps keyed by texts and by lists of texts are well behaved. -/
theorem mapKeys_listOrText (store : Store) (h : ∀ items ∈ store.lists, ∀ item ∈ items, isText item) :
    store.MapKeys listOrText := by
  apply (mapKeys_without_decimals store).mono
  have htext : ∀ value, isText value → store.Built (fun atom => ∀ x, atom ≠ .decimal x) value := by
    rintro value ⟨text, rfl⟩
    exact .atom rfl nofun
  have hlist : ∀ ref : Ref .list, store.Built (fun atom => ∀ x, atom ≠ .decimal x) (.list ref) :=
    built_list_of_storage fun items hitems item hitem => htext item (h items hitems item hitem)
  rintro value (rfl | rfl | hvalue)
  · exact hlist _
  · exact hlist _
  · exact htext value hvalue

/-- A text and a list never share a slot of a map. -/
theorem not_sameSlot_text_list {ref : Ref .map} {text : String} {other : Ref .list} :
    ¬ store.SameSlot (.map ref) (.string text) (.list other) := by
  intro h
  cases h with
  | map h => exact Bool.false_ne_true h

/-- **A key that has been changed may be found or not as the map is resized**, and so a value stored under
another key can change what is read. -/
theorem reading_moves_with_changed_key :
    let store := changedKeyStore fiveKeyMap
    ∃ after, assignIndex (.map ⟨0⟩) (.string "e") .null default store = .ok () after ∧
      store.Has (.map ⟨0⟩) ∧ store.MapKeys listOrText ∧ after.MapKeys listOrText ∧
      (∀ key ∈ (store.table ⟨0⟩).keys, listOrText key) ∧ listOrText (.string "e") ∧ listOrText (.list ⟨1⟩) ∧
      ¬ store.SameSlot (.map ⟨0⟩) (.string "e") (.list ⟨1⟩) ∧
      ¬ after.SameSlot (.map ⟨0⟩) (.string "e") (.list ⟨1⟩) ∧
      (∃ found, store.index (.map ⟨0⟩) (.list ⟨1⟩) = .ok found) ∧
      ∃ error, after.index (.map ⟨0⟩) (.list ⟨1⟩) = .error error := by
  have hfound : ((changedKeyStore fiveKeyMap).getKey? ⟨0⟩ (.list ⟨1⟩)).isSome = true := by decide +kernel
  have hnone : (((changedKeyStore fiveKeyMap).changeTable ⟨0⟩
      (·.insert (changedKeyStore fiveKeyMap).keyRule (.string "e") .null)).getKey? ⟨0⟩ (.list ⟨1⟩)).isNone =
        true := by decide +kernel
  have hall := all_fiveKeyMap
  -- from here on the map is any map of which this is known
  generalize fiveKeyMap = table at hfound hnone hall ⊢
  intro store
  have hassign : assignIndex (.map ⟨0⟩) (.string "e") .null default store = _ := assignIndex_map ⟨0⟩
  rw [if_neg (by simp [reaches, searchFrom, Value.container?])] at hassign
  have hlists : ∀ items ∈ store.lists, ∀ item ∈ items, isText item := by
    have hpushed : store.lists = #[#[.string "g"], #[.string "g"]] := rfl
    simp [hpushed, isText]
  refine ⟨_, hassign, ?_, mapKeys_listOrText _ hlists, mapKeys_listOrText _ hlists, ?_,
    .inr (.inr ⟨"e", rfl⟩), .inr (.inl rfl), not_sameSlot_text_list, not_sameSlot_text_list, ?found, ?missing⟩
  · rintro inner ⟨⟩
    exact mem_containers_iff.mpr Nat.zero_lt_one
  · intro key hkey
    rw [table_changedKeyStore] at hkey
    exact hall.keys hkey
  case found =>
    obtain ⟨found, hfound⟩ := Option.isSome_iff_exists.mp hfound
    rw [index_map, hfound]
    exact ⟨found, rfl⟩
  case missing =>
    rw [index_map, Option.isNone_iff_eq_none.mp hnone]
    exact ⟨_, rfl⟩

end Store

end Ckl
