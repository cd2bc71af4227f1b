import Ckl.Proofs.Value.Extension
import Ckl.Proofs.Value.OwnKey
import Ckl.Proofs.Value.Reachable
import Ckl.Proofs.Value.Reference

/-!
# Values that are left alone

A change of the store spares some values if what they hold, and the functions and syntax trees among them,
are in the store as before (`Store.Spares`). Nothing that is read of such values changes: neither their texts
and keys nor their equality and order (`Spares.readsAlike`), nor the part of a store that they span. So what is
found in tables by such keys is what was found before.

Storing a fresh value spares all values that exist, and a change of one map spares those that do not reach it.
-/

namespace Ckl.Store

open Collection (Table KeySet KeyRule)

variable {before after : Store} {among : Value → Prop}

/-- What a reference refers to is the same in both stores. -/
def SameAt (before after : Store) : Value → Prop
  | .list ref => after.items ref = before.items ref
  | .set ref => after.keySet ref = before.keySet ref
  | .map ref => after.table ref = before.table ref
  | .object ref => after.members ref = before.members ref
  | .func ref => after.function ref = before.function ref
  | .node ref => after.tree ref = before.tree ref
  | _ => True

/-- Some values, and all that they hold, are the same in both stores. -/
structure Spares (before after : Store) (among : Value → Prop) : Prop where
  same : ∀ value, among value → SameAt before after value
  held : ∀ value, among value → ∀ part ∈ before.held value, among part

/-- Some values read alike in both stores. -/
structure ReadsAlike (before after : Store) (among : Value → Prop) : Prop where
  chars : ∀ p, among p → after.chars p = before.chars p
  keyChars : ∀ p, among p → after.keyChars p = before.keyChars p
  equal : ∀ p q, among p → among q → after.equal p q = before.equal p q
  order : ∀ p q, among p → among q → after.order p q = before.order p q

/-- A value holds exactly what is listed as held by it. -/
theorem holds_iff_held {store : Store} {value part : Value} :
    store.Holds value part ↔ part ∈ store.held value := by
  rw [holds_iff, held]
  cases value.container? with
  | none => simp
  | some container => simp

/-! ## One level of each reading -/

section SameAt

variable {a b : Value} (ha : SameAt before after a)

include ha

/-- What is stored alike holds the same. -/
theorem SameAt.held_eq : after.held a = before.held a := by
  cases a with
  | list ref => exact congrArg Array.toList ha
  | set ref => exact congrArg Table.keys ha
  | map ref => exact congrArg (fun table => Table.entries table |>.flatMap fun entry => [entry.1, entry.2]) ha
  | object ref => exact congrArg Bindings.values ha
  | _ => rfl

/-- What is stored alike has the same text, given those of its parts. -/
theorem SameAt.textStep_eq (text : Value → List Char) (order : Value → Value → Ordering) :
    after.textStep text order a = before.textStep text order a := by
  cases a with
  | list ref => exact congrArg (fun items : Array Value => enclosed "[" "]" (items.toList.map text)) ha
  | set ref =>
    exact congrArg (fun set : KeySet Value => enclosed "<<" ">>" ((sortBy order set.keys).map text)) ha
  | map ref =>
    exact congrArg (fun table : Table Value Value =>
      enclosed "<<<" ">>>" ((sortBy (fun a b => order a.1 b.1) table.entries).map
        fun entry => text entry.1 ++ " => ".toList ++ text entry.2)) ha
  | object ref =>
    exact congrArg (fun members : Bindings Value =>
      enclosed "<*" "*>" (members.entries.map fun entry => entry.1.toList ++ '=' :: text entry.2)) ha
  | func ref => exact congrArg (fun function : Function => functionText function.name) ha
  | node ref => exact congrArg Source.Node.chars ha
  | _ => rfl

/-- What is stored alike has the same canonical text, given those of its parts. -/
theorem SameAt.keyStep_eq (key : Value → List Char) (order : Value → Value → Ordering) :
    after.keyStep key order a = before.keyStep key order a := by
  cases a with
  | object ref =>
    exact congrArg (fun members : Bindings Value =>
      enclosed "<*" "*>" ((sortBy (fun a b => compare a.1 b.1) members.entries).map
        fun entry => entry.1.toList ++ '=' :: key entry.2)) ha
  | int | decimal => rfl
  | _ => exact ha.textStep_eq key order

variable (hb : SameAt before after b)

include hb

/-- What is stored alike is equal to the same, given the equality of its parts. -/
theorem SameAt.equalStep_eq (equal : Value → Value → Bool) (key : Value → List Char) :
    after.equalStep equal key a b = before.equalStep equal key a b := by
  cases a with
  | list a =>
    cases b with
    | list b =>
      simp only [SameAt] at ha hb
      simp only [equalStep, ha, hb]
    | _ => rfl
  | set a =>
    cases b with
    | set b =>
      simp only [SameAt] at ha hb
      simp only [equalStep, ha, hb]
    | _ => rfl
  | map a =>
    cases b with
    | map b =>
      simp only [SameAt] at ha hb
      simp only [equalStep, ha, hb]
    | _ => rfl
  | object a =>
    cases b with
    | object b =>
      simp only [SameAt] at ha hb
      simp only [equalStep, ha, hb]
    | _ => rfl
  | _ => cases b <;> rfl

/-- What is stored alike is ordered alike, given the order of its parts. -/
theorem SameAt.orderStep_eq (order : Value → Value → Ordering) (equal : Value → Value → Bool)
    (text : Value → List Char) :
    after.orderStep order equal text a b = before.orderStep order equal text a b := by
  cases a with
  | list a =>
    cases b with
    | list b =>
      simp only [SameAt] at ha hb
      simp only [orderStep, ha, hb]
    | _ => rfl
  | _ => cases b <;> rfl

end SameAt

/-! ## The search -/

namespace Spares

variable (h : before.Spares after among)

include h

/-- The search from a value among those that read alike is the same. -/
theorem searchFrom_eq_of_bound (goal : Option Container) (bound : Nat) {value : Value} (hvalue : among value)
    (search : Search) :
    after.searchFrom goal bound search value = before.searchFrom goal bound search value := by
  induction bound generalizing search value with
  | zero => rfl
  | succ bound ih =>
    have hheld := (h.same value hvalue).held_eq
    have hparts := h.held value hvalue
    unfold searchFrom
    cases hcontainer : value.container? with
    | none => rfl
    | some container =>
      simp only [Store.held, hcontainer] at hheld hparts
      simp only [hheld]
      rw [List.foldl_ext _ _ _ fun search part hpart => ih (hparts part hpart) search]

/-- The search goes the same ways, though the numbers of containers may differ. -/
theorem search_eq (goal : Option Container) {value : Value} (hvalue : among value) :
    after.searchFrom goal (after.containerCount + 1) {} value =
      before.searchFrom goal (before.containerCount + 1) {} value := by
  let bound := max after.containerCount before.containerCount + 1
  have hafter : after.containerCount < bound := Nat.lt_succ_of_le (Nat.le_max_left _ _)
  have hbefore : before.containerCount < bound := Nat.lt_succ_of_le (Nat.le_max_right _ _)
  rw [(searching_searchFrom goal (Nat.lt_succ_self _)).eq hafter,
    (searching_searchFrom goal (Nat.lt_succ_self _)).eq hbefore]
  exact h.searchFrom_eq_of_bound goal bound hvalue {}

/-- The values reached from one that reads alike are as many. -/
theorem span_eq {value : Value} (hvalue : among value) : after.span value = before.span value := by
  simp only [span, spanned, h.search_eq none hvalue]

/-! ## The readings -/

/-- Down to every depth, values that are spared read alike. The induction is on the depth: the values that
they hold are spared too. -/
theorem readings_eq (depth : Nat) {a : Value} (ha : among a) :
    after.textAt depth a = before.textAt depth a ∧ after.keyAt depth a = before.keyAt depth a ∧
      ∀ b, among b → after.equalAt depth a b = before.equalAt depth a b ∧
        after.orderAt depth a b = before.orderAt depth a b := by
  induction depth generalizing a with
  | zero => exact ⟨rfl, rfl, fun _ _ => ⟨rfl, rfl⟩⟩
  | succ depth ih =>
    have htext : ∀ {v}, among v → ∀ p ∈ before.held v, after.textAt depth p = before.textAt depth p :=
      fun hv p hp => (ih (h.held _ hv p hp)).1
    have hkey : ∀ {v}, among v → ∀ p ∈ before.held v, after.keyAt depth p = before.keyAt depth p :=
      fun hv p hp => (ih (h.held _ hv p hp)).2.1
    have hequal : ∀ {v w}, among v → among w → ∀ p ∈ before.held v, ∀ q ∈ before.held w,
        after.equalAt depth p q = before.equalAt depth p q :=
      fun hv hw p hp q hq => ((ih (h.held _ hv p hp)).2.2 q (h.held _ hw q hq)).1
    have horder : ∀ {v w}, among v → among w → ∀ p ∈ before.held v, ∀ q ∈ before.held w,
        after.orderAt depth p q = before.orderAt depth p q :=
      fun hv hw p hp q hq => ((ih (h.held _ hv p hp)).2.2 q (h.held _ hw q hq)).2
    have htexts : ∀ {v}, among v → after.textAt (depth + 1) v = before.textAt (depth + 1) v :=
      fun hv => ((h.same _ hv).textStep_eq _ _).trans (textStep_congr (htext hv) (horder hv hv))
    refine ⟨htexts ha, ((h.same a ha).keyStep_eq _ _).trans (keyStep_congr (hkey ha) (horder ha ha)), ?_⟩
    intro b hb
    have hequals : after.equalAt (depth + 1) a b = before.equalAt (depth + 1) a b := by
      refine ((h.same a ha).equalStep_eq (h.same b hb) _ _).trans (equalStep_congr ?_ (hkey ha))
      exact fun p hp q hq => ⟨hequal ha hb p hp q hq, hequal hb ha q hq p hp⟩
    refine ⟨hequals, ((h.same a ha).orderStep_eq (h.same b hb) _ _ _).trans ?_⟩
    exact orderStep_congr (horder ha hb) hequals (htexts ha) (htexts hb)

/-- **Values that are left alone read as before.** -/
theorem readsAlike : before.ReadsAlike after among where
  chars p hp := by
    unfold chars
    rw [h.span_eq hp]
    exact (h.readings_eq _ hp).1
  keyChars p hp := by
    unfold keyChars
    rw [h.span_eq hp]
    exact (h.readings_eq _ hp).2.1
  equal p q hp hq := by
    unfold equal
    rw [h.span_eq hp, h.span_eq hq]
    exact ((h.readings_eq _ hp).2.2 q hq).1
  order p q hp hq := by
    unfold order
    rw [h.span_eq hp, h.span_eq hq]
    exact ((h.readings_eq _ hp).2.2 q hq).2

end Spares

/-! ## Keys that read alike -/

namespace ReadsAlike

variable (h : before.ReadsAlike after among)

include h

/-- Fewer values read alike as well. -/
theorem mono {fewer : Value → Prop} (hsub : ∀ p, fewer p → among p) : before.ReadsAlike after fewer where
  chars p hp := h.chars p (hsub p hp)
  keyChars p hp := h.keyChars p (hsub p hp)
  equal p q hp hq := h.equal p q (hsub p hp) (hsub q hq)
  order p q hp hq := h.order p q (hsub p hp) (hsub q hq)

/-- The text of a value is the same. -/
theorem text_eq {p : Value} (hp : among p) : after.text p = before.text p :=
  congrArg String.ofList (h.chars p hp)

/-- The canonical text of a value is the same. -/
theorem key_eq {p : Value} (hp : among p) : after.key p = before.key p :=
  congrArg String.ofList (h.keyChars p hp)

/-- The hash of a value is the same. -/
theorem hash_eq {p : Value} (hp : among p) : after.keyRule.hash p = before.keyRule.hash p :=
  congrArg Text.hash (h.key_eq hp)

section Tables

variable {ν : Type} {table : Table Value ν} (hkeys : ∀ key ∈ table.keys, among key)

include hkeys

/-- A table is sound for both stores or for none. -/
theorem sound_iff : table.Sound after.keyRule ↔ table.Sound before.keyRule := by
  constructor
  · intro hsound
    refine hsound.congr (fun key hk => h.hash_eq (hkeys key hk)) fun p hp q hq => ?_
    exact h.equal p q (hkeys p hp) (hkeys q hq)
  · intro hsound
    refine hsound.congr (fun key hk => (h.hash_eq (hkeys key hk)).symm) fun p hp q hq => ?_
    exact (h.equal p q (hkeys p hp) (hkeys q hq)).symm

/-- A key is found in the same slot. -/
theorem find?_eq {key : Value} (hkey : among key) :
    table.find? after.keyRule key = table.find? before.keyRule key :=
  Table.find?_congr (h.hash_eq hkey) fun slot hs => h.equal slot.key key (hkeys _ (Table.key_mem hs)) hkey

/-- A key is in the table for both stores or for none. -/
theorem contains_eq {key : Value} (hkey : among key) :
    table.contains after.keyRule key = table.contains before.keyRule key := by
  simp only [Table.contains, h.find?_eq hkeys hkey]

/-- A key has the same value. -/
theorem get?_eq {key : Value} (hkey : among key) :
    table.get? after.keyRule key = table.get? before.keyRule key := by
  simp only [Table.get?, h.find?_eq hkeys hkey]

end Tables

end ReadsAlike

/-! ## Changes that spare values -/

/-- A value that is no container exists. -/
theorem has_of_container? {store : Store} {value : Value} (h : value.container? = none) :
    store.Has value := by
  intro inner hinner
  cases h.symm.trans hinner

/-- What holds of everything stored, and of what counts as stored where nothing is, holds at every index. -/
theorem getD_of_forall {α : Type} {p : α → Prop} {storage : Array α} {default : α}
    (h : ∀ stored ∈ storage, p stored) (hdefault : p default) (index : Nat) :
    p (storage[index]?.getD default) := by
  cases hget : storage[index]? with
  | none => exact hdefault
  | some stored => exact h stored (Array.mem_of_getElem? hget)

/-- A list is built up if the items of all lists are. -/
theorem built_list_of_storage {store : Store} {p : Value → Prop}
    (h : ∀ items ∈ store.lists, ∀ item ∈ items, store.Built p item) (ref : Ref .list) :
    store.Built p (.list ref) := by
  apply Built.list
  intro item hitem
  have hitems : ∀ item ∈ store.items ref, store.Built p item :=
    getD_of_forall (p := fun items => ∀ item ∈ items, store.Built p item) h (by simp) ref.index
  exact hitems item (Array.mem_toList_iff.mp hitem)

/-- What the storages hold is all that is held. -/
theorem whole_of_storages {store : Store} (hlists : ∀ items ∈ store.lists, ∀ item ∈ items, store.Has item)
    (hsets : ∀ keys ∈ store.sets, ∀ key ∈ keys.keys, store.Has key)
    (hmaps : ∀ table ∈ store.maps, ∀ entry ∈ table.entries, store.Has entry.1 ∧ store.Has entry.2)
    (hobjects : ∀ members ∈ store.objects, ∀ value ∈ members.values, store.Has value) : store.Whole := by
  intro container value hvalue
  cases container with
  | list ref =>
    have hitems : ∀ item ∈ store.items ref, store.Has item :=
      getD_of_forall (p := fun items => ∀ item ∈ items, store.Has item) hlists (by simp) _
    exact hitems value (Array.mem_toList_iff.mp hvalue)
  | set ref =>
    have hkeys : ∀ key ∈ (store.keySet ref).keys, store.Has key :=
      getD_of_forall (p := fun keys : KeySet Value => ∀ key ∈ keys.keys, store.Has key) hsets
        (by simp [Table.keys, Table.slots_empty]) _
    exact hkeys value hvalue
  | map ref =>
    have hentries : ∀ entry ∈ (store.table ref).entries, store.Has entry.1 ∧ store.Has entry.2 :=
      getD_of_forall (p := fun table : Table Value Value =>
        ∀ entry ∈ table.entries, store.Has entry.1 ∧ store.Has entry.2) hmaps
        (by simp [Table.entries, Table.slots_empty]) _
    obtain ⟨entry, hentry, hpart⟩ := List.mem_flatMap.mp hvalue
    simp only [List.mem_cons, List.not_mem_nil, or_false] at hpart
    rcases hpart with rfl | rfl
    · exact (hentries entry hentry).1
    · exact (hentries entry hentry).2
  | object ref =>
    have hvalues : ∀ value ∈ (store.members ref).values, store.Has value :=
      getD_of_forall (p := fun members : Bindings Value => ∀ value ∈ members.values, store.Has value) hobjects
        (by simp [Bindings.values, Bindings.empty]) _
    exact hvalues value hvalue

/-- In a store that is whole the parts of a value exist. -/
theorem Has.part {store : Store} (hwhole : store.Whole) (value : Value) :
    ∀ part ∈ store.held value, store.Has part := by
  intro part hpart
  cases hcontainer : value.container? with
  | none =>
    simp only [held, hcontainer, List.not_mem_nil] at hpart
  | some container =>
    simp only [held, hcontainer] at hpart
    exact hwhole container part hpart

/-- Storing a fresh value leaves all values that exist alone. -/
theorem spares_place {store : Store} (hwhole : store.Whole) (fresh : Fresh) :
    store.Spares (store.place fresh).2 store.Has where
  same value hvalue := by
    have hextends := Extends.place store fresh
    cases value with
    | list ref => exact (hextends.items ref (mem_containers_iff.mp (hvalue _ rfl))).2
    | set ref => exact (hextends.keySet ref (mem_containers_iff.mp (hvalue _ rfl))).2
    | map ref => exact (hextends.table ref (mem_containers_iff.mp (hvalue _ rfl))).2
    | object ref => exact (hextends.members ref (mem_containers_iff.mp (hvalue _ rfl))).2
    | func | node => cases fresh <;> rfl
    | _ => trivial
  held value _ := Has.part hwhole value

/-- A change of a map is one of that map alone. -/
theorem sameAt_changeTable (store : Store) {ref : Ref .map} (change : Table Value Value → Table Value Value)
    {value : Value} (h : value ≠ .map ref) : SameAt store (store.changeTable ref change) value := by
  cases value with
  | map other => exact getD_modify_of_ne (index_ne_of_ne fun heq => h (congrArg Value.map heq))
  | _ => first | rfl | trivial

/-- A change of a map leaves those values alone that do not reach it. -/
theorem spares_changeTable (store : Store) (ref : Ref .map)
    (change : Table Value Value → Table Value Value) :
    store.Spares (store.changeTable ref change) fun value => store.reaches value (.map ref) = false where
  same value hvalue := by
    apply sameAt_changeTable
    rintro rfl
    exact not_spans_of_reaches hvalue rfl rfl .refl
  held value hvalue part hpart := by
    rw [← Bool.not_eq_true]
    intro hreaches
    obtain ⟨hmap, hway⟩ := (reaches_iff store part (.map ref)).2.mp hreaches
    have hvalue' : store.reaches value (.map ref) = true :=
      (reaches_iff store value (.map ref)).2.mpr ⟨hmap, .head (holds_iff_held.mpr hpart) hway⟩
    cases hvalue.symm.trans hvalue'

/-- What reaches a map reaches it still after a change of it: the way to the map leads by other containers. -/
theorem reaches_changeTable {store : Store} {ref : Ref .map} (change : Table Value Value → Table Value Value)
    {value : Value} (h : store.reaches value (.map ref) = true) :
    (store.changeTable ref change).reaches value (.map ref) = true := by
  obtain ⟨hmap, hway⟩ := (reaches_iff store value (.map ref)).2.mp h
  apply (reaches_iff _ value (.map ref)).2.mpr
  refine ⟨hmap, ?_⟩
  clear h
  induction hway using Relation.ReflTransGen.head_induction_on with
  | refl => exact .refl
  | @head value part hstep _ ih =>
    by_cases heq : value = .map ref
    · rw [heq]
    · refine .head (holds_iff_held.mpr ?_) ih
      rw [(sameAt_changeTable store change heq).held_eq]
      exact holds_iff_held.mp hstep

end Ckl.Store
