import Ckl.Proofs.Collection.Mapped
import Ckl.Proofs.Run.Realm.Call
import Ckl.Proofs.Run.Realm.Module
import Ckl.Proofs.Session.Start
import Ckl.Proofs.Value.Moved

/-!
# Lists that exist

In an intact store every list exists to which something refers. Evaluation keeps stores intact, and what it
ends with refers to lists that exist, provided that host functions do not tell lists by their numbers: such
a function cannot make up a list.
-/

namespace Ckl

open Collection (Table KeySet)

namespace Store

variable {store after : Store} {value : Value}

/-- The value, if it is a list, exists. -/
def HasList (store : Store) (value : Value) : Prop :=
  ∀ ref, value = .list ref → ref.index < store.lists.size

/-- Every list exists that is held by a container or bound to a name. -/
structure Intact (store : Store) : Prop where
  parts : ∀ container, ∀ part ∈ store.parts container, store.HasList part
  bindings : ∀ ref, ∀ value ∈ (store.frame ref).bindings.values, store.HasList value
  hosts : ∀ host, Function.host host ∈ store.functions → host.Blind

/-! ## Numbers beyond all lists -/

/-- A list that exists keeps its number when those beyond are moved. -/
theorem HasList.moved (h : store.HasList value) : value.moved store.lists.size = value := by
  cases value with
  | list ref => simp only [Value.moved, Ref.moved, if_pos (h ref rfl)]
  | _ => rfl

/-- A value that keeps its number is no list beyond those that exist. -/
theorem hasList_of_moved (h : value.moved store.lists.size = value) : store.HasList value := by
  rintro ref rfl
  obtain ⟨index⟩ := ref
  simp only [Value.moved, Ref.moved, Value.list.injEq, Ref.mk.injEq] at h
  split at h
  · assumption
  · omega

/-- What exists goes on to exist while lists are added. -/
theorem HasList.later (h : store.HasList value) (hsize : store.lists.size ≤ after.lists.size) :
    after.HasList value :=
  fun ref heq => (h ref heq).trans_le hsize

/-! ## Changes of the store -/

namespace Intact

variable (h : store.Intact)

include h

/-- The containers may hold other lists that exist. -/
theorem contents (hsize : store.lists.size ≤ after.lists.size)
    (hparts : ∀ container, ∀ part ∈ after.parts container, after.HasList part)
    (hframes : after.frames = store.frames) (hfunctions : after.functions = store.functions) :
    after.Intact where
  parts := hparts
  bindings ref value hvalue := by
    rw [frame_of_frames hframes] at hvalue
    exact (h.bindings ref value hvalue).later hsize
  hosts := hfunctions ▸ h.hosts

/-- Something new is placed with parts that exist, and exists then. -/
theorem place {fresh : Fresh} (hparts : ∀ part ∈ fresh.parts, store.HasList part) :
    (store.place fresh).2.Intact ∧ (store.place fresh).2.HasList (store.place fresh).1 ∧
      store.lists.size ≤ (store.place fresh).2.lists.size := by
  have hsize : store.lists.size ≤ (store.place fresh).2.lists.size := by
    cases fresh with
    | list items => exact (Nat.le_succ _).trans_eq (Array.size_push _).symm
    | _ => exact Nat.le_refl _
  refine ⟨h.contents hsize (fun container part hpart => ?_) (by cases fresh <;> rfl)
    (by cases fresh <;> rfl), ?_, hsize⟩
  · rcases store.parts_place fresh container with hsame | hnew
    · exact (h.parts container part (hsame ▸ hpart)).later hsize
    · exact (hparts part (hnew ▸ hpart)).later hsize
  · cases fresh with
    | value stored => exact hparts stored (List.mem_singleton.mpr rfl)
    | list items =>
      rintro ref heq
      cases heq
      exact (Nat.lt_succ_self _).trans_eq (Array.size_push _).symm
    | _ => nofun

/-- Containers may be given values that exist. -/
theorem alters {container : Container} {added : List Value} (hadded : ∀ value ∈ added, store.HasList value)
    (halters : store.Alters after container added) : after.Intact := by
  have hsize := Nat.le_of_eq halters.lists.symm
  refine h.contents hsize (fun other part hpart => ?_) halters.frames halters.functions
  by_cases heq : other = container
  · subst heq
    rcases halters.parts part hpart with hold | hnew
    · exact (h.parts other part hold).later hsize
    · exact (hadded part hnew).later hsize
  · rw [(halters.others other heq).1] at hpart
    exact (h.parts other part hpart).later hsize

/-- Frames may be exchanged for ones that bind what exists. -/
theorem frames {frames : Array Frame}
    (hbindings : ∀ ref : FrameRef, ∀ value ∈ (frames[ref.index]?.getD default).bindings.values,
      store.HasList value) :
    { store with frames }.Intact where
  parts := h.parts
  bindings := hbindings
  hosts := h.hosts

/-- Bindings may be changed to values that exist. -/
theorem changeBindings {ref : FrameRef} {change : Bindings Value → Bindings Value}
    (hchange : ∀ value ∈ (change (store.frame ref).bindings).values, store.HasList value) :
    (store.changeBindings ref change).Intact :=
  h.frames (forall_values_changeBindings h.bindings hchange)

/-- A value that exists may be defined in any frame. -/
theorem define (ref : FrameRef) (name : String) (hvalue : store.HasList value) :
    (store.define ref name value).Intact :=
  h.changeBindings (Bindings.forall_values_put (h.bindings ref) hvalue)

/-- A name may be undefined in any frame. -/
theorem undefine (ref : FrameRef) (name : String) : (store.undefine ref name).Intact :=
  h.changeBindings fun value hvalue => by
    obtain ⟨entry, hentry, rfl⟩ := List.mem_map.mp hvalue
    exact h.bindings ref entry.2 (List.mem_map_of_mem (List.mem_of_mem_filter hentry))

/-- A frame may be made around values that exist. -/
theorem enter (ref : FrameRef) {bindings : Bindings Value}
    (hbindings : ∀ value ∈ bindings.values, store.HasList value) :
    (store.enter ref bindings).2.Intact :=
  h.frames fun other value hvalue => by
    rw [Array.getElem?_push] at hvalue
    split at hvalue
    · exact hbindings value hvalue
    · exact h.bindings other value hvalue

/-- An empty frame refers to nothing. -/
theorem enter_empty (ref : FrameRef) : (store.enter ref Bindings.empty).2.Intact :=
  h.enter ref fun _ hvalue => absurd hvalue List.not_mem_nil

/-- What is known of modules refers to no list. -/
theorem changeRegistry (ref : FrameRef) (change : Registry → Registry) :
    (store.changeRegistry ref change).Intact :=
  h.frames fun other value hvalue => by
    have hvalue : value ∈ ((store.changeRegistry ref change).frame other).bindings.values := hvalue
    rw [bindings_changeRegistry] at hvalue
    exact h.bindings other value hvalue

/-- A function of the script refers to no list by itself. -/
theorem placeLambda (definition : Source.Lambda Source.Node) (ref : FrameRef) :
    (store.placeFunction (.lambda definition ref)).2.Intact where
  parts := h.parts
  bindings := h.bindings
  hosts host hhost := by
    rcases Array.mem_push.mp hhost with hold | hnew
    · exact h.hosts host hold
    · cases hnew

/-- What a name is bound to exists. -/
theorem lookup? {ref : FrameRef} {name : String} (hvalue : store.lookup? ref name = some value) :
    store.HasList value := by
  obtain ⟨around, -, hvalue⟩ := List.exists_of_findSome?_eq_some hvalue
  exact h.bindings around value (Bindings.mem_values_of_get? hvalue)

end Intact

/-! ## A list more -/

/-- A list more, behind all the others, makes a twin of an intact store. -/
theorem Intact.twin (h : store.Intact) (items : Array Value) :
    Twin store.lists.size store (store.place (.list items)).2 where
  now := rfl
  gap_le := Nat.le_refl _
  size_lists := Array.size_push _
  lists ref := by
    show (store.lists.push items)[(ref.moved store.lists.size).index]? =
      store.lists[ref.index]?.map (Array.map (Value.moved store.lists.size))
    by_cases hlt : ref.index < store.lists.size
    -- what refers to no list beyond those that exist is not changed by the move
    · have hsame : store.lists[ref.index].map (Value.moved store.lists.size) = store.lists[ref.index] := by
        refine (Array.map_congr_left fun part hpart => ?_).trans (Array.map_id _)
        refine (h.parts (.list ref) part ?_).moved
        simpa [Store.parts, Store.items, hlt] using hpart
      rw [Ref.moved, if_pos hlt, Array.getElem?_push_lt hlt, Array.getElem?_eq_getElem hlt, Option.map_some,
        hsame]
    · rw [Ref.moved, if_neg hlt, Array.getElem?_eq_none (by simp; omega),
        Array.getElem?_eq_none (Nat.le_of_not_lt hlt), Option.map_none]
  sets := by
    refine ((Array.map_congr_left fun set hset => ?_).trans (Array.map_id store.sets)).symm
    obtain ⟨index, hlt, rfl⟩ := Array.getElem_of_mem hset
    have hset : store.keySet ⟨index⟩ = store.sets[index] := by simp [Store.keySet, hlt]
    refine Table.map_eq_self fun slot hslot => ⟨(h.parts (.set ⟨index⟩) slot.key ?_).moved, rfl⟩
    exact List.mem_map_of_mem (hset ▸ hslot)
  maps := by
    refine ((Array.map_congr_left fun table htable => ?_).trans (Array.map_id store.maps)).symm
    obtain ⟨index, hlt, rfl⟩ := Array.getElem_of_mem htable
    have htable : store.table ⟨index⟩ = store.maps[index] := by simp [Store.table, hlt]
    have hall : store.maps[index].All fun key value => store.HasList key ∧ store.HasList value :=
      Fresh.forall_parts_map.mp fun part hpart => h.parts (.map ⟨index⟩) part (by rwa [← htable] at hpart)
    exact Table.map_eq_self fun slot hslot => ⟨(hall slot hslot).1.moved, (hall slot hslot).2.moved⟩
  objects := by
    refine ((Array.map_congr_left fun members hmembers => ?_).trans (Array.map_id store.objects)).symm
    obtain ⟨index, hlt, rfl⟩ := Array.getElem_of_mem hmembers
    refine Bindings.map_eq_self fun value hvalue => (h.parts (.object ⟨index⟩) value ?_).moved
    simpa [Store.parts, Store.members, hlt] using hvalue
  functions := rfl
  inputs := rfl
  outputs := rfl
  nodes := rfl
  frames := by
    refine ((Array.map_congr_left fun frame hframe => ?_).trans (Array.map_id store.frames)).symm
    obtain ⟨index, hlt, rfl⟩ := Array.getElem_of_mem hframe
    have hbindings : store.frames[index].bindings.map (Value.moved store.lists.size) =
        store.frames[index].bindings := by
      refine Bindings.map_eq_self fun value hvalue => (h.bindings ⟨index⟩ value ?_).moved
      simpa [Store.frame, hlt] using hvalue
    rw [Frame.moved, hbindings]
    rfl
  hosts := h.hosts

end Store

/-! ## The realm -/

/-- The realm of lists that exist. -/
def intact : Realm where
  World := { store : Store // store.Intact }
  order := Preorder.lift fun w => w.1.lists.size
  store w := w.1
  keeps w
    | .list ref => ref.index < w.1.lists.size
    | _ => True
  calls _ _ := True
  runs _ function := ∀ host, function = .host host → host.Blind
  permits _ _ _ _ := True
  allows _ _ _ := True
  gathers _ _ _ := True
  awaits _ _ _ _ := True
  misses _ := True

namespace intact

variable {w w' : intact.World}

/-- To have a value is, here, that the list exists which it may be. -/
theorem has_iff {value : Value} : intact.has w value ↔ w.1.HasList value := by
  cases value with
  | list ref => exact ⟨fun h other heq => by cases heq; exact h, fun h => h ref rfl⟩
  | _ => exact ⟨fun _ _ => nofun, fun _ => trivial⟩

/-- Values that exist are had. -/
theorem all_have {values : List Value} (h : ∀ value ∈ values, intact.has w value) :
    ∀ value ∈ values, w.1.HasList value :=
  fun value hvalue => has_iff.mp (h value hvalue)

/-- A store that is intact is a later world, if it has as many lists. -/
theorem exists_later {after : Store} (h : after.Intact) (hsize : w.1.lists.size ≤ after.lists.size) :
    ∃ w' : intact.World, w ≤ w' ∧ intact.store w' = after :=
  ⟨⟨after, h⟩, hsize, rfl⟩

/-- A failure that keeps its numbers carries a value that exists. -/
theorem fails_of_moved {failure : Failure} (h : failure.moved w.1.lists.size = failure) :
    intact.fails w failure := by
  cases failure with
  | unreadable problem => trivial
  | diagnosed diagnostic =>
    obtain ⟨cause, position, trace⟩ := diagnostic
    cases cause with
    | fault cause => trivial
    | runtime error => exact fun _ _ => trivial
    | raised payload text =>
      have hcause := congrArg Diagnostic.cause (Failure.diagnosed.inj h)
      exact has_iff.mpr (Store.hasList_of_moved (Cause.raised.inj hcause).1)

/-- A host function that does not tell lists by their numbers gives what it has been given. -/
theorem attempts_host {host : HostFunction} (hblind : host.Blind) {arguments : Bindings Value}
    (harguments : ∀ value ∈ arguments.values, w.1.HasList value) (position : Source.Position) :
    intact.attempts intact.has w
      (host.run (fun ref => (w.1.items ref).toList) arguments position) := by
  have hitems : ∀ ref : Ref .list, (w.1.items (ref.moved w.1.lists.size)).toList =
      (w.1.items ref).toList.map (Value.moved w.1.lists.size) := by
    intro ref
    have hsame : (w.1.items ref).toList.map (Value.moved w.1.lists.size) = (w.1.items ref).toList :=
      (List.map_congr_left fun part hpart => (w.2.parts (.list ref) part hpart).moved).trans (List.map_id _)
    rw [hsame, Ref.moved]
    split
    · rfl
    · rename_i hge
      rw [Store.items, Store.items, Array.getElem?_eq_none (by simp only; omega),
        Array.getElem?_eq_none (Nat.le_of_not_lt hge)]
  have hrun := hblind w.1.lists.size (fun ref => (w.1.items ref).toList)
    (fun ref => (w.1.items ref).toList) arguments position hitems
  rw [Bindings.map_eq_self fun value hvalue => (harguments value hvalue).moved] at hrun
  cases hends : host.run (fun ref => (w.1.items ref).toList) arguments position with
  | ok value =>
    rw [hends] at hrun
    exact has_iff.mpr (Store.hasList_of_moved (Except.ok.inj hrun).symm)
  | error failure =>
    rw [hends] at hrun
    exact fails_of_moved (Except.error.inj hrun).symm

/-- Nothing is asked of what is called or loaded. -/
theorem opens : intact.Opens fun _ _ => True where
  knows_later _ _ _ _ _ := trivial
  fails_later := by
    intro w w' failure hle hfails
    match failure with
    | .diagnosed { cause := .raised _ _, .. } => exact has_iff.mpr ((has_iff.mp hfails).later hle)
    | .diagnosed { cause := .runtime _, .. } => exact fun _ _ => trivial
    | .diagnosed { cause := .fault _, .. } => trivial
    | .unreadable _ => trivial
  knows_loaded _ _ := trivial
  has_bound {w inner} _ value hvalue := has_iff.mpr (w.2.bindings inner value hvalue)
  marks w root _ := exists_later (w.2.changeRegistry root _) (Nat.le_refl _)
  keepsModule {w _} root _ _ := exists_later (w.2.changeRegistry root _) (Nat.le_refl _)
  enters {w root} _ :=
    have ⟨w', hle, hstore⟩ := exists_later (w := w) (w.2.enter_empty root) (Nat.le_refl _)
    ⟨w', hle, hstore, trivial, fun _ => trivial⟩

/-- Evaluation keeps stores intact. -/
theorem lawful : intact.Lawful where
  keeps_later {w w' container} hle h := by
    cases container with
    | list ref => exact Nat.lt_of_lt_of_le h hle
    | _ => trivial
  calls_later _ _ := trivial
  runs_later _ h := h
  permits_later _ _ := trivial
  allows_later _ _ := trivial
  gathers_later _ _ := trivial
  awaits_later _ _ := trivial
  has_part {w container} _ part hpart := has_iff.mpr (w.2.parts container part hpart)
  runs_function {w ref} _ _ := Store.host_of_function w.2.hosts
  allows_part _ _ _ := trivial
  permits_use _ _ _ _ := trivial
  permits_import _ _ := trivial
  has_peeked {w _ _ _} _ hvalue := has_iff.mpr (w.2.lookup? hvalue)
  has_looked {w _ _ _} _ hvalue := has_iff.mpr (w.2.lookup? hvalue)
  misses_looked _ _ := trivial
  assigns {w _ _ _ _} _ hvalue _ := exists_later (w.2.define _ _ (has_iff.mp hvalue)) (Nat.le_refl _)
  misses_assigned _ _ := trivial
  defines {w _ _ _} _ hvalue := exists_later (w.2.define _ _ (has_iff.mp hvalue)) (Nat.le_refl _)
  removes {w ref name} _ := exists_later (w.2.undefine ref name) (Nat.le_refl _)
  aside {w after} hsame := by
    have hsize := Nat.le_of_eq (congrArg Array.size hsame.lists.symm)
    refine exists_later (w.2.contents hsize (fun container part hpart => ?_) hsame.frames hsame.functions)
      hsize
    rw [hsame.parts] at hpart
    exact (w.2.parts container part hpart).later hsize
  places {w fresh} hparts := by
    obtain ⟨hintact, hhas, hsize⟩ := w.2.place (all_have hparts)
    exact ⟨⟨_, hintact⟩, hsize, rfl, has_iff.mpr hhas⟩
  alters {w after container added} _ hadded halters :=
    exists_later (w.2.alters (all_have hadded) halters) (Nat.le_of_eq halters.lists.symm)
  makes {w position definition frame} _ :=
    have ⟨w', hle, hstore⟩ := exists_later (w := w) (w.2.placeLambda definition frame) (Nat.le_refl _)
    ⟨w', hle, hstore, trivial⟩
  enters_gathering {w _ _ frame} _ :=
    have ⟨w', hle, hstore⟩ := exists_later (w := w) (w.2.enter_empty frame) (Nat.le_refl _)
    ⟨w', hle, hstore, trivial⟩
  binds_item {w _ _ _} _ hitem :=
    have ⟨w', hle, hstore⟩ := exists_later (w := w) (w.2.define _ _ (has_iff.mp hitem)) (Nat.le_refl _)
    ⟨w', hle, hstore, fun _ _ => trivial⟩
  enters_call {w _ made _} _ hbindings _ _ :=
    have ⟨w', hle, hstore⟩ := exists_later (w := w) (w.2.enter made (all_have hbindings)) (Nat.le_refl _)
    ⟨w', hle, hstore, trivial⟩
  awaits_bound _ _ := trivial
  allows_fallback _ _ := trivial
  binds_fallback {w _ _ _ _ _} _ hvalue :=
    have ⟨w', hle, hstore⟩ := exists_later (w := w) (w.2.define _ _ (has_iff.mp hvalue)) (Nat.le_refl _)
    ⟨w', hle, hstore, trivial⟩
  allows_body _ := trivial
  enters_eval {w frame} _ _ :=
    have ⟨w', hle, hstore⟩ := exists_later (w := w) (w.2.enter_empty frame) (Nat.le_refl _)
    ⟨w', hle, hstore, fun _ => trivial⟩
  hosts position hruns harguments := attempts_host (hruns _ rfl) (all_have harguments) position
  modules {_} [_] {_} he {_ _ _ _ _} specifier position _ := opens.promises_names he trivial _ _ position

end intact

/-- **Evaluation keeps stores intact**, however it ends. -/
theorem Store.Intact.endOf_evaluate {store : Store} (h : store.Intact) (bound : Nat) (node : Source.Node)
    (frame : FrameRef) : (endOf ((evaluate bound node frame).run store)).Intact := by
  let w : intact.World := ⟨store, h⟩
  have hallows : intact.allows w node frame := trivial
  obtain ⟨w', -, hends⟩ :=
    ((intact.lawful.kept (fun _ => id) bound).node hallows).exists_end fun _ _ => id
  have hend : w'.1 = endOf ((evaluate bound node frame).run store) := (hends ()).store
  rw [← hend]
  exact w'.2

/-- In the beginning there are no lists, and nothing refers to one. -/
theorem Session.intact_start (file : String) (resolve : String → Resolution) (input : List InputLine)
    (now : Calendar.Moment) : (start file resolve input now).store.Intact where
  parts container part hpart := by
    rw [parts_start] at hpart
    cases hpart
  bindings ref value hvalue := by
    rintro list rfl
    by_cases href : ref = ⟨0⟩
    · rw [href, bindings_base] at hvalue
      cases container?_baseBindings hvalue
    · rw [bindings_others file resolve input now href] at hvalue
      cases hvalue
  hosts host hhost := by
    obtain ⟨builtin, -, hbuiltin⟩ := List.mem_map.mp (List.mem_toArray.mp hhost)
    cases hbuiltin

end Ckl
