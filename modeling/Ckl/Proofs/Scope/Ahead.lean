import Ckl.Proofs.Module.Protocol
import Ckl.Proofs.Scope.Chain

/-!
# Names that are bound before a failure

Assigning the parts of a value to names and importing names of a module bind one name after the other, so
a failure leaves the names bound that come before the one that cannot be bound. `Store.BoundIn` says what
a store is after some names have been bound, each in its place: all other names in all frames are bound as
they were, and in the same order. With it `bound_before_failure` tells what a failure leaves: after a
definition nothing, after an assignment the names in front of the first one without a meaning, and after
an import those in front of the first one that the module does not show.
-/

namespace Ckl

open Source (Position Node)

/-- The second store is the first one with names bound in order, each in the frame that is its place. -/
structure Store.BoundIn (store after : Store) (place : String → Option FrameRef)
    (entries : List (String × Value)) : Prop where
  rest : after = { store with frames := after.frames }
  size : after.frames.size = store.frames.size
  frames : ∀ ref : FrameRef, ref.index < store.frames.size → after.frame ref =
    { store.frame ref with
      bindings := (store.frame ref).bindings.putAll
        (entries.filter fun entry => place entry.1 = some ref) }

namespace Store

variable {store after middle : Store} {frame owner : FrameRef} {name word : String} {value : Value}
  {place : String → Option FrameRef} {entries : List (String × Value)}

namespace BoundIn

theorem nil : store.BoundIn store place [] := ⟨rfl, rfl, fun _ _ => rfl⟩

/-- Binding a name in its place, and then the others. -/
theorem cons (hplace : place name = some owner)
    (h : (store.define owner name value).BoundIn after place entries) :
    store.BoundIn after place ((name, value) :: entries) where
  rest := h.rest
  size := h.size.trans (size_changeBindings owner _)
  frames ref hexists := by
    have hsize : (store.define owner name value).frames.size = store.frames.size :=
      size_changeBindings owner _
    rw [h.frames ref (hsize ▸ hexists)]
    by_cases heq : ref = owner
    · subst heq
      rw [define, frame_changeBindings hexists, List.filter_cons_of_pos (by simpa using hplace)]
      rfl
    · have hother : ¬ place name = some ref := fun hsome => heq (Option.some.inj (hsome.symm.trans hplace))
      rw [define, frame_changeBindings_of_ne heq, List.filter_cons_of_neg (by simpa using hother)]

end BoundIn

/-- A name is bound where it is bound already: the nearest frames that bind names stay the same. -/
theorem owner?_define (hbinds : (store.frame owner).bindings.binds name = true) (frame : FrameRef) :
    (store.define owner name value).owner? frame = store.owner? frame := by
  have hexists : owner.index < store.frames.size :=
    exists_of_getLocal? (binds_eq_isSome store owner name ▸ hbinds)
  have hchanged : store.ChangedAt (store.define owner name value) owner :=
    changedAt_changeBindings hexists _
  funext word
  have hsame : ∀ ref, ((store.define owner name value).frame ref).bindings.binds word =
      (store.frame ref).bindings.binds word := by
    intro ref
    by_cases heq : ref = owner
    · subst heq
      rw [bindings_define hexists, Bool.eq_iff_iff, Bindings.binds_iff, Bindings.binds_iff,
        Bindings.names_put_of_binds hbinds]
    · rw [hchanged.others ref heq]
  rw [owner?, owner?, hchanged.chain]
  simp only [hsame]

end Store

/-! ## Assigning and importing -/

variable {store : Store} {frame : FrameRef} {position : Position}

/-- Assigning to several names gives all of them their values, or those in front of the first one without
a meaning. -/
theorem assignAll_end (frame : FrameRef) (position : Position) (entries : List (String × Value))
    (store : Store) :
    (∃ after, assignAll frame position entries store = .ok () after ∧
      store.BoundIn after (store.owner? frame) entries) ∨
    ∃ front name value back after, entries = front ++ (name, value) :: back ∧
      (∀ entry ∈ front, (store.lookup? frame entry.1).isSome = true) ∧
      store.lookup? frame name = none ∧
      assignAll frame position entries store =
        .error (.failed (.runtime (.undefinedName name) position)) after ∧
      store.BoundIn after (store.owner? frame) front := by
  induction entries generalizing store with
  | nil => exact .inl ⟨store, rfl, .nil⟩
  | cons entry entries ih =>
    obtain ⟨name, value⟩ := entry
    have hcons : assignAll frame position ((name, value) :: entries) store =
        (Run.assign frame name value position >>= fun _ => assignAll frame position entries) store := rfl
    have hassign := @Run.assign_eq store frame name value position
    have hmeaning := @Store.isSome_owner?_eq store frame name
    rw [hcons]
    cases howner : store.owner? frame name with
    | none =>
      rw [howner] at hassign hmeaning
      have hnone : store.lookup? frame name = none := by simpa using hmeaning.symm
      exact .inr ⟨[], name, value, entries, store, rfl, nofun, hnone, Run.bind_of_error hassign, .nil⟩
    | some owner =>
      rw [howner] at hassign hmeaning
      have hbinds : (store.frame owner).bindings.binds name = true :=
        List.find?_some (p := fun ref => (store.frame ref).bindings.binds name) howner
      have hplaces : (store.define owner name value).owner? frame = store.owner? frame :=
        Store.owner?_define hbinds frame
      have hmeanings : ∀ word, ((store.define owner name value).lookup? frame word).isSome =
          (store.lookup? frame word).isSome := fun word => by
        rw [← Store.isSome_owner?_eq, ← Store.isSome_owner?_eq, hplaces]
      rw [Run.bind_of_ok hassign]
      rcases ih (store.define owner name value) with
        ⟨after, hend, hbound⟩ | ⟨front, word, element, back, after, rfl, hfront, hword, hend, hbound⟩
      · exact .inl ⟨after, hend, .cons howner (hplaces ▸ hbound)⟩
      · refine .inr ⟨(name, value) :: front, word, element, back, after, rfl,
          List.forall_mem_cons.mpr ⟨hmeaning.symm, fun entry hentry => ?_⟩, ?_, hend,
          .cons howner (hplaces ▸ hbound)⟩
        · rw [← hmeanings]
          exact hfront entry hentry
        · have hnone := hmeanings word
          rw [hword] at hnone
          simpa using hnone.symm

/-- A name of a module, under its alias, with the value that the module gives it. -/
def Imported (names : Bindings Value) (entry : String × String) (bound : String × Value) : Prop :=
  bound.1 = entry.2 ∧ names.get? entry.1 = some bound.2

/-- Importing binds all names that are listed, or those in front of the first one that is not there. -/
theorem importNames_bound (frame : FrameRef) (identifier : String) (names : Bindings Value)
    (position : Position) (listed : List (String × String)) (store : Store) :
    (∃ bound after, importNames frame identifier names position listed store = .ok () after ∧
      List.Forall₂ (Imported names) listed bound ∧ store.BoundIn after (fun _ => some frame) bound) ∨
    ∃ front entry back bound after, listed = front ++ entry :: back ∧
      List.Forall₂ (Imported names) front bound ∧ names.get? entry.1 = none ∧
      importNames frame identifier names position listed store =
        .error (.failed (.runtime (.noPublicName identifier entry.1) position)) after ∧
      store.BoundIn after (fun _ => some frame) bound := by
  induction listed generalizing store with
  | nil => exact .inl ⟨[], store, rfl, .nil, .nil⟩
  | cons entry listed ih =>
    cases hname : names.get? entry.1 with
    | none =>
      refine .inr ⟨[], entry, listed, [], store, rfl, .nil, hname, ?_, .nil⟩
      simp only [importNames, hname]
      rfl
    | some value =>
      have hcons : importNames frame identifier names position (entry :: listed) store =
          importNames frame identifier names position listed (store.define frame entry.2 value) := by
        simp only [importNames, hname]
        rfl
      rw [hcons]
      rcases ih (store.define frame entry.2 value) with
        ⟨bound, after, hend, hlisted, hbound⟩ |
          ⟨front, other, back, bound, after, rfl, hfront, hother, hend, hbound⟩
      · exact .inl ⟨(entry.2, value) :: bound, after, hend, .cons ⟨rfl, hname⟩ hlisted, hbound.cons rfl⟩
      · exact .inr ⟨entry :: front, other, back, (entry.2, value) :: bound, after, rfl,
          .cons ⟨rfl, hname⟩ hfront, hother, hend, hbound.cons rfl⟩

theorem partsFor_eq (names : List String) (value : Value) (position : Position) (store : Store) :
    partsFor names value position store =
      match store.destructure value names.length with
      | .ok elements => .ok (names.zip elements) store
      | .error error => .error (.failed (.runtime error position)) store := by
  rw [partsFor, Run.read_bind]
  cases store.destructure value names.length <;> rfl

/-! ## Statements that bind several names -/

section Statements

variable {bound : Nat} {names : List String} {source : Node} {value : Value} {moment : Store}
  (hsource : (evaluate bound source frame).run store = .ok (.ok value) moment)

include hsource

theorem evaluate_assignAll :
    (evaluate (bound + 1) (.mk position (.assignAll names source)) frame).run store =
      (partsFor names value position >>= fun entries =>
        assignAll frame position entries >>= fun _ => pure (.ok value)) moment := by
  show ((evaluate bound source frame).run >>= _) store = _
  rw [Run.bind_of_ok hsource]
  simp only [Discipline.run_lift_bind]
  rfl

theorem evaluate_defineAll :
    (evaluate (bound + 1) (.mk position (.defineAll names source)) frame).run store =
      (partsFor names value position >>= fun entries =>
        (modify (·.defineAll frame entries) : Run Unit) >>= fun _ => pure (.ok value)) moment := by
  show ((evaluate bound source frame).run >>= _) store = _
  rw [Run.bind_of_ok hsource]
  simp only [Discipline.run_lift_bind]
  rfl

end Statements

/-- Importing listed names of a module that is there. -/
theorem evaluate_import {bound : Nat} {module : Node} {listed : List (String × String)}
    {specifier : String} {inner : FrameRef} {moment : Store}
    (hspecifier : moduleSpecifier module frame store = .ok specifier store)
    (henter : enterModule (evaluator bound) frame (Source.Module.identifier specifier)
      (Source.Module.fileName specifier) position store = .ok inner moment) :
    (evaluate (bound + 1) (.mk position (.require module (.listed listed))) frame).run store =
      (importNames frame (Source.Module.identifier specifier)
        ((moment.frame inner).bindings.restrict isPublic) position listed >>= fun _ =>
          pure (.ok .null)) moment := by
  have hrequire : requireModule (evaluator bound) module (.listed listed) frame position store =
      bindModule frame (Source.Module.identifier specifier)
        ((moment.frame inner).bindings.restrict isPublic) position (.listed listed) moment := by
    show (moduleSpecifier module frame >>= _) store = _
    rw [Run.bind_of_ok hspecifier]
    exact Run.bind_of_ok henter
  show (requireModule (evaluator bound) module (.listed listed) frame position >>= fun value =>
    pure (Except.ok value)) store = _
  cases himport : importNames frame (Source.Module.identifier specifier)
    ((moment.frame inner).bindings.restrict isPublic) position listed moment with
  | ok result after =>
    rw [Run.bind_of_ok himport, Run.bind_of_ok (hrequire.trans (Run.bind_of_ok himport))]
  | error stop after =>
    rw [Run.bind_of_error himport, Run.bind_of_error (hrequire.trans (Run.bind_of_error himport))]

/-- **What a failure leaves bound.** When the source of a definition of several names has been evaluated and
the definition fails, nothing has changed. If an assignment to several names fails then, its value could not
be taken apart and nothing has changed, or just the names in front of the first one without a meaning have
their elements, in order, each in the nearest frame that bound it. If listed names of a module are imported
and this fails when the module is there, just the names in front of the first one that the module does not
show are bound, in order, under their aliases. Everything else is as it was. -/
theorem bound_before_failure (bound : Nat) (frame : FrameRef) (store : Store) :
    (∀ position names source value moment,
      (evaluate bound source frame).run store = .ok (.ok value) moment →
        (∀ stop after, (evaluate (bound + 1) (.mk position (.defineAll names source)) frame).run store =
          .error stop after → after = moment) ∧
        ∀ stop after, (evaluate (bound + 1) (.mk position (.assignAll names source)) frame).run store =
          .error stop after →
            (∃ error, moment.destructure value names.length = .error error ∧
              stop = .failed (.runtime error position) ∧ after = moment) ∨
            ∃ elements front name element back,
              moment.destructure value names.length = .ok elements ∧
              names.zip elements = front ++ (name, element) :: back ∧
              (∀ entry ∈ front, (moment.lookup? frame entry.1).isSome = true) ∧
              moment.lookup? frame name = none ∧
              stop = .failed (.runtime (.undefinedName name) position) ∧
              moment.BoundIn after (moment.owner? frame) front) ∧
    ∀ position module listed specifier inner moment,
      moduleSpecifier module frame store = .ok specifier store →
      enterModule (evaluator bound) frame (Source.Module.identifier specifier)
        (Source.Module.fileName specifier) position store = .ok inner moment →
      ∀ stop after,
        (evaluate (bound + 1) (.mk position (.require module (.listed listed))) frame).run store =
          .error stop after →
        let names := (moment.frame inner).bindings.restrict isPublic
        ∃ front entry back entries, listed = front ++ entry :: back ∧
          List.Forall₂ (Imported names) front entries ∧ names.get? entry.1 = none ∧
          stop = .failed (.runtime (.noPublicName (Source.Module.identifier specifier) entry.1)
            position) ∧
          moment.BoundIn after (fun _ => some frame) entries := by
  refine ⟨fun position names source value moment hsource => ⟨fun stop after hend => ?_,
    fun stop after hend => ?_⟩, fun position module listed specifier inner moment hspecifier henter
    stop after hend => ?_⟩
  -- a definition binds all names or none: once there are elements it does not fail
  · rw [evaluate_defineAll hsource] at hend
    have hparts := partsFor_eq names value position moment
    cases helements : moment.destructure value names.length with
    | error error =>
      rw [helements] at hparts
      rw [Run.bind_of_error hparts] at hend
      cases hend
      rfl
    | ok elements =>
      rw [helements] at hparts
      rw [Run.bind_of_ok hparts] at hend
      cases hend
  · rw [evaluate_assignAll hsource] at hend
    have hparts := partsFor_eq names value position moment
    cases helements : moment.destructure value names.length with
    | error error =>
      rw [helements] at hparts
      rw [Run.bind_of_error hparts] at hend
      cases hend
      exact .inl ⟨error, rfl, rfl, rfl⟩
    | ok elements =>
      rw [helements] at hparts
      rw [Run.bind_of_ok hparts] at hend
      -- an assignment stops at the first name without a meaning
      rcases assignAll_end frame position (names.zip elements) moment with
        ⟨last, hassign, -⟩ | ⟨front, name, element, back, last, hsplit, hfront, hname, hassign, hbound⟩
      · rw [Run.bind_of_ok hassign] at hend
        cases hend
      · rw [Run.bind_of_error hassign] at hend
        cases hend
        exact .inr ⟨elements, front, name, element, back, rfl, hsplit, hfront, hname, rfl, hbound⟩
  · intro names
    -- an import stops at the first name that is not public
    rcases importNames_bound frame (Source.Module.identifier specifier) names position listed moment with
      ⟨entries, last, himport, -⟩ |
      ⟨front, entry, back, entries, last, hsplit, hfront, hname, himport, hbound⟩
    · rw [evaluate_import hspecifier henter, Run.bind_of_ok himport] at hend
      cases hend
    · rw [evaluate_import hspecifier henter, Run.bind_of_error himport] at hend
      cases hend
      exact ⟨front, entry, back, entries, hsplit, hfront, hname, rfl, hbound⟩

/-- A store with one frame, which binds one name. -/
def oneName : Store where
  now := Calendar.Moment.midnight 0
  inputs := #[]
  outputs := #[]
  frames := #[{ bindings := Bindings.empty.putAll [("a", .int 1)] }]

/-- A list of two numbers. -/
def twoNumbers : Node :=
  .mk default (.list [.mk default (.literal (.int 2)), .mk default (.literal (.int 3))])

/-- The second name has no meaning, so the first one alone gets its number. -/
theorem bound_before_failure_first :
    ∃ moment stop after, (evaluate 3 twoNumbers ⟨0⟩).run oneName = .ok (.ok (.list ⟨0⟩)) moment ∧
      (evaluate 4 (.mk default (.assignAll ["a", "b"] twoNumbers)) ⟨0⟩).run oneName =
        .error stop after ∧
      moment.BoundIn after (moment.owner? ⟨0⟩) [("a", .int 2)] := by
  have hlaws := bound_before_failure 3 ⟨0⟩ oneName
  refine ⟨_, _, _, rfl, rfl, ?_⟩
  rcases (hlaws.1 default ["a", "b"] twoNumbers _ _ rfl).2 _ _ rfl with
    ⟨_, helements, -⟩ | ⟨elements, front, name, element, back, helements, hsplit, -, hname, -, hbound⟩
  · cases helements
  · cases helements
    match front, hsplit with
    | [], hsplit =>
      cases hsplit
      cases hname
    | [_], hsplit =>
      cases hsplit
      exact hbound
    | _ :: _ :: _, hsplit =>
      have hlength : 2 = _ := congrArg List.length hsplit
      simp only [List.length_append, List.length_cons] at hlength
      omega

/-- An assignment that fails has changed a name that it was to change. -/
theorem changed_before_failure :
    ∃ value moment stop after,
      (evaluate 3 twoNumbers ⟨0⟩).run oneName = .ok (.ok value) moment ∧
      (evaluate 4 (.mk default (.assignAll ["a", "b"] twoNumbers)) ⟨0⟩).run oneName =
        .error stop after ∧
      moment.getLocal? ⟨0⟩ "a" = some (.int 1) ∧ after.getLocal? ⟨0⟩ "a" = some (.int 2) :=
  ⟨_, _, _, _, rfl, rfl, rfl, rfl⟩

end Ckl
