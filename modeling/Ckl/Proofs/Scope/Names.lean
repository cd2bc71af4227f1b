import Ckl.Proofs.Run.Call

/-!
# The names of frames

Evaluating a node binds and removes names in one frame only, the one in which the node is evaluated. In
every other frame that exists the same names are bound in the same order afterwards, however the
evaluation ends: assignments change what names are bound to, and whatever else is evaluated on the way
(bodies of functions, texts, elements of comprehensions, modules) has a frame of its own that is new.
A call leaves the names of all frames as they are, those of the caller's frame among them.
-/

namespace Ckl

open Source (Position Node Argument Comprehension)

namespace Bindings

variable {α : Type}

/-- A name that is bound keeps its place when it is bound anew. -/
theorem names_put_of_binds {bindings : Bindings α} {name : String} (h : bindings.binds name = true)
    (value : α) : (bindings.put name value).names = bindings.names := by
  simp only [put, h, dif_pos]
  exact names_replaceIn name value bindings.entries

end Bindings

/-- Frames are told by their numbers. -/
theorem FrameRef.eq_of_index {a b : FrameRef} (h : a.index = b.index) : a = b := by
  cases a
  cases b
  exact congrArg FrameRef.mk h

namespace Store

variable {store after : Store}

/-! ## Frames after changes of the store -/

/-- What frames are depends on the storage of frames alone. -/
theorem frame_of_frames (h : after.frames = store.frames) (ref : FrameRef) :
    after.frame ref = store.frame ref := by
  simp only [frame, h]

@[simp]
theorem size_changeBindings (ref : FrameRef) (change : Bindings Value → Bindings Value) :
    (store.changeBindings ref change).frames.size = store.frames.size := by
  simp only [changeBindings, Array.size_modify]

@[simp]
theorem size_changeRegistry (ref : FrameRef) (change : Registry → Registry) :
    (store.changeRegistry ref change).frames.size = store.frames.size := by
  simp only [changeRegistry, Array.size_modify]

@[simp]
theorem size_enter (frame : FrameRef) (bindings : Bindings Value) :
    (store.enter frame bindings).2.frames.size = store.frames.size + 1 := by
  simp only [enter, placeFrame, Array.size_push]

@[simp]
theorem enter_fst (frame : FrameRef) (bindings : Bindings Value) :
    (store.enter frame bindings).1 = ⟨store.frames.size⟩ := rfl

/-- The bindings of other frames are not changed, -/
theorem frame_changeBindings_of_ne {ref other : FrameRef} (h : other ≠ ref)
    (change : Bindings Value → Bindings Value) :
    (store.changeBindings ref change).frame other = store.frame other := by
  have hindex : ref.index ≠ other.index := fun heq => h (FrameRef.eq_of_index heq.symm)
  simp only [frame, changeBindings, Array.getElem?_modify, if_neg hindex]

/-- and those of the frame itself are. -/
theorem frame_changeBindings {ref : FrameRef} (h : ref.index < store.frames.size)
    (change : Bindings Value → Bindings Value) :
    (store.changeBindings ref change).frame ref =
      { store.frame ref with bindings := change (store.frame ref).bindings } := by
  simp only [frame, changeBindings, Array.getElem?_modify, if_pos, Array.getElem?_eq_getElem h,
    Option.map_some, Option.getD_some]

/-- What is said of all values that are bound stays true if it is true of those in the changed frame. -/
theorem forall_values_changeBindings {among : Value → Prop} {ref : FrameRef}
    {change : Bindings Value → Bindings Value}
    (h : ∀ other, ∀ value ∈ (store.frame other).bindings.values, among value)
    (hchange : ∀ value ∈ (change (store.frame ref).bindings).values, among value) (other : FrameRef) :
    ∀ value ∈ ((store.changeBindings ref change).frame other).bindings.values, among value := by
  intro value hvalue
  by_cases heq : other = ref
  · subst heq
    by_cases hlt : other.index < store.frames.size
    · rw [frame_changeBindings hlt] at hvalue
      exact hchange value hvalue
    · have hnone : (store.changeBindings other change).frame other = default := by
        rw [frame, Array.getElem?_eq_none (by simpa using hlt), Option.getD_none]
      rw [hnone] at hvalue
      cases hvalue
  · rw [frame_changeBindings_of_ne heq] at hvalue
    exact h other value hvalue

theorem bindings_changeRegistry (ref other : FrameRef) (change : Registry → Registry) :
    ((store.changeRegistry ref change).frame other).bindings = (store.frame other).bindings := by
  simp only [frame, changeRegistry, Array.getElem?_modify]
  split
  · cases store.frames[other.index]? <;> rfl
  · rfl

/-- Frames that exist are as before when one is entered. -/
theorem frame_enter_of_lt {ref : FrameRef} (h : ref.index < store.frames.size) (frame : FrameRef)
    (bindings : Bindings Value) : (store.enter frame bindings).2.frame ref = store.frame ref := by
  simp only [Store.frame, enter, placeFrame, Array.getElem?_push, if_neg (Nat.ne_of_lt h)]

/-! ## Names that are kept -/

/-- Every frame that exists, except for the scope, binds the same names in the same order. -/
structure KeepsNames (store after : Store) (scope : Option FrameRef) : Prop where
  grows : store.frames.size ≤ after.frames.size
  names : ∀ ref : FrameRef, ref.index < store.frames.size → some ref ≠ scope →
    (after.frame ref).bindings.names = (store.frame ref).bindings.names

namespace KeepsNames

variable {scope : Option FrameRef}

/-- A store keeps its own names. -/
theorem refl (store : Store) : store.KeepsNames store scope := ⟨Nat.le_refl _, fun _ _ _ => rfl⟩

/-- Names that are kept twice are kept. -/
theorem trans {middle : Store} (h : store.KeepsNames middle scope)
    (hafter : middle.KeepsNames after scope) : store.KeepsNames after scope where
  grows := Nat.le_trans h.grows hafter.grows
  names ref hexists hne :=
    (hafter.names ref (Nat.lt_of_lt_of_le hexists h.grows) hne).trans (h.names ref hexists hne)

/-- What does not touch frames keeps all names. -/
theorem of_frames (h : after.frames = store.frames) : store.KeepsNames after scope where
  grows := Nat.le_of_eq (congrArg Array.size h.symm)
  names ref _ _ := by rw [frame_of_frames h]

/-- The names of a frame are changed within its scope. -/
theorem changeBindings (frame : FrameRef) (change : Bindings Value → Bindings Value) :
    store.KeepsNames (store.changeBindings frame change) (some frame) where
  grows := by simp
  names ref _ hne := by
    rw [frame_changeBindings_of_ne]
    exact fun heq => hne (congrArg some heq)

/-- A name that is bound already is bound in its place. -/
theorem define {owner : FrameRef} {name : String}
    (h : (store.frame owner).bindings.binds name = true) (value : Value) :
    store.KeepsNames (store.define owner name value) scope where
  grows := by simp [Store.define]
  names ref hexists _ := by
    unfold Store.define
    by_cases heq : ref = owner
    · subst heq
      rw [frame_changeBindings hexists]
      exact Bindings.names_put_of_binds h value
    · rw [frame_changeBindings_of_ne heq]

/-- Registries hold no names of frames. -/
theorem changeRegistry (ref : FrameRef) (change : Registry → Registry) :
    store.KeepsNames (store.changeRegistry ref change) scope where
  grows := by simp
  names other _ _ := by rw [bindings_changeRegistry]

/-- Whatever is done to the names of a new frame, the frames that were there keep theirs. -/
theorem enter {frame : FrameRef} {bindings : Bindings Value}
    (h : (store.enter frame bindings).2.KeepsNames after (some (store.enter frame bindings).1)) :
    store.KeepsNames after scope where
  grows := by
    have := h.grows
    simp only [size_enter] at this
    omega
  names ref hexists _ := by
    have hnew : ref ≠ ⟨store.frames.size⟩ := fun heq => by
      rw [heq] at hexists
      exact Nat.lt_irrefl _ hexists
    rw [h.names ref (by simp only [size_enter]; omega) (by simpa using hnew),
      frame_enter_of_lt hexists]

end KeepsNames

end Store

/-! ## Where work ends -/

namespace Run

variable {α β : Type}

/-- The store in which work ends, however it ends. -/
def after (work : Run α) (store : Store) : Store := endOf (work store)

/-- Where work ends, and the work behind it. -/
theorem after_bind (work : Run α) (next : α → Run β) (store : Store) :
    (work >>= next).after store =
      match work store with
      | .ok value middle => (next value).after middle
      | .error _ after => after := by
  show endOf (EStateM.bind work next store) = _
  unfold EStateM.bind
  cases work store <;> rfl

theorem after_attempt (work : Run α) (store : Store) :
    (attempt work).after store = work.after store := by
  unfold after attempt
  match work store with
  | .ok value after => rfl
  | .error (.failed failure) after => rfl
  | .error .exhausted after => rfl
  | .error (.awaiting path) after => rfl

/-- Wherever it is begun, the work keeps the names of all frames but the scope. -/
def KeepsNames (scope : Option FrameRef) (work : Run α) : Prop :=
  ∀ store : Store, store.KeepsNames (work.after store) scope

variable {scope : Option FrameRef}

/-- To give something keeps all names, -/
theorem keepsNames_pure (a : α) : KeepsNames scope (pure a : Run α) := fun store => .refl store

/-- and so does a failure -/
theorem keepsNames_stop (failure : Failure) : KeepsNames scope (stop failure : Run α) :=
  fun store => .refl store

/-- and a question about the store. -/
theorem keepsNames_read (question : Store → α) : KeepsNames scope (read question) :=
  fun store => .refl store

/-- Work that keeps names, and work behind it that does. -/
theorem KeepsNames.bind {work : Run α} {next : α → Run β} (h : KeepsNames scope work)
    (hnext : ∀ a, KeepsNames scope (next a)) : KeepsNames scope (work >>= next) := by
  intro store
  have hwork := h store
  rw [after_bind]
  unfold after at hwork
  cases hend : work store with
  | ok value middle =>
    rw [hend] at hwork
    exact hwork.trans (hnext value middle)
  | error stop after =>
    rw [hend] at hwork
    exact hwork

theorem KeepsNames.attempt {work : Run α} (h : KeepsNames scope work) :
    KeepsNames scope (attempt work) := by
  intro store
  rw [after_attempt]
  exact h store

theorem keepsNames_conclude (outcome : Except Failure α) : KeepsNames scope (conclude outcome) := by
  cases outcome with
  | ok value => exact keepsNames_pure value
  | error failure => exact keepsNames_stop failure

/-- An assignment is made in a frame that binds the name, or it fails. -/
theorem assign_cases (frame : FrameRef) (name : String) (value : Value) (position : Position)
    (store : Store) :
    (∃ owner, (store.frame owner).bindings.binds name = true ∧
      assign frame name value position store = .ok () (store.define owner name value)) ∨
    assign frame name value position store =
      .error (.failed (.runtime (.undefinedName name) position)) store := by
  rw [assign, read_bind]
  cases howner : store.owner? frame name with
  | none => exact .inr rfl
  | some owner =>
    have hbinds : (store.frame owner).bindings.binds name = true :=
      List.find?_some (p := fun ref => (store.frame ref).bindings.binds name) howner
    exact .inl ⟨owner, hbinds, rfl⟩

/-- An assignment binds a name that its owner binds already. -/
theorem keepsNames_assign (frame : FrameRef) (name : String) (value : Value) (position : Position) :
    KeepsNames scope (assign frame name value position) := by
  intro store
  obtain ⟨owner, hbinds, hassign⟩ | hassign := assign_cases frame name value position store
  · rw [after, hassign]
    exact .define hbinds value
  · rw [after, hassign]
    exact .refl store

/-- A new frame is nobody else's, so that names may be bound in it. -/
theorem keepsNames_enter (frame : FrameRef) (bindings : Bindings Value) {next : FrameRef → Run β}
    (h : ∀ inner, KeepsNames (some inner) (next inner)) :
    KeepsNames scope (enter frame bindings >>= next) := by
  intro store
  rw [after_bind]
  exact .enter (h _ _)

theorem keepsNames_changeRegistry (root : FrameRef) (change : Registry → Registry) :
    KeepsNames scope (modify (·.changeRegistry root change) : Run Unit) :=
  fun _ => .changeRegistry root change

/-- Scripts and bodies end without touching frames. -/
theorem keepsNames_finish (position : Position) {work : Eval Value}
    (h : KeepsNames scope work.run) : KeepsNames scope (finish position work) := by
  refine KeepsNames.bind h fun outcome => ?_
  match outcome with
  | .ok value => exact keepsNames_pure value
  | .error (.return value) => exact keepsNames_pure value
  | .error .break => exact keepsNames_stop _
  | .error .continue => exact keepsNames_stop _

section Modules

variable {evaluator : Evaluator}
  (he : ∀ node frame, KeepsNames (some frame) (evaluator.node node frame).run)

include he

/-- The text of a module is evaluated in a frame of its own. -/
theorem keepsNames_loadModule (root : FrameRef) (registry : Registry) (identifier file : String)
    (position : Position) :
    KeepsNames scope (loadModule evaluator root registry identifier file position) := by
  unfold loadModule
  split
  · exact keepsNames_pure _
  · refine KeepsNames.bind ?_ fun source => ?_
    · unfold moduleSource
      split
      · exact keepsNames_pure _
      · exact keepsNames_stop _
      · exact keepsNames_stop _
      · exact fun store => .refl store
    · split
      · exact keepsNames_stop _
      · refine keepsNames_enter root Bindings.empty fun frame => ?_
        refine (keepsNames_finish _ (he _ frame)).bind fun _ => ?_
        exact (keepsNames_changeRegistry root _).bind fun _ => keepsNames_pure frame

/-- The stack of loads is part of a registry. -/
theorem keepsNames_enterModule (frame : FrameRef) (identifier file : String) (position : Position) :
    KeepsNames scope (enterModule evaluator frame identifier file position) := by
  refine (keepsNames_read _).bind fun root => (keepsNames_read _).bind fun found => ?_
  split
  · exact keepsNames_stop _
  · split
    · exact keepsNames_stop _
    · refine (keepsNames_changeRegistry root _).bind fun _ => ?_
      refine (keepsNames_loadModule he root _ identifier file position).attempt.bind fun outcome => ?_
      exact (keepsNames_changeRegistry root _).bind fun _ => keepsNames_conclude outcome

end Modules

end Run

/-! ## Evaluation keeps names -/

/-- To keep the names of all frames but the scope is a discipline. -/
def namesKept : Discipline Unit where
  follows _ scope _ work := Run.KeepsNames scope (work ())
  admits _ _ := True
  suits _ := True
  gives a := Run.keepsNames_pure a
  andThen h hnext := h.bind hnext
  exhausts _ := .refl _
  stops _ := Run.keepsNames_stop _
  attempts h hnext := h.attempt.bind fun outcome => hnext outcome fun _ _ => trivial
  admits_error _ _ _ := trivial
  admits_raised _ _ _ _ := trivial
  admits_unreadable _ _ := trivial
  admits_leaving _ _ _ := trivial
  admits_inCall _ := trivial
  reads := Run.keepsNames_read
  aside h store := .of_frames (h store)
  binds frame change _ := .changeBindings frame change
  assigns := Run.keepsNames_assign
  enters frame bindings _ h := Run.keepsNames_enter frame bindings h
  modules _ he frame _ position := Run.keepsNames_enterModule (he false) frame _ _ position

/-- Evaluation keeps names, with every bound. -/
theorem namesKept_obeyed (bound : Nat) : namesKept.Obeyed fun _ => evaluator bound :=
  Discipline.obeyed_evaluator (fun _ => trivial) bound

/-- **Scopes are kept apart.** However an evaluation ends, every frame that existed before, other than
the one in which the node is evaluated, binds the same names in the same order. Calls, loads of modules
and all that a comprehension does once its source has been evaluated keep the names of all frames. -/
theorem names_kept_outside_scope (bound : Nat) (store : Store) :
    (∀ node frame,
      store.KeepsNames ((evaluate bound node frame).run.after store) (some frame)) ∧
    (∀ ref arguments frame position,
      store.KeepsNames ((call bound ref arguments frame position).after store) none) ∧
    (∀ frame identifier file position,
      store.KeepsNames
        ((enterModule (evaluator bound) frame identifier file position).after store) none) ∧
    ∀ (parts : Comprehension Node) frame position source before,
      (evaluate bound parts.source frame).run store = .ok (.ok source) before →
        before.KeepsNames
          ((evaluateComprehension (evaluator bound) parts frame position).run.after store) none := by
  have hobeyed := namesKept_obeyed bound
  refine ⟨fun node frame => hobeyed.node false node frame store,
    fun ref arguments frame position => hobeyed.call false none ref arguments frame position store,
    fun frame identifier file position =>
      Run.keepsNames_enterModule (hobeyed.node false) frame identifier file position store, ?_⟩
  intro parts frame position source before hsource
  have hgathering :=
    @Discipline.followsEval_gathering Unit namesKept false none _ hobeyed frame parts position source
  show before.KeepsNames (Run.after ((evaluate bound parts.source frame).run >>= _) store) none
  rw [Run.after_bind, hsource]
  exact hgathering before

/-- The comprehension `[def seen = x for x in [1]]`. -/
def definingComprehension : Comprehension Node where
  kind := .list
  element := .mk default (.define "seen" (.mk default (.name "x")))
  value := none
  binder := "x"
  source := .mk default (.list [.mk default (.literal (.int 1))])
  condition := none

/-- A store with one frame, which binds the name `x`. -/
def binderBound : Store where
  now := Calendar.Moment.midnight 0
  inputs := #[]
  outputs := #[]
  frames := #[{ bindings := Bindings.empty.put "x" (.int 7) }]

/-- The same store with the list that the comprehension takes its items from. -/
def binderBoundAndList : Store := { binderBound with lists := #[#[.int 1]] }

/-- The comprehension binds `x` and `seen` in a frame of its own, and the names of the other one stay. -/
theorem names_kept_outside_scope_defining :
    (evaluate 3 definingComprehension.source ⟨0⟩).run binderBound = .ok (.ok (.list ⟨0⟩)) binderBoundAndList ∧
      binderBoundAndList.KeepsNames
        ((evaluateComprehension (evaluator 3) definingComprehension ⟨0⟩ default).run.after binderBound) none ∧
      (((evaluateComprehension (evaluator 3) definingComprehension ⟨0⟩ default).run.after
        binderBound).frames[1]?.map (·.bindings.names)) = some ["x", "seen"] := by
  have hsource : (evaluate 3 definingComprehension.source ⟨0⟩).run binderBound =
      .ok (.ok (.list ⟨0⟩)) binderBoundAndList := rfl
  obtain ⟨-, -, -, hcomprehensions⟩ := names_kept_outside_scope 3 binderBound
  exact ⟨hsource, hcomprehensions definingComprehension ⟨0⟩ default _ _ hsource, rfl⟩

end Ckl
