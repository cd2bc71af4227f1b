import Ckl.Proofs.Run.Call
import Ckl.Proofs.Run.Rule

/-!
# Fair rules

Evaluation changes the store in many ways, but it never changes how modules are found. A rule that
depends on nothing else of the store, and that admits the failures of evaluation, is a discipline, so that
every evaluation follows it: `governsEvaluator`. Of the failures inside a call the rule need not admit more
than what is left of them when the call has been left.
-/

namespace Ckl

open Source (Position Node)

/-- The store has modules that are found in the given way. -/
def Store.Resolves (store : Store) (resolve : String → Resolution) : Prop :=
  ∃ ref, (store.frame ref).registry.map Registry.resolve = some resolve

/-- No modules are found otherwise than before. -/
def Store.KeepsModules (store after : Store) : Prop :=
  ∀ resolve, after.Resolves resolve → store.Resolves resolve

namespace Store

variable {store after : Store}

/-- With the same frames modules are resolved alike. -/
theorem keepsModules_of_frames (h : after.frames = store.frames) : store.KeepsModules after := by
  rintro resolve ⟨ref, href⟩
  refine ⟨ref, ?_⟩
  rwa [frame, h] at href

/-- A frame may be changed except for how it resolves modules. -/
theorem keepsModules_modify {index : Nat} {change : Frame → Frame}
    (h : ∀ frame, (change frame).registry.map Registry.resolve = frame.registry.map Registry.resolve) :
    store.KeepsModules { store with frames := store.frames.modify index change } := by
  rintro resolve ⟨ref, href⟩
  refine ⟨ref, ?_⟩
  rw [← href]
  simp only [frame, Array.getElem?_modify]
  split
  · cases store.frames[ref.index]? with
    | none => rfl
    | some frame => exact (h frame).symm
  · rfl

/-- Bindings have nothing to do with how modules are resolved. -/
theorem keepsModules_changeBindings (ref : FrameRef) (change : Bindings Value → Bindings Value) :
    store.KeepsModules (store.changeBindings ref change) :=
  keepsModules_modify fun _ => rfl

/-- A registry may be changed except for how it resolves modules. -/
theorem keepsModules_changeRegistry (ref : FrameRef) {change : Registry → Registry}
    (h : ∀ registry, (change registry).resolve = registry.resolve) :
    store.KeepsModules (store.changeRegistry ref change) := by
  refine keepsModules_modify fun frame => ?_
  cases frame.registry with
  | none => simp only [Option.map_none]
  | some registry => simp only [Option.map_some, h]

/-- A new frame resolves no modules by itself. -/
theorem keepsModules_enter (ref : FrameRef) (bindings : Bindings Value) :
    store.KeepsModules (store.enter ref bindings).2 := by
  rintro resolve ⟨inner, hinner⟩
  refine ⟨inner, ?_⟩
  rw [← hinner]
  simp only [enter, placeFrame, frame, Array.getElem?_push]
  split
  · -- the new frame has no modules
    next heq =>
      rw [frame, enter, placeFrame] at hinner
      simp only [Array.getElem?_push, heq, if_true] at hinner
      cases hinner
  · rfl

end Store

namespace Rule

variable {rule : Rule} {α : Type}

/-- A rule that depends on how modules are found, and on nothing else of the store. -/
def Lasting (rule : Rule) : Prop :=
  ∀ store after : Store, store.KeepsModules after → rule.holds store → rule.holds after

/-- A lasting rule that admits the failures of evaluation. -/
structure Fair (rule : Rule) : Prop where
  lasting : rule.Lasting
  errors : ∀ error position, rule.admits (.runtime error position)
  raised : ∀ payload text position,
    rule.admits (.diagnosed { cause := .raised payload text, position })
  unreadable : ∀ problem, rule.admits (.unreadable problem)
  /-- The faults of the texts of modules. -/
  modules : ∀ (store : Store) resolve file text fault, rule.holds store → store.Resolves resolve →
    resolve file = .found text → Source.readScript file text = .error fault →
    rule.admits (.ofFault fault)
  /-- Whatever leaves a call. -/
  leaving : ∀ (failure : Failure) call, rule.admits (failure.leaving call)

/-- A fair rule is fair inside of a call. -/
theorem Fair.within (h : rule.Fair) (inCall : Bool) : (rule.within inCall).Fair := by
  cases inCall with
  | false => exact h
  | true =>
    exact ⟨h.lasting, fun _ _ => trivial, fun _ _ _ => trivial, fun _ => trivial,
      fun _ _ _ _ _ _ _ _ _ => trivial, fun _ _ => trivial⟩

section Modules

variable (hfair : rule.Fair)

include hfair

/-- What keeps modules as they are is governed. -/
theorem governs_adding {change : Store → α × Store}
    (h : ∀ store : Store, store.KeepsModules (change store).2) :
    rule.Governs (modifyGet change : Run α) :=
  governs_modifyGet fun store hs => hfair.lasting store _ (h store) hs

/-- An assignment is governed. -/
theorem governs_assign (frame : FrameRef) (name : String) (value : Value) (position : Position) :
    rule.Governs (Run.assign frame name value position) := by
  refine governs_read.bind fun owner => ?_
  cases owner with
  | none => exact governs_stop (hfair.errors _ position)
  | some owner => exact governs_adding hfair fun _ => Store.keepsModules_changeBindings owner _

/-- The end of a call or a text is governed as its evaluation is. -/
theorem governs_finish (position : Position) {work : Eval Value} (h : rule.GovernsEval work) :
    rule.Governs (finish position work) := by
  refine Governs.bind h fun outcome => ?_
  match outcome with
  | .ok value => exact governs_pure
  | .error (.return value) => exact governs_pure
  | .error .break => exact governs_stop (hfair.errors _ _)
  | .error .continue => exact governs_stop (hfair.errors _ _)

/-- The text of a module is what its resolver finds. -/
theorem promises_moduleSource (registry : Registry) (file : String) (position : Position) :
    rule.Promises (registry.resolve file = .found ·) (moduleSource registry file position) := by
  unfold moduleSource
  split
  · next text heq => exact promises_pure heq
  · exact promises_stop (hfair.errors _ _)
  · exact promises_stop (hfair.unreadable _)
  · exact promises_awaiting

variable {evaluator : Evaluator} (he : ∀ node frame, rule.GovernsEval (evaluator.node node frame))

include he

/-- Loading a module is governed as the evaluation of its text is. -/
theorem governs_loadModule (root : FrameRef) {registry : Registry} {store : Store}
    (hs : rule.holds store) (hr : store.Resolves registry.resolve) (identifier file : String)
    (position : Position) :
    rule.Governs (loadModule evaluator root registry identifier file position) := by
  unfold loadModule
  split
  · exact governs_pure
  · refine Promises.bind (promises_moduleSource hfair registry file position) fun source hsource => ?_
    cases hread : Source.readScript file source with
    | error fault =>
      exact governs_stop (hfair.modules store _ file source fault hs hr hsource hread)
    | ok node =>
      refine Governs.bind (governs_adding hfair fun _ => Store.keepsModules_enter root _) fun frame => ?_
      refine (governs_finish hfair _ (he node frame)).bind fun _ => ?_
      refine Governs.bind (governs_adding hfair fun _ => ?_) fun _ => governs_pure
      exact Store.keepsModules_changeRegistry root fun _ => rfl

/-- Entering a module is governed as the evaluation of its text is. -/
theorem governs_enterModule (frame : FrameRef) (identifier file : String) (position : Position) :
    rule.Governs (enterModule evaluator frame identifier file position) := by
  refine governs_read.bind fun root => ?_
  have hfound : rule.Promises (fun found : Frame => ∀ registry, found.registry = some registry →
      ∃ store : Store, rule.holds store ∧ store.Resolves registry.resolve)
      (Run.read (·.frame root)) :=
    promises_read fun store hs registry hr => ⟨store, hs, root, by rw [hr]; rfl⟩
  refine hfound.bind fun found hfound => ?_
  obtain ⟨outer, bindings, _ | registry⟩ := found
  · exact governs_stop (hfair.errors _ position)
  · obtain ⟨store, hs, hr⟩ := hfound registry rfl
    dsimp only
    split
    · exact governs_stop (hfair.errors _ position)
    · refine Governs.bind (governs_adding hfair fun _ =>
        Store.keepsModules_changeRegistry root fun _ => rfl) fun _ => ?_
      refine Promises.bind (Promises.attempt rfl
        (governs_loadModule hfair he root hs hr identifier file position)) fun outcome houtcome => ?_
      refine Governs.bind (governs_adding hfair fun _ =>
        Store.keepsModules_changeRegistry root fun _ => rfl) fun _ => ?_
      exact promises_conclude (fun _ _ => trivial) houtcome.2

end Modules

/-- To follow a fair rule is a discipline. -/
def discipline (rule : Rule) (hfair : rule.Fair) : Discipline Unit where
  follows inCall _ _ work := (rule.within inCall).Governs (work ())
  admits inCall := (rule.within inCall).admits
  suits _ := True
  gives _ := governs_pure
  andThen h hnext := h.bind hnext
  exhausts := promises_exhausted
  stops := governs_stop
  attempts h hnext := Promises.bind (Promises.attempt (by simp) h) fun outcome h => hnext outcome h.2
  admits_error inCall := (hfair.within inCall).errors
  admits_raised inCall := (hfair.within inCall).raised
  admits_unreadable inCall := (hfair.within inCall).unreadable
  admits_leaving inCall := (hfair.within inCall).leaving
  admits_inCall _ := trivial
  reads _ := governs_read
  aside h := governs_adding (hfair.within _) fun store => Store.keepsModules_of_frames (h store)
  binds frame change :=
    governs_adding (hfair.within _) fun _ => Store.keepsModules_changeBindings frame change
  assigns frame name value position := governs_assign (hfair.within _) frame name value position
  enters frame bindings _ h :=
    Governs.bind (governs_adding (hfair.within _) fun _ => Store.keepsModules_enter frame bindings) h
  modules _ he frame specifier position :=
    governs_enterModule (hfair.within _) (he _) frame _ _ position

/-- An evaluator that follows the rule. -/
structure GovernsEvaluator (rule : Rule) (evaluator : Evaluator) : Prop where
  node : ∀ node frame, rule.GovernsEval (evaluator.node node frame)
  call : ∀ ref arguments frame position, rule.Governs (evaluator.call ref arguments frame position)

/-- **Evaluation follows every fair rule**, whatever is evaluated or called. -/
theorem governsEvaluator (hfair : rule.Fair) (bound : Nat) :
    rule.GovernsEvaluator (evaluator bound) := by
  have hobeyed : (rule.discipline hfair).Obeyed fun _ => evaluator bound :=
    Discipline.obeyed_evaluator (fun _ => trivial) bound
  exact ⟨hobeyed.node false, hobeyed.call false none⟩

end Rule

end Ckl
