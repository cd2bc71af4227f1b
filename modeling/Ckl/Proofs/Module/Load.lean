import Ckl.Proofs.Module.Enter
import Ckl.Proofs.Module.Ordered

/-!
# Loads of modules are in order

If the evaluation of its text is in order, then so is the load of a module: the module is on the list of
those being loaded while its text is evaluated, and when that has come to an end it is taken off the list
and, after a success, kept as loaded. Meanwhile nobody else can load it, because to ask for it is a cycle,
so that no module is loaded twice.

To be in order is a discipline, and therefore all evaluation is.
-/

namespace Ckl

open Source (Position Node)
open Source.Module (fileName)

/-- A store in which the text of a module is about to be evaluated, in a new frame. -/
structure Store.Opens (store : Store) (root : FrameRef) (identifier : String) (inner : FrameRef)
    (start : Store) : Prop where
  consistent : start.Consistent
  outside : start.Outside (some inner)
  precedes : store.Precedes start
  loaded : ∀ ref other, start.loaded? ref other = store.loaded? ref other
  own : start.loading root = store.loading root ++ [identifier]
  others : ∀ ref, ref ≠ root → start.loading ref = store.loading ref
  new : inner.index = store.frames.size

/-- A module that is new and not being loaded can begin to be loaded, in a new frame. -/
theorem Store.Consistent.opens {store start : Store} (h : store.Consistent) {root inner : FrameRef}
    {registry : Registry} (hregistry : (store.frame root).registry = some registry) {identifier : String}
    (hfree : identifier ∉ store.loading root) (hnew : store.loaded? root identifier = none)
    (hstart : (store.beginModule root identifier).enter root Bindings.empty = (inner, start)) :
    store.Opens root identifier inner start := by
  have hbegun := h.beginModule hregistry hfree hnew
  have hsame := Store.SameModules.enter hbegun root Bindings.empty
  have houtside := hbegun.outside_enter root Bindings.empty
  have hnewer : inner.index = store.frames.size := by
    have hinner : ((store.beginModule root identifier).enter root Bindings.empty).1 = inner :=
      congrArg Prod.fst hstart
    rw [← hinner]
    simp [Store.beginModule]
  rw [hstart] at hsame houtside
  refine ⟨hsame.consistent hbegun, houtside, ?_, fun ref other => ?_, ?_, fun ref href => ?_, hnewer⟩
  · exact (Store.Precedes.beginModule root identifier).trans hsame.precedes
  · rw [hsame.loaded, Store.loaded?_beginModule]
  · rw [hsame.loading, Store.loading_beginModule root hregistry]
  · rw [hsame.loading, Store.beginModule, Store.loading_changeRegistry_of_ne root ref href]

/-- Only the evaluation itself can be cut, not the end of it. -/
theorem finish_exhausted {position : Position} {work : Eval Value} {store moment : Store}
    (h : finish position work store = .error .exhausted moment) :
    work.run store = .error .exhausted moment := by
  cases hend : work.run store with
  | ok outcome after =>
    have hfinish : finish position work store = _ := Run.bind_of_ok hend
    rw [hfinish] at h
    match outcome with
    | .ok value => cases h
    | .error (.return value) => cases h
    | .error .break => cases h
    | .error .continue => cases h
  | error stop after =>
    have hfinish : finish position work store = _ := Run.bind_of_error hend
    rw [hfinish] at h
    cases h
    rfl

/-- Assignments leave the modules alone. -/
theorem Store.SameModules.assign {store : Store} (hstore : store.Consistent) (frame : FrameRef)
    (name : String) (value : Value) (position : Position) :
    store.SameModules (endOf (Run.assign frame name value position store)) := by
  obtain ⟨owner, hbinds, hassign⟩ | hassign := Run.assign_cases frame name value position store
  · rw [hassign]
    exact .define hstore hbinds value
  · rw [hassign]
    exact .of_frames rfl

section Modules

variable {store start : Store} {root inner : FrameRef} {identifier : String} {registry : Registry}

/-- A load keeps what the evaluation of the text has done. -/
theorem Store.Precedes.concludeModule {result : EStateM.Result Stop Store Value}
    (hnew : ∀ value after, result = .ok value after → after.loaded? root identifier = none) :
    (endOf result).Precedes (endOf (concludeModule root identifier inner result)) := by
  match result with
  | .ok value after =>
    exact (Store.Precedes.keepModule (hnew value after rfl) inner).trans (.endModule root)
  | .error (.failed failure) after => exact .endModule root
  | .error .exhausted after => exact .refl after
  | .error (.awaiting path) after => exact .refl after

/-- The end of a load is given up exactly if the evaluation of the text is. -/
theorem concludeModule_exhausted_iff {result : EStateM.Result Stop Store Value} {moment : Store} :
    concludeModule root identifier inner result = .error .exhausted moment ↔
      result = .error .exhausted moment := by
  match result with
  | .ok value after => simp [concludeModule]
  | .error (.failed failure) after => simp [concludeModule]
  | .error .exhausted after => simp [concludeModule]
  | .error (.awaiting path) after => simp [concludeModule]

variable {load : Load} {ends : Cut → EStateM.Result Stop Store Value} {cut : Cut}

section Conclude

variable (hends : ∀ k, ends k = finish load.node.position
    ((evaluatorUntil k load.bound).node load.node load.frame) load.start)
  (h : Ordered load.start ends) (hopens : store.Opens root identifier load.frame load.start)

include hends hopens in
/-- The load begins with the evaluation of its text. -/
theorem Load.begins_own :
    load.Begins store (fun k => concludeModule root identifier load.frame (ends k)) cut := by
  refine ⟨Nat.le_of_eq hopens.new.symm, concludeModule_exhausted_iff.mpr ?_⟩
  rw [hends]
  exact Run.bind_of_error (evaluatorUntil_node_of_cut (.inr ⟨rfl, rfl, rfl⟩) load.bound)

include hopens in
/-- Other loads begin within. -/
theorem Load.begins_within {other : Load} (hother : other.Begins load.start ends cut) :
    other.Begins store (fun k => concludeModule root identifier load.frame (ends k)) cut :=
  ⟨Nat.le_trans hopens.precedes.grows hother.new, concludeModule_exhausted_iff.mpr hother.reached⟩

include h hopens in
/-- While its text is evaluated, the module is not loaded, and it is the last one that is being loaded. -/
theorem Ordered.ok_unloaded {value : Value} {after : Store} (hend : ends cut = .ok value after) :
    after.loading root = store.loading root ++ [identifier] ∧
      after.loaded? root identifier = none := by
  have hbalanced := (h cut).balanced (by rw [hend]; trivial) root
  have hconsistent := (h cut).consistent
  rw [hend, endOf_ok] at hbalanced hconsistent
  rw [hopens.own] at hbalanced
  exact ⟨hbalanced, hconsistent.pending root identifier (by rw [hbalanced]; simp)⟩

include hends h in
/-- An evaluation that has not been cut is evaluation as it is. -/
theorem Ordered.ok_uncut {value : Value} {after : Store} (hend : ends cut = .ok value after) :
    finish load.node.position (evaluate load.bound load.node load.frame) load.start =
      .ok value after := by
  have hbot : ends ⊥ = finish load.node.position
      (evaluate load.bound load.node load.frame) load.start := by
    rw [hends, evaluatorUntil_bot]
    rfl
  rcases (h ⊥).cuts cut bot_le with heq | ⟨node, frame, moment, -, -, hcut, -⟩
  · rw [← hbot, ← heq, hend]
  · rw [hend] at hcut
    cases hcut

variable (hregistry : (store.frame root).registry = some registry)
  (hfree : identifier ∉ store.loading root)

include h hopens hregistry hfree in
/-- However a load ends, the store is consistent. -/
theorem Ordered.consistent_concludeModule (cut : Cut) :
    (endOf (concludeModule root identifier load.frame (ends cut))).Consistent := by
  have hconsistent := (h cut).consistent
  match hend : ends cut with
  | .ok value after =>
    obtain ⟨hloading, hnew⟩ := h.ok_unloaded hopens hend
    obtain ⟨later, hlater⟩ := (hopens.precedes.trans (h cut).precedes).registry hregistry
    have houtside := h.outside hopens.outside cut
    rw [hend, endOf_ok] at hconsistent hlater houtside
    refine hconsistent.keepModule hlater houtside ?_
    rwa [hloading, List.dropLast_concat]
  | .error (.failed failure) after =>
    rw [hend] at hconsistent
    exact hconsistent.endModule root
  | .error .exhausted after => rwa [hend] at hconsistent
  | .error (.awaiting path) after => rwa [hend] at hconsistent

include h hopens in
/-- However a load ends with an answer, the list of modules being loaded is as it was. -/
theorem Ordered.loading_concludeModule (cut : Cut)
    (hanswered : Answered (concludeModule root identifier load.frame (ends cut))) (ref : FrameRef) :
    (endOf (concludeModule root identifier load.frame (ends cut))).loading ref =
      store.loading ref := by
  have hended : ∀ after : Store, (∀ ref, after.loading ref = load.start.loading ref) →
      (after.endModule root).loading ref = store.loading ref := by
    intro after hafter
    by_cases href : ref = root
    · subst href
      rw [Store.loading_endModule, hafter, hopens.own, List.dropLast_concat]
    · rw [Store.endModule, Store.loading_changeRegistry_of_ne root ref href, hafter,
        hopens.others ref href]
  have hbalanced := (h cut).balanced
  cases hend : ends cut with
  | ok value after =>
    rw [hend] at hbalanced
    refine hended _ fun ref => ?_
    rw [Store.loading_keepModule]
    exact hbalanced trivial ref
  | error stop after =>
    rw [hend] at hbalanced hanswered
    cases stop with
    | failed failure => exact hended after (hbalanced trivial)
    | exhausted => cases hanswered
    | awaiting path => cases hanswered

include hends h hopens hregistry in
/-- What is loaded in the end: the module itself, what was loaded before, or what has been loaded within. -/
theorem Ordered.loads_concludeModule (hof : load.Of store root identifier) (cut : Cut)
    (ref : FrameRef) (other : String) (frame : FrameRef)
    (hloaded : (endOf (concludeModule root identifier load.frame (ends cut))).loaded? ref other =
      some frame) :
    store.loaded? ref other = some frame ∨
      ∃ load' : Load, load'.frame = frame ∧ load'.Of store ref other ∧
        load'.Begins store (fun k => concludeModule root identifier load.frame (ends k)) cut ∧
        load'.Completed (endOf (concludeModule root identifier load.frame (ends cut))) := by
  have hkept : (endOf (ends cut)).Precedes
      (endOf (concludeModule root identifier load.frame (ends cut))) :=
    .concludeModule fun value after hend => (h.ok_unloaded hopens hend).2
  by_cases hbefore : (endOf (ends cut)).loaded? ref other = some frame
  · rcases (h cut).loads ref other frame hbefore with hold | ⟨load', rfl, hof', hbegins, hdone⟩
    · exact .inl (by rwa [hopens.loaded] at hold)
    · exact .inr ⟨load', rfl, hof'.congr (hopens.precedes.resolve ref),
        Load.begins_within hopens hbegins, hdone.later hkept hbefore⟩
  -- what is new after the text has been evaluated is the module itself, which is kept only then
  · match hend : ends cut with
    | .ok value after =>
      obtain ⟨later, hlater⟩ := (hopens.precedes.trans (h cut).precedes).registry hregistry
      rw [hend] at hloaded hbefore hlater hkept
      simp only [concludeModule, endOf_ok, Store.loaded?_endModule] at hloaded hbefore hlater
      obtain ⟨rfl, rfl, rfl⟩ :=
        (Store.loaded?_keepModule_cases root ref hlater hloaded).resolve_right hbefore
      refine .inr ⟨load, rfl, hof, Load.begins_own hends hopens, ?_⟩
      refine ⟨value, after, h.ok_uncut hends hend, hkept, ?_⟩
      simp only [concludeModule, endOf_ok, Store.endModule, Store.keepModule,
        Store.bindings_changeRegistry]
    | .error (.failed failure) after =>
      rw [hend] at hloaded hbefore
      exact absurd (by simpa [concludeModule] using hloaded) hbefore
    | .error .exhausted after =>
      rw [hend] at hloaded hbefore
      exact absurd hloaded hbefore
    | .error (.awaiting path) after =>
      rw [hend] at hloaded hbefore
      exact absurd hloaded hbefore

include hends h hopens hregistry hfree in
/-- **A load of a module is in order** if the evaluation of its text is. -/
theorem Ordered.concludeModule (hof : load.Of store root identifier) :
    Ordered store fun k => Ckl.concludeModule root identifier load.frame (ends k) := by
  intro cut
  have hkept : (endOf (ends cut)).Precedes
      (endOf (Ckl.concludeModule root identifier load.frame (ends cut))) :=
    .concludeModule fun value after hend => (h.ok_unloaded hopens hend).2
  refine ⟨h.consistent_concludeModule hopens hregistry hfree cut,
    (hopens.precedes.trans (h cut).precedes).trans hkept, h.loading_concludeModule hopens cut,
    fun moment hmoment ref => ?_, h.loads_concludeModule hends hopens hregistry hof cut,
    fun earlier hle => ?_⟩
  · have hcut := concludeModule_exhausted_iff.mp hmoment
    obtain ⟨more, hloading, hmore⟩ := (h cut).underway moment hcut ref
    have hwithin : ∀ other ∈ more, ∃ load' : Load, load'.Of store ref other ∧
        load'.Begins store (fun k => Ckl.concludeModule root identifier load.frame (ends k)) cut ∧
        load'.Underway cut moment := by
      intro other hother
      obtain ⟨load', hof', hbegins, hunderway⟩ := hmore other hother
      exact ⟨load', hof'.congr (hopens.precedes.resolve ref), Load.begins_within hopens hbegins,
        hunderway⟩
    -- in the root of the load its own module is on the list behind those of the loads within
    by_cases href : ref = root
    · subst href
      refine ⟨identifier :: more, by rw [hloading, hopens.own, List.append_assoc]; rfl, ?_⟩
      rintro other (_ | ⟨_, hother⟩)
      · refine ⟨load, hof, Load.begins_own hends hopens, ?_⟩
        rw [hends] at hcut
        exact finish_exhausted hcut
      · exact hwithin other hother
    · exact ⟨more, by rw [hloading, hopens.others ref href], hwithin⟩
  · rcases (h cut).cuts earlier hle with heq | ⟨node, frame, moment, hin, hnot, hcut, hbefore⟩
    · exact .inl (by simp only [heq])
    · exact .inr ⟨node, frame, moment, hin, hnot, concludeModule_exhausted_iff.mpr hcut,
        hbefore.trans hkept⟩

end Conclude

/-- The end of a text changes no module. -/
theorem Ordered.finish {work : Cut → Eval Value} (h : Ordered store fun k => (work k).run store)
    (position : Position) : Ordered store fun k => Ckl.finish position (work k) store := by
  refine Ordered.bind h fun cut outcome after hend => ?_
  have hafter := (h cut).consistent
  rw [hend, endOf_ok] at hafter
  match outcome with
  | .ok value => exact .of_sameModules hafter (.of_frames rfl)
  | .error (.return value) => exact .of_sameModules hafter (.of_frames rfl)
  | .error .break => exact .of_sameModules hafter (.of_frames rfl)
  | .error .continue => exact .of_sameModules hafter (.of_frames rfl)

/-- **Asking for a module is in order** if all evaluation of nodes is. -/
theorem ordered_enterModule {bound : Nat}
    (he : ∀ node frame (store : Store), store.Consistent → store.Outside (some frame) →
      Ordered store fun k => ((evaluatorUntil k bound).node node frame).run store)
    (hstore : store.Consistent) (frame : FrameRef) (specifier : String) (position : Position) :
    Ordered store fun k => enterModule (evaluatorUntil k bound) frame
      (Source.Module.identifier specifier) (fileName specifier) position store := by
  have hsame : ∀ {result : EStateM.Result Stop Store FrameRef}, endOf result = store →
      Ordered store fun _ => result := fun hend => .of_sameModules hstore (.of_frames (by rw [hend]))
  -- the work is the same for all cuts unless the text of the module is evaluated
  cases asking store frame (Source.Module.identifier specifier) (fileName specifier) position with
  | absent hregistry h =>
    simp only [h]
    exact hsame rfl
  | cycle cycle hloading h =>
    simp only [h]
    exact hsame rfl
  | loaded inner hfree hloaded h =>
    simp only [h]
    exact hsame rfl
  | unread failure hfree hnew hfailure h =>
    simp only [h]
    exact hsame rfl
  | awaited path hregistry hfree hnew h =>
    simp only [h]
    refine fun cut => .of_awaiting (hstore.beginModule hregistry hfree hnew) (.beginModule _ _) ?_
    exact fun ref other => Store.loaded?_beginModule _ ref _ other
  | @read registry text node inner start hregistry hfree hnew hfound hread hstart h =>
    simp only [h]
    have hopens := hstore.opens hregistry hfree hnew hstart
    let load : Load := ⟨specifier, text, node, inner, start, bound⟩
    have hof : load.Of store (store.root frame) (Source.Module.identifier specifier) :=
      ⟨⟨registry.resolve, by simp [Store.resolve?, hregistry], rfl, hfound, hread⟩, ⟨_, hstart⟩⟩
    have hends : ∀ k, finish node.position ((evaluatorUntil k bound).node node inner) start =
        finish load.node.position ((evaluatorUntil k load.bound).node load.node load.frame)
          load.start := fun _ => rfl
    have hordered := (he node inner start hopens.consistent hopens.outside).finish node.position
    exact Ordered.concludeModule hends hordered hopens hregistry hfree hof

end Modules

/-! ## Evaluation -/

/-- To be in order is a discipline of all cuts. -/
def moduleOrder : Discipline Cut where
  follows _ scope _ work := ∀ store : Store, store.Consistent → store.Outside scope →
    Ordered store fun k => work k store
  admits _ _ := True
  suits evaluator := ∃ bound, evaluator = fun cut => evaluatorUntil cut bound
  gives a _ hstore _ := .of_sameModules hstore (.of_frames rfl)
  andThen h hnext store hstore hscope := (h store hstore hscope).andThen hscope hnext
  exhausts _ hstore _ := .of_sameModules hstore (.of_frames rfl)
  stops _ _ hstore _ := .of_sameModules hstore (.of_frames rfl)
  attempts h hnext store hstore hscope :=
    (h store hstore hscope).attempt.andThen hscope fun outcome => hnext outcome fun _ _ => trivial
  admits_error _ _ _ := trivial
  admits_raised _ _ _ _ := trivial
  admits_unreadable _ _ := trivial
  admits_leaving _ _ _ := trivial
  admits_inCall _ := trivial
  reads _ _ hstore _ := .of_sameModules hstore (.of_frames rfl)
  aside h store hstore _ := .of_sameModules hstore (.of_frames (h store))
  binds frame change _ hstore hscope := .of_sameModules hstore (.changeBindings hscope change)
  assigns frame name value position _ hstore _ :=
    .of_sameModules hstore (.assign hstore frame name value position)
  enters frame bindings _ h store hstore _ := by
    have henter : store.SameModules (store.enter frame bindings).2 := .enter hstore frame bindings
    refine Ordered.bind (.of_sameModules hstore henter) fun cut inner after hend => ?_
    cases hend
    exact h _ _ (henter.consistent hstore) (hstore.outside_enter frame bindings)
  modules hsuits he frame specifier position store hstore _ := by
    obtain ⟨bound, rfl⟩ := hsuits
    exact ordered_enterModule (he false) hstore frame specifier position

/-- **All evaluation is in order.** -/
theorem moduleOrder_obeyed (bound : Nat) :
    moduleOrder.Obeyed fun cut => evaluatorUntil cut bound := by
  refine Discipline.obeyed_until (fun _ node frame store hstore _ => ?_) (fun bound => ?_) bound
  · exact .checkpoint hstore node frame
  · exact ⟨bound, rfl⟩

end Ckl
