import Ckl.Proofs.Module.Course

/-!
# The protocol of modules

What `require` does at the instants of an interpreter's life, with whatever modules there are and however
they require each other: it leaves the list of modules being loaded as it was; no module is on that list
twice, and to require one that is on it is a cycle; and a module that has been loaded stays loaded in its
frame, so that its text is not evaluated again.
-/

namespace Ckl

open Source (Position Node ImportStyle)
open Source.Module (fileName)

/-! ## The parts of a `require` -/

section Require

variable {evaluator : Evaluator} {module : Node} {style : ImportStyle} {frame : FrameRef}
  {position : Position} {store : Store}

/-- A specifier is found without any evaluation, or the `require` fails at it. -/
theorem moduleSpecifier_cases (module : Node) (frame : FrameRef) (store : Store) :
    (∃ specifier, moduleSpecifier module frame store = .ok specifier store) ∨
      moduleSpecifier module frame store =
        .error (.failed (.runtime .malformedSpecifier module.position)) store := by
  generalize hwork : moduleSpecifier module frame = work
  unfold moduleSpecifier at hwork
  split at hwork <;> subst hwork
  · exact .inl ⟨_, rfl⟩
  · next name _ =>
    left
    rw [Run.read_bind]
    cases store.lookup? frame name with
    | none => exact ⟨name, rfl⟩
    | some value => cases value <;> exact ⟨_, rfl⟩
  · exact .inr rfl

/-- A `require` fails for its specifier, or it ends as the load of the module does, or else it binds the
public names in the frame of the module. -/
theorem requireModule_cases (evaluator : Evaluator) (module : Node) (style : ImportStyle)
    (frame : FrameRef) (position : Position) (store : Store) :
    requireModule evaluator module style frame position store =
        .error (.failed (.runtime .malformedSpecifier module.position)) store ∨
      ∃ specifier, moduleSpecifier module frame store = .ok specifier store ∧
        ((∃ stop after, enterModule evaluator frame (Source.Module.identifier specifier)
            (fileName specifier) position store = .error stop after ∧
          requireModule evaluator module style frame position store = .error stop after) ∨
        ∃ inner after, enterModule evaluator frame (Source.Module.identifier specifier)
            (fileName specifier) position store = .ok inner after ∧
          requireModule evaluator module style frame position store =
            bindModule frame (Source.Module.identifier specifier)
              ((after.frame inner).bindings.restrict isPublic) position style after) := by
  rcases moduleSpecifier_cases module frame store with ⟨specifier, hspecifier⟩ | hmalformed
  · refine .inr ⟨specifier, hspecifier, ?_⟩
    have hrequire : requireModule evaluator module style frame position store = _ :=
      Run.bind_of_ok hspecifier
    cases hend : enterModule evaluator frame (Source.Module.identifier specifier)
      (fileName specifier) position store with
    | error stop after => exact .inl ⟨stop, after, rfl, hrequire.trans (Run.bind_of_error hend)⟩
    | ok inner after => exact .inr ⟨inner, after, rfl, hrequire.trans (Run.bind_of_ok hend)⟩
  · exact .inl (Run.bind_of_error hmalformed)

/-- Importing names leaves the modules alone, and it fails only at a name that is not public. -/
theorem importNames_end (frame : FrameRef) (identifier : String) (names : Bindings Value)
    (position : Position) (listed : List (String × String)) (store : Store) :
    (∀ ref, ((endOf (importNames frame identifier names position listed store)).frame ref).registry =
      (store.frame ref).registry) ∧
    ∀ stop after, importNames frame identifier names position listed store = .error stop after →
      ∃ name, stop = .failed (.runtime (.noPublicName identifier name) position) := by
  induction listed generalizing store with
  | nil =>
    have hend : importNames frame identifier names position [] store = .ok () store := rfl
    rw [hend]
    exact ⟨fun _ => rfl, fun _ _ hstop => by cases hstop⟩
  | cons entry rest ih =>
    cases hname : names.get? entry.1 with
    | none =>
      have hend : importNames frame identifier names position (entry :: rest) store =
          .error (.failed (.runtime (.noPublicName identifier entry.1) position)) store := by
        simp only [importNames, hname]
        rfl
      rw [hend]
      refine ⟨fun _ => rfl, fun stop after hstop => ⟨entry.1, ?_⟩⟩
      cases hstop
      rfl
    | some value =>
      have hend : importNames frame identifier names position (entry :: rest) store =
          importNames frame identifier names position rest (store.define frame entry.2 value) := by
        simp only [importNames, hname]
        rfl
      rw [hend]
      obtain ⟨hregistry, hstop⟩ := ih (store.define frame entry.2 value)
      exact ⟨fun ref => (hregistry ref).trans (Store.registry_changeBindings frame ref _), hstop⟩

/-- Binding the names of a module leaves the modules alone. -/
theorem bindModule_end (frame : FrameRef) (identifier : String) (names : Bindings Value)
    (position : Position) (style : ImportStyle) (store : Store) :
    (∀ ref, ((endOf (bindModule frame identifier names position style store)).frame ref).registry =
      (store.frame ref).registry) ∧
    ∀ stop after, bindModule frame identifier names position style store = .error stop after →
      ∃ name, stop = .failed (.runtime (.noPublicName identifier name) position) := by
  cases style with
  | unqualified =>
    have hend : bindModule frame identifier names position .unqualified store =
        .ok .null (store.defineAll frame names.entries) := rfl
    rw [hend]
    refine ⟨fun ref => ?_, fun _ _ hstop => by cases hstop⟩
    simp only [endOf_ok, Store.defineAll, Store.registry_changeBindings]
  | listed listed =>
    have himport := importNames_end frame identifier names position listed store
    cases hend : importNames frame identifier names position listed store with
    | ok result after =>
      have hbind : bindModule frame identifier names position (.listed listed) store = _ :=
        Run.bind_of_ok hend
      rw [hend] at himport
      rw [hbind]
      exact ⟨himport.1, fun _ _ hstop => by cases hstop⟩
    | error stop after =>
      have hbind : bindModule frame identifier names position (.listed listed) store = _ :=
        Run.bind_of_error hend
      rw [hend] at himport
      rw [hbind]
      refine ⟨himport.1, fun stop' after' hstop => himport.2 stop' after ?_⟩
      cases hstop
      rfl
  | qualified localName =>
    have hend : bindModule frame identifier names position (.qualified localName) store =
        .ok (store.place (.object names)).1 ((store.place (.object names)).2.define frame
          (localName.getD identifier) (store.place (.object names)).1) := rfl
    rw [hend]
    refine ⟨fun ref => ?_, fun _ _ hstop => by cases hstop⟩
    simp only [endOf_ok, Store.define, Store.registry_changeBindings]
    rfl

end Require

/-! ## Requiring in a consistent store -/

namespace Store.Consistent

variable {store after : Store} {frame inner : FrameRef} {specifier : String} {position : Position}

/-- Entering a module keeps the order of modules. -/
theorem ordered_enterModule (h : store.Consistent) (bound : Nat) (frame : FrameRef)
    (specifier : String) (position : Position) :
    Ordered store fun k => enterModule (evaluatorUntil k bound) frame
      (Source.Module.identifier specifier) (fileName specifier) position store :=
  Ckl.ordered_enterModule ((moduleOrder_obeyed bound).node false) h frame specifier position

/-- Whatever becomes of a `require`, the list of modules being loaded is as it was. -/
theorem loading_requireModule (h : store.Consistent) {bound : Nat} {module : Node}
    {style : ImportStyle}
    (hanswered : Answered (requireModule (evaluator bound) module style frame position store))
    (ref : FrameRef) :
    (endOf (requireModule (evaluator bound) module style frame position store)).loading ref =
      store.loading ref := by
  rcases requireModule_cases (evaluator bound) module style frame position store with
    hend | ⟨specifier, -, hload⟩
  · rw [hend, endOf_error]
  · have hordered := h.ordered_enterModule bound frame specifier position ⊥
    have hbalanced := hordered.balanced
    rw [evaluatorUntil_bot] at hbalanced
    rcases hload with ⟨stop, after, henter, hend⟩ | ⟨inner, after, henter, hend⟩
    · rw [hend] at hanswered ⊢
      rw [henter] at hbalanced
      cases stop with
      | failed failure => exact hbalanced trivial ref
      | _ => cases hanswered
    · rw [henter] at hbalanced
      rw [hend, Store.loading, (bindModule_end _ _ _ _ _ _).1 ref]
      exact hbalanced trivial ref

/-- A module that has been asked for with success is loaded. -/
theorem loaded?_of_enterModule (h : store.Consistent) {bound : Nat}
    (hend : enterModule (evaluator bound) frame (Source.Module.identifier specifier)
      (fileName specifier) position store = .ok inner after) :
    after.loaded? (store.root frame) (Source.Module.identifier specifier) = some inner := by
  have hprecedes := (h.ordered_enterModule bound frame specifier position ⊥).precedes
  rw [evaluatorUntil_bot, hend, endOf_ok] at hprecedes
  rcases enterModule_eq_ok hend with ⟨hloaded, rfl⟩ | ⟨node, start, value, done, hevaluates, -, rfl⟩
  · exact hloaded
  · rw [loaded?_endModule]
    obtain ⟨registry, -, hregistry, -⟩ := hevaluates.found
    cases hregistry' : (done.frame (store.root frame)).registry with
    | some registry => exact loaded?_keepModule_self _ hregistry' _ _
    | none =>
      -- there are modules at the end
      obtain ⟨later, hlater⟩ := hprecedes.registry hregistry
      simp [Store.endModule, Store.keepModule, registry_changeRegistry, hregistry'] at hlater

/-- While a module is being asked for, it is on the list of those being loaded wherever the work is cut. -/
theorem loading_of_exhausted (h : store.Consistent) {cut : Cut} {bound : Nat} {last : Store}
    (hend : enterModule (evaluatorUntil cut bound) frame (Source.Module.identifier specifier)
      (fileName specifier) position store = .error .exhausted last) :
    Source.Module.identifier specifier ∈ last.loading (store.root frame) := by
  obtain ⟨node, inner, start, hevaluates, hdone⟩ := enterModule_eq_exhausted hend
  obtain ⟨registry, -, hregistry, -⟩ := hevaluates.found
  have hopens := h.opens hregistry hevaluates.free hevaluates.new hevaluates.entered
  have hnode := (moduleOrder_obeyed bound).node false node inner start hopens.consistent hopens.outside
  obtain ⟨more, hloading, -⟩ := ((Ordered.finish hnode node.position) cut).underway last hdone
    (store.root frame)
  rw [hloading, hopens.own]
  simp

/-- Neither a cut nor the bound changes how a module is entered, if it is entered at all. -/
theorem enterModule_until (h : store.Consistent) {cut : Cut} {bound other : Nat}
    (hend : enterModule (evaluator bound) frame (Source.Module.identifier specifier)
      (fileName specifier) position store = .ok inner after)
    (hanswered : Answered (enterModule (evaluatorUntil cut other) frame
      (Source.Module.identifier specifier) (fileName specifier) position store)) :
    enterModule (evaluatorUntil cut other) frame (Source.Module.identifier specifier)
      (fileName specifier) position store = .ok inner after := by
  have hrising : Run.Rising fun bound => enterModule (evaluator bound) frame
      (Source.Module.identifier specifier) (fileName specifier) position := fun bound =>
    Run.approximates_enterModule (fun node frame => rising_node node frame bound) frame _ _ position
  have huncut : enterModule (evaluatorUntil cut other) frame (Source.Module.identifier specifier)
      (fileName specifier) position store = enterModule (evaluator other) frame
        (Source.Module.identifier specifier) (fileName specifier) position store := by
    rcases (h.ordered_enterModule other frame specifier position ⊥).cuts cut bot_le with
      heq | ⟨node, inside, moment, -, -, hcut, -⟩
    · rwa [evaluatorUntil_bot] at heq
    · rw [hcut] at hanswered
      cases hanswered
  have hsettles : Run.Settles (fun bound => enterModule (evaluator bound) frame
      (Source.Module.identifier specifier) (fileName specifier) position) store
        (enterModule (evaluator other) frame (Source.Module.identifier specifier) (fileName specifier)
          position store) :=
    ⟨other, rfl, Answered.not_exhausted (huncut ▸ hanswered)⟩
  exact huncut.trans (hsettles.unique hrising ⟨bound, hend, id⟩)

end Store.Consistent

/-! ## Requiring on the way -/

section Pursued

variable {module : Node} {style : ImportStyle} {frame inner : FrameRef} {position : Position}
  {store after last : Store} {cut : Cut} {bound other : Nat} {specifier : String}

/-- Where a `require` is to be evaluated the run is cut or exhausts its bound, or it requires the module. -/
theorem evaluatorUntil_require (cut : Cut) (bound : Nat) (module : Node) (style : ImportStyle)
    (frame : FrameRef) (position : Position) (store : Store) :
    ((evaluatorUntil cut bound).node (.mk position (.require module style)) frame).run store =
        .error .exhausted store ∨
      ∃ other, ((evaluatorUntil cut bound).node (.mk position (.require module style)) frame).run store =
        (do return Except.ok (← requireModule (evaluatorUntil cut other) module style frame position) :
          Run (Except Exit Value)) store := by
  cases bound with
  | zero => exact .inl rfl
  | succ bound =>
    by_cases hcut : cut (.mk position (.require module style)) frame store
    · exact .inl (evaluatorUntil_node_of_cut hcut _)
    · exact .inr ⟨bound, Run.bind_of_ok (Run.checkpoint_of_not hcut)⟩

/-- **What has become of a `require` that enters its module** where the work ends: nothing has been done yet,
or the module is being loaded, or else it is loaded in the frame that is entered. -/
theorem Store.Consistent.require_until (h : store.Consistent) (cut : Cut) (other : Nat)
    (style : ImportStyle) (hspecifier : moduleSpecifier module frame store = .ok specifier store)
    (henter : enterModule (evaluator bound) frame (Source.Module.identifier specifier)
      (fileName specifier) position store = .ok inner after) :
    (∀ last, ((evaluatorUntil cut other).node (.mk position (.require module style)) frame).run store =
        .error .exhausted last →
      last = store ∨ Source.Module.identifier specifier ∈ last.loading (store.root frame)) ∧
    (Answered (((evaluatorUntil cut other).node (.mk position (.require module style)) frame).run store) →
      (endOf (((evaluatorUntil cut other).node (.mk position (.require module style)) frame).run
        store)).loaded? (store.root frame) (Source.Module.identifier specifier) = some inner) := by
  rcases evaluatorUntil_require cut other module style frame position store with hend | ⟨least, hend⟩
  · rw [hend]
    exact ⟨fun last heq => .inl (EStateM.Result.error.inj heq).2.symm, nofun⟩
  · rw [hend]
    have hrequire : requireModule (evaluatorUntil cut least) module style frame position store = _ :=
      Run.bind_of_ok hspecifier
    cases hmodule : enterModule (evaluatorUntil cut least) frame (Source.Module.identifier specifier)
      (fileName specifier) position store with
    | error stop middle =>
      rw [Run.bind_of_error (hrequire.trans (Run.bind_of_error hmodule))]
      refine ⟨fun last heq => .inr ?_, fun hanswered => ?_⟩
      · obtain ⟨rfl, rfl⟩ := EStateM.Result.error.inj heq
        -- stopped on the way, so the module is still being loaded
        exact h.loading_of_exhausted hmodule
      · cases stop with
        | failed failure =>
          have hanswered : Answered (enterModule (evaluatorUntil cut least) frame
              (Source.Module.identifier specifier) (fileName specifier) position store) := by
            rw [hmodule]
            trivial
          -- with an answer the way cut short ends as the whole one does, and that one has succeeded
          exact nomatch hmodule.symm.trans (h.enterModule_until henter hanswered)
        | _ => cases hanswered
    | ok entered middle =>
      obtain ⟨rfl, rfl⟩ := EStateM.Result.ok.inj
        (hmodule.symm.trans (h.enterModule_until henter (by rw [hmodule]; trivial)))
      have hloaded := h.loaded?_of_enterModule henter
      have hbinds : requireModule (evaluatorUntil cut least) module style frame position store =
          bindModule frame (Source.Module.identifier specifier)
            ((middle.frame entered).bindings.restrict isPublic) position style middle :=
        hrequire.trans (Run.bind_of_ok hmodule)
      -- what is done with the names of the module leaves the registry alone
      have hbound := bindModule_end frame (Source.Module.identifier specifier)
        ((middle.frame entered).bindings.restrict isPublic) position style middle
      rw [← hbinds] at hbound
      have hkept : (endOf (requireModule (evaluatorUntil cut least) module style frame position
          store)).loaded? (store.root frame) (Source.Module.identifier specifier) = some entered := by
        rw [Store.loaded?, hbound.1]
        exact hloaded
      cases hresult : requireModule (evaluatorUntil cut least) module style frame position store with
      | ok value last =>
        rw [hresult] at hkept
        rw [Run.bind_of_ok hresult]
        exact ⟨fun _ heq => (by cases heq), fun _ => hkept⟩
      | error stop last =>
        obtain ⟨name, rfl⟩ := hbound.2 stop last hresult
        rw [hresult] at hkept
        rw [Run.bind_of_error hresult]
        exact ⟨fun _ heq => (by cases heq), fun _ => hkept⟩

end Pursued

/-! ## The protocol -/

/-- At the instant a `require` is to be evaluated, and for it the text of the module is evaluated to its end,
in a new frame. -/
inductive Instant.Completes (instant : Instant) (ref : FrameRef) (identifier : String) (inner : FrameRef) :
    Prop
  | of_require {module : Node} {style : ImportStyle} {frame : FrameRef} {position : Position}
    {specifier : String} {bound : Nat} {after : Store}
    (hhere : instant.Evaluates (.mk position (.require module style)) frame)
    (hspecifier : moduleSpecifier module frame instant.store = .ok specifier instant.store)
    (hidentifier : Source.Module.identifier specifier = identifier)
    (hroot : instant.store.root frame = ref) (hnew : instant.store.loaded? ref identifier = none)
    (henter : enterModule (evaluator bound) frame identifier (fileName specifier) position
      instant.store = .ok inner after) : Completes instant ref identifier inner

/-- Each evaluation of the text of a module has a frame of its own, the newest one. -/
theorem index_of_enterModule {bound : Nat} {frame inner : FrameRef} {identifier file : String}
    {position : Position} {store after : Store} (hnew : store.loaded? (store.root frame) identifier = none)
    (hend : enterModule (evaluator bound) frame identifier file position store = .ok inner after) :
    inner.index = store.frames.size := by
  rcases enterModule_eq_ok hend with ⟨hloaded, -⟩ | ⟨node, start, value, done, hevaluates, -, -⟩
  · rw [hnew] at hloaded
    cases hloaded
  · exact hevaluates.index_eq

/-- **A module that is entered on the way is loaded ever after.** At a later instant nothing has happened
since, or the module is being loaded, or it is loaded in the frame that was entered. -/
theorem Instant.Precedes.loaded_of_require {instant later : Instant} (hsession : instant.session.Settled)
    (h : instant.Precedes later) {module : Node} {style : ImportStyle} {frame inner : FrameRef}
    {position : Position} {specifier : String} {bound : Nat} {after : Store}
    (hhere : instant.Evaluates (.mk position (.require module style)) frame)
    (hspecifier : moduleSpecifier module frame instant.store = .ok specifier instant.store)
    (henter : enterModule (evaluator bound) frame (Source.Module.identifier specifier)
      (fileName specifier) position instant.store = .ok inner after) :
    later.store = instant.store ∨
      Source.Module.identifier specifier ∈ later.store.loading (instant.store.root frame) ∨
      later.store.loaded? (instant.store.root frame) (Source.Module.identifier specifier) =
        some inner := by
  by_cases hother : later.store = instant.store
  · exact .inl hother
  · refine .inr ?_
    obtain ⟨cut, other, hpursued⟩ := h.pursued hsession hhere hother
    obtain ⟨hwithin, hbehind⟩ := (Instant.consistent hsession).require_until cut other style
      hspecifier henter
    rcases hpursued with hend | ⟨hanswered, hprecedes⟩
    · exact .inl ((hwithin _ hend).resolve_left hother)
    · exact .inr (hprecedes.loaded _ _ _ (hbehind hanswered))

/-- A module that is loaded is loaded at all later instants, in the same frame, and is not being loaded then. -/
theorem Instant.Precedes.kept {instant later : Instant} (hsession : instant.session.Settled)
    (h : instant.Precedes later) {ref frame : FrameRef} {identifier : String}
    (hloaded : instant.store.loaded? ref identifier = some frame) :
    later.store.loaded? ref identifier = some frame ∧ identifier ∉ later.store.loading ref := by
  have hkept := (h.store hsession).loaded ref identifier frame hloaded
  refine ⟨hkept, fun hloading => ?_⟩
  have hlater : later.store.Consistent := Instant.consistent (h.settled hsession)
  rw [hlater.pending ref identifier hloading] at hkept
  cases hkept

/-- **The text of a module is evaluated to its end at most once.** If it is at two instants, nothing has
happened between them. -/
theorem Instant.Precedes.completes_once {instant later : Instant} (hsession : instant.session.Settled)
    (h : instant.Precedes later) {ref inner other : FrameRef} {identifier : String}
    (hcompletes : instant.Completes ref identifier inner) (hagain : later.Completes ref identifier other) :
    later.store = instant.store ∧ other = inner := by
  obtain ⟨hhere, hspecifier, rfl, rfl, hnew, henter⟩ := hcompletes
  obtain ⟨-, -, -, hroot, hnew', henter'⟩ := hagain
  -- a module that is being loaded or is loaded is not evaluated again, so the first way alone is left
  rcases h.loaded_of_require hsession hhere hspecifier henter with hsame | hloading | hloaded
  · refine ⟨hsame, FrameRef.eq_of_index ?_⟩
    rw [index_of_enterModule hnew henter, index_of_enterModule (by rwa [hroot]) henter', hsame]
  · -- to ask for a module that is being loaded is a cycle
    rw [← hroot] at hloading
    obtain ⟨cycle, hcycle⟩ := enterModule_of_loading hloading _ _
    rw [hcycle] at henter'
    cases henter'
  · rw [hnew'] at hloaded
    cases hloaded

/-- **The protocol of modules.** At every instant of an interpreter's life: a `require` leaves the list of
modules being loaded as it was, whatever becomes of it. No module is on the list twice. To require one that
is on it fails as a cycle, and neither is anything evaluated (for it is the same with every evaluator) nor
does the store change. A module that has been loaded with success is kept under its identifier. And one
that is kept is kept at all later instants, in the same frame: it is not being loaded then, and to ask for it
gives this frame, again without any evaluation and with the store as it was.

If at the instant a `require` is to be evaluated that enters its module, then at every later instant the store
is still the same, or the module is being loaded, or it is kept in the frame that is entered. So if for a
`require` at each of two instants the text of one module is evaluated to its end, then the store is the same
at both, and the module has not been loaded in between: **the text of a module is evaluated with success at
most once.** -/
theorem module_protocol {file : String} {resolve : String → Resolution} {input : List InputLine}
    {now : Calendar.Moment} (instant : Instant)
    (hlife : (Session.start file resolve input now).Leads instant.session) :
    (∀ bound module style frame position,
      Answered (requireModule (evaluator bound) module style frame position instant.store) →
        ∀ ref, (endOf (requireModule (evaluator bound) module style frame position
          instant.store)).loading ref = instant.store.loading ref) ∧
    (∀ ref, (instant.store.loading ref).Nodup) ∧
    (∀ evaluator module style frame position specifier,
      moduleSpecifier module frame instant.store = .ok specifier instant.store →
      Source.Module.identifier specifier ∈ instant.store.loading (instant.store.root frame) →
        ∃ cycle, requireModule evaluator module style frame position instant.store =
          .error (.failed (.runtime (.circularModules cycle) position)) instant.store) ∧
    (∀ bound frame specifier position inner after,
      enterModule (evaluator bound) frame (Source.Module.identifier specifier) (fileName specifier)
        position instant.store = .ok inner after →
          after.loaded? (instant.store.root frame) (Source.Module.identifier specifier) =
            some inner) ∧
    (∀ later : Instant, instant.Precedes later → ∀ ref identifier frame,
      instant.store.loaded? ref identifier = some frame →
        later.store.loaded? ref identifier = some frame ∧ identifier ∉ later.store.loading ref ∧
          ∀ evaluator inner file position, later.store.root inner = ref →
            enterModule evaluator inner identifier file position later.store =
              .ok frame later.store) ∧
    (∀ later : Instant, instant.Precedes later →
      ∀ module style frame position specifier bound inner after,
        instant.Evaluates (.mk position (.require module style)) frame →
        moduleSpecifier module frame instant.store = .ok specifier instant.store →
        enterModule (evaluator bound) frame (Source.Module.identifier specifier) (fileName specifier)
          position instant.store = .ok inner after →
            later.store = instant.store ∨
              Source.Module.identifier specifier ∈ later.store.loading (instant.store.root frame) ∨
              later.store.loaded? (instant.store.root frame) (Source.Module.identifier specifier) =
                some inner) ∧
    ∀ later : Instant, instant.Precedes later → ∀ ref identifier inner other,
      instant.Completes ref identifier inner → later.Completes ref identifier other →
        later.store = instant.store ∧ other = inner := by
  have hsettled := Session.settled_start.leads hlife
  have hconsistent := Instant.consistent hsettled
  refine ⟨?_, hconsistent.nodup, ?_, ?_, ?_, ?_, ?_⟩
  · intro bound module style frame position hanswered ref
    exact hconsistent.loading_requireModule hanswered ref
  · intro evaluator module style frame position specifier hspecifier hloading
    obtain ⟨cycle, hcycle⟩ := enterModule_of_loading hloading (fileName specifier) position
    refine ⟨cycle, ?_⟩
    have hrequire : requireModule evaluator module style frame position instant.store = _ :=
      Run.bind_of_ok hspecifier
    rw [hrequire, Run.bind_of_error (hcycle evaluator)]
  · intro bound frame specifier position inner after hend
    exact hconsistent.loaded?_of_enterModule hend
  · intro later hlater ref identifier frame hloaded
    obtain ⟨hkept, hfree⟩ := hlater.kept hsettled hloaded
    refine ⟨hkept, hfree, ?_⟩
    rintro evaluator inner file position rfl
    exact enterModule_of_kept hfree hkept evaluator file position
  · intro later hlater module style frame position specifier bound inner after hhere hspecifier henter
    exact hlater.loaded_of_require hsettled hhere hspecifier henter
  · intro later hlater ref identifier inner other hcompletes hagain
    exact hlater.completes_once hsettled hcompletes hagain

/-- An interpreter with one module. -/
def counting : Session :=
  .start "main" (fun file => if file = "m.ckl" then .found "def v = 1" else .missing) []
    (Calendar.Moment.midnight 0)

/-- The script that requires the module. -/
def requiresCounted : Node :=
  .mk default (.require (.mk default (.literal (.string "m"))) (.qualified none))

/-- The module is entered, in a new frame, when the script that requires it begins. -/
theorem exists_counting_entered :
    ∃ after, enterModule (evaluator 10) ⟨1⟩ (Source.Module.identifier "m") (fileName "m") default
      counting.store = .ok ⟨2⟩ after := by
  have henters : (match enterModule (evaluator 10) ⟨1⟩ (Source.Module.identifier "m") (fileName "m")
      default counting.store with
      | .ok inner _ => some inner
      | .error _ _ => none) = some ⟨2⟩ := by decide +kernel
  cases hend : enterModule (evaluator 10) ⟨1⟩ (Source.Module.identifier "m") (fileName "m") default
    counting.store with
  | ok inner after =>
    rw [hend] at henters
    exact ⟨after, by rw [Option.some.inj henters]⟩
  | error stop after =>
    rw [hend] at henters
    cases henters

/-- What becomes of the module: it is loaded when the script has come to its end, and to ask for it then
evaluates nothing; at every instant on the way and later nothing has happened yet, or it is being loaded, or
it is loaded; and its text is evaluated to its end at no other instant. -/
theorem module_protocol_counting :
    (counting.evalNode requiresCounted).2.store.loaded? ⟨0⟩ "m" = some ⟨2⟩ ∧
      (∀ evaluator position,
        enterModule evaluator ⟨1⟩ "m" "m.ckl" position (counting.evalNode requiresCounted).2.store =
          .ok ⟨2⟩ (counting.evalNode requiresCounted).2.store) ∧
      (∀ later, (Instant.beginning counting requiresCounted).Precedes later →
        later.store = counting.store ∨ "m" ∈ later.store.loading ⟨0⟩ ∨
          later.store.loaded? ⟨0⟩ "m" = some ⟨2⟩) ∧
      (Instant.beginning counting requiresCounted).Completes ⟨0⟩ "m" ⟨2⟩ ∧
      ∀ later, (Instant.beginning counting requiresCounted).Precedes later → ∀ inner,
        later.Completes ⟨0⟩ "m" inner → later.store = counting.store := by
  have hanswer : counting.HasAnswer requiresCounted :=
    Session.hasAnswer_of_answers (by decide +kernel)
  have hloaded : (counting.evalNode requiresCounted).2.store.loaded? ⟨0⟩ "m" = some ⟨2⟩ := by
    decide +kernel
  have hroot : (counting.evalNode requiresCounted).2.store.root ⟨1⟩ = ⟨0⟩ := by decide +kernel
  have hidentifier : Source.Module.identifier "m" = "m" := by decide +kernel
  have hfirst : counting.store.root ⟨1⟩ = ⟨0⟩ := by decide +kernel
  have hnew : counting.store.loaded? ⟨0⟩ "m" = none := by decide +kernel
  have hspecifier : moduleSpecifier (.mk default (.literal (.string "m"))) ⟨1⟩ counting.store =
    .ok "m" counting.store := rfl
  obtain ⟨after, henter⟩ := exists_counting_entered
  have hcompletes : (Instant.beginning counting requiresCounted).Completes ⟨0⟩ "m" ⟨2⟩ :=
    .of_require rfl hspecifier hidentifier hfirst hnew (hidentifier ▸ henter)
  obtain ⟨-, -, -, -, hkept, -, -⟩ := module_protocol
    (Instant.beginning (counting.evalNode requiresCounted).2 requiresCounted) (.single (.evalNode hanswer))
  obtain ⟨-, -, -, -, -, hways, honce⟩ :=
    module_protocol (Instant.beginning counting requiresCounted) .refl
  refine ⟨hloaded, fun evaluator position => ?_, fun later hprecedes => ?_, hcompletes,
    fun later hprecedes inner hagain => ?_⟩
  · exact (hkept _ (.refl _) ⟨0⟩ "m" ⟨2⟩ hloaded).2.2 evaluator ⟨1⟩ "m.ckl" position hroot
  · have hway := hways later hprecedes _ (.qualified none) ⟨1⟩ default "m" 10 ⟨2⟩ after rfl hspecifier henter
    rw [hidentifier] at hway
    change later.store = counting.store ∨ "m" ∈ later.store.loading (counting.store.root ⟨1⟩) ∨
      later.store.loaded? (counting.store.root ⟨1⟩) "m" = some ⟨2⟩ at hway
    rwa [hfirst] at hway
  · exact (honce later hprecedes ⟨0⟩ "m" ⟨2⟩ inner hcompletes hagain).1

end Ckl
