import Ckl.Proofs.Module.Registry

/-!
# What a load of a module does

All ways in which a module can be asked for: there are no modules; the module is being loaded, which is a
cycle; it is loaded; its text is not there or cannot be read; or the text is evaluated in a new frame. Only
in the last case anything is evaluated, and in the others the store is as it was, unless a file is awaited.
-/

namespace Ckl

open Source (Position Node)

/-- The failure is a cycle of modules. -/
def Failure.IsCircular : Failure → Prop
  | .diagnosed diagnostic => ∃ cycle, diagnostic.cause = .runtime (.circularModules cycle)
  | .unreadable _ => False

/-- No other error is one of a cycle. -/
theorem Failure.not_isCircular_runtime {error : RuntimeError} (h : ∀ cycle, error ≠ .circularModules cycle)
    (position : Position) : ¬ (Failure.runtime error position).IsCircular := by
  rintro ⟨cycle, hcause⟩
  exact h cycle (Cause.runtime.inj hcause)

/-- How the load of a module ends: it is not being loaded any more, unless there is no answer. -/
def closeModule (root : FrameRef) :
    EStateM.Result Stop Store FrameRef → EStateM.Result Stop Store FrameRef
  | .ok frame store => .ok frame (store.endModule root)
  | .error (.failed failure) store => .error (.failed failure) (store.endModule root)
  | .error .exhausted store => .error .exhausted store
  | .error (.awaiting path) store => .error (.awaiting path) store

/-- What the evaluation of its text makes of a module. -/
def concludeModule (root : FrameRef) (identifier : String) (frame : FrameRef) :
    EStateM.Result Stop Store Value → EStateM.Result Stop Store FrameRef
  | .ok _ store => .ok frame ((store.keepModule root identifier frame).endModule root)
  | .error (.failed failure) store => .error (.failed failure) (store.endModule root)
  | .error .exhausted store => .error .exhausted store
  | .error (.awaiting path) store => .error (.awaiting path) store

/-- There is no cycle exactly if the module is not being loaded. -/
theorem cycleAt?_eq_none_iff {identifier : String} {loading : List String} :
    cycleAt? identifier loading = none ↔ identifier ∉ loading := by
  rw [cycleAt?, Option.map_eq_none_iff, List.findIdx?_eq_none_iff]
  constructor
  · intro h hmem
    simpa using h identifier hmem
  · intro h other hother
    refine beq_false_of_ne ?_
    rintro rfl
    exact h hother

section Enter

variable {evaluator : Evaluator} {frame root : FrameRef} {identifier file : String}
  {position : Position} {store : Store} {registry : Registry}

/-- Without a registry no module is entered. -/
theorem enterModule_of_no_registry (h : (store.frame (store.root frame)).registry = none) :
    enterModule evaluator frame identifier file position store =
      .error (.failed (.runtime .noModules position)) store := by
  rw [enterModule, Run.read_bind, Run.read_bind, h]
  rfl

variable (hroot : store.root frame = root) (hregistry : (store.frame root).registry = some registry)

include hroot hregistry

/-- What is done about a module is told from the registry of the root. -/
theorem enterModule_of_registry :
    enterModule evaluator frame identifier file position store =
      (match cycleAt? identifier registry.loading with
      | some cycle => Run.fail (.circularModules cycle) position
      | none => do
        beginLoading root identifier
        let outcome ← Run.attempt (loadModule evaluator root registry identifier file position)
        endLoading root
        Run.conclude outcome : Run FrameRef) store := by
  subst hroot
  rw [enterModule, Run.read_bind, Run.read_bind]
  generalize (store.frame (store.root frame)).registry = found at hregistry ⊢
  subst hregistry
  rfl

/-- A module that is being loaded is not entered. -/
theorem enterModule_of_cycle {cycle : List String}
    (h : cycleAt? identifier registry.loading = some cycle) :
    enterModule evaluator frame identifier file position store =
      .error (.failed (.runtime (.circularModules cycle) position)) store := by
  rw [enterModule_of_registry hroot hregistry, h]
  rfl

variable (hcycle : cycleAt? identifier registry.loading = none)

include hcycle

/-- A module that is not being loaded is put on the list, loaded and taken from the list. -/
theorem enterModule_of_no_cycle :
    enterModule evaluator frame identifier file position store =
      closeModule root (loadModule evaluator root registry identifier file position
        (store.beginModule root identifier)) := by
  rw [enterModule_of_registry hroot hregistry, hcycle]
  refine (Run.bind_of_ok (rfl : beginLoading root identifier store =
    .ok () (store.beginModule root identifier))).trans ?_
  show EStateM.bind (Run.attempt _) _ _ = _
  unfold EStateM.bind Run.attempt
  match loadModule evaluator root registry identifier file position
    (store.beginModule root identifier) with
  | .ok inner after => rfl
  | .error (.failed failure) after => rfl
  | .error .exhausted after => rfl
  | .error (.awaiting path) after => rfl

/-- A module that is loaded is found, and nothing is evaluated or changed. -/
theorem enterModule_of_loaded {inner : FrameRef} (h : registry.loaded.get? identifier = some inner) :
    enterModule evaluator frame identifier file position store = .ok inner store := by
  rw [enterModule_of_no_cycle hroot hregistry hcycle, loadModule, h]
  show EStateM.Result.ok inner ((store.beginModule root identifier).endModule root) = _
  rw [Store.endModule_beginModule]

/-- A module that cannot be read changes nothing. -/
theorem enterModule_of_failed {failure : Failure}
    (h : loadModule evaluator root registry identifier file position
      (store.beginModule root identifier) = .error (.failed failure) (store.beginModule root identifier)) :
    enterModule evaluator frame identifier file position store = .error (.failed failure) store := by
  rw [enterModule_of_no_cycle hroot hregistry hcycle, h, closeModule, Store.endModule_beginModule]

variable (hnew : registry.loaded.get? identifier = none)

include hnew

/-- A file that has not been looked up yet is awaited. -/
theorem enterModule_of_unknown {path : String} (h : registry.resolve file = .unknown path) :
    enterModule evaluator frame identifier file position store =
      .error (.awaiting path) (store.beginModule root identifier) := by
  rw [enterModule_of_no_cycle hroot hregistry hcycle, loadModule, hnew]
  simp only [moduleSource, h]
  rfl

/-- The text of a module is evaluated in a frame of its own. -/
theorem enterModule_of_read {text : String} {node : Node} (hfound : registry.resolve file = .found text)
    (hread : Source.readScript file text = .ok node) {inner : FrameRef} {start : Store}
    (hstart : (store.beginModule root identifier).enter root Bindings.empty = (inner, start)) :
    enterModule evaluator frame identifier file position store =
      concludeModule root identifier inner
        (finish node.position (evaluator.node node inner) start) := by
  have henter : Run.enter root Bindings.empty (store.beginModule root identifier) =
      .ok inner start := by
    show EStateM.Result.ok ((store.beginModule root identifier).enter root Bindings.empty).1
      ((store.beginModule root identifier).enter root Bindings.empty).2 = _
    rw [hstart]
  rw [enterModule_of_no_cycle hroot hregistry hcycle, loadModule, hnew]
  simp only [moduleSource, hfound, pure_bind, hread]
  rw [Run.bind_of_ok henter]
  show closeModule root (EStateM.bind (finish _ _) _ start) = _
  unfold EStateM.bind
  match finish node.position (evaluator.node node inner) start with
  | .ok value after => rfl
  | .error (.failed failure) after => rfl
  | .error .exhausted after => rfl
  | .error (.awaiting path) after => rfl

end Enter

/-! ## All ways in which a module can be asked for -/

/-- What asking for a module comes to in a store, whatever evaluator is used. -/
inductive Asking (store : Store) (frame : FrameRef) (identifier file : String) (position : Position) :
    Prop where
  | absent (hregistry : (store.frame (store.root frame)).registry = none)
    (h : ∀ evaluator, enterModule evaluator frame identifier file position store =
      .error (.failed (.runtime .noModules position)) store)
  | cycle (cycle : List String) (hloading : identifier ∈ store.loading (store.root frame))
    (h : ∀ evaluator, enterModule evaluator frame identifier file position store =
      .error (.failed (.runtime (.circularModules cycle) position)) store)
  | loaded (inner : FrameRef) (hfree : identifier ∉ store.loading (store.root frame))
    (hloaded : store.loaded? (store.root frame) identifier = some inner)
    (h : ∀ evaluator, enterModule evaluator frame identifier file position store = .ok inner store)
  | unread (failure : Failure) (hfree : identifier ∉ store.loading (store.root frame))
    (hnew : store.loaded? (store.root frame) identifier = none)
    (hfailure : ¬ failure.IsCircular)
    (h : ∀ evaluator, enterModule evaluator frame identifier file position store =
      .error (.failed failure) store)
  | awaited (path : String) {registry : Registry}
    (hregistry : (store.frame (store.root frame)).registry = some registry)
    (hfree : identifier ∉ store.loading (store.root frame))
    (hnew : store.loaded? (store.root frame) identifier = none)
    (h : ∀ evaluator, enterModule evaluator frame identifier file position store =
      .error (.awaiting path) (store.beginModule (store.root frame) identifier))
  | read {registry : Registry} {text : String} {node : Node} {inner : FrameRef} {start : Store}
    (hregistry : (store.frame (store.root frame)).registry = some registry)
    (hfree : identifier ∉ store.loading (store.root frame))
    (hnew : store.loaded? (store.root frame) identifier = none)
    (hfound : registry.resolve file = .found text) (hread : Source.readScript file text = .ok node)
    (hstart : (store.beginModule (store.root frame) identifier).enter (store.root frame)
      Bindings.empty = (inner, start))
    (h : ∀ evaluator, enterModule evaluator frame identifier file position store =
      concludeModule (store.root frame) identifier inner
        (finish node.position (evaluator.node node inner) start))

/-- A module that is neither loaded nor being loaded. -/
theorem asking_of_new {store : Store} {frame : FrameRef} {identifier : String} {registry : Registry}
    (hregistry : (store.frame (store.root frame)).registry = some registry)
    (hcycle : cycleAt? identifier registry.loading = none)
    (hloaded : registry.loaded.get? identifier = none) (file : String) (position : Position) :
    Asking store frame identifier file position := by
  have hfree : identifier ∉ store.loading (store.root frame) := by
    simpa [Store.loading, hregistry] using cycleAt?_eq_none_iff.mp hcycle
  have hnew : store.loaded? (store.root frame) identifier = none := by
    simpa [Store.loaded?, hregistry] using hloaded
  cases hfound : registry.resolve file with
  | missing =>
    refine .unread (.runtime (.moduleNotFound file) position) hfree hnew
      (Failure.not_isCircular_runtime (fun _ h => by cases h) position) fun evaluator => ?_
    refine enterModule_of_failed rfl hregistry hcycle ?_
    simp only [loadModule, hloaded, moduleSource, hfound]
    rfl
  | unreadable problem =>
    refine .unread (.unreadable problem) hfree hnew id fun evaluator => ?_
    refine enterModule_of_failed rfl hregistry hcycle ?_
    simp only [loadModule, hloaded, moduleSource, hfound]
    rfl
  | unknown path =>
    exact .awaited path hregistry hfree hnew fun evaluator =>
      enterModule_of_unknown rfl hregistry hcycle hloaded hfound
  | found text =>
    cases hread : Source.readScript file text with
    | error fault =>
      refine .unread (.ofFault fault) hfree hnew ?_ fun evaluator => ?_
      · rintro ⟨cycle, hcause⟩
        cases hcause
      refine enterModule_of_failed rfl hregistry hcycle ?_
      simp only [loadModule, hloaded, moduleSource, hfound, pure_bind, hread]
      rfl
    | ok node =>
      exact .read hregistry hfree hnew hfound hread rfl fun evaluator =>
        enterModule_of_read rfl hregistry hcycle hloaded hfound hread rfl

/-- Asking for a module always comes to one of these. -/
theorem asking (store : Store) (frame : FrameRef) (identifier file : String) (position : Position) :
    Asking store frame identifier file position := by
  cases hregistry : (store.frame (store.root frame)).registry with
  | none => exact .absent hregistry fun evaluator => enterModule_of_no_registry hregistry
  | some registry =>
    cases hcycle : cycleAt? identifier registry.loading with
    | some cycle =>
      have hloading : identifier ∈ store.loading (store.root frame) := by
        refine Decidable.byContradiction fun hfree => ?_
        simp only [Store.loading, hregistry, Option.map_some, Option.getD_some] at hfree
        rw [cycleAt?_eq_none_iff.mpr hfree] at hcycle
        cases hcycle
      exact .cycle cycle hloading fun evaluator => enterModule_of_cycle rfl hregistry hcycle
    | none =>
      cases hloaded : registry.loaded.get? identifier with
      | some inner =>
        refine .loaded inner ?_ ?_ fun evaluator => enterModule_of_loaded rfl hregistry hcycle hloaded
        · simpa [Store.loading, hregistry] using cycleAt?_eq_none_iff.mp hcycle
        · simpa [Store.loaded?, hregistry] using hloaded
      | none => exact asking_of_new hregistry hcycle hloaded file position

/-- The text of a module is evaluated when it is asked for: it is found in its file and read, and a frame is
entered for it in which nothing is bound. -/
structure Store.Evaluates (store : Store) (root : FrameRef) (identifier file : String) (node : Node)
    (inner : FrameRef) (start : Store) : Prop where
  free : identifier ∉ store.loading root
  new : store.loaded? root identifier = none
  found : ∃ registry text, (store.frame root).registry = some registry ∧
    registry.resolve file = .found text ∧ Source.readScript file text = .ok node
  entered : (store.beginModule root identifier).enter root Bindings.empty = (inner, start)

/-- The frame for the text of a module is the newest one. -/
theorem Store.Evaluates.index_eq {store : Store} {root : FrameRef} {identifier file : String} {node : Node}
    {inner : FrameRef} {start : Store} (h : store.Evaluates root identifier file node inner start) :
    inner.index = store.frames.size := by
  rw [← show ((store.beginModule root identifier).enter root Bindings.empty).1 = inner from
    congrArg Prod.fst h.entered]
  simp [Store.beginModule]

section Asked

variable {store : Store} {frame : FrameRef} {identifier : String}

/-- A module that is asked for with success is loaded, or its text is evaluated to its end. -/
theorem enterModule_eq_ok {evaluator : Evaluator} {file : String} {position : Position} {inner : FrameRef}
    {after : Store} (hend : enterModule evaluator frame identifier file position store = .ok inner after) :
    (store.loaded? (store.root frame) identifier = some inner ∧ after = store) ∨
      ∃ node start value done, store.Evaluates (store.root frame) identifier file node inner start ∧
        finish node.position (evaluator.node node inner) start = .ok value done ∧
        after = (done.keepModule (store.root frame) identifier inner).endModule (store.root frame) := by
  cases asking store frame identifier file position with
  | loaded found hfree hloaded hask =>
    rw [hask] at hend
    cases hend
    exact .inl ⟨hloaded, rfl⟩
  | @read registry text node found start hregistry hfree hnew hfound hread hstart hask =>
    rw [hask] at hend
    match hdone : finish node.position (evaluator.node node found) start with
    | .ok value done =>
      rw [hdone] at hend
      cases hend
      exact .inr ⟨node, start, value, done, ⟨hfree, hnew, ⟨registry, text, hregistry, hfound, hread⟩, hstart⟩,
        hdone, rfl⟩
    | .error (.failed failure) done => rw [hdone] at hend; cases hend
    | .error .exhausted done => rw [hdone] at hend; cases hend
    | .error (.awaiting path) done => rw [hdone] at hend; cases hend
  | absent _ hask => rw [hask] at hend; cases hend
  | cycle _ _ hask => rw [hask] at hend; cases hend
  | unread _ _ _ _ hask => rw [hask] at hend; cases hend
  | awaited _ _ _ _ hask => rw [hask] at hend; cases hend

/-- Only the evaluation of its text can exhaust a bound when a module is asked for. -/
theorem enterModule_eq_exhausted {evaluator : Evaluator} {file : String} {position : Position}
    {last : Store} (hend : enterModule evaluator frame identifier file position store =
      .error .exhausted last) :
    ∃ node inner start, store.Evaluates (store.root frame) identifier file node inner start ∧
      finish node.position (evaluator.node node inner) start = .error .exhausted last := by
  cases asking store frame identifier file position with
  | @read registry text node inner start hregistry hfree hnew hfound hread hstart hask =>
    rw [hask] at hend
    refine ⟨node, inner, start, ⟨hfree, hnew, ⟨registry, text, hregistry, hfound, hread⟩, hstart⟩, ?_⟩
    match hdone : finish node.position (evaluator.node node inner) start with
    | .ok value done => rw [hdone] at hend; cases hend
    | .error (.failed failure) done => rw [hdone] at hend; cases hend
    | .error .exhausted done =>
      rw [hdone] at hend
      cases hend
      rfl
    | .error (.awaiting path) done => rw [hdone] at hend; cases hend
  | absent _ hask => rw [hask] at hend; cases hend
  | cycle _ _ hask => rw [hask] at hend; cases hend
  | loaded _ _ _ hask => rw [hask] at hend; cases hend
  | unread _ _ _ _ hask => rw [hask] at hend; cases hend
  | awaited _ _ _ _ hask => rw [hask] at hend; cases hend

/-- To ask for a module that is being loaded is a cycle. -/
theorem enterModule_of_loading (h : identifier ∈ store.loading (store.root frame)) (file : String)
    (position : Position) :
    ∃ cycle, ∀ evaluator, enterModule evaluator frame identifier file position store =
      .error (.failed (.runtime (.circularModules cycle) position)) store := by
  cases asking store frame identifier file position with
  | absent hregistry hask => simp [Store.loading, hregistry] at h
  | cycle cycle hloading hask => exact ⟨cycle, hask⟩
  | loaded inner hfree hloaded hask => exact absurd h hfree
  | unread failure hfree hnew hfailure hask => exact absurd h hfree
  | awaited path hregistry hfree hnew hask => exact absurd h hfree
  | read hregistry hfree hnew hfound hread hstart hask => exact absurd h hfree

/-- To ask for a module that is loaded gives its frame. -/
theorem enterModule_of_kept (hfree : identifier ∉ store.loading (store.root frame)) {inner : FrameRef}
    (h : store.loaded? (store.root frame) identifier = some inner) (evaluator : Evaluator)
    (file : String) (position : Position) :
    enterModule evaluator frame identifier file position store = .ok inner store := by
  cases asking store frame identifier file position with
  | absent hregistry hask => simp [Store.loaded?, hregistry] at h
  | cycle cycle hloading hask => exact absurd hloading hfree
  | loaded found hfree hloaded hask =>
    obtain rfl : found = inner := Option.some.inj (hloaded.symm.trans h)
    exact hask evaluator
  | unread failure hfree hnew hfailure hask =>
    rw [hnew] at h
    cases h
  | awaited path hregistry hfree hnew hask =>
    rw [hnew] at h
    cases h
  | read hregistry hfree hnew hfound hread hstart hask =>
    rw [hnew] at h
    cases h

end Asked

end Ckl
