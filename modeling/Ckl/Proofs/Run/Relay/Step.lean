import Ckl.Proofs.Run.Relay

/-!
# Steps relay what handlers do not catch

One lemma for each function of the evaluator that evaluates something. A failure of which handlers find
nothing passes through loops, handlers, loads of modules and all native functions; blocks pass it on once
their cleanup has been run, if it does not fail itself; and a call passes it on with its mark.
-/

namespace Ckl

open Source (Position Node Handler Branch Argument Parameter)

variable {α : Type} {failure : Failure}

/-! ## Iteration -/

/-- A step that fails by the failure ends the fold with it. -/
theorem relays_fold {σ : Type} {body : Option String → σ → Value → Run σ}
    (hbody : ∀ state item, Relays failure fun path => body path state item) (rounds : Nat)
    (iteration : Iteration) (state : σ) :
    Relays failure fun path => iteration.fold (body path) rounds state := by
  induction rounds generalizing iteration state with
  | zero => exact relays_same (pure state)
  | succ rounds ih =>
    refine Relays.behind iteration.next? fun next => ?_
    cases next with
    | none => exact relays_same (pure state)
    | some next => exact (hbody state next.1).bind fun state => ih next.2 state

/-- So does the body of a loop. -/
theorem relaysEval_loop {body : Option String → Value → Eval Value}
    (hbody : ∀ item, RelaysEval failure fun path => body path item) (rounds : Nat)
    (iteration : Iteration) (last : Value) :
    RelaysEval failure fun path => iteration.loop (body path) rounds last := by
  induction rounds generalizing iteration last with
  | zero => exact relaysEval_same (pure last)
  | succ rounds ih =>
    refine RelaysEval.bind (relaysEval_same (liftM iteration.next?)) fun next => ?_
    cases next with
    | none => exact relaysEval_same (pure last)
    | some next =>
      refine RelaysEval.bind (relaysEval_lift (hbody next.1)) fun outcome => ?_
      rcases outcome with (_ | _ | value) | value
      · exact relaysEval_same (pure last)
      · exact ih next.2 last
      · exact relaysEval_same (Eval.exit (.return value))
      · exact ih next.2 value

/-- What ends a script by the failure is that failure. -/
theorem relays_finish (position : Position) {work : Option String → Eval Value}
    (h : RelaysEval failure work) : Relays failure fun path => finish position (work path) :=
  Relays.before h _

/-! ## Sorting -/

section Sorting

variable {less : Option String → α → α → Run Bool}
  (hless : ∀ a b, Relays failure fun path => less path a b)

include hless

/-- Sorting goes on as long as comparisons do: the failure of one is that of all, -/
theorem relays_insertSorted (element : α) (sorted : List α) :
    Relays failure fun path => Builtin.insertSorted (less path) element sorted := by
  induction sorted with
  | nil => exact relays_same (pure [element])
  | cons last others ih =>
    exact (hless element last).bind fun _ => relays_ite (ih.before _) (relays_same _)

/-- in short lists, -/
theorem relays_insertionSort (elements : List α) :
    Relays failure fun path => Builtin.insertionSort (less path) elements :=
  Relays.before (relays_foldlM (fun sorted element => relays_insertSorted hless element sorted) elements [])
    _

/-- in merging -/
theorem relays_mergeSorted : ∀ as bs : List α,
    Relays failure fun path => Builtin.mergeSorted (less path) as bs
  | [], bs => by
    simp only [Builtin.mergeSorted]
    exact relays_same (pure bs)
  | a :: as, [] => by
    simp only [Builtin.mergeSorted]
    exact relays_same (pure (a :: as))
  | a :: as, b :: bs => by
    simp only [Builtin.mergeSorted]
    refine (hless b a).bind fun before => ?_
    exact relays_ite ((relays_mergeSorted (a :: as) bs).before _) ((relays_mergeSorted as (b :: bs)).before _)
termination_by as bs => as.length + bs.length

/-- and in sorting halves. -/
theorem relays_sortHalves (bound : Nat) (elements : List α) :
    Relays failure fun path => Builtin.sortHalves (less path) bound elements := by
  induction bound generalizing elements with
  | zero => exact relays_insertionSort hless elements
  | succ bound ih =>
    refine relays_ite (relays_insertionSort hless elements) ?_
    exact (ih _).bind fun left => (ih _).bind fun right => relays_mergeSorted hless left right

end Sorting

/-- Evaluators all of whose parts relay a failure. -/
structure RelaysParts (failure : Failure) (evaluator : Option String → Evaluator) : Prop where
  node : ∀ node frame, RelaysEval failure fun path => (evaluator path).node node frame
  call : ∀ ref arguments frame position,
    Relays failure fun path => (evaluator path).call ref arguments frame position

section Evaluator

variable {evaluator : Option String → Evaluator} (he : RelaysParts failure evaluator)
  (frame : FrameRef) (position : Position)

include he

/-! ## Collections -/

/-- The value of a node that fails. -/
theorem relays_value (node : Node) : Relays failure fun path => (evaluator path).value node frame :=
  Relays.before (he.node node frame) _

/-- A condition that fails. -/
theorem relaysEval_truth (node : Node) :
    RelaysEval failure fun path => evaluateTruth (evaluator path) node frame :=
  (he.node node frame).before _

theorem relays_truth (node : Node) : Relays failure fun path => (evaluator path).truth node frame :=
  (relays_value he frame node).before _

/-- An item that fails. -/
theorem relaysEval_itemValues (item : Node) :
    RelaysEval failure fun path => itemValues (evaluator path) frame item := by
  unfold itemValues
  split
  · exact (he.node _ frame).before _
  · exact (he.node item frame).before _

/-- An element of a set that fails. -/
theorem relaysEval_set (items : List Node) :
    RelaysEval failure fun path => evaluateSet (evaluator path) frame items :=
  (relaysEval_foldlM (fun _ item => (relaysEval_itemValues he frame item).before _) items _).before _

/-- A key or a value that fails. -/
theorem relaysEval_itemEntries (item : Source.MapItem Node) :
    RelaysEval failure fun path => itemEntries (evaluator path) frame item := by
  cases item with
  | entry key value => exact (he.node key frame).bind fun _ => (he.node value frame).before _
  | spread inner => exact (he.node inner frame).before _

/-- An entry of a map that fails. -/
theorem relaysEval_map (items : List (Source.MapItem Node)) :
    RelaysEval failure fun path => evaluateMap (evaluator path) frame items :=
  (relaysEval_foldlM (fun _ item => (relaysEval_itemEntries he frame item).before _) items _).before _

/-- A member of an object that fails. -/
theorem relaysEval_object (members : List (Source.Member Node)) :
    RelaysEval failure fun path => evaluateObject (evaluator path) frame members :=
  (relaysEval_foldlM (fun _ member => (he.node member.value frame).before _) members _).before _

/-- What fails for an item fails for the comprehension. -/
theorem relays_gather (parts : Source.Comprehension Node) (collection : Fresh) (item : Value) :
    Relays failure fun path => gather (evaluator path) parts frame collection item := by
  refine Relays.behind _ fun _ => ?_
  have hgather (fetch : Option String → Run Value) (hfetch : Relays failure fetch) (accepted : Bool) :
      Relays failure fun path => (if accepted = true then do
        let element ← (evaluator path).value parts.element frame
        let value ← fetch path
        Run.read fun store => addElement store element value collection
      else pure collection) :=
    relays_ite ((relays_value he frame _).bind fun _ => hfetch.before _) (relays_same _)
  cases parts.condition with
  | none =>
    cases parts.value with
    | none => exact Relays.behind _ (hgather _ (relays_same (pure Value.null)))
    | some value => exact Relays.behind _ (hgather _ (relays_value he frame value))
  | some condition =>
    have hcondition : Relays failure fun path => (evaluator path).truth condition frame :=
      relays_truth he frame condition
    cases parts.value with
    | none => exact hcondition.bind (hgather _ (relays_same (pure Value.null)))
    | some value => exact hcondition.bind (hgather _ (relays_value he frame value))

/-- So does its source. -/
theorem relaysEval_comprehension (parts : Source.Comprehension Node) :
    RelaysEval failure fun path => evaluateComprehension (evaluator path) parts frame position := by
  refine RelaysEval.bind (he.node parts.source frame) fun source => ?_
  unfold RelaysEval
  simp only [Discipline.run_lift_bind]
  refine Relays.behind _ fun inner => Relays.behind _ fun iteration => Relays.behind _ fun rounds => ?_
  exact (relays_fold (relays_gather he inner parts) rounds iteration _).before _

/-! ## Control flow -/

/-- A statement that fails ends the statements. -/
theorem relaysEval_sequence (nodes : List Node) :
    RelaysEval failure fun path => evaluateSequence (evaluator path) frame nodes :=
  relaysEval_foldlM (fun _ node => he.node node frame) nodes _

/-- A condition or a branch that fails. -/
theorem relaysEval_choice (otherwise : Option Node) (branches : List (Branch Node)) :
    RelaysEval failure fun path => evaluateChoice (evaluator path) frame otherwise branches := by
  induction branches with
  | nil =>
    cases otherwise with
    | none => exact relaysEval_same (pure Value.null)
    | some node => exact he.node node frame
  | cons branch rest ih =>
    refine (relaysEval_truth he frame branch.condition).bind fun _ => ?_
    exact relaysEval_ite (he.node branch.body frame) ih

/-- A filter that fails does so in place of the failure that it was asked about. -/
theorem relays_handles (caught : Caught) (handler : Handler Node) :
    Relays failure fun path => handles (evaluator path) frame caught handler := by
  unfold handles
  split
  · exact relays_same (pure true)
  · exact (relays_value he frame _).before _

/-- A handler in which the failure occurs ends with it, once the name of the error has its former
meaning. -/
theorem relays_runHandler (caught : Caught) (handler : Handler Node) :
    Relays failure fun path => runHandler (evaluator path) frame caught handler := by
  refine Relays.behind _ fun before => Relays.behind _ fun _ => ?_
  refine Relays.attempt (relaysEval_sequence he frame handler.body) (fun _ => relays_same _) fun after => ?_
  exact Lost.bind_of_ok (Run.restore_eq ..) (lost_stop _)

/-- A handler that fails ends the block by its own failure. -/
theorem relays_handleFailure (other : Failure) (caught : Caught) (handlers : List (Handler Node)) :
    Relays failure fun path => handleFailure (evaluator path) frame other caught handlers := by
  induction handlers with
  | nil => exact relays_same (Run.stop other)
  | cons handler rest ih =>
    exact (relays_handles he frame caught handler).bind fun _ =>
      relays_ite (relays_runHandler he frame caught handler) ih

/-- A block does not handle the failure. -/
theorem relays_runHandled (hcaught : failure.caught? = none) (body : List Node)
    (handlers : List (Handler Node)) :
    Relays failure fun path => runHandled (evaluator path) frame body handlers := by
  refine Relays.attempt (relaysEval_sequence he frame body) (fun outcome => ?_) fun after => ?_
  · cases outcome with
    | ok outcome => exact relays_same (pure outcome)
    | error other =>
      dsimp only
      cases other.caught? with
      | none => exact relays_same (Run.stop other)
      | some caught => exact relays_handleFailure he frame other caught handlers
  · dsimp only
    rw [hcaught]
    exact lost_stop after

/-- The cleanup of a block is run as well, and if it does not fail the block ends as it would without. -/
theorem relaysAt_block (hcaught : failure.caught? = none) (body : List Node)
    (handlers : List (Handler Node)) (cleanup : List Node) {store : Store}
    (hcleanup : ∀ outcome middle, Run.attempt (runHandled (evaluator none) frame body handlers) store =
      .ok outcome middle → ∀ other after,
        (evaluateSequence (evaluator none) frame cleanup).run middle ≠ .error (.failed other) after) :
    RelaysAt failure store fun path => (evaluateBlock (evaluator path) frame body handlers cleanup).run := by
  refine RelaysAt.attempt (relays_runHandled he frame hcaught body handlers store)
    (fun _ => Relays.before (relaysEval_sequence he frame cleanup) _) fun middle hattempt => ?_
  cases hrun : (evaluateSequence (evaluator none) frame cleanup).run middle with
  | ok outcome after => exact Lost.bind_of_ok hrun (lost_stop after)
  | error stop after =>
    refine ⟨stop, after, Run.bind_of_error hrun, ?_⟩
    rintro other rfl
    exact absurd hrun (hcleanup _ middle hattempt other after)

/-- A loop whose source or body fails. -/
theorem relaysEval_forLoop (parts : Source.Loop Node) :
    RelaysEval failure fun path => evaluateLoop (evaluator path) parts frame position := by
  refine RelaysEval.bind (he.node parts.source frame) fun source => ?_
  unfold RelaysEval
  simp only [Discipline.run_lift_bind]
  refine Relays.behind _ fun iteration => Relays.behind _ fun before => Relays.behind _ fun rounds => ?_
  have hbody : ∀ item, RelaysEval failure fun path =>
      loopBody (evaluator path) parts frame position item := fun item =>
    RelaysEval.bind (relaysEval_same (liftM (bindItem parts frame position item))) fun _ =>
      he.node parts.body frame
  refine Relays.attempt (relaysEval_loop hbody rounds iteration .null) (fun _ => relays_same _) fun after => ?_
  exact Lost.bind_of_ok (restoreAll_eq ..) (lost_stop _)

/-- A loop whose condition or body fails. -/
theorem relaysEval_while (condition body : Node) (rounds : Nat) (last : Value) :
    RelaysEval failure fun path => evaluateWhile (evaluator path) condition body frame rounds last := by
  induction rounds generalizing last with
  | zero => exact relaysEval_same (liftM (Run.exhausted : Run Value))
  | succ rounds ih =>
    refine (relaysEval_truth he frame condition).bind fun holds => ?_
    refine relaysEval_ite ?_ (relaysEval_same (pure last))
    refine RelaysEval.bind (relaysEval_lift (he.node body frame)) fun outcome => ?_
    rcases outcome with (_ | _ | value) | value
    · exact relaysEval_same (pure last)
    · exact ih last
    · exact relaysEval_same (Eval.exit (.return value))
    · exact ih value

/-! ## Calls -/

/-- A key function or a comparison that fails. -/
theorem relays_sortElements (arguments : Arguments) :
    Relays failure fun path => Builtin.sortElements arguments (evaluator path) frame position := by
  refine Relays.behind _ fun target => Relays.behind _ fun read => Relays.behind _ fun elements => ?_
  refine Relays.behind _ fun keyFunction => ?_
  refine Relays.bind (relays_mapM (fun element => ?_) elements) fun keyed => ?_
  · cases keyFunction with
    | none => exact relays_same (pure (element, element))
    | some function => exact (he.call function _ frame position).before _
  split
  · exact relays_same _
  · refine Relays.behind _ fun function => ?_
    refine (relays_sortHalves (fun a b => ?_) keyed.length keyed).before _
    exact (he.call function _ frame position).before _

/-- What `eval` is given fails for `eval`. -/
theorem relays_evaluateArgument (arguments : Arguments) :
    Relays failure fun path => Builtin.evaluateArgument arguments (evaluator path) frame position := by
  refine Relays.behind _ fun value => ?_
  have hevaluate : ∀ node : Node, Relays failure fun path => (do
      let inner ← Run.enter frame Bindings.empty
      finish node.position ((evaluator path).node node inner) : Run Value) := fun node =>
    Relays.behind _ fun inner => relays_finish _ (he.node node inner)
  cases value with
  | node ref => exact Relays.behind _ hevaluate
  | string source => exact Relays.behind _ hevaluate
  | _ => exact Relays.behind _ hevaluate

/-- Other built-in functions evaluate nothing. -/
theorem relays_builtin (builtin : Builtin) (arguments : Arguments) :
    Relays failure fun path => builtin.run arguments (evaluator path) frame position := by
  cases builtin with
  | sorted => exact relays_sortElements he frame position arguments
  | eval => exact relays_evaluateArgument he frame position arguments
  | _ => exact relays_same _

/-- An argument that fails. -/
theorem relays_argument (argument : Argument Node) :
    Relays failure fun path => evaluateArgument (evaluator path) frame argument := by
  unfold evaluateArgument
  split
  · exact (relays_value he frame _).before _
  · exact (relays_value he frame _).before _

/-- Arguments from the left, up to the one that fails. -/
theorem relays_arguments (arguments : List (Argument Node)) :
    Relays failure fun path => evaluateArguments (evaluator path) frame arguments :=
  (relays_mapM (relays_argument he frame) arguments).before _

/-- A fallback of a parameter that fails. -/
theorem relays_bindFallbacks (function : String) (parameters : List (Parameter Node)) :
    Relays failure fun path => bindFallbacks (evaluator path) function frame position parameters := by
  induction parameters with
  | nil => exact relays_same (pure ())
  | cons parameter rest ih =>
    refine Relays.behind _ fun found => ?_
    refine relays_ite ?_ ih
    cases parameter.fallback with
    | none => exact Relays.behind _ fun _ => ih
    | some fallback => exact (relays_value he frame fallback).bind fun _ => Relays.behind _ fun _ => ih

/-- The body of a function fails for its call, with a mark of the call. -/
theorem relays_invoke (function : Function) (arguments : List (Argument Value)) :
    Relays failure fun path => invoke (evaluator path) function arguments frame position := by
  refine Relays.behind _ fun bound => Relays.behind _ fun bindings => ?_
  cases function with
  | builtin builtin => exact relays_builtin he frame position builtin bindings
  | host host => exact relays_same _
  | lambda definition made =>
    refine Relays.behind _ fun inner => ?_
    refine (relays_bindFallbacks he inner position _ _).bind fun _ => ?_
    exact relays_finish _ (he.node _ inner)

/-! ## Modules -/

/-- The text of a module fails for its load. -/
theorem relays_loadModule (root : FrameRef) (registry : Registry) (identifier file : String) :
    Relays failure fun path => loadModule (evaluator path) root registry identifier file position := by
  unfold loadModule
  split
  · exact relays_same _
  · refine Relays.behind _ fun source => ?_
    split
    · exact relays_same _
    · refine Relays.behind _ fun inner => ?_
      exact (relays_finish _ (he.node _ inner)).before _

/-- The stack of loads is taken down after a failure too. -/
theorem relays_enterModule (identifier file : String) :
    Relays failure fun path => enterModule (evaluator path) frame identifier file position := by
  refine Relays.behind _ fun root => Relays.behind _ fun found => ?_
  split
  · exact relays_same _
  · split
    · exact relays_same _
    · refine Relays.behind _ fun _ => ?_
      refine Relays.attempt (relays_loadModule he position root _ identifier file) (fun _ => relays_same _)
        fun after => ?_
      exact Lost.bind_of_ok rfl (lost_stop _)

/-- So what fails in a module fails for `require`. -/
theorem relays_requireModule (module : Node) (style : Source.ImportStyle) :
    Relays failure fun path => requireModule (evaluator path) module style frame position :=
  Relays.behind _ fun _ => (relays_enterModule he frame position _ _).before _

/-! ## Steps -/

/-- No statement of the cleanup fails if the node is a block. -/
def CleansUp (evaluator : Evaluator) (node : Node) (frame : FrameRef) (store : Store) : Prop :=
  ∀ body handlers cleanup, node.form = .block body handlers cleanup → ∀ outcome middle,
    Run.attempt (runHandled evaluator frame body handlers) store = .ok outcome middle →
      ∀ other after, (evaluateSequence evaluator frame cleanup).run middle ≠ .error (.failed other) after

/-- A form that is not handled relays the failure, unless a cleanup on the way ends otherwise. -/
theorem relaysAt_step (hcaught : failure.caught? = none) (rounds : Nat) (node : Node) {store : Store}
    (hcleans : CleansUp (evaluator none) node frame store) :
    RelaysAt failure store fun path => (step rounds (evaluator path) node frame).run := by
  have hnode : ∀ node, RelaysEval failure fun path => (evaluator path).node node frame :=
    fun node => he.node node frame
  obtain ⟨place, form⟩ := node
  cases form with
  | block body handlers cleanup =>
    -- the only form that could keep the failure, by its handlers or its cleanup
    exact relaysAt_block he frame hcaught body handlers cleanup (hcleans body handlers cleanup rfl)
  | literal | name | spread | function | breakLoop | continueLoop => exact relays_same _ store
  | list items =>
    exact (relaysEval_mapM (relaysEval_itemValues he frame) items).before _ store
  | set items => exact relaysEval_set he frame items store
  | map items => exact relaysEval_map he frame items store
  | object members => exact relaysEval_object he frame members store
  | comprehension parts => exact relaysEval_comprehension he frame _ parts store
  | choice branches otherwise => exact relaysEval_choice he frame otherwise branches store
  | and left right =>
    refine RelaysEval.bind (relaysEval_truth he frame left) (fun _ => ?_) store
    exact relaysEval_ite ((relaysEval_truth he frame right).before _) (relaysEval_same _)
  | or left right =>
    refine RelaysEval.bind (relaysEval_truth he frame left) (fun _ => ?_) store
    exact relaysEval_ite (relaysEval_same _) ((relaysEval_truth he frame right).before _)
  | not operand => exact (relaysEval_truth he frame operand).before _ store
  | contained element container =>
    exact RelaysEval.bind (hnode element) (fun _ => (hnode container).before _) store
  | call callee arguments =>
    refine RelaysEval.bind (hnode callee) (fun _ => ?_) store
    refine RelaysEval.bind (relaysEval_same _) fun function => ?_
    exact RelaysEval.bind (relaysEval_lift (relays_arguments he frame arguments)) fun _ =>
      relaysEval_lift (he.call function _ frame _)
  | index target key =>
    exact RelaysEval.bind (hnode target) (fun _ => (hnode key).before _) store
  | assignIndex target key value =>
    exact RelaysEval.bind (hnode target) (fun _ => (hnode key).bind fun _ => (hnode value).before _) store
  | invoke target member arguments =>
    refine RelaysEval.bind (hnode target) (fun _ => ?_) store
    refine RelaysEval.bind (relaysEval_same _) fun _ => RelaysEval.bind (relaysEval_same _) fun function => ?_
    exact RelaysEval.bind (relaysEval_lift (relays_arguments he frame arguments)) fun _ =>
      relaysEval_lift (he.call function _ frame _)
  | assign name value => exact (hnode value).before _ store
  | assignAll names value => exact (hnode value).before _ store
  | define name value => exact (hnode value).before _ store
  | defineAll names value => exact (hnode value).before _ store
  | loop parts => exact relaysEval_forLoop he frame _ parts store
  | loopWhile condition body => exact relaysEval_while he frame condition body rounds _ store
  | giveBack value =>
    cases value with
    | none => exact relays_same _ store
    | some value => exact (hnode value).before _ store
  | raise payload => exact (hnode payload).before _ store
  | require module style => exact relaysEval_lift (relays_requireModule he frame _ module style) store

end Evaluator

end Ckl
