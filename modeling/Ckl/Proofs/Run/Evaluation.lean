import Ckl.Proofs.Run.Discipline

/-!
# Evaluation follows disciplines: parts, collections and control flow

One lemma for each function of the evaluator, in the order in which they build on each other. What a
function does to the store directly is settled by the fields of the discipline, and what it has others do
by the lemmas about these.
-/

namespace Ckl.Discipline

open Source (Position Node Handler Branch)

variable {ι : Type} {d : Discipline ι} {inCall : Bool} {scope : Option FrameRef} {α : Type}

/-! ## Parts of work -/

/-- An operation that does not apply ends work by a failure that every discipline admits. -/
theorem follows_fail (error : RuntimeError) (position : Position) :
    d.follows inCall scope fun _ => (Run.fail error position : Run α) :=
  d.stops (d.admits_error inCall error position)

/-- So does an operation that may not apply, and work goes on with what it gives. -/
theorem follows_check (position : Position) (checked : Checked α) :
    d.follows inCall scope fun _ => Run.check position checked := by
  cases checked with
  | ok value => exact d.gives value
  | error error => exact follows_fail error position

/-- To store something is to change the storages beside the frames. -/
theorem follows_place (fresh : Fresh) : d.follows inCall scope fun _ => Run.place fresh := by
  refine d.aside fun store => ?_
  cases fresh <;> rfl

theorem follows_placeList (items : List Value) :
    d.follows inCall scope fun _ => Run.placeList items :=
  follows_place _

/-- Pairs are stored as lists of two. -/
theorem follows_placePairs (pairs : List (Value × Value)) :
    d.follows inCall scope fun _ => Run.placePairs pairs :=
  follows_mapM (fun _ => follows_placeList _) pairs

/-- An operation on values is read, checked and stored. -/
theorem follows_compute (position : Position) (operation : Store → Checked Fresh) :
    d.follows inCall scope fun _ => Run.compute position operation :=
  d.andThen (d.reads operation) fun _ => d.andThen (follows_check position _) follows_place

/-- A lookup finds something or is a failure that every discipline admits. -/
theorem follows_lookup (frame : FrameRef) (name : String) (position : Position) :
    d.follows inCall scope fun _ => Run.lookup frame name position := by
  refine d.andThen (d.reads _) fun found => ?_
  cases found with
  | none => exact follows_fail _ position
  | some value => exact d.gives value

/-- All that leaves the frames alone is done beside. -/
theorem follows_changing {change : Store → Store}
    (h : ∀ store, (change store).frames = store.frames) :
    d.follows inCall scope fun _ => (modify change : Run Unit) :=
  d.aside h

/-- To define a name is to bind in the frame of the scope. -/
theorem follows_define (frame : FrameRef) (name : String) (value : Value) :
    d.follows inCall (some frame) fun _ => Run.define frame name value :=
  d.binds frame (·.put name value)

/-- Several names are bound at once. -/
theorem follows_defineAll (frame : FrameRef) (entries : List (String × Value)) :
    d.follows inCall (some frame) fun _ => (modify (·.defineAll frame entries) : Run Unit) :=
  d.binds frame (·.putAll entries)

/-- A name is given its former meaning in the frame of the scope. -/
theorem follows_restore (frame : FrameRef) (name : String) (before : Option Value) :
    d.follows inCall (some frame) fun _ => Run.restore frame name before := by
  refine d.andThen (d.binds frame (·.erase name)) fun _ => ?_
  cases before with
  | none => exact d.gives ()
  | some value => exact follows_define frame name value

/-- All names of a loop are, one after the other. -/
theorem follows_restoreAll (frame : FrameRef) (before : List (String × Option Value)) :
    d.follows inCall (some frame) fun _ => restoreAll frame before :=
  follows_forM (fun _ => follows_restore frame _ _) before

/-- A line is taken from an input. -/
theorem follows_readLine (input : Ref .input) :
    d.follows inCall scope fun _ => Run.readLine input := by
  refine d.andThen (d.reads _) fun lines => ?_
  cases lines with
  | nil => exact d.gives none
  | cons line rest =>
    refine d.andThen (follows_changing fun _ => rfl) fun _ => ?_
    cases line with
    | ok text => exact d.gives (some text)
    | error problem => exact d.stops (d.admits_unreadable inCall problem)

/-! ## Iteration -/

/-- Entries are selected, and pairs of them stored. -/
theorem follows_ofEntries (selection : Source.Selection) (entries : List (Value × Value)) :
    d.follows inCall scope fun _ => Iteration.ofEntries selection entries := by
  cases selection with
  | entries => exact follows_map (follows_placePairs entries)
  | _ => exact d.gives _

/-- Items are selected, with their indices if these are asked for. -/
theorem follows_ofList (selection : Source.Selection) (items : List Value) :
    d.follows inCall scope fun _ => Iteration.ofList selection items := by
  cases selection with
  | items => exact d.gives _
  | values => exact d.gives _
  | keys => exact follows_ofEntries .keys _
  | entries => exact follows_ofEntries .entries _

/-- A source that loops do not go through is a failure. -/
theorem follows_ofSource (source : Value) (selection : Source.Selection) (position : Position) :
    d.follows inCall scope fun _ => Iteration.ofSource source selection position := by
  cases source with
  | input ref => exact d.gives _
  | list ref => exact d.andThen (d.reads _) fun _ => follows_ofList selection _
  | set ref => exact follows_map (d.reads _)
  | map ref => exact d.andThen (d.reads _) fun _ => follows_ofEntries selection _
  | object ref => exact d.andThen (d.reads _) fun _ => follows_ofEntries selection _
  | string text => exact d.gives _
  | _ => exact follows_fail _ position

/-- What a loop visits next is read from the store as it is then. -/
theorem follows_next? (iteration : Iteration) :
    d.follows inCall scope fun _ => iteration.next? := by
  cases iteration with
  | items values => cases values <;> exact d.gives _
  | lines input => exact follows_map (follows_readLine input)

/-- A fold over items follows what its steps follow, round by round. -/
theorem follows_fold {σ : Type} {body : ι → σ → Value → Run σ}
    (hbody : ∀ state item, d.follows inCall scope fun k => body k state item) (rounds : Nat)
    (iteration : Iteration) (state : σ) :
    d.follows inCall scope fun k => iteration.fold (body k) rounds state := by
  induction rounds generalizing iteration state with
  | zero => exact d.gives state
  | succ rounds ih =>
    refine d.andThen (follows_next? iteration) fun next => ?_
    cases next with
    | none => exact d.gives state
    | some next => exact d.andThen (hbody state next.1) fun state => ih next.2 state

/-- So does a loop, which ends with the exits that its body does not keep. -/
theorem followsEval_loop {body : ι → Value → Eval Value}
    (hbody : ∀ item, d.followsEval inCall scope fun k => body k item) (rounds : Nat)
    (iteration : Iteration) (last : Value) :
    d.followsEval inCall scope fun k => iteration.loop (body k) rounds last := by
  induction rounds generalizing iteration last with
  | zero => exact followsEval_pure last
  | succ rounds ih =>
    refine followsEval_bind (followsEval_lift (follows_next? iteration)) fun next => ?_
    cases next with
    | none => exact followsEval_pure last
    | some next =>
      refine followsEval_bind (followsEval_outcome (hbody next.1)) fun outcome => ?_
      match outcome with
      | .ok value => exact ih next.2 value
      | .error .break => exact followsEval_pure last
      | .error .continue => exact ih next.2 last
      | .error (.return value) => exact followsEval_exit _

/-! ## Evaluation of the parts of a node -/

/-- Where exits may go no further, `return` gives a value and the others are failures. -/
theorem follows_finish (position : Position) {work : ι → Eval Value}
    (h : d.followsEval inCall scope work) :
    d.follows inCall scope fun k => finish position (work k) := by
  refine d.andThen h fun outcome => ?_
  match outcome with
  | .ok value => exact d.gives value
  | .error (.return value) => exact d.gives value
  | .error .break => exact follows_fail _ _
  | .error .continue => exact follows_fail _ _

section Evaluator

variable {evaluator : ι → Evaluator} (he : d.Obeyed evaluator) (frame : FrameRef)

include he

/-- The value of a node in a place that exits may not leave. -/
theorem follows_value (node : Node) :
    d.follows inCall (some frame) fun k => (evaluator k).value node frame := by
  refine d.andThen (he.node inCall node frame) fun outcome => ?_
  cases outcome with
  | ok value => exact d.gives value
  | error exit => exact follows_fail _ _

/-- A condition is evaluated and checked. -/
theorem followsEval_truth (node : Node) :
    d.followsEval inCall (some frame) fun k => evaluateTruth (evaluator k) node frame :=
  followsEval_bind (he.node inCall node frame) fun _ => followsEval_lift (follows_check _ _)

/-- The same in a place that exits may not leave. -/
theorem follows_truth (node : Node) :
    d.follows inCall (some frame) fun k => (evaluator k).truth node frame :=
  d.andThen (follows_value he frame node) fun _ => follows_check _ _

/-! ## Collections -/

/-- An item is evaluated, or what spreads into several. -/
theorem followsEval_itemValues (item : Node) :
    d.followsEval inCall (some frame) fun k => itemValues (evaluator k) frame item := by
  unfold itemValues
  split
  · refine followsEval_bind (he.node inCall _ frame) fun _ => ?_
    exact followsEval_bind (followsEval_lift (d.reads _)) fun _ => followsEval_lift (follows_check _ _)
  · exact followsEval_bind (he.node inCall item frame) fun _ => followsEval_pure _

/-- The items of a list are evaluated from the left and then stored. -/
theorem followsEval_list (items : List Node) :
    d.followsEval inCall (some frame) fun k => evaluateList (evaluator k) frame items :=
  followsEval_bind (followsEval_mapM (followsEval_itemValues he frame) items) fun _ =>
    followsEval_lift (follows_placeList _)

/-- So are the elements of a set. -/
theorem followsEval_set (items : List Node) :
    d.followsEval inCall (some frame) fun k => evaluateSet (evaluator k) frame items := by
  refine followsEval_bind (followsEval_foldlM (fun keys item => ?_) items _) fun _ =>
    followsEval_lift (follows_place _)
  exact followsEval_bind (followsEval_itemValues he frame item) fun _ => followsEval_lift (d.reads _)

/-- Keys are evaluated before their values. -/
theorem followsEval_itemEntries (item : Source.MapItem Node) :
    d.followsEval inCall (some frame) fun k => itemEntries (evaluator k) frame item := by
  cases item with
  | entry key value =>
    refine followsEval_bind (he.node inCall key frame) fun _ => ?_
    exact followsEval_bind (he.node inCall value frame) fun _ => followsEval_pure _
  | spread inner =>
    refine followsEval_bind (he.node inCall inner frame) fun _ => ?_
    exact followsEval_bind (followsEval_lift (d.reads _)) fun _ => followsEval_lift (follows_check _ _)

/-- The entries of a map are evaluated from the left and then stored. -/
theorem followsEval_map (items : List (Source.MapItem Node)) :
    d.followsEval inCall (some frame) fun k => evaluateMap (evaluator k) frame items := by
  refine followsEval_bind (followsEval_foldlM (fun table item => ?_) items _) fun _ =>
    followsEval_lift (follows_place _)
  exact followsEval_bind (followsEval_itemEntries he frame item) fun _ => followsEval_lift (d.reads _)

/-- So are the members of an object. -/
theorem followsEval_object (members : List (Source.Member Node)) :
    d.followsEval inCall (some frame) fun k => evaluateObject (evaluator k) frame members := by
  refine followsEval_bind (followsEval_foldlM (fun bindings member => ?_) members _) fun _ =>
    followsEval_lift (follows_place _)
  exact followsEval_bind (he.node inCall member.value frame) fun _ => followsEval_pure _

/-- For an item the name is bound, the condition evaluated and then the element. -/
theorem follows_gather (parts : Source.Comprehension Node) (collection : Fresh) (item : Value) :
    d.follows inCall (some frame) fun k => gather (evaluator k) parts frame collection item := by
  refine d.andThen (follows_define frame _ item) fun _ => ?_
  have hgather (fetch : ι → Run Value) (hfetch : d.follows inCall (some frame) fetch)
      (accepted : Bool) :
      d.follows inCall (some frame) fun k => (if accepted = true then do
        let element ← (evaluator k).value parts.element frame
        let value ← fetch k
        Run.read fun store => addElement store element value collection
      else pure collection) :=
    follows_ite (d.andThen (follows_value he frame _) fun _ => d.andThen hfetch fun _ => d.reads _)
      (d.gives collection)
  cases parts.condition with
  | none =>
    cases parts.value with
    | none => exact d.andThen (d.gives true) (hgather _ (d.gives Value.null))
    | some value => exact d.andThen (d.gives true) (hgather _ (follows_value he frame value))
  | some condition =>
    have hcondition : d.follows inCall (some frame) fun k => (evaluator k).truth condition frame :=
      follows_truth he frame condition
    cases parts.value with
    | none => exact d.andThen hcondition (hgather _ (d.gives Value.null))
    | some value => exact d.andThen hcondition (hgather _ (follows_value he frame value))

/-- What a comprehension does once its source has been evaluated, for which it needs no scope. -/
theorem followsEval_gathering (parts : Source.Comprehension Node) (position : Position)
    (source : Value) :
    d.followsEval inCall scope fun k => (do
      let inner ← Run.enter frame Bindings.empty
      let iteration ← Iteration.ofSource source .items position
      let rounds ← Run.read fun store => iteration.rounds store
      let collection ← iteration.fold (gather (evaluator k) parts inner) rounds
        (emptyCollection parts.kind)
      Run.place collection : Eval Value) := by
  unfold followsEval
  simp only [run_lift_bind]
  refine d.enters frame Bindings.empty fun inner => ?_
  refine d.andThen (follows_ofSource source .items position) fun iteration => ?_
  refine d.andThen (d.reads _) fun rounds => ?_
  refine d.andThen (follows_fold (follows_gather he inner parts) rounds iteration _) fun collection => ?_
  exact followsEval_lift (follows_place collection)

/-- A comprehension enters a frame after its source has been evaluated. -/
theorem followsEval_comprehension (parts : Source.Comprehension Node) (position : Position) :
    d.followsEval inCall (some frame) fun k =>
      evaluateComprehension (evaluator k) parts frame position :=
  followsEval_bind (he.node inCall parts.source frame)
    (followsEval_gathering he frame parts position)

/-! ## Control flow -/

/-- Statements are evaluated one after the other. -/
theorem followsEval_sequence (nodes : List Node) :
    d.followsEval inCall (some frame) fun k => evaluateSequence (evaluator k) frame nodes :=
  followsEval_foldlM (fun _ node => he.node inCall node frame) nodes _

/-- Conditions are evaluated up to the first that is true. -/
theorem followsEval_choice (otherwise : Option Node) (branches : List (Branch Node)) :
    d.followsEval inCall (some frame) fun k =>
      evaluateChoice (evaluator k) frame otherwise branches := by
  induction branches with
  | nil =>
    cases otherwise with
    | none => exact followsEval_pure _
    | some node => exact he.node inCall node frame
  | cons branch rest ih =>
    refine followsEval_bind (followsEval_truth he frame branch.condition) fun _ => ?_
    exact followsEval_ite (he.node inCall branch.body frame) ih

/-- A filter is evaluated and compared with what was raised. -/
theorem follows_handles (caught : Caught) (handler : Handler Node) :
    d.follows inCall (some frame) fun k => handles (evaluator k) frame caught handler := by
  unfold handles
  split
  · exact d.gives true
  · exact d.andThen (follows_value he frame _) fun _ => d.reads _

/-- The body of a handler is evaluated while the name of the last error is bound, and after it the name is
restored. -/
theorem follows_runHandler (caught : Caught) (handler : Handler Node) :
    d.follows inCall (some frame) fun k => runHandler (evaluator k) frame caught handler := by
  refine d.andThen (d.reads _) fun before => ?_
  refine d.andThen (follows_restore frame _ _) fun _ => ?_
  refine follows_attempt (followsEval_sequence he frame handler.body) fun outcome houtcome => ?_
  exact d.andThen (follows_restore frame _ before) fun _ => follows_conclude houtcome

/-- A failure that no handler takes goes on as it is. -/
theorem follows_handleFailure {failure : Failure} (hf : d.admits inCall failure) (caught : Caught)
    (handlers : List (Handler Node)) :
    d.follows inCall (some frame) fun k =>
      handleFailure (evaluator k) frame failure caught handlers := by
  induction handlers with
  | nil => exact d.stops hf
  | cons handler rest ih =>
    refine d.andThen (follows_handles he frame caught handler) fun _ => ?_
    exact follows_ite (follows_runHandler he frame caught handler) ih

/-- Statements under handlers are attempted. -/
theorem follows_runHandled (body : List Node) (handlers : List (Handler Node)) :
    d.follows inCall (some frame) fun k => runHandled (evaluator k) frame body handlers := by
  refine follows_attempt (followsEval_sequence he frame body) fun outcome h => ?_
  cases outcome with
  | ok outcome => exact d.gives outcome
  | error failure =>
    have hf := h failure rfl
    dsimp only
    cases failure.caught? with
    | none => exact d.stops hf
    | some caught => exact follows_handleFailure he frame hf caught handlers

/-- The cleanup of a block is done after all ends of its statements, those by exits among them. -/
theorem followsEval_block (body : List Node) (handlers : List (Handler Node)) (cleanup : List Node) :
    d.followsEval inCall (some frame) fun k =>
      evaluateBlock (evaluator k) frame body handlers cleanup := by
  refine follows_attempt (follows_runHandled he frame body handlers) fun outcome houtcome => ?_
  exact d.andThen (followsEval_sequence he frame cleanup) fun _ => follows_conclude houtcome

omit he in
/-- An item is bound to the name of a loop, or its parts to the names. -/
theorem follows_bindItem (parts : Source.Loop Node) (position : Position) (item : Value) :
    d.follows inCall (some frame) fun _ => bindItem parts frame position item := by
  refine follows_ite (d.andThen (d.reads _) fun read => ?_) (follows_defineAll frame _)
  exact d.andThen (follows_check position read) fun _ => follows_defineAll frame _

/-- The names of a loop are bound while it runs and restored after all its ends. -/
theorem followsEval_forLoop (parts : Source.Loop Node) (position : Position) :
    d.followsEval inCall (some frame) fun k => evaluateLoop (evaluator k) parts frame position := by
  refine followsEval_bind (he.node inCall parts.source frame) fun source => ?_
  refine followsEval_bind (followsEval_lift (follows_ofSource source _ position)) fun iteration => ?_
  refine followsEval_bind (followsEval_lift (d.reads _)) fun before => ?_
  refine followsEval_bind (followsEval_lift (d.reads _)) fun rounds => ?_
  have hbody : ∀ item, d.followsEval inCall (some frame) fun k => (do
      bindItem parts frame position item
      (evaluator k).node parts.body frame : Eval Value) := fun item =>
    followsEval_bind (followsEval_lift (follows_bindItem frame parts position item)) fun _ =>
      he.node inCall parts.body frame
  have hloop := followsEval_loop hbody rounds iteration .null
  unfold followsEval
  simp only [run_lift_bind]
  refine follows_attempt hloop fun outcome houtcome => ?_
  exact d.andThen (follows_restoreAll frame before) fun _ => follows_conclude houtcome

/-- A loop under a condition goes on round by round. -/
theorem followsEval_while (condition body : Node) (rounds : Nat) (last : Value) :
    d.followsEval inCall (some frame) fun k =>
      evaluateWhile (evaluator k) condition body frame rounds last := by
  induction rounds generalizing last with
  | zero => exact followsEval_lift d.exhausts
  | succ rounds ih =>
    refine followsEval_bind (followsEval_truth he frame condition) fun holds => ?_
    refine followsEval_ite ?_ (followsEval_pure last)
    refine followsEval_bind (followsEval_outcome (he.node inCall body frame)) fun outcome => ?_
    match outcome with
    | .ok value => exact ih value
    | .error .break => exact followsEval_pure last
    | .error .continue => exact ih last
    | .error (.return value) => exact followsEval_exit _

end Evaluator

end Ckl.Discipline
