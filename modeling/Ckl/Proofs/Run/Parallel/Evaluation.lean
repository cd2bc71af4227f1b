import Ckl.Eval.Control
import Ckl.Eval.Collection
import Ckl.Proofs.Run.Parallel

/-!
# Evaluation on stores with one list more: parts, collections and control flow

One lemma for each function of the evaluator, in the order in which they build on each other.
-/

namespace Ckl

open Collection (Table KeySet)
open Source (Position Node Handler Branch)

variable {gap : Nat}

/-! ## Parts of work -/

/-- Fresh values are stored in both, the later ones moved by the gap. -/
theorem parallel_place (fresh : Fresh) :
    Parallel gap (Value.moved gap) (Run.place fresh) (Run.place (fresh.moved gap)) :=
  parallel_modifyGet fun _ _ h => h.place fresh

theorem parallel_placeList (items : List Value) :
    Parallel gap (Value.moved gap) (Run.placeList items) (Run.placeList (items.map (Value.moved gap))) := by
  rw [Run.placeList, Run.placeList, ← List.map_toArray]
  exact parallel_place (.list items.toArray)

/-- Pairs become lists of two in both. -/
theorem parallel_placePairs (pairs : List (Value × Value)) :
    Parallel gap (List.map (Value.moved gap)) (Run.placePairs pairs)
      (Run.placePairs (pairs.map (Prod.map (Value.moved gap) (Value.moved gap)))) := by
  have hpair : ∀ pair : Value × Value, Parallel gap (Value.moved gap) (Run.placeList [pair.1, pair.2])
      (Run.placeList [(pair.map (Value.moved gap) (Value.moved gap)).1,
        (pair.map (Value.moved gap) (Value.moved gap)).2]) :=
    fun pair => parallel_placeList [pair.1, pair.2]
  exact @parallel_mapM gap _ _ _ _ (Prod.map (Value.moved gap) (Value.moved gap)) _ _
    (fun pair => Run.placeList [pair.1, pair.2]) hpair pairs

/-- An operation is done in both if it gives the moved result of moved operands. -/
theorem parallel_compute (position : Position) {operation operation' : Store → Checked Fresh}
    (h : ∀ ⦃store twin⦄, Store.Twin gap store twin →
      operation' twin = (operation store).map (Fresh.moved gap)) :
    Parallel gap (Value.moved gap) (Run.compute position operation) (Run.compute position operation') :=
  (parallel_read h).bind fun checked => (parallel_check _ position checked).bind parallel_place

/-- A name is bound to a value and to its moved twin. -/
theorem parallel_lookup (frame : FrameRef) (name : String) (position : Position) :
    Parallel gap (Value.moved gap) (Run.lookup frame name position) (Run.lookup frame name position) := by
  refine (parallel_read fun _ _ h => h.lookup? frame name).bind fun found => ?_
  cases found with
  | none => exact parallel_fail _ _ position
  | some value => exact parallel_pure _ value

/-- An assignment binds a value and its moved twin. -/
theorem parallel_assign (frame : FrameRef) (name : String) (value : Value) (position : Position) :
    Parallel gap id (Run.assign frame name value position)
      (Run.assign frame name (value.moved gap) position) := by
  refine (parallel_ask fun _ _ h => h.owner? frame name).bind fun owner => ?_
  cases owner with
  | none => exact parallel_fail _ _ position
  | some owner => exact parallel_modify fun _ _ h => h.define owner name value

/-- So does a definition. -/
theorem parallel_define (frame : FrameRef) (name : String) (value : Value) :
    Parallel gap id (Run.define frame name value) (Run.define frame name (value.moved gap)) :=
  parallel_modify fun _ _ h => h.define frame name value

theorem parallel_defineAll (frame : FrameRef) (entries : List (String × Value)) :
    Parallel gap id (modify (·.defineAll frame entries) : Run Unit)
      (modify (·.defineAll frame (entries.map (Bindings.mapEntry (Value.moved gap))))) :=
  parallel_modify fun _ _ h => h.defineAll frame entries

/-- A former meaning is restored in both. -/
theorem parallel_restore (frame : FrameRef) (name : String) (before : Option Value) :
    Parallel gap id (Run.restore frame name before)
      (Run.restore frame name (before.map (Value.moved gap))) := by
  refine (parallel_modify fun _ _ h => h.undefine frame name).bind fun _ => ?_
  cases before with
  | none => exact parallel_pure id ()
  | some value => exact parallel_define frame name value

/-- Frames have the same numbers in both. -/
theorem parallel_enter (frame : FrameRef) (bindings : Bindings Value) :
    Parallel gap id (Run.enter frame bindings) (Run.enter frame (bindings.map (Value.moved gap))) :=
  parallel_modifyGet fun _ _ h => h.enter frame bindings

/-- Input is read alike. -/
theorem parallel_readLine (input : Ref .input) :
    Parallel gap id (Run.readLine input) (Run.readLine input) := by
  refine (parallel_ask fun _ _ h => h.lines input).bind fun lines => ?_
  cases lines with
  | nil => exact parallel_pure id none
  | cons line rest =>
    refine (parallel_modify fun _ _ h => h.setLines input rest).bind fun _ => ?_
    cases line with
    | ok text => exact parallel_pure id (some text)
    | error problem => exact parallel_stop id (.unreadable problem)

/-! ## Iteration -/

/-- What is left to run over, with the other numbers. -/
def Iteration.moved (gap : Nat) : Iteration → Iteration
  | .items values => .items (values.map (Value.moved gap))
  | .lines input => .lines input

/-- The entries of a map are listed in the same order. -/
theorem parallel_ofEntries (selection : Source.Selection) (entries : List (Value × Value)) :
    Parallel gap (Iteration.moved gap) (Iteration.ofEntries selection entries)
      (Iteration.ofEntries selection (entries.map (Prod.map (Value.moved gap) (Value.moved gap)))) := by
  have hfst : (entries.map (Prod.map (Value.moved gap) (Value.moved gap))).map Prod.fst =
      (entries.map Prod.fst).map (Value.moved gap) := by
    rw [List.map_map, List.map_map]
    rfl
  have hsnd : (entries.map (Prod.map (Value.moved gap) (Value.moved gap))).map Prod.snd =
      (entries.map Prod.snd).map (Value.moved gap) := by
    rw [List.map_map, List.map_map]
    rfl
  cases selection with
  | entries => exact (parallel_placePairs entries).map fun _ => rfl
  | items | keys =>
    rw [Iteration.ofEntries, Iteration.ofEntries, hfst]
    exact parallel_pure (Iteration.moved gap) (.items (entries.map Prod.fst))
  | values =>
    rw [Iteration.ofEntries, Iteration.ofEntries, hsnd]
    exact parallel_pure (Iteration.moved gap) (.items (entries.map Prod.snd))

/-- Indices are not moved with the items that they number. -/
theorem numbered_moved (items : List Value) :
    Iteration.numbered (items.map (Value.moved gap)) =
      (Iteration.numbered items).map (Prod.map (Value.moved gap) (Value.moved gap)) := by
  rw [Iteration.numbered, Iteration.numbered, List.zipIdx_map, List.map_map, List.map_map]
  rfl

/-- The items of a list are visited in the same order. -/
theorem parallel_ofList (selection : Source.Selection) (items : List Value) :
    Parallel gap (Iteration.moved gap) (Iteration.ofList selection items)
      (Iteration.ofList selection (items.map (Value.moved gap))) := by
  have hentries := @parallel_ofEntries gap selection (Iteration.numbered items)
  rw [← numbered_moved] at hentries
  cases selection with
  | items | values => exact parallel_pure (Iteration.moved gap) (.items items)
  | keys | entries => exact hentries

/-- Loops go through moved sources as they do through the sources. -/
theorem parallel_ofSource (source : Value) (selection : Source.Selection) (position : Position) :
    Parallel gap (Iteration.moved gap) (Iteration.ofSource source selection position)
      (Iteration.ofSource (source.moved gap) selection position) := by
  cases source with
  | input ref => exact parallel_pure _ (Iteration.lines ref)
  | list ref =>
    refine (parallel_read fun _ _ h => h.items ref).bind fun items => ?_
    rw [Array.toList_map]
    exact parallel_ofList selection items.toList
  | set ref => exact (parallel_read fun _ _ h => h.sortedKeys ref).map fun _ => rfl
  | map ref => exact (parallel_read fun _ _ h => h.sortedEntries ref).bind (parallel_ofEntries selection)
  | object ref =>
    refine (parallel_read fun _ _ h => h.members ref).bind fun members => ?_
    have hentries := @parallel_ofEntries gap selection
      (members.entries.map fun entry => (.string entry.1, entry.2))
    rw [List.map_map] at hentries
    rw [Bindings.entries_map, List.map_map]
    exact hentries
  | string text =>
    have htexts : ((Text.graphemes text).map Value.string).map (Value.moved gap) =
        (Text.graphemes text).map Value.string := List.map_map
    have hitems := @parallel_pure gap _ _ (Iteration.moved gap)
      (.items ((Text.graphemes text).map Value.string))
    rw [Iteration.moved, htexts] at hitems
    exact hitems
  | _ => exact parallel_fail _ _ position

/-- There is the same number of rounds. -/
theorem parallel_rounds (iteration : Iteration) :
    Parallel gap id (Run.read fun store => iteration.rounds store)
      (Run.read fun store => (iteration.moved gap).rounds store) := by
  refine parallel_ask fun store twin h => ?_
  cases iteration with
  | items values => exact List.length_map ..
  | lines input => exact congrArg List.length (h.lines input)

/-- The next item and what is left behind it, with the other numbers. -/
def movedNext (gap : Nat) : Option (Value × Iteration) → Option (Value × Iteration) :=
  Option.map (Prod.map (Value.moved gap) (Iteration.moved gap))

/-- The next item is the moved one. -/
theorem parallel_next? (iteration : Iteration) :
    Parallel gap (movedNext gap) iteration.next? (iteration.moved gap).next? := by
  cases iteration with
  | items values =>
    cases values with
    | nil => exact parallel_pure (movedNext gap) none
    | cons value rest => exact parallel_pure (movedNext gap) (some (value, .items rest))
  | lines input =>
    refine (parallel_readLine input).map fun line => ?_
    cases line <;> rfl

/-- A fold over items goes on in both as its steps do. -/
theorem parallel_fold {σ : Type} {k : σ → σ} {body other : σ → Value → Run σ}
    (hbody : ∀ state item, Parallel gap k (body state item) (other (k state) (item.moved gap)))
    (rounds : Nat) (iteration : Iteration) (state : σ) :
    Parallel gap k (iteration.fold body rounds state)
      ((iteration.moved gap).fold other rounds (k state)) := by
  induction rounds generalizing iteration state with
  | zero => exact parallel_pure k state
  | succ rounds ih =>
    refine (parallel_next? iteration).bind fun next => ?_
    cases next with
    | none => exact parallel_pure k state
    | some next => exact (hbody state next.1).bind (ih next.2)

/-- A loop goes on in both as its body does. -/
theorem parallelEval_loop {body other : Value → Eval Value}
    (hbody : ∀ item, ParallelEval gap (Value.moved gap) (body item) (other (item.moved gap)))
    (rounds : Nat) (iteration : Iteration) (last : Value) :
    ParallelEval gap (Value.moved gap) (iteration.loop body rounds last)
      ((iteration.moved gap).loop other rounds (last.moved gap)) := by
  induction rounds generalizing iteration last with
  | zero => exact parallelEval_pure _ last
  | succ rounds ih =>
    refine parallelEval_lift_bind (parallel_next? iteration) fun next => ?_
    cases next with
    | none => exact parallelEval_pure _ last
    | some next =>
      refine (hbody next.1).outcome.bind fun outcome => ?_
      rcases outcome with (_ | _ | value) | value
      · exact parallelEval_pure _ last
      · exact ih next.2 last
      · exact parallelEval_exit _ (.return value)
      · exact ih next.2 value

/-! ## Parts of nodes -/

/-- Evaluators that do the same on twins. -/
structure Evaluator.Parallel (gap : Nat) (evaluator : Evaluator) : Prop where
  node : ∀ node frame,
    ParallelEval gap (Value.moved gap) (evaluator.node node frame) (evaluator.node node frame)
  call : ∀ ref arguments frame position,
    Ckl.Parallel gap (Value.moved gap) (evaluator.call ref arguments frame position)
      (evaluator.call ref (arguments.map (Source.Argument.moved gap)) frame position)

section Evaluator

variable {evaluator : Evaluator} (he : evaluator.Parallel gap) (frame : FrameRef) (position : Position)

include he

/-- A node has the value and its moved twin. -/
theorem parallel_value (node : Node) :
    Parallel gap (Value.moved gap) (evaluator.value node frame) (evaluator.value node frame) := by
  refine Parallel.bind (he.node node frame) fun outcome => ?_
  rcases outcome with (_ | _ | value) | value
  · exact parallel_fail _ (.misplaced .break) node.position
  · exact parallel_fail _ (.misplaced .continue) node.position
  · exact parallel_fail _ (.misplaced .return) node.position
  · exact parallel_pure _ value

/-- Truth values are not moved. -/
theorem parallelEval_truth (node : Node) :
    ParallelEval gap id (evaluateTruth evaluator node frame) (evaluateTruth evaluator node frame) := by
  refine (he.node node frame).bind fun value => parallelEval_lift ?_
  rw [Value.asBool_moved]
  exact parallel_check_same node.position value.asBool

theorem parallel_truth (node : Node) :
    Parallel gap id (evaluator.truth node frame) (evaluator.truth node frame) := by
  refine (parallel_value he frame node).bind fun value => ?_
  rw [Value.asBool_moved]
  exact parallel_check_same node.position value.asBool

/-! ## Collections -/

/-- Spread items give the same values moved. -/
theorem parallelEval_itemValues (item : Node) :
    ParallelEval gap (List.map (Value.moved gap)) (itemValues evaluator frame item)
      (itemValues evaluator frame item) := by
  unfold itemValues
  split
  · refine (he.node _ frame).bind fun value => ?_
    refine parallelEval_lift_bind (parallel_read fun _ _ h => h.elements value) fun elements => ?_
    exact parallelEval_lift (parallel_check _ _ elements)
  · exact (he.node item frame).map fun _ => rfl

/-- The items of a list are evaluated in parallel, and the list is stored in both. -/
theorem parallelEval_list (items : List Node) :
    ParallelEval gap (Value.moved gap) (evaluateList evaluator frame items)
      (evaluateList evaluator frame items) := by
  refine (parallelEval_mapM (parallelEval_itemValues he frame) items).bind fun values => ?_
  rw [← List.map_flatten]
  exact parallelEval_lift (parallel_placeList values.flatten)

/-- So are the elements of a set. -/
theorem parallelEval_set (items : List Node) :
    ParallelEval gap (Value.moved gap) (evaluateSet evaluator frame items)
      (evaluateSet evaluator frame items) := by
  let add (keys : KeySet Value) (item : Node) : Eval (KeySet Value) := do
    let values ← itemValues evaluator frame item
    Run.read fun store => KeySet.addAll store.keyRule keys values
  have hadd (keys : KeySet Value) (item : Node) : ParallelEval gap (KeySet.map (Value.moved gap))
      (add keys item) (add (keys.map (Value.moved gap)) item) :=
    (parallelEval_itemValues he frame item).bind fun values =>
      parallelEval_lift (parallel_read fun _ _ h => (KeySet.map_addAll h.keyRule keys values).symm)
  have hkeys := parallelEval_foldlM hadd items (Table.empty : KeySet Value)
  rw [KeySet.map_empty] at hkeys
  exact hkeys.bind fun keys => parallelEval_lift (parallel_place (.set keys))

omit he in
/-- Entries go to the same places of a moved table. -/
theorem addEntries_moved {store twin : Store} (h : Store.Twin gap store twin) (table : Table Value Value)
    (entries : List (Value × Value)) :
    addEntries twin (table.map (Value.moved gap) (Value.moved gap))
        (entries.map (Prod.map (Value.moved gap) (Value.moved gap))) =
      (addEntries store table entries).map (Value.moved gap) (Value.moved gap) :=
  (Table.map_foldl_insert _ h.keyRule table entries).symm

theorem parallelEval_itemEntries (item : Source.MapItem Node) :
    ParallelEval gap (List.map (Prod.map (Value.moved gap) (Value.moved gap)))
      (itemEntries evaluator frame item) (itemEntries evaluator frame item) := by
  cases item with
  | entry key value => exact (he.node key frame).bind fun _ => (he.node value frame).map fun _ => rfl
  | spread inner =>
    refine (he.node inner frame).bind fun value => ?_
    refine parallelEval_lift_bind (parallel_read fun _ _ h => h.spreadEntries value) fun entries => ?_
    exact parallelEval_lift (parallel_check _ _ entries)

/-- The entries of a map are evaluated in parallel. -/
theorem parallelEval_map (items : List (Source.MapItem Node)) :
    ParallelEval gap (Value.moved gap) (evaluateMap evaluator frame items)
      (evaluateMap evaluator frame items) := by
  let add (table : Table Value Value) (item : Source.MapItem Node) : Eval (Table Value Value) := do
    let entries ← itemEntries evaluator frame item
    Run.read fun store => addEntries store table entries
  have hadd (table : Table Value Value) (item : Source.MapItem Node) :
      ParallelEval gap (Table.map (Value.moved gap) (Value.moved gap)) (add table item)
        (add (table.map (Value.moved gap) (Value.moved gap)) item) :=
    (parallelEval_itemEntries he frame item).bind fun entries =>
      parallelEval_lift (parallel_read fun _ _ h => addEntries_moved h table entries)
  have htable := parallelEval_foldlM hadd items (Table.empty : Table Value Value)
  rw [Table.map_empty] at htable
  exact htable.bind fun table => parallelEval_lift (parallel_place (.map table))

/-- So are the members of an object. -/
theorem parallelEval_object (members : List (Source.Member Node)) :
    ParallelEval gap (Value.moved gap) (evaluateObject evaluator frame members)
      (evaluateObject evaluator frame members) := by
  let add (bindings : Bindings Value) (member : Source.Member Node) : Eval (Bindings Value) := do
    return bindings.put member.name (← evaluator.node member.value frame)
  have hadd (bindings : Bindings Value) (member : Source.Member Node) :
      ParallelEval gap (Bindings.map (Value.moved gap)) (add bindings member)
        (add (bindings.map (Value.moved gap)) member) :=
    (he.node member.value frame).map fun value => (Bindings.map_put _ bindings member.name value).symm
  have hbindings := parallelEval_foldlM hadd members Bindings.empty
  exact hbindings.bind fun bindings => parallelEval_lift (parallel_place (.object bindings))

omit he in
/-- An element goes to the same place of a moved collection. -/
theorem addElement_moved {store twin : Store} (h : Store.Twin gap store twin) (element value : Value)
    (collection : Fresh) :
    addElement twin (element.moved gap) (value.moved gap) (collection.moved gap) =
      (addElement store element value collection).moved gap := by
  cases collection with
  | list items => exact congrArg Fresh.list Array.map_push.symm
  | set keys => exact congrArg Fresh.set (KeySet.map_add h.keyRule keys element).symm
  | map entries => exact congrArg Fresh.map (Table.map_insert _ h.keyRule entries element value).symm
  | _ => rfl

/-- One item of a comprehension adds the moved element to the moved collection. -/
theorem parallel_gather (parts : Source.Comprehension Node) (collection : Fresh) (item : Value) :
    Parallel gap (Fresh.moved gap) (gather evaluator parts frame collection item)
      (gather evaluator parts frame (collection.moved gap) (item.moved gap)) := by
  refine (parallel_define frame parts.binder item).bind fun _ => ?_
  have hgather (fetch : Run Value) (hfetch : Parallel gap (Value.moved gap) fetch fetch) (accepted : Bool) :
      Parallel gap (Fresh.moved gap)
        (if accepted = true then do
          let element ← evaluator.value parts.element frame
          let value ← fetch
          Run.read fun store => addElement store element value collection
        else pure collection)
        (if accepted = true then do
          let element ← evaluator.value parts.element frame
          let value ← fetch
          Run.read fun store => addElement store element value (collection.moved gap)
        else pure (collection.moved gap)) :=
    parallel_ite ((parallel_value he frame _).bind fun element => hfetch.bind fun value =>
      parallel_read fun _ _ h => addElement_moved h element value collection) (parallel_pure _ collection)
  have hnull : Parallel gap (Value.moved gap) (pure .null) (pure .null) := parallel_pure _ Value.null
  cases parts.condition with
  | none =>
    have haccepted : Parallel gap id (pure true) (pure true) := parallel_pure id true
    cases parts.value with
    | none => exact haccepted.bind (hgather _ hnull)
    | some value => exact haccepted.bind (hgather _ (parallel_value he frame value))
  | some condition =>
    have haccepted := parallel_truth he frame condition
    cases parts.value with
    | none => exact haccepted.bind (hgather _ hnull)
    | some value => exact haccepted.bind (hgather _ (parallel_value he frame value))

/-- Comprehensions are evaluated in parallel, each in a frame of the same number. -/
theorem parallelEval_comprehension (parts : Source.Comprehension Node) :
    ParallelEval gap (Value.moved gap) (evaluateComprehension evaluator parts frame position)
      (evaluateComprehension evaluator parts frame position) := by
  refine (he.node parts.source frame).bind fun source => ?_
  refine parallelEval_lift_bind (parallel_enter frame Bindings.empty) fun inner => ?_
  refine parallelEval_lift_bind (parallel_ofSource source .items position) fun iteration => ?_
  refine parallelEval_lift_bind (parallel_rounds iteration) fun rounds => ?_
  have hempty : (emptyCollection parts.kind).moved gap = emptyCollection parts.kind := by
    cases parts.kind with
    | list => exact congrArg Fresh.list Array.map_empty
    | set => exact congrArg Fresh.set KeySet.map_empty
    | map => exact congrArg Fresh.map (Table.map_empty _)
  have hfold := parallel_fold (parallel_gather he inner parts) rounds iteration (emptyCollection parts.kind)
  rw [hempty] at hfold
  exact parallelEval_lift_bind hfold fun collection => parallelEval_lift (parallel_place collection)

/-! ## Control flow -/

/-- Statements go on in parallel. -/
theorem parallelEval_sequence (nodes : List Node) :
    ParallelEval gap (Value.moved gap) (evaluateSequence evaluator frame nodes)
      (evaluateSequence evaluator frame nodes) :=
  parallelEval_foldlM (fun _ node => he.node node frame) nodes Value.null

/-- The same branch is taken in both. -/
theorem parallelEval_choice (otherwise : Option Node) (branches : List (Branch Node)) :
    ParallelEval gap (Value.moved gap) (evaluateChoice evaluator frame otherwise branches)
      (evaluateChoice evaluator frame otherwise branches) := by
  induction branches with
  | nil =>
    cases otherwise with
    | none => exact parallelEval_pure _ Value.null
    | some node => exact he.node node frame
  | cons branch rest ih =>
    refine (parallelEval_truth he frame branch.condition).bind fun _ => ?_
    exact parallelEval_ite (he.node branch.body frame) ih

omit he in
/-- What handlers find of a failure, with the other numbers. -/
theorem caught?_moved (failure : Failure) :
    (failure.moved gap).caught? = failure.caught?.map fun caught =>
      ⟨caught.payload.map (Value.moved gap), caught.shown.moved gap⟩ := by
  cases failure with
  | unreadable problem => rfl
  | diagnosed diagnostic =>
    obtain ⟨cause, position, trace⟩ := diagnostic
    cases cause <;> rfl

/-- A filter takes both failures or neither. -/
theorem parallel_handles (caught : Caught) (handler : Handler Node) :
    Parallel gap id (handles evaluator frame caught handler)
      (handles evaluator frame ⟨caught.payload.map (Value.moved gap), caught.shown.moved gap⟩ handler) := by
  unfold handles
  split
  · exact parallel_pure id true
  · refine (parallel_value he frame _).bind fun expected => parallel_ask fun _ _ h => ?_
    dsimp only
    rw [Option.any_map]
    exact congrArg (Option.any · caught.payload) (funext fun payload => h.equal payload expected)

/-- The same handler runs with the value that was caught and with its moved twin. -/
theorem parallel_runHandler (caught : Caught) (handler : Handler Node) :
    Parallel gap (movedEnd gap (Value.moved gap)) (runHandler evaluator frame caught handler)
      (runHandler evaluator frame ⟨caught.payload.map (Value.moved gap), caught.shown.moved gap⟩
        handler) := by
  refine (parallel_read fun _ _ h => h.getLocal? frame Source.lastErrorName).bind fun before => ?_
  refine (parallel_restore frame Source.lastErrorName (some caught.shown)).bind fun _ => ?_
  refine (Parallel.attempt (parallelEval_sequence he frame handler.body)).bind fun outcome => ?_
  exact (parallel_restore frame Source.lastErrorName before).bind fun _ => parallel_conclude _ outcome

/-- A failure is handled by the same handler in both, or goes on in both. -/
theorem parallel_handleFailure (failure : Failure) (caught : Caught) (handlers : List (Handler Node)) :
    Parallel gap (movedEnd gap (Value.moved gap)) (handleFailure evaluator frame failure caught handlers)
      (handleFailure evaluator frame (failure.moved gap)
        ⟨caught.payload.map (Value.moved gap), caught.shown.moved gap⟩ handlers) := by
  induction handlers with
  | nil => exact parallel_stop _ failure
  | cons handler rest ih =>
    exact (parallel_handles he frame caught handler).bind fun _ =>
      parallel_ite (parallel_runHandler he frame caught handler) ih

/-- Statements under handlers are evaluated in parallel, with their exits. -/
theorem parallel_runHandled (body : List Node) (handlers : List (Handler Node)) :
    Parallel gap (movedEnd gap (Value.moved gap)) (runHandled evaluator frame body handlers)
      (runHandled evaluator frame body handlers) := by
  refine (Parallel.attempt (parallelEval_sequence he frame body)).bind fun outcome => ?_
  cases outcome with
  | ok outcome => exact parallel_pure _ outcome
  | error failure =>
    dsimp only [movedOutcome]
    rw [caught?_moved]
    cases failure.caught? with
    | none => exact parallel_stop _ failure
    | some caught => exact parallel_handleFailure he frame failure caught handlers

/-- Blocks end in parallel, and their cleanup is done in both. -/
theorem parallelEval_block (body : List Node) (handlers : List (Handler Node)) (cleanup : List Node) :
    ParallelEval gap (Value.moved gap) (evaluateBlock evaluator frame body handlers cleanup)
      (evaluateBlock evaluator frame body handlers cleanup) := by
  refine Parallel.bind (parallel_runHandled he frame body handlers).attempt fun outcome => ?_
  refine Parallel.bind (parallelEval_sequence he frame cleanup) fun _ => ?_
  exact parallel_conclude _ outcome

omit he in
/-- Loops bind the names to moved items. -/
theorem parallel_bindItem (parts : Source.Loop Node) (item : Value) :
    Parallel gap id (bindItem parts frame position item)
      (bindItem parts frame position (item.moved gap)) := by
  refine parallel_ite ?_ ?_
  · refine (parallel_read fun _ _ h => h.destructure item parts.names.length).bind fun elements => ?_
    refine (parallel_check _ position elements).bind fun elements => ?_
    rw [List.zip_map_right]
    exact parallel_defineAll frame (parts.names.zip elements)
  · have hbind := @parallel_defineAll gap frame ((parts.names.take 1).map (·, item))
    rw [List.map_map] at hbind
    exact hbind

omit he in
/-- After a loop all names have their former meanings in both. -/
theorem parallel_restoreAll (before : List (String × Option Value)) :
    Parallel gap id (restoreAll frame before)
      (restoreAll frame (before.map (Prod.map id (Option.map (Value.moved gap))))) :=
  parallel_forM (fun entry => parallel_restore frame entry.1 entry.2) before

/-- Loops over sources are evaluated in parallel. -/
theorem parallelEval_forLoop (parts : Source.Loop Node) :
    ParallelEval gap (Value.moved gap) (evaluateLoop evaluator parts frame position)
      (evaluateLoop evaluator parts frame position) := by
  refine (he.node parts.source frame).bind fun source => ?_
  refine parallelEval_lift_bind (parallel_ofSource source parts.selection position) fun iteration => ?_
  have hbefore : ∀ ⦃store twin⦄, Store.Twin gap store twin →
      (parts.names.map fun name => (name, twin.getLocal? frame name)) =
        (parts.names.map fun name => (name, store.getLocal? frame name)).map
          (Prod.map id (Option.map (Value.moved gap))) := by
    intro store twin h
    rw [List.map_map]
    exact List.map_congr_left fun name _ => congrArg (name, ·) (h.getLocal? frame name)
  refine parallelEval_lift_bind (parallel_read hbefore) fun before => ?_
  refine parallelEval_lift_bind (parallel_rounds iteration) fun rounds => ?_
  let body (item : Value) : Eval Value := do
    bindItem parts frame position item
    evaluator.node parts.body frame
  have hbody (item : Value) : ParallelEval gap (Value.moved gap) (body item) (body (item.moved gap)) :=
    parallelEval_lift_bind (parallel_bindItem frame position parts item) fun _ => he.node parts.body frame
  have hloop := parallelEval_loop hbody rounds iteration .null
  refine parallelEval_lift_bind (Parallel.attempt hloop) fun outcome => ?_
  refine parallelEval_lift_bind (parallel_restoreAll frame before) fun _ => ?_
  exact parallel_conclude _ outcome

/-- So are loops under conditions, round by round. -/
theorem parallelEval_while (condition body : Node) (rounds : Nat) (last : Value) :
    ParallelEval gap (Value.moved gap) (evaluateWhile evaluator condition body frame rounds last)
      (evaluateWhile evaluator condition body frame rounds (last.moved gap)) := by
  induction rounds generalizing last with
  | zero => exact parallelEval_lift (parallel_exhausted _)
  | succ rounds ih =>
    refine (parallelEval_truth he frame condition).bind fun holds => ?_
    refine parallelEval_ite ?_ (parallelEval_pure _ last)
    refine (he.node body frame).outcome.bind fun outcome => ?_
    rcases outcome with (_ | _ | value) | value
    · exact parallelEval_pure _ last
    · exact ih last
    · exact parallelEval_exit _ (.return value)
    · exact ih value

end Evaluator

end Ckl
