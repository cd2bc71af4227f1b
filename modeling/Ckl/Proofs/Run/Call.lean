import Ckl.Proofs.Run.Evaluation

/-!
# Evaluation follows disciplines: calls, modules and steps

What a call fails with is marked when the call is left, so it is admitted whatever it is, and inside the
call everything is. With the steps of all forms of nodes the induction over the bound closes: whoever
follows a discipline in the parts follows it in the whole (`obeyed_evaluator`).
-/

namespace Ckl.Discipline

open Source (Position Node Argument Parameter)

variable {ι : Type} {d : Discipline ι} {inCall : Bool} {scope : Option FrameRef} {α : Type}

/-! ## Built-in functions -/

section Builtins

variable (arguments : Arguments) (frame : FrameRef) (position : Position)

/-- A stream is an argument, or what a name is bound to. -/
theorem follows_streamOr (argument name : String) :
    d.follows inCall scope fun _ => Builtin.streamOr arguments argument name frame position := by
  unfold Builtin.streamOr
  split
  · exact d.gives _
  · exact follows_lookup frame name position

/-- Writing changes a stream beside the frames, -/
theorem follows_writeTo (ending : String) :
    d.follows inCall scope fun _ => Builtin.writeTo arguments ending frame position := by
  have hwrite : ∀ text : String, d.follows inCall scope fun _ => (do
      let stream ← Builtin.streamOr arguments "out" Builtin.outputName frame position
      let output ← Run.check position stream.asOutput
      modify (·.write output (text ++ ending))
      return Value.null : Run Value) := by
    intro text
    refine d.andThen (follows_streamOr arguments frame position _ _) fun stream => ?_
    refine d.andThen (follows_check position _) fun output => ?_
    exact d.andThen (follows_changing fun _ => rfl) fun _ => d.gives _
  unfold Builtin.writeTo
  cases arguments.optional "obj" with
  | none => exact d.andThen (d.gives "") hwrite
  | some value => exact d.andThen (d.reads _) hwrite

/-- and so does reading. -/
theorem follows_readFrom :
    d.follows inCall scope fun _ => Builtin.readFrom arguments frame position := by
  refine d.andThen (follows_streamOr arguments frame position _ _) fun stream => ?_
  exact d.andThen (follows_check position _) fun input => follows_map (follows_readLine input)

/-- Lists and sets are changed beside the frames. -/
theorem follows_appendTo : d.follows inCall scope fun _ => Builtin.appendTo arguments position := by
  refine d.andThen (follows_check position _) fun target => ?_
  refine d.andThen (follows_check position _) fun element => ?_
  cases target with
  | list ref => exact d.andThen (follows_changing fun _ => rfl) fun _ => d.gives _
  | set ref =>
    refine d.andThen (d.reads _) fun reaches => ?_
    refine follows_ite (d.andThen (follows_fail _ position) fun _ => ?_) ?_ <;>
    · refine d.andThen (d.reads _) fun known => d.andThen (d.reads _) fun hash => ?_
      exact follows_ite (d.gives _)
        (d.andThen (follows_changing fun _ => rfl) fun _ => d.gives _)
  | _ => exact d.andThen (follows_fail _ position) fun _ => d.gives _

/-- A new list is stored. -/
theorem follows_convertList :
    d.follows inCall scope fun _ => Builtin.convertList arguments position := by
  refine d.andThen (follows_check position _) fun value => ?_
  have hother : d.follows inCall scope fun _ => (do
      Run.placeList (← Run.check position (← Run.read (·.elements value))) : Run Value) :=
    d.andThen (d.reads _) fun _ => d.andThen (follows_check position _) follows_placeList
  cases value with
  | map ref => exact d.andThen (d.reads _) fun _ => d.andThen (follows_placePairs _) follows_placeList
  | string text => exact follows_placeList _
  | _ => exact hother

/-- Tests only read the store. -/
theorem follows_answer (test : Store → Checked Bool) :
    d.follows inCall scope fun _ => Builtin.answer position test :=
  d.andThen (d.reads test) fun _ => follows_map (follows_check position _)

end Builtins

/-! ## Sorting -/

section Sorting

variable {less : ι → α → α → Run Bool} (hless : ∀ a b, d.follows inCall scope fun k => less k a b)

include hless

/-- Sorting follows what comparisons follow: to insert one element, -/
theorem follows_insertSorted (element : α) (sorted : List α) :
    d.follows inCall scope fun k => Builtin.insertSorted (less k) element sorted := by
  induction sorted with
  | nil => exact d.gives _
  | cons last others ih =>
    exact d.andThen (hless element last) fun _ => follows_ite (follows_map ih) (d.gives _)

/-- to insert them all, -/
theorem follows_insertionSort (elements : List α) :
    d.follows inCall scope fun k => Builtin.insertionSort (less k) elements :=
  follows_map (follows_foldlM (fun sorted element => follows_insertSorted hless element sorted)
    elements [])

/-- to merge two lists -/
theorem follows_mergeSorted : ∀ as bs : List α,
    d.follows inCall scope fun k => Builtin.mergeSorted (less k) as bs
  | [], bs => by
    simp only [Builtin.mergeSorted]
    exact d.gives bs
  | a :: as, [] => by
    simp only [Builtin.mergeSorted]
    exact d.gives (a :: as)
  | a :: as, b :: bs => by
    simp only [Builtin.mergeSorted]
    refine d.andThen (hless b a) fun before => ?_
    exact follows_ite (follows_map (follows_mergeSorted (a :: as) bs))
      (follows_map (follows_mergeSorted as (b :: bs)))
termination_by as bs => as.length + bs.length

/-- and to sort both halves. -/
theorem follows_sortHalves (bound : Nat) (elements : List α) :
    d.follows inCall scope fun k => Builtin.sortHalves (less k) bound elements := by
  induction bound generalizing elements with
  | zero => exact follows_insertionSort hless elements
  | succ bound ih =>
    refine follows_ite (follows_insertionSort hless elements) ?_
    exact d.andThen (ih _) fun left => d.andThen (ih _) fun right =>
      follows_mergeSorted hless left right

end Sorting

/-! ## Calls -/

section Evaluator

variable {evaluator : ι → Evaluator} (he : d.Obeyed evaluator) (arguments : Arguments)
  (frame : FrameRef) (position : Position)

include he

/-- Key functions and comparisons are called like any others. -/
theorem follows_sortElements :
    d.follows inCall scope fun k =>
      Builtin.sortElements arguments (evaluator k) frame position := by
  refine d.andThen (follows_check position _) fun target => ?_
  refine d.andThen (d.reads _) fun read => d.andThen (follows_check position read) fun elements => ?_
  refine d.andThen (follows_check position _) fun keyFunction => ?_
  refine d.andThen (follows_mapM (fun element => ?_) elements) fun keyed => ?_
  · cases keyFunction with
    | none => exact d.gives _
    | some function => exact follows_map (he.call inCall scope function _ frame position)
  split
  · exact d.andThen (d.reads _) fun sorted => follows_placeList _
  · refine d.andThen (follows_check position _) fun function => ?_
    refine d.andThen (follows_sortHalves (fun a b => ?_) keyed.length keyed) fun sorted =>
      follows_placeList _
    refine d.andThen (he.call inCall scope function _ frame position) fun result => ?_
    exact follows_map (follows_check position _)

omit he in
/-- A text that is read as a script is read inside a call, where its faults are admitted. -/
theorem follows_readSource (source : String) :
    d.follows true scope fun _ => Builtin.readSource source position := by
  unfold Builtin.readSource
  split
  · exact d.gives _
  · exact d.stops (d.admits_inCall _)

/-- In a call, `eval` enters a frame and evaluates in it what it is given. -/
theorem follows_evaluateArgument :
    d.follows true scope fun k =>
      Builtin.evaluateArgument arguments (evaluator k) frame position := by
  refine d.andThen (follows_check position _) fun value => ?_
  have hevaluate : ∀ node : Node, d.follows true scope fun k => (do
      let inner ← Run.enter frame Bindings.empty
      finish node.position ((evaluator k).node node inner) : Run Value) := fun node =>
    d.enters frame Bindings.empty fun inner => follows_finish _ (he.node true node inner)
  cases value with
  | node ref => exact d.andThen (d.reads _) hevaluate
  | string source => exact d.andThen (follows_readSource position source) hevaluate
  | _ => exact d.andThen (follows_fail _ position) hevaluate

/-- Whatever a built-in function does in a call. -/
theorem follows_builtin (builtin : Builtin) :
    d.follows true scope fun k => builtin.run arguments (evaluator k) frame position := by
  have hcheck : ∀ {β : Type} (checked : Checked β),
      d.follows true scope fun _ => Run.check position checked := follows_check position
  cases builtin with
  | add | sub | mul | div | mod | range | set => exact follows_compute position _
  | equals | notEquals | less | lessEquals | greater | greaterEquals | isEmpty | isZero | isNegative
  | isNumerical | isAlphanumerical | isDate | isTime | startsWith | endsWith | contains
  | matchesPattern => exact follows_answer position _
  | type | int | decimal => exact hcheck _
  | length =>
    exact d.andThen (hcheck _) fun _ => d.andThen (d.reads _) fun _ => follows_map (hcheck _)
  | sorted => exact follows_sortElements he arguments frame position
  | append => exact follows_appendTo arguments position
  | string => exact d.andThen (hcheck _) fun _ => follows_map (d.reads _)
  | list => exact follows_convertList arguments position
  | date => exact d.andThen (d.reads _) hcheck
  | println => exact follows_writeTo arguments frame position "\n"
  | print => exact follows_writeTo arguments frame position ""
  | strInput => exact d.andThen (hcheck _) fun _ => d.aside fun _ => rfl
  | readLine => exact follows_readFrom arguments frame position
  | parse =>
    exact d.andThen (hcheck _) fun source =>
      d.andThen (follows_readSource position source) fun _ => d.aside fun _ => rfl
  | eval => exact follows_evaluateArgument he arguments frame position

omit he in
/-- An argument spreads into others after a look at the store. -/
theorem follows_spreadArgument (value : Value) :
    d.follows inCall scope fun _ => spreadArgument position value := by
  have hentries : d.follows inCall scope fun _ => (do
      let entries ← Run.check position (← Run.read (·.spreadEntries value))
      Run.read fun store => entries.map fun entry =>
        (⟨some (store.plainText entry.1), entry.2⟩ : Argument Value) : Run (List (Argument Value))) :=
    d.andThen (d.reads _) fun _ => d.andThen (follows_check position _) fun _ => d.reads _
  cases value with
  | list ref => exact d.andThen (d.reads _) fun _ => follows_map (follows_check position _)
  | set ref => exact d.andThen (d.reads _) fun _ => follows_map (follows_check position _)
  | _ => exact hentries

omit he in
/-- The rest of the arguments is stored as a list. -/
theorem follows_argumentBindings (bound : BoundArguments) :
    d.follows inCall scope fun _ => argumentBindings bound := by
  unfold argumentBindings
  split
  · exact follows_map (follows_placeList _)
  · exact d.gives _

/-- An argument is evaluated in the frame of the caller. -/
theorem follows_argument (argument : Argument Node) :
    d.follows inCall (some frame) fun k => evaluateArgument (evaluator k) frame argument := by
  unfold evaluateArgument
  split
  · exact d.andThen (follows_value he frame _) fun _ => follows_spreadArgument _ _
  · exact follows_map (follows_value he frame _)

/-- So are all of them, from the left. -/
theorem follows_arguments (arguments : List (Argument Node)) :
    d.follows inCall (some frame) fun k => evaluateArguments (evaluator k) frame arguments :=
  follows_map (follows_mapM (follows_argument he frame) arguments)

/-- Fallbacks are evaluated in the frame of the call, each before its parameter is bound. -/
theorem follows_bindFallbacks (function : String) (parameters : List (Parameter Node)) :
    d.follows inCall (some frame) fun k =>
      bindFallbacks (evaluator k) function frame position parameters := by
  induction parameters with
  | nil => exact d.gives ()
  | cons parameter rest ih =>
    refine d.andThen (d.reads _) fun found => follows_ite ?_ ih
    cases parameter.fallback with
    | none => exact d.andThen (follows_fail _ position) fun _ => ih
    | some fallback =>
      refine d.andThen (follows_value he frame fallback) fun _ => ?_
      exact d.andThen (follows_define frame _ _) fun _ => ih

/-- In a call a frame is entered and the body evaluated in it, or something built in is done. -/
theorem follows_invoke (function : Function) (arguments : List (Argument Value)) :
    d.follows true scope fun k => invoke (evaluator k) function arguments frame position := by
  refine d.andThen (follows_check position _) fun bound => ?_
  refine d.andThen (follows_argumentBindings bound) fun bindings => ?_
  cases function with
  | builtin builtin => exact follows_builtin he bindings frame position builtin
  | host host =>
    exact d.andThen (d.reads _) fun _ => follows_conclude fun failure _ => d.admits_inCall failure
  | lambda definition made =>
    refine d.enters made bindings fun inner => ?_
    refine d.andThen (follows_bindFallbacks he inner position _ _) fun _ => ?_
    exact follows_finish _ (he.node true _ inner)

/-- Failures get the mark of the call on their way out. -/
theorem follows_callStep (ref : Ref .func) (arguments : List (Argument Value)) :
    d.follows inCall scope fun k => callStep (evaluator k) ref arguments frame position := by
  refine d.andThen (d.reads _) fun function => ?_
  refine d.attempts (follows_invoke he frame position function arguments) fun outcome _ => ?_
  cases outcome with
  | ok value => exact d.gives value
  | error failure =>
    exact d.andThen (d.reads _) fun mark => d.stops (d.admits_leaving inCall failure mark)

/-! ## Modules -/

omit he in
/-- A specifier is a name or text, or the form is none. -/
theorem follows_moduleSpecifier (module : Node) :
    d.follows inCall scope fun _ => moduleSpecifier module frame := by
  unfold moduleSpecifier
  split
  · exact d.gives _
  · refine d.andThen (d.reads _) fun found => ?_
    split <;> exact d.gives _
  · exact follows_fail _ _

omit he in
/-- Names are imported one by one, up to the first that the module does not show. -/
theorem follows_importNames (identifier : String) (names : Bindings Value)
    (listed : List (String × String)) :
    d.follows inCall (some frame) fun _ => importNames frame identifier names position listed := by
  induction listed with
  | nil => exact d.gives ()
  | cons entry rest ih =>
    cases hn : names.get? entry.1 with
    | none =>
      simp only [importNames, hn]
      exact d.andThen (follows_fail _ position) fun _ => ih
    | some value =>
      simp only [importNames, hn]
      exact d.andThen (follows_define frame _ _) fun _ => ih

omit he in
/-- A module is bound as the form says. -/
theorem follows_bindModule (identifier : String) (names : Bindings Value)
    (style : Source.ImportStyle) :
    d.follows inCall (some frame) fun _ => bindModule frame identifier names position style := by
  cases style with
  | unqualified => exact d.andThen (follows_defineAll frame _) fun _ => d.gives _
  | listed listed =>
    exact d.andThen (follows_importNames frame position identifier names listed) fun _ => d.gives _
  | qualified localName =>
    exact d.andThen (follows_place _) fun _ => follows_map (follows_define frame _ _)

/-- A module is entered and then imported. -/
theorem follows_requireModule (module : Node) (style : Source.ImportStyle) :
    d.follows inCall (some frame) fun k =>
      requireModule (evaluator k) module style frame position := by
  refine d.andThen (follows_moduleSpecifier frame module) fun specifier => ?_
  refine d.andThen (d.modules he.suits he.node frame specifier position) fun moduleFrame => ?_
  exact d.andThen (d.reads _) fun names => follows_bindModule frame position _ names style

/-! ## Steps -/

omit he in
/-- Places of containers are changed beside the frames. -/
theorem follows_assignIndex (target key value : Value) :
    d.follows inCall scope fun _ => assignIndex target key value position := by
  cases target with
  | list ref =>
    refine d.andThen (d.reads _) fun length => ?_
    exact d.andThen (follows_check position _) fun _ => follows_changing fun _ => rfl
  | map ref =>
    refine d.andThen (d.reads _) fun reaches => ?_
    refine follows_ite (d.andThen (follows_fail _ position) fun _ => ?_) ?_ <;>
      exact d.andThen (d.reads _) fun _ => d.andThen (d.reads _) fun _ => follows_changing fun _ => rfl
  | object ref => exact d.andThen (follows_check position _) fun _ => follows_changing fun _ => rfl
  | _ => exact follows_fail _ position

omit he in
/-- The parts of a value are read from the store. -/
theorem follows_partsFor (names : List String) (value : Value) :
    d.follows inCall scope fun _ => partsFor names value position :=
  d.andThen (d.reads _) fun _ => follows_map (follows_check position _)

/-- One step of evaluation, for every form of a node. -/
theorem followsEval_step (rounds : Nat) (node : Node) :
    d.followsEval inCall (some frame) fun k => step rounds (evaluator k) node frame := by
  have hnode : ∀ node, d.followsEval inCall (some frame) fun k => (evaluator k).node node frame :=
    fun node => he.node inCall node frame
  have htruth : ∀ node,
      d.followsEval inCall (some frame) fun k => evaluateTruth (evaluator k) node frame :=
    followsEval_truth he frame
  have hread : ∀ {β : Type} (question : Store → β),
      d.followsEval inCall (some frame) fun _ => (liftM (Run.read question) : Eval β) :=
    fun question => followsEval_lift (d.reads question)
  have hcheck : ∀ {β : Type} (position : Position) (checked : Checked β),
      d.followsEval inCall (some frame) fun _ => (liftM (Run.check position checked) : Eval β) :=
    fun position checked => followsEval_lift (follows_check position checked)
  -- the forms differ only in which of these parts come in which order
  obtain ⟨place, form⟩ := node
  cases form with
  | literal value => exact followsEval_pure _
  | name name => exact followsEval_lift (follows_lookup frame name _)
  | spread inner => exact followsEval_lift (follows_fail _ _)
  | list items => exact followsEval_list he frame items
  | set items => exact followsEval_set he frame items
  | map items => exact followsEval_map he frame items
  | object members => exact followsEval_object he frame members
  | comprehension parts => exact followsEval_comprehension he frame parts _
  | block body handlers cleanup => exact followsEval_block he frame body handlers cleanup
  | choice branches otherwise => exact followsEval_choice he frame otherwise branches
  | and left right =>
    refine followsEval_bind (htruth left) fun _ => followsEval_ite ?_ (followsEval_pure _)
    exact followsEval_bind (htruth right) fun _ => followsEval_pure _
  | or left right =>
    refine followsEval_bind (htruth left) fun _ => followsEval_ite (followsEval_pure _) ?_
    exact followsEval_bind (htruth right) fun _ => followsEval_pure _
  | not operand => exact followsEval_bind (htruth operand) fun _ => followsEval_pure _
  | contained element container =>
    refine followsEval_bind (hnode element) fun _ => followsEval_bind (hnode container) fun _ => ?_
    exact followsEval_bind (hread _) fun _ => followsEval_bind (hcheck _ _) fun _ =>
      followsEval_pure _
  | call callee arguments =>
    refine followsEval_bind (hnode callee) fun _ => followsEval_bind (hcheck _ _) fun function => ?_
    exact followsEval_bind (followsEval_lift (follows_arguments he frame arguments)) fun _ =>
      followsEval_lift (he.call inCall _ function _ frame _)
  | index target key =>
    refine followsEval_bind (hnode target) fun _ => followsEval_bind (hnode key) fun _ => ?_
    exact followsEval_bind (hread _) fun _ => hcheck _ _
  | assignIndex target key value =>
    refine followsEval_bind (hnode target) fun _ => followsEval_bind (hnode key) fun _ => ?_
    refine followsEval_bind (hnode value) fun _ => ?_
    exact followsEval_bind (followsEval_lift (follows_assignIndex _ _ _ _)) fun _ =>
      followsEval_pure _
  | invoke target member arguments =>
    refine followsEval_bind (hnode target) fun _ => followsEval_bind (hread _) fun _ => ?_
    refine followsEval_bind (hcheck _ _) fun function => ?_
    exact followsEval_bind (followsEval_lift (follows_arguments he frame arguments)) fun _ =>
      followsEval_lift (he.call inCall _ function _ frame _)
  | assign name value =>
    refine followsEval_bind (hnode value) fun _ => ?_
    exact followsEval_bind (followsEval_lift (d.assigns frame name _ _)) fun _ => followsEval_pure _
  | assignAll names value =>
    refine followsEval_bind (hnode value) fun _ => ?_
    refine followsEval_bind (followsEval_lift (follows_partsFor _ names _)) fun _ => ?_
    exact followsEval_bind (followsEval_lift (follows_forM (fun _ => d.assigns frame _ _ _) _))
      fun _ => followsEval_pure _
  | define name value =>
    refine followsEval_bind (hnode value) fun _ => ?_
    exact followsEval_bind (followsEval_lift (follows_define frame name _)) fun _ =>
      followsEval_pure _
  | defineAll names value =>
    refine followsEval_bind (hnode value) fun _ => ?_
    refine followsEval_bind (followsEval_lift (follows_partsFor _ names _)) fun _ => ?_
    exact followsEval_bind (followsEval_lift (follows_defineAll frame _)) fun _ =>
      followsEval_pure _
  | function definition => exact followsEval_lift (d.aside fun _ => rfl)
  | loop parts => exact followsEval_forLoop he frame parts _
  | loopWhile condition body => exact followsEval_while he frame condition body rounds _
  | breakLoop => exact followsEval_exit _
  | continueLoop => exact followsEval_exit _
  | giveBack value =>
    cases value with
    | none => exact followsEval_exit _
    | some value => exact followsEval_bind (hnode value) fun _ => followsEval_exit _
  | raise payload =>
    refine followsEval_bind (hnode payload) fun value => followsEval_bind (hread _) fun text => ?_
    exact followsEval_lift (d.stops (d.admits_raised inCall value text _))
  | require module style => exact followsEval_lift (follows_requireModule he frame _ module style)

end Evaluator

/-! ## Evaluation -/

/-- **Evaluation follows every discipline**, whatever is evaluated or called. -/
theorem obeyed_evaluator (hsuits : ∀ bound, d.suits fun _ => evaluator bound) (bound : Nat) :
    d.Obeyed fun _ => evaluator bound := by
  induction bound with
  | zero =>
    exact ⟨fun _ _ _ => followsEval_lift d.exhausts, fun _ _ _ _ _ _ => d.exhausts, hsuits 0⟩
  | succ bound ih =>
    exact ⟨fun _ node frame => followsEval_step ih frame bound node,
      fun _ _ ref arguments frame position => follows_callStep ih frame position ref arguments,
      hsuits (bound + 1)⟩

end Ckl.Discipline
