import Ckl.Eval
import Ckl.Proofs.Run.Parallel.Builtin

/-!
# Calls and steps on stores with one list more

Arguments, calls, modules and steps end alike on a store and on its twin. So does all evaluation, with the
same bound.
-/

namespace Ckl

open Source (Position Node Parameter Argument)

variable {gap : Nat}

/-! ## Arguments -/

/-- Arguments without names, made of moved values, are the moved arguments. -/
theorem positional_moved (values : List Value) :
    Builtin.positional (values.map (Value.moved gap)) =
      (Builtin.positional values).map (Argument.moved gap) := by
  rw [Builtin.positional, Builtin.positional, List.map_map, List.map_map]
  rfl

/-- A spread value gives its parts as arguments. -/
theorem parallel_spreadArgument (position : Position) (value : Value) :
    Parallel gap (List.map (Argument.moved gap)) (spreadArgument position value)
      (spreadArgument position (value.moved gap)) := by
  have helements : Parallel gap (List.map (Argument.moved gap))
      (do return Builtin.positional (← Run.check position (← Run.read (·.elements value))))
      (do return Builtin.positional (← Run.check position (← Run.read (·.elements (value.moved gap))))) :=
    (parallel_read fun _ _ h => h.elements value).bind fun elements =>
      (parallel_check _ position elements).map positional_moved
  have hentries : Parallel gap (List.map (Argument.moved gap))
      (do
        let entries ← Run.check position (← Run.read (·.spreadEntries value))
        Run.read fun store => entries.map fun entry =>
          (⟨some (store.plainText entry.1), entry.2⟩ : Argument Value))
      (do
        let entries ← Run.check position (← Run.read (·.spreadEntries (value.moved gap)))
        Run.read fun store => entries.map fun entry =>
          (⟨some (store.plainText entry.1), entry.2⟩ : Argument Value)) := by
    refine (parallel_read fun _ _ h => h.spreadEntries value).bind fun entries => ?_
    refine (parallel_check _ position entries).bind fun entries => parallel_read fun _ _ h => ?_
    rw [List.map_map, List.map_map]
    refine List.map_congr_left fun entry _ => ?_
    exact congrArg (fun text => Argument.mk (some text) (entry.2.moved gap)) (h.plainText entry.1)
  cases value with
  | list | set => exact helements
  | _ => exact hentries

section Evaluator

variable {evaluator : Evaluator} (he : evaluator.Parallel gap) (frame : FrameRef) (position : Position)

include he

/-- An argument of a call, spread or not. -/
theorem parallel_argument (argument : Argument Node) :
    Parallel gap (List.map (Argument.moved gap)) (evaluateArgument evaluator frame argument)
      (evaluateArgument evaluator frame argument) := by
  unfold evaluateArgument
  split
  · exact (parallel_value he frame _).bind (parallel_spreadArgument _)
  · exact (parallel_value he frame _).map fun _ => rfl

/-- The arguments of a call in their order. -/
theorem parallel_arguments (arguments : List (Argument Node)) :
    Parallel gap (List.map (Argument.moved gap)) (evaluateArguments evaluator frame arguments)
      (evaluateArguments evaluator frame arguments) := by
  have hmapM := @parallel_mapM gap _ _ _ _ id (List.map (Argument.moved gap))
    (evaluateArgument evaluator frame) (evaluateArgument evaluator frame)
    (parallel_argument he frame) arguments
  rw [List.map_id] at hmapM
  exact hmapM.map fun _ => List.map_flatten.symm

/-! ## Calls -/

omit he in
/-- The parameters are bound to the moved arguments. -/
theorem parallel_argumentBindings (bound : BoundArguments) :
    Parallel gap (Bindings.map (Value.moved gap)) (argumentBindings bound)
      (argumentBindings (bound.moved gap)) := by
  have hparameters := Bindings.map_putAll (Value.moved gap) Bindings.empty bound.parameters
  rw [Bindings.map_empty] at hparameters
  obtain ⟨parameters, rest⟩ := bound
  rw [argumentBindings, argumentBindings]
  dsimp only [BoundArguments.moved] at hparameters ⊢
  rw [← hparameters]
  cases rest with
  | none => exact parallel_pure _ _
  | some rest =>
    obtain ⟨name, values⟩ := rest
    exact (parallel_placeList values).map fun list => (Bindings.map_put _ _ name list).symm

/-- The parameters without an argument get what their fallbacks give. -/
theorem parallel_bindFallbacks (function : String) (parameters : List (Parameter Node)) :
    Parallel gap id (bindFallbacks evaluator function frame position parameters)
      (bindFallbacks evaluator function frame position parameters) := by
  induction parameters with
  | nil => exact parallel_pure id ()
  | cons parameter rest ih =>
    refine (parallel_read fun _ _ h => h.getLocal? frame parameter.name).bind fun found => ?_
    rw [Option.isNone_map]
    refine parallel_ite ?_ ih
    cases parameter.fallback with
    | none => exact (parallel_fail id _ position).bind fun _ => ih
    | some fallback =>
      exact (parallel_value he frame fallback).bind fun value =>
        (parallel_define frame parameter.name value).bind fun _ => ih

/-- Only functions of the host could tell lists by their numbers. -/
theorem parallel_invoke {function : Function} (hfunction : ∀ host, function = .host host → host.Blind)
    (arguments : List (Argument Value)) :
    Parallel gap (Value.moved gap) (invoke evaluator function arguments frame position)
      (invoke evaluator function (arguments.map (Argument.moved gap)) frame position) := by
  rw [invoke, invoke, bindArguments_moved]
  refine (parallel_check _ position _).bind fun bound => ?_
  refine (parallel_argumentBindings bound).bind fun bindings => ?_
  cases function with
  | builtin builtin => exact Builtin.parallel_builtin bindings frame position he builtin
  | host host =>
    intro store twin htwin
    have hitems : ∀ ref : Ref .list, (twin.items (ref.moved gap)).toList =
        (store.items ref).toList.map (Value.moved gap) := by
      intro ref
      rw [htwin.items, Array.toList_map]
    have hrun := hfunction host rfl gap (fun ref => (store.items ref).toList)
      (fun ref => (twin.items ref).toList) bindings position hitems
    have hconclude : Parallel gap (Value.moved gap) _ _ := parallel_conclude (Value.moved gap)
      (host.run (fun ref => (store.items ref).toList) bindings position)
    replace hconclude := hconclude htwin
    rw [← hrun] at hconclude
    exact hconclude
  | lambda definition made =>
    refine (parallel_enter made bindings).bind fun inner => ?_
    refine (parallel_bindFallbacks he inner position _ _).bind fun _ => ?_
    exact parallel_finish _ (he.node _ inner)

omit he in
/-- The mark of a call in a trace shows the arguments as they are printed. -/
theorem callMark_moved {store twin : Store} (h : Store.Twin gap store twin) (function : Function)
    (arguments : List (Argument Value)) :
    callMark twin function (arguments.map (Argument.moved gap)) position =
      callMark store function arguments position := by
  rw [callMark, callMark, List.map_map]
  have htexts : arguments.map ((fun argument => Source.named argument.name
        (shortened (twin.chars argument.value))) ∘ Argument.moved gap) =
      arguments.map fun argument => Source.named argument.name (shortened (store.chars argument.value)) :=
    List.map_congr_left fun argument _ =>
      congrArg (fun chars => Source.named argument.name (shortened chars)) (h.chars argument.value)
  rw [htexts]

omit he in
/-- A failure that leaves a call gets its mark on both sides. -/
theorem leaving_moved (failure : Failure) (mark : String) :
    (failure.moved gap).leaving mark = (failure.leaving mark).moved gap := by
  cases failure <;> rfl

/-- A call of any function, with its parameters, its body and its mark. -/
theorem parallel_callStep (ref : Ref .func) (arguments : List (Argument Value)) :
    Parallel gap (Value.moved gap) (callStep evaluator ref arguments frame position)
      (callStep evaluator ref (arguments.map (Argument.moved gap)) frame position) := by
  intro store twin htwin
  rw [callStep, callStep, Run.read_bind, Run.read_bind, htwin.function]
  have hfunction : ∀ host, store.function ref = .host host → host.Blind :=
    fun _ => Store.host_of_function htwin.hosts
  refine Parallel.bind (parallel_invoke he frame position hfunction arguments).attempt
    (fun outcome => ?_) htwin
  cases outcome with
  | ok value => exact parallel_pure _ value
  | error failure =>
    refine (parallel_ask fun _ _ h => callMark_moved position h _ arguments).bind fun mark => ?_
    dsimp only [movedOutcome, id]
    rw [leaving_moved]
    exact parallel_stop _ (failure.leaving mark)

/-! ## Modules -/

omit he in
/-- The specifier of a module is a text that depends on no reference. -/
theorem parallel_moduleSpecifier (module : Node) :
    Parallel gap id (moduleSpecifier module frame) (moduleSpecifier module frame) := by
  unfold moduleSpecifier
  split
  · exact parallel_pure id _
  · refine (parallel_read fun _ _ h => h.lookup? frame _).bind fun found => ?_
    rcases found with _ | value
    · exact parallel_pure id _
    · cases value <;> exact parallel_pure id _
  · exact parallel_fail id _ _

omit he in
/-- The source of a module is found alike. -/
theorem parallel_moduleSource (registry : Registry) (file : String) :
    Parallel gap id (moduleSource registry file position) (moduleSource registry file position) := by
  rw [moduleSource]
  cases registry.resolve file with
  | found text => exact parallel_pure id text
  | missing => exact parallel_fail id _ position
  | unreadable problem => exact parallel_stop id (.unreadable problem)
  | unknown path => exact fun _ _ h => .error h

/-- A module is loaded into a new frame on both sides. -/
theorem parallel_loadModule (root : FrameRef) (registry : Registry) (identifier file : String) :
    Parallel gap id (loadModule evaluator root registry identifier file position)
      (loadModule evaluator root registry identifier file position) := by
  rw [loadModule]
  cases registry.loaded.get? identifier with
  | some frame => exact parallel_pure id frame
  | none =>
    refine (parallel_moduleSource position registry file).bind fun source => ?_
    dsimp only [id]
    cases Source.readScript file source with
    | error fault => exact parallel_stop id (Failure.ofFault fault)
    | ok node =>
      refine (parallel_enter root Bindings.empty).bind fun inner => ?_
      refine (parallel_finish _ (he.node node inner)).bind fun _ => ?_
      exact (parallel_modify fun _ _ h => h.changeRegistry root _).map fun _ => rfl

/-- A module is entered, from the cache or by loading it. -/
theorem parallel_enterModule (identifier file : String) :
    Parallel gap id (enterModule evaluator frame identifier file position)
      (enterModule evaluator frame identifier file position) := by
  refine (parallel_ask fun _ _ h => h.root frame).bind fun root => ?_
  refine (parallel_read fun _ _ h => h.frame root).bind fun rootFrame => ?_
  dsimp only [Frame.moved, id]
  cases rootFrame.registry with
  | none => exact parallel_fail id .noModules position
  | some registry =>
    cases hcycle : cycleAt? identifier registry.loading with
    | some cycle =>
      dsimp only
      rw [hcycle]
      exact parallel_fail id (.circularModules cycle) position
    | none =>
      dsimp only
      rw [hcycle]
      refine (parallel_modify fun _ _ h => h.changeRegistry root _).bind fun _ => ?_
      refine (parallel_loadModule he position root registry identifier file).attempt.bind fun outcome => ?_
      refine (parallel_modify fun _ _ h => h.changeRegistry root _).bind fun _ => ?_
      exact parallel_conclude id outcome

omit he in
/-- The listed names of a module are bound in the importing frame. -/
theorem parallel_importNames (identifier : String) (names : Bindings Value)
    (listed : List (String × String)) :
    Parallel gap id (importNames frame identifier names position listed)
      (importNames frame identifier (names.map (Value.moved gap)) position listed) := by
  induction listed with
  | nil => exact parallel_pure id ()
  | cons entry rest ih =>
    rw [importNames, importNames, Bindings.get?_map]
    cases names.get? entry.1 with
    | none => exact (parallel_fail id _ position).bind fun _ => ih
    | some value => exact (parallel_define frame entry.2 value).bind fun _ => ih

omit he in
/-- The names of a module are bound in the style of the import. -/
theorem parallel_bindModule (identifier : String) (names : Bindings Value) (style : Source.ImportStyle) :
    Parallel gap (Value.moved gap) (bindModule frame identifier names position style)
      (bindModule frame identifier (names.map (Value.moved gap)) position style) := by
  cases style with
  | unqualified => exact (parallel_defineAll frame names.entries).map fun _ => rfl
  | listed listed => exact (parallel_importNames frame position identifier names listed).map fun _ => rfl
  | qualified localName =>
    exact (parallel_place (.object names)).bind fun object =>
      (parallel_define frame (localName.getD identifier) object).map fun _ => rfl

/-- A requirement, from the specifier to the names that it binds. -/
theorem parallel_requireModule (module : Node) (style : Source.ImportStyle) :
    Parallel gap (Value.moved gap) (requireModule evaluator module style frame position)
      (requireModule evaluator module style frame position) := by
  refine (parallel_moduleSpecifier frame module).bind fun specifier => ?_
  refine (parallel_enterModule he frame position _ _).bind fun moduleFrame => ?_
  have hnames : ∀ ⦃store twin⦄, Store.Twin gap store twin →
      (twin.frame moduleFrame).bindings.restrict isPublic =
        ((store.frame moduleFrame).bindings.restrict isPublic).map (Value.moved gap) := by
    intro store twin h
    rw [h.frame]
    exact (Bindings.map_restrict ..).symm
  exact (parallel_read hnames).bind fun names => parallel_bindModule frame position _ names style

/-! ## Steps -/

omit he in
/-- An assignment to a moved place. -/
theorem parallel_assignIndex (target key value : Value) :
    Parallel gap id (assignIndex target key value position)
      (assignIndex (target.moved gap) (key.moved gap) (value.moved gap) position) := by
  cases target with
  | list ref =>
    have hlength : ∀ ⦃store twin⦄, Store.Twin gap store twin →
        (twin.items (ref.moved gap)).size = (store.items ref).size := by
      intro store twin h
      rw [h.items, Array.size_map]
    refine (parallel_ask hlength).bind fun length => ?_
    rw [Store.Twin.slot]
    refine (parallel_check_same position (Store.slot key length)).bind fun slot => ?_
    refine parallel_modify fun _ _ h => h.changeItems ref fun items => ?_
    exact Array.map_setIfInBounds
  | map ref =>
    have hplace : Parallel gap id
        (do
          let hash ← Run.read (·.keyRule.hash key)
          let existing ← Run.read fun store =>
            (store.table ref).locate hash fun entry => store.keyRule.same entry key
          modify (·.changeTable ref (·.place ⟨hash, key, value⟩ existing)))
        (do
          let hash ← Run.read (·.keyRule.hash (key.moved gap))
          let existing ← Run.read fun store =>
            (store.table ref).locate hash fun entry => store.keyRule.same entry (key.moved gap)
          modify (·.changeTable ref (·.place ⟨hash, key.moved gap, value.moved gap⟩ existing))) := by
      refine (Builtin.parallel_hash key).bind fun hash => ?_
      have hlocate : ∀ ⦃store twin⦄, Store.Twin gap store twin →
          ((twin.table ref).locate hash fun entry => twin.keyRule.same entry (key.moved gap)) =
            (store.table ref).locate hash fun entry => store.keyRule.same entry key := by
        intro store twin h
        have hsame (entry : Value) : twin.keyRule.same (entry.moved gap) (key.moved gap) =
            store.keyRule.same entry key := h.keyRule.same entry key
        rw [h.table]
        exact Collection.Table.locate_map _ _ hsame hash
      refine (parallel_ask hlocate).bind fun existing => ?_
      exact parallel_modify fun _ _ h => h.changeTable ref fun table => Collection.Table.map_place ..
    refine (Builtin.parallel_reaches key (.map ref)).bind fun reaches => ?_
    exact parallel_ite ((parallel_fail id _ position).bind fun _ => hplace) hplace
  | object ref =>
    show Parallel gap id _ (Run.check position (key.moved gap).asString >>= _)
    rw [Value.asString_moved]
    refine (parallel_check_same position key.asString).bind fun name => ?_
    exact parallel_modify fun _ _ h => h.changeMembers ref fun members => Bindings.map_put ..
  | _ => exact parallel_fail id _ position

omit he in
/-- A value is divided among names into moved parts. -/
theorem parallel_partsFor (names : List String) (value : Value) :
    Parallel gap (List.map (Bindings.mapEntry (Value.moved gap))) (partsFor names value position)
      (partsFor names (value.moved gap) position) :=
  (parallel_read fun _ _ h => h.destructure value names.length).bind fun elements =>
    (parallel_check _ position elements).map fun _ => List.zip_map_right ..

omit he in
/-- Several names are assigned moved values. -/
theorem parallel_assignAll (entries : List (String × Value)) :
    Parallel gap id (assignAll frame position entries)
      (assignAll frame position (entries.map (Bindings.mapEntry (Value.moved gap)))) :=
  parallel_forM (fun entry => parallel_assign frame entry.1 entry.2 position) entries

omit he in
/-- A check that has no references in it. -/
theorem parallelEval_check_same {α : Type} (position : Position) (checked : Checked α) :
    ParallelEval gap id (liftM (Run.check position checked)) (liftM (Run.check position checked)) :=
  parallelEval_lift (parallel_check_same position checked)

/-- Every node does the same in twin stores, up to the move of its result. -/
theorem parallelEval_step (rounds : Nat) (node : Node) :
    ParallelEval gap (Value.moved gap) (step rounds evaluator node frame)
      (step rounds evaluator node frame) := by
  have hnode := fun node => he.node node frame
  have htruth := parallelEval_truth he frame
  obtain ⟨place, form⟩ := node
  cases form with
  | literal value =>
    have hliteral : (literalValue value).moved gap = literalValue value := by cases value <;> rfl
    -- a literal value has no reference that could move
    have hpure := @parallelEval_pure gap _ _ (Value.moved gap) (literalValue value)
    rw [hliteral] at hpure
    exact hpure
  | name name => exact parallelEval_lift (parallel_lookup frame name _)
  | spread inner => exact parallelEval_lift (parallel_fail _ _ _)
  | list items => exact parallelEval_list he frame items
  | set items => exact parallelEval_set he frame items
  | map items => exact parallelEval_map he frame items
  | object members => exact parallelEval_object he frame members
  | comprehension parts => exact parallelEval_comprehension he frame _ parts
  | block body handlers cleanup => exact parallelEval_block he frame body handlers cleanup
  | choice branches otherwise => exact parallelEval_choice he frame otherwise branches
  | and left right =>
    refine (htruth left).bind fun _ => parallelEval_ite ?_ (parallelEval_pure _ (Value.boolean false))
    exact (htruth right).map fun _ => rfl
  | or left right =>
    refine (htruth left).bind fun _ => parallelEval_ite (parallelEval_pure _ (Value.boolean true)) ?_
    exact (htruth right).map fun _ => rfl
  | not operand => exact (htruth operand).map fun _ => rfl
  | contained element container =>
    refine (hnode element).bind fun element => (hnode container).bind fun container => ?_
    refine parallelEval_lift_bind (parallel_ask fun _ _ h => h.contains container element) fun found => ?_
    exact (parallelEval_check_same _ found).map fun _ => rfl
  | call callee arguments =>
    refine (hnode callee).bind fun value => ?_
    rw [Value.asFunction_moved]
    refine (parallelEval_check_same _ value.asFunction).bind fun function => ?_
    exact parallelEval_lift_bind (parallel_arguments he frame arguments) fun values =>
      parallelEval_lift (he.call function values frame _)
  | index target key =>
    refine (hnode target).bind fun target => (hnode key).bind fun key => ?_
    refine parallelEval_lift_bind (parallel_read fun _ _ h => h.index target key) fun found => ?_
    exact parallelEval_lift (parallel_check _ _ found)
  | assignIndex target key value =>
    refine (hnode target).bind fun target => (hnode key).bind fun key => (hnode value).bind fun value => ?_
    exact (parallelEval_lift (parallel_assignIndex _ target key value)).map fun _ => rfl
  | invoke target member arguments =>
    refine (hnode target).bind fun target => ?_
    refine parallelEval_lift_bind (parallel_ask fun _ _ h => h.memberFunction target member) fun found => ?_
    refine (parallelEval_check_same _ found).bind fun function => ?_
    exact parallelEval_lift_bind (parallel_arguments he frame arguments) fun values =>
      parallelEval_lift (he.call function values frame _)
  | assign name value =>
    exact (hnode value).bind fun value =>
      (parallelEval_lift (parallel_assign frame name value _)).map fun _ => rfl
  | assignAll names value =>
    refine (hnode value).bind fun value => ?_
    refine parallelEval_lift_bind (parallel_partsFor _ names value) fun entries => ?_
    exact (parallelEval_lift (parallel_assignAll frame _ entries)).map fun _ => rfl
  | define name value =>
    exact (hnode value).bind fun value =>
      (parallelEval_lift (parallel_define frame name value)).map fun _ => rfl
  | defineAll names value =>
    refine (hnode value).bind fun value => ?_
    refine parallelEval_lift_bind (parallel_partsFor _ names value) fun entries => ?_
    exact (parallelEval_lift (parallel_defineAll frame entries)).map fun _ => rfl
  | function definition =>
    exact parallelEval_lift (parallel_modifyGet fun _ _ h => h.placeLambda definition frame)
  | loop parts => exact parallelEval_forLoop he frame _ parts
  | loopWhile condition body => exact parallelEval_while he frame condition body rounds Value.null
  | breakLoop => exact parallelEval_exit _ .break
  | continueLoop => exact parallelEval_exit _ .continue
  | giveBack value =>
    cases value with
    | none => exact parallelEval_exit _ (.return .null)
    | some value => exact (hnode value).bind fun value => parallelEval_exit _ (.return value)
  | raise payload =>
    refine (hnode payload).bind fun payload => ?_
    refine parallelEval_lift_bind (Builtin.parallel_plainText payload) fun text => ?_
    exact parallelEval_lift (parallel_stop _ (.diagnosed { cause := .raised payload text, position := _ }))
  | require module style => exact parallelEval_lift (parallel_requireModule he frame _ module style)

end Evaluator

/-- **Evaluation ends alike on a store and on its twin**, whatever is evaluated or called. -/
theorem parallel_evaluator (gap bound : Nat) : (evaluator bound).Parallel gap := by
  induction bound with
  | zero =>
    exact ⟨fun _ _ => parallelEval_lift (parallel_exhausted _), fun _ _ _ _ => parallel_exhausted _⟩
  | succ bound ih =>
    exact ⟨fun node frame => parallelEval_step ih frame bound node,
      fun ref arguments frame position => parallel_callStep ih frame position ref arguments⟩

end Ckl
