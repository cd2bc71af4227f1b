import Ckl.Proofs.Run.Bound
import Ckl.Proofs.Run.Intact
import Ckl.Proofs.Run.Parallel.Call

/-!
# Spread lists and arguments that are written out

A call with a list that is written out and spread among its arguments does what the call does with the
items of the list as positional arguments. The items are evaluated by the same steps either way; then the
list is stored, which nothing refers to, and the rest of the call goes on beside it.

An item that is an argument may not be left by an exit, whereas the exit of an item of a list leaves the list
and what is around it; so no item may be left by an exit.
-/

namespace Ckl

open Source (Position Node Argument)

/-! ## Work with exits -/

/-- Goes on with a result, without exits, and leaves it at an exit. -/
def Run.unlessExit {α β : Type} (next : α → Run β) : Except Exit α → Run (Except Exit β)
  | .ok a => do return .ok (← next a)
  | .error exit => return .error exit

/-- What is done unless there was an exit goes further with a greater bound. -/
theorem Run.Rising.unlessExit {α β : Type} {next : Nat → α → Run β}
    (h : ∀ a, Run.Rising fun bound => next bound a) (outcome : Except Exit α) :
    Run.Rising fun bound => Run.unlessExit (next bound) outcome := by
  cases outcome with
  | ok a => exact (h a).bind fun _ => Run.rising_const _
  | error exit => exact Run.rising_const _

namespace Eval

variable {α β : Type}

/-- Evaluations are the same if they run alike. -/
theorem ext {work other : Eval α} (h : work.run = other.run) : work = other := by
  cases work
  cases other
  cases h
  rfl

/-- After an evaluation with a result the rest is run from its end. -/
theorem run_bind_of_ok {work : Eval α} {next : α → Eval β} {store after : Store} {a : α}
    (h : work.run store = .ok (.ok a) after) : (work >>= next).run store = (next a).run after :=
  Run.bind_of_ok h

/-- After an evaluation that stops the rest is not run. -/
theorem run_bind_of_error {work : Eval α} {next : α → Eval β} {store after : Store} {stop : Stop}
    (h : work.run store = .error stop after) : (work >>= next).run store = .error stop after :=
  Run.bind_of_error h

/-- Work without exits behind an evaluation is done unless that exits. -/
theorem run_bind_lift (work : Eval α) (next : α → Run β) :
    (work >>= fun a => liftM (next a)).run = work.run >>= Run.unlessExit next :=
  bind_congr fun outcome => by cases outcome <;> rfl

instance : LawfulMonad Eval := LawfulMonad.mk' Eval
  (fun work => ext ((bind_congr fun outcome => by cases outcome <;> rfl).trans (bind_pure work.run)))
  (fun _ _ => rfl)
  (fun work next last => ext ((bind_assoc work.run _ _).trans
    (bind_congr fun outcome => by cases outcome <;> rfl)))

instance : LawfulMonadLift Run Eval where
  monadLift_pure _ := rfl
  monadLift_bind work next := ext (by
    show (work >>= next) >>= _ = (work >>= _) >>= _
    rw [bind_assoc, bind_assoc]
    rfl)

end Eval

/-! ## Calls, part by part -/

/-- What a call begins with: the function and some of the arguments. -/
abbrev Begun := Ref .func × List (Argument Value)

/-- Where a function is called: the value of a node, or a member of one. -/
inductive CallSite where
  | value (callee : Node)
  | member (target : Node) (name : String)

namespace CallSite

variable (site : CallSite) (evaluator : Evaluator) (frame : FrameRef) (place : Position)

/-- The call with arguments. -/
def node (arguments : List (Argument Node)) : Node :=
  match site with
  | .value callee => .mk place (.call callee arguments)
  | .member target name => .mk place (.invoke target name arguments)

/-- The function that is called. -/
def function : Eval (Ref .func) :=
  match site with
  | .value callee => do
    let value ← evaluator.node callee frame
    Run.check callee.position value.asFunction
  | .member target name => do
    let target ← evaluator.node target frame
    Run.check place (← Run.read (·.memberFunction target name))

/-- The function and its first arguments, with which a call begins. -/
def lead (arguments : List (Argument Node)) : Eval Begun := do
  let function ← site.function evaluator frame place
  return (function, ← evaluateArguments evaluator frame arguments)

end CallSite

/-- What is left of a call once it has begun: the other arguments, and the call of the function. -/
def finishCall (evaluator : Evaluator) (frame : FrameRef) (place : Position) (others : List (Argument Node))
    (begun : Begun) : Run Value := do
  let values ← evaluateArguments evaluator frame others
  evaluator.call begun.1 (begun.2 ++ values) frame place

section Parts

variable (site : CallSite) (evaluator : Evaluator) (frame : FrameRef) (place : Position)
  (first others : List (Argument Node))

/-- The arguments of two lists are evaluated one list after the other. -/
theorem evaluateArguments_append :
    evaluateArguments evaluator frame (first ++ others) = (do
      let values ← evaluateArguments evaluator frame first
      return values ++ (← evaluateArguments evaluator frame others)) := by
  simp only [evaluateArguments, List.mapM_append, bind_assoc, pure_bind, List.flatten_append]

/-- The lead of a call goes on with the arguments behind. -/
theorem run_lead_append :
    (site.lead evaluator frame place (first ++ others)).run =
      (site.lead evaluator frame place first).run >>= Run.unlessExit fun begun => do
        return (begun.1, begun.2 ++ (← evaluateArguments evaluator frame others)) := by
  rw [← Eval.run_bind_lift]
  refine congrArg Eval.run ?_
  simp only [CallSite.lead, evaluateArguments_append, liftM_bind, liftM_pure, bind_assoc, pure_bind]

/-- A call begins with the function and the first arguments, and then it is finished. -/
theorem run_step_node (rounds : Nat) :
    (step rounds evaluator (site.node place (first ++ others)) frame).run =
      (site.lead evaluator frame place first).run >>=
        Run.unlessExit (finishCall evaluator frame place others) := by
  rw [← Eval.run_bind_lift]
  refine congrArg Eval.run ?_
  cases site with
  | value callee =>
    show (do
      let value ← evaluator.node callee frame
      let function ← Run.check callee.position value.asFunction
      let values ← evaluateArguments evaluator frame (first ++ others)
      evaluator.call function values frame place : Eval Value) = _
    simp only [CallSite.lead, CallSite.function, finishCall, evaluateArguments_append, liftM_bind,
      liftM_pure, bind_assoc, pure_bind]
  | member target name =>
    show (do
      let target ← evaluator.node target frame
      let found ← Run.read (·.memberFunction target name)
      let function ← Run.check place found
      let values ← evaluateArguments evaluator frame (first ++ others)
      evaluator.call function values frame place : Eval Value) = _
    simp only [CallSite.lead, CallSite.function, finishCall, evaluateArguments_append, liftM_bind,
      liftM_pure, bind_assoc, pure_bind]

end Parts

/-! ## Items -/

/-- The items as positional arguments. -/
def writtenOut (items : List Node) : List (Argument Node) := items.map (Argument.mk none)

/-- The list of the items as a spread argument. -/
def spreadList (spreadPlace listPlace : Position) (items : List Node) : Argument Node :=
  ⟨none, .mk spreadPlace (.spread (.mk listPlace (.list items)))⟩

/-- A node settles with an end, in a frame and from a store on. -/
def Evaluates (node : Node) (frame : FrameRef) (store : Store)
    (ends : EStateM.Result Stop Store (Except Exit Value)) : Prop :=
  Run.Settles (fun bound => (evaluate bound node frame).run) store ends

/-- When the items are evaluated one after the other, none is left by an exit. -/
def NoneExits (frame : FrameRef) : List Node → Store → Prop
  | [], _ => True
  | item :: rest, store => ∀ outcome after, Evaluates item frame store (.ok outcome after) →
    ∃ value, outcome = .ok value ∧ NoneExits frame rest after

/-- The values of nodes where no exit is allowed. -/
def Evaluator.values (evaluator : Evaluator) (nodes : List Node) (frame : FrameRef) : Run (List Value) :=
  nodes.mapM fun node => evaluator.value node frame

/-- Values are evaluated from the first one on. -/
theorem Evaluator.values_cons (evaluator : Evaluator) (node : Node) (rest : List Node) (frame : FrameRef) :
    evaluator.values (node :: rest) frame = (do
      let value ← evaluator.value node frame
      return value :: (← evaluator.values rest frame)) :=
  List.mapM_cons

section Items

variable {items : List Node} (hplain : ∀ item ∈ items, ∀ inner, item.form ≠ .spread inner)
  (frame : FrameRef)

include hplain

/-- Arguments written out give their values without names. -/
theorem evaluateArguments_writtenOut (evaluator : Evaluator) :
    evaluateArguments evaluator frame (writtenOut items) = (do
      return Builtin.positional (← evaluator.values items frame)) := by
  induction items with
  | nil => rfl
  | cons item rest ih =>
    have hitem : evaluateArgument evaluator frame ⟨none, item⟩ = (do
        return [⟨none, ← evaluator.value item frame⟩]) := by
      unfold evaluateArgument
      split
      · rename_i inner _ hform
        exact absurd hform (hplain item List.mem_cons_self inner)
      · rfl
    have hrest := ih fun other hother => hplain other (List.mem_cons_of_mem _ hother)
    rw [show writtenOut (item :: rest) = [⟨none, item⟩] ++ writtenOut rest from rfl,
      evaluateArguments_append, hrest]
    simp only [evaluateArguments, Evaluator.values_cons, List.mapM_cons, List.mapM_nil, hitem, bind_assoc,
      pure_bind]
    rfl

/-- The items of a list are evaluated as arguments are, if none of them is left by an exit. -/
theorem run_itemValues (bound : Nat) {store : Store} (h : NoneExits frame items store) :
    (items.mapM (itemValues (evaluator bound) frame)).run store = (do
      let values ← (evaluator bound).values items frame
      return Except.ok (values.map ([·]))) store := by
  induction items generalizing store with
  | nil => rfl
  | cons item rest ih =>
    have hitem : itemValues (evaluator bound) frame item = (do
        return [← (evaluator bound).node item frame]) := by
      unfold itemValues
      split
      · rename_i inner hform
        exact absurd hform (hplain item List.mem_cons_self inner)
      · rfl
    have hrest := @ih fun other hother => hplain other (List.mem_cons_of_mem _ hother)
    simp only [Evaluator.values_cons, List.mapM_cons, hitem, bind_assoc, pure_bind]
    cases hends : ((evaluator bound).node item frame).run store with
    | error stop after =>
      have hvalue : (evaluator bound).value item frame store = .error stop after := Run.bind_of_error hends
      rw [Eval.run_bind_of_error hends, Run.bind_of_error hvalue]
    | ok outcome after =>
      obtain ⟨value, rfl, hnext⟩ := h outcome after ⟨bound, hends, id⟩
      have hvalue : (evaluator bound).value item frame store = .ok value after := Run.bind_of_ok hends
      rw [Eval.run_bind_of_ok hends, Run.bind_of_ok hvalue]
      have htail := hrest hnext
      cases hvalues : (evaluator bound).values rest frame after with
      | ok values last =>
        rw [Run.bind_of_ok hvalues] at htail
        rw [Eval.run_bind_of_ok htail, Run.bind_of_ok hvalues]
        rfl
      | error stop last =>
        rw [Run.bind_of_error hvalues] at htail
        rw [Eval.run_bind_of_error htail, Run.bind_of_error hvalues]

/-- What a spread list adds to the arguments: the values of its items, which are stored before. -/
theorem run_spreadList (spreadPlace listPlace : Position) (bound : Nat) {store : Store}
    (h : NoneExits frame items store) :
    evaluateArguments (evaluator (bound + 1)) frame [spreadList spreadPlace listPlace items] store = (do
      let values ← (evaluator bound).values items frame
      let _ ← Run.placeList values
      return Builtin.positional values) store := by
  have hitems := run_itemValues hplain frame bound h
  -- a single argument is its own list of arguments
  have hargument : evaluateArguments (evaluator (bound + 1)) frame
      [spreadList spreadPlace listPlace items] = (do
        let value ← (evaluator (bound + 1)).value (.mk listPlace (.list items)) frame
        spreadArgument listPlace value) := by
    simp only [evaluateArguments, List.mapM_cons, List.mapM_nil, bind_assoc, pure_bind, List.flatten_cons,
      List.flatten_nil, List.append_nil, bind_pure]
    rfl
  rw [hargument]
  cases hvalues : (evaluator bound).values items frame store with
  | ok values after =>
    rw [Run.bind_of_ok hvalues] at hitems
    have hlist : ((evaluator (bound + 1)).node (.mk listPlace (.list items)) frame).run store =
        .ok (.ok (after.place (.list values.toArray)).1) (after.place (.list values.toArray)).2 := by
      refine (Eval.run_bind_of_ok hitems).trans ?_
      rw [← List.flatMap_def, List.flatMap_singleton']
      rfl
    have hvalue : (evaluator (bound + 1)).value (.mk listPlace (.list items)) frame store =
        .ok (after.place (.list values.toArray)).1 (after.place (.list values.toArray)).2 :=
      Run.bind_of_ok hlist
    have helements : (after.place (.list values.toArray)).2.elements (after.place (.list values.toArray)).1 =
        .ok values := by
      simp [Store.place, Store.elements, Store.items]
    rw [Run.bind_of_ok hvalues, Run.bind_of_ok hvalue]
    show (Run.read (·.elements (after.place (.list values.toArray)).1) >>= fun elements => do
      return Builtin.positional (← Run.check listPlace elements))
        (after.place (.list values.toArray)).2 = _
    rw [Run.read_bind, helements]
    rfl
  | error stop after =>
    rw [Run.bind_of_error hvalues] at hitems
    have hlist : ((evaluator (bound + 1)).node (.mk listPlace (.list items)) frame).run store =
        .error stop after := Eval.run_bind_of_error hitems
    have hvalue : (evaluator (bound + 1)).value (.mk listPlace (.list items)) frame store =
        .error stop after := Run.bind_of_error hlist
    rw [Run.bind_of_error hvalues, Run.bind_of_error hvalue]

end Items

/-! ## Calls as they settle -/

/-- The evaluation of values goes further with a greater bound. -/
theorem rising_values (frame : FrameRef) (nodes : List Node) :
    Run.Rising fun bound => (evaluator bound).values nodes frame :=
  fun bound => @Discipline.follows_mapM _ bounded false (some frame) _ _
    (fun next node => (if next then evaluator (bound + 1) else evaluator bound).value node frame)
    (fun node => Discipline.follows_value (bounded_obeyed bound) frame node) nodes

/-- The lead of a call goes further with a greater bound. -/
theorem rising_lead (site : CallSite) (frame : FrameRef) (place : Position)
    (arguments : List (Argument Node)) :
    Run.Rising fun bound => (site.lead (evaluator bound) frame place arguments).run := by
  intro bound
  have he := bounded_obeyed bound
  have hfunction : bounded.followsEval false (some frame) fun next =>
      site.function (if next then evaluator (bound + 1) else evaluator bound) frame place := by
    cases site with
    | value callee =>
      exact Discipline.followsEval_bind (he.node false callee frame) fun _ =>
        Discipline.followsEval_lift (Discipline.follows_check _ _)
    | member target name =>
      exact Discipline.followsEval_bind (he.node false target frame) fun _ =>
        Discipline.followsEval_bind (Discipline.followsEval_lift (bounded.reads _)) fun _ =>
          Discipline.followsEval_lift (Discipline.follows_check _ _)
  have hlead : bounded.followsEval false (some frame) fun next =>
      site.lead (if next then evaluator (bound + 1) else evaluator bound) frame place arguments := by
    refine Discipline.followsEval_bind hfunction fun _ => ?_
    exact Discipline.followsEval_bind
      (Discipline.followsEval_lift (Discipline.follows_arguments he frame arguments)) fun _ =>
        Discipline.followsEval_pure _
  exact hlead

/-- What is left of a call, with each bound, after its beginning has come out in some way. -/
def restOfCall (frame : FrameRef) (place : Position) (others : List (Argument Node))
    (outcome : Except Exit Begun) (bound : Nat) : Run (Except Exit Value) :=
  Run.unlessExit (finishCall (evaluator bound) frame place others) outcome

/-- What is left of a call goes further with a greater bound. -/
theorem rising_restOfCall (frame : FrameRef) (place : Position) (others : List (Argument Node))
    (outcome : Except Exit Begun) :
    Run.Rising (restOfCall frame place others outcome) :=
  .unlessExit (fun _ => (rising_arguments frame others).bind fun _ => rising_call _ _ frame place) outcome

section Calls

variable {site : CallSite} {frame : FrameRef} {place spreadPlace listPlace : Position}
  {first others before : List (Argument Node)} {items : List Node} {store : Store}
  {ends : EStateM.Result Stop Store (Except Exit Value)}
  {leadEnds : EStateM.Result Stop Store (Except Exit Begun)}

/-- The beginning of a call, its function and its first arguments, settles with an end. -/
def CallSite.Leads (site : CallSite) (frame : FrameRef) (place : Position)
    (arguments : List (Argument Node)) (store : Store)
    (ends : EStateM.Result Stop Store (Except Exit Begun)) : Prop :=
  Run.Settles (fun bound => (site.lead (evaluator bound) frame place arguments).run) store ends

/-- A call settles as it does after its beginning. -/
theorem evaluates_node_iff :
    Evaluates (site.node place (first ++ others)) frame store ends ↔
      (∃ outcome moment, site.Leads frame place first store (.ok outcome moment) ∧
        Run.Settles (restOfCall frame place others outcome) moment ends) ∨
      ∃ stop moment, site.Leads frame place first store (.error stop moment) ∧ ends = .error stop moment := by
  rw [Evaluates, ← Run.settles_succ_iff (rising_node _ frame)]
  refine Iff.trans (Run.settles_congr fun bound => ?_) (Run.settles_bind_iff
    (rising_lead site frame place first) (rising_restOfCall frame place others))
  exact congrFun (run_step_node site (evaluator bound) frame place first others bound) store

/-! ## The list is stored -/

/-- With the items spread, the beginning of a call ends as it does with the items written out, but that
there is a list more. -/
inductive Stored : EStateM.Result Stop Store (Except Exit Begun) →
    EStateM.Result Stop Store (Except Exit Begun) → Prop
  | begun (begun : Begun) (moment : Store) (items : Array Value) :
    Stored (.ok (.ok begun) moment) (.ok (.ok begun) (moment.place (.list items)).2)
  | exit (exit : Exit) (moment : Store) : Stored (.ok (.error exit) moment) (.ok (.error exit) moment)
  | stop (stop : Stop) (moment : Store) : Stored (.error stop moment) (.error stop moment)

/-- Both leads are given up or none is. -/
theorem Stored.exhausted_iff
    {leadEnds' : EStateM.Result Stop Store (Except Exit Begun)}
    (h : Stored leadEnds leadEnds') : Exhausted leadEnds ↔ Exhausted leadEnds' := by
  cases h <;> exact Iff.rfl

/-- The values of items behind the arguments with which a call has begun; they are stored, too. -/
def storeItems (evaluator : Evaluator) (frame : FrameRef) (items : List Node)
    (begun : Begun) : Run Begun := do
  let values ← evaluator.values items frame
  let _ ← Run.placeList values
  return (begun.1, begun.2 ++ Builtin.positional values)

variable (hplain : ∀ item ∈ items, ∀ inner, item.form ≠ .spread inner)

include hplain

/-- Beside the list that is stored, the leads end alike. -/
theorem stored_storeItems (evaluator : Evaluator) (store : Store) :
    Stored ((site.lead evaluator frame place (before ++ writtenOut items)).run store)
      (((site.lead evaluator frame place before).run >>=
        Run.unlessExit (storeItems evaluator frame items)) store) := by
  rw [run_lead_append, evaluateArguments_writtenOut hplain]
  cases hlead : (site.lead evaluator frame place before).run store with
  | error stop moment =>
    rw [Run.bind_of_error hlead, Run.bind_of_error hlead]
    exact .stop stop moment
  | ok outcome moment =>
    rw [Run.bind_of_ok hlead, Run.bind_of_ok hlead]
    cases outcome with
    | error exit => exact .exit exit moment
    | ok begun =>
      simp only [Run.unlessExit, storeItems, bind_assoc, pure_bind]
      cases hvalues : evaluator.values items frame moment with
      | error stop last =>
        rw [Run.bind_of_error hvalues, Run.bind_of_error hvalues]
        exact .stop stop last
      | ok values last =>
        rw [Run.bind_of_ok hvalues, Run.bind_of_ok hvalues]
        exact .begun _ last values.toArray

/-- The beginning of a call with the spread list settles as it does with the items, which are stored. -/
theorem leads_spreadList_iff
    (hexits : ∀ begun moment, site.Leads frame place before store (.ok (.ok begun) moment) →
      NoneExits frame items moment) :
    site.Leads frame place (before ++ [spreadList spreadPlace listPlace items]) store leadEnds ↔
      Run.Settles (fun bound => (site.lead (evaluator bound) frame place before).run >>=
        Run.unlessExit (storeItems (evaluator bound) frame items)) store leadEnds := by
  have hlead := rising_lead site frame place before
  have hspread := fun begun : Begun =>
    (rising_arguments frame [spreadList spreadPlace listPlace items]).bind fun values =>
      Run.rising_const (pure (begun.1, begun.2 ++ values))
  have hstore := fun begun : Begun =>
    (rising_values frame items).bind fun values => Run.rising_const (do
      let _ ← Run.placeList values
      return (begun.1, begun.2 ++ Builtin.positional values))
  refine (Run.settles_congr fun bound => congrFun (run_lead_append ..) store).trans ?_
  refine (Run.settles_bind_iff hlead (.unlessExit hspread)).trans
    (Iff.trans ?_ (Run.settles_bind_iff hlead (.unlessExit hstore)).symm)
  refine or_congr (exists_congr fun outcome => exists_congr fun moment => and_congr_right fun hends => ?_)
    Iff.rfl
  cases outcome with
  | error exit => exact Iff.rfl
  | ok begun =>
    refine (Run.settles_succ_iff (Run.Rising.unlessExit hspread (.ok begun))).symm.trans
      (Run.settles_congr fun bound => Run.bind_congr_at ?_)
    have hlist := run_spreadList hplain frame spreadPlace listPlace bound (hexits begun moment hends)
    refine (Run.bind_congr_at hlist).trans ?_
    simp only [bind_assoc, pure_bind]

/-- It settles as with the items written out, but that there is a list more. -/
theorem leads_corresponding (spreadPlace listPlace : Position)
    (hexits : ∀ begun moment, site.Leads frame place before store (.ok (.ok begun) moment) →
      NoneExits frame items moment) :
    Corresponding Stored (site.Leads frame place (before ++ writtenOut items) store)
      (site.Leads frame place (before ++ [spreadList spreadPlace listPlace items]) store) := by
  have hspread : site.Leads frame place (before ++ [spreadList spreadPlace listPlace items]) store =
      Run.Settles (fun bound => (site.lead (evaluator bound) frame place before).run >>=
        Run.unlessExit (storeItems (evaluator bound) frame items)) store :=
    funext fun _ => propext (leads_spreadList_iff hplain hexits)
  rw [hspread]
  exact corresponding_settles (fun bound => stored_storeItems hplain (evaluator bound) store)
    Stored.exhausted_iff

end Calls

/-! ## The rest of the call -/

section Rest

variable {site : CallSite} {frame : FrameRef} {place : Position} {arguments others : List (Argument Node)}
  {store moment : Store} {begun : Begun}

/-- When a call has begun in an intact store, its arguments exist. -/
theorem CallSite.Leads.intact (h : site.Leads frame place arguments store (.ok (.ok begun) moment))
    (hstore : store.Intact) :
    moment.Intact ∧ (∀ argument ∈ begun.2, moment.HasList argument.value) ∧
      store.lists.size ≤ moment.lists.size := by
  obtain ⟨bound, hbound, -⟩ := h
  let w : Ckl.intact.World := ⟨store, hstore⟩
  have he : Ckl.intact.Kept fun _ : Unit => evaluator bound := intact.lawful.kept (fun _ => id) bound
  have hfunction : Ckl.intact.PromisesEval (fun _ _ => True) w
      fun _ : Unit => site.function (evaluator bound) frame place := by
    cases site with
    | value callee =>
      refine Realm.PromisesEval.bind (he.node trivial) fun w' value _ _ => ?_
      exact Realm.promisesEval_lift (Realm.promises_known (Value.gives_asFunction value).known _)
    | member target name =>
      refine Realm.PromisesEval.bind (he.node trivial) fun w' target _ _ => ?_
      exact Realm.promisesEval_read_bind (Realm.promisesEval_lift
        (Realm.promises_known ((Ckl.intact.store w').gives_memberFunction target name).known _))
  have hlead : Ckl.intact.PromisesEval (fun w' begun => Ckl.intact.hasArguments w' begun.2) w
      fun _ : Unit => site.lead (evaluator bound) frame place arguments := by
    refine hfunction.bind fun w' function _ _ => ?_
    refine Realm.promisesEval_lift_bind (intact.lawful.arguments he fun _ _ => trivial)
      fun _ _ _ harguments => Realm.promisesEval_pure harguments
  obtain ⟨w', hle, hends⟩ := hlead.exists_end fun _ _ => id
  have hbegun : Ckl.intact.EndsIn (Ckl.intact.exits fun w' begun => Ckl.intact.hasArguments w' begun.2) w'
      (.ok (.ok begun) moment) := hbound ▸ hends ()
  obtain ⟨rfl, harguments⟩ := hbegun
  exact ⟨w'.2, fun argument hargument => intact.has_iff.mp (harguments argument hargument), hle⟩

/-- What is left of the call is done alike with one list more in the store. -/
theorem parallel_restOfCall (frame : FrameRef) (place : Position) (others : List (Argument Node)) {gap : Nat}
    (hvalues : ∀ argument ∈ begun.2, argument.value.moved gap = argument.value) (bound : Nat) :
    Parallel gap (movedEnd gap (Value.moved gap)) (restOfCall frame place others (.ok begun) bound)
      (restOfCall frame place others (.ok begun) bound) := by
  have hsame : begun.2.map (Argument.moved gap) = begun.2 := by
    refine (List.map_congr_left fun argument hargument => ?_).trans (List.map_id _)
    rw [Argument.moved, hvalues argument hargument]
    rfl
  have hcall : Parallel gap (Value.moved gap) (finishCall (evaluator bound) frame place others begun)
      (finishCall (evaluator bound) frame place others begun) := by
    refine (parallel_arguments (parallel_evaluator gap bound) frame others).bind fun values => ?_
    have hmoved := (parallel_evaluator gap bound).call begun.1 (begun.2 ++ values) frame place
    rwa [List.map_append, hsame] at hmoved
  exact hcall.map fun _ => rfl

end Rest

/-- The ends are the same, or the same but that there is a list more, at a number behind those of the lists
that were there. -/
def SameButList (count : Nat) (ends ends' : EStateM.Result Stop Store (Except Exit Value)) : Prop :=
  ends' = ends ∨ ∃ gap, count ≤ gap ∧ Alike gap (movedEnd gap (Value.moved gap)) ends ends'

/-- **A spread list is its items written out.** Whatever the call with the items as positional arguments
settles with, the call with the list of the items spread in their place settles with, and the other way
round: with the same result or for the same reason, and in stores that are the same but for the list. None
of the items may be left by an exit. -/
theorem spread_list_as_written_out (site : CallSite) (frame : FrameRef)
    (place spreadPlace listPlace : Position) (before after : List (Argument Node)) {items : List Node}
    (hplain : ∀ item ∈ items, ∀ inner, item.form ≠ .spread inner) {store : Store} (hstore : store.Intact)
    (hexits : ∀ begun moment, site.Leads frame place before store (.ok (.ok begun) moment) →
      NoneExits frame items moment) :
    Corresponding (SameButList store.lists.size)
      (Evaluates (site.node place (before ++ writtenOut items ++ after)) frame store)
      (Evaluates (site.node place (before ++ [spreadList spreadPlace listPlace items] ++ after)) frame
        store) := by
  -- both calls lead to the same arguments, with or without the list in the store
  have hleads := leads_corresponding hplain spreadPlace listPlace hexits
  have hrest : ∀ begun moment stored,
      site.Leads frame place (before ++ writtenOut items) store (.ok (.ok begun) moment) →
        Corresponding (SameButList store.lists.size)
          (Run.Settles (restOfCall frame place after (.ok begun)) moment)
          (Run.Settles (restOfCall frame place after (.ok begun)) (moment.place (.list stored)).2) := by
    intro begun moment stored hlead
    obtain ⟨hmoment, hvalues, hcount⟩ := hlead.intact hstore
    have hparallel := fun bound => parallel_restOfCall frame place after
      (fun argument hargument => (hvalues argument hargument).moved) bound
    -- what is left of the call does the same in the twin store, whatever the bound is
    have halike := fun bound => hparallel bound (hmoment.twin stored)
    exact (corresponding_settles halike Alike.exhausted_iff).imp
      fun ends ends' hends => .inr ⟨_, hcount, hends⟩
  constructor
  · intro ends hends
    rcases evaluates_node_iff.mp hends with ⟨outcome, moment, hlead, hends⟩ | ⟨stop, moment, hlead, rfl⟩
    · obtain ⟨leadEnds, hlead', hstored⟩ := hleads.1 _ hlead
      cases hstored with
      | exit exit => exact ⟨ends, evaluates_node_iff.mpr (.inl ⟨_, _, hlead', hends⟩), .inl rfl⟩
      | begun begun _ stored =>
        obtain ⟨ends', hends', hsame⟩ := (hrest begun moment stored hlead).1 ends hends
        exact ⟨ends', evaluates_node_iff.mpr (.inl ⟨_, _, hlead', hends'⟩), hsame⟩
    · obtain ⟨leadEnds, hlead', hstored⟩ := hleads.1 _ hlead
      cases hstored with
      | stop => exact ⟨_, evaluates_node_iff.mpr (.inr ⟨_, _, hlead', rfl⟩), .inl rfl⟩
  · intro ends' hends'
    rcases evaluates_node_iff.mp hends' with ⟨outcome, moment, hlead', hends'⟩ | ⟨stop, moment, hlead', rfl⟩
    · obtain ⟨leadEnds, hlead, hstored⟩ := hleads.2 _ hlead'
      cases hstored with
      | exit exit => exact ⟨ends', evaluates_node_iff.mpr (.inl ⟨_, _, hlead, hends'⟩), .inl rfl⟩
      | begun begun moment stored =>
        obtain ⟨ends, hends, hsame⟩ := (hrest begun moment stored hlead).2 ends' hends'
        exact ⟨ends, evaluates_node_iff.mpr (.inl ⟨_, _, hlead, hends⟩), hsame⟩
    · obtain ⟨leadEnds, hlead, hstored⟩ := hleads.2 _ hlead'
      cases hstored with
      | stop => exact ⟨_, evaluates_node_iff.mpr (.inr ⟨_, _, hlead, rfl⟩), .inl rfl⟩

/-- Literals are left by no exit. -/
theorem noneExits_literals (frame : FrameRef) {items : List Node}
    (h : ∀ item ∈ items, ∃ literal, item.form = .literal literal) (store : Store) :
    NoneExits frame items store := by
  induction items with
  | nil => trivial
  | cons item rest ih =>
    obtain ⟨position, form⟩ := item
    obtain ⟨literal, hform⟩ := h _ List.mem_cons_self
    obtain rfl : form = .literal literal := hform
    rintro outcome after ⟨bound, hbound, -⟩
    cases bound with
    | zero => cases hbound
    | succ bound =>
      cases hbound
      exact ⟨literalValue literal, rfl, ih fun other hother => h other (List.mem_cons_of_mem _ hother)⟩

/-- The numbers 1 and 3, written out. -/
def oneAndThree : List Node := [.mk default (.literal (.int 1)), .mk default (.literal (.int 3))]

set_option maxRecDepth 4000 in
/-- So `range` gives a list with either call; behind the spread list it has the next number. -/
theorem spread_list_as_written_out_range :
    plainSession.store.Intact ∧
      Evaluates (CallSite.node (.value (.mk default (.name "range"))) default (writtenOut oneAndThree))
        plainSession.user plainSession.store
        (.ok (.ok (.list ⟨0⟩)) (plainSession.store.place (.list #[.int 1, .int 2])).2) ∧
      Corresponding (SameButList 0)
        (Evaluates (CallSite.node (.value (.mk default (.name "range"))) default (writtenOut oneAndThree))
          plainSession.user plainSession.store)
        (Evaluates (CallSite.node (.value (.mk default (.name "range"))) default
          [spreadList default default oneAndThree]) plainSession.user plainSession.store) := by
  have hstore : plainSession.store.Intact :=
    Session.intact_start "main" (fun _ => .missing) [] (Calendar.Moment.midnight 0)
  have hliterals : ∀ item ∈ oneAndThree, ∃ literal, item.form = .literal literal := by
    intro item hitem
    rcases List.mem_pair.mp hitem with rfl | rfl
    · exact ⟨_, rfl⟩
    · exact ⟨_, rfl⟩
  have hplain : ∀ item ∈ oneAndThree, ∀ inner, item.form ≠ .spread inner := by
    intro item hitem inner heq
    obtain ⟨literal, hliteral⟩ := hliterals item hitem
    rw [hliteral] at heq
    cases heq
  refine ⟨hstore, ⟨2, by with_unfolding_all rfl, id⟩, ?_⟩
  exact spread_list_as_written_out (.value (.mk default (.name "range"))) plainSession.user default default
    default [] [] hplain hstore fun _ moment _ => noneExits_literals _ hliterals moment

end Ckl
