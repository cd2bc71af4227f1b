import Ckl.Proofs.Run.Relay.Step
import Ckl.Proofs.Session.Start

/-!
# Faults of texts are not caught

A run consists of tasks inside each other: nodes that are evaluated and functions that are called. What a
task begins is found by halting it there. From the tasks that lead from the whole run to one inside of it
it can be told which calls are open then, and if the inner task fails with the fault of a text, then all of
them fail with it in turn, each call with its mark.
-/

namespace Ckl

open Source (Position Node Argument Fault)

/-! ## Tasks -/

/-- What evaluation consists of. -/
inductive Task where
  | node (node : Node) (frame : FrameRef)
  | call (ref : Ref .func) (arguments : List (Argument Value)) (frame : FrameRef) (position : Position)

/-- A call on the way: its function, its arguments and its place. -/
structure OpenCall where
  function : Function
  arguments : List (Argument Value)
  position : Position

/-- Whether a text is the mark of a call, as the arguments are at some moment. -/
def OpenCall.IsMarked (call : OpenCall) (mark : String) : Prop :=
  ∃ late, mark = callMark late call.function call.arguments call.position

namespace Task

/-- A task as it is done by an evaluator. -/
def run (evaluator : Evaluator) : Task → Run (Except Exit Value)
  | .node tree frame => (evaluator.node tree frame).run
  | .call ref arguments frame position => Except.ok <$> evaluator.call ref arguments frame position

/-- The call that a task is, if it is one. -/
def openCall? (store : Store) : Task → Option OpenCall
  | .node _ _ => none
  | .call ref arguments _ position => some ⟨store.function ref, arguments, position⟩

/-- One step of a task, with its parts done by an evaluator. -/
def step (bound : Nat) (evaluator : Evaluator) : Task → Run (Except Exit Value)
  | .node tree frame => (Ckl.step bound evaluator tree frame).run
  | .call ref arguments frame position => Except.ok <$> callStep evaluator ref arguments frame position

/-- With one more level a task takes its step. -/
theorem run_succ (bound : Nat) (task : Task) :
    task.run (evaluator (bound + 1)) = task.step bound (evaluator bound) := by
  cases task <;> rfl

end Task

open Classical in
/-- The evaluator halted at a task and a moment: there it awaits the file at a path. -/
noncomputable def Evaluator.halted (evaluator : Evaluator) (task : Task) (moment : Store) (path : String) :
    Evaluator where
  node node frame := ⟨fun store =>
    if .node node frame = task ∧ store = moment then .error (.awaiting path) store
    else (evaluator.node node frame).run store⟩
  call ref arguments frame position := fun store =>
    if .call ref arguments frame position = task ∧ store = moment then .error (.awaiting path) store
    else evaluator.call ref arguments frame position store

namespace Task

/-- In one of its steps the task begins another one at a moment: halted there, it does not go on. -/
def Begins (bound : Nat) (task : Task) (store : Store) (inner : Task) (moment : Store) : Prop :=
  ∀ path, task.step bound ((evaluator bound).halted inner moment path) store =
    .error (.awaiting path) moment

/-- From a task, begun with a store, a run gets to another one while some calls are open, the innermost
one first. -/
inductive Reaches : (bound : Nat) → Task → Store → List OpenCall → (innerBound : Nat) → Task → Store → Prop
  | refl {bound : Nat} {task : Task} {store : Store} : Reaches bound task store [] bound task store
  | step {bound innerBound : Nat} {task middle inner : Task} {store moment last : Store}
    {calls : List OpenCall} (hbegins : task.Begins bound store middle moment)
    (hrest : Reaches bound middle moment calls innerBound inner last) :
    Reaches (bound + 1) task store (calls ++ (task.openCall? store).toList) innerBound inner last

/-- Unless it has no answer, the cleanup of a block succeeds. -/
def CleansUp : (bound : Nat) → Task → Store → Prop
  | bound + 1, .node tree frame, store => Ckl.CleansUp (evaluator bound) tree frame store
  | _, _, _ => True

end Task

/-! ## Marks -/

namespace Failure

/-- A failure after several calls have been left. -/
def leavingAll (failure : Failure) (marks : List String) : Failure :=
  marks.foldl (fun failure mark => failure.leaving mark) failure

/-- A failure leaves some calls and then others. -/
theorem leavingAll_append (failure : Failure) (marks later : List String) :
    failure.leavingAll (marks ++ later) = (failure.leavingAll marks).leavingAll later :=
  List.foldl_append

/-- A failure that leaves calls has their marks at the end of its trace. -/
theorem leavingAll_diagnosed (diagnostic : Diagnostic) (marks : List String) :
    leavingAll (.diagnosed diagnostic) marks =
      .diagnosed { diagnostic with trace := diagnostic.trace ++ marks } := by
  induction marks generalizing diagnostic with
  | nil => rw [List.append_nil]; rfl
  | cons mark marks ih =>
    show leavingAll (.diagnosed { diagnostic with trace := diagnostic.trace ++ [mark] }) marks = _
    rw [ih, List.append_assoc, List.singleton_append]

/-- A failure that is not caught is not caught outside of the call either. -/
theorem caught?_leaving {failure : Failure} (h : failure.caught? = none) (mark : String) :
    (failure.leaving mark).caught? = none := by
  cases failure with
  | unreadable problem => exact h
  | diagnosed diagnostic =>
    obtain ⟨cause, position, trace⟩ := diagnostic
    cases cause with
    | fault => rfl
    | runtime => cases h
    | raised => cases h

/-- A failure that is not caught is not caught outside of any of the calls. -/
theorem caught?_leavingAll {failure : Failure} (h : failure.caught? = none) (marks : List String) :
    (failure.leavingAll marks).caught? = none := by
  induction marks generalizing failure with
  | nil => exact h
  | cons mark marks ih => exact ih (caught?_leaving h mark)

end Failure

/-! ## Passing on -/

section Passing

variable {bound : Nat} {failure : Failure}

/-- Work is lost whatever is made of its result. -/
theorem lost_map_iff {α β : Type} {f : α → β} {work : Run α} {store : Store} :
    Lost failure ((f <$> work) store) ↔ Lost failure (work store) := by
  show Lost failure (EStateM.map f work store) ↔ _
  unfold EStateM.map
  cases work store with
  | ok a after =>
    constructor
    · rintro ⟨_, _, heq, _⟩
      cases heq
    · rintro ⟨_, _, heq, _⟩
      cases heq
  | error stop after =>
    constructor
    · rintro ⟨_, _, heq, hstop⟩
      cases heq
      exact ⟨_, _, rfl, hstop⟩
    · rintro ⟨_, _, heq, hstop⟩
      cases heq
      exact ⟨_, _, rfl, hstop⟩

/-- A halted evaluator relays what the task fails with at which it is halted. -/
theorem relaysParts_halted {evaluator : Evaluator} {inner : Task} {moment : Store}
    (hlost : Lost failure (inner.run evaluator moment)) :
    RelaysParts failure fun path => path.elim evaluator (evaluator.halted inner moment) where
  node node frame store := by
    by_cases hhere : .node node frame = inner ∧ store = moment
    · obtain ⟨rfl, rfl⟩ := hhere
      have hnone : Lost failure ((evaluator.node node frame).run store) := hlost
      exact .inr ⟨⟨store, fun path => if_pos ⟨rfl, rfl⟩⟩, hnone⟩
    · refine .inl ⟨(evaluator.node node frame).run store, fun path => ?_⟩
      cases path with
      | none => rfl
      | some path => exact if_neg hhere
  call ref arguments frame position store := by
    by_cases hhere : .call ref arguments frame position = inner ∧ store = moment
    · obtain ⟨rfl, rfl⟩ := hhere
      exact .inr ⟨⟨store, fun path => if_pos ⟨rfl, rfl⟩⟩, lost_map_iff.mp hlost⟩
    · refine .inl ⟨evaluator.call ref arguments frame position store, fun path => ?_⟩
      cases path with
      | none => rfl
      | some path => exact if_neg hhere

/-- A call is lost to the failure of its function with its mark. -/
theorem lost_callStep {evaluator : Evaluator} {ref : Ref .func} {arguments : List (Argument Value)}
    {frame : FrameRef} {position : Position} {store : Store}
    (hlost : Lost failure (invoke evaluator (store.function ref) arguments frame position store)) :
    ∃ late, Lost (failure.leaving (callMark late (store.function ref) arguments position))
      (callStep evaluator ref arguments frame position store) := by
  obtain ⟨stop, after, hrun, hstop⟩ := hlost
  rw [callStep, Run.read_bind]
  cases stop with
  | failed other =>
    cases hstop other rfl
    exact ⟨after, Lost.bind_of_ok (Run.attempt_of_failed hrun) (lost_failed after)⟩
  | exhausted => exact ⟨store, _, after, Run.bind_of_error (by rw [Run.attempt, hrun]), fun _ h => by cases h⟩
  | awaiting path =>
    exact ⟨store, _, after, Run.bind_of_error (by rw [Run.attempt, hrun]), fun _ h => by cases h⟩

/-- The failure of a task that has been begun is the failure of the task that has begun it, which marks it
if it is a call. -/
theorem Task.lost_of_begins {task inner : Task} {store moment : Store}
    (hbegins : task.Begins bound store inner moment)
    (hlost : Lost failure (inner.run (evaluator bound) moment)) (hcaught : failure.caught? = none)
    (hcleans : task.CleansUp (bound + 1) store) :
    ∃ marks, List.Forall₂ OpenCall.IsMarked (task.openCall? store).toList marks ∧
      Lost (failure.leavingAll marks) (task.run (evaluator (bound + 1)) store) := by
  have hparts := relaysParts_halted hlost
  rw [Task.run_succ]
  cases task with
  | node node frame =>
    refine ⟨[], .nil, ?_⟩
    have hrelays := relaysAt_step hparts frame hcaught bound node hcleans
    exact hrelays.lost hbegins
  | call ref arguments frame position =>
    rcases relays_invoke hparts frame position (store.function ref) arguments store with
      ⟨result, hsame⟩ | ⟨-, hinvoke⟩
    · -- a call in which nothing depends on the task cannot be halted at it
      have hpaths : ∀ path, (Task.call ref arguments frame position).step bound
          ((evaluator bound).halted inner moment path) store =
            (Task.call ref arguments frame position).step bound (evaluator bound) store := by
        intro path
        have hcall : callStep ((evaluator bound).halted inner moment path) ref arguments frame position
            store = callStep (evaluator bound) ref arguments frame position store := by
          rw [callStep, callStep, Run.read_bind, Run.read_bind]
          exact Run.bind_congr (Run.attempt_congr ((hsame (some path)).trans (hsame none).symm))
        exact Run.bind_congr hcall
      have hboth := ((hbegins "a").symm.trans (hpaths "a")).trans ((hpaths "b").symm.trans (hbegins "b"))
      simp at hboth
    · obtain ⟨late, hcall⟩ := lost_callStep hinvoke
      exact ⟨[_], .cons ⟨late, rfl⟩ .nil, lost_map_iff.mpr hcall⟩

/-- What a task fails with that has been reached, the run from which it has been reached fails with. -/
theorem Task.lost_of_reaches {innerBound : Nat} {task inner : Task} {store last : Store}
    {calls : List OpenCall} (hreaches : Task.Reaches bound task store calls innerBound inner last)
    (hlost : Lost failure (inner.run (evaluator innerBound) last)) (hcaught : failure.caught? = none)
    (hcleans : ∀ calls midBound middle moment, Task.Reaches bound task store calls midBound middle moment →
      middle.CleansUp midBound moment) :
    ∃ marks, List.Forall₂ OpenCall.IsMarked calls marks ∧
      Lost (failure.leavingAll marks) (task.run (evaluator bound) store) := by
  induction hreaches with
  | refl => exact ⟨[], .nil, hlost⟩
  | step hbegins hrest ih =>
    obtain ⟨marks, hmarks, hmiddle⟩ := ih hlost fun calls midBound middle moment hreaches =>
      hcleans _ midBound middle moment (.step hbegins hreaches)
    obtain ⟨own, hown, htask⟩ := Task.lost_of_begins hbegins hmiddle
      (Failure.caught?_leavingAll hcaught marks) (hcleans [] _ _ _ .refl)
    refine ⟨marks ++ own, List.rel_append hmarks hown, ?_⟩
    rwa [Failure.leavingAll_append]

end Passing

/-! ## Raising faults -/

/-- The tasks that find the fault of a text themselves: calls of `parse` and of `eval` with such a text, and
a node that requires a module with such a text. -/
inductive Task.Raises (store : Store) : Task → Fault → Prop
  | reads {ref : Ref .func} {arguments : List (Argument Value)} {frame : FrameRef} {position : Position}
    {builtin : Builtin} {name text : String} {fault : Fault}
    (hfunction : store.function ref = .builtin builtin)
    (hreads : (builtin, name) = (.parse, "str") ∨ (builtin, name) = (.eval, "obj"))
    (hbinds : bindArguments (.builtin builtin) arguments = .ok ⟨[(name, .string text)], none⟩)
    (hfault : Source.readScript position.file text = .error fault) :
    Raises store (.call ref arguments frame position) fault
  | loads {module : Node} {style : Source.ImportStyle} {frame : FrameRef} {position : Position}
    {specifier text : String} {registry : Registry} {fault : Fault}
    (hspecifier : moduleSpecifier module frame store = .ok specifier store)
    (hregistry : (store.frame (store.root frame)).registry = some registry)
    (hcycle : cycleAt? (Source.Module.identifier specifier) registry.loading = none)
    (hnew : registry.loaded.get? (Source.Module.identifier specifier) = none)
    (hfound : registry.resolve (Source.Module.fileName specifier) = .found text)
    (hfault : Source.readScript (Source.Module.fileName specifier) text = .error fault) :
    Raises store (.node (.mk position (.require module style)) frame) fault

/-- A native function that reads a text fails with its fault. -/
theorem invoke_reads {evaluator : Evaluator} {arguments : List (Argument Value)} {frame : FrameRef}
    {position : Position} {builtin : Builtin} {name text : String} {fault : Fault} (store : Store)
    (hreads : (builtin, name) = (.parse, "str") ∨ (builtin, name) = (.eval, "obj"))
    (hbinds : bindArguments (.builtin builtin) arguments = .ok ⟨[(name, .string text)], none⟩)
    (hfault : Source.readScript position.file text = .error fault) :
    invoke evaluator (.builtin builtin) arguments frame position store =
      .error (.failed (.ofFault fault)) store := by
  have hget : (Bindings.empty.putAll [(name, Value.string text)]).get? name = some (.string text) := by
    show (Bindings.empty.put name (Value.string text)).get? name = _
    exact Bindings.get?_put_self ..
  have hsource : Builtin.readSource text position store = .error (.failed (.ofFault fault)) store := by
    rw [Builtin.readSource, hfault]
    rfl
  rw [invoke, hbinds]
  show builtin.run (Bindings.empty.putAll [(name, .string text)]) evaluator frame position store = _
  rcases hreads with h | h
  · cases h
    have hneed : Arguments.needString (Bindings.empty.putAll [("str", .string text)]) "str" = .ok text := by
      rw [Arguments.needString, Arguments.need, hget]
      rfl
    rw [Builtin.run, hneed]
    exact (Run.bind_of_ok rfl).trans (Run.bind_of_error hsource)
  · cases h
    have hneed : Arguments.need (Bindings.empty.putAll [("obj", .string text)]) "obj" =
        .ok (.string text) := by
      rw [Arguments.need, hget]
    rw [Builtin.run, Builtin.evaluateArgument, hneed]
    exact (Run.bind_of_ok rfl).trans (Run.bind_of_error hsource)

/-- The load of a module fails with the fault of its text, once it has been noted that it is not being
loaded any more. -/
theorem enterModule_loads {evaluator : Evaluator} {frame : FrameRef} {identifier file text : String}
    {registry : Registry} {fault : Fault} {store : Store}
    (hregistry : (store.frame (store.root frame)).registry = some registry)
    (hcycle : cycleAt? identifier registry.loading = none) (hnew : registry.loaded.get? identifier = none)
    (hfound : registry.resolve file = .found text) (hfault : Source.readScript file text = .error fault)
    (position : Position) :
    ∃ after, enterModule evaluator frame identifier file position store =
      .error (.failed (.ofFault fault)) after := by
  have hload : ∀ moment, loadModule evaluator (store.root frame) registry identifier file position moment =
      .error (.failed (.ofFault fault)) moment := by
    intro moment
    have hsource : moduleSource registry file position moment = .ok text moment := by
      rw [moduleSource, hfound]
      rfl
    rw [loadModule, hnew]
    refine (Run.bind_of_ok hsource).trans ?_
    rw [hfault]
    rfl
  rw [enterModule, Run.read_bind, Run.read_bind, hregistry]
  dsimp only
  rw [hcycle]
  exact ⟨_, (Run.bind_of_ok rfl).trans (Run.bind_of_ok (Run.attempt_of_failed (hload _)))⟩

/-- Such a task fails with the fault, and with its own mark if it is a call. -/
theorem Task.Raises.fails {task : Task} {store : Store} {fault : Fault} (h : task.Raises store fault)
    (bound : Nat) :
    ∃ marks after, List.Forall₂ OpenCall.IsMarked (task.openCall? store).toList marks ∧
      task.run (evaluator (bound + 1)) store =
        .error (.failed ((Failure.ofFault fault).leavingAll marks)) after := by
  cases h with
  | @reads ref arguments frame position builtin name text fault hfunction hreads hbinds hfault =>
    have hinvoke : invoke (evaluator bound) (store.function ref) arguments frame position store =
        .error (.failed (.ofFault fault)) store := by
      rw [hfunction, invoke_reads store hreads hbinds hfault]
    have hcall : callStep (evaluator bound) ref arguments frame position store =
        .error (.failed ((Failure.ofFault fault).leaving
          (callMark store (store.function ref) arguments position))) store := by
      rw [callStep, Run.read_bind]
      exact Run.bind_of_ok (Run.attempt_of_failed hinvoke)
    exact ⟨[_], store, .cons ⟨store, rfl⟩ .nil, Run.bind_of_error hcall⟩
  | loads hspecifier hregistry hcycle hnew hfound hfault =>
    obtain ⟨after, hmodule⟩ := enterModule_loads hregistry hcycle hnew hfound hfault _
    exact ⟨[], after, .nil,
      Run.bind_of_error ((Run.bind_of_ok hspecifier).trans (Run.bind_of_error hmodule))⟩

/-- **Faults of texts are not caught.** If a task that a run has reached fails with the fault of a text,
and no cleanup of a block fails that the run reaches, then the run as a whole ends with the same fault: its
cause and its place are those with which the task has failed, and the trace has got the marks of the calls
that were open, the innermost one first. Calls of `parse` and `eval`, and nodes that require modules, fail
with the faults of the texts that they read. -/
theorem faults_not_caught {bound innerBound : Nat} {script : Node} {frame : FrameRef} {store last : Store}
    {inner : Task} {calls : List OpenCall}
    (hreaches : Task.Reaches bound (.node script frame) store calls innerBound inner last)
    (hcleans : ∀ calls midBound middle moment,
      Task.Reaches bound (.node script frame) store calls midBound middle moment →
        middle.CleansUp midBound moment)
    (hanswered : Answered (finish script.position (evaluate bound script frame) store)) :
    (∀ diagnostic cause after, diagnostic.cause = .fault cause →
      inner.run (evaluator innerBound) last = .error (.failed (.diagnosed diagnostic)) after →
        ∃ marks ended, List.Forall₂ OpenCall.IsMarked calls marks ∧
          finish script.position (evaluate bound script frame) store = .error (.failed
            (.diagnosed { diagnostic with trace := diagnostic.trace ++ marks })) ended) ∧
    ∀ fault, inner.Raises last fault →
      ∃ marks ended, List.Forall₂ OpenCall.IsMarked ((inner.openCall? last).toList ++ calls) marks ∧
        finish script.position (evaluate bound script frame) store = .error (.failed
          (.diagnosed { cause := .fault fault.cause, position := fault.position, trace := marks })) ended := by
  -- the run fails as the inner task does, with the marks of the calls that were open
  have hfinish : ∀ failure, failure.caught? = none → Lost failure (inner.run (evaluator innerBound) last) →
      ∃ marks ended, List.Forall₂ OpenCall.IsMarked calls marks ∧
        finish script.position (evaluate bound script frame) store =
          .error (.failed (failure.leavingAll marks)) ended := by
    intro failure hcaught hlost
    obtain ⟨marks, hmarks, hrun⟩ := Task.lost_of_reaches hreaches hlost hcaught hcleans
    obtain ⟨ended, hended⟩ := (Lost.bind hrun _).of_answered hanswered
    exact ⟨marks, ended, hmarks, hended⟩
  refine ⟨fun diagnostic cause after hcause hinner => ?_, fun fault hraises => ?_⟩
  · have hcaught : (Failure.diagnosed diagnostic).caught? = none := by
      obtain ⟨_, position, trace⟩ := diagnostic
      cases hcause
      rfl
    obtain ⟨marks, ended, hmarks, hended⟩ := hfinish _ hcaught (hinner ▸ lost_failed after)
    exact ⟨marks, ended, hmarks, by rw [hended, Failure.leavingAll_diagnosed]⟩
  · -- without a bound that is left for it, the task has no answer, and neither has the run
    have hinner : ∃ own, List.Forall₂ OpenCall.IsMarked (inner.openCall? last).toList own ∧
        Lost ((Failure.ofFault fault).leavingAll own) (inner.run (evaluator innerBound) last) := by
      cases innerBound with
      | zero =>
        obtain ⟨own, -, hown, -⟩ := hraises.fails 0
        refine ⟨own, hown, .exhausted, last, ?_, fun _ h => by cases h⟩
        cases inner <;> rfl
      | succ innerBound =>
        obtain ⟨own, after, hown, hrun⟩ := hraises.fails innerBound
        exact ⟨own, hown, hrun ▸ lost_failed after⟩
    obtain ⟨own, hown, hlost⟩ := hinner
    obtain ⟨marks, ended, hmarks, hended⟩ := hfinish _ (Failure.caught?_leavingAll rfl own) hlost
    refine ⟨own ++ marks, ended, List.rel_append hown hmarks, ?_⟩
    rw [hended, ← Failure.leavingAll_append, Failure.ofFault, Failure.leavingAll_diagnosed, List.nil_append]

/-! ## A module with a fault -/

/-- Without a bound that is left, nodes in a row do not fail. -/
theorem evaluateSequence_zero (nodes : List Node) (frame : FrameRef) (store : Store) (failure : Failure)
    (after : Store) :
    (evaluateSequence (evaluator 0) frame nodes).run store ≠ .error (.failed failure) after := by
  intro h
  cases nodes with
  | nil => cases h
  | cons => cases h

/-- A store in which each file that can be required holds a quotation mark only. -/
def quotesOnly : Store := (Session.start "main" (fun _ => .found "'") [] (Calendar.Moment.midnight 0)).store

/-- A node that requires a module. -/
def requiring : Node := .mk default (.require (.mk default (.literal (.string "m"))) .unqualified)

/-- A block around the node whose handler is meant for all failures. -/
def careful : Node := .mk default (.block [requiring] [⟨none, []⟩] [])

/-- The block begins with the requirement. -/
theorem begins_requiring : (Task.node careful ⟨1⟩).Begins 1 quotesOnly (.node requiring ⟨1⟩) quotesOnly := by
  intro path
  have hnode : (((evaluator 1).halted (.node requiring ⟨1⟩) quotesOnly path).node requiring ⟨1⟩).run
      quotesOnly = .error (.awaiting path) quotesOnly := if_pos ⟨rfl, rfl⟩
  have hbody : (evaluateSequence ((evaluator 1).halted (.node requiring ⟨1⟩) quotesOnly path) ⟨1⟩
      [requiring]).run quotesOnly = .error (.awaiting path) quotesOnly := Run.bind_of_error hnode
  have hattempt : Run.attempt (evaluateSequence ((evaluator 1).halted (.node requiring ⟨1⟩) quotesOnly path)
      ⟨1⟩ [requiring]).run quotesOnly = .error (.awaiting path) quotesOnly := by rw [Run.attempt, hbody]
  have hhandled : runHandled ((evaluator 1).halted (.node requiring ⟨1⟩) quotesOnly path) ⟨1⟩ [requiring]
      [⟨none, []⟩] quotesOnly = .error (.awaiting path) quotesOnly := Run.bind_of_error hattempt
  exact Run.bind_of_error (by rw [Run.attempt, hhandled])

/-- What is reached from the block cleans up with an answer. -/
theorem cleansUp_careful {calls : List OpenCall} {midBound : Nat} {middle : Task} {moment : Store}
    (h : Task.Reaches 2 (.node careful ⟨1⟩) quotesOnly calls midBound middle moment) :
    middle.CleansUp midBound moment := by
  cases h with
  | refl =>
    intro body handlers cleanup hform outcome store _ failure after hfailed
    cases hform
    cases hfailed
  | step hbegins hrest =>
    cases hrest with
    | refl =>
      cases middle with
      | call => trivial
      | node => exact fun _ _ cleanup _ _ store _ => evaluateSequence_zero cleanup _ store
    | step _ hlast => cases hlast; trivial

/-- A fault of the node is one of the block. -/
theorem answered_careful {fault : Fault} (hraises : (Task.node requiring ⟨1⟩).Raises quotesOnly fault) :
    Answered (finish careful.position (evaluate 2 careful ⟨1⟩) quotesOnly) := by
  obtain ⟨marks, after, hmarks, hrun⟩ := hraises.fails 0
  cases hmarks
  have hsequence : (evaluateSequence (evaluator 1) ⟨1⟩ [requiring]).run quotesOnly =
      .error (.failed (.ofFault fault)) after := Run.bind_of_error hrun
  have hhandled : runHandled (evaluator 1) ⟨1⟩ [requiring] [⟨none, []⟩] quotesOnly =
      .error (.failed (.ofFault fault)) after := Run.bind_of_ok (Run.attempt_of_failed hsequence)
  have hblock : (evaluate 2 careful ⟨1⟩).run quotesOnly = .error (.failed (.ofFault fault)) after :=
    Run.bind_of_ok (Run.attempt_of_failed hhandled)
  have hfinish : finish careful.position (evaluate 2 careful ⟨1⟩) quotesOnly =
      .error (.failed (.ofFault fault)) after := Run.bind_of_error hblock
  exact hfinish ▸ trivial

/-- The run fails with the fault of the module although the block handles all errors. -/
theorem faults_not_caught_required :
    ∃ fault, Source.readScript (Source.Module.fileName "m") "'" = .error fault ∧
      ∃ ended, finish careful.position (evaluate 2 careful ⟨1⟩) quotesOnly =
        .error (.failed (.ofFault fault)) ended := by
  have hunread : (Source.readScript (Source.Module.fileName "m") "'").toOption.isNone = true := by
    decide +kernel
  cases hfault : Source.readScript (Source.Module.fileName "m") "'" with
  | ok node =>
    rw [hfault] at hunread
    cases hunread
  | error fault =>
    have hraises : (Task.node requiring ⟨1⟩).Raises quotesOnly fault := .loads rfl rfl rfl rfl rfl hfault
    obtain ⟨marks, ended, hmarks, hended⟩ := (faults_not_caught (.step begins_requiring .refl)
      (fun _ _ _ _ => cleansUp_careful) (answered_careful hraises)).2 fault hraises
    cases hmarks
    exact ⟨fault, rfl, ended, hended⟩

end Ckl
