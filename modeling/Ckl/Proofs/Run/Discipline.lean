import Ckl.Eval

/-!
# Disciplines

A discipline is a property of work that is kept by every way in which the evaluator puts work together.
Whoever has shown the fields of the structure for a property has it for all evaluation: the case analysis
over the forms of nodes, the built-in functions and the loops is made once, in `Ckl.Proofs.Run.Evaluation`
and `Ckl.Proofs.Run.Call`.

The property is one of families of work: of the same work as it is done by several evaluators at once, so
that it can compare them. Work is done in a scope, a frame whose names it may bind and remove; work without
a scope may do so in no frame that exists. Inside a call every failure is admitted, since the call marks
what leaves it.
-/

namespace Ckl

open Source (Position Node)

/-! ## Ends of runs -/

section Ends

variable {α β : Type}

/-- The run has an answer: a result or a failure. -/
def Answered : EStateM.Result Stop Store α → Prop
  | .ok _ _ => True
  | .error (.failed _) _ => True
  | .error _ _ => False

/-- The run has come to its bound. -/
def Exhausted : EStateM.Result Stop Store α → Prop
  | .ok _ _ => False
  | .error stop _ => stop = .exhausted

/-- A run with an answer has not come to its bound. -/
theorem Answered.not_exhausted {result : EStateM.Result Stop Store α} (h : Answered result) :
    ¬ Exhausted result := by
  rcases result with _ | ⟨stop, _⟩
  · exact id
  · rintro rfl
    exact h

/-- The store in which a run has ended. -/
def endOf : EStateM.Result Stop Store α → Store
  | .ok _ store | .error _ store => store

@[simp]
theorem endOf_ok (a : α) (store : Store) : endOf (.ok a store) = store := rfl

@[simp]
theorem endOf_error (stop : Stop) (store : Store) :
    endOf (.error stop store : EStateM.Result Stop Store α) = store := rfl

/-- After work that succeeds the rest is run from its end with its result. -/
theorem Run.bind_of_ok {work : Run α} {next : α → Run β} {store after : Store} {a : α}
    (h : work store = .ok a after) : (work >>= next) store = next a after := by
  show EStateM.bind work next store = _
  rw [EStateM.bind, h]

/-- After work that stops the rest is not run. -/
theorem Run.bind_of_error {work : Run α} {next : α → Run β} {store after : Store} {stop : Stop}
    (h : work store = .error stop after) : (work >>= next) store = .error stop after := by
  show EStateM.bind work next store = _
  rw [EStateM.bind, h]

/-- Work that agrees at a store agrees there with anything behind it. -/
theorem Run.bind_congr_at {work other : Run α} {next : α → Run β} {store : Store}
    (h : work store = other store) : (work >>= next) store = (other >>= next) store := by
  show EStateM.bind work next store = EStateM.bind other next store
  rw [EStateM.bind, EStateM.bind, h]

theorem Run.read_bind (question : Store → α) (next : α → Run β) (store : Store) :
    (Run.read question >>= next) store = next (question store) store := rfl

/-- An attempt runs out of its bound exactly if the work that is attempted does. -/
theorem Run.attempt_exhausted_iff {work : Run α} {store moment : Store} :
    Run.attempt work store = .error .exhausted moment ↔ work store = .error .exhausted moment := by
  unfold Run.attempt
  match work store with
  | .ok value after => simp
  | .error (.failed failure) after => simp
  | .error .exhausted after => simp
  | .error (.awaiting path) after => simp

/-- An attempt has an answer exactly if the work that is attempted has one. -/
theorem Run.answered_attempt_iff {work : Run α} {store : Store} :
    Answered (Run.attempt work store) ↔ Answered (work store) := by
  unfold Run.attempt
  match work store with
  | .ok value after => exact Iff.rfl
  | .error (.failed failure) after => exact Iff.rfl
  | .error .exhausted after => exact Iff.rfl
  | .error (.awaiting path) after => exact Iff.rfl

end Ends

/-! ## Disciplines -/

/-- A property of work that evaluation has if its parts have it. -/
structure Discipline (ι : Type) where
  /-- Whether work, done inside a call or not and in a scope, follows the discipline. -/
  follows : (inCall : Bool) → (scope : Option FrameRef) → {α : Type} → (ι → Run α) → Prop
  /-- The failures with which work may end. -/
  admits : (inCall : Bool) → Failure → Prop
  /-- What else the modules ask of the evaluators. -/
  suits : (ι → Evaluator) → Prop
  gives : ∀ {inCall scope} {α : Type} (a : α), follows inCall scope fun _ => pure a
  andThen : ∀ {inCall scope} {α β : Type} {work : ι → Run α} {next : ι → α → Run β},
    follows inCall scope work → (∀ a, follows inCall scope fun k => next k a) →
      follows inCall scope fun k => work k >>= next k
  exhausts : ∀ {inCall scope} {α : Type}, follows inCall scope fun _ => (Run.exhausted : Run α)
  stops : ∀ {inCall scope} {α : Type} {failure : Failure}, admits inCall failure →
    follows inCall scope fun _ => (Run.stop failure : Run α)
  /-- Inside an attempt work may be as free as inside a call. -/
  attempts : ∀ {inCall inside scope} {α β : Type} {work : ι → Run α}
    {next : ι → Except Failure α → Run β}, follows inside scope work →
      (∀ outcome, (∀ failure, outcome = .error failure → admits inside failure) →
        follows inCall scope fun k => next k outcome) →
      follows inCall scope fun k => Run.attempt (work k) >>= next k
  admits_error : ∀ inCall error position, admits inCall (.runtime error position)
  admits_raised : ∀ inCall payload text position,
    admits inCall (.diagnosed { cause := .raised payload text, position })
  admits_unreadable : ∀ inCall problem, admits inCall (.unreadable problem)
  admits_leaving : ∀ inCall failure call, admits inCall (Failure.leaving call failure)
  admits_inCall : ∀ failure, admits true failure
  reads : ∀ {inCall scope} {α : Type} (question : Store → α),
    follows inCall scope fun _ => Run.read question
  /-- Changes of everything but the frames. -/
  aside : ∀ {inCall scope} {α : Type} {change : Store → α × Store},
    (∀ store, (change store).2.frames = store.frames) →
      follows inCall scope fun _ => (modifyGet change : Run α)
  /-- Names are bound and removed in the scope only. -/
  binds : ∀ {inCall} (frame : FrameRef) (change : Bindings Value → Bindings Value),
    follows inCall (some frame) fun _ => (modify (·.changeBindings frame change) : Run Unit)
  assigns : ∀ {inCall scope} (frame : FrameRef) (name : String) (value : Value) (position : Position),
    follows inCall scope fun _ => Run.assign frame name value position
  /-- A new frame is the scope of what is done inside of it. -/
  enters : ∀ {inCall scope} {β : Type} (frame : FrameRef) (bindings : Bindings Value)
    {next : ι → FrameRef → Run β},
    (∀ inner, follows inCall (some inner) fun k => next k inner) →
      follows inCall scope fun k => Run.enter frame bindings >>= next k
  modules : ∀ {inCall scope} {evaluator : ι → Evaluator}, suits evaluator →
    (∀ inCall node frame, follows inCall (some frame) fun k => ((evaluator k).node node frame).run) →
      ∀ (frame : FrameRef) (specifier : String) (position : Position),
        follows inCall scope fun k => enterModule (evaluator k) frame
          (Source.Module.identifier specifier) (Source.Module.fileName specifier) position

namespace Discipline

variable {ι : Type} (d : Discipline ι) {inCall : Bool} {scope : Option FrameRef} {α β σ : Type}

/-- The same for work that may also end by an exit. -/
def followsEval (inCall : Bool) (scope : Option FrameRef) (work : ι → Eval α) : Prop :=
  d.follows inCall scope fun k => (work k).run

/-- Evaluators that follow the discipline: nodes in the scope of their frame, calls without a scope of
their own. -/
structure Obeyed (evaluator : ι → Evaluator) : Prop where
  node : ∀ inCall node frame, d.followsEval inCall (some frame) fun k => (evaluator k).node node frame
  call : ∀ inCall scope ref arguments frame position,
    d.follows inCall scope fun k => (evaluator k).call ref arguments frame position
  suits : d.suits evaluator

variable {d}

/-! ## Putting work together -/

/-- A discipline does not look at how the result is used. -/
theorem follows_map {work : ι → Run α} {f : α → β} (h : d.follows inCall scope work) :
    d.follows inCall scope fun k => do return f (← work k) :=
  d.andThen h fun a => d.gives (f a)

/-- Work chosen by a condition that is the same on every side. -/
theorem follows_ite {condition : Prop} [Decidable condition] {work other : ι → Run α}
    (h : d.follows inCall scope work) (hother : d.follows inCall scope other) :
    d.follows inCall scope fun k => if condition then work k else other k := by
  by_cases hc : condition
  · simpa only [if_pos hc] using h
  · simpa only [if_neg hc] using hother

/-- A conclusion follows if its failure is admitted. -/
theorem follows_conclude {outcome : Except Failure α}
    (h : ∀ failure, outcome = .error failure → d.admits inCall failure) :
    d.follows inCall scope fun _ => Run.conclude outcome := by
  cases outcome with
  | ok value => exact d.gives value
  | error failure => exact d.stops (h failure rfl)

/-- Outside of calls, what is attempted admits the same failures as what is around it. -/
theorem follows_attempt {work : ι → Run α} {next : ι → Except Failure α → Run β}
    (h : d.follows inCall scope work)
    (hnext : ∀ outcome, (∀ failure, outcome = .error failure → d.admits inCall failure) →
      d.follows inCall scope fun k => next k outcome) :
    d.follows inCall scope fun k => Run.attempt (work k) >>= next k :=
  d.attempts h hnext

/-- A fold follows if each of its steps does. -/
theorem follows_foldlM {work : ι → σ → α → Run σ}
    (h : ∀ state a, d.follows inCall scope fun k => work k state a) (items : List α) (state : σ) :
    d.follows inCall scope fun k => items.foldlM (work k) state := by
  induction items generalizing state with
  | nil => exact d.gives state
  | cons a items ih =>
    simp only [List.foldlM_cons]
    exact d.andThen (h state a) ih

/-- Work over each element follows if the work over one does. -/
theorem follows_mapM {work : ι → α → Run β} (h : ∀ a, d.follows inCall scope fun k => work k a)
    (items : List α) : d.follows inCall scope fun k => items.mapM (work k) := by
  induction items with
  | nil => exact d.gives []
  | cons a items ih =>
    simp only [List.mapM_cons]
    exact d.andThen (h a) fun _ => follows_map ih

/-- Work over each element for its effect follows if the work over one does. -/
theorem follows_forM {work : ι → α → Run Unit} (h : ∀ a, d.follows inCall scope fun k => work k a)
    (items : List α) : d.follows inCall scope fun k => items.forM (work k) := by
  induction items with
  | nil => exact d.gives ()
  | cons a items ih => exact d.andThen (h a) fun _ => ih

/-! ## Work with exits -/

theorem followsEval_pure (a : α) : d.followsEval inCall scope fun _ => pure a :=
  d.gives (Except.ok a : Except Exit α)

/-- An exit touches nothing. -/
theorem followsEval_exit (exit : Exit) :
    d.followsEval inCall scope fun _ => (Eval.exit exit : Eval α) :=
  d.gives (Except.error exit : Except Exit α)

/-- Evaluations one after the other, where an exit skips the second. -/
theorem followsEval_bind {work : ι → Eval α} {next : ι → α → Eval β}
    (h : d.followsEval inCall scope work) (hnext : ∀ a, d.followsEval inCall scope fun k => next k a) :
    d.followsEval inCall scope fun k => work k >>= next k := by
  refine d.andThen h fun outcome => ?_
  cases outcome with
  | ok value => exact hnext value
  | error exit => exact followsEval_exit exit

/-- Work without exits, used among evaluations. -/
theorem followsEval_lift {work : ι → Run α} (h : d.follows inCall scope work) :
    d.followsEval inCall scope fun k => (liftM (work k) : Eval α) :=
  follows_map h

/-- Work without exits always goes on to the rest. -/
theorem run_lift_bind (work : Run α) (next : α → Eval β) :
    ((liftM work : Eval α) >>= next).run = work >>= fun a => (next a).run := by
  funext store
  show EStateM.bind (EStateM.bind work _) _ store = EStateM.bind work _ store
  unfold EStateM.bind
  cases work store <;> rfl

/-- An evaluation whose exit is taken as a result follows as the evaluation does. -/
theorem followsEval_outcome {work : ι → Eval α} (h : d.followsEval inCall scope work) :
    d.followsEval inCall scope fun k => (work k).outcome :=
  followsEval_lift h

/-- An evaluation chosen by a condition that is the same on every side. -/
theorem followsEval_ite {condition : Prop} [Decidable condition] {work other : ι → Eval α}
    (h : d.followsEval inCall scope work) (hother : d.followsEval inCall scope other) :
    d.followsEval inCall scope fun k => if condition then work k else other k := by
  by_cases hc : condition
  · simpa only [if_pos hc] using h
  · simpa only [if_neg hc] using hother

/-- A fold of evaluations follows if each of its steps does. -/
theorem followsEval_foldlM {work : ι → σ → α → Eval σ}
    (h : ∀ state a, d.followsEval inCall scope fun k => work k state a) (items : List α) (state : σ) :
    d.followsEval inCall scope fun k => items.foldlM (work k) state := by
  induction items generalizing state with
  | nil => exact followsEval_pure state
  | cons a items ih =>
    simp only [List.foldlM_cons]
    exact followsEval_bind (h state a) ih

/-- Evaluations of each element follow if the evaluation of one does. -/
theorem followsEval_mapM {work : ι → α → Eval β}
    (h : ∀ a, d.followsEval inCall scope fun k => work k a) (items : List α) :
    d.followsEval inCall scope fun k => items.mapM (work k) := by
  have hloop : ∀ (items : List α) (done : List β),
      d.followsEval inCall scope fun k => List.mapM.loop (work k) items done := by
    intro items
    induction items with
    | nil => exact fun done => followsEval_pure done.reverse
    | cons a items ih => exact fun done => followsEval_bind (h a) fun b => ih (b :: done)
  exact hloop items []

end Discipline

end Ckl
