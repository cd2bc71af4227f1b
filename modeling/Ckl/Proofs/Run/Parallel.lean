import Ckl.Proofs.Run.Discipline
import Ckl.Proofs.Value.Moved.Argument
import Ckl.Proofs.Value.Moved.Change

/-!
# Work on stores with one list more

The same work is done on a store and on its twin, with the other numbers for lists on the twin. It is done in
parallel if it ends in the same way on both: with the result or the failure with the other numbers, and with
stores that are twins again. What is put together from parallel work is parallel.
-/

namespace Ckl

open Source (Position Node Argument)

variable {gap : Nat} {α α' β β' σ σ' : Type}

/-! ## Ends -/

/-- The end ahead, with the other numbers in what a function returns. -/
def Exit.moved (gap : Nat) : Exit → Exit
  | .return value => .return (value.moved gap)
  | exit => exit

/-- The reason to end, with the other numbers in a failure. -/
def Stop.moved (gap : Nat) : Stop → Stop
  | .failed failure => .failed (failure.moved gap)
  | stop => stop

/-- The end by an exit that is moved, or else with another result. -/
def movedEnd (gap : Nat) (f : α → α') : Except Exit α → Except Exit α'
  | .ok a => .ok (f a)
  | .error exit => .error (exit.moved gap)

/-- Two ends are the same but for the numbers of lists; a function tells which results are the same. -/
inductive Alike (gap : Nat) (f : α → α') :
    EStateM.Result Stop Store α → EStateM.Result Stop Store α' → Prop
  | ok {a : α} {store twin : Store} (h : Store.Twin gap store twin) :
    Alike gap f (.ok a store) (.ok (f a) twin)
  | error {stop : Stop} {store twin : Store} (h : Store.Twin gap store twin) :
    Alike gap f (.error stop store) (.error (stop.moved gap) twin)

/-- Runs that are alike use up their bounds together. -/
theorem Alike.exhausted_iff {f : α → α'} {ends : EStateM.Result Stop Store α}
    {ends' : EStateM.Result Stop Store α'} (h : Alike gap f ends ends') :
    Exhausted ends ↔ Exhausted ends' := by
  cases h with
  | ok htwin => exact Iff.rfl
  | @error stop _ _ htwin =>
    show stop = .exhausted ↔ stop.moved gap = .exhausted
    cases stop <;> simp [Stop.moved]

/-- From twins on, the works end alike. -/
def Parallel (gap : Nat) (f : α → α') (work : Run α) (other : Run α') : Prop :=
  ∀ ⦃store twin : Store⦄, Store.Twin gap store twin → Alike gap f (work store) (other twin)

/-- The same for work that may also end by an exit. -/
def ParallelEval (gap : Nat) (f : α → α') (work : Eval α) (other : Eval α') : Prop :=
  Parallel gap (movedEnd gap f) work.run other.run

variable {f : α → α'} {g : β → β'}

/-! ## Putting work together -/

theorem parallel_pure (f : α → α') (a : α) : Parallel gap f (pure a) (pure (f a)) := fun _ _ h => .ok h

/-- Work goes on in parallel from where it has come to in parallel. -/
theorem Parallel.bind {work : Run α} {other : Run α'} {next : α → Run β} {next' : α' → Run β'}
    (h : Parallel gap f work other) (hnext : ∀ a, Parallel gap g (next a) (next' (f a))) :
    Parallel gap g (work >>= next) (other >>= next') := by
  intro store twin htwin
  have hends := h htwin
  generalize hwork : work store = ends, hother : other twin = ends' at hends
  cases hends with
  | ok hafter =>
    rw [Run.bind_of_ok hwork, Run.bind_of_ok hother]
    exact hnext _ hafter
  | error hafter =>
    rw [Run.bind_of_error hwork, Run.bind_of_error hother]
    exact .error hafter

/-- So is what is made of the results. -/
theorem Parallel.map {work : Run α} {other : Run α'} (h : Parallel gap f work other) {k : α → β}
    {k' : α' → β'} (hk : ∀ a, k' (f a) = g (k a)) :
    Parallel gap g (do return k (← work)) (do return k' (← other)) :=
  h.bind fun a => hk a ▸ parallel_pure g (k a)

theorem parallel_ite {condition : Prop} [Decidable condition] {work rest : Run α} {work' rest' : Run α'}
    (h : Parallel gap f work work') (hrest : Parallel gap f rest rest') :
    Parallel gap f (if condition then work else rest) (if condition then work' else rest') := by
  by_cases hc : condition
  · simpa only [if_pos hc] using h
  · simpa only [if_neg hc] using hrest

/-- Bounds are used up in both. -/
theorem parallel_exhausted (f : α → α') : Parallel gap f Run.exhausted Run.exhausted := fun _ _ h => .error h

/-- A failure ends both, moved in the second. -/
theorem parallel_stop (f : α → α') (failure : Failure) :
    Parallel gap f (Run.stop failure) (Run.stop (failure.moved gap)) := fun _ _ h => .error h

/-- An error that is about no value is the same in both. -/
theorem parallel_fail (f : α → α') (error : RuntimeError) (position : Position) :
    Parallel gap f (Run.fail error position) (Run.fail error position) :=
  parallel_stop f (.runtime error position)

/-- An operation gives results in both, or the same error. -/
theorem parallel_check (f : α → α') (position : Position) (checked : Checked α) :
    Parallel gap f (Run.check position checked) (Run.check position (checked.map f)) := by
  cases checked with
  | ok a => exact parallel_pure f a
  | error error => exact parallel_fail f error position

theorem parallel_check_same (position : Position) (checked : Checked α) :
    Parallel gap id (Run.check position checked) (Run.check position checked) := by
  cases checked with
  | ok a => exact parallel_pure id a
  | error error => exact parallel_fail id error position

/-- A question is answered in both, if the answer in the twin is the moved one. -/
theorem parallel_read {question : Store → α} {question' : Store → α'}
    (h : ∀ ⦃store twin⦄, Store.Twin gap store twin → question' twin = f (question store)) :
    Parallel gap f (Run.read question) (Run.read question') := by
  intro store twin htwin
  show Alike gap f (.ok (question store) store) (.ok (question' twin) twin)
  rw [h htwin]
  exact .ok htwin

/-- A question to which both stores have the same answer. -/
theorem parallel_ask {question question' : Store → α}
    (h : ∀ ⦃store twin⦄, Store.Twin gap store twin → question' twin = question store) :
    Parallel gap id (Run.read question) (Run.read question') :=
  parallel_read h

/-- A change is made in both, if it leaves twins. -/
theorem parallel_modifyGet {change : Store → α × Store} {change' : Store → α' × Store}
    (h : ∀ ⦃store twin⦄, Store.Twin gap store twin → (change' twin).1 = f (change store).1 ∧
      Store.Twin gap (change store).2 (change' twin).2) :
    Parallel gap f (modifyGet change) (modifyGet change') := by
  intro store twin htwin
  obtain ⟨hresult, hafter⟩ := h htwin
  show Alike gap f (.ok (change store).1 (change store).2) (.ok (change' twin).1 (change' twin).2)
  rw [hresult]
  exact .ok hafter

theorem parallel_modify {change change' : Store → Store}
    (h : ∀ ⦃store twin⦄, Store.Twin gap store twin → Store.Twin gap (change store) (change' twin)) :
    Parallel gap id (modify change : Run Unit) (modify change') :=
  parallel_modifyGet fun _ _ htwin => ⟨rfl, h htwin⟩

/-- Work is attempted in both. -/
theorem Parallel.attempt {work : Run α} {other : Run α'} (h : Parallel gap f work other) :
    Parallel gap (movedOutcome gap f) (Run.attempt work) (Run.attempt other) := by
  intro store twin htwin
  have hends := h htwin
  rw [Run.attempt, Run.attempt]
  generalize work store = ends, other twin = ends' at hends
  cases hends with
  | @ok a _ _ hafter => exact .ok hafter
  | @error stop _ _ hafter =>
    cases stop with
    | failed failure => exact .ok hafter
    | exhausted => exact .error hafter
    | awaiting path => exact .error hafter

/-- What has been attempted is taken up in both. -/
theorem parallel_conclude (f : α → α') (outcome : Except Failure α) :
    Parallel gap f (Run.conclude outcome) (Run.conclude (movedOutcome gap f outcome)) := by
  cases outcome with
  | ok a => exact parallel_pure f a
  | error failure => exact parallel_stop f failure

/-- From item to item, -/
theorem parallel_foldlM {k : σ → σ'} {work : σ → α → Run σ} {other : σ' → α' → Run σ'}
    (h : ∀ state a, Parallel gap k (work state a) (other (k state) (f a))) (items : List α) (state : σ) :
    Parallel gap k (items.foldlM work state) ((items.map f).foldlM other (k state)) := by
  induction items generalizing state with
  | nil => exact parallel_pure k state
  | cons a items ih =>
    rw [List.map_cons, List.foldlM_cons, List.foldlM_cons]
    exact (h state a).bind ih

/-- for each item with its result -/
theorem parallel_mapM {work : α → Run β} {other : α' → Run β'}
    (h : ∀ a, Parallel gap g (work a) (other (f a))) (items : List α) :
    Parallel gap (List.map g) (items.mapM work) ((items.map f).mapM other) := by
  induction items with
  | nil => exact parallel_pure (List.map g) []
  | cons a items ih =>
    rw [List.map_cons, List.mapM_cons, List.mapM_cons]
    exact (h a).bind fun b => ih.map fun bs => rfl

/-- and without one. -/
theorem parallel_forM {work : α → Run Unit} {other : α' → Run Unit}
    (h : ∀ a, Parallel gap id (work a) (other (f a))) (items : List α) :
    Parallel gap id (items.forM work) ((items.map f).forM other) := by
  induction items with
  | nil => exact parallel_pure id ()
  | cons a items ih => exact (h a).bind fun _ => ih

/-! ## Work with exits -/

theorem parallelEval_pure (f : α → α') (a : α) : ParallelEval gap f (pure a) (pure (f a)) :=
  parallel_pure (movedEnd gap f) (.ok a)

/-- Exits leave both, `return` with the moved value. -/
theorem parallelEval_exit (f : α → α') (exit : Exit) :
    ParallelEval gap f (Eval.exit exit) (Eval.exit (exit.moved gap)) :=
  parallel_pure (movedEnd gap f) (.error exit)

/-- An exit skips the rest in both. -/
theorem ParallelEval.bind {work : Eval α} {other : Eval α'} {next : α → Eval β} {next' : α' → Eval β'}
    (h : ParallelEval gap f work other) (hnext : ∀ a, ParallelEval gap g (next a) (next' (f a))) :
    ParallelEval gap g (work >>= next) (other >>= next') := by
  refine Parallel.bind h fun outcome => ?_
  cases outcome with
  | ok a => exact hnext a
  | error exit => exact parallelEval_exit g exit

/-- Work without exits is work with exits. -/
theorem parallelEval_lift {work : Run α} {other : Run α'} (h : Parallel gap f work other) :
    ParallelEval gap f (liftM work) (liftM other) :=
  h.map fun _ => rfl

/-- Work without exits at the beginning. -/
theorem parallelEval_lift_bind {work : Run α} {other : Run α'} {next : α → Eval β} {next' : α' → Eval β'}
    (h : Parallel gap f work other) (hnext : ∀ a, ParallelEval gap g (next a) (next' (f a))) :
    ParallelEval gap g ((liftM work : Eval α) >>= next) ((liftM other : Eval α') >>= next') :=
  (parallelEval_lift h).bind hnext

theorem ParallelEval.map {work : Eval α} {other : Eval α'} (h : ParallelEval gap f work other) {k : α → β}
    {k' : α' → β'} (hk : ∀ a, k' (f a) = g (k a)) :
    ParallelEval gap g (do return k (← work)) (do return k' (← other)) :=
  h.bind fun a => hk a ▸ parallelEval_pure g (k a)

/-- Exits are looked at in both. -/
theorem ParallelEval.outcome {work : Eval α} {other : Eval α'} (h : ParallelEval gap f work other) :
    ParallelEval gap (movedEnd gap f) work.outcome other.outcome :=
  parallelEval_lift h

theorem parallelEval_ite {condition : Prop} [Decidable condition] {work rest : Eval α}
    {work' rest' : Eval α'} (h : ParallelEval gap f work work') (hrest : ParallelEval gap f rest rest') :
    ParallelEval gap f (if condition then work else rest) (if condition then work' else rest') := by
  by_cases hc : condition
  · simpa only [if_pos hc] using h
  · simpa only [if_neg hc] using hrest

/-- From item to item, with exits. -/
theorem parallelEval_foldlM {k : σ → σ'} {work : σ → α → Eval σ} {other : σ' → α → Eval σ'}
    (h : ∀ state a, ParallelEval gap k (work state a) (other (k state) a)) (items : List α) (state : σ) :
    ParallelEval gap k (items.foldlM work state) (items.foldlM other (k state)) := by
  induction items generalizing state with
  | nil => exact parallelEval_pure k state
  | cons a items ih =>
    rw [List.foldlM_cons, List.foldlM_cons]
    exact (h state a).bind ih

/-- For each item, with exits. -/
theorem parallelEval_mapM {work : α → Eval β} {other : α → Eval β'}
    (h : ∀ a, ParallelEval gap g (work a) (other a)) (items : List α) :
    ParallelEval gap (List.map g) (items.mapM work) (items.mapM other) := by
  have hloop : ∀ (items : List α) (done : List β),
      ParallelEval gap (List.map g) (List.mapM.loop work items done)
        (List.mapM.loop other items (done.map g)) := by
    intro items
    induction items with
    | nil =>
      intro done
      have hdone : ParallelEval gap (List.map g) (pure done.reverse) (pure (done.reverse.map g)) :=
        parallelEval_pure _ _
      rwa [List.map_reverse] at hdone
    | cons a items ih => exact fun done => (h a).bind fun b => ih (b :: done)
  exact hloop items []

end Ckl
