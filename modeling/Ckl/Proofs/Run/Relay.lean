import Ckl.Proofs.Run.Temporary

/-!
# Failures that are passed on

Work is done as it is, and is halted where something in it begins: with a path it ends there, awaiting the
file at that path. If what begins there fails, and nothing catches the failure, then the work as it is fails
in the same way, or has no answer. Work relays a failure if it depends on this one place in no other way.
Work that is the same with all paths relays every failure, and so does what is put together from work that
relays it; only where failures are attempted there is something to show about what is done next.
-/

namespace Ckl

open Source (Position Node Handler Branch Argument Parameter)

variable {α β σ : Type} {failure : Failure}

/-! ## Work that is lost -/

/-- The work has failed with the failure, or it has ended without an answer. -/
def Lost (failure : Failure) (result : EStateM.Result Stop Store α) : Prop :=
  ∃ stop after, result = .error stop after ∧ ∀ other, stop = .failed other → other = failure

/-- Work that has failed in this way is lost. -/
theorem lost_failed (after : Store) :
    Lost failure (.error (.failed failure) after : EStateM.Result Stop Store α) :=
  ⟨_, after, rfl, fun _ h => by cases h; rfl⟩

/-- Work that is lost and has an answer has failed in this way. -/
theorem Lost.of_answered {result : EStateM.Result Stop Store α} (h : Lost failure result)
    (hanswered : Answered result) : ∃ after, result = .error (.failed failure) after := by
  obtain ⟨stop, after, rfl, hstop⟩ := h
  cases stop with
  | failed other => exact ⟨after, by rw [hstop other rfl]⟩
  | exhausted => cases hanswered
  | awaiting path => cases hanswered

/-- Nothing is done behind work that is lost. -/
theorem Lost.bind {work : Run α} {store : Store} (h : Lost failure (work store)) (next : α → Run β) :
    Lost failure ((work >>= next) store) := by
  obtain ⟨stop, after, hrun, hstop⟩ := h
  exact ⟨stop, after, Run.bind_of_error hrun, hstop⟩

/-- Work is lost if what is done after it is. -/
theorem Lost.bind_of_ok {work : Run α} {next : α → Run β} {store after : Store} {a : α}
    (hwork : work store = .ok a after) (h : Lost failure (next a after)) :
    Lost failure ((work >>= next) store) := by
  rwa [Run.bind_of_ok hwork]

/-! ## Work that relays a failure -/

/-- Begun with a store, the work is the same whether it is halted or not; or it is halted at some moment,
and lost if it is not halted. -/
def RelaysAt (failure : Failure) (store : Store) (work : Option String → Run α) : Prop :=
  (∃ result, ∀ path, work path store = result) ∨
    (∃ moment, ∀ path, work (some path) store = .error (.awaiting path) moment) ∧
      Lost failure (work none store)

/-- The work relays the failure wherever it begins. -/
def Relays (failure : Failure) (work : Option String → Run α) : Prop :=
  ∀ store, RelaysAt failure store work

/-- The same for work that may also end by an exit. -/
def RelaysEval (failure : Failure) (work : Option String → Eval α) : Prop :=
  Relays failure fun path => (work path).run

/-- Work that is halted is lost if it goes on. -/
theorem RelaysAt.lost {work : Option String → Run α} {store moment : Store} (h : RelaysAt failure store work)
    (hhalted : ∀ path, work (some path) store = .error (.awaiting path) moment) :
    Lost failure (work none store) := by
  rcases h with ⟨result, hsame⟩ | ⟨-, hlost⟩
  · have hpaths := ((hhalted "a").symm.trans (hsame _)).trans ((hsame _).symm.trans (hhalted "b"))
    simp at hpaths
  · exact hlost

/-! ## Putting work together -/

/-- Work that does not depend on the path relays every failure. -/
theorem relays_same (work : Run α) : Relays failure fun _ => work := fun _ => .inl ⟨_, fun _ => rfl⟩

/-- Work is relayed from a store on if its first part is, and what comes after each of its ends. -/
theorem RelaysAt.bind {work : Option String → Run α} {next : Option String → α → Run β} {store : Store}
    (h : RelaysAt failure store work)
    (hnext : ∀ a after, work none store = .ok a after → RelaysAt failure after fun path => next path a) :
    RelaysAt failure store fun path => work path >>= next path := by
  rcases h with ⟨result, hsame⟩ | ⟨⟨moment, hhalted⟩, hlost⟩
  · cases result with
    | error stop after => exact .inl ⟨_, fun path => Run.bind_of_error (hsame path)⟩
    | ok a after =>
      have hbind : ∀ path, (work path >>= next path) store = next path a after := fun path =>
        Run.bind_of_ok (hsame path)
      simp only [RelaysAt, hbind]
      exact hnext a after (hsame none)
  · exact .inr ⟨⟨moment, fun path => Run.bind_of_error (hhalted path)⟩, hlost.bind _⟩

/-- Work in sequence relays what its parts relay. -/
theorem Relays.bind {work : Option String → Run α} {next : Option String → α → Run β}
    (h : Relays failure work) (hnext : ∀ a, Relays failure fun path => next path a) :
    Relays failure fun path => work path >>= next path :=
  fun store => (h store).bind fun a after _ => hnext a after

/-- Behind work that is the same with all paths. -/
theorem Relays.behind {next : Option String → α → Run β} (work : Run α)
    (h : ∀ a, Relays failure fun path => next path a) : Relays failure fun path => work >>= next path :=
  (relays_same work).bind h

/-- Before work that is the same with all paths. -/
theorem Relays.before {work : Option String → Run α} (h : Relays failure work) (next : α → Run β) :
    Relays failure fun path => work path >>= next :=
  h.bind fun a => relays_same (next a)

/-- Work chosen by a condition relays what both sides relay. -/
theorem relays_ite {condition : Prop} [Decidable condition] {work other : Option String → Run α}
    (h : Relays failure work) (hother : Relays failure other) :
    Relays failure fun path => if condition then work path else other path := by
  by_cases hc : condition
  · simpa only [if_pos hc] using h
  · simpa only [if_neg hc] using hother

/-- What is attempted relays a failure if what is done next with this failure is lost to it. -/
theorem RelaysAt.attempt {work : Option String → Run α} {next : Option String → Except Failure α → Run β}
    {store : Store} (h : RelaysAt failure store work)
    (hnext : ∀ outcome, Relays failure fun path => next path outcome)
    (hlost : ∀ after, Run.attempt (work none) store = .ok (.error failure) after →
      Lost failure (next none (.error failure) after)) :
    RelaysAt failure store fun path => Run.attempt (work path) >>= next path := by
  rcases h with ⟨result, hsame⟩ | ⟨⟨moment, hhalted⟩, stop, after, hrun, hstop⟩
  · have hattempt : RelaysAt failure store fun path => Run.attempt (work path) :=
      .inl ⟨Run.attempt (fun _ => result) store, fun path => Run.attempt_congr (hsame path)⟩
    exact hattempt.bind fun outcome after _ => hnext outcome after
  · refine .inr ⟨⟨moment, fun path => Run.bind_of_error (by rw [Run.attempt, hhalted])⟩, ?_⟩
    cases stop with
    | failed other =>
      cases hstop other rfl
      have hattempt := Run.attempt_of_failed hrun
      exact Lost.bind_of_ok hattempt (hlost after hattempt)
    | exhausted => exact ⟨_, after, Run.bind_of_error (by rw [Run.attempt, hrun]), hstop⟩
    | awaiting path => exact ⟨_, after, Run.bind_of_error (by rw [Run.attempt, hrun]), hstop⟩

/-- An attempt relays what it catches only if it is passed on then. -/
theorem Relays.attempt {work : Option String → Run α} {next : Option String → Except Failure α → Run β}
    (h : Relays failure work) (hnext : ∀ outcome, Relays failure fun path => next path outcome)
    (hlost : ∀ after, Lost failure (next none (.error failure) after)) :
    Relays failure fun path => Run.attempt (work path) >>= next path :=
  fun store => (h store).attempt hnext fun after _ => hlost after

/-- Stopping with the failure is to be lost. -/
theorem lost_stop (store : Store) : Lost failure ((Run.stop failure : Run α) store) := lost_failed store

/-- A fold relays what each of its steps relays. -/
theorem relays_foldlM {work : Option String → σ → α → Run σ}
    (h : ∀ state a, Relays failure fun path => work path state a) (items : List α) (state : σ) :
    Relays failure fun path => items.foldlM (work path) state := by
  induction items generalizing state with
  | nil => exact relays_same (pure state)
  | cons a items ih =>
    simp only [List.foldlM_cons]
    exact (h state a).bind ih

/-- Work over each element relays what the work over one relays. -/
theorem relays_mapM {work : Option String → α → Run β}
    (h : ∀ a, Relays failure fun path => work path a) (items : List α) :
    Relays failure fun path => items.mapM (work path) := by
  induction items with
  | nil => exact relays_same (pure [])
  | cons a items ih =>
    simp only [List.mapM_cons]
    exact (h a).bind fun _ => ih.before _

/-! ## Work with exits -/

/-- An evaluation that does not depend on the path relays every failure. -/
theorem relaysEval_same (work : Eval α) : RelaysEval failure fun _ => work := relays_same work.run

/-- Evaluations in sequence relay what their parts relay. -/
theorem RelaysEval.bind {work : Option String → Eval α} {next : Option String → α → Eval β}
    (h : RelaysEval failure work) (hnext : ∀ a, RelaysEval failure fun path => next path a) :
    RelaysEval failure fun path => work path >>= next path := by
  refine Relays.bind h fun outcome => ?_
  cases outcome with
  | ok value => exact hnext value
  | error exit => exact relaysEval_same (Eval.exit exit)

/-- What is done after does not depend on the path. -/
theorem RelaysEval.before {work : Option String → Eval α} (h : RelaysEval failure work) (next : α → Eval β) :
    RelaysEval failure fun path => work path >>= next :=
  h.bind fun a => relaysEval_same (next a)

/-- Work without exits, used among evaluations. -/
theorem relaysEval_lift {work : Option String → Run α} (h : Relays failure work) :
    RelaysEval failure fun path => (liftM (work path) : Eval α) :=
  h.before _

/-- An evaluation chosen by a condition relays what both sides relay. -/
theorem relaysEval_ite {condition : Prop} [Decidable condition] {work other : Option String → Eval α}
    (h : RelaysEval failure work) (hother : RelaysEval failure other) :
    RelaysEval failure fun path => if condition then work path else other path := by
  by_cases hc : condition
  · simpa only [if_pos hc] using h
  · simpa only [if_neg hc] using hother

/-- A fold of evaluations relays what each of its steps relays. -/
theorem relaysEval_foldlM {work : Option String → σ → α → Eval σ}
    (h : ∀ state a, RelaysEval failure fun path => work path state a) (items : List α) (state : σ) :
    RelaysEval failure fun path => items.foldlM (work path) state := by
  induction items generalizing state with
  | nil => exact relaysEval_same (pure state)
  | cons a items ih =>
    simp only [List.foldlM_cons]
    exact (h state a).bind ih

/-- Evaluations of each element relay what the evaluation of one relays. -/
theorem relaysEval_mapM {work : Option String → α → Eval β}
    (h : ∀ a, RelaysEval failure fun path => work path a) (items : List α) :
    RelaysEval failure fun path => items.mapM (work path) := by
  have hloop : ∀ (items : List α) (done : List β),
      RelaysEval failure fun path => List.mapM.loop (work path) items done := by
    intro items
    induction items with
    | nil => exact fun done => relaysEval_same (pure done.reverse)
    | cons a items ih => exact fun done => (h a).bind fun b => ih (b :: done)
  exact hloop items []

end Ckl
