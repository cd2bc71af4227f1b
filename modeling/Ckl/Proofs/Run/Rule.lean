import Ckl.Eval.Exit

/-!
# Rules of runs

A rule says what holds of the store while work goes on, and with which failures the work may end. Work
that consists of governed parts is governed: one lemma for each way in which work is put together. Work
that ends without an answer is not asked for anything.
-/

namespace Ckl

/-- What holds of the store while work goes on, and with which failures it may end. -/
structure Rule where
  holds : Store → Prop
  admits : Failure → Prop

namespace Rule

variable {rule : Rule} {α β : Type} {gives : α → Prop} {gives' : β → Prop}

/-- An end where the rule holds, with a result as promised or with a failure that the rule admits. -/
def Meets (rule : Rule) (gives : α → Prop) : EStateM.Result Stop Store α → Prop
  | .ok value after => rule.holds after ∧ gives value
  | .error (.failed failure) after => rule.holds after ∧ rule.admits failure
  | .error _ _ => True

/-- Begun where the rule holds, the work ends as the rule and the promise say. -/
def Promises (rule : Rule) (gives : α → Prop) (work : Run α) : Prop :=
  ∀ store, rule.holds store → rule.Meets gives (work store)

/-- The work follows the rule, whatever its result is. -/
def Governs (rule : Rule) (work : Run α) : Prop := rule.Promises (fun _ => True) work

/-- The same for work that may also end by an exit. -/
def GovernsEval (rule : Rule) (work : Eval α) : Prop := rule.Governs work.run

/-- The rule as it is inside a call, where it has no condition on failures, or outside of it. -/
def within (rule : Rule) : (inCall : Bool) → Rule
  | true => { rule with admits := fun _ => True }
  | false => rule

/-- Inside of a call the rule says the same of the store. -/
@[simp]
theorem holds_within (rule : Rule) (inCall : Bool) : (rule.within inCall).holds = rule.holds := by
  cases inCall <;> rfl

/-! ## Parts of work -/

/-- A result that is there already, as promised. -/
theorem promises_pure {a : α} (h : gives a) : rule.Promises gives (pure a) := fun _ hs => ⟨hs, h⟩

/-- Work in sequence, where the promise of the first part carries over to the second. -/
theorem Promises.bind {work : Run α} {next : α → Run β} (h : rule.Promises gives work)
    (hnext : ∀ a, gives a → rule.Promises gives' (next a)) : rule.Promises gives' (work >>= next) := by
  intro store hs
  have hend := h store hs
  show rule.Meets gives' (EStateM.bind work next store)
  unfold EStateM.bind
  cases hr : work store with
  | ok value after =>
    rw [hr] at hend
    exact hnext value hend.2 after hend.1
  | error stop after =>
    rw [hr] at hend
    cases stop with
    | failed failure => exact hend
    | _ => trivial

/-- Less can be promised. -/
theorem Promises.mono {other : α → Prop} {work : Run α} (h : rule.Promises gives work)
    (himp : ∀ a, gives a → other a) : rule.Promises other work := by
  intro store hs
  have hend := h store hs
  cases hr : work store with
  | ok value after =>
    rw [hr] at hend
    exact ⟨hend.1, himp value hend.2⟩
  | error stop after =>
    rw [hr] at hend
    cases stop with
    | failed failure => exact hend
    | _ => trivial

/-- A result that is there already changes no store. -/
theorem governs_pure {a : α} : rule.Governs (pure a) := promises_pure trivial

/-- Work in sequence is governed if its parts are. -/
theorem Governs.bind {work : Run α} {next : α → Run β} (h : rule.Governs work)
    (hnext : ∀ a, rule.Governs (next a)) : rule.Governs (work >>= next) :=
  Promises.bind h fun a _ => hnext a

/-! ## Stops -/

/-- Work that is given up is not asked for anything. -/
theorem promises_exhausted : rule.Promises gives Run.exhausted := fun _ _ => trivial

/-- Work that awaits a file is not asked for anything. -/
theorem promises_awaiting {path : String} : rule.Promises gives (throw (.awaiting path)) :=
  fun _ _ => trivial

/-- A failure that the rule admits. -/
theorem promises_stop {failure : Failure} (h : rule.admits failure) :
    rule.Promises gives (Run.stop failure) :=
  fun _ hs => ⟨hs, h⟩

/-- A failure that the rule admits is governed. -/
theorem governs_stop {failure : Failure} (h : rule.admits failure) :
    rule.Governs (Run.stop failure : Run α) :=
  promises_stop h

/-- An attempt does not fail: it gives the results of the work as they were promised, and its failures,
which are those that the rule admits which is followed inside of it. -/
theorem Promises.attempt {inside : Rule} (hholds : inside.holds = rule.holds) {work : Run α}
    (h : inside.Promises gives work) :
    rule.Promises (fun outcome => (∀ value, outcome = .ok value → gives value) ∧
      ∀ failure, outcome = .error failure → inside.admits failure) (Run.attempt work) := by
  intro store hs
  have hend := h store (by rwa [hholds])
  unfold Run.attempt
  cases hr : work store with
  | ok value after =>
    rw [hr] at hend
    refine ⟨hholds ▸ hend.1, ?_, ?_⟩
    · intro other heq
      cases heq
      exact hend.2
    · intro failure heq
      cases heq
  | error stop after =>
    rw [hr] at hend
    cases stop with
    | failed failure =>
      refine ⟨hholds ▸ hend.1, ?_, ?_⟩
      · intro other heq
        cases heq
      · intro other heq
        cases heq
        exact hend.2
    | _ => trivial

/-- The outcome of an attempt is passed on as a result or as an admitted failure. -/
theorem promises_conclude {outcome : Except Failure α} (h : ∀ value, outcome = .ok value → gives value)
    (hfailure : ∀ failure, outcome = .error failure → rule.admits failure) :
    rule.Promises gives (Run.conclude outcome) := by
  cases outcome with
  | ok value => exact promises_pure (h value rfl)
  | error failure => exact promises_stop (hfailure failure rfl)

/-! ## The store -/

/-- A question is answered as promised in every store where the rule holds. -/
theorem promises_read {question : Store → α} (h : ∀ store, rule.holds store → gives (question store)) :
    rule.Promises gives (Run.read question) :=
  fun store hs => ⟨hs, h store hs⟩

/-- A question changes no store. -/
theorem governs_read {question : Store → α} : rule.Governs (Run.read question) :=
  promises_read fun _ _ => trivial

/-- A change of the store is governed if the rule holds after it. -/
theorem governs_modifyGet {change : Store → α × Store}
    (h : ∀ store, rule.holds store → rule.holds (change store).2) :
    rule.Governs (modifyGet change : Run α) :=
  fun store hs => ⟨h store hs, trivial⟩

end Rule

end Ckl
