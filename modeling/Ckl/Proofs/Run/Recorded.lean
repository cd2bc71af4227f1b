import Ckl.Eval.Exit

/-!
# Work with a record

Work that also tells which operands, known by number, it has begun to evaluate. Without its record it is
work on a store (`Recorded.erase_bind`). The record of work that is put together is bounded by the records of
its parts (`Recorded.Within`). It is complete if those of the parts are and no part ends the work ahead
(`Recorded.Covers`).
-/

namespace Ckl

/-- Work that also tells which operands it has begun to evaluate, in order. -/
structure Recorded (α : Type) where
  run : Store → EStateM.Result Stop Store α × List Nat

namespace Recorded

variable {α β : Type}

/-- Work without an operand. -/
def silent (work : Run α) : Recorded α := ⟨fun store => (work store, [])⟩

/-- The evaluation of an operand. -/
def begun (operand : Nat) (work : Run α) : Recorded α := ⟨fun store => (work store, [operand])⟩

/-- Goes on after some work with its result. -/
def andThen (work : Recorded α) (next : α → Recorded β) : Recorded β where
  run store :=
    match work.run store with
    | (.ok a after, first) => (((next a).run after).1, first ++ ((next a).run after).2)
    | (.error stop after, first) => (.error stop after, first)

instance : Monad Recorded where
  pure a := silent (pure a)
  bind := andThen

/-- Goes on after an evaluation with its result; an exit ends both. -/
def onResult (work : Recorded (Except Exit α)) (next : α → Recorded (Except Exit β)) :
    Recorded (Except Exit β) := do
  match ← work with
  | .ok a => next a
  | .error exit => return .error exit

/-- The work without the record. -/
def erase (work : Recorded α) : Run α := fun store => (work.run store).1

/-- Without the record, work in sequence is the sequence of the work. -/
theorem erase_bind (work : Recorded α) (next : α → Recorded β) :
    (work >>= next).erase = work.erase >>= fun a => (next a).erase := by
  funext store
  show (andThen work next).erase store = EStateM.bind work.erase (fun a => (next a).erase) store
  unfold andThen erase EStateM.bind
  dsimp only
  match work.run store with
  | (.ok a after, first) => rfl
  | (.error stop after, first) => rfl

/-- Without the record, going on with a result is what an evaluation does. -/
theorem erase_onResult (work : Recorded (Except Exit α)) (next : α → Recorded (Except Exit β)) :
    (onResult work next).erase = (Eval.andThen ⟨work.erase⟩ fun a => ⟨(next a).erase⟩).run := by
  rw [onResult, erase_bind]
  congr 1
  funext outcome
  cases outcome <;> rfl

/-! ## Bounds of records -/

/-- The record names some of the given operands, in their order. -/
def Within (work : Recorded α) (operands : List Nat) : Prop :=
  ∀ store, (work.run store).2.Sublist operands

/-- Work without an operand stays within any list of operands. -/
theorem within_silent (work : Run α) (operands : List Nat) : (silent work).Within operands :=
  fun _ => List.nil_sublist operands

/-- The evaluation of an operand stays within that operand. -/
theorem within_begun (operand : Nat) (work : Run α) : (begun operand work).Within [operand] :=
  fun _ => List.Sublist.refl [operand]

/-- The record in sequence stays within both lists. -/
theorem Within.bind {work : Recorded α} {next : α → Recorded β} {operands others : List Nat}
    (h : work.Within operands) (hnext : ∀ a, (next a).Within others) :
    (work >>= next).Within (operands ++ others) := by
  intro store
  have hfirst := h store
  show ((andThen work next).run store).2.Sublist (operands ++ others)
  unfold andThen
  dsimp only
  match hrun : work.run store with
  | (.ok a after, first) =>
    rw [hrun] at hfirst
    exact hfirst.append (hnext a after)
  | (.error stop after, first) =>
    rw [hrun] at hfirst
    exact hfirst.trans (List.sublist_append_left operands others)

/-- The record up to an exit stays within both lists. -/
theorem Within.onResult {work : Recorded (Except Exit α)} {next : α → Recorded (Except Exit β)}
    {operands others : List Nat} (h : work.Within operands) (hnext : ∀ a, (next a).Within others) :
    (Recorded.onResult work next).Within (operands ++ others) :=
  h.bind fun outcome => by
    cases outcome with
    | ok a => exact hnext a
    | error exit => exact within_silent _ others

/-! ### Silent work before or behind -/

/-- What comes behind adds nothing to the record. -/
theorem Within.bind_silent {work : Recorded α} {next : α → Recorded β} {operands : List Nat}
    (h : work.Within operands) (hnext : ∀ a, (next a).Within []) : (work >>= next).Within operands := by
  simpa using h.bind hnext

/-- What comes behind the result adds nothing to the record. -/
theorem Within.onResult_silent {work : Recorded (Except Exit α)} {next : α → Recorded (Except Exit β)}
    {operands : List Nat} (h : work.Within operands) (hnext : ∀ a, (next a).Within []) :
    (Recorded.onResult work next).Within operands := by
  simpa using h.onResult hnext

/-- Work ahead without an operand adds nothing to the record. -/
theorem within_silent_onResult {work : Run (Except Exit α)} {next : α → Recorded (Except Exit β)}
    {operands : List Nat} (hnext : ∀ a, (next a).Within operands) :
    ((silent work).onResult next).Within operands := by
  simpa using (within_silent work []).onResult hnext

/-! ## Complete records -/

/-- Where the work gives a result of some kind, the record names all the given operands. -/
def Covers (work : Recorded α) (kind : α → Prop) (operands : List Nat) : Prop :=
  ∀ store a after, (work.run store).1 = .ok a after → kind a → (work.run store).2 = operands

/-- A result of some kind, and no exit. -/
def Gives (kind : α → Prop) : Except Exit α → Prop
  | .ok a => kind a
  | .error _ => False

/-- Work without an operand leaves none of no operands out. -/
theorem covers_silent (work : Run α) (kind : α → Prop) : (silent work).Covers kind [] :=
  fun _ _ _ _ _ => rfl

/-- The evaluation of an operand covers it, whatever it gives. -/
theorem covers_begun (operand : Nat) (work : Run α) (kind : α → Prop) :
    (begun operand work).Covers kind [operand] :=
  fun _ _ _ _ _ => rfl

/-- Work that is given up gives nothing that would have to be covered. -/
theorem covers_exhausted (kind : α → Prop) (operands : List Nat) :
    (silent (Run.exhausted : Run α)).Covers kind operands := by
  intro store a after hrun
  cases hrun

/-- A record goes on behind what gives a result of the kind that the final result asks for. -/
theorem Covers.bind {work : Recorded α} {next : α → Recorded β} {first : α → Prop} {kind : β → Prop}
    {operands others : List Nat} (h : work.Covers first operands)
    (hnext : ∀ a, (next a).Covers kind others)
    (hfirst : ∀ a store b after, ((next a).run store).1 = .ok b after → kind b → first a) :
    (work >>= next).Covers kind (operands ++ others) := by
  intro store b after hrun hkind
  have hcovers := h store
  show ((andThen work next).run store).2 = operands ++ others
  replace hrun : ((andThen work next).run store).1 = .ok b after := hrun
  unfold andThen at hrun ⊢
  dsimp only at hrun ⊢
  match hwork : work.run store with
  | (.ok a between, begun) =>
    rw [hwork] at hcovers hrun
    have hbegun : begun = operands := hcovers a between rfl (hfirst a between b after hrun hkind)
    show begun ++ _ = _
    rw [hbegun, hnext a between b after hrun hkind]
  | (.error stop between, begun) =>
    rw [hwork] at hrun
    cases hrun

/-- If the first part goes on whenever it gives a result of its kind, both lists are covered. -/
theorem Covers.onResult {work : Recorded (Except Exit α)} {next : α → Recorded (Except Exit β)}
    {first : α → Prop} {kind : β → Prop} {operands others : List Nat}
    (h : work.Covers (Gives first) operands) (hnext : ∀ a, (next a).Covers (Gives kind) others)
    (hfirst : ∀ a store b after, ((next a).run store).1 = .ok (.ok b) after → kind b → first a) :
    (Recorded.onResult work next).Covers (Gives kind) (operands ++ others) := by
  refine h.bind (fun outcome => ?_) fun outcome store b after hrun hkind => ?_
  · cases outcome with
    | ok a => exact hnext a
    | error exit =>
      intro store b after hrun hkind
      cases hrun
      cases hkind
  · cases b with
    | error exit => cases hkind
    | ok b =>
      cases outcome with
      | ok a => exact hfirst a store b after hrun hkind
      | error exit => cases hrun

/-- Fewer results to cover. -/
theorem Covers.mono {work : Recorded α} {kind other : α → Prop} {operands : List Nat}
    (h : work.Covers kind operands) (hkind : ∀ a, other a → kind a) : work.Covers other operands :=
  fun store a after hrun hother => h store a after hrun (hkind a hother)

/-- What gives any value. -/
abbrev Whole (work : Recorded (Except Exit α)) (operands : List Nat) : Prop :=
  work.Covers (Gives fun _ => True) operands

/-- Whole records in sequence are whole. -/
theorem Whole.onResult {work : Recorded (Except Exit α)} {next : α → Recorded (Except Exit β)}
    {operands others : List Nat} (h : work.Whole operands) (hnext : ∀ a, (next a).Whole others) :
    (Recorded.onResult work next).Whole (operands ++ others) :=
  Covers.onResult h hnext fun _ _ _ _ _ _ => trivial

/-- What comes behind a whole record may be without an operand. -/
theorem Whole.onResult_silent {work : Recorded (Except Exit α)} {next : α → Recorded (Except Exit β)}
    {operands : List Nat} (h : work.Whole operands) (hnext : ∀ a, (next a).Whole []) :
    (Recorded.onResult work next).Whole operands := by
  simpa using h.onResult hnext

/-- Work ahead of a whole record may be without an operand. -/
theorem whole_silent_onResult {work : Run (Except Exit α)} {next : α → Recorded (Except Exit β)}
    {operands : List Nat} (hnext : ∀ a, (next a).Whole operands) :
    ((silent work).onResult next).Whole operands := by
  simpa using Whole.onResult (covers_silent work _) hnext

end Recorded

end Ckl
