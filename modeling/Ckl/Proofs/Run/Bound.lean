import Ckl.Proofs.Run.Call

/-!
# Bounds on the depth of evaluation

Evaluation that does not exhaust its bound ends in the same way with every greater bound. So work that is
done with all bounds settles, from a store on, with one end at most: whatever it ends with for some bound,
unless that is the bound being exhausted.
-/

namespace Ckl

open Source (Position Node Argument)

variable {α β : Type}

/-! ## Work that goes less far -/

/-- The work ends as the other work does, unless it exhausts its bound. -/
def Run.Approximates (work other : Run α) : Prop :=
  ∀ store, Exhausted (work store) ∨ other store = work store

namespace Run

variable {work other : Run α}

theorem Approximates.refl (work : Run α) : work.Approximates work := fun _ => .inr rfl

/-- Work that goes less far than one that goes less far. -/
theorem Approximates.trans {third : Run α} (h : work.Approximates other) (h' : other.Approximates third) :
    work.Approximates third := by
  intro store
  rcases h store with hexhausted | hsame
  · exact .inl hexhausted
  · rcases h' store with hexhausted | hsame'
    · exact .inl (hsame ▸ hexhausted)
    · exact .inr (hsame'.trans hsame)

/-- Work in sequence goes less far if its parts do. -/
theorem Approximates.bind {next next' : α → Run β} (h : work.Approximates other)
    (hnext : ∀ a, (next a).Approximates (next' a)) : (work >>= next).Approximates (other >>= next') := by
  intro store
  cases hwork : work store with
  | ok a after =>
    have hother : other store = .ok a after := by
      rcases h store with hexhausted | hsame
      · rw [hwork] at hexhausted
        exact hexhausted.elim
      · exact hsame.trans hwork
    rw [bind_of_ok hwork, bind_of_ok hother]
    exact hnext a after
  | error stop after =>
    rw [bind_of_error hwork]
    rcases h store with hexhausted | hsame
    · rw [hwork] at hexhausted
      exact .inl hexhausted
    · exact .inr (bind_of_error (hsame.trans hwork))

/-- An attempt goes less far if what is attempted does. -/
theorem Approximates.attempt (h : work.Approximates other) :
    (Run.attempt work).Approximates (Run.attempt other) := by
  intro store
  have hends := h store
  unfold Run.attempt
  cases hwork : work store with
  | ok a after =>
    rw [hwork] at hends
    rw [hends.resolve_left id]
    exact .inr rfl
  | error stop after =>
    rw [hwork] at hends
    rcases hends with rfl | hsame
    · exact .inl rfl
    · rw [hsame]
      exact .inr rfl

/-- The end of a call goes as far as its body does. -/
theorem approximates_finish (position : Position) {work other : Eval Value}
    (h : work.run.Approximates other.run) : (finish position work).Approximates (finish position other) :=
  h.bind fun _ => .refl _

section Modules

variable {evaluator evaluator' : Evaluator}
  (he : ∀ node frame, (evaluator.node node frame).run.Approximates (evaluator'.node node frame).run)

include he

/-- Loading a module goes as far as the evaluation of its text does. -/
theorem approximates_loadModule (root : FrameRef) (registry : Registry) (identifier file : String)
    (position : Position) :
    (loadModule evaluator root registry identifier file position).Approximates
      (loadModule evaluator' root registry identifier file position) := by
  unfold loadModule
  cases registry.loaded.get? identifier with
  | some frame => exact .refl _
  | none =>
    refine Approximates.bind (.refl _) fun source => ?_
    cases Source.readScript file source with
    | error fault => exact .refl _
    | ok node =>
      refine Approximates.bind (.refl _) fun frame => ?_
      exact (approximates_finish _ (he node frame)).bind fun _ => .refl _

/-- Entering a module goes as far as loading it does. -/
theorem approximates_enterModule (frame : FrameRef) (identifier file : String) (position : Position) :
    (enterModule evaluator frame identifier file position).Approximates
      (enterModule evaluator' frame identifier file position) := by
  refine Approximates.bind (.refl _) fun root => Approximates.bind (.refl _) fun found => ?_
  obtain ⟨outer, bindings, _ | registry⟩ := found
  · exact .refl _
  · dsimp only
    split
    · exact .refl _
    · refine Approximates.bind (.refl _) fun _ => ?_
      refine (approximates_loadModule he root registry identifier file position).attempt.bind fun _ => ?_
      exact .refl _

end Modules

end Run

/-- To go less far with the first evaluator than with the second one is a discipline. -/
def bounded : Discipline Bool where
  follows _ _ _ work := (work false).Approximates (work true)
  admits _ _ := True
  suits _ := True
  gives _ := .refl _
  andThen h hnext := h.bind hnext
  exhausts := .refl _
  stops _ := .refl _
  attempts h hnext := h.attempt.bind fun outcome => hnext outcome fun _ _ => trivial
  admits_error _ _ _ := trivial
  admits_raised _ _ _ _ := trivial
  admits_unreadable _ _ := trivial
  admits_leaving _ _ _ := trivial
  admits_inCall _ := trivial
  reads _ := .refl _
  aside _ := .refl _
  binds _ _ := .refl _
  assigns _ _ _ _ := .refl _
  enters _ _ _ h := Run.Approximates.bind (.refl _) h
  modules _ he frame _ position := Run.approximates_enterModule (he false) frame _ _ position

/-! ## The next bound -/

/-- One round fewer goes less far. -/
theorem approximates_while (evaluator : Evaluator) (condition body : Node) (frame : FrameRef)
    (rounds : Nat) (last : Value) :
    (evaluateWhile evaluator condition body frame rounds last).run.Approximates
      (evaluateWhile evaluator condition body frame (rounds + 1) last).run := by
  induction rounds generalizing last with
  | zero => exact fun _ => .inl rfl
  | succ rounds ih =>
    refine Run.Approximates.bind (.refl _) fun truth => ?_
    match truth with
    | .error exit => exact .refl _
    | .ok false => exact .refl _
    | .ok true =>
      refine Run.Approximates.bind (.refl _) fun outcome => ?_
      match outcome with
      | .ok (.ok value) => exact ih value
      | .ok (.error .break) => exact .refl _
      | .ok (.error .continue) => exact ih last
      | .ok (.error (.return value)) => exact .refl _
      | .error exit => exact .refl _

/-- Only loops with a condition notice how many rounds they may take. -/
theorem approximates_step (rounds : Nat) (evaluator : Evaluator) (node : Node) (frame : FrameRef) :
    (step rounds evaluator node frame).run.Approximates (step (rounds + 1) evaluator node frame).run := by
  obtain ⟨place, form⟩ := node
  cases form with
  | loopWhile condition body => exact approximates_while evaluator condition body frame rounds .null
  | _ => exact .refl _

/-- **The next bound changes no end**, but that some work ends which exhausted its bound before. -/
theorem bounded_obeyed (bound : Nat) :
    bounded.Obeyed fun next => if next then evaluator (bound + 1) else evaluator bound := by
  induction bound with
  | zero =>
    exact ⟨fun _ _ _ _ => .inl rfl, fun _ _ _ _ _ _ _ => .inl rfl, trivial⟩
  | succ bound ih =>
    refine ⟨fun inCall node frame => ?_, fun inCall scope ref arguments frame position => ?_, trivial⟩
    · have hparts : (step bound (evaluator bound) node frame).run.Approximates
          (step bound (evaluator (bound + 1)) node frame).run :=
        @Discipline.followsEval_step _ bounded inCall _ ih frame bound node
      exact hparts.trans (approximates_step bound (evaluator (bound + 1)) node frame)
    · exact @Discipline.follows_callStep _ bounded inCall scope _ ih frame position ref arguments

/-! ## Ends for some bound -/

namespace Run

/-- Work, for each bound, that goes the farther the greater the bound is. -/
def Rising (work : Nat → Run α) : Prop := ∀ bound, (work bound).Approximates (work (bound + 1))

/-- From the store on, the work ends so if its bound is large enough. -/
def Settles (work : Nat → Run α) (store : Store) (ends : EStateM.Result Stop Store α) : Prop :=
  ∃ bound, work bound store = ends ∧ ¬ Exhausted ends

variable {work : Nat → Run α} {store : Store} {ends ends' : EStateM.Result Stop Store α}

/-- With a greater bound the work goes further. -/
theorem Rising.le (h : Rising work) {bound greater : Nat} (hle : bound ≤ greater) :
    (work bound).Approximates (work greater) := by
  induction hle with
  | refl => exact .refl _
  | step _ ih => exact ih.trans (h _)

/-- Once it has ended with some bound it ends so with every greater one. -/
theorem Rising.eq_of_le (h : Rising work) {bound greater : Nat} (hle : bound ≤ greater)
    (hends : work bound store = ends) (hnot : ¬ Exhausted ends) : work greater store = ends := by
  rcases h.le hle store with hexhausted | hsame
  · exact absurd (hends ▸ hexhausted) hnot
  · exact hsame.trans hends

/-- Work that has no bound does not depend on it. -/
theorem rising_const (work : Run α) : Rising fun _ => work := fun _ => .refl _

/-- Work in sequence is rising if its parts are. -/
theorem Rising.bind {next : Nat → α → Run β} (h : Rising work)
    (hnext : ∀ a, Rising fun bound => next bound a) : Rising fun bound => work bound >>= next bound :=
  fun bound => (h bound).bind fun a => hnext a bound

/-- Work settles with one end at most. -/
theorem Settles.unique (h : Rising work) (hends : Settles work store ends)
    (hends' : Settles work store ends') : ends = ends' := by
  obtain ⟨bound, hbound, hnot⟩ := hends
  obtain ⟨bound', hbound', hnot'⟩ := hends'
  rw [← h.eq_of_le (Nat.le_max_left bound bound') hbound hnot]
  exact h.eq_of_le (Nat.le_max_right bound bound') hbound' hnot'

/-- Only what is done from that store on matters. -/
theorem settles_congr {other : Nat → Run α} (h : ∀ bound, work bound store = other bound store) :
    Settles work store ends ↔ Settles other store ends := by
  simp only [Settles, h]

/-- It does not matter from which bound on. -/
theorem settles_succ_iff (h : Rising work) :
    Settles (fun bound => work (bound + 1)) store ends ↔ Settles work store ends := by
  constructor
  · rintro ⟨bound, hbound, hnot⟩
    exact ⟨bound + 1, hbound, hnot⟩
  · rintro ⟨bound, hbound, hnot⟩
    exact ⟨bound, h.eq_of_le (Nat.le_succ bound) hbound hnot, hnot⟩

/-- One work after the other settles as they settle one after the other. -/
theorem settles_bind_iff {next : Nat → α → Run β} {ends : EStateM.Result Stop Store β} (h : Rising work)
    (hnext : ∀ a, Rising fun bound => next bound a) :
    Settles (fun bound => work bound >>= next bound) store ends ↔
      (∃ a after, Settles work store (.ok a after) ∧ Settles (fun bound => next bound a) after ends) ∨
        ∃ stop after, Settles work store (.error stop after) ∧ ends = .error stop after := by
  constructor
  · rintro ⟨bound, hbound, hnot⟩
    cases hwork : work bound store with
    | ok a after =>
      exact .inl ⟨a, after, ⟨bound, hwork, id⟩, bound, (bind_of_ok hwork).symm.trans hbound, hnot⟩
    | error stop after =>
      obtain rfl := (bind_of_error hwork).symm.trans hbound
      exact .inr ⟨stop, after, ⟨bound, hwork, hnot⟩, rfl⟩
  · rintro (⟨a, after, ⟨bound, hwork, hnot⟩, bound', hrest, hnot'⟩ | ⟨stop, after, ⟨bound, hwork, hnot⟩, rfl⟩)
    · refine ⟨max bound bound', ?_, hnot'⟩
      have hfirst := h.eq_of_le (Nat.le_max_left bound bound') hwork hnot
      exact (bind_of_ok hfirst).trans ((hnext a).eq_of_le (Nat.le_max_right bound bound') hrest hnot')
    · exact ⟨bound, bind_of_error hwork, hnot⟩

end Run

/-- Whatever has the first property, something has the second one that is related to it, and the other way
round. -/
def Corresponding {α β : Type} (related : α → β → Prop) (first : α → Prop) (second : β → Prop) : Prop :=
  (∀ a, first a → ∃ b, second b ∧ related a b) ∧ ∀ b, second b → ∃ a, first a ∧ related a b

/-- A correspondence can be said with less. -/
theorem Corresponding.imp {α β : Type} {related other : α → β → Prop} {first : α → Prop} {second : β → Prop}
    (h : Corresponding related first second) (himp : ∀ a b, related a b → other a b) :
    Corresponding other first second := by
  refine ⟨fun a ha => ?_, fun b hb => ?_⟩
  · obtain ⟨b, hb, hrelated⟩ := h.1 a ha
    exact ⟨b, hb, himp a b hrelated⟩
  · obtain ⟨a, ha, hrelated⟩ := h.2 b hb
    exact ⟨a, ha, himp a b hrelated⟩

/-- Work that does the same with every bound settles in the same way. -/
theorem corresponding_settles {related : EStateM.Result Stop Store α → EStateM.Result Stop Store β → Prop}
    {work : Nat → Run α} {other : Nat → Run β} {store store' : Store}
    (h : ∀ bound, related (work bound store) (other bound store'))
    (hexhausted : ∀ {ends ends'}, related ends ends' → (Exhausted ends ↔ Exhausted ends')) :
    Corresponding related (Run.Settles work store) (Run.Settles other store') := by
  constructor
  · rintro ends ⟨bound, rfl, hnot⟩
    exact ⟨_, ⟨bound, rfl, mt (hexhausted (h bound)).mpr hnot⟩, h bound⟩
  · rintro ends' ⟨bound, rfl, hnot⟩
    exact ⟨_, ⟨bound, rfl, mt (hexhausted (h bound)).mp hnot⟩, h bound⟩

/-! ## Parts of evaluation -/

/-- The evaluation of a node goes further with a greater bound. -/
theorem rising_node (node : Node) (frame : FrameRef) :
    Run.Rising fun bound => (evaluate bound node frame).run :=
  fun bound => (bounded_obeyed bound).node false node frame

/-- A call goes further with a greater bound. -/
theorem rising_call (ref : Ref .func) (arguments : List (Argument Value)) (frame : FrameRef)
    (position : Position) : Run.Rising fun bound => call bound ref arguments frame position :=
  fun bound => (bounded_obeyed bound).call false none ref arguments frame position

/-- The evaluation of arguments goes further with a greater bound. -/
theorem rising_arguments (frame : FrameRef) (arguments : List (Argument Node)) :
    Run.Rising fun bound => evaluateArguments (evaluator bound) frame arguments :=
  fun bound => @Discipline.follows_arguments _ bounded false _ (bounded_obeyed bound) frame arguments

end Ckl
