import Ckl.Proofs.Module.Life
import Ckl.Proofs.Run.Bound

/-!
# What is begun in the course of a run

A run that comes to the evaluation of a node does not leave it behind: either the run ends within this
evaluation, or the evaluation gets its answer and whatever the run does after that comes later, as far as
modules are concerned. `Pursues` says this of all nodes that a run comes to, and of all its cuts.

Whether a run comes to a node is told by cutting it there: it does if it ends otherwise then. So work that no
cut concerns comes to nothing, work that is put together comes to what its parts come to, and only where the
evaluation of a node begins there is something to show.
-/

namespace Ckl

open Source (Position Node)
open Source.Module (fileName)

variable {α β : Type} {store after moment : Store} {cut : Cut} {node : Node} {frame : FrameRef}

/-! ## Coming to a node -/

/-- In the course of the work, before it is cut, a node is to be evaluated in a frame and with a store: the
work ends otherwise if it is cut there as well. -/
def Cut.Passes (cut : Cut) (ends : Cut → EStateM.Result Stop Store α) (node : Node) (frame : FrameRef)
    (moment : Store) : Prop :=
  ends (cut ⊔ Cut.point node frame moment) ≠ ends cut

/-- What has become of an evaluation when the work comes to its end in which it was begun: it has no answer,
and the work ends where it does; or it has one, and the work ends later. -/
inductive Pursued (inner : EStateM.Result Stop Store α) (whole : EStateM.Result Stop Store β) : Prop
  | within {stop : Stop} {last : Store} (hinner : inner = .error stop last)
    (hwhole : whole = .error stop last) (hstop : ∀ failure, stop ≠ .failed failure)
  | behind (hanswered : Answered inner) (hprecedes : (endOf inner).Precedes (endOf whole))

/-- Whatever the work comes to evaluate, it pursues to its end. -/
def Pursues (ends : Cut → EStateM.Result Stop Store α) : Prop :=
  ∀ cut node frame moment, cut.Passes ends node frame moment →
    ∃ bound, Pursued (((evaluatorUntil cut bound).node node frame).run moment) (ends cut)

/-- An evaluation has been pursued to its own end. -/
theorem Pursued.self (result : EStateM.Result Stop Store α) : Pursued result result := by
  match result with
  | .ok _ last => exact .behind trivial (.refl last)
  | .error (.failed _) last => exact .behind trivial (.refl last)
  | .error .exhausted last => exact .within rfl rfl fun _ h => by cases h
  | .error (.awaiting path) last => exact .within rfl rfl fun _ h => by cases h

/-- The work goes on, and ends later. -/
theorem Pursued.later {γ : Type} {inner : EStateM.Result Stop Store α} {whole : EStateM.Result Stop Store β}
    {next : EStateM.Result Stop Store γ} (h : Pursued inner whole)
    (hopen : ∀ stop last, whole = .error stop last → (∀ failure, stop ≠ .failed failure) →
      next = .error stop last)
    (hlater : (endOf whole).Precedes (endOf next)) : Pursued inner next := by
  cases h with
  | within hinner hwhole hstop => exact .within hinner (hopen _ _ hwhole hstop) hstop
  | behind hanswered hprecedes => exact .behind hanswered (hprecedes.trans hlater)

/-- Work that no cut concerns evaluates nothing. -/
theorem pursues_same (result : EStateM.Result Stop Store α) : Pursues fun _ => result :=
  fun _ _ _ _ hpasses => absurd rfl hpasses

/-- Work goes on where the first work has ended. -/
theorem Pursues.bind {work : Cut → Run α} {next : Cut → α → Run β} (h : Pursues fun k => work k store)
    (hnext : ∀ cut a after, work cut store = .ok a after →
      Ordered after (fun k => next k a after) ∧ Pursues fun k => next k a after) :
    Pursues fun k => (work k >>= next k) store := by
  intro cut node frame moment hpasses
  by_cases hfirst : cut.Passes (fun k => work k store) node frame moment
  · obtain ⟨bound, hpursued⟩ := h cut node frame moment hfirst
    refine ⟨bound, hpursued.later (fun stop last hend _ => Run.bind_of_error hend) ?_⟩
    show (endOf (work cut store)).Precedes (endOf ((work cut >>= next cut) store))
    cases hend : work cut store with
    | ok a after =>
      rw [Run.bind_of_ok hend]
      exact ((hnext cut a after hend).1 cut).precedes
    | error stop after =>
      rw [Run.bind_of_error hend]
      exact .refl after
  · have hsame : work (cut ⊔ Cut.point node frame moment) store = work cut store :=
      not_not.mp hfirst
    cases hend : work cut store with
    | ok a after =>
      have hsecond : cut.Passes (fun k => next k a after) node frame moment := fun heq =>
        hpasses ((Run.bind_of_ok (hsame.trans hend)).trans (heq.trans (Run.bind_of_ok hend).symm))
      simp only [Run.bind_of_ok hend]
      exact (hnext cut a after hend).2 cut node frame moment hsecond
    | error stop after =>
      exact absurd ((Run.bind_of_error (hsame.trans hend)).trans (Run.bind_of_error hend).symm) hpasses

/-- Failures that are attempted are answers. -/
theorem Pursues.attempt {work : Cut → Run α} (h : Pursues fun k => work k store) :
    Pursues fun k => Run.attempt (work k) store := by
  intro cut node frame moment hpasses
  have hwork : cut.Passes (fun k => work k store) node frame moment :=
    fun hsame => hpasses (by simp only [Run.attempt, hsame])
  obtain ⟨bound, hpursued⟩ := h cut node frame moment hwork
  refine ⟨bound, hpursued.later (fun stop last hend hstop => ?_) ?_⟩
  · cases stop with
    | failed failure => exact absurd rfl (hstop failure)
    | exhausted => exact Run.attempt_exhausted_iff.mpr hend
    | awaiting path => simp only [Run.attempt, hend]
  · have hafter : endOf (Run.attempt (work cut) store) = endOf (work cut store) :=
      Run.after_attempt (work cut) store
    rw [hafter]
    exact .refl _

/-- **The evaluation of a node** is pursued, and all that it comes to, if that is so of a step. -/
theorem pursues_node {bound : Nat}
    (hstep : Pursues fun k => (step bound (evaluatorUntil k bound) node frame).run store) :
    Pursues fun k => ((evaluatorUntil k (bound + 1)).node node frame).run store := by
  intro cut other inner moment hpasses
  have hgoes : ∀ {k : Cut}, ¬ k node frame store →
      ((evaluatorUntil k (bound + 1)).node node frame).run store =
        (step bound (evaluatorUntil k bound) node frame).run store := fun hnot =>
    Run.bind_of_ok (Run.checkpoint_of_not hnot)
  have hnot : ¬ cut node frame store := by
    refine fun hcut => hpasses ((evaluatorUntil_node_of_cut ?_ _).trans
      (evaluatorUntil_node_of_cut hcut _).symm)
    exact .inl hcut
  by_cases hhere : Cut.point other inner moment node frame store
  · obtain ⟨rfl, rfl, rfl⟩ := hhere
    exact ⟨bound + 1, .self _⟩
  · have hboth : ¬ (cut ⊔ Cut.point other inner moment) node frame store := fun h =>
      h.elim hnot hhere
    have hwithin : cut.Passes (fun k => (step bound (evaluatorUntil k bound) node frame).run store)
        other inner moment := fun heq =>
      hpasses ((hgoes hboth).trans (heq.trans (hgoes hnot).symm))
    simp only [hgoes hnot]
    exact hstep cut other inner moment hwithin

/-! ## Loads of modules -/

section Modules

variable {bound : Nat}
  (he : ∀ node frame (store : Store), store.Consistent → store.Outside (some frame) →
    (Ordered store fun k => ((evaluatorUntil k bound).node node frame).run store) ∧
      Pursues fun k => ((evaluatorUntil k bound).node node frame).run store)

theorem Pursues.finish {work : Cut → Eval Value} (hordered : Ordered store fun k => (work k).run store)
    (h : Pursues fun k => (work k).run store) (position : Position) :
    Pursues fun k => Ckl.finish position (work k) store := by
  refine h.bind fun cut outcome after hend => ⟨?_, pursues_same _⟩
  have hafter := (hordered cut).consistent
  rw [hend, endOf_ok] at hafter
  match outcome with
  | .ok value => exact .of_sameModules hafter (.of_frames rfl)
  | .error (.return value) => exact .of_sameModules hafter (.of_frames rfl)
  | .error .break => exact .of_sameModules hafter (.of_frames rfl)
  | .error .continue => exact .of_sameModules hafter (.of_frames rfl)

include he in
/-- What the text of a module comes to evaluate is pursued in the course of its load. -/
theorem pursues_enterModule (hstore : store.Consistent) (frame : FrameRef) (specifier : String)
    (position : Position) :
    Pursues fun k => enterModule (evaluatorUntil k bound) frame
      (Source.Module.identifier specifier) (fileName specifier) position store := by
  cases asking store frame (Source.Module.identifier specifier) (fileName specifier) position with
  | absent hregistry h =>
    simp only [h]
    exact pursues_same _
  | cycle cycle hloading h =>
    simp only [h]
    exact pursues_same _
  | loaded inner hfree hloaded h =>
    simp only [h]
    exact pursues_same _
  | unread failure hfree hnew hfailure h =>
    simp only [h]
    exact pursues_same _
  | awaited path hregistry hfree hnew h =>
    simp only [h]
    exact pursues_same _
  | @read registry text node inner start hregistry hfree hnew hfound hread hstart h =>
    simp only [h]
    have hopens := hstore.opens hregistry hfree hnew hstart
    obtain ⟨hordered, hpursues⟩ := he node inner start hopens.consistent hopens.outside
    have hends := hordered.finish node.position
    intro cut other within moment hpasses
    -- if the cut made no difference within the text it would make none to the load
    have hown : cut.Passes (fun k => finish node.position ((evaluatorUntil k bound).node node inner) start)
        other within moment := fun hsame => hpasses (congrArg (concludeModule _ _ _) hsame)
    obtain ⟨b, hpursued⟩ := hpursues.finish hordered node.position cut other within moment hown
    refine ⟨b, hpursued.later (fun stop last hend hstop => ?_) (.concludeModule fun value after hend => ?_)⟩
    · simp only [hend]
      cases stop with
      | failed failure => exact absurd rfl (hstop failure)
      | _ => rfl
    · let load : Load := ⟨specifier, text, node, inner, start, bound⟩
      exact (Ordered.ok_unloaded (show Ordered load.start _ from hends) hopens hend).2

end Modules

/-! ## Evaluation -/

/-- To be in order and to pursue what is begun is a discipline of all cuts. -/
def course : Discipline Cut where
  follows inCall scope _ work := moduleOrder.follows inCall scope work ∧
    ∀ store : Store, store.Consistent → store.Outside scope → Pursues fun k => work k store
  admits _ _ := True
  suits := moduleOrder.suits
  gives a := ⟨moduleOrder.gives a, fun _ _ _ => pursues_same _⟩
  andThen h hnext := by
    refine ⟨moduleOrder.andThen h.1 fun a => (hnext a).1, fun store hstore hscope => ?_⟩
    refine (h.2 store hstore hscope).bind fun cut a after hend => ?_
    have hafter := (h.1 store hstore hscope cut).consistent
    have houtside := (h.1 store hstore hscope).outside hscope cut
    rw [hend, endOf_ok] at hafter houtside
    exact ⟨(hnext a).1 after hafter houtside, (hnext a).2 after hafter houtside⟩
  exhausts := ⟨moduleOrder.exhausts, fun _ _ _ => pursues_same _⟩
  stops h := ⟨moduleOrder.stops h, fun _ _ _ => pursues_same _⟩
  attempts h hnext := by
    refine ⟨moduleOrder.attempts h.1 fun outcome _ => (hnext outcome fun _ _ => trivial).1,
      fun store hstore hscope => ?_⟩
    refine (h.2 store hstore hscope).attempt.bind fun cut outcome after hend => ?_
    have hattempt := (h.1 store hstore hscope).attempt
    have hafter := (hattempt cut).consistent
    have houtside := hattempt.outside hscope cut
    rw [hend, endOf_ok] at hafter houtside
    have hboth := hnext outcome fun _ _ => trivial
    exact ⟨hboth.1 after hafter houtside, hboth.2 after hafter houtside⟩
  admits_error _ _ _ := trivial
  admits_raised _ _ _ _ := trivial
  admits_unreadable _ _ := trivial
  admits_leaving _ _ _ := trivial
  admits_inCall _ := trivial
  reads question := ⟨moduleOrder.reads question, fun _ _ _ => pursues_same _⟩
  aside h := ⟨moduleOrder.aside h, fun _ _ _ => pursues_same _⟩
  binds frame change := ⟨moduleOrder.binds frame change, fun _ _ _ => pursues_same _⟩
  assigns frame name value position :=
    ⟨moduleOrder.assigns frame name value position, fun _ _ _ => pursues_same _⟩
  enters frame bindings _ h := by
    refine ⟨moduleOrder.enters frame bindings fun inner => (h inner).1, fun store hstore _ => ?_⟩
    have henter : store.SameModules (store.enter frame bindings).2 := .enter hstore frame bindings
    refine Pursues.bind (pursues_same _) fun cut inner after hend => ?_
    cases hend
    have hafter := henter.consistent hstore
    have houtside := hstore.outside_enter frame bindings
    exact ⟨(h _).1 _ hafter houtside, (h _).2 _ hafter houtside⟩
  modules hsuits he frame specifier position := by
    refine ⟨moduleOrder.modules hsuits (fun inCall node frame => (he inCall node frame).1) frame specifier
      position, fun store hstore _ => ?_⟩
    obtain ⟨bound, rfl⟩ := hsuits
    refine pursues_enterModule (fun node frame store hstore hscope => ?_) hstore frame specifier position
    exact ⟨(he false node frame).1 store hstore hscope, (he false node frame).2 store hstore hscope⟩

/-- **All evaluation is pursued to its end.** -/
theorem course_obeyed (bound : Nat) : course.Obeyed fun cut => evaluatorUntil cut bound := by
  induction bound with
  | zero =>
    exact ⟨fun _ _ _ => Discipline.followsEval_lift course.exhausts, fun _ _ _ _ _ _ => course.exhausts,
      0, rfl⟩
  | succ bound ih =>
    refine ⟨fun inCall node frame => ⟨(moduleOrder_obeyed (bound + 1)).node inCall node frame,
      fun store hstore hscope => ?_⟩, fun _ _ ref arguments frame position => ?_, bound + 1, rfl⟩
    · have hstep : course.followsEval inCall (some frame) fun k =>
          step bound (evaluatorUntil k bound) node frame := Discipline.followsEval_step ih frame bound node
      exact pursues_node (hstep.2 store hstore hscope)
    · exact Discipline.follows_callStep ih frame position ref arguments

/-- Runs of scripts pursue what they begin. -/
theorem Session.Settled.pursues {session : Session} (h : session.Settled) (script : Node) :
    Pursues (session.runUntil script) := by
  have hnode := (course_obeyed evaluationBound).node false script session.user
  exact Pursues.finish (hnode.1 session.store h.consistent h.user) (hnode.2 session.store h.consistent h.user)
    script.position

/-! ## Instants -/

/-- A node is to be evaluated in a frame at the instant: the script is cut there and nowhere else. -/
def Instant.Evaluates (instant : Instant) (node : Node) (frame : FrameRef) : Prop :=
  instant.cut = Cut.point node frame instant.store

/-- **From one instant to the next.** At a later instant, with another store, the evaluation that was begun
at an earlier one has either come to just this store, or it has had its answer before. -/
theorem Instant.Precedes.pursued {instant later : Instant} (hsession : instant.session.Settled)
    (h : instant.Precedes later) (hhere : instant.Evaluates node frame)
    (hother : later.store ≠ instant.store) :
    ∃ cut bound, ((evaluatorUntil cut bound).node node frame).run instant.store =
        .error .exhausted later.store ∨
      Answered (((evaluatorUntil cut bound).node node frame).run instant.store) ∧
        (endOf (((evaluatorUntil cut bound).node node frame).run instant.store)).Precedes
          later.store := by
  have hlater := h.settled hsession
  cases h with
  | within hsame hscript hboth =>
    have hreached := later.reached
    rw [hsame, hscript] at hreached
    -- the run with both cuts ends at the earlier instant, the one with the later cut goes on
    have hpasses : later.cut.Passes (instant.session.runUntil instant.script) node frame
        instant.store := by
      rw [hhere] at hboth
      intro heq
      rw [hboth, hreached] at heq
      exact hother (EStateM.Result.error.inj heq).2.symm
    obtain ⟨bound, hpursued⟩ := hsession.pursues instant.script _ _ _ _ hpasses
    rw [hreached] at hpursued
    cases hpursued with
    | within hinner hwhole _ =>
      obtain ⟨rfl, hlast⟩ := EStateM.Result.error.inj hwhole
      exact ⟨later.cut, bound, .inl (hlast ▸ hinner)⟩
    | behind hanswered hprecedes => exact ⟨later.cut, bound, .inr ⟨hanswered, hprecedes⟩⟩
  | behind hanswer hleads =>
    have hanswered := hanswer.answered
    have hreached := instant.reached
    rw [hhere, ← bot_sup_eq (Cut.point node frame instant.store)] at hreached
    -- the script of the earlier instant has an answer, so it is not cut there
    have hpasses : (⊥ : Cut).Passes (instant.session.runUntil instant.script) node frame
        instant.store := by
      intro heq
      rw [← heq, hreached] at hanswered
      cases hanswered
    obtain ⟨bound, hpursued⟩ := hsession.pursues instant.script _ _ _ _ hpasses
    have hnext : instant.session.Next (instant.session.evalNode instant.script).2 := .evalNode hanswer
    have hbetween := (hsession.next hnext).precedes hleads
    have hinside := (hlater.ordered later.script later.cut).precedes
    rw [later.reached] at hinside
    rw [Session.evalNode_snd] at hbetween
    cases hpursued with
    | @within stop last hinner hwhole hstop =>
      rw [hwhole] at hanswered
      cases stop with
      | failed failure => exact absurd rfl (hstop failure)
      | _ => cases hanswered
    | behind hanswered hprecedes =>
      exact ⟨⊥, bound, .inr ⟨hanswered, (hprecedes.trans hbetween).trans hinside⟩⟩

end Ckl
