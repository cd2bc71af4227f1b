import Ckl.Proofs.Module.Load
import Ckl.Session
import Mathlib.Logic.Relation

/-!
# The life of an interpreter

A session goes on from script to script, and between them the host binds names, adds functions, writes and
takes output. An instant is a moment of such a life: a node is to be evaluated in the course of a script.
The instants of one script are ordered by its run, and those of different scripts by the sessions.

Between scripts no module is being loaded. So what is said about modules while work goes on holds at all
instants, and each module that is loaded can be traced back to the instant at which the evaluation of its
text began.
-/

namespace Ckl

open Source (Position Node)

namespace Session

variable {session after : Session}

/-- The run of a script in a session, up to a cut. -/
noncomputable def runUntil (session : Session) (script : Node) (cut : Cut) :
    EStateM.Result Stop Store Value :=
  finish script.position ((evaluatorUntil cut evaluationBound).node script session.user) session.store

/-- The run of a script in a session, watched. -/
def runWatched (session : Session) (script : Node) (watch : Watch) : EStateM.Result Stop Store Value :=
  finish script.position ((evaluatorWatched watch evaluationBound).node script session.user) session.store

/-- The run of a script comes to a moment at which the other cut is made before it is cut itself: some stop
that is brought about there makes it end otherwise. -/
def Encounters (session : Session) (script : Node) (cut other : Cut) : Prop :=
  ∃ stop, session.runWatched script (cut.before other stop) ≠ session.runUntil script cut

/-- The script has a result or a failure. -/
def HasAnswer (session : Session) (script : Node) : Prop :=
  ∀ stop, (session.evalNode script).1 = .error stop → ∃ failure, stop = .failed failure

/-- What a session can go on to: scripts that have an answer are evaluated, and the host does what it
can. -/
inductive Next (session : Session) : Session → Prop where
  | evalNode {script : Node} (h : session.HasAnswer script) : Next session (session.evalNode script).2
  | define (name : String) (value : Value) : Next session (session.define name value)
  | register (function : HostFunction) : Next session (session.register function)
  | print (text : String) : Next session (session.print text)
  | clearOutput : Next session session.clearOutput

/-- What a session can go on to in the course of time. -/
def Leads : Session → Session → Prop := Relation.ReflTransGen Next

/-! ## Scripts as runs -/

/-- A script changes the store of the session and nothing else. -/
theorem evalNode_snd (session : Session) (script : Node) :
    (session.evalNode script).2 = { session with store := endOf (session.runUntil script ⊥) } := by
  unfold evalNode perform runUntil
  rw [evaluatorUntil_bot]
  show _ = { session with store := endOf (finish script.position
    (evaluate evaluationBound script session.user) session.store) }
  cases finish script.position (evaluate evaluationBound script session.user) session.store <;> rfl

/-- A script with an answer is run without being cut or given up. -/
theorem HasAnswer.answered {script : Node} (h : session.HasAnswer script) :
    Answered (session.runUntil script ⊥) := by
  unfold HasAnswer evalNode perform at h
  unfold runUntil
  rw [evaluatorUntil_bot]
  show Answered (finish script.position (evaluate evaluationBound script session.user) session.store)
  cases hend : finish script.position (evaluate evaluationBound script session.user) session.store with
  | ok value after => trivial
  | error stop after =>
    rw [hend] at h
    obtain ⟨failure, rfl⟩ := h stop rfl
    trivial

/-- Whether a script has an answer. -/
def answers (session : Session) (script : Node) : Bool :=
  match (session.evalNode script).1 with
  | .error .exhausted | .error (.awaiting _) => false
  | _ => true

/-- Whether a script has an answer can be computed. -/
theorem hasAnswer_of_answers {script : Node} (h : session.answers script = true) :
    session.HasAnswer script := by
  intro stop hstop
  unfold answers at h
  rw [hstop] at h
  match stop with
  | .failed failure => exact ⟨failure, rfl⟩

/-! ## Sessions between scripts -/

/-- A session between two scripts: the modules are consistent, and none is being loaded. -/
structure Settled (session : Session) : Prop where
  consistent : session.store.Consistent
  idle : ∀ ref, session.store.loading ref = []
  user : session.store.Outside (some session.user)
  base : session.store.Outside (some session.base)

/-- Runs of scripts are in order. -/
theorem Settled.ordered (h : session.Settled) (script : Node) :
    Ordered session.store (session.runUntil script) :=
  ((moduleOrder_obeyed evaluationBound).node false script session.user session.store h.consistent
    h.user).finish script.position

/-- What the host does leaves the modules alone. -/
theorem Settled.next_cases (h : session.Settled) (hnext : session.Next after) :
    (∃ script, session.HasAnswer script ∧ after = (session.evalNode script).2) ∨
      ∃ store, session.store.SameModules store ∧ after = { session with store } := by
  cases hnext with
  | @evalNode script hanswer => exact .inl ⟨script, hanswer, rfl⟩
  | define name value => exact .inr ⟨_, .changeBindings h.user _, rfl⟩
  | register function =>
    have hplaced : session.store.SameModules (session.store.placeFunction (.host function)).2 :=
      .of_frames rfl
    exact .inr ⟨_, hplaced.trans (.changeBindings (hplaced.outside h.base) _), rfl⟩
  | print text => exact .inr ⟨(session.print text).store, .of_frames rfl, rfl⟩
  | clearOutput => exact .inr ⟨session.clearOutput.store, .of_frames rfl, rfl⟩

/-- What goes on from a settled session is settled. -/
theorem Settled.next (h : session.Settled) (hnext : session.Next after) : after.Settled := by
  obtain ⟨script, hanswer, rfl⟩ | ⟨store, hsame, rfl⟩ := h.next_cases hnext
  · have hordered := h.ordered script
    rw [evalNode_snd]
    refine ⟨(hordered ⊥).consistent, fun ref => ?_, hordered.outside h.user ⊥,
      hordered.outside h.base ⊥⟩
    exact ((hordered ⊥).balanced hanswer.answered ref).trans (h.idle ref)
  · refine ⟨hsame.consistent h.consistent, fun ref => ?_, hsame.outside h.user,
      hsame.outside h.base⟩
    exact (hsame.loading ref).trans (h.idle ref)

/-- What is known of modules only grows from one session to the next. -/
theorem Settled.precedes_next (h : session.Settled) (hnext : session.Next after) :
    session.store.Precedes after.store := by
  obtain ⟨script, -, rfl⟩ | ⟨store, hsame, rfl⟩ := h.next_cases hnext
  · rw [evalNode_snd]
    exact (h.ordered script ⊥).precedes
  · exact hsame.precedes

/-- All sessions of a life are settled. -/
theorem Settled.leads (h : session.Settled) (hleads : session.Leads after) : after.Settled := by
  induction hleads with
  | refl => exact h
  | tail _ hnext ih => exact ih.next hnext

/-- What is known of modules only grows in the life of a session. -/
theorem Settled.precedes (h : session.Settled) (hleads : session.Leads after) :
    session.store.Precedes after.store := by
  induction hleads with
  | refl => exact .refl _
  | tail hleads hnext ih => exact ih.trans ((h.leads hleads).precedes_next hnext)

section Start

variable {file : String} {resolve : String → Resolution} {input : List InputLine}
  {now : Calendar.Moment}

/-- In the beginning the first frame alone has a registry, which knows nothing yet. -/
theorem registry_start (ref : FrameRef) :
    ((start file resolve input now).store.frame ref).registry =
      if ref.index = 0 then some { resolve } else none := by
  obtain ⟨index⟩ := ref
  match index with
  | 0 => rfl
  | 1 => rfl
  | index + 2 => rfl

/-- In the beginning no module is loaded. -/
theorem loaded?_start (ref : FrameRef) (identifier : String) :
    (start file resolve input now).store.loaded? ref identifier = none := by
  rw [Store.loaded?, registry_start]
  split <;> rfl

/-- In the beginning no module is being loaded. -/
theorem settled_start : (start file resolve input now).Settled := by
  have houtside : ∀ frame : FrameRef, frame.index < 2 →
      (start file resolve input now).store.Outside (some frame) := by
    rintro frame hindex other ⟨rfl⟩
    exact ⟨hindex, fun ref identifier => by rw [loaded?_start]; nofun⟩
  refine ⟨⟨fun ref identifier frame h => ?_, fun ref identifier other frame h => ?_, fun ref => ?_,
    fun ref identifier _ => loaded?_start ref identifier⟩, fun ref => ?_, houtside ⟨1⟩ (by decide),
    houtside ⟨0⟩ (by decide)⟩
  · rw [loaded?_start] at h
    cases h
  · rw [loaded?_start] at h
    cases h
  · rw [Store.loading, registry_start]
    split <;> exact List.nodup_nil
  · rw [Store.loading, registry_start]
    split <;> rfl

/-- Modules are found by the resolver with which the interpreter has begun. -/
theorem resolve_of_leads (hlife : (start file resolve input now).Leads session) {ref : FrameRef}
    {found : String → Resolution} (h : session.store.resolve? ref = some found) : found = resolve := by
  rw [(settled_start.precedes hlife).resolve, Store.resolve?, registry_start] at h
  split at h
  · exact (Option.some.inj h).symm
  · cases h

end Start

end Session

/-! ## Instants -/

/-- A moment of the life of an interpreter: in a session a script is run, which is cut and ends there. -/
structure Instant where
  session : Session
  script : Node
  cut : Cut
  store : Store
  reached : session.runUntil script cut = .error .exhausted store

namespace Instant

variable {instant later : Instant}

/-- The first instant of a script, when it is to be evaluated itself. -/
def beginning (session : Session) (script : Node) : Instant where
  session := session
  script := script
  cut := .point script session.user session.store
  store := session.store
  reached := Run.bind_of_error (evaluatorUntil_node_of_cut ⟨rfl, rfl, rfl⟩ evaluationBound)

/-- The order of instants: in the run of one script, the run that is cut at both ends at the first; or the
script of the first one has come to its end when the session of the other begins. -/
inductive Precedes (instant later : Instant) : Prop where
  | within (hsession : later.session = instant.session) (hscript : later.script = instant.script)
    (h : instant.session.runUntil instant.script (later.cut ⊔ instant.cut) =
      .error .exhausted instant.store)
  | behind (hanswer : instant.session.HasAnswer instant.script)
    (h : (instant.session.evalNode instant.script).2.Leads later.session)

theorem Precedes.refl (instant : Instant) : instant.Precedes instant :=
  .within rfl rfl (by rw [sup_idem]; exact instant.reached)

variable (hsession : instant.session.Settled)

include hsession

/-- The store of an instant is consistent. -/
theorem consistent : instant.store.Consistent := by
  have hconsistent := (hsession.ordered instant.script instant.cut).consistent
  rwa [instant.reached] at hconsistent

/-- The session of a later instant is settled. -/
theorem Precedes.settled (h : instant.Precedes later) : later.session.Settled := by
  cases h with
  | within hsame _ _ => rwa [hsame]
  | behind hanswer hleads => exact (hsession.next (.evalNode hanswer)).leads hleads

/-- What is said about modules holds from one instant to the next. -/
theorem Precedes.store (h : instant.Precedes later) : instant.store.Precedes later.store := by
  have hlater := h.settled hsession
  cases h with
  | within hsame hscript hboth =>
    have hreached := later.reached
    rw [hsame, hscript] at hreached
    rcases (hsession.ordered instant.script later.cut).cuts _ le_sup_left with
      heq | ⟨node, frame, moment, -, -, hmoment, hbefore⟩
    · rw [heq, hreached] at hboth
      simp only [EStateM.Result.error.injEq, true_and] at hboth
      rw [hboth]
      exact .refl _
    · rw [hboth] at hmoment
      cases hmoment
      rwa [hreached] at hbefore
  | behind hanswer hleads =>
    have hnext : instant.session.Next (instant.session.evalNode instant.script).2 := .evalNode hanswer
    have hscript : instant.store.Precedes (instant.session.evalNode instant.script).2.store := by
      rw [Session.evalNode_snd]
      rcases (hsession.ordered instant.script ⊥).cuts instant.cut bot_le with
        heq | ⟨node, frame, moment, -, -, hmoment, hbefore⟩
      · have hanswered := hanswer.answered
        rw [← heq, instant.reached] at hanswered
        cases hanswered
      · rw [instant.reached] at hmoment
        cases hmoment
        exact hbefore
    have hinside := (hlater.ordered later.script later.cut).precedes
    rw [later.reached] at hinside
    exact (hscript.trans ((hsession.next hnext).precedes hleads)).trans hinside

omit hsession

/-! ## Where loads begin -/

/-- The run has come to where the evaluation of the text of a module begins, and is cut there. -/
structure Starts (instant : Instant) (load : Load) : Prop where
  store : instant.store = load.start
  cut : load.point ≤ instant.cut

/-- A load that begins in the course of a script begins at an instant. -/
theorem exists_starts {session : Session} {script : Node} {cut : Cut} {load : Load}
    (h : load.Begins session.store (session.runUntil script) cut) :
    ∃ instant : Instant, instant.Starts load ∧ instant.session = session ∧
      instant.script = script ∧ instant.cut = cut ⊔ load.point :=
  ⟨⟨session, script, _, _, h.reached⟩, ⟨rfl, le_sup_right⟩, rfl, rfl, rfl⟩

/-- If the load begins in the script of an instant, before that is reached, it begins before. -/
theorem exists_starts_before {load : Load}
    (h : load.Begins instant.session.store (instant.session.runUntil instant.script) instant.cut) :
    ∃ earlier : Instant, earlier.Starts load ∧ earlier.session = instant.session ∧
      earlier.Precedes instant := by
  obtain ⟨earlier, hstarts, hsession, hscript, hcut⟩ := exists_starts h
  refine ⟨earlier, hstarts, hsession, .within hsession.symm hscript.symm ?_⟩
  rw [hsession, hscript, hcut, hstarts.store, ← sup_assoc, sup_idem]
  exact h.reached

end Instant

section Origin

variable {file : String} {resolve : String → Resolution} {input : List InputLine}
  {now : Calendar.Moment} {ref frame : FrameRef} {identifier : String}

/-- A module that is loaded between two scripts has been loaded in the course of an earlier script. -/
def Session.HasOrigin (first session : Session) (ref : FrameRef) (identifier : String)
    (frame : FrameRef) : Prop :=
  ∃ (load : Load) (instant : Instant), load.frame = frame ∧ load.Of session.store ref identifier ∧
    load.Completed session.store ∧ instant.Starts load ∧ first.Leads instant.session ∧
    instant.session.HasAnswer instant.script ∧
    (instant.session.evalNode instant.script).2.Leads session

/-- A module that was loaded before the next session has its origin there. -/
theorem Session.HasOrigin.next {first session after : Session}
    (h : first.HasOrigin session ref identifier frame) (hnext : session.Next after)
    (hprecedes : session.store.Precedes after.store)
    (hloaded : session.store.loaded? ref identifier = some frame) :
    first.HasOrigin after ref identifier frame := by
  obtain ⟨load, instant, rfl, hof, hdone, hstarts, hlife, hanswer, hleads⟩ := h
  exact ⟨load, instant, rfl, hof.congr (hprecedes.resolve ref).symm, hdone.later hprecedes hloaded,
    hstarts, hlife, hanswer, hleads.tail hnext⟩

/-- Every module that is loaded in the life of an interpreter has an origin in it. -/
theorem Session.origin {session : Session} (hlife : (start file resolve input now).Leads session)
    (hloaded : session.store.loaded? ref identifier = some frame) :
    (start file resolve input now).HasOrigin session ref identifier frame := by
  induction hlife with
  | refl =>
    rw [loaded?_start] at hloaded
    cases hloaded
  | @tail session after hlife hnext ih =>
    have hsettled := settled_start.leads hlife
    have hprecedes := hsettled.precedes_next hnext
    obtain ⟨script, hanswer, rfl⟩ | ⟨store, hsame, rfl⟩ := hsettled.next_cases hnext
    · have hstore : (session.evalNode script).2.store = endOf (session.runUntil script ⊥) := by
        rw [evalNode_snd]
      rw [hstore] at hloaded
      rcases (hsettled.ordered script ⊥).loads ref identifier frame hloaded with
        hold | ⟨load, rfl, hof, hbegins, hdone⟩
      · exact (ih hold).next hnext hprecedes hold
      · obtain ⟨instant, hstarts, rfl, rfl, -⟩ := Instant.exists_starts hbegins
        refine ⟨load, instant, rfl, hof.congr (hprecedes.resolve ref).symm, ?_, hstarts, hlife, hanswer,
          .refl⟩
        rwa [hstore]
    · have hold : session.store.loaded? ref identifier = some frame := by
        rwa [hsame.loaded] at hloaded
      exact (ih hold).next hnext hprecedes hold

variable {instant : Instant} (hlife : (Session.start file resolve input now).Leads instant.session)

include hlife

/-- Modules are resolved as they were in the beginning. -/
theorem Instant.resolve_eq {found : String → Resolution}
    (h : instant.store.resolve? ref = some found) : found = resolve := by
  have hordered := (Session.settled_start.leads hlife).ordered instant.script instant.cut
  have hprecedes := hordered.precedes
  rw [instant.reached, endOf_error] at hprecedes
  exact Session.resolve_of_leads hlife ((hprecedes.resolve ref).symm.trans h)

/-- **Where a loaded module comes from.** -/
theorem Instant.origin (hloaded : instant.store.loaded? ref identifier = some frame) :
    ∃ (load : Load) (earlier : Instant), load.frame = frame ∧
      load.Of instant.store ref identifier ∧ load.Completed instant.store ∧ earlier.Starts load ∧
      (Session.start file resolve input now).Leads earlier.session ∧ earlier.Precedes instant := by
  have hordered := (Session.settled_start.leads hlife).ordered instant.script instant.cut
  have hprecedes := hordered.precedes
  have hloads := hordered.loads ref identifier frame
  rw [instant.reached, endOf_error] at hprecedes hloads
  rcases hloads hloaded with hold | ⟨load, rfl, hof, hbegins, hdone⟩
  · obtain ⟨load, earlier, rfl, hof, hdone, hstarts, hlife, hanswer, hleads⟩ :=
      Session.origin hlife hold
    exact ⟨load, earlier, rfl, hof.congr (hprecedes.resolve ref).symm, hdone.later hprecedes hold,
      hstarts, hlife, .behind hanswer hleads⟩
  · obtain ⟨earlier, hstarts, hsession, hbefore⟩ := Instant.exists_starts_before hbegins
    exact ⟨load, earlier, rfl, hof.congr (hprecedes.resolve ref).symm, hdone, hstarts,
      hsession ▸ hlife, hbefore⟩

/-- **What is being loaded.** -/
theorem Instant.underway (hloading : identifier ∈ instant.store.loading ref) :
    ∃ (load : Load) (earlier : Instant), load.Of instant.store ref identifier ∧
      load.Underway instant.cut instant.store ∧ earlier.Starts load ∧
      earlier.session = instant.session ∧ earlier.Precedes instant := by
  have hsettled := Session.settled_start.leads hlife
  have hordered := hsettled.ordered instant.script instant.cut
  have hprecedes := hordered.precedes
  obtain ⟨more, hmore, hunderway⟩ := hordered.underway instant.store instant.reached ref
  rw [instant.reached, endOf_error] at hprecedes
  rw [hmore, hsettled.idle ref, List.nil_append] at hloading
  obtain ⟨load, hof, hbegins, hload⟩ := hunderway identifier hloading
  obtain ⟨earlier, hstarts, hsession, hbefore⟩ := Instant.exists_starts_before hbegins
  exact ⟨load, earlier, hof.congr (hprecedes.resolve ref).symm, hload, hstarts, hsession, hbefore⟩

end Origin

end Ckl
