import Ckl.Proofs.Module.Registry
import Ckl.Proofs.Run.Moments

/-!
# Loads of modules in the course of work

What becomes of the modules while work goes on, at all of its moments. `Ordered` says it of all cuts of the
work at once: the modules are consistent and stay loaded; an answer leaves the list of modules being loaded
as it was, and a cut leaves on it what is being evaluated; whatever is loaded in the end was so before, or
its text has been evaluated on the way; and an earlier cut ends at a moment that the later one has passed.

Work that is put together from ordered work is ordered. The one argument in it is about loads that begin in
the second part of the work: a cut where such a load begins cannot concern the first part, since the frame
of the load does not exist then.
-/

namespace Ckl

open Source (Position Node)
open Source.Module (fileName)

/-- A text that is evaluated as a module: the specifier of its file, its tree, the frame that is made for it,
the store in which the evaluation begins and the bound with which it is done. -/
structure Load where
  specifier : String
  text : String
  node : Node
  frame : FrameRef
  start : Store
  bound : Nat

namespace Load

variable {α β : Type} {load : Load} {store after : Store} {ref : FrameRef} {identifier : String}
  {cut : Cut}

/-- The text is found in the file of a specifier with the identifier. -/
structure Reads (load : Load) (resolve : String → Resolution) (identifier : String) : Prop where
  named : Source.Module.identifier load.specifier = identifier
  found : resolve (fileName load.specifier) = .found load.text
  read : Source.readScript (fileName load.specifier) load.text = .ok load.node

/-- The load is one of a module with an identifier, in a frame that is new. -/
structure Of (load : Load) (store : Store) (ref : FrameRef) (identifier : String) : Prop where
  reads : ∃ resolve, store.resolve? ref = some resolve ∧ load.Reads resolve identifier
  entered : ∃ before : Store, before.enter ref Bindings.empty = (load.frame, load.start)

/-- Where the evaluation of the text begins. -/
def point (load : Load) : Cut := Cut.point load.node load.frame load.start

/-- In the course of work that is begun in a store, the evaluation of the text begins, before the work is
cut. -/
structure Begins (load : Load) (store : Store) (ends : Cut → EStateM.Result Stop Store α) (cut : Cut) :
    Prop where
  new : store.frames.size ≤ load.frame.index
  reached : ends (cut ⊔ load.point) = .error .exhausted load.start

/-- The evaluation of the text has come to a moment at which it is cut. -/
def Underway (load : Load) (cut : Cut) (moment : Store) : Prop :=
  ((evaluatorUntil cut load.bound).node load.node load.frame).run load.start = .error .exhausted moment

/-- The evaluation of the text has come to its end before a moment, and the names that it has bound are
bound in its frame at that moment. -/
def Completed (load : Load) (moment : Store) : Prop :=
  ∃ value done,
    finish load.node.position (evaluate load.bound load.node load.frame) load.start = .ok value done ∧
      done.Precedes moment ∧
      (moment.frame load.frame).bindings.names = (done.frame load.frame).bindings.names

/-- The frame of a load is there when its text begins to be evaluated. -/
theorem Of.frame_lt (h : load.Of store ref identifier) :
    load.frame.index < load.start.frames.size := by
  obtain ⟨before, hbefore⟩ := h.entered
  have hframe : (before.enter ref Bindings.empty).1 = load.frame := congrArg Prod.fst hbefore
  have hstart : (before.enter ref Bindings.empty).2 = load.start := congrArg Prod.snd hbefore
  rw [← hframe, ← hstart]
  simp

/-- What is a load depends only on how modules are resolved. -/
theorem Of.congr (h : load.Of after ref identifier) (hresolve : after.resolve? ref = store.resolve? ref) :
    load.Of store ref identifier :=
  ⟨hresolve ▸ h.reads, h.entered⟩

/-- A load that is completed stays so as long as its module is kept in its frame. -/
theorem Completed.later (h : load.Completed store) (hprecedes : store.Precedes after)
    (hloaded : store.loaded? ref identifier = some load.frame) : load.Completed after := by
  obtain ⟨value, done, hdone, hbefore, hnames⟩ := h
  exact ⟨value, done, hdone, hbefore.trans hprecedes,
    (hprecedes.names ref identifier load.frame hloaded).trans hnames⟩

end Load

/-- The end of work that is begun in a store, cut in one way, is in order as far as modules are concerned. -/
structure OrderedUntil {α : Type} (cut : Cut) (store : Store)
    (ends : Cut → EStateM.Result Stop Store α) : Prop where
  consistent : (endOf (ends cut)).Consistent
  precedes : store.Precedes (endOf (ends cut))
  balanced : Answered (ends cut) → ∀ ref, (endOf (ends cut)).loading ref = store.loading ref
  underway : ∀ moment, ends cut = .error .exhausted moment → ∀ ref, ∃ more,
    moment.loading ref = store.loading ref ++ more ∧ ∀ identifier ∈ more,
      ∃ load : Load, load.Of store ref identifier ∧ load.Begins store ends cut ∧
        load.Underway cut moment
  loads : ∀ ref identifier frame, (endOf (ends cut)).loaded? ref identifier = some frame →
    store.loaded? ref identifier = some frame ∨
      ∃ load : Load, load.frame = frame ∧ load.Of store ref identifier ∧
        load.Begins store ends cut ∧ load.Completed (endOf (ends cut))
  cuts : ∀ earlier, cut ≤ earlier → ends earlier = ends cut ∨
    ∃ node frame moment, earlier node frame moment ∧ ¬ cut node frame moment ∧
      ends earlier = .error .exhausted moment ∧ moment.Precedes (endOf (ends cut))

/-- The ends of work are in order, in whatever way it is cut. -/
def Ordered {α : Type} (store : Store) (ends : Cut → EStateM.Result Stop Store α) : Prop :=
  ∀ cut, OrderedUntil cut store ends

namespace OrderedUntil

variable {α β : Type} {cut : Cut} {store after : Store} {ends : Cut → EStateM.Result Stop Store α}

/-! ## Work that the cuts do not concern -/

/-- Work that leaves the modules alone. -/
theorem of_sameModules (hstore : store.Consistent) (hsame : store.SameModules (endOf (ends cut)))
    (hcuts : ∀ earlier, cut ≤ earlier → ends earlier = ends cut ∨
      ∃ node frame moment, earlier node frame moment ∧ ¬ cut node frame moment ∧
        ends earlier = .error .exhausted moment ∧ moment.Precedes (endOf (ends cut))) :
    OrderedUntil cut store ends where
  consistent := hsame.consistent hstore
  precedes := hsame.precedes
  balanced _ := hsame.loading
  underway moment hend ref := by
    refine ⟨[], ?_, nofun⟩
    rw [hend] at hsame
    simpa using hsame.loading ref
  loads ref identifier frame hloaded := .inl (by rwa [hsame.loaded] at hloaded)
  cuts := hcuts

/-- Work that waits for a file. -/
theorem of_awaiting {path : String} (hafter : after.Consistent) (hprecedes : store.Precedes after)
    (hloaded : ∀ ref identifier, after.loaded? ref identifier = store.loaded? ref identifier) :
    OrderedUntil cut store
      fun _ => (.error (.awaiting path) after : EStateM.Result Stop Store α) where
  consistent := hafter
  precedes := hprecedes
  balanced := nofun
  underway moment hend := by cases hend
  loads ref identifier frame h := .inl (by rwa [endOf_error, hloaded] at h)
  cuts _ _ := .inl rfl

/-! ## Work one after the other -/

/-- A cut at a load that begins later does not concern the work. -/
theorem ends_sup_point (h : OrderedUntil cut store ends) {load : Load} {ref : FrameRef}
    {identifier : String} (hof : load.Of after ref identifier)
    (hnew : (endOf (ends cut)).frames.size ≤ load.frame.index) :
    ends (cut ⊔ load.point) = ends cut := by
  rcases h.cuts (cut ⊔ load.point) le_sup_left with heq | ⟨node, frame, moment, hin, hnot, -, hbefore⟩
  · exact heq
  · obtain ⟨-, -, rfl⟩ : load.point node frame moment := hin.resolve_left hnot
    have hgrows := hbefore.grows
    have hframe := hof.frame_lt
    omega

section Bind

variable {work : Cut → Run α} {next : Cut → α → Run β}

/-- The loads of the first work. -/
theorem begins_first {load : Load} (h : load.Begins store (fun k => work k store) cut) :
    load.Begins store (fun k => (work k >>= next k) store) cut :=
  ⟨h.new, Run.bind_of_error h.reached⟩

/-- Work that ends before there is something behind it. -/
theorem bind_of_error (h : OrderedUntil cut store fun k => work k store) {stop : Stop}
    (hend : work cut store = .error stop after) :
    OrderedUntil cut store fun k => (work k >>= next k) store := by
  obtain ⟨hconsistent, hprecedes, hbalanced, hunderway, hloads, hcuts⟩ := h
  have hbind : (work cut >>= next cut) store = .error stop after := Run.bind_of_error hend
  simp only [hend, endOf_error] at hconsistent hprecedes hbalanced hunderway hloads hcuts
  refine ⟨?_, ?_, ?_, fun moment hmoment ref => ?_, fun ref identifier frame hloaded => ?_,
    fun earlier hle => ?_⟩
  · simpa only [hbind, endOf_error] using hconsistent
  · simpa only [hbind, endOf_error] using hprecedes
  · simp only [hbind, endOf_error]
    cases stop with
    | failed failure => exact fun _ => hbalanced trivial
    | _ => exact nofun
  · obtain ⟨rfl, rfl⟩ : stop = .exhausted ∧ after = moment := by simpa [hbind] using hmoment
    obtain ⟨more, hloading, hmore⟩ := hunderway after rfl ref
    refine ⟨more, hloading, fun identifier hidentifier => ?_⟩
    obtain ⟨load, hof, hbegins, hunderway⟩ := hmore identifier hidentifier
    exact ⟨load, hof, begins_first hbegins, hunderway⟩
  · simp only [hbind, endOf_error] at hloaded ⊢
    refine (hloads ref identifier frame hloaded).imp_right fun ⟨load, hframe, hof, hbegins, hdone⟩ => ?_
    exact ⟨load, hframe, hof, begins_first hbegins, hdone⟩
  · simp only [hbind, endOf_error]
    rcases hcuts earlier hle with heq | ⟨node, frame, moment, hin, hnot, hend', hbefore⟩
    · exact .inl (Run.bind_of_error heq)
    · exact .inr ⟨node, frame, moment, hin, hnot, Run.bind_of_error hend', hbefore⟩

/-- The loads of the second work. -/
theorem begins_next (h : OrderedUntil cut store fun k => work k store) {load : Load} {ref : FrameRef}
    {identifier : String} {a : α} (hend : work cut store = .ok a after)
    (hof : load.Of after ref identifier) (hbegins : load.Begins after (fun k => next k a after) cut) :
    load.Begins store (fun k => (work k >>= next k) store) cut := by
  have hgrows := h.precedes.grows
  simp only [hend, endOf_ok] at hgrows
  have hnew : (endOf (work cut store)).frames.size ≤ load.frame.index := by
    rw [hend]
    exact hbegins.new
  have hsame : work (cut ⊔ load.point) store = .ok a after := (h.ends_sup_point hof hnew).trans hend
  exact ⟨Nat.le_trans hgrows hbegins.new, (Run.bind_of_ok hsame).trans hbegins.reached⟩

/-- Work that goes on where the first work has ended. -/
theorem bind_of_ok (h : OrderedUntil cut store fun k => work k store) {a : α}
    (hend : work cut store = .ok a after) (hnext : OrderedUntil cut after fun k => next k a after) :
    OrderedUntil cut store fun k => (work k >>= next k) store := by
  have hbind : (work cut >>= next cut) store = next cut a after := Run.bind_of_ok hend
  have hbegins : ∀ {load : Load} {ref identifier}, load.Of after ref identifier →
      load.Begins after (fun k => next k a after) cut →
        load.Begins store (fun k => (work k >>= next k) store) cut := h.begins_next hend
  obtain ⟨-, hprecedes, hbalanced, -, hloads, hcuts⟩ := h
  simp only [hend, endOf_ok] at hprecedes hbalanced hloads hcuts
  refine ⟨?_, ?_, fun hanswered ref => ?_, fun moment hmoment ref => ?_,
    fun ref identifier frame hloaded => ?_, fun earlier hle => ?_⟩
  · simpa only [hbind] using hnext.consistent
  · simpa only [hbind] using hprecedes.trans hnext.precedes
  · simp only [hbind] at hanswered ⊢
    exact (hnext.balanced hanswered ref).trans (hbalanced trivial ref)
  · obtain ⟨more, hloading, hmore⟩ := hnext.underway moment (hbind.symm.trans hmoment) ref
    refine ⟨more, by rw [hloading, hbalanced trivial ref], fun identifier hidentifier => ?_⟩
    obtain ⟨load, hof, hload, hunderway⟩ := hmore identifier hidentifier
    exact ⟨load, hof.congr (hprecedes.resolve ref), hbegins hof hload, hunderway⟩
  · simp only [hbind] at hloaded ⊢
    rcases hnext.loads ref identifier frame hloaded with hold | ⟨load, rfl, hof, hload, hdone⟩
    · refine (hloads ref identifier frame hold).imp_right ?_
      rintro ⟨load, rfl, hof, hload, hdone⟩
      exact ⟨load, rfl, hof, begins_first hload, hdone.later hnext.precedes hold⟩
    · exact .inr ⟨load, rfl, hof.congr (hprecedes.resolve ref), hbegins hof hload, hdone⟩
  · simp only [hbind]
    rcases hcuts earlier hle with heq | ⟨node, frame, moment, hin, hnot, hend', hbefore⟩
    · rw [Run.bind_of_ok heq]
      exact hnext.cuts earlier hle
    · exact .inr ⟨node, frame, moment, hin, hnot, Run.bind_of_error hend',
        hbefore.trans hnext.precedes⟩

end Bind

end OrderedUntil

namespace Ordered

variable {α β : Type} {store : Store} {ends : Cut → EStateM.Result Stop Store α}
  {work : Cut → Run α} {next : Cut → α → Run β}

/-- A result that leaves all modules as they are is ordered. -/
theorem of_sameModules {result : EStateM.Result Stop Store α} (hstore : store.Consistent)
    (hsame : store.SameModules (endOf result)) : Ordered store fun _ => result :=
  fun _ => .of_sameModules hstore hsame fun _ _ => .inl rfl

/-- A place at which work may be cut. -/
theorem checkpoint (hstore : store.Consistent) (node : Node) (frame : FrameRef) :
    Ordered store fun cut => Run.checkpoint cut node frame store := by
  intro cut
  by_cases hcut : cut node frame store
  · refine .of_sameModules hstore ?_ fun earlier hle => .inl ?_
    · rw [Run.checkpoint_of_cut hcut]
      exact .of_frames rfl
    · rw [Run.checkpoint_of_cut hcut, Run.checkpoint_of_cut (hle node frame store hcut)]
  · have hend := Run.checkpoint_of_not hcut
    refine .of_sameModules hstore ?_ fun earlier hle => ?_
    · rw [hend]
      exact .of_frames rfl
    · by_cases hearlier : earlier node frame store
      · refine .inr ⟨node, frame, store, hearlier, hcut, Run.checkpoint_of_cut hearlier, ?_⟩
        rw [hend]
        exact .refl store
      · exact .inl ((Run.checkpoint_of_not hearlier).trans hend.symm)

/-- Ordered work, and behind it work that is ordered wherever the first may end. -/
theorem bind (h : Ordered store fun k => work k store)
    (hnext : ∀ cut a after, work cut store = .ok a after → Ordered after fun k => next k a after) :
    Ordered store fun k => (work k >>= next k) store := by
  intro cut
  cases hend : work cut store with
  | ok a after => exact (h cut).bind_of_ok hend (hnext cut a after hend cut)
  | error stop after => exact (h cut).bind_of_error hend

/-- The scope stays outside of modules: their frames are newer. -/
theorem outside (h : Ordered store ends) {scope : Option FrameRef} (hscope : store.Outside scope)
    (cut : Cut) : (endOf (ends cut)).Outside scope := by
  refine hscope.later (h cut).precedes.grows fun ref identifier frame hloaded => ?_
  rcases (h cut).loads ref identifier frame hloaded with hold | ⟨load, rfl, -, hbegins, -⟩
  · exact .inl hold
  · exact .inr hbegins.new

/-- Work in sequence is ordered, where the second part begins as the first one ends. -/
theorem andThen (h : Ordered store fun k => work k store) {scope : Option FrameRef}
    (hscope : store.Outside scope)
    (hnext : ∀ a (after : Store), after.Consistent → after.Outside scope →
      Ordered after fun k => next k a after) :
    Ordered store fun k => (work k >>= next k) store := by
  refine h.bind fun cut a after hend => ?_
  have hafter := (h cut).consistent
  have houtside := h.outside hscope cut
  rw [hend, endOf_ok] at hafter houtside
  exact hnext a after hafter houtside

/-- Attempts end where the work does. -/
theorem attempt (h : Ordered store fun k => work k store) :
    Ordered store fun k => Run.attempt (work k) store := by
  have hend : ∀ cut, endOf (Run.attempt (work cut) store) = endOf (work cut store) := fun cut =>
    Run.after_attempt (work cut) store
  have hcut : ∀ cut moment, Run.attempt (work cut) store = .error .exhausted moment ↔
      work cut store = .error .exhausted moment := fun _ _ => Run.attempt_exhausted_iff
  intro cut
  obtain ⟨hconsistent, hprecedes, hbalanced, hunderway, hloads, hcuts⟩ := h cut
  have hbegins : ∀ {load : Load}, load.Begins store (fun k => work k store) cut →
      load.Begins store (fun k => Run.attempt (work k) store) cut := fun hbegins =>
    ⟨hbegins.new, (hcut _ _).mpr hbegins.reached⟩
  rw [← hend cut] at hconsistent hprecedes hbalanced
  refine ⟨hconsistent, hprecedes, fun hanswered => ?_, fun moment hmoment ref => ?_,
    fun ref identifier frame hloaded => ?_, fun earlier hle => ?_⟩
  · exact hbalanced (Run.answered_attempt_iff.mp hanswered)
  · obtain ⟨more, hloading, hmore⟩ := hunderway moment ((hcut cut moment).mp hmoment) ref
    refine ⟨more, hloading, fun identifier hidentifier => ?_⟩
    obtain ⟨load, hof, hload, hunderway⟩ := hmore identifier hidentifier
    exact ⟨load, hof, hbegins hload, hunderway⟩
  · rw [hend cut] at hloaded ⊢
    refine (hloads ref identifier frame hloaded).imp_right fun ⟨load, hframe, hof, hload, hdone⟩ => ?_
    exact ⟨load, hframe, hof, hbegins hload, hdone⟩
  · rw [hend cut]
    rcases hcuts earlier hle with heq | ⟨node, frame, moment, hin, hnot, hmoment, hbefore⟩
    · exact .inl (by simp only [Run.attempt, heq])
    · exact .inr ⟨node, frame, moment, hin, hnot, (hcut _ _).mpr hmoment, hbefore⟩

end Ordered

end Ckl
