import Ckl.Proofs.Module.Protocol

/-!
# Where required names come from

A `require` finds a module by its identifier, which is the last part of its specifier: that is the name under
which modules are kept and watched for cycles. The file is looked up by the whole specifier, but only if the
identifier is new. So the names come from the text of some file with the identifier, and from the one that
is named if there is no other.
-/

namespace Ckl

open Source (Position Node)
open Source.Module (fileName)

section Require

variable {bound : Nat} {module : Node} {style : Source.ImportStyle} {frame inner : FrameRef}
  {position : Position} {store after : Store} {specifier : String}

/-- The frame that a module is asked for was kept already, or its text is evaluated now. -/
theorem Store.Consistent.origin_enterModule (h : store.Consistent)
    (hend : enterModule (evaluator bound) frame (Source.Module.identifier specifier)
      (fileName specifier) position store = .ok inner after) :
    store.loaded? (store.root frame) (Source.Module.identifier specifier) = some inner ∨
      ∃ load : Load, load.frame = inner ∧
        load.Of store (store.root frame) (Source.Module.identifier specifier) ∧
        load.Begins store (fun k => enterModule (evaluatorUntil k bound) frame
          (Source.Module.identifier specifier) (fileName specifier) position store) ⊥ ∧
        load.Completed after := by
  have hloads := (h.ordered_enterModule bound frame specifier position ⊥).loads (store.root frame)
    (Source.Module.identifier specifier) inner
  rw [evaluatorUntil_bot, hend, endOf_ok] at hloads
  exact hloads (h.loaded?_of_enterModule hend)

/-- A cycle is found for a module that is being loaded, or on the way through the text of the module. -/
theorem circular_enterModule {failure : Failure} (hcircular : failure.IsCircular)
    (hend : enterModule (evaluator bound) frame (Source.Module.identifier specifier)
      (fileName specifier) position store = .error (.failed failure) after) :
    Source.Module.identifier specifier ∈ store.loading (store.root frame) ∨
      ∃ (load : Load) (done : Store), load.specifier = specifier ∧
        load.Of store (store.root frame) (Source.Module.identifier specifier) ∧
        (store.beginModule (store.root frame) (Source.Module.identifier specifier)).enter
          (store.root frame) Bindings.empty = (load.frame, load.start) ∧
        finish load.node.position (evaluate bound load.node load.frame) load.start =
          .error (.failed failure) done := by
  cases asking store frame (Source.Module.identifier specifier) (fileName specifier) position with
  | absent hregistry hask =>
    rw [hask] at hend
    cases hend
    exact absurd hcircular (Failure.not_isCircular_runtime (fun _ h => by cases h) position)
  | cycle cycle hloading hask => exact .inl hloading
  | loaded found hfree hloaded hask =>
    rw [hask] at hend
    cases hend
  | unread other hfree hnew hfailure hask =>
    rw [hask] at hend
    cases hend
    exact absurd hcircular hfailure
  | awaited path hregistry hfree hnew hask =>
    rw [hask] at hend
    cases hend
  | @read registry text node found start hregistry hfree hnew hfound hread hstart hask =>
    rw [hask] at hend
    refine .inr ⟨⟨specifier, text, node, found, start, bound⟩, ?_⟩
    -- nothing but the text of the module itself can have failed
    match hdone : finish node.position ((evaluator bound).node node found) start with
    | .ok value done =>
      rw [hdone] at hend
      cases hend
    | .error (.failed failure) done =>
      rw [hdone] at hend
      cases hend
      refine ⟨done, rfl, ⟨⟨registry.resolve, ?_, rfl, hfound, hread⟩, ⟨_, hstart⟩⟩, hstart, rfl⟩
      simp [Store.resolve?, hregistry]
    | .error .exhausted done =>
      rw [hdone] at hend
      cases hend
    | .error (.awaiting path) done =>
      rw [hdone] at hend
      cases hend

end Require

/-- **Where required names come from.** At every instant of an interpreter's life:

A `require` that succeeds binds the public names of a frame, in which the text of a file has been evaluated
to its end. The frame was made for that text, and the names it has are those that it had then. The
evaluation began at an earlier instant or in the course of this `require`. The file is that of a specifier
with the same identifier, and hence the file of the specifier itself if no other file that is found has this
identifier.

A `require` that fails for a cycle asks for a module whose identifier is that of a text that is being
evaluated at the instant; or the evaluation of the text of its own file has failed in this way.

Modules with different identifiers never share a frame. -/
theorem require_origin {file : String} {resolve : String → Resolution} {input : List InputLine}
    {now : Calendar.Moment} (instant : Instant)
    (hlife : (Session.start file resolve input now).Leads instant.session) :
    (∀ bound module style frame position value after,
      requireModule (evaluator bound) module style frame position instant.store = .ok value after →
      ∃ specifier inner middle, ∃ load : Load,
        moduleSpecifier module frame instant.store = .ok specifier instant.store ∧
        enterModule (evaluator bound) frame (Source.Module.identifier specifier)
          (fileName specifier) position instant.store = .ok inner middle ∧
        bindModule frame (Source.Module.identifier specifier)
          ((middle.frame inner).bindings.restrict isPublic) position style middle = .ok value after ∧
        load.frame = inner ∧ load.Reads resolve (Source.Module.identifier specifier) ∧
        load.Completed middle ∧
        ((∃ earlier : Instant, earlier.Starts load ∧
            (Session.start file resolve input now).Leads earlier.session ∧
            earlier.Precedes instant) ∨
          load.Begins instant.store (fun k => enterModule (evaluatorUntil k bound) frame
            (Source.Module.identifier specifier) (fileName specifier) position instant.store) ⊥) ∧
        ((∀ other text, Source.Module.identifier other = Source.Module.identifier specifier →
            resolve (fileName other) = .found text → fileName other = fileName specifier) →
          fileName load.specifier = fileName specifier)) ∧
    (∀ bound module style frame position failure after, failure.IsCircular →
      requireModule (evaluator bound) module style frame position instant.store =
        .error (.failed failure) after →
      ∃ specifier, moduleSpecifier module frame instant.store = .ok specifier instant.store ∧
        ∃ load : Load, load.Reads resolve (Source.Module.identifier specifier) ∧
          ((∃ earlier : Instant, earlier.Starts load ∧ earlier.session = instant.session ∧
              earlier.Precedes instant ∧ load.Underway instant.cut instant.store) ∨
            load.specifier = specifier ∧
              (instant.store.beginModule (instant.store.root frame)
                (Source.Module.identifier specifier)).enter (instant.store.root frame)
                Bindings.empty = (load.frame, load.start) ∧
              ∃ done, finish load.node.position (evaluate bound load.node load.frame) load.start =
                .error (.failed failure) done)) ∧
    ∀ ref identifier other frame, instant.store.loaded? ref identifier = some frame →
      instant.store.loaded? ref other = some frame → identifier = other := by
  have hsettled := Session.settled_start.leads hlife
  have hconsistent := Instant.consistent hsettled
  have hreads : ∀ {load : Load} {ref identifier}, load.Of instant.store ref identifier →
      load.Reads resolve identifier := by
    rintro load ref identifier ⟨⟨found, hfound, hreads⟩, -⟩
    rwa [← Instant.resolve_eq hlife hfound]
  refine ⟨?_, ?_, hconsistent.apart⟩
  · intro bound module style frame position value after hend
    rcases requireModule_cases (evaluator bound) module style frame position instant.store with
      hmalformed | ⟨specifier, hspecifier, ⟨stop, middle, -, hfails⟩ | ⟨inner, middle, henter, hbind⟩⟩
    · rw [hmalformed] at hend
      cases hend
    · rw [hfails] at hend
      cases hend
    · have hown : ∀ load : Load, load.Reads resolve (Source.Module.identifier specifier) →
          (∀ other text, Source.Module.identifier other = Source.Module.identifier specifier →
            resolve (fileName other) = .found text → fileName other = fileName specifier) →
          fileName load.specifier = fileName specifier := fun load hload honly =>
        honly load.specifier load.text hload.named hload.found
      rw [hbind] at hend
      -- the module has been loaded before, or its load begins and is completed here
      rcases hconsistent.origin_enterModule henter with hkept | ⟨load, hframe, hof, hbegins, hdone⟩
      · obtain ⟨load, earlier, hframe, hof, hdone, hstarts, hearlier, hbefore⟩ :=
          Instant.origin hlife hkept
        have hprecedes := (hconsistent.ordered_enterModule bound frame specifier position ⊥).precedes
        rw [evaluatorUntil_bot, henter, endOf_ok] at hprecedes
        subst hframe
        exact ⟨specifier, load.frame, middle, load, hspecifier, henter, hend, rfl, hreads hof,
          hdone.later hprecedes hkept, .inl ⟨earlier, hstarts, hearlier, hbefore⟩,
          hown load (hreads hof)⟩
      · exact ⟨specifier, inner, middle, load, hspecifier, henter, hend, hframe, hreads hof, hdone,
          .inr hbegins, hown load (hreads hof)⟩
  · intro bound module style frame position failure after hcircular hend
    rcases requireModule_cases (evaluator bound) module style frame position instant.store with
      hmalformed | ⟨specifier, hspecifier, ⟨stop, middle, henter, hfails⟩ | ⟨inner, middle, -, hbind⟩⟩
    · rw [hmalformed] at hend
      cases hend
      exact absurd hcircular (Failure.not_isCircular_runtime (fun _ h => by cases h) _)
    · rw [hfails] at hend
      cases hend
      -- the module is being loaded further out, or the failure comes out of its own text
      rcases circular_enterModule hcircular henter with
        hloading | ⟨load, done, hload, hof, hstart, hdone⟩
      · obtain ⟨load, earlier, hof, hunderway, hstarts, hsession, hbefore⟩ :=
          Instant.underway hlife hloading
        exact ⟨specifier, hspecifier, load, hreads hof,
          .inl ⟨earlier, hstarts, hsession, hbefore, hunderway⟩⟩
      · exact ⟨specifier, hspecifier, load, hreads hof, .inr ⟨hload, hstart, done, hdone⟩⟩
    · rw [hbind] at hend
      -- binding the names of a module fails only for a missing name
      obtain ⟨name, hstop⟩ := (bindModule_end _ _ _ _ _ _).2 _ _ hend
      cases hstop
      exact absurd hcircular (Failure.not_isCircular_runtime (fun _ h => by cases h) _)

/-- The result of requiring the module of an interpreter that has one. -/
def countedResult : EStateM.Result Stop Store Value :=
  requireModule (evaluator 10) (.mk default (.literal (.string "m"))) (.qualified none) ⟨1⟩ default
    counting.store

/-- A module that has its identifier for itself comes from its own file. -/
theorem require_origin_counting :
    ∃ value after, countedResult = .ok value after ∧
      ∃ load : Load, fileName load.specifier = "m.ckl" ∧ load.text = "def v = 1" := by
  have hok : (match countedResult with | .ok _ _ => true | .error _ _ => false) = true := by
    decide +kernel
  match hend : countedResult with
  | .error stop after =>
    rw [hend] at hok
    cases hok
  | .ok value after =>
    have horigin := require_origin (Instant.beginning counting requiresCounted) .refl
    obtain ⟨specifier, inner, middle, load, hspecifier, -, -, -, hreads, -, -, hown⟩ :=
      horigin.1 10 (.mk default (.literal (.string "m"))) (.qualified none) ⟨1⟩ default value after hend
    obtain rfl : "m" = specifier := (EStateM.Result.ok.inj hspecifier).1
    have hfile : fileName "m" = "m.ckl" := by decide
    have hnamed : fileName load.specifier = "m.ckl" := by
      rw [← hfile]
      refine hown fun other text _ hfound => ?_
      rw [hfile]
      by_cases hother : fileName other = "m.ckl"
      · exact hother
      · rw [if_neg hother] at hfound
        cases hfound
    have hfound := hreads.found
    rw [if_pos hnamed] at hfound
    exact ⟨value, after, rfl, load, hnamed, (Resolution.found.inj hfound).symm⟩

/-! ## Modules with one identifier -/

/-- The integer that a script gives. -/
def Session.int? (session : Session) (source : String) : Option Int64 :=
  match (session.evalSource source).1 with
  | .ok (.int value) => some value
  | _ => none

/-- Whether a script fails for a cycle of modules. -/
def Session.meetsCycle (session : Session) (source : String) : Bool :=
  match (session.evalSource source).1 with
  | .error (.failed (.diagnosed { cause := .runtime (.circularModules _), .. })) => true
  | _ => false

/-- An interpreter with two modules that have one identifier. -/
def twins (first second : String) : Session :=
  .start "main" (fun file =>
    if file = "a/m.ckl" then .found first else if file = "b/m.ckl" then .found second else .missing)
    [] (Calendar.Moment.midnight 0)

/-- What is required second has the names of what was required first, not those of its own file, and a
module that requires the other one is a cycle, though the file of that is not being loaded. -/
theorem twins_share_module :
    fileName "a/m" = "a/m.ckl" ∧ fileName "b/m" = "b/m.ckl" ∧
      (twins "def v = 1" "def v = 2").int? "require 'b/m' as y; y->v" = some 2 ∧
      (twins "def v = 1" "def v = 2").int? "require 'a/m' as x; require 'b/m' as y; y->v" = some 1 ∧
      (twins "require 'b/m'; def v = 1" "def v = 2").meetsCycle "require 'a/m' as x" = true := by
  decide +kernel

end Ckl
