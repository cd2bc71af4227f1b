import Ckl.Proofs.Run.Fair
import Ckl.Session

/-!
# Incomplete scripts

A console keeps a script whose failure is incomplete and evaluates it again with the next line, so such a
failure should come before anything has been evaluated. It need not: the built-in functions that read
texts, and modules, fail in the same way when they meet an incomplete text. `incomplete_cases` lists all
ways in which a failure can be incomplete, and `incomplete_own_iff` how to tell them apart where modules
are complete: the script itself is incomplete exactly if the failure has left no call.
-/

namespace Ckl

/-- The calls that a failure has left, the innermost one first. -/
def Failure.calls : Failure → List String
  | diagnosed diagnostic => diagnostic.trace
  | unreadable _ => []

/-- The fault of a text that is found for a module of the store. -/
def Store.ModuleFault (store : Store) (failure : Failure) : Prop :=
  ∃ resolve file text fault, store.Resolves resolve ∧ resolve file = .found text ∧
    Source.readScript file text = .error fault ∧ failure = .ofFault fault

/-- Modules are found as in the given store, and incomplete failures have left a call or are faults of
modules. -/
def incompleteRule (store : Store) : Rule where
  holds := store.KeepsModules
  admits failure := failure.isIncomplete = true → failure.calls ≠ [] ∨ store.ModuleFault failure

/-- Whatever leaves a call is marked with it, if it can be incomplete at all. -/
theorem Failure.calls_leaving {failure : Failure} {call : String}
    (h : (failure.leaving call).isIncomplete = true) : (failure.leaving call).calls ≠ [] := by
  cases failure with
  | diagnosed diagnostic => exact List.append_ne_nil_of_right_ne_nil _ (List.cons_ne_nil _ _)
  | unreadable problem => cases h

theorem incompleteRule_fair (store : Store) : (incompleteRule store).Fair where
  lasting _ _ hkeeps hs resolve hr := hs resolve (hkeeps resolve hr)
  errors _ _ h := by cases h
  raised _ _ _ h := by cases h
  unreadable _ h := by cases h
  modules _ resolve file text fault hs hr hfound hread _ :=
    .inr ⟨resolve, file, text, fault, hs resolve hr, hfound, hread, rfl⟩
  leaving _ _ h := .inl (Failure.calls_leaving h)

namespace Session

variable {session after : Session} {source : String} {failure : Failure}

/-- The failures of a syntax tree are never those of the script's own text. -/
theorem evalNode_incomplete {node : Source.Node}
    (h : session.evalNode node = (.error (.failed failure), after))
    (hincomplete : failure.isIncomplete = true) :
    failure.calls ≠ [] ∨ session.store.ModuleFault failure := by
  have hfair := incompleteRule_fair session.store
  have hrun := Rule.governs_finish hfair node.position
    ((Rule.governsEvaluator hfair evaluationBound).node node session.user) session.store fun _ h => h
  unfold evalNode perform at h
  cases hend : finish node.position (evaluate evaluationBound node session.user) session.store with
  | ok value store =>
    rw [hend] at h
    cases h
  | error stop store =>
    rw [hend] at h
    cases h
    have hmeets : (incompleteRule session.store).Meets (fun _ => True)
        (.error (.failed failure) store) := hend ▸ hrun
    exact hmeets.2 hincomplete

/-- All ways in which a script can fail as incomplete: its own text is, and nothing has been evaluated;
or the failure has left a call; or the text of a module is incomplete. -/
theorem incomplete_cases (h : session.evalSource source = (.error (.failed failure), after))
    (hincomplete : failure.isIncomplete = true) :
    (∃ fault, Source.readScript session.file source = .error fault ∧ failure = .ofFault fault ∧
        after = session) ∨
      failure.calls ≠ [] ∨ session.store.ModuleFault failure := by
  unfold evalSource evalNamed at h
  cases hread : Source.readScript session.file source with
  | error fault =>
    rw [hread] at h
    cases h
    exact .inl ⟨fault, rfl, rfl, rfl⟩
  | ok node =>
    rw [hread] at h
    exact .inr (evalNode_incomplete h hincomplete)

/-- **When an incomplete script has not been evaluated.** Where no text of a module is incomplete, a
script that fails as incomplete is itself incomplete, and leaves its session as it was, exactly if the
failure has left no call. -/
theorem incomplete_own_iff
    (hmodules : ∀ failure, session.store.ModuleFault failure → failure.isIncomplete = false)
    (h : session.evalSource source = (.error (.failed failure), after))
    (hincomplete : failure.isIncomplete = true) :
    failure.calls = [] ↔
      ∃ fault, Source.readScript session.file source = .error fault ∧ failure = .ofFault fault ∧
        after = session := by
  constructor
  · intro hcalls
    rcases incomplete_cases h hincomplete with hown | hleft | hmodule
    · exact hown
    · exact absurd hcalls hleft
    · rw [hmodules failure hmodule] at hincomplete
      cases hincomplete
  · rintro ⟨fault, -, rfl, -⟩
    rfl

/-! ## Scripts in a session of their own -/

/-- A session that begins, without modules and without input. -/
def blank : Session := start "main" (fun _ => .missing) [] (Calendar.Moment.midnight 0)

theorem blank_resolves {resolve : String → Resolution} (h : blank.store.Resolves resolve) :
    resolve = fun _ => .missing := by
  obtain ⟨ref, href⟩ := h
  match hindex : ref.index with
  | 0 =>
    rw [Store.frame, hindex] at href
    exact (Option.some.inj href).symm
  | 1 =>
    rw [Store.frame, hindex] at href
    cases href
  | index + 2 =>
    rw [Store.frame, hindex] at href
    cases href

theorem blank_moduleFault : ¬ blank.store.ModuleFault failure := by
  rintro ⟨resolve, file, text, fault, hresolve, hfound, -⟩
  rw [blank_resolves hresolve] at hfound
  cases hfound

/-- Whether a script has failed as incomplete, so that the console keeps it. -/
def isKept (result : Except Stop Value × Session) : Bool :=
  match result.1 with
  | .error (.failed failure) => failure.isIncomplete
  | _ => false

theorem exists_of_isKept {result : Except Stop Value × Session} (h : isKept result = true) :
    ∃ failure, result = (.error (.failed failure), result.2) ∧ failure.isIncomplete = true := by
  obtain ⟨outcome, after⟩ := result
  match outcome with
  | .error (.failed failure) => exact ⟨failure, rfl, h⟩

theorem incomplete_own_at_parenthesis :
    ∃ failure after, blank.evalSource "(" = (.error (.failed failure), after) ∧
      failure.isIncomplete = true ∧
      (failure.calls = [] ↔
        ∃ fault, Source.readScript blank.file "(" = .error fault ∧ failure = .ofFault fault ∧
          after = blank) := by
  obtain ⟨failure, h, hincomplete⟩ :=
    exists_of_isKept (by decide +kernel : isKept (blank.evalSource "(") = true)
  exact ⟨failure, _, h, hincomplete,
    incomplete_own_iff (fun _ hm => absurd hm blank_moduleFault) h hincomplete⟩

/-- This script has bound a name when it fails as incomplete. -/
theorem incomplete_not_own_at_parse :
    ∃ failure after, blank.evalSource "def x = 1; parse('(')" = (.error (.failed failure), after) ∧
      failure.isIncomplete = true ∧ blank.bindings.binds "x" = false ∧
      after.bindings.binds "x" = true := by
  obtain ⟨failure, h, hincomplete⟩ := exists_of_isKept
    (by decide +kernel : isKept (blank.evalSource "def x = 1; parse('(')") = true)
  exact ⟨failure, _, h, hincomplete, by decide, by decide +kernel⟩

end Session

end Ckl
