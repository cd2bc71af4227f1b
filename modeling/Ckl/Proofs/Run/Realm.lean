import Ckl.Proofs.Run.Exits
import Ckl.Proofs.Scope.Names
import Ckl.Proofs.Value.Alters
import Mathlib.Order.Basic

/-!
# Realms

A discipline says what work may do. A realm says what it gets hold of: which containers, functions and
frames work comes across, which nodes it evaluates where, and what it may do there to which names. As
storage is added while work goes on, this is said in worlds: a world is a store with what has been laid down
about it so far, and what holds in a world holds in all worlds that come later.

The laws of a realm ask for each thing that evaluation does directly that it does not lead out of the realm.
A realm that meets them is kept by all evaluation: from a world in which a node is allowed in a frame, its
evaluation goes on to a later world and ends with a value of the realm. The case analysis over forms of
nodes, built-in functions and loops is made once, in `Ckl.Proofs.Run.Realm.Evaluation` and
`Ckl.Proofs.Run.Realm.Call`.

As with disciplines, work comes in families, the same work as it is done by several evaluators: work within
a realm ends in the same way for all of them, apart from those that are stopped at a moment that the world
has passed when the work ends.
-/

namespace Ckl

namespace Source

/-- The nodes directly inside a form that are evaluated in the frame of the form. -/
def Form.here : Form → List Node
  | .comprehension parts => [parts.source]
  | .require _ _ => []
  | form => form.parts .return

/-- The nodes of a comprehension that are evaluated for each item. -/
def Comprehension.inner (parts : Comprehension Node) : List Node :=
  parts.condition.toList ++ parts.element :: parts.value.toList

/-- The names that a function binds when it is called. -/
def Lambda.names (definition : Lambda Node) : List String :=
  definition.parameters.map (·.name) ++ definition.rest.toList

end Source

open Source (Position Node Form Lambda Parameter Comprehension lastErrorName)

/-- What is done to a name in a frame. -/
inductive NameUse where
  /-- It is looked up, and to find nothing is an error. -/
  | look
  /-- It is looked up, and may have no meaning. -/
  | peek
  | assign
  | define
  | remove
  deriving DecidableEq, Repr

/-- What is done to a name that has another meaning for a while. -/
def temporaryUses (name : String) : List (NameUse × String) :=
  [(.peek, name), (.remove, name), (.define, name)]

/-- What a call may do to names of the frame from which it is made. -/
def callUses : List (NameUse × String) :=
  [(.look, Builtin.outputName), (.look, Builtin.inputName), (.peek, Builtin.divisionFallbackName)]

/-- What a form does to names of its frame, apart from the parts of it and from the names that a module is
imported by. -/
def Source.Form.uses : Form → List (NameUse × String)
  | .name word => [(.look, word)]
  | .call _ _ | .invoke _ _ _ => callUses
  | .assign word _ => [(.assign, word)]
  | .assignAll words _ => words.map fun word => (.assign, word)
  | .define word _ => [(.define, word)]
  | .defineAll words _ => words.map fun word => (.define, word)
  | .block _ handlers _ => if handlers.isEmpty then [] else temporaryUses lastErrorName
  | .loop parts => parts.names.flatMap temporaryUses
  | _ => []

/-! ## Realms -/

/-- What work gets hold of, world by world. -/
structure Realm where
  World : Type
  [order : Preorder World]
  store : World → Store
  /-- The containers that work comes across. -/
  keeps : World → Container → Prop
  /-- The function values that work comes across. -/
  calls : World → Ref .func → Prop
  /-- What these function values refer to. -/
  runs : World → Function → Prop
  /-- What work may do to the names of frames. -/
  permits : World → FrameRef → NameUse → String → Prop
  /-- The nodes that work may evaluate in frames. -/
  allows : World → Node → FrameRef → Prop
  /-- The frames in which the parts of a comprehension are evaluated for each item. -/
  gathers : World → Comprehension Node → FrameRef → Prop
  /-- The frames in which a function is called, once all but the last parameters are bound. -/
  awaits : World → Lambda Node → List (Parameter Node) → FrameRef → Prop
  /-- The names that work may look up in vain. -/
  misses : String → Prop
  /-- The nodes in frames before which runs are stopped, so that nothing is asked of their evaluation. -/
  halts : World → Node → FrameRef → Prop := fun _ _ _ => False
  /-- The stores that have been passed, in which some of the runs may have been stopped. -/
  passes : World → Store → Prop := fun _ _ => False
  passes_later : ∀ {w w' : World} {moment}, w ≤ w' → passes w moment → passes w' moment := by
    exact fun _ h => h

namespace Realm

attribute [instance] Realm.order

variable {r : Realm} {ι α β σ : Type} [Inhabited ι] {w w' : r.World}

/-- The values that work comes across. -/
def has (r : Realm) (w : r.World) : Value → Prop
  | .list ref => r.keeps w (.list ref)
  | .set ref => r.keeps w (.set ref)
  | .map ref => r.keeps w (.map ref)
  | .object ref => r.keeps w (.object ref)
  | .func ref => r.calls w ref
  | _ => True

/-- The failures with which work may end. -/
def fails (r : Realm) (w : r.World) : Failure → Prop
  | .diagnosed { cause := .raised payload _, .. } => r.has w payload
  | .diagnosed { cause := .runtime error, .. } => ∀ name, error.missed? = some name → r.misses name
  | _ => True

/-- A call may be made from the frame. -/
def serves (r : Realm) (w : r.World) (frame : FrameRef) : Prop :=
  ∀ use ∈ callUses, r.permits w frame use.1 use.2

/-- A name may have another meaning for a while. -/
def lends (r : Realm) (w : r.World) (frame : FrameRef) (name : String) : Prop :=
  ∀ use ∈ temporaryUses name, r.permits w frame use.1 use.2

/-- What is promised of a result stays true. -/
def Stable (r : Realm) (gives : r.World → α → Prop) : Prop :=
  ∀ ⦃w w' : r.World⦄ ⦃a : α⦄, w ≤ w' → gives w a → gives w' a

/-- What work promises about the world it ends in. -/
def EndsIn (r : Realm) (gives : r.World → α → Prop) (w : r.World) :
    EStateM.Result Stop Store α → Prop
  | .ok a after => r.store w = after ∧ gives w a
  | .error (.failed failure) after => r.store w = after ∧ r.fails w failure
  | .error _ after => r.store w = after

/-- The work has been stopped on the way to a world. -/
def Passed (r : Realm) (w : r.World) (result : EStateM.Result Stop Store α) : Prop :=
  ∃ moment, r.passes w moment ∧ result = .error .exhausted moment

/-- Begun in a world, the work ends in a later world and as it promises. It ends in the same way for all
evaluators that are not stopped before. -/
def Promises (r : Realm) (gives : r.World → α → Prop) (w : r.World) (work : ι → Run α) : Prop :=
  ∃ w', w ≤ w' ∧ r.EndsIn gives w' (work default (r.store w)) ∧
    ∀ k, work k (r.store w) = work default (r.store w) ∨ r.Passed w' (work k (r.store w))

/-- What is promised of an end by an exit. -/
def exits (r : Realm) (gives : r.World → α → Prop) (w : r.World) : Except Exit α → Prop
  | .ok a => gives w a
  | .error (.return value) => r.has w value
  | .error _ => True

/-- What is promised of an end that has been attempted. -/
def attempts (r : Realm) (gives : r.World → α → Prop) (w : r.World) : Except Failure α → Prop
  | .ok a => gives w a
  | .error failure => r.fails w failure

/-- The same for work that may also end by an exit. -/
def PromisesEval (r : Realm) (gives : r.World → α → Prop) (w : r.World) (work : ι → Eval α) : Prop :=
  r.Promises (r.exits gives) w fun k => (work k).run

/-- Evaluators that keep within the realm. -/
structure Kept (r : Realm) (evaluator : ι → Evaluator) : Prop where
  node : ∀ {w node frame}, r.allows w node frame →
    r.PromisesEval r.has w fun k => (evaluator k).node node frame
  call : ∀ {w ref arguments frame} (position : Position), r.calls w ref →
    (∀ argument ∈ arguments, r.has w argument.value) → r.serves w frame →
      r.Promises r.has w fun k => (evaluator k).call ref arguments frame position

/-- What a realm must meet for evaluation to keep within it. -/
structure Lawful (r : Realm) : Prop where
  keeps_later : ∀ {w w' container}, w ≤ w' → r.keeps w container → r.keeps w' container
  calls_later : ∀ {w w' ref}, w ≤ w' → r.calls w ref → r.calls w' ref
  runs_later : ∀ {w w' function}, w ≤ w' → r.runs w function → r.runs w' function
  permits_later : ∀ {w w' frame use name}, w ≤ w' → r.permits w frame use name →
    r.permits w' frame use name
  allows_later : ∀ {w w' node frame}, w ≤ w' → r.allows w node frame → r.allows w' node frame
  gathers_later : ∀ {w w' parts frame}, w ≤ w' → r.gathers w parts frame → r.gathers w' parts frame
  awaits_later : ∀ {w w' definition parameters frame}, w ≤ w' →
    r.awaits w definition parameters frame → r.awaits w' definition parameters frame
  /-- What a container of the realm holds is in the realm. -/
  has_part : ∀ {w container}, r.keeps w container → ∀ part ∈ (r.store w).parts container, r.has w part
  runs_function : ∀ {w ref}, r.calls w ref → r.runs w ((r.store w).function ref)
  allows_part : ∀ {w node frame}, r.allows w node frame → ∀ part ∈ node.form.here,
    r.allows w part frame
  permits_use : ∀ {w node frame}, r.allows w node frame → ¬ r.halts w node frame →
    ∀ use ∈ node.form.uses, r.permits w frame use.1 use.2
  permits_import : ∀ {w position module style frame},
    r.allows w (.mk position (.require module style)) frame → ∀ name, r.permits w frame .define name
  has_peeked : ∀ {w frame name value}, r.permits w frame .peek name →
    (r.store w).lookup? frame name = some value → r.has w value
  has_looked : ∀ {w frame name value}, r.permits w frame .look name →
    (r.store w).lookup? frame name = some value → r.has w value
  misses_looked : ∀ {w frame name}, r.permits w frame .look name →
    (r.store w).lookup? frame name = none → r.misses name
  assigns : ∀ {w frame name value owner}, r.permits w frame .assign name → r.has w value →
    (r.store w).owner? frame name = some owner →
      ∃ w', w ≤ w' ∧ r.store w' = (r.store w).define owner name value
  misses_assigned : ∀ {w frame name}, r.permits w frame .assign name →
    (r.store w).owner? frame name = none → r.misses name
  defines : ∀ {w frame name value}, r.permits w frame .define name → r.has w value →
    ∃ w', w ≤ w' ∧ r.store w' = (r.store w).define frame name value
  removes : ∀ {w frame name}, r.permits w frame .remove name →
    ∃ w', w ≤ w' ∧ r.store w' = (r.store w).undefine frame name
  /-- Changes of streams and syntax trees. -/
  aside : ∀ {w after}, (r.store w).SameContents after → ∃ w', w ≤ w' ∧ r.store w' = after
  places : ∀ {w fresh}, (∀ part ∈ fresh.parts, r.has w part) →
    ∃ w', w ≤ w' ∧ r.store w' = ((r.store w).place fresh).2 ∧ r.has w' ((r.store w).place fresh).1
  alters : ∀ {w after container added}, r.keeps w container → (∀ value ∈ added, r.has w value) →
    (r.store w).Alters after container added → ∃ w', w ≤ w' ∧ r.store w' = after
  /-- A function is made. -/
  makes : ∀ {w position definition frame},
    r.allows w (.mk position (.function definition)) frame →
      ∃ w', w ≤ w' ∧ r.store w' = ((r.store w).placeFunction (.lambda definition frame)).2 ∧
        r.has w' ((r.store w).placeFunction (.lambda definition frame)).1
  /-- The frame for the items of a comprehension is entered. -/
  enters_gathering : ∀ {w position parts frame},
    r.allows w (.mk position (.comprehension parts)) frame →
      ∃ w', w ≤ w' ∧ r.store w' = ((r.store w).enter frame Bindings.empty).2 ∧
        r.gathers w' parts ((r.store w).enter frame Bindings.empty).1
  /-- The name for an item of a comprehension is bound. -/
  binds_item : ∀ {w parts frame item}, r.gathers w parts frame → r.has w item →
    ∃ w', w ≤ w' ∧ r.store w' = (r.store w).define frame parts.binder item ∧
      ∀ part ∈ parts.inner, r.allows w' part frame
  /-- The frame for a call is entered, with the parameters bound that have arguments. -/
  enters_call : ∀ {w definition made bindings}, r.runs w (.lambda definition made) →
    (∀ value ∈ bindings.values, r.has w value) → bindings.names ⊆ definition.names →
      (∀ name ∈ definition.rest, bindings.binds name = true) →
        ∃ w', w ≤ w' ∧ r.store w' = ((r.store w).enter made bindings).2 ∧
          r.awaits w' definition definition.parameters ((r.store w).enter made bindings).1
  awaits_bound : ∀ {w definition parameter parameters frame},
    r.awaits w definition (parameter :: parameters) frame →
      ((r.store w).getLocal? frame parameter.name).isSome = true →
        r.awaits w definition parameters frame
  allows_fallback : ∀ {w definition parameter parameters frame fallback},
    r.awaits w definition (parameter :: parameters) frame → parameter.fallback = some fallback →
      r.allows w fallback frame
  binds_fallback : ∀ {w definition parameter parameters frame value},
    r.awaits w definition (parameter :: parameters) frame → r.has w value →
      ∃ w', w ≤ w' ∧ r.store w' = (r.store w).define frame parameter.name value ∧
        r.awaits w' definition parameters frame
  allows_body : ∀ {w definition frame}, r.awaits w definition [] frame →
    r.allows w definition.body frame
  /-- The frame for the text or the syntax tree that `eval` is given is entered. -/
  enters_eval : ∀ {w frame}, r.runs w (.builtin .eval) → r.serves w frame →
    ∃ w', w ≤ w' ∧ r.store w' = ((r.store w).enter frame Bindings.empty).2 ∧
      ∀ node, r.allows w' node ((r.store w).enter frame Bindings.empty).1
  hosts : ∀ {w host arguments} (position : Position), r.runs w (.host host) →
    (∀ value ∈ arguments.values, r.has w value) →
      r.attempts r.has w (host.run (fun ref => ((r.store w).items ref).toList) arguments position)
  modules : ∀ {ι : Type} [Inhabited ι] {evaluator : ι → Evaluator}, r.Kept evaluator →
    ∀ {w place module style frame} (specifier : String) (position : Position),
      r.allows w (.mk place (.require module style)) frame →
        r.Promises
          (fun w' inner => ∀ value ∈ ((r.store w').frame inner).bindings.values, r.has w' value) w
          fun k => enterModule (evaluator k) frame (Source.Module.identifier specifier)
            (Source.Module.fileName specifier) position

/-! ## Promises -/

section Promises

variable {gives : r.World → α → Prop} {gives' : r.World → β → Prop}

/-- Values that refer to nothing are in every realm. -/
theorem has_of_isBare {value : Value} (h : value.isBare = true) : r.has w value := by
  cases value with
  | list | set | map | object | func => cases h
  | _ => trivial

/-- A mark of a call does not change what a failure may be. -/
@[simp]
theorem fails_leaving {failure : Failure} {call : String} :
    r.fails w (failure.leaving call) ↔ r.fails w failure := by
  match failure with
  | .diagnosed { cause := .raised _ _, .. } => exact Iff.rfl
  | .diagnosed { cause := .runtime _, .. } => exact Iff.rfl
  | .diagnosed { cause := .fault _, .. } => exact Iff.rfl
  | .unreadable _ => exact Iff.rfl

/-- An error that is not the one of a lookup may end all work. -/
theorem fails_runtime {error : RuntimeError} (h : error.missed? = none) (position : Position) :
    r.fails w (.runtime error position) := by
  intro name hname
  rw [h] at hname
  cases hname

/-- Promises about results may be weakened. -/
theorem EndsIn.mono {other : r.World → α → Prop} {result : EStateM.Result Stop Store α}
    (h : r.EndsIn gives w result) (himp : ∀ a, gives w a → other w a) : r.EndsIn other w result := by
  match result, h with
  | .ok a _, ⟨hstore, ha⟩ => exact ⟨hstore, himp a ha⟩
  | .error (.failed _) _, h => exact h
  | .error .exhausted _, h => exact h
  | .error (.awaiting _) _, h => exact h

/-- Work that has come to a stop promises nothing about what it would have given. -/
theorem EndsIn.of_error {stop : Stop} {after : Store}
    (h : r.EndsIn gives w (.error stop after : EStateM.Result Stop Store α)) :
    r.EndsIn gives' w (.error stop after : EStateM.Result Stop Store β) := by
  cases stop <;> exact h

/-- To attempt work is to promise something of its failures. -/
theorem EndsIn.attempt {work : Run α} {store : Store} (h : r.EndsIn gives w (work store)) :
    r.EndsIn (r.attempts gives) w (Run.attempt work store) := by
  simp only [Run.attempt]
  match work store, h with
  | .ok _ _, h => exact h
  | .error (.failed _) _, h => exact h
  | .error .exhausted _, h => exact h
  | .error (.awaiting _) _, h => exact h

/-- However the work ends, the world has the store it ends with. -/
theorem EndsIn.store {result : EStateM.Result Stop Store α} (h : r.EndsIn gives w result) :
    r.store w = endOf result := by
  match result, h with
  | .ok _ _, ⟨hstore, _⟩ => exact hstore
  | .error (.failed _) _, ⟨hstore, _⟩ => exact hstore
  | .error .exhausted _, hstore => exact hstore
  | .error (.awaiting _) _, hstore => exact hstore

/-- Work that all evaluators do in the same way. -/
theorem promises_of_ends {work : Run α} (hle : w ≤ w') (hends : r.EndsIn gives w' (work (r.store w))) :
    r.Promises gives w fun _ : ι => work :=
  ⟨w', hle, hends, fun _ => .inl rfl⟩

/-- Work may promise less than it keeps. -/
theorem Promises.mono {other : r.World → α → Prop} {work : ι → Run α} (h : r.Promises gives w work)
    (himp : ∀ w' a, w ≤ w' → gives w' a → other w' a) : r.Promises other w work := by
  obtain ⟨w', hle, hends, hall⟩ := h
  exact ⟨w', hle, hends.mono (himp w' · hle), hall⟩

/-- To give something is to go nowhere. -/
theorem promises_pure {a : α} (h : gives w a) : r.Promises gives w fun _ : ι => pure a :=
  promises_of_ends le_rfl ⟨rfl, h⟩

/-- Where nothing is passed, all evaluators end as is promised. -/
theorem Promises.exists_end {work : ι → Run α} (h : r.Promises gives w work)
    (hnever : ∀ w moment, ¬ r.passes w moment) :
    ∃ w', w ≤ w' ∧ ∀ k, r.EndsIn gives w' (work k (r.store w)) := by
  obtain ⟨w', hle, hends, hall⟩ := h
  refine ⟨w', hle, fun k => ?_⟩
  rwa [(hall k).resolve_right fun ⟨_, hpassed, _⟩ => hnever _ _ hpassed]

/-- Work ends in the same way for two evaluators, as is promised. -/
theorem Promises.same {work : Bool → Run α} (h : r.Promises gives w work)
    (hnever : ∀ w moment, ¬ r.passes w moment) :
    work false (r.store w) = work true (r.store w) ∧
      ∃ w', w ≤ w' ∧ r.EndsIn gives w' (work true (r.store w)) := by
  obtain ⟨w', hle, hends, hall⟩ := h
  have hsame : work true (r.store w) = work false (r.store w) :=
    (hall true).resolve_right fun ⟨_, hpassed, _⟩ => hnever _ _ hpassed
  exact ⟨hsame.symm, w', hle, hsame ▸ hends⟩

/-- What has been passed stays behind. -/
theorem Passed.later {result : EStateM.Result Stop Store α} (hle : w ≤ w') (h : r.Passed w result) :
    r.Passed w' result :=
  have ⟨moment, hpassed, hresult⟩ := h
  ⟨moment, r.passes_later hle hpassed, hresult⟩

/-- Work goes on in the world in which it has got its result, for all evaluators that have not been stopped.
-/
theorem Promises.bind {work : ι → Run α} {next : ι → α → Run β} (h : r.Promises gives w work)
    (hnext : ∀ w' a, w ≤ w' → gives w' a → r.Promises gives' w' fun k => next k a) :
    r.Promises gives' w fun k => work k >>= next k := by
  obtain ⟨w', hle, hends, hall⟩ := h
  have hstopped : ∀ k, r.Passed w' (work k (r.store w)) → r.Passed w' ((work k >>= next k) (r.store w)) :=
    fun k ⟨moment, hpassed, hresult⟩ => ⟨moment, hpassed, Run.bind_of_error hresult⟩
  cases hresult : work default (r.store w) with
  | ok a after =>
    rw [hresult] at hends hall
    obtain ⟨rfl, ha⟩ := hends
    obtain ⟨later, hlater, hlast, hrest⟩ := hnext w' a hle ha
    have hgoes : ∀ k, work k (r.store w) = .ok a (r.store w') →
        (work k >>= next k) (r.store w) = next k a (r.store w') := fun k => Run.bind_of_ok
    refine ⟨later, hle.trans hlater, ?_, fun k => ?_⟩
    · simpa only [hgoes default hresult] using hlast
    · rcases hall k with hsame | hpassed
      · simpa only [hgoes k hsame, hgoes default hresult] using hrest k
      · exact .inr ((hstopped k hpassed).later hlater)
  | error stop after =>
    rw [hresult] at hends hall
    have hstays : ∀ k, work k (r.store w) = .error stop after →
        (work k >>= next k) (r.store w) = .error stop after := fun k => Run.bind_of_error
    refine ⟨w', hle, ?_, fun k =>
      (hall k).imp (fun hsame => (hstays k hsame).trans (hstays default hresult).symm) (hstopped k)⟩
    simpa only [hstays default hresult] using hends.of_error

/-- What is made of a result is promised with it. -/
theorem Promises.map {work : ι → Run α} {f : α → β} (h : r.Promises gives w work)
    (hf : ∀ w' a, w ≤ w' → gives w' a → gives' w' (f a)) :
    r.Promises gives' w fun k => do return f (← work k) :=
  h.bind fun w' a hle ha => promises_pure (hf w' a hle ha)

theorem promises_ite {condition : Prop} [Decidable condition] {work other : ι → Run α}
    (h : condition → r.Promises gives w work) (hother : ¬ condition → r.Promises gives w other) :
    r.Promises gives w fun k => if condition then work k else other k := by
  by_cases hc : condition
  · simpa only [if_pos hc] using h hc
  · simpa only [if_neg hc] using hother hc

/-- A bound that is used up promises nothing. -/
theorem promises_exhausted : r.Promises gives w fun _ : ι => (Run.exhausted : Run α) :=
  promises_of_ends le_rfl rfl

/-- A failure that the realm may meet with. -/
theorem promises_stop {failure : Failure} (h : r.fails w failure) :
    r.Promises gives w fun _ : ι => (Run.stop failure : Run α) :=
  promises_of_ends le_rfl ⟨rfl, h⟩

/-- An error that is not the one of a lookup. -/
theorem promises_fail {error : RuntimeError} (h : error.missed? = none) (position : Position) :
    r.Promises gives w fun _ : ι => (Run.fail error position : Run α) :=
  promises_stop (fails_runtime h position)

/-- After a failure nothing else is done. -/
theorem promises_fail_bind {error : RuntimeError} (h : error.missed? = none) (position : Position)
    (next : ι → α → Run β) :
    r.Promises gives' w fun k => Run.fail error position >>= next k :=
  have hfails : r.Promises (fun _ _ => False) w fun _ : ι => (Run.fail error position : Run α) :=
    promises_fail h position
  hfails.bind fun _ _ _ => False.elim

/-- An operation gives what it gives, or an error that is not the one of a lookup. -/
theorem promises_check (gives : r.World → α → Prop) {checked : Checked α} (h : checked.Gives (gives w))
    (position : Position) : r.Promises gives w fun _ : ι => Run.check position checked := by
  cases checked with
  | ok a => exact promises_pure h
  | error error => exact promises_fail h position

/-- An operation of which nothing else is known. -/
theorem promises_known {checked : Checked α} (h : checked.Known) (position : Position) :
    r.Promises (fun _ _ => True) w fun _ : ι => Run.check position checked :=
  promises_check (fun _ _ => True) h position

/-- What has been attempted is taken up again. -/
theorem promises_conclude {outcome : Except Failure α} (h : r.attempts gives w outcome) :
    r.Promises gives w fun _ : ι => Run.conclude outcome := by
  cases outcome with
  | ok a => exact promises_pure h
  | error failure => exact promises_stop h

/-- To attempt work promises results and failures alike. -/
theorem promises_attempt {work : ι → Run α} (h : r.Promises gives w work) :
    r.Promises (r.attempts gives) w fun k => Run.attempt (work k) := by
  obtain ⟨w', hle, hends, hall⟩ := h
  have hattempt : ∀ k, work k (r.store w) = work default (r.store w) →
      Run.attempt (work k) (r.store w) = Run.attempt (work default) (r.store w) := fun k hsame => by
    simp only [Run.attempt, hsame]
  exact ⟨w', hle, hends.attempt, fun k => (hall k).imp (hattempt k) fun ⟨moment, hpassed, hresult⟩ =>
    ⟨moment, hpassed, Run.attempt_exhausted_iff.mpr hresult⟩⟩

/-- What the store tells is known when work goes on, and the world is the same. -/
theorem promises_read_bind {question : Store → α} {next : ι → α → Run β}
    (h : r.Promises gives' w fun k => next k (question (r.store w))) :
    r.Promises gives' w fun k => Run.read question >>= next k :=
  h

/-- A question about the store is answered in the same world. -/
theorem promises_read {question : Store → α} (h : gives w (question (r.store w))) :
    r.Promises gives w fun _ : ι => Run.read question :=
  promises_of_ends le_rfl ⟨rfl, h⟩

/-- A change of the store leads on to a later world. -/
theorem promises_modifyGet {change : Store → α × Store}
    (h : ∃ w', w ≤ w' ∧ r.store w' = (change (r.store w)).2 ∧ gives w' (change (r.store w)).1) :
    r.Promises gives w fun _ : ι => (modifyGet change : Run α) :=
  have ⟨_, hle, hstore, hgives⟩ := h
  promises_of_ends hle ⟨hstore, hgives⟩

/-- A change without a result. -/
theorem promises_modify {change : Store → Store} {gives : r.World → Unit → Prop}
    (h : ∃ w', w ≤ w' ∧ r.store w' = change (r.store w) ∧ gives w' ()) :
    r.Promises gives w fun _ : ι => (modify change : Run Unit) :=
  promises_modifyGet h

/-! ## Work for each of many -/

/-- Work for each item of a list promises something of each result. -/
theorem promises_mapM {work : ι → α → Run β} (hstable : r.Stable gives') {items : List α}
    (h : ∀ w', w ≤ w' → ∀ a ∈ items, r.Promises gives' w' fun k => work k a) :
    r.Promises (fun w' results => ∀ b ∈ results, gives' w' b) w fun k => items.mapM (work k) := by
  induction items generalizing w with
  | nil => exact promises_pure (a := []) fun _ hb => nomatch hb
  | cons a items ih =>
    simp only [List.mapM_cons]
    refine (h w le_rfl a List.mem_cons_self).bind fun w' b hle hb => ?_
    refine (ih fun later hlater other hother => h later (hle.trans hlater) other
      (List.mem_cons_of_mem _ hother)).map fun later results hlater hresults => ?_
    exact List.forall_mem_cons.mpr ⟨hstable hlater hb, hresults⟩

/-- Work that goes from item to item keeps what each step keeps. -/
theorem promises_foldlM {gives : r.World → σ → Prop} {work : ι → σ → α → Run σ} {items : List α}
    {state : σ} (hstate : gives w state)
    (h : ∀ w' state, w ≤ w' → gives w' state → ∀ a ∈ items,
      r.Promises gives w' fun k => work k state a) :
    r.Promises gives w fun k => items.foldlM (work k) state := by
  induction items generalizing w state with
  | nil => exact promises_pure hstate
  | cons a items ih =>
    simp only [List.foldlM_cons]
    refine (h w state le_rfl hstate a List.mem_cons_self).bind fun w' state' hle hstate' => ?_
    exact ih hstate' fun later other hlater hother b hb =>
      h later other (hle.trans hlater) hother b (List.mem_cons_of_mem _ hb)

/-- So does work that gives nothing. -/
theorem promises_forM {gives : r.World → Unit → Prop} {work : ι → α → Run Unit} {items : List α}
    (hgives : ∀ w', w ≤ w' → gives w' ())
    (h : ∀ w', w ≤ w' → ∀ a ∈ items, r.Promises gives w' fun k => work k a) :
    r.Promises gives w fun k => items.forM (work k) := by
  induction items generalizing w with
  | nil => exact promises_pure (a := ()) (hgives w le_rfl)
  | cons a items ih =>
    refine (h w le_rfl a List.mem_cons_self).bind fun w' _ hle _ => ?_
    exact ih (fun later hlater => hgives later (hle.trans hlater))
      fun later hlater b hb => h later (hle.trans hlater) b (List.mem_cons_of_mem _ hb)

/-! ## Work with exits -/

/-- Work with exits may end without one. -/
theorem promisesEval_pure {a : α} (h : gives w a) : r.PromisesEval gives w fun _ : ι => pure a :=
  promises_pure (a := (Except.ok a : Except Exit α)) h

/-- By `return` only values of the realm leave. -/
theorem promisesEval_exit {exit : Exit} (h : ∀ value, exit = .return value → r.has w value) :
    r.PromisesEval gives w fun _ : ι => (Eval.exit exit : Eval α) := by
  refine promises_pure (a := (Except.error exit : Except Exit α)) ?_
  cases exit with
  | «return» value => exact h value rfl
  | _ => trivial

/-- An exit skips the work behind it. -/
theorem PromisesEval.bind {work : ι → Eval α} {next : ι → α → Eval β}
    (h : r.PromisesEval gives w work)
    (hnext : ∀ w' a, w ≤ w' → gives w' a → r.PromisesEval gives' w' fun k => next k a) :
    r.PromisesEval gives' w fun k => work k >>= next k := by
  refine Promises.bind h fun w' outcome hle houtcome => ?_
  match outcome with
  | .ok a => exact hnext w' a hle houtcome
  | .error (.return value) => exact promisesEval_exit fun _ heq => by cases heq; exact houtcome
  | .error .break => exact promisesEval_exit nofun
  | .error .continue => exact promisesEval_exit nofun

/-- Work without exits promises the same as work with them. -/
theorem promisesEval_lift {work : ι → Run α} (h : r.Promises gives w work) :
    r.PromisesEval gives w fun k => (liftM (work k) : Eval α) :=
  h.map fun _ _ _ ha => ha

/-- Work without exits at the beginning. -/
theorem promisesEval_lift_bind {work : ι → Run α} {next : ι → α → Eval β}
    (h : r.Promises gives w work)
    (hnext : ∀ w' a, w ≤ w' → gives w' a → r.PromisesEval gives' w' fun k => next k a) :
    r.PromisesEval gives' w fun k => (liftM (work k) : Eval α) >>= next k :=
  (promisesEval_lift h).bind hnext

/-- What the store tells at the beginning of work with exits. -/
theorem promisesEval_read_bind {question : Store → α} {next : ι → α → Eval β}
    (h : r.PromisesEval gives' w fun k => next k (question (r.store w))) :
    r.PromisesEval gives' w fun k => (liftM (Run.read question) : Eval α) >>= next k :=
  h

/-- An exit may be looked at as a result. -/
theorem promisesEval_outcome {work : ι → Eval α} (h : r.PromisesEval gives w work) :
    r.PromisesEval (r.exits gives) w fun k => (work k).outcome :=
  promisesEval_lift h

theorem promisesEval_ite {condition : Prop} [Decidable condition] {work other : ι → Eval α}
    (h : condition → r.PromisesEval gives w work)
    (hother : ¬ condition → r.PromisesEval gives w other) :
    r.PromisesEval gives w fun k => if condition then work k else other k := by
  by_cases hc : condition
  · simpa only [if_pos hc] using h hc
  · simpa only [if_neg hc] using hother hc

/-- The same from item to item, with exits. -/
theorem promisesEval_foldlM {gives : r.World → σ → Prop} {work : ι → σ → α → Eval σ} {items : List α}
    {state : σ} (hstate : gives w state)
    (h : ∀ w' state, w ≤ w' → gives w' state → ∀ a ∈ items,
      r.PromisesEval gives w' fun k => work k state a) :
    r.PromisesEval gives w fun k => items.foldlM (work k) state := by
  induction items generalizing w state with
  | nil => exact promisesEval_pure hstate
  | cons a items ih =>
    simp only [List.foldlM_cons]
    refine (h w state le_rfl hstate a List.mem_cons_self).bind fun w' state' hle hstate' => ?_
    exact ih hstate' fun later other hlater hother b hb =>
      h later other (hle.trans hlater) hother b (List.mem_cons_of_mem _ hb)

/-- The same for each item, with exits. -/
theorem promisesEval_mapM {work : ι → α → Eval β} (hstable : r.Stable gives') {items : List α}
    (h : ∀ w', w ≤ w' → ∀ a ∈ items, r.PromisesEval gives' w' fun k => work k a) :
    r.PromisesEval (fun w' results => ∀ b ∈ results, gives' w' b) w
      fun k => items.mapM (work k) := by
  have hloop : ∀ (items : List α) (done : List β) (w' : r.World), w ≤ w' →
      (∀ later, w ≤ later → ∀ a ∈ items, r.PromisesEval gives' later fun k => work k a) →
      (∀ b ∈ done, gives' w' b) →
      r.PromisesEval (fun w' results => ∀ b ∈ results, gives' w' b) w'
        fun k => List.mapM.loop (work k) items done := by
    intro items
    induction items with
    | nil =>
      exact fun done w' _ _ hdone =>
        promisesEval_pure fun b hb => hdone b (List.mem_reverse.mp hb)
    | cons a items ih =>
      intro done w' hle hitems hdone
      refine (hitems w' hle a List.mem_cons_self).bind fun later b hlater hb => ?_
      refine ih (b :: done) later (hle.trans hlater)
        (fun last hlast other hother => hitems last hlast other (List.mem_cons_of_mem _ hother)) ?_
      exact List.forall_mem_cons.mpr ⟨hb, fun other hother => hstable hlater (hdone other hother)⟩
  exact hloop items [] w le_rfl h nofun

end Promises

end Realm

end Ckl
