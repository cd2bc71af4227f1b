import Ckl.Eval
import Ckl.Proofs.Run.Rule

/-!
# Where exits come from

Evaluating a node ends by an exit only if the jump for it stands in the node where nothing can stop it.
`Form.parts` are the nodes inside a form that a jump can come from: the body of a loop is left out for
`break` and `continue`, and what stands in a function for every jump. So a walk along these parts stops
dead at loops and functions, and `Node.Strays` says that it reaches the jump.

The lemmas about single forms are sharper than the walk: arguments, the elements and conditions of
comprehensions and the filters of handlers must have values, so that an exit of these is an error, and an
exit of a cleanup has no effect.
-/

namespace Ckl

namespace Source

/-- The jump that a form makes itself. -/
def Form.jump? : Form → Option Jump
  | .breakLoop => some .break
  | .continueLoop => some .continue
  | .giveBack _ => some .return
  | _ => none

/-- The nodes that stand in an item of a map. -/
def MapItem.nodes : MapItem Node → List Node
  | .entry key value => [key, value]
  | .spread inner => [inner]

/-- The body of a loop, if a jump passes through the loop. -/
def throughLoop (jump : Jump) (body : Node) : List Node :=
  match jump with
  | .break | .continue => []
  | .return => [body]

/-- The nodes directly inside a form that a jump can come from. -/
def Form.parts (jump : Jump) : Form → List Node
  | .literal _ | .name _ | .function _ | .breakLoop | .continueLoop => []
  | .list items | .set items => items
  | .map items => items.flatMap MapItem.nodes
  | .object members => members.map (·.value)
  | .comprehension parts =>
    parts.source :: parts.element :: (parts.value.toList ++ parts.condition.toList)
  | .block body handlers cleanup =>
    body ++ handlers.flatMap (fun handler => handler.filter.toList ++ handler.body) ++ cleanup
  | .choice branches otherwise =>
    branches.flatMap (fun branch => [branch.condition, branch.body]) ++ otherwise.toList
  | .and left right | .or left right => [left, right]
  | .contained element container => [element, container]
  | .call callee arguments => callee :: arguments.map (·.value)
  | .index target key => [target, key]
  | .assignIndex target key value => [target, key, value]
  | .invoke target _ arguments => target :: arguments.map (·.value)
  | .loop parts => parts.source :: throughLoop jump parts.body
  | .loopWhile condition body => condition :: throughLoop jump body
  | .giveBack value => value.toList
  | .spread inner | .not inner | .assign _ inner | .assignAll _ inner | .define _ inner |
    .defineAll _ inner | .raise inner | .require inner _ => [inner]

/-- A jump stands in the node outside functions and, if loops stop it, outside their bodies. -/
inductive Node.Strays (jump : Jump) : Node → Prop where
  | here {node : Node} (h : node.form.jump? = some jump) : Strays jump node
  | inside {node part : Node} (hpart : part ∈ node.form.parts jump) (h : Strays jump part) :
    Strays jump node

end Source

open Source (Position Node Form Branch Handler)

/-- A rule without conditions. -/
def Rule.free : Rule := ⟨fun _ => True, fun _ => True⟩

/-- Without conditions everything is governed. -/
theorem Rule.governs_free {α : Type} (work : Run α) : Rule.free.Governs work := by
  intro store _
  match work store with
  | .ok value after => exact ⟨trivial, trivial⟩
  | .error (.failed failure) after => exact ⟨trivial, trivial⟩
  | .error .exhausted after => trivial
  | .error (.awaiting path) after => trivial

/-- An outcome is an exit by certain jumps only. -/
def ExitIn (allowed : Jump → Prop) {α : Type} (outcome : Except Exit α) : Prop :=
  ∀ exit, outcome = .error exit → allowed exit.jump

/-- The work ends by exits of certain jumps only. -/
def Eval.ExitsBy (allowed : Jump → Prop) {α : Type} (work : Eval α) : Prop :=
  Rule.free.Promises (ExitIn allowed) work.run

namespace Eval

variable {allowed others : Jump → Prop} {α β σ : Type}

/-! ## Putting work together -/

/-- The exit of work is by one of the jumps that it may end by. -/
theorem ExitsBy.jump {work : Eval α} (h : work.ExitsBy allowed) {store after : Store} {exit : Exit}
    (hrun : work.run store = .ok (.error exit) after) : allowed exit.jump := by
  have hend := h store trivial
  rw [hrun] at hend
  exact hend.2 exit rfl

/-- Work that gives something does not exit. -/
theorem exitsBy_pure (a : α) : ExitsBy allowed (pure a : Eval α) := Rule.promises_pure nofun

/-- An exit is by its jump. -/
theorem exitsBy_exit {exit : Exit} (h : allowed exit.jump) :
    ExitsBy allowed (Eval.exit exit : Eval α) := by
  refine Rule.promises_pure fun other heq => ?_
  cases heq
  exact h

/-- Work without exits exits by none. -/
theorem exitsBy_lift (work : Run α) : ExitsBy allowed (liftM work : Eval α) :=
  Rule.Promises.bind (Rule.governs_free work) fun _ _ => Rule.promises_pure nofun

/-- More jumps may be allowed. -/
theorem ExitsBy.mono {work : Eval α} (h : work.ExitsBy allowed)
    (himp : ∀ jump, allowed jump → others jump) : work.ExitsBy others :=
  Rule.Promises.mono h fun _ hexit exit heq => himp exit.jump (hexit exit heq)

/-- An exit skips the rest. -/
theorem ExitsBy.bind {work : Eval α} {next : α → Eval β} (h : work.ExitsBy allowed)
    (hnext : ∀ a, (next a).ExitsBy allowed) : ExitsBy allowed (work >>= next) := by
  refine Rule.Promises.bind h fun outcome houtcome => ?_
  cases outcome with
  | ok value => exact hnext value
  | error exit => exact exitsBy_exit (houtcome exit rfl)

/-- Work that takes no exit, with a promise about its result. -/
theorem exitsBy_promised_bind {work : Run α} {gives : α → Prop} (h : Rule.free.Promises gives work)
    {next : α → Eval β} (hnext : ∀ a, gives a → (next a).ExitsBy allowed) :
    ExitsBy allowed ((liftM work : Eval α) >>= next) := by
  have hlifted : Rule.free.Promises (fun outcome => ∃ a, outcome = .ok a ∧ gives a)
      (liftM work : Eval α).run :=
    Rule.Promises.bind h fun a ha => Rule.promises_pure ⟨a, rfl, ha⟩
  refine Rule.Promises.bind hlifted fun outcome houtcome => ?_
  obtain ⟨a, rfl, ha⟩ := houtcome
  exact hnext a ha

/-- Work without exits at the beginning. -/
theorem exitsBy_lift_bind (work : Run α) {next : α → Eval β} (h : ∀ a, (next a).ExitsBy allowed) :
    ExitsBy allowed ((liftM work : Eval α) >>= next) :=
  exitsBy_promised_bind (Rule.governs_free work) fun a _ => h a

/-- What goes on with the outcome of some work may stop the exits of the work. -/
theorem ExitsBy.outcome_bind {work : Eval α} {next : Except Exit α → Eval β}
    (h : work.ExitsBy allowed)
    (hnext : ∀ outcome, ExitIn allowed outcome → (next outcome).ExitsBy others) :
    ExitsBy others (work.outcome >>= next) :=
  exitsBy_promised_bind h hnext

theorem exitsBy_ite {condition : Prop} [Decidable condition] {work other : Eval α}
    (h : work.ExitsBy allowed) (hother : other.ExitsBy allowed) :
    ExitsBy allowed (if condition then work else other) := by
  by_cases hc : condition
  · simpa only [if_pos hc] using h
  · simpa only [if_neg hc] using hother

/-- From item to item, -/
theorem exitsBy_foldlM {work : σ → α → Eval σ} {items : List α}
    (h : ∀ a ∈ items, ∀ state, (work state a).ExitsBy allowed) (state : σ) :
    ExitsBy allowed (items.foldlM work state) := by
  induction items generalizing state with
  | nil => exact exitsBy_pure state
  | cons a items ih =>
    rw [List.foldlM_cons]
    exact (h a (by simp) state).bind (ih fun b hb => h b (by simp [hb]))

/-- and for each of them. -/
theorem exitsBy_mapM {work : α → Eval β} {items : List α}
    (h : ∀ a ∈ items, (work a).ExitsBy allowed) : ExitsBy allowed (items.mapM work) := by
  have hloop : ∀ done : List β, ExitsBy allowed (List.mapM.loop work items done) := by
    induction items with
    | nil => exact fun done => exitsBy_pure done.reverse
    | cons a items ih =>
      intro done
      exact (h a (by simp)).bind fun b => ih (fun c hc => h c (by simp [hc])) (b :: done)
  exact hloop []

/-! ## Loops -/

/-- A loop stops what leaves or continues it; only a `return` of its body goes on. -/
theorem exitsBy_loop {body : Value → Eval Value} (h : ∀ item, (body item).ExitsBy allowed)
    (rounds : Nat) (iteration : Iteration) (last : Value) :
    (iteration.loop body rounds last).ExitsBy fun jump => jump = .return ∧ allowed jump := by
  induction rounds generalizing iteration last with
  | zero => exact exitsBy_pure last
  | succ rounds ih =>
    refine exitsBy_lift_bind _ fun next => ?_
    cases next with
    | none => exact exitsBy_pure last
    | some next =>
      refine (h next.1).outcome_bind fun outcome hexit => ?_
      match outcome with
      | .ok value => exact ih next.2 value
      | .error .break => exact exitsBy_pure last
      | .error .continue => exact ih next.2 last
      | .error (.return value) => exact exitsBy_exit ⟨rfl, hexit _ rfl⟩

end Eval

/-! ## Forms -/

section Forms

open Eval

variable {evaluator : Evaluator} {frame : FrameRef} {allowed others : Jump → Prop}

/-- A condition exits as its node does. -/
theorem exitsBy_truth {node : Node} (h : (evaluator.node node frame).ExitsBy allowed) :
    (evaluateTruth evaluator node frame).ExitsBy allowed :=
  h.bind fun _ => exitsBy_lift _

/-- Statements exit by the jumps of each of them. -/
theorem exitsBy_sequence {nodes : List Node}
    (h : ∀ node ∈ nodes, (evaluator.node node frame).ExitsBy allowed) :
    (evaluateSequence evaluator frame nodes).ExitsBy allowed :=
  exitsBy_foldlM (fun node hnode _ => h node hnode) _

/-- A choice exits by jumps of its conditions and branches. -/
theorem exitsBy_choice {branches : List (Branch Node)} {otherwise : Option Node}
    (hcondition : ∀ branch ∈ branches, (evaluator.node branch.condition frame).ExitsBy allowed)
    (hbody : ∀ branch ∈ branches, (evaluator.node branch.body frame).ExitsBy allowed)
    (hotherwise : ∀ node ∈ otherwise, (evaluator.node node frame).ExitsBy allowed) :
    (evaluateChoice evaluator frame otherwise branches).ExitsBy allowed := by
  induction branches with
  | nil =>
    cases otherwise with
    | none => exact exitsBy_pure _
    | some node => exact hotherwise node rfl
  | cons branch rest ih =>
    refine (exitsBy_truth (hcondition branch (by simp))).bind fun _ => ?_
    refine exitsBy_ite (hbody branch (by simp)) (ih ?_ ?_)
    · exact fun other hother => hcondition other (by simp [hother])
    · exact fun other hother => hbody other (by simp [hother])

/-- The exits of a handler are those of its body: its filter must have a value. -/
theorem promises_handleFailure {handlers : List (Handler Node)}
    (h : ∀ handler ∈ handlers, ∀ node ∈ handler.body, (evaluator.node node frame).ExitsBy allowed)
    (failure : Failure) (caught : Caught) :
    Rule.free.Promises (ExitIn allowed) (handleFailure evaluator frame failure caught handlers) := by
  induction handlers with
  | nil => exact Rule.promises_stop trivial
  | cons handler rest ih =>
    refine Rule.Promises.bind (Rule.governs_free _) fun handles _ => ?_
    cases handles with
    | false => exact ih fun other hother => h other (by simp [hother])
    | true =>
      refine Rule.Promises.bind (Rule.governs_free _) fun _ _ => ?_
      refine Rule.Promises.bind (Rule.governs_free _) fun _ _ => ?_
      refine Rule.Promises.bind
        (Rule.Promises.attempt rfl (exitsBy_sequence (h handler (by simp)))) fun outcome hexit => ?_
      refine Rule.Promises.bind (Rule.governs_free _) fun _ _ => ?_
      exact Rule.promises_conclude hexit.1 hexit.2

/-- The exits of a block are those of its statements and of its handlers: those of its cleanup have no
effect. -/
theorem exitsBy_block {body : List Node} {handlers : List (Handler Node)}
    (hbody : ∀ node ∈ body, (evaluator.node node frame).ExitsBy allowed)
    (hhandlers : ∀ handler ∈ handlers, ∀ node ∈ handler.body,
      (evaluator.node node frame).ExitsBy allowed) (cleanup : List Node) :
    (evaluateBlock evaluator frame body handlers cleanup).ExitsBy allowed := by
  have hhandled : Rule.free.Promises (ExitIn allowed) (runHandled evaluator frame body handlers) := by
    refine Rule.Promises.bind (Rule.Promises.attempt rfl (exitsBy_sequence hbody)) fun outcome h => ?_
    cases outcome with
    | ok outcome => exact Rule.promises_pure (h.1 outcome rfl)
    | error failure =>
      dsimp only
      cases failure.caught? with
      | none => exact Rule.promises_stop trivial
      | some caught => exact promises_handleFailure hhandlers failure caught
  refine Rule.Promises.bind (Rule.Promises.attempt rfl hhandled) fun outcome h => ?_
  refine Rule.Promises.bind (Rule.governs_free _) fun _ _ => ?_
  exact Rule.promises_conclude h.1 h.2

/-- Of its body a loop lets only `return` through. -/
theorem exitsBy_forLoop {parts : Source.Loop Node}
    (hsource : (evaluator.node parts.source frame).ExitsBy allowed)
    (hbody : (evaluator.node parts.body frame).ExitsBy others) (position : Position) :
    (evaluateLoop evaluator parts frame position).ExitsBy
      fun jump => allowed jump ∨ jump = .return ∧ others jump := by
  refine (hsource.mono fun _ => .inl).bind fun source => ?_
  refine exitsBy_lift_bind _ fun iteration => ?_
  refine exitsBy_lift_bind _ fun before => ?_
  refine exitsBy_lift_bind _ fun rounds => ?_
  have hround : ∀ item, ExitsBy others (do
      bindItem parts frame position item
      evaluator.node parts.body frame : Eval Value) := fun item =>
    exitsBy_lift_bind _ fun _ => hbody
  have hloop := (exitsBy_loop hround rounds iteration .null).mono
    fun jump hjump => (.inr hjump : allowed jump ∨ _)
  refine exitsBy_promised_bind (Rule.Promises.attempt rfl hloop) fun outcome hexit => ?_
  refine exitsBy_lift_bind _ fun _ => ?_
  exact Rule.promises_conclude hexit.1 hexit.2

/-- So does one under a condition. -/
theorem exitsBy_while {condition body : Node}
    (hcondition : (evaluator.node condition frame).ExitsBy allowed)
    (hbody : (evaluator.node body frame).ExitsBy others) (rounds : Nat) (last : Value) :
    (evaluateWhile evaluator condition body frame rounds last).ExitsBy
      fun jump => allowed jump ∨ jump = .return ∧ others jump := by
  induction rounds generalizing last with
  | zero => exact exitsBy_lift _
  | succ rounds ih =>
    refine ((exitsBy_truth hcondition).mono fun _ => .inl).bind fun holds => ?_
    refine exitsBy_ite ?_ (exitsBy_pure last)
    refine hbody.outcome_bind fun outcome hexit => ?_
    match outcome with
    | .ok value => exact ih value
    | .error .break => exact exitsBy_pure last
    | .error .continue => exact ih last
    | .error (.return value) => exact exitsBy_exit (.inr ⟨rfl, hexit _ rfl⟩)

/-- An entry of a map exits as its parts do. -/
theorem exitsBy_itemEntries {item : Source.MapItem Node}
    (h : ∀ node ∈ item.nodes, (evaluator.node node frame).ExitsBy allowed) :
    (itemEntries evaluator frame item).ExitsBy allowed := by
  cases item with
  | entry key value =>
    refine (h key (by simp [Source.MapItem.nodes])).bind fun _ => ?_
    exact (h value (by simp [Source.MapItem.nodes])).bind fun _ => exitsBy_pure _
  | spread inner =>
    refine (h inner (by simp [Source.MapItem.nodes])).bind fun _ => ?_
    exact exitsBy_lift_bind _ fun _ => exitsBy_lift _

/-- No exit crosses a call: of the arguments it is an error, and of the body of the function it ends the
function. -/
theorem exitsBy_call {callee : Node} (h : (evaluator.node callee frame).ExitsBy allowed)
    (rounds : Nat) (position : Position) (arguments : List (Source.Argument Node)) :
    (step rounds evaluator (.mk position (.call callee arguments)) frame).ExitsBy allowed := by
  refine h.bind fun _ => ?_
  refine exitsBy_lift_bind _ fun _ => ?_
  exact exitsBy_lift_bind _ fun _ => exitsBy_lift _

/-- A call of a member exits only as its target does: its arguments are in a place that exits may not leave.
-/
theorem exitsBy_invoke {target : Node} (h : (evaluator.node target frame).ExitsBy allowed)
    (rounds : Nat) (position : Position) (member : String)
    (arguments : List (Source.Argument Node)) :
    (step rounds evaluator (.mk position (.invoke target member arguments)) frame).ExitsBy
      allowed := by
  refine h.bind fun _ => ?_
  refine exitsBy_lift_bind _ fun _ => ?_
  refine exitsBy_lift_bind _ fun _ => ?_
  exact exitsBy_lift_bind _ fun _ => exitsBy_lift _

end Forms

/-! ## Evaluation -/

section Evaluation

open Eval

variable {evaluator : Evaluator} (he : ∀ node frame, (evaluator.node node frame).ExitsBy node.Strays)

include he

/-- An item exits by the jumps that stray from it, spread or not. -/
theorem exitsBy_itemValues (item : Node) (frame : FrameRef) :
    (itemValues evaluator frame item).ExitsBy item.Strays := by
  unfold itemValues
  split
  · next inner hform =>
    have hinner : (evaluator.node inner frame).ExitsBy item.Strays :=
      (he inner frame).mono fun jump => .inside (by simp [hform, Form.parts])
    refine hinner.bind fun _ => ?_
    exact exitsBy_lift_bind _ fun _ => exitsBy_lift _
  · exact (he item frame).bind fun _ => exitsBy_pure _

/-- So does every form of a node, if the nodes inside do. -/
theorem exitsBy_step (rounds : Nat) (node : Node) (frame : FrameRef) :
    (step rounds evaluator node frame).ExitsBy node.Strays := by
  obtain ⟨position, form⟩ := node
  have hpart : ∀ part, (∀ jump, part ∈ form.parts jump) →
      (evaluator.node part frame).ExitsBy (Node.mk position form).Strays := fun part hpart =>
    (he part frame).mono fun jump => .inside (hpart jump)
  cases form with
  | literal value => exact exitsBy_pure _
  | name name => exact exitsBy_lift _
  | spread inner => exact exitsBy_lift _
  | list items =>
    refine ExitsBy.bind (exitsBy_mapM fun item hitem => ?_) fun _ => exitsBy_lift _
    exact (exitsBy_itemValues he item frame).mono fun jump => .inside hitem
  | set items =>
    refine ExitsBy.bind (exitsBy_foldlM (fun item hitem keys => ?_) _) fun _ => exitsBy_lift _
    refine ExitsBy.bind ?_ fun _ => exitsBy_lift _
    exact (exitsBy_itemValues he item frame).mono fun jump => .inside hitem
  | map items =>
    refine ExitsBy.bind (exitsBy_foldlM (fun item hitem table => ?_) _) fun _ => exitsBy_lift _
    refine (exitsBy_itemEntries fun node hnode => ?_).bind fun _ => exitsBy_lift _
    exact hpart node fun _ => List.mem_flatMap.mpr ⟨item, hitem, hnode⟩
  | object members =>
    refine ExitsBy.bind (exitsBy_foldlM (fun member hmember bindings => ?_) _) fun _ => exitsBy_lift _
    exact (hpart member.value fun _ => List.mem_map_of_mem hmember).bind fun _ => exitsBy_pure _
  | comprehension parts =>
    refine (hpart parts.source (by simp [Form.parts])).bind fun _ => ?_
    refine exitsBy_lift_bind _ fun _ => exitsBy_lift_bind _ fun _ => ?_
    exact exitsBy_lift_bind _ fun _ => exitsBy_lift_bind _ fun _ => exitsBy_lift _
  | block body handlers cleanup =>
    -- an exit of the cleanup has no effect, so nothing is asked of its nodes
    refine exitsBy_block (fun node hnode => ?_) (fun handler hhandler node hnode => ?_) cleanup
    · exact hpart node fun _ => by simp [Form.parts, hnode]
    · refine hpart node fun _ => ?_
      simp only [Form.parts, List.mem_append, List.mem_flatMap]
      exact .inl (.inr ⟨handler, hhandler, .inr hnode⟩)
  | choice branches otherwise =>
    have hbranch : ∀ branch ∈ branches, ∀ node ∈ [branch.condition, branch.body],
        (evaluator.node node frame).ExitsBy
          (Node.mk position (.choice branches otherwise)).Strays := by
      intro branch hbranch node hnode
      refine hpart node fun _ => ?_
      simp only [Form.parts, List.mem_append, List.mem_flatMap]
      exact .inl ⟨branch, hbranch, hnode⟩
    refine exitsBy_choice (fun branch h => hbranch branch h _ (by simp))
      (fun branch h => hbranch branch h _ (by simp)) fun node hnode => ?_
    exact hpart node fun _ => by simp [Form.parts, Option.mem_def.mp hnode]
  | and left right =>
    refine (exitsBy_truth (hpart left (by simp [Form.parts]))).bind fun _ => ?_
    refine exitsBy_ite ?_ (exitsBy_pure _)
    exact (exitsBy_truth (hpart right (by simp [Form.parts]))).bind fun _ => exitsBy_pure _
  | or left right =>
    refine (exitsBy_truth (hpart left (by simp [Form.parts]))).bind fun _ => ?_
    refine exitsBy_ite (exitsBy_pure _) ?_
    exact (exitsBy_truth (hpart right (by simp [Form.parts]))).bind fun _ => exitsBy_pure _
  | not operand =>
    exact (exitsBy_truth (hpart operand (by simp [Form.parts]))).bind fun _ => exitsBy_pure _
  | contained element container =>
    refine (hpart element (by simp [Form.parts])).bind fun _ => ?_
    refine (hpart container (by simp [Form.parts])).bind fun _ => ?_
    exact exitsBy_lift_bind _ fun _ => exitsBy_lift_bind _ fun _ => exitsBy_pure _
  | call callee arguments => exact exitsBy_call (hpart callee (by simp [Form.parts])) _ _ _
  | index target key =>
    refine (hpart target (by simp [Form.parts])).bind fun _ => ?_
    refine (hpart key (by simp [Form.parts])).bind fun _ => ?_
    exact exitsBy_lift_bind _ fun _ => exitsBy_lift _
  | assignIndex target key value =>
    refine (hpart target (by simp [Form.parts])).bind fun _ => ?_
    refine (hpart key (by simp [Form.parts])).bind fun _ => ?_
    refine (hpart value (by simp [Form.parts])).bind fun _ => ?_
    exact exitsBy_lift_bind _ fun _ => exitsBy_pure _
  | invoke target member arguments =>
    exact exitsBy_invoke (hpart target (by simp [Form.parts])) _ _ _ _
  | assign name value =>
    refine (hpart value (by simp [Form.parts])).bind fun _ => ?_
    exact exitsBy_lift_bind _ fun _ => exitsBy_pure _
  | assignAll names value =>
    refine (hpart value (by simp [Form.parts])).bind fun _ => ?_
    exact exitsBy_lift_bind _ fun _ => exitsBy_lift_bind _ fun _ => exitsBy_pure _
  | define name value =>
    refine (hpart value (by simp [Form.parts])).bind fun _ => ?_
    exact exitsBy_lift_bind _ fun _ => exitsBy_pure _
  | defineAll names value =>
    refine (hpart value (by simp [Form.parts])).bind fun _ => ?_
    exact exitsBy_lift_bind _ fun _ => exitsBy_lift_bind _ fun _ => exitsBy_pure _
  | function definition => exact exitsBy_lift _
  | loop parts =>
    refine (exitsBy_forLoop (hpart parts.source (by simp [Form.parts])) (he parts.body frame)
      position).mono ?_
    -- out of the body of a loop only a `return` gets
    rintro jump (hsource | ⟨rfl, hbody⟩)
    · exact hsource
    · exact .inside (by simp [Node.form, Form.parts, Source.throughLoop]) hbody
  | loopWhile condition body =>
    refine (exitsBy_while (hpart condition (by simp [Form.parts])) (he body frame) rounds _).mono ?_
    rintro jump (hcondition | ⟨rfl, hbody⟩)
    · exact hcondition
    · exact .inside (by simp [Node.form, Form.parts, Source.throughLoop]) hbody
  | breakLoop => exact exitsBy_exit (.here rfl)
  | continueLoop => exact exitsBy_exit (.here rfl)
  | giveBack value =>
    cases value with
    | none => exact exitsBy_exit (.here rfl)
    | some value =>
      exact (hpart value (by simp [Form.parts])).bind fun _ => exitsBy_exit (.here rfl)
  | raise payload =>
    refine (hpart payload (by simp [Form.parts])).bind fun _ => ?_
    exact exitsBy_lift_bind _ fun _ => exitsBy_lift _
  | require module style => exact exitsBy_lift _

end Evaluation

/-- Evaluation exits by jumps that stray from the node, by induction on the bound. -/
theorem exitsBy_evaluate (bound : Nat) (node : Node) (frame : FrameRef) :
    (evaluate bound node frame).ExitsBy node.Strays := by
  induction bound generalizing node frame with
  | zero => exact Eval.exitsBy_lift _
  | succ bound ih =>
    have he : ∀ node frame, ((evaluator bound).node node frame).ExitsBy node.Strays := ih
    exact exitsBy_step he bound node frame

/-- A node whose step takes certain exits only if its parts stray. -/
theorem exitsBy_evaluate_of_step {node : Node} {frame : FrameRef} {allowed : Jump → Prop}
    (h : ∀ rounds evaluator, (∀ part, (Evaluator.node evaluator part frame).ExitsBy part.Strays) →
      (step rounds evaluator node frame).ExitsBy allowed) (bound : Nat) :
    (evaluate bound node frame).ExitsBy allowed := by
  cases bound with
  | zero => exact Eval.exitsBy_lift _
  | succ bound => exact h bound (evaluator bound) fun part => exitsBy_evaluate bound part frame

/-- A loop exits by `return` or as its source does, -/
theorem exitsBy_evaluate_loop (bound : Nat) (position : Position) (parts : Source.Loop Node)
    (frame : FrameRef) :
    (evaluate bound (.mk position (.loop parts)) frame).ExitsBy
      fun jump => jump = .return ∨ parts.source.Strays jump := by
  refine exitsBy_evaluate_of_step (fun rounds evaluator he => ?_) bound
  refine (exitsBy_forLoop (he parts.source) (he parts.body) position).mono fun jump hjump => ?_
  exact hjump.elim .inr fun hbody => .inl hbody.1

/-- or as its condition does, -/
theorem exitsBy_evaluate_while (bound : Nat) (position : Position) (condition body : Node)
    (frame : FrameRef) :
    (evaluate bound (.mk position (.loopWhile condition body)) frame).ExitsBy
      fun jump => jump = .return ∨ condition.Strays jump := by
  refine exitsBy_evaluate_of_step (fun rounds evaluator he => ?_) bound
  refine (exitsBy_while (he condition) (he body) rounds .null).mono fun jump hjump => ?_
  exact hjump.elim .inr fun hbody => .inl hbody.1

/-- a call as its callee does -/
theorem exitsBy_evaluate_call (bound : Nat) (position : Position) (callee : Node)
    (arguments : List (Source.Argument Node)) (frame : FrameRef) :
    (evaluate bound (.mk position (.call callee arguments)) frame).ExitsBy callee.Strays :=
  exitsBy_evaluate_of_step
    (fun rounds _ he => exitsBy_call (he callee) rounds position arguments) bound

/-- and a call of a member as its target does. -/
theorem exitsBy_evaluate_invoke (bound : Nat) (position : Position) (target : Node)
    (member : String) (arguments : List (Source.Argument Node)) (frame : FrameRef) :
    (evaluate bound (.mk position (.invoke target member arguments)) frame).ExitsBy
      target.Strays :=
  exitsBy_evaluate_of_step
    (fun rounds _ he => exitsBy_invoke (he target) rounds position member arguments) bound

/-- **Exits are contained.** A node in which every `break` and `continue` outside functions is in the body
of a loop does not end by these, and one without a `return` outside functions does not end by that. A
loop, whatever its body is, ends by `break` or `continue` only if its source or its condition does, and a
call, whatever is called with whatever arguments, by an exit of the callee only. -/
theorem exits_contained (bound : Nat) (frame : FrameRef) (store : Store) :
    (∀ (node : Node) exit after,
      (evaluate bound node frame).run store = .ok (.error exit) after →
        (¬ node.Strays .break → ¬ node.Strays .continue → ∃ value, exit = .return value) ∧
        (¬ node.Strays .return → ∀ value, exit ≠ .return value)) ∧
    (∀ position parts exit after,
      (evaluate bound (.mk position (.loop parts)) frame).run store = .ok (.error exit) after →
        exit.jump = .return ∨ parts.source.Strays exit.jump) ∧
    (∀ position condition body exit after,
      (evaluate bound (.mk position (.loopWhile condition body)) frame).run store =
          .ok (.error exit) after →
        exit.jump = .return ∨ condition.Strays exit.jump) ∧
    (∀ position callee arguments exit after,
      (evaluate bound (.mk position (.call callee arguments)) frame).run store =
          .ok (.error exit) after →
        callee.Strays exit.jump) ∧
    ∀ position target member arguments exit after,
      (evaluate bound (.mk position (.invoke target member arguments)) frame).run store =
          .ok (.error exit) after →
        target.Strays exit.jump := by
  refine ⟨fun node exit after hrun => ?_, ?_, ?_, ?_, ?_⟩
  · have hstrays := (exitsBy_evaluate bound node frame).jump hrun
    cases exit with
    | «break» => exact ⟨fun hbreak _ => absurd hstrays hbreak, nofun⟩
    | «continue» => exact ⟨fun _ hcontinue => absurd hstrays hcontinue, nofun⟩
    | «return» value => exact ⟨fun _ _ => ⟨value, rfl⟩, fun hreturn => absurd hstrays hreturn⟩
  · intro position parts exit after hrun
    exact (exitsBy_evaluate_loop bound position parts frame).jump hrun
  · intro position condition body exit after hrun
    exact (exitsBy_evaluate_while bound position condition body frame).jump hrun
  · intro position callee arguments exit after hrun
    exact (exitsBy_evaluate_call bound position callee arguments frame).jump hrun
  · intro position target member arguments exit after hrun
    exact (exitsBy_evaluate_invoke bound position target member arguments frame).jump hrun

/-- A `break` on its own. -/
def breaking : Node := .mk default .breakLoop

/-- A `return` of a literal. -/
def returning : Node := .mk default (.giveBack (some (.mk default (.literal (.boolean true)))))

/-- A loop over what breaks, with a body that returns. -/
def loopOverBreak : Source.Loop Node where
  names := ["x"]
  destructures := false
  selection := .items
  source := breaking
  body := returning

/-- A store with one frame. -/
def oneFrame : Store where
  now := Calendar.Moment.midnight 0
  inputs := #[]
  outputs := #[]
  frames := #[{}]

/-- Neither a `return` nor what it returns here is another jump. -/
theorem not_strays_returning {jump : Jump} (h : jump ≠ .return) : ¬ returning.Strays jump := by
  intro hstrays
  cases hstrays with
  | here hjump => exact h (Option.some.inj hjump).symm
  | inside hpart hliteral =>
    obtain rfl := List.mem_singleton.mp hpart
    cases hliteral with
    | here hjump => cases hjump
    | inside hpart _ => cases hpart

/-- A `break` is no `return`. -/
theorem not_strays_breaking : ¬ breaking.Strays .return := by
  intro hstrays
  cases hstrays with
  | here hjump => cases hjump
  | inside hpart _ => cases hpart

/-- What returns ends by that and what breaks by that, and loops, calls and invocations break here because
their source, their condition, their callee and their target do. -/
theorem exits_contained_breaking :
    ((evaluate 2 returning ⟨0⟩).run oneFrame = .ok (.error (.return (.boolean true))) oneFrame ∧
      ∃ value, Exit.return (.boolean true) = .return value) ∧
    ((evaluate 2 breaking ⟨0⟩).run oneFrame = .ok (.error .break) oneFrame ∧
      ∀ value, Exit.break ≠ .return value) ∧
    ((evaluate 2 (.mk default (.loop loopOverBreak)) ⟨0⟩).run oneFrame =
        .ok (.error .break) oneFrame ∧
      (Exit.break.jump = .return ∨ loopOverBreak.source.Strays Exit.break.jump)) ∧
    ((evaluate 2 (.mk default (.loopWhile breaking returning)) ⟨0⟩).run oneFrame =
        .ok (.error .break) oneFrame ∧
      (Exit.break.jump = .return ∨ breaking.Strays Exit.break.jump)) ∧
    ((evaluate 2 (.mk default (.call breaking [])) ⟨0⟩).run oneFrame = .ok (.error .break) oneFrame ∧
      breaking.Strays Exit.break.jump) ∧
    (evaluate 2 (.mk default (.invoke breaking "member" [])) ⟨0⟩).run oneFrame =
        .ok (.error .break) oneFrame ∧
      breaking.Strays Exit.break.jump := by
  obtain ⟨hnodes, hloops, hwhiles, hcalls, hinvokes⟩ := exits_contained 2 ⟨0⟩ oneFrame
  exact ⟨⟨rfl, (hnodes returning _ _ rfl).1 (not_strays_returning nofun) (not_strays_returning nofun)⟩,
    ⟨rfl, (hnodes breaking _ _ rfl).2 not_strays_breaking⟩,
    ⟨rfl, hloops default loopOverBreak _ _ rfl⟩, ⟨rfl, hwhiles default breaking returning _ _ rfl⟩,
    ⟨rfl, hcalls default breaking [] _ _ rfl⟩, rfl, hinvokes default breaking "member" [] _ _ rfl⟩

/-- A `break` in the body of a loop does not stray, although it would alone. -/
example : breaking.Strays .break ∧
    ¬ Node.Strays .break (.mk default (.loopWhile (.mk default (.literal (.boolean true))) breaking)) := by
  refine ⟨.here rfl, fun hloop => ?_⟩
  cases hloop with
  | here hjump => cases hjump
  | inside hpart hcondition =>
    obtain rfl := List.mem_singleton.mp hpart
    cases hcondition with
    | here hjump => cases hjump
    | inside hpart _ => cases hpart

end Ckl
