import Ckl.Eval
import Ckl.Proofs.Run.Recorded
import Ckl.Proofs.Value.AtomSets

/-!
# Evaluations of operands

A chain of comparisons and an assignment with an operator stand for nodes in which some of the written
operands occur twice, and every occurrence is evaluated. An `Outline` is such a node with its operands
known by number. It is evaluated here together with a record of the operands whose evaluation begins:
without the record this is evaluation (`Outline.erase_recorded`), the record names at most the leaves of the
outline, in their order (`Outline.recorded_within`), and it names all of them where nothing may be left out
(`Outline.recorded_whole`) or a conjunction holds (`Outline.WholeIfHolds.and`). So an operand is evaluated as
often as it occurs at most, which is twice (`operands_evaluated`).
-/

namespace Ckl

open Source (Position Node Argument Link)

/-! ## Outlines -/

/-- A node that is put together from operands, which are known by number. -/
inductive Outline where
  | operand (number : Nat)
  | call (function : String) (position : Position) (left right : Outline)
  | and (left right : Outline)
  | index (position : Position) (target key : Outline)
  | assignIndex (position : Position) (target key value : Outline)

namespace Outline

open Recorded (silent begun)

/-- The node with the given operands. -/
def node (operands : Nat → Node) : Outline → Node
  | .operand number => operands number
  | .call function position left right =>
    .callOf function position [left.node operands, right.node operands]
  | .and left right => .mk (left.node operands).position (.and (left.node operands) (right.node operands))
  | .index position target key => .mk position (.index (target.node operands) (key.node operands))
  | .assignIndex position target key value =>
    .mk position (.assignIndex (target.node operands) (key.node operands) (value.node operands))

/-- The occurrences of operands, in the order of evaluation. -/
def leaves : Outline → List Nat
  | .operand number => [number]
  | .call _ _ left right | .and left right => left.leaves ++ right.leaves
  | .index _ target key => target.leaves ++ key.leaves
  | .assignIndex _ target key value => target.leaves ++ (key.leaves ++ value.leaves)

/-- Nothing in the outline may be left out. -/
def isStraight : Outline → Bool
  | .operand _ => true
  | .and _ _ => false
  | .call _ _ left right => left.isStraight && right.isStraight
  | .index _ target key => target.isStraight && key.isStraight
  | .assignIndex _ target key value => target.isStraight && key.isStraight && value.isStraight

section Evaluation

variable (operands : Nat → Node) (frame : FrameRef)

/-- The truth value that an evaluation gives. -/
def truth (outline : Outline) (work : Recorded (Except Exit Value)) : Recorded (Except Exit Bool) :=
  work.onResult fun value =>
    silent (Eval.ofRun (Run.check (outline.node operands).position value.asBool)).run

/-- The entries that an outline gives as an argument. An operand may be a spread one. -/
def argument (bound : Nat) (work : Recorded (Except Exit Value)) :
    Outline → Recorded (List (Argument Value))
  | .operand number => begun number (evaluateArgument (evaluator bound) frame ⟨none, operands number⟩)
  | outline => do
    match ← work with
    | .ok value => return [⟨none, value⟩]
    | .error exit => silent (Run.fail (.misplaced exit.jump) (outline.node operands).position)

/-- Evaluates the node, with a record of the operands whose evaluation begins. -/
def recorded : Outline → (bound : Nat) → Recorded (Except Exit Value)
  | .operand number, bound => begun number (evaluate bound (operands number) frame).run
  | .call _ _ _ _, 0 | .and _ _, 0 | .index _ _ _, 0 | .assignIndex _ _ _ _, 0 => silent Run.exhausted
  | .call function position left right, bound + 1 =>
    (silent (evaluate bound (.mk position (.name function)) frame).run).onResult fun value =>
    (silent (Eval.ofRun (Run.check position value.asFunction)).run).onResult fun ref => do
      let first ← argument operands frame bound (left.recorded bound) left
      let second ← argument operands frame bound (right.recorded bound) right
      silent (Eval.ofRun (Ckl.call bound ref [first, second].flatten frame position)).run
  | .and left right, bound + 1 =>
    (truth operands left (left.recorded bound)).onResult fun holds =>
      if holds then
        (truth operands right (right.recorded bound)).onResult fun holds => return .ok (.boolean holds)
      else return .ok (.boolean false)
  | .index position target key, bound + 1 =>
    (target.recorded bound).onResult fun target =>
    (key.recorded bound).onResult fun key =>
      silent (Eval.ofRun (do Run.check position (← Run.read (·.index target key)))).run
  | .assignIndex position target key value, bound + 1 =>
    (target.recorded bound).onResult fun target =>
    (key.recorded bound).onResult fun key =>
    (value.recorded bound).onResult fun value =>
    (silent (Eval.ofRun (Ckl.assignIndex target key value position)).run).onResult fun _ =>
      return .ok value

variable {operands frame}

/-- Without its record an operand is evaluated as an argument. -/
theorem erase_argument {outline : Outline} {bound : Nat}
    (h : (outline.recorded operands frame bound).erase =
      (evaluate bound (outline.node operands) frame).run) :
    (argument operands frame bound (outline.recorded operands frame bound) outline).erase =
      evaluateArgument (evaluator bound) frame ⟨none, outline.node operands⟩ := by
  -- only an operand can be a spread argument
  have hvalue : (do
      match ← outline.recorded operands frame bound with
      | .ok value => return [⟨none, value⟩]
      | .error exit => silent (Run.fail (.misplaced exit.jump) (outline.node operands).position) :
        Recorded (List (Argument Value))).erase = do
      return [⟨none, ← (evaluator bound).value (outline.node operands) frame⟩] := by
    rw [Recorded.erase_bind, h, Evaluator.value, bind_assoc]
    congr 1
    funext outcome
    cases outcome <;> rfl
  cases outline with
  | operand number => rfl
  | call | and | index | assignIndex => exact hvalue

/-- Two arguments are evaluated one after the other. -/
theorem evaluateArguments_pair (evaluator : Evaluator) (first second : Argument Node) :
    evaluateArguments evaluator frame [first, second] = do
      let first ← evaluateArgument evaluator frame first
      let second ← evaluateArgument evaluator frame second
      return [first, second].flatten := by
  simp [evaluateArguments]

/-- **Without the record this is evaluation.** -/
theorem erase_recorded (outline : Outline) (bound : Nat) :
    (outline.recorded operands frame bound).erase =
      (evaluate bound (outline.node operands) frame).run := by
  induction outline generalizing bound with
  | operand number => rfl
  | call function position left right ihl ihr =>
    cases bound with
    | zero => rfl
    | succ bound =>
      simp only [recorded, Recorded.erase_onResult, Recorded.erase_bind, erase_argument (ihl bound),
        erase_argument (ihr bound)]
      refine congrArg Eval.run (congrArg (Eval.andThen _) (funext fun value => ?_))
      refine congrArg (Eval.andThen _) (funext fun ref => ?_)
      show _ = Eval.andThen (Eval.ofRun (evaluateArguments (evaluator bound) frame
        [⟨none, left.node operands⟩, ⟨none, right.node operands⟩])) fun arguments =>
          Eval.ofRun (Ckl.call bound ref arguments frame position)
      rw [evaluateArguments_pair]
      simp [Eval.andThen, Eval.ofRun]
      rfl
  | and left right ihl ihr =>
    cases bound with
    | zero => rfl
    | succ bound =>
      simp only [recorded, truth, Recorded.erase_onResult, ihl]
      -- the right side is recorded, as it is evaluated, only if the left one holds
      refine congrArg Eval.run (congrArg (Eval.andThen _) (funext fun holds => ?_))
      cases holds with
      | false => rfl
      | true =>
        simp only [if_true, Recorded.erase_onResult, ihr]
        rfl
  | index position target key iht ihk =>
    cases bound with
    | zero => rfl
    | succ bound =>
      simp only [recorded, Recorded.erase_onResult, iht, ihk]
      rfl
  | assignIndex position target key value iht ihk ihv =>
    cases bound with
    | zero => rfl
    | succ bound =>
      simp only [recorded, Recorded.erase_onResult, iht, ihk, ihv]
      rfl

/-- The record of an argument stays within the leaves of its outline. -/
theorem argument_within {outline : Outline} {bound : Nat} {work : Recorded (Except Exit Value)}
    (h : work.Within outline.leaves) : (argument operands frame bound work outline).Within outline.leaves := by
  cases outline with
  | operand number => exact Recorded.within_begun number _
  | call | and | index | assignIndex =>
    exact h.bind_silent fun outcome => by cases outcome <;> exact Recorded.within_silent _ []

/-- The record of a condition stays within the leaves of its outline. -/
theorem truth_within {outline : Outline} {work : Recorded (Except Exit Value)}
    (h : work.Within outline.leaves) : (truth operands outline work).Within outline.leaves :=
  h.onResult_silent fun _ => Recorded.within_silent _ []

/-- **The record names leaves in their order.** -/
theorem recorded_within (outline : Outline) (bound : Nat) :
    (outline.recorded operands frame bound).Within outline.leaves := by
  induction outline generalizing bound with
  | operand number => exact Recorded.within_begun number _
  | call function position left right ihl ihr =>
    cases bound with
    | zero => exact Recorded.within_silent _ _
    | succ bound =>
      refine Recorded.within_silent_onResult fun value => Recorded.within_silent_onResult fun ref => ?_
      refine (argument_within (ihl bound)).bind fun first => ?_
      exact (argument_within (ihr bound)).bind_silent fun _ => Recorded.within_silent _ []
  | and left right ihl ihr =>
    cases bound with
    | zero => exact Recorded.within_silent _ _
    | succ bound =>
      refine (truth_within (ihl bound)).onResult fun holds => ?_
      cases holds with
      | false => exact Recorded.within_silent _ _
      | true => exact (truth_within (ihr bound)).onResult_silent fun _ => Recorded.within_silent _ []
  | index position target key iht ihk =>
    cases bound with
    | zero => exact Recorded.within_silent _ _
    | succ bound =>
      exact (iht bound).onResult fun _ => (ihk bound).onResult_silent fun _ =>
        Recorded.within_silent _ []
  | assignIndex position target key value iht ihk ihv =>
    cases bound with
    | zero => exact Recorded.within_silent _ _
    | succ bound =>
      refine (iht bound).onResult fun _ => (ihk bound).onResult fun _ => ?_
      exact (ihv bound).onResult_silent fun _ => Recorded.within_silent_onResult fun _ =>
        Recorded.within_silent _ []

/-! ### Complete records -/

/-- An argument with a whole record is covered whatever it gives. -/
theorem argument_covers {outline : Outline} {bound : Nat} {work : Recorded (Except Exit Value)}
    (h : work.Whole outline.leaves) :
    (argument operands frame bound work outline).Covers (fun _ => True) outline.leaves := by
  cases outline with
  | operand number => exact Recorded.covers_begun number _ _
  | call | and | index | assignIndex =>
    rw [← List.append_nil (leaves _)]
    refine h.bind (fun outcome => ?_) fun outcome store b after hrun _ => ?_
    · cases outcome <;> exact Recorded.covers_silent _ _
    · cases outcome with
      | ok value => trivial
      | error exit => cases hrun

/-- **Where nothing may be left out, the record of an evaluation that gives a value names all leaves.** -/
theorem recorded_whole {outline : Outline} (h : outline.isStraight = true) (bound : Nat) :
    (outline.recorded operands frame bound).Whole outline.leaves := by
  induction outline generalizing bound with
  | operand number => exact Recorded.covers_begun number _ _
  | and => cases h
  | call function position left right ihl ihr =>
    simp only [isStraight, Bool.and_eq_true] at h
    cases bound with
    | zero => exact Recorded.covers_exhausted _ _
    | succ bound =>
      refine Recorded.whole_silent_onResult fun value => Recorded.whole_silent_onResult fun ref => ?_
      refine (argument_covers (ihl h.1 bound)).bind (fun first => ?_) fun _ _ _ _ _ _ => trivial
      rw [← List.append_nil right.leaves]
      exact (argument_covers (ihr h.2 bound)).bind (fun _ => Recorded.covers_silent _ _)
        fun _ _ _ _ _ _ => trivial
  | index position target key iht ihk =>
    simp only [isStraight, Bool.and_eq_true] at h
    cases bound with
    | zero => exact Recorded.covers_exhausted _ _
    | succ bound =>
      exact (iht h.1 bound).onResult fun _ => (ihk h.2 bound).onResult_silent fun _ =>
        Recorded.covers_silent _ _
  | assignIndex position target key value iht ihk ihv =>
    simp only [isStraight, Bool.and_eq_true] at h
    cases bound with
    | zero => exact Recorded.covers_exhausted _ _
    | succ bound =>
      refine (iht h.1.1 bound).onResult fun _ => (ihk h.1.2 bound).onResult fun _ => ?_
      exact (ihv h.2 bound).onResult_silent fun _ => Recorded.whole_silent_onResult fun _ =>
        Recorded.covers_silent _ _

/-! ### Conjunctions that hold -/

/-- The truth value for what holds. -/
def Holds (value : Value) : Prop := value = .boolean true

/-- Where an evaluation gives that something holds, the record names all leaves. -/
abbrev WholeIfHolds (operands : Nat → Node) (frame : FrameRef) (outline : Outline) : Prop :=
  ∀ bound, (outline.recorded operands frame bound).Covers (Recorded.Gives Holds) outline.leaves

/-- Where nothing may be left out the record is whole. -/
theorem wholeIfHolds_of_isStraight {outline : Outline} (h : outline.isStraight = true) :
    WholeIfHolds operands frame outline := by
  refine fun bound => (recorded_whole h bound).mono fun outcome hholds => ?_
  cases outcome with
  | ok value => trivial
  | error exit => cases hholds

/-- A condition that is true is covered as the outline that gives it is. -/
theorem truth_covers {outline : Outline} {work : Recorded (Except Exit Value)}
    (h : work.Covers (Recorded.Gives Holds) outline.leaves) :
    (truth operands outline work).Covers (Recorded.Gives (· = true)) outline.leaves := by
  rw [← List.append_nil outline.leaves]
  refine h.onResult (fun _ => Recorded.covers_silent _ _) fun value store b after hrun hb => ?_
  subst hb
  cases value with
  | boolean value => cases hrun; rfl
  | _ => cases hrun

/-- If a conjunction holds, both sides have been evaluated, and they hold. -/
theorem WholeIfHolds.and {left right : Outline} (hl : WholeIfHolds operands frame left)
    (hr : WholeIfHolds operands frame right) : WholeIfHolds operands frame (.and left right) := by
  intro bound
  cases bound with
  | zero => exact Recorded.covers_exhausted _ _
  | succ bound =>
    refine (truth_covers (hl bound)).onResult (fun holds => ?_) fun holds store value after hrun hholds => ?_
    · cases holds with
      | false =>
        intro store outcome after hrun hholds
        cases hrun
        cases hholds
      | true =>
        rw [← List.append_nil right.leaves]
        refine (truth_covers (hr bound)).onResult (fun _ => Recorded.covers_silent _ _) ?_
        intro holds store value after hrun hholds
        cases hrun
        cases hholds
        rfl
    · cases holds with
      | true => rfl
      | false =>
        cases hrun
        cases hholds

/-- A conjunction of many outlines is whole if it holds and each of them is. -/
theorem wholeIfHolds_foldl_and {first : Outline} {outlines : List Outline}
    (hfirst : WholeIfHolds operands frame first)
    (h : ∀ outline ∈ outlines, WholeIfHolds operands frame outline) :
    WholeIfHolds operands frame (outlines.foldl .and first) := by
  induction outlines generalizing first with
  | nil => exact hfirst
  | cons outline outlines ih =>
    exact ih (hfirst.and (h outline List.mem_cons_self)) fun other hother =>
      h other (List.mem_cons_of_mem outline hother)

end Evaluation

/-! ## Chains of comparisons -/

/-- The links behind an operand: each has the operand before it and one of its own. -/
def links (first : Nat) : List Link → List Outline
  | [] => []
  | link :: rest =>
    .call link.function link.position (.operand first) (.operand (first + 1)) :: links (first + 1) rest

/-- A chain that begins with a link. -/
def chain (link : Link) (rest : List Link) : Outline :=
  (links 1 rest).foldl .and (.call link.function link.position (.operand 0) (.operand 1))

/-- The operands of a chain. -/
def chainOperands (left : Node) (links : List Link) (number : Nat) : Node :=
  ((left :: links.map Link.right)[number]?).getD left

/-- The outline of many conjunctions stands for the conjunction of the nodes. -/
theorem node_foldl_and (operands : Nat → Node) (first : Outline) (outlines : List Outline) :
    (outlines.foldl .and first).node operands =
      (first.node operands).conjunction (outlines.map fun outline => outline.node operands) := by
  induction outlines generalizing first with
  | nil => rfl
  | cons outline outlines ih => exact ih (.and first outline)

/-- The outlines of the links stand for the comparisons of a chain. -/
theorem map_node_links {operands : Nat → Node} {rest : List Link} {first : Nat}
    (h : ∀ k link, rest[k]? = some link → operands (first + 1 + k) = link.right) :
    (links first rest).map (fun outline => outline.node operands) = Link.calls (operands first) rest := by
  induction rest generalizing first with
  | nil => rfl
  | cons link rest ih =>
    have hright : operands (first + 1) = link.right := h 0 link rfl
    have hrest : ∀ k next, rest[k]? = some next → operands (first + 1 + 1 + k) = next.right :=
      fun k next hk => by rw [← h (k + 1) next hk]; congr 1; omega
    simp only [links, List.map_cons, ih hrest, Link.calls, node, hright]

/-- The outline of a chain stands for the chain. -/
theorem node_chain (left : Node) (link : Link) (rest : List Link) :
    (chain link rest).node (chainOperands left (link :: rest)) = Link.chain left (link :: rest) := by
  have hrest : ∀ k next, rest[k]? = some next →
      chainOperands left (link :: rest) (1 + 1 + k) = next.right := by
    intro k next hk
    rw [chainOperands, show 1 + 1 + k = (k + 1) + 1 by omega]
    simp [hk]
  rw [chain, node_foldl_and, map_node_links hrest]
  rfl

/-- The leaves of many conjunctions are those of their parts in order. -/
theorem leaves_foldl_and (first : Outline) (outlines : List Outline) :
    (outlines.foldl .and first).leaves = first.leaves ++ outlines.flatMap leaves := by
  induction outlines generalizing first with
  | nil => simp
  | cons outline outlines ih => simp [ih, leaves]

/-- Numbers in pairs with their successors. -/
def steps (first count : Nat) : List Nat := (List.range' first count).flatMap fun k => [k, k + 1]

/-- One step more, from the first operand to the next one. -/
theorem steps_succ (first count : Nat) :
    steps first (count + 1) = first :: (first + 1) :: steps (first + 1) count := by
  simp [steps, List.range'_succ]

/-- The leaves of the links go step by step along the operands. -/
theorem leaves_links (first : Nat) (rest : List Link) :
    (links first rest).flatMap leaves = steps first rest.length := by
  induction rest generalizing first with
  | nil => rfl
  | cons link rest ih => simp [links, leaves, ih, steps_succ]

/-- The leaves of a chain go step by step from its first operand. -/
theorem leaves_chain (link : Link) (rest : List Link) :
    (chain link rest).leaves = steps 0 (rest.length + 1) := by
  simp [chain, leaves_foldl_and, leaves_links, leaves, steps_succ]

/-- Nothing is left out within one comparison. -/
theorem isStraight_links {first : Nat} {rest : List Link} :
    ∀ outline ∈ links first rest, outline.isStraight = true := by
  induction rest generalizing first with
  | nil => exact nofun
  | cons link rest ih =>
    intro outline h
    rcases List.mem_cons.mp h with rfl | h
    · rfl
    · exact ih outline h

/-- A chain that holds has begun all of its operands. -/
theorem wholeIfHolds_chain (operands : Nat → Node) (frame : FrameRef) (link : Link) (rest : List Link) :
    WholeIfHolds operands frame (chain link rest) :=
  wholeIfHolds_foldl_and (wholeIfHolds_of_isStraight rfl) fun outline h =>
    wholeIfHolds_of_isStraight (isStraight_links outline h)

/-- All numbers but the first and the last one stand in two pairs. -/
theorem count_steps (first count number : Nat) : (steps first count).count number =
    (if first ≤ number ∧ number < first + count then 1 else 0) +
      if first < number ∧ number ≤ first + count then 1 else 0 := by
  induction count generalizing first with
  | zero =>
    rw [if_neg (by omega), if_neg (by omega)]
    rfl
  | succ count ih =>
    rw [steps_succ, List.count_cons, List.count_cons, ih]
    simp only [beq_iff_eq]
    split_ifs <;> omega

/-! ## Assignments with an operator -/

/-- An assignment with an operator to a place in a collection: the place is read where it is written. -/
def compound (position place : Position) (function : String) : Outline :=
  .assignIndex position (.operand 0) (.operand 1)
    (.call function place (.index position (.operand 0) (.operand 1)) (.operand 2))

/-- The operands of such an assignment: the collection, the index, and the operand of the operator. -/
def compoundOperands (target key operand : Node) : Nat → Node
  | 0 => target
  | 1 => key
  | _ => operand

/-- An assignment with an operator to an index stands for the outline. -/
theorem node_compound (position place : Position) (function : String) (target key operand : Node) :
    (Node.mk position (.index target key)).assigned
        (.callOf function place [.mk position (.index target key), operand]) =
      .ok ((compound position place function).node (compoundOperands target key operand)) := rfl

end Outline

open Outline (chain chainOperands compound compoundOperands steps)

/-- **How often operands are evaluated.** In an evaluation of a chain of comparisons the first and the last
operand are evaluated at most once, and each one between them at most twice: as the right operand of one
link and as the left operand of the next one. They are evaluated so often if the chain holds. In an
evaluation of an assignment with an operator to a place the collection and the index are evaluated at most
twice, for writing and for reading, and the operand of the operator at most once; they are evaluated so
often if the assignment succeeds. -/
theorem operands_evaluated (bound : Nat) (frame : FrameRef) :
    (∀ (left : Node) (link : Link) (rest : List Link),
      let work := (chain link rest).recorded (chainOperands left (link :: rest)) frame bound
      work.erase = (evaluate bound (Link.chain left (link :: rest)) frame).run ∧
      ∀ store, let record := (work.run store).2
        record.Sublist (steps 0 (rest.length + 1)) ∧
        (record.count 0 ≤ 1 ∧ record.count (rest.length + 1) ≤ 1 ∧ ∀ number, record.count number ≤ 2) ∧
        ∀ after, (work.run store).1 = .ok (.ok (.boolean true)) after →
          record = steps 0 (rest.length + 1)) ∧
    ∀ (position place : Position) (function : String) (target key operand : Node),
      ∃ node, (Node.mk position (.index target key)).assigned
          (.callOf function place [.mk position (.index target key), operand]) = .ok node ∧
        let work :=
          (compound position place function).recorded (compoundOperands target key operand) frame bound
        work.erase = (evaluate bound node frame).run ∧
        ∀ store, let record := (work.run store).2
          record.Sublist [0, 1, 0, 1, 2] ∧
          (record.count 0 ≤ 2 ∧ record.count 1 ≤ 2 ∧ record.count 2 ≤ 1) ∧
          ∀ value after, (work.run store).1 = .ok (.ok value) after → record = [0, 1, 0, 1, 2] := by
  constructor
  · intro left link rest
    refine ⟨by rw [Outline.erase_recorded, Outline.node_chain], fun store => ?_⟩
    have hsub : (((chain link rest).recorded (chainOperands left (link :: rest)) frame bound).run
        store).2.Sublist (chain link rest).leaves := Outline.recorded_within _ bound store
    rw [Outline.leaves_chain] at hsub
    -- in the steps the first and the last operand occur once, those between them twice
    have hcount := fun number => (hsub.count_le number).trans_eq (Outline.count_steps 0 _ number)
    refine ⟨hsub, ⟨(hcount 0).trans ?_, (hcount _).trans ?_, fun number => (hcount number).trans ?_⟩,
      fun after hrun => ?_⟩
    · split_ifs <;> omega
    · split_ifs <;> omega
    · split_ifs <;> omega
    · rw [← Outline.leaves_chain link rest]
      exact Outline.wholeIfHolds_chain _ frame link rest bound store _ after hrun rfl
  · intro position place function target key operand
    refine ⟨_, Outline.node_compound position place function target key operand,
      Outline.erase_recorded _ bound, fun store => ?_⟩
    have hsub : (((compound position place function).recorded (compoundOperands target key operand) frame
        bound).run store).2.Sublist [0, 1, 0, 1, 2] := Outline.recorded_within _ bound store
    refine ⟨hsub, ⟨hsub.count_le 0, hsub.count_le 1, hsub.count_le 2⟩, fun value after hrun => ?_⟩
    exact Outline.recorded_whole rfl bound store _ after hrun trivial

/-! ## An operand that counts its evaluations -/

/-- A number that is written out. -/
def written (n : Int64) : Node := .mk default (.literal (.int n))

/-- A call of `f` without arguments. -/
def countingCall : Node := .mk default (.call (.mk default (.name "f")) [])

/-- A store in which every call of `f` adds one to `n`, which is zero, and `l` is a list. -/
def countingStore : Store :=
  { Store.bare with
    lists := #[#[.int 10, .int 20, .int 30]]
    functions := #[.builtin .less, .builtin .add, .lambda {
      name := some "f", parameters := [], rest := none
      body := .mk default (.assign "n" (.callOf "add" default [.mk default (.name "n"), written 1])) } ⟨0⟩]
    frames := #[{ bindings := Bindings.empty.putAll [("n", .int 0), ("l", .list ⟨0⟩),
      ("less", .func ⟨0⟩), ("add", .func ⟨1⟩), ("f", .func ⟨2⟩)] }] }

/-- In `0 < f() < 9` and in `l[f()] += 5` the call is evaluated twice. -/
theorem operand_evaluated_twice :
    (∃ after, ((chain ⟨"less", default, countingCall⟩ [⟨"less", default, written 9⟩]).recorded
        (chainOperands (written 0) [⟨"less", default, countingCall⟩, ⟨"less", default, written 9⟩]) ⟨0⟩
        9).run countingStore = (.ok (.ok (.boolean true)) after, [0, 1, 1, 2]) ∧
      after.getLocal? ⟨0⟩ "n" = some (.int 2)) ∧
    ∃ after, ((compound default default "add").recorded
        (compoundOperands (.mk default (.name "l")) countingCall (written 5)) ⟨0⟩ 9).run countingStore =
          (.ok (.ok (.int 35)) after, [0, 1, 0, 1, 2]) ∧
      after.getLocal? ⟨0⟩ "n" = some (.int 2) :=
  ⟨⟨_, rfl, rfl⟩, _, rfl, rfl⟩

end Ckl
