import Ckl.Proofs.Run.Call
import Mathlib.Order.ConditionallyCompleteLattice.Basic

/-!
# Moments of runs

What holds at the end of a run may have failed to hold on the way. To speak about the way, a run is cut: it
ends, without an answer, where a node is to be evaluated at which the cut is made. The stores in which the
cut runs end are the moments of the run, and of two cuts the one that is made at more nodes gives the
earlier moment. A run that is cut nowhere is evaluation as it is. Where two cuts are to be told apart, a run
is watched: it is brought to different stops by them.

For a discipline of families the cuts are an index like any other, so that evaluation follows it with all
cuts at once.
-/

namespace Ckl

open Source (Position Node)

/-- Where runs are cut: before a node is evaluated in a frame, with the store as it is then. -/
abbrev Cut := Node → FrameRef → Store → Prop

/-- The cut at a single point. -/
def Cut.point (node : Node) (frame : FrameRef) (store : Store) : Cut := fun other inner moment =>
  other = node ∧ inner = frame ∧ moment = store

open Classical in
/-- Ends here if the run is cut here. -/
noncomputable def Run.checkpoint (cut : Cut) (node : Node) (frame : FrameRef) : Run Unit := fun store =>
  if cut node frame store then .error .exhausted store else .ok () store

/-- Where the cut is made work ends. -/
theorem Run.checkpoint_of_cut {cut : Cut} {node : Node} {frame : FrameRef} {store : Store}
    (h : cut node frame store) : checkpoint cut node frame store = .error .exhausted store :=
  if_pos h

/-- Where the cut is not made work goes on. -/
theorem Run.checkpoint_of_not {cut : Cut} {node : Node} {frame : FrameRef} {store : Store}
    (h : ¬ cut node frame store) : checkpoint cut node frame store = .ok () store :=
  if_neg h

/-- No cut is made anywhere. -/
theorem Run.checkpoint_bot (node : Node) (frame : FrameRef) : checkpoint ⊥ node frame = pure () := by
  funext store
  exact checkpoint_of_not fun h => h

/-- The evaluator with a bound, in runs that are cut. -/
noncomputable def evaluatorUntil (cut : Cut) : (bound : Nat) → Evaluator
  | 0 => evaluator 0
  | bound + 1 => {
    node := fun node frame => ⟨do
      Run.checkpoint cut node frame
      (step bound (evaluatorUntil cut bound) node frame).run⟩
    call := callStep (evaluatorUntil cut bound) }

/-- A run that is cut nowhere. -/
theorem evaluatorUntil_bot (bound : Nat) : evaluatorUntil ⊥ bound = evaluator bound := by
  induction bound with
  | zero => rfl
  | succ bound ih =>
    simp only [evaluatorUntil, ih, Run.checkpoint_bot, pure_bind]
    rfl

/-- What brings a run to a stop before a node is evaluated in a frame, with the store as it is then. -/
abbrev Watch := Node → FrameRef → Store → Option Stop

/-- Ends here if the watch stops the run. -/
def Run.watchpoint (watch : Watch) (node : Node) (frame : FrameRef) : Run Unit := fun store =>
  match watch node frame store with
  | some stop => .error stop store
  | none => .ok () store

/-- Where the watch has a stop work ends with it. -/
theorem Run.watchpoint_of_some {watch : Watch} {node : Node} {frame : FrameRef} {store : Store}
    {stop : Stop} (h : watch node frame store = some stop) :
    watchpoint watch node frame store = .error stop store := by
  simp only [watchpoint, h]

/-- Where the watch has no stop work goes on. -/
theorem Run.watchpoint_of_none {watch : Watch} {node : Node} {frame : FrameRef} {store : Store}
    (h : watch node frame store = none) : watchpoint watch node frame store = .ok () store := by
  simp only [watchpoint, h]

/-- The evaluator with a bound, in runs that are watched. -/
def evaluatorWatched (watch : Watch) : (bound : Nat) → Evaluator
  | 0 => evaluator 0
  | bound + 1 => {
    node := fun node frame => ⟨do
      Run.watchpoint watch node frame
      (step bound (evaluatorWatched watch bound) node frame).run⟩
    call := callStep (evaluatorWatched watch bound) }

/-- A cut is a watch: as far as it can be tested where it is made, cut runs can be computed. -/
theorem evaluatorUntil_eq_watched {cut : Cut} {watch : Watch}
    (hcut : ∀ {node frame store}, cut node frame store → watch node frame store = some .exhausted)
    (hnot : ∀ {node frame store}, ¬ cut node frame store → watch node frame store = none) (bound : Nat) :
    evaluatorUntil cut bound = evaluatorWatched watch bound := by
  have hpoint : ∀ node frame, Run.checkpoint cut node frame = Run.watchpoint watch node frame := by
    intro node frame
    funext store
    by_cases h : cut node frame store
    · rw [Run.checkpoint_of_cut h, Run.watchpoint_of_some (hcut h)]
    · rw [Run.checkpoint_of_not h, Run.watchpoint_of_none (hnot h)]
  induction bound with
  | zero => rfl
  | succ bound ih => simp only [evaluatorUntil, evaluatorWatched, ih, hpoint]

open Classical in
/-- Stops at a cut, and brings about the given stop where another cut is made before. -/
noncomputable def Cut.before (cut other : Cut) (stop : Stop) : Watch := fun node frame store =>
  if cut node frame store then some .exhausted
  else if other node frame store then some stop
  else none

/-- Where the first cut is made work ends as with it alone. -/
theorem Cut.before_of_cut {cut other : Cut} {stop : Stop} {node : Node} {frame : FrameRef} {store : Store}
    (h : cut node frame store) : cut.before other stop node frame store = some .exhausted :=
  if_pos h

/-- Where none of the cuts is made work goes on. -/
theorem Cut.before_of_not {cut other : Cut} {stop : Stop} {node : Node} {frame : FrameRef} {store : Store}
    (h : ¬ cut node frame store) (hother : ¬ other node frame store) :
    cut.before other stop node frame store = none :=
  (if_neg h).trans (if_neg hother)

/-- Where no other cut is made, runs are cut as they are. -/
theorem evaluatorUntil_eq_before (cut : Cut) (stop : Stop) (bound : Nat) :
    evaluatorUntil cut bound = evaluatorWatched (cut.before ⊥ stop) bound :=
  evaluatorUntil_eq_watched (fun h => Cut.before_of_cut h) (fun h => Cut.before_of_not h id) bound

/-- Where a cut is made nothing has been done of the node. -/
theorem evaluatorUntil_node_of_cut {cut : Cut} {node : Node} {frame : FrameRef} {store : Store}
    (h : cut node frame store) (bound : Nat) :
    ((evaluatorUntil cut bound).node node frame).run store = .error .exhausted store := by
  cases bound with
  | zero => rfl
  | succ bound =>
    exact Run.bind_of_error (Run.checkpoint_of_cut h)

/-- **Evaluation follows every discipline with all cuts**, if the discipline allows for cuts. -/
theorem Discipline.obeyed_until {d : Discipline Cut}
    (hcheck : ∀ inCall node frame,
      d.follows inCall (some frame) fun cut => Run.checkpoint cut node frame)
    (hsuits : ∀ bound, d.suits fun cut => evaluatorUntil cut bound) (bound : Nat) :
    d.Obeyed fun cut => evaluatorUntil cut bound := by
  induction bound with
  | zero =>
    exact ⟨fun _ _ _ => followsEval_lift d.exhausts, fun _ _ _ _ _ _ => d.exhausts, hsuits 0⟩
  | succ bound ih =>
    refine ⟨fun inCall node frame => ?_, fun _ _ ref arguments frame position => ?_,
      hsuits (bound + 1)⟩
    · exact d.andThen (hcheck inCall node frame) fun _ => followsEval_step ih frame bound node
    · exact follows_callStep ih frame position ref arguments

end Ckl
