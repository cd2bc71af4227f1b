import Mathlib.Data.List.Forall2
import Ckl.Proofs.Module.Registry

/-!
# Names that are bound for a while

Loops and handlers bind names in the frame in which they are evaluated, and give them back what they were
bound to. What is evaluated in between may do anything to these names: restoring does not depend on it,
except that the frame is still there. The items of a loop over a container are settled before the first
round, so that only the end of the rounds depends on what they do.
-/

namespace Ckl

open Source (Position Node Selection lastErrorName)

namespace Bindings

variable {α : Type} (bindings : Bindings α)

/-- A name that has been taken away has no value. -/
theorem get?_erase_self (name : String) : (bindings.erase name).get? name = none := by
  simp [get?, erase, List.find?_eq_none]

/-- Other names keep their values. -/
theorem get?_erase_of_ne {name other : String} (h : other ≠ name) :
    (bindings.erase name).get? other = bindings.get? other := by
  rw [get?, erase, List.find?_filter, get?]
  congr 2
  funext entry
  by_cases heq : entry.1 = other
  · simp [heq, h]
  · simp [heq]

end Bindings

/-! ## Restoring -/

namespace Store

variable {store : Store} {frame : FrameRef} {name other : String} {before : Option Value}

/-- The store with the former meaning of a name in a frame. -/
def restored (store : Store) (frame : FrameRef) (entry : String × Option Value) : Store :=
  match entry.2 with
  | some value => (store.undefine frame entry.1).define frame entry.1 value
  | none => store.undefine frame entry.1

@[simp] theorem size_restored (entry : String × Option Value) :
    (store.restored frame entry).frames.size = store.frames.size := by
  unfold restored
  split <;> simp [undefine, define]

/-- What a frame that exists gives after a change of its bindings. -/
theorem getLocal?_changeBindings (h : frame.index < store.frames.size)
    (change : Bindings Value → Bindings Value) (name : String) :
    (store.changeBindings frame change).getLocal? frame name =
      (change (store.frame frame).bindings).get? name := by
  rw [getLocal?, frame_changeBindings h]

/-- Frames that do not exist bind nothing. -/
theorem getLocal?_beyond (h : store.frames.size ≤ frame.index) (name : String) :
    store.getLocal? frame name = none := by
  rw [getLocal?, Store.frame, Array.getElem?_eq_none h]
  rfl

/-- A frame that binds a name exists. -/
theorem exists_of_getLocal? (h : (store.getLocal? frame name).isSome = true) :
    frame.index < store.frames.size := by
  refine Nat.lt_of_not_le fun hge => ?_
  rw [getLocal?_beyond hge] at h
  cases h

/-- The restored name has its former meaning. -/
theorem getLocal?_restored_self (hexists : before.isSome = true → frame.index < store.frames.size) :
    (store.restored frame (name, before)).getLocal? frame name = before := by
  by_cases hlt : frame.index < store.frames.size
  · have hundefine : (store.undefine frame name).getLocal? frame name = none := by
      rw [undefine, getLocal?_changeBindings hlt, Bindings.get?_erase_self]
    cases before with
    | none => exact hundefine
    | some value =>
      have hlt' : frame.index < (store.undefine frame name).frames.size := by simpa [undefine] using hlt
      show ((store.undefine frame name).define frame name value).getLocal? frame name = some value
      rw [define, getLocal?_changeBindings hlt', Bindings.get?_put_self]
  · cases before with
    | none => exact getLocal?_beyond (by simpa using hlt) name
    | some value => exact absurd (hexists rfl) hlt

/-- The other names keep what they are bound to. -/
theorem getLocal?_restored_of_ne (h : other ≠ name) :
    (store.restored frame (name, before)).getLocal? frame other = store.getLocal? frame other := by
  by_cases hlt : frame.index < store.frames.size
  · have hundefine : (store.undefine frame name).getLocal? frame other = store.getLocal? frame other := by
      rw [undefine, getLocal?_changeBindings hlt, Bindings.get?_erase_of_ne _ h, getLocal?]
    cases before with
    | none => exact hundefine
    | some value =>
      have hlt' : frame.index < (store.undefine frame name).frames.size := by simpa [undefine] using hlt
      show ((store.undefine frame name).define frame name value).getLocal? frame other = _
      rw [define, getLocal?_changeBindings hlt', Bindings.get?_put_of_ne _ _ _ h, ← getLocal?, hundefine]
  · have hge := Nat.le_of_not_lt hlt
    rw [getLocal?_beyond (by simpa using hge), getLocal?_beyond hge]

/-- Once names have been restored one after the other, each has its former meaning: a name that comes up
several times is given the same meaning each time. -/
theorem getLocal?_foldl_restored {saved : String → Option Value} {names : List String}
    (hexists : ∀ name, (saved name).isSome = true → frame.index < store.frames.size)
    (hname : name ∈ names ∨ store.getLocal? frame name = saved name) :
    ((names.map fun name => (name, saved name)).foldl (fun store entry => store.restored frame entry)
      store).getLocal? frame name = saved name := by
  induction names generalizing store with
  | nil => exact hname.resolve_left List.not_mem_nil
  | cons first names ih =>
    refine ih (by simpa using hexists) ?_
    by_cases hfirst : name = first
    · subst hfirst
      exact .inr (getLocal?_restored_self (hexists name))
    · rw [getLocal?_restored_of_ne hfirst]
      exact hname.imp_left fun hmem => (List.mem_cons.mp hmem).resolve_left hfirst

end Store

/-- Restoring one name is a change of the store without a failure. -/
theorem Run.restore_eq (frame : FrameRef) (name : String) (before : Option Value) (store : Store) :
    Run.restore frame name before store = .ok () (store.restored frame (name, before)) := by
  cases before <;> rfl

/-- Restoring names changes the store name by name. -/
theorem restoreAll_eq (frame : FrameRef) (before : List (String × Option Value)) (store : Store) :
    restoreAll frame before store =
      .ok () (before.foldl (fun store entry => store.restored frame entry) store) := by
  induction before generalizing store with
  | nil => rfl
  | cons entry before ih =>
    exact (Run.bind_of_ok (Run.restore_eq frame entry.1 entry.2 store)).trans (ih _)

/-- An attempt that has an answer ends where the work ends. -/
theorem Run.attempt_of_answered {α : Type} {work : Run α} {store : Store} (h : Answered (work store)) :
    ∃ outcome, Run.attempt work store = .ok outcome (work.after store) := by
  unfold attempt after
  cases hrun : work store with
  | ok value later => exact ⟨.ok value, rfl⟩
  | error stop later =>
    cases stop with
    | failed failure => exact ⟨.error failure, rfl⟩
    | exhausted => rw [hrun] at h; cases h
    | awaiting path => rw [hrun] at h; cases h

/-- An attempt depends only on what the work does in the store. -/
theorem Run.attempt_congr {α : Type} {work other : Run α} {store : Store} (h : work store = other store) :
    Run.attempt work store = Run.attempt other store := by
  rw [Run.attempt, Run.attempt, h]

/-- A failure is the result of the attempt. -/
theorem Run.attempt_of_failed {α : Type} {work : Run α} {failure : Failure} {store after : Store}
    (h : work store = .error (.failed failure) after) :
    Run.attempt work store = .ok (.error failure) after := by
  rw [Run.attempt, h]

/-- A conclusion leaves the store as it is. -/
theorem Run.conclude_end {α : Type} (outcome : Except Failure α) (store : Store) :
    endOf (Run.conclude outcome store) = store := by
  cases outcome <;> rfl

/-- What has an answer has one up to the end of an attempt. -/
theorem Run.answered_of_attempt_bind {α β : Type} {work : Run α} {next : Except Failure α → Run β}
    {store : Store} (h : Answered ((Run.attempt work >>= next) store)) : Answered (work store) := by
  rw [← answered_attempt_iff]
  cases hrun : Run.attempt work store with
  | ok outcome later => trivial
  | error stop later =>
    rw [bind_of_error hrun] at h
    cases stop with
    | failed failure => trivial
    | exhausted => cases h
    | awaiting path => cases h

/-- Work that does the same in the store can be put in its place. -/
theorem Run.bind_congr {α β : Type} {work other : Run α} {next : α → Run β} {store : Store}
    (h : work store = other store) : (work >>= next) store = (other >>= next) store := by
  show EStateM.bind work next store = EStateM.bind other next store
  rw [EStateM.bind, EStateM.bind, h]

/-! ## Handlers -/

/-- A handler leaves the meaning of its name as it was. -/
theorem getLocal?_runHandler {evaluator : Evaluator} {frame : FrameRef} {caught : Caught}
    {handler : Source.Handler Node} {store : Store}
    (hgrows : ∀ moment : Store, moment.frames.size ≤
      ((evaluateSequence evaluator frame handler.body).run.after moment).frames.size)
    (hanswered : Answered (runHandler evaluator frame caught handler store)) :
    (endOf (runHandler evaluator frame caught handler store)).getLocal? frame lastErrorName =
      store.getLocal? frame lastErrorName := by
  let lent := store.restored frame (lastErrorName, some caught.shown)
  have hrun : runHandler evaluator frame caught handler store =
      (Run.attempt (evaluateSequence evaluator frame handler.body).run >>= fun outcome => do
        Run.restore frame lastErrorName (store.getLocal? frame lastErrorName)
        Run.conclude outcome) lent := by
    rw [runHandler, Run.read_bind, Run.bind_of_ok (Run.restore_eq ..)]
  rw [hrun] at hanswered ⊢
  obtain ⟨outcome, hattempt⟩ := Run.attempt_of_answered (Run.answered_of_attempt_bind hanswered)
  rw [Run.bind_of_ok hattempt, Run.bind_of_ok (Run.restore_eq ..), Run.conclude_end]
  refine Store.getLocal?_restored_self fun hsome => ?_
  refine Nat.lt_of_lt_of_le ?_ (hgrows lent)
  simpa [lent] using Store.exists_of_getLocal? hsome

/-! ## Loops -/

/-- What is done with an item of a loop. -/
def loopBody (evaluator : Evaluator) (parts : Source.Loop Node) (frame : FrameRef) (position : Position)
    (item : Value) : Eval Value := do
  bindItem parts frame position item
  evaluator.node parts.body frame

/-- A loop once it is settled what it runs over. -/
def loopOver (evaluator : Evaluator) (parts : Source.Loop Node) (frame : FrameRef) (position : Position)
    (iteration : Iteration) : Run (Except Exit Value) := do
  let before ← Run.read fun store => parts.names.map fun name => (name, store.getLocal? frame name)
  let rounds ← Run.read fun store => iteration.rounds store
  let outcome ← Run.attempt
    (iteration.loop (loopBody evaluator parts frame position) rounds .null).run
  restoreAll frame before
  Run.conclude outcome

/-- A loop after its source has been evaluated. -/
theorem evaluateLoop_of_source {evaluator : Evaluator} {parts : Source.Loop Node} {frame : FrameRef}
    {position : Position} {source : Value} {store middle : Store}
    (hsource : (evaluator.node parts.source frame).run store = .ok (.ok source) middle) :
    (evaluateLoop evaluator parts frame position).run store =
      (Iteration.ofSource source parts.selection position >>=
        loopOver evaluator parts frame position) middle := by
  show (((evaluator.node parts.source frame).run >>= _) store : EStateM.Result ..) = _
  rw [Run.bind_of_ok hsource]
  simp only [Discipline.run_lift_bind]
  rfl

/-- A loop leaves the meanings of its names as they were. -/
theorem getLocal?_loopOver {evaluator : Evaluator} {parts : Source.Loop Node} {frame : FrameRef}
    {position : Position} {iteration : Iteration} {store : Store}
    (hgrows : ∀ moment rounds, moment.frames.size ≤ ((iteration.loop
      (loopBody evaluator parts frame position) rounds .null).run.after moment).frames.size)
    (hanswered : Answered (loopOver evaluator parts frame position iteration store)) {name : String}
    (hname : name ∈ parts.names) :
    (endOf (loopOver evaluator parts frame position iteration store)).getLocal? frame name =
      store.getLocal? frame name := by
  let work := (iteration.loop (loopBody evaluator parts frame position) (iteration.rounds store) .null).run
  have hrun : loopOver evaluator parts frame position iteration store =
      (Run.attempt work >>= fun outcome => do
        restoreAll frame (parts.names.map fun name => (name, store.getLocal? frame name))
        Run.conclude outcome) store := by
    rw [loopOver, Run.read_bind, Run.read_bind]
  rw [hrun] at hanswered ⊢
  obtain ⟨outcome, hattempt⟩ := Run.attempt_of_answered (Run.answered_of_attempt_bind hanswered)
  rw [Run.bind_of_ok hattempt, Run.bind_of_ok (restoreAll_eq ..), Run.conclude_end]
  refine Store.getLocal?_foldl_restored (fun other hsome => ?_) (.inl hname)
  exact Nat.lt_of_lt_of_le (Store.exists_of_getLocal? hsome) (hgrows store _)

/-! ## Items -/

namespace Iteration

/-- The items for which a loop runs its body, in order. -/
def visits (body : Value → Eval Value) : (rounds : Nat) → Iteration → Store → List Value
  | 0, _, _ => []
  | rounds + 1, iteration, store =>
    match iteration.next? store with
    | .ok (some (item, rest)) middle =>
      item :: match (body item).run middle with
        | .ok (.ok _) after | .ok (.error .continue) after => visits body rounds rest after
        | _ => []
    | _ => []

variable {body : Value → Eval Value} {store : Store}

/-- The first item is visited, and the others as long as the body goes on. -/
theorem visits_items_cons (rounds : Nat) (item : Value) (items : List Value) :
    visits body (rounds + 1) (.items (item :: items)) store =
      item :: match (body item).run store with
        | .ok (.ok _) after | .ok (.error .continue) after => visits body rounds (.items items) after
        | _ => [] := rfl

/-- The visited items are the first ones of the snapshot. -/
theorem visits_prefix (rounds : Nat) (items : List Value) :
    visits body rounds (.items items) store <+: items := by
  induction rounds generalizing items store with
  | zero => exact List.nil_prefix
  | succ rounds ih =>
    cases items with
    | nil => exact List.nil_prefix
    | cons item items =>
      rw [visits_items_cons, List.prefix_cons_inj]
      split
      · exact ih items
      · exact ih items
      · exact List.nil_prefix

/-- One round of a loop over items. -/
theorem loop_items_cons (rounds : Nat) (item : Value) (items : List Value) (last : Value) (store : Store) :
    (loop body (rounds + 1) (.items (item :: items)) last).run store =
      match (body item).run store with
      | .ok (.ok value) after => (loop body rounds (.items items) value).run after
      | .ok (.error .break) after => .ok (.ok last) after
      | .ok (.error .continue) after => (loop body rounds (.items items) last).run after
      | .ok (.error (.return value)) after => .ok (.error (.return value)) after
      | .error stop after => .error stop after := by
  rw [loop, Discipline.run_lift_bind]
  show (((liftM (body item).run : Eval (Except Exit Value)) >>= _).run) store = _
  rw [Discipline.run_lift_bind]
  cases hrun : (body item).run store with
  | error stop after => exact Run.bind_of_error hrun
  | ok outcome after =>
    rw [Run.bind_of_ok hrun]
    rcases outcome with (_ | _ | _) | _ <;> rfl

/-- A loop over items has enough rounds if it has one for each item. -/
theorem loop_items_rounds {rounds : Nat} {items : List Value} (h : items.length ≤ rounds) (last : Value) :
    (loop body rounds (.items items) last).run = (loop body items.length (.items items) last).run := by
  funext store
  induction items generalizing rounds last store with
  | nil => cases rounds <;> rfl
  | cons item items ih =>
    obtain ⟨rounds, rfl⟩ := Nat.exists_eq_add_one.mpr (Nat.lt_of_lt_of_le (Nat.succ_pos _) h)
    have hle : items.length ≤ rounds := Nat.le_of_succ_le_succ h
    rw [List.length_cons, loop_items_cons, loop_items_cons]
    split
    · exact ih hle _ _
    · rfl
    · exact ih hle _ _
    · rfl
    · rfl

/-- A loop does what the loop over the items that it visits does. -/
theorem loop_visits (rounds : Nat) (items : List Value) (last : Value) (store : Store) :
    (loop body rounds (.items items) last).run store =
      (loop body rounds (.items (visits body rounds (.items items) store)) last).run store := by
  induction rounds generalizing items last store with
  | zero => rfl
  | succ rounds ih =>
    cases items with
    | nil => rfl
    | cons item items =>
      rw [visits_items_cons, loop_items_cons, loop_items_cons]
      cases hrun : (body item).run store with
      | error stop after => rfl
      | ok outcome after =>
        rcases outcome with (_ | _ | _) | _
        · rfl
        · exact ih items last after
        · rfl
        · exact ih items _ after

end Iteration

/-- A whole loop does what the loop over the items that it visits does. -/
theorem loopOver_visits (evaluator : Evaluator) (parts : Source.Loop Node) (frame : FrameRef)
    (position : Position) (items : List Value) (store : Store) :
    loopOver evaluator parts frame position (.items items) store =
      loopOver evaluator parts frame position (.items (Iteration.visits
        (loopBody evaluator parts frame position) items.length (.items items) store)) store := by
  let body := loopBody evaluator parts frame position
  let visited := Iteration.visits body items.length (.items items) store
  have hloop : (Iteration.loop body items.length (.items items) .null).run store =
      (Iteration.loop body visited.length (.items visited) .null).run store := by
    rw [Iteration.loop_visits]
    exact congrFun (Iteration.loop_items_rounds (Iteration.visits_prefix ..).length_le .null) store
  have hattempt : Run.attempt (Iteration.loop body items.length (.items items) .null).run store =
      Run.attempt (Iteration.loop body visited.length (.items visited) .null).run store :=
    Run.attempt_congr hloop
  rw [loopOver, loopOver, Run.read_bind, Run.read_bind, Run.read_bind, Run.read_bind]
  exact Run.bind_congr hattempt

/-! ## Snapshots -/

/-- What a loop finds in a container: a value, or a key with its value. -/
inductive Shown where
  | alone (value : Value)
  | pair (key value : Value)

/-- The selected parts of entries. -/
def Shown.ofEntries (selection : Selection) (entries : List (Value × Value)) : List Shown :=
  match selection with
  | .items | .keys => entries.map fun entry => .alone entry.1
  | .values => entries.map fun entry => .alone entry.2
  | .entries => entries.map fun entry => .pair entry.1 entry.2

/-- The item that stands for what has been found: a value itself, or a new list of a key and its value. -/
def Shown.Is (store after : Store) : Shown → Value → Prop
  | .alone value, item => item = value
  | .pair key value, item =>
    ∃ ref, item = .list ref ∧ store.lists.size ≤ ref.index ∧ after.items ref = #[key, value]

/-- What a loop finds in a container at a moment: the elements of a list or their indices, those of a set
in order, the entries of a map in the order of their keys, the members of an object, or the characters of
a text. Streams are read line by line, and other values cannot be run over. -/
def Store.shown? (store : Store) (selection : Selection) : Value → Option (List Shown)
  | .list ref =>
    match selection with
    | .items => some ((store.items ref).toList.map .alone)
    | selection => some (Shown.ofEntries selection (Iteration.numbered (store.items ref).toList))
  | .set ref => some ((store.sortedKeys ref).map .alone)
  | .map ref => some (Shown.ofEntries selection (store.sortedEntries ref))
  | .object ref => some (Shown.ofEntries selection
      ((store.members ref).entries.map fun entry => (.string entry.1, entry.2)))
  | .string text => some ((Text.graphemes text).map fun character => .alone (.string character))
  | _ => none

/-- Pairs are stored as new lists, and nothing else is changed. -/
theorem Run.placePairs_end (pairs : List (Value × Value)) (store : Store) :
    ∃ items after, placePairs pairs store = .ok items after ∧ after.frames = store.frames ∧
      (∀ index < store.lists.size, after.lists[index]? = store.lists[index]?) ∧
        List.Forall₂ (Shown.Is store after) (pairs.map fun pair => .pair pair.1 pair.2) items := by
  induction pairs generalizing store with
  | nil => exact ⟨[], store, rfl, rfl, fun _ _ => rfl, .nil⟩
  | cons pair pairs ih =>
    let first := store.place (.list #[pair.1, pair.2])
    obtain ⟨items, after, hrun, hframes, hlists, hitems⟩ := ih first.2
    have hsize : first.2.lists.size = store.lists.size + 1 := Array.size_push ..
    refine ⟨first.1 :: items, after, ?_, hframes, fun index hlt => ?_, .cons ?_ (hitems.imp ?_)⟩
    · have hplace : placeList [pair.1, pair.2] store = .ok first.1 first.2 := rfl
      rw [placePairs] at hrun ⊢
      rw [List.mapM_cons, bind_of_ok hplace, bind_of_ok hrun]
      rfl
    · rw [hlists index (by omega)]
      exact (Array.getElem?_push_lt hlt).trans (Array.getElem?_eq_getElem hlt).symm
    · refine ⟨⟨store.lists.size⟩, rfl, Nat.le_refl _, ?_⟩
      have hfirst : first.2.lists[store.lists.size]? = some #[pair.1, pair.2] := Array.getElem?_push_size
      show after.lists[store.lists.size]?.getD #[] = _
      rw [hlists _ (by omega), hfirst, Option.getD_some]
    · intro shown item his
      cases shown with
      | alone value => exact his
      | pair key value =>
        obtain ⟨ref, hitem, hnew, hheld⟩ := his
        exact ⟨ref, hitem, by omega, hheld⟩

namespace Iteration

/-- Items that stand alone are shown as themselves. -/
theorem forall₂_alone (store after : Store) (items : List Value) :
    List.Forall₂ (Shown.Is store after) (items.map .alone) items := by
  induction items with
  | nil => exact .nil
  | cons item items ih => exact .cons rfl ih

/-- The items of a map or an object show its keys, its values or both, and no frame is changed. -/
theorem ofEntries_end (selection : Selection) (entries : List (Value × Value)) (store : Store) :
    ∃ items after, ofEntries selection entries store = .ok (.items items) after ∧
      after.frames = store.frames ∧
        List.Forall₂ (Shown.Is store after) (Shown.ofEntries selection entries) items := by
  cases selection with
  | items =>
    refine ⟨_, store, rfl, rfl, ?_⟩
    simpa [Shown.ofEntries] using forall₂_alone store store (entries.map Prod.fst)
  | keys =>
    refine ⟨_, store, rfl, rfl, ?_⟩
    simpa [Shown.ofEntries] using forall₂_alone store store (entries.map Prod.fst)
  | values =>
    refine ⟨_, store, rfl, rfl, ?_⟩
    simpa [Shown.ofEntries] using forall₂_alone store store (entries.map Prod.snd)
  | entries =>
    obtain ⟨items, after, hrun, hframes, -, hitems⟩ := Run.placePairs_end entries store
    exact ⟨items, after, Run.bind_of_ok hrun, hframes, hitems⟩

/-- An iteration over a container starts with all that is found in it at that moment. -/
theorem ofSource_container {store : Store} {source : Value} {selection : Selection} {shown : List Shown}
    (hshown : store.shown? selection source = some shown) (position : Position) :
    ∃ items after, ofSource source selection position store = .ok (.items items) after ∧
      after.frames = store.frames ∧ List.Forall₂ (Shown.Is store after) shown items := by
  cases source with
  | list ref =>
    have hvalues : (numbered (store.items ref).toList).map (·.2) = (store.items ref).toList := by
      rw [numbered, List.map_map]
      exact List.zipIdx_map_fst 0 _
    cases selection with
    | items =>
      cases hshown
      exact ⟨_, store, rfl, rfl, forall₂_alone ..⟩
    | values =>
      cases hshown
      refine ⟨_, store, rfl, rfl, ?_⟩
      have hall := forall₂_alone store store ((numbered (store.items ref).toList).map (·.2))
      rw [List.map_map] at hall
      rw [hvalues] at hall
      exact hall
    | keys =>
      cases hshown
      exact ofEntries_end .keys _ store
    | entries =>
      cases hshown
      exact ofEntries_end .entries _ store
  | set ref =>
    cases hshown
    exact ⟨_, store, rfl, rfl, forall₂_alone ..⟩
  | map ref =>
    cases hshown
    exact ofEntries_end selection _ store
  | object ref =>
    cases hshown
    exact ofEntries_end selection _ store
  | string text =>
    cases hshown
    refine ⟨_, store, rfl, rfl, ?_⟩
    simpa [Function.comp_def] using forall₂_alone store store ((Text.graphemes text).map .string)
  | _ => cases hshown

/-- Other values are streams, or there is no loop. -/
theorem ofSource_other {store : Store} {source : Value} {selection : Selection}
    (hshown : store.shown? selection source = none) (position : Position) :
    (∃ ref, source = .input ref ∧ ofSource source selection position store = .ok (.lines ref) store) ∨
      ofSource source selection position store =
        .error (.failed (.runtime (.unusable .iterate source.type) position)) store := by
  cases source with
  | input ref => exact .inl ⟨ref, rfl, rfl⟩
  | list ref => cases selection <;> cases hshown
  | set | map | object | string => cases hshown
  | _ => exact .inr rfl

end Iteration

/-! ## Loops and handlers in runs -/

/-- The rounds of a loop take no frame away. -/
theorem size_le_loop (bound : Nat) (parts : Source.Loop Node) (frame : FrameRef) (position : Position)
    (iteration : Iteration) (rounds : Nat) (moment : Store) :
    moment.frames.size ≤ ((iteration.loop (loopBody (evaluator bound) parts frame position) rounds
      .null).run.after moment).frames.size := by
  have hobeyed := namesKept_obeyed bound
  have hbody : ∀ item, namesKept.followsEval false (some frame) fun _ : Unit =>
      loopBody (evaluator bound) parts frame position item := fun item =>
    Discipline.followsEval_bind
      (Discipline.followsEval_lift (Discipline.follows_bindItem frame parts position item)) fun _ =>
        hobeyed.node false parts.body frame
  exact (Discipline.followsEval_loop hbody rounds iteration .null moment).grows

/-- Nodes in sequence take no frame away. -/
theorem size_le_sequence (bound : Nat) (nodes : List Node) (frame : FrameRef) (moment : Store) :
    moment.frames.size ≤
      ((evaluateSequence (evaluator bound) frame nodes).run.after moment).frames.size := by
  have hfollows : namesKept.followsEval false (some frame) fun _ : Unit =>
      evaluateSequence (evaluator bound) frame nodes :=
    Discipline.followsEval_sequence (namesKept_obeyed bound) frame nodes
  exact (hfollows moment).grows

/-- **Names that are bound for a while do not leak.** However a loop ends, each of its names is bound in
the frame as it was when the source of the loop had been evaluated. If the source is a container, the loop
runs over what it held at that moment: it visits a prefix of these items, and does what the loop over the
items of the prefix would do. However a handler ends, the name of the error is bound in the frame as it
was. -/
theorem temporary_names_restored (bound : Nat) (frame : FrameRef) (store : Store) :
    (∀ parts position source middle,
      (evaluate bound parts.source frame).run store = .ok (.ok source) middle →
        let ended := (evaluate (bound + 1) (.mk position (.loop parts)) frame).run store
        (Answered ended → ∀ name ∈ parts.names,
          (endOf ended).getLocal? frame name = middle.getLocal? frame name) ∧
        ∀ shown, middle.shown? parts.selection source = some shown → ∃ items after,
          List.Forall₂ (Shown.Is middle after) shown items ∧
          let visited := Iteration.visits (loopBody (evaluator bound) parts frame position) items.length
            (.items items) after
          visited <+: items ∧
            ended = loopOver (evaluator bound) parts frame position (.items items) after ∧
            ended = loopOver (evaluator bound) parts frame position (.items visited) after) ∧
    ∀ caught handler, Answered (runHandler (evaluator bound) frame caught handler store) →
      (endOf (runHandler (evaluator bound) frame caught handler store)).getLocal? frame lastErrorName =
        store.getLocal? frame lastErrorName := by
  refine ⟨fun parts position source middle hsource => ?_, fun caught handler hanswered => ?_⟩
  · have hended : (evaluate (bound + 1) (.mk position (.loop parts)) frame).run store =
        (Iteration.ofSource source parts.selection position >>=
          loopOver (evaluator bound) parts frame position) middle :=
      @evaluateLoop_of_source (evaluator bound) _ _ _ _ _ _ hsource
    -- the former meanings are those at the end of the source, since taking the snapshot changes no frame
    have hrestored : ∀ iteration (after : Store), after.frames = middle.frames →
        Answered (loopOver (evaluator bound) parts frame position iteration after) →
          ∀ name ∈ parts.names,
            (endOf (loopOver (evaluator bound) parts frame position iteration after)).getLocal? frame name =
              middle.getLocal? frame name := by
      intro iteration after hframes hanswered name hname
      rw [getLocal?_loopOver (fun moment rounds => size_le_loop bound parts frame position iteration
        rounds moment) hanswered hname, Store.getLocal?, Store.frame_of_frames hframes, Store.getLocal?]
    dsimp only
    rw [hended]
    refine ⟨fun hanswered name hname => ?_, fun shown hshown => ?_⟩
    · cases hshown : middle.shown? parts.selection source with
      | some shown =>
        obtain ⟨items, after, hrun, hframes, -⟩ := Iteration.ofSource_container hshown position
        rw [Run.bind_of_ok hrun] at hanswered ⊢
        exact hrestored _ after hframes hanswered name hname
      | none =>
        rcases Iteration.ofSource_other hshown position with ⟨ref, -, hrun⟩ | hrun
        · rw [Run.bind_of_ok hrun] at hanswered ⊢
          exact hrestored _ middle rfl hanswered name hname
        · rw [Run.bind_of_error hrun]
          rfl
    · obtain ⟨items, after, hrun, -, hitems⟩ := Iteration.ofSource_container hshown position
      refine ⟨items, after, hitems, Iteration.visits_prefix .., ?_, ?_⟩
      · rw [Run.bind_of_ok hrun]
      · rw [Run.bind_of_ok hrun, loopOver_visits]
  · exact getLocal?_runHandler (fun moment => size_le_sequence bound handler.body frame moment) hanswered

/-- A store with one frame, which binds two names. -/
def namesBound : Store where
  now := Calendar.Moment.midnight 0
  inputs := #[]
  outputs := #[]
  frames := #[{ bindings := Bindings.empty.putAll [("x", .int 7), (lastErrorName, .int 8)] }]

/-- A loop over a list, with the name `x` for its items. -/
def loopOfOne : Source.Loop Node where
  names := ["x"]
  destructures := false
  selection := .items
  source := .mk default (.list [.mk default (.literal (.int 1))])
  body := .mk default (.name "x")

/-- The names have their former meaning after the loop and after a handler without statements. -/
theorem temporary_names_restored_once :
    (endOf ((evaluate 4 (.mk default (.loop loopOfOne)) ⟨0⟩).run namesBound)).getLocal? ⟨0⟩ "x" =
        some (.int 7) ∧
      (endOf (runHandler (evaluator 3) ⟨0⟩ ⟨none, .null⟩ ⟨none, []⟩ namesBound)).getLocal? ⟨0⟩
        lastErrorName = some (.int 8) := by
  obtain ⟨hloops, hhandlers⟩ := temporary_names_restored 3 ⟨0⟩ namesBound
  exact ⟨(hloops loopOfOne default _ _ rfl).1 trivial "x" (by simp [loopOfOne]),
    hhandlers ⟨none, .null⟩ ⟨none, []⟩ trivial⟩

end Ckl
