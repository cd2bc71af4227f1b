import Ckl.Proofs.Run.Realm

/-!
# Evaluation keeps within realms: parts, collections and control flow

One lemma for each function of the evaluator, in the order in which they build on each other. What a
function reads of the store it is given in the same world; after everything else that is done the world may
be a later one, and what was promised before is carried over to it.
-/

namespace Ckl

open Source (Position Node Form Handler Branch lastErrorName)
open Collection (Table KeySet)

/-- Two changes of one frame are one change. -/
theorem Store.changeBindings_changeBindings (store : Store) (frame : FrameRef)
    (change next : Bindings Value → Bindings Value) :
    (store.changeBindings frame change).changeBindings frame next =
      store.changeBindings frame fun bindings => next (change bindings) := by
  unfold Store.changeBindings
  refine congrArg (fun frames => { store with frames }) (Array.ext_getElem? fun index => ?_)
  simp only [Array.getElem?_modify]
  split
  · cases store.frames[index]? <;> rfl
  · rfl

/-- Names are bound one after the other. -/
theorem Store.defineAll_cons (store : Store) (frame : FrameRef) (entry : String × Value)
    (entries : List (String × Value)) :
    store.defineAll frame (entry :: entries) =
      (store.define frame entry.1 entry.2).defineAll frame entries :=
  (store.changeBindings_changeBindings frame (·.put entry.1 entry.2) (·.putAll entries)).symm

theorem Store.defineAll_nil (store : Store) (frame : FrameRef) : store.defineAll frame [] = store := by
  unfold Store.defineAll Store.changeBindings
  refine congrArg (fun frames => { store with frames }) (Array.ext_getElem? fun index => ?_)
  rw [Array.getElem?_modify]
  split
  · cases store.frames[index]? <;> rfl
  · rfl

/-- What a frame binds itself is what is seen from it. -/
theorem Store.lookup?_of_getLocal? {store : Store} {frame : FrameRef} {name : String} {value : Value}
    (h : store.getLocal? frame name = some value) : store.lookup? frame name = some value := by
  simp only [lookup?, chain, List.findSome?_cons, h]

namespace Realm

variable {r : Realm} {ι α : Type} [Inhabited ι] {w w' : r.World}

namespace Lawful

variable (h : r.Lawful)

include h

/-! ## Values and failures -/

/-- What work has come across it keeps. -/
theorem has_later : r.Stable r.has := by
  intro w w' value hle hvalue
  cases value with
  | list | set | map | object => exact h.keeps_later hle hvalue
  | func => exact h.calls_later hle hvalue
  | _ => trivial

/-- The same for several values. -/
theorem all_later {values : List Value} (hle : w ≤ w') (hvalues : ∀ value ∈ values, r.has w value) :
    ∀ value ∈ values, r.has w' value :=
  fun value hvalue => h.has_later hle (hvalues value hvalue)

/-- A failure that may be met with may be met with later. -/
theorem fails_later {failure : Failure} (hle : w ≤ w') (hfails : r.fails w failure) :
    r.fails w' failure := by
  match failure with
  | .diagnosed { cause := .raised payload _, .. } => exact h.has_later hle hfails
  | .diagnosed { cause := .runtime _, .. } => exact hfails
  | .diagnosed { cause := .fault _, .. } => trivial
  | .unreadable _ => trivial

/-- Promises about exits stay true with what they promise of results. -/
theorem exits_later {gives : r.World → α → Prop} (hstable : r.Stable gives) :
    r.Stable (r.exits gives) := by
  intro w w' outcome hle houtcome
  match outcome with
  | .ok a => exact hstable hle houtcome
  | .error (.return value) => exact h.has_later hle houtcome
  | .error .break => trivial
  | .error .continue => trivial

/-- So do promises about attempts. -/
theorem attempts_later {gives : r.World → α → Prop} (hstable : r.Stable gives) :
    r.Stable (r.attempts gives) := by
  intro w w' outcome hle houtcome
  cases outcome with
  | ok a => exact hstable hle houtcome
  | error failure => exact h.fails_later hle houtcome

/-- What a value of the realm holds is in the realm. -/
theorem has_held {value part : Value} (hvalue : r.has w value)
    (hpart : part ∈ (r.store w).held value) : r.has w part := by
  cases value with
  | list | set | map | object => exact h.has_part hvalue part hpart
  | _ => cases hpart

/-- So is everything that is drawn from values of the realm. -/
theorem has_drawn {sources : List Value} {value : Value} (hsources : ∀ source ∈ sources, r.has w source)
    (hvalue : (r.store w).Drawn sources value) : r.has w value := by
  rcases hvalue with hbare | ⟨source, hsource, rfl | hheld⟩
  · exact has_of_isBare hbare
  · exact hsources _ hsource
  · exact h.has_held (hsources _ hsource) hheld

/-- The case of a single source. -/
theorem has_drawn_one {source value : Value} (hsource : r.has w source)
    (hvalue : (r.store w).Drawn [source] value) : r.has w value :=
  h.has_drawn (List.forall_mem_singleton.mpr hsource) hvalue

/-- Calls that may be made from a frame may be made later. -/
theorem serves_later {frame : FrameRef} (hle : w ≤ w') (hserves : r.serves w frame) :
    r.serves w' frame :=
  fun use huse => h.permits_later hle (hserves use huse)

/-! ## Parts of work -/

/-- Storing a fresh value whose parts are in the realm adds it to the realm. -/
theorem place {fresh : Fresh} (hparts : ∀ part ∈ fresh.parts, r.has w part) :
    r.Promises r.has w fun _ : ι => Run.place fresh :=
  promises_modifyGet (h.places hparts)

/-- A list of values in the realm. -/
theorem placeList {items : List Value} (hitems : ∀ item ∈ items, r.has w item) :
    r.Promises r.has w fun _ : ι => Run.placeList items :=
  h.place fun part hpart => hitems part (by simpa [Fresh.parts] using hpart)

/-- Pairs of values in the realm, each stored as a list. -/
theorem placePairs {pairs : List (Value × Value)}
    (hpairs : ∀ pair ∈ pairs, r.has w pair.1 ∧ r.has w pair.2) :
    r.Promises (fun w' values => ∀ value ∈ values, r.has w' value) w
      fun _ : ι => Run.placePairs pairs := by
  refine promises_mapM h.has_later fun w' hle pair hpair => h.placeList fun item hitem => ?_
  obtain ⟨hfirst, hsecond⟩ := hpairs pair hpair
  rcases List.mem_pair.mp hitem with rfl | rfl
  · exact h.has_later hle hfirst
  · exact h.has_later hle hsecond

/-- An operation that draws from values of the realm gives one. -/
theorem compute {operation : Store → Checked Fresh} {sources : List Value}
    (hoperation : (r.store w).DrawsFrom sources (operation (r.store w)))
    (hsources : ∀ source ∈ sources, r.has w source) (position : Position) :
    r.Promises r.has w fun _ : ι => Run.compute position operation := by
  have hcheck := hoperation.imp fun fresh hfresh part hpart => h.has_drawn hsources (hfresh part hpart)
  have hfresh : r.Stable fun w' fresh => ∀ part ∈ Fresh.parts fresh, r.has w' part :=
    fun _ _ _ hle hparts => h.all_later hle hparts
  refine promises_read_bind ?_
  exact (promises_check (fun w' fresh => ∀ part ∈ Fresh.parts fresh, r.has w' part) hcheck
    position).bind fun w' fresh _ hparts => h.place hparts

/-- A lookup that is permitted finds a value of the realm. -/
theorem lookup {frame : FrameRef} {name : String} (hpermits : r.permits w frame .look name)
    (position : Position) : r.Promises r.has w fun _ : ι => Run.lookup frame name position := by
  refine promises_read_bind ?_
  cases hfound : (r.store w).lookup? frame name with
  | some value => exact promises_pure (h.has_looked hpermits hfound)
  | none =>
    refine promises_stop ?_
    rintro _ ⟨rfl⟩
    exact h.misses_looked hpermits hfound

/-- An assignment that is permitted leads on, whether or not the name has a meaning. -/
theorem assign {frame : FrameRef} {name : String} {value : Value}
    (hpermits : r.permits w frame .assign name) (hvalue : r.has w value) (position : Position) :
    r.Promises (fun _ _ => True) w fun _ : ι => Run.assign frame name value position := by
  refine promises_read_bind ?_
  cases howner : (r.store w).owner? frame name with
  | some owner =>
    obtain ⟨w', hle, hstore⟩ := h.assigns hpermits hvalue howner
    exact promises_modify ⟨w', hle, hstore, trivial⟩
  | none =>
    refine promises_stop ?_
    rintro _ ⟨rfl⟩
    exact h.misses_assigned hpermits howner

/-- Changes beside the containers lead on. -/
theorem changing {change : Store → Store} (hchange : (r.store w).SameContents (change (r.store w))) :
    r.Promises (fun _ _ => True) w fun _ : ι => (modify change : Run Unit) := by
  obtain ⟨w', hle, hstore⟩ := h.aside hchange
  exact promises_modify ⟨w', hle, hstore, trivial⟩

/-- So do definitions that are permitted. -/
theorem define {frame : FrameRef} {name : String} {value : Value}
    (hpermits : r.permits w frame .define name) (hvalue : r.has w value) :
    r.Promises (fun _ _ => True) w fun _ : ι => Run.define frame name value := by
  obtain ⟨w', hle, hstore⟩ := h.defines hpermits hvalue
  exact promises_modify ⟨w', hle, hstore, trivial⟩

/-- Several names are defined one after the other. -/
theorem defines_all {frame : FrameRef} {entries : List (String × Value)}
    (hpermits : ∀ entry ∈ entries, r.permits w frame .define entry.1)
    (hvalues : ∀ entry ∈ entries, r.has w entry.2) :
    ∃ w', w ≤ w' ∧ r.store w' = (r.store w).defineAll frame entries := by
  induction entries generalizing w with
  | nil => exact ⟨w, le_rfl, (Store.defineAll_nil _ frame).symm⟩
  | cons entry entries ih =>
    obtain ⟨w', hle, hstore⟩ := h.defines (hpermits entry List.mem_cons_self)
      (hvalues entry List.mem_cons_self)
    obtain ⟨last, hlast, hlastStore⟩ := ih
      (fun other hother => h.permits_later hle (hpermits other (List.mem_cons_of_mem _ hother)))
      fun other hother => h.has_later hle (hvalues other (List.mem_cons_of_mem _ hother))
    refine ⟨last, hle.trans hlast, ?_⟩
    rw [hlastStore, hstore, Store.defineAll_cons]

theorem defineAll {frame : FrameRef} {entries : List (String × Value)}
    (hpermits : ∀ entry ∈ entries, r.permits w frame .define entry.1)
    (hvalues : ∀ entry ∈ entries, r.has w entry.2) :
    r.Promises (fun _ _ => True) w fun _ : ι => (modify (·.defineAll frame entries) : Run Unit) := by
  obtain ⟨w', hle, hstore⟩ := h.defines_all hpermits hvalues
  exact promises_modify ⟨w', hle, hstore, trivial⟩

/-- A name that was lent is bound as before or removed. -/
theorem restore {frame : FrameRef} {name : String} {before : Option Value}
    (hlends : r.lends w frame name) (hbefore : ∀ value ∈ before, r.has w value) :
    r.Promises (fun _ _ => True) w fun _ : ι => Run.restore frame name before := by
  have hremoved : r.Promises (fun _ _ => True) w
      fun _ : ι => (modify (·.undefine frame name) : Run Unit) := by
    obtain ⟨w', hle, hstore⟩ := h.removes (hlends (.remove, name) (by simp [temporaryUses]))
    exact promises_modify ⟨w', hle, hstore, trivial⟩
  refine hremoved.bind fun w' _ hle _ => ?_
  cases before with
  | none => exact promises_pure (a := ()) trivial
  | some value =>
    exact h.define (h.permits_later hle (hlends (.define, name) (by simp [temporaryUses])))
      (h.has_later hle (hbefore value rfl))

/-- What a name means that may have another meaning for a while. -/
theorem has_lent {frame : FrameRef} {name : String} {value : Value} (hlends : r.lends w frame name)
    (hvalue : (r.store w).getLocal? frame name = some value) : r.has w value :=
  h.has_peeked (hlends (.peek, name) (by simp [temporaryUses])) (Store.lookup?_of_getLocal? hvalue)

/-- All names of a loop get their former meanings back. -/
theorem restoreAll {frame : FrameRef} {before : List (String × Option Value)}
    (hlends : ∀ entry ∈ before, r.lends w frame entry.1)
    (hbefore : ∀ entry ∈ before, ∀ value ∈ entry.2, r.has w value) :
    r.Promises (fun _ _ => True) w fun _ : ι => restoreAll frame before :=
  promises_forM (fun _ _ => trivial) fun _ hle entry hentry =>
    h.restore (fun use huse => h.permits_later hle (hlends entry hentry use huse))
      fun value hvalue => h.has_later hle (hbefore entry hentry value hvalue)

/-- A line of input is text and adds nothing to the realm. -/
theorem readLine (input : Ref .input) :
    r.Promises (fun _ _ => True) w fun _ : ι => Run.readLine input := by
  refine promises_read_bind ?_
  cases (r.store w).lines input with
  | nil => exact promises_pure (a := none) trivial
  | cons line rest =>
    refine (h.changing ⟨rfl, rfl, rfl, rfl, rfl, rfl⟩).bind fun _ _ _ _ => ?_
    cases line with
    | ok text => exact promises_pure (a := some text) trivial
    | error problem => exact promises_stop trivial

end Lawful

/-! ## Iteration -/

/-- What is left to run over is in the realm. -/
def hasAll (r : Realm) (w : r.World) : Iteration → Prop
  | .items values => ∀ value ∈ values, r.has w value
  | .lines _ => True

namespace Lawful

variable (h : r.Lawful)

include h

/-- The items that a loop has still to visit stay in the realm. -/
theorem hasAll_later : r.Stable r.hasAll := by
  intro w w' iteration hle hiteration
  cases iteration with
  | items values => exact h.all_later hle hiteration
  | lines input => trivial

/-- The entries of a map or an object, as they are selected. -/
theorem ofEntries (selection : Source.Selection) {entries : List (Value × Value)}
    (hentries : ∀ entry ∈ entries, r.has w entry.1 ∧ r.has w entry.2) :
    r.Promises r.hasAll w fun _ : ι => Iteration.ofEntries selection entries := by
  have hkeys : ∀ value ∈ entries.map Prod.fst, r.has w value :=
    List.forall_mem_map.mpr fun entry hentry => (hentries entry hentry).1
  cases selection with
  | items | keys => exact promises_pure hkeys
  | values =>
    have hvalues : r.hasAll w (.items (entries.map Prod.snd)) :=
      List.forall_mem_map.mpr fun entry hentry => (hentries entry hentry).2
    exact promises_pure hvalues
  | entries => exact (h.placePairs hentries).map fun _ _ _ hvalues => hvalues

/-- The items of a list, each alone or with its index. -/
theorem ofList {selection : Source.Selection} {items : List Value}
    (hitems : ∀ item ∈ items, r.has w item) :
    r.Promises r.hasAll w fun _ : ι => Iteration.ofList selection items := by
  have hnumbered : ∀ entry ∈ Iteration.numbered items, r.has w entry.1 ∧ r.has w entry.2 := by
    refine List.forall_mem_map.mpr fun entry hentry => ⟨trivial, hitems _ ?_⟩
    exact List.fst_mem_of_mem_zipIdx hentry
  cases selection with
  | items | values =>
    have hall : r.hasAll w (.items items) := hitems
    exact promises_pure hall
  | keys => exact h.ofEntries .keys hnumbered
  | entries => exact h.ofEntries .entries hnumbered

/-- Whatever a loop goes through, its items are in the realm. -/
theorem ofSource {source : Value} (hsource : r.has w source) (selection : Source.Selection)
    (position : Position) :
    r.Promises r.hasAll w fun _ : ι => Iteration.ofSource source selection position := by
  cases source with
  | input ref =>
    have hlines : r.hasAll w (.lines ref) := trivial
    exact promises_pure hlines
  | list ref =>
    exact promises_read_bind (h.ofList fun item hitem => h.has_held hsource hitem)
  | set ref =>
    have hkeys : r.hasAll w (.items ((r.store w).sortedKeys ref)) := fun value hvalue =>
      h.has_held hsource (Store.mem_sortedKeys.mp hvalue)
    exact promises_read_bind (promises_pure hkeys)
  | map ref =>
    refine promises_read_bind (h.ofEntries _ fun entry hentry => ?_)
    have hheld := Store.held_of_mem_sortedEntries hentry
    exact ⟨h.has_held hsource hheld.1, h.has_held hsource hheld.2⟩
  | object ref =>
    refine promises_read_bind (h.ofEntries _ (List.forall_mem_map.mpr fun member hmember => ?_))
    exact ⟨trivial, h.has_held hsource (List.mem_map_of_mem hmember)⟩
  | string text =>
    have hletters : r.hasAll w (.items ((Text.graphemes text).map .string)) :=
      List.forall_mem_map.mpr fun _ _ => trivial
    exact promises_pure hletters
  | _ => exact promises_fail rfl position

/-- The next item is in the realm, and so are those behind it. -/
theorem next? {iteration : Iteration} (hiteration : r.hasAll w iteration) :
    r.Promises (fun w' found => ∀ next, found = some next → r.has w' next.1 ∧ r.hasAll w' next.2) w
      fun _ : ι => iteration.next? := by
  cases iteration with
  | items values =>
    cases values with
    | nil => exact promises_pure (a := none) nofun
    | cons value rest =>
      refine promises_pure (a := some _) ?_
      rintro _ ⟨rfl⟩
      exact List.forall_mem_cons.mp hiteration
  | lines input =>
    refine (h.readLine input).map fun w' line _ _ next hnext => ?_
    obtain ⟨text, -, rfl⟩ := Option.map_eq_some_iff.mp hnext
    exact ⟨trivial, trivial⟩

/-- A fold over the items keeps what every step keeps. -/
theorem fold {σ : Type} {gives : r.World → σ → Prop} {body : ι → σ → Value → Run σ} {state : σ}
    {iteration : Iteration} (hiteration : r.hasAll w iteration) (hstate : gives w state)
    (hbody : ∀ w' state item, w ≤ w' → gives w' state → r.has w' item →
      r.Promises gives w' fun k => body k state item) (hstable : r.Stable gives) (rounds : Nat) :
    r.Promises gives w fun k => iteration.fold (body k) rounds state := by
  induction rounds generalizing w iteration state with
  | zero => exact promises_pure hstate
  | succ rounds ih =>
    refine (h.next? hiteration).bind fun w' next hle hnext => ?_
    cases next with
    | none => exact promises_pure (hstable hle hstate)
    | some next =>
      obtain ⟨hitem, hrest⟩ := hnext next rfl
      refine (hbody w' state next.1 hle (hstable hle hstate) hitem).bind fun later state' hlater hs => ?_
      exact ih (h.hasAll_later hlater hrest) hs fun last other item hlast =>
        hbody last other item ((hle.trans hlater).trans hlast)

/-- A loop gives the last value of its body or the one it began with. -/
theorem loop {body : ι → Value → Eval Value} {iteration : Iteration} {last : Value}
    (hiteration : r.hasAll w iteration) (hlast : r.has w last)
    (hbody : ∀ w' item, w ≤ w' → r.has w' item → r.PromisesEval r.has w' fun k => body k item)
    (rounds : Nat) : r.PromisesEval r.has w fun k => iteration.loop (body k) rounds last := by
  induction rounds generalizing w iteration last with
  | zero => exact promisesEval_pure hlast
  | succ rounds ih =>
    refine promisesEval_lift_bind (h.next? hiteration) fun w' next hle hnext => ?_
    cases next with
    | none => exact promisesEval_pure (h.has_later hle hlast)
    | some next =>
      obtain ⟨hitem, hrest⟩ := hnext next rfl
      refine (promisesEval_outcome (hbody w' next.1 hle hitem)).bind fun later outcome hlater hout => ?_
      have hagain : ∀ value, r.has later value →
          r.PromisesEval r.has later fun k => next.2.loop (body k) rounds value := fun value hvalue =>
        ih (h.hasAll_later hlater hrest) hvalue fun w'' item hle' =>
          hbody w'' item ((hle.trans hlater).trans hle')
      have hlast' : r.has later last := h.has_later (hle.trans hlater) hlast
      match outcome with
      | .ok value => exact hagain value hout
      | .error .break => exact promisesEval_pure hlast'
      | .error .continue => exact hagain last hlast'
      | .error (.return value) => exact promisesEval_exit fun _ heq => by cases heq; exact hout

end Lawful

/-! ## Evaluation of the parts of a node -/

/-- A script or the body of a function ends with a value of the realm, returned or not. -/
theorem promises_finish (position : Position) {work : ι → Eval Value}
    (hwork : r.PromisesEval r.has w work) :
    r.Promises r.has w fun k => finish position (work k) := by
  refine Promises.bind hwork fun w' outcome _ houtcome => ?_
  match outcome with
  | .ok value => exact promises_pure houtcome
  | .error (.return value) => exact promises_pure houtcome
  | .error .break => exact promises_fail rfl _
  | .error .continue => exact promises_fail rfl _

section Evaluator

variable {evaluator : ι → Evaluator} {frame : FrameRef} (h : r.Lawful) (he : r.Kept evaluator)

include he

omit h in
/-- The value of a node that is allowed. -/
theorem Kept.value {node : Node} (hallows : r.allows w node frame) :
    r.Promises r.has w fun k => (evaluator k).value node frame := by
  refine Promises.bind (he.node hallows) fun w' outcome _ houtcome => ?_
  match outcome with
  | .ok value => exact promises_pure houtcome
  | .error (.return value) => exact promises_fail rfl _
  | .error .break => exact promises_fail rfl _
  | .error .continue => exact promises_fail rfl _

omit h in
/-- A condition that is allowed is true or false, or fails. -/
theorem Kept.evaluateTruth {node : Node} (hallows : r.allows w node frame) :
    r.PromisesEval (fun _ _ => True) w fun k => evaluateTruth (evaluator k) node frame :=
  PromisesEval.bind (he.node hallows) fun _ value _ _ =>
    promisesEval_lift (promises_known (Value.known_asBool value) _)

omit h in
/-- The same where exits are failures. -/
theorem Kept.truth {node : Node} (hallows : r.allows w node frame) :
    r.Promises (fun _ _ => True) w fun k => (evaluator k).truth node frame :=
  (he.value hallows).bind fun _ value _ _ => promises_known (Value.known_asBool value) _

include h

/-! ## Collections -/

/-- An item of a list gives itself or what it spreads into. -/
theorem Lawful.itemValues {item : Node} (hallows : r.allows w item frame) :
    r.PromisesEval (fun w' values => ∀ value ∈ values, r.has w' value) w
      fun k => itemValues (evaluator k) frame item := by
  unfold Ckl.itemValues
  split
  next inner hform =>
    have hinner : r.allows w inner frame := h.allows_part hallows inner (by simp [hform, Form.here,
      Form.parts])
    refine PromisesEval.bind (he.node hinner) fun w' value _ hvalue => ?_
    refine promisesEval_read_bind (promisesEval_lift (promises_check _ ?_ _))
    exact ((r.store w').gives_elements value).imp fun elements helements part hpart =>
      h.has_held hvalue (helements part hpart)
  next =>
    exact PromisesEval.bind (he.node hallows) fun w' value _ hvalue =>
      promisesEval_pure (a := [value]) (List.forall_mem_singleton.mpr hvalue)

/-- A list of nodes that are allowed. -/
theorem Lawful.evaluateList {items : List Node} (hallows : ∀ item ∈ items, r.allows w item frame) :
    r.PromisesEval r.has w fun k => evaluateList (evaluator k) frame items := by
  have hstable : r.Stable fun w' values => ∀ value ∈ values, r.has w' value :=
    fun _ _ _ hle => h.all_later hle
  refine PromisesEval.bind (promisesEval_mapM hstable
    fun w' hle item hitem => h.itemValues he (h.allows_later hle (hallows item hitem)))
    fun w' values _ hvalues => promisesEval_lift (h.placeList fun value hvalue => ?_)
  obtain ⟨some, hsome, hvalue⟩ := List.mem_flatten.mp hvalue
  exact hvalues some hsome value hvalue

/-- A set of nodes that are allowed. -/
theorem Lawful.evaluateSet {items : List Node} (hallows : ∀ item ∈ items, r.allows w item frame) :
    r.PromisesEval r.has w fun k => evaluateSet (evaluator k) frame items := by
  have hstep : r.PromisesEval (fun w' keys => Table.All (fun key _ => r.has w' key) keys) w
      fun k => items.foldlM (fun keys item => do
        let values ← Ckl.itemValues (evaluator k) frame item
        Run.read fun store => KeySet.addAll store.keyRule keys values)
        (Table.empty : KeySet Value) := by
    refine promisesEval_foldlM Table.all_empty fun w' keys hle hkeys item hitem => ?_
    refine PromisesEval.bind (h.itemValues he (h.allows_later hle (hallows item hitem)))
      fun later values hlater hvalues => promisesEval_lift (promises_read ?_)
    exact KeySet.all_addAll _ hvalues fun slot hslot => h.has_later hlater (hkeys slot hslot)
  exact PromisesEval.bind hstep fun w' keys _ hkeys =>
    promisesEval_lift (h.place fun part hpart => hkeys.keys hpart)

/-- An entry of a map gives itself or what it spreads into. -/
theorem Lawful.itemEntries {item : Source.MapItem Node}
    (hallows : ∀ node ∈ item.nodes, r.allows w node frame) :
    r.PromisesEval (fun w' entries => ∀ entry ∈ entries, r.has w' entry.1 ∧ r.has w' entry.2) w
      fun k => itemEntries (evaluator k) frame item := by
  cases item with
  | entry key value =>
    refine PromisesEval.bind (he.node (hallows key (by simp [Source.MapItem.nodes])))
      fun w' first hle hfirst => ?_
    refine PromisesEval.bind (he.node (h.allows_later hle (hallows value
      (by simp [Source.MapItem.nodes])))) fun later second hlater hsecond => ?_
    exact promisesEval_pure (a := [(first, second)])
      (List.forall_mem_singleton.mpr ⟨h.has_later hlater hfirst, hsecond⟩)
  | spread inner =>
    refine PromisesEval.bind (he.node (hallows inner (by simp [Source.MapItem.nodes])))
      fun w' value _ hvalue => ?_
    refine promisesEval_read_bind (promisesEval_lift (promises_check _ ?_ _))
    exact ((r.store w').gives_spreadEntries value).imp fun entries hentries entry hentry =>
      ⟨h.has_drawn_one hvalue (hentries entry hentry).1,
        h.has_drawn_one hvalue (hentries entry hentry).2⟩

/-- A map of nodes that are allowed. -/
theorem Lawful.evaluateMap {items : List (Source.MapItem Node)}
    (hallows : ∀ node ∈ items.flatMap Source.MapItem.nodes, r.allows w node frame) :
    r.PromisesEval r.has w fun k => evaluateMap (evaluator k) frame items := by
  have hstep : r.PromisesEval
      (fun w' table => Table.All (fun key value => r.has w' key ∧ r.has w' value) table) w
      fun k => items.foldlM (fun table item => do
        let entries ← Ckl.itemEntries (evaluator k) frame item
        Run.read fun store => addEntries store table entries)
        (Table.empty : Table Value Value) := by
    refine promisesEval_foldlM Table.all_empty fun w' table hle htable item hitem => ?_
    have hnodes : ∀ node ∈ item.nodes, r.allows w' node frame := fun node hnode =>
      h.allows_later hle (hallows node (List.mem_flatMap.mpr ⟨item, hitem, hnode⟩))
    refine PromisesEval.bind (h.itemEntries he hnodes)
      fun later entries hlater hentries => promisesEval_lift (promises_read ?_)
    exact Table.all_foldl_insert (fun slot hslot => (htable slot hslot).imp (h.has_later hlater)
      (h.has_later hlater)) hentries
  exact PromisesEval.bind hstep fun w' table _ htable =>
    promisesEval_lift (h.place (Fresh.forall_parts_map.mpr htable))

/-- An object with members that are allowed. -/
theorem Lawful.evaluateObject {members : List (Source.Member Node)}
    (hallows : ∀ member ∈ members, r.allows w member.value frame) :
    r.PromisesEval r.has w fun k => evaluateObject (evaluator k) frame members := by
  have hstep : r.PromisesEval (fun w' bindings => ∀ value ∈ Bindings.values bindings, r.has w' value) w
      fun k => members.foldlM (fun (bindings : Bindings Value) (member : Source.Member Node) => do
        return bindings.put member.name (← (evaluator k).node member.value frame))
        Bindings.empty := by
    refine promisesEval_foldlM nofun fun w' bindings hle hbindings member hmember => ?_
    refine PromisesEval.bind (he.node (h.allows_later hle (hallows member hmember)))
      fun later value hlater hvalue => promisesEval_pure ?_
    exact Bindings.forall_values_put (h.all_later hlater hbindings) hvalue
  exact PromisesEval.bind hstep fun w' bindings _ hbindings => promisesEval_lift (h.place hbindings)

omit h he in
/-- An element that is added to a collection is all that is new in it. -/
theorem parts_addElement {store : Store} {among : Value → Prop} {element value : Value}
    {collection : Fresh} (hcollection : ∀ part ∈ collection.parts, among part)
    (helement : among element) (hvalue : among value) :
    ∀ part ∈ (addElement store element value collection).parts, among part := by
  cases collection with
  | list items =>
    intro part hpart
    simp only [addElement, Fresh.parts, Array.toList_push, List.mem_append, List.mem_singleton] at hpart
    rcases hpart with hpart | rfl
    · exact hcollection part hpart
    · exact helement
  | set keys =>
    exact fun part hpart =>
      (KeySet.all_add (Table.all_of_keys hcollection) store.keyRule helement).keys hpart
  | map entries =>
    exact Fresh.forall_parts_map.mpr
      ((Fresh.forall_parts_map.mp hcollection).insert store.keyRule ⟨helement, hvalue⟩)
  | _ => exact hcollection

/-- An item of a comprehension adds to the collection what its element gives. -/
theorem Lawful.gather {parts : Source.Comprehension Node} {collection : Fresh} {item : Value}
    (hgathers : r.gathers w parts frame) (hcollection : ∀ part ∈ collection.parts, r.has w part)
    (hitem : r.has w item) :
    r.Promises (fun w' collection => ∀ part ∈ Fresh.parts collection, r.has w' part) w
      fun k => gather (evaluator k) parts frame collection item := by
  have hdefine : r.Promises (fun w' _ => ∀ part ∈ parts.inner, r.allows w' part frame) w
      fun _ : ι => Run.define frame parts.binder item := by
    obtain ⟨w', hle, hstore, hallows⟩ := h.binds_item hgathers hitem
    exact promises_modify ⟨w', hle, hstore, hallows⟩
  refine hdefine.bind fun w' _ hle hallows => ?_
  have hcollection' := h.all_later hle hcollection
  -- what is done with the condition evaluated, however the value of an entry is fetched
  have hgather (fetch : ι → Run Value)
      (hfetch : ∀ later, w' ≤ later → r.Promises r.has later fetch) (later : r.World)
      (hlater : w' ≤ later) (accepted : Bool) :
      r.Promises (fun w' collection => ∀ part ∈ Fresh.parts collection, r.has w' part) later
        fun k => (if accepted = true then do
          let element ← (evaluator k).value parts.element frame
          let value ← fetch k
          Run.read fun store => addElement store element value collection
        else pure collection) := by
    refine promises_ite (fun _ => ?_) fun _ => promises_pure (h.all_later hlater hcollection')
    have helement := h.allows_later hlater
      (hallows parts.element (by simp [Source.Comprehension.inner]))
    refine (he.value helement).bind fun w₁ element h₁ helement => ?_
    refine (hfetch w₁ (hlater.trans h₁)).bind fun w₂ value h₂ hvalue => promises_read ?_
    exact parts_addElement (h.all_later ((hlater.trans h₁).trans h₂) hcollection')
      (h.has_later h₂ helement) hvalue
  have hvalue : ∀ value ∈ parts.value, ∀ later, w' ≤ later →
      r.Promises r.has later fun k => (evaluator k).value value frame := fun value hvalue later hlater =>
    he.value (h.allows_later hlater (hallows value (by
      simp only [Source.Comprehension.inner, List.mem_append, List.mem_cons, Option.mem_toList]
      exact .inr (.inr hvalue))))
  have hnull : ∀ later, w' ≤ later → r.Promises r.has later fun _ : ι => pure Value.null :=
    fun _ _ => promises_pure (a := Value.null) trivial
  have haccept : r.Promises (fun _ _ => True) w' fun _ : ι => (pure true : Run Bool) :=
    promises_pure trivial
  cases hcondition : parts.condition with
  | none =>
    cases hfetch : parts.value with
    | none =>
      exact haccept.bind fun later accepted hlater _ => hgather _ hnull later hlater accepted
    | some value =>
      exact haccept.bind fun later accepted hlater _ =>
        hgather _ (hvalue value hfetch) later hlater accepted
  | some condition =>
    have hallowed := hallows condition (by simp [Source.Comprehension.inner, hcondition])
    cases hfetch : parts.value with
    | none =>
      exact (he.truth hallowed).bind fun later accepted hlater _ =>
        hgather _ hnull later hlater accepted
    | some value =>
      exact (he.truth hallowed).bind fun later accepted hlater _ =>
        hgather _ (hvalue value hfetch) later hlater accepted

/-- The source is evaluated in the frame itself, the rest in the frame that is entered for the items. -/
theorem Lawful.evaluateComprehension {parts : Source.Comprehension Node} {position : Position}
    (hallows : r.allows w (.mk position (.comprehension parts)) frame) :
    r.PromisesEval r.has w fun k => evaluateComprehension (evaluator k) parts frame position := by
  refine PromisesEval.bind (he.node (h.allows_part hallows parts.source List.mem_cons_self))
    fun w' source hle hsource => ?_
  obtain ⟨inner, hinner⟩ : ∃ inner, inner = ((r.store w').enter frame Bindings.empty).1 := ⟨_, rfl⟩
  have henter : r.Promises (fun later found => found = inner ∧ r.gathers later parts inner) w'
      fun _ : ι => Run.enter frame Bindings.empty := by
    obtain ⟨later, hlater, hstore, hgathers⟩ := h.enters_gathering (h.allows_later hle hallows)
    exact promises_modifyGet ⟨later, hlater, hstore, hinner.symm, hinner ▸ hgathers⟩
  refine promisesEval_lift_bind henter fun w₁ found h₁ hfound => ?_
  obtain ⟨rfl, hgathers⟩ := hfound
  refine promisesEval_lift_bind (h.ofSource (h.has_later h₁ hsource) .items position)
    fun w₂ iteration h₂ hiteration => promisesEval_read_bind ?_
  have hempty : ∀ part ∈ (emptyCollection parts.kind).parts, r.has w₂ part := by
    cases parts.kind with
    | list => exact nofun
    | set =>
      have hkeys : (Table.empty : Collection.KeySet Value).All fun key _ => r.has w₂ key :=
        Table.all_empty
      exact fun part hpart => hkeys.keys hpart
    | map => exact Fresh.forall_parts_map.mpr Table.all_empty
  refine promisesEval_lift_bind (h.fold hiteration hempty ?_ ?_ _) fun w₃ collection _ hcollection =>
    promisesEval_lift (h.place hcollection)
  · exact fun later collection item hlater hcollection hitem =>
      h.gather he (h.gathers_later (h₂.trans hlater) hgathers) hcollection hitem
  · exact fun _ _ _ hle hparts => h.all_later hle hparts

/-! ## Control flow -/

/-- Nodes one after the other give what the last of them gives. -/
theorem Lawful.evaluateSequence {nodes : List Node} (hallows : ∀ node ∈ nodes, r.allows w node frame) :
    r.PromisesEval r.has w fun k => evaluateSequence (evaluator k) frame nodes :=
  promisesEval_foldlM trivial fun _ _ hle _ node hnode =>
    he.node (h.allows_later hle (hallows node hnode))

/-- The branch whose condition is true, or the last resort. -/
theorem Lawful.evaluateChoice {otherwise : Option Node} {branches : List (Branch Node)}
    (hbranches : ∀ branch ∈ branches,
      r.allows w branch.condition frame ∧ r.allows w branch.body frame)
    (hotherwise : ∀ node ∈ otherwise, r.allows w node frame) :
    r.PromisesEval r.has w fun k => evaluateChoice (evaluator k) frame otherwise branches := by
  induction branches generalizing w with
  | nil =>
    cases otherwise with
    | none => exact promisesEval_pure (a := Value.null) trivial
    | some node => exact he.node (hotherwise node rfl)
  | cons branch rest ih =>
    obtain ⟨hcondition, hbody⟩ := hbranches branch List.mem_cons_self
    refine PromisesEval.bind (he.evaluateTruth hcondition) fun w' holds hle _ => ?_
    refine promisesEval_ite (fun _ => he.node (h.allows_later hle hbody)) fun _ => ?_
    exact ih (fun other hother => (hbranches other (List.mem_cons_of_mem _ hother)).imp
      (h.allows_later hle) (h.allows_later hle))
      fun node hnode => h.allows_later hle (hotherwise node hnode)

omit h in
/-- A filter of a handler decides, or fails. -/
theorem Kept.handles {caught : Caught} {handler : Handler Node}
    (hfilter : ∀ filter ∈ handler.filter, r.allows w filter frame) :
    r.Promises (fun _ _ => True) w fun k => handles (evaluator k) frame caught handler := by
  unfold Ckl.handles
  cases hcase : handler.filter with
  | none => exact promises_pure (a := true) trivial
  | some filter =>
    exact (he.value (hfilter filter hcase)).bind fun _ _ _ _ => promises_read trivial

/-- The body of a handler is evaluated with the caught value lent to its name. -/
theorem Lawful.runHandler {caught : Caught} {handler : Handler Node}
    (hbody : ∀ node ∈ handler.body, r.allows w node frame) (hlends : r.lends w frame lastErrorName)
    (hcaught : r.has w caught.shown) :
    r.Promises (r.exits r.has) w fun k => runHandler (evaluator k) frame caught handler := by
  refine promises_read_bind ?_
  have hbefore : ∀ value ∈ (r.store w).getLocal? frame lastErrorName, r.has w value :=
    fun value hvalue => h.has_lent hlends hvalue
  refine (h.restore hlends (fun value hvalue => by cases hvalue; exact hcaught)).bind
    fun w' _ hle _ => ?_
  refine (promises_attempt (h.evaluateSequence he fun node hnode =>
    h.allows_later hle (hbody node hnode))).bind fun w₁ outcome h₁ houtcome => ?_
  refine (h.restore (fun use huse => h.permits_later (hle.trans h₁) (hlends use huse))
    fun value hvalue => h.has_later (hle.trans h₁) (hbefore value hvalue)).bind fun w₂ _ h₂ _ => ?_
  exact promises_conclude (h.attempts_later (h.exits_later h.has_later) h₂ houtcome)

omit h he in
/-- What handlers find of a failure of the realm is in the realm. -/
theorem has_shown {failure : Failure} {caught : Caught} (hfails : r.fails w failure)
    (hcaught : failure.caught? = some caught) : r.has w caught.shown := by
  match failure with
  | .diagnosed { cause := .raised _ _, .. } =>
    cases hcaught
    exact hfails
  | .diagnosed { cause := .runtime _, .. } =>
    cases hcaught
    trivial
  | .diagnosed { cause := .fault _, .. } => cases hcaught
  | .unreadable _ =>
    cases hcaught
    trivial

/-- A failure is handled by the first handler that takes it, or goes on. -/
theorem Lawful.handleFailure {failure : Failure} {caught : Caught} {handlers : List (Handler Node)}
    (hallows : ∀ handler ∈ handlers, ∀ node ∈ handler.filter.toList ++ handler.body,
      r.allows w node frame)
    (hlends : handlers ≠ [] → r.lends w frame lastErrorName) (hfails : r.fails w failure)
    (hcaught : failure.caught? = some caught) :
    r.Promises (r.exits r.has) w fun k =>
      handleFailure (evaluator k) frame failure caught handlers := by
  induction handlers generalizing w with
  | nil => exact promises_stop hfails
  | cons handler rest ih =>
    have hhandler := hallows handler List.mem_cons_self
    refine (he.handles fun filter hfilter => hhandler filter
      (List.mem_append_left _ (Option.mem_toList.mpr hfilter))).bind fun w' matching hle _ => ?_
    have hlends' : r.lends w' frame lastErrorName := fun use huse =>
      h.permits_later hle (hlends (List.cons_ne_nil _ _) use huse)
    refine promises_ite (fun _ => ?_) fun _ => ?_
    · exact h.runHandler he (fun node hnode => h.allows_later hle
        (hhandler node (List.mem_append_right _ hnode))) hlends'
        (has_shown (h.fails_later hle hfails) hcaught)
    · exact ih (fun other hother node hnode => h.allows_later hle
        (hallows other (List.mem_cons_of_mem _ hother) node hnode)) (fun _ => hlends')
        (h.fails_later hle hfails)

/-- Statements under handlers. -/
theorem Lawful.runHandled {body : List Node} {handlers : List (Handler Node)}
    (hbody : ∀ node ∈ body, r.allows w node frame)
    (hallows : ∀ handler ∈ handlers, ∀ node ∈ handler.filter.toList ++ handler.body,
      r.allows w node frame)
    (hlends : handlers ≠ [] → r.lends w frame lastErrorName) :
    r.Promises (r.exits r.has) w fun k => runHandled (evaluator k) frame body handlers := by
  refine (promises_attempt (h.evaluateSequence he hbody)).bind fun w' outcome hle houtcome => ?_
  cases outcome with
  | ok outcome => exact promises_pure houtcome
  | error failure =>
    cases hcaught : failure.caught? with
    | none =>
      simp only [hcaught]
      exact promises_stop houtcome
    | some caught =>
      simp only [hcaught]
      exact h.handleFailure he
        (fun handler hhandler node hnode => h.allows_later hle (hallows handler hhandler node hnode))
        (fun hne use huse => h.permits_later hle (hlends hne use huse)) houtcome hcaught

/-- A block ends with its statements or a handler, and then with its cleanup. -/
theorem Lawful.evaluateBlock {body : List Node} {handlers : List (Handler Node)} {cleanup : List Node}
    {position : Position}
    (hallows : r.allows w (.mk position (.block body handlers cleanup)) frame)
    (hgoes : ¬ r.halts w (.mk position (.block body handlers cleanup)) frame) :
    r.PromisesEval r.has w fun k => evaluateBlock (evaluator k) frame body handlers cleanup := by
  have hpart : ∀ node ∈ body ++ handlers.flatMap (fun handler =>
      handler.filter.toList ++ handler.body) ++ cleanup, r.allows w node frame :=
    h.allows_part hallows
  simp only [List.forall_mem_append] at hpart
  obtain ⟨⟨hbody, hhandlers⟩, hcleanup⟩ := hpart
  have hlends : handlers ≠ [] → r.lends w frame lastErrorName := fun hne use huse =>
    h.permits_use hallows hgoes use (by
      rw [show Form.uses _ = if handlers.isEmpty then [] else temporaryUses lastErrorName from rfl,
        if_neg (by simpa using hne)]
      exact huse)
  refine (promises_attempt (h.runHandled he hbody (fun handler hhandler node hnode =>
    hhandlers node (List.mem_flatMap.mpr ⟨handler, hhandler, hnode⟩)) hlends)).bind
    fun w' outcome hle houtcome => ?_
  refine Promises.bind (h.evaluateSequence he fun node hnode =>
    h.allows_later hle (hcleanup node hnode)) fun w₁ _ h₁ _ => ?_
  exact promises_conclude (h.attempts_later (h.exits_later h.has_later) h₁ houtcome)

omit he in
/-- An item is bound to the names of a loop, or its parts are. -/
theorem Lawful.bindItem {parts : Source.Loop Node} {item : Value}
    (hlends : ∀ name ∈ parts.names, r.lends w frame name) (hitem : r.has w item)
    (position : Position) :
    r.Promises (fun _ _ => True) w fun _ : ι => bindItem parts frame position item := by
  have hdefine : ∀ name ∈ parts.names, r.permits w frame .define name := fun name hname =>
    hlends name hname (.define, name) (by simp [temporaryUses])
  refine promises_ite (fun _ => promises_read_bind ?_) fun _ => ?_
  · have hchecked := ((r.store w).gives_destructure item parts.names.length).imp
      fun elements helements part hpart => h.has_drawn_one hitem (helements part hpart)
    refine (promises_check (fun w' elements => ∀ part ∈ elements, r.has w' part) hchecked
      position).bind fun w' elements hle helements => h.defineAll (fun entry hentry => ?_) ?_
    · exact h.permits_later hle (hdefine entry.1 (List.of_mem_zip hentry).1)
    · exact fun entry hentry => helements entry.2 (List.of_mem_zip hentry).2
  · refine h.defineAll (List.forall_mem_map.mpr fun name hname => ?_)
      (List.forall_mem_map.mpr fun _ _ => hitem)
    exact hdefine name (List.mem_of_mem_take hname)

/-- The names of a loop are lent to the items and get their meanings back. -/
theorem Lawful.evaluateLoop {parts : Source.Loop Node} {position : Position}
    (hallows : r.allows w (.mk position (.loop parts)) frame)
    (hgoes : ¬ r.halts w (.mk position (.loop parts)) frame) :
    r.PromisesEval r.has w fun k => evaluateLoop (evaluator k) parts frame position := by
  have hpart : ∀ node ∈ [parts.source, parts.body], r.allows w node frame := h.allows_part hallows
  have hlends : ∀ name ∈ parts.names, r.lends w frame name := fun name hname use huse =>
    h.permits_use hallows hgoes use (List.mem_flatMap.mpr ⟨name, hname, huse⟩)
  have hlendsLater : ∀ {w'}, w ≤ w' → ∀ name ∈ parts.names, r.lends w' frame name :=
    fun hle name hname use huse => h.permits_later hle (hlends name hname use huse)
  refine PromisesEval.bind (he.node (hpart _ (by simp))) fun w₁ source h₁ hsource => ?_
  refine promisesEval_lift_bind (h.ofSource hsource parts.selection position)
    fun w₂ iteration h₂ hiteration => promisesEval_read_bind (promisesEval_read_bind ?_)
  have hbefore : ∀ entry ∈ parts.names.map fun name => (name, (r.store w₂).getLocal? frame name),
      r.lends w₂ frame entry.1 ∧ ∀ value ∈ entry.2, r.has w₂ value :=
    List.forall_mem_map.mpr fun name hname =>
      have hlent := hlendsLater (h₁.trans h₂) name hname
      ⟨hlent, fun value hvalue => h.has_lent hlent hvalue⟩
  have hbody : ∀ w' item, w₂ ≤ w' → r.has w' item → r.PromisesEval r.has w' fun k => (do
      Ckl.bindItem parts frame position item
      (evaluator k).node parts.body frame : Eval Value) := fun w' item hle hitem =>
    promisesEval_lift_bind (h.bindItem (hlendsLater ((h₁.trans h₂).trans hle)) hitem position)
      fun later _ hlater _ => he.node (h.allows_later (((h₁.trans h₂).trans hle).trans hlater)
        (hpart _ (by simp)))
  have hnull : r.has w₂ .null := trivial
  have hloop := h.loop hiteration hnull hbody (iteration.rounds (r.store w₂))
  refine promisesEval_lift_bind (promises_attempt hloop) fun w₃ outcome h₃ houtcome => ?_
  refine promisesEval_lift_bind (h.restoreAll (fun entry hentry use huse =>
    h.permits_later h₃ ((hbefore entry hentry).1 use huse)) fun entry hentry value hvalue =>
      h.has_later h₃ ((hbefore entry hentry).2 value hvalue)) fun w₄ _ h₄ _ => ?_
  exact promises_conclude (h.attempts_later (h.exits_later h.has_later) h₄ houtcome)

/-- A loop under a condition gives what its body gave last. -/
theorem Lawful.evaluateWhile {condition body : Node} {last : Value}
    (hcondition : r.allows w condition frame) (hbody : r.allows w body frame) (hlast : r.has w last)
    (rounds : Nat) :
    r.PromisesEval r.has w fun k => evaluateWhile (evaluator k) condition body frame rounds last := by
  induction rounds generalizing w last with
  | zero => exact promisesEval_lift promises_exhausted
  | succ rounds ih =>
    refine PromisesEval.bind (he.evaluateTruth hcondition) fun w₁ holds h₁ _ => ?_
    refine promisesEval_ite (fun _ => ?_) fun _ => promisesEval_pure (h.has_later h₁ hlast)
    refine (promisesEval_outcome (he.node (h.allows_later h₁ hbody))).bind fun w₂ outcome h₂ hout => ?_
    have hlast' := h.has_later (h₁.trans h₂) hlast
    have hagain : ∀ value, r.has w₂ value → r.PromisesEval r.has w₂ fun k =>
        Ckl.evaluateWhile (evaluator k) condition body frame rounds value := fun value hvalue =>
      ih (h.allows_later (h₁.trans h₂) hcondition) (h.allows_later (h₁.trans h₂) hbody) hvalue
    match outcome with
    | .ok value => exact hagain value hout
    | .error .break => exact promisesEval_pure hlast'
    | .error .continue => exact hagain last hlast'
    | .error (.return value) => exact promisesEval_exit fun _ heq => by cases heq; exact hout

end Evaluator

end Realm

end Ckl
