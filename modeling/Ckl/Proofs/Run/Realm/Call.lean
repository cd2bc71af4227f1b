import Ckl.Proofs.Run.Moments
import Ckl.Proofs.Run.Realm.Evaluation

/-!
# Evaluation keeps within realms: calls, modules and steps

Built-in functions work on their arguments, which are in the realm, and on what these hold. Of a function of
a script the realm says itself in which frames its parts may be evaluated. With the steps of all forms of
nodes the induction over the bound closes: `Realm.Lawful.kept_until` says that evaluation keeps within every
realm that meets its laws, up to a cut as well as without one.
-/

namespace Ckl.Realm

open Source (Position Node Form Argument Parameter Lambda)
open Collection (Table KeySet)

variable {r : Realm} {ι α : Type} [Inhabited ι] {w w' : r.World}

/-- The arguments are in the realm. -/
def hasArguments (r : Realm) (w : r.World) (arguments : List (Argument Value)) : Prop :=
  ∀ argument ∈ arguments, r.has w argument.value

namespace Lawful

variable (h : r.Lawful)

include h

/-- Arguments stay in the realm. -/
theorem hasArguments_later : r.Stable r.hasArguments :=
  fun _ _ _ hle harguments argument hargument => h.has_later hle (harguments argument hargument)

/-! ## Built-in functions -/

section Builtins

variable {arguments : Arguments} (harguments : ∀ value ∈ arguments.values, r.has w value)
  {frame : FrameRef} (hserves : r.serves w frame) (position : Position)

include harguments

omit h in
/-- An argument that is needed is there or missed. -/
theorem need (name : String) :
    r.Promises r.has w fun _ : ι => Run.check position (arguments.need name) :=
  promises_check _ ((arguments.gives_need name).imp harguments) position

/-- A stream is an argument, or bound to a name that calls may look up. -/
theorem streamOr (argument : String) {name : String} (hpermits : r.permits w frame .look name) :
    r.Promises r.has w fun _ : ι => Builtin.streamOr arguments argument name frame position := by
  unfold Builtin.streamOr
  split
  next value hvalue => exact promises_pure (harguments value (Arguments.mem_values_of_optional hvalue))
  next => exact h.lookup hpermits position

/-- Something is appended to a list or added to a set that are arguments. -/
theorem appendTo : r.Promises r.has w fun _ : ι => Builtin.appendTo arguments position := by
  refine (need harguments position "lst").bind fun w₁ target h₁ htarget => ?_
  refine (need (h.all_later h₁ harguments) position "element").bind fun w₂ element h₂ helement => ?_
  have htarget' := h.has_later h₂ htarget
  have hadded : ∀ value ∈ [element], r.has w₂ value := List.forall_mem_singleton.mpr helement
  -- what is left to do once the container has been changed
  have hchanged : ∀ {container change}, r.keeps w₂ container →
      (r.store w₂).Alters (change (r.store w₂)) container [element] →
        r.Promises r.has w₂ fun _ : ι => (do
          modify change
          return target : Run Value) := by
    intro container change hkeeps halters
    obtain ⟨w₃, h₃, hstore⟩ := h.alters hkeeps hadded halters
    have hmodify : r.Promises (fun w' _ => r.has w' target) w₂ fun _ : ι => (modify change : Run Unit) :=
      promises_modify ⟨w₃, h₃, hstore, h.has_later h₃ htarget'⟩
    exact hmodify.bind fun _ _ _ => promises_pure
  cases target with
  | list ref => exact hchanged htarget' (Store.alters_push ref element)
  | set ref =>
    refine promises_read_bind ?_
    cases hreaches : (r.store w₂).reaches element (.set ref) with
    | true => exact promises_fail_bind rfl position _
    | false =>
      refine promises_read_bind (promises_read_bind ?_)
      cases (r.store w₂).hasKey ref element with
      | true => exact promises_pure htarget'
      | false => exact hchanged htarget' (Store.alters_addKey hreaches)
  | _ => exact promises_fail_bind rfl position _

/-- The list of the elements of an argument. -/
theorem convertList : r.Promises r.has w fun _ : ι => Builtin.convertList arguments position := by
  refine (need harguments position "obj").bind fun w₁ value h₁ hvalue => ?_
  have hother : r.Promises r.has w₁ fun _ : ι => (do
      Run.placeList (← Run.check position (← Run.read (·.elements value))) : Run Value) := by
    refine promises_read_bind ?_
    have helements := ((r.store w₁).gives_elements value).imp fun elements helements part hpart =>
      h.has_held hvalue (helements part hpart)
    exact (promises_check (fun w' elements => ∀ part ∈ elements, r.has w' part) helements
      position).bind fun _ _ _ => h.placeList
  cases value with
  | map ref =>
    refine promises_read_bind ((h.placePairs fun entry hentry => ?_).bind fun _ _ _ => h.placeList)
    have hheld := Store.held_of_mem_sortedEntries hentry
    exact ⟨h.has_held hvalue hheld.1, h.has_held hvalue hheld.2⟩
  | string text => exact h.placeList (List.forall_mem_map.mpr fun _ _ => trivial)
  | _ => exact hother

include hserves

/-- Something is written to a stream. -/
theorem writeTo (ending : String) :
    r.Promises r.has w fun _ : ι => Builtin.writeTo arguments ending frame position := by
  have hwrite : ∀ text : String, r.Promises r.has w fun _ : ι => (do
      let stream ← Builtin.streamOr arguments "out" Builtin.outputName frame position
      let output ← Run.check position stream.asOutput
      modify (·.write output (text ++ ending))
      return Value.null : Run Value) := by
    intro text
    refine (h.streamOr harguments position "out" (hserves (.look, Builtin.outputName)
      (by simp [callUses]))).bind fun w₁ stream _ _ => ?_
    refine (promises_known (Value.known_asOutput stream) position).bind fun w₂ output _ _ => ?_
    exact (h.changing ⟨rfl, rfl, rfl, rfl, rfl, rfl⟩).bind fun _ _ _ _ => promises_pure trivial
  unfold Builtin.writeTo
  cases arguments.optional "obj" with
  | none => exact hwrite ""
  | some value => exact promises_read_bind (hwrite _)

/-- A line is read from a stream. -/
theorem readFrom : r.Promises r.has w fun _ : ι => Builtin.readFrom arguments frame position := by
  refine (h.streamOr harguments position "input" (hserves (.look, Builtin.inputName)
    (by simp [callUses]))).bind fun w₁ stream _ _ => ?_
  refine (promises_known (Value.known_asInput stream) position).bind fun w₂ input _ _ => ?_
  exact (h.readLine input).map fun _ line _ _ => by cases line <;> trivial

end Builtins

omit h in
/-- Tests give truth values. -/
theorem answer {test : Store → Checked Bool} (htest : (test (r.store w)).Known) (position : Position) :
    r.Promises r.has w fun _ : ι => Builtin.answer position test :=
  promises_read_bind ((promises_known htest position).map fun _ _ _ _ => trivial)

omit h in
/-- So do conversions give values that refer to nothing. -/
theorem bare {checked : Checked Value} (hchecked : checked.Gives fun value => value.isBare = true)
    (position : Position) : r.Promises r.has w fun _ : ι => Run.check position checked :=
  promises_check _ (hchecked.imp fun _ => has_of_isBare) position

/-! ## Sorting -/

section Sorting

variable {among : α → Prop} {less : ι → α → α → Run Bool}
  (hless : ∀ w', w ≤ w' → ∀ a b, among a → among b →
    r.Promises (fun _ _ => True) w' fun k => less k a b)

omit h

include hless

/-- Something is inserted where comparisons say, and nothing else comes in. -/
theorem insertSorted {element : α} (helement : among element) {sorted : List α}
    (hsorted : ∀ a ∈ sorted, among a) :
    r.Promises (fun _ results => ∀ a ∈ results, among a) w
      fun k => Builtin.insertSorted (less k) element sorted := by
  induction sorted generalizing w with
  | nil => exact promises_pure (a := [element]) (List.forall_mem_singleton.mpr helement)
  | cons last others ih =>
    obtain ⟨hlast, hothers⟩ := List.forall_mem_cons.mp hsorted
    refine (hless w le_rfl element last helement hlast).bind fun w' before hle _ => ?_
    refine promises_ite (fun _ => ?_) fun _ => ?_
    · exact (ih (fun later hlater => hless later (hle.trans hlater)) hothers).map
        fun _ _ _ hresults => List.forall_mem_cons.mpr ⟨hlast, hresults⟩
    · exact promises_pure (a := element :: last :: others)
        (List.forall_mem_cons.mpr ⟨helement, hsorted⟩)

/-- Short lists are sorted by insertion. -/
theorem insertionSort {elements : List α} (helements : ∀ a ∈ elements, among a) :
    r.Promises (fun _ results => ∀ a ∈ results, among a) w
      fun k => Builtin.insertionSort (less k) elements := by
  have hfold : r.Promises (fun _ results => ∀ a ∈ results, among a) w fun k =>
      elements.foldlM (fun sorted element => Builtin.insertSorted (less k) element sorted) [] :=
    promises_foldlM nofun fun w' _ hle hsorted element helement =>
      insertSorted (fun later hlater => hless later (hle.trans hlater)) (helements element helement)
        hsorted
  exact hfold.map fun _ _ _ hresults a ha => hresults a (List.mem_reverse.mp ha)

omit hless in
/-- Two sorted lists are merged by comparisons, so that the results are elements of both. -/
theorem mergeSorted : ∀ {w : r.World} {as bs : List α},
    (∀ w', w ≤ w' → ∀ a b, among a → among b → r.Promises (fun _ _ => True) w' fun k => less k a b) →
    (∀ a ∈ as, among a) → (∀ b ∈ bs, among b) →
      r.Promises (fun _ results => ∀ a ∈ results, among a) w
        fun k => Builtin.mergeSorted (less k) as bs
  | w, [], bs, _, _, hbs => by
    simp only [Builtin.mergeSorted]
    exact promises_pure hbs
  | w, a :: as, [], _, has, _ => by
    simp only [Builtin.mergeSorted]
    exact promises_pure has
  | w, a :: as, b :: bs, hless, has, hbs => by
    simp only [Builtin.mergeSorted]
    obtain ⟨ha, has'⟩ := List.forall_mem_cons.mp has
    obtain ⟨hb, hbs'⟩ := List.forall_mem_cons.mp hbs
    refine (hless w le_rfl b a hb ha).bind fun w' before hle _ => ?_
    have hless' : ∀ later, w' ≤ later → ∀ a b, among a → among b →
        r.Promises (fun _ _ => True) later fun k => less k a b :=
      fun later hlater => hless later (hle.trans hlater)
    refine promises_ite (fun _ => ?_) fun _ => ?_
    · exact (mergeSorted hless' has hbs').map fun _ _ _ hresults =>
        List.forall_mem_cons.mpr ⟨hb, hresults⟩
    · exact (mergeSorted hless' has' hbs).map fun _ _ _ hresults =>
        List.forall_mem_cons.mpr ⟨ha, hresults⟩
termination_by _ as bs => as.length + bs.length

/-- So are the two halves, by induction on the bound. -/
theorem sortHalves (bound : Nat) {elements : List α} (helements : ∀ a ∈ elements, among a) :
    r.Promises (fun _ results => ∀ a ∈ results, among a) w
      fun k => Builtin.sortHalves (less k) bound elements := by
  induction bound generalizing w elements with
  | zero => exact insertionSort hless helements
  | succ bound ih =>
    refine promises_ite (fun _ => insertionSort hless helements) fun _ => ?_
    refine (ih hless fun a ha => helements a (List.mem_of_mem_take ha)).bind
      fun w₁ left h₁ hleft => ?_
    refine (ih (fun later hlater => hless later (h₁.trans hlater))
      fun a ha => helements a (List.mem_of_mem_drop ha)).bind fun w₂ right h₂ hright => ?_
    exact mergeSorted (fun later hlater => hless later ((h₁.trans h₂).trans hlater)) hleft hright

end Sorting

end Lawful

/-! ## Calls -/

section Evaluator

variable {evaluator : ι → Evaluator} (h : r.Lawful) (he : r.Kept evaluator)

include h he

/-- Sorting calls key functions and comparisons, and gives a list of the elements. -/
theorem Lawful.sortElements {arguments : Arguments}
    (harguments : ∀ value ∈ arguments.values, r.has w value) {frame : FrameRef}
    (hserves : r.serves w frame) (position : Position) :
    r.Promises r.has w fun k =>
      Builtin.sortElements arguments (evaluator k) frame position := by
  refine (need harguments position "lst").bind fun w₁ target h₁ htarget => promises_read_bind ?_
  have helements := ((r.store w₁).gives_elements target).imp fun elements helements part hpart =>
    h.has_held htarget (helements part hpart)
  refine (promises_check (fun w' elements => ∀ part ∈ elements, r.has w' part) helements
    position).bind fun w₂ elements h₂ helements => ?_
  have harguments₂ := h.all_later (h₁.trans h₂) harguments
  have hfunction : (arguments.optionalAs "key" Value.asFunction).Gives fun found =>
      ∀ ref, found = some ref → r.calls w₂ ref :=
    (Arguments.gives_optionalAs Value.gives_asFunction).imp fun found hfound ref heq => by
      obtain ⟨value, hvalue, rfl⟩ := hfound ref heq
      exact harguments₂ _ hvalue
  refine (promises_check (fun w' found => ∀ ref, found = some ref → r.calls w' ref) hfunction
    position).bind fun w₃ keyFunction h₃ hkey => ?_
  -- elements are sorted in pairs with what the key function has given for them
  have hstable : r.Stable fun w' (pair : Value × Value) => r.has w' pair.1 ∧ r.has w' pair.2 :=
    fun _ _ _ hle hpair => hpair.imp (h.has_later hle) (h.has_later hle)
  refine Promises.bind (promises_mapM hstable fun w' hle element helement => ?_) fun w₄ keyed h₄ hkeyed => ?_
  · have helement' := h.has_later (h₃.trans hle) (helements element helement)
    cases keyFunction with
    | none => exact promises_pure (a := (element, element)) ⟨helement', helement'⟩
    | some function =>
      refine (he.call position (h.calls_later hle (hkey function rfl)) ?_
        (h.serves_later (((h₁.trans h₂).trans h₃).trans hle) hserves)).map
        fun later result hlater hresult => ⟨hresult, h.has_later hlater helement'⟩
      exact List.forall_mem_map.mpr (List.forall_mem_singleton.mpr helement')
  have hsnd : ∀ {sorted : List (Value × Value)} {w'}, (∀ pair ∈ sorted, r.has w' pair.2) →
      r.Promises r.has w' fun _ : ι => Run.placeList (sorted.map Prod.snd) := fun hsorted =>
    h.placeList (List.forall_mem_map.mpr hsorted)
  split
  · refine promises_read_bind (hsnd fun pair hpair => (hkeyed pair (List.mem_mergeSort.mp hpair)).2)
  next comparison hcomparison =>
    have hcompared := h.has_later ((h₃.trans h₄)) (harguments₂ comparison
      (Arguments.mem_values_of_optional hcomparison))
    have hcheck : comparison.asFunction.Gives fun ref => r.calls w₄ ref :=
      (Value.gives_asFunction comparison).imp fun ref heq => by
        rw [heq] at hcompared
        exact hcompared
    refine (promises_check r.calls hcheck position).bind fun w₅ function h₅ hcalls => ?_
    have hserves₅ := h.serves_later ((((h₁.trans h₂).trans h₃).trans h₄).trans h₅) hserves
    -- the pairs are promised in the world before the comparisons, which may come to later ones
    have hsorted : r.Promises
        (fun _ results => ∀ pair ∈ results, r.has w₅ (Prod.fst pair) ∧ r.has w₅ (Prod.snd pair)) w₅
        fun k => Builtin.sortHalves (fun a b : Value × Value => do
          let result ← (evaluator k).call function (Builtin.positional [a.1, b.1]) frame position
          return (← Run.check position result.asDecimal) < 0.0) keyed.length keyed := by
      refine Lawful.sortHalves (fun w' hle a b ha hb => ?_) _ fun pair hpair =>
        (hkeyed pair hpair).imp (h.has_later h₅) (h.has_later h₅)
      have hpair : r.hasArguments w' (Builtin.positional [a.1, b.1]) :=
        List.forall_mem_map.mpr (List.forall_mem_cons.mpr ⟨h.has_later hle ha.1,
          List.forall_mem_singleton.mpr (h.has_later hle hb.1)⟩)
      refine (he.call position (h.calls_later hle hcalls) hpair (h.serves_later hle hserves₅)).bind
        fun later result _ _ => ?_
      exact (promises_known (Value.known_asDecimal result) position).map fun _ _ _ _ => trivial
    exact hsorted.bind fun w₆ sorted h₆ hsorted =>
      hsnd fun pair hpair => h.has_later h₆ (hsorted pair hpair).2

omit h he in
/-- Faults of texts are no failures that a realm says anything about. -/
theorem promises_readSource (source : String) (position : Position) :
    r.Promises (fun _ _ => True) w fun _ : ι => Builtin.readSource source position := by
  unfold Builtin.readSource
  split
  · exact promises_pure trivial
  · exact promises_stop trivial

/-- What `eval` is given is evaluated in a new frame. -/
theorem Lawful.evaluateArgument {arguments : Arguments}
    (harguments : ∀ value ∈ arguments.values, r.has w value) {frame : FrameRef}
    (hruns : r.runs w (.builtin .eval)) (hserves : r.serves w frame) (position : Position) :
    r.Promises r.has w fun k =>
      Builtin.evaluateArgument arguments (evaluator k) frame position := by
  refine (need harguments position "obj").bind fun w₁ value h₁ _ => ?_
  have hevaluate : ∀ (w' : r.World) (node : Node), w₁ ≤ w' → r.Promises r.has w' fun k => (do
      let inner ← Run.enter frame Bindings.empty
      finish node.position ((evaluator k).node node inner) : Run Value) := by
    intro w' node hle
    obtain ⟨later, hlater, hstore, hallows⟩ := h.enters_eval (h.runs_later (h₁.trans hle) hruns)
      (h.serves_later (h₁.trans hle) hserves)
    have henter : r.Promises (fun later inner => r.allows later node inner) w'
        fun _ : ι => Run.enter frame Bindings.empty :=
      promises_modifyGet ⟨later, hlater, hstore, hallows node⟩
    exact henter.bind fun _ _ _ hallowed => promises_finish _ (he.node hallowed)
  cases value with
  | node ref => exact promises_read_bind (hevaluate w₁ _ le_rfl)
  | string source =>
    exact (promises_readSource source position).bind fun w' node hle _ => hevaluate w' node hle
  | _ => exact promises_fail_bind rfl position _

/-- A built-in function draws on its arguments, whichever it is. -/
theorem Lawful.builtin {arguments : Arguments}
    (harguments : ∀ value ∈ arguments.values, r.has w value) {frame : FrameRef}
    (hserves : r.serves w frame) (position : Position) {builtin : Builtin}
    (hruns : r.runs w (.builtin builtin)) :
    r.Promises r.has w fun k => builtin.run arguments (evaluator k) frame position := by
  -- a division by zero gives what a name is bound to, which is looked up in the frame of the caller
  have hdivided : ∀ {operation : Store → Value → Value → Checked Fresh},
      (∀ a b, (r.store w).DrawsFrom [a, b] (operation (r.store w) a b)) →
      r.Promises r.has w fun _ : ι =>
        Run.compute position (Builtin.divided arguments operation frame) := fun hoperation => by
    refine h.compute (Builtin.drawsFrom_divided hoperation) (fun source hsource => ?_) position
    rcases List.mem_append.mp hsource with hsource | hsource
    · exact harguments source hsource
    · exact h.has_peeked (hserves (.peek, Builtin.divisionFallbackName) (by simp [callUses]))
        (Option.mem_toList.mp hsource)
  cases builtin with
  | add =>
    exact h.compute (Builtin.drawsFrom_operate Store.drawsFrom_add) harguments position
  | sub =>
    exact h.compute (Builtin.drawsFrom_operate Store.drawsFrom_subtract) harguments position
  | mul =>
    refine h.compute (Builtin.drawsFrom_operate ?_) harguments position
    exact Store.drawsFrom_multiply
  | div => exact hdivided Store.drawsFrom_divide
  | mod => exact hdivided Store.drawsFrom_remainder
  | range =>
    have hnone : ∀ source ∈ ([] : List Value), r.has w source := nofun
    exact h.compute Builtin.drawsFrom_rangeItems hnone position
  | set => exact h.compute Builtin.drawsFrom_convertSet harguments position
  | equals => exact answer Builtin.known_areEqual position
  | notEquals => exact answer (Builtin.known_areEqual.map not) position
  | less | lessEquals | greater | greaterEquals => exact answer (Builtin.known_areOrdered _) position
  | isEmpty => exact answer Builtin.known_testEmpty position
  | isZero => exact answer Builtin.known_testZero position
  | isNegative => exact answer Builtin.known_testNegative position
  | isNumerical | isAlphanumerical => exact answer (Builtin.known_testChars _) position
  | isDate => exact answer Builtin.known_testDate position
  | isTime => exact answer Builtin.known_testTime position
  | startsWith | endsWith => exact answer (Builtin.known_testPart _) position
  | contains => exact answer Builtin.known_testContains position
  | matchesPattern => exact answer Builtin.known_testPattern position
  | type => exact bare ((arguments.gives_need "obj").map fun _ _ => rfl) position
  | int => exact bare Builtin.gives_convertInt position
  | decimal => exact bare Builtin.gives_convertDecimal position
  | length =>
    refine (need harguments position "obj").bind fun w' value _ _ => promises_read_bind ?_
    exact (promises_known ((r.store w').known_length value) position).map fun _ _ _ _ => trivial
  | sorted => exact h.sortElements he harguments hserves position
  | append => exact h.appendTo harguments position
  | string =>
    exact (need harguments position "obj").bind fun _ value _ _ =>
      promises_read_bind (promises_pure trivial)
  | list => exact h.convertList harguments position
  | date => exact promises_read_bind (bare Builtin.gives_convertDate position)
  | println => exact h.writeTo harguments hserves position "\n"
  | print => exact h.writeTo harguments hserves position ""
  | strInput =>
    refine (promises_known (arguments.known_needString "str") position).bind fun w' text _ _ => ?_
    have hsame : (r.store w').SameContents ((r.store w').placeInput ((Text.lines text).map .ok)).2 :=
      ⟨rfl, rfl, rfl, rfl, rfl, rfl⟩
    obtain ⟨later, hle, hstore⟩ := h.aside hsame
    exact promises_modifyGet ⟨later, hle, hstore, trivial⟩
  | readLine => exact h.readFrom harguments hserves position
  | parse =>
    refine (promises_known (arguments.known_needString "str") position).bind fun w' text _ _ => ?_
    refine (promises_readSource text position).bind fun w₁ node _ _ => ?_
    have hsame : (r.store w₁).SameContents ((r.store w₁).placeNode node).2 :=
      ⟨rfl, rfl, rfl, rfl, rfl, rfl⟩
    obtain ⟨later, hle, hstore⟩ := h.aside hsame
    exact promises_modifyGet ⟨later, hle, hstore, trivial⟩
  | eval => exact h.evaluateArgument he harguments hruns hserves position

/-! ## Functions of scripts -/

omit he in
/-- The values that an argument spreads into are arguments. -/
theorem Lawful.spreadArgument {value : Value} (hvalue : r.has w value) (position : Position) :
    r.Promises r.hasArguments w fun _ : ι => spreadArgument position value := by
  have hpositional : ∀ {value : Value}, r.has w value → r.Promises r.hasArguments w fun _ : ι => (do
      return Builtin.positional (← Run.check position (← Run.read (·.elements value))) :
        Run (List (Argument Value))) := by
    intro value hvalue
    have helements := ((r.store w).gives_elements value).imp fun elements helements part hpart =>
      h.has_held hvalue (helements part hpart)
    refine promises_read_bind ((promises_check (fun w' elements => ∀ part ∈ elements,
      r.has w' part) helements position).map fun _ _ _ helements => ?_)
    exact List.forall_mem_map.mpr helements
  have hnamed : r.Promises r.hasArguments w fun _ : ι => (do
      let entries ← Run.check position (← Run.read (·.spreadEntries value))
      Run.read fun store => entries.map fun entry =>
        (⟨some (store.plainText entry.1), entry.2⟩ : Argument Value) : Run (List (Argument Value))) := by
    have hentries := ((r.store w).gives_spreadEntries value).imp fun entries hentries entry hentry =>
      h.has_drawn_one hvalue (hentries entry hentry).2
    refine promises_read_bind ((promises_check (fun w' entries =>
      ∀ entry ∈ entries, r.has w' (Prod.snd entry)) hentries position).bind fun w' entries _ hentries =>
        promises_read ?_)
    exact List.forall_mem_map.mpr hentries
  cases value with
  | list | set => exact hpositional hvalue
  | _ => exact hnamed

/-- An argument is evaluated in the frame of the call. -/
theorem Lawful.argument {frame : FrameRef} {argument : Argument Node}
    (hallows : r.allows w argument.value frame) :
    r.Promises r.hasArguments w fun k => Ckl.evaluateArgument (evaluator k) frame argument := by
  unfold Ckl.evaluateArgument
  split
  next inner _ hform =>
    have hinner : r.allows w inner frame := h.allows_part hallows inner (by simp [hform, Form.here,
      Form.parts])
    exact (he.value hinner).bind fun w' value _ hvalue => h.spreadArgument hvalue inner.position
  next =>
    exact (he.value hallows).map fun w' value _ hvalue => List.forall_mem_singleton.mpr hvalue

/-- All arguments are, from the left. -/
theorem Lawful.arguments {frame : FrameRef} {arguments : List (Argument Node)}
    (hallows : ∀ argument ∈ arguments, r.allows w argument.value frame) :
    r.Promises r.hasArguments w fun k => evaluateArguments (evaluator k) frame arguments := by
  refine (promises_mapM h.hasArguments_later fun w' hle argument hargument =>
    h.argument he (h.allows_later hle (hallows argument hargument))).map
    fun w' groups _ hgroups argument hargument => ?_
  obtain ⟨group, hgroup, hargument⟩ := List.mem_flatten.mp hargument
  exact hgroups group hgroup argument hargument

omit he in
/-- The bindings with which a function is entered. -/
theorem Lawful.argumentBindings (function : Function) {arguments : List (Argument Value)}
    (harguments : r.hasArguments w arguments) (position : Position) :
    r.Promises (fun w' bindings => (∀ value ∈ Bindings.values bindings, r.has w' value) ∧
        bindings.names ⊆ function.parameters ++ function.rest.toList ∧
          ∀ name ∈ function.rest, bindings.binds name = true) w
      fun _ : ι => (do
        argumentBindings (← Run.check position (bindArguments function arguments)) : Run _) := by
  refine (promises_check (fun w' bound =>
    (∀ entry ∈ bound.parameters, entry.1 ∈ function.parameters ∧ r.has w' entry.2) ∧
      bound.rest.map Prod.fst = function.rest ∧
        ∀ rest ∈ bound.rest, ∀ value ∈ rest.2, r.has w' value)
    (gives_bindArguments harguments) position).bind fun w' bound _ hbound => ?_
  obtain ⟨hparameters, hname, hrest⟩ := hbound
  have hvalues : ∀ value ∈ (Bindings.empty.putAll bound.parameters).values, r.has w' value :=
    Bindings.forall_values_putAll nofun fun entry hentry =>
      (hparameters entry hentry).2
  have hnames : (Bindings.empty.putAll bound.parameters).names ⊆ function.parameters := by
    intro name hname
    rcases Bindings.mem_names_putAll.mp hname with hname | hname
    · cases hname
    · obtain ⟨entry, hentry, rfl⟩ := List.mem_map.mp hname
      exact (hparameters entry hentry).1
  unfold Ckl.argumentBindings
  cases hcase : bound.rest with
  | none =>
    rw [hcase] at hname
    refine promises_pure ⟨hvalues, fun name hmem => List.mem_append_left _ (hnames hmem), ?_⟩
    rw [← hname]
    exact nofun
  | some rest =>
    rw [hcase] at hname
    refine (h.placeList (hrest rest hcase)).map fun later list hlater hlist => ⟨?_, ?_, ?_⟩
    · exact Bindings.forall_values_put (h.all_later hlater hvalues) hlist
    · intro name hmem
      rcases Bindings.mem_names_put.mp hmem with hmem | rfl
      · exact List.mem_append_left _ (hnames hmem)
      · exact List.mem_append_right _ (by simp [← hname])
    · intro name hmem
      rw [← hname] at hmem
      cases hmem
      exact (Bindings.binds_iff _ _).mpr (Bindings.mem_names_put.mpr (.inr rfl))

/-- Parameters without arguments are bound to their fallbacks one by one, until only the body is awaited. -/
theorem Lawful.bindFallbacks {definition : Lambda Node} {frame : FrameRef}
    {parameters : List (Parameter Node)} (hawaits : r.awaits w definition parameters frame)
    (function : String) (position : Position) :
    r.Promises (fun w' _ => r.awaits w' definition [] frame) w fun k =>
      bindFallbacks (evaluator k) function frame position parameters := by
  induction parameters generalizing w with
  | nil => exact promises_pure (a := ()) hawaits
  | cons parameter rest ih =>
    refine promises_read_bind (promises_ite (fun _ => ?_) fun hbound => ?_)
    · cases hfallback : parameter.fallback with
      | none => exact promises_fail_bind rfl position _
      | some fallback =>
        refine (he.value (h.allows_fallback hawaits hfallback)).bind fun w' value hle hvalue => ?_
        obtain ⟨later, hlater, hstore, hrest⟩ :=
          h.binds_fallback (h.awaits_later hle hawaits) hvalue
        have hdefine : r.Promises (fun later _ => r.awaits later definition rest frame) w'
            fun _ : ι => Run.define frame parameter.name value :=
          promises_modify ⟨later, hlater, hstore, hrest⟩
        exact hdefine.bind fun _ _ _ hawaits => ih hawaits
    · refine ih (h.awaits_bound hawaits ?_)
      simpa [Option.isSome_iff_ne_none] using hbound

/-- A function of the realm called with arguments of the realm: its body, a built-in function or one of the
host. -/
theorem Lawful.invoke {function : Function} (hruns : r.runs w function)
    {arguments : List (Argument Value)} (harguments : r.hasArguments w arguments) {frame : FrameRef}
    (hserves : r.serves w frame) (position : Position) :
    r.Promises r.has w fun k => invoke (evaluator k) function arguments frame position := by
  have hbindings := h.argumentBindings (ι := ι) function harguments position
  unfold Ckl.invoke
  simp only [← bind_assoc]
  refine Promises.bind hbindings fun w₁ bindings h₁ hbound => ?_
  obtain ⟨hvalues, hnames, hrest⟩ := hbound
  have hruns₁ := h.runs_later h₁ hruns
  cases function with
  | builtin builtin => exact h.builtin he hvalues (h.serves_later h₁ hserves) position hruns₁
  | host host =>
    exact promises_read_bind (promises_conclude (h.hosts position hruns₁ hvalues))
  | lambda definition made =>
    obtain ⟨w₂, h₂, hstore, hawaits⟩ := h.enters_call hruns₁ hvalues hnames hrest
    have henter : r.Promises (fun later inner =>
        r.awaits later definition definition.parameters inner) w₁
        fun _ : ι => Run.enter made bindings :=
      promises_modifyGet ⟨w₂, h₂, hstore, hawaits⟩
    refine henter.bind fun w₃ inner h₃ hawaits => ?_
    exact (h.bindFallbacks he hawaits _ position).bind fun w₄ _ _ hawaits =>
      promises_finish _ (he.node (h.allows_body hawaits))

/-- A call, which adds its mark to failures. -/
theorem Lawful.callStep {ref : Ref .func} (hcalls : r.calls w ref)
    {arguments : List (Argument Value)} (harguments : r.hasArguments w arguments) {frame : FrameRef}
    (hserves : r.serves w frame) (position : Position) :
    r.Promises r.has w fun k => callStep (evaluator k) ref arguments frame position := by
  refine promises_read_bind ?_
  refine (promises_attempt (h.invoke he (h.runs_function hcalls) harguments hserves position)).bind
    fun w' outcome _ houtcome => ?_
  cases outcome with
  | ok value => exact promises_pure houtcome
  | error failure => exact promises_read_bind (promises_stop (fails_leaving.mpr houtcome))

/-! ## Modules -/

omit h he in
/-- A specifier is text, or it is missed. -/
theorem promises_moduleSpecifier (module : Node) (frame : FrameRef) :
    r.Promises (fun _ _ => True) w fun _ : ι => moduleSpecifier module frame := by
  unfold moduleSpecifier
  split
  · exact promises_pure trivial
  · refine promises_read_bind ?_
    split <;> exact promises_pure trivial
  · exact promises_fail rfl _

omit he in
/-- The names that an import lists are bound to what the module shows. -/
theorem Lawful.importNames {frame : FrameRef} (hpermits : ∀ name, r.permits w frame .define name)
    {names : Bindings Value} (hnames : ∀ value ∈ names.values, r.has w value) (identifier : String)
    (position : Position) (listed : List (String × String)) :
    r.Promises (fun _ _ => True) w fun _ : ι =>
      importNames frame identifier names position listed := by
  induction listed generalizing w with
  | nil => exact promises_pure (a := ()) trivial
  | cons entry rest ih =>
    cases hfound : names.get? entry.1 with
    | none =>
      simp only [Ckl.importNames, hfound]
      exact promises_fail_bind rfl position _
    | some value =>
      simp only [Ckl.importNames, hfound]
      exact (h.define (hpermits entry.2) (hnames value (Bindings.mem_values_of_get? hfound))).bind
        fun w' _ hle _ => ih (fun name => h.permits_later hle (hpermits name)) (h.all_later hle hnames)

omit he in
/-- A module is imported under its name, with all its names or with those that are listed. -/
theorem Lawful.bindModule {frame : FrameRef} (hpermits : ∀ name, r.permits w frame .define name)
    {names : Bindings Value} (hnames : ∀ value ∈ names.values, r.has w value) (identifier : String)
    (position : Position) (style : Source.ImportStyle) :
    r.Promises r.has w fun _ : ι => bindModule frame identifier names position style := by
  cases style with
  | unqualified =>
    exact (h.defineAll (fun entry _ => hpermits entry.1) fun entry hentry =>
      hnames entry.2 (List.mem_map_of_mem hentry)).bind fun _ _ _ _ => promises_pure trivial
  | listed listed =>
    exact (h.importNames hpermits hnames identifier position listed).bind fun _ _ _ _ =>
      promises_pure trivial
  | qualified localName =>
    have hparts : ∀ part ∈ (Fresh.object names).parts, r.has w part := hnames
    refine (h.place hparts).bind fun w₁ object h₁ hobject => ?_
    have hdefine : r.Promises (fun w' _ => r.has w' object) w₁
        fun _ : ι => Run.define frame (localName.getD identifier) object := by
      obtain ⟨w₂, h₂, hstore⟩ := h.defines (h.permits_later h₁ (hpermits (localName.getD identifier)))
        hobject
      exact promises_modify ⟨w₂, h₂, hstore, h.has_later h₂ hobject⟩
    exact hdefine.bind fun _ _ _ => promises_pure

/-- A module is loaded and then imported. -/
theorem Lawful.requireModule {module : Node} {style : Source.ImportStyle} {frame : FrameRef}
    {position : Position} (hallows : r.allows w (.mk position (.require module style)) frame) :
    r.Promises r.has w fun k => requireModule (evaluator k) module style frame position := by
  refine (promises_moduleSpecifier module frame).bind fun w₁ specifier h₁ _ => ?_
  have hallows₁ := h.allows_later h₁ hallows
  refine (h.modules he specifier position hallows₁).bind fun w₂ inner h₂ hbindings =>
    promises_read_bind ?_
  refine h.bindModule (h.permits_import (h.allows_later h₂ hallows₁)) (fun value hvalue => ?_) _ _ _
  obtain ⟨entry, hentry, rfl⟩ := List.mem_map.mp hvalue
  exact hbindings entry.2 (List.mem_map_of_mem (List.mem_of_mem_filter hentry))

/-! ## Steps -/

omit he in
/-- A place of a list, a map or an object is given a value. -/
theorem Lawful.assignIndex {target key value : Value} (htarget : r.has w target) (hkey : r.has w key)
    (hvalue : r.has w value) (position : Position) :
    r.Promises (fun _ _ => True) w fun _ : ι => assignIndex target key value position := by
  have hchanged : ∀ {w' container change added}, r.keeps w' container →
      (∀ value ∈ added, r.has w' value) → (r.store w').Alters (change (r.store w')) container added →
        r.Promises (fun _ _ => True) w' fun _ : ι => (modify change : Run Unit) := by
    intro w' container change added hkeeps hadded halters
    obtain ⟨later, hle, hstore⟩ := h.alters hkeeps hadded halters
    exact promises_modify ⟨later, hle, hstore, trivial⟩
  cases target with
  | list ref =>
    refine promises_read_bind ?_
    refine (promises_known (Store.known_slot key _) position).bind fun w' slot hle _ => ?_
    exact hchanged (h.keeps_later hle htarget)
      (List.forall_mem_singleton.mpr (h.has_later hle hvalue)) (Store.alters_setItem ref slot value)
  | map ref =>
    refine promises_read_bind ?_
    cases hreaches : (r.store w).reaches key (.map ref) with
    | true => exact promises_fail_bind rfl position _
    | false =>
      refine promises_read_bind (promises_read_bind ?_)
      exact hchanged htarget (List.forall_mem_cons.mpr ⟨hkey, List.forall_mem_singleton.mpr hvalue⟩)
        (Store.alters_putEntry hreaches)
  | object ref =>
    refine (promises_known (Value.known_asString key) position).bind fun w' name hle _ => ?_
    exact hchanged (h.keeps_later hle htarget)
      (List.forall_mem_singleton.mpr (h.has_later hle hvalue)) (Store.alters_putMember ref name value)
  | _ => exact promises_fail rfl position

omit he in
/-- The parts of a value for some names, each with its name. -/
theorem Lawful.partsFor {value : Value} (hvalue : r.has w value) (names : List String)
    (position : Position) :
    r.Promises (fun w' entries => ∀ entry ∈ entries, entry.1 ∈ names ∧ r.has w' (Prod.snd entry)) w
      fun _ : ι => partsFor names value position := by
  refine promises_read_bind ?_
  have hparts := ((r.store w).gives_destructure value names.length).imp
    fun elements helements part hpart => h.has_drawn_one hvalue (helements part hpart)
  refine (promises_check (fun w' elements => ∀ part ∈ elements, r.has w' part) hparts
    position).map fun w' elements _ helements entry hentry => ?_
  exact ⟨(List.of_mem_zip hentry).1, helements _ (List.of_mem_zip hentry).2⟩

/-- One step of evaluation, for every form of a node. -/
theorem Lawful.step {node : Node} {frame : FrameRef} (hallows : r.allows w node frame)
    (hgoes : ¬ r.halts w node frame) (rounds : Nat) :
    r.PromisesEval r.has w fun k => step rounds (evaluator k) node frame := by
  obtain ⟨place, form⟩ := node
  have hpart : ∀ part ∈ form.here, r.allows w part frame := h.allows_part hallows
  have huse : ∀ use ∈ form.uses, r.permits w frame use.1 use.2 := h.permits_use hallows hgoes
  have hnode : ∀ {w'}, w ≤ w' → ∀ part ∈ form.here,
      r.PromisesEval r.has w' fun k => (evaluator k).node part frame := fun hle part hmem =>
    he.node (h.allows_later hle (hpart part hmem))
  have htruth : ∀ {w'}, w ≤ w' → ∀ part ∈ form.here,
      r.PromisesEval (fun _ _ => True) w' fun k => evaluateTruth (evaluator k) part frame :=
    fun hle part hmem => he.evaluateTruth (h.allows_later hle (hpart part hmem))
  -- of each part the permission of the whole says what is permitted for it, also in later worlds
  cases form with
  | literal value => exact promisesEval_pure (by cases value <;> trivial)
  | name name => exact promisesEval_lift (h.lookup (huse (.look, name) (by simp [Form.uses])) _)
  | spread inner => exact promisesEval_lift (promises_fail rfl _)
  | list items => exact h.evaluateList he hpart
  | set items => exact h.evaluateSet he hpart
  | map items => exact h.evaluateMap he hpart
  | object members =>
    exact h.evaluateObject he fun member hmember => hpart _ (List.mem_map_of_mem hmember)
  | comprehension parts => exact h.evaluateComprehension he hallows
  | block body handlers cleanup => exact h.evaluateBlock he hallows hgoes
  | choice branches otherwise =>
    refine h.evaluateChoice he (fun branch hbranch => ⟨?_, ?_⟩) fun node hnode => ?_
    · exact hpart _ (List.mem_append_left _ (List.mem_flatMap.mpr ⟨branch, hbranch, by simp⟩))
    · exact hpart _ (List.mem_append_left _ (List.mem_flatMap.mpr ⟨branch, hbranch, by simp⟩))
    · exact hpart _ (List.mem_append_right _ (Option.mem_toList.mpr hnode))
  | and left right =>
    refine PromisesEval.bind (htruth le_rfl left (by simp [Form.here, Form.parts]))
      fun w₁ _ h₁ _ => promisesEval_ite (fun _ => ?_) fun _ => promisesEval_pure trivial
    exact PromisesEval.bind (htruth h₁ right (by simp [Form.here, Form.parts]))
      fun _ _ _ _ => promisesEval_pure trivial
  | or left right =>
    refine PromisesEval.bind (htruth le_rfl left (by simp [Form.here, Form.parts]))
      fun w₁ _ h₁ _ => promisesEval_ite (fun _ => promisesEval_pure trivial) fun _ => ?_
    exact PromisesEval.bind (htruth h₁ right (by simp [Form.here, Form.parts]))
      fun _ _ _ _ => promisesEval_pure trivial
  | not operand =>
    exact PromisesEval.bind (htruth le_rfl operand (by simp [Form.here, Form.parts]))
      fun _ _ _ _ => promisesEval_pure trivial
  | contained element container =>
    refine PromisesEval.bind (hnode le_rfl element (by simp [Form.here, Form.parts]))
      fun w₁ element h₁ _ => ?_
    refine PromisesEval.bind (hnode h₁ container (by simp [Form.here, Form.parts]))
      fun w₂ container h₂ _ => promisesEval_read_bind ?_
    exact promisesEval_lift_bind (promises_known (Store.known_contains container element) _)
      fun _ _ _ _ => promisesEval_pure trivial
  | call callee arguments =>
    refine PromisesEval.bind (hnode le_rfl callee (by simp [Form.here, Form.parts]))
      fun w₁ value h₁ hvalue => ?_
    -- what the world has as a function it can call
    have hfunction : value.asFunction.Gives fun ref => r.calls w₁ ref :=
      (Value.gives_asFunction value).imp fun ref heq => by
        rw [heq] at hvalue
        exact hvalue
    refine promisesEval_lift_bind (promises_check r.calls hfunction _)
      fun w₂ ref h₂ hcalls => ?_
    refine promisesEval_lift_bind (h.arguments he fun argument hargument =>
      h.allows_later (h₁.trans h₂) (hpart _ (List.mem_cons_of_mem _ (List.mem_map_of_mem hargument))))
      fun w₃ arguments h₃ harguments => promisesEval_lift ?_
    exact he.call _ (h.calls_later h₃ hcalls) harguments
      (h.serves_later ((h₁.trans h₂).trans h₃) huse)
  | index target key =>
    refine PromisesEval.bind (hnode le_rfl target (by simp [Form.here, Form.parts]))
      fun w₁ target h₁ htarget => ?_
    refine PromisesEval.bind (hnode h₁ key (by simp [Form.here, Form.parts]))
      fun w₂ key h₂ _ => promisesEval_read_bind (promisesEval_lift (promises_check _ ?_ _))
    exact ((r.store w₂).gives_index target key).imp fun _ => h.has_drawn_one (h.has_later h₂ htarget)
  | assignIndex target key value =>
    refine PromisesEval.bind (hnode le_rfl target (by simp [Form.here, Form.parts]))
      fun w₁ target h₁ htarget => ?_
    refine PromisesEval.bind (hnode h₁ key (by simp [Form.here, Form.parts]))
      fun w₂ key h₂ hkey => ?_
    refine PromisesEval.bind (hnode (h₁.trans h₂) value (by simp [Form.here, Form.parts]))
      fun w₃ value h₃ hvalue => ?_
    have hassign := h.assignIndex (ι := ι) (h.has_later (h₂.trans h₃) htarget) (h.has_later h₃ hkey)
      hvalue place
    -- the value is the result, and the assignment does not take it away
    have hkept : r.Promises (fun w' _ => r.has w' value) w₃
        fun _ : ι => Ckl.assignIndex target key value place := by
      exact hassign.mono fun w' _ hle _ => h.has_later hle hvalue
    exact promisesEval_lift_bind hkept fun _ _ _ => promisesEval_pure
  | invoke target member arguments =>
    refine PromisesEval.bind (hnode le_rfl target (by simp [Form.here, Form.parts]))
      fun w₁ target h₁ htarget => promisesEval_read_bind ?_
    have hfunction : ((r.store w₁).memberFunction target member).Gives fun ref => r.calls w₁ ref :=
      ((r.store w₁).gives_memberFunction target member).imp fun ref hheld => h.has_held htarget hheld
    refine promisesEval_lift_bind (promises_check r.calls hfunction _)
      fun w₂ ref h₂ hcalls => ?_
    refine promisesEval_lift_bind (h.arguments he fun argument hargument =>
      h.allows_later (h₁.trans h₂) (hpart _ (List.mem_cons_of_mem _ (List.mem_map_of_mem hargument))))
      fun w₃ arguments h₃ harguments => promisesEval_lift ?_
    exact he.call _ (h.calls_later h₃ hcalls) harguments
      (h.serves_later ((h₁.trans h₂).trans h₃) huse)
  | assign name value =>
    refine PromisesEval.bind (hnode le_rfl value (by simp [Form.here, Form.parts]))
      fun w₁ value h₁ hvalue => ?_
    have hpermits := h.permits_later h₁ (huse (.assign, name) (by simp [Form.uses]))
    refine promisesEval_lift_bind ((h.assign hpermits hvalue _).mono fun w' _ hle _ =>
      h.has_later hle hvalue) fun _ _ _ => promisesEval_pure
  | assignAll names value =>
    refine PromisesEval.bind (hnode le_rfl value (by simp [Form.here, Form.parts]))
      fun w₁ value h₁ hvalue => ?_
    refine promisesEval_lift_bind (h.partsFor hvalue names _) fun w₂ entries h₂ hentries => ?_
    have hassign : r.Promises (fun w' _ => r.has w' value) w₂
        fun _ : ι => assignAll frame place entries := by
      refine promises_forM (fun w' hle => h.has_later (h₂.trans hle) hvalue)
        fun w' hle entry hentry => ?_
      obtain ⟨hname, hpart⟩ := hentries entry hentry
      have hpermits := h.permits_later ((h₁.trans h₂).trans hle)
        (huse (.assign, entry.1) (List.mem_map_of_mem hname))
      exact (h.assign hpermits (h.has_later hle hpart) _).mono fun later _ hlater _ =>
        h.has_later ((h₂.trans hle).trans hlater) hvalue
    exact promisesEval_lift_bind hassign fun _ _ _ => promisesEval_pure
  | define name value =>
    refine PromisesEval.bind (hnode le_rfl value (by simp [Form.here, Form.parts]))
      fun w₁ value h₁ hvalue => ?_
    have hpermits := h.permits_later h₁ (huse (.define, name) (by simp [Form.uses]))
    refine promisesEval_lift_bind ((h.define hpermits hvalue).mono fun w' _ hle _ =>
      h.has_later hle hvalue) fun _ _ _ => promisesEval_pure
  | defineAll names value =>
    refine PromisesEval.bind (hnode le_rfl value (by simp [Form.here, Form.parts]))
      fun w₁ value h₁ hvalue => ?_
    refine promisesEval_lift_bind (h.partsFor hvalue names _) fun w₂ entries h₂ hentries => ?_
    have hpermits : ∀ entry ∈ entries, r.permits w₂ frame .define entry.1 := fun entry hentry =>
      h.permits_later (h₁.trans h₂)
        (huse (.define, entry.1) (List.mem_map_of_mem (hentries entry hentry).1))
    refine promisesEval_lift_bind ((h.defineAll hpermits fun entry hentry =>
      (hentries entry hentry).2).mono fun w' _ hle _ => h.has_later (h₂.trans hle) hvalue)
      fun _ _ _ => promisesEval_pure
  | function definition => exact promisesEval_lift (promises_modifyGet (h.makes hallows))
  | loop parts => exact h.evaluateLoop he hallows hgoes
  | loopWhile condition body =>
    have hnull : r.has w .null := trivial
    exact h.evaluateWhile he (hpart condition (by simp [Form.here, Form.parts, Source.throughLoop]))
      (hpart body (by simp [Form.here, Form.parts, Source.throughLoop])) hnull rounds
  | breakLoop => exact promisesEval_exit fun _ heq => by cases heq
  | continueLoop => exact promisesEval_exit fun _ heq => by cases heq
  | giveBack value =>
    cases value with
    | none => exact promisesEval_exit fun _ heq => by cases heq; trivial
    | some value =>
      exact PromisesEval.bind (hnode le_rfl value (by simp [Form.here, Form.parts]))
        fun _ _ _ hvalue => promisesEval_exit fun _ heq => by cases heq; exact hvalue
  | raise payload =>
    refine PromisesEval.bind (hnode le_rfl payload (by simp [Form.here, Form.parts]))
      fun w₁ value h₁ hvalue => promisesEval_read_bind ?_
    exact promisesEval_lift (promises_stop hvalue)
  | require module style => exact promisesEval_lift (h.requireModule he hallows)

end Evaluator

/-! ## Evaluation -/

/-- The watches agree, as far as the realm allows nodes at all: they bring about the same stops, none of them
by a failure, and stop where the realm halts. Some may stop the run before, where the realm has passed. -/
structure Agree (r : Realm) (watch : ι → Watch) : Prop where
  same : ∀ {w node frame}, r.allows w node frame → ∀ k,
    watch k node frame (r.store w) = watch default node frame (r.store w) ∨
      watch k node frame (r.store w) = some .exhausted ∧ r.passes w (r.store w)
  unfailed : ∀ {w node frame}, r.allows w node frame → ∀ failure,
    watch default node frame (r.store w) ≠ some (.failed failure)
  halted : ∀ {w node frame}, r.allows w node frame → r.halts w node frame →
    watch default node frame (r.store w) ≠ none

/-- Where the watches agree work goes on for all evaluators or stops for all, except for those that stop at
a moment that has been passed. -/
theorem promises_watchpoint {watch : ι → Watch} (hagree : r.Agree watch) {node : Node} {frame : FrameRef}
    (hallows : r.allows w node frame) :
    r.Promises (fun w' _ => ¬ r.halts w' node frame) w
      fun k => Run.watchpoint (watch k) node frame := by
  have hpoint : ∀ k, watch k node frame (r.store w) = watch default node frame (r.store w) →
      Run.watchpoint (watch k) node frame (r.store w) =
        Run.watchpoint (watch default) node frame (r.store w) := fun k hsame => by
    simp only [Run.watchpoint, hsame]
  refine ⟨w, le_rfl, ?_, fun k => (hagree.same hallows k).imp (hpoint k) fun h =>
    ⟨r.store w, h.2, Run.watchpoint_of_some h.1⟩⟩
  rcases hhere : watch default node frame (r.store w) with _ | failure | _ | path
  · simp only [Run.watchpoint_of_none hhere]
    exact ⟨rfl, fun hhalts => hagree.halted hallows hhalts hhere⟩
  · exact absurd hhere (hagree.unfailed hallows failure)
  all_goals
    simp only [Run.watchpoint_of_some hhere]
    rfl

/-- **Evaluation keeps within realms**, with all watches that agree on the realm at once. -/
theorem Lawful.kept_watched (h : r.Lawful) (watch : ι → Watch) (hagree : r.Agree watch) (bound : Nat) :
    r.Kept fun k => evaluatorWatched (watch k) bound := by
  induction bound with
  | zero =>
    exact ⟨fun _ => promisesEval_lift promises_exhausted, fun _ _ _ _ => promises_exhausted⟩
  | succ bound ih =>
    refine ⟨fun {w node frame} hallows => ?_, fun position hcalls harguments hserves => ?_⟩
    · exact (promises_watchpoint hagree hallows).bind fun w' _ hle hgoes =>
        h.step ih (h.allows_later hle hallows) hgoes bound
    · exact h.callStep ih hcalls harguments hserves position

section Cuts

variable (hgoes : ∀ {w node frame}, r.allows w node frame → ¬ r.halts w node frame)

include hgoes

open Classical in
/-- So it does with all cuts that are made where the first one is, in a realm that does not halt, if they are
made elsewhere only where the realm has passed. -/
theorem Lawful.kept_until (h : r.Lawful) (cut : ι → Cut)
    (hagree : ∀ {w node frame}, r.allows w node frame → ∀ k,
      (cut default node frame (r.store w) → cut k node frame (r.store w)) ∧
        (cut k node frame (r.store w) → cut default node frame (r.store w) ∨ r.passes w (r.store w)))
    (bound : Nat) : r.Kept fun k => evaluatorUntil (cut k) bound := by
  have hwatch : ∀ k, evaluatorUntil (cut k) bound = evaluatorWatched
      (fun node frame store => if cut k node frame store then some .exhausted else none) bound :=
    fun k => evaluatorUntil_eq_watched (fun h => if_pos h) (fun h => if_neg h) bound
  simp only [hwatch]
  refine h.kept_watched _ ⟨fun {w node frame} hallows k => ?_, fun _ failure hstop => ?_,
    fun hallows hhalts => absurd hhalts (hgoes hallows)⟩ bound
  · by_cases hcut : cut default node frame (r.store w)
    · exact .inl ((if_pos ((hagree hallows k).1 hcut)).trans (if_pos hcut).symm)
    · by_cases hk : cut k node frame (r.store w)
      · exact .inr ⟨if_pos hk, ((hagree hallows k).2 hk).resolve_left hcut⟩
      · exact .inl ((if_neg hk).trans (if_neg hcut).symm)
  · split at hstop <;> cases hstop

/-- Evaluation keeps within a realm that does not halt. -/
theorem Lawful.kept (h : r.Lawful) (bound : Nat) : r.Kept fun _ : Unit => evaluator bound := by
  have hkept := h.kept_until hgoes (fun _ : Unit => ⊥) (fun _ _ => ⟨id, .inl⟩) bound
  simpa only [evaluatorUntil_bot] using hkept

/-- Evaluation up to a cut that the realm does not come across, and without it. -/
theorem Lawful.kept_uncut (h : r.Lawful) (cut : Cut)
    (hnever : ∀ {w node frame}, r.allows w node frame → ¬ cut node frame (r.store w)) (bound : Nat) :
    r.Kept fun uncut : Bool => if uncut then evaluator bound else evaluatorUntil cut bound := by
  have hnone : ∀ {w node frame} (uncut : Bool), r.allows w node frame →
      ¬ (if uncut then ⊥ else cut) node frame (r.store w) := by
    intro w node frame uncut hallows
    cases uncut with
    | true => exact id
    | false => exact hnever hallows
  have hkept := h.kept_until hgoes (fun uncut : Bool => if uncut then ⊥ else cut)
    (fun hallows uncut => ⟨fun hcut => absurd hcut (hnone _ hallows), fun hcut =>
      absurd hcut (hnone uncut hallows)⟩) bound
  convert hkept using 2 with uncut
  cases uncut with
  | true => exact (evaluatorUntil_bot bound).symm
  | false => rfl

end Cuts

/-- Evaluation up to a cut, watched for another one that the realm does not come across before, and as it is.
The realm may halt where the cut is made. -/
theorem Lawful.kept_before (h : r.Lawful) (cut other : Cut)
    (hhalts : ∀ {w node frame}, r.allows w node frame → r.halts w node frame → cut node frame (r.store w))
    (hnever : ∀ {w node frame}, r.allows w node frame → ¬ other node frame (r.store w)) (stop : Stop)
    (bound : Nat) :
    r.Kept fun unwatched : Bool =>
      if unwatched then evaluatorUntil cut bound else evaluatorWatched (cut.before other stop) bound := by
  have hnone : ∀ {w node frame} (unwatched : Bool), r.allows w node frame →
      ¬ (if unwatched then ⊥ else other) node frame (r.store w) := by
    intro w node frame unwatched hallows
    cases unwatched with
    | true => exact id
    | false => exact hnever hallows
  have hcases : ∀ {w node frame}, r.allows w node frame → ∀ unwatched : Bool,
      (cut node frame (r.store w) →
          cut.before (if unwatched then ⊥ else other) stop node frame (r.store w) = some .exhausted) ∧
        (¬ cut node frame (r.store w) →
          cut.before (if unwatched then ⊥ else other) stop node frame (r.store w) = none) :=
    fun hallows unwatched => ⟨Cut.before_of_cut, fun hnot => Cut.before_of_not hnot (hnone unwatched hallows)⟩
  have hkept := h.kept_watched (fun unwatched : Bool => cut.before (if unwatched then ⊥ else other) stop)
    ⟨fun {w node frame} hallows k => .inl ?_, fun {w node frame} hallows failure hstop => ?_,
      fun {w node frame} hallows hstops hstop => ?_⟩ bound
  · convert hkept using 2 with unwatched
    cases unwatched with
    | true => exact evaluatorUntil_eq_before cut stop bound
    | false => rfl
  all_goals by_cases hcut : cut node frame (r.store w)
  · exact ((hcases hallows k).1 hcut).trans ((hcases hallows _).1 hcut).symm
  · exact ((hcases hallows k).2 hcut).trans ((hcases hallows _).2 hcut).symm
  · cases ((hcases hallows _).1 hcut).symm.trans hstop
  · cases ((hcases hallows _).2 hcut).symm.trans hstop
  · cases ((hcases hallows _).1 hcut).symm.trans hstop
  · exact hcut (hhalts hallows hstops)

end Ckl.Realm
