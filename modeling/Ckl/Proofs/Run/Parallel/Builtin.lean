import Ckl.Builtin.Run
import Ckl.Proofs.Run.Parallel.Evaluation

/-!
# Built-in functions on stores with one list more

A built-in function ends alike on a store and on its twin if it is given the same arguments, with the other
numbers for lists.
-/

namespace Ckl

open Collection (Table KeySet)
open Source (Position Node Argument)

variable {gap : Nat}

/-- The end of a call turns exits into its result or failure on both sides alike. -/
theorem parallel_finish (position : Position) {work other : Eval Value}
    (h : ParallelEval gap (Value.moved gap) work other) :
    Parallel gap (Value.moved gap) (finish position work) (finish position other) := by
  refine Parallel.bind h fun outcome => ?_
  rcases outcome with (_ | _ | value) | value
  · exact parallel_fail _ (.misplaced .break) position
  · exact parallel_fail _ (.misplaced .continue) position
  · exact parallel_pure _ value
  · exact parallel_pure _ value

namespace Builtin

/-- A pair of values with the other numbers. -/
abbrev movedPair (gap : Nat) : Value × Value → Value × Value := Prod.map (Value.moved gap) (Value.moved gap)

/-! ## Sorting -/

section Sorting

variable {α : Type} {f : α → α} {less other : α → α → Run Bool}
  (hless : ∀ a b, Parallel gap id (less a b) (other (f a) (f b)))

include hless

/-- The place of an element among sorted ones is the same on both sides. -/
theorem parallel_insertSorted (element : α) (sorted : List α) :
    Parallel gap (List.map f) (insertSorted less element sorted)
      (insertSorted other (f element) (sorted.map f)) := by
  induction sorted with
  | nil => exact parallel_pure (List.map f) [element]
  | cons last others ih =>
    exact (hless element last).bind fun _ =>
      parallel_ite (ih.map fun _ => rfl) (parallel_pure (List.map f) (element :: last :: others))

/-- Insertion sort arranges both sides alike. -/
theorem parallel_insertionSort (elements : List α) :
    Parallel gap (List.map f) (insertionSort less elements) (insertionSort other (elements.map f)) := by
  have hsorted := @parallel_foldlM gap _ _ _ _ f (List.map f)
    (fun sorted element => insertSorted less element sorted)
    (fun sorted element => insertSorted other element sorted)
    (fun sorted element => parallel_insertSorted hless element sorted) elements []
  exact hsorted.map fun sorted => List.map_reverse.symm

/-- The merge of two sorted lists takes from the same sides. -/
theorem parallel_mergeSorted : ∀ as bs : List α,
    Parallel gap (List.map f) (mergeSorted less as bs) (mergeSorted other (as.map f) (bs.map f))
  | [], bs => by
    simp only [List.map_nil, mergeSorted]
    exact parallel_pure (List.map f) bs
  | a :: as, [] => by
    simp only [List.map_cons, List.map_nil, mergeSorted]
    exact parallel_pure (List.map f) (a :: as)
  | a :: as, b :: bs => by
    have hleft := parallel_mergeSorted (a :: as) bs
    have hright := parallel_mergeSorted as (b :: bs)
    simp only [List.map_cons, mergeSorted] at hleft hright ⊢
    refine (hless b a).bind fun _ => ?_
    exact parallel_ite (hleft.map fun _ => rfl) (hright.map fun _ => rfl)
termination_by as bs => as.length + bs.length

/-- Sorting by halves arranges both sides alike. -/
theorem parallel_sortHalves (bound : Nat) (elements : List α) :
    Parallel gap (List.map f) (sortHalves less bound elements)
      (sortHalves other bound (elements.map f)) := by
  induction bound generalizing elements with
  | zero => exact parallel_insertionSort hless elements
  | succ bound ih =>
    rw [sortHalves, sortHalves, List.length_map]
    dsimp only
    rw [← List.map_take, ← List.map_drop]
    refine parallel_ite (parallel_insertionSort hless elements) ?_
    exact (ih _).bind fun left => (ih _).bind (parallel_mergeSorted hless left)

/-- Sorting with comparisons that agree arranges both sides alike. -/
theorem parallel_sortWith (elements : List α) :
    Parallel gap (List.map f) (sortWith less elements) (sortWith other (elements.map f)) := by
  rw [sortWith, sortWith, List.length_map]
  exact parallel_sortHalves hless elements.length elements

end Sorting

/-! ## Streams and containers -/

variable (arguments : Arguments) (frame : FrameRef) (position : Position)

/-- An argument that is needed is the moved one, and is missed alike. -/
theorem parallel_needed (name : String) :
    Parallel gap (Value.moved gap) (Run.check position (arguments.need name))
      (Run.check position (Arguments.need (arguments.map (Value.moved gap)) name)) := by
  rw [Arguments.need_moved]
  exact parallel_check _ position _

/-- An argument that must be a string is the same one on both sides. -/
theorem parallel_neededString (name : String) :
    Parallel gap id (Run.check position (arguments.needString name))
      (Run.check position (Arguments.needString (arguments.map (Value.moved gap)) name)) := by
  rw [Arguments.needString_moved]
  exact parallel_check_same position _

/-- The stream that is given or found in the frame is the moved one. -/
theorem parallel_streamOr (argument name : String) :
    Parallel gap (Value.moved gap) (streamOr arguments argument name frame position)
      (streamOr (arguments.map (Value.moved gap)) argument name frame position) := by
  rw [streamOr, streamOr, Arguments.optional_moved]
  cases arguments.optional argument with
  | none => exact parallel_lookup frame name position
  | some value => exact parallel_pure _ value

/-- The text of a value is that of the moved value. -/
theorem parallel_plainText (value : Value) :
    Parallel gap id (Run.read (·.plainText value)) (Run.read (·.plainText (value.moved gap))) :=
  parallel_ask fun _ _ h => h.plainText value

/-- Writing puts the same text into the same stream. -/
theorem parallel_writeTo (ending : String) :
    Parallel gap (Value.moved gap) (writeTo arguments ending frame position)
      (writeTo (arguments.map (Value.moved gap)) ending frame position) := by
  have hwrite (text : String) : Parallel gap (Value.moved gap)
      (do
        let stream ← streamOr arguments "out" outputName frame position
        let output ← Run.check position stream.asOutput
        modify (·.write output (text ++ ending))
        return Value.null)
      (do
        let stream ← streamOr (arguments.map (Value.moved gap)) "out" outputName frame position
        let output ← Run.check position stream.asOutput
        modify (·.write output (text ++ ending))
        return Value.null) := by
    refine (parallel_streamOr arguments frame position _ _).bind fun stream => ?_
    rw [Value.asOutput_moved]
    refine (parallel_check_same position stream.asOutput).bind fun output => ?_
    exact (parallel_modify fun _ _ h => h.write output (text ++ ending)).map fun _ => rfl
  rw [writeTo, writeTo, Arguments.optional_moved]
  cases arguments.optional "obj" with
  | none => exact (parallel_pure id "").bind hwrite
  | some value => exact (parallel_plainText value).bind hwrite

/-- Reading takes the same from the same stream. -/
theorem parallel_readFrom :
    Parallel gap (Value.moved gap) (readFrom arguments frame position)
      (readFrom (arguments.map (Value.moved gap)) frame position) := by
  refine (parallel_streamOr arguments frame position _ _).bind fun stream => ?_
  rw [Value.asInput_moved]
  refine (parallel_check_same position stream.asInput).bind fun input => ?_
  refine (parallel_readLine input).map fun line => ?_
  cases line <;> rfl

/-- Whether one value reaches another is not changed by moving both. -/
theorem parallel_reaches (element target : Value) :
    Parallel gap id (Run.read (·.reaches element target))
      (Run.read (·.reaches (element.moved gap) (target.moved gap))) :=
  parallel_ask fun _ _ h => h.reaches element target

/-- The hash of a key is that of the moved key. -/
theorem parallel_hash (key : Value) :
    Parallel gap id (Run.read (·.keyRule.hash key)) (Run.read (·.keyRule.hash (key.moved gap))) :=
  parallel_ask fun _ _ h => h.keyRule.hash key

/-- Appending to a list or a set, with the guard against a set within itself. -/
theorem parallel_appendTo :
    Parallel gap (Value.moved gap) (appendTo arguments position)
      (appendTo (arguments.map (Value.moved gap)) position) := by
  refine (parallel_needed arguments position "lst").bind fun target => ?_
  refine (parallel_needed arguments position "element").bind fun element => ?_
  cases target with
  | list ref =>
    have hpush := @parallel_modify gap (·.changeItems ref (·.push element))
      (·.changeItems (ref.moved gap) (·.push (element.moved gap)))
      fun _ _ h => h.changeItems ref fun _ => Array.map_push
    exact hpush.map fun _ => rfl
  | set ref =>
    have hplace : Parallel gap (Value.moved gap)
        (do
          let known ← Run.read (·.hasKey ref element)
          let hash ← Run.read (·.keyRule.hash element)
          unless known do modify (·.changeKeySet ref (·.place ⟨hash, element, ()⟩ none))
          return Value.set ref)
        (do
          let known ← Run.read (·.hasKey ref (element.moved gap))
          let hash ← Run.read (·.keyRule.hash (element.moved gap))
          unless known do modify (·.changeKeySet ref (·.place ⟨hash, element.moved gap, ()⟩ none))
          return Value.set ref) := by
      refine (parallel_ask fun _ _ h => h.hasKey ref element).bind fun known => ?_
      refine (parallel_hash element).bind fun hash => ?_
      have hchange := @parallel_modify gap (·.changeKeySet ref (·.place ⟨hash, element, ()⟩ none))
        (·.changeKeySet ref (·.place ⟨hash, element.moved gap, ()⟩ none))
        fun _ _ h => h.changeKeySet ref fun keys => Table.map_place ..
      exact parallel_ite (parallel_pure _ (Value.set ref)) (hchange.map fun _ => rfl)
    refine (parallel_reaches element (.set ref)).bind fun reaches => ?_
    exact parallel_ite ((parallel_fail id _ position).bind fun _ => hplace) hplace
  | _ => exact (parallel_fail id _ position).bind fun _ => parallel_pure _ _

/-- The list made of a collection has its elements in the same order. -/
theorem parallel_convertList :
    Parallel gap (Value.moved gap) (convertList arguments position)
      (convertList (arguments.map (Value.moved gap)) position) := by
  refine (parallel_needed arguments position "obj").bind fun value => ?_
  have helements : Parallel gap (Value.moved gap)
      (do Run.placeList (← Run.check position (← Run.read (·.elements value))))
      (do Run.placeList (← Run.check position (← Run.read (·.elements (value.moved gap))))) :=
    (parallel_read fun _ _ h => h.elements value).bind fun elements =>
      (parallel_check _ position elements).bind parallel_placeList
  cases value with
  | map ref =>
    exact (parallel_read fun _ _ h => h.sortedEntries ref).bind fun entries =>
      (parallel_placePairs entries).bind parallel_placeList
  | string text =>
    have htexts : ((Text.graphemes text).map Value.string).map (Value.moved gap) =
        (Text.graphemes text).map Value.string := List.map_map
    have hplace := @parallel_placeList gap ((Text.graphemes text).map .string)
    rw [htexts] at hplace
    exact hplace
  | _ => exact helements

/-- The text of a script is read alike, as it depends on no reference. -/
theorem parallel_readSource (source : String) :
    Parallel gap id (readSource source position) (readSource source position) := by
  rw [readSource]
  cases Source.readScript position.file source with
  | ok node => exact parallel_pure id node
  | error fault => exact parallel_stop id (Failure.ofFault fault)

/-- A test whose answer is the same in twin stores. -/
theorem parallel_answer {test other : Store → Checked Bool}
    (h : ∀ ⦃store twin⦄, Store.Twin gap store twin → other twin = test store) :
    Parallel gap (Value.moved gap) (answer position test) (answer position other) :=
  (parallel_ask h).bind fun checked => (parallel_check_same position checked).map fun _ => rfl

/-! ## Functions that evaluate -/

section Evaluator

variable {evaluator : Evaluator} (he : evaluator.Parallel gap)

include he

/-- A function called back by a builtin, with moved arguments. -/
theorem parallel_callPositional (function : Ref .func) (values : List Value) :
    Parallel gap (Value.moved gap) (evaluator.call function (positional values) frame position)
      (evaluator.call function (positional (values.map (Value.moved gap))) frame position) := by
  have hcall := he.call function (positional values) frame position
  rw [positional, List.map_map] at hcall
  rw [positional, positional, List.map_map]
  exact hcall

/-- The comparison of two elements by a function of the script. -/
theorem parallel_compare (function : Ref .func) (a b : Value × Value) :
    Parallel gap id
      (do
        let result ← evaluator.call function (positional [a.1, b.1]) frame position
        return decide ((← Run.check position result.asDecimal) < 0.0))
      (do
        let result ← evaluator.call function (positional [a.1.moved gap, b.1.moved gap]) frame position
        return decide ((← Run.check position result.asDecimal) < 0.0)) := by
  refine (parallel_callPositional frame position he function [a.1, b.1]).bind fun result => ?_
  rw [Value.asDecimal_moved]
  exact (parallel_check_same position result.asDecimal).map fun _ => rfl

/-- Sorting with a comparison and a key that are functions of the script, or without them. -/
theorem parallel_sortElements :
    Parallel gap (Value.moved gap) (sortElements arguments evaluator frame position)
      (sortElements (arguments.map (Value.moved gap)) evaluator frame position) := by
  refine (parallel_needed arguments position "lst").bind fun target => ?_
  refine (parallel_read fun _ _ h => h.elements target).bind fun elements => ?_
  refine (parallel_check _ position elements).bind fun elements => ?_
  rw [Arguments.optionalAs_moved _ _ Value.asFunction_moved, Arguments.optional_moved]
  refine (parallel_check_same position _).bind fun keyFunction => ?_
  have hplace (sorted : List (Value × Value)) : Parallel gap (Value.moved gap)
      (Run.placeList (sorted.map Prod.snd)) (Run.placeList ((sorted.map (movedPair gap)).map Prod.snd)) := by
    have hsorted := @parallel_placeList gap (sorted.map Prod.snd)
    rw [List.map_map] at hsorted
    rw [List.map_map]
    exact hsorted
  refine Parallel.bind (@parallel_mapM gap _ _ _ _ (Value.moved gap) (movedPair gap) _ _
    (fun element => ?_) elements) fun keyed => ?_
  · cases keyFunction with
    | none => exact parallel_pure (movedPair gap) (element, element)
    | some function =>
      exact (parallel_callPositional frame position he function [element]).map fun _ => rfl
  cases arguments.optional "cmp" with
  | none =>
    refine (parallel_read fun _ _ h => ?_).bind hplace
    exact sortBy_map (fun a b => h.order a.1 b.1) keyed
  | some comparison =>
    dsimp only [Option.map]
    rw [Value.asFunction_moved]
    refine (parallel_check_same position comparison.asFunction).bind fun function => ?_
    refine (parallel_sortWith (fun a b => ?_) keyed).bind hplace
    exact parallel_compare frame position he function a b

/-- A text that is evaluated as a script. -/
theorem parallel_evaluateArgument :
    Parallel gap (Value.moved gap) (evaluateArgument arguments evaluator frame position)
      (evaluateArgument (arguments.map (Value.moved gap)) evaluator frame position) := by
  refine (parallel_needed arguments position "obj").bind fun value => ?_
  have hevaluate (node : Node) : Parallel gap (Value.moved gap)
      (do
        let inner ← Run.enter frame Bindings.empty
        finish node.position (evaluator.node node inner))
      (do
        let inner ← Run.enter frame Bindings.empty
        finish node.position (evaluator.node node inner)) :=
    (parallel_enter frame Bindings.empty).bind fun inner => parallel_finish _ (he.node node inner)
  cases value with
  | node ref => exact (parallel_ask fun _ _ h => h.tree ref).bind hevaluate
  | string source => exact (parallel_readSource position source).bind hevaluate
  | _ => exact (parallel_fail id _ position).bind hevaluate

/-- Every builtin does the same on moved arguments, up to the move of its result. -/
theorem parallel_builtin (builtin : Builtin) :
    Parallel gap (Value.moved gap) (builtin.run arguments evaluator frame position)
      (builtin.run (arguments.map (Value.moved gap)) evaluator frame position) := by
  cases builtin with
  | add => exact parallel_compute position fun _ _ h => operate_moved arguments h.add
  | sub => exact parallel_compute position fun _ _ h => operate_moved arguments h.subtract
  | mul => exact parallel_compute position fun _ _ h => operate_moved arguments h.multiply
  | div => exact parallel_compute position fun _ _ h => divided_moved arguments h frame Store.Twin.divide
  | mod => exact parallel_compute position fun _ _ h => divided_moved arguments h frame Store.Twin.remainder
  | range => exact parallel_compute position fun _ _ _ => rangeItems_moved arguments
  | set => exact parallel_compute position fun _ _ h => convertSet_moved arguments h
  | equals => exact parallel_answer position fun _ _ h => areEqual_moved arguments h
  | notEquals =>
    exact parallel_answer position fun _ _ h => congrArg (Except.map not) (areEqual_moved arguments h)
  | less | lessEquals | greater | greaterEquals =>
    exact parallel_answer position fun _ _ h => areOrdered_moved arguments h _
  | isEmpty => exact parallel_answer position fun _ _ h => testEmpty_moved arguments h
  | isZero => exact parallel_answer position fun _ _ _ => testZero_moved arguments
  | isNegative => exact parallel_answer position fun _ _ _ => testNegative_moved arguments
  | isNumerical | isAlphanumerical =>
    exact parallel_answer position fun _ _ _ => testChars_moved arguments _
  | isDate => exact parallel_answer position fun _ _ _ => testDate_moved arguments
  | isTime => exact parallel_answer position fun _ _ _ => testTime_moved arguments
  | startsWith | endsWith => exact parallel_answer position fun _ _ _ => testPart_moved arguments _
  | contains => exact parallel_answer position fun _ _ h => testContains_moved arguments h
  | matchesPattern => exact parallel_answer position fun _ _ _ => testPattern_moved arguments
  | length =>
    refine (parallel_needed arguments position "obj").bind fun value => ?_
    refine (parallel_ask fun _ _ h => h.length value).bind fun length => ?_
    exact (parallel_check_same position length).map fun _ => rfl
  | sorted => exact parallel_sortElements arguments frame position he
  | append => exact parallel_appendTo arguments position
  | type =>
    have htype : (Arguments.need (arguments.map (Value.moved gap)) "obj").map
        (fun value => Value.string value.type.name) =
          ((arguments.need "obj").map fun value => Value.string value.type.name).map (Value.moved gap) := by
      rw [Arguments.need_moved]
      cases arguments.need "obj" with
      | error error => rfl
      | ok value => exact congrArg (fun type => Except.ok (Value.string type.name)) value.type_moved
    have hgive := @parallel_check gap _ _ (Value.moved gap) position
      ((arguments.need "obj").map fun value => Value.string value.type.name)
    rw [← htype] at hgive
    exact hgive
  | string =>
    exact (parallel_needed arguments position "obj").bind fun value =>
      (parallel_plainText value).map fun _ => rfl
  | int =>
    have hgive := @parallel_check gap _ _ (Value.moved gap) position (convertInt arguments)
    rw [← convertInt_moved] at hgive
    exact hgive
  | decimal =>
    have hgive := @parallel_check gap _ _ (Value.moved gap) position (convertDecimal arguments)
    rw [← convertDecimal_moved] at hgive
    exact hgive
  | list => exact parallel_convertList arguments position
  | date =>
    exact (parallel_read fun _ _ h => convertDate_moved arguments h).bind fun checked =>
      parallel_check _ position checked
  | println => exact parallel_writeTo arguments frame position "\n"
  | print => exact parallel_writeTo arguments frame position ""
  | strInput =>
    exact (parallel_neededString arguments position "str").bind fun text =>
      parallel_modifyGet fun _ _ h => h.placeInput ((Text.lines text).map .ok)
  | readLine => exact parallel_readFrom arguments frame position
  | parse =>
    exact (parallel_neededString arguments position "str").bind fun source =>
      (parallel_readSource position source).bind fun node =>
        parallel_modifyGet fun _ _ h => h.placeNode node
  | eval => exact parallel_evaluateArgument arguments frame position he

end Evaluator

end Builtin

end Ckl
