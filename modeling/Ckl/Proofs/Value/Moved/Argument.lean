import Ckl.Eval.Binding
import Ckl.Proofs.Value.Moved.Operation

/-!
# Arguments in stores with one list more

What built-in functions make of their arguments alone, or of these and what a store tells: the same from the
values with the other numbers and a twin, but for the numbers of lists.
-/

namespace Ckl

open Collection (Table KeySet KeyRule)

variable {gap : Nat} (arguments : Arguments)

namespace Arguments

/-- Arguments are moved with the values that are bound to the names of parameters. -/
theorem need_moved (name : String) :
    Arguments.need (arguments.map (Value.moved gap)) name = (arguments.need name).map (Value.moved gap) := by
  rw [need, need, Bindings.get?_map]
  cases arguments.get? name <;> rfl

/-- An optional argument is the moved one, if it is there. -/
theorem optional_moved (name : String) :
    Arguments.optional (arguments.map (Value.moved gap)) name =
      (arguments.optional name).map (Value.moved gap) := by
  rw [optional, optional, Bindings.get?_map]
  cases arguments.get? name with
  | none => rfl
  | some value =>
    rw [Option.map_some, Option.filter_some, Option.filter_some, Value.isNull_moved]
    split <;> rfl

/-- What is read of an argument does not depend on where it is stored. -/
theorem optionalAs_moved {α : Type} (name : String) {read : Value → Checked α}
    (hread : ∀ value, read (value.moved gap) = read value) :
    Arguments.optionalAs (arguments.map (Value.moved gap)) name read = arguments.optionalAs name read := by
  rw [optionalAs, optionalAs, optional_moved]
  cases arguments.optional name with
  | none => rfl
  | some value => exact congrArg (Except.map some) (hread value)

theorem needInt_moved (name : String) :
    Arguments.needInt (arguments.map (Value.moved gap)) name = arguments.needInt name := by
  rw [needInt, needInt, need_moved]
  cases arguments.need name with
  | error error => rfl
  | ok value => exact Value.asInt_moved value

theorem needString_moved (name : String) :
    Arguments.needString (arguments.map (Value.moved gap)) name = arguments.needString name := by
  rw [needString, needString, need_moved]
  cases arguments.need name with
  | error error => rfl
  | ok value => exact Value.asString_moved value

end Arguments

open Arguments

variable {store twin : Store} (h : Store.Twin gap store twin)

namespace Builtin

/-! ## Operations -/

/-- Operations on two arguments give moved results of moved arguments. -/
theorem operate_moved {operation : Store → Value → Value → Checked Fresh}
    (hoperation : ∀ a b, operation twin (a.moved gap) (b.moved gap) =
      (operation store a b).map (Fresh.moved gap)) :
    operate (arguments.map (Value.moved gap)) operation twin =
      (operate arguments operation store).map (Fresh.moved gap) := by
  rw [operate, operate, need_moved, need_moved]
  cases arguments.need "a" with
  | error error => rfl
  | ok a =>
    cases arguments.need "b" with
    | error error => rfl
    | ok b => exact hoperation a b

include h in
/-- Division does, with the fallback that the frame may bind. -/
theorem divided_moved (frame : FrameRef) {operation : Store → Value → Value → Checked Fresh}
    (hoperation : ∀ a b, operation twin (a.moved gap) (b.moved gap) =
      (operation store a b).map (Fresh.moved gap)) :
    divided (arguments.map (Value.moved gap)) operation frame twin =
      (divided arguments operation frame store).map (Fresh.moved gap) := by
  rw [divided, divided, need_moved, need_moved]
  cases arguments.need "a" with
  | error error => rfl
  | ok a =>
    cases arguments.need "b" with
    | error error => rfl
    | ok b =>
      have hfallback : ((twin.lookup? frame divisionFallbackName).filter fun value => !value.isNull) =
          ((store.lookup? frame divisionFallbackName).filter fun value => !value.isNull).map
            (Value.moved gap) := by
        rw [h.lookup?]
        cases store.lookup? frame divisionFallbackName with
        | none => rfl
        | some value =>
          rw [Option.map_some, Option.filter_some, Option.filter_some, Value.isNull_moved]
          split <;> rfl
      dsimp only [Except.map, bind, Except.bind]
      rw [hfallback]
      cases (store.lookup? frame divisionFallbackName).filter fun value => !value.isNull with
      | none => exact hoperation a b
      | some value =>
        dsimp only [Option.map]
        rw [Store.Twin.dividesByZero_moved]
        split
        · rfl
        · exact hoperation a b

/-! ## Conversions -/

/-- Conversions to numbers do not see references, -/
theorem convertInt_moved :
    convertInt (arguments.map (Value.moved gap)) = (convertInt arguments).map (Value.moved gap) := by
  rw [convertInt, convertInt, need_moved]
  cases arguments.need "obj" with
  | error error => rfl
  | ok value =>
    cases value with
    | string text =>
      dsimp only [Except.map, bind, Except.bind, Value.moved]
      cases Number.readWhole (Text.trimBlanks text.toList) <;> rfl
    | _ => rfl

theorem convertDecimal_moved :
    convertDecimal (arguments.map (Value.moved gap)) = (convertDecimal arguments).map (Value.moved gap) := by
  rw [convertDecimal, convertDecimal, need_moved]
  cases arguments.need "obj" with
  | error error => rfl
  | ok value =>
    cases value with
    | string text =>
      dsimp only [Except.map, bind, Except.bind, Value.moved]
      cases Number.readDecimal (Text.trimBlanks text.toList) <;> rfl
    | _ => rfl

include h in
/-- those to sets move the elements, -/
theorem convertSet_moved :
    convertSet twin (arguments.map (Value.moved gap)) =
      (convertSet store arguments).map (Fresh.moved gap) := by
  have hset : ∀ elements : List Value,
      Fresh.set (KeySet.ofList twin.keyRule (elements.map (Value.moved gap))) =
        (Fresh.set (KeySet.ofList store.keyRule elements)).moved gap := fun elements =>
    congrArg Fresh.set (KeySet.map_ofList h.keyRule elements).symm
  rw [convertSet, convertSet, need_moved]
  cases arguments.need "obj" with
  | error error => rfl
  | ok value =>
    have helements : (do
          let elements ← twin.elements (value.moved gap)
          return Fresh.set (KeySet.ofList twin.keyRule elements) : Checked Fresh) =
        (do
          let elements ← store.elements value
          return Fresh.set (KeySet.ofList store.keyRule elements) : Checked Fresh).map (Fresh.moved gap) := by
      rw [h.elements]
      cases store.elements value with
      | error error => rfl
      | ok elements => exact congrArg Except.ok (hset elements)
    cases value with
    | map ref =>
      refine congrArg Except.ok (Eq.trans ?_ (hset _))
      rw [h.sortedEntries, List.map_map, List.map_map]
      rfl
    | _ => exact helements

include h in
/-- and dates come from the same clock. -/
theorem convertDate_moved :
    convertDate twin (arguments.map (Value.moved gap)) =
      (convertDate store arguments).map (Value.moved gap) := by
  rw [convertDate, convertDate, optional_moved, optionalAs_moved _ _ Value.asString_moved, h.now]
  cases arguments.optional "obj" with
  | none => rfl
  | some value =>
    cases value with
    | string text =>
      cases arguments.optionalAs "fmt" Value.asString with
      | error error => rfl
      | ok format =>
        cases format with
        | none =>
          dsimp only [Option.map, Value.moved, Value.asString, bind, Except.bind]
          cases Calendar.readMoment text <;> rfl
        | some format =>
          dsimp only [Option.map, Value.moved, Value.asString, bind, Except.bind]
          cases (Calendar.Format.ofText format).readMoment text <;> rfl
    | _ => rfl

/-- Ranges are made of numbers. -/
theorem rangeItems_moved :
    rangeItems (arguments.map (Value.moved gap)) = (rangeItems arguments).map (Fresh.moved gap) := by
  have hlist : ∀ numbers : List Int64, Fresh.list (numbers.map Value.int).toArray =
      (Fresh.list (numbers.map Value.int).toArray).moved gap := by
    intro numbers
    refine congrArg Fresh.list ?_
    rw [List.map_toArray, List.map_map]
    rfl
  have hstep : ∀ start limit step : Int64,
      (if step == 0 then throw .zeroStep
        else return .list ((Number.progression start limit step).map Value.int).toArray : Checked Fresh) =
      (if step == 0 then throw .zeroStep
        else return .list ((Number.progression start limit step).map Value.int).toArray
          : Checked Fresh).map (Fresh.moved gap) := by
    intro start limit step
    split
    · rfl
    · exact congrArg Except.ok (hlist _)
  rw [rangeItems, rangeItems, optional_moved, optionalAs_moved _ _ Value.asInt_moved, needInt_moved]
  cases arguments.optional "b" with
  | none =>
    cases arguments.needInt "a" with
    | error error => rfl
    | ok limit =>
      cases arguments.optionalAs "step" Value.asInt with
      | error error => rfl
      | ok step => exact hstep 0 limit (step.getD 1)
  | some limit =>
    dsimp only [Option.map]
    rw [Value.asInt_moved]
    cases arguments.needInt "a" with
    | error error => rfl
    | ok start =>
      cases limit.asInt with
      | error error => rfl
      | ok limit =>
        cases arguments.optionalAs "step" Value.asInt with
        | error error => rfl
        | ok step => exact hstep start limit (step.getD 1)

/-! ## Tests -/

include h

/-- Tests come out the same for moved arguments. -/
theorem areEqual_moved :
    areEqual twin (arguments.map (Value.moved gap)) = areEqual store arguments := by
  rw [areEqual, areEqual, need_moved, need_moved]
  cases arguments.need "a" with
  | error error => rfl
  | ok a =>
    cases arguments.need "b" with
    | error error => rfl
    | ok b => exact congrArg Except.ok (h.equal a b)

/-- Moved values are in the same order. -/
theorem areOrdered_moved (accepted : Ordering → Bool) :
    areOrdered twin (arguments.map (Value.moved gap)) accepted = areOrdered store arguments accepted := by
  rw [areOrdered, areOrdered, need_moved, need_moved]
  -- The error is named: with `rfl` alone the two continuations, with the order in them, are compared first.
  cases arguments.need "a" with
  | error error => exact Eq.refl (Except.error error)
  | ok a =>
    cases arguments.need "b" with
    | error error => exact Eq.refl (Except.error error)
    | ok b => exact congrArg (fun ordering => Except.ok (accepted ordering)) (h.order a b)

/-- Moved values are empty alike. -/
theorem testEmpty_moved :
    testEmpty twin (arguments.map (Value.moved gap)) = testEmpty store arguments := by
  rw [testEmpty, testEmpty, need_moved]
  cases arguments.need "obj" with
  | error error => rfl
  | ok value =>
    dsimp only [Except.map, bind, Except.bind]
    rw [Value.isNull_moved, h.length]

/-- A moved value is in what is moved alike. -/
theorem testContains_moved :
    testContains twin (arguments.map (Value.moved gap)) = testContains store arguments := by
  rw [testContains, testContains, need_moved, need_moved]
  cases arguments.need "obj" with
  | error error => rfl
  | ok container =>
    cases arguments.need "part" with
    | error error => rfl
    | ok part => exact h.contains container part

omit h

theorem testZero_moved : testZero (arguments.map (Value.moved gap)) = testZero arguments := by
  rw [testZero, testZero, need_moved]
  cases arguments.need "obj" with
  | error error => rfl
  | ok value =>
    dsimp only [Except.map, bind, Except.bind]
    rw [Value.asDecimal_moved, Value.isZero_moved]

theorem testNegative_moved : testNegative (arguments.map (Value.moved gap)) = testNegative arguments := by
  rw [testNegative, testNegative, need_moved]
  cases arguments.need "obj" with
  | error error => rfl
  | ok value =>
    dsimp only [Except.map, bind, Except.bind]
    rw [Value.asDecimal_moved]

/-- Those of texts see only texts. -/
theorem testText_moved (test : String → Checked Bool) :
    testText (arguments.map (Value.moved gap)) test = testText arguments test := by
  rw [testText, testText, need_moved]
  cases arguments.need "str" with
  | error error => rfl
  | ok value => cases value <;> rfl

theorem testChars_moved (accept : Char → Bool) :
    testChars (arguments.map (Value.moved gap)) accept = testChars arguments accept := by
  rw [testChars, testChars, testText_moved]
  refine congrArg _ (funext fun text => ?_)
  rw [optionalAs_moved _ _ Value.asInt_moved, optionalAs_moved _ _ Value.asInt_moved,
    optionalAs_moved _ _ Value.asInt_moved]

/-- Whether a value is a date does not depend on references. -/
theorem testDate_moved : testDate (arguments.map (Value.moved gap)) = testDate arguments := by
  rw [testDate, testDate, testText_moved]
  refine congrArg _ (funext fun text => ?_)
  rw [optionalAs_moved _ _ Value.asBool_moved]

/-- Whether a value is a time does not depend on references. -/
theorem testTime_moved : testTime (arguments.map (Value.moved gap)) = testTime arguments :=
  testText_moved ..

/-- Whether a text is part of another does not depend on references. -/
theorem testPart_moved (test : List Char → List Char → Bool) :
    testPart (arguments.map (Value.moved gap)) test = testPart arguments test := by
  rw [testPart, testPart, needString_moved, needString_moved]

/-- Whether a text matches a pattern does not depend on references. -/
theorem testPattern_moved : testPattern (arguments.map (Value.moved gap)) = testPattern arguments := by
  rw [testPattern, testPattern, needString_moved, need_moved]
  cases arguments.needString "str" with
  | error error => rfl
  | ok text =>
    cases arguments.need "pattern" with
    | error error => rfl
    | ok value => cases value <;> rfl

end Builtin

/-! ## Binding arguments -/

open Source (Argument)

/-- The argument with the other numbers. -/
def Source.Argument.moved (gap : Nat) (argument : Argument Value) : Argument Value :=
  ⟨argument.name, argument.value.moved gap⟩

/-- The parameter with its argument, if it has one yet, with the other numbers. -/
def Slot.moved (gap : Nat) (slot : Slot) : Slot := ⟨slot.name, slot.value.map (Value.moved gap)⟩

/-- What becomes of a named argument, with the other numbers. -/
def Slot.Naming.moved (gap : Nat) : Slot.Naming → Slot.Naming
  | .filled slots => .filled (slots.map (Slot.moved gap))
  | naming => naming

/-- The parameters on the way to be bound, with the other numbers. -/
def Binding.moved (gap : Nat) (binding : Binding) : Binding :=
  ⟨binding.slots.map (Slot.moved gap), binding.surplus.map (Value.moved gap)⟩

/-- The bound arguments with the other numbers. -/
def BoundArguments.moved (gap : Nat) (bound : BoundArguments) : BoundArguments where
  parameters := bound.parameters.map (Bindings.mapEntry (Value.moved gap))
  rest := bound.rest.map (Prod.map id (List.map (Value.moved gap)))

/-- Slots are filled with moved values under the same names, -/
theorem Slot.fillNamed_moved (name : String) (value : Value) (slots : List Slot) :
    fillNamed name (value.moved gap) (slots.map (Slot.moved gap)) =
      (fillNamed name value slots).moved gap := by
  induction slots with
  | nil => rfl
  | cons slot rest ih =>
    rw [List.map_cons, fillNamed, fillNamed, ih]
    show (if slot.name = name then if (slot.value.map (Value.moved gap)).isSome then _ else _ else _) = _
    rw [Option.isSome_map]
    by_cases hname : slot.name = name
    · rw [if_pos hname, if_pos hname]
      split <;> rfl
    · rw [if_neg hname, if_neg hname]
      cases fillNamed name value rest <;> rfl

/-- and in the same order. -/
theorem Slot.fillNext_moved (value : Value) (slots : List Slot) :
    fillNext (value.moved gap) (slots.map (Slot.moved gap)) =
      (fillNext value slots).map (List.map (Slot.moved gap)) := by
  induction slots with
  | nil => rfl
  | cons slot rest ih =>
    rw [List.map_cons, fillNext, fillNext, ih]
    show (if (slot.value.map (Value.moved gap)).isNone then _ else _) = _
    rw [Option.isNone_map]
    split
    · rfl
    · cases fillNext value rest <;> rfl

/-- The names are bound to the moved values. -/
theorem Slot.bound_moved (slots : List Slot) :
    bound (slots.map (Slot.moved gap)) = (bound slots).map (Bindings.mapEntry (Value.moved gap)) := by
  rw [bound, bound, List.filterMap_map, List.map_filterMap]
  refine congrArg (List.filterMap · slots) (funext fun slot => ?_)
  show ((slot.value.map (Value.moved gap)).map _) = _
  cases slot.value <;> rfl

/-- A named argument is taken up or refused alike. -/
theorem Binding.addNamed_moved (function : Function) (binding : Binding) (name : String) (value : Value) :
    (binding.moved gap).addNamed function name (value.moved gap) =
      (binding.addNamed function name value).map (Binding.moved gap) := by
  rw [addNamed, addNamed, Binding.moved, Slot.fillNamed_moved]
  cases Slot.fillNamed name value binding.slots with
  | filled slots => rfl
  | taken => rfl
  | unknown =>
    show (if function.rest.isSome then _ else _) = Except.map _ (if function.rest.isSome then _ else _)
    split
    · have hsurplus : (binding.surplus ++ [value]).map (Value.moved gap) =
          binding.surplus.map (Value.moved gap) ++ [value.moved gap] := List.map_append
      exact congrArg (fun surplus => Except.ok (Binding.mk _ surplus)) hsurplus.symm
    · rfl

/-- So is a positional one. -/
theorem Binding.addPositional_moved (function : Function) (binding : Binding) (value : Value) :
    (binding.moved gap).addPositional function (value.moved gap) =
      (binding.addPositional function value).map (Binding.moved gap) := by
  rw [addPositional, addPositional, Binding.moved, Slot.fillNext_moved]
  cases Slot.fillNext value binding.slots with
  | some slots => rfl
  | none =>
    show (if function.rest.isSome then _ else _) = Except.map _ (if function.rest.isSome then _ else _)
    split
    · have hsurplus : (binding.surplus ++ [value]).map (Value.moved gap) =
          binding.surplus.map (Value.moved gap) ++ [value.moved gap] := List.map_append
      exact congrArg (fun surplus => Except.ok (Binding.mk _ surplus)) hsurplus.symm
    · rfl

/-- A fold commutes with a map that its steps commute with. -/
theorem Checked.foldlM_moved {α σ : Type} {f : α → α} {k : σ → σ} {next : σ → α → Checked σ}
    (hnext : ∀ state a, next (k state) (f a) = (next state a).map k) (items : List α) (state : σ) :
    (items.map f).foldlM next (k state) = (items.foldlM next state).map k := by
  induction items generalizing state with
  | nil => rfl
  | cons a items ih =>
    rw [List.map_cons, List.foldlM_cons, List.foldlM_cons, hnext]
    cases next state a with
    | error error => rfl
    | ok state => exact ih state

/-- All named arguments, -/
theorem Binding.foldlM_addNamed_moved (function : Function) (entries : List (String × Value))
    (binding : Binding) :
    (entries.map (Bindings.mapEntry (Value.moved gap))).foldlM
        (fun binding entry => Binding.addNamed function binding entry.1 entry.2) (binding.moved gap) =
      (entries.foldlM (fun binding entry => Binding.addNamed function binding entry.1 entry.2) binding).map
        (Binding.moved gap) :=
  Checked.foldlM_moved (fun binding entry => addNamed_moved function binding entry.1 entry.2) entries binding

/-- and all positional ones. -/
theorem Binding.foldlM_addPositional_moved (function : Function) (values : List Value)
    (binding : Binding) :
    (values.map (Value.moved gap)).foldlM (fun binding value => Binding.addPositional function binding value)
        (binding.moved gap) =
      (values.foldlM (fun binding value => Binding.addPositional function binding value) binding).map
        (Binding.moved gap) :=
  Checked.foldlM_moved (addPositional_moved function) values binding

/-- Which arguments are named is not changed by moving. -/
theorem namedArguments_moved (arguments : List (Argument Value)) :
    namedArguments (arguments.map (Argument.moved gap)) =
      (namedArguments arguments).map (Bindings.mapEntry (Value.moved gap)) := by
  rw [namedArguments, namedArguments, List.filterMap_map, List.map_filterMap]
  refine congrArg (List.filterMap · arguments) (funext fun argument => ?_)
  show argument.name.map _ = (argument.name.map _).map _
  cases argument.name <;> rfl

/-- The values without names are the moved ones. -/
theorem positionalArguments_moved (arguments : List (Argument Value)) :
    positionalArguments (arguments.map (Argument.moved gap)) =
      (positionalArguments arguments).map (Value.moved gap) := by
  rw [positionalArguments, positionalArguments, List.filter_map, List.map_map, List.map_map]
  rfl

/-- Arguments with the other numbers are bound to the same parameters. -/
theorem bindArguments_moved (function : Function) (arguments : List (Argument Value)) :
    bindArguments function (arguments.map (Argument.moved gap)) =
      (bindArguments function arguments).map (BoundArguments.moved gap) := by
  have hstart : Binding.mk (function.parameters.map fun name => { name }) [] =
      Binding.moved gap (Binding.mk (function.parameters.map fun name => { name }) []) := by
    rw [Binding.moved, List.map_map]
    rfl
  have hnames := @Binding.foldlM_addNamed_moved gap function (namedArguments arguments)
    (Binding.mk (function.parameters.map fun name => { name }) [])
  rw [← hstart] at hnames
  rw [bindArguments, bindArguments, namedArguments_moved, positionalArguments_moved, hnames]
  cases (namedArguments arguments).foldlM
      (fun binding entry => Binding.addNamed function binding entry.1 entry.2)
      (Binding.mk (function.parameters.map fun name => { name }) []) with
  | error error => rfl
  | ok named =>
    have hadded := @Binding.foldlM_addPositional_moved gap function (positionalArguments arguments)
      { named with surplus := [] }
    show (List.foldlM (fun binding value => Binding.addPositional function binding value)
      (Binding.moved gap { named with surplus := [] }) _ >>= _) =
        Except.map _ (List.foldlM (fun binding value => Binding.addPositional function binding value)
          { named with surplus := [] } _ >>= _)
    rw [hadded]
    cases (positionalArguments arguments).foldlM
        (fun binding value => Binding.addPositional function binding value)
        ({ named with surplus := [] } : Binding) with
    | error error => rfl
    | ok all =>
      have hrest : function.rest.map (fun name => (name, all.surplus.map (Value.moved gap) ++
          named.surplus.map (Value.moved gap))) = (function.rest.map fun name =>
            (name, all.surplus ++ named.surplus)).map (Prod.map id (List.map (Value.moved gap))) := by
        rw [Option.map_map]
        refine congrArg (Option.map · function.rest) (funext fun name => ?_)
        rw [Function.comp_apply, Prod.map_apply, List.map_append]
        rfl
      exact congrArg Except.ok (congrArg₂ BoundArguments.mk (Slot.bound_moved all.slots) hrest)

end Ckl
