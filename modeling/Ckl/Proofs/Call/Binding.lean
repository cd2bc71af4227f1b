import Mathlib.Data.List.Basic
import Ckl.Store
import Ckl.Eval.Binding

/-!
# Which arguments go to which parameters

A function tells which of its parameters named arguments claim, which ones are then open to positional
arguments, and what is left for its rest parameter. The places of parameters say all of this: a name claims
the first place where a parameter of this name stands. Binding goes through the named arguments and then
through the positional ones; what it has done so far has a closed form in both passes.
-/

namespace Ckl

open Source (Argument)

/-- The places of the parameters that no named argument claims, from left to right. -/
def openPlaces (function : Function) (arguments : List (Argument Value)) : List Nat :=
  (List.range function.parameters.length).filter fun place =>
    (namedArguments arguments).all fun argument => function.parameters.idxOf argument.1 != place

/-- The values left over: positional ones for which no parameter is open, then those whose names no
parameter has. -/
def surplusValues (function : Function) (arguments : List (Argument Value)) : List Value :=
  (positionalArguments arguments).drop (openPlaces function arguments).length ++
    ((namedArguments arguments).filter (·.1 ∉ function.parameters)).map (·.2)

/-- What arguments must meet to be bound. -/
structure Acceptable (function : Function) (arguments : List (Argument Value)) : Prop where
  /-- No two named arguments name the same parameter. -/
  once : (namedArguments arguments).Pairwise fun earlier later =>
    earlier.1 = later.1 → later.1 ∉ function.parameters
  /-- A name that no parameter has needs a rest parameter. -/
  known : ∀ argument ∈ namedArguments arguments,
    argument.1 ∈ function.parameters ∨ function.rest.isSome = true
  /-- So do more positional arguments than there are open parameters. -/
  room : (positionalArguments arguments).length ≤ (openPlaces function arguments).length ∨
    function.rest.isSome = true

/-- Parameters with the arguments that belong to them. -/
structure Arranged (function : Function) (arguments : List (Argument Value)) (slots : List Slot) :
    Prop where
  names : slots.map (·.name) = function.parameters
  /-- A named argument is at the first parameter of its name. -/
  named : ∀ argument ∈ namedArguments arguments, argument.1 ∈ function.parameters →
    slots[function.parameters.idxOf argument.1]? = some ⟨argument.1, some argument.2⟩
  /-- The positional arguments are at the open parameters, in order. -/
  positional : ∀ number place : Nat, (openPlaces function arguments)[number]? = some place →
    slots[place]?.bind Slot.value = (positionalArguments arguments)[number]?

namespace Slot

/-! ## Named arguments -/

/-- Parameters with the named arguments that claim them. Later parameters of the same name get nothing. -/
def claimed (named : List (String × Value)) : List String → List Slot
  | [] => []
  | name :: names => ⟨name, named.lookup name⟩ :: claimed (named.filter (·.1 ≠ name)) names

variable {named : List (String × Value)} {name : String} {value : Value} {names : List String}
  {slots : List Slot} {values : List Value}

@[simp] theorem claimed_nil : claimed named [] = [] := rfl

/-- The slots have the names of the parameters in order. -/
@[simp] theorem map_name_claimed : (claimed named names).map (·.name) = names := by
  induction names generalizing named with
  | nil => rfl
  | cons first names ih => rw [claimed, List.map_cons, ih]

/-- There is a slot for each parameter. -/
@[simp] theorem length_claimed : (claimed named names).length = names.length := by
  rw [← List.length_map (·.name), map_name_claimed]

/-- Without named arguments all slots are open. -/
theorem claimed_none : claimed [] names = names.map fun name => { name } := by
  induction names with
  | nil => rfl
  | cons first names ih => rw [claimed, List.filter_nil, ih, List.map_cons, List.lookup_nil]

/-- Dropping one name leaves the values of the others. -/
theorem lookup_filter_ne {other : String} (hne : name ≠ other) :
    (named.filter (·.1 ≠ other)).lookup name = named.lookup name := by
  induction named with
  | nil => rfl
  | cons first named ih =>
    by_cases hfirst : first.1 = other
    · rw [List.filter_cons_of_neg (by simpa using hfirst), ih, List.lookup_cons,
        show (name == first.1) = false by simpa [hfirst] using hne]
    · rw [List.filter_cons_of_pos (by simpa using hfirst), List.lookup_cons, List.lookup_cons, ih]

/-- A name that no parameter has changes nothing. -/
theorem claimed_append_of_not_mem (hname : name ∉ names) :
    claimed (named ++ [(name, value)]) names = claimed named names := by
  induction names generalizing named with
  | nil => rfl
  | cons first names ih =>
    have hfirst := List.ne_of_not_mem_cons hname
    have hnames := List.not_mem_of_not_mem_cons hname
    have hlookup : (named ++ [(name, value)]).lookup first = named.lookup first := by
      rw [List.lookup_append, List.lookup_cons, show (first == name) = false by simpa using Ne.symm hfirst,
        List.lookup_nil, Option.or_none]
    rw [claimed, claimed, hlookup, List.filter_append, List.filter_cons_of_pos (by simpa using hfirst),
      List.filter_nil, ih hnames]

/-- What becomes of one more named argument. -/
theorem fillNamed_claimed :
    fillNamed name value (claimed named names) =
      if name ∈ names then
        if (named.lookup name).isSome then .taken else .filled (claimed (named ++ [(name, value)]) names)
      else .unknown := by
  induction names generalizing named with
  | nil => rfl
  | cons first names ih =>
    rw [claimed, fillNamed]
    by_cases hfirst : first = name
    · subst hfirst
      rw [if_pos rfl, if_pos List.mem_cons_self]
      cases hlookup : named.lookup first with
      | some other => rfl
      | none =>
        have happended : (named ++ [(first, value)]).lookup first = some value := by
          rw [List.lookup_append, hlookup, List.lookup_cons_self, Option.none_or]
        rw [claimed, happended, List.filter_append, List.filter_cons_of_neg (by simp), List.filter_nil,
          List.append_nil]
    · have hne : name ≠ first := Ne.symm hfirst
      have hlookup : (named ++ [(name, value)]).lookup first = named.lookup first := by
        rw [List.lookup_append, List.lookup_cons, show (first == name) = false by simpa using hfirst,
          List.lookup_nil, Option.or_none]
      have hfilter : (named ++ [(name, value)]).filter (·.1 ≠ first) =
          named.filter (·.1 ≠ first) ++ [(name, value)] := by
        rw [List.filter_append, List.filter_cons_of_pos (by simpa using hne), List.filter_nil]
      rw [if_neg hfirst, ih, lookup_filter_ne hne, claimed, hlookup, hfilter]
      by_cases hmem : name ∈ names
      · rw [if_pos hmem, if_pos (List.mem_cons_of_mem _ hmem)]
        cases (named.lookup name).isSome <;> rfl
      · rw [if_neg hmem, if_neg (List.not_mem_cons_of_ne_of_not_mem hne hmem)]

/-- The value at a place: the one for its name, if no earlier parameter has this name. -/
theorem getElem?_claimed (place : Nat) :
    (claimed named names)[place]? = names[place]?.map fun name =>
      ⟨name, if names.idxOf name = place then named.lookup name else none⟩ := by
  induction names generalizing named place with
  | nil => rfl
  | cons first names ih =>
    cases place with
    | zero => simp [claimed]
    | succ place =>
      rw [claimed, List.getElem?_cons_succ, List.getElem?_cons_succ, ih]
      cases names[place]? with
      | none => rfl
      | some name =>
        by_cases hfirst : first = name
        · subst hfirst
          have hnone : (named.filter (·.1 ≠ first)).lookup first = none := by
            rw [List.lookup_eq_none_iff]
            intro argument hargument
            have hother : argument.1 ≠ first := by simpa using (List.mem_filter.mp hargument).2
            simpa using hother.symm
          rw [Option.map_some, Option.map_some, hnone, ite_self, List.idxOf_cons_self,
            if_neg (Nat.succ_ne_zero place).symm]
        · rw [Option.map_some, Option.map_some, lookup_filter_ne (Ne.symm hfirst),
            List.idxOf_cons_ne _ hfirst]
          simp

/-- Named arguments of different names are all there, if they name parameters. -/
theorem perm_filterMap_claimed
    (honce : named.Pairwise fun earlier later => earlier.1 = later.1 → later.1 ∉ names) :
    (claimed named names).filterMap (·.value) |>.Perm ((named.filter (·.1 ∈ names)).map (·.2)) := by
  induction names generalizing named with
  | nil => simp
  | cons first names ih =>
    have hrest : (named.filter (·.1 ≠ first)).Pairwise fun earlier later =>
        earlier.1 = later.1 → later.1 ∉ names :=
      (honce.filter _).imp fun h heq hmem => h heq (List.mem_cons_of_mem _ hmem)
    -- no other argument has the name of the first one that is claimed
    have hown : (named.filter (·.1 = first)).map (·.2) = (named.lookup first).toList := by
      clear ih hrest
      induction named with
      | nil => rfl
      | cons argument named ih =>
        obtain ⟨name, value⟩ := argument
        obtain ⟨hothers, honce⟩ := List.pairwise_cons.mp honce
        by_cases hname : name = first
        · subst hname
          have hnone : named.filter (·.1 = name) = [] := by
            refine List.filter_eq_nil_iff.mpr fun other hother => ?_
            have hne : other.1 ≠ name := fun heq => hothers other hother heq.symm (heq ▸ List.mem_cons_self)
            simpa using hne
          rw [List.filter_cons_of_pos (by simp), hnone, List.lookup_cons_self]
          rfl
        · rw [List.filter_cons_of_neg (by simpa using hname), ih honce, List.lookup_cons,
            show (first == name) = false by simpa using Ne.symm hname]
    -- those that are claimed by the first parameter and by the others are all that are claimed
    have hsplit : ((named.filter (·.1 = first)) ++ ((named.filter (·.1 ≠ first)).filter (·.1 ∈ names))).Perm
        (named.filter (·.1 ∈ first :: names)) := by
      have hperm := List.filter_append_perm (fun argument : String × Value => decide (argument.1 = first))
        (named.filter (·.1 ∈ first :: names))
      rw [List.filter_filter, List.filter_filter] at hperm
      refine (List.Perm.of_eq ?_).trans hperm
      rw [List.filter_filter]
      congr 1
      · refine List.filter_congr fun argument _ => ?_
        by_cases heq : argument.1 = first <;> simp [heq]
      · refine List.filter_congr fun argument _ => ?_
        by_cases heq : argument.1 = first <;> simp [heq]
    rw [claimed, List.filterMap_cons]
    have hhead : ((named.lookup first).toList ++
        (claimed (named.filter (·.1 ≠ first)) names).filterMap (·.value)).Perm
        ((named.filter (·.1 ∈ first :: names)).map (·.2)) := by
      rw [← hown]
      refine (List.Perm.append_left _ (ih hrest)).trans ?_
      rw [← List.map_append]
      exact hsplit.map _
    cases hlookup : named.lookup first with
    | none => simpa [hlookup] using hhead
    | some value => simpa [hlookup] using hhead

/-! ## Positional arguments -/

/-- Gives values to the parameters that have none, as far as they go. -/
def fillAll : List Value → List Slot → List Slot
  | _, [] => []
  | [], slots => slots
  | value :: values, slot :: slots =>
    if slot.value.isNone then { slot with value := some value } :: fillAll values slots
    else slot :: fillAll (value :: values) slots

/-- The places of the parameters that have no value. -/
def openAt (slots : List Slot) : List Nat :=
  (List.range slots.length).filter fun place => (slots[place]?.bind Slot.value).isNone

@[simp] theorem fillAll_nil : fillAll [] slots = slots := by
  cases slots <;> rfl

/-- The open slots are the first one, if it is open, and those behind it. -/
theorem openAt_cons (slot : Slot) (slots : List Slot) :
    openAt (slot :: slots) =
      (if slot.value.isNone then [0] else []) ++ (openAt slots).map (· + 1) := by
  have hlater : ((List.range slots.length).map Nat.succ).filter
      (fun place => ((slot :: slots)[place]?.bind Slot.value).isNone) = (openAt slots).map (· + 1) := by
    rw [List.filter_map]
    rfl
  rw [openAt, List.length_cons, List.range_succ_eq_map, List.filter_cons, hlater]
  cases hvalue : slot.value <;> simp [hvalue]

/-- What becomes of one positional argument. -/
theorem fillNext_cases (value : Value) (slots : List Slot) :
    (fillNext value slots = none ∧ openAt slots = [] ∧ ∀ values, fillAll values slots = slots) ∨
      ∃ filled, fillNext value slots = some filled ∧
        (openAt slots).length = (openAt filled).length + 1 ∧
          ∀ values, fillAll values filled = fillAll (value :: values) slots := by
  induction slots with
  | nil => exact .inl ⟨rfl, rfl, fun _ => rfl⟩
  | cons slot slots ih =>
    rw [fillNext, openAt_cons]
    cases hvalue : slot.value with
    | none =>
      refine .inr ⟨_, rfl, ?_, fun values => ?_⟩
      · simp [openAt_cons]
      · rw [fillAll, hvalue, if_pos Option.isNone_none]
        cases values with
        | nil => rw [fillAll_nil, fillAll_nil]
        | cons next values => rfl
    | some other =>
      have hstep : ∀ values slots', fillAll values (slot :: slots') = slot :: fillAll values slots' := by
        intro values slots'
        cases values with
        | nil => rw [fillAll_nil, fillAll_nil]
        | cons next values => simp [fillAll, hvalue]
      rcases ih with ⟨hnone, hopen, hfill⟩ | ⟨filled, hsome, hopen, hfill⟩
      · refine .inl ⟨by simp [hnone], by simp [hopen], fun values => ?_⟩
        rw [hstep, hfill]
      · refine .inr ⟨slot :: filled, by simp [hsome], ?_, fun values => ?_⟩
        · simp [openAt_cons, hvalue, hopen]
        · rw [hstep, hstep, hfill]

/-- Filling slots leaves their names. -/
@[simp] theorem map_name_fillAll (values : List Value) (slots : List Slot) :
    (fillAll values slots).map (·.name) = slots.map (·.name) := by
  fun_induction fillAll values slots with
  | case1 => rfl
  | case2 => rfl
  | case3 value values slot slots hopen ih => simp [ih]
  | case4 value values slot slots hopen ih => simp [ih]

/-- The parameters that have a value keep it. -/
theorem fillAll_of_some {place : Nat} {slot : Slot} (values : List Value)
    (hslot : slots[place]? = some slot) (hvalue : slot.value.isSome = true) :
    (fillAll values slots)[place]? = some slot := by
  fun_induction fillAll values slots generalizing place with
  | case1 => exact hslot
  | case2 => exact hslot
  | case3 value values first slots hopen ih =>
    cases place with
    | zero =>
      cases hslot
      simp [Option.isNone_iff_eq_none.mp hopen] at hvalue
    | succ place => exact ih hslot
  | case4 value values first slots hopen ih =>
    cases place with
    | zero => exact hslot
    | succ place => exact ih hslot

/-- The others get values in order. -/
theorem fillAll_openAt {number place : Nat} (values : List Value)
    (hplace : (openAt slots)[number]? = some place) :
    (fillAll values slots)[place]?.bind Slot.value = values[number]? := by
  fun_induction fillAll values slots generalizing number place with
  | case1 => cases hplace
  | case2 slots =>
    have hmem := List.mem_of_getElem? hplace
    simpa using (List.mem_filter.mp hmem).2
  | case3 value values slot slots hopen ih =>
    rw [openAt_cons, if_pos hopen, List.singleton_append] at hplace
    cases number with
    | zero =>
      cases hplace
      rfl
    | succ number =>
      rw [List.getElem?_cons_succ, List.getElem?_map, Option.map_eq_some_iff] at hplace
      obtain ⟨before, hbefore, rfl⟩ := hplace
      exact ih hbefore
  | case4 value values slot slots hopen ih =>
    rw [openAt_cons, if_neg hopen, List.nil_append, List.getElem?_map, Option.map_eq_some_iff] at hplace
    obtain ⟨before, hbefore, rfl⟩ := hplace
    exact ih hbefore

/-- No value gets lost on the way. -/
theorem perm_filterMap_fillAll (values : List Value) (slots : List Slot) :
    ((fillAll values slots).filterMap (·.value)).Perm
      (slots.filterMap (·.value) ++ values.take (openAt slots).length) := by
  fun_induction fillAll values slots with
  | case1 => simp [openAt]
  | case2 => simp
  | case3 value values slot slots hopen ih =>
    have hnone := Option.isNone_iff_eq_none.mp hopen
    rw [openAt_cons, if_pos hopen]
    simp only [List.filterMap_cons, hnone, List.singleton_append, List.length_cons, List.length_map,
      List.take_succ_cons]
    exact (ih.cons value).trans List.perm_middle.symm
  | case4 value values slot slots hopen ih =>
    obtain ⟨other, hother⟩ := Option.ne_none_iff_exists'.mp (mt Option.isNone_iff_eq_none.mpr hopen)
    rw [openAt_cons, if_neg hopen]
    simp only [List.filterMap_cons, hother, List.nil_append, List.length_map, List.cons_append]
    exact ih.cons other

end Slot

variable {function : Function} {arguments : List (Argument Value)}

/-! ## The two passes -/

/-- The names of some arguments can go to the parameters after those of others. -/
structure Nameable (function : Function) (done named : List (String × Value)) : Prop where
  once : named.Pairwise fun earlier later => earlier.1 = later.1 → later.1 ∉ function.parameters
  fresh : ∀ argument ∈ named, argument.1 ∈ function.parameters → done.lookup argument.1 = none
  known : ∀ argument ∈ named, argument.1 ∈ function.parameters ∨ function.rest.isSome = true

theorem nameable_nil (done : List (String × Value)) : Nameable function done [] where
  once := .nil
  fresh _ hmem := absurd hmem List.not_mem_nil
  known _ hmem := absurd hmem List.not_mem_nil

/-- A named argument is in order if its name is not taken yet and is known or collected. -/
theorem nameable_cons_iff {done named : List (String × Value)} {name : String} {value : Value} :
    Nameable function done ((name, value) :: named) ↔
      (name ∈ function.parameters → done.lookup name = none) ∧
        (name ∈ function.parameters ∨ function.rest.isSome = true) ∧
          Nameable function (done ++ [(name, value)]) named := by
  have hlookup : ∀ other, (done ++ [(name, value)]).lookup other = none ↔
      done.lookup other = none ∧ name ≠ other := by
    intro other
    rw [List.lookup_append, Option.or_eq_none_iff, List.lookup_cons]
    by_cases heq : other = name
    · simp [heq]
    · simp [show (other == name) = false by simpa using heq, Ne.symm heq]
  constructor
  · rintro ⟨honce, hfresh, hknown⟩
    obtain ⟨hothers, honce⟩ := List.pairwise_cons.mp honce
    refine ⟨hfresh _ List.mem_cons_self, hknown _ List.mem_cons_self, honce, fun other hother hmem => ?_,
      fun other hother => hknown other (List.mem_cons_of_mem _ hother)⟩
    exact (hlookup _).mpr ⟨hfresh other (List.mem_cons_of_mem _ hother) hmem,
      fun heq => hothers other hother heq hmem⟩
  · rintro ⟨hfresh, hknown, honce, hothers, hall⟩
    refine ⟨List.pairwise_cons.mpr ⟨fun other hother heq hmem => ?_, honce⟩, fun other hother hmem => ?_,
      List.forall_mem_cons.mpr ⟨hknown, hall⟩⟩
    · exact ((hlookup _).mp (hothers other hother hmem)).2 heq
    · rcases List.mem_cons.mp hother with rfl | hother
      · exact hfresh hmem
      · exact ((hlookup _).mp (hothers other hother hmem)).1

/-- The pass through the named arguments. -/
theorem foldlM_addNamed_iff {done named : List (String × Value)} {surplus : List Value}
    {binding : Binding} :
    named.foldlM (fun binding argument => binding.addNamed function argument.1 argument.2)
        (⟨Slot.claimed done function.parameters, surplus⟩ : Binding) = .ok binding ↔
      Nameable function done named ∧
        binding = ⟨Slot.claimed (done ++ named) function.parameters,
          surplus ++ (named.filter (·.1 ∉ function.parameters)).map (·.2)⟩ := by
  induction named generalizing done surplus with
  | nil =>
    simp only [List.foldlM_nil, List.append_nil, List.filter_nil, List.map_nil, nameable_nil, true_and]
    exact ⟨fun h => by cases h; rfl, fun h => h ▸ rfl⟩
  | cons argument named ih =>
    obtain ⟨name, value⟩ := argument
    rw [List.foldlM_cons, nameable_cons_iff, Binding.addNamed, Slot.fillNamed_claimed]
    by_cases hname : name ∈ function.parameters
    · rw [if_pos hname, List.filter_cons_of_neg (by simpa using hname)]
      cases hlookup : done.lookup name with
      | none =>
        have hrest := @ih (done ++ [(name, value)]) surplus
        rw [List.append_assoc, List.singleton_append] at hrest
        simpa [hname, bind, Except.bind] using hrest
      | some other => simp [hname, bind, Except.bind]
    · rw [if_neg hname, List.filter_cons_of_pos (by simpa using hname)]
      cases hrest : function.rest.isSome with
      | false => simp [hname, bind, Except.bind]
      | true =>
        have hmore := @ih (done ++ [(name, value)]) (surplus ++ [value])
        rw [List.append_assoc, List.singleton_append, Slot.claimed_append_of_not_mem hname] at hmore
        simpa [hname, bind, Except.bind] using hmore

/-- The pass through the positional arguments. -/
theorem foldlM_addPositional_iff {slots : List Slot} {values surplus : List Value} {binding : Binding} :
    values.foldlM (fun binding value => binding.addPositional function value)
        (⟨slots, surplus⟩ : Binding) = .ok binding ↔
      (values.length ≤ (Slot.openAt slots).length ∨ function.rest.isSome = true) ∧
        binding = ⟨Slot.fillAll values slots, surplus ++ values.drop (Slot.openAt slots).length⟩ := by
  induction values generalizing slots surplus with
  | nil =>
    simp only [List.foldlM_nil, List.length_nil, Nat.zero_le, true_or, true_and, Slot.fillAll_nil,
      List.drop_nil, List.append_nil]
    exact ⟨fun h => by cases h; rfl, fun h => h ▸ rfl⟩
  | cons value values ih =>
    rw [List.foldlM_cons, Binding.addPositional]
    rcases Slot.fillNext_cases value slots with ⟨hnone, hopen, hfill⟩ | ⟨filled, hsome, hopen, hfill⟩
    · rw [hnone, hopen, hfill]
      cases hrest : function.rest.isSome with
      | false => simp [bind, Except.bind]
      | true =>
        have hmore := @ih slots (surplus ++ [value])
        rw [hopen, hfill] at hmore
        simpa [hrest, bind, Except.bind] using hmore
    · have hmore := @ih filled surplus
      rw [hfill] at hmore
      rw [hsome, hopen]
      simpa [bind, Except.bind] using hmore

/-! ## Arrangements -/

/-- A place is open if no value has been given to it after the pass through the named arguments. -/
theorem openPlaces_eq (function : Function) (arguments : List (Argument Value)) :
    openPlaces function arguments =
      Slot.openAt (Slot.claimed (namedArguments arguments) function.parameters) := by
  rw [openPlaces, Slot.openAt, Slot.length_claimed]
  refine List.filter_congr fun place hplace => ?_
  have hlt := List.mem_range.mp hplace
  have hown : function.parameters[place]? = some function.parameters[place] := List.getElem?_eq_getElem hlt
  rw [Slot.getElem?_claimed, hown, Option.map_some, Option.bind_some]
  by_cases hfirst : function.parameters.idxOf function.parameters[place] = place
  · rw [if_pos hfirst, Bool.eq_iff_iff, List.all_eq_true, Option.isNone_iff_eq_none,
      List.lookup_eq_none_iff]
    refine forall₂_congr fun argument _ => ?_
    rw [bne_iff_ne, bne_iff_ne, not_iff_not]
    constructor
    · rintro rfl
      exact List.getElem_idxOf hlt
    · intro heq
      rw [← heq, hfirst]
  · rw [if_neg hfirst, Option.isNone_none, List.all_eq_true]
    intro argument _
    rw [bne_iff_ne]
    intro heq
    subst heq
    rw [List.getElem_idxOf hlt] at hfirst
    exact hfirst rfl

/-- What binding gives to the parameters. -/
def filledSlots (function : Function) (arguments : List (Argument Value)) : List Slot :=
  Slot.fillAll (positionalArguments arguments)
    (Slot.claimed (namedArguments arguments) function.parameters)

/-- The slots as they are filled are an arrangement of the arguments. -/
theorem arranged_filledSlots (haccepts : Acceptable function arguments) :
    Arranged function arguments (filledSlots function arguments) where
  names := by rw [filledSlots, Slot.map_name_fillAll, Slot.map_name_claimed]
  named argument hargument hmem := by
    obtain ⟨name, value⟩ := argument
    have hlookup : (namedArguments arguments).lookup name = some value := by
      obtain ⟨before, after, hsplit⟩ := List.append_of_mem hargument
      have honce := haccepts.once
      rw [hsplit] at honce ⊢
      have hnone : before.lookup name = none := by
        refine List.lookup_eq_none_iff.mpr fun other hother => bne_iff_ne.mpr fun heq => ?_
        exact (List.pairwise_append.mp honce).2.2 other hother _ List.mem_cons_self heq.symm hmem
      rw [List.lookup_append, hnone, Option.none_or, List.lookup_cons_self]
    refine Slot.fillAll_of_some _ ?_ rfl
    rw [Slot.getElem?_claimed, List.getElem?_eq_getElem (List.idxOf_lt_length_iff.mpr hmem),
      List.getElem_idxOf, Option.map_some, if_pos rfl, hlookup]
  positional number place hplace := by
    rw [openPlaces_eq] at hplace
    exact Slot.fillAll_openAt _ hplace

/-- There is one arrangement at most. -/
theorem Arranged.eq {slots others : List Slot} (h : Arranged function arguments slots)
    (hothers : Arranged function arguments others) : slots = others := by
  have hname : ∀ {slots : List Slot}, Arranged function arguments slots → ∀ place : Nat,
      slots[place]?.map (·.name) = function.parameters[place]? := fun h place => by
    rw [← h.names, List.getElem?_map]
  refine List.ext_getElem? fun place => ?_
  by_cases hopen : place ∈ openPlaces function arguments
  · obtain ⟨number, hnumber⟩ := List.getElem?_of_mem hopen
    have hvalues := (h.positional number place hnumber).trans (hothers.positional number place hnumber).symm
    have hnames := (hname h place).trans (hname hothers place).symm
    rcases hslot : slots[place]? with _ | ⟨name, value⟩ <;>
      rcases hother : others[place]? with _ | ⟨otherName, otherValue⟩ <;>
        simp_all
  · by_cases hlt : place < function.parameters.length
    · rw [openPlaces, List.mem_filter] at hopen
      simp only [List.mem_range, hlt, true_and, List.all_eq_true, bne_iff_ne, not_forall, not_not] at hopen
      obtain ⟨argument, hargument, rfl⟩ := hopen
      have hmem := List.idxOf_lt_length_iff.mp hlt
      rw [h.named argument hargument hmem, hothers.named argument hargument hmem]
    · have hnone : function.parameters[place]? = none := List.getElem?_eq_none (Nat.le_of_not_lt hlt)
      have hslots := (hname h place).trans hnone
      have hother := (hname hothers place).trans hnone
      rw [Option.map_eq_none_iff] at hslots hother
      rw [hslots, hother]

/-- Binding is the pass through the positional arguments after that through the named ones. -/
theorem bindArguments_eq_ok_iff {bound : BoundArguments} :
    bindArguments function arguments = .ok bound ↔
      Acceptable function arguments ∧ bound = {
        parameters := Slot.bound (filledSlots function arguments)
        rest := function.rest.map fun name => (name, surplusValues function arguments) } := by
  have haccepts : Acceptable function arguments ↔ Nameable function [] (namedArguments arguments) ∧
      ((positionalArguments arguments).length ≤ (openPlaces function arguments).length ∨
        function.rest.isSome = true) :=
    ⟨fun h => ⟨⟨h.once, fun _ _ _ => rfl, h.known⟩, h.room⟩, fun h => ⟨h.1.once, h.1.known, h.2⟩⟩
  -- the first pass leaves the claimed slots, and the second one begins with these
  have hnamed := @foldlM_addNamed_iff function [] (namedArguments arguments) []
  have hpositional := @foldlM_addPositional_iff function
    (Slot.claimed (namedArguments arguments) function.parameters) (positionalArguments arguments) []
  rw [Slot.claimed_none, List.nil_append, List.nil_append] at hnamed
  rw [← openPlaces_eq, List.nil_append] at hpositional
  rw [bindArguments]
  constructor
  · intro hbinds
    cases hfirst : (namedArguments arguments).foldlM
        (fun binding argument => binding.addNamed function argument.1 argument.2)
        ({ slots := function.parameters.map fun name => { name } } : Binding) with
    | error failure =>
      rw [hfirst] at hbinds
      cases hbinds
    | ok named =>
      obtain ⟨hnameable, rfl⟩ := hnamed.mp hfirst
      rw [hfirst] at hbinds
      dsimp only [bind, Except.bind] at hbinds
      cases hsecond : (positionalArguments arguments).foldlM
          (fun binding value => binding.addPositional function value)
          ({ slots := Slot.claimed (namedArguments arguments) function.parameters } : Binding) with
      | error failure =>
        rw [hsecond] at hbinds
        cases hbinds
      | ok all =>
        obtain ⟨hroom, rfl⟩ := hpositional.mp hsecond
        rw [hsecond] at hbinds
        cases hbinds
        exact ⟨haccepts.mpr ⟨hnameable, hroom⟩, rfl⟩
  · rintro ⟨hmeets, rfl⟩
    obtain ⟨hnameable, hroom⟩ := haccepts.mp hmeets
    rw [hnamed.mpr ⟨hnameable, rfl⟩]
    dsimp only [bind, Except.bind]
    rw [hpositional.mpr ⟨hroom, rfl⟩]
    rfl

/-- Nothing is left over without a rest parameter. -/
theorem surplusValues_of_rest_none (haccepts : Acceptable function arguments) (hrest : function.rest = none) :
    surplusValues function arguments = [] := by
  have hroom := haccepts.room
  have hknown := haccepts.known
  simp only [hrest, Option.isSome_none, Bool.false_eq_true, or_false] at hroom hknown
  rw [surplusValues, List.drop_eq_nil_of_le hroom, List.nil_append, List.map_eq_nil_iff,
    List.filter_eq_nil_iff]
  intro argument hargument
  simpa using hknown argument hargument

/-- The values with and without names are all the values. -/
theorem perm_named_positional (arguments : List (Argument Value)) :
    ((namedArguments arguments).map (·.2) ++ positionalArguments arguments).Perm
      (arguments.map (·.value)) := by
  induction arguments with
  | nil => exact .nil
  | cons argument arguments ih =>
    obtain ⟨_ | name, value⟩ := argument
    · exact List.perm_middle.trans (ih.cons value)
    · exact ih.cons value

/-- The parameters have the values that are not left over. -/
theorem perm_filledSlots (haccepts : Acceptable function arguments) :
    ((filledSlots function arguments).filterMap (·.value) ++ surplusValues function arguments).Perm
      (arguments.map (·.value)) := by
  have hfilled := Slot.perm_filterMap_fillAll (positionalArguments arguments)
    (Slot.claimed (namedArguments arguments) function.parameters)
  rw [← openPlaces_eq] at hfilled
  have hclaimed := Slot.perm_filterMap_claimed haccepts.once
  have hnamed := (List.filter_append_perm (fun argument : String × Value =>
    decide (argument.1 ∈ function.parameters)) (namedArguments arguments)).map (·.2)
  rw [List.map_append] at hnamed
  refine List.Perm.trans ?_ (perm_named_positional arguments)
  refine ((hfilled.trans (hclaimed.append_right _)).append_right _).trans ?_
  refine List.Perm.trans ?_ (hnamed.append_right _)
  rw [surplusValues, List.append_assoc, List.append_assoc, ← List.append_assoc (List.take _ _),
    List.take_append_drop]
  refine List.Perm.append_left _ ?_
  simpa using List.perm_append_comm

/-- **Arguments are bound without loss, repetition or change of order.** They are accepted by a function
if and only if they meet three conditions, and then there is only one arrangement: named arguments are at
the first parameters of their names, positional ones at the open parameters in order, and the rest
parameter gets what is left over. So every value is bound once. How named and positional arguments are
mixed has no influence. -/
theorem bindArguments_arranges (function : Function) (arguments : List (Argument Value)) :
    (∀ bound, bindArguments function arguments = .ok bound ↔
      Acceptable function arguments ∧ ∃ slots, Arranged function arguments slots ∧ bound = {
        parameters := Slot.bound slots
        rest := function.rest.map fun name => (name, surplusValues function arguments) }) ∧
    ((∃ bound, bindArguments function arguments = .ok bound) ↔ Acceptable function arguments) ∧
    (∀ bound, bindArguments function arguments = .ok bound →
      (bound.parameters.map (·.2) ++ (bound.rest.elim [] (·.2))).Perm (arguments.map (·.value))) ∧
    ∀ others, namedArguments others = namedArguments arguments →
      positionalArguments others = positionalArguments arguments →
        bindArguments function others = bindArguments function arguments := by
  refine ⟨fun bound => ?_, ?_, fun bound hbinds => ?_, fun others hnamed hpositional => ?_⟩
  · rw [bindArguments_eq_ok_iff]
    refine and_congr_right fun haccepts => ?_
    constructor
    · rintro rfl
      exact ⟨_, arranged_filledSlots haccepts, rfl⟩
    · rintro ⟨slots, harranged, rfl⟩
      rw [harranged.eq (arranged_filledSlots haccepts)]
  · constructor
    · rintro ⟨bound, hbinds⟩
      exact (bindArguments_eq_ok_iff.mp hbinds).1
    · intro haccepts
      exact ⟨_, bindArguments_eq_ok_iff.mpr ⟨haccepts, rfl⟩⟩
  · obtain ⟨haccepts, rfl⟩ := bindArguments_eq_ok_iff.mp hbinds
    have hvalues : (Slot.bound (filledSlots function arguments)).map (·.2) =
        (filledSlots function arguments).filterMap (·.value) := by
      rw [Slot.bound, List.map_filterMap]
      refine List.filterMap_congr fun slot _ => ?_
      cases slot.value <;> rfl
    have hrest : ((function.rest.map fun name => (name, surplusValues function arguments)).elim []
        fun entry => entry.2) = surplusValues function arguments := by
      cases hnone : function.rest with
      | none => exact (surplusValues_of_rest_none haccepts hnone).symm
      | some name => rfl
    simp only [hvalues, hrest]
    exact perm_filledSlots haccepts
  · rw [bindArguments, bindArguments, hnamed, hpositional]

/-- A function of three parameters and a rest parameter. -/
def threeAndRest : Function :=
  .lambda {
    name := none
    parameters := [⟨"a", none⟩, ⟨"b", none⟩, ⟨"c", none⟩]
    rest := some "more"
    body := .mk default (.name "more") } ⟨0⟩

/-- Positional arguments among named ones, both with surplus. -/
def mixedArguments : List (Argument Value) :=
  [⟨none, .int 1⟩, ⟨some "b", .int 2⟩, ⟨some "x", .int 3⟩, ⟨none, .int 4⟩, ⟨none, .int 5⟩]

/-- The mixed arguments are bound as they are when the named ones come first. -/
theorem bindArguments_arranges_mixed :
    Acceptable threeAndRest mixedArguments ∧
      ([.int 1, .int 2, .int 4, .int 5, .int 3] : List Value).Perm (mixedArguments.map (·.value)) ∧
        bindArguments threeAndRest [⟨some "b", .int 2⟩, ⟨some "x", .int 3⟩, ⟨none, .int 1⟩, ⟨none, .int 4⟩,
            ⟨none, .int 5⟩] =
          bindArguments threeAndRest mixedArguments := by
  obtain ⟨-, haccepts, hperm, hsame⟩ := bindArguments_arranges threeAndRest mixedArguments
  exact ⟨haccepts.mp ⟨_, rfl⟩, hperm _ rfl, hsame _ rfl rfl⟩

end Ckl
