import Ckl.Eval
import Ckl.Proofs.Run.Discipline
import Ckl.Proofs.Value.OrderLaws
import Ckl.Proofs.Value.AtomSets

/-!
# Sorting by keys

`sorted` takes the elements of a list or a set once, before anything is called. It then computes the key of
each element, one after the other (`KeysOf`), sorts the elements with their keys as the store compares
them after the last call, and stores what it gets as a new list. The first call that fails ends it.
-/

namespace Ckl

open Source (Position)

/-! ## Keys one after the other -/

/-- The keys of elements as they are computed one after the other, with the store before the first one and
the store after the last one. -/
inductive KeysOf (keyOf : Value → Run Value) : List Value → Store → List Value → Store → Prop
  | nil (store : Store) : KeysOf keyOf [] store [] store
  | cons {element key : Value} {elements keys : List Value} {store between after : Store} :
    keyOf element store = .ok key between → KeysOf keyOf elements between keys after →
      KeysOf keyOf (element :: elements) store (key :: keys) after

namespace KeysOf

variable {keyOf : Value → Run Value} {elements keys : List Value} {store after : Store}

theorem length_eq (h : KeysOf keyOf elements store keys after) : keys.length = elements.length := by
  induction h with
  | nil => rfl
  | cons _ _ ih => simp [ih]

/-- The elements that are their own keys. -/
theorem self (elements : List Value) (store : Store) : KeysOf pure elements store elements store := by
  induction elements with
  | nil => exact .nil store
  | cons element elements ih => exact .cons rfl ih

theorem unique {others : List Value} {last : Store} (h : KeysOf keyOf elements store keys after)
    (h' : KeysOf keyOf elements store others last) : keys = others ∧ after = last := by
  induction h generalizing others with
  | nil => cases h'; exact ⟨rfl, rfl⟩
  | cons hkey _ ih =>
    cases h' with
    | cons hkey' h' =>
      cases hkey.symm.trans hkey'
      obtain ⟨rfl, rfl⟩ := ih h'
      exact ⟨rfl, rfl⟩

/-- An element with its key. -/
def paired (keyOf : Value → Run Value) (element : Value) : Run (Value × Value) :=
  return (← keyOf element, element)

theorem mapM_cons_of_ok {element key : Value} {between : Store}
    (hkey : keyOf element store = .ok key between) :
    (element :: elements).mapM (paired keyOf) store =
      (do return (key, element) :: (← elements.mapM (paired keyOf))) between := by
  rw [List.mapM_cons]
  exact Run.bind_of_ok (Run.bind_of_ok hkey)

/-- If all keys are there, the elements are paired with them. -/
theorem mapM_eq (h : KeysOf keyOf elements store keys after) :
    elements.mapM (paired keyOf) store = .ok (keys.zip elements) after := by
  induction h with
  | nil => rfl
  | cons hkey _ ih => rw [mapM_cons_of_ok hkey, Run.bind_of_ok ih]; rfl

/-- If a key fails behind others that are there, no other one is computed. -/
theorem mapM_eq_of_error {done rest : List Value} {element : Value} {between : Store} {stop : Stop}
    (h : KeysOf keyOf done store keys between) (hstop : keyOf element between = .error stop after) :
    (done ++ element :: rest).mapM (paired keyOf) store = .error stop after := by
  induction h with
  | nil =>
    rw [List.nil_append, List.mapM_cons]
    exact Run.bind_of_error (Run.bind_of_error hstop)
  | cons hkey _ ih =>
    rw [List.cons_append, mapM_cons_of_ok hkey]
    exact Run.bind_of_error (ih hstop)

theorem not_error {done rest others : List Value} {element : Value} {between last : Store} {stop : Stop}
    (h : KeysOf keyOf (done ++ element :: rest) store keys after)
    (hdone : KeysOf keyOf done store others between) : keyOf element between ≠ .error stop last := by
  intro hstop
  cases h.mapM_eq.symm.trans (hdone.mapM_eq_of_error hstop)

/-- All keys are there, or there is a first one that is not. -/
theorem all_or_first (keyOf : Value → Run Value) (elements : List Value) (store : Store) :
    (∃ keys after, KeysOf keyOf elements store keys after) ∨
      ∃ done element rest keys between stop after, elements = done ++ element :: rest ∧
        KeysOf keyOf done store keys between ∧ keyOf element between = .error stop after := by
  induction elements generalizing store with
  | nil => exact .inl ⟨[], store, .nil store⟩
  | cons element elements ih =>
    match hkey : keyOf element store with
    | .error stop after => exact .inr ⟨[], element, elements, [], store, stop, after, rfl, .nil store, hkey⟩
    | .ok key between =>
      rcases ih between with ⟨keys, after, h⟩ | ⟨done, last, rest, keys, before, stop, after, rfl, h, hstop⟩
      · exact .inl ⟨key :: keys, after, .cons hkey h⟩
      · exact .inr ⟨element :: done, last, rest, key :: keys, before, stop, after, rfl, .cons hkey h, hstop⟩

end KeysOf

/-! ## Elements with keys in order -/

/-- Pairs of keys and elements, sorted by their keys: the same pairs in ascending order, of which those with
equal keys stand as they stood. -/
structure SortedByKey (order : Value → Value → Ordering) (pairs sorted : List (Value × Value)) :
    Prop where
  perm : sorted.Perm pairs
  ascending : sorted.Pairwise fun a b => order a.1 b.1 ≠ .gt
  stable : ∀ key ∈ pairs.map Prod.fst, sorted.filter (fun pair => order key pair.1 == .eq) =
    pairs.filter fun pair => order key pair.1 == .eq

theorem sortedByKey {order : Value → Value → Ordering} {pairs : List (Value × Value)}
    (h : OrderLaws order (· ∈ pairs.map Prod.fst)) :
    SortedByKey order pairs (sortBy (fun a b => order a.1 b.1) pairs) := by
  have hpairs := h.comap (Prod.fst : Value × Value → Value)
  have hkeys : ∀ pair ∈ pairs, pair.1 ∈ pairs.map Prod.fst := fun pair hp => List.mem_map_of_mem hp
  have hperm := perm_sortBy (fun a b : Value × Value => order a.1 b.1) pairs
  refine ⟨hperm, hpairs.sorted hkeys, fun key hkey => ?_⟩
  -- pairs with a key equal to this one are in order, so sorting leaves them as they are
  have hordered : (pairs.filter fun pair => order key pair.1 == .eq).Pairwise fun a b =>
      order a.1 b.1 ≠ .gt := by
    refine List.pairwise_of_forall_mem_list fun a ha b hb => ?_
    simp only [List.mem_filter, beq_iff_eq] at ha hb
    have haeq := h.eq_symm hkey (hkeys a ha.1) ha.2
    simp [h.eq_trans (hkeys a ha.1) hkey (hkeys b hb.1) haeq hb.2]
  have hsub := (hpairs.sublist_sortBy hkeys List.filter_sublist hordered).filter
    fun pair => order key pair.1 == .eq
  rw [List.filter_filter] at hsub
  simp only [Bool.and_self] at hsub
  exact (hsub.eq_of_length (hperm.filter _).length_eq.symm).symm

/-! ## The function -/

namespace Builtin

/-- The key of an element: what a function gives for it, or the element itself. -/
def keyOf (evaluator : Evaluator) (function : Option (Ref .func)) (frame : FrameRef)
    (position : Position) (element : Value) : Run Value :=
  match function with
  | some function => evaluator.call function (positional [element]) frame position
  | none => pure element

section Sorted

variable {arguments : Arguments} {evaluator : Evaluator} {frame : FrameRef} {position : Position}
  {store : Store} {target : Value} {elements : List Value} {function : Option (Ref .func)}
  (hlst : arguments.need "lst" = .ok target) (helements : store.elements target = .ok elements)
  (hcmp : arguments.optional "cmp" = none)
  (hkey : arguments.optionalAs "key" Value.asFunction = .ok function)

include hlst helements hcmp hkey

/-- Without a function that compares, the elements are sorted by their keys into a new list. -/
theorem sortElements_eq : sortElements arguments evaluator frame position store =
    (do
      let keyed ← elements.mapM (KeysOf.paired (keyOf evaluator function frame position))
      let sorted ← Run.read fun store => sortBy (fun a b : Value × Value => store.order a.1 b.1) keyed
      Run.placeList (sorted.map Prod.snd)) store := by
  unfold sortElements
  simp only [hlst, hcmp, hkey, Run.check, pure_bind]
  rw [Run.read_bind, helements]
  cases function <;> rfl

/-- **Sorting by keys.** Either the keys of all elements are computed, one after the other and each one
once, and then the result is a new list of the elements, sorted by their keys if the order is one on these,
while nothing else changes; or some key is the first one that fails, and so does sorting. -/
theorem sorted_by_keys :
    (∃ keys after sorted,
      KeysOf (keyOf evaluator function frame position) elements store keys after ∧
      Builtin.sorted.run arguments evaluator frame position store =
        .ok (.list ⟨after.lists.size⟩)
          { after with lists := after.lists.push (sorted.map Prod.snd).toArray } ∧
      (sorted.map Prod.snd).Perm elements ∧
      (OrderLaws after.order (· ∈ keys) → SortedByKey after.order (keys.zip elements) sorted) ∧
      (function = none → keys = elements ∧ after = store)) ∨
    ∃ done element rest keys between stop after, elements = done ++ element :: rest ∧
      KeysOf (keyOf evaluator function frame position) done store keys between ∧
      keyOf evaluator function frame position element between = .error stop after ∧
      Builtin.sorted.run arguments evaluator frame position store = .error stop after := by
  have hrun : Builtin.sorted.run arguments evaluator frame position store = _ :=
    sortElements_eq hlst helements hcmp hkey
  rw [hrun]
  rcases KeysOf.all_or_first (keyOf evaluator function frame position) elements store with
    ⟨keys, after, hkeys⟩ | ⟨done, element, rest, keys, between, stop, after, helems, hkeys, hstop⟩
  · have hlength : elements.length ≤ keys.length := hkeys.length_eq.ge
    have hsnd : (keys.zip elements).map Prod.snd = elements := List.map_snd_zip hlength
    have hfst : (keys.zip elements).map Prod.fst = keys := List.map_fst_zip hkeys.length_eq.le
    refine .inl ⟨keys, after, sortBy (fun a b => after.order a.1 b.1) (keys.zip elements), hkeys, ?_, ?_,
      fun hlaws => sortedByKey (by rwa [hfst]), ?_⟩
    · rw [Run.bind_of_ok hkeys.mapM_eq]
      rfl
    · simpa only [hsnd] using (perm_sortBy (fun a b : Value × Value => after.order a.1 b.1)
        (keys.zip elements)).map Prod.snd
    · rintro rfl
      exact hkeys.unique (KeysOf.self elements store)
  · refine .inr ⟨done, element, rest, keys, between, stop, after, helems, hkeys, hstop, ?_⟩
    subst helems
    exact Run.bind_of_error (hkeys.mapM_eq_of_error hstop)

end Sorted

/-! ### Sorting by type -/

/-- Texts are totally ordered. -/
theorem orderLaws_strings (store : Store) :
    OrderLaws store.order fun value => ∃ text, value = .string text := by
  have hstrings : OrderLaws (fun a b : String => compare a b) fun _ => True :=
    OrderLaws.of_read (fun text => text) _
  constructor
  · rintro _ _ ⟨a, rfl⟩ ⟨b, rfl⟩
    exact hstrings.reverse a b trivial trivial
  · rintro _ _ _ ⟨a, rfl⟩ ⟨b, rfl⟩ ⟨c, rfl⟩
    exact hstrings.trans a b c trivial trivial trivial

/-- A store with a list of integers and a text and with the function that tells types. -/
def mixedStore : Store :=
  { Store.bare with
    lists := #[#[.int 2, .string "x", .int 1]]
    functions := #[.builtin .type] }

/-- The list in it, sorted by type. -/
def sortedByType : Arguments := (Bindings.empty.put "lst" (.list ⟨0⟩)).put "key" (.func ⟨0⟩)

theorem keysOf_mixed : KeysOf (keyOf (evaluator 1) (some ⟨0⟩) ⟨0⟩ default)
    [.int 2, .string "x", .int 1] mixedStore [.string "int", .string "string", .string "int"]
    mixedStore :=
  .cons rfl (.cons rfl (.cons rfl (.nil mixedStore)))

theorem sorted_by_keys_mixed : ∃ sorted,
    Builtin.sorted.run sortedByType (evaluator 1) ⟨0⟩ default mixedStore =
      .ok (.list ⟨1⟩)
        { mixedStore with lists := mixedStore.lists.push (sorted.map Prod.snd).toArray } ∧
    SortedByKey mixedStore.order
      [(.string "int", .int 2), (.string "string", .string "x"), (.string "int", .int 1)] sorted := by
  rcases @sorted_by_keys sortedByType (evaluator 1) ⟨0⟩ default mixedStore (.list ⟨0⟩)
      [.int 2, .string "x", .int 1] (some ⟨0⟩) rfl rfl rfl rfl with
    ⟨keys, after, sorted, hkeys, hrun, _, hsorted, _⟩ |
    ⟨done, element, rest, keys, between, stop, after, helems, hkeys, hstop, _⟩
  · obtain ⟨rfl, rfl⟩ := hkeys.unique keysOf_mixed
    refine ⟨sorted, hrun, hsorted ((orderLaws_strings mixedStore).mono fun key hkey => ?_)⟩
    simp only [List.mem_cons, List.not_mem_nil, or_false] at hkey
    rcases hkey with rfl | rfl | rfl <;> exact ⟨_, rfl⟩
  · exact absurd hstop ((helems ▸ keysOf_mixed).not_error hkeys)

end Builtin

end Ckl
