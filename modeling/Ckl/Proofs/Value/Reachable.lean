import Ckl.Proofs.Value.Search

/-!
# What the search for a container finds

`Store.Holds` says what a value holds by the kinds of containers, without a word about the search:
the items of a list, the elements of a set, the keys and the values of a map, and the members of an object.
A value reaches a container exactly if steps of `Holds` lead from it to the container, however the containers
of the store hold each other.

The search comes to an end on every store. `Store.Searching` says of a search that it goes on as it is said
to, without a bound, and there is exactly one such search, which is the one with a bound of more than the
number of containers: with every container that is entered there is one less to enter.
-/

namespace Ckl.Store

variable {store : Store} {goal : Option Container} {container inner : Container}

/-! ## What values hold -/

/-- The first value is a container that holds the second one. -/
inductive Holds (store : Store) : Value → Value → Prop where
  | item {ref : Ref .list} {item : Value} (h : item ∈ store.items ref) : Holds store (.list ref) item
  | element {ref : Ref .set} {element : Value} (h : element ∈ (store.keySet ref).keys) :
      Holds store (.set ref) element
  | key {ref : Ref .map} {key value : Value} (h : (key, value) ∈ (store.table ref).entries) :
      Holds store (.map ref) key
  | value {ref : Ref .map} {key value : Value} (h : (key, value) ∈ (store.table ref).entries) :
      Holds store (.map ref) value
  | member {ref : Ref .object} {name : String} {value : Value}
      (h : (name, value) ∈ (store.members ref).entries) : Holds store (.object ref) value

/-- The parts that the search goes through are the values that a container holds. -/
theorem holds_iff {value part : Value} :
    store.Holds value part ↔ ∃ container, value.container? = some container ∧
      part ∈ store.parts container := by
  constructor
  · intro h
    cases h with
    | @item ref _ h => exact ⟨.list ref, rfl, Array.mem_toList_iff.mpr h⟩
    | @element ref _ h => exact ⟨.set ref, rfl, h⟩
    | @key ref _ _ h => exact ⟨.map ref, rfl, List.mem_flatMap.mpr ⟨_, h, by simp⟩⟩
    | @value ref _ _ h => exact ⟨.map ref, rfl, List.mem_flatMap.mpr ⟨_, h, by simp⟩⟩
    | @member ref name _ h => exact ⟨.object ref, rfl, List.mem_map.mpr ⟨_, h, rfl⟩⟩
  · rintro ⟨container, hcontainer, hpart⟩
    cases value with
    | list ref =>
      cases hcontainer
      exact .item (Array.mem_toList_iff.mp hpart)
    | set ref =>
      cases hcontainer
      exact .element hpart
    | map ref =>
      cases hcontainer
      obtain ⟨entry, hentry, hpart⟩ := List.mem_flatMap.mp hpart
      simp only [List.mem_cons, List.not_mem_nil, or_false] at hpart
      rcases hpart with rfl | rfl
      · exact .key hentry
      · exact .value hentry
    | object ref =>
      cases hcontainer
      obtain ⟨entry, hentry, rfl⟩ := List.mem_map.mp hpart
      exact .member hentry
    | _ => cases hcontainer

theorem exists_container?_eq (container : Container) :
    ∃ value : Value, value.container? = some container := by
  cases container with
  | list ref => exact ⟨.list ref, rfl⟩
  | set ref => exact ⟨.set ref, rfl⟩
  | map ref => exact ⟨.map ref, rfl⟩
  | object ref => exact ⟨.object ref, rfl⟩

/-- Between containers, steps of `Holds` are steps from a container to one of its parts. -/
theorem spans_iff {value target : Value} (hvalue : value.container? = some container)
    (htarget : target.container? = some inner) :
    store.Spans container inner ↔ Relation.ReflTransGen store.Holds value target := by
  constructor
  · intro h
    induction h generalizing target with
    | refl =>
      obtain rfl := container?_injective hvalue htarget
      exact .refl
    | tail _ hstep ih =>
      obtain ⟨part, hpart, hinner⟩ := List.mem_filterMap.mp hstep
      obtain rfl := container?_injective hinner htarget
      obtain ⟨between, hbetween⟩ := exists_container?_eq _
      exact (ih hbetween).tail (holds_iff.mpr ⟨_, hbetween, hpart⟩)
  · intro h
    induction h generalizing inner with
    | refl =>
      cases hvalue.symm.trans htarget
      exact .refl
    | tail _ hstep ih =>
      obtain ⟨middle, hmiddle, hpart⟩ := holds_iff.mp hstep
      exact (ih hmiddle).tail (mem_containersIn hpart htarget)

/-! ## Searches with success -/

/-- Where a search through values succeeds, it does so at one of them. -/
theorem exists_of_found_foldl {step : Search → Value → Search} {values : List Value} {search : Search}
    (h : (values.foldl step search).found = true) (hsearch : search.found = false) :
    ∃ value ∈ values, ∃ before, before.found = false ∧ (step before value).found = true := by
  induction values generalizing search with
  | nil => cases hsearch.symm.trans h
  | cons value values ih =>
    cases hvalue : (step search value).found with
    | true => exact ⟨value, List.mem_cons_self, search, hsearch, hvalue⟩
    | false =>
      obtain ⟨other, hother, hfound⟩ := ih h hvalue
      exact ⟨other, List.mem_cons_of_mem _ hother, hfound⟩

/-- What the search finds can be reached, whatever its bound is and wherever it has been before. -/
theorem spans_of_found {goal : Container} {bound : Nat} {search : Search} {value : Value}
    (hsearch : search.found = false) (h : (store.searchFrom (some goal) bound search value).found = true) :
    ∃ container, value.container? = some container ∧ store.Spans container goal := by
  induction bound generalizing search value with
  | zero => cases hsearch.symm.trans h
  | succ bound ih =>
    unfold searchFrom at h
    split at h
    · cases hsearch.symm.trans h
    · next container hcontainer =>
      refine ⟨container, hcontainer, ?_⟩
      split at h
      · cases hsearch.symm.trans h
      · split at h
        · next hgoal =>
          cases hgoal
          exact .refl
        · obtain ⟨part, hpart, before, hbefore, hfound⟩ := exists_of_found_foldl h hsearch
          obtain ⟨inner, hinner, hspans⟩ := ih hbefore hfound
          exact .head (mem_containersIn hpart hinner) hspans

/-! ## Searches without a bound -/

/-- A search that goes through the parts of a container as it goes through everything. -/
def Searching (store : Store) (goal : Option Container) (run : Search → Value → Search) : Prop :=
  ∀ search value, run search value = store.searchStep goal run search value

/-- The search with a bound does what every search without one does, where the bound leaves room for all
containers. The induction is on the bound: a container that is entered leaves room for one less. -/
theorem Searching.eq_searchFrom {run : Search → Value → Search} (h : store.Searching goal run) {bound : Nat}
    {search : Search} {value : Value} (hroom : store.room search.entered < bound) :
    run search value = store.searchFrom goal bound search value := by
  induction bound generalizing search value with
  | zero => cases hroom
  | succ bound ih =>
    rw [h]
    apply searchStep_congr (entered_subset_searchFrom goal bound)
    intro later part hless
    exact ih (hless.trans_le (Nat.le_of_lt_succ hroom))

theorem room_le_containerCount (entered : List Container) : store.room entered ≤ store.containerCount :=
  Nat.le_of_lt_succ ((room_le (List.nil_subset entered)).trans_lt store.room_nil_lt)

/-- A bound of more than the number of containers is not felt. -/
theorem searching_searchFrom (goal : Option Container) {bound : Nat} (hbound : store.containerCount < bound) :
    store.Searching goal (store.searchFrom goal bound) := by
  intro search value
  rw [← searchFrom_succ ((room_le_containerCount _).trans_lt hbound)]
  rfl

/-- So it is the search with any bound of more than the number of containers. -/
theorem Searching.eq {run : Search → Value → Search} (h : store.Searching goal run) {bound : Nat}
    (hbound : store.containerCount < bound) : run = store.searchFrom goal bound := by
  funext search value
  exact h.eq_searchFrom ((room_le_containerCount _).trans_lt hbound)

/-! ## Reaching a container -/

/-- **A value reaches exactly the containers that steps lead to**, from containers to what they hold; and
the search that finds them comes to an end without its bound. -/
theorem reaches_iff (store : Store) (value target : Value) :
    (∀ goal, ∃ run, store.Searching goal run ∧ (∀ other, store.Searching goal other → other = run) ∧
      ∀ bound, store.containerCount < bound → store.searchFrom goal bound = run) ∧
    (store.reaches value target = true ↔
      (∃ container, target.container? = some container) ∧
        Relation.ReflTransGen store.Holds value target) := by
  constructor
  · intro goal
    -- any bound greater than the number of containers gives the one search without a bound
    have henough : store.containerCount < store.containerCount + 1 := Nat.lt_succ_self _
    have hrun := searching_searchFrom goal henough
    refine ⟨_, hrun, fun other hother => hother.eq henough, fun bound hbound => ?_⟩
    exact (hrun.eq hbound).symm
  · cases htarget : target.container? with
    | none => simp [reaches, htarget]
    | some goal =>
      cases hreaches : store.reaches value target with
      | true =>
        unfold reaches at hreaches
        rw [htarget] at hreaches
        obtain ⟨container, hvalue, hspans⟩ := spans_of_found rfl hreaches
        simpa using (spans_iff hvalue htarget).mp hspans
      | false =>
        simp only [Bool.false_eq_true, Option.some.injEq, exists_eq', true_and, false_iff]
        intro hholds
        cases hvalue : value.container? with
        | some container =>
          have hspans := (spans_iff hvalue htarget).mpr hholds
          exact not_spans_of_reaches hreaches hvalue htarget hspans
        | none =>
          -- a value that is no container holds nothing, so it would have to be the goal itself
          rcases Relation.ReflTransGen.cases_head hholds with rfl | ⟨part, hstep, _⟩
          · cases hvalue.symm.trans htarget
          · obtain ⟨container, hcontainer, _⟩ := holds_iff.mp hstep
            cases hvalue.symm.trans hcontainer

end Ckl.Store
