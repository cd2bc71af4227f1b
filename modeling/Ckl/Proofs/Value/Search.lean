import Ckl.Proofs.Value.Holding
import Mathlib.Data.Finset.Card

/-!
# The search for a container

Before a key is added to a set or a map it is searched for the set or map itself. `not_spans_of_reaches`
says that the search finds every container that can be reached: it ends without success only when it has
entered all that can be reached from where it began, because whatever it leaves it leaves with all parts
entered. The bound is no obstacle, as the search enters no container twice; a greater one changes nothing
(`searchFrom_succ`).

A search without a goal enters all containers that can be reached, so that no more steps lead down from an
acyclic value than it enters containers (`shallow_span`).
-/

namespace Ckl.Store

variable {store : Store} {goal : Option Container} {container inner : Container}

/-- The containers that a container holds. -/
def containersIn (store : Store) (container : Container) : List Container :=
  (store.parts container).filterMap Value.container?

theorem mem_containersIn {part : Value} (hpart : part ∈ store.parts container)
    (h : part.container? = some inner) : inner ∈ store.containersIn container :=
  List.mem_filterMap.mpr ⟨part, hpart, h⟩

/-- The second container is the first one or can be reached from it. -/
def Spans (store : Store) : Container → Container → Prop :=
  Relation.ReflTransGen fun container inner => inner ∈ store.containersIn container

/-! ## Searches without success -/

/-- How many containers have not been entered. -/
def room (store : Store) (entered : List Container) : Nat :=
  (store.containers.toFinset \ entered.toFinset).card

theorem room_le {entered more : List Container} (h : entered ⊆ more) :
    store.room more ≤ store.room entered :=
  Finset.card_le_card (Finset.sdiff_subset_sdiff (Finset.Subset.refl _) fun _ hmem =>
    List.mem_toFinset.mpr (h (List.mem_toFinset.mp hmem)))

theorem room_cons_lt {entered : List Container} (hexists : container ∈ store.containers)
    (hnew : container ∉ entered) : store.room (container :: entered) < store.room entered := by
  refine Finset.card_lt_card ((Finset.ssubset_iff_of_subset ?_).mpr ⟨container, ?_, ?_⟩)
  · exact Finset.sdiff_subset_sdiff (Finset.Subset.refl _) (by simp)
  · simp [hexists, hnew]
  · simp

/-- What has been entered by a search in the meantime is not the goal, and everything that it holds has been
entered too. -/
structure Search.Explores (store : Store) (goal : Option Container) (search after : Search) : Prop where
  notFound : search.found = false
  subset : search.entered ⊆ after.entered
  ne_goal : ∀ container ∈ after.entered, container ∈ search.entered ∨ some container ≠ goal
  closed : ∀ container ∈ after.entered, container ∈ search.entered ∨
    ∀ inner ∈ store.containersIn container, inner ∈ after.entered

namespace Search

variable {search after last : Search}

theorem Explores.refl (h : search.found = false) : Explores store goal search search :=
  ⟨h, List.Subset.refl _, fun _ => .inl, fun _ => .inl⟩

theorem Explores.trans (h : Explores store goal search after) (hlast : Explores store goal after last) :
    Explores store goal search last where
  notFound := h.notFound
  subset := List.Subset.trans h.subset hlast.subset
  ne_goal container hmem := (hlast.ne_goal container hmem).elim (h.ne_goal container) .inr
  closed container hmem := by
    rcases hlast.closed container hmem with hold | hnew
    · exact (h.closed container hold).imp_right fun hclosed inner hinner =>
        hlast.subset (hclosed inner hinner)
    · exact .inr hnew

/-- The search has gone through the values without success. -/
def Passes (store : Store) (goal : Option Container) (search after : Search) (values : List Value) :
    Prop :=
  Explores store goal search after ∧
    ∀ value ∈ values, ∀ container, value.container? = some container → container ∈ after.entered

end Search

theorem entered_subset_foldl {step : Search → Value → Search}
    (hstep : ∀ search value, search.entered ⊆ (step search value).entered) (values : List Value)
    (search : Search) : search.entered ⊆ (values.foldl step search).entered := by
  induction values generalizing search with
  | nil => exact List.Subset.refl _
  | cons value values ih => exact List.Subset.trans (hstep search value) (ih _)

theorem entered_subset_searchFrom (goal : Option Container) (bound : Nat) (search : Search)
    (value : Value) :
    search.entered ⊆ (store.searchFrom goal bound search value).entered := by
  induction bound generalizing search value with
  | zero => exact List.Subset.refl _
  | succ bound ih =>
    unfold searchFrom
    split
    · exact List.Subset.refl _
    · split
      · exact List.Subset.refl _
      · split
        · exact List.Subset.refl _
        · next container _ _ _ =>
          have hinside := entered_subset_foldl ih (store.parts container)
            { search with entered := container :: search.entered }
          exact List.Subset.trans (List.subset_cons_self _ _) hinside

theorem passes_foldl (search : Search) {step : Search → Value → Search} {values : List Value}
    (hstep : ∀ later value, search.entered ⊆ later.entered → value ∈ values →
      (step later value).found = false → Search.Passes store goal later (step later value) [value])
    (hgrows : ∀ search value, search.entered ⊆ (step search value).entered)
    (h : (values.foldl step search).found = false) :
    Search.Passes store goal search (values.foldl step search) values := by
  induction values generalizing search with
  | nil => exact ⟨.refl h, nofun⟩
  | cons value values ih =>
    obtain ⟨hexplores, hvalues⟩ := ih _ (fun later other hsub hother =>
      hstep later other (List.Subset.trans (hgrows search value) hsub) (List.mem_cons_of_mem _ hother)) h
    obtain ⟨hbefore, hvalue⟩ := hstep search value (List.Subset.refl _) List.mem_cons_self
      hexplores.notFound
    refine ⟨hbefore.trans hexplores, List.forall_mem_cons.mpr ⟨fun container hcontainer => ?_, hvalues⟩⟩
    exact hexplores.subset (hvalue value List.mem_cons_self container hcontainer)

/-- A search that enters at most so many containers as there is room for goes through all of them. -/
theorem passes_searchFrom {bound : Nat} {search : Search} {value : Value}
    (hroom : store.room search.entered < bound)
    (h : (store.searchFrom goal bound search value).found = false) :
    Search.Passes store goal search (store.searchFrom goal bound search value) [value] := by
  induction bound generalizing search value with
  | zero => cases hroom
  | succ bound ih =>
    cases hcontainer : value.container? with
    | none =>
      simp only [searchFrom, hcontainer] at h ⊢
      exact ⟨.refl h, List.forall_mem_singleton.mpr fun container hnone =>
        nomatch hcontainer.symm.trans hnone⟩
    | some container =>
      simp only [searchFrom, hcontainer] at h ⊢
      have hown : ∀ {after : Search}, container ∈ after.entered → ∀ other ∈ [value], ∀ inner,
          other.container? = some inner → inner ∈ after.entered := by
        intro after hmem other hother inner hinner
        cases List.mem_singleton.mp hother
        cases hcontainer.symm.trans hinner
        exact hmem
      split at h
      · next hknown =>
        have hfound : search.found = false := h
        rw [if_pos hknown]
        rw [hfound, Bool.false_or] at hknown
        exact ⟨.refl hfound, hown (List.contains_iff_mem.mp hknown)⟩
      · next hunknown =>
        have hnew : search.found = false ∧ container ∉ search.entered := by simpa using hunknown
        rw [if_neg hunknown]
        split at h
        · cases h
        · next hne =>
          rw [if_neg hne]
          -- inside of a container that exists there is room for one container less
          have hparts : ∀ later part, container :: search.entered ⊆ later.entered →
              part ∈ store.parts container → (store.searchFrom goal bound later part).found = false →
                Search.Passes store goal later (store.searchFrom goal bound later part) [part] := by
            intro later part hsub hpart hlater
            have hexists := mem_containers_of_parts (List.ne_nil_of_mem hpart)
            have hless := (room_le hsub).trans_lt (room_cons_lt hexists hnew.2)
            exact ih (hless.trans_le (Nat.le_of_lt_succ hroom)) hlater
          obtain ⟨hexplores, hvalues⟩ := passes_foldl { search with
            entered := container :: search.entered } hparts (entered_subset_searchFrom goal bound) h
          refine ⟨⟨hnew.1, List.Subset.trans (List.subset_cons_self _ _) hexplores.subset,
            fun other hother => ?_, fun other hother => ?_⟩, hown (hexplores.subset List.mem_cons_self)⟩
          · rcases hexplores.ne_goal other hother with hold | hother
            · exact (List.mem_cons.mp hold).elim (fun heq => .inr (heq ▸ hne)) .inl
            · exact .inr hother
          -- what was entered inside is closed, and the container itself since all its parts were gone through
          · rcases hexplores.closed other hother with hold | hclosed
            · refine (List.mem_cons.mp hold).elim (fun heq => .inr ?_) .inl
              rw [heq]
              intro inner hinner
              obtain ⟨part, hpart, hinner⟩ := List.mem_filterMap.mp hinner
              exact hvalues part hpart inner hinner
            · exact .inr hclosed

/-- In the beginning there is room for all containers. -/
theorem room_nil_lt (store : Store) : store.room [] < store.containerCount + 1 := by
  have hle := Nat.le_trans store.containers.toFinset_card_le length_containers_le
  simpa [room] using Nat.lt_succ_of_le hle

/-- A search without success enters all that can be reached. -/
theorem mem_entered_of_spans {value : Value} {other : Container}
    (h : (store.searchFrom goal (store.containerCount + 1) {} value).found = false)
    (hvalue : value.container? = some container) (hspans : store.Spans container other) :
    other ∈ (store.searchFrom goal (store.containerCount + 1) {} value).entered ∧ some other ≠ goal := by
  obtain ⟨hexplores, hentered⟩ := passes_searchFrom store.room_nil_lt h
  have hother : other ∈ (store.searchFrom goal (store.containerCount + 1) {} value).entered := by
    induction hspans with
    | refl => exact hentered value List.mem_cons_self container hvalue
    | tail _ hinner ih => exact (hexplores.closed _ ih).elim (fun hmem => nomatch hmem) (· _ hinner)
  exact ⟨hother, (hexplores.ne_goal other hother).elim (fun hmem => nomatch hmem) id⟩

/-- **The search finds what can be reached.** -/
theorem not_spans_of_reaches {value target : Value} {goal : Container}
    (h : store.reaches value target = false) (hvalue : value.container? = some container)
    (htarget : target.container? = some goal) : ¬ store.Spans container goal := by
  unfold reaches at h
  rw [htarget] at h
  exact fun hspans => (mem_entered_of_spans h hvalue hspans).2 rfl

/-! ## Searches without a goal -/

theorem found_searchFrom_none (bound : Nat) (search : Search) (value : Value) :
    (store.searchFrom none bound search value).found = search.found := by
  induction bound generalizing search value with
  | zero => rfl
  | succ bound ih =>
    have hfold : ∀ (values : List Value) (search : Search),
        (values.foldl (store.searchFrom none bound) search).found = search.found := by
      intro values
      induction values with
      | nil => exact fun _ => rfl
      | cons value values ihValues =>
        intro search
        rw [List.foldl_cons, ihValues, ih]
    rw [searchFrom]
    cases value.container? with
    | none => rfl
    | some container =>
      dsimp only
      split
      · rfl
      · rw [if_neg (Option.some_ne_none container)]
        exact hfold _ _

/-- What can be reached from a value is among the containers that it reaches. -/
theorem mem_spanned_of_spans {value : Value} {other : Container} (hvalue : value.container? = some container)
    (hspans : store.Spans container other) : other ∈ store.spanned value :=
  (mem_entered_of_spans (found_searchFrom_none _ _ _) hvalue hspans).1

theorem spans_of_inside {value other : Value} (h : store.Inside value other)
    (hvalue : value.container? = some container) (hother : other.container? = some inner) :
    store.Spans container inner := by
  induction h generalizing inner with
  | single hheld =>
    rw [held, hvalue] at hheld
    exact .single (mem_containersIn hheld hother)
  | @tail between last _ hheld ih =>
    cases hbetween : between.container? with
    | none =>
      rw [held, hbetween] at hheld
      cases hheld
    | some middle =>
      rw [held, hbetween] at hheld
      exact (ih hbetween).tail (mem_containersIn hheld hother)

/-- **No more steps lead down from an acyclic value** than it reaches containers. -/
theorem shallow_span {value : Value} (h : store.Acyclic value) :
    store.Shallow (store.spanned value).length value := by
  by_contra hs
  obtain ⟨entered, hlen, hnodup, -, hbelow⟩ := h.exists_containers hs
  have hsub : entered ⊆ store.spanned value := by
    intro inner hinner
    obtain ⟨other, hother, rfl | hinside⟩ := hbelow inner hinner
    · exact mem_spanned_of_spans hother .refl
    · cases hvalue : value.container? with
      | none =>
        have hnone : store.held value = [] := by rw [held, hvalue]
        obtain ⟨part, hpart, -⟩ := Relation.TransGen.head'_iff.mp hinside
        rw [hnone] at hpart
        cases hpart
      | some container => exact mem_spanned_of_spans hvalue (spans_of_inside hinside hvalue hother)
  have hle := (hnodup.subperm hsub).length_le
  rw [hlen] at hle
  omega

/-! ## Greater bounds -/

/-- One step of a search, with the search that goes through the parts of a container. -/
def searchStep (store : Store) (goal : Option Container) (inside : Search → Value → Search)
    (search : Search) (value : Value) : Search :=
  match value.container? with
  | none => search
  | some container =>
    if search.found || search.entered.contains container then search
    else if some container = goal then { search with found := true }
    else (store.parts container).foldl inside { search with entered := container :: search.entered }

/-- The parts of a container are searched with less room than the container itself. -/
theorem searchStep_congr {inside inside' : Search → Value → Search} {search : Search} {value : Value}
    (hgrows : ∀ search value, search.entered ⊆ (inside' search value).entered)
    (h : ∀ later part, store.room later.entered < store.room search.entered →
      inside later part = inside' later part) :
    store.searchStep goal inside search value = store.searchStep goal inside' search value := by
  unfold searchStep
  cases value.container? with
  | none => rfl
  | some container =>
    dsimp only
    split
    · rfl
    next hunknown =>
    split
    · rfl
    have hnew : container ∉ search.entered := by
      intro hmem
      rw [List.contains_iff_mem.mpr hmem, Bool.or_true] at hunknown
      exact hunknown rfl
    have hfold : ∀ (values : List Value) (later : Search), values ⊆ store.parts container →
        container :: search.entered ⊆ later.entered →
        values.foldl inside later = values.foldl inside' later := by
      intro values
      induction values with
      | nil => exact fun _ _ _ => rfl
      | cons part rest ih =>
        intro later hparts hsub
        have hexists := mem_containers_of_parts (List.ne_nil_of_mem (hparts List.mem_cons_self))
        have hless := (room_le hsub).trans_lt (room_cons_lt hexists hnew)
        rw [List.foldl_cons, List.foldl_cons, h later part hless]
        exact ih _ (List.cons_subset.mp hparts).2 (List.Subset.trans hsub (hgrows later part))
    exact hfold _ _ (List.Subset.refl _) (List.Subset.refl _)

/-- Where the bound leaves room for all containers, a greater one changes nothing. -/
theorem searchFrom_succ {bound : Nat} {search : Search} {value : Value}
    (hroom : store.room search.entered < bound) :
    store.searchFrom goal (bound + 1) search value = store.searchFrom goal bound search value := by
  induction bound generalizing search value with
  | zero => cases hroom
  | succ bound ih =>
    apply searchStep_congr (entered_subset_searchFrom goal bound)
    intro later part hless
    exact ih (hless.trans_le (Nat.le_of_lt_succ hroom))

end Ckl.Store
