import Ckl.Proofs.Value.Alters
import Ckl.Proofs.Value.Search
import Mathlib.Data.List.Chain

/-!
# Containers among their own keys

A set or a map that can be reached from one of its own keys cannot be printed. A key is refused that reaches
the container to which it is added, so none is closed in this way: the search for the container is complete.
But what is stored as an item of a list, as a value of a map or as a member of an object is not searched, and
if the list, map or object can be reached from a key of some holder, and the holder from what is stored, then
the holder is among what its key reaches from now on.

`Step.selfKeyed_iff` says that this is the only way in which it comes to that, for every step that a store
can take, and `selfKeyed_course_iff` says so for all the steps of a course.
-/

namespace Ckl.Store

open Collection (Table)

variable {store after : Store} {container holder key inner : Container} {added : List Value}

/-- The containers among the keys of a set or a map. -/
def keyContainers (store : Store) (holder : Container) : List Container :=
  (store.keysOf holder).filterMap Value.container?

/-- Some set or map can be reached from one of its own keys. -/
def SelfKeyed (store : Store) : Prop :=
  ∃ holder, ∃ key ∈ store.keyContainers holder, store.Spans key holder

theorem keysOf_subset_parts (store : Store) (holder : Container) :
    store.keysOf holder ⊆ store.parts holder := by
  intro key hkey
  cases holder with
  | list | object => cases hkey
  | set => exact hkey
  | map ref =>
    obtain ⟨slot, hslot, rfl⟩ := List.mem_map.mp hkey
    exact List.mem_flatMap.mpr ⟨(slot.key, slot.value), List.mem_map_of_mem hslot, List.mem_cons_self⟩

theorem keyContainers_subset (store : Store) (holder : Container) :
    store.keyContainers holder ⊆ store.containersIn holder := by
  intro key hkey
  obtain ⟨value, hvalue, hcontainer⟩ := List.mem_filterMap.mp hkey
  exact mem_containersIn (keysOf_subset_parts store holder hvalue) hcontainer

/-! ## Ways around a container -/

/-- The second container can be reached from the first one without anything that a certain one holds. -/
def SpansAround (store : Store) (avoided : Container) : Container → Container → Prop :=
  Relation.ReflTransGen fun container inner => container ≠ avoided ∧ inner ∈ store.containersIn container

theorem SpansAround.spans {first last : Container} (h : store.SpansAround container first last) :
    store.Spans first last := by
  induction h with
  | refl => exact .refl
  | tail _ hstep ih => exact ih.tail hstep.2

/-- The way to a container need not go through it. -/
theorem Spans.around {first : Container} (h : store.Spans first container) :
    store.SpansAround container first container := by
  induction h using Relation.ReflTransGen.head_induction_on with
  | refl => exact .refl
  | @head first _ hstep _ ih =>
    by_cases heq : first = container
    · rw [heq]
      exact .refl
    · exact .head ⟨heq, hstep⟩ ih

/-- Every way leads around a container, or to it and then on from something that it holds. -/
theorem Spans.around_or_through {first last : Container} (h : store.Spans first last)
    (container : Container) :
    store.SpansAround container first last ∨ store.SpansAround container first container ∧
      ∃ inner ∈ store.containersIn container, store.SpansAround container inner last := by
  induction h with
  | refl => exact .inl .refl
  | @tail middle last _ hstep ih =>
    by_cases heq : middle = container
    · subst heq
      exact .inr ⟨ih.elim id (·.1), last, hstep, .refl⟩
    · refine ih.imp (fun haround => haround.tail ⟨heq, hstep⟩) ?_
      rintro ⟨hto, inner, hinner, hon⟩
      exact ⟨hto, inner, hinner, hon.tail ⟨heq, hstep⟩⟩

/-- Ways around a container are the same if nothing but what it holds is different. -/
theorem SpansAround.of_others {first last : Container}
    (hothers : ∀ other, other ≠ container → after.parts other = store.parts other)
    (h : store.SpansAround container first last) : after.SpansAround container first last := by
  induction h with
  | refl => exact .refl
  | tail _ hstep ih =>
    refine ih.tail ⟨hstep.1, ?_⟩
    rw [containersIn, hothers _ hstep.1]
    exact hstep.2

/-! ## Alterations -/

/-- Something that the container holds now, not as a key, reached a holder one of whose keys reached the
container. -/
def ClosesAt (store after : Store) (container : Container) : Prop :=
  ∃ holder, ∃ key ∈ store.keyContainers holder, store.Spans key container ∧
    ∃ part ∈ after.containersIn container, part ∉ after.keyContainers container ∧
      store.Spans part holder

/-- An alteration makes it so. -/
def Closes (store after : Store) : Prop :=
  ∃ container added, store.Alters after container added ∧ store.ClosesAt after container

/-- A key that was not there before does not reach the container. -/
theorem Alters.key_cases (h : store.Alters after container added)
    (hkey : key ∈ after.keyContainers container) :
    key ∈ store.keyContainers container ∨ ¬ store.Spans key container := by
  obtain ⟨value, hvalue, hcontainer⟩ := List.mem_filterMap.mp hkey
  rcases h.keys value hvalue with hold | ⟨-, hguard⟩
  · exact .inl (List.mem_filterMap.mpr ⟨value, hold, hcontainer⟩)
  · obtain ⟨target, htarget⟩ : ∃ target : Value, target.container? = some container := by
      cases container with
      | list ref => exact ⟨.list ref, rfl⟩
      | set ref => exact ⟨.set ref, rfl⟩
      | map ref => exact ⟨.map ref, rfl⟩
      | object ref => exact ⟨.object ref, rfl⟩
    exact .inr (not_spans_of_reaches (hguard target htarget) hcontainer htarget)

/-- An alteration that closes nothing leads to no self-keyed container, and one that closes does. -/
theorem Alters.selfKeyed_iff (h : store.Alters after container added) (hfree : ¬ store.SelfKeyed) :
    after.SelfKeyed ↔ store.ClosesAt after container := by
  have hsame : ∀ other, other ≠ container → store.parts other = after.parts other :=
    fun other hne => (h.others other hne).1.symm
  constructor
  · rintro ⟨holder, key, hkey, hspans⟩
    have hold : key ∈ store.keyContainers holder ∨
        holder = container ∧ ¬ store.Spans key container := by
      by_cases heq : holder = container
      · subst heq
        exact (h.key_cases hkey).imp_right fun hnot => ⟨rfl, hnot⟩
      · rw [keyContainers, (h.others holder heq).2] at hkey
        exact .inl hkey
    -- the way from the key to the holder goes around the altered container or through it
    rcases hspans.around_or_through container with haround | ⟨hto, part, hpart, hon⟩
    · have hbefore := (haround.of_others hsame).spans
      rcases hold with hold | ⟨rfl, hnot⟩
      · exact absurd ⟨holder, key, hold, hbefore⟩ hfree
      · exact absurd hbefore hnot
    · have hto := (hto.of_others hsame).spans
      have hon := (hon.of_others hsame).spans
      rcases hold with hold | ⟨rfl, hnot⟩
      · refine ⟨holder, key, hold, hto, part, hpart, fun hpartKey => ?_, hon⟩
        -- from the part there is a way through the holder and its key back to the container
        have hback : store.Spans part container :=
          (hon.tail (keyContainers_subset store holder hold)).trans hto
        rcases h.key_cases hpartKey with hpartOld | hnot
        · exact hfree ⟨container, part, hpartOld, hback⟩
        · exact hnot hback
      · exact absurd hto hnot
  · rintro ⟨holder, key, hkey, hto, part, hpart, -, hon⟩
    have hne : holder ≠ container := by
      rintro rfl
      exact hfree ⟨holder, key, hkey, hto⟩
    have hthere := (hto.around.of_others fun other hother => (h.others other hother).1).spans
    rcases hon.around_or_through container with haround | ⟨-, inner, hinner, hrest⟩
    · have hrest := (haround.of_others fun other hother => (h.others other hother).1).spans
      refine ⟨holder, key, ?_, (hthere.tail hpart).trans hrest⟩
      rwa [keyContainers, (h.others holder hne).2]
    · exact absurd ⟨holder, key, hkey, (hto.tail hinner).trans hrest.spans⟩ hfree

/-! ## Steps -/

/-- The value, if it is a container, exists. -/
def Has (store : Store) (value : Value) : Prop :=
  ∀ inner, value.container? = some inner → inner ∈ store.containers

/-- All containers that are held exist. -/
def Whole (store : Store) : Prop :=
  ∀ container, ∀ value ∈ store.parts container, store.Has value

/-- A step of a store: something is changed beside the containers, a container is added, or one is
altered. -/
inductive Step (store after : Store) : Prop
  | aside (hlists : after.lists = store.lists) (hsets : after.sets = store.sets)
    (hmaps : after.maps = store.maps) (hobjects : after.objects = store.objects)
  | place (fresh : Fresh) (hparts : ∀ part ∈ fresh.parts, store.Has part)
    (h : after = (store.place fresh).2)
  | alter (container : Container) (added : List Value) (hadded : ∀ value ∈ added, store.Has value)
    (h : store.Alters after container added)

theorem mem_containers_iff : container ∈ store.containers ↔
    match container with
    | .list ref => ref.index < store.lists.size
    | .set ref => ref.index < store.sets.size
    | .map ref => ref.index < store.maps.size
    | .object ref => ref.index < store.objects.size := by
  cases container with
  | list ref | set ref | map ref | object ref =>
    obtain ⟨index⟩ := ref
    simp [containers]

theorem containers_subset (hlists : store.lists.size ≤ after.lists.size)
    (hsets : store.sets.size ≤ after.sets.size) (hmaps : store.maps.size ≤ after.maps.size)
    (hobjects : store.objects.size ≤ after.objects.size) : store.containers ⊆ after.containers := by
  intro container hmem
  rw [mem_containers_iff] at hmem ⊢
  cases container with
  | list => exact Nat.lt_of_lt_of_le hmem hlists
  | set => exact Nat.lt_of_lt_of_le hmem hsets
  | map => exact Nat.lt_of_lt_of_le hmem hmaps
  | object => exact Nat.lt_of_lt_of_le hmem hobjects

theorem Has.later {value : Value} (h : store.Has value) (hsub : store.containers ⊆ after.containers) :
    after.Has value :=
  fun inner hinner => hsub (h inner hinner)

/-- Containers that exist hold the same when another one is added. -/
theorem place_of_mem (fresh : Fresh) (h : container ∈ store.containers) :
    (store.place fresh).2.parts container = store.parts container ∧
      (store.place fresh).2.keysOf container = store.keysOf container := by
  rw [mem_containers_iff] at h
  cases fresh <;> cases container <;> first
    | exact ⟨rfl, rfl⟩
    | simp only [place, parts, keysOf, items, keySet, table, members, Array.getElem?_push_lt h,
        Array.getElem?_eq_getElem h, and_self]

/-- A fresh value exists. -/
theorem has_place {fresh : Fresh} (hparts : ∀ part ∈ fresh.parts, store.Has part) :
    (store.place fresh).2.Has (store.place fresh).1 := by
  intro inner hinner
  cases fresh with
  | value stored => exact hparts stored (List.mem_singleton.mpr rfl) inner hinner
  | list | set | map | object =>
    cases hinner
    rw [mem_containers_iff]
    simp [place]

theorem Step.grows (h : store.Step after) : store.containers ⊆ after.containers := by
  cases h with
  | aside hlists hsets hmaps hobjects =>
    exact containers_subset (by rw [hlists]) (by rw [hsets]) (by rw [hmaps]) (by rw [hobjects])
  | place fresh _ h =>
    subst h
    cases fresh <;> exact containers_subset (by simp [Store.place]) (by simp [Store.place])
      (by simp [Store.place]) (by simp [Store.place])
  | alter _ _ _ h => exact containers_subset h.lists.ge h.sets.ge h.maps.ge h.objects.ge

/-- What is held after a step was held before or is among what exists. -/
theorem Step.has (h : store.Step after) (hwhole : store.Whole) (container : Container) :
    ∀ value ∈ after.parts container, store.Has value := by
  intro value hvalue
  cases h with
  | aside hlists hsets hmaps hobjects =>
    have hparts : after.parts container = store.parts container := by
      cases container <;> simp only [parts, items, keySet, table, members, hlists, hsets, hmaps, hobjects]
    exact hwhole container value (hparts ▸ hvalue)
  | place fresh hparts h =>
    subst h
    rcases store.parts_place fresh container with heq | heq <;> rw [heq] at hvalue
    · exact hwhole container value hvalue
    · exact hparts value hvalue
  | alter altered added hadded h =>
    by_cases heq : container = altered
    · subst heq
      exact (h.parts value hvalue).elim (hwhole container value) (hadded value)
    · rw [(h.others container heq).1] at hvalue
      exact hwhole container value hvalue

theorem Step.whole (h : store.Step after) (hwhole : store.Whole) : after.Whole :=
  fun container value hvalue => (h.has hwhole container value hvalue).later h.grows

/-- When containers that exist hold the same as before, nothing has been closed. -/
theorem SelfKeyed.of_kept (h : after.SelfKeyed)
    (hkept : ∀ container ∈ store.containers, after.parts container = store.parts container ∧
      after.keysOf container = store.keysOf container)
    (hhas : ∀ container, ∀ value ∈ after.parts container, store.Has value) : store.SelfKeyed := by
  have hinner : ∀ container, ∀ inner ∈ after.containersIn container, inner ∈ store.containers := by
    intro container inner hinner
    obtain ⟨value, hvalue, hcontainer⟩ := List.mem_filterMap.mp hinner
    exact hhas container value hvalue inner hcontainer
  obtain ⟨holder, key, hkey, hspans⟩ := h
  have hexists : key ∈ store.containers := hinner holder key (keyContainers_subset after holder hkey)
  have hway : store.Spans key holder ∧ holder ∈ store.containers := by
    clear hkey
    induction hspans with
    | refl => exact ⟨.refl, hexists⟩
    | @tail middle last _ hstep ih =>
      refine ⟨ih.1.tail ?_, hinner middle last hstep⟩
      rwa [containersIn, ← (hkept middle ih.2).1]
  refine ⟨holder, key, ?_, hway.1⟩
  rwa [keyContainers, ← (hkept holder hway.2).2]

/-- **A step leads to a self-keyed container only by an alteration that closes it.** -/
theorem Step.selfKeyed_iff (h : store.Step after) (hwhole : store.Whole) (hfree : ¬ store.SelfKeyed) :
    after.SelfKeyed ↔ store.Closes after := by
  refine ⟨fun hkeyed => ?_, fun ⟨_, _, halters, hcloses⟩ => (halters.selfKeyed_iff hfree).mpr hcloses⟩
  have hhas := h.has hwhole
  cases h with
  | aside hlists hsets hmaps hobjects =>
    refine absurd (hkeyed.of_kept (fun container _ => ?_) hhas) hfree
    cases container <;>
      simp only [parts, keysOf, items, keySet, table, members, hlists, hsets, hmaps, hobjects, and_self]
  | place fresh hparts h =>
    subst h
    exact absurd (hkeyed.of_kept (fun _ => place_of_mem fresh) hhas) hfree
  | alter container added _ h => exact ⟨container, added, h, (h.selfKeyed_iff hfree).mp hkeyed⟩

/-! ## Courses -/

/-- A course of steps comes upon no self-keyed container exactly if none of its steps closes one. -/
theorem selfKeyed_course_iff {course : List Store} (hwhole : store.Whole) (hfree : ¬ store.SelfKeyed)
    (h : (store :: course).IsChain Step) :
    (∀ moment ∈ store :: course, ¬ moment.SelfKeyed) ↔
      (store :: course).IsChain fun before after => ¬ before.Closes after := by
  induction course generalizing store with
  | nil => simp [hfree]
  | cons next course ih =>
    rw [List.isChain_cons_cons] at h ⊢
    have hnext := not_congr (h.1.selfKeyed_iff hwhole hfree)
    by_cases hcloses : store.Closes next
    · have hkeyed := (h.1.selfKeyed_iff hwhole hfree).mpr hcloses
      exact ⟨fun hall => absurd hkeyed (hall next (by simp)), fun hchain => absurd hcloses hchain.1⟩
    · rw [← ih (h.1.whole hwhole) (hnext.mpr hcloses) h.2, List.forall_mem_cons]
      simp [hfree, hcloses]

end Ckl.Store
