import Ckl.Value.Reach
import Mathlib.Data.List.Perm.Subperm
import Mathlib.Logic.Relation

/-!
# Values that do not contain themselves

`Acyclic` says of a value that following what it holds, and what that holds, comes to an end. So there are no
more steps down from it than the store has containers (`shallow_of_acyclic`): each step enters a container
that was not entered before.
-/

namespace Ckl.Store

variable {store : Store}

/-- The values that a value holds: those of its container, if it is one. -/
def held (store : Store) (value : Value) : List Value :=
  match value.container? with
  | none => []
  | some container => store.parts container

theorem held_list (ref : Ref .list) : store.held (.list ref) = (store.items ref).toList := rfl

theorem mem_held_map {ref : Ref .map} {part : Value} :
    part ∈ store.held (.map ref) ↔
      ∃ entry ∈ (store.table ref).entries, part = entry.1 ∨ part = entry.2 := by
  simp only [held, Value.container?, parts, List.mem_flatMap, List.mem_cons, List.not_mem_nil,
    or_false]

/-- The way down from a value ends, whatever is followed. -/
inductive Acyclic (store : Store) : Value → Prop where
  | intro (value : Value) : (∀ part ∈ store.held value, Acyclic store part) → Acyclic store value

theorem Acyclic.of_held {value part : Value} (h : store.Acyclic value)
    (hp : part ∈ store.held value) : store.Acyclic part := by
  cases h with
  | intro _ hall => exact hall part hp

/-- A value that holds nothing is acyclic. -/
theorem acyclic_of_held_nil {value : Value} (h : store.held value = []) : store.Acyclic value :=
  .intro value fun part hp => by rw [h] at hp; cases hp

/-- The second value is held by the first one, or by one that it holds, and so on. -/
def Inside (store : Store) : Value → Value → Prop :=
  Relation.TransGen fun value part => part ∈ store.held value

theorem Acyclic.of_inside {value part : Value} (h : store.Acyclic value)
    (hp : store.Inside value part) : store.Acyclic part := by
  induction hp with
  | single hp => exact h.of_held hp
  | tail _ hp ih => exact ih.of_held hp

/-- No acyclic value is inside itself. -/
theorem Acyclic.not_inside {value : Value} (h : store.Acyclic value) : ¬ store.Inside value value := by
  induction h with
  | intro value _ ih =>
    intro hcycle
    -- the cycle can be entered at its first step, one step further down
    obtain ⟨part, hpart, hback⟩ := Relation.TransGen.head'_iff.mp hcycle
    exact ih part hpart (Relation.TransGen.tail' hback hpart)

/-! ## Depth -/

/-- A value from which at most so many steps lead down. -/
def Shallow (store : Store) : Nat → Value → Prop
  | 0, value => store.held value = []
  | depth + 1, value => ∀ part ∈ store.held value, Shallow store depth part

theorem Shallow.succ {depth : Nat} {value : Value} (h : store.Shallow depth value) :
    store.Shallow (depth + 1) value := by
  induction depth generalizing value with
  | zero =>
    intro part hp
    rw [show store.held value = [] from h] at hp
    cases hp
  | succ depth ih => exact fun part hp => ih (h part hp)

theorem Shallow.le {depth depth' : Nat} {value : Value} (h : store.Shallow depth value)
    (hle : depth ≤ depth') : store.Shallow depth' value := by
  induction hle with
  | refl => exact h
  | step _ ih => exact ih.succ

/-- The containers of a store. -/
def containers (store : Store) : List Container :=
  (List.range store.lists.size).map (fun index => .list ⟨index⟩) ++
    ((List.range store.sets.size).map (fun index => .set ⟨index⟩) ++
      ((List.range store.maps.size).map (fun index => .map ⟨index⟩) ++
        (List.range store.objects.size).map fun index => .object ⟨index⟩))

theorem length_containers_le : store.containers.length ≤ store.containerCount := by
  simp only [containers, List.length_append, List.length_map, List.length_range, containerCount]
  omega

/-- A container that holds something is in the store. -/
theorem mem_containers_of_parts {container : Container} (h : store.parts container ≠ []) :
    container ∈ store.containers := by
  by_contra hc
  apply h
  simp only [containers, List.mem_append, List.mem_map, List.mem_range, not_or] at hc
  cases container with
  | list ref =>
    have hge : store.lists.size ≤ ref.index := by
      by_contra hlt
      exact hc.1 ⟨ref.index, Nat.lt_of_not_le hlt, rfl⟩
    simp only [parts, items, Array.getElem?_eq_none hge, Option.getD_none]
  | set ref =>
    have hge : store.sets.size ≤ ref.index := by
      by_contra hlt
      exact hc.2.1 ⟨ref.index, Nat.lt_of_not_le hlt, rfl⟩
    simp only [parts, keySet, Array.getElem?_eq_none hge, Option.getD_none]
    rfl
  | map ref =>
    have hge : store.maps.size ≤ ref.index := by
      by_contra hlt
      exact hc.2.2.1 ⟨ref.index, Nat.lt_of_not_le hlt, rfl⟩
    simp only [parts, table, Array.getElem?_eq_none hge, Option.getD_none]
    rfl
  | object ref =>
    have hge : store.objects.size ≤ ref.index := by
      by_contra hlt
      exact hc.2.2.2 ⟨ref.index, Nat.lt_of_not_le hlt, rfl⟩
    simp only [parts, members, Array.getElem?_eq_none hge, Option.getD_none]
    rfl

/-- The container of a value tells the value. -/
theorem container?_injective {a b : Value} {container : Container}
    (ha : a.container? = some container) (hb : b.container? = some container) : a = b := by
  cases a <;> simp only [Value.container?, Option.some.injEq, reduceCtorEq] at ha <;> subst ha <;>
    cases b <;> simp only [Value.container?, Option.some.injEq, reduceCtorEq, Container.list.injEq,
      Container.set.injEq, Container.map.injEq, Container.object.injEq] at hb <;> rw [hb]

/-- A way down of more steps enters more containers, no two of them the same. -/
theorem Acyclic.exists_containers {value : Value} (h : store.Acyclic value) {depth : Nat}
    (hs : ¬ store.Shallow depth value) :
    ∃ entered : List Container, entered.length = depth + 1 ∧ entered.Nodup ∧
      entered ⊆ store.containers ∧
      ∀ container ∈ entered, ∃ other, other.container? = some container ∧
        (other = value ∨ store.Inside value other) := by
  -- what holds something is a container of the store
  have hholds : ∀ {value : Value}, store.held value ≠ [] →
      ∃ container, value.container? = some container ∧ container ∈ store.containers := by
    intro value hne
    cases hc : value.container? with
    | none => simp only [held, hc, ne_eq, not_true_eq_false] at hne
    | some container =>
      simp only [held, hc] at hne
      exact ⟨container, rfl, mem_containers_of_parts hne⟩
  induction depth generalizing value with
  | zero =>
    obtain ⟨container, hc, hmem⟩ := hholds hs
    refine ⟨[container], rfl, List.nodup_cons.mpr ⟨List.not_mem_nil, List.nodup_nil⟩,
      List.cons_subset.mpr ⟨hmem, List.nil_subset _⟩, ?_⟩
    intro other ho
    exact ⟨value, List.mem_singleton.mp ho ▸ hc, .inl rfl⟩
  | succ depth ih =>
    simp only [Shallow, not_forall] at hs
    obtain ⟨part, hpart, hs⟩ := hs
    obtain ⟨entered, hlen, hnodup, hsub, hbelow⟩ := ih (h.of_held hpart) hs
    obtain ⟨container, hc, hmem⟩ := hholds (List.ne_nil_of_mem hpart)
    have hinside : ∀ other, other = part ∨ store.Inside part other → store.Inside value other := by
      rintro other (rfl | ho)
      · exact .single hpart
      · exact .head hpart ho
    refine ⟨container :: entered, congrArg (· + 1) hlen, List.nodup_cons.mpr ⟨?_, hnodup⟩,
      List.cons_subset.mpr ⟨hmem, hsub⟩, ?_⟩
    · intro hentered
      -- the container of `value` would be entered again below it
      obtain ⟨other, ho, hreach⟩ := hbelow container hentered
      obtain rfl := container?_injective ho hc
      exact h.not_inside (hinside other hreach)
    · intro other ho
      rcases List.mem_cons.mp ho with rfl | ho
      · exact ⟨value, hc, .inl rfl⟩
      · obtain ⟨below, hb, hreach⟩ := hbelow other ho
        exact ⟨below, hb, .inr (hinside below hreach)⟩

/-- **As deep as a store has containers** is deep enough for every acyclic value. -/
theorem shallow_of_acyclic {value : Value} (h : store.Acyclic value) :
    store.Shallow store.containerCount value := by
  by_contra hs
  obtain ⟨entered, hlen, hnodup, hsub, _⟩ := h.exists_containers hs
  have hle := Nat.le_trans (hnodup.subperm hsub).length_le length_containers_le
  rw [hlen] at hle
  omega

end Ckl.Store
