import Ckl.Proofs.Value.Equality

/-!
# Sets of atoms

Atoms among which no integers fold are keys that cause no trouble, in every store. `setStore` is a store
with two sets of them; `equal_sets_of_atoms` says when such sets are equal: if they have the same number
of elements and each one of the first equals one of the second.
-/

namespace Ckl.Store

open Collection (Table KeySet)

variable {store : Store} {among : Value → Prop}

/-! ## Atoms as keys -/

/-- Atoms are a universe. -/
theorem universe_atoms (hatoms : ∀ value, among value → value.isAtomic = true) :
    store.Universe among where
  held value h p hp := by
    rw [held_of_isAtomic (hatoms value h)] at hp
    cases hp
  acyclic value h := acyclic_of_isAtomic (hatoms value h)
  sets ref h := absurd (hatoms _ h) Bool.false_ne_true
  maps ref h := absurd (hatoms _ h) Bool.false_ne_true

/-- As keys, atoms among which no integers fold are coherent. -/
theorem coherent_atoms (hatoms : ∀ value, among value → value.isAtomic = true)
    (hfold : ¬ Folds among) : store.keyRule.Coherent among := by
  have hkeys : store.KeysRespectEquality among := by
    rintro p q (⟨ref, h, _⟩ | ⟨ref, h, _⟩) <;> exact absurd (hatoms _ h) Bool.false_ne_true
  have hlaws := (universe_atoms hatoms).equalityLaws hkeys hfold
  exact ⟨hlaws.symm, hlaws.trans, fun a b ha hb hs =>
    congrArg (fun key => Text.hash (String.ofList key))
      (keyChars_eq_of_equal_atoms (hatoms a ha) (hatoms b hb) hs)⟩

/-- A store without anything in it. -/
def bare : Store := { now := Calendar.Moment.midnight 0 }

/-- Atoms that make a set: no two of them are equal, and no integers of them fold. -/
structure AtomSet (keys : List Value) : Prop where
  atoms : ∀ value ∈ keys, value.isAtomic = true
  noFold : ¬ Folds (· ∈ keys)
  apart : keys.Pairwise bare.keyRule.Apart

/-- It takes three values to fold. -/
theorem not_folds_pair {a b : Value} : ¬ Folds (· ∈ [a, b]) := by
  rintro ⟨m, n, x, hm, hn, hx, hne, _⟩
  have hpair : ∀ {p q : Value}, p ≠ q → p ∈ [a, b] → q ∈ [a, b] → ∀ r ∈ [a, b], r = p ∨ r = q := by
    intro p q hpq hp hq r hr
    rcases List.mem_pair.mp hp with rfl | rfl
    · rcases List.mem_pair.mp hq with rfl | rfl
      · exact absurd rfl hpq
      · exact List.mem_pair.mp hr
    · rcases List.mem_pair.mp hq with rfl | rfl
      · exact (List.mem_pair.mp hr).symm
      · exact absurd rfl hpq
  rcases hpair (fun h => hne (Value.int.inj h)) hm hn _ hx with h | h <;> cases h

/-- Two atoms that are apart as keys make a set. -/
theorem atomSet_pair {a b : Value} (ha : a.isAtomic = true) (hb : b.isAtomic = true)
    (hapart : bare.keyRule.Apart a b) : AtomSet [a, b] where
  atoms value h := by
    rcases List.mem_pair.mp h with rfl | rfl
    · exact ha
    · exact hb
  noFold := not_folds_pair
  apart := List.pairwise_pair.mpr hapart

/-- The set of such atoms has them as its keys, and is sound in every store. -/
theorem AtomSet.sound {keys : List Value} (h : AtomSet keys) (store : Store) :
    (KeySet.ofList bare.keyRule keys).Sound store.keyRule ∧
      (KeySet.ofList bare.keyRule keys).keys.Perm keys := by
  obtain ⟨hsound, hperm⟩ :=
    KeySet.sound_ofList (coherent_atoms h.atoms h.noFold) (fun _ h => h) h.apart
  have hmem : ∀ key ∈ (KeySet.ofList bare.keyRule keys).keys, key.isAtomic = true :=
    fun key hk => h.atoms key (hperm.subset hk)
  refine ⟨hsound.congr (fun key hk => ?_) fun a ha b hb => ?_, hperm⟩
  · exact congrArg (fun key => Text.hash (String.ofList key)) (keyChars_atom store (hmem key hk))
  · exact equal_atoms store (hmem a ha) (hmem b hb)

/-- An atom is found in a set of atoms exactly if it equals one of them. -/
theorem find?_atom_iff {set : KeySet Value} (hset : set.Sound store.keyRule)
    (hatoms : ∀ key ∈ set.keys, key.isAtomic = true) {a : Value} (ha : a.isAtomic = true) :
    (∃ slot, set.find? store.keyRule a = some slot) ↔ ∃ b ∈ set.keys, store.equal b a = true := by
  constructor
  · rintro ⟨slot, hf⟩
    obtain ⟨hm, hs⟩ := Table.mem_of_find? hset.toShelved hf
    exact ⟨slot.key, mem_keys.mpr ⟨slot, hm, rfl⟩, hs⟩
  · rintro ⟨b, hb, heq⟩
    obtain ⟨slot, hm, rfl⟩ := mem_keys.mp hb
    exact hset.exists_find? hm heq (congrArg (fun key => Text.hash (String.ofList key))
      (keyChars_eq_of_equal_atoms (hatoms _ hb) ha heq))

/-- A set has as many entries as the keys that it was made of. -/
theorem count_eq_of_perm {set : KeySet Value} (hset : set.Shelved) {keys : List Value}
    (hperm : set.keys.Perm keys) : set.count = keys.length := by
  rw [hset.counted, ← hperm.length_eq, Table.keys, List.length_map]

/-- A set of atoms does not lead back to itself. -/
theorem acyclic_set_of_atoms {ref : Ref .set}
    (hatoms : ∀ key ∈ (store.keySet ref).keys, key.isAtomic = true) : store.Acyclic (.set ref) :=
  .intro _ fun p hp => acyclic_of_isAtomic (hatoms p hp)

/-- Two sets of atoms are equal if they have as many elements, and each one of the first equals one of
the second. -/
theorem equal_sets_of_atoms {first second : Ref .set} {as bs : List Value} (hne : first ≠ second)
    (hfirst : (store.keySet first).Sound store.keyRule ∧ (store.keySet first).keys.Perm as)
    (hsecond : (store.keySet second).Sound store.keyRule ∧ (store.keySet second).keys.Perm bs)
    (has : ∀ a ∈ as, a.isAtomic = true) (hbs : ∀ b ∈ bs, b.isAtomic = true) :
    store.equal (.set first) (.set second) = true ↔
      as.length = bs.length ∧ ∀ a ∈ as, ∃ b ∈ bs, store.equal b a = true := by
  have hkeys : ∀ key ∈ (store.keySet first).keys, key.isAtomic = true :=
    fun key hk => has key (hfirst.2.subset hk)
  have hkeys' : ∀ key ∈ (store.keySet second).keys, key.isAtomic = true :=
    fun key hk => hbs key (hsecond.2.subset hk)
  have hfind : ∀ a, a.isAtomic = true →
      ((∃ slot, (store.keySet second).find? store.keyRule a = some slot) ↔
        ∃ b ∈ bs, store.equal b a = true) := by
    intro a ha
    rw [find?_atom_iff hsecond.1 hkeys' ha]
    exact ⟨fun ⟨b, hb, h⟩ => ⟨b, hsecond.2.subset hb, h⟩,
      fun ⟨b, hb, h⟩ => ⟨b, hsecond.2.symm.subset hb, h⟩⟩
  have hcount := count_eq_of_perm hfirst.1.toShelved hfirst.2
  have hcount' := count_eq_of_perm hsecond.1.toShelved hsecond.2
  rw [equal_iff (acyclic_set_of_atoms hkeys) (acyclic_set_of_atoms hkeys')]
  constructor
  · intro h
    cases h with
    | refl => exact absurd rfl hne
    | set hlen hall =>
      rw [hcount, hcount'] at hlen
      exact ⟨hlen, fun a ha => (hfind a (has a ha)).mp (hall a (hfirst.2.symm.subset ha))⟩
  · rintro ⟨hlen, hall⟩
    refine .set (by rw [hcount, hcount', hlen]) fun a ha => ?_
    exact (hfind a (hkeys a ha)).mpr (hall a (hfirst.2.subset ha))

/-! ## A store with two sets -/

/-- A store with two sets. -/
def withSets (first second : KeySet Value) : Store := { bare with sets := #[first, second] }

theorem keySet_withSets_first (first second : KeySet Value) :
    (withSets first second).keySet ⟨0⟩ = first := rfl

theorem keySet_withSets_second (first second : KeySet Value) :
    (withSets first second).keySet ⟨1⟩ = second := rfl

/-- A store with the sets of two lists of atoms. -/
def setStore (as bs : List Value) : Store :=
  withSets (KeySet.ofList bare.keyRule as) (KeySet.ofList bare.keyRule bs)

/-- The values of such a store. -/
def setValues (as bs : List Value) (value : Value) : Prop :=
  value = .set ⟨0⟩ ∨ value = .set ⟨1⟩ ∨ value ∈ as ∨ value ∈ bs

section

variable {as bs : List Value} (has : AtomSet as) (hbs : AtomSet bs)

include has in
/-- The first set is sound and has the first keys. -/
theorem sound_first : ((setStore as bs).keySet ⟨0⟩).Sound (setStore as bs).keyRule ∧
    ((setStore as bs).keySet ⟨0⟩).keys.Perm as := by
  rw [show (setStore as bs).keySet ⟨0⟩ = _ from keySet_withSets_first _ _]
  exact has.sound _

include hbs in
/-- The second set is sound and has the second keys. -/
theorem sound_second : ((setStore as bs).keySet ⟨1⟩).Sound (setStore as bs).keyRule ∧
    ((setStore as bs).keySet ⟨1⟩).keys.Perm bs := by
  rw [show (setStore as bs).keySet ⟨1⟩ = _ from keySet_withSets_second _ _]
  exact hbs.sound _

include has hbs

/-- Both sets have atoms only. -/
theorem isAtomic_of_mem {p : Value} (h : p ∈ as ∨ p ∈ bs) : p.isAtomic = true :=
  h.elim (has.atoms p) (hbs.atoms p)

/-- The two sets and their keys are a universe. -/
theorem universe_setStore : (setStore as bs).Universe (setValues as bs) where
  held value h p hp := by
    rcases h with rfl | rfl | h
    · exact .inr (.inr (.inl ((sound_first has).2.subset hp)))
    · exact .inr (.inr (.inr ((sound_second hbs).2.subset hp)))
    · rw [held_of_isAtomic (isAtomic_of_mem has hbs h)] at hp
      cases hp
  acyclic value h := by
    rcases h with rfl | rfl | h
    · exact acyclic_set_of_atoms fun key hk => has.atoms key ((sound_first has).2.subset hk)
    · exact acyclic_set_of_atoms fun key hk => hbs.atoms key ((sound_second hbs).2.subset hk)
    · exact acyclic_of_isAtomic (isAtomic_of_mem has hbs h)
  sets ref h := by
    rcases h with h | h | h
    · cases h
      exact (sound_first has).1
    · cases h
      exact (sound_second hbs).1
    · exact absurd (isAtomic_of_mem has hbs h) Bool.false_ne_true
  maps ref h := by
    rcases h with h | h | h
    · cases h
    · cases h
    · exact absurd (isAtomic_of_mem has hbs h) Bool.false_ne_true

/-- The keys of such a store are the atoms of its sets. -/
theorem mem_of_isKey_setStore {p : Value} (h : (setStore as bs).IsKey (setValues as bs) p) :
    p ∈ as ∨ p ∈ bs := by
  rcases h with ⟨ref, h, hp⟩ | ⟨ref, h, _⟩
  · rcases h with h | h | h
    · cases h
      exact .inl ((sound_first has).2.subset hp)
    · cases h
      exact .inr ((sound_second hbs).2.subset hp)
    · exact absurd (isAtomic_of_mem has hbs h) Bool.false_ne_true
  · rcases h with h | h | h
    · cases h
    · cases h
    · exact absurd (isAtomic_of_mem has hbs h) Bool.false_ne_true

/-- Equal keys of the two sets have the same hash. -/
theorem keysRespectEquality_setStore :
    (setStore as bs).KeysRespectEquality (setValues as bs) := by
  intro p q hp hq h
  exact key_eq_iff.mpr (keyChars_eq_of_equal_atoms
    (isAtomic_of_mem has hbs (mem_of_isKey_setStore has hbs hp))
    (isAtomic_of_mem has hbs (mem_of_isKey_setStore has hbs hq)) h)

/-- The first set is equal to the second if both have as many keys and each of the first has an equal one.
-/
theorem equal_setStore_iff : (setStore as bs).equal (.set ⟨0⟩) (.set ⟨1⟩) = true ↔
    as.length = bs.length ∧ ∀ a ∈ as, ∃ b ∈ bs, (setStore as bs).equal b a = true :=
  equal_sets_of_atoms nofun (sound_first has) (sound_second hbs) has.atoms hbs.atoms

/-- The same from the second set to the first. -/
theorem equal_setStore_back_iff : (setStore as bs).equal (.set ⟨1⟩) (.set ⟨0⟩) = true ↔
    bs.length = as.length ∧ ∀ b ∈ bs, ∃ a ∈ as, (setStore as bs).equal a b = true :=
  equal_sets_of_atoms nofun (sound_second hbs) (sound_first has) hbs.atoms has.atoms

end

end Ckl.Store
