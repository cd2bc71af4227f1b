import Ckl.Proofs.Value.Equality

/-!
# Equality without looking up

Equality of sets and maps looks keys up by their hashes. Where keys are lawful, this finds what there is:
sets are equal if they have as many elements and each one of the first equals one of the second, and the
same holds of maps and of objects. No hash and no bucket is left in these statements, so that they can be
compared with those about another store.
-/

namespace Ckl.Store

open Collection (Table KeySet KeyRule)

variable {store : Store} {among : Value → Prop}

theorem mem_sortedKeys {ref : Ref .set} {key : Value} :
    key ∈ store.sortedKeys ref ↔ key ∈ (store.keySet ref).keys := mem_sortBy

theorem mem_sortedEntries {ref : Ref .map} {entry : Value × Value} :
    entry ∈ store.sortedEntries ref ↔ entry ∈ (store.table ref).entries := mem_sortBy

theorem length_sortedKeys {ref : Ref .set} (h : (store.keySet ref).Shelved) :
    (store.sortedKeys ref).length = (store.keySet ref).count := by
  rw [h.counted, sortedKeys, (perm_sortBy _ _).length_eq, Table.keys, List.length_map]

theorem length_sortedEntries {ref : Ref .map} (h : (store.table ref).Shelved) :
    (store.sortedEntries ref).length = (store.table ref).count := by
  rw [h.counted, sortedEntries, sortedTable, (perm_sortBy _ _).length_eq, Table.entries, List.length_map]

/-- Lists are equal if their items are. -/
theorem equal_lists_iff (hrefl : ∀ p, among p → store.equal p p = true) {a b : Ref .list}
    (ha : store.Acyclic (.list a)) (hb : store.Acyclic (.list b))
    (hitems : ∀ item ∈ (store.items a).toList, among item) :
    store.equal (.list a) (.list b) = true ↔
      List.Forall₂ (fun p q => store.equal p q = true) (store.items a).toList
        (store.items b).toList := by
  rw [equal_iff ha hb]
  constructor
  · intro h
    cases h with
    | refl => exact List.forall₂_same.mpr fun p hp => hrefl p (hitems p hp)
    | list h => exact h
  · exact .list

/-- Objects are equal if they have as many members, and each one of the first has the name of one of the
second and a value that equals the value of that. -/
theorem equal_objects_iff (hrefl : ∀ p, among p → store.equal p p = true) {a b : Ref .object}
    (ha : store.Acyclic (.object a)) (hb : store.Acyclic (.object b))
    (hvalues : ∀ member ∈ (store.members a).entries, among member.2) :
    store.equal (.object a) (.object b) = true ↔
      (store.members a).entries.length = (store.members b).entries.length ∧
        ∀ p ∈ (store.members a).entries, ∃ q ∈ (store.members b).entries,
          p.1 = q.1 ∧ store.equal p.2 q.2 = true := by
  rw [equal_iff ha hb]
  constructor
  · intro h
    cases h with
    | refl => exact ⟨rfl, fun p hp => ⟨p, hp, rfl, hrefl _ (hvalues p hp)⟩⟩
    | object hsize hall =>
      refine ⟨hsize, fun p hp => ?_⟩
      obtain ⟨value, hv, heq⟩ := hall p hp
      exact ⟨(p.1, value), mem_of_get? hv, rfl, heq⟩
  · rintro ⟨hsize, hall⟩
    refine .object hsize fun p hp => ?_
    obtain ⟨q, hq, hname, heq⟩ := hall p hp
    exact ⟨q.2, hname ▸ get?_of_mem hq, heq⟩

section Tables

variable (hlaws : store.keyRule.Lawful among)

include hlaws

/-- Sets are equal if they have as many elements, and each one of the first equals one of the second. -/
theorem equal_sets_iff {a b : Ref .set} (ha : store.Acyclic (.set a)) (hb : store.Acyclic (.set b))
    (hsa : (store.keySet a).Shelved) (hsb : (store.keySet b).Sound store.keyRule)
    (hkeys : ∀ key ∈ store.sortedKeys a, among key) (hkeys' : ∀ key ∈ store.sortedKeys b, among key) :
    store.equal (.set a) (.set b) = true ↔
      (store.sortedKeys a).length = (store.sortedKeys b).length ∧
        ∀ p ∈ store.sortedKeys a, ∃ q ∈ store.sortedKeys b, store.equal q p = true := by
  rw [equal_iff ha hb, length_sortedKeys hsa, length_sortedKeys hsb.toShelved]
  constructor
  · intro h
    cases h with
    | refl => exact ⟨rfl, fun p hp => ⟨p, hp, hlaws.refl p (hkeys p hp)⟩⟩
    | set hcount hall =>
      refine ⟨hcount, fun p hp => ?_⟩
      obtain ⟨slot, hf⟩ := hall p (mem_sortedKeys.mp hp)
      obtain ⟨hm, hs⟩ := Table.mem_of_find? hsb.toShelved hf
      exact ⟨slot.key, mem_sortedKeys.mpr (Table.key_mem hm), hs⟩
  · rintro ⟨hcount, hall⟩
    refine .set hcount fun p hp => ?_
    have hp := mem_sortedKeys.mpr hp
    obtain ⟨q, hq, heq⟩ := hall p hp
    obtain ⟨slot, hm, rfl⟩ := mem_keys.mp (mem_sortedKeys.mp hq)
    exact hsb.exists_find? hm heq (hlaws.hash_eq _ _ (hkeys' _ hq) (hkeys p hp) heq)

/-- Maps are equal if they have as many entries, and each one of the first has a key and a value that
equal those of one of the second. -/
theorem equal_maps_iff {a b : Ref .map} (ha : store.Acyclic (.map a)) (hb : store.Acyclic (.map b))
    (hsa : (store.table a).Shelved) (hsb : (store.table b).Sound store.keyRule)
    (hentries : ∀ entry ∈ store.sortedEntries a, among entry.1 ∧ among entry.2)
    (hentries' : ∀ entry ∈ store.sortedEntries b, among entry.1) :
    store.equal (.map a) (.map b) = true ↔
      (store.sortedEntries a).length = (store.sortedEntries b).length ∧
        ∀ p ∈ store.sortedEntries a, ∃ q ∈ store.sortedEntries b,
          store.equal q.1 p.1 = true ∧ store.equal p.2 q.2 = true := by
  rw [equal_iff ha hb, length_sortedEntries hsa, length_sortedEntries hsb.toShelved]
  constructor
  · intro h
    cases h with
    | refl =>
      refine ⟨rfl, fun p hp => ⟨p, hp, ?_⟩⟩
      exact ⟨hlaws.refl _ (hentries p hp).1, hlaws.refl _ (hentries p hp).2⟩
    | map hcount hall =>
      refine ⟨hcount, fun p hp => ?_⟩
      obtain ⟨slot, hf, heq⟩ := hall p (mem_sortedEntries.mp hp)
      obtain ⟨hm, hs⟩ := Table.mem_of_find? hsb.toShelved hf
      exact ⟨_, mem_sortedEntries.mpr (Table.entry_mem hm), hs, heq⟩
  · rintro ⟨hcount, hall⟩
    refine .map hcount fun p hp => ?_
    have hp := mem_sortedEntries.mpr hp
    obtain ⟨q, hq, hkey, hvalue⟩ := hall p hp
    obtain ⟨slot, hm, rfl⟩ := List.mem_map.mp (mem_sortedEntries.mp hq)
    have hslots : ∀ slot ∈ (store.table b).slots, among slot.key :=
      fun slot hs => hentries' _ (mem_sortedEntries.mpr (Table.entry_mem hs))
    exact ⟨slot, (hsb.find?_eq_some_iff hlaws.toCoherent hslots (hentries p hp).1).mpr ⟨hm, hkey⟩,
      hvalue⟩

end Tables

end Ckl.Store
