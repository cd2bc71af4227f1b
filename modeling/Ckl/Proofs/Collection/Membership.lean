import Ckl.Proofs.Collection.Lookup

/-!
# Membership in sets

Where the keys are among some for which a rule is coherent, a sound set contains exactly what is the same as
one of its keys. Adding a key makes it and all that is the same belong to the set and removing it takes them
away, whatever buckets they lie in and whether or not the set is resized on the way. So adding and removing
many keys, one after the other, comes to the union and the difference (`SoundAmong.addAll`,
`SoundAmong.eraseAll`).
-/

namespace Ckl.Collection.KeySet

variable {κ : Type} {rule : KeyRule κ} {among : κ → Prop} {set : KeySet κ} {key other : κ}

/-- A sound set of keys among some. -/
structure SoundAmong (rule : KeyRule κ) (among : κ → Prop) (set : KeySet κ) : Prop where
  sound : set.Sound rule
  among : ∀ key ∈ set.keys, among key

theorem soundAmong_empty : SoundAmong rule among (Table.empty : KeySet κ) where
  sound := Table.sound_empty
  among key hkey := by
    rw [Table.keys, Table.slots_empty] at hkey
    cases hkey

namespace SoundAmong

variable (h : SoundAmong rule among set) (hl : rule.Coherent among)

include h

theorem among_slots : ∀ slot ∈ set.slots, among slot.key := by
  intro slot hslot
  exact h.among _ (List.mem_map_of_mem hslot)

include hl

/-- A set contains what is the same as one of its keys. -/
theorem contains_iff (hother : among other) :
    set.contains rule other = true ↔ ∃ key ∈ set.keys, rule.same key other = true := by
  rw [Table.contains, Option.isSome_iff_exists]
  constructor
  · rintro ⟨slot, hfind⟩
    obtain ⟨hslot, hsame⟩ := Table.mem_of_find? h.sound.toShelved hfind
    exact ⟨slot.key, List.mem_map_of_mem hslot, hsame⟩
  · rintro ⟨key, hkey, hsame⟩
    obtain ⟨slot, hslot, rfl⟩ := List.mem_map.mp hkey
    exact ⟨slot, (h.sound.find?_eq_some_iff hl h.among_slots hother).mpr ⟨hslot, hsame⟩⟩

/-! ## Adding -/

theorem add (hkey : among key) :
    SoundAmong rule among (add rule set key) ∧ ∀ other, among other →
      ((KeySet.add rule set key).contains rule other = true ↔
        set.contains rule other = true ∨ rule.same key other = true) := by
  cases hcontains : set.contains rule key with
  | true =>
    have hadd : KeySet.add rule set key = set := by rw [KeySet.add_eq, if_pos hcontains]
    rw [hadd]
    refine ⟨h, fun other hother => ⟨.inl, ?_⟩⟩
    rintro (hmember | hsame)
    · exact hmember
    -- the key that is there already is the same as everything that the new one is the same as
    obtain ⟨old, hold, hsame'⟩ := (h.contains_iff hl hkey).mp hcontains
    apply (h.contains_iff hl hother).mpr
    exact ⟨old, hold, hl.trans _ _ _ (h.among old hold) hkey hother hsame' hsame⟩
  | false =>
    have hnew : ∀ slot ∈ set.slots, rule.same slot.key key = false := by
      intro slot hslot
      rw [← Bool.not_eq_true]
      intro hsame
      have hmember := (h.contains_iff hl hkey).mpr ⟨slot.key, List.mem_map_of_mem hslot, hsame⟩
      cases hcontains.symm.trans hmember
    obtain ⟨hsound, hperm⟩ := sound_add h.sound hl h.among_slots hkey hnew
    have hadded : SoundAmong rule among (KeySet.add rule set key) := by
      refine ⟨hsound, fun other hother => ?_⟩
      rcases List.mem_cons.mp (hperm.subset hother) with rfl | hold
      · exact hkey
      · exact h.among other hold
    refine ⟨hadded, fun other hother => ?_⟩
    rw [hadded.contains_iff hl hother, h.contains_iff hl hother]
    simp only [hperm.mem_iff, List.mem_cons, exists_eq_or_imp]
    exact or_comm

/-- **Adding keys gives the union.** -/
theorem addAll {keys : List κ} (hkeys : ∀ key ∈ keys, among key) :
    SoundAmong rule among (addAll rule set keys) ∧ ∀ other, among other →
      ((KeySet.addAll rule set keys).contains rule other = true ↔
        set.contains rule other = true ∨ ∃ key ∈ keys, rule.same key other = true) := by
  induction keys generalizing set with
  | nil => exact ⟨h, fun other _ => by simp [KeySet.addAll]⟩
  | cons key keys ih =>
    obtain ⟨hkey, hkeys⟩ := List.forall_mem_cons.mp hkeys
    obtain ⟨hadd, hmember⟩ := h.add hl hkey
    obtain ⟨hall, hmembers⟩ := ih hadd hkeys
    refine ⟨hall, fun other hother => (hmembers other hother).trans ?_⟩
    rw [hmember other hother, or_assoc]
    simp only [List.mem_cons, exists_eq_or_imp]

/-! ## Removing -/

theorem erase (hkey : among key) :
    SoundAmong rule among (set.erase rule key) ∧ ∀ other, among other →
      ((set.erase rule key).contains rule other = true ↔
        set.contains rule other = true ∧ rule.same key other = false) := by
  obtain ⟨hsound, hperm⟩ := h.sound.erase hl h.among_slots hkey
  have hslots : ∀ {slot}, slot ∈ (set.erase rule key).slots ↔
      slot ∈ set.slots ∧ rule.same slot.key key = false := hperm.mem_iff.trans Table.mem_others
  have herased : SoundAmong rule among (set.erase rule key) := by
    refine ⟨hsound, fun other hother => ?_⟩
    obtain ⟨slot, hslot, rfl⟩ := List.mem_map.mp hother
    exact h.among_slots slot (hslots.mp hslot).1
  refine ⟨herased, fun other hother => ?_⟩
  rw [herased.contains_iff hl hother, h.contains_iff hl hother]
  constructor
  · rintro ⟨kept, hkept, hsame⟩
    obtain ⟨slot, hslot, rfl⟩ := List.mem_map.mp hkept
    obtain ⟨hslot, hdiffers⟩ := hslots.mp hslot
    refine ⟨⟨slot.key, List.mem_map_of_mem hslot, hsame⟩, ?_⟩
    rw [← Bool.not_eq_true]
    intro hother'
    have hback := hl.symm _ _ hkey hother hother'
    cases hdiffers.symm.trans (hl.trans _ _ _ (h.among_slots slot hslot) hother hkey hsame hback)
  · rintro ⟨⟨kept, hkept, hsame⟩, hdiffers⟩
    obtain ⟨slot, hslot, rfl⟩ := List.mem_map.mp hkept
    refine ⟨slot.key, List.mem_map_of_mem (hslots.mpr ⟨hslot, ?_⟩), hsame⟩
    rw [← Bool.not_eq_true]
    intro hkey'
    have hamong := h.among_slots slot hslot
    have hback := hl.symm _ _ hamong hkey hkey'
    cases hdiffers.symm.trans (hl.trans _ _ _ hkey hamong hother hback hsame)

/-- **Removing keys gives the difference.** -/
theorem eraseAll {keys : List κ} (hkeys : ∀ key ∈ keys, among key) :
    SoundAmong rule among (eraseAll rule set keys) ∧ ∀ other, among other →
      ((KeySet.eraseAll rule set keys).contains rule other = true ↔
        set.contains rule other = true ∧ ¬ ∃ key ∈ keys, rule.same key other = true) := by
  induction keys generalizing set with
  | nil => exact ⟨h, fun other _ => by simp [KeySet.eraseAll]⟩
  | cons key keys ih =>
    obtain ⟨hkey, hkeys⟩ := List.forall_mem_cons.mp hkeys
    obtain ⟨herase, hmember⟩ := h.erase hl hkey
    obtain ⟨hall, hmembers⟩ := ih herase hkeys
    refine ⟨hall, fun other hother => (hmembers other hother).trans ?_⟩
    rw [hmember other hother, and_assoc]
    simp only [List.mem_cons, exists_eq_or_imp, not_or, Bool.not_eq_true]

end SoundAmong

/-- The set of some keys contains what is the same as one of them, however often each of them is listed. -/
theorem soundAmong_ofList (hl : rule.Coherent among) {keys : List κ} (hkeys : ∀ key ∈ keys, among key) :
    SoundAmong rule among (ofList rule keys) ∧ ∀ other, among other →
      ((ofList rule keys).contains rule other = true ↔ ∃ key ∈ keys, rule.same key other = true) := by
  obtain ⟨hsound, hmembers⟩ := soundAmong_empty.addAll hl hkeys
  refine ⟨hsound, fun other hother => (hmembers other hother).trans ?_⟩
  have hnone : (Table.empty : KeySet κ).contains rule other = false := by
    rw [← Bool.not_eq_true, soundAmong_empty.contains_iff hl hother]
    simp [Table.keys, Table.slots_empty]
  simp [hnone]

end Ckl.Collection.KeySet
