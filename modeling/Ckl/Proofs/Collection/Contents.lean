import Ckl.Collection.Table

/-!
# What tables hold

Whatever is done to a table, its entries are entries that it had before and the one that is stored. So a
property of all entries is kept by every change that stores none but such entries. This asks nothing of
the table and of the rule for its keys.
-/

namespace Ckl.Collection

variable {κ ν : Type}

namespace Table

/-- Every entry has the property. -/
def All (holds : κ → ν → Prop) (table : Table κ ν) : Prop :=
  ∀ slot ∈ table.slots, holds slot.key slot.value

variable {holds : κ → ν → Prop} {table : Table κ ν}

/-! ## Buckets -/

/-- After one bucket has been changed, what is in the buckets was there before or is in the changed one. -/
theorem mem_flatten_modify {α : Type} {buckets : Array (List α)} {index : Nat}
    {change : List α → List α} {a : α} (h : a ∈ (buckets.modify index change).toList.flatten) :
    a ∈ buckets.toList.flatten ∨ ∃ bucket ∈ buckets.toList, a ∈ change bucket := by
  obtain ⟨bucket, hbucket, ha⟩ := List.mem_flatten.mp h
  obtain ⟨i, hi, rfl⟩ := List.getElem_of_mem hbucket
  simp only [Array.getElem_toList, Array.getElem_modify] at ha
  have hmem : ∀ h : i < buckets.size, buckets[i] ∈ buckets.toList := fun h =>
    Array.mem_toList_iff.mpr (Array.getElem_mem h)
  split at ha
  · exact .inr ⟨_, hmem _, ha⟩
  · exact .inl (List.mem_flatten_of_mem (hmem _) ha)

/-- A slot is put into its bucket, and nothing else is. -/
theorem mem_addSlot {buckets : Array (List (Slot κ ν))} {slot other : Slot κ ν}
    (h : other ∈ (addSlot buckets slot).toList.flatten) :
    other ∈ buckets.toList.flatten ∨ other = slot := by
  rcases mem_flatten_modify h with h | ⟨bucket, hbucket, h⟩
  · exact .inl h
  · rcases List.mem_append.mp h with h | h
    · exact .inl (List.mem_flatten_of_mem hbucket h)
    · exact .inr (List.mem_singleton.mp h)

/-- Slots put in one after the other come from the buckets or are among those added. -/
theorem mem_foldl_addSlot {added : List (Slot κ ν)} {buckets : Array (List (Slot κ ν))}
    {slot : Slot κ ν} (h : slot ∈ (added.foldl addSlot buckets).toList.flatten) :
    slot ∈ buckets.toList.flatten ∨ slot ∈ added := by
  induction added generalizing buckets with
  | nil => exact .inl h
  | cons first added ih =>
    rcases ih h with h | h
    · rcases mem_addSlot h with h | rfl
      · exact .inl h
      · exact .inr List.mem_cons_self
    · exact .inr (List.mem_cons_of_mem _ h)

/-- A table that is fitted to its size holds no other slots. -/
theorem mem_slots_fit {slot : Slot κ ν} (h : slot ∈ table.fit.slots) : slot ∈ table.slots := by
  unfold fit at h
  dsimp only at h
  split at h
  · exact h
  · rcases mem_foldl_addSlot h with h | h
    · obtain ⟨bucket, hbucket, hslot⟩ := List.mem_flatten.mp h
      rw [Array.toList_replicate] at hbucket
      rw [List.eq_of_mem_replicate hbucket] at hslot
      cases hslot
    · exact h

/-- The slots of a bucket are slots of the table. -/
theorem mem_slots_of_mem_bucket {hash : UInt64} {slot : Slot κ ν} (h : slot ∈ table.bucket hash) :
    slot ∈ table.slots := by
  unfold bucket at h
  cases hb : table.buckets[bucketOf table.size hash]? with
  | none =>
    rw [hb] at h
    cases h
  | some bucket =>
    rw [hb] at h
    exact List.mem_flatten_of_mem (Array.mem_toList_iff.mpr (Array.mem_of_getElem? hb)) h

/-- After one element has been changed, the elements are the former ones and the changed one. -/
theorem mem_modify {α : Type} {items : List α} {index : Nat} {change : α → α} {a : α}
    (h : a ∈ items.modify index change) : a ∈ items ∨ ∃ item ∈ items, a = change item := by
  obtain ⟨i, hi, rfl⟩ := List.getElem_of_mem h
  rw [List.getElem_modify]
  split
  · exact .inr ⟨_, List.getElem_mem _, rfl⟩
  · exact .inl (List.getElem_mem _)

/-- Taking a slot out brings in no other one. -/
theorem mem_swapRemove {position : Nat} {slots : List (Slot κ ν)} {slot : Slot κ ν}
    (h : slot ∈ swapRemove position slots) : slot ∈ slots := by
  unfold swapRemove at h
  cases hlast : slots.getLast? with
  | none =>
    rw [hlast] at h
    cases h
  | some last =>
    rw [hlast] at h
    rcases List.mem_or_eq_of_mem_set (List.dropLast_subset _ h) with h | rfl
    · exact h
    · exact List.mem_of_getLast? hlast

/-! ## Changes -/

/-- The empty table has no entry to ask about. -/
theorem all_empty : (empty : Table κ ν).All holds := by
  intro slot h
  obtain ⟨bucket, hbucket, hslot⟩ := List.mem_flatten.mp h
  rw [show (empty : Table κ ν).buckets.toList = List.replicate leastTableSize [] from
    Array.toList_replicate ..] at hbucket
  rw [List.eq_of_mem_replicate hbucket] at hslot
  cases hslot

/-- An entry is stored in the place of another one or as a new one. -/
theorem All.place (h : table.All holds) {slot : Slot κ ν} (hslot : holds slot.key slot.value)
    (existing : Option Nat) : (table.place slot existing).All holds := by
  intro other hother
  cases existing with
  | none =>
    rcases mem_addSlot (mem_slots_fit hother) with hother | rfl
    · exact h other hother
    · exact hslot
  | some position =>
    rcases mem_flatten_modify hother with hother | ⟨bucket, hbucket, hother⟩
    · exact h other hother
    · rcases mem_modify hother with hother | ⟨old, _, rfl⟩
      · exact h other (List.mem_flatten_of_mem hbucket hother)
      · exact hslot

/-- The property is kept if the inserted entry has it. -/
theorem All.insert (h : table.All holds) (rule : KeyRule κ) {key : κ} {value : ν}
    (hnew : holds key value) : (table.insert rule key value).All holds :=
  h.place hnew _

/-- The property is kept if every inserted entry has it. -/
theorem all_foldl_insert {rule : KeyRule κ} {entries : List (κ × ν)} (h : table.All holds)
    (hnew : ∀ entry ∈ entries, holds entry.1 entry.2) :
    (entries.foldl (fun table entry => table.insert rule entry.1 entry.2) table).All holds := by
  induction entries generalizing table with
  | nil => exact h
  | cons entry entries ih =>
    exact ih (h.insert rule (hnew entry List.mem_cons_self)) fun other hother =>
      hnew other (List.mem_cons_of_mem _ hother)

/-- The property is kept when a key is erased. -/
theorem All.erase (h : table.All holds) (rule : KeyRule κ) (key : κ) :
    (table.erase rule key).All holds := by
  rw [erase_eq]
  split
  · intro slot hslot
    rcases mem_flatten_modify (mem_slots_fit hslot) with hslot | ⟨bucket, hbucket, hslot⟩
    · exact h slot hslot
    · exact h slot (List.mem_flatten_of_mem hbucket (mem_swapRemove hslot))
  · exact h

/-- A property of the keys holds of each key of the table. -/
theorem All.keys {among : κ → Prop} (h : table.All fun key _ => among key) {key : κ}
    (hkey : key ∈ table.keys) : among key := by
  obtain ⟨slot, hslot, rfl⟩ := List.mem_map.mp hkey
  exact h slot hslot

/-- The property holds of each entry of the table. -/
theorem All.entries (h : table.All holds) {entry : κ × ν} (hentry : entry ∈ table.entries) :
    holds entry.1 entry.2 := by
  obtain ⟨slot, hslot, rfl⟩ := List.mem_map.mp hentry
  exact h slot hslot

/-- What holds of every key is a property of the entries. -/
theorem all_of_keys {among : κ → Prop} (h : ∀ key ∈ table.keys, among key) :
    table.All fun key _ => among key :=
  fun _ hslot => h _ (List.mem_map_of_mem hslot)

/-- What holds of every entry, listed, is a property of the entries. -/
theorem all_of_entries (h : ∀ entry ∈ table.entries, holds entry.1 entry.2) : table.All holds :=
  fun slot hslot => h (slot.key, slot.value) (List.mem_map_of_mem hslot)

end Table

namespace KeySet

variable {among : κ → Prop} {set : KeySet κ}

/-- A set keeps a property that the added key has. -/
theorem all_add (h : set.All fun key _ => among key) (rule : KeyRule κ) {key : κ} (hkey : among key) :
    (KeySet.add rule set key).All fun key _ => among key := by
  rw [KeySet.add_eq]
  split
  · exact h
  · exact h.insert rule hkey

/-- A set keeps a property that all added keys have. -/
theorem all_addAll (rule : KeyRule κ) {keys : List κ} (hkeys : ∀ key ∈ keys, among key)
    (h : set.All fun key _ => among key) :
    (KeySet.addAll rule set keys).All fun key _ => among key := by
  induction keys generalizing set with
  | nil => exact h
  | cons key keys ih =>
    exact ih (fun other hother => hkeys other (List.mem_cons_of_mem _ hother))
      (all_add h rule (hkeys key List.mem_cons_self))

/-- A set made of keys with a property has it. -/
theorem all_ofList (rule : KeyRule κ) {keys : List κ} (hkeys : ∀ key ∈ keys, among key) :
    (KeySet.ofList rule keys).All fun key _ => among key :=
  all_addAll rule hkeys Table.all_empty

/-- A set keeps the property when keys are erased. -/
theorem all_eraseAll (rule : KeyRule κ) (keys : List κ) (h : set.All fun key _ => among key) :
    (KeySet.eraseAll rule set keys).All fun key _ => among key := by
  induction keys generalizing set with
  | nil => exact h
  | cons key keys ih => exact ih (h.erase rule key)

end KeySet

end Ckl.Collection
