import Ckl.Collection.Table
import Mathlib.Data.List.Perm.Basic

/-!
# Where the entries of a table lie

`Shelved` is the shape that every change keeps, whatever the hashes and whatever keys count as the
same: each entry lies in the bucket that its hash selects, and `count` is the number of entries. What a
change does to the entries is said up to their order: storing adds or replaces one, `swapRemove` takes
one away, and rehashing changes none.
-/

namespace Ckl.Collection

/-! ## One bucket of many -/

/-- The buckets before and after one of them, and what a change of it leaves of them. -/
theorem flatten_modify_split {α : Type} {buckets : List (List α)} {index : Nat}
    (h : index < buckets.length) :
    ∃ before after, buckets.flatten = before ++ buckets[index] ++ after ∧
      ∀ change, (buckets.modify index change).flatten = before ++ change buckets[index] ++ after := by
  refine ⟨(buckets.take index).flatten, (buckets.drop (index + 1)).flatten, ?_, fun change => ?_⟩
  · conv => lhs; rw [← List.take_append_drop index buckets, List.drop_eq_getElem_cons h]
    simp only [List.flatten_append, List.flatten_cons, List.append_assoc]
  · rw [List.modify_eq_take_cons_drop h]
    simp only [List.flatten_append, List.flatten_cons, List.append_assoc]

/-- Taking an element out as `swapRemove` does takes out that element alone. -/
theorem perm_swapRemove {κ ν : Type} {slots : List (Slot κ ν)} {position : Nat}
    (h : position < slots.length) :
    slots.Perm (slots[position] :: Table.swapRemove position slots) := by
  obtain ⟨front, last, rfl⟩ : ∃ front last, slots = front ++ [last] :=
    ⟨slots.dropLast, slots.getLast (List.ne_nil_of_length_pos (by omega)),
      (List.dropLast_append_getLast _).symm⟩
  simp only [Table.swapRemove, List.getLast?_append, List.getLast?_singleton, Option.some_or]
  rcases Nat.lt_or_ge position front.length with hlt | hge
  · rw [List.set_append_left _ _ hlt, List.dropLast_concat, List.getElem_append_left hlt]
    refine List.perm_append_comm.trans ?_
    simp only [List.singleton_append]
    conv => lhs; rw [← List.take_append_drop position front, List.drop_eq_getElem_cons hlt]
    rw [List.set_eq_take_append_cons_drop, if_pos hlt]
    refine (List.Perm.cons last List.perm_middle).trans ((List.Perm.swap _ _ _).trans ?_)
    exact List.Perm.cons _ List.perm_middle.symm
  · obtain rfl : position = front.length := by
      simp only [List.length_append, List.length_singleton] at h
      omega
    simp only [List.set_append_right _ _ (Nat.le_refl _), Nat.sub_self, List.set_cons_zero,
      List.dropLast_concat, List.getElem_append_right (Nat.le_refl _), List.getElem_cons_zero]
    exact List.perm_append_comm

namespace Table

variable {κ ν : Type}

/-! ## Buckets in which every entry has its place -/

/-- Every entry lies in the bucket that its hash selects. -/
def Filed (buckets : Array (List (Slot κ ν))) : Prop :=
  ∀ (index : Nat) (h : index < buckets.size), ∀ slot ∈ buckets[index],
    bucketOf buckets.size slot.hash = index

/-- A table whose entries have their places and are counted. -/
structure Shelved (table : Table κ ν) : Prop where
  size_pos : 0 < table.size
  filed : Filed table.buckets
  counted : table.count = table.slots.length

theorem bucketOf_lt {size : Nat} (h : 0 < size) (hash : UInt64) : bucketOf size hash < size :=
  Nat.mod_lt _ h

theorem filed_replicate (size : Nat) : Filed (Array.replicate size ([] : List (Slot κ ν))) := by
  intro index h slot hs
  rw [Array.getElem_replicate] at hs
  cases hs

theorem flatten_replicate_nil (size : Nat) :
    (Array.replicate size ([] : List (Slot κ ν))).toList.flatten = [] := by
  simp only [Array.toList_replicate, List.flatten_replicate_nil]

/-- A bucket holds those entries whose hashes select it. -/
theorem Shelved.mem_bucket_iff {table : Table κ ν} (h : table.Shelved) {hash : UInt64}
    {slot : Slot κ ν} :
    slot ∈ table.bucket hash ↔
      slot ∈ table.slots ∧ bucketOf table.size slot.hash = bucketOf table.size hash := by
  have hlt : bucketOf table.size hash < table.buckets.size := bucketOf_lt h.size_pos hash
  simp only [bucket, Array.getElem?_eq_getElem hlt, Option.getD_some, slots, List.mem_flatten]
  constructor
  · intro hs
    exact ⟨⟨_, Array.getElem_mem_toList hlt, hs⟩, h.filed _ hlt slot hs⟩
  · rintro ⟨⟨slots, hmem, hs⟩, heq⟩
    obtain ⟨index, hi, rfl⟩ := List.mem_iff_getElem.mp hmem
    have hi' : index < table.buckets.size := by simpa only [Array.length_toList] using hi
    rw [Array.getElem_toList] at hs
    obtain rfl : bucketOf table.size hash = index := heq ▸ h.filed index hi' slot hs
    exact hs

/-- The empty table is shelved. -/
theorem shelved_empty : (empty : Table κ ν).Shelved where
  size_pos := by simp only [size, empty, Array.size_replicate, leastTableSize]; decide
  filed := filed_replicate _
  counted := by simp only [empty, slots, flatten_replicate_nil, List.length_nil]

theorem slots_empty : (empty : Table κ ν).slots = [] := flatten_replicate_nil _

/-! ## Changing one bucket -/

/-- What a change of one bucket leaves in its place: the entries of the others, and those that the
change keeps or brings and whose hashes select this bucket. -/
theorem Filed.modify {buckets : Array (List (Slot κ ν))} (h : Filed buckets) {index : Nat}
    {change : List (Slot κ ν) → List (Slot κ ν)}
    (hc : ∀ (hi : index < buckets.size), ∀ slot ∈ change buckets[index],
      slot ∈ buckets[index] ∨ bucketOf buckets.size slot.hash = index) :
    Filed (buckets.modify index change) := by
  intro other ho slot hs
  rw [Array.size_modify] at ho ⊢
  rw [Array.getElem_modify] at hs
  by_cases heq : index = other
  · subst heq
    rw [if_pos rfl] at hs
    rcases hc ho slot hs with hold | hnew
    · exact h index ho slot hold
    · exact hnew
  · rw [if_neg heq] at hs
    exact h other ho slot hs

/-- The entries after a change of one bucket. -/
theorem slots_modify_split {buckets : Array (List (Slot κ ν))} {index : Nat}
    (h : index < buckets.size) :
    ∃ before after, buckets.toList.flatten = before ++ buckets[index] ++ after ∧
      ∀ change, (buckets.modify index change).toList.flatten =
        before ++ change buckets[index] ++ after := by
  have hlt : index < buckets.toList.length := by rw [Array.length_toList]; exact h
  obtain ⟨before, after, hold, hnew⟩ := flatten_modify_split hlt
  refine ⟨before, after, by simpa using hold, fun change => ?_⟩
  rw [Array.toList_modify, hnew, Array.getElem_toList]

theorem size_addSlot (buckets : Array (List (Slot κ ν))) (slot : Slot κ ν) :
    (addSlot buckets slot).size = buckets.size := Array.size_modify

theorem Filed.addSlot {buckets : Array (List (Slot κ ν))} (h : Filed buckets) (slot : Slot κ ν) :
    Filed (addSlot buckets slot) := by
  refine h.modify fun _ other ho => ?_
  rcases List.mem_append.mp ho with hold | hnew
  · exact .inl hold
  · exact .inr (List.mem_singleton.mp hnew ▸ rfl)

/-- Adding an entry adds it, wherever it goes. -/
theorem perm_addSlot {buckets : Array (List (Slot κ ν))} (h : 0 < buckets.size) (slot : Slot κ ν) :
    (addSlot buckets slot).toList.flatten.Perm (slot :: buckets.toList.flatten) := by
  obtain ⟨before, after, hold, hnew⟩ := slots_modify_split (bucketOf_lt h slot.hash)
  rw [Table.addSlot, hnew, hold]
  simp only [List.append_assoc, List.singleton_append]
  rw [← List.append_assoc, ← List.append_assoc]
  exact List.perm_middle

/-! ## Resizing -/

/-- Distributing entries over buckets loses none, adds none and gives each its place. -/
theorem foldl_addSlot (added : List (Slot κ ν)) :
    ∀ buckets : Array (List (Slot κ ν)), 0 < buckets.size → Filed buckets →
      (added.foldl addSlot buckets).size = buckets.size ∧ Filed (added.foldl addSlot buckets) ∧
        (added.foldl addSlot buckets).toList.flatten.Perm (added ++ buckets.toList.flatten) := by
  induction added with
  | nil => exact fun buckets _ hf => ⟨rfl, hf, List.Perm.refl _⟩
  | cons slot rest ih =>
    intro buckets hpos hf
    obtain ⟨hsize, hfiled, hperm⟩ :=
      ih (addSlot buckets slot) (by rw [size_addSlot]; exact hpos) (hf.addSlot slot)
    refine ⟨hsize.trans (size_addSlot _ _), hfiled, hperm.trans ?_⟩
    exact ((perm_addSlot hpos slot).append_left rest).trans List.perm_middle

/-- Rehashing neither loses nor duplicates an entry. -/
theorem perm_slots_rehash (table : Table κ ν) {size : Nat} (h : 0 < size) :
    (table.rehash size).slots.Perm table.slots := by
  obtain ⟨_, _, hperm⟩ := foldl_addSlot table.slots (Array.replicate size [])
    (by simpa only [Array.size_replicate] using h) (filed_replicate size)
  rw [flatten_replicate_nil, List.append_nil] at hperm
  exact hperm

theorem Shelved.rehash {table : Table κ ν} (h : table.Shelved) {size : Nat} (hs : 0 < size) :
    (table.rehash size).Shelved := by
  obtain ⟨hsize, hfiled, _⟩ := foldl_addSlot table.slots (Array.replicate size [])
    (by simpa only [Array.size_replicate] using hs) (filed_replicate size)
  refine ⟨?_, hfiled, h.counted.trans (perm_slots_rehash table hs).length_eq.symm⟩
  show 0 < (table.slots.foldl addSlot (Array.replicate size [])).size
  rw [hsize, Array.size_replicate]
  exact hs

/-- Tables have sizes that are not zero. -/
theorem tableSizeFor_pos (count : Nat) : 0 < tableSizeFor count := by
  unfold tableSizeFor
  cases hf : tableSizes.find? (roomFor count ≤ ·) with
  | none => exact Nat.zero_lt_succ _
  | some size =>
    have hall : ∀ size ∈ tableSizes, 0 < size := by decide
    exact hall size (List.mem_of_find?_eq_some hf)

theorem resized_pos {size : Nat} (h : 0 < size) (count : Nat) : 0 < resized size count := by
  unfold resized
  split
  · exact tableSizeFor_pos count
  · exact h

theorem perm_slots_fit {table : Table κ ν} (h : 0 < table.size) :
    table.fit.slots.Perm table.slots := by
  simp only [fit]
  split
  · exact List.Perm.refl _
  · exact perm_slots_rehash table (resized_pos h table.count)

theorem Shelved.fit {table : Table κ ν} (h : table.Shelved) : table.fit.Shelved := by
  simp only [Table.fit]
  split
  · exact h
  · exact h.rehash (resized_pos h.size_pos table.count)

/-! ## Storing and removing -/

/-- A new entry. -/
theorem Shelved.place_none {table : Table κ ν} (h : table.Shelved) (slot : Slot κ ν) :
    (table.place slot none).Shelved ∧
      (table.place slot none).slots.Perm (slot :: table.slots) := by
  have hperm := perm_addSlot h.size_pos slot
  have hpos : 0 < (addSlot table.buckets slot).size := by
    rw [size_addSlot]; exact h.size_pos
  have hadded : Shelved { buckets := addSlot table.buckets slot, count := table.count + 1 } :=
    ⟨hpos, h.filed.addSlot slot, by simp only [slots, hperm.length_eq, List.length_cons, h.counted]⟩
  exact ⟨hadded.fit, (perm_slots_fit hadded.size_pos).trans hperm⟩

/-- An entry in the place of another one of its bucket, whose hash stays. -/
theorem Shelved.place_some {table : Table κ ν} (h : table.Shelved) (slot : Slot κ ν)
    {position : Nat} (hp : position < (table.bucket slot.hash).length) :
    (table.place slot (some position)).Shelved ∧
      ∃ rest, table.slots.Perm ((table.bucket slot.hash)[position] :: rest) ∧
        (table.place slot (some position)).slots.Perm
          ({ slot with hash := (table.bucket slot.hash)[position].hash } :: rest) := by
  have hlt : bucketOf table.size slot.hash < table.buckets.size := bucketOf_lt h.size_pos slot.hash
  have hbucket : table.bucket slot.hash = table.buckets[bucketOf table.size slot.hash] := by
    simp only [bucket, Array.getElem?_eq_getElem hlt, Option.getD_some]
  -- only one bucket is changed, and its other entries stay where they are
  let change : List (Slot κ ν) → List (Slot κ ν) :=
    (·.modify position fun old => { slot with hash := old.hash })
  obtain ⟨before, after, hold, hnew⟩ := slots_modify_split hlt
  have hset := hnew change
  rw [← hbucket] at hold hset
  have hchange : change (table.bucket slot.hash) = (table.bucket slot.hash).take position ++
      { slot with hash := (table.bucket slot.hash)[position].hash } ::
        (table.bucket slot.hash).drop (position + 1) := List.modify_eq_take_cons_drop hp
  have hfiled : Filed (table.buckets.modify (bucketOf table.size slot.hash) change) := by
    refine h.filed.modify fun _ other ho => ?_
    rw [← hbucket, hchange] at ho
    rw [← hbucket]
    rcases List.mem_append.mp ho with hbefore | hrest
    · exact .inl (List.mem_of_mem_take hbefore)
    rcases List.mem_cons.mp hrest with rfl | hafter
    · -- the hash that stays is one that was filed here
      exact .inr (h.mem_bucket_iff.mp (List.getElem_mem hp)).2
    · exact .inl (List.mem_of_mem_drop hafter)
  have hcount : table.count =
      (table.buckets.modify (bucketOf table.size slot.hash) change).toList.flatten.length := by
    rw [h.counted, slots, hset, hold]
    simp only [change, List.length_append, List.length_modify]
  refine ⟨⟨by simpa only [size, Table.place_some, Array.size_modify] using h.size_pos, hfiled, hcount⟩,
    before ++ ((table.bucket slot.hash).take position ++
      (table.bucket slot.hash).drop (position + 1)) ++ after, ?_, ?_⟩
  · rw [slots, hold]
    conv => lhs; rw [← List.take_append_drop position (table.bucket slot.hash),
      List.drop_eq_getElem_cons hp]
    simp only [List.append_assoc, List.cons_append]
    rw [← List.append_assoc, ← List.append_assoc]
    exact List.perm_middle
  · have hslots : (table.place slot (some position)).slots =
        before ++ change (table.bucket slot.hash) ++ after := hset
    rw [hslots, hchange]
    simp only [List.append_assoc, List.cons_append]
    rw [← List.append_assoc, ← List.append_assoc]
    exact List.perm_middle

/-- The table without one entry of a bucket, before it is resized. -/
def dropSlot (table : Table κ ν) (hash : UInt64) (position : Nat) : Table κ ν :=
  { buckets := table.buckets.modify (bucketOf table.size hash) (swapRemove position)
    count := table.count - 1 }

/-- An entry less. -/
theorem Shelved.dropSlot {table : Table κ ν} (h : table.Shelved) {hash : UInt64} {position : Nat}
    (hp : position < (table.bucket hash).length) :
    (table.dropSlot hash position).Shelved ∧
      table.slots.Perm ((table.bucket hash)[position] :: (table.dropSlot hash position).slots) := by
  have hlt : bucketOf table.size hash < table.buckets.size := bucketOf_lt h.size_pos hash
  have hbucket : table.bucket hash = table.buckets[bucketOf table.size hash] := by
    simp only [bucket, Array.getElem?_eq_getElem hlt, Option.getD_some]
  obtain ⟨before, after, hold, hnew⟩ := slots_modify_split hlt
  have hset := hnew (swapRemove position)
  rw [← hbucket] at hold hset
  have hremoved := perm_swapRemove hp
  have hperm : table.slots.Perm
      ((table.bucket hash)[position] :: (table.dropSlot hash position).slots) := by
    simp only [slots, Table.dropSlot, hold, hset]
    refine ((hremoved.append_left before).append_right after).trans ?_
    simp only [List.append_assoc, List.cons_append]
    exact List.perm_middle
  refine ⟨⟨by simpa only [size, Table.dropSlot, Array.size_modify] using h.size_pos, ?_, ?_⟩, hperm⟩
  · refine h.filed.modify fun _ other ho => .inl ?_
    rw [← hbucket] at ho ⊢
    exact hremoved.symm.subset (List.mem_cons_of_mem _ ho)
  · have hlen := hperm.length_eq
    rw [← h.counted, List.length_cons] at hlen
    show table.count - 1 = _
    omega

end Table

end Ckl.Collection
