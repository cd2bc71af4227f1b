import Ckl.Proofs.Collection.Reference
import Mathlib.Data.List.Destutter

/-!
# The sizes of tables

Whatever the hashes and whatever keys count as the same, a table that was empty once has one of the
sizes of tables, and its size suits its number of entries (`Table.Shaped`). A change may or may not
resize it, but in every case its size afterwards is the one before, resized for the number of entries
that there are now (`Table.Refits`): a table of the right shape needs no resizing, so this also holds
of changes that do not look at the size. The size after a run of changes is thus found by going through
the numbers of entries alone (`Table.Shaped.run`).

Each change comes with a rule for keys of its own, since keys that lie in a table may themselves be
changed before the next change of the table.
-/

namespace Ckl.Collection

variable {κ ν : Type}

/-! ## Sizes -/

/-- There is room for the entries. Nothing else is used of the number of buckets wanted for more than no
entries. -/
theorem le_roomFor (count : Nat) : count ≤ roomFor count := by
  unfold roomFor
  omega

/-- The size for a count is one of the sizes in the list. -/
theorem tableSizeFor_mem (count : Nat) : tableSizeFor count ∈ tableSizes := by
  unfold tableSizeFor
  cases hf : tableSizes.find? (roomFor count ≤ ·) with
  | none =>
    show greatestTableSize ∈ tableSizes
    decide
  | some size => exact List.mem_of_find?_eq_some hf

/-- Only the last size may be too small for the entries. -/
theorem le_tableSizeFor {count : Nat} (h : tableSizeFor count < greatestTableSize) :
    count ≤ tableSizeFor count := by
  unfold tableSizeFor at h ⊢
  cases hf : tableSizes.find? (roomFor count ≤ ·) with
  | none =>
    rw [hf] at h
    exact absurd h (Nat.lt_irrefl _)
  | some size =>
    have hroom : roomFor count ≤ size := by simpa using List.find?_some hf
    exact (le_roomFor count).trans hroom

/-- A size suits a number of entries: the buckets are neither fewer than the entries nor more than twice
as many and one, or this is the size that was chosen for them. -/
def Suits (size count : Nat) : Prop :=
  (size / 2 ≤ count ∧ count ≤ size) ∨ size = tableSizeFor count

/-- After the resize the size suits the count. -/
theorem suits_resized (size count : Nat) : Suits (resized size count) count := by
  unfold resized
  split
  · exact .inr rfl
  · exact .inl (by omega)

/-- A size that suits is kept. -/
theorem Suits.resized_eq {size count : Nat} (h : Suits size count) : resized size count = size := by
  unfold resized
  split
  · next hne =>
    rcases h with ⟨hleast, hmost⟩ | hchosen
    · omega
    · exact hchosen.symm
  · rfl

/-- A resize gives one of the sizes in the list. -/
theorem resized_mem {size : Nat} (h : size ∈ tableSizes) (count : Nat) :
    resized size count ∈ tableSizes := by
  unfold resized
  split
  · exact tableSizeFor_mem count
  · exact h

/-- A number of entries that stays does not resize again. -/
theorem foldl_resized_destutter (counts : List Nat) : ∀ size count : Nat,
    (counts.destutter' (· ≠ ·) count).foldl resized size = (count :: counts).foldl resized size := by
  induction counts with
  | nil => exact fun _ _ => rfl
  | cons next rest ih =>
    intro size count
    by_cases hsame : count = next
    · subst hsame
      rw [List.destutter'_cons_neg (R := (· ≠ ·)) rest (not_not.mpr rfl), ih]
      simp only [List.foldl_cons, (suits_resized size count).resized_eq]
    · rw [List.destutter'_cons_pos (R := (· ≠ ·)) rest hsame, List.foldl_cons, ih]
      rfl

namespace Table

variable {γ α : Type}

/-! ## The shape of a table -/

/-- A table with one of the sizes of tables, one that suits its number of entries; its entries have
their places and are counted. -/
structure Shaped (table : Table κ ν) : Prop extends Shelved table where
  sized : table.size ∈ tableSizes
  suited : Suits table.size table.count

/-- The entries are not more than the buckets, unless the table is as large as tables get. -/
theorem Shaped.count_le {table : Table κ ν} (h : table.Shaped)
    (hsize : table.size < greatestTableSize) : table.count ≤ table.size := by
  rcases h.suited with ⟨_, hmost⟩ | hchosen
  · exact hmost
  · rw [hchosen] at hsize ⊢
    exact le_tableSizeFor hsize

/-- The empty table has the least size. -/
theorem size_empty : (empty : Table κ ν).size = leastTableSize := Array.size_replicate

/-- The empty table is in shape. -/
theorem shaped_empty : (empty : Table κ ν).Shaped where
  toShelved := shelved_empty
  sized := by rw [size_empty]; decide
  suited := .inr (size_empty.trans (by decide : leastTableSize = tableSizeFor 0))

/-- What a change leaves of a table: one whose entries have their places and are counted, and whose size
is the one before, resized for the entries that there are now. -/
structure Refits (before after : Table κ ν) : Prop extends Shelved after where
  refitted : after.size = resized before.size after.count

/-- The size that a change leaves suits. -/
theorem Refits.shaped {before after : Table κ ν} (h : Refits before after)
    (hbefore : before.size ∈ tableSizes) : after.Shaped where
  toShelved := h.toShelved
  sized := h.refitted ▸ resized_mem hbefore after.count
  suited := h.refitted ▸ suits_resized before.size after.count

/-! ## One change -/

/-- Resizing changes no number of entries. -/
theorem count_fit (table : Table κ ν) : table.fit.count = table.count := by
  simp only [fit]
  split <;> rfl

/-- A table is fitted by a resize for its count. -/
theorem size_fit {table : Table κ ν} (h : 0 < table.size) :
    table.fit.size = resized table.size table.fit.count := by
  rw [count_fit, fit]
  split
  · next hsame => exact hsame.symm
  · obtain ⟨hsize, -, -⟩ := foldl_addSlot table.slots
      (Array.replicate (resized table.size table.count) [])
      (by simpa only [Array.size_replicate] using resized_pos h table.count) (filed_replicate _)
    exact hsize.trans Array.size_replicate

namespace Shaped

variable {table : Table κ ν}

/-- A table of the right shape needs no resizing. -/
theorem refits (h : table.Shaped) : Refits table table where
  toShelved := h.toShelved
  refitted := h.suited.resized_eq.symm

/-- A new slot adds one entry, and the table is fitted to it. -/
theorem place_none (h : table.Shaped) (slot : Slot κ ν) : Refits table (table.place slot none) where
  toShelved := (h.toShelved.place_none slot).1
  refitted := by
    let added : Table κ ν := ⟨addSlot table.buckets slot, table.count + 1⟩
    have hadded : added.size = table.size := size_addSlot _ _
    have hfit := size_fit (hadded.symm ▸ h.size_pos)
    rwa [hadded] at hfit

/-- A slot that is replaced leaves the count and the size. -/
theorem place_some (h : table.Shaped) (slot : Slot κ ν) {position : Nat}
    (hp : position < (table.bucket slot.hash).length) :
    Refits table (table.place slot (some position)) where
  toShelved := (h.toShelved.place_some slot hp).1
  refitted := Array.size_modify.trans h.refits.refitted

/-- An insertion adds at most one entry, and the table is fitted to it. -/
theorem insert (h : table.Shaped) (rule : KeyRule κ) (key : κ) (value : ν) :
    Refits table (table.insert rule key value) := by
  rw [Table.insert_eq]
  cases hp : table.locate (rule.hash key) fun entry => rule.same entry key with
  | none => exact h.place_none ⟨rule.hash key, key, value⟩
  | some position => exact h.place_some ⟨rule.hash key, key, value⟩ (find?_of_locate hp).1

/-- An erasure takes away at most one entry, and the table is fitted to it. -/
theorem erase (h : table.Shaped) (rule : KeyRule κ) (key : κ) :
    Refits table (table.erase rule key) := by
  rw [Table.erase_eq]
  cases hp : table.locate (rule.hash key) fun entry => rule.same entry key with
  | none => exact h.refits
  | some position =>
    obtain ⟨hdropped, -⟩ := h.toShelved.dropSlot (find?_of_locate hp).1
    refine ⟨hdropped.fit, (size_fit hdropped.size_pos).trans ?_⟩
    exact congrArg (resized · _) Array.size_modify

/-- Every change of a map leaves the table fitted to the new count. -/
theorem mapChange (h : table.Shaped) (rule : KeyRule κ) (change : MapChange κ ν) :
    Refits table (change.apply rule table).2 := by
  cases change with
  | insert key value => exact h.insert rule key value
  | insertShared key value => exact h.insert rule key value
  | remove key => exact h.erase rule key

/-- Every change of a set leaves the table fitted to the new count. -/
theorem setChange {set : KeySet κ} (h : set.Shaped) (rule : KeyRule κ) (change : SetChange κ) :
    Refits set (change.apply rule set).2 := by
  have hadd : ∀ key, Refits set ((SetChange.insert key).apply rule set).2 := by
    intro key
    show Refits set (KeySet.add rule set key)
    rw [KeySet.add_eq]
    split
    · exact h.refits
    · exact h.insert rule key ()
  cases change with
  | insert key => exact hadd key
  | insertShared key => rw [Represents.apply_insertShared]; exact hadd key
  | remove key => exact h.erase rule key

end Shaped

/-! ## A run of changes -/

/-- The numbers of entries that a run of changes leaves, one after each change. -/
def countsAfter (step : Table κ ν → γ → α × Table κ ν) : Table κ ν → List γ → List Nat
  | _, [] => []
  | table, change :: rest =>
    let next := (step table change).2
    next.count :: countsAfter step next rest

/-- A run leaves a table of the right shape, and its size is found from the numbers of entries. -/
theorem Shaped.run {step : Table κ ν → γ → α × Table κ ν}
    (hstep : ∀ table change, table.Shaped → Refits table (step table change).2) (changes : List γ) :
    ∀ table : Table κ ν, table.Shaped →
      (runChanges step table changes).2.Shaped ∧
        (runChanges step table changes).2.size =
          (countsAfter step table changes).foldl resized table.size := by
  induction changes with
  | nil => exact fun table h => ⟨h, rfl⟩
  | cons change rest ih =>
    intro table h
    have hnext := hstep table change h
    obtain ⟨hshaped, hsize⟩ := ih _ (hnext.shaped h.sized)
    refine ⟨hshaped, hsize.trans ?_⟩
    rw [hnext.refitted]
    rfl

/-- The numbers of entries that a table goes through, beginning with none. A number that stays is not
listed again, so it does not matter how many changes leave it; runs with the same number after each change
go through the same numbers all the more. -/
def levels (step : Table κ ν → γ → α × Table κ ν) (changes : List γ) : List Nat :=
  (0 :: countsAfter step empty changes).destutter (· ≠ ·)

/-- A table of the right shape, whose size follows from the numbers of entries that it has gone
through. -/
structure SizedBy (levels : List Nat) (table : Table κ ν) : Prop extends Shaped table where
  room : table.size < greatestTableSize → table.count ≤ table.size
  determined : table.size = levels.foldl resized leastTableSize

/-- After a run of changes the size is the one that the counts give. -/
theorem sizedBy_run {step : Table κ ν → γ → α × Table κ ν}
    (hstep : ∀ table change, table.Shaped → Refits table (step table change).2) (changes : List γ) :
    SizedBy (levels step changes) (runChanges step empty changes).2 := by
  obtain ⟨hshaped, hsize⟩ := Shaped.run hstep changes empty shaped_empty
  refine ⟨hshaped, hshaped.count_le, ?_⟩
  have hnone : resized leastTableSize 0 = leastTableSize := by decide
  rw [levels, List.destutter_cons', foldl_resized_destutter, List.foldl_cons, hnone, hsize, size_empty]

end Table

/-- A change of a map with the rule for keys that is in force. -/
def MapChange.ruled (map : Table κ ν) (change : KeyRule κ × MapChange κ ν) : Option ν × Table κ ν :=
  change.2.apply change.1 map

/-- A change of a set with the rule for keys that is in force. -/
def SetChange.ruled (set : KeySet κ) (change : KeyRule κ × SetChange κ) : Bool × KeySet κ :=
  change.2.apply change.1 set

/-- Whatever changes are made of an empty set and of an empty map, under whatever hashes and whatever
keys count as the same, both have the right shape afterwards: one of the sizes of tables, which suits the
number of entries, every entry in the bucket that its hash selects, and the entries counted. Their sizes
follow from the numbers of entries that they have gone through, so a set and a map that have gone through
the same ones have the same size. -/
theorem size_of_levels {μ : Type} (setChanges : List (KeyRule κ × SetChange κ))
    (mapChanges : List (KeyRule μ × MapChange μ ν)) :
    let set := (runChanges SetChange.ruled Table.empty setChanges).2
    let map := (runChanges MapChange.ruled Table.empty mapChanges).2
    set.SizedBy (Table.levels SetChange.ruled setChanges) ∧
      map.SizedBy (Table.levels MapChange.ruled mapChanges) ∧
      (Table.levels SetChange.ruled setChanges = Table.levels MapChange.ruled mapChanges →
        set.size = map.size) := by
  intro set map
  have hset : set.SizedBy (Table.levels SetChange.ruled setChanges) :=
    Table.sizedBy_run (fun _ change h => h.setChange change.1 change.2) setChanges
  have hmap : map.SizedBy (Table.levels MapChange.ruled mapChanges) :=
    Table.sizedBy_run (fun _ change h => h.mapChange change.1 change.2) mapChanges
  refine ⟨hset, hmap, fun hlevels => ?_⟩
  rw [hset.determined, hlevels, ← hmap.determined]

/-- The last number of entries alone does not tell the size: five entries fill a new table, but lie in a
larger one if there has been a sixth. -/
example : [0, 1, 2, 3, 4, 5].foldl resized leastTableSize = 5 ∧
    [0, 1, 2, 3, 4, 5, 6, 5].foldl resized leastTableSize = 11 := by decide

end Ckl.Collection
