import Ckl.Bindings
import Ckl.Collection.Table
import Mathlib.Logic.Basic

/-!
# Bindings and tables with other values

Values may stand for other values, one for one. Bindings and tables of the others are then made, searched
and changed as those of the values are, provided that a table finds the others as it finds the values.
-/

namespace Array

variable {α β : Type}

/-- A change of one item commutes with a map that commutes with the change. -/
theorem map_modify {f : α → β} {change : α → α} {other : β → β} (h : ∀ a, f (change a) = other (f a))
    (as : Array α) (index : Nat) : (as.modify index change).map f = (as.map f).modify index other := by
  refine Array.ext_getElem? fun i => ?_
  rw [Array.getElem?_map, Array.getElem?_modify, Array.getElem?_modify, Array.getElem?_map]
  split
  · cases as[i]? with
    | none => rfl
    | some a => exact congrArg some (h a)
  · rfl

end Array

namespace List

variable {α β : Type}

theorem map_modify {f : α → β} {change : α → α} {other : β → β} (h : ∀ a, f (change a) = other (f a))
    (as : List α) (index : Nat) : (as.modify index change).map f = (as.map f).modify index other := by
  refine List.ext_getElem? fun i => ?_
  rw [List.getElem?_map, List.getElem?_modify, List.getElem?_modify, List.getElem?_map]
  cases as[i]? with
  | none => rfl
  | some a =>
    refine congrArg some ?_
    show f (if index = i then change a else a) = if index = i then other (f a) else f a
    split
    · exact h a
    · rfl

end List

namespace Ckl

/-! ## Bindings -/

namespace Bindings

variable {α β : Type} (f : α → β)

/-- Bindings are told by their entries. -/
theorem ext {bindings other : Bindings α} (h : bindings.entries = other.entries) : bindings = other := by
  cases bindings
  cases other
  cases h
  rfl

/-- An entry with another value. -/
def mapEntry (entry : String × α) : String × β := (entry.1, f entry.2)

/-- The names with other values. -/
def map (bindings : Bindings α) : Bindings β where
  entries := bindings.entries.map (mapEntry f)
  distinct := by
    rw [List.map_map]
    exact bindings.distinct

variable (bindings : Bindings α) (name : String) (value : α)

theorem entries_map : (bindings.map f).entries = bindings.entries.map (mapEntry f) := rfl

/-- No entries are mapped to none. -/
@[simp]
theorem map_empty : (empty : Bindings α).map f = empty := rfl

@[simp]
theorem values_map : (bindings.map f).values = bindings.values.map f := by
  rw [values, values, entries_map, List.map_map, List.map_map]
  rfl

@[simp]
theorem size_map : (bindings.map f).size = bindings.size := List.length_map ..

@[simp]
theorem binds_map : (bindings.map f).binds name = bindings.binds name := by
  rw [binds, binds, entries_map, List.any_map]
  rfl

/-- The value of a name is the mapped one. -/
@[simp]
theorem get?_map : (bindings.map f).get? name = (bindings.get? name).map f := by
  rw [get?, get?, entries_map, List.find?_map, Option.map_map, Option.map_map]
  rfl

/-- To bind a name and to map is to map and then to bind it to what its value is mapped to. -/
theorem map_put : (bindings.put name value).map f = (bindings.map f).put name (f value) := by
  refine ext ?_
  rw [put, put]
  by_cases h : bindings.binds name = true
  · rw [dif_pos h, dif_pos (by rwa [binds_map])]
    show (replaceIn name value bindings.entries).map (mapEntry f) =
      replaceIn name (f value) (bindings.entries.map (mapEntry f))
    rw [replaceIn, replaceIn, List.map_map, List.map_map]
    refine List.map_congr_left fun entry _ => ?_
    show mapEntry f (if entry.1 = name then (entry.1, value) else entry) =
      if entry.1 = name then (entry.1, f value) else mapEntry f entry
    split <;> rfl
  · rw [dif_neg h, dif_neg (by rwa [binds_map])]
    exact List.map_append

/-- The same for several names. -/
theorem map_putAll (entries : List (String × α)) :
    (bindings.putAll entries).map f = (bindings.map f).putAll (entries.map (mapEntry f)) := by
  induction entries generalizing bindings with
  | nil => rfl
  | cons entry entries ih =>
    show ((bindings.put entry.1 entry.2).putAll entries).map f = _
    rw [ih, map_put]
    rfl

/-- Names are erased from what is mapped alike. -/
theorem map_erase : (bindings.erase name).map f = (bindings.map f).erase name :=
  ext (@List.filter_map _ _ (mapEntry f) (fun entry => entry.1 != name) bindings.entries).symm

/-- So are all names that are not kept. -/
theorem map_restrict (keep : String → Bool) :
    (bindings.restrict keep).map f = (bindings.map f).restrict keep :=
  ext (@List.filter_map _ _ (mapEntry f) (fun entry => keep entry.1) bindings.entries).symm

/-- Bindings with values that are not changed stay the same. -/
theorem map_eq_self {f : α → α} {bindings : Bindings α} (h : ∀ value ∈ bindings.values, f value = value) :
    bindings.map f = bindings := by
  have hentries : bindings.entries.map (mapEntry f) = bindings.entries.map id :=
    List.map_congr_left fun entry hentry => by
      rw [mapEntry, h entry.2 (List.mem_map_of_mem hentry)]
      rfl
  exact ext (hentries.trans (List.map_id _))

end Bindings

/-! ## Tables -/

namespace Collection

variable {κ κ' ν ν' : Type} (f : κ → κ') (g : ν → ν')

/-- The entry of another key with another value. -/
def Slot.map (slot : Slot κ ν) : Slot κ' ν' := ⟨slot.hash, f slot.key, g slot.value⟩

/-- The other keys are told apart as the keys are. -/
structure KeyRule.Follows (rule : KeyRule κ) (other : KeyRule κ') : Prop where
  hash : ∀ key, other.hash (f key) = rule.hash key
  same : ∀ a b, other.same (f a) (f b) = rule.same a b

namespace Table

/-- The table of the other keys with the other values. -/
def map (table : Table κ ν) : Table κ' ν' := ⟨table.buckets.map (List.map (Slot.map f g)), table.count⟩

variable {f} {rule : KeyRule κ} {other : KeyRule κ'} (h : rule.Follows f other) (table : Table κ ν)

@[simp]
theorem size_map : (table.map f g).size = table.size := Array.size_map ..

/-- The entries are counted alike. -/
@[simp]
theorem count_map : (table.map f g).count = table.count := rfl

@[simp]
theorem map_empty : (empty : Table κ ν).map f g = empty := by
  rw [map, empty, empty]
  congr 1
  exact Array.map_replicate ..

/-- Tables with keys and values that are not changed stay the same. -/
theorem map_eq_self {f : κ → κ} {g : ν → ν} {table : Table κ ν}
    (h : ∀ slot ∈ table.slots, f slot.key = slot.key ∧ g slot.value = slot.value) :
    table.map f g = table := by
  have hbuckets : table.buckets.map (List.map (Slot.map f g)) = table.buckets.map id := by
    refine Array.map_congr_left fun bucket hbucket => ?_
    have hslots : bucket.map (Slot.map f g) = bucket.map id := by
      refine List.map_congr_left fun slot hslot => ?_
      have hboth := h slot (List.mem_flatten_of_mem (Array.mem_toList_iff.mpr hbucket) hslot)
      rw [Slot.map, hboth.1, hboth.2]
      rfl
    exact hslots.trans (List.map_id _)
  rw [map, hbuckets, Array.map_id]

/-- Slots keep their bucket, as hashes are kept. -/
theorem bucket_map (hash : UInt64) :
    (table.map f g).bucket hash = (table.bucket hash).map (Slot.map f g) := by
  rw [bucket, bucket, size_map, map, Array.getElem?_map]
  cases table.buckets[bucketOf table.size hash]? <;> rfl

/-- The slots in the order of the buckets. -/
theorem slots_map : (table.map f g).slots = table.slots.map (Slot.map f g) := by
  rw [slots, slots, map, Array.toList_map, List.map_flatten]

/-- The keys are the mapped ones in the same order. -/
@[simp]
theorem keys_map : (table.map f g).keys = table.keys.map f := by
  rw [keys, keys, slots_map, List.map_map, List.map_map]
  rfl

/-- The entries are the mapped ones in the same order. -/
@[simp]
theorem entries_map : (table.map f g).entries = table.entries.map (Prod.map f g) := by
  rw [entries, entries, slots_map, List.map_map, List.map_map]
  rfl

/-- A key is found at the same place of its bucket. -/
theorem locate_map {isKey : κ → Bool} {isOther : κ' → Bool} (hkey : ∀ key, isOther (f key) = isKey key)
    (hash : UInt64) : (table.map f g).locate hash isOther = table.locate hash isKey := by
  rw [locate, locate, bucket_map, List.findIdx?_map]
  exact congrArg₂ _ (funext fun slot => hkey slot.key) rfl

include h in
/-- The slot of a mapped key is the mapped slot. -/
theorem find?_map (key : κ) :
    (table.map f g).find? other (f key) = (table.find? rule key).map (Slot.map f g) := by
  rw [find?, find?, h.hash, bucket_map, List.find?_map]
  exact congrArg (Option.map _) (congrArg₂ _ (funext fun slot => h.same slot.key key) rfl)

include h in
/-- The value of a mapped key is the mapped value, as long as the rules agree. -/
theorem get?_map (key : κ) : (table.map f g).get? other (f key) = (table.get? rule key).map g := by
  rw [get?, get?, find?_map g h, Option.map_map, Option.map_map]
  rfl

include h in
/-- A mapped key is there exactly if the key is. -/
theorem contains_map (key : κ) : (table.map f g).contains other (f key) = table.contains rule key := by
  rw [contains, contains, find?_map g h, Option.isSome_map]

/-- A mapped slot goes into the same bucket. -/
theorem map_addSlot (buckets : Array (List (Slot κ ν))) (slot : Slot κ ν) :
    (addSlot buckets slot).map (List.map (Slot.map f g)) =
      addSlot (buckets.map (List.map (Slot.map f g))) (slot.map f g) := by
  rw [addSlot, addSlot, Array.size_map]
  exact Array.map_modify (fun _ => List.map_append) buckets _

/-- Slots are put into buckets by their hashes, mapped or not. -/
theorem map_foldl_addSlot (slots : List (Slot κ ν)) (buckets : Array (List (Slot κ ν))) :
    (slots.foldl addSlot buckets).map (List.map (Slot.map f g)) =
      (slots.map (Slot.map f g)).foldl addSlot (buckets.map (List.map (Slot.map f g))) := by
  induction slots generalizing buckets with
  | nil => rfl
  | cons slot slots ih => rw [List.foldl_cons, ih, map_addSlot, List.map_cons, List.foldl_cons]

/-- A table grows when the mapped one does. -/
theorem map_fit : table.fit.map f g = (table.map f g).fit := by
  rw [fit, fit, size_map]
  show Table.map f g (if _ then _ else _) = if resized table.size table.count = table.size then _ else _
  split
  · rfl
  · rw [rehash, rehash, slots_map, map]
    refine congrArg₂ Table.mk ?_ rfl
    rw [map_foldl_addSlot, Array.map_replicate]
    rfl

/-- A slot is placed alike. -/
theorem map_place (slot : Slot κ ν) (existing : Option Nat) :
    (table.place slot existing).map f g = (table.map f g).place (slot.map f g) existing := by
  cases existing with
  | none =>
    rw [place_none, place_none, map_fit]
    exact congrArg fit (congrArg₂ Table.mk (map_addSlot g table.buckets slot) rfl)
  | some position =>
    have hbucket : ∀ bucket : List (Slot κ ν),
        (bucket.modify position fun old => { slot with hash := old.hash }).map (Slot.map f g) =
          (bucket.map (Slot.map f g)).modify position fun old => { slot.map f g with hash := old.hash } :=
      fun bucket => @List.map_modify _ _ (Slot.map f g) _
        (fun old => { slot.map f g with hash := old.hash }) (fun _ => rfl) bucket position
    rw [place_some, place_some, size_map]
    exact congrArg₂ Table.mk (Array.map_modify hbucket table.buckets _) rfl

include h in
/-- Under a rule that follows, mapping a table and inserting into it can be done in either order. -/
theorem map_insert (key : κ) (value : ν) :
    (table.insert rule key value).map f g = (table.map f g).insert other (f key) (g value) := by
  rw [insert_eq, insert_eq, map_place, h.hash]
  exact congrArg _ (locate_map g table (fun entry => h.same entry key) _).symm

/-- The last slot takes the place of the removed one in both. -/
theorem map_swapRemove (position : Nat) (slots : List (Slot κ ν)) :
    (swapRemove position slots).map (Slot.map f g) = swapRemove position (slots.map (Slot.map f g)) := by
  rw [swapRemove, swapRemove, List.getLast?_map]
  cases slots.getLast? with
  | none => rfl
  | some last => simp only [Option.map_some, List.map_dropLast, List.map_set]

include h in
/-- So can mapping and erasing. -/
theorem map_erase (key : κ) : (table.erase rule key).map f g = (table.map f g).erase other (f key) := by
  rw [erase_eq, erase_eq, h.hash, locate_map g table fun entry => h.same entry key]
  cases table.locate (rule.hash key) fun entry => rule.same entry key with
  | none => rfl
  | some position =>
    dsimp only
    rw [map_fit]
    refine congrArg fit (congrArg₂ Table.mk ?_ rfl)
    rw [size_map]
    exact Array.map_modify (map_swapRemove g position) table.buckets _

include h in
/-- The same for entries one after the other. -/
theorem map_foldl_insert (entries : List (κ × ν)) :
    (entries.foldl (fun table entry => table.insert rule entry.1 entry.2) table).map f g =
      (entries.map (Prod.map f g)).foldl (fun table entry => table.insert other entry.1 entry.2)
        (table.map f g) := by
  induction entries generalizing table with
  | nil => rfl
  | cons entry entries ih => rw [List.foldl_cons, ih, map_insert g h, List.map_cons, List.foldl_cons]; rfl

end Table

/-! ## Sets -/

namespace KeySet

/-- The set of the other keys. -/
def map (set : KeySet κ) : KeySet κ' := Table.map f id set

variable {f} {rule : KeyRule κ} {other : KeyRule κ'} (h : rule.Follows f other) (set : KeySet κ)

@[simp]
theorem map_empty : map f (Table.empty : KeySet κ) = Table.empty := Table.map_empty ..

/-- The keys of a set are the mapped ones in the same order. -/
@[simp]
theorem keys_map : Table.keys (map f set) = (Table.keys set).map f := Table.keys_map ..

@[simp]
theorem count_map : Table.count (map f set) = Table.count set := rfl

include h in
/-- A mapped key is in the mapped set exactly if the key is in the set. -/
theorem contains_map (key : κ) :
    Table.contains other (map f set) (f key) = Table.contains rule set key :=
  Table.contains_map id h set key

include h in
/-- Sets are tables of keys: to add an element and to map. -/
theorem map_add (key : κ) : map f (add rule set key) = add other (map f set) (f key) := by
  rw [add_eq, add_eq, map, map, Table.contains_map id h]
  split
  · rfl
  · exact Table.map_insert id h set key ()

include h in
/-- Several elements are added alike, -/
theorem map_addAll (keys : List κ) :
    map f (addAll rule set keys) = addAll other (map f set) (keys.map f) := by
  induction keys generalizing set with
  | nil => rfl
  | cons key keys ih =>
    show map f (addAll rule (add rule set key) keys) = _
    rw [ih, map_add h]
    rfl

include h in
/-- The set of mapped elements is the mapped set. -/
theorem map_ofList (keys : List κ) : map f (ofList rule keys) = ofList other (keys.map f) := by
  rw [ofList, ofList, map_addAll h, map_empty]

include h in
/-- and erased alike. -/
theorem map_eraseAll (keys : List κ) :
    map f (eraseAll rule set keys) = eraseAll other (map f set) (keys.map f) := by
  induction keys generalizing set with
  | nil => rfl
  | cons key keys ih =>
    show map f (eraseAll rule (set.erase rule key) keys) = _
    rw [ih]
    exact congrArg (eraseAll other · (keys.map f)) (Table.map_erase id h set key)

end KeySet

end Collection

end Ckl
