import Ckl.Collection.TableSize

/-!
# Hash tables

A table of entries found by their keys. A rule for keys tells which keys are the same and gives a hash
that is the same for them; an entry lies in the bucket that its hash selects, and a bucket is searched
from its beginning. Every entry keeps its hash, so that resizing does not look at keys.
-/

namespace Ckl.Collection

/-- How keys are told apart: `same entry key` tells whether the key of an entry is the one searched. -/
structure KeyRule (κ : Type) where
  hash : κ → UInt64
  same : κ → κ → Bool

/-- An entry with the hash of its key. -/
structure Slot (κ ν : Type) where
  hash : UInt64
  key : κ
  value : ν

/-- Buckets of entries, and how many entries there are. -/
structure Table (κ ν : Type) where
  buckets : Array (List (Slot κ ν))
  count : Nat

namespace Table

variable {κ ν : Type}

/-- A table without entries. -/
def empty : Table κ ν := ⟨Array.replicate leastTableSize [], 0⟩

instance : Inhabited (Table κ ν) := ⟨empty⟩

/-- The number of buckets. -/
def size (table : Table κ ν) : Nat := table.buckets.size

/-- The bucket that a hash selects among `size` ones. -/
def bucketOf (size : Nat) (hash : UInt64) : Nat := hash.toNat % size

/-- The entries of the bucket that a hash selects. -/
def bucket (table : Table κ ν) (hash : UInt64) : List (Slot κ ν) :=
  table.buckets[bucketOf table.size hash]?.getD []

/-- All entries, bucket by bucket. -/
def slots (table : Table κ ν) : List (Slot κ ν) := table.buckets.toList.flatten

/-- The keys, bucket by bucket. -/
def keys (table : Table κ ν) : List κ := table.slots.map (·.key)

/-- The keys with their values, bucket by bucket. -/
def entries (table : Table κ ν) : List (κ × ν) := table.slots.map fun slot => (slot.key, slot.value)

/-- Where in its bucket the entry of a key lies. -/
def locate (table : Table κ ν) (hash : UInt64) (isKey : κ → Bool) : Option Nat :=
  (table.bucket hash).findIdx? fun slot => isKey slot.key

/-- The entry of a key. -/
def find? (rule : KeyRule κ) (table : Table κ ν) (key : κ) : Option (Slot κ ν) :=
  (table.bucket (rule.hash key)).find? fun slot => rule.same slot.key key

/-- The value of a key. -/
def get? (rule : KeyRule κ) (table : Table κ ν) (key : κ) : Option ν :=
  (table.find? rule key).map (·.value)

/-- Whether a key has an entry. -/
def contains (rule : KeyRule κ) (table : Table κ ν) (key : κ) : Bool :=
  (table.find? rule key).isSome

/-- The buckets with an entry added at the end of its bucket. -/
def addSlot (buckets : Array (List (Slot κ ν))) (slot : Slot κ ν) : Array (List (Slot κ ν)) :=
  buckets.modify (bucketOf buckets.size slot.hash) (· ++ [slot])

/-- The entries distributed over `size` buckets. -/
def rehash (table : Table κ ν) (size : Nat) : Table κ ν :=
  { table with buckets := table.slots.foldl addSlot (Array.replicate size []) }

/-- The table with the size that its number of entries asks for. -/
def fit (table : Table κ ν) : Table κ ν :=
  let wanted := resized table.size table.count
  if wanted = table.size then table else table.rehash wanted

/-- Stores an entry: in the place of the entry found by `locate`, whose hash then stays, or else as a
new one. Gives the entry that was there before. -/
def placeEntry (table : Table κ ν) (slot : Slot κ ν) :
    (existing : Option Nat) → Option (κ × ν) × Table κ ν
  | some position =>
    ((table.bucket slot.hash)[position]?.map fun old => (old.key, old.value),
      { table with
        buckets := table.buckets.modify (bucketOf table.size slot.hash)
          (·.modify position fun old => { slot with hash := old.hash }) })
  | none => (none, fit { buckets := addSlot table.buckets slot, count := table.count + 1 })

/-- Stores a value under a key. The entry of the same key, if there is one, is replaced and given. -/
def insertEntry (rule : KeyRule κ) (table : Table κ ν) (key : κ) (value : ν) :
    Option (κ × ν) × Table κ ν :=
  let hash := rule.hash key
  table.placeEntry ⟨hash, key, value⟩ (table.locate hash fun entry => rule.same entry key)

/-- The table in which an entry has been stored. -/
def place (table : Table κ ν) (slot : Slot κ ν) (existing : Option Nat) : Table κ ν :=
  (table.placeEntry slot existing).2

/-- The table in which a value has been stored under a key. -/
def insert (rule : KeyRule κ) (table : Table κ ν) (key : κ) (value : ν) : Table κ ν :=
  (table.insertEntry rule key value).2

theorem place_some (table : Table κ ν) (slot : Slot κ ν) (position : Nat) :
    table.place slot (some position) =
      { table with
        buckets := table.buckets.modify (bucketOf table.size slot.hash)
          (·.modify position fun old => { slot with hash := old.hash }) } :=
  rfl

theorem place_none (table : Table κ ν) (slot : Slot κ ν) :
    table.place slot none =
      fit { buckets := addSlot table.buckets slot, count := table.count + 1 } :=
  rfl

theorem insert_eq (rule : KeyRule κ) (table : Table κ ν) (key : κ) (value : ν) :
    table.insert rule key value = table.place ⟨rule.hash key, key, value⟩
      (table.locate (rule.hash key) fun entry => rule.same entry key) :=
  rfl

/-- A list without the element at a position, whose place the last element takes. -/
def swapRemove (position : Nat) (slots : List (Slot κ ν)) : List (Slot κ ν) :=
  match slots.getLast? with
  | some last => (slots.set position last).dropLast
  | none => []

/-- Removes the entry of a key, if there is one, and gives it. -/
def removeEntry (rule : KeyRule κ) (table : Table κ ν) (key : κ) : Option (κ × ν) × Table κ ν :=
  let hash := rule.hash key
  match table.locate hash fun entry => rule.same entry key with
  | some position =>
    ((table.bucket hash)[position]?.map fun old => (old.key, old.value),
      fit { buckets := table.buckets.modify (bucketOf table.size hash) (swapRemove position)
            count := table.count - 1 })
  | none => (none, table)

/-- The table without the entry of a key. -/
def erase (rule : KeyRule κ) (table : Table κ ν) (key : κ) : Table κ ν :=
  (table.removeEntry rule key).2

theorem erase_eq (rule : KeyRule κ) (table : Table κ ν) (key : κ) :
    table.erase rule key =
      match table.locate (rule.hash key) fun entry => rule.same entry key with
      | some position =>
        fit { buckets := table.buckets.modify (bucketOf table.size (rule.hash key)) (swapRemove position)
              count := table.count - 1 }
      | none => table := by
  simp only [erase, removeEntry]
  split <;> rfl

end Table

/-! ## Sets -/

/-- A set: a table of keys alone. -/
abbrev KeySet (κ : Type) := Table κ Unit

namespace KeySet

variable {κ : Type}

/-- Adds a key unless the same one is there already, which then stays. Tells whether it was added. -/
def addKey (rule : KeyRule κ) (set : KeySet κ) (key : κ) : Bool × KeySet κ :=
  if set.contains rule key then (false, set) else (true, set.insert rule key ())

/-- The set to which a key has been added. -/
def add (rule : KeyRule κ) (set : KeySet κ) (key : κ) : KeySet κ := (addKey rule set key).2

theorem add_eq (rule : KeyRule κ) (set : KeySet κ) (key : κ) :
    add rule set key = if set.contains rule key then set else set.insert rule key () :=
  apply_ite Prod.snd ..

/-- Adds keys in order. -/
def addAll (rule : KeyRule κ) (set : KeySet κ) (keys : List κ) : KeySet κ :=
  keys.foldl (add rule) set

/-- The set of some keys. -/
def ofList (rule : KeyRule κ) (keys : List κ) : KeySet κ := addAll rule Table.empty keys

/-- Removes keys. -/
def eraseAll (rule : KeyRule κ) (set : KeySet κ) (keys : List κ) : KeySet κ :=
  keys.foldl (Table.erase rule) set

end KeySet

end Ckl.Collection
