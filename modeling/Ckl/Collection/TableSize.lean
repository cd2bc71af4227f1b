/-!
# Sizes of tables

A table has one of a fixed list of sizes. It is resized when it holds more entries than buckets, or
less than half as many; the new size is then the least one with room for the entries and thirty
percent more, or the last one. So the size depends on the numbers of entries alone.
-/

namespace Ckl.Collection

/-- The sizes of tables in ascending order. -/
def tableSizes : List Nat :=
  [5, 11, 23, 47, 97, 199, 409, 823, 1741, 3469, 6949, 14033, 28411, 57557, 116731, 236897, 480881,
    976369, 1982627, 4026031, 8175383, 16601593, 33712729, 68460391]

/-- The size of a table that is empty. -/
def leastTableSize : Nat := 5

/-- The size of the largest table. -/
def greatestTableSize : Nat := 68460391

/-- The number of buckets wanted for some entries: thirty percent more, rounded up. -/
def roomFor (count : Nat) : Nat := (13 * count + 9) / 10

/-- The size for some entries. -/
def tableSizeFor (count : Nat) : Nat :=
  (tableSizes.find? (roomFor count ≤ ·)).getD greatestTableSize

/-- The size after a change to `count` entries. -/
def resized (size count : Nat) : Nat :=
  if size < count ∨ count < size / 2 then tableSizeFor count else size

end Ckl.Collection
