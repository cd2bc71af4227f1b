/-!
# Sorting with effects

Sorting by a comparison that does something: it may fail, and others may see in which order elements are
compared. Short lists are sorted by insertion: each element is compared with those before it, the last
one first, and passes those that are greater. Long lists are halved, sorted and merged. Elements that
are not less than each other keep their order.
-/

namespace Ckl.Builtin

variable {m : Type → Type} [Monad m] {α : Type}

/-- Inserts an element behind a sorted list that is given from its end. -/
def insertSorted (less : α → α → m Bool) (element : α) : List α → m (List α)
  | [] => return [element]
  | last :: others => do
    if ← less element last then return last :: (← insertSorted less element others)
    else return element :: last :: others

/-- Sorts by insertion. -/
def insertionSort (less : α → α → m Bool) (elements : List α) : m (List α) := do
  let sorted ← elements.foldlM (fun sorted element => insertSorted less element sorted) []
  return sorted.reverse

/-- Merges two sorted lists. -/
def mergeSorted (less : α → α → m Bool) : List α → List α → m (List α)
  | [], bs => return bs
  | a :: as, [] => return a :: as
  | a :: as, b :: bs => do
    if ← less b a then return b :: (← mergeSorted less (a :: as) bs)
    else return a :: (← mergeSorted less as (b :: bs))
termination_by as bs => as.length + bs.length

/-- The greatest length of a list that is sorted by insertion. -/
def insertionLimit : Nat := 20

/-- Sorts by halves, at most `bound` times inside each other. -/
def sortHalves (less : α → α → m Bool) : (bound : Nat) → List α → m (List α)
  | 0, elements => insertionSort less elements
  | bound + 1, elements => do
    if elements.length ≤ insertionLimit then insertionSort less elements
    else
      let half := elements.length / 2
      let left ← sortHalves less bound (elements.take half)
      let right ← sortHalves less bound (elements.drop half)
      mergeSorted less left right

/-- Sorts a list. -/
def sortWith (less : α → α → m Bool) (elements : List α) : m (List α) :=
  sortHalves less elements.length elements

end Ckl.Builtin
