import Ckl.Store

/-!
# What values contain

A container reaches another one if it is that container itself or if something that it holds reaches
it. Containers may hold each other in circles, so the search notes which ones it has entered. A search
without a goal enters all the containers that can be reached.
-/

namespace Ckl.Store

open Collection (Table)

variable (store : Store)

/-- The values that a container holds. -/
def parts : Container → List Value
  | .list ref => (store.items ref).toList
  | .set ref => (store.keySet ref).keys
  | .map ref => (store.table ref).entries.flatMap fun entry => [entry.1, entry.2]
  | .object ref => (store.members ref).values

/-- How far a search for a container has come. -/
structure Search where
  found : Bool := false
  entered : List Container := []

/-- The search after a value and all that it holds; it enters at most `bound` containers inside each
other. -/
def searchFrom (goal : Option Container) : (bound : Nat) → Search → Value → Search
  | 0, search, _ => search
  | bound + 1, search, value =>
    match value.container? with
    | none => search
    | some container =>
      if search.found || search.entered.contains container then search
      else if some container = goal then { search with found := true }
      else
        (store.parts container).foldl (searchFrom goal bound)
          { search with entered := container :: search.entered }

/-- Whether a value reaches the container that the second value is. -/
def reaches (value target : Value) : Bool :=
  match target.container? with
  | none => false
  | some goal => (store.searchFrom (some goal) (store.containerCount + 1) {} value).found

/-- The containers that a value reaches. -/
def spanned (value : Value) : List Container :=
  (store.searchFrom none (store.containerCount + 1) {} value).entered

end Ckl.Store
