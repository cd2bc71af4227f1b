/-!
# Bindings

Names bound to values, in the order in which the names were first bound. Binding a name again changes
its value in place; a name that is removed and bound again moves to the end. No name occurs twice, and
every operation keeps that.
-/

namespace Ckl

/-- Names with their values, each name once. -/
structure Bindings (α : Type) where
  entries : List (String × α)
  distinct : (entries.map Prod.fst).Nodup

namespace Bindings

variable {α : Type}

/-- No names. -/
def empty : Bindings α := ⟨[], List.nodup_nil⟩

instance : Inhabited (Bindings α) := ⟨empty⟩

/-- The names in order. -/
def names (bindings : Bindings α) : List String := bindings.entries.map Prod.fst

/-- The values in order of their names. -/
def values (bindings : Bindings α) : List α := bindings.entries.map Prod.snd

/-- How many names are bound. -/
def size (bindings : Bindings α) : Nat := bindings.entries.length

/-- What a name is bound to. -/
def get? (bindings : Bindings α) (name : String) : Option α :=
  (bindings.entries.find? fun entry => entry.1 == name).map Prod.snd

/-- Whether a name is bound. -/
def binds (bindings : Bindings α) (name : String) : Bool :=
  bindings.entries.any fun entry => entry.1 == name

/-- The entries with another value for a name. -/
def replaceIn (name : String) (value : α) (entries : List (String × α)) : List (String × α) :=
  entries.map fun entry => if entry.1 = name then (entry.1, value) else entry

/-- Replacing a value keeps the names. -/
theorem names_replaceIn (name : String) (value : α) (entries : List (String × α)) :
    (replaceIn name value entries).map Prod.fst = entries.map Prod.fst := by
  simp only [replaceIn, List.map_map]
  refine List.map_congr_left fun entry _ => ?_
  simp only [Function.comp_apply]
  split <;> rfl

theorem binds_iff (bindings : Bindings α) (name : String) :
    bindings.binds name = true ↔ name ∈ bindings.names := by
  simp [binds, names, List.any_eq_true]

/-- The bindings after a name that is not bound has been bound. -/
def append (bindings : Bindings α) (name : String) (value : α)
    (new : bindings.binds name = false) : Bindings α where
  entries := bindings.entries ++ [(name, value)]
  distinct := by
    have absent : name ∉ bindings.entries.map Prod.fst := fun member => by
      have := (bindings.binds_iff name).2 member
      simp [new] at this
    simp only [List.map_append, List.map_cons, List.map_nil]
    exact List.nodup_append.2 ⟨bindings.distinct, by simp, fun a ha b hb => by
      simp only [List.mem_singleton] at hb
      exact fun eq => absent (hb ▸ eq ▸ ha)⟩

/-- The bindings with another value for a name that is bound. -/
def replace (bindings : Bindings α) (name : String) (value : α) : Bindings α where
  entries := replaceIn name value bindings.entries
  distinct := by rw [names_replaceIn]; exact bindings.distinct

/-- Binds a name: in its place if it is bound, else behind all others. -/
def put (bindings : Bindings α) (name : String) (value : α) : Bindings α :=
  if bound : bindings.binds name = true then bindings.replace name value
  else bindings.append name value (by simpa using bound)

/-- Removes a name; the others keep their order. -/
def erase (bindings : Bindings α) (name : String) : Bindings α where
  entries := bindings.entries.filter fun entry => entry.1 != name
  distinct := bindings.distinct.sublist (List.filter_sublist.map Prod.fst)

/-- Binds several names in order. -/
def putAll (bindings : Bindings α) (entries : List (String × α)) : Bindings α :=
  entries.foldl (fun bindings entry => bindings.put entry.1 entry.2) bindings

/-- The bindings whose names meet a condition. -/
def restrict (bindings : Bindings α) (keep : String → Bool) : Bindings α where
  entries := bindings.entries.filter fun entry => keep entry.1
  distinct := bindings.distinct.sublist (List.filter_sublist.map Prod.fst)

end Bindings

end Ckl
