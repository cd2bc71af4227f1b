import Ckl.Builtin.Run
import Ckl.Eval.Binding
import Ckl.Proofs.Collection.Contents
import Ckl.Proofs.Value.Holding
import Ckl.Proofs.Value.Lawful

/-!
# Where results come from

Operations on values make no references of their own: what they give is one of their operands, is held by
one, or is a value that refers to nothing. So whatever is true of all operands, of all that they hold and
of all values without references is true of the results. Nor do operations know any names: the errors by
which they end are never those of lookups.
-/

namespace Ckl

open Collection (Table KeySet)
open Source (Argument)

/-! ## Operations with errors -/

/-- The name that could not be found, if the error is that of a lookup. -/
def RuntimeError.missed? : RuntimeError → Option String
  | .undefinedName name => some name
  | _ => none

namespace Checked

variable {α β : Type} {gives : α → Prop} {gives' : β → Prop}

/-- The operation gives what is promised or ends by an error that is not the one of a lookup. -/
def Gives (gives : α → Prop) : Checked α → Prop
  | .ok a => gives a
  | .error error => error.missed? = none

/-- What is promised may be weakened. -/
theorem Gives.imp {checked : Checked α} {other : α → Prop} (h : checked.Gives gives)
    (himp : ∀ a, gives a → other a) : checked.Gives other := by
  cases checked with
  | error error => exact h
  | ok a => exact himp a h

/-- An operation and the next one keep the promise of the next one. -/
theorem Gives.bind {checked : Checked α} {next : α → Checked β} (h : checked.Gives gives)
    (hnext : ∀ a, gives a → (next a).Gives gives') : (checked >>= next).Gives gives' := by
  cases checked with
  | error error => exact h
  | ok a => exact hnext a h

/-- An operation of which nothing is promised but that it looks nothing up. -/
def Known (checked : Checked α) : Prop := checked.Gives fun _ => True

/-- Whatever is promised of results, the operation looks nothing up. -/
theorem Gives.known {checked : Checked α} (h : checked.Gives gives) : checked.Known :=
  h.imp fun _ _ => trivial

/-- After an operation without a promise the next one has to keep its own for all that it may be given. -/
theorem Known.bind {checked : Checked α} {next : α → Checked β} (h : checked.Known)
    (hnext : ∀ a, (next a).Gives gives') : (checked >>= next).Gives gives' :=
  Gives.bind h fun a _ => hnext a

/-- A promise about what is made of the result. -/
theorem Gives.map {checked : Checked α} (h : checked.Gives gives) {f : α → β}
    (hf : ∀ a, gives a → gives' (f a)) : Gives gives' (checked.map f) := by
  cases checked with
  | error error => exact h
  | ok a => exact hf a h

/-- To make something of the result looks nothing up. -/
theorem Known.map {checked : Checked α} (h : checked.Known) (f : α → β) :
    Known (checked.map f) :=
  Gives.map h fun _ _ => trivial

end Checked

open Checked (Gives Known)

/-! ## Values as what an operation asks for -/

namespace Value

variable (value : Value)

/-- Values that refer to no other values and to no frame. -/
def isBare : Value → Bool
  | .list _ | .set _ | .map _ | .object _ | .func _ => false
  | _ => true

theorem known_asBool : value.asBool.Known := by
  cases value with
  | boolean => trivial
  | _ => exact rfl

theorem known_asInt : value.asInt.Known := by
  cases value with
  | int | decimal => trivial
  | _ => exact rfl

theorem known_asDecimal : value.asDecimal.Known := by
  cases value with
  | int | decimal => trivial
  | _ => exact rfl

theorem known_asString : value.asString.Known := by
  cases value with
  | string => trivial
  | _ => exact rfl

theorem known_asInput : value.asInput.Known := by
  cases value with
  | input => trivial
  | _ => exact rfl

theorem known_asOutput : value.asOutput.Known := by
  cases value with
  | output => trivial
  | _ => exact rfl

/-- A value taken for a function is the reference that is given. -/
theorem gives_asFunction : value.asFunction.Gives fun ref => value = .func ref := by
  cases value <;> exact rfl

end Value

/-! ## Fresh values -/

/-- The values that a fresh value holds, or is. -/
def Fresh.parts : Fresh → List Value
  | .value stored => [stored]
  | .list items => items.toList
  | .set keys => keys.keys
  | .map entries => entries.entries.flatMap fun entry => [entry.1, entry.2]
  | .object members => members.values

/-- What all parts of a fresh map are, all its keys and values are. -/
theorem Fresh.forall_parts_map {among : Value → Prop} {table : Table Value Value} :
    (∀ part ∈ (Fresh.map table).parts, among part) ↔
      table.All fun key value => among key ∧ among value := by
  constructor
  · intro h slot hslot
    have hparts : ∀ part ∈ [slot.key, slot.value], part ∈ (Fresh.map table).parts := fun part hpart =>
      List.mem_flatMap.mpr ⟨_, List.mem_map_of_mem hslot, hpart⟩
    exact ⟨h _ (hparts _ (by simp)), h _ (hparts _ (by simp))⟩
  · intro h part hpart
    obtain ⟨entry, hentry, hpart⟩ := List.mem_flatMap.mp hpart
    obtain ⟨hkey, hvalue⟩ := h.entries hentry
    rcases List.mem_pair.mp hpart with rfl | rfl
    · exact hkey
    · exact hvalue

namespace Bindings

variable {α : Type} {bindings : Bindings α} {name : String} {value : α}

/-- What a name is bound to is among the values. -/
theorem mem_values_of_get? (h : bindings.get? name = some value) : value ∈ bindings.values := by
  obtain ⟨entry, hentry, rfl⟩ := Option.map_eq_some_iff.mp h
  exact List.mem_map_of_mem (List.mem_of_find?_eq_some hentry)

/-- Binding a name adds at most the value it is bound to. -/
theorem mem_values_put {other : α} (h : other ∈ (bindings.put name value).values) :
    other ∈ bindings.values ∨ other = value := by
  unfold put at h
  split at h
  · obtain ⟨entry, hentry, rfl⟩ := List.mem_map.mp h
    obtain ⟨old, hold, rfl⟩ := List.mem_map.mp hentry
    split
    · exact .inr rfl
    · exact .inl (List.mem_map_of_mem hold)
  · simpa [values, append] using h

/-- What is true of all values stays so when such a value is bound. -/
theorem forall_values_put {among : α → Prop} (h : ∀ other ∈ bindings.values, among other)
    (hvalue : among value) : ∀ other ∈ (bindings.put name value).values, among other := by
  intro other hother
  rcases mem_values_put hother with hother | rfl
  · exact h other hother
  · exact hvalue

/-- Binding a name adds at most this name. -/
theorem mem_names_put {other : String} :
    other ∈ (bindings.put name value).names ↔ other ∈ bindings.names ∨ other = name := by
  unfold put
  split
  next hbound =>
    rw [show (bindings.replace name value).names = bindings.names from names_replaceIn ..]
    exact ⟨.inl, fun h => h.elim id fun heq => heq ▸ (binds_iff bindings name).mp hbound⟩
  next => simp [names, append]

/-- The same for several names, one after the other. -/
theorem forall_values_putAll {among : α → Prop} {entries : List (String × α)}
    (h : ∀ other ∈ bindings.values, among other) (hentries : ∀ entry ∈ entries, among entry.2) :
    ∀ other ∈ (bindings.putAll entries).values, among other := by
  induction entries generalizing bindings with
  | nil => exact h
  | cons entry entries ih =>
    exact ih (forall_values_put h (hentries entry List.mem_cons_self)) fun other hother =>
      hentries other (List.mem_cons_of_mem _ hother)

/-- Binding several names adds at most these. -/
theorem mem_names_putAll {entries : List (String × α)} {other : String} :
    other ∈ (bindings.putAll entries).names ↔
      other ∈ bindings.names ∨ other ∈ entries.map Prod.fst := by
  induction entries generalizing bindings with
  | nil => simp [putAll]
  | cons entry entries ih =>
    rw [show bindings.putAll (entry :: entries) = (bindings.put entry.1 entry.2).putAll entries from
      rfl, ih, mem_names_put, List.map_cons, List.mem_cons, or_assoc]

end Bindings

namespace Store

/-- A value that refers to nothing, or that is one of the sources or is held by one of them. -/
def Drawn (store : Store) (sources : List Value) (value : Value) : Prop :=
  value.isBare = true ∨ ∃ source ∈ sources, value = source ∨ value ∈ store.held source

variable {store : Store} {value : Value}

/-- What is drawn from some values is drawn from more of them. -/
theorem Drawn.mono {sources others : List Value} (h : store.Drawn sources value)
    (hsub : sources ⊆ others) : store.Drawn others value :=
  h.imp id fun ⟨source, hsource, hvalue⟩ => ⟨source, hsub hsource, hvalue⟩

/-- A value is drawn from itself. -/
theorem drawn_self (value : Value) : store.Drawn [value] value :=
  .inr ⟨value, List.mem_singleton_self value, .inl rfl⟩

/-- What a value holds is drawn from it. -/
theorem drawn_of_held {source : Value} (h : value ∈ store.held source) : store.Drawn [source] value :=
  .inr ⟨source, List.mem_singleton_self source, .inr h⟩

/-- A value that refers to nothing is drawn from anything. -/
theorem drawn_of_isBare {sources : List Value} (h : value.isBare = true) : store.Drawn sources value :=
  .inl h

/-! ## What is read of containers -/

/-- The entries of a map are held by it, in whatever order they are listed. -/
theorem held_of_mem_sortedEntries {ref : Ref .map} {entry : Value × Value}
    (h : entry ∈ store.sortedEntries ref) :
    entry.1 ∈ store.held (.map ref) ∧ entry.2 ∈ store.held (.map ref) :=
  have hentry := mem_sortedEntries.mp h
  ⟨mem_held_map.mpr ⟨entry, hentry, .inl rfl⟩, mem_held_map.mpr ⟨entry, hentry, .inr rfl⟩⟩

/-- The elements of a collection are held by it. -/
theorem gives_elements (target : Value) :
    (store.elements target).Gives fun elements => ∀ value ∈ elements, value ∈ store.held target := by
  cases target with
  | list ref => exact fun _ h => h
  | set ref => exact fun _ => mem_sortedKeys.mp
  | _ => exact rfl

/-- What spreads into a map is drawn from the value that is spread. -/
theorem gives_spreadEntries (target : Value) :
    (store.spreadEntries target).Gives fun entries => ∀ entry ∈ entries,
      store.Drawn [target] entry.1 ∧ store.Drawn [target] entry.2 := by
  cases target with
  | map ref =>
    intro entry hentry
    have hheld := held_of_mem_sortedEntries hentry
    exact ⟨drawn_of_held hheld.1, drawn_of_held hheld.2⟩
  | object ref =>
    intro entry hentry
    obtain ⟨member, hmember, rfl⟩ := List.mem_map.mp hentry
    exact ⟨drawn_of_isBare rfl, drawn_of_held (List.mem_map_of_mem hmember)⟩
  | _ => exact rfl

/-- The parts of a value are drawn from it. -/
theorem gives_destructure (target : Value) (count : Nat) :
    (store.destructure target count).Gives fun elements => ∀ value ∈ elements,
      store.Drawn [target] value := by
  refine (gives_elements target).bind fun read hread value hvalue => ?_
  rcases List.mem_append.mp hvalue with hvalue | hvalue
  · exact drawn_of_held (hread value (List.mem_of_mem_take hvalue))
  · rw [List.eq_of_mem_replicate hvalue]
    exact drawn_of_isBare rfl

/-- An index that is out of range is no lookup of a name. -/
theorem known_slot (index : Value) (length : Nat) : (slot index length).Known := by
  refine (Value.known_asInt index).bind fun raw => ?_
  dsimp only
  generalize (if raw.toInt < 0 then raw.toInt + length else raw.toInt) = resolved
  split
  · trivial
  · exact rfl

/-- What a map has under a key is held by it. -/
theorem held_of_getKey? {ref : Ref .map} {key : Value} (h : store.getKey? ref key = some value) :
    value ∈ store.held (.map ref) := by
  obtain ⟨slot, hslot, rfl⟩ := Option.map_eq_some_iff.mp h
  have hentry : (slot.key, slot.value) ∈ (store.table ref).entries :=
    List.mem_map_of_mem (Table.mem_slots_of_mem_bucket (List.mem_of_find?_eq_some hslot))
  exact mem_held_map.mpr ⟨_, hentry, .inr rfl⟩

/-- What an index gives is drawn from the value that is indexed. -/
theorem gives_index (target key : Value) : (store.index target key).Gives (store.Drawn [target]) := by
  unfold index
  -- set apart, because to compare texts with the search for a key unfolded takes too long
  generalize hget : store.getKey? = lookup
  as_aux_lemma =>
  cases target with
  | list ref =>
    refine (known_slot key _).bind fun position => ?_
    cases hitem : (store.items ref)[position]? with
    | none => exact drawn_of_isBare rfl
    | some item => exact drawn_of_held (Array.mem_toList_iff.mpr (Array.mem_of_getElem? hitem))
  | string text => exact (known_slot key _).bind fun position => drawn_of_isBare rfl
  | map ref =>
    dsimp only
    split
    next found hfound =>
      subst hget
      exact drawn_of_held (held_of_getKey? hfound)
    next => exact rfl
  | object ref =>
    refine (Value.known_asString key).bind fun name => ?_
    split
    next found hfound => exact drawn_of_held (Bindings.mem_values_of_get? hfound)
    next => exact rfl
  | _ => exact rfl

/-- The function that a member holds is held by the object. -/
theorem gives_memberFunction (target : Value) (member : String) :
    (store.memberFunction target member).Gives fun ref => .func ref ∈ store.held target := by
  cases target with
  | object ref =>
    rw [memberFunction]
    cases hfound : (store.members ref).get? member with
    | none => exact rfl
    | some value =>
      exact (Value.gives_asFunction value).imp fun _ heq => heq ▸ Bindings.mem_values_of_get? hfound
  | map ref =>
    rw [memberFunction]
    cases hfound : store.getKey? ref (.string member) with
    | none => exact rfl
    | some value => exact (Value.gives_asFunction value).imp fun _ heq => heq ▸ held_of_getKey? hfound
  | _ => exact rfl

theorem known_length (value : Value) : (store.length value).Known := by
  cases value with
  | string | list | set | map | object => trivial
  | _ => exact rfl

theorem known_contains (container element : Value) : (store.contains container element).Known := by
  cases container with
  | object ref => exact (Value.known_asString element).map _
  | string text => exact (Value.known_asString element).map _
  | list | set | map => trivial
  | _ => exact rfl

/-! ## Arithmetic -/

/-- Every part of a fresh value is drawn from the sources. -/
def DrawsFrom (store : Store) (sources : List Value) (result : Checked Fresh) : Prop :=
  result.Gives fun fresh => ∀ part ∈ fresh.parts, store.Drawn sources part

variable {sources : List Value}

/-- A result that refers to nothing. -/
theorem drawsFrom_bare {value : Value} (h : value.isBare = true) :
    store.DrawsFrom sources (.ok (.value value)) := by
  intro part hpart
  cases List.mem_singleton.mp hpart
  exact drawn_of_isBare h

/-- Integers, as long as they fit. -/
theorem drawsFrom_exactly (result : Option Int64) : store.DrawsFrom sources (exactly result) := by
  cases result with
  | none => exact rfl
  | some n => exact drawsFrom_bare rfl

/-- Dates that have been moved refer to nothing. -/
theorem drawsFrom_moveDate (date : Calendar.Moment) (days : Float) :
    store.DrawsFrom sources (moveDate date days) := by
  unfold moveDate
  split
  · exact drawsFrom_bare rfl
  · exact rfl

/-- A list of values that are drawn. -/
theorem drawsFrom_list {items : List Value} (h : ∀ item ∈ items, store.Drawn sources item) :
    store.DrawsFrom sources (listResult items) :=
  fun part hpart => h part (by simpa [Fresh.parts] using hpart)

/-- A set of keys that are drawn. -/
theorem drawsFrom_set {keys : KeySet Value} (h : keys.All fun key _ => store.Drawn sources key) :
    store.DrawsFrom sources (.ok (.set keys)) :=
  fun _ hpart => h.keys hpart

/-- What the left operand holds is drawn from both. -/
theorem drawn_left {a b : Value} (h : value ∈ store.held a) : store.Drawn [a, b] value :=
  (drawn_of_held h).mono (by simp)

/-- So is what the right one holds. -/
theorem drawn_right {a b : Value} (h : value ∈ store.held b) : store.Drawn [a, b] value :=
  (drawn_of_held h).mono (by simp)

/-- The elements of a set that is the left operand. -/
theorem all_keySet (ref : Ref .set) (b : Value) :
    (store.keySet ref).All fun key _ => store.Drawn [.set ref, b] key :=
  Table.all_of_keys fun _ hkey => drawn_left hkey

/-- Numbers, texts, dates, lists, sets and maps are added without anything else coming in. -/
theorem drawsFrom_add (a b : Value) : store.DrawsFrom [a, b] (store.add a b) := by
  have hitem : store.Drawn [a, b] b := (drawn_self b).mono (by simp)
  unfold add
  split
  case h_1 => exact drawsFrom_exactly _
  case h_2 | h_3 | h_4 => exact drawsFrom_bare rfl
  case h_5 a b =>
    exact drawsFrom_list fun item h => (List.mem_append.mp h).elim
      (fun h => drawn_left (a := .list a) h) fun h => drawn_right (b := .list b) h
  case h_6 =>
    refine drawsFrom_list fun item h => (List.mem_append.mp h).elim
      (fun h => drawn_left (a := .list _) h) fun h => ?_
    cases List.mem_singleton.mp h
    exact hitem
  case h_7 a b =>
    exact drawsFrom_set
      (KeySet.all_addAll _ (fun _ h => drawn_right (b := .set b) h) (all_keySet _ _))
  case h_8 => exact drawsFrom_set (KeySet.all_add (all_keySet _ _) _ hitem)
  case h_9 a b =>
    refine Fresh.forall_parts_map.mpr (Table.all_foldl_insert ?_ ?_)
    · exact Table.all_of_entries fun entry h =>
        ⟨drawn_left (mem_held_map.mpr ⟨entry, h, .inl rfl⟩),
          drawn_left (mem_held_map.mpr ⟨entry, h, .inr rfl⟩)⟩
    · exact fun entry h => ⟨drawn_right (mem_held_map.mpr ⟨entry, h, .inl rfl⟩),
        drawn_right (mem_held_map.mpr ⟨entry, h, .inr rfl⟩)⟩
  case h_10 | h_11 => exact drawsFrom_moveDate _ _
  case h_12 | h_13 =>
    split
    · exact drawsFrom_bare rfl
    · exact rfl
  case h_14 => exact rfl

theorem drawsFrom_subtract (a b : Value) : store.DrawsFrom [a, b] (store.subtract a b) := by
  have hkept : ∀ (ref : Ref .list) (b : Value) (keep : Value → Bool),
      store.DrawsFrom [.list ref, b] (listResult ((store.items ref).toList.filter keep)) :=
    fun ref b keep => drawsFrom_list fun item h =>
      drawn_left (a := .list ref) (List.mem_of_mem_filter h)
  unfold subtract
  split
  case h_1 => exact drawsFrom_exactly _
  case h_2 | h_3 | h_4 => exact drawsFrom_bare rfl
  case h_5 | h_6 | h_7 => exact hkept _ _ _
  case h_8 | h_9 => exact drawsFrom_set (KeySet.all_eraseAll _ _ (all_keySet _ _))
  case h_10 => exact drawsFrom_set ((all_keySet _ _).erase _ _)
  case h_11 => exact drawsFrom_bare rfl
  case h_12 | h_13 => exact drawsFrom_moveDate _ _
  case h_14 => exact rfl

/-- How often something is repeated is a matter of numbers. -/
theorem known_repetitions (length : Nat) (times : Int64) : (repetitions length times).Known := by
  unfold repetitions
  dsimp only
  split
  · trivial
  · split <;> trivial

theorem drawsFrom_multiply (a b : Value) : store.DrawsFrom [a, b] (store.multiply a b) := by
  unfold multiply
  split
  case h_1 => exact drawsFrom_exactly _
  case h_2 | h_3 | h_4 => exact drawsFrom_bare rfl
  case h_5 => exact (known_repetitions _ _).bind fun count => drawsFrom_bare rfl
  case h_6 ref _ =>
    refine (known_repetitions _ _).bind fun count => drawsFrom_list fun item h => ?_
    obtain ⟨copy, hcopy, hitem⟩ := List.mem_flatten.mp h
    rw [List.eq_of_mem_replicate hcopy] at hitem
    exact drawn_left (a := .list ref) hitem
  case h_7 => exact rfl

theorem drawsFrom_divide (a b : Value) : store.DrawsFrom [a, b] (divide a b) := by
  unfold divide
  split
  · exact rfl
  · split
    case h_1 => exact drawsFrom_exactly _
    case h_5 => exact rfl
    all_goals exact drawsFrom_bare rfl

theorem drawsFrom_remainder (a b : Value) : store.DrawsFrom [a, b] (remainder a b) := by
  unfold remainder
  split
  · exact rfl
  · split
    case h_1 => exact drawsFrom_exactly _
    case h_5 => exact rfl
    all_goals exact drawsFrom_bare rfl

end Store

/-! ## Arguments of built-in functions -/

namespace Arguments

variable {arguments : Arguments} {name : String} {value : Value}

/-- An argument that a function needs is one of its arguments. -/
theorem gives_need (arguments : Arguments) (name : String) :
    (arguments.need name).Gives fun value => value ∈ arguments.values := by
  unfold need
  split
  next found hfound => exact Bindings.mem_values_of_get? hfound
  next => exact rfl

/-- So is one that it may do without. -/
theorem mem_values_of_optional (h : arguments.optional name = some value) : value ∈ arguments.values :=
  Bindings.mem_values_of_get? (Option.eq_some_of_filter_eq_some h)

theorem known_needInt (arguments : Arguments) (name : String) : (arguments.needInt name).Known :=
  (gives_need arguments name).bind fun value _ => Value.known_asInt value

theorem known_needString (arguments : Arguments) (name : String) :
    (arguments.needString name).Known :=
  (gives_need arguments name).bind fun value _ => Value.known_asString value

/-- An optional argument that is read is read from one of the arguments. -/
theorem gives_optionalAs {α : Type} {read : Value → Checked α} {gives : Value → α → Prop}
    (h : ∀ value, (read value).Gives (gives value)) :
    (arguments.optionalAs name read).Gives fun found => ∀ a, found = some a →
      ∃ value ∈ arguments.values, gives value a := by
  unfold optionalAs
  split
  next value hvalue =>
    have hread := h value
    cases hr : read value with
    | error error =>
      rw [hr] at hread
      exact hread
    | ok a =>
      rw [hr] at hread
      rintro _ ⟨rfl⟩
      exact ⟨value, mem_values_of_optional hvalue, hread⟩
  next => exact nofun

theorem known_optionalAs {α : Type} {read : Value → Checked α} (h : ∀ value, (read value).Known) :
    (arguments.optionalAs name read).Known :=
  (gives_optionalAs h).known

end Arguments

namespace Builtin

open Store (Drawn DrawsFrom)

variable {store : Store} {arguments : Arguments}

/-- A built-in function that is an operation on two arguments draws from these. -/
theorem drawsFrom_operate {operation : Store → Value → Value → Checked Fresh}
    (h : ∀ a b, store.DrawsFrom [a, b] (operation store a b)) :
    store.DrawsFrom arguments.values (operate arguments operation store) := by
  refine (arguments.gives_need "a").bind fun a ha => (arguments.gives_need "b").bind fun b hb => ?_
  exact (h a b).imp fun fresh hfresh part hpart =>
    (hfresh part hpart).mono (List.cons_subset.mpr ⟨ha, List.cons_subset.mpr ⟨hb, List.nil_subset _⟩⟩)

/-- A division gives what an operation gives, or the value that is bound for divisions by zero. -/
theorem drawsFrom_divided {operation : Store → Value → Value → Checked Fresh} {frame : FrameRef}
    (h : ∀ a b, store.DrawsFrom [a, b] (operation store a b)) :
    store.DrawsFrom (arguments.values ++ (store.lookup? frame divisionFallbackName).toList)
      (divided arguments operation frame store) := by
  refine (arguments.gives_need "a").bind fun a ha => (arguments.gives_need "b").bind fun b hb => ?_
  have hoperands : [a, b] ⊆ arguments.values ++ (store.lookup? frame divisionFallbackName).toList :=
    List.cons_subset.mpr ⟨List.mem_append_left _ ha,
      List.cons_subset.mpr ⟨List.mem_append_left _ hb, List.nil_subset _⟩⟩
  have hoperation := (h a b).imp fun fresh hfresh part hpart => (hfresh part hpart).mono hoperands
  dsimp only
  split
  next value hvalue =>
    split
    · intro part hpart
      cases List.mem_singleton.mp hpart
      rw [Option.eq_some_of_filter_eq_some hvalue]
      exact .inr ⟨value, List.mem_append_right _ (List.mem_singleton_self value), .inl rfl⟩
    · exact hoperation
  next => exact hoperation

/-- The set made of a collection has elements of the collection only. -/
theorem drawsFrom_convertSet : store.DrawsFrom arguments.values (convertSet store arguments) := by
  refine (arguments.gives_need "obj").bind fun value hvalue => ?_
  have hset : ∀ elements : List Value, (∀ element ∈ elements, element ∈ store.held value) →
      store.DrawsFrom arguments.values (.ok (.set (KeySet.ofList store.keyRule elements))) :=
    fun elements h => Store.drawsFrom_set (KeySet.all_ofList _ fun key hkey =>
      .inr ⟨value, hvalue, .inr (h key hkey)⟩)
  cases value with
  | map ref =>
    refine hset _ fun element helement => ?_
    obtain ⟨entry, hentry, rfl⟩ := List.mem_map.mp helement
    exact (Store.held_of_mem_sortedEntries hentry).1
  | _ => exact (Store.gives_elements _).bind hset

/-- Ranges are lists of integers. -/
theorem drawsFrom_rangeItems {sources : List Value} :
    store.DrawsFrom sources (rangeItems arguments) := by
  have hstep : ∀ limits : Int64 × Int64, store.DrawsFrom sources (do
      let step := (← arguments.optionalAs "step" Value.asInt).getD 1
      if step == 0 then throw .zeroStep
      return .list ((Number.progression limits.1 limits.2 step).map Value.int).toArray :
        Checked Fresh) := by
    intro limits
    refine (Arguments.known_optionalAs Value.known_asInt).bind fun step => ?_
    dsimp only
    split
    · exact rfl
    · refine Store.drawsFrom_list fun item hitem => ?_
      obtain ⟨n, -, rfl⟩ := List.mem_map.mp hitem
      exact Store.drawn_of_isBare rfl
  unfold rangeItems
  dsimp only
  split
  · exact (arguments.known_needInt "a").bind fun start =>
      (Value.known_asInt _).bind fun limit => hstep (start, limit)
  · exact (arguments.known_needInt "a").bind fun limit => hstep (0, limit)

/-! ## Conversions and tests -/

/-- Conversions to numbers and dates give values that refer to nothing. -/
theorem gives_convertInt : (convertInt arguments).Gives fun value => value.isBare = true := by
  refine (arguments.gives_need "obj").bind fun value _ => ?_
  cases value with
  | string text =>
    dsimp only
    split <;> exact rfl
  | _ => exact rfl

theorem gives_convertDecimal : (convertDecimal arguments).Gives fun value => value.isBare = true := by
  refine (arguments.gives_need "obj").bind fun value _ => ?_
  cases value with
  | string text =>
    dsimp only
    split <;> exact rfl
  | _ => exact (Value.known_asDecimal _).bind fun _ => rfl

theorem gives_convertDate : (convertDate store arguments).Gives fun value => value.isBare = true := by
  unfold convertDate
  split
  · exact rfl
  · exact rfl
  · refine (Value.known_asString _).bind fun text => ?_
    refine (Arguments.known_optionalAs Value.known_asString).bind fun format => ?_
    dsimp only
    split <;> exact rfl

theorem known_areEqual : (areEqual store arguments).Known :=
  (arguments.gives_need "a").known.bind fun _ => (arguments.gives_need "b").known.bind fun _ => trivial

theorem known_areOrdered (accepted : Ordering → Bool) : (areOrdered store arguments accepted).Known :=
  (arguments.gives_need "a").known.bind fun _ => (arguments.gives_need "b").known.bind fun _ => trivial

theorem known_testEmpty : (testEmpty store arguments).Known := by
  refine (arguments.gives_need "obj").known.bind fun value => ?_
  split
  · trivial
  · exact (Store.known_length value).bind fun _ => trivial

theorem known_testZero : (testZero arguments).Known :=
  (arguments.gives_need "obj").known.bind fun value => (Value.known_asDecimal value).bind fun _ =>
    trivial

theorem known_testNegative : (testNegative arguments).Known :=
  (arguments.gives_need "obj").known.bind fun value => (Value.known_asDecimal value).bind fun _ =>
    trivial

/-- A test of a text looks up no name, if what is asked of the text does not. -/
theorem known_testText {test : String → Checked Bool} (h : ∀ text, (test text).Known) :
    (testText arguments test).Known := by
  refine (arguments.gives_need "str").known.bind fun value => ?_
  cases value with
  | string text => exact h text
  | _ => trivial

theorem known_testChars (accept : Char → Bool) : (testChars arguments accept).Known :=
  known_testText fun _ => (Arguments.known_optionalAs Value.known_asInt).bind fun _ =>
    (Arguments.known_optionalAs Value.known_asInt).bind fun _ =>
      (Arguments.known_optionalAs Value.known_asInt).bind fun _ => trivial

theorem known_testDate : (testDate arguments).Known :=
  known_testText fun _ => (Arguments.known_optionalAs Value.known_asBool).bind fun _ => trivial

theorem known_testTime : (testTime arguments).Known := known_testText fun _ => trivial

theorem known_testPart (test : List Char → List Char → Bool) : (testPart arguments test).Known :=
  (arguments.known_needString "str").bind fun _ => (arguments.known_needString "part").bind fun _ =>
    trivial

theorem known_testContains : (testContains store arguments).Known :=
  (arguments.gives_need "obj").known.bind fun _ => (arguments.gives_need "part").known.bind fun _ =>
    Store.known_contains _ _

theorem known_testPattern : (testPattern arguments).Known := by
  refine (arguments.known_needString "str").bind fun text => ?_
  refine (arguments.gives_need "pattern").known.bind fun value => ?_
  cases value with
  | pattern source | string source =>
    dsimp only
    split <;> trivial
  | _ => exact rfl

end Builtin

/-! ## Binding of arguments -/

namespace Slot

variable {among : Value → Prop} {names : List String} {slots : List Slot}

/-- Slots of the given names that are filled with values of a kind only. -/
structure Holding (among : Value → Prop) (names : List String) (slots : List Slot) : Prop where
  names : slots.map (·.name) = names
  values : ∀ slot ∈ slots, ∀ value ∈ slot.value, among value

/-- To fill a slot by name leaves only such values in the slots. -/
theorem Holding.fillNamed (h : Holding among names slots) {name : String} {value : Value}
    (hvalue : among value) {filled : List Slot} (hfilled : fillNamed name value slots = .filled filled) :
    Holding among names filled := by
  induction slots generalizing names filled with
  | nil => cases hfilled
  | cons slot rest ih =>
    obtain ⟨hnames, hvalues⟩ := h
    obtain ⟨hslot, hrest⟩ := List.forall_mem_cons.mp hvalues
    unfold Slot.fillNamed at hfilled
    split at hfilled
    · split at hfilled
      · cases hfilled
      · cases hfilled
        refine ⟨hnames, List.forall_mem_cons.mpr ⟨?_, hrest⟩⟩
        rintro _ ⟨rfl⟩
        exact hvalue
    · split at hfilled
      next others hothers =>
        cases hfilled
        have hih := ih ⟨rfl, hrest⟩ hothers
        exact ⟨by rw [← hnames, List.map_cons, List.map_cons, hih.names],
          List.forall_mem_cons.mpr ⟨hslot, hih.values⟩⟩
      next naming hnone =>
        exact absurd hfilled (hnone _)

/-- So does filling the next one. -/
theorem Holding.fillNext (h : Holding among names slots) {value : Value} (hvalue : among value)
    {filled : List Slot} (hfilled : fillNext value slots = some filled) :
    Holding among names filled := by
  induction slots generalizing names filled with
  | nil => cases hfilled
  | cons slot rest ih =>
    obtain ⟨hnames, hvalues⟩ := h
    obtain ⟨hslot, hrest⟩ := List.forall_mem_cons.mp hvalues
    unfold Slot.fillNext at hfilled
    split at hfilled
    · cases hfilled
      refine ⟨hnames, List.forall_mem_cons.mpr ⟨?_, hrest⟩⟩
      rintro _ ⟨rfl⟩
      exact hvalue
    · obtain ⟨others, hothers, rfl⟩ := Option.map_eq_some_iff.mp hfilled
      have hih := ih ⟨rfl, hrest⟩ hothers
      exact ⟨by rw [← hnames, List.map_cons, List.map_cons, hih.names],
        List.forall_mem_cons.mpr ⟨hslot, hih.values⟩⟩

/-- What comes to be bound has the name of a parameter and is such a value. -/
theorem Holding.mem_bound (h : Holding among names slots) {entry : String × Value}
    (hentry : entry ∈ bound slots) : entry.1 ∈ names ∧ among entry.2 := by
  obtain ⟨slot, hslot, hentry⟩ := List.mem_filterMap.mp hentry
  obtain ⟨value, hvalue, rfl⟩ := Option.map_eq_some_iff.mp hentry
  exact ⟨h.names ▸ List.mem_map_of_mem hslot, h.values slot hslot value hvalue⟩

end Slot

section Binding

variable {among : Value → Prop} {function : Function}

/-- Arguments that are bound so far to parameters of the function. -/
structure Binding.Holding (among : Value → Prop) (function : Function) (binding : Binding) : Prop where
  slots : Slot.Holding among function.parameters binding.slots
  surplus : ∀ value ∈ binding.surplus, among value

/-- One more argument for the rest parameter. -/
theorem Binding.Holding.surplus_append {binding : Binding} (h : binding.Holding among function)
    {value : Value} (hvalue : among value) :
    Binding.Holding among function { binding with surplus := binding.surplus ++ [value] } where
  slots := h.slots
  surplus other hother := by
    rcases List.mem_append.mp hother with hother | hother
    · exact h.surplus other hother
    · exact List.mem_singleton.mp hother ▸ hvalue

/-- A named argument is taken up or refused. -/
theorem Binding.Holding.addNamed {binding : Binding} (h : binding.Holding among function)
    (name : String) {value : Value} (hvalue : among value) :
    (binding.addNamed function name value).Gives (Binding.Holding among function) := by
  unfold Binding.addNamed
  split
  next slots hfilled => exact ⟨h.slots.fillNamed hvalue hfilled, h.surplus⟩
  next => exact rfl
  next =>
    split
    · exact h.surplus_append hvalue
    · exact rfl

/-- So is a positional one. -/
theorem Binding.Holding.addPositional {binding : Binding} (h : binding.Holding among function)
    {value : Value} (hvalue : among value) :
    (binding.addPositional function value).Gives (Binding.Holding among function) := by
  unfold Binding.addPositional
  split
  next slots hfilled => exact ⟨h.slots.fillNext hvalue hfilled, h.surplus⟩
  next =>
    split
    · exact h.surplus_append hvalue
    · exact rfl

/-- What every step of a fold promises is promised of all of it. -/
theorem Checked.gives_foldlM {α σ : Type} {gives : σ → Prop} {next : σ → α → Checked σ} {items : List α}
    {state : σ} (hstate : gives state)
    (h : ∀ state, gives state → ∀ a ∈ items, (next state a).Gives gives) :
    (items.foldlM next state : Checked σ).Gives gives := by
  induction items generalizing state with
  | nil => exact hstate
  | cons a items ih =>
    rw [List.foldlM_cons]
    exact (h state hstate a List.mem_cons_self).bind fun state' hstate' =>
      ih hstate' fun other hother b hb => h other hother b (List.mem_cons_of_mem _ hb)

/-- Parameters are bound to arguments, and so is what the rest parameter stands for. -/
theorem gives_bindArguments {arguments : List (Argument Value)}
    (harguments : ∀ argument ∈ arguments, among argument.value) :
    (bindArguments function arguments).Gives fun bound =>
      (∀ entry ∈ bound.parameters, entry.1 ∈ function.parameters ∧ among entry.2) ∧
        bound.rest.map Prod.fst = function.rest ∧
          ∀ rest ∈ bound.rest, ∀ value ∈ rest.2, among value := by
  have hstart : Binding.Holding among function
      { slots := function.parameters.map fun name => { name } } :=
    ⟨⟨by simp [Function.comp_def], List.forall_mem_map.mpr fun _ _ => nofun⟩, nofun⟩
  unfold bindArguments
  refine Gives.bind (Checked.gives_foldlM hstart fun binding hbinding argument hargument => ?_)
    fun named hnamed => ?_
  · obtain ⟨given, hgiven, hname⟩ := List.mem_filterMap.mp hargument
    obtain ⟨name, -, rfl⟩ := Option.map_eq_some_iff.mp hname
    exact hbinding.addNamed name (harguments given hgiven)
  have hnamed' : Binding.Holding among function { named with surplus := [] } := ⟨hnamed.slots, nofun⟩
  refine Gives.bind (Checked.gives_foldlM hnamed' fun binding hbinding value hvalue => ?_)
    fun all hall => ⟨fun entry => hall.slots.mem_bound, ?_, ?_⟩
  · obtain ⟨given, hgiven, rfl⟩ := List.mem_map.mp hvalue
    exact hbinding.addPositional (harguments given (List.mem_of_mem_filter hgiven))
  · simp only [Option.map_map, Function.comp_def, Option.map_id']
  · intro rest hrest value hvalue
    obtain ⟨name, -, rfl⟩ := Option.map_eq_some_iff.mp hrest
    exact (List.mem_append.mp hvalue).elim (hall.surplus value) (hnamed.surplus value)

end Binding

end Ckl
