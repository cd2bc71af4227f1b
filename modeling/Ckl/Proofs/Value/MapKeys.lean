import Ckl.Proofs.Value.Frame

/-!
# Keys and the maps that they are in

The key text of an acyclic value is longer than those of the values inside it (`length_keyChars_lt`). So a
key that reaches a map equals none of the keys of the map, and is not found there (`getKey?_of_reaches`); and
a change of a map leaves all of its keys alone (`MapKeys.not_reaches`).
-/

namespace Ckl.Store

open Collection (Table KeySet)
open Source (commas)

variable {store : Store} {among : Value → Prop}

/-- Values that can serve as keys, none of which contains itself. -/
structure MapKeys (store : Store) (among : Value → Prop) : Prop extends KeyUniverse store among where
  acyclic : ∀ value, among value → store.Acyclic value

/-! ## Lengths of keys -/

theorem length_le_commas {texts : List (List Char)} {text : List Char} (h : text ∈ texts) :
    text.length ≤ (commas texts).length := by
  have hmem : text ∈ texts.intersperse [',', ' '] := by
    induction texts with
    | nil => cases h
    | cons first rest ih =>
      cases rest with
      | nil => exact h
      | cons second rest =>
        rcases List.mem_cons.mp h with rfl | hrest
        · exact List.mem_cons_self
        · exact List.mem_cons_of_mem _ (List.mem_cons_of_mem _ (ih hrest))
  exact (List.sublist_flatten_of_mem hmem).length_le

/-- What is written between marks is longer than each of its parts. -/
theorem length_lt_enclosed {α : Type} {opening closing : String} {parts : List α} {write : α → List Char}
    {part : α} (hopening : opening.toList ≠ []) (h : part ∈ parts) :
    (write part).length < (enclosed opening closing (parts.map write)).length := by
  have hle := length_le_commas (List.mem_map_of_mem (f := write) h)
  have hpos := List.length_pos_of_ne_nil hopening
  simp only [enclosed, List.length_append]
  omega

/-- What a value holds has a shorter key. -/
theorem length_keyChars_lt_of_held {value part : Value} (h : store.Acyclic value)
    (hpart : part ∈ store.held value) : (store.keyChars part).length < (store.keyChars value).length := by
  rw [keyChars_eq h]
  cases value with
  | list ref => exact length_lt_enclosed (by decide) hpart
  | set ref => exact length_lt_enclosed (by decide) (mem_sortBy.mpr hpart)
  | map ref =>
    obtain ⟨entry, hentry, hpart⟩ := mem_held_map.mp hpart
    refine Nat.lt_of_le_of_lt ?_ (length_lt_enclosed (by decide) (mem_sortBy.mpr hentry))
    simp only [List.length_append]
    rcases hpart with rfl | rfl <;> omega
  | object ref =>
    obtain ⟨entry, hentry, rfl⟩ := List.mem_map.mp hpart
    refine Nat.lt_of_le_of_lt ?_ (length_lt_enclosed (by decide) (mem_sortBy.mpr hentry))
    simp only [List.length_append, List.length_cons]
    omega
  | _ => cases hpart

/-- **What is inside of a value has a shorter key.** -/
theorem length_keyChars_lt {value part : Value} (h : store.Acyclic value) (hpart : store.Inside value part) :
    (store.keyChars part).length < (store.keyChars value).length := by
  induction hpart with
  | single hheld => exact length_keyChars_lt_of_held h hheld
  | @tail between part hbetween hheld ih =>
    exact (length_keyChars_lt_of_held (h.of_inside hbetween) hheld).trans ih

/-! ## Keys that reach their map -/

theorem held_of_key {ref : Ref .map} {key : Value} (h : key ∈ (store.table ref).keys) :
    key ∈ store.held (.map ref) := by
  obtain ⟨slot, hslot, rfl⟩ := List.mem_map.mp h
  exact mem_held_map.mpr ⟨_, Table.entry_mem hslot, .inl rfl⟩

/-- What a container holds is inside of all that reaches the container. -/
theorem inside_of_reaches {value target part : Value} (h : store.reaches value target = true)
    (hpart : part ∈ store.held target) : store.Inside value part := by
  obtain ⟨-, hway⟩ := (reaches_iff store value target).2.mp h
  have hway' := Relation.ReflTransGen.mono (fun _ _ => holds_iff_held.mp) _ _ hway
  exact .tail' hway' hpart

namespace MapKeys

variable (h : store.MapKeys among) {ref : Ref .map} (hkeys : ∀ key ∈ (store.table ref).keys, among key)
  {key : Value}

include h hkeys

/-- No key of a map reaches the map. -/
theorem not_reaches (hkey : key ∈ (store.table ref).keys) : store.reaches key (.map ref) = false := by
  rw [← Bool.not_eq_true]
  intro hreaches
  exact (h.acyclic key (hkeys key hkey)).not_inside (inside_of_reaches hreaches (held_of_key hkey))

/-- What reaches a map is found under no key of it. -/
theorem getKey?_of_reaches (hkey : among key) (hreaches : store.reaches key (.map ref) = true) :
    store.getKey? ref key = none := by
  simp only [getKey?, Table.get?, Option.map_eq_none_iff]
  cases hfind : (store.table ref).find? store.keyRule key with
  | none => rfl
  | some slot =>
    have hslot : slot.key ∈ (store.table ref).keys :=
      Table.key_mem (Table.mem_slots_of_mem_bucket (List.mem_of_find?_eq_some hfind))
    have hequal : store.keyRule.same slot.key key = true := by simpa using List.find?_some hfind
    have hlonger := length_keyChars_lt (h.acyclic key hkey) (inside_of_reaches hreaches (held_of_key hslot))
    rw [key_eq_iff.mp (h.key_eq _ _ (hkeys _ hslot) hkey hequal)] at hlonger
    exact absurd hlonger (Nat.lt_irrefl _)

end MapKeys

/-- Values built without decimals can be keys of maps. -/
theorem mapKeys_without_decimals (store : Store) :
    store.MapKeys (store.Built fun atom => ∀ x, atom ≠ .decimal x) where
  toKeyUniverse := keyUniverse_without_decimals store
  acyclic _ hvalue := hvalue.acyclic

theorem MapKeys.mono {fewer : Value → Prop} (h : store.MapKeys among)
    (hsub : ∀ value, fewer value → among value) : store.MapKeys fewer where
  toKeyUniverse := h.toKeyUniverse.mono hsub
  acyclic value hvalue := h.acyclic value (hsub value hvalue)

end Ckl.Store
