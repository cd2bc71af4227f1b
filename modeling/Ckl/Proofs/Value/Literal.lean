import Ckl.Proofs.Source.RoundTrip
import Ckl.Proofs.Value.Key
import Ckl.Proofs.Value.Lawful

/-!
# Values that can be written out

A value that is built of the null value, truth values, integers and texts has a text that is a script.
`Store.script` is the tree of this script. The text can be read if the angles of the sets, maps and
objects in it stay apart: where a set begins or ends with another collection, the angles of both are
read as one symbol, and the least integer is written with a size that no integer has. `Literal` excludes
these, and says that every storage exists and has its keys filed as they read now.
-/

namespace Ckl

open Source (Node Form isName)
open Collection (Table)

namespace Store

/-- A value that can be written out: its text is a script that evaluates to an equal value. -/
inductive Literal (store : Store) : Value → Prop where
  | null : Literal store .null
  | boolean (value : Bool) : Literal store (.boolean value)
  | int {value : Int64} : value ≠ Int64.minValue → Literal store (.int value)
  | string (value : String) : Literal store (.string value)
  | list {ref : Ref .list} : ref.index < store.lists.size →
    (∀ item ∈ (store.items ref).toList, Literal store item) → Literal store (.list ref)
  /-- No collection with angles is the first element of a set, and no set the last one. -/
  | set {ref : Ref .set} : ref.index < store.sets.size → (store.keySet ref).Sound store.keyRule →
    (∀ key ∈ (store.keySet ref).keys, Literal store key) →
    (∀ key ∈ (store.sortedKeys ref).head?, key.type ∉ [.set, .map, .object]) →
    (∀ key ∈ (store.sortedKeys ref).getLast?, key.type ≠ .set) → Literal store (.set ref)
  /-- No set is the last value of a map. -/
  | map {ref : Ref .map} : ref.index < store.maps.size → (store.table ref).Sound store.keyRule →
    (∀ entry ∈ (store.table ref).entries, Literal store entry.1) →
    (∀ entry ∈ (store.table ref).entries, Literal store entry.2) →
    (∀ entry ∈ (store.sortedEntries ref).getLast?, entry.2.type ≠ .set) → Literal store (.map ref)
  | object {ref : Ref .object} : ref.index < store.objects.size →
    (∀ member ∈ (store.members ref).entries, isName member.1 = true) →
    (∀ member ∈ (store.members ref).entries, Literal store member.2) → Literal store (.object ref)

variable {store : Store}

theorem Literal.held {value : Value} (h : store.Literal value) :
    ∀ part ∈ store.held value, store.Literal part := by
  intro part hp
  cases h with
  | list _ hitems => exact hitems part hp
  | set _ _ hkeys => exact hkeys part hp
  | map _ _ hkeys hvalues =>
    obtain ⟨entry, he, rfl | rfl⟩ := mem_held_map.mp hp
    · exact hkeys entry he
    · exact hvalues entry he
  | object _ _ hvalues =>
    obtain ⟨member, hm, rfl⟩ := List.mem_map.mp hp
    exact hvalues member hm
  | _ => cases hp

theorem Literal.acyclic {value : Value} (h : store.Literal value) : store.Acyclic value := by
  induction h with
  | list _ _ ih => exact .intro _ ih
  | set _ _ _ _ _ ih => exact .intro _ ih
  | map _ _ _ _ _ ihkeys ihvalues =>
    refine .intro _ fun part hp => ?_
    obtain ⟨entry, he, rfl | rfl⟩ := mem_held_map.mp hp
    · exact ihkeys entry he
    · exact ihvalues entry he
  | object _ _ _ ih =>
    refine .intro _ fun part hp => ?_
    obtain ⟨member, hm, rfl⟩ := List.mem_map.mp hp
    exact ih member hm
  | _ => exact acyclic_of_held_nil rfl

/-! ## The tree of a value -/

/-- The tree that a value is written as, from those of the values in it. -/
def scriptStep (store : Store) (write : Value → Node) : Value → Node
  | .null => .mk default (.name "NULL")
  | .boolean value => .mk default (.literal (.boolean value))
  | .int value => .mk default (.literal (.int value))
  | .string value => .mk default (.literal (.string value))
  | .list ref => .mk default (.list ((store.items ref).toList.map write))
  | .set ref => .mk default (.set ((store.sortedKeys ref).map write))
  | .map ref =>
    .mk default (.map (((store.sortedEntries ref).map fun entry =>
      (write entry.1, write entry.2)).map fun entry => .entry entry.1 entry.2))
  | .object ref =>
    .mk default (.object ((store.members ref).entries.map fun entry => ⟨entry.1, write entry.2⟩))
  | _ => default

/-- The tree of a value of at most the given depth. -/
def scriptAt (store : Store) : (depth : Nat) → Value → Node
  | 0, _ => default
  | depth + 1, value => store.scriptStep (scriptAt store depth) value

/-- The tree that a value is written as. -/
def script (store : Store) (value : Value) : Node := store.scriptAt (store.containerCount + 1) value

theorem scriptStep_congr {write write' : Value → Node} {value : Value}
    (h : ∀ part ∈ store.held value, write part = write' part) :
    store.scriptStep write value = store.scriptStep write' value := by
  cases value with
  | list ref =>
    have hitems : (store.items ref).toList.map write = (store.items ref).toList.map write' :=
      List.map_congr_left h
    simp only [scriptStep, hitems]
  | set ref =>
    simp only [scriptStep]
    rw [List.map_congr_left fun key hk => h key (mem_sortedKeys.mp hk)]
  | map ref =>
    have hentries : (store.sortedEntries ref).map (fun entry => (write entry.1, write entry.2)) =
        (store.sortedEntries ref).map fun entry => (write' entry.1, write' entry.2) := by
      refine List.map_congr_left fun entry he => ?_
      have he := mem_sortedEntries.mp he
      rw [h _ (mem_held_map.mpr ⟨entry, he, .inl rfl⟩), h _ (mem_held_map.mpr ⟨entry, he, .inr rfl⟩)]
    simp only [scriptStep, hentries]
  | object ref =>
    simp only [scriptStep]
    rw [List.map_congr_left fun member hm => ?_]
    rw [h _ (List.mem_map_of_mem (f := Prod.snd) hm)]
  | _ => rfl

theorem scriptAt_stable {height : Nat} {value : Value} (h : store.Shallow height value) :
    ∀ {depth depth' : Nat}, height < depth → height < depth' →
      store.scriptAt depth value = store.scriptAt depth' value := by
  induction height generalizing value with
  | zero =>
    intro depth depth' hd hd'
    obtain ⟨depth, rfl⟩ := Nat.exists_eq_succ_of_ne_zero (Nat.ne_of_gt hd)
    obtain ⟨depth', rfl⟩ := Nat.exists_eq_succ_of_ne_zero (Nat.ne_of_gt hd')
    refine scriptStep_congr fun part hp => ?_
    rw [show store.held value = [] from h] at hp
    cases hp
  | succ height ih =>
    intro depth depth' hd hd'
    obtain ⟨depth, rfl⟩ := Nat.exists_eq_succ_of_ne_zero (Nat.ne_zero_of_lt hd)
    obtain ⟨depth', rfl⟩ := Nat.exists_eq_succ_of_ne_zero (Nat.ne_zero_of_lt hd')
    exact scriptStep_congr fun part hp => ih (h part hp) (Nat.lt_of_succ_lt_succ hd)
      (Nat.lt_of_succ_lt_succ hd')

/-- The tree of a value, from those of the values that it holds. -/
theorem script_eq {value : Value} (h : store.Acyclic value) :
    store.script value = store.scriptStep store.script value :=
  scriptAt_stable (shallow_of_acyclic h) (Nat.lt_succ_self _) (Nat.lt_succ_of_lt (Nat.lt_succ_self _))

/-! ## The text of the tree -/

theorem chars_members (members : List (String × Value)) (write : Value → Node) :
    Source.charsMembers (members.map fun member => ⟨member.1, write member.2⟩) =
      members.map fun member => member.1.toList ++ '=' :: (write member.2).chars := by
  rw [Source.charsMembers_eq_map, List.map_map]
  rfl

theorem chars_entries (entries : List (Value × Value)) (write : Value → Node) :
    Source.charsMapItems ((entries.map fun entry => (write entry.1, write entry.2)).map
        fun entry => .entry entry.1 entry.2) =
      entries.map fun entry => (write entry.1).chars ++ " => ".toList ++ (write entry.2).chars := by
  rw [Source.charsMapItems_eq_map, List.map_map]
  rfl

theorem chars_scriptStep {value : Value} (h : store.Literal value)
    (hheld : ∀ part ∈ store.held value, (store.script part).chars = store.chars part) :
    (store.scriptStep store.script value).chars = store.textStep store.chars store.order value := by
  cases h with
  | null => rfl
  | boolean => rfl
  | int => rfl
  | string => rfl
  | @list ref =>
    have hitems : (store.items ref).toList.map (Node.chars ∘ store.script) =
        (store.items ref).toList.map store.chars := List.map_congr_left hheld
    show '[' :: Source.commas (Source.charsEach _) ++ [']'] = _
    rw [Source.charsEach_eq_map, List.map_map, hitems]
    rfl
  | @set ref =>
    have hkeys : (store.sortedKeys ref).map (Node.chars ∘ store.script) =
        (store.sortedKeys ref).map store.chars :=
      List.map_congr_left fun key hk => hheld key (mem_sortedKeys.mp hk)
    show "<<".toList ++ Source.commas (Source.charsEach _) ++ ">>".toList = _
    rw [Source.charsEach_eq_map, List.map_map, hkeys]
    rfl
  | @map ref =>
    have hkey (entry : Value × Value) (he : entry ∈ (store.table ref).entries) :=
      hheld entry.1 (mem_held_map.mpr ⟨entry, he, .inl rfl⟩)
    have hvalue (entry : Value × Value) (he : entry ∈ (store.table ref).entries) :=
      hheld entry.2 (mem_held_map.mpr ⟨entry, he, .inr rfl⟩)
    show "<<<".toList ++ Source.commas (Source.charsMapItems _) ++ ">>>".toList = _
    rw [chars_entries, List.map_congr_left fun entry he => by
      rw [hkey entry (mem_sortedEntries.mp he), hvalue entry (mem_sortedEntries.mp he)]]
    rfl
  | @object ref =>
    show "<*".toList ++ Source.commas (Source.charsMembers _) ++ "*>".toList = _
    rw [chars_members, List.map_congr_left fun member hm => by
      rw [hheld member.2 (List.mem_map_of_mem (f := Prod.snd) hm)]]
    rfl

/-- The text of a value is the text of its tree. -/
theorem chars_script {value : Value} (h : store.Literal value) :
    (store.script value).chars = store.chars value := by
  have hacyclic := h.acyclic
  induction hacyclic with
  | intro value hparts ih =>
    rw [script_eq (.intro value hparts), chars_eq (.intro value hparts)]
    exact chars_scriptStep h fun part hp => ih part hp (h.held part hp)

/-! ## The tree can be read back -/

theorem getLast?_enclosed (opening closing : Source.Lexeme) (lexemes : List Source.Lexeme) :
    (opening :: (lexemes ++ [closing])).getLast? = some closing := by
  rw [← List.cons_append, List.getLast?_append_of_ne_nil _ (List.cons_ne_nil _ _)]
  rfl

/-- Only sets end in the angles of sets. -/
theorem type_eq_of_endsInSet {value : Value} (h : store.Literal value)
    (hends : (store.script value).endsInSet) : value.type = .set := by
  rw [script_eq h.acyclic] at hends
  unfold Node.endsInSet at hends
  cases h with
  | set => rfl
  | null => cases hends
  | boolean => cases hends
  | string => cases hends
  | @int value =>
    have hlast : (Source.wholeLexemes value.toInt).getLast? = some (.symbol .closeSet) := hends
    unfold Source.wholeLexemes at hlast
    rw [List.getLast?_append_of_ne_nil _ (List.cons_ne_nil _ _)] at hlast
    cases hlast
  | list =>
    rw [scriptStep, Source.lexemes_list, getLast?_enclosed] at hends
    cases hends
  | map =>
    rw [scriptStep, Source.lexemes_map, getLast?_enclosed] at hends
    cases hends
  | object =>
    rw [scriptStep, Source.lexemes_object, getLast?_enclosed] at hends
    cases hends

/-- Only collections with angles begin with one. -/
theorem head_ne_angle {value : Value} (h : store.Literal value)
    (htype : value.type ∉ [.set, .map, .object]) : (store.script value).chars.head? ≠ some '<' := by
  rw [chars_script h, chars_eq h.acyclic]
  cases h with
  | null => exact nofun
  | boolean value => cases value <;> exact nofun
  | string => exact nofun
  | list => exact nofun
  | @int value =>
    obtain ⟨c, rest, hchars, hbegins⟩ := Number.wholeText_begins value.toInt
    show (Number.wholeText value.toInt).head? ≠ _
    rw [hchars]
    intro heq
    obtain rfl := Option.some.inj heq
    have hangle : '<'.toNat = 60 := rfl
    have hcode := code_of_begins hbegins
    omega
  | set => simp [Value.type] at htype
  | map => simp [Value.type] at htype
  | object => simp [Value.type] at htype

theorem isName_null : isName "NULL" = true := by decide +kernel

/-- The tree of a value that can be written out is a plain expression. -/
theorem Literal.plain {value : Value} (h : store.Literal value) : (store.script value).Plain := by
  have hacyclic := h.acyclic
  induction hacyclic with
  | intro value hparts ih =>
    have hheld : ∀ part ∈ store.held value, (store.script part).Plain :=
      fun part hp => ih part hp (h.held part hp)
    rw [script_eq (.intro value hparts)]
    cases h with
    | null => exact .name _ isName_null
    | boolean => exact .boolean _ _
    | int hmin => exact .int _ hmin
    | string => exact .string _ _
    | list =>
      refine .list _ fun item hi => ?_
      obtain ⟨part, hp, rfl⟩ := List.mem_map.mp hi
      exact hheld part hp
    | @set ref _ _ hkeys hfirst hlast =>
      have hmem : ∀ key ∈ store.sortedKeys ref, store.Literal key :=
        fun key hk => hkeys key (mem_sortedKeys.mp hk)
      refine .set _ (fun item hi => ?_) (fun item hi => ?_) fun item hi => ?_
      · obtain ⟨key, hk, rfl⟩ := List.mem_map.mp hi
        exact hheld key (mem_sortedKeys.mp hk)
      -- the brackets of a set must not run together with those of an element
      · rw [List.head?_map] at hi
        obtain ⟨key, hk, rfl⟩ := Option.mem_map.mp hi
        exact head_ne_angle (hmem key (List.mem_of_mem_head? hk)) (hfirst key hk)
      · rw [List.getLast?_map] at hi
        obtain ⟨key, hk, rfl⟩ := Option.mem_map.mp hi
        exact fun hends => hlast key hk
          (type_eq_of_endsInSet (hmem key (List.mem_of_mem_getLast? hk)) hends)
    | @map ref _ _ _ hvalues hlast =>
      refine .map _ (fun entry he => ?_) (fun entry he => ?_) fun entry he => ?_
      · obtain ⟨part, hp, rfl⟩ := List.mem_map.mp he
        exact hheld _ (mem_held_map.mpr ⟨part, mem_sortedEntries.mp hp, .inl rfl⟩)
      · obtain ⟨part, hp, rfl⟩ := List.mem_map.mp he
        exact hheld _ (mem_held_map.mpr ⟨part, mem_sortedEntries.mp hp, .inr rfl⟩)
      · rw [List.getLast?_map] at he
        obtain ⟨part, hp, rfl⟩ := Option.mem_map.mp he
        have hmem := hvalues part (mem_sortedEntries.mp (List.mem_of_mem_getLast? hp))
        exact fun hends => hlast part hp (type_eq_of_endsInSet hmem hends)
    | @object ref _ hnames _ =>
      refine .object _ (fun member hm => ?_) fun member hm => ?_
      · obtain ⟨entry, he, rfl⟩ := List.mem_map.mp hm
        exact hnames entry he
      · obtain ⟨entry, he, rfl⟩ := List.mem_map.mp hm
        exact hheld _ (List.mem_map_of_mem (f := Prod.snd) he)

/-! ## The text tells the tree -/

theorem shape_scriptStep (write : Value → Node) (value : Value) :
    (store.scriptStep write value).shape =
      store.scriptStep (fun part => (write part).shape) value := by
  cases value with
  | list ref =>
    show Node.mk default (.list (Source.relocateEach _ _)) = _
    rw [Source.relocateEach_eq_map, List.map_map]
    rfl
  | set ref =>
    show Node.mk default (.set (Source.relocateEach _ _)) = _
    rw [Source.relocateEach_eq_map, List.map_map]
    rfl
  | map ref =>
    show Node.mk default (.map (Source.relocateMapItems _ _)) = _
    rw [Source.relocateMapItems_entries]
    simp only [scriptStep, List.map_map]
    rfl
  | object ref =>
    show Node.mk default (.object (Source.relocateMembers _ _)) = _
    rw [Source.relocateMembers_eq_map, List.map_map]
    rfl
  | _ => rfl

/-- The tree of a value has no places. -/
theorem shape_script {value : Value} (h : store.Acyclic value) :
    (store.script value).shape = store.script value := by
  induction h with
  | intro value hparts ih =>
    rw [script_eq (.intro value hparts), shape_scriptStep, scriptStep_congr ih]

/-- Values with one text, of whatever stores, have one tree. -/
theorem script_eq_of_chars_eq {other : Store} {a b : Value} (ha : store.Literal a)
    (hb : other.Literal b) (h : store.chars a = other.chars b) : store.script a = other.script b := by
  have htext : (store.script a).text = (other.script b).text := by
    rw [Node.text, Node.text, chars_script ha, chars_script hb, h]
  obtain ⟨tokens, hscan, hlexemes⟩ := ha.plain.scan_text ""
  obtain ⟨tokens', hscan', hlexemes'⟩ := hb.plain.scan_text ""
  obtain ⟨found, hread, hfound⟩ := ha.plain.readScript_of_scan hscan hlexemes
  obtain ⟨found', hread', hfound'⟩ := hb.plain.readScript_of_scan hscan' hlexemes'
  rw [htext, hread'] at hread
  cases hread
  rw [← shape_script ha.acyclic, ← shape_script hb.acyclic, ← hfound, ← hfound']

end Store

end Ckl
