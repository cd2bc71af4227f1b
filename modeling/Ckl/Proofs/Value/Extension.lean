import Ckl.Proofs.Value.Copy
import Ckl.Scope

/-!
# Stores with more storage

Evaluation that adds storage and changes none leaves an extension of the store. A copy in the first store
is a copy in the extension: its storages hold what they held, and their parts read as they did
(`Copy.extend`). New storage is placed at the end, so that its contents are known (`Extends.place`).
-/

namespace Ckl.Store

open Collection (Table KeySet KeyRule)

variable {store before after : Store}

/-- A store that has all that another one has, the same frames, and perhaps more storage. -/
structure Extends (before after : Store) : Prop where
  items : ∀ ref : Ref .list, ref.index < before.lists.size →
    ref.index < after.lists.size ∧ after.items ref = before.items ref
  keySet : ∀ ref : Ref .set, ref.index < before.sets.size →
    ref.index < after.sets.size ∧ after.keySet ref = before.keySet ref
  table : ∀ ref : Ref .map, ref.index < before.maps.size →
    ref.index < after.maps.size ∧ after.table ref = before.table ref
  members : ∀ ref : Ref .object, ref.index < before.objects.size →
    ref.index < after.objects.size ∧ after.members ref = before.members ref
  frames : after.frames = before.frames

namespace Extends

theorem refl (store : Store) : store.Extends store :=
  ⟨fun _ h => ⟨h, rfl⟩, fun _ h => ⟨h, rfl⟩, fun _ h => ⟨h, rfl⟩, fun _ h => ⟨h, rfl⟩, rfl⟩

theorem trans {last : Store} (h : before.Extends after) (h' : after.Extends last) :
    before.Extends last where
  items ref hr := ⟨(h'.items ref (h.items ref hr).1).1,
    (h'.items ref (h.items ref hr).1).2.trans (h.items ref hr).2⟩
  keySet ref hr := ⟨(h'.keySet ref (h.keySet ref hr).1).1,
    (h'.keySet ref (h.keySet ref hr).1).2.trans (h.keySet ref hr).2⟩
  table ref hr := ⟨(h'.table ref (h.table ref hr).1).1,
    (h'.table ref (h.table ref hr).1).2.trans (h.table ref hr).2⟩
  members ref hr := ⟨(h'.members ref (h.members ref hr).1).1,
    (h'.members ref (h.members ref hr).1).2.trans (h.members ref hr).2⟩
  frames := h'.frames.trans h.frames

theorem lookup?_eq (h : before.Extends after) (frame : FrameRef) (name : String) :
    after.lookup? frame name = before.lookup? frame name := by
  simp only [lookup?, chain, getLocal?, Store.frame, h.frames]

/-- What an array holds at its indices stays when an element is added. -/
theorem push_old {α : Type} {array : Array α} {index : Nat} (h : index < array.size) (new other : α) :
    index < (array.push new).size ∧
      (array.push new)[index]?.getD other = array[index]?.getD other := by
  refine ⟨?_, ?_⟩
  · rw [Array.size_push]
    exact Nat.lt_succ_of_lt h
  · rw [Array.getElem?_push_lt h, Array.getElem?_eq_getElem h]

theorem push_new {α : Type} (array : Array α) (new other : α) :
    array.size < (array.push new).size ∧ (array.push new)[array.size]?.getD other = new := by
  refine ⟨?_, ?_⟩
  · rw [Array.size_push]
    exact Nat.lt_succ_self _
  · rw [Array.getElem?_push_size, Option.getD_some]

/-- Placing a fresh value changes nothing that was there. -/
theorem place (store : Store) (fresh : Fresh) : store.Extends (store.place fresh).2 := by
  cases fresh with
  | value value => exact .refl store
  | list items =>
    exact ⟨fun _ h => push_old h _ _, fun _ h => ⟨h, rfl⟩, fun _ h => ⟨h, rfl⟩, fun _ h => ⟨h, rfl⟩, rfl⟩
  | set keys =>
    exact ⟨fun _ h => ⟨h, rfl⟩, fun _ h => push_old h _ _, fun _ h => ⟨h, rfl⟩, fun _ h => ⟨h, rfl⟩, rfl⟩
  | map entries =>
    exact ⟨fun _ h => ⟨h, rfl⟩, fun _ h => ⟨h, rfl⟩, fun _ h => push_old h _ _, fun _ h => ⟨h, rfl⟩, rfl⟩
  | object members =>
    exact ⟨fun _ h => ⟨h, rfl⟩, fun _ h => ⟨h, rfl⟩, fun _ h => ⟨h, rfl⟩, fun _ h => push_old h _ _, rfl⟩

end Extends

/-! ## Literals in an extension -/

/-- Two stores read some values alike. -/
structure Steady (before after : Store) (among : Value → Prop) : Prop where
  copy : ∀ p, among p → Copy before after p p
  keyChars : ∀ p, among p → after.keyChars p = before.keyChars p
  equal : ∀ p q, among p → among q → after.equal p q = before.equal p q
  order : ∀ p q, among p → among q → after.order p q = before.order p q

theorem Steady.mono {among fewer : Value → Prop} (h : Steady before after among)
    (hsub : ∀ p, fewer p → among p) : Steady before after fewer where
  copy p hp := h.copy p (hsub p hp)
  keyChars p hp := h.keyChars p (hsub p hp)
  equal p q hp hq := h.equal p q (hsub p hp) (hsub q hq)
  order p q hp hq := h.order p q (hsub p hp) (hsub q hq)

/-- A table stays sound where its keys read alike. -/
theorem Steady.sound {among : Value → Prop} (h : Steady before after among) {ν : Type}
    {table : Table Value ν} (hsound : table.Sound before.keyRule)
    (hkeys : ∀ key ∈ table.keys, among key) : table.Sound after.keyRule := by
  refine hsound.congr (fun key hk => ?_) fun p hp q hq => ?_
  · exact congrArg (fun key => Text.hash (String.ofList key)) (h.keyChars key (hkeys key hk)).symm
  · exact (h.equal p q (hkeys p hp) (hkeys q hq)).symm

/-- A value whose parts read alike in an extension can be written out there, as the same tree. -/
theorem Literal.extend {value : Value} (h : before.Literal value) (hextends : before.Extends after)
    (hsteady : Steady before after (· ∈ before.held value)) : Copy before after value value := by
  have hparts : ∀ part ∈ before.held value, after.script part = before.script part :=
    fun part hp => (hsteady.copy part hp).script_eq
  have hliteral : ∀ part ∈ before.held value, after.Literal part :=
    fun part hp => (hsteady.copy part hp).literal
  -- one step is left to compare: the parts are written as they were
  suffices hstep : after.Literal value ∧
      after.scriptStep before.script value = before.scriptStep before.script value ∧
      after.held value = before.held value by
    obtain ⟨hliteral, hstep, hheld⟩ := hstep
    refine ⟨hliteral, ?_⟩
    rw [script_eq hliteral.acyclic, script_eq h.acyclic, ← hstep]
    exact scriptStep_congr fun part hp => hparts part (hheld ▸ hp)
  cases h with
  | null => exact ⟨.null, rfl, rfl⟩
  | boolean value => exact ⟨.boolean value, rfl, rfl⟩
  | int hmin => exact ⟨.int hmin, rfl, rfl⟩
  | string value => exact ⟨.string value, rfl, rfl⟩
  | @list ref hindex _ =>
    obtain ⟨hindex', hitems⟩ := hextends.items ref hindex
    refine ⟨.list hindex' ?_, ?_, ?_⟩
    · rw [hitems]
      exact hliteral
    · simp only [scriptStep, hitems]
    · show (after.items ref).toList = (before.items ref).toList
      rw [hitems]
  | @set ref hindex hsound _ hfirst hlast =>
    obtain ⟨hindex', hkeys⟩ := hextends.keySet ref hindex
    have hsorted : after.sortedKeys ref = before.sortedKeys ref := by
      rw [sortedKeys, sortedKeys, hkeys]
      exact sortBy_congr fun p hp q hq => hsteady.order p q hp hq
    refine ⟨.set hindex' ?_ ?_ ?_ ?_, ?_, ?_⟩
    · rw [hkeys]
      exact hsteady.sound hsound fun _ hk => hk
    · rw [hkeys]
      exact hliteral
    · rwa [hsorted]
    · rwa [hsorted]
    · simp only [scriptStep, hsorted]
    · show (after.keySet ref).keys = (before.keySet ref).keys
      rw [hkeys]
  | @map ref hindex hsound _ _ hlast =>
    obtain ⟨hindex', htable⟩ := hextends.table ref hindex
    have hkey : ∀ entry ∈ (before.table ref).entries, entry.1 ∈ before.held (.map ref) :=
      fun entry he => mem_held_map.mpr ⟨entry, he, .inl rfl⟩
    have hsorted : after.sortedEntries ref = before.sortedEntries ref := by
      rw [sortedEntries, sortedEntries, sortedTable, sortedTable, htable]
      exact sortBy_congr fun p hp q hq => hsteady.order _ _ (hkey p hp) (hkey q hq)
    refine ⟨.map hindex' ?_ ?_ ?_ ?_, ?_, ?_⟩
    · rw [htable]
      refine hsteady.sound hsound fun key hk => ?_
      obtain ⟨slot, hs, rfl⟩ := mem_keys.mp hk
      exact hkey _ (Table.entry_mem hs)
    · rw [htable]
      exact fun entry he => hliteral _ (hkey entry he)
    · rw [htable]
      exact fun entry he => hliteral _ (mem_held_map.mpr ⟨entry, he, .inr rfl⟩)
    · rwa [hsorted]
    · simp only [scriptStep, hsorted]
    · show ((after.table ref).entries.flatMap _) = (before.table ref).entries.flatMap _
      rw [htable]
  | @object ref hindex hnames _ =>
    obtain ⟨hindex', hmembers⟩ := hextends.members ref hindex
    refine ⟨.object hindex' ?_ ?_, ?_, ?_⟩
    · rwa [hmembers]
    · rw [hmembers]
      exact fun member hm => hliteral _ (List.mem_map_of_mem (f := Prod.snd) hm)
    · simp only [scriptStep, hmembers]
    · show (after.members ref).values = (before.members ref).values
      rw [hmembers]

/-- Every part of a copy is a copy of a part. -/
theorem Mirrors.exists_of_held {related : Value → Value → Prop} {value copy part : Value}
    (h : Mirrors store after related value copy) (hp : part ∈ after.held copy) :
    ∃ p ∈ store.held value, related p part := by
  cases h with
  | atom hatom => exact absurd hp (not_mem_held_of_isAtomic hatom part)
  | list hitems => exact exists_of_mem_right hitems part hp
  | set hkeys =>
    obtain ⟨p, hm, hrelated⟩ := exists_of_mem_right hkeys part (mem_sortedKeys.mpr hp)
    exact ⟨p, mem_sortedKeys.mp hm, hrelated⟩
  | map hentries =>
    obtain ⟨entry, he, hpart⟩ := mem_held_map.mp hp
    obtain ⟨p, hm, hkey, hvalue⟩ := exists_of_mem_right hentries entry (mem_sortedEntries.mpr he)
    have hm := mem_sortedEntries.mp hm
    rcases hpart with rfl | rfl
    · exact ⟨p.1, mem_held_map.mpr ⟨p, hm, .inl rfl⟩, hkey⟩
    · exact ⟨p.2, mem_held_map.mpr ⟨p, hm, .inr rfl⟩, hvalue⟩
  | object hmembers =>
    obtain ⟨member, hm, rfl⟩ := List.mem_map.mp hp
    obtain ⟨p, hpm, _, hvalue⟩ := exists_of_mem_right hmembers member hm
    exact ⟨p.2, List.mem_map_of_mem (f := Prod.snd) hpm, hvalue⟩

section Copies

variable {among : Value → Prop} (h : store.Literals among)

include h

/-- Copies of values in two stores at once read alike in both. -/
theorem Literals.steady :
    Steady before after fun q => ∃ p, among p ∧ Copy store before p q ∧ Copy store after p q where
  copy := by
    rintro q ⟨p, _, hbefore, hafter⟩
    exact ⟨hafter.literal, hafter.script_eq.trans hbefore.script_eq.symm⟩
  keyChars := by
    rintro q ⟨p, hp, hbefore, hafter⟩
    rw [h.keyChars_copies hp hbefore, h.keyChars_copies hp hafter]
  equal := by
    rintro q s ⟨p, hp, hbefore, hafter⟩ ⟨r, hr, hbefore', hafter'⟩
    rw [h.equal_copies hp hr hbefore hbefore', h.equal_copies hp hr hafter hafter']
  order := by
    rintro q s ⟨p, hp, hbefore, hafter⟩ ⟨r, hr, hbefore', hafter'⟩
    rw [h.order_copies hp hr hbefore hbefore', h.order_copies hp hr hafter hafter']

/-- **A copy stays a copy when storage is added.** -/
theorem Copy.extend {value copy : Value} (hvalue : among value) (hcopy : Copy store before value copy)
    (hextends : before.Extends after) : Copy store after value copy := by
  have hacyclic := h.isUniverse.acyclic value hvalue
  induction hacyclic generalizing copy with
  | intro value hparts ih =>
    have hmirrors := hcopy.mirrors (h.literal value hvalue)
    have hsteady : Steady before after (· ∈ before.held copy) := by
      have hboth : ∀ q ∈ before.held copy, ∃ p, among p ∧ Copy store before p q ∧ Copy store after p q := by
        intro q hq
        obtain ⟨p, hp, hpq⟩ := hmirrors.exists_of_held hq
        have hamong := h.held value hvalue p hp
        exact ⟨p, hamong, hpq, ih p hp hamong hpq⟩
      exact h.steady.mono hboth
    have hlast := hcopy.literal.extend hextends hsteady
    exact ⟨hlast.literal, hlast.script_eq.trans hcopy.script_eq⟩

end Copies

end Ckl.Store
