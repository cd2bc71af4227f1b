import Ckl.Proofs.Collection.Reference

/-!
# Tables in which only some keys follow the laws

A table may hold keys that are not the same as themselves, or the same as keys that are not the same.
As far as the other keys go it stays sound (`Table.SoundOn`): these are filed under their hashes, and no
two of them are the same. A set keeps this whatever else is added and removed (`SoundOn.setChange`),
since it never replaces an element. A map replaces keys, so it keeps this as long as a key that is the
same as a lawful one is lawful (`SoundOn.mapChange`).
-/

namespace Ckl.Collection

variable {κ ν : Type} {rule : KeyRule κ} {used among : κ → Prop}

/-- A table of some keys that is sound as far as some of them go: these are filed under their hashes,
and no two of them are the same. -/
structure Table.SoundOn (rule : KeyRule κ) (used among : κ → Prop) (table : Table κ ν) : Prop
    extends Table.Shelved table where
  keys : ∀ slot ∈ table.slots, used slot.key
  hashed : ∀ slot ∈ table.slots, among slot.key → slot.hash = rule.hash slot.key
  distinct : table.slots.Pairwise fun a b => among a.key → among b.key → rule.Apart a.key b.key

/-- Keys are lawful if they are the same as a lawful one, and among lawful ones the laws hold. -/
structure KeyRule.Closed (rule : KeyRule κ) (used among : κ → Prop) : Prop
    extends rule.Coherent among where
  closed : ∀ a b, used a → among b → rule.same a b = true → among a

namespace Table.SoundOn

variable {table : Table κ ν}

theorem empty : (Table.empty : Table κ ν).SoundOn rule used among where
  toShelved := Table.shelved_empty
  keys := by simp only [Table.slots_empty, List.not_mem_nil, false_implies, implies_true]
  hashed := by simp only [Table.slots_empty, List.not_mem_nil, false_implies, implies_true]
  distinct := Table.slots_empty ▸ List.Pairwise.nil

/-- The entries of another table, of which one may be missing. -/
theorem of_cons {changed : Table κ ν} {slot : Slot κ ν} {slots : List (Slot κ ν)}
    (h : table.SoundOn rule used among) (hold : table.slots.Perm (slot :: slots))
    (hchanged : changed.Shelved) (hnew : changed.slots.Perm slots) :
    changed.SoundOn rule used among where
  toShelved := hchanged
  keys other ho := h.keys other (hold.symm.subset (List.mem_cons_of_mem _ (hnew.subset ho)))
  hashed other ho := h.hashed other (hold.symm.subset (List.mem_cons_of_mem _ (hnew.subset ho)))
  distinct := by
    have hall := (hold.pairwise_iff fun hab ha hb => (hab hb ha).symm).mp h.distinct
    exact (hnew.pairwise_iff fun hab ha hb => (hab hb ha).symm).mpr hall.of_cons

/-- An entry beside others that are sound. -/
theorem cons {changed : Table κ ν} {slot : Slot κ ν} {slots : List (Slot κ ν)}
    (hchanged : changed.Shelved) (hperm : changed.slots.Perm (slot :: slots)) (hused : used slot.key)
    (hhash : among slot.key → slot.hash = rule.hash slot.key)
    (hkeys : ∀ other ∈ slots, used other.key)
    (hhashed : ∀ other ∈ slots, among other.key → other.hash = rule.hash other.key)
    (hdistinct : slots.Pairwise fun a b => among a.key → among b.key → rule.Apart a.key b.key)
    (hapart : ∀ other ∈ slots, among slot.key → among other.key → rule.Apart slot.key other.key) :
    changed.SoundOn rule used among where
  toShelved := hchanged
  keys other ho := by
    rcases List.mem_cons.mp (hperm.subset ho) with rfl | ho
    · exact hused
    · exact hkeys other ho
  hashed other ho := by
    rcases List.mem_cons.mp (hperm.subset ho) with rfl | ho
    · exact hhash
    · exact hhashed other ho
  distinct := (hperm.pairwise_iff fun hab ha hb => (hab hb ha).symm).mpr
    (List.pairwise_cons.mpr ⟨hapart, hdistinct⟩)

/-- A lawful key that is not found is apart from all lawful keys that there are. -/
theorem apart_of_find? (h : table.SoundOn rule used among) (hl : rule.Coherent among) {key : κ}
    (hf : table.find? rule key = none) (hkey : among key) {slot : Slot κ ν} (hs : slot ∈ table.slots)
    (hslot : among slot.key) : rule.Apart key slot.key := by
  have hback : rule.same slot.key key = false := by
    by_contra hsame
    replace hsame : rule.same slot.key key = true := by simpa using hsame
    have hhash := (h.hashed slot hs hslot).trans (hl.hash_eq _ _ hslot hkey hsame)
    have hbucket := h.mem_bucket_iff.mpr ⟨hs, congrArg (Table.bucketOf table.size) hhash⟩
    exact absurd hsame (List.find?_eq_none.mp hf slot hbucket)
  refine ⟨?_, hback⟩
  by_contra hsame
  rw [hl.symm _ _ hkey hslot (by simpa using hsame)] at hback
  cases hback

/-- A key that is not found is added. -/
theorem insert_new (h : table.SoundOn rule used among) (hl : rule.Coherent among) {key : κ}
    (hu : used key) (hf : table.find? rule key = none) (value : ν) :
    (table.insert rule key value).SoundOn rule used among := by
  rw [Table.insert_eq, (Table.locate_eq_none_iff table key).mpr hf]
  obtain ⟨hshelved, hperm⟩ := h.toShelved.place_none ⟨rule.hash key, key, value⟩
  exact cons hshelved hperm hu (fun _ => rfl) h.keys h.hashed h.distinct
    fun slot hs hkey hslot => h.apart_of_find? hl hf hkey hs hslot

/-- A key that is found takes the place of the one that is there. -/
theorem insert (h : table.SoundOn rule used among) (hl : rule.Closed used among) {key : κ}
    (hu : used key) (value : ν) : (table.insert rule key value).SoundOn rule used among := by
  cases hp : table.locate (rule.hash key) fun entry => rule.same entry key with
  | none => exact h.insert_new hl.toCoherent hu ((Table.locate_eq_none_iff table key).mp hp) value
  | some position =>
    obtain ⟨hlt, hf⟩ := Table.find?_of_locate hp
    obtain ⟨hm, hsame⟩ := Table.mem_of_find? h.toShelved hf
    obtain ⟨hshelved, rest, hold, hnew⟩ := h.toShelved.place_some ⟨rule.hash key, key, value⟩ hlt
    rw [Table.insert_eq, hp]
    generalize (table.bucket (rule.hash key))[position] = old at hm hsame hold hnew
    have hlawful : among key → among old.key := fun hkey =>
      hl.closed _ _ (h.keys old hm) hkey hsame
    have hrest : ∀ slot ∈ rest, slot ∈ table.slots := fun slot hs =>
      hold.symm.subset (List.mem_cons_of_mem _ hs)
    obtain ⟨hapart, hdistinct⟩ := List.pairwise_cons.mp
      ((hold.pairwise_iff fun hab ha hb => (hab hb ha).symm).mp h.distinct)
    refine cons hshelved hnew hu ?_ (fun slot hs => h.keys slot (hrest slot hs))
      (fun slot hs => h.hashed slot (hrest slot hs)) hdistinct ?_
    · intro hkey
      exact (h.hashed old hm (hlawful hkey)).trans (hl.hash_eq _ _ (hlawful hkey) hkey hsame)
    · -- what the new key is the same as, the old one was the same as
      intro slot hs hkey hslot
      have hbefore := hapart slot hs (hlawful hkey) hslot
      refine ⟨Bool.eq_false_iff.mpr fun hforth => ?_, Bool.eq_false_iff.mpr fun hback => ?_⟩
      · exact Bool.eq_false_iff.mp hbefore.1
          (hl.trans _ _ _ (hlawful hkey) hkey hslot hsame hforth)
      · exact Bool.eq_false_iff.mp hbefore.2 (hl.trans _ _ _ hslot hkey (hlawful hkey) hback
          (hl.symm _ _ (hlawful hkey) hkey hsame))

theorem erase (h : table.SoundOn rule used among) (key : κ) :
    (table.erase rule key).SoundOn rule used among := by
  rw [Table.erase_eq]
  cases hp : table.locate (rule.hash key) fun entry => rule.same entry key with
  | none => exact h
  | some position =>
    obtain ⟨hlt, _⟩ := Table.find?_of_locate hp
    obtain ⟨hshelved, hold⟩ := h.toShelved.dropSlot hlt
    exact h.of_cons hold hshelved.fit (Table.perm_slots_fit hshelved.size_pos)

/-- A set stays sound on lawful elements, whatever is added and removed. -/
theorem setChange {set : KeySet κ} (h : set.SoundOn rule used among) (hl : rule.Coherent among)
    (change : SetChange κ) (hu : used change.key) :
    (change.apply rule set).2.SoundOn rule used among := by
  have hadd : ∀ key, used key → ((SetChange.insert key).apply rule set).2.SoundOn rule used among := by
    intro key hu
    show (KeySet.add rule set key).SoundOn rule used among
    rw [KeySet.add_eq]
    split
    · exact h
    · next hc =>
      exact h.insert_new hl hu (by simpa only [Table.contains, Option.isSome_eq_false_iff,
        Option.isNone_iff_eq_none, Bool.not_eq_true] using hc) ()
  cases change with
  | insert key => exact hadd key hu
  | insertShared key => rw [Represents.apply_insertShared]; exact hadd key hu
  | remove key => exact h.erase key

/-- A map stays sound on lawful keys if what is the same as a lawful key is lawful. -/
theorem mapChange (h : table.SoundOn rule used among) (hl : rule.Closed used among)
    (change : MapChange κ ν) (hu : used change.key) :
    (change.apply rule table).2.SoundOn rule used among := by
  cases change with
  | insert key value => exact h.insert hl hu value
  | insertShared key value => exact h.insert hl hu value
  | remove key => exact h.erase key

end Table.SoundOn

/-- What every change keeps a run of changes keeps. -/
theorem runChanges_keeps {σ γ α : Type} {step : σ → γ → α × σ} {kept : σ → Prop} {allowed : γ → Prop}
    (hstep : ∀ s change, kept s → allowed change → kept (step s change).2) :
    ∀ (changes : List γ) (s : σ), kept s → (∀ change ∈ changes, allowed change) →
      kept (runChanges step s changes).2
  | [], _, h, _ => h
  | change :: rest, s, h, ha =>
    runChanges_keeps hstep rest _ (hstep s change h (ha change List.mem_cons_self))
      fun other ho => ha other (List.mem_cons_of_mem _ ho)

end Ckl.Collection
