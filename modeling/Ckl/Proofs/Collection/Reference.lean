import Ckl.Proofs.Collection.Lookup
import Mathlib.Data.Finmap

/-!
# Tables as finite maps on classes of keys

What a table is for: a finite map whose keys are the classes of keys that count as the same. The
reference is `ClassMap`, a finite map from such classes to one entry each, the key that was stored and
its value. It knows neither buckets nor hashes.

`MapChange` and `SetChange` are the changes of maps and of sets, each with the answer that it gives:
the value that was stored before, or whether the set has changed. A key can be stored in one step or,
where the collection is shared, in two, locating it first and storing it then; both are changes here.

One change on both sides gives one answer and keeps a table that stands for its reference
(`Represents.mapChange`, `Represents.setChange`), and so does a sequence of changes
(`runChanges_simulates`). Such a table answers every question as the reference does
(`Represents.answers`).
-/

namespace Ckl.Collection

open scoped Classical

variable {κ ν : Type} {rule : KeyRule κ} {among : κ → Prop}

/-! ## Classes of keys -/

/-- The keys that are the same as a key. -/
def KeyRule.classOf (rule : KeyRule κ) (among : κ → Prop) (key : κ) : Set κ :=
  {other | among other ∧ rule.same key other = true}

theorem KeyRule.Lawful.classOf_eq_iff (hl : rule.Lawful among) {a b : κ} (ha : among a)
    (hb : among b) : rule.classOf among a = rule.classOf among b ↔ rule.same a b = true := by
  constructor
  · intro h
    have hm : b ∈ rule.classOf among b := ⟨hb, hl.refl b hb⟩
    rw [← h] at hm
    exact hm.2
  · intro h
    ext other
    refine ⟨fun ⟨ho, hs⟩ => ⟨ho, ?_⟩, fun ⟨ho, hs⟩ => ⟨ho, hl.trans a b other ha hb ho h hs⟩⟩
    exact hl.trans b a other hb ha ho (hl.symm a b ha hb h) hs

/-- A finite map on classes of keys; with each class goes the key that was stored and its value. -/
abbrev ClassMap (κ ν : Type) := Finmap fun _ : Set κ => κ × ν

namespace ClassMap

/-- The value of a class. -/
noncomputable def value? (reference : ClassMap κ ν) (keys : Set κ) : Option ν :=
  (reference.lookup keys).map Prod.snd

/-- All entries. -/
def contents (reference : ClassMap κ ν) : Multiset (κ × ν) := reference.entries.map Sigma.snd

end ClassMap

/-! ## Changes -/

/-- The changes of a map. -/
inductive MapChange (κ ν : Type) where
  | insert (key : κ) (value : ν)
  | insertShared (key : κ) (value : ν)
  | remove (key : κ)

/-- The changes of a set. -/
inductive SetChange (κ : Type) where
  | insert (key : κ)
  | insertShared (key : κ)
  | remove (key : κ)

namespace MapChange

/-- The key that a change is about. -/
def key : MapChange κ ν → κ
  | insert key _ | insertShared key _ | remove key => key

/-- What a change of a table answers, which is the value that was there before, and what it leaves. -/
def apply (rule : KeyRule κ) (table : Table κ ν) (change : MapChange κ ν) : Option ν × Table κ ν :=
  let (previous, after) := match change with
    | insert key value => table.insertEntry rule key value
    | insertShared key value =>
      let hash := rule.hash key
      let existing := table.locate hash fun entry => rule.same entry key
      table.placeEntry ⟨hash, key, value⟩ existing
    | remove key => table.removeEntry rule key
  (previous.map (·.2), after)

theorem snd_apply_insert (rule : KeyRule κ) (table : Table κ ν) (key : κ) (value : ν) :
    ((insert key value).apply rule table).2 = table.insert rule key value :=
  rfl

/-- The same for the reference: storing replaces the entry of the class, key and value. -/
noncomputable def refer (classOf : κ → Set κ) (reference : ClassMap κ ν) :
    MapChange κ ν → Option ν × ClassMap κ ν
  | insert key value | insertShared key value =>
    (reference.value? (classOf key), Finmap.insert (classOf key) (key, value) reference)
  | remove key => (reference.value? (classOf key), Finmap.erase (classOf key) reference)

end MapChange

namespace SetChange

/-- The key that a change is about. -/
def key : SetChange κ → κ
  | insert key | insertShared key | remove key => key

/-- What a change of a set answers, which is whether it changes the keys, and what it leaves. -/
def apply (rule : KeyRule κ) (set : KeySet κ) : SetChange κ → Bool × KeySet κ
  | insert key => KeySet.addKey rule set key
  | insertShared key =>
    let hash := rule.hash key
    if (set.locate hash fun entry => rule.same entry key).isSome then (false, set)
    else (true, set.place ⟨hash, key, ()⟩ none)
  | remove key =>
    let (removed, after) := set.removeEntry rule key
    (removed.isSome, after)

/-- The same for the reference: a class that is there keeps its element. -/
noncomputable def refer (classOf : κ → Set κ) (reference : ClassMap κ Unit) :
    SetChange κ → Bool × ClassMap κ Unit
  | insert key | insertShared key =>
    if classOf key ∈ reference then (false, reference)
    else (true, Finmap.insert (classOf key) (key, ()) reference)
  | remove key => (decide (classOf key ∈ reference), Finmap.erase (classOf key) reference)

end SetChange

/-- The answers of changes made one after the other, and what they leave. -/
def runChanges {σ γ α : Type} (step : σ → γ → α × σ) : σ → List γ → List α × σ
  | state, [] => ([], state)
  | state, change :: rest =>
    let (answer, next) := step state change
    let (answers, last) := runChanges step next rest
    (answer :: answers, last)

theorem snd_runChanges_nil {σ γ α : Type} (step : σ → γ → α × σ) (state : σ) :
    (runChanges step state []).2 = state :=
  rfl

theorem snd_runChanges_cons {σ γ α : Type} (step : σ → γ → α × σ) (state : σ) (change : γ)
    (rest : List γ) :
    (runChanges step state (change :: rest)).2 = (runChanges step (step state change).2 rest).2 :=
  rfl

/-! ## The simulation -/

/-- A table stands for a finite map on classes: it is sound, and its entries are those of the map. -/
structure Represents (rule : KeyRule κ) (among : κ → Prop) (table : Table κ ν)
    (reference : ClassMap κ ν) : Prop where
  sound : table.Sound rule
  keys : ∀ slot ∈ table.slots, among slot.key
  entries : ∀ keys entry, reference.lookup keys = some entry ↔
    entry ∈ table.entries ∧ keys = rule.classOf among entry.1

namespace Represents

variable {table : Table κ ν} {reference : ClassMap κ ν}

theorem empty : Represents rule among (Table.empty : Table κ ν) ∅ where
  sound := Table.sound_empty
  keys := by simp only [Table.slots_empty, List.not_mem_nil, false_implies, implies_true]
  entries keys entry := by
    simp only [Finmap.lookup_empty, Table.entries, Table.slots_empty, List.map_nil,
      List.not_mem_nil, false_and, reduceCtorEq]

theorem mem_entries {entry : κ × ν} :
    entry ∈ table.entries ↔ ∃ slot ∈ table.slots, slot.key = entry.1 ∧ slot.value = entry.2 := by
  simp only [Table.entries, List.mem_map, Prod.ext_iff]

/-- A class has the entry that looking up one of its keys finds. -/
theorem lookup_eq (h : Represents rule among table reference) (hl : rule.Lawful among) {key : κ}
    (hu : among key) :
    reference.lookup (rule.classOf among key) =
      (table.find? rule key).map fun slot => (slot.key, slot.value) := by
  refine Option.ext fun entry => ?_
  simp only [h.entries, Option.map_eq_some_iff, h.sound.find?_eq_some_iff hl.toCoherent h.keys hu,
    mem_entries, Prod.ext_iff]
  constructor
  · rintro ⟨⟨slot, hm, hk, hv⟩, hc⟩
    rw [← hk, hl.classOf_eq_iff hu (h.keys slot hm)] at hc
    exact ⟨slot, ⟨hm, hl.symm _ _ hu (h.keys slot hm) hc⟩, hk, hv⟩
  · rintro ⟨slot, ⟨hm, hs⟩, hk, hv⟩
    refine ⟨⟨slot, hm, hk, hv⟩, ?_⟩
    rw [← hk, hl.classOf_eq_iff hu (h.keys slot hm)]
    exact hl.symm _ _ (h.keys slot hm) hu hs

theorem get?_eq (h : Represents rule among table reference) (hl : rule.Lawful among) {key : κ}
    (hu : among key) : table.get? rule key = reference.value? (rule.classOf among key) := by
  simp only [ClassMap.value?, h.lookup_eq hl hu, Table.get?, Option.map_map]
  rfl

theorem contains_eq (h : Represents rule among table reference) (hl : rule.Lawful among) {key : κ}
    (hu : among key) :
    table.contains rule key = decide (rule.classOf among key ∈ reference) := by
  rw [Table.contains, Bool.eq_iff_iff, decide_eq_true_iff, ← Finmap.lookup_isSome,
    h.lookup_eq hl hu, Option.isSome_map]

/-- The table lists the entries of the map, each once. -/
theorem entries_eq (h : Represents rule among table reference) (hl : rule.Lawful among) :
    (table.entries : Multiset (κ × ν)) = reference.contents := by
  have hdistinct : table.entries.Nodup := by
    refine List.Pairwise.map _ (fun a b hne => hne) (h.sound.distinct.imp_of_mem ?_)
    intro a b ha hb hapart heq
    have hkey : a.key = b.key := (Prod.ext_iff.mp heq).1
    rw [KeyRule.Apart, ← hkey, hl.refl a.key (h.keys a ha)] at hapart
    cases hapart.1
  let tagged : κ × ν → (_ : Set κ) × (κ × ν) := fun entry => ⟨rule.classOf among entry.1, entry⟩
  have hinjective : Function.Injective tagged := fun _ _ hab => eq_of_heq (Sigma.mk.inj_iff.mp hab).2
  have htagged : reference.entries = (table.entries : Multiset (κ × ν)).map tagged := by
    refine (Multiset.Nodup.ext reference.nodup_entries ?_).mpr fun item => ?_
    · exact (Multiset.nodup_map_iff_of_injective hinjective).mpr (Multiset.coe_nodup.mpr hdistinct)
    · obtain ⟨keys, entry⟩ := item
      rw [← Finmap.lookup_eq_some_iff, h.entries]
      simp only [Multiset.mem_map, Multiset.mem_coe, tagged, Sigma.mk.injEq, heq_eq_eq]
      constructor
      · rintro ⟨hm, rfl⟩
        exact ⟨entry, hm, rfl, rfl⟩
      · rintro ⟨entry, hm, rfl, rfl⟩
        exact ⟨hm, rfl⟩
  rw [ClassMap.contents, htagged, Multiset.map_map]
  exact (Multiset.map_id' _).symm

theorem count_eq (h : Represents rule among table reference) (hl : rule.Lawful among) :
    table.count = reference.keys.card := by
  have hcard := congrArg Multiset.card (h.entries_eq hl)
  rw [ClassMap.contents, Multiset.card_map, Multiset.coe_card] at hcard
  rw [h.sound.counted, Finmap.keys, Finset.card_mk, Multiset.keys, Multiset.card_map, ← hcard,
    Table.entries, List.length_map]

/-- Storing in the table is storing in the map. -/
theorem insert (h : Represents rule among table reference) (hl : rule.Lawful among) {key : κ}
    (hu : among key) (value : ν) :
    Represents rule among (table.insert rule key value)
      (Finmap.insert (rule.classOf among key) (key, value) reference) := by
  obtain ⟨hsound, hperm⟩ := h.sound.insert hl.toCoherent h.keys hu value
  have hkeys : ∀ slot ∈ (table.insert rule key value).slots, among slot.key := by
    intro slot hm
    rcases List.mem_cons.mp (hperm.subset hm) with rfl | ho
    · exact hu
    · exact h.keys slot (Table.mem_others.mp ho).1
  refine ⟨hsound, hkeys, fun keys entry => ?_⟩
  have hentries : entry ∈ (table.insert rule key value).entries ↔
      entry = (key, value) ∨ entry ∈ table.entries ∧ rule.same entry.1 key = false := by
    simp only [mem_entries, hperm.mem_iff, List.mem_cons, Table.mem_others, Prod.ext_iff]
    constructor
    · rintro ⟨slot, rfl | ⟨hm, hs⟩, hk, hv⟩
      · exact .inl ⟨hk.symm, hv.symm⟩
      · exact .inr ⟨⟨slot, hm, hk, hv⟩, hk ▸ hs⟩
    · rintro (⟨hk, hv⟩ | ⟨⟨slot, hm, hk, hv⟩, hs⟩)
      · exact ⟨_, .inl rfl, hk.symm, hv.symm⟩
      · exact ⟨slot, .inr ⟨hm, hk ▸ hs⟩, hk, hv⟩
  rw [hentries]
  -- the class of the key has the new entry alone, every other class those it had
  by_cases hc : keys = rule.classOf among key
  · subst hc
    rw [Finmap.lookup_insert, Option.some_inj]
    constructor
    · rintro rfl
      exact ⟨.inl rfl, rfl⟩
    · rintro ⟨rfl | ⟨hm, hs⟩, hc⟩
      · rfl
      · obtain ⟨slot, hslot, hk, _⟩ := mem_entries.mp hm
        have ha : among entry.1 := hk ▸ h.keys slot hslot
        rw [hl.symm _ _ hu ha ((hl.classOf_eq_iff hu ha).mp hc)] at hs
        cases hs
  · rw [Finmap.lookup_insert_of_ne _ hc, h.entries]
    constructor
    · rintro ⟨hm, rfl⟩
      obtain ⟨slot, hslot, hk, _⟩ := mem_entries.mp hm
      have ha : among entry.1 := hk ▸ h.keys slot hslot
      refine ⟨.inr ⟨hm, ?_⟩, rfl⟩
      by_contra hs
      exact hc ((hl.classOf_eq_iff ha hu).mpr (by simpa using hs))
    · rintro ⟨rfl | ⟨hm, _⟩, hkeys⟩
      · exact absurd hkeys hc
      · exact ⟨hm, hkeys⟩

/-- Removing from the table is removing from the map. -/
theorem erase (h : Represents rule among table reference) (hl : rule.Lawful among) {key : κ}
    (hu : among key) :
    Represents rule among (table.erase rule key)
      (Finmap.erase (rule.classOf among key) reference) := by
  obtain ⟨hsound, hperm⟩ := h.sound.erase hl.toCoherent h.keys hu
  have hkeys : ∀ slot ∈ (table.erase rule key).slots, among slot.key :=
    fun slot hm => h.keys slot (Table.mem_others.mp (hperm.subset hm)).1
  refine ⟨hsound, hkeys, fun keys entry => ?_⟩
  have hentries : entry ∈ (table.erase rule key).entries ↔
      entry ∈ table.entries ∧ rule.same entry.1 key = false := by
    simp only [mem_entries, hperm.mem_iff, Table.mem_others]
    constructor
    · rintro ⟨slot, ⟨hm, hs⟩, hk, hv⟩
      exact ⟨⟨slot, hm, hk, hv⟩, hk ▸ hs⟩
    · rintro ⟨⟨slot, hm, hk, hv⟩, hs⟩
      exact ⟨slot, ⟨hm, hk ▸ hs⟩, hk, hv⟩
  rw [hentries]
  by_cases hc : keys = rule.classOf among key
  · subst hc
    rw [Finmap.lookup_erase]
    refine ⟨fun hn => (Option.some_ne_none _ hn.symm).elim, fun ⟨⟨hm, hs⟩, hc⟩ => ?_⟩
    obtain ⟨slot, hslot, hk, _⟩ := mem_entries.mp hm
    have ha : among entry.1 := hk ▸ h.keys slot hslot
    rw [hl.symm _ _ hu ha ((hl.classOf_eq_iff hu ha).mp hc)] at hs
    cases hs
  · rw [Finmap.lookup_erase_ne hc, h.entries]
    refine ⟨fun ⟨hm, hkeys⟩ => ⟨⟨hm, ?_⟩, hkeys⟩, fun ⟨⟨hm, _⟩, hkeys⟩ => ⟨hm, hkeys⟩⟩
    obtain ⟨slot, hslot, hk, _⟩ := mem_entries.mp hm
    have ha : among entry.1 := hk ▸ h.keys slot hslot
    by_contra hs
    exact hc (hkeys.trans ((hl.classOf_eq_iff ha hu).mpr (by simpa using hs)))

/-- A change of the table and the same change of the map give one answer, and the table goes on
standing for the map. -/
theorem mapChange (h : Represents rule among table reference) (hl : rule.Lawful among)
    (change : MapChange κ ν) (hu : among change.key) :
    (change.apply rule table).1 = (change.refer (rule.classOf among) reference).1 ∧
      Represents rule among (change.apply rule table).2
        (change.refer (rule.classOf among) reference).2 := by
  cases change with
  | insert key value | insertShared key value =>
    refine ⟨?_, h.insert hl hu value⟩
    show (table.insertEntry rule key value).1.map (·.2) = _
    rw [Table.fst_insertEntry]
    exact congrArg (Option.map (·.2)) (h.lookup_eq hl hu).symm
  | remove key =>
    refine ⟨?_, h.erase hl hu⟩
    show (table.removeEntry rule key).1.map (·.2) = _
    rw [Table.fst_removeEntry]
    exact congrArg (Option.map (·.2)) (h.lookup_eq hl hu).symm

/-- The two ways to add an element to a set are one. -/
theorem apply_insertShared (set : KeySet κ) (key : κ) :
    (SetChange.insertShared key).apply rule set = (SetChange.insert key).apply rule set := by
  simp only [SetChange.apply, KeySet.addKey]
  cases hp : set.locate (rule.hash key) fun entry => rule.same entry key with
  | none =>
    have hc : set.contains rule key = false := by
      rw [Table.contains, (Table.locate_eq_none_iff set key).mp hp, Option.isSome_none]
    simp only [hc, Option.isSome_none, Bool.false_eq_true, if_false, Table.insert_eq, hp]
  | some position =>
    obtain ⟨_, hf⟩ := Table.find?_of_locate hp
    have hc : set.contains rule key = true := by rw [Table.contains, hf, Option.isSome_some]
    simp only [hc, Option.isSome_some, if_true]

/-- The same for a set, where an element that is there stays. -/
theorem setChange {table : KeySet κ} {reference : ClassMap κ Unit}
    (h : Represents rule among table reference) (hl : rule.Lawful among) (change : SetChange κ)
    (hu : among change.key) :
    (change.apply rule table).1 = (change.refer (rule.classOf among) reference).1 ∧
      Represents rule among (change.apply rule table).2
        (change.refer (rule.classOf among) reference).2 := by
  have hadd : ∀ key, among key →
      ((SetChange.insert key).apply rule table).1 =
          ((SetChange.insert key).refer (rule.classOf among) reference).1 ∧
        Represents rule among ((SetChange.insert key).apply rule table).2
          ((SetChange.insert key).refer (rule.classOf among) reference).2 := by
    intro key hu
    simp only [SetChange.apply, SetChange.refer, KeySet.addKey, h.contains_eq hl hu]
    by_cases hc : rule.classOf among key ∈ reference
    · simp only [hc, decide_true, if_true]
      exact ⟨trivial, h⟩
    · simp only [hc, decide_false, Bool.false_eq_true, if_false]
      exact ⟨trivial, h.insert hl hu ()⟩
  cases change with
  | insert key => exact hadd key hu
  | insertShared key => rw [apply_insertShared]; exact hadd key hu
  | remove key =>
    refine ⟨?_, h.erase hl hu⟩
    show (table.removeEntry rule key).1.isSome = _
    rw [Table.fst_removeEntry, Option.isSome_map]
    exact h.contains_eq hl hu

end Represents

/-- Runs of changes on both sides, from states that stand for each other, give the same answers and end
in states that stand for each other. -/
theorem runChanges_simulates {σ ρ γ α : Type} (relates : σ → ρ → Prop) {step : σ → γ → α × σ}
    {refer : ρ → γ → α × ρ} {allowed : γ → Prop}
    (hstep : ∀ s r change, relates s r → allowed change →
      (step s change).1 = (refer r change).1 ∧ relates (step s change).2 (refer r change).2) :
    ∀ (changes : List γ) (s : σ) (r : ρ), relates s r → (∀ change ∈ changes, allowed change) →
      (runChanges step s changes).1 = (runChanges refer r changes).1 ∧
        relates (runChanges step s changes).2 (runChanges refer r changes).2
  | [], _, _, h, _ => ⟨rfl, h⟩
  | change :: rest, s, r, h, ha => by
    obtain ⟨hanswer, hnext⟩ := hstep s r change h (ha change List.mem_cons_self)
    obtain ⟨hanswers, hlast⟩ := runChanges_simulates relates hstep rest _ _ hnext
      fun other ho => ha other (List.mem_cons_of_mem _ ho)
    exact ⟨congrArg₂ List.cons hanswer hanswers, hlast⟩

/-! ## Answers -/

/-- A table answers every question as a finite map on classes does. -/
structure Answers (rule : KeyRule κ) (among : κ → Prop) (table : Table κ ν)
    (reference : ClassMap κ ν) : Prop where
  get : ∀ key, among key → table.get? rule key = reference.value? (rule.classOf among key)
  contains : ∀ key, among key →
    table.contains rule key = decide (rule.classOf among key ∈ reference)
  count : table.count = reference.keys.card
  isEmpty : table.count = 0 ↔ reference = ∅
  contents : (table.entries : Multiset (κ × ν)) = reference.contents

theorem Represents.answers {table : Table κ ν} {reference : ClassMap κ ν}
    (h : Represents rule among table reference) (hl : rule.Lawful among) :
    Answers rule among table reference where
  get _ hu := h.get?_eq hl hu
  contains _ hu := h.contains_eq hl hu
  count := h.count_eq hl
  isEmpty := by
    rw [h.count_eq hl, Finset.card_eq_zero]
    refine ⟨fun he => ?_, fun he => he ▸ Finmap.keys_empty⟩
    refine Finmap.ext_lookup fun keys => ?_
    rw [Finmap.lookup_empty, Finmap.lookup_eq_none, ← Finmap.mem_keys, he]
    exact Finset.notMem_empty keys
  contents := h.entries_eq hl

end Ckl.Collection
