import Ckl.Proofs.Collection.Slots
import Mathlib.Data.List.Pairwise

/-!
# Finding entries by their keys

A rule is coherent for some keys if being the same is symmetric and transitive on them and same keys
have one hash; it is lawful if every key is the same as itself, too. For such keys a table is `Sound` if
every entry was filed under the hash of its key and no two entries have the same key, and then looking a
key up finds an entry of that key exactly if there is one.
Storing and removing keep soundness (`Sound.insert`, `Sound.erase`), and one table whose keys are all
found in another one of the same size has all keys of that one (`Sound.find?_back`).
-/

namespace Ckl.Collection

namespace KeyRule

variable {κ : Type}

/-- On some keys, being the same is symmetric and transitive, and hashes respect it. -/
structure Coherent (rule : KeyRule κ) (among : κ → Prop) : Prop where
  symm : ∀ a b, among a → among b → rule.same a b = true → rule.same b a = true
  trans : ∀ a b c, among a → among b → among c → rule.same a b = true → rule.same b c = true →
    rule.same a c = true
  hash_eq : ∀ a b, among a → among b → rule.same a b = true → rule.hash a = rule.hash b

/-- On some keys, being the same is an equivalence relation that hashes respect. -/
structure Lawful (rule : KeyRule κ) (among : κ → Prop) : Prop extends Coherent rule among where
  refl : ∀ a, among a → rule.same a a = true

/-- Two keys that are not the same, whichever is compared with which. -/
def Apart (rule : KeyRule κ) (a b : κ) : Prop := rule.same a b = false ∧ rule.same b a = false

theorem Apart.symm {rule : KeyRule κ} {a b : κ} (h : rule.Apart a b) : rule.Apart b a := ⟨h.2, h.1⟩

instance {ν : Type} (rule : KeyRule κ) :
    Std.Symm fun a b : Slot κ ν => rule.Apart a.key b.key := ⟨fun _ _ h => h.symm⟩

end KeyRule

namespace Table

variable {κ ν : Type} {rule : KeyRule κ} {among : κ → Prop}

/-- A table as insertions leave it: each entry is filed under the hash of its key, and no two entries
have the same key. -/
structure Sound (rule : KeyRule κ) (table : Table κ ν) : Prop extends Shelved table where
  hashed : ∀ slot ∈ table.slots, slot.hash = rule.hash slot.key
  distinct : table.slots.Pairwise fun a b => rule.Apart a.key b.key

theorem sound_empty : (empty : Table κ ν).Sound rule where
  toShelved := shelved_empty
  hashed := by simp only [slots_empty, List.not_mem_nil, false_implies, implies_true]
  distinct := slots_empty ▸ List.Pairwise.nil

/-- Of the same key there is one entry. -/
theorem Sound.eq_of_same {table : Table κ ν} (h : table.Sound rule) {a b : Slot κ ν}
    (ha : a ∈ table.slots) (hb : b ∈ table.slots) (hs : rule.same a.key b.key = true) : a = b := by
  by_contra hne
  rw [(h.distinct.forall ha hb hne).1] at hs
  cases hs

/-! ## Looking up -/

theorem mem_of_find? {table : Table κ ν} (h : table.Shelved) {key : κ} {slot : Slot κ ν}
    (hf : table.find? rule key = some slot) :
    slot ∈ table.slots ∧ rule.same slot.key key = true :=
  ⟨(h.mem_bucket_iff.mp (List.mem_of_find?_eq_some hf)).1,
    by simpa using List.find?_some hf⟩

/-- If there is an entry of the same key under the same hash, one is found. -/
theorem Sound.exists_find? {table : Table κ ν} (h : table.Sound rule) {key : κ} {slot : Slot κ ν}
    (hm : slot ∈ table.slots) (hs : rule.same slot.key key = true)
    (hh : rule.hash slot.key = rule.hash key) : ∃ found, table.find? rule key = some found := by
  have hbucket : slot ∈ table.bucket (rule.hash key) :=
    h.mem_bucket_iff.mpr ⟨hm, by rw [h.hashed slot hm, hh]⟩
  cases hf : table.find? rule key with
  | none => exact absurd hs (by simpa using List.find?_eq_none.mp hf slot hbucket)
  | some found => exact ⟨found, rfl⟩

/-- A key is found exactly if the table has an entry of it. -/
theorem Sound.find?_eq_some_iff {table : Table κ ν} (h : table.Sound rule) (hl : rule.Coherent among)
    (hk : ∀ slot ∈ table.slots, among slot.key) {key : κ} (hu : among key) {slot : Slot κ ν} :
    table.find? rule key = some slot ↔ slot ∈ table.slots ∧ rule.same slot.key key = true := by
  refine ⟨mem_of_find? h.toShelved, fun ⟨hm, hs⟩ => ?_⟩
  obtain ⟨other, hf⟩ := h.exists_find? hm hs (hl.hash_eq _ _ (hk slot hm) hu hs)
  obtain ⟨ho, hso⟩ := mem_of_find? h.toShelved hf
  have hback := hl.symm _ _ (hk slot hm) hu hs
  rw [hf, h.eq_of_same ho hm (hl.trans _ _ _ (hk other ho) hu (hk slot hm) hso hback)]

/-- Locating a key finds the position of the entry that looking it up finds. -/
theorem find?_eq_locate (table : Table κ ν) (key : κ) :
    table.find? rule key =
      (table.locate (rule.hash key) fun entry => rule.same entry key).bind
        fun position => (table.bucket (rule.hash key))[position]? := by
  simp only [find?, locate]
  generalize table.bucket (rule.hash key) = bucket
  induction bucket with
  | nil => rfl
  | cons slot rest ih =>
    rw [List.find?_cons, List.findIdx?_cons]
    cases hs : rule.same slot.key key with
    | true => rfl
    | false =>
      simp only [Bool.false_eq_true, if_false, ih, Option.bind_map]
      rfl

theorem locate_eq_none_iff (table : Table κ ν) (key : κ) :
    (table.locate (rule.hash key) fun entry => rule.same entry key) = none ↔
      table.find? rule key = none := by
  simp only [find?, locate, List.findIdx?_eq_none_iff, List.find?_eq_none, Bool.not_eq_true]

/-- Where a key is located, its bucket has the entry that looking the key up finds. -/
theorem find?_of_locate {table : Table κ ν} {key : κ} {position : Nat}
    (hp : (table.locate (rule.hash key) fun entry => rule.same entry key) = some position) :
    ∃ h : position < (table.bucket (rule.hash key)).length,
      table.find? rule key = some (table.bucket (rule.hash key))[position] := by
  obtain ⟨h, _⟩ := List.findIdx?_eq_some_iff_getElem.mp hp
  refine ⟨h, ?_⟩
  rw [find?_eq_locate, hp, Option.bind_some, List.getElem?_eq_getElem h]

/-- Storing gives the entry that the key has had. -/
theorem fst_insertEntry (table : Table κ ν) (key : κ) (value : ν) :
    (table.insertEntry rule key value).1 =
      (table.find? rule key).map fun slot => (slot.key, slot.value) := by
  rw [find?_eq_locate, insertEntry]
  cases table.locate (rule.hash key) fun entry => rule.same entry key with
  | none => rfl
  | some position => rfl

/-- Removing gives the entry that the key has had. -/
theorem fst_removeEntry (table : Table κ ν) (key : κ) :
    (table.removeEntry rule key).1 =
      (table.find? rule key).map fun slot => (slot.key, slot.value) := by
  rw [find?_eq_locate, removeEntry]
  cases table.locate (rule.hash key) fun entry => rule.same entry key with
  | none => rfl
  | some position => rfl

/-! ## Looking up all of a table in another one -/

/-- If each element of a list is related to one of a list that is no longer, and no two of them to the
same one, then every element of that list is related to one. -/
theorem exists_related {α β : Type} {related : α → β → Prop} :
    ∀ {as : List α} {bs : List β}, bs.length ≤ as.length → (∀ a ∈ as, ∃ b ∈ bs, related a b) →
      as.Pairwise (fun a a' => ∀ b ∈ bs, related a b → ¬ related a' b) →
      ∀ b ∈ bs, ∃ a ∈ as, related a b
  | [], bs, hlen, _, _ => by
    rw [List.eq_nil_of_length_eq_zero (Nat.le_zero.mp hlen)]
    exact fun b hb => absurd hb List.not_mem_nil
  | a :: as, bs, hlen, hall, hapart => by
    obtain ⟨hhead, htail⟩ := List.pairwise_cons.mp hapart
    obtain ⟨taken, hmem, hrel⟩ := hall a List.mem_cons_self
    obtain ⟨before, after, rfl⟩ := List.append_of_mem hmem
    have hsub : ∀ b, b ∈ before ++ after → b ∈ before ++ taken :: after := fun b hb =>
      List.mem_append.mpr ((List.mem_append.mp hb).imp_right (List.mem_cons_of_mem _))
    have hrest : ∀ b ∈ before ++ after, ∃ a' ∈ as, related a' b := by
      refine exists_related ?_ (fun a' ha' => ?_) (htail.imp fun h b hb => h b (hsub b hb))
      · simp only [List.length_append, List.length_cons] at hlen ⊢
        omega
      · obtain ⟨b, hb, hr⟩ := hall a' (List.mem_cons_of_mem _ ha')
        rcases List.mem_append.mp hb with hbefore | hafter
        · exact ⟨b, List.mem_append_left _ hbefore, hr⟩
        rcases List.mem_cons.mp hafter with rfl | hafter
        · exact absurd hr (hhead a' ha' b hmem hrel)
        · exact ⟨b, List.mem_append_right _ hafter, hr⟩
    intro b hb
    rcases List.mem_append.mp hb with hbefore | hafter
    · obtain ⟨a', ha', hr⟩ := hrest b (List.mem_append_left _ hbefore)
      exact ⟨a', List.mem_cons_of_mem _ ha', hr⟩
    rcases List.mem_cons.mp hafter with rfl | hafter
    · exact ⟨a, List.mem_cons_self, hrel⟩
    · obtain ⟨a', ha', hr⟩ := hrest b (List.mem_append_right _ hafter)
      exact ⟨a', List.mem_cons_of_mem _ ha', hr⟩

/-- If all keys of a table are found in another one that has no more entries, then all keys of that
one are found in the first, and each pair of entries finds each other. -/
theorem Sound.find?_back {table other : Table κ ν} (h : table.Sound rule) (ho : other.Sound rule)
    (hl : rule.Coherent among) (hk : ∀ slot ∈ table.slots, among slot.key)
    (hko : ∀ slot ∈ other.slots, among slot.key) (hcount : other.count ≤ table.count)
    (hall : ∀ slot ∈ table.slots, ∃ found, other.find? rule slot.key = some found) :
    ∀ found ∈ other.slots, ∃ slot ∈ table.slots,
      other.find? rule slot.key = some found ∧ table.find? rule found.key = some slot := by
  have hiff : ∀ {slot found}, slot ∈ table.slots → (other.find? rule slot.key = some found ↔
      found ∈ other.slots ∧ rule.same found.key slot.key = true) :=
    fun hs => ho.find?_eq_some_iff hl hko (hk _ hs)
  intro found hf
  obtain ⟨slot, hs, hrel⟩ := @exists_related _ _
    (fun slot found => rule.same found.key slot.key = true) table.slots other.slots
    (by rw [← h.counted, ← ho.counted]; exact hcount)
    (fun slot hs => by
      obtain ⟨found, hfound⟩ := hall slot hs
      exact ⟨found, (hiff hs).mp hfound⟩)
    (h.distinct.imp_of_mem fun {a a'} ha ha' hapart found hf hr hr' => by
      -- two entries found at one place would have the same key
      have hback := hl.symm _ _ (hko found hf) (hk a ha) hr
      have hsame := hl.trans _ _ _ (hk a ha) (hko found hf) (hk a' ha') hback hr'
      rw [hapart.1] at hsame
      cases hsame) found hf
  have hback := hl.symm _ _ (hko found hf) (hk slot hs) hrel
  exact ⟨slot, hs, (hiff hs).mpr ⟨hf, hrel⟩,
    (h.find?_eq_some_iff hl hk (hko found hf)).mpr ⟨hs, hback⟩⟩

/-- What is found for a key that has been found is found for the first key too. -/
theorem Sound.find?_trans {μ : Type} {table : Table κ ν} {other : Table κ μ} (h : table.Sound rule)
    (ho : other.Sound rule) (hl : rule.Coherent among) (hk : ∀ slot ∈ table.slots, among slot.key)
    (hko : ∀ slot ∈ other.slots, among slot.key) {key : κ} (hu : among key) {slot : Slot κ ν}
    {found : Slot κ μ} (hs : table.find? rule key = some slot)
    (hf : other.find? rule slot.key = some found) : other.find? rule key = some found := by
  obtain ⟨hm, hsame⟩ := mem_of_find? h.toShelved hs
  obtain ⟨hmf, hsamef⟩ := mem_of_find? ho.toShelved hf
  exact (ho.find?_eq_some_iff hl hko hu).mpr
    ⟨hmf, hl.trans _ _ _ (hko found hmf) (hk slot hm) hu hsamef hsame⟩

/-! ## Storing and removing -/

/-- The entries of other keys. -/
def others (rule : KeyRule κ) (table : Table κ ν) (key : κ) : List (Slot κ ν) :=
  table.slots.filter fun slot => !rule.same slot.key key

theorem mem_others {table : Table κ ν} {key : κ} {slot : Slot κ ν} :
    slot ∈ table.others rule key ↔ slot ∈ table.slots ∧ rule.same slot.key key = false := by
  simp only [others, List.mem_filter, Bool.not_eq_eq_eq_not, Bool.not_true]

/-- Without an entry of a key, all entries are of other keys. -/
theorem Sound.others_of_none {table : Table κ ν} (h : table.Sound rule) (hl : rule.Coherent among)
    (hk : ∀ slot ∈ table.slots, among slot.key) {key : κ} (hu : among key)
    (hf : table.find? rule key = none) : table.others rule key = table.slots := by
  refine List.filter_eq_self.mpr fun slot hm => ?_
  by_contra hs
  have hsame : rule.same slot.key key = true := by simpa using hs
  rw [(h.find?_eq_some_iff hl hk hu).mpr ⟨hm, hsame⟩] at hf
  cases hf

/-- If all entries but one are listed, and that one has a key, the others are of other keys. -/
theorem Sound.others_of_some {table : Table κ ν} (h : table.Sound rule) (hl : rule.Coherent among)
    (hk : ∀ slot ∈ table.slots, among slot.key) {key : κ} (hu : among key) {slot : Slot κ ν}
    {rest : List (Slot κ ν)} (hs : rule.same slot.key key = true)
    (hp : table.slots.Perm (slot :: rest)) : (table.others rule key).Perm rest := by
  have hm : slot ∈ table.slots := hp.symm.subset List.mem_cons_self
  have hd := (hp.pairwise_iff fun hab => KeyRule.Apart.symm hab).mp h.distinct
  have hrest : rest.filter (fun other => !rule.same other.key key) = rest := by
    refine List.filter_eq_self.mpr fun other ho => ?_
    have hmo : other ∈ table.slots := hp.symm.subset (List.mem_cons_of_mem _ ho)
    by_contra hso
    have hback := hl.symm _ _ (hk slot hm) hu hs
    have hsame := hl.trans _ _ _ (hk other hmo) hu (hk slot hm) (by simpa using hso) hback
    rw [((List.pairwise_cons.mp hd).1 other ho).2] at hsame
    cases hsame
  have hfilter := hp.filter fun other => !rule.same other.key key
  rw [List.filter_cons_of_neg (by simp only [hs, Bool.not_true, Bool.false_eq_true, not_false_eq_true]),
    hrest] at hfilter
  exact hfilter

/-- A sound table with an entry of a key that no other entry has. -/
theorem Sound.of_perm {table changed : Table κ ν} (h : table.Sound rule) (hl : rule.Coherent among)
    (hk : ∀ slot ∈ table.slots, among slot.key) {key : κ} {value : ν} (hu : among key)
    (hc : changed.Shelved)
    (hp : changed.slots.Perm (⟨rule.hash key, key, value⟩ :: table.others rule key)) :
    changed.Sound rule where
  toShelved := hc
  hashed slot hm := by
    rcases List.mem_cons.mp (hp.subset hm) with rfl | ho
    · rfl
    · exact h.hashed slot (mem_others.mp ho).1
  distinct := by
    refine (hp.pairwise_iff fun hab => KeyRule.Apart.symm hab).mpr (List.pairwise_cons.mpr ⟨?_, ?_⟩)
    · intro slot ho
      obtain ⟨hm, hs⟩ := mem_others.mp ho
      refine ⟨?_, hs⟩
      by_contra hkey
      have := hl.symm _ _ hu (hk slot hm) (by simpa using hkey)
      rw [hs] at this
      cases this
    · exact h.distinct.filter _

/-- Storing under a key replaces its entry, or adds one if it has none. -/
theorem Sound.insert {table : Table κ ν} (h : table.Sound rule) (hl : rule.Coherent among)
    (hk : ∀ slot ∈ table.slots, among slot.key) {key : κ} (hu : among key) (value : ν) :
    (table.insert rule key value).Sound rule ∧
      (table.insert rule key value).slots.Perm
        (⟨rule.hash key, key, value⟩ :: table.others rule key) := by
  suffices hp : (table.insert rule key value).Shelved ∧ (table.insert rule key value).slots.Perm
      (⟨rule.hash key, key, value⟩ :: table.others rule key) from
    ⟨h.of_perm hl hk hu hp.1 hp.2, hp.2⟩
  simp only [Table.insert_eq]
  cases hp : table.locate (rule.hash key) fun entry => rule.same entry key with
  | none =>
    rw [h.others_of_none hl hk hu ((locate_eq_none_iff table key).mp hp)]
    exact h.toShelved.place_none _
  | some position =>
    obtain ⟨hlt, hf⟩ := find?_of_locate hp
    obtain ⟨hshelved, rest, hold, hnew⟩ :=
      h.toShelved.place_some ⟨rule.hash key, key, value⟩ hlt
    obtain ⟨hm, hs⟩ := mem_of_find? h.toShelved hf
    have hhash := (h.hashed _ hm).trans (hl.hash_eq _ _ (hk _ hm) hu hs)
    rw [hhash] at hnew
    exact ⟨hshelved, hnew.trans ((h.others_of_some hl hk hu hs hold).symm.cons _)⟩

/-- Storing under a key changes what is found under that key alone. -/
theorem Sound.find?_insert {table : Table κ ν} (h : table.Sound rule) (hl : rule.Coherent among)
    (hk : ∀ slot ∈ table.slots, among slot.key) {key other : κ} (hu : among key) (ho : among other)
    (value : ν) :
    (table.insert rule key value).find? rule other =
      if rule.same key other = true then some ⟨rule.hash key, key, value⟩ else table.find? rule other := by
  obtain ⟨hsound, hperm⟩ := h.insert hl hk hu value
  have hslots : ∀ slot ∈ (table.insert rule key value).slots, among slot.key := by
    intro slot hslot
    rcases List.mem_cons.mp (hperm.subset hslot) with rfl | hold
    · exact hu
    · exact hk slot (mem_others.mp hold).1
  split
  · next hsame =>
    apply (hsound.find?_eq_some_iff hl hslots ho).mpr
    exact ⟨hperm.symm.subset List.mem_cons_self, hsame⟩
  · next hdiffers =>
    ext slot
    rw [hsound.find?_eq_some_iff hl hslots ho, h.find?_eq_some_iff hl hk ho, hperm.mem_iff, List.mem_cons,
      mem_others]
    constructor
    · rintro ⟨rfl | ⟨hold, -⟩, hsame⟩
      · exact absurd hsame hdiffers
      · exact ⟨hold, hsame⟩
    · rintro ⟨hold, hsame⟩
      refine ⟨.inr ⟨hold, ?_⟩, hsame⟩
      rw [← Bool.not_eq_true]
      intro hkey
      have hback := hl.symm _ _ (hk slot hold) hu hkey
      exact hdiffers (hl.trans _ _ _ hu (hk slot hold) ho hback hsame)

/-- Storing adds an entry exactly if the key has none. -/
theorem count_insert (table : Table κ ν) (key : κ) (value : ν) :
    (table.insert rule key value).count =
      if (table.find? rule key).isSome then table.count else table.count + 1 := by
  have hfit : ∀ other : Table κ ν, other.fit.count = other.count := by
    intro other
    unfold fit
    dsimp only
    split <;> rfl
  simp only [Table.insert_eq]
  cases hlocate : table.locate (rule.hash key) fun entry => rule.same entry key with
  | none => simp [place_none, hfit, (locate_eq_none_iff table key).mp hlocate]
  | some position =>
    obtain ⟨_, hfind⟩ := find?_of_locate hlocate
    simp [place_some, hfind]

/-- A key that is none of those of a table gets an entry beside the others. -/
theorem Sound.insert_new {table : Table κ ν} (h : table.Sound rule) (hl : rule.Coherent among)
    (hk : ∀ slot ∈ table.slots, among slot.key) {key : κ} (hu : among key)
    (hnew : ∀ slot ∈ table.slots, rule.same slot.key key = false) (value : ν) :
    table.contains rule key = false ∧ (table.insert rule key value).Sound rule ∧
      (table.insert rule key value).slots.Perm (⟨rule.hash key, key, value⟩ :: table.slots) := by
  have hnone : table.find? rule key = none := by
    cases hf : table.find? rule key with
    | none => rfl
    | some slot =>
      obtain ⟨hm, hs⟩ := mem_of_find? h.toShelved hf
      rw [hnew slot hm] at hs
      cases hs
  have hinsert := h.insert hl hk hu value
  rw [h.others_of_none hl hk hu hnone] at hinsert
  exact ⟨by rw [contains, hnone, Option.isSome_none], hinsert⟩

/-- Removing a key removes its entry. -/
theorem Sound.erase {table : Table κ ν} (h : table.Sound rule) (hl : rule.Coherent among)
    (hk : ∀ slot ∈ table.slots, among slot.key) {key : κ} (hu : among key) :
    (table.erase rule key).Sound rule ∧
      (table.erase rule key).slots.Perm (table.others rule key) := by
  suffices hp : (table.erase rule key).Shelved ∧
      (table.erase rule key).slots.Perm (table.others rule key) by
    refine ⟨⟨hp.1, fun slot hm => ?_, ?_⟩, hp.2⟩
    · exact h.hashed slot (mem_others.mp (hp.2.subset hm)).1
    · exact (hp.2.pairwise_iff fun hab => KeyRule.Apart.symm hab).mpr (h.distinct.filter _)
  simp only [Table.erase_eq]
  cases hp : table.locate (rule.hash key) fun entry => rule.same entry key with
  | none =>
    rw [h.others_of_none hl hk hu ((locate_eq_none_iff table key).mp hp)]
    exact ⟨h.toShelved, List.Perm.refl _⟩
  | some position =>
    obtain ⟨hlt, hf⟩ := find?_of_locate hp
    obtain ⟨hshelved, hold⟩ := h.toShelved.dropSlot hlt
    have hs := (mem_of_find? h.toShelved hf).2
    exact ⟨hshelved.fit, (perm_slots_fit hshelved.size_pos).trans
      (h.others_of_some hl hk hu hs hold).symm⟩

/-- Another rule that reads the keys of a table alike. -/
theorem Sound.congr {table : Table κ ν} {rule' : KeyRule κ} (h : table.Sound rule)
    (hh : ∀ key ∈ table.keys, rule.hash key = rule'.hash key)
    (hs : ∀ a ∈ table.keys, ∀ b ∈ table.keys, rule.same a b = rule'.same a b) : table.Sound rule' where
  toShelved := h.toShelved
  hashed slot hm := (h.hashed slot hm).trans (hh _ (List.mem_map_of_mem hm))
  distinct := h.distinct.imp_of_mem fun ha hb hapart =>
    ⟨(hs _ (List.mem_map_of_mem ha) _ (List.mem_map_of_mem hb)).symm.trans hapart.1,
      (hs _ (List.mem_map_of_mem hb) _ (List.mem_map_of_mem ha)).symm.trans hapart.2⟩

end Table

namespace KeySet

variable {κ : Type} {rule : KeyRule κ} {among : κ → Prop}

/-- A key that is none of those of a set is added to them. -/
theorem sound_add {set : KeySet κ} (h : set.Sound rule) (hl : rule.Coherent among)
    (hk : ∀ slot ∈ set.slots, among slot.key) {key : κ} (hu : among key)
    (hnew : ∀ slot ∈ set.slots, rule.same slot.key key = false) :
    (add rule set key).Sound rule ∧ (add rule set key).keys.Perm (key :: set.keys) := by
  obtain ⟨habsent, hsound, hperm⟩ := h.insert_new hl hk hu hnew ()
  have hadd : add rule set key = set.insert rule key () := by
    rw [add_eq, habsent, if_neg Bool.false_ne_true]
  rw [hadd]
  exact ⟨hsound, hperm.map Slot.key⟩

/-- The set of some keys, no two of them the same, has these keys. -/
theorem sound_addAll (hl : rule.Coherent among) {keys : List κ} :
    ∀ {set : KeySet κ}, set.Sound rule → (∀ slot ∈ set.slots, among slot.key) →
      (∀ key ∈ keys, among key) → keys.Pairwise rule.Apart →
      (∀ key ∈ keys, ∀ slot ∈ set.slots, rule.same slot.key key = false) →
      (addAll rule set keys).Sound rule ∧ (addAll rule set keys).keys.Perm (keys ++ set.keys) := by
  induction keys with
  | nil => exact fun h _ _ _ _ => ⟨h, List.Perm.refl _⟩
  | cons key keys ih =>
    intro set h hk hu hapart hnew
    obtain ⟨hhead, htail⟩ := List.pairwise_cons.mp hapart
    obtain ⟨hsound, hperm⟩ :=
      sound_add h hl hk (hu key List.mem_cons_self) (hnew key List.mem_cons_self)
    have hslots : ∀ slot ∈ (add rule set key).slots,
        slot.key = key ∨ ∃ old ∈ set.slots, old.key = slot.key := by
      intro slot hs
      rcases List.mem_cons.mp (hperm.subset (List.mem_map_of_mem hs)) with heq | hold
      · exact .inl heq
      · exact .inr (List.mem_map.mp hold)
    obtain ⟨hlast, hkeys⟩ := ih hsound
      (fun slot hs => by
        rcases hslots slot hs with heq | ⟨old, ho, heq⟩
        · exact heq ▸ hu key List.mem_cons_self
        · exact heq ▸ hk old ho)
      (fun other ho => hu other (List.mem_cons_of_mem _ ho)) htail
      (fun other ho slot hs => by
        rcases hslots slot hs with heq | ⟨old, hold, heq⟩
        · exact heq ▸ (hhead other ho).1
        · exact heq ▸ hnew other (List.mem_cons_of_mem _ ho) old hold)
    refine ⟨hlast, hkeys.trans ?_⟩
    exact (hperm.append_left keys).trans List.perm_middle

theorem sound_ofList (hl : rule.Coherent among) {keys : List κ} (hu : ∀ key ∈ keys, among key)
    (hapart : keys.Pairwise rule.Apart) :
    (ofList rule keys).Sound rule ∧ (ofList rule keys).keys.Perm keys := by
  have hnone : ∀ slot, slot ∉ (Table.empty : KeySet κ).slots := by
    rw [Table.slots_empty]
    exact fun _ => List.not_mem_nil
  obtain ⟨hsound, hperm⟩ := sound_addAll hl Table.sound_empty
    (fun slot hs => absurd hs (hnone slot)) hu hapart fun _ _ slot hs => absurd hs (hnone slot)
  refine ⟨hsound, hperm.trans ?_⟩
  rw [Table.keys, Table.slots_empty, List.map_nil, List.append_nil]

end KeySet

end Ckl.Collection
