import Ckl.Proofs.Collection.Lookup
import Ckl.Proofs.Number.Conversion
import Ckl.Proofs.Value.Atom
import Mathlib.Data.List.Nodup

/-!
# Equality of values

`Same` says case by case when two values are equal, and `equal_iff` that equality of acyclic values is
this. The elements of a set are looked up in another one from one side only, so that symmetry has to
count: if no two elements find the same one, and there are no more of them on the other side, each one
there is found. That no two find the same one takes transitivity, which fails where two different
integers equal one decimal (`Folds`). Elsewhere `Universe.equalityLaws` has both laws.
-/

namespace Ckl

open Collection (Table KeySet KeyRule)
open Number (ofWhole)

/-- What two values have in common if they are equal. -/
inductive Store.Same (store : Store) : Value → Value → Prop
  | refl (a : Value) : (∀ x, a ≠ .decimal x) → Same store a a
  | decimals {x y : Float} : (x == y) = true → Same store (.decimal x) (.decimal y)
  | wholeDecimal {n : Int64} {x : Float} : (ofWhole n == x) = true → Same store (.int n) (.decimal x)
  | decimalWhole {x : Float} {n : Int64} : (x == ofWhole n) = true → Same store (.decimal x) (.int n)
  | list {a b : Ref .list} :
      List.Forall₂ (fun p q => store.equal p q = true) (store.items a).toList (store.items b).toList →
      Same store (.list a) (.list b)
  | set {a b : Ref .set} : (store.keySet a).count = (store.keySet b).count →
      (∀ key ∈ (store.keySet a).keys, ∃ slot, (store.keySet b).find? store.keyRule key = some slot) →
      Same store (.set a) (.set b)
  | map {a b : Ref .map} : (store.table a).count = (store.table b).count →
      (∀ entry ∈ (store.table a).entries, ∃ slot,
        (store.table b).find? store.keyRule entry.1 = some slot ∧
          store.equal entry.2 slot.value = true) →
      Same store (.map a) (.map b)
  | object {a b : Ref .object} : (store.members a).size = (store.members b).size →
      (∀ entry ∈ (store.members a).entries, ∃ value,
        (store.members b).get? entry.1 = some value ∧ store.equal entry.2 value = true) →
      Same store (.object a) (.object b)

namespace Store

variable {store : Store}

/-- Lists of the same length that agree at every place are related element by element. -/
theorem all_zip_iff {α : Type} {related : α → α → Bool} :
    ∀ {as bs : List α}, (as.length == bs.length &&
      (as.zip bs).all fun pair => related pair.1 pair.2) = true ↔
        List.Forall₂ (fun a b => related a b = true) as bs
  | [], [] => by simp only [List.length_nil, List.zip_nil_left, List.all_nil, beq_self_eq_true,
      Bool.and_self, List.Forall₂.nil]
  | [], _ :: _ => by simp
  | _ :: _, [] => by simp
  | a :: as, b :: bs => by
    rw [List.forall₂_cons, ← @all_zip_iff _ related as bs]
    simp only [List.length_cons, List.zip_cons_cons, List.all_cons, Bool.and_eq_true, beq_iff_eq,
      Nat.add_right_cancel_iff]
    exact and_left_comm

/-- All keys are in the table exactly if each of them is found. -/
theorem all_contains_iff {ν : Type} {rule : KeyRule Value} {keys : List Value} {table : Table Value ν} :
    keys.all (table.contains rule) = true ↔
      ∀ key ∈ keys, ∃ slot, table.find? rule key = some slot := by
  simp only [List.all_eq_true, Table.contains, Option.isSome_iff_exists]

/-- An optional value has a property exactly if it is there and has it. -/
theorem any_eq_true_iff {α : Type} {found : Option α} {p : α → Bool} :
    found.any p = true ↔ ∃ a, found = some a ∧ p a = true := by
  cases found with
  | none => simp only [Option.any_none, Bool.false_eq_true, reduceCtorEq, false_and, exists_false]
  | some a => simp only [Option.any_some, Option.some.injEq, exists_eq_left']

/-- The value of a key has a property exactly if the key is found with such a value. -/
theorem get?_any_iff {rule : KeyRule Value} {table : Table Value Value} {key : Value}
    {p : Value → Bool} :
    (table.get? rule key).any p = true ↔
      ∃ slot, table.find? rule key = some slot ∧ p slot.value = true := by
  rw [any_eq_true_iff, Table.get?]
  constructor
  · rintro ⟨value, hv, hp⟩
    obtain ⟨slot, hs, rfl⟩ := Option.map_eq_some_iff.mp hv
    exact ⟨slot, hs, hp⟩
  · rintro ⟨slot, hs, hp⟩
    exact ⟨slot.value, by rw [hs, Option.map_some], hp⟩

/-- One level of equality is what `Same` says. -/
theorem same_of_equalStep {a b : Value} (h : store.equalStep store.equal store.keyChars a b = true) :
    store.Same a b := by
  have hrefl : ∀ {ref ref' : Value}, (∀ x, ref ≠ .decimal x) → ref = ref' → store.Same ref ref' :=
    fun hne heq => heq ▸ .refl _ hne
  unfold equalStep at h
  split at h
  case h_4 => exact .wholeDecimal h
  case h_5 => exact .decimalWhole h
  case h_6 => exact .decimals h
  case h_10 a b =>
    rcases Bool.or_eq_true_iff.mp h with heq | hitems
    · exact hrefl nofun (congrArg Value.list (eq_of_beq heq))
    · exact .list (all_zip_iff.mp hitems)
  case h_11 a b =>
    rcases Bool.or_eq_true_iff.mp h with heq | hkeys
    · exact hrefl nofun (congrArg Value.set (eq_of_beq heq))
    · obtain ⟨hcount, hall⟩ := Bool.and_eq_true_iff.mp hkeys
      exact .set (eq_of_beq hcount) (all_contains_iff.mp hall)
  case h_12 a b =>
    rcases Bool.or_eq_true_iff.mp h with heq | hentries
    · exact hrefl nofun (congrArg Value.map (eq_of_beq heq))
    · obtain ⟨hcount, hall⟩ := Bool.and_eq_true_iff.mp hentries
      exact .map (eq_of_beq hcount) fun entry he =>
        get?_any_iff.mp (List.all_eq_true.mp hall entry he)
  case h_13 a b =>
    rcases Bool.or_eq_true_iff.mp h with heq | hmembers
    · exact hrefl nofun (congrArg Value.object (eq_of_beq heq))
    · obtain ⟨hsize, hall⟩ := Bool.and_eq_true_iff.mp hmembers
      exact .object (eq_of_beq hsize) fun entry he =>
        any_eq_true_iff.mp (List.all_eq_true.mp hall entry he)
  case h_18 => cases h
  all_goals
    first
    | exact .refl _ nofun
    | exact eq_of_beq h ▸ .refl _ nofun

/-- The same values are equal in one step. -/
theorem equalStep_of_same {a b : Value} (h : store.Same a b) :
    store.equalStep store.equal store.keyChars a b = true := by
  cases h with
  | refl _ hne =>
    cases a with
    | decimal x => exact absurd rfl (hne x)
    | null => rfl
    | _ => simp only [equalStep, beq_self_eq_true, Bool.true_or]
  | decimals h | wholeDecimal h | decimalWhole h => exact h
  | list hitems => exact Bool.or_eq_true_iff.mpr (.inr (all_zip_iff.mpr hitems))
  | set hcount hkeys =>
    exact Bool.or_eq_true_iff.mpr (.inr (Bool.and_eq_true_iff.mpr
      ⟨beq_iff_eq.mpr hcount, all_contains_iff.mpr hkeys⟩))
  | map hcount hentries =>
    exact Bool.or_eq_true_iff.mpr (.inr (Bool.and_eq_true_iff.mpr ⟨beq_iff_eq.mpr hcount,
      List.all_eq_true.mpr fun entry he => get?_any_iff.mpr (hentries entry he)⟩))
  | object hsize hmembers =>
    exact Bool.or_eq_true_iff.mpr (.inr (Bool.and_eq_true_iff.mpr ⟨beq_iff_eq.mpr hsize,
      List.all_eq_true.mpr fun entry he => any_eq_true_iff.mpr (hmembers entry he)⟩))

/-- Equality of acyclic values is what `Same` says. -/
theorem equal_iff {a b : Value} (ha : store.Acyclic a) (hb : store.Acyclic b) :
    store.equal a b = true ↔ store.Same a b := by
  rw [equal_eq ha hb]
  exact ⟨same_of_equalStep, equalStep_of_same⟩

/-! ## Universes of values -/

/-- Values that hold nothing but values among them and do not contain themselves, and whose sets and
maps have their keys filed as they read now. -/
structure Universe (store : Store) (among : Value → Prop) : Prop where
  held : ∀ value, among value → ∀ part ∈ store.held value, among part
  acyclic : ∀ value, among value → store.Acyclic value
  sets : ∀ ref, among (.set ref) → (store.keySet ref).Sound store.keyRule
  maps : ∀ ref, among (.map ref) → (store.table ref).Sound store.keyRule

/-- The elements of the sets and the keys of the maps among some values. -/
def IsKey (store : Store) (among : Value → Prop) (key : Value) : Prop :=
  (∃ ref, among (.set ref) ∧ key ∈ (store.keySet ref).keys) ∨
    ∃ ref, among (.map ref) ∧ key ∈ (store.table ref).keys

/-- Equal keys have one key text: what looking up by hashes rests on. -/
def KeysRespectEquality (store : Store) (among : Value → Prop) : Prop :=
  ∀ p q, store.IsKey among p → store.IsKey among q → store.equal p q = true → store.key p = store.key q

/-- Some values of a universe, and values among which are all that they hold. -/
structure Layer (store : Store) (among whole part : Value → Prop) : Prop where
  within : ∀ value, whole value → among value
  held : ∀ value, whole value → ∀ p ∈ store.held value, part p

/-- Among some values equality is symmetric and transitive. -/
structure EqualityLaws (store : Store) (among : Value → Prop) : Prop where
  symm : ∀ a b, among a → among b → store.equal a b = true → store.equal b a = true
  trans : ∀ a b c, among a → among b → among c → store.equal a b = true → store.equal b c = true →
    store.equal a c = true

end Store

/-- Two different integers equal one decimal, all of them among some values. -/
def Folds (among : Value → Prop) : Prop :=
  ∃ (m n : Int64) (x : Float), among (.int m) ∧ among (.int n) ∧ among (.decimal x) ∧ m ≠ n ∧
    (ofWhole m == x) = true ∧ (ofWhole n == x) = true

namespace Store

variable {store : Store} {among whole part : Value → Prop}

/-- Related lists are related in another way if their elements at the same places are. -/
theorem forall₂_imp_of_mem {α β : Type} {r s : α → β → Prop} {as : List α} {bs : List β}
    (h : List.Forall₂ r as bs) (himp : ∀ a ∈ as, ∀ b ∈ bs, r a b → s a b) : List.Forall₂ s as bs := by
  induction h with
  | nil => exact .nil
  | cons hab _ ih =>
    exact .cons (himp _ List.mem_cons_self _ List.mem_cons_self hab)
      (ih fun a ha b hb => himp a (List.mem_cons_of_mem _ ha) b (List.mem_cons_of_mem _ hb))

/-- Related lists are related on if the elements at the same places are. -/
theorem forall₂_trans_of_mem {α : Type} {r : α → α → Prop} {as bs cs : List α}
    (hab : List.Forall₂ r as bs) (hbc : List.Forall₂ r bs cs)
    (htrans : ∀ a ∈ as, ∀ b ∈ bs, ∀ c ∈ cs, r a b → r b c → r a c) : List.Forall₂ r as cs := by
  induction hab generalizing cs with
  | nil => exact hbc
  | cons h _ ih =>
    cases hbc with
    | cons h' hbc =>
      exact .cons (htrans _ List.mem_cons_self _ List.mem_cons_self _ List.mem_cons_self h h')
        (ih hbc fun a ha b hb c hc => htrans a (List.mem_cons_of_mem _ ha) b
          (List.mem_cons_of_mem _ hb) c (List.mem_cons_of_mem _ hc))

/-- The keys of a table are those of its slots. -/
theorem mem_keys {ν : Type} {table : Table Value ν} {key : Value} :
    key ∈ table.keys ↔ ∃ slot ∈ table.slots, slot.key = key := List.mem_map

/-- The value of an entry is that of its name. -/
theorem get?_of_mem {bindings : Bindings Value} {entry : String × Value} (h : entry ∈ bindings.entries) :
    bindings.get? entry.1 = some entry.2 := by
  rw [Bindings.get?]
  cases hf : bindings.entries.find? fun other => other.1 == entry.1 with
  | none => exact absurd (beq_self_eq_true entry.1) (List.find?_eq_none.mp hf entry h)
  | some other =>
    have hname : other.1 = entry.1 := by simpa using List.find?_some hf
    have hsame := List.inj_on_of_nodup_map bindings.distinct (List.mem_of_find?_eq_some hf) h hname
    rw [Option.map_some, hsame]

/-- The value of a name comes from an entry. -/
theorem mem_of_get? {bindings : Bindings Value} {name : String} {value : Value}
    (h : bindings.get? name = some value) : (name, value) ∈ bindings.entries := by
  obtain ⟨entry, hf, rfl⟩ := Option.map_eq_some_iff.mp h
  have hname : entry.1 = name := by simpa using List.find?_some hf
  exact hname ▸ List.mem_of_find?_eq_some hf

/-- The keys of the tables of some values, as far as the laws hold for what these values hold. -/
theorem EqualityLaws.coherent (h : store.EqualityLaws part)
    (hkeys : store.KeysRespectEquality among) :
    store.keyRule.Coherent fun key => part key ∧ store.IsKey among key where
  symm a b ha hb := h.symm a b ha.1 hb.1
  trans a b c ha hb hc := h.trans a b c ha.1 hb.1 hc.1
  hash_eq a b ha hb hs := congrArg Text.hash (hkeys a b ha.2 hb.2 hs)

/-- The keys of a set in the layer are parts, and keys for the maps and sets. -/
theorem Layer.keys_of_set (h : store.Layer among whole part) {ref : Ref .set} (hr : whole (.set ref)) :
    ∀ slot ∈ (store.keySet ref).slots, part slot.key ∧ store.IsKey among slot.key := fun slot hs =>
  ⟨h.held _ hr _ (mem_keys.mpr ⟨slot, hs, rfl⟩), .inl ⟨ref, h.within _ hr, mem_keys.mpr ⟨slot, hs, rfl⟩⟩⟩

/-- The keys of a map in the layer are parts, and keys for the maps and sets. -/
theorem Layer.keys_of_map (h : store.Layer among whole part) {ref : Ref .map} (hr : whole (.map ref)) :
    ∀ slot ∈ (store.table ref).slots, part slot.key ∧ store.IsKey among slot.key := fun slot hs =>
  ⟨h.held _ hr _ (mem_held_map.mpr ⟨_, Table.entry_mem hs, .inl rfl⟩),
    .inr ⟨ref, h.within _ hr, mem_keys.mpr ⟨slot, hs, rfl⟩⟩⟩

/-- The values of a map in the layer are parts. -/
theorem Layer.values_of_map (h : store.Layer among whole part) {ref : Ref .map}
    (hr : whole (.map ref)) : ∀ slot ∈ (store.table ref).slots, part slot.value := fun _ hs =>
  h.held _ hr _ (mem_held_map.mpr ⟨_, Table.entry_mem hs, .inr rfl⟩)

/-- The values of an object in the layer are parts. -/
theorem Layer.values_of_object (h : store.Layer among whole part) {ref : Ref .object}
    (hr : whole (.object ref)) : ∀ entry ∈ (store.members ref).entries, part entry.2 := fun _ he =>
  h.held _ hr _ (List.mem_map_of_mem he)

section Containers

variable (hu : store.Universe among) (hkeys : store.KeysRespectEquality among)
  (hlayer : store.Layer among whole part) (ih : store.EqualityLaws part)

include hu hkeys hlayer ih

/-- If all elements of a set are found in one of the same size, then those are found in the first. -/
theorem sets_symm {a b : Ref .set} (ha : whole (.set a)) (hb : whole (.set b))
    (hcount : (store.keySet a).count = (store.keySet b).count)
    (hall : ∀ key ∈ (store.keySet a).keys, ∃ slot,
      (store.keySet b).find? store.keyRule key = some slot) : store.Same (.set b) (.set a) := by
  have hback := (hu.sets a (hlayer.within _ ha)).find?_back (hu.sets b (hlayer.within _ hb))
    (ih.coherent hkeys) (hlayer.keys_of_set ha) (hlayer.keys_of_set hb) hcount.ge
    fun slot hs => hall _ (mem_keys.mpr ⟨slot, hs, rfl⟩)
  refine .set hcount.symm ?_
  intro key hk
  obtain ⟨found, hf, rfl⟩ := mem_keys.mp hk
  obtain ⟨slot, _, _, hback⟩ := hback found hf
  exact ⟨slot, hback⟩

/-- Two maps of the same size agree both ways if they agree one way. -/
theorem maps_symm {a b : Ref .map} (ha : whole (.map a)) (hb : whole (.map b))
    (hcount : (store.table a).count = (store.table b).count)
    (hall : ∀ entry ∈ (store.table a).entries, ∃ slot,
      (store.table b).find? store.keyRule entry.1 = some slot ∧
        store.equal entry.2 slot.value = true) : store.Same (.map b) (.map a) := by
  have hfound : ∀ slot ∈ (store.table a).slots, ∃ found,
      (store.table b).find? store.keyRule slot.key = some found := by
    intro slot hs
    obtain ⟨found, hf, _⟩ := hall _ (Table.entry_mem hs)
    exact ⟨found, hf⟩
  have hback := (hu.maps a (hlayer.within _ ha)).find?_back (hu.maps b (hlayer.within _ hb))
    (ih.coherent hkeys) (hlayer.keys_of_map ha) (hlayer.keys_of_map hb) hcount.ge hfound
  refine .map hcount.symm ?_
  intro entry he
  obtain ⟨found, hf, rfl⟩ := List.mem_map.mp he
  obtain ⟨slot, hs, hforth, hback⟩ := hback found hf
  obtain ⟨found', hf', hvalue⟩ := hall _ (Table.entry_mem hs)
  obtain rfl := Option.some_inj.mp (hforth.symm.trans hf')
  exact ⟨slot, hback, ih.symm _ _ (hlayer.values_of_map ha slot hs)
    (hlayer.values_of_map hb found hf) hvalue⟩

/-- What is found for the elements of a set is found for those of an equal one. -/
theorem sets_trans {a b c : Ref .set} (ha : whole (.set a)) (hb : whole (.set b))
    (hc : whole (.set c)) (hcount : (store.keySet a).count = (store.keySet c).count)
    (hall : ∀ key ∈ (store.keySet a).keys, ∃ slot,
      (store.keySet b).find? store.keyRule key = some slot)
    (hall' : ∀ key ∈ (store.keySet b).keys, ∃ slot,
      (store.keySet c).find? store.keyRule key = some slot) : store.Same (.set a) (.set c) := by
  refine .set hcount ?_
  intro key hk
  obtain ⟨slot, hs, rfl⟩ := mem_keys.mp hk
  obtain ⟨found, hf⟩ := hall _ hk
  have hm := Table.mem_slots_of_mem_bucket (List.mem_of_find?_eq_some hf)
  obtain ⟨found', hf'⟩ := hall' _ (mem_keys.mpr ⟨found, hm, rfl⟩)
  exact ⟨found', (hu.sets b (hlayer.within _ hb)).find?_trans (hu.sets c (hlayer.within _ hc))
    (ih.coherent hkeys) (hlayer.keys_of_set hb) (hlayer.keys_of_set hc)
    (hlayer.keys_of_set ha slot hs) hf hf'⟩

/-- Maps that agree with one in the middle agree. -/
theorem maps_trans {a b c : Ref .map} (ha : whole (.map a)) (hb : whole (.map b))
    (hc : whole (.map c)) (hcount : (store.table a).count = (store.table c).count)
    (hall : ∀ entry ∈ (store.table a).entries, ∃ slot,
      (store.table b).find? store.keyRule entry.1 = some slot ∧
        store.equal entry.2 slot.value = true)
    (hall' : ∀ entry ∈ (store.table b).entries, ∃ slot,
      (store.table c).find? store.keyRule entry.1 = some slot ∧
        store.equal entry.2 slot.value = true) : store.Same (.map a) (.map c) := by
  refine .map hcount ?_
  intro entry he
  obtain ⟨slot, hs, rfl⟩ := List.mem_map.mp he
  obtain ⟨found, hf, hvalue⟩ := hall _ he
  have hm := Table.mem_slots_of_mem_bucket (List.mem_of_find?_eq_some hf)
  obtain ⟨found', hf', hvalue'⟩ := hall' _ (Table.entry_mem hm)
  have hm' := Table.mem_slots_of_mem_bucket (List.mem_of_find?_eq_some hf')
  have hfind := (hu.maps b (hlayer.within _ hb)).find?_trans (hu.maps c (hlayer.within _ hc))
    (ih.coherent hkeys) (hlayer.keys_of_map hb) (hlayer.keys_of_map hc)
    (hlayer.keys_of_map ha slot hs) hf hf'
  exact ⟨found', hfind, ih.trans _ _ _ (hlayer.values_of_map ha slot hs)
    (hlayer.values_of_map hb found hm) (hlayer.values_of_map hc found' hm') hvalue hvalue'⟩

omit hu hkeys

/-- Two objects of the same size agree both ways if they agree one way. -/
theorem objects_symm {a b : Ref .object} (ha : whole (.object a)) (hb : whole (.object b))
    (hsize : (store.members a).size = (store.members b).size)
    (hall : ∀ entry ∈ (store.members a).entries, ∃ value,
      (store.members b).get? entry.1 = some value ∧ store.equal entry.2 value = true) :
    store.Same (.object b) (.object a) := by
  have hdistinct : (store.members a).entries.Pairwise fun p q => p.1 ≠ q.1 :=
    List.pairwise_map.mp (store.members a).distinct
  have hforth : ∀ p ∈ (store.members a).entries, ∃ q ∈ (store.members b).entries,
      p.1 = q.1 ∧ store.equal p.2 q.2 = true := by
    intro p hp
    obtain ⟨value, hv, heq⟩ := hall p hp
    exact ⟨(p.1, value), mem_of_get? hv, rfl, heq⟩
  refine .object hsize.symm ?_
  intro entry he
  obtain ⟨member, hm, hname, hvalue⟩ := Table.exists_related hsize.ge hforth
    (hdistinct.imp fun hne q _ hp hp' => hne (hp.1.trans hp'.1.symm)) entry he
  exact ⟨member.2, hname ▸ get?_of_mem hm, ih.symm _ _ (hlayer.values_of_object ha member hm)
    (hlayer.values_of_object hb entry he) hvalue⟩

/-- Objects that agree with one in the middle agree. -/
theorem objects_trans {a b c : Ref .object} (ha : whole (.object a)) (hb : whole (.object b))
    (hc : whole (.object c)) (hsize : (store.members a).size = (store.members c).size)
    (hall : ∀ entry ∈ (store.members a).entries, ∃ value,
      (store.members b).get? entry.1 = some value ∧ store.equal entry.2 value = true)
    (hall' : ∀ entry ∈ (store.members b).entries, ∃ value,
      (store.members c).get? entry.1 = some value ∧ store.equal entry.2 value = true) :
    store.Same (.object a) (.object c) := by
  refine .object hsize ?_
  intro entry he
  obtain ⟨value, hv, heq⟩ := hall entry he
  have hm := mem_of_get? hv
  obtain ⟨value', hv', heq'⟩ := hall' _ hm
  exact ⟨value', hv', ih.trans _ _ _ (hlayer.values_of_object ha _ he)
    (hlayer.values_of_object hb _ hm) (hlayer.values_of_object hc _ (mem_of_get? hv')) heq heq'⟩

end Containers

/-- Equality is symmetric, if it is symmetric and transitive for the held values. -/
theorem same_symm (hu : store.Universe among) (hkeys : store.KeysRespectEquality among)
    (hlayer : store.Layer among whole part) (ih : store.EqualityLaws part) {a b : Value}
    (ha : whole a) (hb : whole b) (h : store.Same a b) : store.Same b a := by
  cases h with
  | refl _ hne => exact .refl _ hne
  | decimals h => exact .decimals (Number.beq_comm _ _ ▸ h)
  | wholeDecimal h => exact .decimalWhole (Number.beq_comm _ _ ▸ h)
  | decimalWhole h => exact .wholeDecimal (Number.beq_comm _ _ ▸ h)
  | list hitems =>
    refine .list (List.Forall₂.flip (forall₂_imp_of_mem hitems ?_))
    intro p hp q hq h
    exact ih.symm p q (hlayer.held _ ha p hp) (hlayer.held _ hb q hq) h
  | set hcount hall => exact sets_symm hu hkeys hlayer ih ha hb hcount hall
  | map hcount hall => exact maps_symm hu hkeys hlayer ih ha hb hcount hall
  | object hsize hall => exact objects_symm hlayer ih ha hb hsize hall

/-- Equality is transitive, if it is for the held values and no two integers fold. -/
theorem same_trans (hu : store.Universe among) (hkeys : store.KeysRespectEquality among)
    (hfold : ¬ Folds among) (hlayer : store.Layer among whole part) (ih : store.EqualityLaws part)
    {a b c : Value} (ha : whole a) (hb : whole b) (hc : whole c) (hab : store.Same a b)
    (hbc : store.Same b c) : store.Same a c := by
  cases hab with
  | refl => exact hbc
  | @decimals x y h =>
    cases hbc with
    | refl => exact .decimals h
    | decimals h' => exact .decimals (Number.beq_trans h h')
    | decimalWhole h' => exact .decimalWhole (Number.beq_trans h h')
  | @wholeDecimal m x h =>
    cases hbc with
    | refl => exact .wholeDecimal h
    | decimals h' => exact .wholeDecimal (Number.beq_trans h h')
    | @decimalWhole _ n h' =>
      -- here two integers could fold into the decimal between them
      have hmn : m = n := by
        by_contra hne
        exact hfold ⟨m, n, x, hlayer.within _ ha, hlayer.within _ hc, hlayer.within _ hb, hne, h,
          Number.beq_comm _ _ ▸ h'⟩
      exact hmn ▸ .refl _ nofun
  | decimalWhole h =>
    cases hbc with
    | refl => exact .decimalWhole h
    | wholeDecimal h' => exact .decimals (Number.beq_trans h h')
  | list hitems =>
    cases hbc with
    | refl => exact .list hitems
    | list hitems' =>
      refine .list (forall₂_trans_of_mem hitems hitems' ?_)
      intro p hp q hq r hr hpq hqr
      exact ih.trans p q r (hlayer.held _ ha p hp) (hlayer.held _ hb q hq) (hlayer.held _ hc r hr)
        hpq hqr
  | set hcount hall =>
    cases hbc with
    | refl => exact .set hcount hall
    | set hcount' hall' =>
      exact sets_trans hu hkeys hlayer ih ha hb hc (hcount.trans hcount') hall hall'
  | map hcount hall =>
    cases hbc with
    | refl => exact .map hcount hall
    | map hcount' hall' =>
      exact maps_trans hu hkeys hlayer ih ha hb hc (hcount.trans hcount') hall hall'
  | object hsize hall =>
    cases hbc with
    | refl => exact .object hsize hall
    | object hsize' hall' =>
      exact objects_trans hlayer ih ha hb hc (hsize.trans hsize') hall hall'

/-! ## From the held values to all -/

/-- One step up: laws of the held values give the laws of the values that hold them. -/
theorem EqualityLaws.step (hu : store.Universe among) (hkeys : store.KeysRespectEquality among)
    (hfold : ¬ Folds among) (hlayer : store.Layer among whole part) (ih : store.EqualityLaws part) :
    store.EqualityLaws whole where
  symm a b ha hb h := by
    have hacyclic := fun v (hv : whole v) => hu.acyclic v (hlayer.within v hv)
    rw [equal_iff (hacyclic a ha) (hacyclic b hb)] at h
    rw [equal_iff (hacyclic b hb) (hacyclic a ha)]
    exact same_symm hu hkeys hlayer ih ha hb h
  trans a b c ha hb hc hab hbc := by
    have hacyclic := fun v (hv : whole v) => hu.acyclic v (hlayer.within v hv)
    rw [equal_iff (hacyclic a ha) (hacyclic b hb)] at hab
    rw [equal_iff (hacyclic b hb) (hacyclic c hc)] at hbc
    rw [equal_iff (hacyclic a ha) (hacyclic c hc)]
    exact same_trans hu hkeys hfold hlayer ih ha hb hc hab hbc

/-- **Where no integers fold, equality is symmetric and transitive.** -/
theorem Universe.equalityLaws (hu : store.Universe among) (hkeys : store.KeysRespectEquality among)
    (hfold : ¬ Folds among) : store.EqualityLaws among := by
  have hlevels : ∀ depth, store.EqualityLaws fun value => among value ∧ store.Shallow depth value := by
    intro depth
    induction depth with
    | zero =>
      have hnone : store.EqualityLaws fun _ => False :=
        ⟨fun _ _ h => h.elim, fun _ _ _ h => h.elim⟩
      refine EqualityLaws.step hu hkeys hfold ⟨fun _ h => h.1, fun value h p hp => ?_⟩ hnone
      rw [show store.held value = [] from h.2] at hp
      cases hp
    | succ depth ih =>
      exact EqualityLaws.step hu hkeys hfold
        ⟨fun _ h => h.1, fun value h p hp => ⟨hu.held value h.1 p hp, h.2 p hp⟩⟩ ih
  have hdeep : ∀ value, among value → among value ∧ store.Shallow store.containerCount value :=
    fun value h => ⟨h, shallow_of_acyclic (hu.acyclic value h)⟩
  exact ⟨fun a b ha hb => (hlevels _).symm a b (hdeep a ha) (hdeep b hb),
    fun a b c ha hb hc => (hlevels _).trans a b c (hdeep a ha) (hdeep b hb) (hdeep c hc)⟩

end Store

end Ckl
