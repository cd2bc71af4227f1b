import Ckl.Proofs.Value.Built
import Mathlib.Data.List.Permutation

/-!
# Keys of equal values

Looking up by hashes finds an equal key only if equal keys have one text. The text of a set lists the
keys of its elements in order, so that equal sets have one key if their elements are totally ordered:
then both list equal elements at the same places (`OrderLaws.forall₂_sortBy`). `keyChars_eq_of_equal`
goes from the keys of tables to all values, and `keysRespectEquality_of_built` says that the keys of
tables are right if they are built of atoms.
-/

namespace Ckl

open Collection (Table)
open Number (ofWhole)

/-- Sorting two lists without repetitions, each of whose elements is equal to one of the other, puts
equal elements at the same places. -/
theorem OrderLaws.forall₂_sortBy {α : Type} {order : α → α → Ordering} {among : α → Prop}
    (h : OrderLaws order among) {as bs : List α} (ha : ∀ a ∈ as, among a) (hb : ∀ b ∈ bs, among b)
    (hdistinct : as.Pairwise fun x y => order x y ≠ .eq)
    (hdistinct' : bs.Pairwise fun x y => order x y ≠ .eq) (hlength : bs.length ≤ as.length)
    (hmatch : ∀ a ∈ as, ∃ b ∈ bs, order a b = .eq) :
    List.Forall₂ (fun a b => order a b = .eq) (sortBy order as) (sortBy order bs) := by
  have hback := @Table.exists_related _ _ (fun a b => order a b = .eq) as bs hlength hmatch
    (hdistinct.imp_of_mem fun hx hy hne b hb' hxb hyb =>
      hne (h.eq_trans (ha _ hx) (hb b hb') (ha _ hy) hxb (h.eq_symm (ha _ hy) (hb b hb') hyb)))
  refine h.forall₂_of_match (fun a hm => ha a (mem_sortBy.mp hm)) (fun b hm => hb b (mem_sortBy.mp hm))
    (h.strict ha hdistinct) (h.strict hb hdistinct') ?_ ?_
  · intro a hm
    obtain ⟨b, hb', heq⟩ := hmatch a (mem_sortBy.mp hm)
    exact ⟨b, mem_sortBy.mpr hb', heq⟩
  · intro b hm
    obtain ⟨a, ha', heq⟩ := hback b (mem_sortBy.mp hm)
    exact ⟨a, mem_sortBy.mpr ha', heq⟩

namespace Store

variable {store : Store} {among : Value → Prop}

/-- Lists related by what they are mapped to are mapped to the same list. -/
theorem map_eq_of_forall₂ {α β γ : Type} {f : α → γ} {g : β → γ} {as : List α} {bs : List β}
    (h : List.Forall₂ (fun a b => f a = g b) as bs) : as.map f = bs.map g := by
  induction h with
  | nil => rfl
  | cons hab _ ih => rw [List.map_cons, List.map_cons, hab, ih]

/-- The keys of tables are totally ordered, and compare as equal exactly if they are equal. -/
structure KeysOrdered (store : Store) (among : Value → Prop) : Prop where
  laws : OrderLaws store.order (store.IsKey among)
  eq_iff : ∀ p q, store.IsKey among p → store.IsKey among q →
    (store.order p q = .eq ↔ store.equal p q = true)

/-- The keys of a map among the values are keys. -/
theorem isKey_of_mem_entries {ref : Ref .map} (hr : among (.map ref)) {entry : Value × Value}
    (he : entry ∈ (store.table ref).entries) : store.IsKey among entry.1 := by
  obtain ⟨slot, hs, rfl⟩ := List.mem_map.mp he
  exact .inr ⟨ref, hr, Table.key_mem hs⟩

section

variable (hu : store.Universe among) (hordered : store.KeysOrdered among)

include hordered in
/-- Keys that are equal from the other side are not told apart by the order. -/
theorem KeysOrdered.eq_of_back {p q : Value} (hp : store.IsKey among p) (hq : store.IsKey among q)
    (h : store.equal q p = true) : store.order p q = .eq :=
  hordered.laws.eq_symm hq hp ((hordered.eq_iff q p hq hp).mpr h)

section Sorting

variable {ν β : Type} {table other : Table Value ν} (read : Collection.Slot Value ν → β)
  (keyOf : β → Value) (hread : ∀ slot, keyOf (read slot) = slot.key)

include hread

/-- What is read from the slots of keys has keys. -/
theorem isKey_of_mem_read (hkey : ∀ key ∈ table.keys, store.IsKey among key) :
    ∀ p ∈ table.slots.map read, store.IsKey among (keyOf p) := by
  intro p hp
  obtain ⟨slot, hs, rfl⟩ := List.mem_map.mp hp
  rw [hread]
  exact hkey _ (Table.key_mem hs)

include hordered

/-- No two keys of a table compare as equal. -/
theorem KeysOrdered.distinct (hsound : table.Sound store.keyRule)
    (hkey : ∀ key ∈ table.keys, store.IsKey among key) :
    (table.slots.map read).Pairwise fun p q => store.order (keyOf p) (keyOf q) ≠ .eq := by
  refine List.pairwise_map.mpr (hsound.distinct.imp_of_mem fun {p q} hp hq hapart heq => ?_)
  rw [hread, hread, hordered.eq_iff _ _ (hkey _ (Table.key_mem hp)) (hkey _ (Table.key_mem hq))] at heq
  exact absurd heq (Bool.eq_false_iff.mp hapart.1)

/-- What is read of a table is sorted in the strict order of the keys. -/
theorem KeysOrdered.strict (hsound : table.Sound store.keyRule)
    (hkey : ∀ key ∈ table.keys, store.IsKey among key) :
    (sortBy (fun p q => store.order (keyOf p) (keyOf q)) (table.slots.map read)).Pairwise
      fun p q => store.order (keyOf p) (keyOf q) = .lt :=
  (hordered.laws.comap keyOf).strict (isKey_of_mem_read read keyOf hread hkey)
    (hordered.distinct read keyOf hread hsound hkey)

/-- What is read of two tables, of which one has the keys of the other, is sorted by keys that are equal at
the same places. -/
theorem KeysOrdered.sorted_match (hsound : table.Sound store.keyRule)
    (hsound' : other.Sound store.keyRule) (hkey : ∀ key ∈ table.keys, store.IsKey among key)
    (hkey' : ∀ key ∈ other.keys, store.IsKey among key) (hcount : table.count = other.count)
    (hall : ∀ slot ∈ table.slots, ∃ found, other.find? store.keyRule slot.key = some found) :
    List.Forall₂ (fun p q => store.order (keyOf p) (keyOf q) = .eq)
      (sortBy (fun p q => store.order (keyOf p) (keyOf q)) (table.slots.map read))
      (sortBy (fun p q => store.order (keyOf p) (keyOf q)) (other.slots.map read)) := by
  refine (hordered.laws.comap keyOf).forall₂_sortBy (isKey_of_mem_read read keyOf hread hkey)
    (isKey_of_mem_read read keyOf hread hkey') (hordered.distinct read keyOf hread hsound hkey)
    (hordered.distinct read keyOf hread hsound' hkey') ?_ fun p hp => ?_
  · rw [List.length_map, List.length_map, ← hsound.counted, ← hsound'.counted]
    exact hcount.ge
  · obtain ⟨slot, hs, rfl⟩ := List.mem_map.mp hp
    obtain ⟨found, hf⟩ := hall slot hs
    obtain ⟨hm, hsame⟩ := Table.mem_of_find? hsound'.toShelved hf
    refine ⟨read found, List.mem_map_of_mem hm, ?_⟩
    rw [hread, hread]
    exact hordered.eq_of_back (hkey _ (Table.key_mem hs)) (hkey' _ (Table.key_mem hm)) hsame

end Sorting

include hu hordered in
/-- Entries of equal maps with equal keys have equal values. -/
theorem equal_values_of_maps {a b : Ref .map} (ha : among (.map a)) (hb : among (.map b))
    (hall : ∀ entry ∈ (store.table a).entries, ∃ slot,
      (store.table b).find? store.keyRule entry.1 = some slot ∧ store.equal entry.2 slot.value = true)
    {p q : Value × Value} (hp : p ∈ (store.table a).entries) (hq : q ∈ (store.table b).entries)
    (heq : store.order p.1 q.1 = .eq) : store.equal p.2 q.2 = true := by
  obtain ⟨found, hf, hvalue⟩ := hall p hp
  obtain ⟨hm, hs⟩ := Table.mem_of_find? (hu.maps b hb).toShelved hf
  obtain ⟨slot, hslot, rfl⟩ := List.mem_map.mp hq
  have hkp := isKey_of_mem_entries ha hp
  have hkq := isKey_of_mem_entries hb hq
  have hkf := isKey_of_mem_entries hb (Table.entry_mem hm)
  -- both entries of the second map have the key of the first one
  have hfound : store.order found.key slot.key = .eq :=
    hordered.laws.eq_trans hkf hkp hkq ((hordered.eq_iff _ _ hkf hkp).mpr hs) heq
  obtain rfl := (hu.maps b hb).eq_of_same hm hslot ((hordered.eq_iff _ _ hkf hkq).mp hfound)
  exact hvalue

end

/-! ## Keys of all values -/

/-- Equal values among those that two containers hold have one key. -/
def PartsKeyed (store : Store) (a b : Value) : Prop :=
  ∀ p ∈ store.held a, ∀ q ∈ store.held b, store.equal p q = true →
    store.keyChars p = store.keyChars q

section Texts

variable (hu : store.Universe among) (hordered : store.KeysOrdered among)

include hu hordered

/-- Equal sets have the same texts of keys in order. -/
theorem setTexts_eq {a b : Ref .set} (ha : among (.set a)) (hb : among (.set b))
    (hparts : store.PartsKeyed (.set a) (.set b))
    (hcount : (store.keySet a).count = (store.keySet b).count)
    (hall : ∀ key ∈ (store.keySet a).keys, ∃ slot,
      (store.keySet b).find? store.keyRule key = some slot) :
    (sortBy store.order (store.keySet a).keys).map store.keyChars =
      (sortBy store.order (store.keySet b).keys).map store.keyChars := by
  have hmatch := hordered.sorted_match Collection.Slot.key id (fun _ => rfl) (hu.sets a ha) (hu.sets b hb)
    (fun p hp => .inl ⟨a, ha, hp⟩) (fun q hq => .inl ⟨b, hb, hq⟩) hcount
    fun slot hs => hall _ (Table.key_mem hs)
  refine map_eq_of_forall₂ (forall₂_imp_of_mem hmatch ?_)
  intro p hp q hq heq
  rw [mem_sortBy] at hp hq
  have hequal := (hordered.eq_iff p q (.inl ⟨a, ha, hp⟩) (.inl ⟨b, hb, hq⟩)).mp heq
  exact hparts p hp q hq hequal

/-- Equal maps have the same texts of entries in order. -/
theorem mapTexts_eq {a b : Ref .map} (ha : among (.map a)) (hb : among (.map b))
    (hparts : store.PartsKeyed (.map a) (.map b))
    (hcount : (store.table a).count = (store.table b).count)
    (hall : ∀ entry ∈ (store.table a).entries, ∃ slot,
      (store.table b).find? store.keyRule entry.1 = some slot ∧
        store.equal entry.2 slot.value = true) :
    (sortBy (fun p q => store.order p.1 q.1) (store.table a).entries).map
        (fun entry => store.keyChars entry.1 ++ " => ".toList ++ store.keyChars entry.2) =
      (sortBy (fun p q => store.order p.1 q.1) (store.table b).entries).map
        fun entry => store.keyChars entry.1 ++ " => ".toList ++ store.keyChars entry.2 := by
  have hfound : ∀ slot ∈ (store.table a).slots, ∃ found,
      (store.table b).find? store.keyRule slot.key = some found := by
    intro slot hs
    obtain ⟨found, hf, _⟩ := hall _ (Table.entry_mem hs)
    exact ⟨found, hf⟩
  have hmatch := hordered.sorted_match (fun slot => (slot.key, slot.value)) Prod.fst (fun _ => rfl)
    (hu.maps a ha) (hu.maps b hb) (fun p hp => .inr ⟨a, ha, hp⟩) (fun q hq => .inr ⟨b, hb, hq⟩)
    hcount hfound
  refine map_eq_of_forall₂ (forall₂_imp_of_mem hmatch ?_)
  intro p hp q hq heq
  rw [mem_sortBy] at hp hq
  have hequal := (hordered.eq_iff p.1 q.1 (isKey_of_mem_entries ha hp)
    (isKey_of_mem_entries hb hq)).mp heq
  have hkey := hparts p.1 (mem_held_map.mpr ⟨p, hp, .inl rfl⟩) q.1
    (mem_held_map.mpr ⟨q, hq, .inl rfl⟩) hequal
  have hvalue := hparts p.2 (mem_held_map.mpr ⟨p, hp, .inr rfl⟩) q.2
    (mem_held_map.mpr ⟨q, hq, .inr rfl⟩) (equal_values_of_maps hu hordered ha hb hall hp hq heq)
  rw [hkey, hvalue]

end Texts

/-- The sorted members of equal objects have the same names at the same places. -/
theorem sorted_objects_match {a b : Ref .object}
    (hsize : (store.members a).size = (store.members b).size)
    (hall : ∀ entry ∈ (store.members a).entries, ∃ value,
      (store.members b).get? entry.1 = some value ∧ store.equal entry.2 value = true) :
    List.Forall₂ (fun p q => compare p.1 q.1 = .eq)
      (sortBy (fun p q => compare p.1 q.1) (store.members a).entries)
      (sortBy (fun p q => compare p.1 q.1) (store.members b).entries) := by
  have hlaws : OrderLaws (fun p q : String × Value => compare p.1 q.1) fun _ => True :=
    OrderLaws.of_read Prod.fst _
  have hdistinct : ∀ members : Bindings Value,
      members.entries.Pairwise fun p q => compare p.1 q.1 ≠ .eq := by
    intro members
    refine (List.pairwise_map.mp members.distinct).imp ?_
    intro p q hne heq
    exact hne (Std.LawfulEqOrd.compare_eq_iff_eq.mp heq)
  refine hlaws.forall₂_sortBy (fun _ _ => trivial) (fun _ _ => trivial) (hdistinct _) (hdistinct _)
    hsize.ge ?_
  intro p hp
  obtain ⟨value, hv, _⟩ := hall p hp
  exact ⟨(p.1, value), mem_of_get? hv, hlaws.self trivial⟩

/-- Equal objects have the same texts of members in order. -/
theorem objectTexts_eq {a b : Ref .object} (hparts : store.PartsKeyed (.object a) (.object b))
    (hsize : (store.members a).size = (store.members b).size)
    (hall : ∀ entry ∈ (store.members a).entries, ∃ value,
      (store.members b).get? entry.1 = some value ∧ store.equal entry.2 value = true) :
    (sortBy (fun p q => compare p.1 q.1) (store.members a).entries).map
        (fun entry => entry.1.toList ++ '=' :: store.keyChars entry.2) =
      (sortBy (fun p q => compare p.1 q.1) (store.members b).entries).map
        fun entry => entry.1.toList ++ '=' :: store.keyChars entry.2 := by
  refine map_eq_of_forall₂ (forall₂_imp_of_mem (sorted_objects_match hsize hall) ?_)
  intro p hp q hq heq
  rw [mem_sortBy] at hp hq
  have hname : p.1 = q.1 := Std.LawfulEqOrd.compare_eq_iff_eq.mp heq
  obtain ⟨value, hv, hvalue⟩ := hall p hp
  rw [hname, get?_of_mem hq] at hv
  cases hv
  rw [hname, hparts p.2 (List.mem_map_of_mem hp) q.2 (List.mem_map_of_mem hq) hvalue]

/-- Equal values have one key, if the keys of tables are totally ordered. -/
theorem keyChars_eq_of_equal (hu : store.Universe among) (hordered : store.KeysOrdered among)
    {a b : Value} (ha : among a) (hb : among b) (h : store.equal a b = true) :
    store.keyChars a = store.keyChars b := by
  have hacyclic := hu.acyclic a ha
  induction hacyclic generalizing b with
  | intro a hbelow ih =>
    have hacyclic : store.Acyclic a := .intro a hbelow
    have hparts : store.PartsKeyed a b := by
      intro p hp q hq
      exact ih p hp (hu.held a ha p hp) (hu.held b hb q hq)
    rw [keyChars_eq hacyclic, keyChars_eq (hu.acyclic b hb)]
    cases (equal_iff hacyclic (hu.acyclic b hb)).mp h with
    | refl => rfl
    | decimals h => exact Number.decimalKey_eq_of_beq h
    | wholeDecimal h => exact Number.decimalKey_eq_of_beq h
    | decimalWhole h => exact Number.decimalKey_eq_of_beq h
    | list hitems =>
      exact congrArg (enclosed "[" "]") (map_eq_of_forall₂ (forall₂_imp_of_mem hitems hparts))
    | set hcount hall =>
      exact congrArg (enclosed "<<" ">>") (setTexts_eq hu hordered ha hb hparts hcount hall)
    | map hcount hall =>
      exact congrArg (enclosed "<<<" ">>>") (mapTexts_eq hu hordered ha hb hparts hcount hall)
    | object hsize hall =>
      exact congrArg (enclosed "<*" "*>") (objectTexts_eq hparts hsize hall)

/-- Equal values that are built of atoms have one key, since they have no tables in them. -/
theorem Built.keyChars_eq {atoms : Value → Prop} {a b : Value} (ha : store.Built atoms a)
    (hb : store.Built atoms b) (h : store.equal a b = true) :
    store.keyChars a = store.keyChars b := by
  have hordered : store.KeysOrdered (store.Built atoms) := by
    refine ⟨⟨?_, ?_⟩, ?_⟩
    · intro p _ hp
      exact (not_isKey_built hp).elim
    · intro p _ _ hp
      exact (not_isKey_built hp).elim
    · intro p _ hp
      exact (not_isKey_built hp).elim
  exact keyChars_eq_of_equal (universe_built store atoms) hordered ha hb h

/-- So keys that are built of atoms cause no trouble in looking up. -/
theorem keysRespectEquality_of_built {atoms : Value → Prop}
    (hkeys : ∀ key, store.IsKey among key → store.Built atoms key) :
    store.KeysRespectEquality among := by
  intro p q hp hq h
  exact key_eq_iff.mpr ((hkeys p hp).keyChars_eq (hkeys q hq) h)

/-- Where keys are plain values, of which no integers fold and no pattern is between two zeros, the keys
of tables are ordered. -/
theorem keysOrdered_of_built {atoms : Value → Prop}
    (hplain : ∀ value, atoms value → value.isPlain = true) (hfold : ¬ Folds atoms)
    (hzeros : ¬ ZerosApart atoms) (hkeys : ∀ key, store.IsKey among key → store.Built atoms key) :
    store.KeysOrdered among where
  laws := (orderLaws_built hplain hfold hzeros).mono hkeys
  eq_iff p q hp hq := (sortable_plain hplain).order_eq_iff (hkeys p hp) (hkeys q hq)

/-! ## Sets with one set of elements and two keys -/

/-- Two values that are told apart are sorted into their order. -/
theorem sortBy_pair {α : Type} {order : α → α → Ordering} {values : List α} {a b : α}
    (hperm : values.Perm [a, b]) (hab : order a b = .lt) (hba : order b a = .gt) :
    sortBy order values = [a, b] := by
  rcases List.perm_pair.mp hperm with rfl | rfl
  · simp [sortBy, List.mergeSort, hab]
  · simp [sortBy, List.mergeSort, hba]

section Pairs

variable {as bs : List Value}

/-- The key of a set lists the keys of its elements. -/
theorem keyChars_set_of_perm {ref : Ref .set} {keys : List Value} (h : store.Acyclic (.set ref))
    (hperm : (store.keySet ref).keys.Perm keys) :
    ∃ texts, store.keyChars (.set ref) = enclosed "<<" ">>" texts ∧
      texts.Perm (keys.map store.keyChars) := by
  refine ⟨(sortBy store.order (store.keySet ref).keys).map store.keyChars, ?_, ?_⟩
  · rw [keyChars_eq h]
    rfl
  · exact ((perm_sortBy _ _).trans hperm).map _

/-- The canonical text of a set of two values in their order. -/
theorem keyChars_set_of_lt {ref : Ref .set} {a b : Value} (h : store.Acyclic (.set ref))
    (hperm : (store.keySet ref).keys.Perm [a, b]) (hab : store.order a b = .lt)
    (hba : store.order b a = .gt) :
    store.keyChars (.set ref) = enclosed "<<" ">>" [store.keyChars a, store.keyChars b] := by
  rw [keyChars_eq h, keyStep, sortBy_pair hperm hab hba]
  rfl

/-- Two texts between the same brackets are the same up to where the comma may be. -/
theorem enclosed_pair_injective {a b c d : List Char}
    (h : enclosed "<<" ">>" [a, b] = enclosed "<<" ">>" [c, d]) :
    a ++ ", ".toList ++ b = c ++ ", ".toList ++ d := by
  have hcommas : ∀ x y, Source.commas [x, y] = x ++ ", ".toList ++ y := by
    intro x y
    simp [Source.commas]
  have hbody := List.append_cancel_left (List.append_cancel_right h)
  rw [hcommas, hcommas] at hbody
  exact hbody

end Pairs

/-- The set of two integers that fold and the set of the decimal and the null value have different
keys. -/
theorem keyChars_foldStore {m n : Int64} {x : Float} (hne : m ≠ n) (hm : (ofWhole m == x) = true)
    (hn : (ofWhole n == x) = true) :
    (foldStore m n x).keyChars (.set ⟨0⟩) ≠ (foldStore m n x).keyChars (.set ⟨1⟩) := by
  have hu := universe_foldStore (x := x) hne
  obtain ⟨texts, hfirst, hperm⟩ := keyChars_set_of_perm (hu.acyclic _ (.inl rfl))
    (sound_first (atomSet_integers hne)).2
  obtain ⟨texts', hsecond, hperm'⟩ := keyChars_set_of_perm (hu.acyclic _ (.inr (.inl rfl)))
    (sound_second (atomSet_decimal_null x)).2
  have hwhole : ∀ k : Int64, (ofWhole k == x) = true →
      (foldStore m n x).keyChars (.int k) = Number.decimalKey x := by
    intro k hk
    rw [keyChars_eq (acyclic_of_isAtomic rfl)]
    exact Number.decimalKey_eq_of_beq hk
  have hdecimal : (foldStore m n x).keyChars (.decimal x) = Number.decimalKey x :=
    keyChars_eq (acyclic_of_isAtomic rfl)
  have hnull : (foldStore m n x).keyChars .null = "NULL".toList :=
    keyChars_eq (acyclic_of_isAtomic rfl)
  simp only [List.map_cons, List.map_nil, hwhole m hm, hwhole n hn, hdecimal, hnull] at hperm hperm'
  have hkey : Number.decimalKey x ≠ "NULL".toList := by
    obtain ⟨p, _, hp⟩ := Number.beq_iff.mp hm
    obtain ⟨c, rest, hc, hbegins⟩ := Number.decimalKey_begins hp
    rw [hc]
    rintro h
    cases h
    cases hbegins with
    | digit hdigit => exact absurd hdigit (by decide)
  intro heq
  rw [hfirst, hsecond] at heq
  obtain rfl : texts = [Number.decimalKey x, Number.decimalKey x] := by
    rcases List.perm_pair.mp hperm with h | h <;> exact h
  rcases List.perm_pair.mp hperm' with rfl | rfl
  · exact hkey (List.append_cancel_left (enclosed_pair_injective heq))
  · exact hkey (List.append_cancel_right (List.append_cancel_right (enclosed_pair_injective heq)))

/-! ## A pattern between two zeros -/

/-- A store with two sets of a zero and a pattern. -/
def zeroStore (zero : Value) (source : String) : Store :=
  setStore [.decimal (-0.0), .pattern source] [zero, .pattern source]

/-- A number and a pattern are atoms that make a set. -/
theorem atomSet_number_pattern {value : Value} (h : value.isNumeric = true) (source : String) :
    AtomSet [value, .pattern source] := by
  cases value with
  | int => exact atomSet_pair rfl rfl ⟨rfl, rfl⟩
  | decimal => exact atomSet_pair rfl rfl ⟨rfl, rfl⟩
  | _ => cases h

/-- A number is before a pattern or behind it, as it begins. -/
theorem order_number_pattern {value : Value} (h : value.isNumeric = true) (source : String) {c : Char}
    {rest : List Char} (hc : store.chars value = c :: rest) :
    (c < '/' → store.order value (.pattern source) = .lt ∧
        store.order (.pattern source) value = .gt) ∧
      ('/' < c → store.order (.pattern source) value = .lt ∧
        store.order value (.pattern source) = .gt) := by
  have hvalue : store.Acyclic value := by
    refine acyclic_of_isAtomic ?_
    cases value <;> first | rfl | cases h
  have hpattern : store.Acyclic (.pattern source) := acyclic_of_isAtomic rfl
  have hunlike : ¬ (Value.pattern source).Alike value := fun hne => hne.1 rfl
  have hunequal : store.equal value (.pattern source) = false ∧
      store.equal (.pattern source) value = false := by
    cases value <;> first | exact ⟨rfl, rfl⟩ | cases h
  obtain ⟨ds, hds⟩ := chars_of_mark hpattern (c := '/') rfl
  have hforth : store.order value (.pattern source) = store.byText value (.pattern source) := by
    rw [order_of_not_alike hvalue hpattern fun hne => hunlike hne.symm, hunequal.1]
    rfl
  have hback : store.order (.pattern source) value = store.byText (.pattern source) value := by
    rw [order_of_not_alike hpattern hvalue hunlike, hunequal.2]
    rfl
  rw [hforth, hback]
  refine ⟨fun hlt => ?_, fun hlt => ?_⟩
  · have htext := (byText_lt_iff hc hds fun heq => Char.lt_irrefl _ (heq ▸ hlt)).mpr hlt
    exact ⟨htext, by rw [byText_swap store value, htext]; rfl⟩
  · have htext := (byText_lt_iff hds hc fun heq => Char.lt_irrefl _ (heq ▸ hlt)).mpr hlt
    exact ⟨htext, by rw [byText_swap store (.pattern source), htext]; rfl⟩

section Zeros

variable {zero : Value} (hzero : zero = .int 0 ∨ zero = .decimal 0.0) (source : String)

include hzero

/-- Zero and a pattern are atoms that make a set. -/
theorem atomSet_zero : AtomSet [zero, .pattern source] := by
  refine atomSet_number_pattern ?_ source
  rcases hzero with rfl | rfl <;> rfl

/-- The two sets of the store, with zero and with negative zero, are a universe. -/
theorem universe_zeroStore : (zeroStore zero source).Universe
    (setValues [.decimal (-0.0), .pattern source] [zero, .pattern source]) :=
  universe_setStore (atomSet_number_pattern rfl source) (atomSet_zero hzero source)

/-- The set with zero is equal to the set with negative zero. -/
theorem equal_zeroStore : (zeroStore zero source).equal (.set ⟨0⟩) (.set ⟨1⟩) = true := by
  refine (equal_setStore_iff (atomSet_number_pattern rfl source) (atomSet_zero hzero source)).mpr
    ⟨rfl, fun a ha => ?_⟩
  rcases List.mem_pair.mp ha with rfl | rfl
  · refine ⟨zero, List.mem_cons_self, ?_⟩
    rcases hzero with rfl | rfl
    · show (Number.ofWhole 0 == -0.0) = true
      decide
    · show ((0.0 : Float) == -0.0) = true
      decide
  · refine ⟨.pattern source, List.mem_cons_of_mem _ List.mem_cons_self, ?_⟩
    show (source == source) = true
    exact beq_self_eq_true source

/-- The pattern is behind the negative zero, but before the other one. -/
theorem keyChars_zeroStore :
    (zeroStore zero source).keyChars (.set ⟨0⟩) ≠ (zeroStore zero source).keyChars (.set ⟨1⟩) := by
  have hu := universe_zeroStore hzero source
  have hnegative : (zeroStore zero source).order (.decimal (-0.0)) (.pattern source) = .lt ∧
      (zeroStore zero source).order (.pattern source) (.decimal (-0.0)) = .gt :=
    (order_number_pattern rfl source chars_negative_zero).1 (by decide)
  have hpositive : (zeroStore zero source).order (.pattern source) zero = .lt ∧
      (zeroStore zero source).order zero (.pattern source) = .gt := by
    rcases hzero with rfl | rfl
    · exact (order_number_pattern rfl source chars_zero).2 (by decide)
    · exact (order_number_pattern rfl source chars_decimal_zero).2 (by decide)
  have hkey : (zeroStore zero source).keyChars (.decimal (-0.0)) = ['0'] := by
    rw [keyChars_eq (acyclic_of_isAtomic rfl)]
    show Number.decimalKey (-0.0) = ['0']
    decide +kernel
  have hpattern : (zeroStore zero source).keyChars (.pattern source) = Source.patternText source :=
    keyChars_eq (acyclic_of_isAtomic rfl)
  have hfirst := keyChars_set_of_lt (hu.acyclic _ (.inl rfl))
    (sound_first (atomSet_number_pattern rfl source)).2 hnegative.1 hnegative.2
  have hsecond := keyChars_set_of_lt (hu.acyclic _ (.inr (.inl rfl)))
    ((sound_second (atomSet_zero hzero source)).2.trans (List.Perm.swap _ _ _)) hpositive.1 hpositive.2
  intro heq
  rw [hfirst, hsecond, hkey, hpattern] at heq
  cases enclosed_pair_injective heq

end Zeros

/-! ## The law -/

/-- **When equal values have one key.** In all universes in which the keys of tables are totally ordered,
or are plain: the null value, other plain atoms of some kind and lists of them, equal values have one key
exactly if no integers of the kind fold and no pattern of it is between its zeros. -/
theorem key_eq_of_equal_iff (atoms : Value → Prop) (hnull : atoms .null)
    (hplain : ∀ value, atoms value → value.isPlain = true) :
    (∀ (store : Store) (among : Value → Prop), store.Universe among →
      (store.KeysOrdered among ∨ ∀ key, store.IsKey among key → store.Built atoms key) →
      ∀ a b, among a → among b → store.equal a b = true → store.key a = store.key b) ↔
      ¬ Folds atoms ∧ ¬ ZerosApart atoms := by
  refine ⟨fun hkeyed => ⟨?_, ?_⟩, ?_⟩
  -- if integers fold, the two sets of `foldStore` are equal but have different keys
  · rintro ⟨m, n, x, hm, hn, hx, hne, heqm, heqn⟩
    have hkeys : ∀ key, (foldStore m n x).IsKey (foldValues m n x) key →
        (foldStore m n x).Built atoms key := by
      intro key h
      rcases mem_of_isKey_setStore (atomSet_integers hne) (atomSet_decimal_null x) h with h | h
      · rcases List.mem_pair.mp h with rfl | rfl
        · exact .atom rfl hm
        · exact .atom rfl hn
      · rcases List.mem_pair.mp h with rfl | rfl
        · exact .atom rfl hx
        · exact .atom rfl hnull
    refine keyChars_foldStore hne heqm heqn (key_eq_iff.mp ?_)
    exact hkeyed _ _ (universe_foldStore hne) (.inr hkeys) _ _ (.inl rfl) (.inr (.inl rfl))
      (equal_foldStore hne heqm heqn).1
  -- with a pattern between the zeros, the two sets of `zeroStore` do
  · rintro ⟨hnegative, hzeros, source, hsource⟩
    obtain ⟨zero, hzero, hmem⟩ : ∃ zero, (zero = .int 0 ∨ zero = .decimal 0.0) ∧ atoms zero :=
      hzeros.elim (fun h => ⟨_, .inl rfl, h⟩) fun h => ⟨_, .inr rfl, h⟩
    have hkeys : ∀ key, (zeroStore zero source).IsKey
        (setValues [.decimal (-0.0), .pattern source] [zero, .pattern source]) key →
        (zeroStore zero source).Built atoms key := by
      intro key h
      rcases mem_of_isKey_setStore (atomSet_number_pattern rfl source) (atomSet_zero hzero source) h with
        h | h
      · rcases List.mem_pair.mp h with rfl | rfl
        · exact .atom rfl hnegative
        · exact .atom rfl hsource
      · rcases List.mem_pair.mp h with rfl | rfl
        · exact .atom (by rcases hzero with rfl | rfl <;> rfl) hmem
        · exact .atom rfl hsource
    refine keyChars_zeroStore hzero source (key_eq_iff.mp ?_)
    exact hkeyed _ _ (universe_zeroStore hzero source) (.inr hkeys) _ _ (.inl rfl) (.inr (.inl rfl))
      (equal_zeroStore hzero source)
  · rintro ⟨hfold, hzeros⟩ store among hu hkeys a b ha hb h
    have hordered : store.KeysOrdered among :=
      hkeys.elim id (keysOrdered_of_built hplain hfold hzeros)
    exact key_eq_iff.mpr (keyChars_eq_of_equal hu hordered ha hb h)

/-- The sets of the null value and 1, as an integer and as a decimal, are equal and have one key. -/
theorem key_eq_of_equal_one :
    let store := setStore [.int 1, .null] [.decimal 1.0, .null]
    store.equal (.set ⟨0⟩) (.set ⟨1⟩) = true ∧ store.key (.set ⟨0⟩) = store.key (.set ⟨1⟩) := by
  intro store
  have hints : AtomSet [.int 1, .null] := atomSet_pair rfl rfl ⟨rfl, rfl⟩
  have hu := universe_setStore hints (atomSet_decimal_null 1.0)
  have hequal : store.equal (.set ⟨0⟩) (.set ⟨1⟩) = true := by
    refine (equal_setStore_iff hints (atomSet_decimal_null 1.0)).mpr ⟨rfl, fun a ha => ?_⟩
    rcases List.mem_pair.mp ha with rfl | rfl
    · exact ⟨.decimal 1.0, List.mem_cons_self, show ((1.0 : Float) == ofWhole 1) = true by decide⟩
    · exact ⟨.null, List.mem_cons_of_mem _ List.mem_cons_self, rfl⟩
  let atoms : Value → Prop := fun value => value ∈ [.int 1, .null] ∨ value ∈ [.decimal 1.0, .null]
  have hplain : ∀ value, atoms value → value.isPlain = true := by
    rintro value (h | h) <;> rcases List.mem_pair.mp h with rfl | rfl <;> decide
  have hnull : atoms .null := .inl (List.mem_cons_of_mem _ List.mem_cons_self)
  have hfold : ¬ Folds atoms := by
    rintro ⟨m, n, _, hm, hn, _, hne, _⟩
    have hone : ∀ k, atoms (.int k) → k = 1 := by
      rintro k (h | h) <;> rcases List.mem_pair.mp h with h | h <;> cases h
      rfl
    exact hne ((hone m hm).trans (hone n hn).symm)
  have hzeros : ¬ ZerosApart atoms := by
    rintro ⟨_, _, source, h | h⟩ <;> rcases List.mem_pair.mp h with h | h <;> cases h
  refine ⟨hequal, (key_eq_of_equal_iff atoms hnull hplain).mpr ⟨hfold, hzeros⟩ store
    _ hu (.inr fun key hk => ?_) _ _ (.inl rfl) (.inr (.inl rfl)) hequal⟩
  have hmem := mem_of_isKey_setStore hints (atomSet_decimal_null 1.0) hk
  exact .atom (isAtomic_of_mem hints (atomSet_decimal_null 1.0) hmem) hmem

/-- Two zeros and a pattern: the sets are equal, but neither is found by the key of the other. -/
theorem key_ne_at_zeros :
    let store := zeroStore (.int 0) "a"
    store.Acyclic (.set ⟨0⟩) ∧ store.Acyclic (.set ⟨1⟩) ∧
      store.equal (.set ⟨0⟩) (.set ⟨1⟩) = true ∧ store.key (.set ⟨0⟩) ≠ store.key (.set ⟨1⟩) := by
  intro store
  have hu := universe_zeroStore (.inl rfl) "a"
  exact ⟨hu.acyclic _ (.inl rfl), hu.acyclic _ (.inr (.inl rfl)), equal_zeroStore (.inl rfl) "a",
    fun h => keyChars_zeroStore (.inl rfl) "a" (key_eq_iff.mp h)⟩

end Store

end Ckl
