import Ckl.Proofs.Collection.Contents
import Ckl.Proofs.Value.Search
import Ckl.Value.Canonical

/-!
# The readings of acyclic values

The text, the key, the equality and the order of values are read down to a depth. Here they get the
equations that a reader expects: for acyclic values, each reading is one level of itself
(`chars_eq`, `keyChars_eq`, `equal_eq`, `order_eq`), and no depth is seen any more.

One level of a reading depends on the readings of the held values alone (`textStep_congr` and the
lemmas beside it). So more depth than a value has changes nothing (`readings_stable`), and the containers that
a value reaches are as many as it needs (`shallow_span`).
-/

namespace Ckl

open Collection (Table KeySet KeyRule)

/-! ## Sorting -/

/-- Sorting rearranges. -/
theorem perm_sortBy {α : Type} (order : α → α → Ordering) (values : List α) :
    (sortBy order values).Perm values := List.mergeSort_perm _ _

/-- Sorting neither adds nor drops a value. -/
theorem mem_sortBy {α : Type} {order : α → α → Ordering} {values : List α} {a : α} :
    a ∈ sortBy order values ↔ a ∈ values := (perm_sortBy order values).mem_iff

/-- Sorting asks for the order of the elements alone. -/
theorem sortBy_congr {α : Type} {order order' : α → α → Ordering} {values : List α}
    (h : ∀ a ∈ values, ∀ b ∈ values, order a b = order' a b) :
    sortBy order values = sortBy order' values := by
  have hmap := List.map_mergeSort (r := fun a b => order a b != .gt)
    (s := fun a b => order' a b != .gt) (f := id) (l := values)
    fun a ha b hb => by simp only [h a ha b hb, id]
  simpa only [sortBy, List.map_id_fun, id] using hmap

/-- Sorting and reading depend only on how the values themselves are ordered and read. -/
theorem map_sortBy_congr {α β : Type} {order order' : α → α → Ordering} {read read' : α → β}
    {values : List α} (hr : ∀ a ∈ values, read a = read' a)
    (ho : ∀ a ∈ values, ∀ b ∈ values, order a b = order' a b) :
    (sortBy order values).map read = (sortBy order' values).map read' := by
  rw [sortBy_congr ho]
  exact List.map_congr_left fun a ha => hr a (mem_sortBy.mp ha)

/-- A test of all values depends only on these values. -/
theorem all_congr_of_mem {α : Type} {p q : α → Bool} {values : List α}
    (h : ∀ a ∈ values, p a = q a) : values.all p = values.all q := by
  rw [Bool.eq_iff_iff, List.all_eq_true, List.all_eq_true]
  exact forall₂_congr fun a ha => by rw [h a ha]

/-- The order of lists depends only on the order of their elements. -/
theorem orderLists_congr {α : Type} {order order' : α → α → Ordering} :
    ∀ {as bs : List α}, (∀ a ∈ as, ∀ b ∈ bs, order a b = order' a b) →
      orderLists order as bs = orderLists order' as bs
  | [], [], _ => rfl
  | [], _ :: _, _ => rfl
  | _ :: _, [], _ => rfl
  | a :: as, b :: bs, h => by
    have hrest : orderLists order as bs = orderLists order' as bs := orderLists_congr fun x hx y hy =>
      h x (List.mem_cons_of_mem _ hx) y (List.mem_cons_of_mem _ hy)
    simp only [orderLists, h a List.mem_cons_self b List.mem_cons_self, hrest]

namespace Collection.Table

variable {κ ν : Type}

/-- The key of a slot is a key of the table. -/
theorem key_mem {table : Table κ ν} {slot : Slot κ ν} (h : slot ∈ table.slots) :
    slot.key ∈ table.keys := List.mem_map_of_mem h

/-- The key and the value of a slot are an entry of the table. -/
theorem entry_mem {table : Table κ ν} {slot : Slot κ ν} (h : slot ∈ table.slots) :
    (slot.key, slot.value) ∈ table.entries :=
  List.mem_map_of_mem (f := fun slot : Slot κ ν => (slot.key, slot.value)) h

/-- Looking a key up asks a rule for the hash of that key, and whether keys of the table are it. -/
theorem find?_congr {rule rule' : KeyRule κ} {table : Table κ ν} {key : κ}
    (hh : rule.hash key = rule'.hash key)
    (hs : ∀ slot ∈ table.slots, rule.same slot.key key = rule'.same slot.key key) :
    table.find? rule key = table.find? rule' key := by
  simp only [find?, hh]
  have hb : ∀ slot ∈ table.bucket (rule'.hash key), slot ∈ table.slots :=
    fun slot => mem_slots_of_mem_bucket
  generalize table.bucket (rule'.hash key) = bucket at hb
  induction bucket with
  | nil => rfl
  | cons slot rest ih =>
    rw [List.find?_cons, List.find?_cons, hs slot (hb slot List.mem_cons_self),
      ih fun other ho => hb other (List.mem_cons_of_mem _ ho)]

end Collection.Table

namespace Store

variable {store : Store}

/-! ## One level asks for the held values -/

/-- What is read of the entries of a map asks for the keys and the values. -/
theorem map_entries_congr {ref : Ref .map} {read read' : Value → List Char}
    {order order' : Value → Value → Ordering} (hr : ∀ p ∈ store.held (.map ref), read p = read' p)
    (ho : ∀ p ∈ store.held (.map ref), ∀ q ∈ store.held (.map ref), order p q = order' p q) :
    ((sortBy (fun a b => order a.1 b.1) (store.table ref).entries).map
      fun entry => read entry.1 ++ " => ".toList ++ read entry.2) =
    (sortBy (fun a b => order' a.1 b.1) (store.table ref).entries).map
      fun entry => read' entry.1 ++ " => ".toList ++ read' entry.2 := by
  have hkey : ∀ entry ∈ (store.table ref).entries, entry.1 ∈ store.held (.map ref) :=
    fun entry he => mem_held_map.mpr ⟨entry, he, .inl rfl⟩
  have hvalue : ∀ entry ∈ (store.table ref).entries, entry.2 ∈ store.held (.map ref) :=
    fun entry he => mem_held_map.mpr ⟨entry, he, .inr rfl⟩
  refine map_sortBy_congr (fun entry he => ?_) fun a ha b hb => ho _ (hkey a ha) _ (hkey b hb)
  rw [hr _ (hkey entry he), hr _ (hvalue entry he)]

/-- The text of a value depends only on the texts and the order of its parts. -/
theorem textStep_congr {text text' : Value → List Char} {order order' : Value → Value → Ordering}
    {value : Value} (ht : ∀ p ∈ store.held value, text p = text' p)
    (ho : ∀ p ∈ store.held value, ∀ q ∈ store.held value, order p q = order' p q) :
    store.textStep text order value = store.textStep text' order' value := by
  cases value with
  | list ref => exact congrArg (enclosed "[" "]") (List.map_congr_left ht)
  | set ref => exact congrArg (enclosed "<<" ">>") (map_sortBy_congr ht ho)
  | map ref => exact congrArg (enclosed "<<<" ">>>") (map_entries_congr ht ho)
  | object ref =>
    refine congrArg (enclosed "<*" "*>") (List.map_congr_left fun entry he => ?_)
    rw [ht entry.2 (List.mem_map_of_mem (f := Prod.snd) he)]
  | _ => rfl

/-- The canonical text of a value depends only on those of its parts and their order. -/
theorem keyStep_congr {key key' : Value → List Char} {order order' : Value → Value → Ordering}
    {value : Value} (hk : ∀ p ∈ store.held value, key p = key' p)
    (ho : ∀ p ∈ store.held value, ∀ q ∈ store.held value, order p q = order' p q) :
    store.keyStep key order value = store.keyStep key' order' value := by
  cases value with
  | list ref => exact congrArg (enclosed "[" "]") (List.map_congr_left hk)
  | set ref => exact congrArg (enclosed "<<" ">>") (map_sortBy_congr hk ho)
  | map ref => exact congrArg (enclosed "<<<" ">>>") (map_entries_congr hk ho)
  | object ref =>
    refine congrArg (enclosed "<*" "*>") (map_sortBy_congr (fun entry he => ?_) fun _ _ _ _ => rfl)
    rw [hk entry.2 (List.mem_map_of_mem (f := Prod.snd) he)]
  | _ => rfl

/-- Looking up in a set or a map asks for the key of what is looked up and its equality to the keys
that are there. -/
theorem find?_keyRuleStep_congr {ν : Type} {equal equal' : Value → Value → Bool}
    {key key' : Value → List Char} {table : Table Value ν} {p : Value} (hk : key p = key' p)
    (he : ∀ q ∈ table.keys, equal q p = equal' q p) :
    table.find? (keyRuleStep equal key) p = table.find? (keyRuleStep equal' key') p :=
  Table.find?_congr (by simp only [keyRuleStep, hk]) fun _ hs => he _ (Table.key_mem hs)

/-- Equality depends only on the equality of parts and their canonical texts. -/
theorem equalStep_congr {equal equal' : Value → Value → Bool} {key key' : Value → List Char}
    {a b : Value}
    (he : ∀ p ∈ store.held a, ∀ q ∈ store.held b, equal p q = equal' p q ∧ equal q p = equal' q p)
    (hk : ∀ p ∈ store.held a, key p = key' p) :
    store.equalStep equal key a b = store.equalStep equal' key' a b := by
  cases a with
  | list a =>
    cases b with
    | list b =>
      simp only [equalStep]
      refine congrArg (a == b || ·) (congrArg _ (all_congr_of_mem fun pair hp => ?_))
      exact (he _ (List.of_mem_zip (a := pair.1) (b := pair.2) hp).1 _
        (List.of_mem_zip (a := pair.1) (b := pair.2) hp).2).1
    | _ => rfl
  | set a =>
    cases b with
    | set b =>
      simp only [equalStep]
      refine congrArg (a == b || ·) (congrArg _ (all_congr_of_mem fun p hp => ?_))
      -- the elements of the first set are looked up in the second one, and compared from there
      simp only [Table.contains]
      rw [find?_keyRuleStep_congr (hk p hp) fun q hq => (he p hp q hq).2]
    | _ => rfl
  | map a =>
    cases b with
    | map b =>
      simp only [equalStep]
      refine congrArg (a == b || ·) (congrArg _ (all_congr_of_mem fun entry hp => ?_))
      have hkey := mem_held_map.mpr ⟨entry, hp, .inl rfl⟩
      have hvalue := mem_held_map.mpr ⟨entry, hp, .inr rfl⟩
      have hfind : (store.table b).find? (keyRuleStep equal key) entry.1 =
          (store.table b).find? (keyRuleStep equal' key') entry.1 :=
        find?_keyRuleStep_congr (hk _ hkey) fun q hq => by
          obtain ⟨slot, hs, rfl⟩ := List.mem_map.mp hq
          exact (he _ hkey _ (mem_held_map.mpr ⟨_, Table.entry_mem hs, .inl rfl⟩)).2
      simp only [Table.get?, hfind]
      cases hf : (store.table b).find? (keyRuleStep equal' key') entry.1 with
      | none => rfl
      | some slot =>
        have hs := Table.mem_slots_of_mem_bucket (List.mem_of_find?_eq_some hf)
        exact (he _ hvalue _ (mem_held_map.mpr ⟨_, Table.entry_mem hs, .inr rfl⟩)).1
    | _ => rfl
  | object a =>
    cases b with
    | object b =>
      simp only [equalStep]
      refine congrArg (a == b || ·) (congrArg _ (all_congr_of_mem fun entry hp => ?_))
      have hvalue : entry.2 ∈ store.held (.object a) := List.mem_map_of_mem (f := Prod.snd) hp
      simp only [Bindings.get?]
      cases hf : (store.members b).entries.find? fun other => other.1 == entry.1 with
      | none => rfl
      | some other =>
        exact (he _ hvalue _ (List.mem_map_of_mem (f := Prod.snd) (List.mem_of_find?_eq_some hf))).1
    | _ => rfl
  | _ => cases b <;> rfl

/-- The order depends only on the order of parts and on the equality and texts of the two values. -/
theorem orderStep_congr {order order' : Value → Value → Ordering} {equal equal' : Value → Value → Bool}
    {text text' : Value → List Char} {a b : Value}
    (ho : ∀ p ∈ store.held a, ∀ q ∈ store.held b, order p q = order' p q)
    (he : equal a b = equal' a b) (ha : text a = text' a) (hb : text b = text' b) :
    store.orderStep order equal text a b = store.orderStep order' equal' text' a b := by
  have htext : orderByText equal text a b = orderByText equal' text' a b := by
    simp only [orderByText, he, ha, hb]
  cases a with
  | list a =>
    cases b with
    | list b => exact orderLists_congr ho
    | _ => exact htext
  | _ => cases b <;> first | rfl | exact htext

/-! ## Depth does not show -/

/-- More depth than values have changes none of their readings. -/
theorem readings_stable (height : Nat) :
    ∀ depth, height < depth → ∀ a, store.Shallow height a →
      store.textAt depth a = store.textAt (depth + 1) a ∧
      store.keyAt depth a = store.keyAt (depth + 1) a ∧
      ∀ b, store.Shallow height b →
        store.equalAt depth a b = store.equalAt (depth + 1) a b ∧
        store.orderAt depth a b = store.orderAt (depth + 1) a b := by
  induction height with
  | zero =>
    rintro (_ | depth) hd a ha
    · exact absurd hd (Nat.lt_irrefl 0)
    -- a value of no height has no parts, and one step reads it
    have hnone : ∀ p, p ∉ store.held a := fun p hp => by
      rw [show store.held a = [] from ha] at hp; cases hp
    have htext : ∀ v, store.Shallow 0 v → store.textAt (depth + 1) v = store.textAt (depth + 1 + 1) v := by
      intro v hv
      have hv' : ∀ p, p ∉ store.held v := fun p hp => by
        rw [show store.held v = [] from hv] at hp; cases hp
      exact textStep_congr (fun p hp => absurd hp (hv' p)) fun p hp => absurd hp (hv' p)
    refine ⟨htext a ha, keyStep_congr (fun p hp => absurd hp (hnone p)) fun p hp => absurd hp (hnone p),
      fun b hb => ?_⟩
    have hequal : store.equalAt (depth + 1) a b = store.equalAt (depth + 1 + 1) a b :=
      equalStep_congr (fun p hp => absurd hp (hnone p)) fun p hp => absurd hp (hnone p)
    exact ⟨hequal, orderStep_congr (fun p hp => absurd hp (hnone p)) hequal (htext a ha) (htext b hb)⟩
  | succ height ih =>
    rintro (_ | depth) hd a ha
    · exact absurd hd (Nat.not_lt_zero _)
    -- all four readings at once, since equality asks for texts and the order asks for both
    have below := ih depth (Nat.lt_of_succ_lt_succ hd)
    have htext : ∀ v, store.Shallow (height + 1) v →
        store.textAt (depth + 1) v = store.textAt (depth + 1 + 1) v := fun v hv =>
      textStep_congr (fun p hp => (below p (hv p hp)).1)
        fun p hp q hq => ((below p (hv p hp)).2.2 q (hv q hq)).2
    refine ⟨htext a ha, keyStep_congr (fun p hp => (below p (ha p hp)).2.1)
      fun p hp q hq => ((below p (ha p hp)).2.2 q (ha q hq)).2, fun b hb => ?_⟩
    have hequal : store.equalAt (depth + 1) a b = store.equalAt (depth + 1 + 1) a b :=
      equalStep_congr (fun p hp q hq => ⟨((below p (ha p hp)).2.2 q (hb q hq)).1,
        ((below q (hb q hq)).2.2 p (ha p hp)).1⟩) fun p hp => (below p (ha p hp)).2.1
    exact ⟨hequal, orderStep_congr (fun p hp q hq => ((below p (ha p hp)).2.2 q (hb q hq)).2)
      hequal (htext a ha) (htext b hb)⟩

/-- Beyond the height of a value more depth changes no reading. -/
theorem readings_further {height depth : Nat} (hdepth : height < depth) (more : Nat) {a : Value}
    (ha : store.Shallow height a) :
    store.textAt depth a = store.textAt (depth + more) a ∧
      store.keyAt depth a = store.keyAt (depth + more) a ∧
      ∀ b, store.Shallow height b →
        store.equalAt depth a b = store.equalAt (depth + more) a b ∧
        store.orderAt depth a b = store.orderAt (depth + more) a b := by
  induction more with
  | zero => exact ⟨rfl, rfl, fun _ _ => ⟨rfl, rfl⟩⟩
  | succ more ih =>
    obtain ⟨htext, hkey, hpair⟩ := ih
    obtain ⟨htext', hkey', hpair'⟩ :=
      readings_stable height (depth + more) (Nat.lt_add_right more hdepth) a ha
    refine ⟨htext.trans htext', hkey.trans hkey', fun b hb => ?_⟩
    exact ⟨(hpair b hb).1.trans (hpair' b hb).1, (hpair b hb).2.trans (hpair' b hb).2⟩

/-- At two depths, each of them more than values have, their readings are the same. -/
theorem readings_agree {height height' depth depth' : Nat} (hdepth : height < depth)
    (hdepth' : height' < depth') {a : Value} (ha : store.Shallow height a)
    (ha' : store.Shallow height' a) :
    store.textAt depth a = store.textAt depth' a ∧
      store.keyAt depth a = store.keyAt depth' a ∧
      ∀ b, store.Shallow height b → store.Shallow height' b →
        store.equalAt depth a b = store.equalAt depth' a b ∧
        store.orderAt depth a b = store.orderAt depth' a b := by
  obtain ⟨htext, hkey, hpair⟩ := readings_further hdepth depth' ha
  obtain ⟨htext', hkey', hpair'⟩ := readings_further hdepth' depth ha'
  rw [Nat.add_comm depth' depth] at htext' hkey' hpair'
  refine ⟨htext.trans htext'.symm, hkey.trans hkey'.symm, fun b hb hb' => ?_⟩
  exact ⟨(hpair b hb).1.trans (hpair' b hb').1.symm, (hpair b hb).2.trans (hpair' b hb').2.symm⟩

/-! ## The equations -/

/-- The canonical text of a value is made of its characters. -/
theorem key_eq_ofList (store : Store) (value : Value) :
    store.key value = String.ofList (store.keyChars value) := rfl

/-- Canonical texts are the same exactly if their characters are. -/
theorem key_eq_iff {a b : Value} :
    store.key a = store.key b ↔ store.keyChars a = store.keyChars b := by
  rw [key_eq_ofList, key_eq_ofList, String.ofList_inj]

/-- Acyclic values are read at every depth that is more than the number of containers. -/
theorem Acyclic.readings {a : Value} (h : store.Acyclic a) {depth : Nat}
    (hdepth : store.containerCount < depth) :
    store.chars a = store.textAt depth a ∧
      store.keyChars a = store.keyAt depth a ∧
      ∀ b, store.Acyclic b →
        store.equal a b = store.equalAt depth a b ∧ store.order a b = store.orderAt depth a b := by
  obtain ⟨htext, hkey, -⟩ := readings_agree (Nat.lt_succ_self _) hdepth (shallow_span h)
    (shallow_of_acyclic h)
  refine ⟨htext, hkey, fun b hb => ?_⟩
  have hpair := readings_agree (Nat.lt_succ_self (max (store.span a) (store.span b))) hdepth
    ((shallow_span h).le (Nat.le_max_left _ _)) (shallow_of_acyclic h)
  exact hpair.2.2 b ((shallow_span hb).le (Nat.le_max_right _ _)) (shallow_of_acyclic hb)

section

variable {a : Value} (ha : store.Acyclic a)

include ha

/-- What an acyclic value holds is read as deep as the number of containers asks for. -/
theorem Acyclic.held_readings {part : Value} (hpart : part ∈ store.held a) :
    store.textAt (store.containerCount + 1) part = store.chars part ∧
      store.keyAt (store.containerCount + 1) part = store.keyChars part ∧
      ∀ other, store.Acyclic other →
        store.equalAt (store.containerCount + 1) part other = store.equal part other ∧
        store.orderAt (store.containerCount + 1) part other = store.order part other := by
  obtain ⟨htext, hkey, hpair⟩ := (ha.of_held hpart).readings (Nat.lt_succ_self _)
  refine ⟨htext.symm, hkey.symm, fun other hother => ?_⟩
  exact ⟨(hpair other hother).1.symm, (hpair other hother).2.symm⟩

/-- The text of a value, from the texts of the values that it holds. -/
theorem chars_eq : store.chars a = store.textStep store.chars store.order a := by
  rw [(ha.readings (Nat.lt_succ_of_lt (Nat.lt_succ_self _))).1]
  refine textStep_congr (fun p hp => (ha.held_readings hp).1) fun p hp q hq => ?_
  exact ((ha.held_readings hp).2.2 q (ha.of_held hq)).2

/-- The key of a value, from the keys of the values that it holds. -/
theorem keyChars_eq : store.keyChars a = store.keyStep store.keyChars store.order a := by
  rw [(ha.readings (Nat.lt_succ_of_lt (Nat.lt_succ_self _))).2.1]
  refine keyStep_congr (fun p hp => (ha.held_readings hp).2.1) fun p hp q hq => ?_
  exact ((ha.held_readings hp).2.2 q (ha.of_held hq)).2

variable {b : Value} (hb : store.Acyclic b)

include hb

/-- The equality of values, from that of the values that they hold. -/
theorem equal_eq : store.equal a b = store.equalStep store.equal store.keyChars a b := by
  rw [((ha.readings (Nat.lt_succ_of_lt (Nat.lt_succ_self _))).2.2 b hb).1]
  refine equalStep_congr (fun p hp q hq => ?_) fun p hp => (ha.held_readings hp).2.1
  exact ⟨((ha.held_readings hp).2.2 q (hb.of_held hq)).1, ((hb.held_readings hq).2.2 p (ha.of_held hp)).1⟩

/-- The order of values, from that of the values that they hold. -/
theorem order_eq :
    store.order a b = store.orderStep store.order store.equal store.chars a b := by
  have hdeep : store.containerCount < store.containerCount + 2 := Nat.lt_succ_of_lt (Nat.lt_succ_self _)
  obtain ⟨htext, -, hpair⟩ := ha.readings hdeep
  rw [(hpair b hb).2]
  refine orderStep_congr (fun p hp q hq => ?_) (hpair b hb).1.symm htext.symm (hb.readings hdeep).1.symm
  exact ((ha.held_readings hp).2.2 q (hb.of_held hq)).2

end

end Store

end Ckl
