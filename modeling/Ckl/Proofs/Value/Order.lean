import Ckl.Proofs.Value.OrderLaws
import Ckl.Proofs.Value.Symmetry

/-!
# The order of values

Truth values, numbers, texts, dates and lists have orders of their own; all other pairs are equal or in
the order of their texts. Each of these orders is total where no integers fold, but the two need not fit
together: a date stands, by its text, before the number 9 and behind 10. `orderLaws_iff` says that this is
all that can go wrong: values are totally ordered exactly if equality is symmetric and transitive and no
value stands, by its text, between two others against their order (`NoneBetween`).
-/

namespace Ckl

open Number (ofWhole Rank rank wholeRank)

/-- What values with an order of their own are; integers and decimals are numbers alike. -/
def Value.family : Value → Option ValueType
  | .boolean _ => some .boolean
  | .int _ | .decimal _ => some .decimal
  | .string _ => some .string
  | .date _ => some .date
  | .list _ => some .list
  | _ => none

/-- Two values that are compared in an order of their own. -/
def Value.Alike (a b : Value) : Prop := a.family ≠ none ∧ a.family = b.family

theorem Value.Alike.symm {a b : Value} (h : a.Alike b) : b.Alike a := ⟨h.2 ▸ h.1, h.2.symm⟩

theorem Value.Alike.trans {a b c : Value} (h : a.Alike b) (h' : b.Alike c) : a.Alike c :=
  ⟨h.1, h.2.trans h'.2⟩

/-- What is like a truth value is one, -/
theorem Value.Alike.boolean {x : Bool} {b : Value} (h : (Value.boolean x).Alike b) :
    ∃ y, b = .boolean y := by
  cases b <;> first | exact ⟨_, rfl⟩ | cases h.2

/-- what is like a text is one, -/
theorem Value.Alike.string {x : String} {b : Value} (h : (Value.string x).Alike b) :
    ∃ y, b = .string y := by
  cases b <;> first | exact ⟨_, rfl⟩ | cases h.2

/-- what is like a date is one -/
theorem Value.Alike.date {x : Calendar.Moment} {b : Value} (h : (Value.date x).Alike b) :
    ∃ y, b = .date y := by
  cases b <;> first | exact ⟨_, rfl⟩ | cases h.2

/-- and what is like a list is one. -/
theorem Value.Alike.list {x : Ref .list} {b : Value} (h : (Value.list x).Alike b) :
    ∃ y, b = .list y := by
  cases b <;> first | exact ⟨_, rfl⟩ | cases h.2

namespace Store

variable {store : Store} {among : Value → Prop}

/-- The order of two values by their texts, types and identities. -/
def byText (store : Store) (a b : Value) : Ordering :=
  (compare (store.chars a) (store.chars b)).then
    ((compare a.type.name b.type.name).then (compare a.identity b.identity))

/-- Two values that are equal or have an order of their own. -/
def Tied (store : Store) (a b : Value) : Prop := a.Alike b ∨ store.equal a b = true

/-- No value stands, by its text, between two others against their order. -/
def NoneBetween (store : Store) (among : Value → Prop) : Prop :=
  ∀ a b c, among a → among b → among c → store.Tied a b → ¬ store.Tied a c → ¬ store.Tied b c →
    store.order a b ≠ .gt → store.byText b c = .lt → store.byText a c = .lt

/-! ## Order by text -/

/-- The order by texts is a total preorder. -/
theorem byText_laws (store : Store) : OrderLaws store.byText fun _ => True :=
  (OrderLaws.of_read store.chars _).lex
    ((OrderLaws.of_read (fun a => a.type.name) _).lex (OrderLaws.of_read Value.identity _))

/-- Values of different kinds are ordered by their texts unless they are equal. -/
theorem order_of_not_alike {a b : Value} (ha : store.Acyclic a) (hb : store.Acyclic b)
    (h : ¬ a.Alike b) :
    store.order a b = if store.equal a b = true then .eq else store.byText a b := by
  have hstep : store.orderStep store.order store.equal store.chars a b =
      orderByText store.equal store.chars a b := by
    cases a <;> cases b <;> first | rfl | exact absurd ⟨nofun, rfl⟩ h
  rw [order_eq ha hb, hstep]
  rfl

/-- Types have different names, -/
theorem name_injective {s t : ValueType} (h : s.name = t.name) : s = t := by
  cases s <;> cases t <;> first | rfl | exact absurd h (by decide)

/-- and patterns different texts. -/
theorem patternText_injective {s t : String} (h : Source.patternText s = Source.patternText t) :
    s = t := by
  have hbody := List.append_cancel_right (List.cons.inj (List.cons.inj h).2).2
  exact String.ext_iff.mpr hbody

theorem Ref.eq_of_index {type : ValueType} {a b : Ref type} (h : a.index = b.index) : a = b := by
  cases a
  cases b
  exact congrArg _ h

/-- Values without an order of their own are equal if texts, types and identities are. -/
theorem equal_of_byText_eq {a b : Value} (ha : store.Acyclic a) (hb : store.Acyclic b)
    (h : ¬ a.Alike b) (heq : store.byText a b = .eq) : store.equal a b = true := by
  simp only [byText, Ordering.then_eq_eq, Std.LawfulEqOrd.compare_eq_iff_eq] at heq
  obtain ⟨htext, htype, hidentity⟩ := heq
  replace htype := name_injective htype
  refine (equal_iff ha hb).mpr ?_
  cases a <;> cases b <;> first
    | (cases htype; done)
    | exact .refl _ nofun
    | exact Ref.eq_of_index hidentity ▸ .refl _ nofun
    | (rw [chars_eq ha, chars_eq hb] at htext
       exact patternText_injective htext ▸ .refl _ nofun)
    | exact absurd ⟨nofun, rfl⟩ h

/-! ## Comparing as equal -/

/-- Acyclic values with the items of the lists among them, and with no decimal that is no number. -/
structure Sortable (store : Store) (among : Value → Prop) : Prop where
  items : ∀ ref, among (.list ref) → ∀ item ∈ (store.items ref).toList, among item
  acyclic : ∀ value, among value → store.Acyclic value
  numbers : ∀ x, among (.decimal x) → (x == x) = true

/-- A sortable value equals itself. -/
theorem Sortable.equal_self (hs : store.Sortable among) {a : Value} (ha : among a) :
    store.equal a a = true := by
  refine (equal_iff (hs.acyclic a ha) (hs.acyclic a ha)).mpr ?_
  cases a with
  | decimal x => exact .decimals (hs.numbers x ha)
  | _ => exact .refl _ nofun

/-- Lists tie if they have the same length and all their items tie. -/
theorem orderLists_eq_iff {α : Type} {order : α → α → Ordering} :
    ∀ {as bs : List α}, orderLists order as bs = .eq ↔ List.Forall₂ (fun a b => order a b = .eq) as bs
  | [], [] => ⟨fun _ => .nil, fun _ => rfl⟩
  | [], _ :: _ => iff_of_false nofun nofun
  | _ :: _, [] => iff_of_false nofun nofun
  | a :: as, b :: bs => by
    rw [orderLists, Ordering.then_eq_eq, orderLists_eq_iff, List.forall₂_cons]

/-- Moments are totally ordered, -/
theorem moments_laws : OrderLaws Calendar.Moment.order fun _ => True :=
  have hday : OrderLaws (fun a b : Calendar.Moment => compare a.day b.day) fun _ => True :=
    OrderLaws.of_read _ _
  have hsecond : OrderLaws (fun a b : Calendar.Moment => compare a.time.second b.time.second)
      fun _ => True := OrderLaws.of_read (fun a : Calendar.Moment => a.time.second) _
  have hleap : OrderLaws (fun a b : Calendar.Moment => compare a.time.leap.toNat b.time.leap.toNat)
      fun _ => True := OrderLaws.of_read (fun a : Calendar.Moment => a.time.leap.toNat) _
  hday.lex (hsecond.lex hleap)

/-- and different ones do not tie. -/
theorem moments_eq_iff {a b : Calendar.Moment} : a.order b = .eq ↔ a = b := by
  constructor
  · intro h
    simp only [Calendar.Moment.order, Ordering.then_eq_eq, compare_eq_iff_eq] at h
    obtain ⟨hday, hsecond, hleap⟩ := h
    obtain ⟨day, second, leap⟩ := a
    obtain ⟨day', second', leap'⟩ := b
    cases leap <;> cases leap' <;> simp_all only [Bool.toNat_true, Bool.toNat_false,
      one_ne_zero, zero_ne_one]
  · rintro rfl
    exact moments_laws.self trivial

/-- An integer and a decimal compare as equal if they are. -/
theorem orderDecimals_eq_iff {x y : Float} (hx : (x == x) = true) (hy : (y == y) = true) :
    orderDecimals x y = .eq ↔ (x == y) = true := by
  obtain ⟨p, hp⟩ := Number.beq_self_iff.mp hx
  obtain ⟨q, hq⟩ := Number.beq_self_iff.mp hy
  rw [Number.orderDecimals_eq hp hq, compare_eq_iff_eq, Number.beq_iff, hp, hq]
  exact ⟨fun h => ⟨p, rfl, h ▸ rfl⟩, fun ⟨r, hr, hr'⟩ => by cases hr; cases hr'; rfl⟩

theorem ofWhole_beq_self (n : Int64) : (ofWhole n == ofWhole n) = true :=
  Number.beq_self_iff.mpr ⟨_, Number.rank_ofWhole n⟩

/-- Values compare as equal exactly if they are equal. -/
theorem Sortable.order_eq_iff (hs : store.Sortable among) {a b : Value} (ha : among a) (hb : among b) :
    store.order a b = .eq ↔ store.equal a b = true := by
  have hacyclic := hs.acyclic a ha
  induction hacyclic generalizing b with
  | intro a hparts ih =>
    have hacyclic : store.Acyclic a := .intro a hparts
    -- by induction on `a`; values that are not alike are ordered by their texts if they differ
    by_cases hne : a.Alike b
    · cases a with
      | boolean x =>
        cases b with
        | boolean y =>
          show compare x y = .eq ↔ (x == y) = true
          rw [Std.LawfulEqOrd.compare_eq_iff_eq, beq_iff_eq]
        | _ => cases hne.2
      | int m =>
        cases b with
        | int n =>
          show compare m.toInt n.toInt = .eq ↔ (m == n) = true
          rw [compare_eq_iff_eq, Int64.toInt_inj, beq_iff_eq]
        | decimal y => exact orderDecimals_eq_iff (ofWhole_beq_self m) (hs.numbers y hb)
        | _ => cases hne.2
      | decimal x =>
        cases b with
        | int n => exact orderDecimals_eq_iff (hs.numbers x ha) (ofWhole_beq_self n)
        | decimal y => exact orderDecimals_eq_iff (hs.numbers x ha) (hs.numbers y hb)
        | _ => cases hne.2
      | string x =>
        cases b with
        | string y =>
          show compare x y = .eq ↔ (x == y) = true
          rw [Std.LawfulEqOrd.compare_eq_iff_eq, beq_iff_eq]
        | _ => cases hne.2
      | date x =>
        cases b with
        | date y =>
          show x.order y = .eq ↔ (x == y) = true
          rw [moments_eq_iff, beq_iff_eq]
        | _ => cases hne.2
      | list r =>
        cases b with
        | list r' =>
          have horder : store.order (.list r) (.list r') =
              orderLists store.order (store.items r).toList (store.items r').toList :=
            Store.order_eq hacyclic (hs.acyclic _ hb)
          have hitem : ∀ p ∈ (store.items r).toList, ∀ q, among q →
              (store.order p q = .eq ↔ store.equal p q = true) :=
            fun p hp q hq => ih p hp (hs.items r ha p hp) hq
          rw [horder, orderLists_eq_iff, equal_iff hacyclic (hs.acyclic _ hb)]
          constructor
          · exact fun h => .list (forall₂_imp_of_mem h fun p hp q hq =>
              (hitem p hp q (hs.items r' hb q hq)).mp)
          · intro h
            cases h with
            | refl =>
              refine List.forall₂_same.mpr fun p hp => ?_
              have hap := hs.items r ha p hp
              exact (hitem p hp p hap).mpr (hs.equal_self hap)
            | list h => exact forall₂_imp_of_mem h fun p hp q hq =>
                (hitem p hp q (hs.items r' hb q hq)).mpr
        | _ => cases hne.2
      | _ => exact absurd rfl hne.1
    · rw [order_of_not_alike hacyclic (hs.acyclic b hb) hne]
      by_cases he : store.equal a b = true
      · rw [if_pos he]
        exact ⟨fun _ => he, fun _ => rfl⟩
      · rw [if_neg he]
        exact ⟨equal_of_byText_eq hacyclic (hs.acyclic b hb) hne, fun h => absurd h he⟩

/-- Neither is a value a decimal that is no number, nor is there one inside it. -/
def Numbered (store : Store) (value : Value) : Prop :=
  ∀ x, value = .decimal x ∨ store.Inside value (.decimal x) → (x == x) = true

/-- What is inside of two acyclic values can be sorted with them. -/
theorem sortable_inside {a b : Value} (ha : store.Acyclic a) (hb : store.Acyclic b)
    (hna : store.Numbered a) (hnb : store.Numbered b) :
    store.Sortable fun value =>
      ∃ whole, (whole = a ∨ whole = b) ∧ (whole = value ∨ store.Inside whole value) where
  items ref h item hi := by
    obtain ⟨whole, hwhole, h⟩ := h
    refine ⟨whole, hwhole, .inr ?_⟩
    rcases h with rfl | h
    · exact .single hi
    · exact h.tail hi
  acyclic value h := by
    obtain ⟨whole, hwhole, h⟩ := h
    have hacyclic : store.Acyclic whole := by
      rcases hwhole with rfl | rfl
      · exact ha
      · exact hb
    rcases h with rfl | h
    · exact hacyclic
    · exact hacyclic.of_inside h
  numbers x h := by
    obtain ⟨whole, hwhole, h⟩ := h
    rcases hwhole with rfl | rfl
    · exact hna x h
    · exact hnb x h

/-- **Order and equality agree.** Two acyclic values in which every decimal is a number compare as equal
exactly if they are equal. -/
theorem order_eq_iff_equal {a b : Value} (ha : store.Acyclic a) (hb : store.Acyclic b)
    (hna : store.Numbered a) (hnb : store.Numbered b) :
    store.order a b = .eq ↔ store.equal a b = true :=
  (sortable_inside ha hb hna hnb).order_eq_iff ⟨a, .inl rfl, .inl rfl⟩ ⟨b, .inr rfl, .inl rfl⟩

/-- An atom is numbered unless it is a decimal that does not equal itself. -/
theorem numbered_of_isAtomic {a : Value} (hatom : a.isAtomic = true)
    (h : ∀ x, a = .decimal x → (x == x) = true) : store.Numbered a := by
  intro x hx
  rcases hx with hx | hx
  · exact h x hx
  · obtain ⟨part, hp, _⟩ := Relation.TransGen.head'_iff.mp hx
    rw [held_of_isAtomic hatom] at hp
    cases hp

/-- A list is numbered if its items are. -/
theorem numbered_list {ref : Ref .list} (h : ∀ item ∈ store.items ref, store.Numbered item) :
    store.Numbered (.list ref) := by
  rintro x (hx | hx)
  · cases hx
  · obtain ⟨item, hi, hx⟩ := Relation.TransGen.head'_iff.mp hx
    refine h item (Array.mem_toList_iff.mp hi) x ?_
    rcases Relation.reflTransGen_iff_eq_or_transGen.mp hx with heq | hx
    · exact .inl heq.symm
    · exact .inr hx

/-- A list is acyclic if its items are. -/
theorem acyclic_list {ref : Ref .list} (h : ∀ item ∈ store.items ref, store.Acyclic item) :
    store.Acyclic (.list ref) :=
  .intro _ fun item hi => h item (Array.mem_toList_iff.mp hi)

/-- A list that ends with an integer and one that ends with the decimal of that integer. -/
theorem order_eq_iff_equal_lists :
    let store := { bare with lists := #[#[.string "a", .int 1], #[.string "a", .decimal (ofWhole 1)]] }
    store.order (.list ⟨0⟩) (.list ⟨1⟩) = .eq ↔ store.equal (.list ⟨0⟩) (.list ⟨1⟩) = true := by
  intro store
  have hitem : ∀ item ∈ [.string "a", .int 1, .decimal (ofWhole 1)],
      store.Acyclic item ∧ store.Numbered item := by
    simp only [List.forall_mem_cons, List.not_mem_nil, false_implies, implies_true, and_true]
    refine ⟨⟨acyclic_of_isAtomic rfl, numbered_of_isAtomic rfl nofun⟩,
      ⟨acyclic_of_isAtomic rfl, numbered_of_isAtomic rfl nofun⟩,
      acyclic_of_isAtomic rfl, numbered_of_isAtomic rfl fun x h => ?_⟩
    cases h
    exact ofWhole_beq_self 1
  have hitems : ∀ index : Nat, index < 2 → ∀ item ∈ store.items ⟨index⟩,
      item ∈ [.string "a", .int 1, .decimal (ofWhole 1)] := by
    intro index hlt item hi
    have hi : item ∈ (store.items ⟨index⟩).toList := Array.mem_toList_iff.mpr hi
    match index with
    | 0 => exact List.mem_append_left [.decimal (ofWhole 1)] hi
    | 1 =>
      have hskip : [Value.string "a", .decimal (ofWhole 1)].Sublist
          [.string "a", .int 1, .decimal (ofWhole 1)] := ((List.Sublist.refl _).cons _).cons_cons _
      exact hskip.subset hi
  have hacyclic : ∀ index : Nat, index < 2 → store.Acyclic (.list ⟨index⟩) := fun index hlt =>
    acyclic_list fun item hi => (hitem item (hitems index hlt item hi)).1
  have hnumbered : ∀ index : Nat, index < 2 → store.Numbered (.list ⟨index⟩) := fun index hlt =>
    numbered_list fun item hi => (hitem item (hitems index hlt item hi)).2
  exact order_eq_iff_equal (hacyclic 0 (by decide)) (hacyclic 1 (by decide))
    (hnumbered 0 (by decide)) (hnumbered 1 (by decide))

/-! ## Numbers -/

/-- The rank of the double of a number. -/
def rankOf? : Value → Option Rank
  | .int n => some (wholeRank n.toInt)
  | .decimal x => rank x
  | _ => none

/-- Sortable numbers have a rank. -/
theorem Sortable.exists_rank (hs : store.Sortable among) {a : Value} (ha : among a)
    (hnum : a.family = some .decimal) : ∃ p, rankOf? a = some p := by
  cases a with
  | int n => exact ⟨_, rfl⟩
  | decimal x => exact Number.beq_self_iff.mp (hs.numbers x ha)
  | _ => cases hnum

/-- Unless both are integers, numbers are in the order of their ranks. -/
theorem order_of_ranks {a b : Value} {p q : Rank} (hp : rankOf? a = some p) (hq : rankOf? b = some q)
    (hne : ∀ m n, a = .int m → b ≠ .int n) : store.order a b = compare p q := by
  have hwhole : ∀ {n : Int64} {r : Rank}, rankOf? (.int n) = some r → rank (ofWhole n) = some r :=
    fun h => (Number.rank_ofWhole _).trans h
  cases a with
  | int m =>
    cases b with
    | int n => exact absurd rfl (hne m n rfl)
    | decimal y => exact Number.orderDecimals_eq (hwhole hp) hq
    | _ => cases hq
  | decimal x =>
    cases b with
    | int n => exact Number.orderDecimals_eq hp (hwhole hq)
    | decimal y => exact Number.orderDecimals_eq hp hq
    | _ => cases hq
  | _ => cases hp

/-- Numbers in order have ranks in order; of integers only the ranks may be the same. -/
theorem rank_le_of_order {a b : Value} {p q : Rank} (hp : rankOf? a = some p)
    (hq : rankOf? b = some q) (h : store.order a b ≠ .gt) : p ≤ q := by
  by_cases hne : ∀ m n, a = .int m → b ≠ .int n
  · rw [order_of_ranks hp hq hne] at h
    exact compare_le_iff_le.mp h
  · simp only [not_forall, not_not] at hne
    obtain ⟨m, n, rfl, rfl⟩ := hne
    have hle : m.toInt ≤ n.toInt := compare_le_iff_le.mp h
    cases hp
    cases hq
    exact Number.wholeRank_mono hle

/-- The order of numbers is transitive where equality is. -/
theorem Sortable.trans_numbers (hs : store.Sortable among) (hl : store.EqualityLaws among)
    {a b c : Value} (ha : among a) (hb : among b) (hc : among c) (hna : a.family = some .decimal)
    (hnb : b.family = some .decimal) (hnc : c.family = some .decimal) (hab : store.order a b ≠ .gt)
    (hbc : store.order b c ≠ .gt) : store.order a c ≠ .gt := by
  obtain ⟨p, hp⟩ := hs.exists_rank ha hna
  obtain ⟨q, hq⟩ := hs.exists_rank hb hnb
  obtain ⟨r, hr⟩ := hs.exists_rank hc hnc
  have hpq := rank_le_of_order hp hq hab
  have hqr := rank_le_of_order hq hr hbc
  -- ranks are transitive, but two integers are compared exactly even if they have one rank
  by_cases hne : ∀ m n, a = .int m → c ≠ .int n
  · rw [order_of_ranks hp hr hne]
    exact compare_le_iff_le.mpr (hpq.trans hqr)
  simp only [not_forall, not_not] at hne
  obtain ⟨m, n, rfl, rfl⟩ := hne
  intro hgt
  have hgt : compare m.toInt n.toInt = .gt := hgt
  have hlt : n.toInt < m.toInt := compare_gt_iff_gt.mp hgt
  cases b with
  | int k =>
    have hmk : m.toInt ≤ k.toInt := compare_le_iff_le.mp hab
    have hkn : k.toInt ≤ n.toInt := compare_le_iff_le.mp hbc
    omega
  | decimal x =>
    -- the ranks of the three are the same, so that they are equal
    cases hp
    cases hr
    have hnm := Number.wholeRank_mono hlt.le
    have hmx : store.order (.int m) (.decimal x) = .eq := by
      rw [order_of_ranks rfl hq nofun, compare_eq_iff_eq]
      exact le_antisymm hpq (hqr.trans hnm)
    have hxn : store.order (.decimal x) (.int n) = .eq := by
      rw [order_of_ranks hq rfl nofun, compare_eq_iff_eq]
      exact le_antisymm hqr (hnm.trans hpq)
    have hmn := hl.trans _ _ _ ha hb hc ((hs.order_eq_iff ha hb).mp hmx)
      ((hs.order_eq_iff hb hc).mp hxn)
    have hmn : compare m.toInt n.toInt = .eq := (hs.order_eq_iff ha hc).mpr hmn
    rw [hgt] at hmn
    cases hmn
  | _ => cases hnb

/-! ## The orders of their own -/

/-- Some of the values, and values among which are the items of their lists. -/
structure Level (store : Store) (among whole part : Value → Prop) : Prop where
  within : ∀ value, whole value → among value
  items : ∀ ref, whole (.list ref) → ∀ item ∈ (store.items ref).toList, part item

section Level

variable {whole part : Value → Prop} (hs : store.Sortable among) (hl : store.EqualityLaws among)
  (hlevel : store.Level among whole part) (ih : OrderLaws store.order part) {a b c : Value}

include hs hlevel ih

/-- Values of one family are totally ordered, if the items of lists are and equality is transitive. -/
theorem trans_alike (hl : store.EqualityLaws among) (ha : whole a) (hb : whole b) (hc : whole c)
    (hne : a.Alike b) (hne' : b.Alike c) (hab : store.order a b ≠ .gt)
    (hbc : store.order b c ≠ .gt) : store.order a c ≠ .gt := by
  have hacyclic := fun v (hv : whole v) => hs.acyclic v (hlevel.within v hv)
  -- integers and decimals are one family
  have hnum : a.family = some .decimal → store.order a c ≠ .gt := fun h =>
    hs.trans_numbers hl (hlevel.within a ha) (hlevel.within b hb) (hlevel.within c hc) h
      (hne.2 ▸ h) (hne'.2 ▸ hne.2 ▸ h) hab hbc
  cases a with
  | int m => exact hnum rfl
  | decimal x => exact hnum rfl
  | boolean x =>
    obtain ⟨y, rfl⟩ := hne.boolean
    obtain ⟨z, rfl⟩ := hne'.boolean
    have hlaws : OrderLaws (fun x y : Bool => compare x y) fun _ => True := .of_read id _
    exact hlaws.trans x y z trivial trivial trivial hab hbc
  | string x =>
    obtain ⟨y, rfl⟩ := hne.string
    obtain ⟨z, rfl⟩ := hne'.string
    have hlaws : OrderLaws (fun x y : String => compare x y) fun _ => True := .of_read id _
    exact hlaws.trans x y z trivial trivial trivial hab hbc
  | date x =>
    obtain ⟨y, rfl⟩ := hne.date
    obtain ⟨z, rfl⟩ := hne'.date
    exact moments_laws.trans x y z trivial trivial trivial hab hbc
  | list r =>
    obtain ⟨r', rfl⟩ := hne.list
    obtain ⟨r'', rfl⟩ := hne'.list
    rw [Store.order_eq (hacyclic _ ha) (hacyclic _ hb)] at hab
    rw [Store.order_eq (hacyclic _ hb) (hacyclic _ hc)] at hbc
    rw [Store.order_eq (hacyclic _ ha) (hacyclic _ hc)]
    exact ih.lists.trans _ _ _ (hlevel.items r ha) (hlevel.items r' hb) (hlevel.items r'' hc) hab hbc
  | _ => exact absurd rfl hne.1

/-- Reversing the sides reverses the order of values of one family, if it does for items. -/
theorem reverse_alike (ha : whole a) (hb : whole b) (hne : a.Alike b) :
    store.order b a = (store.order a b).swap := by
  have hacyclic := fun v (hv : whole v) => hs.acyclic v (hlevel.within v hv)
  have hnum : a.family = some .decimal → store.order b a = (store.order a b).swap := by
    intro h
    obtain ⟨p, hp⟩ := hs.exists_rank (hlevel.within a ha) h
    obtain ⟨q, hq⟩ := hs.exists_rank (hlevel.within b hb) (hne.2 ▸ h)
    by_cases hwhole : ∀ m n, a = .int m → b ≠ .int n
    · rw [order_of_ranks hp hq hwhole, order_of_ranks hq hp fun m n hbm han => hwhole n m han hbm]
      exact Std.OrientedCmp.eq_swap
    · simp only [not_forall, not_not] at hwhole
      obtain ⟨m, n, rfl, rfl⟩ := hwhole
      show compare n.toInt m.toInt = (compare m.toInt n.toInt).swap
      exact Std.OrientedCmp.eq_swap
  cases a with
  | int m => exact hnum rfl
  | decimal x => exact hnum rfl
  | boolean x =>
    obtain ⟨y, rfl⟩ := hne.boolean
    show compare y x = (compare x y).swap
    exact Std.OrientedCmp.eq_swap
  | string x =>
    obtain ⟨y, rfl⟩ := hne.string
    show compare y x = (compare x y).swap
    exact Std.OrientedCmp.eq_swap
  | date x =>
    obtain ⟨y, rfl⟩ := hne.date
    exact moments_laws.reverse x y trivial trivial
  | list r =>
    obtain ⟨r', rfl⟩ := hne.list
    rw [Store.order_eq (hacyclic _ ha) (hacyclic _ hb),
      Store.order_eq (hacyclic _ hb) (hacyclic _ ha)]
    exact ih.lists.reverse _ _ (hlevel.items r ha) (hlevel.items r' hb)
  | _ => exact absurd rfl hne.1

end Level

/-! ## Orders of their own among the order by text -/

/-- The same values are of one family. -/
theorem Same.family_eq {a b : Value} (h : store.Same a b) : a.family = b.family := by
  cases h <;> rfl

section Tied

variable (hs : store.Sortable among) (hl : store.EqualityLaws among) {a b c : Value}
  (ha : among a) (hb : among b) (hc : among c)

include hs ha hb in
/-- Two values that are tied have an order of their own, or are equal and have none. -/
theorem Tied.alike_or_equal (h : store.Tied a b) :
    a.Alike b ∨ a.family = none ∧ store.equal a b = true := by
  by_cases hne : a.family = none
  · rcases h with h | h
    · exact absurd hne h.1
    · exact .inr ⟨hne, h⟩
  · rcases h with h | h
    · exact .inl h
    · exact .inl ⟨hne, ((equal_iff (hs.acyclic a ha) (hs.acyclic b hb)).mp h).family_eq⟩

include hl ha hb in
/-- What ties with something is tied with by it. -/
theorem Tied.symm (h : store.Tied a b) : store.Tied b a :=
  h.imp Value.Alike.symm (hl.symm a b ha hb)

include hs hl ha hb hc in
/-- Ties go on. -/
theorem Tied.trans (h : store.Tied a b) (h' : store.Tied b c) : store.Tied a c := by
  rcases h.alike_or_equal hs ha hb with hab | ⟨hnone, hab⟩
  · rcases h'.alike_or_equal hs hb hc with hbc | ⟨hnone', _⟩
    · exact .inl (hab.trans hbc)
    · exact absurd (hab.2.trans hnone') hab.1
  · rcases h'.alike_or_equal hs hb hc with hbc | ⟨_, hbc⟩
    · have hfamily := ((equal_iff (hs.acyclic a ha) (hs.acyclic b hb)).mp hab).family_eq
      exact absurd (hfamily.symm.trans hnone) hbc.1
    · exact .inr (hl.trans a b c ha hb hc hab hbc)

include hs ha hb

/-- Values that are not tied are in the strict order of their texts. -/
theorem order_of_not_tied (h : ¬ store.Tied a b) : store.order a b = store.byText a b := by
  have hne : ¬ a.Alike b := fun hne => h (.inl hne)
  rw [order_of_not_alike (hs.acyclic a ha) (hs.acyclic b hb) hne, if_neg fun he => h (.inr he)]

/-- Values that do not tie have different texts. -/
theorem byText_ne_eq (h : ¬ store.Tied a b) : store.byText a b ≠ .eq := fun heq =>
  h (.inr (equal_of_byText_eq (hs.acyclic a ha) (hs.acyclic b hb) (fun hne => h (.inl hne)) heq))

/-- Where values do not tie, the order is the one by texts. -/
theorem byText_of_order_ne_gt (h : ¬ store.Tied a b) (hle : store.order a b ≠ .gt) :
    store.byText a b = .lt := by
  rw [order_of_not_tied hs ha hb h] at hle
  have hne := byText_ne_eq hs ha hb h
  cases ho : store.byText a b with
  | lt => rfl
  | eq => exact absurd ho hne
  | gt => exact absurd ho hle

end Tied

/-- The order by texts is turned round with its arguments, -/
theorem byText_swap (store : Store) (a b : Value) :
    store.byText b a = (store.byText a b).swap :=
  (byText_laws store).reverse a b trivial trivial

/-- so it is asymmetric. -/
theorem byText_asymm {a b : Value} (h : store.byText a b = .lt) : store.byText b a ≠ .lt := by
  rw [byText_swap, h]
  exact nofun

section Step

variable {whole part : Value → Prop} (hs : store.Sortable among) (hl : store.EqualityLaws among)
  (hlevel : store.Level among whole part) (ih : OrderLaws store.order part)

include hs hl hlevel ih

/-- So is the order of whole values. -/
theorem order_swap {a b : Value} (ha : whole a) (hb : whole b) :
    store.order b a = (store.order a b).swap := by
  by_cases hne : a.Alike b
  · exact reverse_alike hs hlevel ih ha hb hne
  · have ha := hlevel.within a ha
    have hb := hlevel.within b hb
    have hequal : store.equal b a = store.equal a b :=
      Bool.eq_iff_iff.mpr ⟨hl.symm b a hb ha, hl.symm a b ha hb⟩
    rw [order_of_not_alike (hs.acyclic a ha) (hs.acyclic b hb) hne,
      order_of_not_alike (hs.acyclic b hb) (hs.acyclic a ha) fun h => hne h.symm, hequal,
      byText_swap store a b]
    split <;> rfl

/-- Tied values are in a transitive order. -/
theorem trans_tied {a b c : Value} (ha : whole a) (hb : whole b) (hc : whole c)
    (hab : store.Tied a b) (hbc : store.Tied b c) (hle : store.order a b ≠ .gt)
    (hle' : store.order b c ≠ .gt) : store.order a c ≠ .gt := by
  have hwa := hlevel.within a ha
  have hwb := hlevel.within b hb
  have hwc := hlevel.within c hc
  rcases (hab.trans hs hl hwa hwb hwc hbc).alike_or_equal hs hwa hwc with hne | ⟨_, heq⟩
  · have hne' : a.Alike b := by
      rcases hab.alike_or_equal hs hwa hwb with h | ⟨hnone, _⟩
      · exact h
      · exact absurd hnone hne.1
    exact trans_alike hs hlevel ih hl ha hb hc hne' (hne'.symm.trans hne) hle hle'
  · rw [(hs.order_eq_iff hwa hwc).mpr heq]
    exact nofun

/-- One step up: if items are totally ordered, and no value stands between two others against their
order, then the values with these items are totally ordered. -/
theorem orderLaws_step (hbetween : store.NoneBetween among) : OrderLaws store.order whole where
  reverse a b ha hb := order_swap hs hl hlevel ih ha hb
  trans a b c ha hb hc hle hle' := by
    have hwa := hlevel.within a ha
    have hwb := hlevel.within b hb
    have hwc := hlevel.within c hc
    -- tied values are ordered among themselves, all others by their texts
    by_cases hab : store.Tied a b
    · by_cases hbc : store.Tied b c
      · exact trans_tied hs hl hlevel ih ha hb hc hab hbc hle hle'
      · -- `c` stands apart from `a` and `b`
        have hac : ¬ store.Tied a c := fun h =>
          hbc ((hab.symm hl hwa hwb).trans hs hl hwb hwa hwc h)
        have hlt' := byText_of_order_ne_gt hs hwb hwc hbc hle'
        have hlt := hbetween a b c hwa hwb hwc hab hac hbc hle hlt'
        rw [order_of_not_tied hs hwa hwc hac, hlt]
        exact nofun
    · have hlt := byText_of_order_ne_gt hs hwa hwb hab hle
      by_cases hbc : store.Tied b c
      · -- `a` stands apart: after `c` it would be after `b`
        have hac : ¬ store.Tied a c := fun h =>
          hab (h.trans hs hl hwa hwc hwb (hbc.symm hl hwb hwc))
        rw [order_of_not_tied hs hwa hwc hac]
        intro hgt
        have hca : store.byText c a = .lt := by rw [byText_swap store a c, hgt]; rfl
        exact byText_asymm hlt (hbetween b c a hwb hwc hwa hbc (fun h => hab (h.symm hl hwb hwa))
          (fun h => hac (h.symm hl hwc hwa)) hle' hca)
      · have hlt' := byText_of_order_ne_gt hs hwb hwc hbc hle'
        by_cases hac : store.Tied a c
        · -- `b` stands apart: before `a` it would be before `c`
          intro hgt
          have hca : store.order c a ≠ .gt := by
            rw [order_swap hs hl hlevel ih ha hc, hgt]
            exact nofun
          exact byText_asymm hlt' (hbetween c a b hwc hwa hwb (hac.symm hl hwa hwc)
            (fun h => hbc (h.symm hl hwc hwb)) hab hca hlt)
        · rw [order_of_not_tied hs hwa hwc hac, (byText_laws store).lt_of_lt_of_le trivial trivial
            trivial hlt (by rw [hlt']; exact nofun)]
          exact nofun

end Step

/-- Values are totally ordered if equality is symmetric and transitive among them and none of them
stands, by its text, between two others against their order. -/
theorem Sortable.orderLaws (hs : store.Sortable among) (hl : store.EqualityLaws among)
    (hbetween : store.NoneBetween among) : OrderLaws store.order among := by
  have hlevels : ∀ depth, OrderLaws store.order fun value =>
      among value ∧ store.Shallow depth value := by
    intro depth
    induction depth with
    | zero =>
      have hnone : OrderLaws store.order fun _ => False :=
        ⟨fun _ _ h => h.elim, fun _ _ _ h => h.elim⟩
      refine orderLaws_step hs hl ⟨fun _ h => h.1, fun ref h item hi => ?_⟩ hnone hbetween
      have hempty : store.held (.list ref) = [] := h.2
      rw [held_list] at hempty
      rw [hempty] at hi
      cases hi
    | succ depth ih =>
      exact orderLaws_step hs hl ⟨fun _ h => h.1, fun ref h item hi =>
        ⟨hs.items ref h.1 item hi, h.2 item hi⟩⟩ ih hbetween
  have hdeep : ∀ value, among value → among value ∧ store.Shallow store.containerCount value :=
    fun value h => ⟨h, shallow_of_acyclic (hs.acyclic value h)⟩
  exact (hlevels _).mono hdeep

/-- Among values of one family nothing stands apart. -/
theorem noneBetween_of_alike (h : ∀ a b, among a → among b → a.Alike b) : store.NoneBetween among :=
  fun a _ c ha _ hc _ hac => absurd (.inl (h a c ha hc)) hac

/-- **When values are totally ordered.** The order of values is total on acyclic values without decimals
that are no numbers exactly if equality is symmetric and transitive among them and none of them stands,
by its text, between two others against their order. -/
theorem orderLaws_iff (store : Store) (among : Value → Prop) (hs : store.Sortable among) :
    OrderLaws store.order among ↔ store.EqualityLaws among ∧ store.NoneBetween among := by
  refine ⟨fun h => ⟨⟨fun a b ha hb hab => ?_, fun a b c ha hb hc hab hbc => ?_⟩,
    fun a b c ha hb hc _ hac hbc hle hlt => ?_⟩, fun h => hs.orderLaws h.1 h.2⟩
  · exact (hs.order_eq_iff hb ha).mp (h.eq_symm ha hb ((hs.order_eq_iff ha hb).mpr hab))
  · exact (hs.order_eq_iff ha hc).mp (h.eq_trans ha hb hc ((hs.order_eq_iff ha hb).mpr hab)
      ((hs.order_eq_iff hb hc).mpr hbc))
  · rw [← order_of_not_tied hs hb hc hbc] at hlt
    rw [← order_of_not_tied hs ha hc hac]
    exact h.lt_of_le_of_lt ha hb hc hle hlt

/-- Integers are totally ordered. -/
theorem orderLaws_integers :
    bare.Sortable (∃ n, · = .int n) ∧ OrderLaws bare.order (∃ n, · = .int n) := by
  have hatoms : ∀ value : Value, (∃ n, value = .int n) → value.isAtomic = true := by
    rintro _ ⟨n, rfl⟩
    rfl
  have hs : bare.Sortable (∃ n, · = .int n) := by
    refine ⟨?_, fun value h => acyclic_of_isAtomic (hatoms value h), ?_⟩
    · rintro ref ⟨n, h⟩
      cases h
    · rintro x ⟨n, h⟩
      cases h
  have hcoherent : bare.keyRule.Coherent (∃ n, · = .int n) := by
    refine coherent_atoms hatoms ?_
    rintro ⟨_, _, _, _, _, ⟨_, h⟩, _⟩
    cases h
  refine ⟨hs, (orderLaws_iff bare _ hs).mpr ⟨⟨hcoherent.symm, hcoherent.trans⟩, ?_⟩⟩
  refine noneBetween_of_alike ?_
  rintro _ _ ⟨m, rfl⟩ ⟨n, rfl⟩
  exact ⟨nofun, rfl⟩

/-- A date stands by its text, which begins with the year, before the number 9 and behind 10. -/
theorem order_not_trans_at_date :
    let date := Value.date (Calendar.Moment.midnight (Calendar.Civil.toDay ⟨2024, 1, 1⟩))
    bare.order (.int 10) date ≠ .gt ∧ bare.order date (.int 9) ≠ .gt ∧
      bare.order (.int 10) (.int 9) = .gt := by
  decide

end Store

end Ckl

