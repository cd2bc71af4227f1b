import Ckl.Proofs.Value.Reading
import Mathlib.Order.Basic

/-!
# Laws of comparisons

`OrderLaws` says that a comparison is a total order on some elements: reversing its sides reverses it,
and it is transitive. Elements that compare as equal need not be the same. The laws pass to pairs that
are compared by one part first (`OrderLaws.lex`) and to lists (`OrderLaws.lists`); under them `sortBy`
gives lists that are in order (`OrderLaws.sorted`), and two lists in strict order that have equal
elements have them at the same places (`OrderLaws.forall₂_of_match`).
-/

namespace Ckl

/-- On some elements a comparison is a total order. -/
structure OrderLaws {α : Type} (order : α → α → Ordering) (among : α → Prop) : Prop where
  reverse : ∀ a b, among a → among b → order b a = (order a b).swap
  trans : ∀ a b c, among a → among b → among c → order a b ≠ .gt → order b c ≠ .gt → order a c ≠ .gt

/-- A comparison of what some function reads of the elements. -/
theorem OrderLaws.of_read {α β : Type} {cmp : β → β → Ordering} [Std.TransCmp cmp] (read : α → β)
    (among : α → Prop) : OrderLaws (fun a b => cmp (read a) (read b)) among where
  reverse _ _ _ _ := Std.OrientedCmp.eq_swap
  trans _ _ _ _ _ _ hab hbc := Ordering.ne_gt_iff_isLE.mpr
    (Std.TransCmp.isLE_trans (Ordering.ne_gt_iff_isLE.mp hab) (Ordering.ne_gt_iff_isLE.mp hbc))

namespace OrderLaws

variable {α : Type} {order : α → α → Ordering} {among : α → Prop}

/-- On fewer elements the laws hold as well. -/
theorem mono (h : OrderLaws order among) {fewer : α → Prop} (hsub : ∀ a, fewer a → among a) :
    OrderLaws order fewer where
  reverse a b ha hb := h.reverse a b (hsub a ha) (hsub b hb)
  trans a b c ha hb hc := h.trans a b c (hsub a ha) (hsub b hb) (hsub c hc)

section

variable (h : OrderLaws order among) {a b c : α} (ha : among a) (hb : among b) (hc : among c)

include h ha in
/-- An element compares as equal to itself. -/
theorem self : order a a = .eq := by
  have hswap := h.reverse a a ha ha
  cases ho : order a a <;> rw [ho] at hswap <;> first | rfl | cases hswap

include h ha hb

/-- Greater is less from the other side. -/
theorem gt_iff : order a b = .gt ↔ order b a = .lt := by
  rw [h.reverse a b ha hb]
  cases order a b <;> simp only [Ordering.swap, reduceCtorEq]

/-- Equal is equal from the other side. -/
theorem eq_symm (hab : order a b = .eq) : order b a = .eq := by
  rw [h.reverse a b ha hb, hab]
  rfl

/-- What is not less is greater or equal. -/
theorem ge_of_not_lt (hab : order a b ≠ .lt) : order b a ≠ .gt := by
  rw [ne_eq, h.gt_iff hb ha]
  exact hab

include hc

/-- Elements that are equal to a third one are equal. -/
theorem eq_trans (hab : order a b = .eq) (hbc : order b c = .eq) : order a c = .eq := by
  have hforth := h.trans a b c ha hb hc (by rw [hab]; exact nofun) (by rw [hbc]; exact nofun)
  have hback := h.trans c b a hc hb ha (by rw [h.eq_symm hb hc hbc]; exact nofun)
    (by rw [h.eq_symm ha hb hab]; exact nofun)
  rw [h.reverse a c ha hc] at hback
  cases ho : order a c <;> rw [ho] at hforth hback <;> first | rfl | exact absurd rfl hforth |
    exact absurd rfl hback

/-- Less than one that is not greater. -/
theorem lt_of_lt_of_le (hab : order a b = .lt) (hbc : order b c ≠ .gt) : order a c = .lt := by
  by_contra hac
  -- otherwise `c` would be at most `a`, and `b` with it
  have hba := h.trans b c a hb hc ha hbc (h.ge_of_not_lt ha hc hac)
  rw [h.reverse a b ha hb, hab] at hba
  exact hba rfl

/-- Not greater than one that is less. -/
theorem lt_of_le_of_lt (hab : order a b ≠ .gt) (hbc : order b c = .lt) : order a c = .lt := by
  by_contra hac
  have hcb := h.trans c a b hc ha hb (h.ge_of_not_lt ha hc hac) hab
  rw [h.reverse b c hb hc, hbc] at hcb
  exact hcb rfl

end

/-- The laws pass to what is compared by a part of it. -/
theorem comap {β : Type} (h : OrderLaws order among) (read : β → α) :
    OrderLaws (fun a b => order (read a) (read b)) fun b => among (read b) where
  reverse a b ha hb := h.reverse (read a) (read b) ha hb
  trans a b c ha hb hc := h.trans (read a) (read b) (read c) ha hb hc

/-- Comparing by one comparison first and by another one where it is undecided. -/
theorem lex {second : α → α → Ordering} (h : OrderLaws order among)
    (h' : OrderLaws second among) :
    OrderLaws (fun a b => (order a b).then (second a b)) among where
  reverse a b ha hb := by
    simp only [h.reverse a b ha hb, h'.reverse a b ha hb, Ordering.swap_then]
  trans a b c ha hb hc hab hbc := by
    simp only [ne_eq, Ordering.then_eq_gt, not_or, not_and] at hab hbc ⊢
    refine ⟨h.trans a b c ha hb hc hab.1 hbc.1, fun hac => ?_⟩
    have heq : order a b = .eq := by
      cases ho : order a b with
      | eq => rfl
      | gt => exact absurd ho hab.1
      | lt =>
        rw [h.lt_of_lt_of_le ha hb hc ho hbc.1] at hac
        cases hac
    have heq' : order b c = .eq := by
      cases ho : order b c with
      | eq => rfl
      | gt => exact absurd ho hbc.1
      | lt =>
        rw [h.lt_of_le_of_lt ha hb hc hab.1 ho] at hac
        cases hac
    exact h'.trans a b c ha hb hc (hab.2 heq) (hbc.2 heq')

/-! ## Lists -/

/-- Lists are reversed in order if their elements are. -/
theorem reverse_lists : ∀ {as bs : List α}, (∀ a ∈ as, ∀ b ∈ bs, order b a = (order a b).swap) →
    orderLists order bs as = (orderLists order as bs).swap
  | [], [], _ => rfl
  | [], _ :: _, _ => rfl
  | _ :: _, [], _ => rfl
  | a :: as, b :: bs, h => by
    have hrest := reverse_lists fun x (hx : x ∈ as) y (hy : y ∈ bs) =>
      h x (List.mem_cons_of_mem _ hx) y (List.mem_cons_of_mem _ hy)
    rw [orderLists, orderLists, hrest, h a List.mem_cons_self b List.mem_cons_self,
      Ordering.swap_then]

/-- Lists are compared by the first elements, and by the others if these are equal. -/
theorem orderLists_cons_ne_gt {a b : α} {as bs : List α} :
    orderLists order (a :: as) (b :: bs) ≠ .gt ↔
      order a b = .lt ∨ order a b = .eq ∧ orderLists order as bs ≠ .gt := by
  simp only [orderLists]
  cases order a b <;>
    simp only [Ordering.then, reduceCtorEq, ne_eq, not_false_eq_true, not_true_eq_false, true_or,
      false_or, false_and, true_and, or_self]

/-- Lists are compared by their first difference, so the laws pass to them. -/
theorem lists (h : OrderLaws order among) :
    OrderLaws (orderLists order) fun as => ∀ a ∈ as, among a where
  reverse as bs ha hb := reverse_lists fun a hma b hmb => h.reverse a b (ha a hma) (hb b hmb)
  trans as bs cs := by
    induction as generalizing bs cs with
    | nil =>
      intro _ _ _ _ _
      cases cs <;> exact nofun
    | cons a as ih =>
      intro hall hbll hcll hab hbc
      cases bs with
      | nil => exact absurd rfl hab
      | cons b bs =>
        cases cs with
        | nil => exact absurd rfl hbc
        | cons c cs =>
          have ha := hall a List.mem_cons_self
          have hb := hbll b List.mem_cons_self
          have hc := hcll c List.mem_cons_self
          rw [orderLists_cons_ne_gt] at hab hbc ⊢
          rcases hab with hab | ⟨hab, habs⟩
          · refine .inl (h.lt_of_lt_of_le ha hb hc hab ?_)
            rcases hbc with hbc | ⟨hbc, _⟩ <;> rw [hbc] <;> exact nofun
          rcases hbc with hbc | ⟨hbc, hbcs⟩
          · exact .inl (h.lt_of_le_of_lt ha hb hc (by rw [hab]; exact nofun) hbc)
          · exact .inr ⟨h.eq_trans ha hb hc hab hbc,
              ih bs cs (fun x hx => hall x (List.mem_cons_of_mem _ hx))
                (fun x hx => hbll x (List.mem_cons_of_mem _ hx))
                (fun x hx => hcll x (List.mem_cons_of_mem _ hx)) habs hbcs⟩

/-! ## Sorting -/

/-- Elements among which the laws hold, in order. -/
def le (order : α → α → Ordering) (among : α → Prop) (a b : {a // among a}) : Bool :=
  order a b != .gt

/-- The truth value says that the comparison does not give greater. -/
theorem le_iff {a b : {a // among a}} : le order among a b = true ↔ order a b ≠ .gt := bne_iff_ne

/-- The truth value is transitive. -/
theorem le_trans (h : OrderLaws order among) (a b c : {a // among a})
    (hab : le order among a b = true) (hbc : le order among b c = true) :
    le order among a c = true :=
  le_iff.mpr (h.trans a b c a.2 b.2 c.2 (le_iff.mp hab) (le_iff.mp hbc))

/-- The truth value holds one way or the other. -/
theorem le_total (h : OrderLaws order among) (a b : {a // among a}) :
    (le order among a b || le order among b a) = true := by
  by_cases hab : order a.1 b.1 = .lt
  · rw [le_iff.mpr (by rw [hab]; exact nofun)]
    rfl
  · rw [le_iff.mpr (h.ge_of_not_lt a.2 b.2 hab)]
    exact Bool.or_true _

/-- Only the elements that are sorted matter to sorting. -/
theorem map_val_mergeSort {values : List α} (hv : ∀ a ∈ values, among a) :
    ((values.attachWith among hv).mergeSort (le order among)).map Subtype.val = sortBy order values := by
  rw [List.map_mergeSort (r := le order among) (s := fun a b => order a b != .gt) fun _ _ _ _ => rfl,
    List.attachWith_map_subtype_val, sortBy]

/-- Sorting puts elements in order. -/
theorem sorted (h : OrderLaws order among) {values : List α} (hv : ∀ a ∈ values, among a) :
    (sortBy order values).Pairwise fun a b => order a b ≠ .gt := by
  have hsorted := List.pairwise_mergeSort h.le_trans h.le_total (values.attachWith among hv)
  rw [← map_val_mergeSort hv]
  exact hsorted.map _ fun a b hab => le_iff.mp hab

/-- Elements that are in order already keep it when they are sorted. -/
theorem sublist_sortBy (h : OrderLaws order among) {values ordered : List α}
    (hv : ∀ a ∈ values, among a) (hsub : ordered.Sublist values)
    (hordered : ordered.Pairwise fun a b => order a b ≠ .gt) : ordered.Sublist (sortBy order values) := by
  rw [← List.attachWith_map_subtype_val hv] at hsub
  obtain ⟨attached, hattached, rfl⟩ := List.sublist_map_iff.mp hsub
  have hle : attached.Pairwise fun a b => le order among a b = true :=
    (List.pairwise_map.mp hordered).imp le_iff.mpr
  rw [← map_val_mergeSort hv]
  exact (List.sublist_mergeSort h.le_trans h.le_total hle hattached).map Subtype.val

/-- Sorting puts elements of which no two compare as equal in strict order. -/
theorem strict (h : OrderLaws order among) {values : List α} (hv : ∀ a ∈ values, among a)
    (hdistinct : values.Pairwise fun a b => order a b ≠ .eq) :
    (sortBy order values).Pairwise fun a b => order a b = .lt := by
  have hboth : values.Pairwise fun a b => order a b ≠ .eq ∧ order b a ≠ .eq :=
    hdistinct.imp_of_mem fun ha hb hne => ⟨hne, fun heq => hne (h.eq_symm (hv _ hb) (hv _ ha) heq)⟩
  have hapart := ((perm_sortBy order values).pairwise_iff fun hab => hab.symm).mpr hboth
  refine ((h.sorted hv).and hapart).imp fun {a b} hab => ?_
  cases ho : order a b with
  | lt => rfl
  | eq => exact absurd ho hab.2.1
  | gt => exact absurd ho hab.1

/-- Elements that are in strict order in some list are sorted into that list. -/
theorem sortBy_eq_of_perm (h : OrderLaws order among) {values sorted : List α}
    (hv : ∀ a ∈ sorted, among a) (hperm : values.Perm sorted)
    (hstrict : sorted.Pairwise fun a b => order a b = .lt) : sortBy order values = sorted := by
  have hback : ∀ a ∈ sorted, ∀ b ∈ sorted, order a b = .lt → order b a ≠ .lt := by
    intro a ha b hb hlt
    rw [h.reverse a b (hv a ha) (hv b hb), hlt]
    exact nofun
  have hapart : sorted.Pairwise fun a b => order a b ≠ .eq ∧ order b a ≠ .eq := by
    refine hstrict.imp_of_mem fun {a b} ha hb hlt => ?_
    rw [h.reverse a b (hv a ha) (hv b hb), hlt]
    exact ⟨nofun, nofun⟩
  have hvalues := (hperm.pairwise_iff fun hab => hab.symm).mpr hapart
  have hsorted := h.strict (fun a ha => hv a (hperm.subset ha)) (hvalues.imp fun hab => hab.1)
  refine List.Perm.eq_of_pairwise (fun a b ha hb hab hba => ?_) hsorted hstrict
    ((perm_sortBy order values).trans hperm)
  exact absurd hba (hback a (hperm.subset (mem_sortBy.mp ha)) b hb hab)

/-- Of two lists in strict order that match, the first elements match. -/
theorem eq_of_heads (h : OrderLaws order among) {a b : α} {as bs : List α}
    (ha : ∀ x ∈ a :: as, among x) (hb : ∀ x ∈ b :: bs, among x)
    (hsa : (a :: as).Pairwise fun x y => order x y = .lt)
    (hsb : (b :: bs).Pairwise fun x y => order x y = .lt)
    (hforth : ∃ y ∈ b :: bs, order a y = .eq) (hback : ∃ x ∈ a :: as, order x b = .eq) :
    order a b = .eq := by
  have hua := ha a List.mem_cons_self
  have hub := hb b List.mem_cons_self
  obtain ⟨y, hy, hay⟩ := hforth
  obtain ⟨x, hx, hxb⟩ := hback
  rcases List.mem_cons.mp hy with rfl | hy'
  · exact hay
  rcases List.mem_cons.mp hx with rfl | hx'
  · exact hxb
  -- else each of the two would come before the other
  have hab : order a b = .lt := h.lt_of_lt_of_le hua (ha x hx) hub
    ((List.pairwise_cons.mp hsa).1 x hx') (by rw [hxb]; exact nofun)
  have hba : order b a = .lt := h.lt_of_lt_of_le hub (hb y hy) hua
    ((List.pairwise_cons.mp hsb).1 y hy') (by rw [h.eq_symm hua (hb y hy) hay]; exact nofun)
  rw [h.reverse a b hua hub, hab] at hba
  cases hba

/-- Two lists in strict order that have equal elements have them at the same places. -/
theorem forall₂_of_match (h : OrderLaws order among) :
    ∀ {as bs : List α}, (∀ a ∈ as, among a) → (∀ b ∈ bs, among b) →
      (as.Pairwise fun x y => order x y = .lt) → (bs.Pairwise fun x y => order x y = .lt) →
      (∀ a ∈ as, ∃ b ∈ bs, order a b = .eq) → (∀ b ∈ bs, ∃ a ∈ as, order a b = .eq) →
      List.Forall₂ (fun a b => order a b = .eq) as bs
  | [], [], _, _, _, _, _, _ => .nil
  | [], b :: _, _, _, _, _, _, hback => by
    obtain ⟨_, ha, _⟩ := hback b List.mem_cons_self
    cases ha
  | a :: _, [], _, _, _, _, hforth, _ => by
    obtain ⟨_, hb, _⟩ := hforth a List.mem_cons_self
    cases hb
  | a :: as, b :: bs, ha, hb, hsa, hsb, hforth, hback => by
    have hab := h.eq_of_heads ha hb hsa hsb (hforth a List.mem_cons_self) (hback b List.mem_cons_self)
    have hua := ha a List.mem_cons_self
    have hub := hb b List.mem_cons_self
    obtain ⟨hla, hsa⟩ := List.pairwise_cons.mp hsa
    obtain ⟨hlb, hsb⟩ := List.pairwise_cons.mp hsb
    refine .cons hab (h.forall₂_of_match (fun x hx => ha x (List.mem_cons_of_mem _ hx))
      (fun y hy => hb y (List.mem_cons_of_mem _ hy)) hsa hsb (fun x hx => ?_) fun y hy => ?_)
    · have hux := ha x (List.mem_cons_of_mem _ hx)
      obtain ⟨y, hy, hxy⟩ := hforth x (List.mem_cons_of_mem _ hx)
      rcases List.mem_cons.mp hy with rfl | hy
      · have hax := h.eq_trans hua hub hux hab (h.eq_symm hux hub hxy)
        rw [hla x hx] at hax
        cases hax
      · exact ⟨y, hy, hxy⟩
    · have huy := hb y (List.mem_cons_of_mem _ hy)
      obtain ⟨x, hx, hxy⟩ := hback y (List.mem_cons_of_mem _ hy)
      rcases List.mem_cons.mp hx with rfl | hx
      · have hby := h.eq_trans hub hua huy (h.eq_symm hua hub hab) hxy
        rw [hlb y hy] at hby
        cases hby
      · exact ⟨x, hx, hxy⟩

end OrderLaws

end Ckl
