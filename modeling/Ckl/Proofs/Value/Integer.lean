import Ckl.Proofs.Number.Whole
import Ckl.Value.Arithmetic

/-!
# Arithmetic on integers

Sums, differences, products and quotients of integers are exact, or refused where 64 bits do not hold
them (`integers_exact`). The remainder is refused wherever the quotient is. There is one such pair: the
quotient of the least integer and minus one is one more than the greatest integer, while the remainder of
the two is zero.
-/

namespace Ckl

namespace Number

/-- 64 bits hold the integer. -/
def Fits (n : Int) : Prop := -2 ^ 63 ≤ n ∧ n < 2 ^ 63

theorem fits_toInt (a : Int64) : Fits a.toInt := ⟨a.le_toInt, a.toInt_lt⟩

theorem whole?_eq_some_iff {n : Int} {m : Int64} : whole? n = some m ↔ m.toInt = n := by
  refine ⟨toInt_of_whole?, ?_⟩
  rintro rfl
  have hfits := fits_toInt m
  rw [whole?_eq_some hfits.1 hfits.2, Int64.ofInt_toInt]

theorem whole?_eq_none_iff {n : Int} : whole? n = none ↔ ¬ Fits n := by
  constructor
  · intro h hfits
    rw [whole?_eq_some hfits.1 hfits.2] at h
    cases h
  · intro h
    rw [Option.eq_none_iff_forall_ne_some]
    rintro m hm
    exact h (whole?_eq_some_iff.mp hm ▸ fits_toInt m)

/-- The quotient of two integers fits, except for the one that is one more than the greatest integer. -/
theorem fits_quotient_iff (a : Int64) {b : Int64} (hb : b ≠ 0) :
    Fits (a.toInt.tdiv b.toInt) ↔ ¬ (a = Int64.minValue ∧ b = -1) := by
  have ha := fits_toInt a
  by_cases hminus : b = -1
  · -- the quotient is the negative of the first integer
    subst hminus
    have hleast : a = Int64.minValue ↔ a.toInt = -2 ^ 63 := Int64.toInt_inj.symm
    have hquotient : a.toInt.tdiv (-1 : Int64).toInt = -a.toInt := by
      rw [show (-1 : Int64).toInt = -1 from rfl, Int.tdiv_neg, Int.tdiv_one]
    simp only [Fits, hquotient, hleast, and_true] at ha ⊢
    omega
  · have hne : b.toInt ≠ 0 := fun h => hb (Int64.toInt_inj.mp h)
    have hne' : b.toInt ≠ -1 := fun h => hminus (Int64.toInt_inj.mp h)
    refine iff_of_true ?_ fun h => hminus h.2
    obtain hone | htwo : b.toInt = 1 ∨ 2 ≤ b.toInt.natAbs := by omega
    · rwa [hone, Int.tdiv_one]
    · have hhalf : (a.toInt.tdiv b.toInt).natAbs ≤ a.toInt.natAbs / 2 := by
        rw [Int.natAbs_tdiv]
        exact Nat.div_le_div_left htwo (by decide)
      simp only [Fits] at ha ⊢
      omega

theorem fits_remainder (a : Int64) {b : Int64} (hb : b ≠ 0) : Fits (a.toInt.tmod b.toInt) := by
  have hne : b.toInt ≠ 0 := fun h => hb (Int64.toInt_inj.mp h)
  have hbound := fits_toInt b
  have hless : (a.toInt.tmod b.toInt).natAbs < b.toInt.natAbs := by
    rw [Int.natAbs_tmod]
    exact Nat.mod_lt _ (by omega)
  simp only [Fits] at hbound ⊢
  omega

theorem remainder?_eq (a : Int64) {b : Int64} (hb : b ≠ 0) :
    remainder? a b = if a = Int64.minValue ∧ b = -1 then none else whole? (a.toInt.tmod b.toInt) := by
  unfold remainder? quotient?
  split
  · next hleast =>
    rw [whole?_eq_none_iff.mpr fun h => (fits_quotient_iff a hb).mp h hleast, Option.bind_none]
  · next hother =>
    have hfits := (fits_quotient_iff a hb).mpr hother
    rw [whole?_eq_some hfits.1 hfits.2, Option.bind_some]

end Number

namespace Store

open Number (Fits whole?)

/-- The operation is refused with a message. -/
def Refused (outcome : Checked Fresh) (message : String) : Prop :=
  ∃ error, outcome = .error error ∧ error.message = message

/-- The outcome is the integer if 64 bits hold it, and otherwise the operation is refused. -/
structure Exact (outcome : Checked Fresh) (n : Int) : Prop where
  result : ∀ m : Int64, outcome = .ok (.value (.int m)) ↔ m.toInt = n
  refused : Refused outcome "integer overflow" ↔ ¬ Fits n

theorem not_refused_ok {fresh : Fresh} {message : String} : ¬ Refused (.ok fresh) message :=
  fun ⟨_, h, _⟩ => nomatch h

theorem refused_error_iff {error : RuntimeError} {message : String} :
    Refused (.error error) message ↔ error.message = message :=
  ⟨fun ⟨_, h, hmessage⟩ => by cases h; exact hmessage, fun h => ⟨error, rfl, h⟩⟩

/-- What is computed as an integer of any size is exact. -/
theorem exact_exactly (n : Int) : Exact (exactly (whole? n)) n := by
  cases hwhole : whole? n with
  | some k =>
    have hk := Number.whole?_eq_some_iff.mp hwhole
    constructor
    · intro m
      rw [← hk, Int64.toInt_inj]
      exact ⟨fun h => by cases h; rfl, fun h => by rw [h]; rfl⟩
    · exact iff_of_false not_refused_ok (not_not.mpr (hk ▸ Number.fits_toInt k))
  | none =>
    have hfits := Number.whole?_eq_none_iff.mp hwhole
    constructor
    · exact fun m => iff_of_false (fun h => nomatch h) fun h => hfits (h ▸ Number.fits_toInt m)
    · exact iff_of_true ⟨.integerOverflow, rfl, rfl⟩ hfits

/-- An exact outcome is no refusal for another reason. -/
theorem Exact.not_refused {outcome : Checked Fresh} {n : Int} (h : Exact outcome n) :
    ¬ Refused outcome "divide by zero" := by
  rintro ⟨error, rfl, hmessage⟩
  by_cases hfits : Fits n
  · exact nomatch (h.result (Int64.ofInt n)).mpr
      (Number.whole?_eq_some_iff.mp (Number.whole?_eq_some hfits.1 hfits.2))
  · have hother := refused_error_iff.mp (h.refused.mpr hfits)
    rw [hmessage] at hother
    exact absurd hother (by decide)

theorem divide_integers (a : Int64) {b : Int64} (hb : b ≠ 0) :
    divide (.int a) (.int b) = exactly (Number.quotient? a b) := by
  rw [divide, if_neg (by simpa [dividesByZero, Value.isNumeric, Value.isZero] using hb)]

theorem remainder_integers (a : Int64) {b : Int64} (hb : b ≠ 0) :
    remainder (.int a) (.int b) = exactly (Number.remainder? a b) := by
  rw [remainder, if_neg (by simpa [dividesByZero, Value.isNumeric, Value.isZero] using hb)]

theorem quotient_exact (a b : Int64) :
    (Refused (divide (.int a) (.int b)) "divide by zero" ↔ b = 0) ∧
      (Exact (divide (.int a) (.int b)) (a.toInt.tdiv b.toInt) ↔ b ≠ 0) := by
  by_cases hb : b = 0
  · subst hb
    have hrefused : Refused (divide (.int a) (.int 0)) "divide by zero" := ⟨.divideByZero, rfl, rfl⟩
    exact ⟨iff_of_true hrefused rfl, iff_of_false (fun h => h.not_refused hrefused) (· rfl)⟩
  · have hexact := exact_exactly (a.toInt.tdiv b.toInt)
    rw [divide_integers a hb]
    exact ⟨iff_of_false hexact.not_refused hb, iff_of_true hexact hb⟩

/-- The remainder is exact except where the quotient is refused. -/
theorem remainder_exact (a b : Int64) :
    (Refused (remainder (.int a) (.int b)) "divide by zero" ↔ b = 0) ∧
      (Refused (remainder (.int a) (.int b)) "integer overflow" ↔ a = Int64.minValue ∧ b = -1) ∧
      (Exact (remainder (.int a) (.int b)) (a.toInt.tmod b.toInt) ↔
        b ≠ 0 ∧ ¬ (a = Int64.minValue ∧ b = -1)) := by
  by_cases hb : b = 0
  · subst hb
    have hrefused : Refused (remainder (.int a) (.int 0)) "divide by zero" := ⟨.divideByZero, rfl, rfl⟩
    have hother : ¬ Refused (remainder (.int a) (.int 0)) "integer overflow" :=
      fun h => absurd (refused_error_iff.mp h) (by decide)
    exact ⟨iff_of_true hrefused rfl, iff_of_false hother fun h => absurd h.2 (by decide),
      iff_of_false (fun h => h.not_refused hrefused) fun h => h.1 rfl⟩
  · have hfits := Number.fits_remainder a hb
    rw [remainder_integers a hb, Number.remainder?_eq a hb]
    by_cases hleast : a = Int64.minValue ∧ b = -1
    · rw [if_pos hleast]
      have hrefused : Refused (exactly none) "integer overflow" := ⟨.integerOverflow, rfl, rfl⟩
      have hother : ¬ Refused (exactly none) "divide by zero" :=
        fun h => absurd (refused_error_iff.mp h) (by decide)
      exact ⟨iff_of_false hother hb, iff_of_true hrefused hleast,
        iff_of_false (fun h => h.refused.mp hrefused hfits) fun h => h.2 hleast⟩
    · rw [if_neg hleast]
      have hexact := exact_exactly (a.toInt.tmod b.toInt)
      exact ⟨iff_of_false hexact.not_refused hb,
        iff_of_false (fun h => hexact.refused.mp h hfits) hleast, iff_of_true hexact ⟨hb, hleast⟩⟩

/-- **Arithmetic on integers is exact, or refused**, except that the remainder of the least integer and
minus one, which is zero, is refused like their quotient. -/
theorem integers_exact (store : Store) (a b : Int64) :
    Exact (store.add (.int a) (.int b)) (a.toInt + b.toInt) ∧
    Exact (store.subtract (.int a) (.int b)) (a.toInt - b.toInt) ∧
    Exact (store.multiply (.int a) (.int b)) (a.toInt * b.toInt) ∧
    (Refused (divide (.int a) (.int b)) "divide by zero" ↔ b = 0) ∧
    (Exact (divide (.int a) (.int b)) (a.toInt.tdiv b.toInt) ↔ b ≠ 0) ∧
    (Refused (remainder (.int a) (.int b)) "divide by zero" ↔ b = 0) ∧
    (Refused (remainder (.int a) (.int b)) "integer overflow" ↔ a = Int64.minValue ∧ b = -1) ∧
    (Exact (remainder (.int a) (.int b)) (a.toInt - b.toInt * a.toInt.tdiv b.toInt) ↔
      b ≠ 0 ∧ ¬ (a = Int64.minValue ∧ b = -1)) := by
  have hquotient := quotient_exact a b
  have hremainder := remainder_exact a b
  rw [Int.tmod_def] at hremainder
  exact ⟨exact_exactly _, exact_exactly _, exact_exactly _, hquotient.1, hquotient.2, hremainder.1,
    hremainder.2.1, hremainder.2.2⟩

/-- The remainder of the least integer and minus one is zero, and yet refused as too large. -/
theorem remainder_refused_at_least :
    Int64.minValue.toInt - (-1 : Int64).toInt * Int64.minValue.toInt.tdiv (-1 : Int64).toInt = 0 ∧
      Fits 0 ∧ Refused (remainder (.int Int64.minValue) (.int (-1))) "integer overflow" ∧
      ¬ Exact (remainder (.int Int64.minValue) (.int (-1))) 0 := by
  have hfits : Fits 0 := ⟨by decide, by decide⟩
  have hrefused : Refused (remainder (.int Int64.minValue) (.int (-1))) "integer overflow" :=
    ⟨.integerOverflow, by rfl, rfl⟩
  exact ⟨by decide, hfits, hrefused, fun h => h.refused.mp hrefused hfits⟩

end Store

end Ckl
