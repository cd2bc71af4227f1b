import Ckl.Number.Decimal
import Mathlib.Tactic.NormNum

/-!
# Reading integers as they are written

The digits of the size of an integer are read as an integer of 64 bits, unless the integer is the least
one, whose size 64 bits do not hold.
-/

namespace Ckl.Number

theorem digitsOf_ne_nil (n : Nat) : digitsOf n ≠ [] := Nat.toDigits_ne_nil

theorem isDigit_of_mem_digitsOf {n : Nat} {c : Char} (h : c ∈ digitsOf n) : c.isDigit = true :=
  Nat.isDigit_of_mem_toDigits (by decide) (by decide) h

theorem areDigits_digitsOf (n : Nat) : areDigits (digitsOf n) = true := by
  simp only [areDigits, Bool.and_eq_true, Bool.not_eq_true', List.isEmpty_eq_false_iff,
    List.all_eq_true]
  exact ⟨digitsOf_ne_nil n, fun c hc => isDigit_of_mem_digitsOf hc⟩

theorem takeSign_digitsOf (n : Nat) : takeSign (digitsOf n) = (false, digitsOf n) := by
  cases hd : digitsOf n with
  | nil => rfl
  | cons c cs =>
    have hc : c.isDigit = true := isDigit_of_mem_digitsOf (hd ▸ List.mem_cons_self)
    unfold takeSign
    split
    · next heq => cases heq; cases hc
    · next heq => cases heq; cases hc
    · rfl

/-- Digits are read as the number that they were written for, if 64 bits hold it. -/
theorem readWhole_digitsOf (n : Nat) : readWhole (digitsOf n) = whole? n := by
  have hvalue : ofDigits (digitsOf n) = n := Nat.ofDigitChars_toDigits (by decide) (by decide)
  simp only [readWhole, takeSign_digitsOf, areDigits_digitsOf, if_true, hvalue]
  rfl

theorem whole?_eq_some {n : Int} (hmin : -2 ^ 63 ≤ n) (hmax : n < 2 ^ 63) :
    whole? n = some (Int64.ofInt n) := by
  have hle : Int64.minValue.toInt ≤ n := hmin
  have hge : n ≤ Int64.maxValue.toInt := Int.le_of_lt_add_one hmax
  rw [whole?, if_pos ⟨hle, hge⟩]

/-- The size of an integer that is not the least one, with the sign of the integer. -/
theorem exists_size {value : Int64} (h : value ≠ Int64.minValue) :
    ∃ size, readWhole (digitsOf value.toInt.natAbs) = some size ∧
      (if value.toInt < 0 then -size else size) = value := by
  have hmin : -2 ^ 63 ≤ value.toInt := value.le_toInt
  have hmax : value.toInt < 2 ^ 63 := value.toInt_lt
  have hne : value.toInt ≠ -2 ^ 63 := fun heq => h (Int64.toInt_inj.mp heq)
  refine ⟨Int64.ofInt value.toInt.natAbs, ?_, ?_⟩
  · rw [readWhole_digitsOf, whole?_eq_some] <;> omega
  · split
    · next hneg =>
      rw [show (value.toInt.natAbs : Int) = -value.toInt by omega, Int64.ofInt_neg, Int64.neg_neg,
        Int64.ofInt_toInt]
    · next hpos =>
      rw [show (value.toInt.natAbs : Int) = value.toInt by omega, Int64.ofInt_toInt]

end Ckl.Number
