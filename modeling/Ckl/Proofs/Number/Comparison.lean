import Ckl.Value.Canonical
import Mathlib.Algebra.Order.Ring.Int
import Mathlib.Data.Prod.Lex

/-!
# The order of doubles

Every double that is a number has a rank, and ranks are linearly ordered: `beq_iff` and `lt_iff` say that
equality and order of doubles are those of their ranks. What is no number has no rank and is neither
equal to anything nor before it.

Doubles of one rank differ at most in the sign of zero, which keys do not show
(`decimalKey_eq_of_beq`).
-/

namespace Ckl.Number

open Float.Model (UnpackedFloat Format)

/-! ## Ranks -/

/-- Infinities, signs and zero first, then exponents, then mantissas. -/
abbrev Rank := ℤ ×ₗ ℤ ×ₗ ℤ

/-- The rank of an unpacked double. -/
def rankOf : UnpackedFloat → Option Rank
  | .notANumber => none
  | .infinity .negative => some (toLex (-2, toLex (0, 0)))
  | .finite .negative mantissa exponent _ => some (toLex (-1, toLex (-exponent, -mantissa)))
  | .zero _ => some (toLex (0, toLex (0, 0)))
  | .finite .positive mantissa exponent _ => some (toLex (1, toLex (exponent, mantissa)))
  | .infinity .positive => some (toLex (2, toLex (0, 0)))

/-- The rank of a double. -/
def rank (x : Float) : Option Rank := rankOf x.toModel.unpack

/-- Opposites compare the other way round. -/
theorem compare_neg_neg (a b : ℤ) : compare (-a) (-b) = (compare a b).swap := by
  rcases lt_trichotomy a b with h | rfl | h
  · rw [compare_lt_iff_lt.mpr h, compare_gt_iff_gt.mpr (neg_lt_neg h), Ordering.swap_lt]
  · rw [compare_eq_iff_eq.mpr rfl, compare_eq_iff_eq.mpr rfl, Ordering.swap_eq]
  · rw [compare_gt_iff_gt.mpr h, compare_lt_iff_lt.mpr (neg_lt_neg h), Ordering.swap_gt]

/-- Natural numbers compare as integers. -/
theorem compare_natCast (m n : ℕ) : compare (m : ℤ) (n : ℤ) = compare m n := by
  rcases lt_trichotomy m n with h | rfl | h
  · rw [compare_lt_iff_lt.mpr h, compare_lt_iff_lt.mpr (Int.ofNat_lt.mpr h)]
  · rw [compare_eq_iff_eq.mpr rfl, compare_eq_iff_eq.mpr rfl]
  · rw [compare_gt_iff_gt.mpr h, compare_gt_iff_gt.mpr (Int.ofNat_lt.mpr h)]

/-- Comparing doubles is comparing their ranks. -/
theorem compare_eq_rankOf (x y : UnpackedFloat) :
    x.compare y = (rankOf x).bind fun p => (rankOf y).map (compare p) := by
  rcases x with ⟨_ | _⟩ | _ | _ | ⟨_ | _, m, e, hm⟩ <;>
    rcases y with ⟨_ | _⟩ | _ | _ | ⟨_ | _, n, f, hn⟩ <;> try rfl
  · show some ((compare e f).then (compare m n)).swap =
      some ((compare (-e) (-f)).then (compare (-(m : ℤ)) (-(n : ℤ))))
    rw [compare_neg_neg, compare_neg_neg, compare_natCast, Ordering.swap_then]
  · show some ((compare e f).then (compare m n)) =
      some ((compare e f).then (compare (m : ℤ) (n : ℤ)))
    rw [compare_natCast]

/-- Two doubles are equal exactly if they have one rank. -/
theorem beq_iff {x y : Float} : (x == y) = true ↔ ∃ p, rank x = some p ∧ rank y = some p := by
  show ((x.toModel.unpack.compare y.toModel.unpack) == some .eq) = true ↔ _
  rw [compare_eq_rankOf, beq_iff_eq]
  simp only [rank, Option.bind_eq_some_iff, Option.map_eq_some_iff, compare_eq_iff_eq]
  exact ⟨fun ⟨p, hp, _, hq, rfl⟩ => ⟨p, hp, hq⟩, fun ⟨p, hp, hq⟩ => ⟨p, hp, p, hq, rfl⟩⟩

/-- A double is less than another exactly if its rank is. -/
theorem lt_iff {x y : Float} :
    x < y ↔ ∃ p q, rank x = some p ∧ rank y = some q ∧ p < q := by
  have hlt : x < y ↔ x.toModel.unpack.compare y.toModel.unpack = some .lt := by
    show (decide (((x.toModel.unpack.compare y.toModel.unpack) == some .lt) = true)) = true ↔ _
    rw [decide_eq_true_iff, beq_iff_eq]
  rw [hlt, compare_eq_rankOf]
  simp only [rank, Option.bind_eq_some_iff, Option.map_eq_some_iff, compare_lt_iff_lt]
  exact ⟨fun ⟨p, hp, q, hq, h⟩ => ⟨p, q, hp, hq, h⟩, fun ⟨p, q, hp, hq, h⟩ => ⟨p, hp, q, hq, h⟩⟩

/-- A number is a double that is equal to itself. -/
theorem beq_self_iff {x : Float} : (x == x) = true ↔ ∃ p, rank x = some p := by
  rw [beq_iff]
  exact ⟨fun ⟨p, hp, _⟩ => ⟨p, hp⟩, fun ⟨p, hp⟩ => ⟨p, hp, hp⟩⟩

/-- Equality of doubles goes both ways. -/
theorem beq_comm (x y : Float) : (x == y) = (y == x) := by
  rw [Bool.eq_iff_iff, beq_iff, beq_iff]
  exact ⟨fun ⟨p, hp, hq⟩ => ⟨p, hq, hp⟩, fun ⟨p, hp, hq⟩ => ⟨p, hq, hp⟩⟩

/-- Doubles that are equal to a third one are equal. -/
theorem beq_trans {x y z : Float} (hxy : (x == y) = true) (hyz : (y == z) = true) :
    (x == z) = true := by
  obtain ⟨p, hx, hy⟩ := beq_iff.mp hxy
  obtain ⟨q, hy', hz⟩ := beq_iff.mp hyz
  obtain rfl : p = q := Option.some_inj.mp (hy.symm.trans hy')
  exact beq_iff.mpr ⟨p, hx, hz⟩

/-- The order of numbers is that of their ranks. -/
theorem orderDecimals_eq {x y : Float} {p q : Rank} (hx : rank x = some p) (hy : rank y = some q) :
    orderDecimals x y = compare p q := by
  have hlt : ∀ {a b : Float} {r s : Rank}, rank a = some r → rank b = some s → (a < b ↔ r < s) := by
    intro a b r s ha hb
    rw [lt_iff, ha, hb]
    exact ⟨fun ⟨_, _, hr, hs, h⟩ => by cases hr; cases hs; exact h, fun h => ⟨r, s, rfl, rfl, h⟩⟩
  simp only [orderDecimals, hlt hx hy, hlt hy hx]
  rcases lt_trichotomy p q with h | rfl | h
  · rw [if_pos h, compare_lt_iff_lt.mpr h]
  · rw [if_neg (lt_irrefl p), if_neg (lt_irrefl p), compare_eq_iff_eq.mpr rfl]
  · rw [if_neg h.asymm, if_pos h, compare_gt_iff_gt.mpr h]

/-! ## Readings of doubles -/

/-- The reading of an unpacked double. -/
def Binary64.ofUnpacked : UnpackedFloat → Binary64
  | .notANumber => .nan
  | .infinity sign => .infinite (sign == .negative)
  | .zero sign => .finite (sign == .negative) 0 leastExponent
  | .finite sign mantissa exponent _ => .finite (sign == .negative) mantissa exponent

/-- The fraction of a double is in its last 52 bits. -/
theorem toNat_unpackMantissa (bits : BitVec 64) :
    (UnpackedFloat.unpackMantissa bits : BitVec Format.binary64.mantissaBitsWithoutImplicit).toNat =
      bits.toNat % Nat.pow 2 52 := by
  simp only [UnpackedFloat.unpackMantissa, BitVec.toNat_cast, BitVec.extractLsb_toNat,
    Nat.shiftRight_zero]

/-- The exponent of a double is in the 11 bits before. -/
theorem toNat_unpackExponent (bits : BitVec 64) :
    (UnpackedFloat.unpackExponent bits : BitVec Format.binary64.exponentBits).toNat =
      bits.toNat / Nat.pow 2 52 % Nat.pow 2 11 := by
  simp only [UnpackedFloat.unpackExponent, BitVec.toNat_cast, BitVec.extractLsb_toNat,
    Nat.shiftRight_eq_div_pow]

/-- The sign of a double is in its first bit. -/
theorem toNat_unpackSign (bits : BitVec 64) :
    (@UnpackedFloat.unpackSign Format.binary64 bits).toNat = bits.toNat / Nat.pow 2 63 := by
  unfold UnpackedFloat.unpackSign
  simp only [BitVec.toNat_cast, BitVec.extractLsb_toNat, Nat.shiftRight_eq_div_pow]
  show bits.toNat / 2 ^ 63 % 2 = bits.toNat / 2 ^ 63
  have := bits.isLt
  omega

/-- The sign is negative if the bit is set. -/
theorem ofBitVec_beq_negative (sign : BitVec 1) :
    (UnpackedFloat.Sign.ofBitVec sign == .negative) = (sign.toNat == 1) := by
  have hcases : sign = 0#1 ∨ sign = 1#1 := by
    have := sign.isLt
    rcases Nat.lt_or_ge sign.toNat 1 with h | h
    · exact .inl (BitVec.eq_of_toNat_eq (Nat.lt_one_iff.mp h))
    · exact .inr (BitVec.eq_of_toNat_eq (show sign.toNat = 1 by omega))
  rcases hcases with rfl | rfl <;> rfl

/-- The implicit bit stands in front of the fraction. -/
theorem toNat_implicit (fraction : BitVec 52) :
    (1#1 ++ fraction).toNat = fraction.toNat + Nat.pow 2 52 := by
  rw [BitVec.toNat_append, ← Nat.shiftLeft_add_eq_or_of_lt fraction.isLt, Nat.add_comm]
  rfl

/-- A double is read as its unpacked form says. -/
theorem ofFloat_eq (x : Float) : Binary64.ofFloat x = Binary64.ofUnpacked x.toModel.unpack := by
  let bits : BitVec Format.binary64.numBits := x.toModel.toBits.toBitVec
  have hm := toNat_unpackMantissa bits
  have he := toNat_unpackExponent bits
  have hs := toNat_unpackSign bits
  show _ = Binary64.ofUnpacked (UnpackedFloat.unpack Format.binary64 bits)
  unfold UnpackedFloat.unpack Binary64.ofFloat
  have hbits : x.toBits.toNat = bits.toNat := rfl
  have hbias : ((Format.binary64.exponentBias : ℕ) : ℤ) = 1023 := rfl
  conv_lhs => simp only [hbits, ← hm, ← he, ← hs, ← ofBitVec_beq_negative]
  have hzero : (UnpackedFloat.unpackMantissa bits).toNat = 0 ↔
      UnpackedFloat.unpackMantissa bits = 0#52 :=
    ⟨fun h => BitVec.eq_of_toNat_eq h, congrArg BitVec.toNat⟩
  -- the exponents with all bits set and with none are those of infinities and of subnormal numbers
  by_cases hall : UnpackedFloat.unpackExponent bits = -1#11
  · have hmax : (UnpackedFloat.unpackExponent bits).toNat = 2047 := congrArg BitVec.toNat hall
    rw [if_pos hmax, if_pos hall]
    by_cases h : UnpackedFloat.unpackMantissa bits = 0#52
    · rw [if_pos (hzero.mpr h), if_pos h]
      rfl
    · rw [if_neg (hzero.not.mpr h), if_neg h]
      rfl
  · have hmax : (UnpackedFloat.unpackExponent bits).toNat ≠ 2047 :=
      fun h => hall (BitVec.eq_of_toNat_eq h)
    rw [if_neg hmax, if_neg hall]
    by_cases hnone : UnpackedFloat.unpackExponent bits = 0#11
    · have hmin : (UnpackedFloat.unpackExponent bits).toNat = 0 := congrArg BitVec.toNat hnone
      rw [if_pos hmin, if_pos hnone]
      by_cases h : UnpackedFloat.unpackMantissa bits = 0#52
      · rw [dif_pos h, hzero.mpr h]
        rfl
      · rw [dif_neg h, hmin]
        rfl
    · have hmin : (UnpackedFloat.unpackExponent bits).toNat ≠ 0 :=
        fun h => hnone (BitVec.eq_of_toNat_eq h)
      rw [if_neg hmin, if_neg hnone]
      show _ = Binary64.finite _ (1#1 ++ UnpackedFloat.unpackMantissa bits).toNat _
      simp only [toNat_implicit, leastExponent]
      refine congrArg _ ?_
      omega

/-- Doubles of one rank are the same, or both are zero. -/
theorem eq_or_zero_of_rankOf {a b : UnpackedFloat} {p : Rank} (ha : rankOf a = some p)
    (hb : rankOf b = some p) : a = b ∨ ∃ s t, a = .zero s ∧ b = .zero t := by
  have hrank : rankOf a = rankOf b := ha.trans hb.symm
  rcases a with ⟨_ | _⟩ | _ | s | ⟨_ | _, m, e, hm⟩ <;>
    rcases b with ⟨_ | _⟩ | _ | t | ⟨_ | _, n, f, hn⟩ <;>
    dsimp only [rankOf] at hrank <;>
    simp only [Option.some.injEq, reduceCtorEq, toLex_inj, Prod.mk.injEq, neg_inj, Nat.cast_inj] at hrank <;>
    first
    | exact absurd hrank.1 (by decide)
    | exact .inl rfl
    | exact .inr ⟨s, t, rfl, rfl⟩
    | exact (Option.some_ne_none p ha.symm).elim
    | obtain ⟨-, rfl, rfl⟩ := hrank
      exact .inl rfl

/-- Equal doubles have one key. -/
theorem decimalKey_eq_of_beq {x y : Float} (h : (x == y) = true) : decimalKey x = decimalKey y := by
  obtain ⟨p, hx, hy⟩ := beq_iff.mp h
  simp only [decimalKey, ofFloat_eq]
  rcases eq_or_zero_of_rankOf hx hy with heq | ⟨s, t, hs, ht⟩
  · rw [heq]
  · rw [hs, ht]
    rfl

end Ckl.Number
