import Ckl.Proofs.Number.Comparison
import Mathlib.Data.Nat.Log

/-!
# Integers as doubles

The double nearest to an integer is a number (`rank_ofWhole`), and the nearest doubles of integers are in
the order of the integers, although different ones may share one (`wholeRank_mono`).

A positive integer is brought to 53 bits, by adding zeros or by cutting bits off; the two bits after the
cut decide how it is rounded. Both cutting and rounding keep the order (`code_shiftRight`,
`roundedMantissa_mono`), and so integers of one length stay in order, while longer ones get larger
exponents.
-/

namespace Ckl.Number

open Float.Model UnpackedFloat

/-! ## Cutting bits off -/

/-- A mantissa with its two residual bits as one number. -/
def code (em : ExtendedMantissa) : ℕ :=
  4 * em.mantissa + 2 * em.roundBit.toNat + em.stickyBit.toNat

/-- Cutting one bit off keeps the order. -/
theorem code_shiftRightOne {em em' : ExtendedMantissa} (h : code em ≤ code em') :
    code em.shiftRightOne ≤ code em'.shiftRightOne := by
  obtain ⟨m, r, s⟩ := em
  obtain ⟨m', r', s'⟩ := em'
  have hbit : ∀ n : ℕ, (n % 2 != 0).toNat = n % 2 := by
    intro n
    rcases Nat.mod_two_eq_zero_or_one n with h | h <;> rw [h] <;> rfl
  simp only [code, ExtendedMantissa.shiftRightOne, hbit] at h ⊢
  cases r <;> cases s <;> cases r' <;> cases s' <;>
    simp only [Bool.toNat_true, Bool.toNat_false, Bool.or_self, Bool.or_true, Bool.or_false] at h ⊢ <;>
    omega

/-- Cutting bits off keeps the order. -/
theorem code_shiftRight {em em' : ExtendedMantissa} (h : code em ≤ code em') (count : ℕ) :
    code (em >>> count) ≤ code (em' >>> count) := by
  induction count with
  | zero => exact h
  | succ count ih => exact code_shiftRightOne ih

/-- What is left after a cut is the quotient by a power of two. -/
theorem mantissa_shiftRight (em : ExtendedMantissa) (count : ℕ) :
    (em >>> count).mantissa = em.mantissa / 2 ^ count := by
  induction count with
  | zero => exact (Nat.div_one _).symm
  | succ count ih =>
    show (em >>> count).mantissa / 2 = _
    rw [ih, Nat.div_div_eq_div_mul, Nat.pow_succ]

/-- Rounding keeps the order. -/
theorem roundedMantissa_mono {em em' : ExtendedMantissa} (h : code em ≤ code em') :
    em.roundedMantissa ≤ em'.roundedMantissa := by
  obtain ⟨m, r, s⟩ := em
  obtain ⟨m', r', s'⟩ := em'
  simp only [code] at h
  cases r <;> cases s <;> cases r' <;> cases s' <;>
    simp only [Bool.toNat_true, Bool.toNat_false, ExtendedMantissa.roundedMantissa,
      ExtendedMantissa.accuracy, Accuracy.roundToNearestEven] at h ⊢ <;>
    omega

/-- Rounding adds one at most. -/
theorem roundedMantissa_bounds (em : ExtendedMantissa) :
    em.mantissa ≤ em.roundedMantissa ∧ em.roundedMantissa ≤ em.mantissa + 1 := by
  obtain ⟨m, r, s⟩ := em
  cases r <;> cases s <;>
    simp only [ExtendedMantissa.roundedMantissa, ExtendedMantissa.accuracy,
      Accuracy.roundToNearestEven] <;>
    omega

/-! ## Rounding to 53 bits -/

/-- A positive integer, brought to 53 bits and rounded; it may need one bit more. -/
def leading (n : ℕ) : ℕ :=
  (ExtendedMantissa.mk (n <<< (52 - n.log2)) false false >>> (n.log2 - 52)).roundedMantissa

/-- The leading bits of a positive integer, rounded, are those of a double or one more. -/
theorem leading_bounds {n : ℕ} (h : n ≠ 0) : 2 ^ 52 ≤ leading n ∧ leading n ≤ 2 ^ 53 := by
  have hlow := Nat.log2_self_le h
  have hhigh := Nat.lt_log2_self (n := n)
  have hcut : 2 ^ 52 ≤ n <<< (52 - n.log2) / 2 ^ (n.log2 - 52) ∧
      n <<< (52 - n.log2) / 2 ^ (n.log2 - 52) < 2 ^ 53 := by
    rw [Nat.shiftLeft_eq]
    generalize n.log2 = l at hlow hhigh
    rcases Nat.le_total l 52 with hl | hl
    · rw [Nat.sub_eq_zero_of_le hl, Nat.pow_zero, Nat.div_one]
      constructor
      · calc 2 ^ 52 = 2 ^ l * 2 ^ (52 - l) := by rw [← Nat.pow_add]; congr 1; omega
          _ ≤ n * 2 ^ (52 - l) := Nat.mul_le_mul_right _ hlow
      · calc n * 2 ^ (52 - l) < 2 ^ (l + 1) * 2 ^ (52 - l) :=
              Nat.mul_lt_mul_of_pos_right hhigh (Nat.two_pow_pos _)
          _ = 2 ^ 53 := by rw [← Nat.pow_add]; congr 1; omega
    · rw [Nat.sub_eq_zero_of_le hl, Nat.pow_zero, Nat.mul_one]
      constructor
      · rw [Nat.le_div_iff_mul_le (Nat.two_pow_pos _), ← Nat.pow_add]
        exact (Nat.pow_le_pow_right Nat.two_pos (by omega)).trans hlow
      · rw [Nat.div_lt_iff_lt_mul (Nat.two_pow_pos _), ← Nat.pow_add]
        exact hhigh.trans_le (Nat.pow_le_pow_right Nat.two_pos (by omega))
  have hround := roundedMantissa_bounds
    (ExtendedMantissa.mk (n <<< (52 - n.log2)) false false >>> (n.log2 - 52))
  rw [mantissa_shiftRight] at hround
  exact ⟨hcut.1.trans hround.1, hround.2.trans hcut.2⟩

/-- Among integers of one length the leading bits are in order. -/
theorem leading_mono {m n : ℕ} (hlog : m.log2 = n.log2) (h : m ≤ n) : leading m ≤ leading n := by
  simp only [leading, hlog]
  refine roundedMantissa_mono (code_shiftRight ?_ _)
  have hshift : m <<< (52 - n.log2) ≤ n <<< (52 - n.log2) := by
    rw [Nat.shiftLeft_eq, Nat.shiftLeft_eq]
    exact Nat.mul_le_mul_right _ h
  simp only [code, Bool.toNat_false]
  omega

/-- The mantissa and the exponent of the double nearest to a positive integer. -/
def nearestParts (n : ℕ) : ℕ × ℤ :=
  if leading n < 2 ^ 53 then (leading n, n.log2 - 52) else (2 ^ 52, n.log2 - 51)

/-- The nearest double has a normal mantissa. -/
theorem nearestParts_bounds {n : ℕ} (h : n ≠ 0) :
    2 ^ 52 ≤ (nearestParts n).1 ∧ (nearestParts n).1 < 2 ^ 53 := by
  have := leading_bounds h
  unfold nearestParts
  split
  · exact ⟨this.1, ‹_›⟩
  · exact ⟨Nat.le_refl _, Nat.pow_lt_pow_right Nat.one_lt_two (by decide)⟩

/-- Larger integers get larger exponents, or larger mantissas at one exponent. -/
theorem nearestParts_mono {m n : ℕ} (hm : m ≠ 0) (h : m ≤ n) :
    (nearestParts m).2 < (nearestParts n).2 ∨
      (nearestParts m).2 = (nearestParts n).2 ∧ (nearestParts m).1 ≤ (nearestParts n).1 := by
  have hn : n ≠ 0 := by omega
  have hbm := leading_bounds hm
  have hbn := leading_bounds hn
  have hlog : m.log2 ≤ n.log2 := (Nat.le_log2 hn).mpr ((Nat.log2_self_le hm).trans h)
  rcases Nat.lt_or_eq_of_le hlog with hlt | heq
  · unfold nearestParts
    split <;> split <;> simp only <;> omega
  · have hle := leading_mono heq h
    unfold nearestParts
    split <;> split <;> simp only <;> omega

/-! ## The rounding of the runtime -/

/-- Outside the subnormal range the exponent leaves 53 bits of mantissa. -/
theorem targetExponent_eq {m : ℕ} {e : ℤ} (h : -1022 ≤ m.log2 + e) :
    Format.binary64.targetExponent (totalExponent m e) = m.log2 + e - 52 := by
  have hbits : (Format.binary64.mantissaBits : ℤ) = 53 := rfl
  have hmin : Format.binary64.minExponent = -1074 := rfl
  simp only [Format.targetExponent, totalExponent, hbits, hmin]
  omega

/-- Bringing a mantissa to 53 bits without a residue before. -/
theorem shiftToTargetExponent_eq {m : ℕ} {e : ℤ} (h : -1022 ≤ m.log2 + e) :
    shiftToTargetExponent Format.binary64 m e .exact =
      (ExtendedMantissa.mk m false false >>> (m.log2 - 52), e + ↑(m.log2 - 52)) := by
  have hshift : (m.log2 + e - 52 - e).toNat = m.log2 - 52 := by omega
  simp only [shiftToTargetExponent, targetExponent_eq h, shiftToExponent, hshift,
    ExtendedMantissa.ofMantissaAndAccuracy]

/-- A number of 53 bits. -/
theorem log2_eq_of_bounds {m : ℕ} (hlow : 2 ^ 52 ≤ m) (hhigh : m < 2 ^ 53) : m.log2 = 52 := by
  have hne : m ≠ 0 := by omega
  have hle := (Nat.le_log2 hne).mpr hlow
  have hlt := (Nat.log2_lt hne).mpr hhigh
  omega

/-- Added zeros add to the length. -/
theorem log2_shiftLeft {n : ℕ} (h : n ≠ 0) (count : ℕ) : (n <<< count).log2 = n.log2 + count := by
  have hlow := Nat.log2_self_le h
  have hhigh := Nat.lt_log2_self (n := n)
  have hne : n <<< count ≠ 0 := by
    rw [Nat.shiftLeft_eq]
    exact Nat.mul_ne_zero h (Nat.two_pow_pos _).ne'
  have hle : n.log2 + count ≤ (n <<< count).log2 := by
    rw [Nat.le_log2 hne, Nat.shiftLeft_eq, Nat.pow_add]
    exact Nat.mul_le_mul_right _ hlow
  have hlt : (n <<< count).log2 < n.log2 + 1 + count := by
    rw [Nat.log2_lt hne, Nat.shiftLeft_eq, Nat.pow_add]
    exact Nat.mul_lt_mul_of_pos_right hhigh (Nat.two_pow_pos _)
  omega

/-- The runtime rounds a positive integer to its nearest parts. -/
theorem round_eq {n : ℕ} (h : n ≠ 0) (sign : Sign) :
    UnpackedFloat.round Format.binary64 sign n 0 =
      .finite sign (nearestParts n).1 (nearestParts n).2
        (Nat.lt_of_lt_of_le (by decide) (nearestParts_bounds h).1) := by
  have hb := leading_bounds h
  have hlog := log2_shiftLeft h (52 - n.log2)
  have hdecrease : decreaseExponent n 0 (Format.binary64.targetExponent (totalExponent n 0)) =
      (n <<< (52 - n.log2), -↑(52 - n.log2)) := by
    have hcount : (0 - ((n.log2 : ℤ) + 0 - 52)).toNat = 52 - n.log2 := by omega
    rw [targetExponent_eq (by omega), decreaseExponent, hcount, zero_sub]
  -- of the two shifts one adds zeros or does nothing, and the other cuts bits off or does nothing
  have hfirst : shiftToTargetExponent Format.binary64 (n <<< (52 - n.log2)) (-↑(52 - n.log2)) .exact =
      (ExtendedMantissa.mk (n <<< (52 - n.log2)) false false >>> (n.log2 - 52),
        (n.log2 : ℤ) - 52) := by
    rw [shiftToTargetExponent_eq (by omega), hlog]
    congr 1
    · congr 1
      omega
    · omega
  have hround : UnpackedFloat.round Format.binary64 sign n 0 =
      let last := shiftToTargetExponent Format.binary64 (leading n) ((n.log2 : ℤ) - 52) .exact
      if h : last.1.mantissa = 0 then .zero sign
      else .finite sign last.1.mantissa last.2 (Nat.pos_of_ne_zero h) := by
    have hstart : UnpackedFloat.round Format.binary64 sign n 0 = roundWithAccuracy Format.binary64 sign
        (decreaseExponent n 0 (Format.binary64.targetExponent (totalExponent n 0))).1
        (decreaseExponent n 0 (Format.binary64.targetExponent (totalExponent n 0))).2 .exact := rfl
    have hshift (m : ℕ) (e : ℤ) : roundWithAccuracy Format.binary64 sign m e .exact =
        let first := shiftToTargetExponent Format.binary64 m e .exact
        let last := shiftToTargetExponent Format.binary64 first.1.roundedMantissa first.2 .exact
        if h : last.1.mantissa = 0 then .zero sign
        else .finite sign last.1.mantissa last.2 (Nat.pos_of_ne_zero h) := rfl
    rw [hstart, hdecrease, hshift, hfirst]
    rfl
  -- rounding up to the next power of two takes one more shift
  have hlast : shiftToTargetExponent Format.binary64 (leading n) ((n.log2 : ℤ) - 52) .exact =
      (ExtendedMantissa.mk (nearestParts n).1 false false, (nearestParts n).2) := by
    unfold nearestParts
    split
    · have hfits := log2_eq_of_bounds hb.1 ‹_›
      rw [shiftToTargetExponent_eq (by omega), hfits]
      exact congrArg (Prod.mk _) (Int.add_zero _)
    · have hfull : leading n = 2 ^ 53 := by omega
      rw [hfull, shiftToTargetExponent_eq (by rw [Nat.log2_two_pow]; omega), Nat.log2_two_pow]
      refine Prod.ext rfl ?_
      show (n.log2 : ℤ) - 52 + 1 = n.log2 - 51
      omega
  have hne : (nearestParts n).1 ≠ 0 := by
    have := (nearestParts_bounds h).1
    omega
  rw [hround, hlast]
  exact dif_neg hne

/-! ## Packing -/

/-- The sign that is packed is unpacked. -/
theorem unpackSign_packComponents (sign : Sign) (exponent : BitVec 11) (mantissa : BitVec 52) :
    unpackSign (packComponents Format.binary64 sign exponent mantissa) = sign.toBitVec := by
  refine BitVec.eq_of_getLsbD_eq fun i hi => ?_
  obtain rfl : i = 0 := by omega
  unfold unpackSign
  simp only [packComponents, BitVec.getLsbD_cast, BitVec.getLsbD_extractLsb, BitVec.getLsbD_append]
  rfl

/-- A sign is known from its bit. -/
theorem ofBitVec_toBitVec (sign : Sign) : Sign.ofBitVec sign.toBitVec = sign := by
  cases sign <;> rfl

/-- A double with a leading bit is unpacked as it was packed. -/
theorem unpack_pack (sign : Sign) {m : ℕ} {e : ℤ} (hpos : 0 < m) (hm : 2 ^ 52 ≤ m ∧ m < 2 ^ 53)
    (he : -1074 ≤ e) (he' : e ≤ 971) :
    (Float.Model.pack (.finite sign m e hpos)).unpack = .finite sign m e hpos := by
  have hbiased : (e + Format.binary64.exponentBias + (52 : ℕ)).toNat = (e + 1075).toNat := by
    show (e + 1023 + (52 : ℕ)).toNat = _
    omega
  have hexponent : (BitVec.ofNat 11 (e + 1075).toNat).toNat = (e + 1075).toNat := by
    rw [BitVec.toNat_ofNat, Nat.mod_eq_of_lt (by omega)]
  have hall : BitVec.ofNat 11 (e + 1075).toNat ≠ -1#11 := by
    intro h
    have : (BitVec.ofNat 11 (e + 1075).toNat).toNat = 2047 := congrArg BitVec.toNat h
    omega
  have hnone : BitVec.ofNat 11 (e + 1075).toNat ≠ 0#11 := by
    intro h
    have : (BitVec.ofNat 11 (e + 1075).toNat).toNat = 0 := congrArg BitVec.toNat h
    omega
  have hmantissa : (1#1 ++ BitVec.ofNat 52 m).toNat = m := by
    rw [toNat_implicit, BitVec.toNat_ofNat]
    show m % 2 ^ 52 + 2 ^ 52 = m
    omega
  have hpack : UnpackedFloat.pack Format.binary64 (.finite sign m e hpos) =
      packComponents Format.binary64 sign (BitVec.ofNat 11 (e + 1075).toNat) (BitVec.ofNat 52 m) := by
    rw [UnpackedFloat.pack.eq_def]
    simp only [log2_eq_of_bounds hm.1 hm.2, hbiased]
    rw [if_neg (by omega)]
    exact if_pos rfl
  show UnpackedFloat.unpack Format.binary64 (UnpackedFloat.pack Format.binary64 _) = _
  rw [hpack]
  unfold UnpackedFloat.unpack
  rw [if_neg ((unpackExponent_packComponents ..).trans_ne hall),
    if_neg ((unpackExponent_packComponents ..).trans_ne hnone), UnpackedFloat.finite.injEq]
  refine ⟨?_, ?_, ?_⟩
  · rw [unpackSign_packComponents, ofBitVec_toBitVec]
  · rw [unpackMantissa_packComponents, hmantissa]
  · rw [unpackExponent_packComponents, hexponent]
    show ((e + 1075).toNat : ℤ) - (1023 + (52 : ℕ)) = e
    omega

/-! ## Ranks of integers -/

/-- The rank of the double nearest to an integer that is not negative. -/
def sizeRank (n : ℕ) : Rank :=
  if n = 0 then toLex (0, toLex (0, 0))
  else toLex (1, toLex ((nearestParts n).2, ((nearestParts n).1 : ℤ)))

/-- The rank of a double with the other sign. -/
def Rank.opposite (p : Rank) : Rank :=
  toLex (-(ofLex p).1, toLex (-(ofLex (ofLex p).2).1, -(ofLex (ofLex p).2).2))

/-- The rank of the double nearest to an integer. -/
def wholeRank (n : ℤ) : Rank := if n < 0 then (sizeRank n.natAbs).opposite else sizeRank n.natAbs

/-- The exponent of the nearest double of a word is within bounds. -/
theorem nearestParts_exponent {n : ℕ} (h : n ≠ 0) (hn : n < 2 ^ 64) :
    -1074 ≤ (nearestParts n).2 ∧ (nearestParts n).2 ≤ 971 := by
  have hlog : n.log2 < 64 := (Nat.log2_lt h).mpr hn
  unfold nearestParts
  split <;> simp only <;> omega

/-- The conversion of a word gives the parts of the nearest double. -/
theorem unpack_toFloat {n : ℕ} (h : n ≠ 0) (hn : n < 2 ^ 64) :
    (UInt64.ofNat n).toFloat.toModel.unpack =
      .finite .positive (nearestParts n).1 (nearestParts n).2
        (Nat.lt_of_lt_of_le (by decide) (nearestParts_bounds h).1) := by
  have hexponent := nearestParts_exponent h hn
  have hsize : (UInt64.ofNat n).toNat = n := by
    rw [UInt64.toNat_ofNat']
    exact Nat.mod_eq_of_lt hn
  have hsign : compare (n : ℤ) 0 = .gt :=
    compare_gt_iff_gt.mpr (Int.natCast_pos.mpr (Nat.pos_of_ne_zero h))
  have hround : UnpackedFloat.ofUInt64 Format.binary64 (UInt64.ofNat n) =
      UnpackedFloat.round Format.binary64 .positive n 0 := by
    simp only [UnpackedFloat.ofUInt64, UnpackedFloat.ofNat, UnpackedFloat.ofInt,
      UnpackedFloat.normalize, hsize, hsign, Int.toNat_natCast]
  show (Float.Model.pack (UnpackedFloat.ofUInt64 Format.binary64 (UInt64.ofNat n))).unpack = _
  rw [hround, round_eq h]
  exact unpack_pack .positive _ (nearestParts_bounds h) hexponent.1 hexponent.2

/-- **An integer becomes a number**, the one of its rank. -/
theorem rank_ofWhole (n : Int64) : rank (ofWhole n) = some (wholeRank n.toInt) := by
  have hlow := n.le_toInt
  have hhigh := n.toInt_lt
  have hsize : n.toInt.natAbs < 2 ^ 64 := by omega
  by_cases hzero : n.toInt.natAbs = 0
  · have hn : n.toInt = 0 := Int.natAbs_eq_zero.mp hzero
    simp only [ofWhole, hn]
    rfl
  have hunpack := unpack_toFloat hzero hsize
  by_cases hneg : n.toInt < 0
  · have hopposite : (-(UInt64.ofNat n.toInt.natAbs).toFloat).toModel.unpack =
        .finite .negative (nearestParts n.toInt.natAbs).1 (nearestParts n.toInt.natAbs).2
          (Nat.lt_of_lt_of_le (by decide) (nearestParts_bounds hzero).1) := by
      have hexponent := nearestParts_exponent hzero hsize
      show (Float.Model.pack (UInt64.ofNat n.toInt.natAbs).toFloat.toModel.unpack.neg).unpack = _
      rw [hunpack]
      exact unpack_pack .negative _ (nearestParts_bounds hzero) hexponent.1 hexponent.2
    rw [wholeRank, if_pos hneg, sizeRank, if_neg hzero, rank, ofWhole, if_pos hneg, hopposite]
    rfl
  · rw [wholeRank, if_neg hneg, sizeRank, if_neg hzero, rank, ofWhole, if_neg hneg, hunpack]
    rfl

/-- A greater size has no lower rank. -/
theorem sizeRank_mono {m n : ℕ} (h : m ≤ n) : sizeRank m ≤ sizeRank n := by
  unfold sizeRank
  by_cases hm : m = 0
  · rw [if_pos hm]
    split
    · exact le_rfl
    · exact Prod.Lex.toLex_le_toLex.mpr (.inl Int.zero_lt_one)
  · have hn : n ≠ 0 := by omega
    rw [if_neg hm, if_neg hn, Prod.Lex.toLex_le_toLex]
    refine .inr ⟨rfl, Prod.Lex.toLex_le_toLex.mpr ?_⟩
    rcases nearestParts_mono hm h with hlt | ⟨heq, hle⟩
    · exact .inl hlt
    · exact .inr ⟨heq, Int.ofNat_le.mpr hle⟩

/-- The opposites are in the opposite order. -/
theorem opposite_le_opposite {p q : Rank} (h : p ≤ q) : q.opposite ≤ p.opposite := by
  rcases Prod.Lex.le_iff.mp h with hlt | ⟨heq, hrest⟩
  · exact Prod.Lex.toLex_le_toLex.mpr (.inl (neg_lt_neg hlt))
  · refine Prod.Lex.toLex_le_toLex.mpr (.inr ⟨congrArg Int.neg heq.symm, ?_⟩)
    rcases Prod.Lex.le_iff.mp hrest with hlt | ⟨heq, hle⟩
    · exact Prod.Lex.toLex_le_toLex.mpr (.inl (neg_lt_neg hlt))
    · exact Prod.Lex.toLex_le_toLex.mpr (.inr ⟨congrArg Int.neg heq.symm, neg_le_neg hle⟩)

/-- The doubles nearest to integers are in the order of the integers. -/
theorem wholeRank_mono {m n : ℤ} (h : m ≤ n) : wholeRank m ≤ wholeRank n := by
  unfold wholeRank
  by_cases hm : m < 0
  · rw [if_pos hm]
    by_cases hn : n < 0
    · rw [if_pos hn]
      exact opposite_le_opposite (sizeRank_mono (by omega))
    · rw [if_neg hn]
      have hzero : (sizeRank m.natAbs).opposite ≤ (sizeRank 0).opposite :=
        opposite_le_opposite (sizeRank_mono (Nat.zero_le _))
      exact hzero.trans (sizeRank_mono (Nat.zero_le _))
  · rw [if_neg hm, if_neg (by omega)]
    exact sizeRank_mono (by omega)

end Ckl.Number
