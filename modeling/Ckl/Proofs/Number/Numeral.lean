import Ckl.Proofs.Number.Conversion

/-!
# How numbers are written

The text of a number begins with a minus sign, a digit or the letter of infinity, and which of these it
is fits the rank of the number (`Begins`). Zero is the only rank that has two beginnings: there is a
zero with a minus sign.
-/

namespace Ckl.Number

open Float.Model (UnpackedFloat)

/-- How the text of a number of some rank begins. -/
inductive Begins (p : Rank) : Char → Prop
  | minus : (ofLex p).1 ≤ 0 → Begins p '-'
  | digit {c : Char} : c.isDigit = true → 0 ≤ (ofLex p).1 → (ofLex p).1 ≤ 1 → Begins p c
  | infinity : (ofLex p).1 = 2 → Begins p 'i'

/-- A text that begins with a digit. -/
def Numeral (text : List Char) : Prop := ∃ c rest, text = c :: rest ∧ c.isDigit = true

theorem Numeral.append {text : List Char} (h : Numeral text) (more : List Char) :
    Numeral (text ++ more) := by
  obtain ⟨c, rest, rfl, hc⟩ := h
  exact ⟨c, rest ++ more, rfl, hc⟩

theorem numeral_digitsOf (n : Nat) : Numeral (digitsOf n) := by
  cases hd : digitsOf n with
  | nil => exact absurd hd Nat.toDigits_ne_nil
  | cons c cs =>
    refine ⟨c, cs, rfl, ?_⟩
    exact Nat.isDigit_of_mem_toDigits (by decide) (by decide) (hd ▸ List.mem_cons_self)

theorem numeral_positional (scaled : Scaled) : Numeral scaled.positional := by
  simp only [Scaled.positional]
  split
  · exact (numeral_digitsOf _).append _
  split
  · rename_i hplaces
    obtain ⟨c, rest, hd, hc⟩ := numeral_digitsOf scaled.digits
    rw [hd] at hplaces ⊢
    -- at least one digit stands before the point
    obtain ⟨before, hbefore⟩ : ∃ before, (c :: rest).length - (-scaled.exponent).toNat = before + 1 :=
      ⟨(c :: rest).length - (-scaled.exponent).toNat - 1, by omega⟩
    rw [hbefore, List.take_succ_cons]
    exact ⟨c, _, rfl, hc⟩
  · exact ⟨'0', _, rfl, by decide⟩

/-- The size of a finite double, without its sign. -/
def sizeText (mantissa : Nat) (exponent : Int) : List Char :=
  if Binary64.integral mantissa exponent && Binary64.truncated mantissa exponent < pointLimit then
    digitsOf (Binary64.truncated mantissa exponent) ++ ['.', '0']
  else shortestText mantissa exponent

theorem numeral_sizeText (mantissa : Nat) (exponent : Int) : Numeral (sizeText mantissa exponent) := by
  unfold sizeText
  split
  · exact (numeral_digitsOf _).append _
  · exact numeral_positional _

theorem decimalText_finite {x : Float} {negative : Bool} {mantissa : Nat} {exponent : Int}
    (h : Binary64.ofFloat x = .finite negative mantissa exponent) :
    decimalText x = minus negative ++ sizeText mantissa exponent := by
  rw [decimalText, h]
  rfl

/-- A sign and a numeral begin as the rank of the number says. -/
theorem begins_of_sign {sign : UnpackedFloat.Sign} {mantissa : Nat} {exponent : Int} {hm : 0 < mantissa}
    {p : Rank} (hp : rankOf (.finite sign mantissa exponent hm) = some p) {body : List Char}
    (hbody : Numeral body) :
    ∃ c rest, minus (sign == .negative) ++ body = c :: rest ∧ Begins p c := by
  obtain ⟨c, rest, rfl, hc⟩ := hbody
  cases sign with
  | negative =>
    cases hp
    exact ⟨'-', c :: rest, rfl, .minus (show (-1 : ℤ) ≤ 0 by decide)⟩
  | positive =>
    cases hp
    exact ⟨c, rest, rfl, .digit hc Int.zero_lt_one.le le_rfl⟩

theorem begins_of_infinity {sign : UnpackedFloat.Sign} {p : Rank}
    (hp : rankOf (.infinity sign) = some p) :
    ∃ c rest, minus (sign == .negative) ++ "inf".toList = c :: rest ∧ Begins p c := by
  cases sign with
  | negative =>
    cases hp
    exact ⟨'-', _, rfl, .minus (by decide)⟩
  | positive =>
    cases hp
    exact ⟨'i', _, rfl, .infinity rfl⟩

/-- The text of a double begins as its rank says. -/
theorem decimalText_begins {x : Float} {p : Rank} (hx : rank x = some p) :
    ∃ c rest, decimalText x = c :: rest ∧ Begins p c := by
  have hread := ofFloat_eq x
  unfold rank at hx
  cases hu : x.toModel.unpack with
  | notANumber =>
    rw [hu] at hx
    cases hx
  | infinity sign =>
    rw [hu] at hx hread
    rw [decimalText, hread]
    exact begins_of_infinity hx
  | zero sign =>
    rw [hu] at hx hread
    obtain ⟨c, rest, hs, hc⟩ := numeral_sizeText 0 leastExponent
    rw [decimalText_finite hread, hs]
    cases hx
    cases sign with
    | negative => exact ⟨'-', c :: rest, rfl, .minus le_rfl⟩
    | positive => exact ⟨c, rest, rfl, .digit hc le_rfl Int.zero_lt_one.le⟩
  | finite sign mantissa exponent hm =>
    rw [hu] at hx hread
    rw [decimalText_finite hread]
    exact begins_of_sign hx (numeral_sizeText mantissa exponent)

/-- So does its key. -/
theorem decimalKey_begins {x : Float} {p : Rank} (hx : rank x = some p) :
    ∃ c rest, decimalKey x = c :: rest ∧ Begins p c := by
  have hread := ofFloat_eq x
  unfold rank at hx
  cases hu : x.toModel.unpack with
  | notANumber =>
    rw [hu] at hx
    cases hx
  | infinity sign =>
    rw [hu] at hx hread
    rw [decimalKey, hread]
    exact begins_of_infinity hx
  | zero sign =>
    rw [hu] at hx hread
    rw [decimalKey, hread]
    cases hx
    exact ⟨'0', [], rfl, .digit (by decide) le_rfl Int.zero_lt_one.le⟩
  | finite sign mantissa exponent hm =>
    rw [hu] at hx hread
    have hfinite : Binary64.ofUnpacked (.finite sign mantissa exponent hm) =
        .finite (sign == .negative) mantissa exponent := rfl
    rw [decimalKey, hread, hfinite]
    simp only [if_neg hm.ne']
    refine begins_of_sign hx ?_
    split
    · exact numeral_digitsOf _
    · exact numeral_positional _

theorem leading_wholeRank (n : ℤ) :
    n < 0 ∧ (ofLex (wholeRank n)).1 ≤ 0 ∨
      0 ≤ n ∧ 0 ≤ (ofLex (wholeRank n)).1 ∧ (ofLex (wholeRank n)).1 ≤ 1 := by
  unfold wholeRank
  by_cases h : n < 0
  · rw [if_pos h]
    refine .inl ⟨h, ?_⟩
    unfold sizeRank
    split
    · exact le_rfl
    · exact show (-1 : ℤ) ≤ 0 by decide
  · rw [if_neg h]
    refine .inr ⟨not_lt.mp h, ?_⟩
    unfold sizeRank
    split
    · exact ⟨le_rfl, Int.zero_lt_one.le⟩
    · exact ⟨Int.zero_lt_one.le, le_rfl⟩

/-- The text of an integer begins as the rank of its double says. -/
theorem wholeText_begins (n : ℤ) : ∃ c rest, wholeText n = c :: rest ∧ Begins (wholeRank n) c := by
  obtain ⟨c, rest, hs, hc⟩ := numeral_digitsOf n.natAbs
  rw [wholeText, hs]
  rcases leading_wholeRank n with ⟨hn, hrank⟩ | ⟨hn, hrank⟩
  · rw [decide_eq_true hn]
    exact ⟨'-', c :: rest, rfl, .minus hrank⟩
  · rw [decide_eq_false (not_lt.mpr hn)]
    exact ⟨c, rest, rfl, .digit hc hrank.1 hrank.2⟩

theorem eq_of_toBits_eq {x y : Float} (h : x.toBits.toNat = y.toBits.toNat) : x = y := by
  obtain ⟨⟨bits, _⟩⟩ := x
  obtain ⟨⟨bits', _⟩⟩ := y
  have hbits : bits = bits' := UInt64.toNat_inj.mp h
  subst hbits
  rfl

theorem unpack_eq_zero {x : Float} {p : Rank} (hx : rank x = some p) (hp : (ofLex p).1 = 0) :
    ∃ sign, x.toModel.unpack = .zero sign := by
  unfold rank at hx
  cases hu : x.toModel.unpack with
  | zero sign => exact ⟨sign, rfl⟩
  | notANumber =>
    rw [hu] at hx
    cases hx
  | infinity sign =>
    rw [hu] at hx
    cases sign <;> cases hx <;> cases hp
  | finite sign mantissa exponent hm =>
    rw [hu] at hx
    cases sign <;> cases hx <;> cases hp

/-- There are two zeros. -/
theorem eq_zero_of_rank {x : Float} {p : Rank} (hx : rank x = some p) (hp : (ofLex p).1 = 0) :
    x = 0.0 ∨ x = -0.0 := by
  obtain ⟨sign, hu⟩ := unpack_eq_zero hx hp
  have hread : Binary64.ofFloat x = .finite (sign == .negative) 0 leastExponent := by
    rw [ofFloat_eq, hu]
    rfl
  have hbits : x.toBits.toNat = 0 ∨ x.toBits.toNat = 2 ^ 63 := by
    have hsize := x.toBits.toNat_lt
    have hfraction : Nat.pow 2 52 = 2 ^ 52 := rfl
    have hexponent : Nat.pow 2 11 = 2 ^ 11 := rfl
    simp only [Binary64.ofFloat, leastExponent, hfraction, hexponent] at hread
    split at hread
    · split at hread <;> cases hread
    split at hread
    · rw [Binary64.finite.injEq] at hread
      omega
    · rw [Binary64.finite.injEq] at hread
      omega
  rcases hbits with h | h
  · exact .inl (eq_of_toBits_eq h)
  · exact .inr (eq_of_toBits_eq h)

end Ckl.Number
