/-!
# Doubles as exact numbers

A double is not a number, an infinity, or a sign with `mantissa * 2 ^ exponent`. `Binary64.ofFloat`
reads a `Float` this way and `Binary64.toFloat` writes it back, so that operations on doubles that are
not primitive can be computed with exact integers: truncation, rounding and the remainder.
-/

namespace Ckl.Number

/-- What a double stands for. -/
inductive Binary64 where
  | nan
  | infinite (negative : Bool)
  | finite (negative : Bool) (mantissa : Nat) (exponent : Int)
  deriving DecidableEq, Repr

/-- The least exponent of a double's unit in the last place. -/
def leastExponent : Int := -1074

namespace Binary64

/-- The reading of a double: normal numbers have mantissas from `2 ^ 52` to `2 ^ 53 - 1`. -/
def ofFloat (x : Float) : Binary64 :=
  let bits := x.toBits.toNat
  let negative := bits / Nat.pow 2 63 == 1
  let biased := bits / Nat.pow 2 52 % Nat.pow 2 11
  let fraction := bits % Nat.pow 2 52
  if biased = 2047 then
    if fraction = 0 then .infinite negative else .nan
  else if biased = 0 then .finite negative fraction leastExponent
  else .finite negative (fraction + Nat.pow 2 52) (leastExponent + (biased - 1 : Nat))

/-- The sign bit in place. -/
def signBit (negative : Bool) : Nat := if negative then Nat.pow 2 63 else 0

/-- The bits of `mantissa * 2 ^ exponent`, for numbers that a double holds exactly. -/
def finiteBits (mantissa : Nat) (exponent : Int) : Nat :=
  if mantissa = 0 then 0
  else
    let lowest := max leastExponent (exponent + (Nat.log2 mantissa : Int) - 52)
    let scaled :=
      if lowest ≤ exponent then mantissa * Nat.pow 2 (exponent - lowest).toNat
      else mantissa / Nat.pow 2 (lowest - exponent).toNat
    if scaled < Nat.pow 2 52 then scaled
    else ((lowest - leastExponent).toNat + 1) * Nat.pow 2 52 + (scaled - Nat.pow 2 52)

/-- The double that stands for a reading; the finite ones must be exact. -/
def toFloat : Binary64 → Float
  | .nan => Float.ofBits 0x7FF8000000000000
  | .infinite negative => Float.ofBits (UInt64.ofNat (signBit negative + 2047 * Nat.pow 2 52))
  | .finite negative mantissa exponent =>
    Float.ofBits (UInt64.ofNat (signBit negative + finiteBits mantissa exponent))

/-- The size of a finite number without its fraction. -/
def truncated (mantissa : Nat) (exponent : Int) : Nat :=
  if 0 ≤ exponent then mantissa * Nat.pow 2 exponent.toNat else mantissa / Nat.pow 2 (-exponent).toNat

/-- The size of a finite number, to the nearest integer, halves going up. -/
def rounded (mantissa : Nat) (exponent : Int) : Nat :=
  if 0 ≤ exponent then mantissa * Nat.pow 2 exponent.toNat
  else (mantissa + Nat.pow 2 ((-exponent).toNat - 1)) / Nat.pow 2 (-exponent).toNat

/-- Whether a finite number has no fraction. -/
def integral (mantissa : Nat) (exponent : Int) : Bool :=
  0 ≤ exponent || mantissa % Nat.pow 2 (-exponent).toNat == 0

end Binary64

/-- An integer with the sign given apart. -/
def signed (negative : Bool) (size : Nat) : Int := if negative then -(size : Int) else size

/-- The nearest integer of 64 bits: those out of range go to the limits. -/
def saturate (n : Int) : Int64 :=
  if n ≤ Int64.minValue.toInt then Int64.minValue
  else if Int64.maxValue.toInt ≤ n then Int64.maxValue
  else Int64.ofInt n

/-- A double as an integer of 64 bits, through a reading of its finite values: the infinities go to
the limits, and what is not a number is zero. -/
def toWhole (read : Nat → Int → Nat) (x : Float) : Int64 :=
  match Binary64.ofFloat x with
  | .nan => 0
  | .infinite negative => if negative then Int64.minValue else Int64.maxValue
  | .finite negative mantissa exponent => saturate (signed negative (read mantissa exponent))

/-- The integer next to a double on the side of zero, within the limits of 64 bits. -/
def truncate (x : Float) : Int64 := toWhole Binary64.truncated x

/-- The integer nearest to a double, halves going away from zero, within the limits of 64 bits. -/
def roundHalfAway (x : Float) : Int64 := toWhole Binary64.rounded x

/-- The double nearest to an integer; between two that are equally near, the one with an even
mantissa. -/
def ofWhole (n : Int64) : Float :=
  let size := (UInt64.ofNat n.toInt.natAbs).toFloat
  if n.toInt < 0 then -size else size

/-- The remainder of a division that truncates: it has the sign of the dividend and is exact. -/
def remainder (x y : Float) : Float :=
  match Binary64.ofFloat x, Binary64.ofFloat y with
  | .finite negative m e, .finite _ n f =>
    if n = 0 then Binary64.nan.toFloat
    else
      let low := min e f
      let size := m * Nat.pow 2 (e - low).toNat % (n * Nat.pow 2 (f - low).toNat)
      (Binary64.finite negative size low).toFloat
  | .finite _ _ _, .infinite _ => x
  | _, _ => Binary64.nan.toFloat

end Ckl.Number
