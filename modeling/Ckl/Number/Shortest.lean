import Ckl.Number.Binary64

/-!
# Shortest decimals

The fewest digits that read back to a double. The doubles next to `m * 2 ^ q` leave it an interval of
reals that round to it, ends included when `m` is even. `shortest` looks on the decimal grids of 1, 2,
… digits for the point of the interval that is nearest to the double; on a tie the upper one.
-/

namespace Ckl.Number

/-- A positive decimal number: `digits * 10 ^ exponent`. -/
structure Scaled where
  digits : Nat
  exponent : Int
  deriving DecidableEq, Repr

/-- A positive double and its interval, as multiples of `2 ^ unit`. -/
structure Interval where
  value : Nat
  low : Nat
  high : Nat
  unit : Int
  /-- Whether the two ends belong to it. -/
  closed : Bool
  deriving Repr

/-- The interval of `mantissa * 2 ^ exponent`. Below a power of two the doubles lie twice as dense. -/
def Interval.ofFinite (mantissa : Nat) (exponent : Int) : Interval :=
  let below := if mantissa = Nat.pow 2 52 ∧ exponent ≠ leastExponent then 1 else 2
  { value := 4 * mantissa
    low := 4 * mantissa - below
    high := 4 * mantissa + 2
    unit := exponent - 2
    closed := mantissa % 2 = 0 }

/-- A power with an integer exponent as a fraction. -/
def powerFraction (base : Nat) (exponent : Int) : Nat × Nat :=
  if 0 ≤ exponent then (Nat.pow base exponent.toNat, 1) else (1, Nat.pow base (-exponent).toNat)

/-- The interval in units of `10 ^ exponent`: the three numbers over one denominator. -/
def Interval.onGrid (interval : Interval) (exponent : Int) : Nat × Nat × Nat × Nat :=
  let (upTwo, downTwo) := powerFraction 2 interval.unit
  let (upTen, downTen) := powerFraction 10 exponent
  let scale := upTwo * downTen
  (interval.value * scale, interval.low * scale, interval.high * scale, downTwo * upTen)

/-- The grid point nearest to the value, if it lies in the interval. Of the value's two neighbours on
the grid the upper one wins a tie. -/
def Interval.nearestOnGrid (interval : Interval) (exponent : Int) : Option Nat :=
  let (value, low, high, unit) := interval.onGrid exponent
  let holds (point : Nat) : Bool :=
    let scaled := point * unit
    if interval.closed then low ≤ scaled && scaled ≤ high else low < scaled && scaled < high
  let lower := value / unit
  let upper := lower + 1
  match holds lower, holds upper with
  | true, true => if 2 * value < (lower + upper) * unit then some lower else some upper
  | true, false => some lower
  | false, true => some upper
  | false, false => none

/-- The decimal exponent of the leading digit of `value * 2 ^ unit`. -/
def Interval.leading (interval : Interval) : Int :=
  let guess := ((Nat.log2 interval.value : Int) + interval.unit) * 30103 / 100000
  let reached (exponent : Int) : Bool :=
    let (value, _, _, unit) := interval.onGrid exponent
    unit ≤ value
  match [guess + 2, guess + 1, guess, guess - 1].find? reached with
  | some exponent => exponent
  | none => guess - 2

/-- The grids with `count`, `count + 1`, … digits, as many as `more`, searched in this order. -/
def Interval.search (interval : Interval) (leading : Int) : Nat → Nat → Scaled
  | 0, count => ⟨(interval.nearestOnGrid (leading + 1 - count)).getD 0, leading + 1 - count⟩
  | more + 1, count =>
    match interval.nearestOnGrid (leading + 1 - count) with
    | some digits => ⟨digits, leading + 1 - count⟩
    | none => interval.search leading more (count + 1)

/-- The same number without zeros at the end of its digits; `fuel` bounds how many are dropped. -/
def Scaled.trim : Nat → Scaled → Scaled
  | 0, scaled => scaled
  | fuel + 1, scaled =>
    if scaled.digits ≠ 0 ∧ scaled.digits % 10 = 0 then
      Scaled.trim fuel ⟨scaled.digits / 10, scaled.exponent + 1⟩
    else scaled

/-- The shortest decimal that reads back to `mantissa * 2 ^ exponent`, a positive double. Seventeen
digits always suffice. -/
def shortest (mantissa : Nat) (exponent : Int) : Scaled :=
  let interval := Interval.ofFinite mantissa exponent
  (interval.search interval.leading 16 1).trim 17

end Ckl.Number
