import Ckl.Number.Decimal

/-!
# Arithmetic on integers of 64 bits

Each operation gives the exact result if 64 bits hold it. Division goes toward zero; the remainder is
refused where the quotient is. Counting goes on by such sums and leaves off where there is none.
-/

namespace Ckl.Number

/-- The exact sum. -/
def sum? (a b : Int64) : Option Int64 := whole? (a.toInt + b.toInt)

/-- The exact difference. -/
def difference? (a b : Int64) : Option Int64 := whole? (a.toInt - b.toInt)

/-- The exact product. -/
def product? (a b : Int64) : Option Int64 := whole? (a.toInt * b.toInt)

/-- The quotient by a number that is not zero. -/
def quotient? (a b : Int64) : Option Int64 := whole? (a.toInt.tdiv b.toInt)

/-- The remainder of the quotient. -/
def remainder? (a b : Int64) : Option Int64 :=
  (quotient? a b).bind fun _ => whole? (a.toInt.tmod b.toInt)

/-! ## Counting -/

/-- Whether a number lies before a limit in the direction of a step. -/
def isBefore (step current limit : Int64) : Bool :=
  (0 < step && current < limit) || (step < 0 && limit < current)

theorem isBefore_iff {step current limit : Int64} : isBefore step current limit = true ↔
    0 < step.toInt ∧ current.toInt < limit.toInt ∨ step.toInt < 0 ∧ limit.toInt < current.toInt := by
  simp only [isBefore, Bool.or_eq_true, Bool.and_eq_true, decide_eq_true_eq, Int64.lt_iff_toInt_lt,
    Int64.toInt_zero]

/-- How far it is from a number to a limit in the direction of a step. -/
def room (step current limit : Int64) : Nat :=
  if 0 < step.toInt then (limit.toInt - current.toInt).toNat else (current.toInt - limit.toInt).toNat

/-- Every step comes closer to the limit. -/
theorem room_lt {step current limit next : Int64} (hbefore : isBefore step current limit = true)
    (hnext : sum? current step = some next) : room step next limit < room step current limit := by
  have hsum := toInt_of_whole? hnext
  rw [isBefore_iff] at hbefore
  unfold room
  split <;> omega

/-- Counts on from `current` by `step`, behind what has been counted already. It ends at the first number
that does not lie before the limit, or behind the last one that 64 bits hold. -/
def countOn (step limit current : Int64) (counted : Array Int64) : Array Int64 :=
  if isBefore step current limit then
    match _next : sum? current step with
    | some next => countOn step limit next (counted.push current)
    | none => counted.push current
  else counted
termination_by room step current limit
decreasing_by exact room_lt ‹_› ‹_›

/-- The numbers from `start` on by `step`, which is not zero, as long as they lie before `limit` in the
direction of `step`. -/
def progression (start limit step : Int64) : List Int64 := (countOn step limit start #[]).toList

end Ckl.Number
