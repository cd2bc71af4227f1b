import Ckl.Eval
import Ckl.Proofs.Value.AtomSets
import Ckl.Proofs.Value.Integer
import Mathlib.Algebra.Order.Floor.Ring
import Mathlib.Data.Rat.Floor
import Mathlib.Tactic.FieldSimp
import Mathlib.Tactic.Ring

/-!
# Progressions of integers

`range` counts on integers of 64 bits and leaves off where the next number does not fit. Next to it stands
the progression of all integers, `terms`, which knows no such end: of it those terms are wanted that lie
before the limit in the direction of the step, and `termsBefore` tells how many these are. The two agree
(`range_progression`). A term that does not fit does not lie before the limit, which fits, so nothing is
missing where counting leaves off.
-/

namespace Ckl

namespace Number

/-- The integer lies strictly before a limit in the direction of a step. -/
def Before (step limit n : Int) : Prop := 0 < step ∧ n < limit ∨ step < 0 ∧ limit < n

/-- The first terms of the progression from `start` on by `step`. -/
def terms (start step : Int) (count : Nat) : List Int :=
  (List.range count).map fun (index : Nat) => start + index * step

/-- How many terms of the progression lie before the limit. -/
def termsBefore (start limit step : Int) : Nat := ⌈((limit - start : Int) : ℚ) / step⌉.toNat

theorem terms_succ (start step : Int) (count : Nat) :
    terms start step (count + 1) = start :: terms (start + step) step count := by
  simp only [terms, List.range_succ_eq_map, List.map_cons, List.map_map]
  congr 1
  · simp
  · refine List.map_congr_left fun index _ => ?_
    simp only [Function.comp_apply, Nat.succ_eq_add_one]
    push_cast
    ring

section Counts

variable {start limit step : Int}

theorem ceil_pos_of_before (h : Before step limit start) :
    0 < ⌈((limit - start : Int) : ℚ) / step⌉ := by
  rw [Int.ceil_pos]
  rcases h with ⟨hstep, hlt⟩ | ⟨hstep, hlt⟩
  · exact div_pos (by norm_cast; omega) (by norm_cast)
  · exact div_pos_of_neg_of_neg (by norm_cast; omega) (by norm_cast)

/-- Where the start lies before the limit, it is the first of the terms that do. -/
theorem termsBefore_of_before (h : Before step limit start) :
    termsBefore start limit step = termsBefore (start + step) limit step + 1 := by
  have hstep : (step : ℚ) ≠ 0 := by
    unfold Before at h
    norm_cast
    omega
  have hnext : ((limit - (start + step) : Int) : ℚ) / step = ((limit - start : Int) : ℚ) / step - 1 := by
    push_cast
    field_simp
    ring
  have hpos := ceil_pos_of_before h
  rw [termsBefore, termsBefore, hnext, Int.ceil_sub_one]
  omega

theorem termsBefore_of_not_before (hstep : step ≠ 0) (h : ¬ Before step limit start) :
    termsBefore start limit step = 0 := by
  unfold Before at h
  rw [termsBefore, Int.toNat_eq_zero, Int.ceil_le, Int.cast_zero]
  rcases lt_or_gt_of_ne hstep with hneg | hpos
  · exact div_nonpos_of_nonneg_of_nonpos (by norm_cast; omega) (by norm_cast; omega)
  · exact div_nonpos_of_nonpos_of_nonneg (by norm_cast; omega) (by norm_cast; omega)

/-- The terms that are counted are just those that lie before the limit. -/
theorem lt_termsBefore_iff (hstep : step ≠ 0) (index : Nat) :
    index < termsBefore start limit step ↔ Before step limit (start + index * step) := by
  rw [termsBefore, Int.lt_toNat, Int.lt_ceil, Before]
  rcases lt_or_gt_of_ne hstep with hneg | hpos
  · rw [lt_div_iff_of_neg (by norm_cast)]
    norm_cast
    omega
  · rw [lt_div_iff₀ (by norm_cast)]
    norm_cast
    omega

theorem mem_terms_iff (hstep : step ≠ 0) (n : Int) :
    n ∈ terms start step (termsBefore start limit step) ↔
      Before step limit n ∧ ∃ index : Nat, n = start + index * step := by
  simp only [terms, List.mem_map, List.mem_range, lt_termsBefore_iff hstep]
  constructor
  · rintro ⟨index, hbefore, rfl⟩
    exact ⟨hbefore, index, rfl⟩
  · rintro ⟨hbefore, index, rfl⟩
    exact ⟨index, hbefore, rfl⟩

end Counts

/-! ## Counting on -/

theorem isBefore_iff_before {step current limit : Int64} :
    isBefore step current limit = true ↔ Before step.toInt limit.toInt current.toInt := isBefore_iff

/-- Counting leaves off only where the next term does not lie before the limit. -/
theorem not_before_of_sum?_eq_none {step current limit : Int64} (h : sum? current step = none) :
    ¬ Before step.toInt limit.toInt (current.toInt + step.toInt) := by
  have hfits := whole?_eq_none_iff.mp h
  have hcurrent := fits_toInt current
  have hlimit := fits_toInt limit
  unfold Fits at hfits hcurrent hlimit
  unfold Before
  omega

/-- What is counted from a number on are the terms from it on that lie before the limit. -/
theorem toInt_countOn {step : Int64} (hstep : step ≠ 0) (limit current : Int64)
    (counted : Array Int64) :
    (countOn step limit current counted).toList.map Int64.toInt = counted.toList.map Int64.toInt ++
      terms current.toInt step.toInt (termsBefore current.toInt limit.toInt step.toInt) := by
  have hstep' : step.toInt ≠ 0 := fun h => hstep (Int64.toInt_inj.mp h)
  fun_induction countOn step limit current counted with
  | case1 current counted hbefore next hnext ih =>
    rw [ih, termsBefore_of_before (isBefore_iff_before.mp hbefore), terms_succ, toInt_of_whole? hnext]
    simp
  | case2 current counted hbefore hnext =>
    rw [termsBefore_of_before (isBefore_iff_before.mp hbefore), terms_succ,
      termsBefore_of_not_before hstep' (not_before_of_sum?_eq_none hnext)]
    simp [terms]
  | case3 current counted hbefore =>
    rw [termsBefore_of_not_before hstep' (mt isBefore_iff_before.mpr hbefore)]
    simp [terms]

end Number

open Number (progression terms termsBefore Before)

/-- The call of `range` with three integers of which the step is not zero. -/
theorem invoke_range (evaluator : Evaluator) (frame : FrameRef) (position : Source.Position)
    (store : Store) (start limit : Int64) {step : Int64} (hstep : step ≠ 0) :
    invoke evaluator (.builtin .range) (Builtin.positional [.int start, .int limit, .int step]) frame
        position store =
      let (value, after) := store.place (.list ((progression start limit step).map Value.int).toArray)
      .ok value after := by
  show Run.compute position (fun _ => if step == 0 then .error .zeroStep else
    .ok (.list ((progression start limit step).map Value.int).toArray)) store = _
  rw [if_neg (by simpa using hstep)]
  rfl

/-- **A range is an exact progression.** It is a new list of the integers from the first one on by the
step, as many of them as lie before the second one, and these are all that do. -/
theorem range_progression (evaluator : Evaluator) (frame : FrameRef) (position : Source.Position)
    (store : Store) (start limit : Int64) {step : Int64} (hstep : step ≠ 0) :
    ∃ numbers : List Int64,
      invoke evaluator (.builtin .range) (Builtin.positional [.int start, .int limit, .int step]) frame
          position store =
        .ok (.list ⟨store.lists.size⟩)
          { store with lists := store.lists.push (numbers.map Value.int).toArray } ∧
      numbers.map Int64.toInt =
        (List.range ⌈((limit.toInt - start.toInt : Int) : ℚ) / step.toInt⌉.toNat).map
          (fun (index : Nat) => start.toInt + index * step.toInt) ∧
      ∀ n : Int, n ∈ numbers.map Int64.toInt ↔
        (0 < step.toInt ∧ n < limit.toInt ∨ step.toInt < 0 ∧ limit.toInt < n) ∧
          ∃ index : Nat, n = start.toInt + index * step.toInt := by
  have hterms : (progression start limit step).map Int64.toInt =
      terms start.toInt step.toInt (termsBefore start.toInt limit.toInt step.toInt) :=
    Number.toInt_countOn hstep limit start #[]
  refine ⟨progression start limit step, invoke_range evaluator frame position store start limit hstep,
    hterms, fun n => ?_⟩
  rw [hterms]
  exact Number.mem_terms_iff (fun h => hstep (Int64.toInt_inj.mp h)) n

/-- Counting down to the least integer leaves off above it, where the next number does not fit. -/
theorem range_progression_down :
    (-4 : Int64) ≠ 0 ∧ ∃ numbers : List Int64,
      invoke (evaluator 0) (.builtin .range)
          (Builtin.positional [.int (Int64.minValue + 7), .int Int64.minValue, .int (-4)]) ⟨0⟩ default
          Store.bare =
        .ok (.list ⟨Store.bare.lists.size⟩)
          { Store.bare with lists := Store.bare.lists.push (numbers.map Value.int).toArray } ∧
      numbers.map Int64.toInt = [-2 ^ 63 + 7, -2 ^ 63 + 3] := by
  obtain ⟨numbers, hcall, hnumbers, -⟩ := range_progression (evaluator 0) ⟨0⟩ default Store.bare
    (Int64.minValue + 7) Int64.minValue (by decide : (-4 : Int64) ≠ 0)
  refine ⟨by decide, numbers, hcall, hnumbers.trans ?_⟩
  have hstart : (Int64.minValue + 7).toInt = -2 ^ 63 + 7 := by decide
  have hlimit : Int64.minValue.toInt = -2 ^ 63 := by decide
  have hstep : (-4 : Int64).toInt = -4 := by decide
  have hcount : ⌈((-2 ^ 63 - (-2 ^ 63 + 7) : Int) : ℚ) / (-4 : Int)⌉.toNat = 2 := by
    norm_num
    rfl
  rw [hstart, hlimit, hstep, hcount]
  decide

end Ckl
