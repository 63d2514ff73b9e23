import Camel.Array.Storage
import Camel.Lib.Progression

/-! # Ranges

    The builtin `range` and the tensor kernel `arange` both list the positions from
    `start` by `step` before `stop`. Each computes how many there are in 64 bits, with
    a quotient rounded up by adding the step, less one, to the distance; the builtin
    has a formula of its own for a negative step. Arithmetic on `Int64` wraps.
-/

namespace Camel.Index

open Lib Extents

/-- A fault of the running program, or the argument a library call refuses. -/
inductive Fault where
  | invalidArgument (op what : String)
  | sliceOutOfRange (start stop : Int64) (what : String) (extent : Int64)
  | indexOutOfRange (index : Int64) (what : String) (extent : Int64)
  | runtimeError (what : String)
  | refused (what : String)
  deriving DecidableEq

/-- The values a loop writes that adds `step` after each. -/
def fill : Nat → Int64 → Int64 → List Int64
  | 0, _, _ => []
  | n + 1, value, step => value :: fill n (value + step) step

variable (start stop step : Int64)

def rangeCount : UInt64 :=
  if (0 < step ∧ start < stop) ∨ (step < 0 ∧ stop < start) then
    let count := ((stop - start + step - (if 0 < step then 1 else -1)) / step).toUInt64
    -- correction for negative step and integer division
    if step < 0 then ((start - stop - 1) / (-step) + 1).toUInt64 else count
  else 0

/-- `__range__`; a call with two arguments has the step 1. -/
def range (start stop : Int64) (given : Option Int64) : Except Fault (List Int64) :=
  let step := given.getD 1
  if step = 0 then
    .error (.invalidArgument "range"
      s!"the step is 0 (from {start} to {stop}); a range needs a step that moves")
  else
    -- the array's one extent is the count, read as a signed number
    match checkedNumel [(rangeCount start stop step).toInt64] with
    | .error what => .error (.refused what)
    | .ok _ => .ok (fill (rangeCount start stop step).toNat start step)

def arangeCount : Int64 :=
  if 0 < step ∧ start < stop then (stop - start + step - 1) / step
  else if step < 0 ∧ stop < start then (start - stop - step - 1) / -step
  else 0

def arange : Except Fault (List Int64) :=
  if step = 0 then
    .error (.refused "range step cannot be zero")
  else
    match checkedNumel [arangeCount start stop step] with
    | .error what => .error (.refused what)
    | .ok _ => .ok ((List.range (arangeCount start stop step).toInt.toNat).map
        fun i => start + Int64.ofNat i * step)

/-- The values are the integers from `start` by `step` before `stop`, computed exactly. -/
def IsRange (values : List Int64) : Prop :=
  IsWalk start.toInt stop.toInt step.toInt (values.map Int64.toInt)

/-- The distance to `stop` and the size of the step fit 64 bits together. The least step there
    is has no negation, and is right by itself for a distance of one. -/
def CountFits : Prop :=
  ahead start.toInt stop.toInt step.toInt + step.toInt.natAbs ≤ 2 ^ 63 ∨
    (step = Int64.minValue ∧ ahead start.toInt stop.toInt step.toInt = 1)

/-! ## The Quotient in 64 Bits -/

/-- The quotient of the wrapped sum is the rounded quotient just when the sum fits. -/
theorem quotient_eq_iff {d s : Nat} (hd : 0 < d) (hd' : d < 2 ^ 64) (hs : 0 < s)
    (hs' : s < 2 ^ 63) :
    (((d + s - 1 : Nat) : Int).bmod (2 ^ 64)).tdiv s = (((d + s - 1) / s : Nat) : Int) ↔
      d + s ≤ 2 ^ 63 := by
  have hone : 1 ≤ (d + s - 1) / s := (Nat.one_le_div_iff hs).mpr (by omega)
  constructor
  · intro h
    by_contra hover
    -- the sum wrapped once: it lost 2 ^ 64
    have hwrap : ((d + s - 1 : Nat) : Int).bmod (2 ^ 64) = ((d + s - 1 : Nat) : Int) - 2 ^ 64 := by
      rw [Int.bmod_eq_iff (by norm_num)]
      refine ⟨by omega, by omega, ?_⟩
      exact ⟨-1, by omega⟩
    rw [hwrap] at h
    by_cases hneg : ((d + s - 1 : Nat) : Int) - 2 ^ 64 < 0
    · have hle : (((d + s - 1 : Nat) : Int) - 2 ^ 64).tdiv s ≤ 0 := by
        have h0 := Int.tdiv_nonneg (a := -(((d + s - 1 : Nat) : Int) - 2 ^ 64)) (b := s)
          (by omega) (by omega)
        rw [Int.neg_tdiv] at h0
        omega
      omega
    · -- at least one whole step is missing
      obtain ⟨x, hx⟩ : ∃ x : Nat, ((d + s - 1 : Nat) : Int) - 2 ^ 64 = x :=
        ⟨(((d + s - 1 : Nat) : Int) - 2 ^ 64).toNat, by omega⟩
      rw [hx, ← Int.ofNat_tdiv] at h
      have hdiv : x / s = (d + s - 1) / s := by exact_mod_cast h
      have hlt : x / s + 1 ≤ (d + s - 1) / s := by
        rw [← Nat.add_div_right x hs]
        exact Nat.div_le_div_right (by omega)
      omega
  · intro h
    have hfit : ((d + s - 1 : Nat) : Int).bmod (2 ^ 64) = ((d + s - 1 : Nat) : Int) := by
      rw [Int.bmod_eq_iff (by norm_num)]
      exact ⟨by omega, by omega, ⟨0, by omega⟩⟩
    rw [hfit, Int.ofNat_tdiv]

/-- The step without a negation: only the distance one comes out right. -/
theorem quotient_least_iff {d : Nat} (hd : 0 < d) (hd' : d < 2 ^ 64) :
    (((d + 2 ^ 63 - 1 : Nat) : Int).bmod (2 ^ 64)).tdiv (-2 ^ 63) =
      (((d + 2 ^ 63 - 1) / 2 ^ 63 : Nat) : Int) ↔ d = 1 := by
  have hwrap : ((d + 2 ^ 63 - 1 : Nat) : Int).bmod (2 ^ 64) =
      ((d + 2 ^ 63 - 1 : Nat) : Int) - 2 ^ 64 := by
    rw [Int.bmod_eq_iff (by norm_num)]
    exact ⟨by omega, by omega, ⟨-1, by omega⟩⟩
  rw [hwrap]
  constructor
  · intro h
    by_contra hne
    have habs : (((d + 2 ^ 63 - 1 : Nat) : Int) - 2 ^ 64).tdiv (-2 ^ 63) = 0 := by
      rw [← Int.natAbs_eq_zero, Int.natAbs_tdiv]
      apply Nat.div_eq_of_lt
      omega
    rw [habs] at h
    have hone : 1 ≤ (d + 2 ^ 63 - 1) / 2 ^ 63 :=
      (Nat.one_le_div_iff (by norm_num)).mpr (by omega)
    omega
  · intro h
    subst h
    decide

/-! ## The Values -/

theorem getElem?_fill (n k : Nat) : ∀ value step : Int64,
    (fill n value step)[k]? = if k < n then some (value + Int64.ofNat k * step) else none := by
  induction n generalizing k with
  | zero => simp [fill]
  | succ n ih =>
    intro value step
    unfold fill
    cases k with
    | zero => simp
    | succ k =>
      rw [List.getElem?_cons_succ, ih k]
      have hnext : value + step + Int64.ofNat k * step = value + Int64.ofNat (k + 1) * step := by
        have hone : Int64.ofNat 1 * step = step := Int64.one_mul step
        rw [Int64.ofNat_add, Int64.add_mul, hone, Int64.add_assoc, Int64.add_comm step]
      by_cases hk : k < n
      · rw [if_pos hk, if_pos (Nat.succ_lt_succ hk), hnext]
      · rw [if_neg hk, if_neg (fun h => hk (Nat.lt_of_succ_lt_succ h))]

theorem fill_eq_map (n : Nat) (start step : Int64) :
    fill n start step = (List.range n).map fun i => start + Int64.ofNat i * step := by
  apply List.ext_getElem?
  intro k
  rw [getElem?_fill]
  by_cases hk : k < n
  · simp [hk]
  · simp [hk]

variable {start stop step : Int64}

theorem toInt_ne_zero (h : step ≠ 0) : step.toInt ≠ 0 := by
  intro h0
  exact h (Int64.toInt_inj.mp (by rw [h0, Int64.toInt_zero]))

/-- A position of the walk is computed exactly. -/
theorem toInt_value {k : Nat} (h : step.toInt ≠ 0)
    (hk : k < steps start.toInt stop.toInt step.toInt) :
    (start + Int64.ofNat k * step).toInt = start.toInt + k * step.toInt := by
  have hcongr : (start + Int64.ofNat k * step).toInt =
      (start.toInt + k * step.toInt).bmod (2 ^ 64) := by
    rw [Int64.toInt_add, Int64.toInt_mul, Int64.toInt_ofNat', Int.add_bmod_bmod,
      Int.add_bmod, Int.bmod_mul_bmod, ← Int.add_bmod]
  have hmin := Int64.le_toInt start
  have hmin' := Int64.le_toInt stop
  have hmax := Int64.toInt_lt start
  have hmax' := Int64.toInt_lt stop
  rw [hcongr, Int.bmod_eq_iff (by norm_num)]
  rcases between_of_lt_steps h hk with hb | hb
  · exact ⟨by omega, by omega, ⟨0, by omega⟩⟩
  · exact ⟨by omega, by omega, ⟨0, by omega⟩⟩

/-- Listing `n` values gives the range just when `n` is its number of positions. -/
theorem isRange_values_iff {n : Nat} (h : step ≠ 0) :
    IsRange start stop step ((List.range n).map fun i => start + Int64.ofNat i * step) ↔
      n = steps start.toInt stop.toInt step.toInt := by
  have hstep := toInt_ne_zero h
  constructor
  · intro hr
    have hlen := hr.length hstep
    simpa using hlen
  · intro hn
    subst hn
    unfold IsRange
    rw [isWalk_iff hstep]
    unfold walk
    rw [List.map_map]
    apply List.map_congr_left
    intro k hk
    exact toInt_value hstep (List.mem_range.mp hk)

/-! ## The Counts -/

theorem ahead_lt (start stop step : Int64) :
    ahead start.toInt stop.toInt step.toInt < 2 ^ 64 := by
  have hmin := Int64.le_toInt start
  have hmin' := Int64.le_toInt stop
  have hmax := Int64.toInt_lt start
  have hmax' := Int64.toInt_lt stop
  unfold ahead
  by_cases h : 0 < step.toInt
  · rw [if_pos h]
    omega
  · rw [if_neg h]
    omega

theorem natAbs_step_le (step : Int64) : step.toInt.natAbs ≤ 2 ^ 63 := by
  have hmin := Int64.le_toInt step
  have hmax := Int64.toInt_lt step
  omega

/-- Nothing ahead: there is nothing to divide. -/
theorem countFits_of_ahead_eq_zero
    (h0 : ahead start.toInt stop.toInt step.toInt = 0) : CountFits start stop step := by
  left
  have hle := natAbs_step_le step
  omega

theorem arangeCount_forward (hs : 0 < step.toInt) (hlt : start.toInt < stop.toInt) :
    (arangeCount start stop step).toInt =
      (((ahead start.toInt stop.toInt step.toInt + step.toInt.natAbs - 1 : Nat) : Int).bmod
        (2 ^ 64)).tdiv step.toInt.natAbs := by
  have hstep : step ≠ -1 := by
    rintro rfl
    exact absurd hs (by decide)
  have hcond : 0 < step ∧ start < stop := by
    rw [Int64.lt_iff_toInt_lt, Int64.lt_iff_toInt_lt, Int64.toInt_zero]
    exact ⟨hs, hlt⟩
  have hnum : (stop - start + step - 1).toInt =
      ((ahead start.toInt stop.toInt step.toInt + step.toInt.natAbs - 1 : Nat) : Int).bmod
        (2 ^ 64) := by
    rw [Int64.toInt_sub, Int64.toInt_add, Int64.toInt_sub, Int64.toInt_one, Int.bmod_add_bmod,
      Int.bmod_sub_bmod, ahead_pos hs]
    congr 1
    omega
  unfold arangeCount
  rw [if_pos hcond, Int64.toInt_div_of_ne_right _ _ hstep, hnum]
  congr 1
  omega

theorem neg_ne_neg_one (hs : step.toInt < 0) : -step ≠ -1 := by
  intro h
  have hone : step = 1 := Int64.neg_inj.mp h
  subst hone
  exact absurd hs (by decide)

theorem arangeCount_backward (hs : step.toInt < 0) (hlt : stop.toInt < start.toInt) :
    (arangeCount start stop step).toInt =
      (((ahead start.toInt stop.toInt step.toInt + step.toInt.natAbs - 1 : Nat) : Int).bmod
        (2 ^ 64)).tdiv (-step).toInt := by
  have hcond : ¬ (0 < step ∧ start < stop) := by
    rw [Int64.lt_iff_toInt_lt, Int64.toInt_zero]
    omega
  have hcond' : step < 0 ∧ stop < start := by
    rw [Int64.lt_iff_toInt_lt, Int64.lt_iff_toInt_lt, Int64.toInt_zero]
    exact ⟨hs, hlt⟩
  have hnum : (start - stop - step - 1).toInt =
      ((ahead start.toInt stop.toInt step.toInt + step.toInt.natAbs - 1 : Nat) : Int).bmod
        (2 ^ 64) := by
    rw [Int64.toInt_sub, Int64.toInt_sub, Int64.toInt_sub, Int64.toInt_one, Int.bmod_sub_bmod,
      Int.sub_sub, Int.bmod_sub_bmod, ahead_neg hs]
    congr 1
    omega
  unfold arangeCount
  rw [if_neg hcond, if_pos hcond', Int64.toInt_div_of_ne_right _ _ (neg_ne_neg_one hs), hnum]

/-- The negation of a step, which only the least one does not have. -/
theorem toInt_neg_step (hs : step.toInt < 0) :
    (-step).toInt = if step = Int64.minValue then -2 ^ 63 else (step.toInt.natAbs : Int) := by
  have hmin := Int64.le_toInt step
  by_cases h : step = Int64.minValue
  · subst h
    decide
  · have hne : step.toInt ≠ -2 ^ 63 := by
      intro h2
      apply h
      apply Int64.toInt_inj.mp
      rw [h2]
      decide
    rw [if_neg h, Int64.toInt_neg, Int.bmod_eq_iff (by norm_num)]
    exact ⟨by omega, by omega, ⟨0, by omega⟩⟩

theorem arangeCount_of_ahead_eq_zero (h0 : ahead start.toInt stop.toInt step.toInt = 0) :
    arangeCount start stop step = 0 := by
  unfold arangeCount
  have hcond : ¬ (0 < step ∧ start < stop) := by
    rw [Int64.lt_iff_toInt_lt, Int64.lt_iff_toInt_lt, Int64.toInt_zero]
    rintro ⟨hs, hlt⟩
    rw [ahead_pos hs] at h0
    omega
  have hcond' : ¬ (step < 0 ∧ stop < start) := by
    rw [Int64.lt_iff_toInt_lt, Int64.lt_iff_toInt_lt, Int64.toInt_zero]
    rintro ⟨hs, hlt⟩
    rw [ahead_neg hs] at h0
    omega
  rw [if_neg hcond, if_neg hcond']

theorem arangeCount_eq_iff (h : step ≠ 0) :
    (arangeCount start stop step).toInt = steps start.toInt stop.toInt step.toInt ↔
      CountFits start stop step := by
  have hstep := toInt_ne_zero h
  by_cases h0 : ahead start.toInt stop.toInt step.toInt = 0
  · rw [arangeCount_of_ahead_eq_zero h0, (steps_eq_zero_iff hstep).mpr h0]
    exact iff_of_true rfl (countFits_of_ahead_eq_zero h0)
  have hpos : 0 < ahead start.toInt stop.toInt step.toInt := pos_of_ne_zero h0
  have hlt := ahead_lt start stop step
  rw [steps_eq_div]
  rcases Int.lt_or_gt_of_ne hstep with hneg | hfwd
  · have hback : stop.toInt < start.toInt := by
      rw [ahead_neg hneg] at hpos
      omega
    rw [arangeCount_backward hneg hback, toInt_neg_step hneg]
    by_cases hleast : step = Int64.minValue
    · have habs : step.toInt.natAbs = 2 ^ 63 := by
        rw [hleast]
        decide
      rw [if_pos hleast, habs, quotient_least_iff hpos hlt]
      unfold CountFits
      rw [habs]
      constructor
      · exact fun h1 => .inr ⟨hleast, h1⟩
      · rintro (h1 | ⟨-, h1⟩)
        · omega
        · exact h1
    · have hsmall : step.toInt.natAbs < 2 ^ 63 := by
        have hn := toInt_neg_step hneg
        rw [if_neg hleast] at hn
        have hmax := Int64.toInt_lt (-step)
        omega
      rw [if_neg hleast, quotient_eq_iff hpos hlt (by omega) hsmall]
      unfold CountFits
      simp [hleast]
  · have hahead : start.toInt < stop.toInt := by
      rw [ahead_pos hfwd] at hpos
      omega
    have hleast : step ≠ Int64.minValue := by
      rintro rfl
      exact absurd hfwd (by decide)
    have hsmall : step.toInt.natAbs < 2 ^ 63 := by
      have hmax := Int64.toInt_lt step
      omega
    rw [arangeCount_forward hfwd hahead, quotient_eq_iff hpos hlt (by omega) hsmall]
    unfold CountFits
    simp [hleast]

theorem rangeCount_backward (hs : step.toInt < 0) (hlt : stop.toInt < start.toInt) :
    (rangeCount start stop step).toInt64 = (start - stop - 1) / (-step) + 1 := by
  have hneg : step < 0 := by
    rw [Int64.lt_iff_toInt_lt, Int64.toInt_zero]
    exact hs
  have hback : stop < start := Int64.lt_iff_toInt_lt.mpr hlt
  unfold rangeCount
  rw [if_pos (.inr ⟨hneg, hback⟩), if_pos hneg, Int64.toInt64_toUInt64]

theorem rangeCount_of_ahead_eq_zero (h0 : ahead start.toInt stop.toInt step.toInt = 0) :
    rangeCount start stop step = 0 := by
  unfold rangeCount
  apply if_neg
  rw [Int64.lt_iff_toInt_lt, Int64.lt_iff_toInt_lt, Int64.lt_iff_toInt_lt,
    Int64.lt_iff_toInt_lt, Int64.toInt_zero]
  rintro (⟨hs, hlt⟩ | ⟨hs, hlt⟩)
  · rw [ahead_pos hs] at h0
    omega
  · rw [ahead_neg hs] at h0
    omega

/-- The least step takes one position, which the quotient's zero plus one gives. -/
theorem rangeCount_least (h1 : ahead start.toInt stop.toInt Int64.minValue.toInt = 1) :
    (rangeCount start stop Int64.minValue).toInt64.toInt =
      steps start.toInt stop.toInt Int64.minValue.toInt := by
  have hneg : Int64.minValue.toInt < 0 := by decide
  have hdist : start.toInt - stop.toInt = 1 := by
    rw [ahead_neg hneg] at h1
    omega
  have hzero : start - stop - 1 = 0 := by
    apply Int64.toInt_inj.mp
    rw [Int64.toInt_sub, Int64.toInt_sub, Int64.toInt_one, Int.bmod_sub_bmod, hdist]
    rfl
  rw [rangeCount_backward hneg (by omega), steps_eq_div, h1, hzero]
  decide

/-- Backward, one less than the distance is divided and one added afterwards. -/
theorem rangeCount_of_fits_backward (hs : step.toInt < 0) (hlt : stop.toInt < start.toInt)
    (hfit : ahead start.toInt stop.toInt step.toInt + step.toInt.natAbs ≤ 2 ^ 63) :
    (rangeCount start stop step).toInt64.toInt = steps start.toInt stop.toInt step.toInt := by
  have hahead : (ahead start.toInt stop.toInt step.toInt : Int) = start.toInt - stop.toInt := by
    rw [ahead_neg hs]
    omega
  have hleast : step ≠ Int64.minValue := by
    rintro rfl
    have habs : Int64.minValue.toInt.natAbs = 2 ^ 63 := by decide
    omega
  have hnum : (start - stop - 1).toInt =
      ((ahead start.toInt stop.toInt step.toInt - 1 : Nat) : Int) := by
    rw [Int64.toInt_sub, Int64.toInt_sub, Int64.toInt_one, Int.bmod_sub_bmod,
      Int.bmod_eq_iff (by norm_num)]
    exact ⟨by omega, by omega, ⟨0, by omega⟩⟩
  have hsum : (ahead start.toInt stop.toInt step.toInt - 1) / step.toInt.natAbs + 1 =
      (ahead start.toInt stop.toInt step.toInt + step.toInt.natAbs - 1) / step.toInt.natAbs := by
    rw [← Nat.add_div_right _ (by omega)]
    congr 1
    omega
  have hquot : (ahead start.toInt stop.toInt step.toInt - 1) / step.toInt.natAbs ≤
      ahead start.toInt stop.toInt step.toInt - 1 := Nat.div_le_self _ _
  rw [rangeCount_backward hs hlt, steps_eq_div, Int64.toInt_add,
    Int64.toInt_div_of_ne_right _ _ (neg_ne_neg_one hs), hnum, toInt_neg_step hs, if_neg hleast,
    Int64.toInt_one, ← Int.ofNat_tdiv, ← hsum]
  clear hsum
  generalize (ahead start.toInt stop.toInt step.toInt - 1) / step.toInt.natAbs = q at hquot
  rw [Int.bmod_eq_iff (by norm_num)]
  exact ⟨by omega, by omega, ⟨0, by omega⟩⟩

/-- Forward, the two formulas are one. -/
theorem rangeCount_forward (hs : 0 < step.toInt) :
    (rangeCount start stop step).toInt64 = arangeCount start stop step := by
  have hpos : 0 < step := by
    rw [Int64.lt_iff_toInt_lt, Int64.toInt_zero]
    exact hs
  have hnonneg : ¬ step < 0 := by
    rw [Int64.lt_iff_toInt_lt, Int64.toInt_zero]
    omega
  unfold rangeCount arangeCount
  simp only [hpos, hnonneg, true_and, false_and, or_false, if_true, if_false]
  by_cases hlt : start < stop
  · rw [if_pos hlt, if_pos hlt, Int64.toInt64_toUInt64]
  · rw [if_neg hlt, if_neg hlt]
    rfl

/-- The builtin's quotients count the range wherever the kernel's does. -/
theorem rangeCount_of_fits (h : step ≠ 0) (hfits : CountFits start stop step) :
    (rangeCount start stop step).toInt64.toInt = steps start.toInt stop.toInt step.toInt := by
  have hstep := toInt_ne_zero h
  by_cases h0 : ahead start.toInt stop.toInt step.toInt = 0
  · rw [rangeCount_of_ahead_eq_zero h0, (steps_eq_zero_iff hstep).mpr h0]
    rfl
  rcases Int.lt_or_gt_of_ne hstep with hneg | hfwd
  · rcases hfits with hfit | ⟨rfl, hone⟩
    · have hback : stop.toInt < start.toInt := by
        rw [ahead_neg hneg] at h0
        omega
      exact rangeCount_of_fits_backward hneg hback hfit
    · exact rangeCount_least hone
  · rw [rangeCount_forward hfwd]
    exact (arangeCount_eq_iff h).mpr hfits

/-! ## Both Ranges -/

/-- A list of a signed number of values is refused below zero. -/
theorem checkedNumel_of_toInt_eq {count : Int64} {n : Nat} (h : count.toInt = n) :
    checkedNumel [count] = .ok count.toUInt64 := by
  have hnot : ¬ count < 0 := by
    rw [not_lt_zero_iff]
    omega
  rw [checkedNumel_single, if_neg hnot]

theorem arange_ok_iff (h : step ≠ 0) :
    (∃ values, arange start stop step = .ok values ∧ IsRange start stop step values) ↔
      (arangeCount start stop step).toInt = steps start.toInt stop.toInt step.toInt := by
  unfold arange
  rw [if_neg h]
  constructor
  · rintro ⟨values, hval, hrange⟩
    by_cases hneg : arangeCount start stop step < 0
    · rw [checkedNumel_single, if_pos hneg] at hval
      cases hval
    · rw [checkedNumel_single, if_neg hneg] at hval
      cases hval
      have hcount := (isRange_values_iff h).mp hrange
      have hnonneg := not_lt_zero_iff.1 hneg
      omega
  · intro hcount
    rw [checkedNumel_of_toInt_eq hcount]
    exact ⟨_, rfl, (isRange_values_iff h).mpr (by omega)⟩

theorem range_ok (h : step ≠ 0)
    (hcount : (rangeCount start stop step).toInt64.toInt =
      steps start.toInt stop.toInt step.toInt) :
    ∃ values, range start stop (some step) = .ok values ∧ IsRange start stop step values := by
  have hnat : (rangeCount start stop step).toNat = steps start.toInt stop.toInt step.toInt := by
    have hnot : ¬ (rangeCount start stop step).toInt64 < 0 := by
      rw [not_lt_zero_iff]
      omega
    have hconv := toNat_toUInt64 hnot
    rw [UInt64.toUInt64_toInt64] at hconv
    omega
  unfold range
  simp only [Option.getD_some]
  rw [if_neg h, checkedNumel_of_toInt_eq hcount, fill_eq_map]
  exact ⟨_, rfl, (isRange_values_iff h).mpr hnat⟩

/-- Both ranges are the exact ones just when the distance and the step fit 64 bits together. -/
theorem range_arange_exact_iff (start stop step : Int64) (h : step ≠ 0) :
    ((∃ values, range start stop (some step) = .ok values ∧ IsRange start stop step values) ∧
      (∃ values, arange start stop step = .ok values ∧ IsRange start stop step values)) ↔
      CountFits start stop step := by
  constructor
  · rintro ⟨-, harange⟩
    exact (arangeCount_eq_iff h).mp ((arange_ok_iff h).mp harange)
  · intro hfits
    exact ⟨range_ok h (rangeCount_of_fits h hfits),
      (arange_ok_iff h).mpr ((arangeCount_eq_iff h).mpr hfits)⟩

theorem range_arange_exact_iff_backward :
    ((∃ values, range 7 0 (some (-3)) = .ok values ∧ IsRange 7 0 (-3) values) ∧
      (∃ values, arange 7 0 (-3) = .ok values ∧ IsRange 7 0 (-3) values)) ↔
      CountFits 7 0 (-3) :=
  range_arange_exact_iff 7 0 (-3) (by decide)

/-- A step of the greatest size loses the one position there is. -/
theorem range_greatestStep :
    range 0 4 (some Int64.maxValue) = .ok [] ∧ arange 0 4 Int64.maxValue = .ok [] ∧
      ¬ IsRange 0 4 Int64.maxValue [] ∧ IsRange 0 4 Int64.maxValue [0] := by
  have hone : IsRange 0 4 Int64.maxValue [0] := (isWalk_iff (by decide)).mpr (by decide)
  have hnone : ¬ IsRange 0 4 Int64.maxValue [] := by
    intro h
    exact absurd ((isWalk_iff (by decide)).mp h) (by decide)
  exact ⟨by decide, by decide, hnone, hone⟩

end Camel.Index
