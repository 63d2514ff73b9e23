import Mathlib

/-! # Walks by a Fixed Step

    A walk starts somewhere, moves by the same step each time and ends before it
    reaches a bound: below the bound when the step is positive, above it when the
    step is negative. How many positions it takes is a quotient rounded up, of the
    distance to the bound by the size of the step.
-/

namespace Camel.Lib

variable {start stop step : Int}

/-- `x` comes strictly before `stop` for a walk by `step`. -/
def Before (step stop x : Int) : Prop := if 0 < step then x < stop else stop < x

instance (step stop x : Int) : Decidable (Before step stop x) :=
  inferInstanceAs (Decidable (if 0 < step then x < stop else stop < x))

/-- `l` lists the positions `start`, `start + step`, … that come before `stop`. -/
def IsWalk (start stop step : Int) (l : List Int) : Prop :=
  ∀ k : Nat, l[k]? = if Before step stop (start + k * step) then some (start + k * step) else none

/-! ## The Number of Positions -/

/-- How far `stop` lies ahead of `start`. -/
def ahead (start stop step : Int) : Nat :=
  if 0 < step then (stop - start).toNat else (start - stop).toNat

def steps (start stop step : Int) : Nat := ahead start stop step ⌈/⌉ step.natAbs

/-- The first `n` positions. -/
def walk (start step : Int) (n : Nat) : List Int := (List.range n).map fun k : Nat => start + k * step

@[simp] theorem length_walk (start step : Int) (n : Nat) : (walk start step n).length = n := by
  simp [walk]

theorem getD_walk {start step : Int} {n k : Nat} (h : k < n) :
    (walk start step n).getD k 0 = start + k * step := by
  simp [walk, List.getD_eq_getElem?_getD, h]

/-- A walk that moves never comes back. -/
theorem nodup_walk {start step : Int} (h : step ≠ 0) (n : Nat) : (walk start step n).Nodup := by
  apply List.Nodup.map _ List.nodup_range
  intro j k hjk
  have hmul : (j : Int) * step = k * step := by
    simpa using hjk
  exact Int.ofNat_inj.mp (Int.eq_of_mul_eq_mul_right h hmul)

theorem ahead_pos (h : 0 < step) : ahead start stop step = (stop - start).toNat := by
  simp [ahead, h]

theorem ahead_neg (h : step < 0) : ahead start stop step = (start - stop).toNat := by
  simp [ahead, Int.not_lt.mpr (le_of_lt h)]

theorem before_pos {x : Int} (h : 0 < step) : Before step stop x ↔ x < stop := by
  simp [Before, h]

theorem before_neg {x : Int} (h : step < 0) : Before step stop x ↔ stop < x := by
  simp [Before, Int.not_lt.mpr (le_of_lt h)]

theorem before_iff_lt_steps (h : step ≠ 0) (k : Nat) :
    Before step stop (start + k * step) ↔ k < steps start stop step := by
  have hs : 0 < step.natAbs := Int.natAbs_pos.mpr h
  have hceil : k < steps start stop step ↔ step.natAbs * k < ahead start stop step :=
    lt_iff_lt_of_le_iff_le (ceilDiv_le_iff_le_mul hs)
  rw [hceil]
  rcases Int.lt_or_gt_of_ne h with hneg | hpos
  · obtain ⟨s, rfl⟩ : ∃ s : Nat, step = -s := ⟨step.natAbs, by omega⟩
    rw [before_neg hneg, ahead_neg hneg]
    have hcomm : (k : Int) * -(s : Int) = -((s * k : Nat) : Int) := by push_cast; ring
    rw [hcomm, Int.natAbs_neg, Int.natAbs_natCast]
    omega
  · obtain ⟨s, rfl⟩ : ∃ s : Nat, step = s := ⟨step.natAbs, by omega⟩
    rw [before_pos hpos, ahead_pos hpos]
    have hcomm : (k : Int) * (s : Int) = ((s * k : Nat) : Int) := by push_cast; ring
    rw [hcomm, Int.natAbs_natCast]
    omega

theorem isWalk_iff {l : List Int} (h : step ≠ 0) :
    IsWalk start stop step l ↔ l = walk start step (steps start stop step) := by
  have hwalk : ∀ k : Nat, (walk start step (steps start stop step))[k]? =
      if Before step stop (start + k * step) then some (start + k * step) else none := by
    intro k
    by_cases hk : k < steps start stop step
    · rw [if_pos ((before_iff_lt_steps h k).mpr hk)]
      simp [walk, hk]
    · rw [if_neg (fun hb => hk ((before_iff_lt_steps h k).mp hb))]
      simp [walk, hk]
  constructor
  · intro hl
    apply List.ext_getElem?
    intro k
    rw [hl k, hwalk k]
  · rintro rfl
    exact hwalk

theorem IsWalk.length {l : List Int} (h : step ≠ 0) (hl : IsWalk start stop step l) :
    l.length = steps start stop step := by
  rw [(isWalk_iff h).mp hl, length_walk]

/-! ## The Rounded Quotient -/

theorem steps_eq_zero_iff (h : step ≠ 0) :
    steps start stop step = 0 ↔ ahead start stop step = 0 := by
  have hs : 0 < step.natAbs := Int.natAbs_pos.mpr h
  rw [← Nat.le_zero, steps, ceilDiv_le_iff_le_mul hs, mul_zero, Nat.le_zero]

/-- The quotient as programs compute it: the divisor less one is added first. -/
theorem steps_eq_div (start stop step : Int) :
    steps start stop step = (ahead start stop step + step.natAbs - 1) / step.natAbs :=
  Nat.ceilDiv_eq_add_pred_div _ _

/-- Every position the walk takes lies between where it starts and its bound. -/
theorem between_of_lt_steps (h : step ≠ 0) {k : Nat} (hk : k < steps start stop step) :
    (start ≤ start + k * step ∧ start + k * step < stop) ∨
      (stop < start + k * step ∧ start + k * step ≤ start) := by
  have hb := (before_iff_lt_steps h k).mpr hk
  rcases Int.lt_or_gt_of_ne h with hneg | hpos
  · right
    rw [before_neg hneg] at hb
    have hmul : (k : Int) * step ≤ 0 :=
      Int.mul_nonpos_of_nonneg_of_nonpos (Int.natCast_nonneg k) (le_of_lt hneg)
    exact ⟨hb, by omega⟩
  · left
    rw [before_pos hpos] at hb
    have hmul : 0 ≤ (k : Int) * step :=
      Int.mul_nonneg (Int.natCast_nonneg k) (le_of_lt hpos)
    exact ⟨by omega, hb⟩

end Camel.Lib
