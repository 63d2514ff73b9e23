import Camel.Index.Range
import Camel.Lib.Checked

/-! # The Range of a Slice

    `sliceRange` turns the bounds a slice writes into the positions it takes along its
    axis. A bound left out stands for the end of the axis the step comes from or goes
    to. The count is a quotient rounded up, in 64 bits.
-/

namespace Camel.Index

open Lib

/-- Bit 0 of the mask: the end was written. -/
def wroteEnd (written : Int64) : Bool := written &&& 1 != 0

/-- Bit 1 of the mask: the start was written. -/
def wroteStart (written : Int64) : Bool := written &&& 2 != 0

structure SliceRange where
  start : Int64
  count : Int64
  step : Int64
  deriving DecidableEq

/-- How many positions there are from `start` by `step` before `stop`. -/
def sliceCount (start stop step : Int64) : Checked :=
  if 0 < step then
    if start < stop then ((stop : Checked) - start + step - 1) / step else 0
  else
    if stop < start then
      ((start : Checked) - stop + (-(step : Checked)) - 1) / (-(step : Checked))
    else 0

/-- The first position of the slice. -/
def sliceStart (extent startRaw step written : Int64) : Int64 :=
  if wroteStart written then startRaw else if 0 < step then 0 else extent - 1

/-- The position the slice stops before. -/
def sliceEnd (extent endRaw step written : Int64) : Int64 :=
  if wroteEnd written then endRaw else if 0 < step then extent else -1

def sliceRange (extent startRaw endRaw step written : Int64) (what : String) :
    Except Fault SliceRange :=
  let start := sliceStart extent startRaw step written
  let stop := sliceEnd extent endRaw step written
  if step = 0 then
    .error (.invalidArgument "[]" "a slice step must not be 0")
  else if 0 < step then
    if start < 0 ∨ extent < start ∨ stop < 0 ∨ extent < stop then
      .error (.sliceOutOfRange start stop what extent)
    else
      .ok ⟨start, (sliceCount start stop step).value, step⟩
  else if (wroteStart written ∧ (start < 0 ∨ extent ≤ start)) ∨
      (wroteEnd written ∧ (stop < 0 ∨ extent < stop)) then
    .error (.sliceOutOfRange start stop what extent)
  else
    .ok ⟨start, (sliceCount start stop step).value, step⟩

/-- A bound the slice writes lies outside the interval it is accepted in. -/
def WrittenOutside (extent startRaw endRaw step written : Int64) : Prop :=
  (wroteStart written = true ∧ ¬ (0 ≤ startRaw.toInt ∧
    startRaw.toInt ≤ extent.toInt - if 0 < step then 0 else 1)) ∨
  (wroteEnd written = true ∧ ¬ (0 ≤ endRaw.toInt ∧ endRaw.toInt ≤ extent.toInt))

instance (extent startRaw endRaw step written : Int64) :
    Decidable (WrittenOutside extent startRaw endRaw step written) :=
  inferInstanceAs (Decidable (_ ∨ _))

/-- The positions the range takes. -/
def SliceRange.positions (r : SliceRange) : List Int :=
  walk r.start.toInt r.step.toInt r.count.toInt.toNat

/-! ## The Count -/

/-- A number that is exact just where it fits. -/
def ExactWhere (a : Checked) (x : Nat) : Prop :=
  (a.exact = true → Fits x) ∧ (Fits x → a.Is x)

/-- The quotient rounded up of two such numbers. -/
theorem ceil_spec {a s : Checked} {d t : Nat} (hd : 0 < d) (ht : 0 < t) (ha : ExactWhere a d)
    (hs : ExactWhere s t) :
    (((a + s - 1) / s).exact = true ↔ d + t < 2 ^ 63) ∧
      (d + t < 2 ^ 63 → ((a + s - 1) / s).value.toInt = ((d + t - 1) / t : Nat)) := by
  have hright : d + t < 2 ^ 63 → ((a + s - 1) / s).Is ((d + t - 1) / t : Nat) := by
    intro h
    have hsum : (a + s).Is (d + t : Nat) := by
      push_cast
      exact Checked.is_add (ha.2 ⟨by omega, by omega⟩) (hs.2 ⟨by omega, by omega⟩)
        ⟨by omega, by omega⟩
    have hless : (a + s - 1).Is (d + t - 1 : Nat) := by
      have hcast : ((d + t - 1 : Nat) : Int) = (d + t : Nat) - 1 := by omega
      rw [hcast]
      exact Checked.is_sub hsum Checked.is_one ⟨by omega, by omega⟩
    have hquot : (d + t - 1) / t ≤ d + t - 1 := Nat.div_le_self _ _
    have hfit : Fits ((d + t - 1) / t : Nat) := by
      generalize (d + t - 1) / t = q at hquot
      exact ⟨by omega, by omega⟩
    rw [Int.ofNat_tdiv] at hfit ⊢
    exact Checked.is_div hless (hs.2 ⟨by omega, by omega⟩) hfit
  refine ⟨⟨?_, fun h => (hright h).1⟩, fun h => (hright h).2⟩
  intro h
  have hsub := Checked.exact_of_div h
  have hadd := Checked.exact_of_sub hsub.1
  have hboth := Checked.exact_of_add hadd.1
  have hfit := ((ha.2 (ha.1 hboth.1)).add (hs.2 (hs.1 hboth.2))).mp hadd.1
  have hhigh := hfit.2
  omega

variable {start stop step : Int64}

/-- The distance and the size of the step fit 64 bits together, where anything is taken. -/
def SliceFits (start stop step : Int) : Prop :=
  ahead start stop step = 0 ∨ ahead start stop step + step.natAbs < 2 ^ 63

instance (start stop step : Int) : Decidable (SliceFits start stop step) :=
  inferInstanceAs (Decidable (_ ∨ _))

theorem exactWhere_sub {x y : Int64} {d : Nat} (h : x.toInt - y.toInt = d) :
    ExactWhere ((x : Checked) - y) d := by
  rw [ExactWhere, ← h]
  exact ⟨((Checked.is_coe x).sub (Checked.is_coe y)).mp,
    Checked.is_sub (Checked.is_coe x) (Checked.is_coe y)⟩

theorem exactWhere_neg {x : Int64} {d : Nat} (h : -x.toInt = d) :
    ExactWhere (-(x : Checked)) d := by
  rw [ExactWhere, ← h]
  exact ⟨(Checked.is_coe x).neg.mp, Checked.is_neg (Checked.is_coe x)⟩

theorem exactWhere_coe {x : Int64} {d : Nat} (h : x.toInt = d) : ExactWhere (x : Checked) d := by
  rw [ExactWhere, ← h]
  exact ⟨fun _ => fits_toInt x, fun _ => Checked.is_coe x⟩

theorem sliceCount_forward (hstep : 0 < step.toInt) (hlt : start.toInt < stop.toInt) :
    sliceCount start stop step = ((stop : Checked) - start + step - 1) / step := by
  unfold sliceCount
  rw [if_pos ((toInt_pos_iff step).2 hstep), if_pos (Int64.lt_iff_toInt_lt.2 hlt)]

theorem sliceCount_backward (hstep : step.toInt < 0) (hlt : stop.toInt < start.toInt) :
    sliceCount start stop step =
      ((start : Checked) - stop + (-(step : Checked)) - 1) / (-(step : Checked)) := by
  unfold sliceCount
  rw [if_neg (mt (toInt_pos_iff step).1 hstep.not_gt), if_pos (Int64.lt_iff_toInt_lt.2 hlt)]

theorem sliceCount_of_ahead_eq_zero (h : step ≠ 0)
    (h0 : ahead start.toInt stop.toInt step.toInt = 0) : sliceCount start stop step = 0 := by
  have hstep := toInt_ne_zero h
  unfold sliceCount
  by_cases hpos : 0 < step
  · have hs : 0 < step.toInt := by
      rwa [Int64.lt_iff_toInt_lt, Int64.toInt_zero] at hpos
    rw [ahead_pos hs] at h0
    have hnot : ¬ start < stop := by
      rw [Int64.lt_iff_toInt_lt]
      omega
    rw [if_pos hpos, if_neg hnot]
  · have hs : step.toInt < 0 := by
      rw [Int64.lt_iff_toInt_lt, Int64.toInt_zero] at hpos
      omega
    rw [ahead_neg hs] at h0
    have hnot : ¬ stop < start := by
      rw [Int64.lt_iff_toInt_lt]
      omega
    rw [if_neg hpos, if_neg hnot]

/-- The count is computed without an overflow just where the distance and the step fit, and is
    the number of positions there. -/
theorem sliceCount_spec (start stop : Int64) (h : step ≠ 0) :
    ((sliceCount start stop step).exact = true ↔
      SliceFits start.toInt stop.toInt step.toInt) ∧
    (SliceFits start.toInt stop.toInt step.toInt →
      (sliceCount start stop step).value.toInt =
        steps start.toInt stop.toInt step.toInt) := by
  have hstep := toInt_ne_zero h
  by_cases h0 : ahead start.toInt stop.toInt step.toInt = 0
  · rw [sliceCount_of_ahead_eq_zero h h0, (steps_eq_zero_iff hstep).mpr h0]
    exact ⟨iff_of_true rfl (.inl h0), fun _ => rfl⟩
  have hfits : SliceFits start.toInt stop.toInt step.toInt ↔
      ahead start.toInt stop.toInt step.toInt + step.toInt.natAbs < 2 ^ 63 := by
    unfold SliceFits
    simp [h0]
  rw [hfits, steps_eq_div]
  rcases Int.lt_or_gt_of_ne hstep with hneg | hfwd
  · have hd : ahead start.toInt stop.toInt step.toInt = _ := ahead_neg hneg
    rw [sliceCount_backward hneg (by omega)]
    apply ceil_spec (by omega) (by omega)
    · exact exactWhere_sub (by omega)
    · exact exactWhere_neg (by omega)
  · have hd : ahead start.toInt stop.toInt step.toInt = _ := ahead_pos hfwd
    rw [sliceCount_forward hfwd (by omega)]
    apply ceil_spec (by omega) (by omega)
    · exact exactWhere_sub (by omega)
    · exact exactWhere_coe (by omega)

/-! ## The Positions a Slice Takes -/

/-- Where the slice starts by its definition. -/
def sliceFrom (extent startRaw step : Int) (written : Bool) : Int :=
  if written then startRaw else if 0 < step then 0 else extent - 1

/-- What the slice stops before by its definition. -/
def sliceTo (extent endRaw step : Int) (written : Bool) : Int :=
  if written then endRaw else if 0 < step then extent else -1

/-- The range is the slice: its positions are those the definition takes, inside the axis, and
    computed without an overflow. -/
structure IsSlice (extent startRaw endRaw step written : Int64) (r : SliceRange) : Prop where
  start_eq : r.start = sliceStart extent startRaw step written
  step_eq : r.step = step
  count_nonneg : 0 ≤ r.count.toInt
  walk : IsWalk (sliceFrom extent.toInt startRaw.toInt step.toInt (wroteStart written))
    (sliceTo extent.toInt endRaw.toInt step.toInt (wroteEnd written)) step.toInt r.positions
  inside : ∀ x ∈ r.positions, 0 ≤ x ∧ x < extent.toInt
  exact : (sliceCount (sliceStart extent startRaw step written)
    (sliceEnd extent endRaw step written) step).exact = true

variable {extent startRaw endRaw written : Int64} {what : String}

theorem toInt_sliceStart (hn : 0 ≤ extent.toInt) :
    (sliceStart extent startRaw step written).toInt =
      sliceFrom extent.toInt startRaw.toInt step.toInt (wroteStart written) := by
  unfold sliceStart sliceFrom
  cases wroteStart written with
  | true => rfl
  | false =>
    simp only [Bool.false_eq_true, if_false, toInt_pos_iff]
    by_cases hs : 0 < step.toInt
    · rw [if_pos hs, if_pos hs, Int64.toInt_zero]
    · have hmax := Int64.toInt_lt extent
      rw [if_neg hs, if_neg hs, Int64.toInt_sub, Int64.toInt_one,
        bmod_of_fits ⟨by omega, by omega⟩]

theorem toInt_sliceEnd :
    (sliceEnd extent endRaw step written).toInt =
      sliceTo extent.toInt endRaw.toInt step.toInt (wroteEnd written) := by
  unfold sliceEnd sliceTo
  cases wroteEnd written with
  | true => rfl
  | false =>
    simp only [Bool.false_eq_true, if_false, toInt_pos_iff]
    by_cases hs : 0 < step.toInt
    · rw [if_pos hs, if_pos hs]
    · rw [if_neg hs, if_neg hs]
      rfl

/-- The faults are those of a written bound outside its interval, and nothing else is checked. -/
theorem sliceRange_eq (hn : 0 ≤ extent.toInt) (h : step ≠ 0) :
    sliceRange extent startRaw endRaw step written what =
      if WrittenOutside extent startRaw endRaw step written then
        .error (.sliceOutOfRange (sliceStart extent startRaw step written)
          (sliceEnd extent endRaw step written) what extent)
      else
        .ok ⟨sliceStart extent startRaw step written,
          (sliceCount (sliceStart extent startRaw step written)
            (sliceEnd extent endRaw step written) step).value, step⟩ := by
  have hstart : (sliceStart extent startRaw step written).toInt = _ := toInt_sliceStart hn
  have hend : (sliceEnd extent endRaw step written).toInt = _ := toInt_sliceEnd
  unfold sliceRange WrittenOutside
  rw [if_neg h]
  simp only [Int64.lt_iff_toInt_lt, Int64.le_iff_toInt_le, Int64.toInt_zero, hstart, hend]
  unfold sliceFrom sliceTo
  have hstep := toInt_ne_zero h
  by_cases hs : 0 < step.toInt
  · simp only [hs, if_true]
    congr 1
    apply propext
    -- a bound left out is one end of the axis, which is never outside
    cases wroteStart written <;> cases wroteEnd written <;> simp <;> omega
  · simp only [hs, if_false]
    congr 1
    apply propext
    cases wroteStart written <;> cases wroteEnd written <;> simp <;> omega

/-- A bound inside its interval: the slice stays inside the axis. -/
theorem bounds_inside (h : step ≠ 0)
    (hin : ¬ WrittenOutside extent startRaw endRaw step written) :
    (0 < step.toInt → 0 ≤ sliceFrom extent.toInt startRaw.toInt step.toInt (wroteStart written) ∧
      sliceTo extent.toInt endRaw.toInt step.toInt (wroteEnd written) ≤ extent.toInt) ∧
    (step.toInt < 0 →
      sliceFrom extent.toInt startRaw.toInt step.toInt (wroteStart written) < extent.toInt ∧
      -1 ≤ sliceTo extent.toInt endRaw.toInt step.toInt (wroteEnd written)) := by
  unfold WrittenOutside at hin
  unfold sliceFrom sliceTo
  have hstep := toInt_ne_zero h
  simp only [toInt_pos_iff] at hin
  constructor
  · intro hs
    simp only [hs, if_true] at hin ⊢
    cases hws : wroteStart written <;> cases hwe : wroteEnd written <;>
      simp [hws, hwe] at hin ⊢ <;> omega
  · intro hs
    have hnot : ¬ 0 < step.toInt := by omega
    simp only [hnot, if_false] at hin ⊢
    cases hws : wroteStart written <;> cases hwe : wroteEnd written <;>
      simp [hws, hwe] at hin ⊢ <;> omega

/-- What a slice takes before its end lies inside the axis. -/
theorem inside_of_lt_steps (h : step ≠ 0)
    (hin : ¬ WrittenOutside extent startRaw endRaw step written) {k : Nat}
    (hk : k < steps (sliceFrom extent.toInt startRaw.toInt step.toInt (wroteStart written))
      (sliceTo extent.toInt endRaw.toInt step.toInt (wroteEnd written)) step.toInt) :
    0 ≤ sliceFrom extent.toInt startRaw.toInt step.toInt (wroteStart written) + k * step.toInt ∧
      sliceFrom extent.toInt startRaw.toInt step.toInt (wroteStart written) + k * step.toInt <
        extent.toInt := by
  have hbetween := between_of_lt_steps (toInt_ne_zero h) hk
  have hbefore := (before_iff_lt_steps (toInt_ne_zero h) k).mpr hk
  obtain ⟨hpos, hneg⟩ := bounds_inside h hin
  rcases Int.lt_or_gt_of_ne (toInt_ne_zero h) with hs | hs
  · have hb := hneg hs
    rw [before_neg hs] at hbefore
    omega
  · have hb := hpos hs
    rw [before_pos hs] at hbefore
    omega

/-- The range that is not refused is the slice just where its count is computed exactly. -/
theorem isSlice_iff (hn : 0 ≤ extent.toInt) (h : step ≠ 0)
    (hin : ¬ WrittenOutside extent startRaw endRaw step written) :
    IsSlice extent startRaw endRaw step written
      ⟨sliceStart extent startRaw step written,
        (sliceCount (sliceStart extent startRaw step written)
          (sliceEnd extent endRaw step written) step).value, step⟩ ↔
      SliceFits (sliceFrom extent.toInt startRaw.toInt step.toInt (wroteStart written))
        (sliceTo extent.toInt endRaw.toInt step.toInt (wroteEnd written)) step.toInt := by
  have hspec := sliceCount_spec (sliceStart extent startRaw step written)
    (sliceEnd extent endRaw step written) h
  rw [toInt_sliceStart hn, toInt_sliceEnd] at hspec
  constructor
  · intro hr
    exact hspec.1.mp hr.exact
  · intro hfits
    have hcount := hspec.2 hfits
    have hwalk : IsWalk (sliceFrom extent.toInt startRaw.toInt step.toInt (wroteStart written))
        (sliceTo extent.toInt endRaw.toInt step.toInt (wroteEnd written)) step.toInt
        (SliceRange.positions ⟨sliceStart extent startRaw step written,
          (sliceCount (sliceStart extent startRaw step written)
            (sliceEnd extent endRaw step written) step).value, step⟩) := by
      rw [isWalk_iff (toInt_ne_zero h)]
      unfold SliceRange.positions
      rw [hcount, toInt_sliceStart hn, Int.toNat_natCast]
    refine ⟨rfl, rfl, ?_, hwalk, ?_, hspec.1.mpr hfits⟩
    · show 0 ≤ (sliceCount _ _ step).value.toInt
      rw [hcount]
      exact Int.natCast_nonneg _
    · intro x hx
      rw [(isWalk_iff (toInt_ne_zero h)).mp hwalk] at hx
      unfold walk at hx
      obtain ⟨k, hk, rfl⟩ := List.mem_map.mp hx
      exact inside_of_lt_steps h hin (List.mem_range.mp hk)

end Camel.Index
