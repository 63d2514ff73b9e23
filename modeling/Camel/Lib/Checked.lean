import Mathlib

/-! # Arithmetic That Remembers an Overflow

    64-bit arithmetic that wraps, and remembers whether any step of it did. A result
    that is still exact is the one the same formula has on the integers.
-/

namespace Camel.Lib

/-- `x` is a signed 64-bit number. -/
def Fits (x : Int) : Prop := -2 ^ 63 ≤ x ∧ x < 2 ^ 63

instance (x : Int) : Decidable (Fits x) := inferInstanceAs (Decidable (_ ∧ _))

theorem fits_toInt (x : Int64) : Fits x.toInt := ⟨Int64.le_toInt x, Int64.toInt_lt x⟩

theorem toInt_pos_iff (v : Int64) : 0 < v ↔ 0 < v.toInt := by
  rw [Int64.lt_iff_toInt_lt, Int64.toInt_zero]

theorem bmod_of_fits {x : Int} (h : Fits x) : x.bmod (2 ^ 64) = x := by
  obtain ⟨hlow, hhigh⟩ := h
  rw [Int.bmod_eq_iff (by norm_num)]
  exact ⟨by omega, by omega, ⟨0, by omega⟩⟩

structure Checked where
  value : Int64
  exact : Bool

namespace Checked

/-- The result `value` of an operation whose integer result is `x`. -/
def result (value : Int64) (x : Int) (operands : Bool) : Checked :=
  ⟨value, operands && decide (Fits x)⟩

instance : Coe Int64 Checked := ⟨fun value => ⟨value, true⟩⟩

instance (n : Nat) : OfNat Checked n := ⟨⟨OfNat.ofNat n, true⟩⟩

instance : Add Checked :=
  ⟨fun a b => result (a.value + b.value) (a.value.toInt + b.value.toInt) (a.exact && b.exact)⟩

instance : Sub Checked :=
  ⟨fun a b => result (a.value - b.value) (a.value.toInt - b.value.toInt) (a.exact && b.exact)⟩

instance : Neg Checked := ⟨fun a => result (-a.value) (-a.value.toInt) a.exact⟩

instance : Div Checked :=
  ⟨fun a b => result (a.value / b.value) (a.value.toInt.tdiv b.value.toInt) (a.exact && b.exact)⟩

/-- The number is exact, and `x`. -/
def Is (a : Checked) (x : Int) : Prop := a.exact = true ∧ a.value.toInt = x

/-! ## Exact Results -/

variable {a b : Checked} {x y : Int}

theorem is_coe (v : Int64) : Is (v : Checked) v.toInt := ⟨rfl, rfl⟩

theorem is_one : Is 1 1 := ⟨rfl, rfl⟩

theorem exact_result {v : Int64} {ops : Bool} :
    (result v x ops).exact = true ↔ ops = true ∧ Fits x := by
  simp [result]

section
variable (ha : a.Is x)
include ha

theorem Is.add (hb : b.Is y) : (a + b).exact = true ↔ Fits (x + y) := by
  show (result _ _ _).exact = true ↔ _
  rw [exact_result, ha.1, hb.1, ha.2, hb.2]
  simp

theorem Is.sub (hb : b.Is y) : (a - b).exact = true ↔ Fits (x - y) := by
  show (result _ _ _).exact = true ↔ _
  rw [exact_result, ha.1, hb.1, ha.2, hb.2]
  simp

theorem Is.neg : (-a).exact = true ↔ Fits (-x) := by
  show (result _ _ _).exact = true ↔ _
  rw [exact_result, ha.1, ha.2]
  simp

theorem is_add (hb : b.Is y) (h : Fits (x + y)) : (a + b).Is (x + y) := by
  refine ⟨(ha.add hb).mpr h, ?_⟩
  show (a.value + b.value).toInt = x + y
  rw [Int64.toInt_add, ha.2, hb.2, bmod_of_fits h]

theorem is_sub (hb : b.Is y) (h : Fits (x - y)) : (a - b).Is (x - y) := by
  refine ⟨(ha.sub hb).mpr h, ?_⟩
  show (a.value - b.value).toInt = x - y
  rw [Int64.toInt_sub, ha.2, hb.2, bmod_of_fits h]

theorem is_neg (h : Fits (-x)) : (-a).Is (-x) := by
  refine ⟨ha.neg.mpr h, ?_⟩
  show (-a.value).toInt = -x
  rw [Int64.toInt_neg, ha.2, bmod_of_fits h]

theorem is_div (hb : b.Is y) (h : Fits (x.tdiv y)) : (a / b).Is (x.tdiv y) := by
  constructor
  · show (result _ _ _).exact = true
    rw [exact_result, ha.1, hb.1, ha.2, hb.2]
    exact ⟨rfl, h⟩
  · show (a.value / b.value).toInt = x.tdiv y
    rw [Int64.toInt_div, ha.2, hb.2, bmod_of_fits h]

end

/-! ## An Overflow Is Never Forgotten -/

theorem exact_of_add (h : (a + b).exact = true) : a.exact = true ∧ b.exact = true := by
  have h2 := (exact_result.1 h).1
  simpa using h2

theorem exact_of_sub (h : (a - b).exact = true) : a.exact = true ∧ b.exact = true := by
  have h2 := (exact_result.1 h).1
  simpa using h2

theorem exact_of_div (h : (a / b).exact = true) : a.exact = true ∧ b.exact = true := by
  have h2 := (exact_result.1 h).1
  simpa using h2

end Checked

end Camel.Lib
