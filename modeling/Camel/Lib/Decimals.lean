import Mathlib

/-! # Decimals of a Number of Digits

    Rounding a rational to the nearest whole number with ties to even, and to the nearest decimal
    of a number of significant digits. What a rounding to more digits gives is what a rounding to
    fewer digits gives, when fewer digits are enough for it.
-/

namespace Camel.Lib

/-! ## Whole Numbers -/

/-- The nearest whole number, the even one of two. -/
def roundEven (x : ℚ) : ℤ :=
  if x - ⌊x⌋ < 1 / 2 ∨ (x - ⌊x⌋ = 1 / 2 ∧ ⌊x⌋ % 2 = 0) then ⌊x⌋ else ⌊x⌋ + 1

section RoundEven

variable {x : ℚ} {c : ℤ}

theorem abs_sub_roundEven (x : ℚ) : |x - roundEven x| ≤ 1 / 2 := by
  have hlow := Int.floor_le x
  have hhigh := Int.lt_floor_add_one x
  unfold roundEven
  split
  · next h =>
    rw [abs_le]
    rcases h with h | ⟨h, -⟩
    · constructor <;> linarith
    · constructor <;> linarith
  · next h =>
    have hhalf : 1 / 2 ≤ x - ⌊x⌋ := not_lt.1 fun hlt => h (.inl hlt)
    rw [abs_le]
    push_cast
    constructor <;> linarith

/-- A whole number nearer than one half is the one. -/
theorem roundEven_of_near (h : |x - c| < 1 / 2) : roundEven x = c := by
  have hround := abs_sub_roundEven x
  rw [abs_le] at hround
  rw [abs_lt] at h
  have hlow : (roundEven x : ℚ) < (c + 1 : ℤ) := by push_cast; linarith
  have hhigh : (c : ℚ) < (roundEven x + 1 : ℤ) := by push_cast; linarith
  have hlow := Int.cast_lt.1 hlow
  have hhigh := Int.cast_lt.1 hhigh
  omega

theorem le_roundEven (h : c ≤ x) : c ≤ roundEven x := by
  have hround := abs_sub_roundEven x
  rw [abs_le] at hround
  have hlow : (c : ℚ) < (roundEven x + 1 : ℤ) := by push_cast; linarith
  exact Int.lt_add_one_iff.1 (Int.cast_lt.1 hlow)

theorem roundEven_le (h : x ≤ c) : roundEven x ≤ c := by
  have hround := abs_sub_roundEven x
  rw [abs_le] at hround
  have hhigh : (roundEven x : ℚ) < (c + 1 : ℤ) := by push_cast; linarith
  exact Int.lt_add_one_iff.1 (Int.cast_lt.1 hhigh)

theorem roundEven_zero : roundEven 0 = 0 := by
  apply roundEven_of_near
  norm_num

theorem roundEven_monotone : Monotone roundEven := by
  intro x y hxy
  by_contra hlt
  have hx := abs_sub_roundEven x
  have hy := abs_sub_roundEven y
  rw [abs_le] at hx hy
  have hnext : ((roundEven y + 1 : ℤ) : ℚ) ≤ roundEven x := Int.cast_le.2 (by omega)
  push_cast at hnext
  -- both lie halfway, so they are one number
  have heq : x = y := by linarith
  rw [heq] at hlt
  exact hlt le_rfl

end RoundEven

/-! ## Decimals -/

/-- A decimal of at most so many significant digits. -/
def HasDigits (n : Nat) (q : ℚ) : Prop := ∃ (m : ℤ) (e : ℤ), |m| < 10 ^ n ∧ q = m * 10 ^ e

theorem HasDigits.mono {n k : Nat} {q : ℚ} (h : HasDigits n q) (hle : n ≤ k) : HasDigits k q := by
  obtain ⟨m, e, hm, rfl⟩ := h
  exact ⟨m, e, hm.trans_le (pow_le_pow_right₀ (by norm_num) hle), rfl⟩

theorem HasDigits.neg {n : Nat} {q : ℚ} (h : HasDigits n q) : HasDigits n (-q) := by
  obtain ⟨m, e, hm, rfl⟩ := h
  exact ⟨-m, e, by rwa [abs_neg], by push_cast; ring⟩

/-- Below ten to the number of digits, and at it. -/
theorem hasDigits_of_le {n : Nat} {m e : ℤ} (hn : 1 ≤ n) (hlow : 0 ≤ m) (hhigh : m ≤ 10 ^ n) :
    HasDigits n (m * 10 ^ e) := by
  rcases hhigh.lt_or_eq with hlt | rfl
  · exact ⟨m, e, by rwa [abs_of_nonneg hlow], rfl⟩
  · refine ⟨1, n + e, ?_, ?_⟩
    · rw [abs_one]
      exact one_lt_pow₀ (by norm_num) (by omega)
    · rw [zpow_add₀ (by norm_num), zpow_natCast]
      push_cast
      ring

/-- A whole number that ten does not divide needs all its digits. -/
theorem digits_le_of_hasDigits {c k : Nat} {m : ℕ} {e : ℤ} (hlow : 10 ^ (c - 1) ≤ m)
    (hlast : ¬ 10 ∣ m) (h : HasDigits k (m * 10 ^ e)) : c ≤ k := by
  obtain ⟨d, j, hd, heq⟩ := h
  rcases le_or_gt j e with hle | hlt
  · -- the digits of the other one hold those of the number
    have hsplit : e = ((e - j).toNat : ℤ) + j := by omega
    have hdigits : (d : ℚ) = m * 10 ^ (e - j).toNat := by
      rw [hsplit, zpow_add₀ (by norm_num), zpow_natCast, ← mul_assoc] at heq
      exact (mul_right_cancel₀ (by positivity) heq).symm
    have hcast : d = (m * 10 ^ (e - j).toNat : ℕ) := by
      have := hdigits
      exact_mod_cast this
    have hpow : 10 ^ (c - 1) < 10 ^ k := by
      calc 10 ^ (c - 1) ≤ m * 10 ^ (e - j).toNat :=
            hlow.trans (Nat.le_mul_of_pos_right m (by positivity))
        _ < 10 ^ k := by
            rw [hcast, Nat.abs_cast] at hd
            exact_mod_cast hd
    have := (Nat.pow_lt_pow_iff_right (by norm_num)).1 hpow
    omega
  · have hsplit : j = ((j - e - 1).toNat : ℤ) + 1 + e := by omega
    have hdigits : (m : ℚ) = d * 10 ^ (j - e - 1).toNat * 10 := by
      rw [hsplit, zpow_add₀ (by norm_num), zpow_add₀ (by norm_num), zpow_natCast, zpow_one,
        ← mul_assoc, ← mul_assoc] at heq
      exact mul_right_cancel₀ (by positivity) heq
    have hcast : (m : ℤ) = d * 10 ^ (j - e - 1).toNat * 10 := by exact_mod_cast hdigits
    exact absurd (Int.natCast_dvd_natCast.1 ⟨d * 10 ^ (j - e - 1).toNat, by
      rw [hcast]
      push_cast
      ring⟩) hlast

/-! ## Rounding to a Number of Digits -/

section Rounded

/-- The place of the last of so many digits. -/
def lastPlace (n : Nat) (v : ℚ) : ℤ := Int.log 10 v - (n - 1)

/-- The digits of the nearest decimal, as a whole number. -/
def roundedDigits (n : Nat) (v : ℚ) : ℤ := roundEven (v * 10 ^ (-lastPlace n v))

/-- The nearest decimal of so many digits, the even one of two. -/
def rounded (n : Nat) (v : ℚ) : ℚ := roundedDigits n v * 10 ^ lastPlace n v

variable {n k : Nat} {v : ℚ}

theorem pow_log_le (hv : 0 < v) : (10 : ℚ) ^ Int.log 10 v ≤ v := by
  have h := Int.zpow_log_le_self (b := 10) (by norm_num) hv
  exact_mod_cast h

theorem lt_pow_log (v : ℚ) : v < (10 : ℚ) ^ (Int.log 10 v + 1) := by
  have h := Int.lt_zpow_succ_log_self (b := 10) (by norm_num) v
  exact_mod_cast h

theorem ten_zpow_mul_neg (e : ℤ) : (10 : ℚ) ^ e * 10 ^ (-e) = 1 := by
  rw [← zpow_add₀ (by norm_num), add_neg_cancel, zpow_zero]

theorem le_roundedDigits (hn : 1 ≤ n) (hv : 0 < v) : 10 ^ (n - 1) ≤ roundedDigits n v := by
  apply le_roundEven
  have hplace : (n - 1 : Nat) = Int.log 10 v + -lastPlace n v := by
    unfold lastPlace
    omega
  calc ((10 ^ (n - 1) : ℤ) : ℚ) = 10 ^ ((n - 1 : Nat) : ℤ) := by push_cast; rw [zpow_natCast]
    _ = 10 ^ Int.log 10 v * 10 ^ (-lastPlace n v) := by rw [hplace, zpow_add₀ (by norm_num)]
    _ ≤ v * 10 ^ (-lastPlace n v) := by gcongr; exact pow_log_le hv

theorem roundedDigits_le : roundedDigits n v ≤ 10 ^ n := by
  apply roundEven_le
  have hplace : (n : ℤ) = Int.log 10 v + 1 + -lastPlace n v := by
    unfold lastPlace
    omega
  calc v * 10 ^ (-lastPlace n v) ≤ 10 ^ (Int.log 10 v + 1) * 10 ^ (-lastPlace n v) := by
        gcongr
        exact (lt_pow_log v).le
    _ = 10 ^ (n : ℤ) := by rw [hplace, ← zpow_add₀ (by norm_num)]
    _ = ((10 ^ n : ℤ) : ℚ) := by push_cast; rw [zpow_natCast]

theorem roundedDigits_zero : roundedDigits n 0 = 0 := by
  unfold roundedDigits
  rw [zero_mul, roundEven_zero]

theorem rounded_zero : rounded n 0 = 0 := by
  unfold rounded
  rw [roundedDigits_zero, Int.cast_zero, zero_mul]

theorem roundedDigits_nonneg (hv : 0 ≤ v) : 0 ≤ roundedDigits n v := by
  apply le_roundEven
  push_cast
  positivity

theorem hasDigits_rounded (hn : 1 ≤ n) (hv : 0 ≤ v) : HasDigits n (rounded n v) :=
  hasDigits_of_le hn (roundedDigits_nonneg hv) roundedDigits_le

theorem abs_sub_rounded (n : Nat) (v : ℚ) : |v - rounded n v| ≤ 10 ^ lastPlace n v / 2 := by
  have hround := abs_sub_roundEven (v * 10 ^ (-lastPlace n v))
  have hsplit : v - rounded n v =
      (v * 10 ^ (-lastPlace n v) - roundedDigits n v) * 10 ^ lastPlace n v := by
    unfold rounded
    rw [sub_mul, mul_assoc, mul_comm (10 ^ (-lastPlace n v) : ℚ), ten_zpow_mul_neg, mul_one]
  rw [hsplit, abs_mul, abs_of_pos (show (0 : ℚ) < 10 ^ lastPlace n v by positivity)]
  calc |v * 10 ^ (-lastPlace n v) - roundedDigits n v| * 10 ^ lastPlace n v
      ≤ 1 / 2 * 10 ^ lastPlace n v := by gcongr; exact hround
    _ = 10 ^ lastPlace n v / 2 := by ring

/-- A decimal of few digits, no smaller than the decade of a number, is whole at the last place
    of these digits. -/
theorem whole_of_hasDigits {q : ℚ} (h : HasDigits k q) (hlow : 10 ^ Int.log 10 v ≤ q) :
    ∃ c : ℤ, q = c * 10 ^ lastPlace k v := by
  obtain ⟨m, e, hm, rfl⟩ := h
  have hlt : (10 : ℚ) ^ Int.log 10 v < 10 ^ (k + e) := by
    calc (10 : ℚ) ^ Int.log 10 v ≤ m * 10 ^ e := hlow
      _ ≤ |m| * 10 ^ e := by gcongr; exact_mod_cast le_abs_self m
      _ < 10 ^ k * 10 ^ e := by gcongr; exact_mod_cast hm
      _ = 10 ^ (k + e) := by rw [zpow_add₀ (by norm_num), zpow_natCast]
  have hplace := (zpow_lt_zpow_iff_right₀ (by norm_num)).1 hlt
  have hsplit : e = ((e - lastPlace k v).toNat : ℤ) + lastPlace k v := by
    unfold lastPlace
    omega
  refine ⟨m * 10 ^ (e - lastPlace k v).toNat, ?_⟩
  calc (m : ℚ) * 10 ^ e = m * 10 ^ (((e - lastPlace k v).toNat : ℤ) + lastPlace k v) := by
        rw [← hsplit]
    _ = _ := by
        rw [zpow_add₀ (by norm_num), zpow_natCast]
        push_cast
        ring

/-- Where fewer digits are enough for what a rounding gives, a rounding to fewer gives the same. -/
theorem rounded_of_hasDigits (hk : 1 ≤ k) (hkn : k < n) (hv : 0 ≤ v)
    (h : HasDigits k (rounded n v)) : rounded k v = rounded n v := by
  rcases hv.eq_or_lt with rfl | hpos
  · rw [rounded_zero, rounded_zero]
  · have hlow : (10 : ℚ) ^ Int.log 10 v ≤ rounded n v := by
      have hdigits := le_roundedDigits (by omega) hpos (n := n)
      have hplace : Int.log 10 v = ((n - 1 : Nat) : ℤ) + lastPlace n v := by
        unfold lastPlace
        omega
      calc (10 : ℚ) ^ Int.log 10 v = 10 ^ (n - 1) * 10 ^ lastPlace n v := by
            rw [hplace, zpow_add₀ (by norm_num), zpow_natCast]
        _ ≤ rounded n v := by
            unfold rounded
            gcongr
            exact_mod_cast hdigits
    obtain ⟨c, hc⟩ := whole_of_hasDigits h hlow
    have hnear : |v * 10 ^ (-lastPlace k v) - c| < 1 / 2 := by
      have hsplit : v * 10 ^ (-lastPlace k v) - c = (v - rounded n v) * 10 ^ (-lastPlace k v) := by
        rw [hc, sub_mul, mul_assoc, ten_zpow_mul_neg, mul_one]
      have hfiner : lastPlace n v + -lastPlace k v < 0 := by
        unfold lastPlace
        omega
      rw [hsplit, abs_mul, abs_of_pos (show (0 : ℚ) < 10 ^ (-lastPlace k v) by positivity)]
      calc |v - rounded n v| * 10 ^ (-lastPlace k v)
          ≤ 10 ^ lastPlace n v / 2 * 10 ^ (-lastPlace k v) := by
            gcongr
            exact abs_sub_rounded n v
        _ = 10 ^ (lastPlace n v + -lastPlace k v) / 2 := by rw [zpow_add₀ (by norm_num)]; ring
        _ < 1 / 2 := by
            gcongr
            exact zpow_lt_one_of_neg₀ (by norm_num) hfiner
    have hdigits : roundedDigits k v = c := roundEven_of_near hnear
    rw [hc]
    unfold rounded
    rw [hdigits]

end Rounded

end Camel.Lib
