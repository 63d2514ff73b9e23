import Mathlib
import Camel.Literal.BigInt

/-! # Exact Rationals

    A numerator and a denominator, reduced, with the sign in the numerator. Every
    operation makes its result with `makeRational`, which divides both parts by their
    greatest common divisor, so that each number is held in one form.
-/

namespace Camel.Literal

open Lib

/-! ## The Operations -/

def BigInt.bits (a : BigInt) : Nat := bitLength a.limbs

def BigInt.isOne (a : BigInt) : Bool := !a.neg && a.limbs = [1]

/-- `while (exponent != 0)`, for at most so many rounds. -/
def powerLoop : Nat → BigInt → BigInt → Nat → BigInt
  | 0, result, _, _ => result
  | n + 1, result, square, exponent =>
    if exponent = 0 then result
    else
      let result := if exponent % 2 ≠ 0 then result.mul square else result
      let square := if exponent / 2 ≠ 0 then square.mul square else square
      powerLoop n result square (exponent / 2)

/-- `base ^ exponent` for a non-negative exponent. -/
def powerOf (base : BigInt) (exponent : Nat) : BigInt :=
  powerLoop exponent (.ofInt64 1) base exponent

def powerOfLimb (base : Int) (exponent : Nat) : BigInt := powerOf (.ofInt64 base) exponent

structure Rational where
  num : BigInt := ⟨[], false⟩
  den : BigInt := .ofInt64 1

/-- Euclid on the two magnitudes, for at most so many rounds. -/
def euclid : Nat → BigInt → BigInt → BigInt
  | 0, a, _ => a
  | n + 1, a, b => if b.isZero then a else euclid n b (a.divMod b).2

def makeRational (num den : BigInt) : Rational :=
  let (num, den) := if den.neg then (num.negated, den.negated) else (num, den)
  if num.isZero then {}
  else
    let a := euclid (value den.limbs + 1) num.abs den
    if a.isOne then ⟨num, den⟩ else ⟨(num.divMod a).1, (den.divMod a).1⟩

def rationalAdd (left right : Rational) : Rational :=
  makeRational ((left.num.mul right.den).add (right.num.mul left.den)) (left.den.mul right.den)

def rationalSub (left right : Rational) : Rational :=
  makeRational ((left.num.mul right.den).sub (right.num.mul left.den)) (left.den.mul right.den)

def rationalMul (left right : Rational) : Rational :=
  makeRational (left.num.mul right.num) (left.den.mul right.den)

def rationalDiv (left right : Rational) : Option Rational :=
  if right.num.isZero then none
  else some (makeRational (left.num.mul right.den) (left.den.mul right.num))

/-! ## Powers -/

theorem isOne_iff {a : BigInt} (ha : a.Normal) : a.isOne = true ↔ a.toInt = 1 := by
  have hone : BigInt.Normal ⟨[1], false⟩ := ⟨⟨by decide, by decide⟩, fun h => Bool.noConfusion h⟩
  unfold BigInt.isOne
  constructor
  · intro h
    obtain ⟨limbs, neg⟩ := a
    simp only [Bool.and_eq_true, Bool.not_eq_true', decide_eq_true_eq] at h
    obtain ⟨rfl, rfl⟩ := h
    rfl
  · intro h
    rw [ha.ext hone h]
    rfl

theorem isZero_iff {a : BigInt} (ha : a.Normal) : a.isZero = true ↔ a.toInt = 0 := by
  rw [BigInt.toInt_eq_zero_iff ha]
  simp [BigInt.isZero]

theorem powerLoop_spec (n : Nat) {result square : BigInt} {exponent : Nat} (hn : exponent ≤ n)
    (hresult : result.Normal) (hsquare : square.Normal) :
    (powerLoop n result square exponent).Normal ∧
      (powerLoop n result square exponent).toInt = result.toInt * square.toInt ^ exponent := by
  induction n generalizing result square exponent with
  | zero =>
    obtain rfl := Nat.le_zero.mp hn
    exact ⟨hresult, by rw [pow_zero, mul_one]; rfl⟩
  | succ n ih =>
    unfold powerLoop
    split
    · next h =>
      subst h
      exact ⟨hresult, by rw [pow_zero, mul_one]⟩
    · next hne =>
      have hsplit := Nat.div_add_mod exponent 2
      -- the low bit of the exponent takes one factor of the square
      have hlow : (if exponent % 2 ≠ 0 then result.mul square else result).Normal ∧
          (if exponent % 2 ≠ 0 then result.mul square else result).toInt =
            result.toInt * square.toInt ^ (exponent % 2) := by
        split
        · next hodd =>
          rw [show exponent % 2 = 1 by omega, pow_one]
          exact BigInt.mul_spec hresult hsquare
        · next heven =>
          rw [show exponent % 2 = 0 by omega, pow_zero, mul_one]
          exact ⟨hresult, rfl⟩
      by_cases hlast : exponent / 2 = 0
      · obtain ⟨hnormal, hvalue⟩ := ih (Nat.le_of_eq hlast |>.trans (Nat.zero_le n)) hlow.1 hsquare
        rw [if_neg (not_not.mpr hlast)]
        refine ⟨hnormal, hvalue.trans ?_⟩
        rw [hlow.2, hlast, pow_zero, mul_one]
        rw [hlast, mul_zero, zero_add] at hsplit
        rw [hsplit]
      · have hmul := BigInt.mul_spec hsquare hsquare
        obtain ⟨hnormal, hvalue⟩ := @ih _ _ (exponent / 2) (by omega) hlow.1 hmul.1
        rw [if_pos hlast]
        refine ⟨hnormal, hvalue.trans ?_⟩
        rw [hlow.2, hmul.2, ← pow_two, ← pow_mul, mul_assoc, ← pow_add, add_comm, hsplit]

theorem one_spec : (BigInt.ofInt64 1).Normal ∧ (BigInt.ofInt64 1).toInt = 1 :=
  BigInt.ofInt64_spec (by decide) (by decide)

theorem powerOf_spec {base : BigInt} (hbase : base.Normal) (exponent : Nat) :
    (powerOf base exponent).Normal ∧ (powerOf base exponent).toInt = base.toInt ^ exponent := by
  obtain ⟨hnormal, hvalue⟩ := powerLoop_spec exponent (le_refl exponent) one_spec.1 hbase
  exact ⟨hnormal, by rw [powerOf, hvalue, one_spec.2, one_mul]⟩

theorem powerOfLimb_spec {base : Int} (hlow : -2 ^ 63 ≤ base) (hhigh : base < 2 ^ 63)
    (exponent : Nat) :
    (powerOfLimb base exponent).Normal ∧ (powerOfLimb base exponent).toInt = base ^ exponent := by
  obtain ⟨hnormal, hvalue⟩ := BigInt.ofInt64_spec hlow hhigh
  have hpower := powerOf_spec hnormal exponent
  exact ⟨hpower.1, by rw [powerOfLimb, hpower.2, hvalue]⟩

/-! ## Lowest Terms -/

namespace Rational

/-- The number a pair stands for. -/
def toRat (r : Rational) : ℚ := r.num.toInt / r.den.toInt

/-- Lowest terms, with a positive denominator. -/
structure Reduced (r : Rational) : Prop where
  num : r.num.Normal
  den : r.den.Normal
  pos : 0 < r.den.toInt
  coprime : r.num.toInt.gcd r.den.toInt = 1

theorem Reduced.den_ne_zero {r : Rational} (h : r.Reduced) : (r.den.toInt : ℚ) ≠ 0 := by
  exact_mod_cast h.pos.ne'

theorem reduced_zero : ({} : Rational).Reduced := by
  refine ⟨⟨normal_nil, fun h => Bool.noConfusion h⟩, one_spec.1, ?_, ?_⟩
  · show 0 < (BigInt.ofInt64 1).toInt
    rw [one_spec.2]
    decide
  · show Int.gcd 0 (BigInt.ofInt64 1).toInt = 1
    rw [one_spec.2]
    rfl

theorem toRat_zero : ({} : Rational).toRat = 0 := by
  show ((0 : Int) : ℚ) / _ = 0
  rw [Int.cast_zero, zero_div]

theorem Reduced.toRat_eq_zero_iff {r : Rational} (h : r.Reduced) : r.toRat = 0 ↔ r.num.toInt = 0 := by
  unfold toRat
  rw [div_eq_zero_iff, or_iff_left h.den_ne_zero, Int.cast_eq_zero]

/-- The parts of the lowest terms are those of the number. -/
theorem Reduced.parts {r : Rational} (h : r.Reduced) :
    r.toRat.num = r.num.toInt ∧ (r.toRat.den : Int) = r.den.toInt := by
  have hden : ((r.den.toInt.natAbs : ℕ) : Int) = r.den.toInt := Int.natAbs_of_nonneg h.pos.le
  have hrat : r.toRat = Rat.divInt r.num.toInt (r.den.toInt.natAbs : ℕ) := by
    rw [hden, Rat.divInt_eq_div]
    rfl
  have hcoprime : r.num.toInt.natAbs.Coprime r.den.toInt.natAbs := h.coprime
  have hpos : 0 < r.den.toInt.natAbs := by
    have := h.pos
    omega
  have hmk : Rat.divInt r.num.toInt (r.den.toInt.natAbs : ℕ) =
      ⟨r.num.toInt, r.den.toInt.natAbs, hpos.ne', hcoprime⟩ := Rat.mk_eq_divInt.symm
  rw [hrat, hmk]
  exact ⟨rfl, hden⟩

end Rational

theorem euclid_spec (n : Nat) {a b : BigInt} (ha : a.Normal) (hb : b.Normal) (ha0 : 0 ≤ a.toInt)
    (hb0 : 0 ≤ b.toInt) (hn : b.toInt < n) :
    (euclid n a b).Normal ∧ (euclid n a b).toInt = Int.gcd a.toInt b.toInt := by
  induction n generalizing a b with
  | zero => omega
  | succ n ih =>
    unfold euclid
    split
    · next hzero =>
      rw [(isZero_iff hb).mp hzero, Int.gcd_zero_right]
      exact ⟨ha, (Int.natAbs_of_nonneg ha0).symm⟩
    · next hzero =>
      have hne : b.toInt ≠ 0 := mt (isZero_iff hb).mpr hzero
      have hpos : 0 < b.toInt := by omega
      obtain ⟨-, hrnormal, -, hr⟩ := BigInt.divMod_spec ha hb hne
      rw [Int.tmod_eq_emod_of_nonneg ha0] at hr
      have hlow := Int.emod_nonneg a.toInt hne
      have hhigh := Int.emod_lt_of_pos a.toInt hpos
      obtain ⟨hnormal, hvalue⟩ := ih hb hrnormal hb0 (by omega) (by omega)
      refine ⟨hnormal, hvalue.trans ?_⟩
      rw [hr, Int.gcd_comm, Int.gcd_emod]

/-- A quotient by a divisor of both parts is the same number. -/
theorem div_tdiv_cancel {n d g : Int} (hg : g ≠ 0) (hn : g ∣ n) (hd : g ∣ d) :
    ((n.tdiv g : Int) : ℚ) / (d.tdiv g : Int) = (n : ℚ) / d := by
  obtain ⟨n', rfl⟩ := hn
  obtain ⟨d', rfl⟩ := hd
  have hg' : (g : ℚ) ≠ 0 := by exact_mod_cast hg
  rw [Int.mul_tdiv_cancel_left _ hg, Int.mul_tdiv_cancel_left _ hg, Int.cast_mul, Int.cast_mul,
    mul_div_mul_left _ _ hg']

theorem makeRational_spec {num den : BigInt} (hnum : num.Normal) (hden : den.Normal)
    (hne : den.toInt ≠ 0) :
    (makeRational num den).Reduced ∧
      (makeRational num den).toRat = (num.toInt : ℚ) / den.toInt := by
  -- the sign goes to the numerator first
  have hsigned : ∀ {n d : BigInt}, n.Normal → d.Normal → 0 < d.toInt →
      (if n.isZero then ({} : Rational)
        else
          let a := euclid (value d.limbs + 1) n.abs d
          if a.isOne then ⟨n, d⟩ else ⟨(n.divMod a).1, (d.divMod a).1⟩).Reduced ∧
      (if n.isZero then ({} : Rational)
        else
          let a := euclid (value d.limbs + 1) n.abs d
          if a.isOne then ⟨n, d⟩ else ⟨(n.divMod a).1, (d.divMod a).1⟩).toRat =
        (n.toInt : ℚ) / d.toInt := by
    intro n d hn hd hpos
    split
    · next hzero =>
      rw [(isZero_iff hn).mp hzero, Rational.toRat_zero, Int.cast_zero, zero_div]
      exact ⟨Rational.reduced_zero, rfl⟩
    · next hzero =>
      have hn0 : n.toInt ≠ 0 := mt (isZero_iff hn).mpr hzero
      obtain ⟨habs, habsv⟩ := BigInt.abs_spec hn
      have hfuel : d.toInt < (value d.limbs + 1 : Nat) := by
        rw [← BigInt.toInt_natAbs]
        omega
      obtain ⟨ha, hav⟩ := euclid_spec (value d.limbs + 1) habs hd (by rw [habsv]; exact abs_nonneg _)
        hpos.le hfuel
      have hgcd : (euclid (value d.limbs + 1) n.abs d).toInt = Int.gcd n.toInt d.toInt := by
        rw [hav, habsv]
        unfold Int.gcd
        rw [Int.natAbs_abs]
      generalize euclid (value d.limbs + 1) n.abs d = a at ha hgcd
      have hgpos : 0 < Int.gcd n.toInt d.toInt := Int.gcd_pos_of_ne_zero_left _ hn0
      show (if a.isOne then (⟨n, d⟩ : Rational)
          else ⟨(n.divMod a).1, (d.divMod a).1⟩).Reduced ∧ Rational.toRat (if a.isOne then _ else _) = _
      split
      · next hone =>
        have h1 : (Int.gcd n.toInt d.toInt : Int) = 1 := by rw [← hgcd, (isOne_iff ha).mp hone]
        exact ⟨⟨hn, hd, hpos, by exact_mod_cast h1⟩, rfl⟩
      · have ha0 : a.toInt ≠ 0 := by omega
        obtain ⟨hqn, -, hqnv, -⟩ := BigInt.divMod_spec hn ha ha0
        obtain ⟨hqd, -, hqdv, -⟩ := BigInt.divMod_spec hd ha ha0
        have hdn : a.toInt ∣ n.toInt := hgcd ▸ Int.gcd_dvd_left n.toInt d.toInt
        have hdd : a.toInt ∣ d.toInt := hgcd ▸ Int.gcd_dvd_right n.toInt d.toInt
        refine ⟨⟨hqn, hqd, ?_, ?_⟩, ?_⟩
        · show 0 < (d.divMod a).1.toInt
          rw [hqdv, Int.tdiv_eq_ediv_of_nonneg hpos.le]
          exact Int.ediv_pos_of_pos_of_dvd hpos (by omega) hdd
        · show Int.gcd (n.divMod a).1.toInt (d.divMod a).1.toInt = 1
          rw [hqnv, hqdv, Int.tdiv_eq_ediv_of_dvd hdn, Int.tdiv_eq_ediv_of_dvd hdd, hgcd]
          exact Int.gcd_ediv_gcd_ediv_gcd hgpos
        · show ((n.divMod a).1.toInt : ℚ) / (d.divMod a).1.toInt = _
          rw [hqnv, hqdv]
          exact div_tdiv_cancel ha0 hdn hdd
  unfold makeRational
  by_cases hneg : den.neg = true
  · obtain ⟨hn, hnv⟩ := BigInt.negated_spec hnum
    obtain ⟨hd, hdv⟩ := BigInt.negated_spec hden
    have hlt := hden.neg_iff.mp hneg
    obtain ⟨hreduced, hvalue⟩ := hsigned hn hd (by omega)
    rw [if_pos hneg]
    refine ⟨hreduced, hvalue.trans ?_⟩
    rw [hnv, hdv, Int.cast_neg, Int.cast_neg, neg_div_neg_eq]
  · have hge := mt hden.neg_iff.mpr hneg
    rw [if_neg hneg]
    exact hsigned hnum hden (by omega)

/-! ## The Four Operations -/

section Operations

variable {a b : Rational}

section
variable (ha : a.Reduced) (hb : b.Reduced)
include ha hb

theorem den_mul_ne_zero : (a.den.mul b.den).toInt ≠ 0 := by
  rw [(BigInt.mul_spec ha.den hb.den).2]
  exact mul_ne_zero ha.pos.ne' hb.pos.ne'

theorem rationalAdd_spec :
    (rationalAdd a b).Reduced ∧ (rationalAdd a b).toRat = a.toRat + b.toRat := by
  have hleft := BigInt.mul_spec ha.num hb.den
  have hright := BigInt.mul_spec hb.num ha.den
  have hsum := BigInt.add_spec hleft.1 hright.1
  have hden := BigInt.mul_spec ha.den hb.den
  obtain ⟨hreduced, hvalue⟩ := makeRational_spec hsum.1 hden.1 (den_mul_ne_zero ha hb)
  refine ⟨hreduced, hvalue.trans ?_⟩
  have ha0 := ha.den_ne_zero
  have hb0 := hb.den_ne_zero
  rw [hsum.2, hleft.2, hright.2, hden.2]
  unfold Rational.toRat
  push_cast
  field_simp

theorem rationalSub_spec :
    (rationalSub a b).Reduced ∧ (rationalSub a b).toRat = a.toRat - b.toRat := by
  have hleft := BigInt.mul_spec ha.num hb.den
  have hright := BigInt.mul_spec hb.num ha.den
  have hdiff := BigInt.sub_spec hleft.1 hright.1
  have hden := BigInt.mul_spec ha.den hb.den
  obtain ⟨hreduced, hvalue⟩ := makeRational_spec hdiff.1 hden.1 (den_mul_ne_zero ha hb)
  refine ⟨hreduced, hvalue.trans ?_⟩
  have ha0 := ha.den_ne_zero
  have hb0 := hb.den_ne_zero
  rw [hdiff.2, hleft.2, hright.2, hden.2]
  unfold Rational.toRat
  push_cast
  field_simp

theorem rationalMul_spec :
    (rationalMul a b).Reduced ∧ (rationalMul a b).toRat = a.toRat * b.toRat := by
  have hnum := BigInt.mul_spec ha.num hb.num
  have hden := BigInt.mul_spec ha.den hb.den
  obtain ⟨hreduced, hvalue⟩ := makeRational_spec hnum.1 hden.1 (den_mul_ne_zero ha hb)
  refine ⟨hreduced, hvalue.trans ?_⟩
  rw [hnum.2, hden.2]
  unfold Rational.toRat
  push_cast
  rw [div_mul_div_comm]

/-- The quotient, which zero does not divide. -/
theorem rationalDiv_spec :
    if b.toRat = 0 then rationalDiv a b = none
    else ∃ q, rationalDiv a b = some q ∧ q.Reduced ∧ q.toRat = a.toRat / b.toRat := by
  unfold rationalDiv
  split
  · next hzero =>
    rw [if_pos ((isZero_iff hb.num).mpr (hb.toRat_eq_zero_iff.mp hzero))]
  · next hzero =>
    have hb0 : b.num.toInt ≠ 0 := mt hb.toRat_eq_zero_iff.mpr hzero
    rw [if_neg (mt (isZero_iff hb.num).mp hb0)]
    have hnum := BigInt.mul_spec ha.num hb.den
    have hden := BigInt.mul_spec ha.den hb.num
    have hne : (a.den.mul b.num).toInt ≠ 0 := by
      rw [hden.2]
      exact mul_ne_zero ha.pos.ne' hb0
    obtain ⟨hreduced, hvalue⟩ := makeRational_spec hnum.1 hden.1 hne
    refine ⟨_, rfl, hreduced, hvalue.trans ?_⟩
    rw [hnum.2, hden.2]
    unfold Rational.toRat
    push_cast
    rw [div_div_div_eq]

end

end Operations

end Camel.Literal
