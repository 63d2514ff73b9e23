import Camel.Literal.Divide

/-! # Integers of Any Size

    `BigInt` is a magnitude and a sign. A value is in normal form when its highest
    limb is not zero and zero carries no sign; each integer has one such form, and
    every operation gives one.
-/

namespace Camel.Literal

open Lib

/-! ## The Operations -/

structure BigInt where
  limbs : Limbs
  neg : Bool

/-- `while (magnitude != 0)`, a limb a round. -/
def limbsOf (magnitude : Nat) : Limbs :=
  if magnitude = 0 then [] else limb magnitude :: limbsOf (magnitude / 2 ^ 32)
  termination_by magnitude
  decreasing_by omega

/-- `static_cast<std::int64_t>` of a `uint64_t`. -/
def int64 (x : Nat) : Int := if x < 2 ^ 63 then x else x - 2 ^ 64

variable (a : BigInt)

namespace BigInt

/-- From an `int64_t`. `INT64_MIN` has no positive counterpart in int64. -/
def ofInt64 (value : Int) : BigInt :=
  ⟨limbsOf (if value < 0 then u64 ((-(value + 1)).toNat + 1) else value.toNat), value < 0⟩

def fromMagnitude (limbs : Limbs) (negative : Bool) : BigInt :=
  ⟨strip limbs, negative && limbs ≠ []⟩

def isZero : Bool := a.limbs = []

def abs : BigInt := fromMagnitude a.limbs false

def negated : BigInt := { a with neg := !a.neg && a.limbs ≠ [] }

def compare (a other : BigInt) : Int :=
  if a.neg ≠ other.neg then if a.neg then -1 else 1
  else
    let magnitude := compareMagnitude a.limbs other.limbs
    if a.neg then -magnitude else magnitude

def add (a other : BigInt) : BigInt :=
  if a.neg = other.neg then fromMagnitude (addMagnitude a.limbs other.limbs) a.neg
  else if 0 ≤ compareMagnitude a.limbs other.limbs then
    fromMagnitude (subMagnitude a.limbs other.limbs) a.neg
  else fromMagnitude (subMagnitude other.limbs a.limbs) other.neg

def sub (a other : BigInt) : BigInt := a.add other.negated

def mul (a other : BigInt) : BigInt :=
  fromMagnitude (multiplyMagnitude a.limbs other.limbs)
    (a.neg ≠ other.neg && !a.isZero && !other.isZero)

/-- Truncating division; `other` is not zero. The remainder takes the sign of this value. -/
def divMod (a other : BigInt) : BigInt × BigInt :=
  let (quotient, remainder) := divideMagnitude a.limbs other.limbs
  (fromMagnitude quotient (a.neg ≠ other.neg), fromMagnitude remainder a.neg)

def shiftedLeft (bits : Nat) : BigInt := fromMagnitude (shiftLeft a.limbs bits) a.neg

def shiftedRight (bits : Nat) : BigInt := fromMagnitude (shiftRight a.limbs bits) a.neg

def low64 : Nat :=
  let out := if a.limbs ≠ [] then a.limbs.getD 0 0 else 0
  if 1 < a.limbs.length then out ||| u64 (a.limbs.getD 1 0 * 2 ^ 32) else out

def fitsInt64 : Bool :=
  if a.limbs = [] then true
  else if 63 + 1 < bitLength a.limbs then false
  else a.low64 ≤ if a.neg then 2 ^ 63 else 2 ^ 63 - 1

/-- A negative value is the two's complement of its magnitude. -/
def toInt64 : Int :=
  let magnitude := a.low64
  if a.neg then int64 (u64 (2 ^ 64 - 1 - magnitude + 1)) else int64 magnitude

/-! ## What They Stand For -/

/-- The integer a value stands for. -/
def toInt : Int := if a.neg then -(value a.limbs : Int) else value a.limbs

/-- No leading zero limb and no negative zero. -/
structure Normal (a : BigInt) : Prop where
  limbs : Literal.Normal a.limbs
  sign : a.neg = true → a.limbs ≠ []

variable {a b : BigInt}

theorem Normal.nil_iff (ha : a.Normal) : a.limbs = [] ↔ value a.limbs = 0 :=
  NormalDigits.eq_nil_iff kBase_pos ha.limbs

theorem Normal.pos_of_neg (ha : a.Normal) (h : a.neg = true) : 0 < value a.limbs := by
  have hne := ha.sign h
  rw [ne_eq, ha.nil_iff] at hne
  exact pos_of_ne_zero hne

theorem Normal.neg_iff (ha : a.Normal) : a.neg = true ↔ a.toInt < 0 := by
  unfold toInt
  cases h : a.neg with
  | false =>
    simp
  | true =>
    have := ha.pos_of_neg h
    simp
    omega

theorem toInt_natAbs (a : BigInt) : a.toInt.natAbs = value a.limbs := by
  unfold toInt
  split <;> omega

theorem toInt_eq_zero_iff (ha : a.Normal) : a.toInt = 0 ↔ a.limbs = [] := by
  rw [ha.nil_iff, ← toInt_natAbs, Int.natAbs_eq_zero]

/-- Each integer has one normal form. -/
theorem Normal.ext (ha : a.Normal) (hb : b.Normal) (h : a.toInt = b.toInt) : a = b := by
  have hneg : a.neg = b.neg := by
    rw [Bool.eq_iff_iff, ha.neg_iff, hb.neg_iff, h]
  have hvalue : value a.limbs = value b.limbs := by
    rw [← toInt_natAbs, ← toInt_natAbs, h]
  obtain ⟨la, na⟩ := a
  obtain ⟨lb, nb⟩ := b
  have hlimbs : la = lb := NormalDigits.ext one_lt_kBase ha.limbs hb.limbs hvalue
  rw [hlimbs, show na = nb from hneg]

theorem fromMagnitude_spec {l : Limbs} (hl : Literal.Normal l) (negative : Bool) :
    (fromMagnitude l negative).Normal ∧
      (fromMagnitude l negative).toInt = if negative then -(value l : Int) else value l := by
  have hstrip := strip_of_normal hl
  refine ⟨⟨?_, ?_⟩, ?_⟩
  · show Literal.Normal (strip l)
    rw [hstrip]
    exact hl
  · intro hneg
    show strip l ≠ []
    rw [hstrip]
    simpa using (Bool.and_eq_true_iff.mp hneg).2
  · unfold toInt fromMagnitude
    rw [hstrip]
    cases negative with
    | false => simp
    | true =>
      by_cases hnil : l = []
      · rw [hnil]
        simp [value]
      · simp [hnil]

/-! ## Sign and Order -/

theorem abs_spec (ha : a.Normal) : a.abs.Normal ∧ a.abs.toInt = |a.toInt| := by
  obtain ⟨hn, hv⟩ := fromMagnitude_spec ha.limbs false
  refine ⟨hn, hv.trans ?_⟩
  rw [Int.abs_eq_natAbs, toInt_natAbs]
  rfl

theorem negated_spec (ha : a.Normal) : a.negated.Normal ∧ a.negated.toInt = -a.toInt := by
  refine ⟨⟨ha.limbs, fun h => ?_⟩, ?_⟩
  · show a.limbs ≠ []
    simpa using (Bool.and_eq_true_iff.mp h).2
  · unfold negated toInt
    by_cases h : a.limbs = []
    · simp [h, value]
    · cases hn : a.neg <;> simp [h]

theorem order_eq_sign (x y : Nat) : order x y = Int.sign ((x : Int) - y) := by
  unfold order
  rcases lt_trichotomy x y with h | rfl | h
  · rw [if_pos h, Int.sign_eq_neg_one_of_neg (by omega)]
  · rw [if_neg (by omega), if_pos rfl, Int.sub_self, Int.sign_zero]
  · rw [if_neg (by omega), if_neg (by omega), Int.sign_eq_one_of_pos (by omega)]

section
variable (ha : a.Normal) (hb : b.Normal)
include ha hb

theorem compare_spec :
    a.compare b = Int.sign (a.toInt - b.toInt) := by
  unfold compare
  rw [compareMagnitude_eq ha.limbs hb.limbs, order_eq_sign]
  unfold toInt
  cases hna : a.neg <;> cases hnb : b.neg
  · rfl
  · have := hb.pos_of_neg hnb
    simp only [ne_eq, Bool.false_eq_true, not_false_eq_true, if_true, if_false]
    rw [Int.sign_eq_one_of_pos (by omega)]
  · have := ha.pos_of_neg hna
    simp only [ne_eq, not_false_eq_true, if_true, Bool.true_eq_false, Bool.false_eq_true, if_false]
    rw [Int.sign_eq_neg_one_of_neg (by omega)]
  · simp only [ne_eq, not_true_eq_false, if_true, if_false]
    rw [← Int.sign_neg]
    congr 1
    omega

/-! ## Arithmetic -/

theorem add_spec :
    (a.add b).Normal ∧ (a.add b).toInt = a.toInt + b.toInt := by
  unfold add
  split
  · next hsame =>
    obtain ⟨hn, hv⟩ := addMagnitude_spec ha.limbs.lt hb.limbs.lt
    obtain ⟨hnormal, hint⟩ := fromMagnitude_spec hn a.neg
    refine ⟨hnormal, ?_⟩
    rw [hint, hv]
    unfold toInt
    rw [← hsame]
    split <;> omega
  · next hdiffer =>
    -- the longer magnitude gives the sign
    split
    · next hle =>
      rw [compareMagnitude_nonneg ha.limbs hb.limbs] at hle
      obtain ⟨hn, hv⟩ := subMagnitude_spec ha.limbs hb.limbs hle
      obtain ⟨hnormal, hint⟩ := fromMagnitude_spec hn a.neg
      refine ⟨hnormal, ?_⟩
      rw [hint, hv]
      unfold toInt
      cases hna : a.neg <;> cases hnb : b.neg <;> simp_all <;> omega
    · next hlt =>
      rw [compareMagnitude_nonneg ha.limbs hb.limbs] at hlt
      have hle : value a.limbs ≤ value b.limbs := by omega
      obtain ⟨hn, hv⟩ := subMagnitude_spec hb.limbs ha.limbs hle
      obtain ⟨hnormal, hint⟩ := fromMagnitude_spec hn b.neg
      refine ⟨hnormal, ?_⟩
      rw [hint, hv]
      unfold toInt
      cases hna : a.neg <;> cases hnb : b.neg <;> simp_all <;> omega

theorem sub_spec :
    (a.sub b).Normal ∧ (a.sub b).toInt = a.toInt - b.toInt := by
  obtain ⟨hneg, hint⟩ := negated_spec hb
  obtain ⟨hn, hv⟩ := add_spec ha hneg
  refine ⟨hn, ?_⟩
  show (a.add b.negated).toInt = _
  rw [hv, hint, Int.sub_eq_add_neg]

theorem mul_spec :
    (a.mul b).Normal ∧ (a.mul b).toInt = a.toInt * b.toInt := by
  obtain ⟨hn, hv⟩ := multiplyMagnitude_spec ha.limbs.lt hb.limbs.lt
  obtain ⟨hnormal, hint⟩ := fromMagnitude_spec hn (a.neg ≠ b.neg && !a.isZero && !b.isZero)
  refine ⟨hnormal, ?_⟩
  show (fromMagnitude _ _).toInt = _
  rw [hint, hv, Nat.cast_mul]
  unfold toInt isZero
  have hnil := ha.nil_iff
  have hnil' := hb.nil_iff
  by_cases h0 : a.limbs = []
  · rw [hnil.mp h0]
    simp
  · by_cases h0' : b.limbs = []
    · rw [hnil'.mp h0']
      simp
    · cases a.neg <;> cases b.neg <;> simp [h0, h0']

/-- The quotient is truncated, so the remainder has the sign of the dividend. -/
theorem divMod_spec (hne : b.toInt ≠ 0) :
    (a.divMod b).1.Normal ∧ (a.divMod b).2.Normal ∧
      (a.divMod b).1.toInt = a.toInt.tdiv b.toInt ∧
      (a.divMod b).2.toInt = a.toInt.tmod b.toInt := by
  have hpos : 0 < value b.limbs := by
    rw [← toInt_natAbs]
    exact Int.natAbs_pos.mpr hne
  obtain ⟨hq, hr, hquotient, hremainder⟩ := divideMagnitude_spec ha.limbs hb.limbs hpos
  obtain ⟨hnq, hiq⟩ := fromMagnitude_spec hq (a.neg ≠ b.neg)
  obtain ⟨hnr, hir⟩ := fromMagnitude_spec hr a.neg
  refine ⟨hnq, hnr, ?_, ?_⟩
  · refine hiq.trans ?_
    rw [hquotient]
    unfold toInt
    cases a.neg <;> cases b.neg <;> simp [Int.neg_tdiv, Int.tdiv_neg]
  · refine hir.trans ?_
    rw [hremainder]
    unfold toInt
    cases a.neg <;> cases b.neg <;> simp [Int.neg_tmod, Int.tmod_neg] <;> rfl

end

theorem shiftedLeft_spec (ha : a.Normal) (bits : Nat) :
    (a.shiftedLeft bits).Normal ∧ (a.shiftedLeft bits).toInt = a.toInt * 2 ^ bits := by
  obtain ⟨hn, hv⟩ := shiftLeft_spec ha.limbs bits
  obtain ⟨hnormal, hint⟩ := fromMagnitude_spec hn a.neg
  refine ⟨hnormal, ?_⟩
  show (fromMagnitude _ _).toInt = _
  rw [hint, hv]
  unfold toInt
  split <;> push_cast <;> ring

/-- The magnitude is shifted, so a negative value is rounded towards zero. -/
theorem shiftedRight_spec (ha : a.Normal) (bits : Nat) :
    (a.shiftedRight bits).Normal ∧ (a.shiftedRight bits).toInt = a.toInt.tdiv (2 ^ bits) := by
  obtain ⟨hn, hv⟩ := shiftRight_spec ha.limbs.lt bits
  obtain ⟨hnormal, hint⟩ := fromMagnitude_spec hn a.neg
  refine ⟨hnormal, ?_⟩
  show (fromMagnitude _ _).toInt = _
  rw [hint, hv]
  unfold toInt
  have hdiv : ((value a.limbs / 2 ^ bits : Nat) : Int) = (value a.limbs : Int).tdiv (2 ^ bits) := by
    rw [Int.ofNat_tdiv]
    push_cast
    rfl
  rw [hdiv]
  split
  · rw [Int.neg_tdiv]
  · rfl

/-! ## Machine Words -/

theorem limbsOf_spec (n : Nat) : Literal.Normal (limbsOf n) ∧ value (limbsOf n) = n := by
  induction n using Nat.strongRecOn with
  | ind n ih =>
    unfold limbsOf
    split
    · next h =>
      rw [h]
      exact ⟨normal_nil, rfl⟩
    · next h =>
      obtain ⟨hnormal, hvalue⟩ := ih (n / 2 ^ 32) (by omega)
      have hnil := NormalDigits.eq_nil_iff kBase_pos hnormal
      have hsplit := split_eq n
      refine ⟨⟨?_, ?_⟩, ?_⟩
      · intro d hd
        rcases List.mem_cons.mp hd with rfl | hd
        · exact limb_lt n
        · exact hnormal.lt d hd
      · have htop := hnormal.top
        unfold value at hvalue
        rw [hvalue] at hnil
        cases hrest : limbsOf (n / 2 ^ 32) with
        | nil =>
          rw [hnil.mp hrest] at hsplit
          simp
          omega
        | cons d l =>
          rw [hrest] at htop
          simpa using htop
      · show Nat.ofDigits kBase _ = _
        rw [Nat.ofDigits_cons]
        unfold value at hvalue
        rw [hvalue]
        exact hsplit.symm

theorem ofInt64_spec {v : Int} (hlow : -2 ^ 63 ≤ v) (hhigh : v < 2 ^ 63) :
    (ofInt64 v).Normal ∧ (ofInt64 v).toInt = v := by
  unfold ofInt64
  have hmagnitude : (if v < 0 then u64 ((-(v + 1)).toNat + 1) else v.toNat) = v.natAbs := by
    unfold u64
    split <;> omega
  rw [hmagnitude]
  obtain ⟨hn, hv⟩ := limbsOf_spec v.natAbs
  refine ⟨⟨hn, fun hneg => ?_⟩, ?_⟩
  · show limbsOf v.natAbs ≠ []
    rw [ne_eq, NormalDigits.eq_nil_iff kBase_pos hn]
    change ¬ value _ = 0
    rw [hv]
    have : v < 0 := by simpa using hneg
    omega
  · unfold toInt
    simp only [hv, decide_eq_true_eq]
    split <;> omega

theorem low64_eq (ha : a.Normal) : a.low64 = value a.limbs % 2 ^ 64 := by
  have hlt := ha.limbs.lt
  unfold low64 value
  obtain ⟨l, n⟩ := a
  simp only at *
  rcases l with _ | ⟨x, _ | ⟨y, l⟩⟩
  · rfl
  · have hx : x < kBase := hlt x (by simp)
    unfold kBase at hx
    simp [Nat.ofDigits_cons]
    omega
  · have hx : x < kBase := hlt x (by simp)
    have hy : y < kBase := hlt y (by simp)
    have hfit : y * 2 ^ 32 < kBase * kBase := by
      unfold kBase at *
      omega
    simp only [List.length_cons, List.getD_cons_zero, List.getD_cons_succ, Nat.ofDigits_cons]
    rw [if_pos (by omega), if_pos (by simp), u64_eq hfit, mul_comm y, Nat.or_comm,
      ← Nat.two_pow_add_eq_or_of_lt hx]
    generalize Nat.ofDigits kBase l = above
    have hsplit : x + kBase * (y + kBase * above) = 2 ^ 64 * above + (2 ^ 32 * y + x) := by
      unfold kBase
      ring
    change _ = (x + kBase * (y + kBase * above)) % 2 ^ 64
    rw [hsplit, Nat.mul_add_mod, Nat.mod_eq_of_lt]
    unfold kBase at hx hy
    omega

theorem fitsInt64_iff (ha : a.Normal) :
    a.fitsInt64 = true ↔ -2 ^ 63 ≤ a.toInt ∧ a.toInt < 2 ^ 63 := by
  obtain ⟨hup, hdown⟩ := bitLength_spec ha.limbs
  have hlow := low64_eq ha
  unfold fitsInt64
  split
  · next h =>
    have := (toInt_eq_zero_iff ha).mpr h
    simp [this]
  · next hne =>
    split
    · next hbits =>
      have hpow : 2 ^ 64 ≤ 2 ^ (bitLength a.limbs - 1) := Nat.pow_le_pow_right (by decide) (by omega)
      have hlarge := Nat.le_trans hpow (hdown hne)
      unfold toInt
      simp only [Bool.false_eq_true, false_iff]
      split <;> omega
    · next hbits =>
      have hpow : 2 ^ bitLength a.limbs ≤ 2 ^ 64 := Nat.pow_le_pow_right (by decide) (by omega)
      rw [hlow, Nat.mod_eq_of_lt (Nat.lt_of_lt_of_le hup hpow)]
      unfold toInt
      rw [decide_eq_true_eq]
      split <;> omega

theorem toInt64_eq (ha : a.Normal) (hfits : a.fitsInt64 = true) : a.toInt64 = a.toInt := by
  rw [fitsInt64_iff ha] at hfits
  have hlow := low64_eq ha
  have hpos := ha.pos_of_neg
  unfold toInt64
  unfold toInt at hfits ⊢
  simp only [hlow]
  unfold int64 u64
  split
  · next hneg =>
    have := hpos hneg
    rw [if_pos hneg] at hfits
    split <;> omega
  · next hneg =>
    rw [if_neg hneg] at hfits
    split <;> omega

end BigInt

end Camel.Literal
