import Camel.Lib.Radix

/-! # Magnitudes

    Natural numbers of any size in 32-bit limbs, the lowest first, and the
    schoolbook algorithms on them (`src/compile/literal.cpp`). A sum, a product or
    a difference of limbs is computed in 64 bits, so each is cut to its width here
    as well; that nothing is lost by the cut is part of what is proved.
-/

namespace Camel.Literal

open Lib List
open Nat (ofDigits)

/-! ## Limbs -/

abbrev Limbs := List Nat

/-- What 32 bits hold. -/
def kBase : Nat := 2 ^ 32

/-- `static_cast<Limb>`. -/
def limb (x : Nat) : Nat := x % 2 ^ 32

/-- Arithmetic in `uint64_t`. -/
def u64 (x : Nat) : Nat := x % 2 ^ 64

/-- The number the limbs stand for. -/
def value (a : Limbs) : Nat := ofDigits kBase a

abbrev Normal (a : Limbs) : Prop := NormalDigits kBase a

/-- From the highest limb down, the first that differs decides. -/
def compareFrom (a b : Limbs) : Nat → Int
  | 0 => 0
  | n + 1 =>
    if a.getD n 0 ≠ b.getD n 0 then
      if a.getD n 0 < b.getD n 0 then -1 else 1
    else compareFrom a b n

def compareMagnitude (a b : Limbs) : Int :=
  if a.length ≠ b.length then
    if a.length < b.length then -1 else 1
  else compareFrom a b a.length

def addLoop (a b : Limbs) : Nat → Nat → Nat → Limbs
  | 0, _, _ => []
  | n + 1, i, carry =>
    let sum := u64 (carry + a.getD i 0 + b.getD i 0)
    limb sum :: addLoop a b n (i + 1) (sum / 2 ^ 32)

def addMagnitude (a b : Limbs) : Limbs :=
  strip (addLoop a b (max a.length b.length + 1) 0 0)

/-- The difference of two limbs is computed in `int64_t`. -/
def subLoop (a b : Limbs) : Nat → Nat → Int → Limbs
  | 0, _, _ => []
  | n + 1, i, borrow =>
    let diff : Int := a.getD i 0 - borrow - b.getD i 0
    if diff < 0 then (diff + 2 ^ 32).toNat :: subLoop a b n (i + 1) 1
    else diff.toNat :: subLoop a b n (i + 1) 0

/-- `a - b` with `a >= b`. -/
def subMagnitude (a b : Limbs) : Limbs := strip (subLoop a b a.length 0 0)

/-- One limb of the first factor times the limbs of the second, from `j` on. -/
def multiplyRow (x : Nat) (b : Limbs) (i : Nat) : Nat → Nat → Nat → Limbs → Limbs × Nat
  | 0, _, carry, out => (out, carry)
  | n + 1, j, carry, out =>
    let current := u64 (x * b.getD j 0 + out.getD (i + j) 0 + carry)
    multiplyRow x b i n (j + 1) (current / 2 ^ 32) (out.set (i + j) (limb current))

/-- `while (carry != 0)`, with as many rounds as there are limbs left. -/
def carryOn : Nat → Nat → Nat → Limbs → Limbs
  | 0, _, _, out => out
  | n + 1, k, carry, out =>
    if carry = 0 then out
    else
      let current := u64 (out.getD k 0 + carry)
      carryOn n (k + 1) (current / 2 ^ 32) (out.set k (limb current))

def multiplyRows (a b : Limbs) : Nat → Nat → Limbs → Limbs
  | 0, _, out => out
  | n + 1, i, out =>
    let (out, carry) := multiplyRow (a.getD i 0) b i b.length 0 0 out
    multiplyRows a b n (i + 1) (carryOn (out.length - (i + b.length)) (i + b.length) carry out)

def multiplyMagnitude (a b : Limbs) : Limbs :=
  if a = [] ∨ b = [] then []
  else strip (multiplyRows a b a.length 0 (List.replicate (a.length + b.length) 0))

/-! ## Comparison -/

section
variable {a b : Limbs}

theorem kBase_pos : 0 < kBase := by decide

theorem one_lt_kBase : 1 < kBase := by decide

theorem limb_lt (x : Nat) : limb x < kBase := Nat.mod_lt _ kBase_pos

theorem u64_eq {x : Nat} (h : x < kBase * kBase) : u64 x = x := Nat.mod_eq_of_lt h

theorem split_eq (x : Nat) : x = limb x + kBase * (x / 2 ^ 32) := (Nat.mod_add_div x (2 ^ 32)).symm

/-- The order of two numbers, as a sign. -/
def order (x y : Nat) : Int := if x < y then -1 else if x = y then 0 else 1

theorem compareFrom_eq (ha : ∀ d ∈ a, d < kBase) (hb : ∀ d ∈ b, d < kBase) (n : Nat) :
    compareFrom a b n = order (value (a.take n)) (value (b.take n)) := by
  induction n with
  | zero => simp [compareFrom, order]
  | succ n ih =>
    have hlow := ofDigits_take_lt one_lt_kBase ha n
    have hlow' := ofDigits_take_lt one_lt_kBase hb n
    have hpow : 0 < kBase ^ n := Nat.pow_pos kBase_pos
    unfold compareFrom value order
    rw [ofDigits_take, ofDigits_take]
    generalize hx : a.getD n 0 = x
    generalize hy : b.getD n 0 = y
    rcases lt_trichotomy x y with h | rfl | h
    · -- the lower limbs cannot make up for one in this place
      have hstep : kBase ^ n * x + kBase ^ n ≤ kBase ^ n * y := by
        rw [← Nat.mul_succ]
        exact Nat.mul_le_mul_left _ h
      rw [if_pos (by omega), if_pos h, if_pos (by omega)]
    · rw [if_neg (by simp), ih]
      unfold order value
      simp only [Nat.add_lt_add_iff_right, Nat.add_right_cancel_iff]
    · have hstep : kBase ^ n * y + kBase ^ n ≤ kBase ^ n * x := by
        rw [← Nat.mul_succ]
        exact Nat.mul_le_mul_left _ h
      rw [if_pos (by omega), if_neg (by omega), if_neg (by omega), if_neg (by omega)]

theorem compareMagnitude_eq (ha : Normal a) (hb : Normal b) :
    compareMagnitude a b = order (value a) (value b) := by
  unfold compareMagnitude order value
  rcases lt_trichotomy a.length b.length with h | h | h
  · have hlt := NormalDigits.lt_of_length one_lt_kBase ha.lt hb h
    rw [if_pos (by omega), if_pos h, if_pos hlt]
  · rw [if_neg (by omega), compareFrom_eq ha.lt hb.lt, take_length, h, take_length]
    rfl
  · have hlt := NormalDigits.lt_of_length one_lt_kBase hb.lt ha h
    rw [if_pos (by omega), if_neg (by omega), if_neg (by omega), if_neg (by omega)]

theorem compareMagnitude_nonneg (ha : Normal a) (hb : Normal b) :
    0 ≤ compareMagnitude a b ↔ value b ≤ value a := by
  rw [compareMagnitude_eq ha hb]
  unfold order
  split
  · omega
  · split <;> omega

/-! ## Addition and Subtraction -/

theorem addLoop_lt (n i carry : Nat) : ∀ d ∈ addLoop a b n i carry, d < kBase := by
  induction n generalizing i carry with
  | zero => intro d hd; cases hd
  | succ n ih =>
    intro d hd
    unfold addLoop at hd
    rcases mem_cons.mp hd with rfl | hd
    · exact limb_lt _
    · exact ih _ _ d hd

section
variable (ha : ∀ d ∈ a, d < kBase) (hb : ∀ d ∈ b, d < kBase)
include ha hb

/-- The loop computes the sum from a place on, as far as its limbs reach. -/
theorem addLoop_value (n i carry : Nat)
    (hcarry : carry ≤ 1) :
    value (addLoop a b n i carry) =
      (carry + value (a.drop i) + value (b.drop i)) % kBase ^ n := by
  induction n generalizing i carry with
  | zero => simp [addLoop, value, Nat.mod_one]
  | succ n ih =>
    have hx := getD_lt kBase_pos ha i
    have hy := getD_lt kBase_pos hb i
    unfold value addLoop
    rw [ofDigits_drop a i, ofDigits_drop b i]
    generalize a.getD i 0 = x at hx ⊢
    generalize b.getD i 0 = y at hy ⊢
    have hfit : carry + x + y < kBase * kBase := by unfold kBase at hx hy ⊢; omega
    simp only [u64_eq hfit]
    have hnext : (carry + x + y) / 2 ^ 32 ≤ 1 := by unfold kBase at hx hy; omega
    have hrest := ih (i + 1) _ hnext
    unfold value at hrest
    rw [Nat.ofDigits_cons, hrest]
    -- the sum of the two limbs is split as the loop splits it
    have hsplit := split_eq (carry + x + y)
    have hlimb := limb_lt (carry + x + y)
    generalize (carry + x + y) / 2 ^ 32 = c at hsplit hnext ⊢
    generalize limb (carry + x + y) = d at hsplit hlimb ⊢
    have hsum : carry + (x + kBase * ofDigits kBase (a.drop (i + 1))) +
        (y + kBase * ofDigits kBase (b.drop (i + 1))) =
        d + kBase * (c + ofDigits kBase (a.drop (i + 1)) + ofDigits kBase (b.drop (i + 1))) := by
      calc _ = (carry + x + y) + kBase * (ofDigits kBase (a.drop (i + 1)) +
            ofDigits kBase (b.drop (i + 1))) := by ring
        _ = _ := by rw [hsplit]; ring
    rw [hsum, Nat.pow_succ', Nat.mod_mul, Nat.add_mul_mod_self_left, Nat.mod_eq_of_lt hlimb,
      Nat.add_mul_div_left _ _ kBase_pos, Nat.div_eq_of_lt hlimb, zero_add]

theorem addMagnitude_spec :
    Normal (addMagnitude a b) ∧ value (addMagnitude a b) = value a + value b := by
  refine ⟨normal_strip (addLoop_lt _ _ _), ?_⟩
  have hloop := addLoop_value ha hb (max a.length b.length + 1) 0 0 (Nat.zero_le 1)
  unfold value addMagnitude at *
  rw [ofDigits_strip, hloop, drop_zero, drop_zero, Nat.zero_add]
  -- one limb more than the longer operand has is enough
  have hlta := ofDigits_lt one_lt_kBase ha
  have hltb := ofDigits_lt one_lt_kBase hb
  have hpa : kBase ^ a.length ≤ kBase ^ max a.length b.length :=
    Nat.pow_le_pow_right kBase_pos (Nat.le_max_left _ _)
  have hpb : kBase ^ b.length ≤ kBase ^ max a.length b.length :=
    Nat.pow_le_pow_right kBase_pos (Nat.le_max_right _ _)
  have hpow : kBase ^ (max a.length b.length + 1) = kBase ^ max a.length b.length * kBase :=
    Nat.pow_succ ..
  have htwo : kBase ^ max a.length b.length * 2 ≤ kBase ^ max a.length b.length * kBase :=
    Nat.mul_le_mul_left _ one_lt_kBase
  exact Nat.mod_eq_of_lt (by omega)

theorem subLoop_spec (n i : Nat)
    (hn : a.length ≤ i + n) (hlen : b.length ≤ i + n) (borrow : Nat) (hborrow : borrow ≤ 1) :
    (∀ d ∈ subLoop a b n i borrow, d < kBase) ∧ ∃ left, left ≤ 1 ∧
      value (subLoop a b n i borrow) + value (b.drop i) + borrow =
        value (a.drop i) + kBase ^ n * left := by
  induction n generalizing i borrow with
  | zero =>
    refine ⟨fun d hd => ?_, borrow, hborrow, ?_⟩
    · cases hd
    · rw [drop_of_length_le (by omega), drop_of_length_le (by omega)]
      simp [subLoop, value]
  | succ n ih =>
    have hx := getD_lt kBase_pos ha i
    have hy := getD_lt kBase_pos hb i
    have hpow : kBase ^ (n + 1) = kBase * kBase ^ n := Nat.pow_succ' ..
    unfold value subLoop
    rw [ofDigits_drop a i, ofDigits_drop b i]
    generalize a.getD i 0 = x at hx ⊢
    generalize b.getD i 0 = y at hy ⊢
    simp only
    split
    · next hneg =>
      obtain ⟨hlt, left, hleft, hrest⟩ := ih (i + 1) (by omega) (by omega) 1 (le_refl 1)
      unfold value at hrest
      rw [Nat.cast_one] at hlt hrest
      have hdigit : ((x : Int) - borrow - y + 2 ^ 32).toNat + y + borrow = x + kBase := by
        unfold kBase at *
        omega
      refine ⟨fun d hd => ?_, left, hleft, ?_⟩
      · rcases mem_cons.mp hd with rfl | hd
        · unfold kBase at *
          omega
        · exact hlt d hd
      · rw [Nat.ofDigits_cons, hpow]
        generalize ((x : Int) - borrow - y + 2 ^ 32).toNat = d at hdigit ⊢
        generalize ofDigits kBase (subLoop a b n (i + 1) 1) = out at hrest ⊢
        calc d + kBase * out + (y + kBase * ofDigits kBase (b.drop (i + 1))) + borrow
            = (d + y + borrow) + kBase * (out + ofDigits kBase (b.drop (i + 1))) := by ring
          _ = x + kBase * (out + ofDigits kBase (b.drop (i + 1)) + 1) := by rw [hdigit]; ring
          _ = _ := by rw [hrest]; ring
    · next hpos =>
      obtain ⟨hlt, left, hleft, hrest⟩ := ih (i + 1) (by omega) (by omega) 0 (Nat.zero_le 1)
      unfold value at hrest
      rw [Nat.cast_zero] at hlt hrest
      have hdigit : ((x : Int) - borrow - y).toNat + y + borrow = x := by omega
      refine ⟨fun d hd => ?_, left, hleft, ?_⟩
      · rcases mem_cons.mp hd with rfl | hd
        · unfold kBase at *
          omega
        · exact hlt d hd
      · rw [Nat.ofDigits_cons, hpow]
        generalize ((x : Int) - borrow - y).toNat = d at hdigit ⊢
        generalize ofDigits kBase (subLoop a b n (i + 1) 0) = out at hrest ⊢
        calc d + kBase * out + (y + kBase * ofDigits kBase (b.drop (i + 1))) + borrow
            = (d + y + borrow) + kBase * (out + ofDigits kBase (b.drop (i + 1)) + 0) := by ring
          _ = _ := by rw [hdigit, hrest]; ring

end

theorem subMagnitude_spec (ha : Normal a) (hb : Normal b) (hle : value b ≤ value a) :
    Normal (subMagnitude a b) ∧ value (subMagnitude a b) = value a - value b := by
  have hlen := NormalDigits.length_le one_lt_kBase hb ha.lt hle
  obtain ⟨hlt, left, -, hloop⟩ := subLoop_spec ha.lt hb.lt a.length 0 (by omega) (by omega) 0
    (Nat.zero_le 1)
  rw [Nat.cast_zero] at hlt hloop
  refine ⟨normal_strip hlt, ?_⟩
  have hsmall := ofDigits_lt one_lt_kBase hlt
  have hsize : (subLoop a b a.length 0 0).length = a.length := by
    generalize a.length = n
    suffices h : ∀ n i (c : Int), (subLoop a b n i c).length = n from h n 0 0
    intro n
    induction n with
    | zero => intro i c; rfl
    | succ n ih =>
      intro i c
      unfold subLoop
      simp only
      split <;> rw [length_cons, ih]
  rw [hsize] at hsmall
  unfold value subMagnitude at *
  rw [ofDigits_strip]
  rw [drop_zero, drop_zero, add_zero] at hloop
  -- a borrow out of the last limb would make the difference too large for the limbs there are
  rcases left with _ | left
  · omega
  · have : kBase ^ a.length ≤ kBase ^ a.length * (left + 1) :=
      Nat.le_mul_of_pos_right _ (Nat.succ_pos left)
    omega

end

end Camel.Literal

/-! # Products of Magnitudes

    A row adds one limb of the first factor times the second to the product so
    far, at the limb's place; the carry that is left goes on into the limbs above.
    After `i` rows the limbs hold the product of the first `i` limbs with the
    second factor.
-/

namespace Camel.Literal

open Lib List
open Nat (ofDigits)

variable {a b out : Limbs}

/-- What a loop makes of the product so far: as many limbs, each of 32 bits. -/
def Fits (out out' : Limbs) : Prop := out'.length = out.length ∧ ∀ d ∈ out', d < kBase

/-- Two limbs multiplied, with two more added, fit into 64 bits. -/
theorem product_fits {x y c d : Nat} (hx : x < kBase) (hy : y < kBase) (hc : c < kBase)
    (hd : d < kBase) : x * y + c + d < kBase * kBase := by
  obtain ⟨p, hp⟩ : ∃ p, kBase = p + 1 := ⟨2 ^ 32 - 1, rfl⟩
  rw [hp] at hx hy hc hd ⊢
  have hxy : x * y ≤ p * p := Nat.mul_le_mul (by omega) (by omega)
  have hsq : (p + 1) * (p + 1) = p * p + 2 * p + 1 := by ring
  omega

theorem div_lt_of_fits {x : Nat} (h : x < kBase * kBase) : x / 2 ^ 32 < kBase :=
  Nat.div_lt_of_lt_mul h

/-- One step of a row or of its carry: the digit written and the carry stand for what was there
    and what was added. -/
theorem set_step (out : Limbs) {k : Nat} (hk : k < out.length) (v : Nat) :
    value (out.set k (limb v)) + v / 2 ^ 32 * kBase ^ (k + 1) + kBase ^ k * out.getD k 0 =
      value out + kBase ^ k * v := by
  have hset := ofDigits_set (B := kBase) hk (limb v)
  unfold value
  calc _ = (ofDigits kBase (out.set k (limb v)) + kBase ^ k * out.getD k 0) +
        v / 2 ^ 32 * (kBase ^ k * kBase) := by rw [pow_succ]; ring
    _ = ofDigits kBase out + kBase ^ k * (limb v + kBase * (v / 2 ^ 32)) := by rw [hset]; ring
    _ = _ := by rw [← split_eq]

theorem multiplyRow_spec {x : Nat} (hx : x < kBase) (hb : ∀ d ∈ b, d < kBase) {i : Nat} :
    ∀ n j carry (out : Limbs), j + n = b.length → i + b.length ≤ out.length →
      (∀ d ∈ out, d < kBase) → carry < kBase →
      Fits out (multiplyRow x b i n j carry out).1 ∧
      (multiplyRow x b i n j carry out).2 < kBase ∧
      value (multiplyRow x b i n j carry out).1 +
          (multiplyRow x b i n j carry out).2 * kBase ^ (i + b.length) =
        value out + carry * kBase ^ (i + j) + x * kBase ^ (i + j) * value (b.drop j) := by
  intro n
  induction n with
  | zero =>
    intro j carry out hj _ hout hcarry
    refine ⟨⟨rfl, hout⟩, hcarry, ?_⟩
    rw [drop_of_length_le (by omega), ← show j = b.length by omega]
    simp [multiplyRow, value]
  | succ n ih =>
    intro j carry out hj hlen hout hcarry
    unfold multiplyRow
    have hy := getD_lt kBase_pos hb j
    have ho := getD_lt kBase_pos hout (i + j)
    have hfit := product_fits hx hy ho hcarry
    have hstep := set_step out (k := i + j) (by omega)
      (x * b.getD j 0 + out.getD (i + j) 0 + carry)
    rw [show value (b.drop j) = _ from ofDigits_drop b j]
    simp only [u64_eq hfit]
    obtain ⟨⟨hsize, hlt⟩, hleft, hrest⟩ := ih (j + 1)
      ((x * b.getD j 0 + out.getD (i + j) 0 + carry) / 2 ^ 32)
      (out.set (i + j) (limb (x * b.getD j 0 + out.getD (i + j) 0 + carry))) (by omega)
      (by rw [length_set]; omega) (forall_lt_set hout (limb_lt _)) (div_lt_of_fits hfit)
    rw [length_set] at hsize
    refine ⟨⟨hsize, hlt⟩, hleft, ?_⟩
    rw [hrest, show i + (j + 1) = i + j + 1 from rfl]
    change _ = value out + _ + x * _ * (_ + kBase * value (b.drop (j + 1)))
    generalize value (out.set _ _) = v at hstep ⊢
    generalize (x * b.getD j 0 + out.getD (i + j) 0 + carry) / 2 ^ 32 = q at hstep ⊢
    generalize b.getD j 0 = y at hstep ⊢
    generalize out.getD (i + j) 0 = o at hstep ⊢
    generalize value (b.drop (j + 1)) = rest
    rw [pow_succ] at hstep ⊢
    generalize kBase ^ (i + j) = p at hstep ⊢
    apply Nat.add_right_cancel (m := p * o)
    calc v + q * (p * kBase) + x * (p * kBase) * rest + p * o
        = (v + q * (p * kBase) + p * o) + x * (p * kBase) * rest := by ring
      _ = value out + p * (x * y + o + carry) + x * (p * kBase) * rest := by rw [hstep]
      _ = _ := by ring

/-- The carry of a row is taken up by the limbs above, if the sum fits them. -/
theorem carryOn_spec : ∀ n k carry (out : Limbs), k + n = out.length →
    (∀ d ∈ out, d < kBase) → carry < kBase → value out + carry * kBase ^ k < kBase ^ out.length →
    Fits out (carryOn n k carry out) ∧
      value (carryOn n k carry out) = value out + carry * kBase ^ k := by
  intro n
  induction n with
  | zero =>
    intro k carry out hk hout _ hfit
    refine ⟨⟨rfl, hout⟩, ?_⟩
    rw [show k = out.length by omega] at hfit ⊢
    have hzero : carry = 0 := by
      by_contra hne
      have : kBase ^ out.length ≤ carry * kBase ^ out.length :=
        Nat.le_mul_of_pos_left _ (pos_of_ne_zero hne)
      omega
    rw [hzero]
    simp [carryOn]
  | succ n ih =>
    intro k carry out hk hout hcarry hfit
    unfold carryOn
    split
    · next h =>
      rw [h]
      exact ⟨⟨rfl, hout⟩, by simp⟩
    · have ho := getD_lt kBase_pos hout k
      have hsum : out.getD k 0 + carry < kBase * kBase := by
        unfold kBase at *
        omega
      have hstep := set_step out (k := k) (by omega) (out.getD k 0 + carry)
      simp only [u64_eq hsum]
      have hsame : value (out.set k (limb (out.getD k 0 + carry))) +
          (out.getD k 0 + carry) / 2 ^ 32 * kBase ^ (k + 1) = value out + carry * kBase ^ k := by
        apply Nat.add_right_cancel (m := kBase ^ k * out.getD k 0)
        rw [hstep]
        ring
      obtain ⟨⟨hsize, hlt⟩, hvalue⟩ := ih (k + 1) ((out.getD k 0 + carry) / 2 ^ 32)
        (out.set k (limb (out.getD k 0 + carry))) (by rw [length_set]; omega)
        (forall_lt_set hout (limb_lt _)) (div_lt_of_fits hsum)
        (by rw [hsame, length_set]; exact hfit)
      rw [length_set] at hsize
      exact ⟨⟨hsize, hlt⟩, hvalue.trans hsame⟩

theorem multiplyRows_spec (ha : ∀ d ∈ a, d < kBase) (hb : ∀ d ∈ b, d < kBase) :
    ∀ n i (out : Limbs), i + n = a.length → out.length = a.length + b.length →
      (∀ d ∈ out, d < kBase) → value out = value (a.take i) * value b →
      (∀ d ∈ multiplyRows a b n i out, d < kBase) ∧
        value (multiplyRows a b n i out) = value a * value b := by
  intro n
  induction n with
  | zero =>
    intro i out hi _ hout hvalue
    rw [take_of_length_le (by omega)] at hvalue
    exact ⟨hout, hvalue⟩
  | succ n ih =>
    intro i out hi hlen hout hvalue
    unfold multiplyRows
    have hx := getD_lt kBase_pos ha i
    obtain ⟨⟨hsize, hlt⟩, hcarry, hrow⟩ := multiplyRow_spec hx hb (i := i) b.length 0 0 out (by omega)
      (by omega) hout kBase_pos
    simp only
    generalize (multiplyRow (a.getD i 0) b i b.length 0 0 out).1 = row at hsize hlt hrow ⊢
    generalize (multiplyRow (a.getD i 0) b i b.length 0 0 out).2 = carry at hcarry hrow ⊢
    rw [drop_zero, zero_mul, add_zero, add_zero, hvalue] at hrow
    have hnext : value (a.take i) * value b + a.getD i 0 * kBase ^ i * value b =
        value (a.take (i + 1)) * value b := by
      unfold value
      rw [ofDigits_take]
      ring
    rw [hnext] at hrow
    -- the product of the limbs so far and the second factor fits the limbs there are
    have hfit : value (a.take (i + 1)) * value b < kBase ^ row.length := by
      have h1 := ofDigits_take_lt one_lt_kBase ha (i + 1)
      have h2 := ofDigits_lt one_lt_kBase hb
      have hle : kBase ^ (i + 1) * kBase ^ b.length ≤ kBase ^ row.length := by
        rw [← Nat.pow_add]
        exact Nat.pow_le_pow_right kBase_pos (by omega)
      exact Nat.lt_of_lt_of_le (Nat.mul_lt_mul'' h1 h2) hle
    obtain ⟨⟨hsize', hlt'⟩, hcarried⟩ := carryOn_spec (row.length - (i + b.length))
      (i + b.length) carry row (by omega) hlt hcarry (by rw [hrow]; exact hfit)
    exact ih (i + 1) _ (by omega) (by rw [hsize', hsize, hlen]) hlt' (hcarried.trans hrow)

theorem multiplyMagnitude_spec (ha : ∀ d ∈ a, d < kBase) (hb : ∀ d ∈ b, d < kBase) :
    Normal (multiplyMagnitude a b) ∧ value (multiplyMagnitude a b) = value a * value b := by
  unfold multiplyMagnitude
  split
  · next h =>
    refine ⟨normal_nil, ?_⟩
    rcases h with rfl | rfl <;> simp [value]
  · obtain ⟨hlt, hvalue⟩ := multiplyRows_spec ha hb a.length 0
      (List.replicate (a.length + b.length) 0) (by omega) length_replicate
      (fun d hd => by rw [eq_of_mem_replicate hd]; exact kBase_pos)
      (by simp [value, Nat.ofDigits_replicate_zero])
    refine ⟨normal_strip hlt, ?_⟩
    show ofDigits kBase (strip _) = _
    rw [ofDigits_strip]
    exact hvalue

end Camel.Literal
