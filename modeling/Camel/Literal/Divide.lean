import Camel.Literal.Magnitude

/-! # Bits, Shifts and Division of Magnitudes

    A shift moves whole limbs and then bits inside them, so that each limb of the
    result is put together from two. A division is done bit by bit from the top:
    the remainder takes in the next bit of the dividend, and the quotient gets a
    bit where the divisor goes into it.
-/

namespace Camel.Literal

open Lib List
open Nat (ofDigits)

/-! ## The Operations -/

/-- `while (top != 0)`. -/
def topBits (top : Nat) : Nat := if top = 0 then 0 else topBits (top / 2) + 1
  termination_by top
  decreasing_by omega

variable {limbs rest : Nat} (a : Limbs)

def bitLength : Nat :=
  if a = [] then 0 else (a.length - 1) * 32 + topBits (a.getLastD 0)

def bitAt (index : Nat) : Bool :=
  index / 32 < a.length && a.getD (index / 32) 0 / 2 ^ (index % 32) % 2 ≠ 0

def setBit (index : Nat) : Limbs :=
  let a := if a.length ≤ index / 32 then a ++ List.replicate (index / 32 + 1 - a.length) 0 else a
  a.set (index / 32) (a.getD (index / 32) 0 ||| 2 ^ (index % 32))

def shiftLoop (a : Limbs) (limbs rest : Nat) : Nat → Nat → Limbs → Limbs
  | 0, _, out => out
  | n + 1, i, out =>
    let value := u64 (a.getD i 0 * 2 ^ rest)
    let out := out.set (i + limbs) (out.getD (i + limbs) 0 ||| limb value)
    let out := out.set (i + limbs + 1) (out.getD (i + limbs + 1) 0 ||| limb (value / 2 ^ 32))
    shiftLoop a limbs rest n (i + 1) out

def shiftLeft (bits : Nat) : Limbs :=
  if a = [] ∨ bits = 0 then a
  else
    strip (shiftLoop a (bits / 32) (bits % 32) a.length 0
      (List.replicate (a.length + bits / 32 + 1) 0))

def shiftRightLoop (a : Limbs) (limbs rest : Nat) : Nat → Nat → Limbs
  | 0, _ => []
  | n + 1, i =>
    let value := a.getD (i + limbs) 0
    let value :=
      if rest ≠ 0 then
        let value := value / 2 ^ rest
        if i + limbs + 1 < a.length then value ||| u64 (a.getD (i + limbs + 1) 0 * 2 ^ (32 - rest))
        else value
      else value
    limb value :: shiftRightLoop a limbs rest n (i + 1)

def shiftRight (bits : Nat) : Limbs :=
  if a.length ≤ bits / 32 then []
  else strip (shiftRightLoop a (bits / 32) (bits % 32) (a.length - bits / 32) 0)

def divideLoop (a b : Limbs) : Nat → Limbs → Limbs → Limbs × Limbs
  | 0, quotient, remainder => (quotient, remainder)
  | bit + 1, quotient, remainder =>
    let remainder := shiftLeft remainder 1
    let remainder := if bitAt a bit then setBit remainder 0 else remainder
    if 0 ≤ compareMagnitude remainder b then
      divideLoop a b bit (setBit quotient bit) (subMagnitude remainder b)
    else divideLoop a b bit quotient remainder

/-- Truncating division of magnitudes; `divisor` is not zero. -/
def divideMagnitude (a b : Limbs) : Limbs × Limbs :=
  let (quotient, remainder) := divideLoop a b (bitLength a) (List.replicate a.length 0) []
  (strip quotient, remainder)

/-! ## Bits -/

section
variable {a b : Limbs}

theorem kBase_pow (n : Nat) : kBase ^ n = 2 ^ (32 * n) := (pow_mul 2 32 n).symm

theorem topBits_spec (top : Nat) :
    top < 2 ^ topBits top ∧ (top ≠ 0 → 2 ^ (topBits top - 1) ≤ top) := by
  induction top using Nat.strongRecOn with
  | ind top ih =>
    unfold topBits
    split
    · next h =>
      rw [h]
      exact ⟨one_pos, fun hne => absurd rfl hne⟩
    · next h =>
      obtain ⟨hlt, hle⟩ := ih (top / 2) (by omega)
      rw [pow_succ, Nat.add_sub_cancel]
      refine ⟨by omega, fun _ => ?_⟩
      by_cases hhalf : top / 2 = 0
      · rw [hhalf]
        have : topBits 0 = 0 := by
          unfold topBits
          rfl
        rw [this]
        omega
      · have hpos : topBits (top / 2) ≠ 0 := by
          intro h0
          rw [h0] at hlt
          omega
        obtain ⟨t, ht⟩ := Nat.exists_eq_succ_of_ne_zero hpos
        have := hle hhalf
        rw [ht, Nat.succ_eq_add_one, Nat.add_sub_cancel] at this
        rw [ht, pow_succ]
        omega

/-- The length in bits of a number in normal form. -/
theorem bitLength_spec (ha : Normal a) :
    value a < 2 ^ bitLength a ∧ (a ≠ [] → 2 ^ (bitLength a - 1) ≤ value a) := by
  unfold bitLength
  split
  · next h =>
    rw [h]
    exact ⟨by simp [value], fun hne => absurd rfl hne⟩
  · next h =>
    have htop := ha.top
    have hlt := ha.lt
    obtain ⟨init, d, rfl⟩ := (eq_nil_or_concat a).resolve_left h
    rw [concat_eq_append] at *
    rw [getLast?_append, getLast?_singleton] at htop
    have hd : d ≠ 0 := fun h0 => htop (by simp [h0])
    obtain ⟨hup, hdown⟩ := topBits_spec d
    have hinit := ofDigits_lt one_lt_kBase fun e he => hlt e (mem_append_left _ he)
    have hbits : topBits d ≠ 0 := by
      intro h0
      rw [h0] at hup
      omega
    obtain ⟨t, ht⟩ := Nat.exists_eq_succ_of_ne_zero hbits
    rw [ht, Nat.succ_eq_add_one] at hup hdown
    have hlow := hdown hd
    unfold value
    rw [getLastD_concat, ht, Nat.ofDigits_append, Nat.ofDigits_singleton, length_append,
      length_singleton, Nat.add_sub_cancel, mul_comm init.length 32, Nat.succ_eq_add_one]
    rw [kBase_pow] at hinit ⊢
    generalize ofDigits kBase init = v at hinit ⊢
    constructor
    · calc v + 2 ^ (32 * init.length) * d < 2 ^ (32 * init.length) * (d + 1) := by
            rw [Nat.mul_succ]
            omega
        _ ≤ 2 ^ (32 * init.length) * 2 ^ (t + 1) := Nat.mul_le_mul_left _ hup
        _ = 2 ^ (32 * init.length + (t + 1)) := (pow_add ..).symm
    · intro _
      calc 2 ^ (32 * init.length + (t + 1) - 1) = 2 ^ (32 * init.length) * 2 ^ t := by
            rw [← pow_add]
            rfl
        _ ≤ 2 ^ (32 * init.length) * d := Nat.mul_le_mul_left _ hlow
        _ ≤ _ := Nat.le_add_left _ _

/-- The limbs from a place on are the number divided by that power of the base. -/
theorem value_div (ha : ∀ d ∈ a, d < kBase) (k : Nat) :
    value a / kBase ^ k = value (a.drop k) := by
  have hlow := ofDigits_take_lt one_lt_kBase ha k
  by_cases hk : k ≤ a.length
  · unfold value
    rw [← ofDigits_take_add_drop (B := kBase) a k hk,
      Nat.add_mul_div_left _ _ (Nat.pow_pos kBase_pos), Nat.div_eq_of_lt hlow, zero_add]
  · rw [take_of_length_le (by omega)] at hlow
    rw [drop_of_length_le (by omega)]
    exact Nat.div_eq_of_lt hlow

/-- Splitting off the bits below a limb. -/
theorem div_pow_bits (x i : Nat) : x / 2 ^ i = x / kBase ^ (i / 32) / 2 ^ (i % 32) := by
  rw [kBase_pow, Nat.div_div_eq_div_mul, ← pow_add, Nat.div_add_mod]

theorem mod_two_of_low {x y r : Nat} (hr : r < 32) (h : x % kBase = y % kBase) :
    x / 2 ^ r % 2 = y / 2 ^ r % 2 := by
  have hbit : ∀ z, z / 2 ^ r % 2 = z % kBase / 2 ^ r % 2 := by
    intro z
    have hpow : kBase = 2 ^ r * (2 * 2 ^ (31 - r)) := by
      rw [← Nat.pow_succ', ← pow_add]
      unfold kBase
      congr 1
      omega
    rw [hpow, Nat.mod_mul_right_div_self, Nat.mod_mul_right_mod]
  rw [hbit x, hbit y, h]

theorem bitAt_eq (ha : ∀ d ∈ a, d < kBase) (i : Nat) :
    bitAt a i = decide (value a / 2 ^ i % 2 ≠ 0) := by
  have hlow : value a / kBase ^ (i / 32) % kBase = a.getD (i / 32) 0 % kBase := by
    rw [value_div ha, show value (a.drop (i / 32)) = _ from ofDigits_drop a _,
      Nat.add_mul_mod_self_left]
  rw [div_pow_bits, mod_two_of_low (Nat.mod_lt i (by decide)) hlow]
  unfold bitAt
  by_cases hi : i / 32 < a.length
  · simp [hi]
  · rw [getD_eq_zero (by omega)]
    simp [hi]

/-- A bit that is not set is set by adding it. -/
theorem or_two_pow {x r : Nat} (h : x / 2 ^ r % 2 = 0) : x ||| 2 ^ r = x + 2 ^ r := by
  have hlow : x % 2 ^ r < 2 ^ r := Nat.mod_lt _ (Nat.two_pow_pos r)
  have hx := Nat.div_add_mod x (2 ^ r)
  generalize x / 2 ^ r = hi at h hx
  generalize x % 2 ^ r = lo at hlow hx
  obtain ⟨k, rfl⟩ : ∃ k, hi = 2 ^ 1 * k := ⟨hi / 2, by omega⟩
  have hone : 2 ^ 1 * k ||| 1 = 2 ^ 1 * k + 1 := (Nat.two_pow_add_eq_or_of_lt (by decide) k).symm
  rw [← hx]
  calc 2 ^ r * (2 ^ 1 * k) + lo ||| 2 ^ r = (2 ^ r * (2 ^ 1 * k) ||| 2 ^ r) ||| lo := by
        rw [Nat.two_pow_add_eq_or_of_lt hlow, Nat.or_assoc, Nat.or_comm lo, Nat.or_assoc]
    _ = 2 ^ r * (2 ^ 1 * k ||| 1) ||| lo := by
        rw [mul_comm (2 ^ r) (2 ^ 1 * k), mul_comm (2 ^ r) (2 ^ 1 * k ||| 1),
          ← Nat.shiftLeft_eq, ← Nat.shiftLeft_eq, Nat.shiftLeft_or_distrib, Nat.shiftLeft_eq 1,
          one_mul]
    _ = 2 ^ r * (2 ^ 1 * k + 1) + lo := by rw [hone, ← Nat.two_pow_add_eq_or_of_lt hlow]
    _ = _ := by ring

theorem or_lt_kBase {x y : Nat} (hx : x < kBase) (hy : y < kBase) : x ||| y < kBase :=
  Nat.or_lt_two_pow hx hy

theorem setBit_spec (ha : ∀ d ∈ a, d < kBase) {i : Nat} (hi : i / 32 < a.length)
    (hbit : value a / 2 ^ i % 2 = 0) :
    Literal.setBit a i = a.set (i / 32) (a.getD (i / 32) 0 + 2 ^ (i % 32)) ∧
      value (setBit a i) = value a + 2 ^ i ∧ ∀ d ∈ setBit a i, d < kBase := by
  have hlow : value a / kBase ^ (i / 32) % kBase = a.getD (i / 32) 0 % kBase := by
    rw [value_div ha, show value (a.drop (i / 32)) = _ from ofDigits_drop a _,
      Nat.add_mul_mod_self_left]
  have hzero : a.getD (i / 32) 0 / 2 ^ (i % 32) % 2 = 0 := by
    rw [← mod_two_of_low (Nat.mod_lt i (by decide)) hlow, ← div_pow_bits]
    exact hbit
  have heq : setBit a i = a.set (i / 32) (a.getD (i / 32) 0 + 2 ^ (i % 32)) := by
    unfold setBit
    rw [if_neg (by omega)]
    simp only [or_two_pow hzero]
  refine ⟨heq, ?_, ?_⟩
  · have hset := ofDigits_set (B := kBase) hi (a.getD (i / 32) 0 + 2 ^ (i % 32))
    have hpow : kBase ^ (i / 32) * 2 ^ (i % 32) = 2 ^ i := by
      rw [kBase_pow, ← pow_add, Nat.div_add_mod]
    rw [heq]
    unfold value
    rw [mul_add, hpow] at hset
    omega
  · rw [heq, ← or_two_pow hzero]
    apply forall_lt_set ha
    apply or_lt_kBase (getD_lt kBase_pos ha _)
    exact Nat.pow_lt_pow_right (by decide) (Nat.mod_lt i (by decide))

/-! ## Shifts -/

theorem getD_replicate_zero (n j : Nat) : (replicate n 0).getD j 0 = 0 := by
  rw [getD_eq_getElem?_getD, getElem?_replicate]
  split <;> rfl

theorem shiftLoop_spec (ha : ∀ d ∈ a, d < kBase) (hrest : rest < 32) :
    ∀ n i (out : Limbs), i + n = a.length → out.length = a.length + limbs + 1 →
      (∀ d ∈ out, d < kBase) → (∀ j, i + limbs < j → out.getD j 0 = 0) →
      out.getD (i + limbs) 0 < 2 ^ rest →
      value out = kBase ^ limbs * 2 ^ rest * value (a.take i) →
      (∀ d ∈ shiftLoop a limbs rest n i out, d < kBase) ∧
        value (shiftLoop a limbs rest n i out) = kBase ^ limbs * 2 ^ rest * value a := by
  intro n
  induction n with
  | zero =>
    intro i out hi _ hout _ _ hvalue
    rw [take_of_length_le (by omega)] at hvalue
    exact ⟨hout, hvalue⟩
  | succ n ih =>
    intro i out hi hlen hout habove hsmall hvalue
    unfold shiftLoop
    have hx := getD_lt kBase_pos ha i
    have hrest' : 2 ^ rest < kBase := Nat.pow_lt_pow_right (by decide) hrest
    have hprod : a.getD i 0 * 2 ^ rest < kBase * kBase := Nat.mul_lt_mul'' hx hrest'
    have hhigh : a.getD i 0 * 2 ^ rest / 2 ^ 32 < 2 ^ rest :=
      Nat.div_lt_of_lt_mul (Nat.mul_lt_mul_of_pos_right hx (Nat.two_pow_pos rest))
    have hlow : limb (a.getD i 0 * 2 ^ rest) = 2 ^ rest * (a.getD i 0 % 2 ^ (32 - rest)) := by
      unfold limb
      rw [show (2 : Nat) ^ 32 = 2 ^ (32 - rest) * 2 ^ rest by
        rw [← pow_add]; congr 1; omega, Nat.mul_mod_mul_right, mul_comm]
    have hfirst : out.getD (i + limbs) 0 ||| limb (a.getD i 0 * 2 ^ rest) =
        out.getD (i + limbs) 0 + limb (a.getD i 0 * 2 ^ rest) := by
      rw [hlow, Nat.or_comm, ← Nat.two_pow_add_eq_or_of_lt hsmall, add_comm]
    have hsecond : limb (a.getD i 0 * 2 ^ rest / 2 ^ 32) = a.getD i 0 * 2 ^ rest / 2 ^ 32 :=
      Nat.mod_eq_of_lt (lt_trans hhigh hrest')
    have hnext := habove (i + limbs + 1) (by omega)
    simp only [u64_eq hprod, hsecond]
    rw [getD_set_ne (by omega), hnext, Nat.zero_or]
    have hfirstLt : out.getD (i + limbs) 0 ||| limb (a.getD i 0 * 2 ^ rest) < kBase :=
      or_lt_kBase (getD_lt kBase_pos hout _) (limb_lt _)
    refine ih (i + 1) _ (by omega) ?_ ?_ ?_ ?_ ?_
    · rw [length_set, length_set, hlen]
    · exact forall_lt_set (forall_lt_set hout hfirstLt) (lt_trans hhigh hrest')
    · intro j hj
      rw [getD_set_ne (by omega), getD_set_ne (by omega)]
      exact habove j (by omega)
    · rw [show i + 1 + limbs = i + limbs + 1 by omega, getD_set_self]
      · exact hhigh
      · rw [length_set]
        omega
    · have hset := ofDigits_set (B := kBase) (l := out) (k := i + limbs) (by omega)
        (out.getD (i + limbs) 0 ||| limb (a.getD i 0 * 2 ^ rest))
      have hset' := ofDigits_set (B := kBase)
        (l := out.set (i + limbs) (out.getD (i + limbs) 0 ||| limb (a.getD i 0 * 2 ^ rest)))
        (k := i + limbs + 1) (by rw [length_set]; omega)
        (a.getD i 0 * 2 ^ rest / 2 ^ 32)
      rw [getD_set_ne (by omega), hnext, mul_zero, add_zero] at hset'
      rw [hfirst] at hset hset' ⊢
      unfold value at *
      rw [hset', ofDigits_take]
      rw [hvalue] at hset
      have hsplit := split_eq (a.getD i 0 * 2 ^ rest)
      generalize out.getD (i + limbs) 0 = o at hset ⊢
      generalize limb (a.getD i 0 * 2 ^ rest) = d at hset hsplit ⊢
      generalize a.getD i 0 * 2 ^ rest / 2 ^ 32 = c at hsplit ⊢
      generalize ofDigits kBase (out.set (i + limbs) (o + d)) = v at hset ⊢
      apply Nat.add_right_cancel (m := kBase ^ (i + limbs) * o)
      calc v + kBase ^ (i + limbs + 1) * c + kBase ^ (i + limbs) * o
          = (v + kBase ^ (i + limbs) * o) + kBase ^ (i + limbs) * (kBase * c) := by ring
        _ = kBase ^ limbs * 2 ^ rest * ofDigits kBase (a.take i) +
            kBase ^ (i + limbs) * (d + kBase * c) + kBase ^ (i + limbs) * o := by
          rw [hset]
          ring
        _ = _ := by
          rw [← hsplit]
          ring

theorem shiftLeft_spec (ha : Normal a) (bits : Nat) :
    Normal (shiftLeft a bits) ∧ value (shiftLeft a bits) = value a * 2 ^ bits := by
  unfold shiftLeft
  split
  · next h =>
    refine ⟨ha, ?_⟩
    rcases h with rfl | rfl <;> simp [value]
  · obtain ⟨hlt, hvalue⟩ := shiftLoop_spec ha.lt (Nat.mod_lt bits (by decide))
      a.length 0 (replicate (a.length + bits / 32 + 1) 0) (by omega) length_replicate
      (fun d hd => by rw [eq_of_mem_replicate hd]; exact kBase_pos)
      (fun j _ => getD_replicate_zero _ j)
      (by rw [getD_replicate_zero]; exact Nat.two_pow_pos _)
      (by simp [value, Nat.ofDigits_replicate_zero])
    refine ⟨normal_strip hlt, ?_⟩
    show ofDigits kBase (strip _) = _
    rw [ofDigits_strip]
    refine hvalue.trans ?_
    rw [kBase_pow, ← pow_add, Nat.div_add_mod, mul_comm]

theorem shiftRightLoop_lt (n i : Nat) :
    ∀ d ∈ shiftRightLoop a limbs rest n i, d < kBase := by
  induction n generalizing i with
  | zero => intro d hd; cases hd
  | succ n ih =>
    intro d hd
    rcases mem_cons.mp hd with rfl | hd
    · exact limb_lt _
    · exact ih _ d hd

/-- The limb put together from two neighbours. -/
theorem shiftRight_limb {x y rest : Nat} (hx : x < kBase) (hy : y < kBase) (hrest : rest < 32) :
    limb (if rest ≠ 0 then x / 2 ^ rest ||| u64 (y * 2 ^ (32 - rest)) else x) =
      x / 2 ^ rest + 2 ^ (32 - rest) * (y % 2 ^ rest) := by
  have hpow : (2 : Nat) ^ 32 = 2 ^ (32 - rest) * 2 ^ rest := by
    rw [← pow_add]
    congr 1
    omega
  split
  · next hne =>
    have hlow : x / 2 ^ rest < 2 ^ (32 - rest) := by
      apply Nat.div_lt_of_lt_mul
      rw [mul_comm, ← hpow]
      exact hx
    have hfit : y * 2 ^ (32 - rest) < kBase * kBase :=
      Nat.mul_lt_mul'' hy (Nat.pow_lt_pow_right (by decide) (by omega))
    have hrem : x / 2 ^ rest + 2 ^ (32 - rest) * (y % 2 ^ rest) < 2 ^ 32 := by
      have hmod := Nat.mod_lt y (Nat.two_pow_pos rest)
      calc _ < 2 ^ (32 - rest) * (y % 2 ^ rest + 1) := by
            rw [Nat.mul_succ]
            omega
        _ ≤ 2 ^ (32 - rest) * 2 ^ rest := Nat.mul_le_mul_left _ hmod
        _ = 2 ^ 32 := hpow.symm
    rw [u64_eq hfit, Nat.or_comm, mul_comm y, ← Nat.two_pow_add_eq_or_of_lt hlow]
    unfold limb
    -- the bits of the upper limb that do not fit are cut off
    have hsplit : 2 ^ (32 - rest) * y + x / 2 ^ rest =
        2 ^ 32 * (y / 2 ^ rest) + (x / 2 ^ rest + 2 ^ (32 - rest) * (y % 2 ^ rest)) := by
      calc 2 ^ (32 - rest) * y + x / 2 ^ rest
          = 2 ^ (32 - rest) * (2 ^ rest * (y / 2 ^ rest) + y % 2 ^ rest) + x / 2 ^ rest := by
            rw [Nat.div_add_mod]
        _ = _ := by
            rw [hpow]
            ring
    rw [hsplit, Nat.mul_add_mod, Nat.mod_eq_of_lt hrem]
  · next h0 =>
    have : rest = 0 := by omega
    subst this
    rw [pow_zero, Nat.div_one, Nat.mod_one, mul_zero, add_zero]
    exact Nat.mod_eq_of_lt hx

theorem shiftRightLoop_value (ha : ∀ d ∈ a, d < kBase) (hrest : rest < 32) :
    ∀ n i, i + limbs + n = a.length →
      value (shiftRightLoop a limbs rest n i) = value (a.drop (i + limbs)) / 2 ^ rest := by
  intro n
  induction n with
  | zero =>
    intro i hi
    rw [drop_of_length_le (by omega)]
    simp [shiftRightLoop, value]
  | succ n ih =>
    intro i hi
    have hx := getD_lt kBase_pos ha (i + limbs)
    have hy := getD_lt kBase_pos ha (i + limbs + 1)
    have hdigit : limb (if rest ≠ 0 then
          if i + limbs + 1 < a.length then
            a.getD (i + limbs) 0 / 2 ^ rest ||| u64 (a.getD (i + limbs + 1) 0 * 2 ^ (32 - rest))
          else a.getD (i + limbs) 0 / 2 ^ rest
        else a.getD (i + limbs) 0) =
        a.getD (i + limbs) 0 / 2 ^ rest +
          2 ^ (32 - rest) * (a.getD (i + limbs + 1) 0 % 2 ^ rest) := by
      rw [← shiftRight_limb hx hy hrest]
      by_cases hin : i + limbs + 1 < a.length
      · rw [if_pos hin]
      · rw [if_neg hin, getD_eq_zero (l := a) (i := i + limbs + 1) (by omega), zero_mul]
        simp [u64]
    have hrec := ih (i + 1) (by omega)
    unfold value at hrec ⊢
    unfold shiftRightLoop
    simp only [hdigit]
    rw [Nat.ofDigits_cons, hrec, show i + 1 + limbs = i + limbs + 1 by omega, ofDigits_drop a (i + limbs)]
    -- the number above the limb, and its low bits
    have hnext : ofDigits kBase (a.drop (i + limbs + 1)) % 2 ^ rest =
        a.getD (i + limbs + 1) 0 % 2 ^ rest := by
      rw [ofDigits_drop a (i + limbs + 1), show kBase = 2 ^ rest * 2 ^ (32 - rest) by
        rw [← pow_add]; unfold kBase; congr 1; omega, mul_assoc, Nat.add_mul_mod_self_left]
    rw [← hnext]
    generalize ofDigits kBase (a.drop (i + limbs + 1)) = above
    generalize a.getD (i + limbs) 0 = x
    have hsplit := Nat.div_add_mod above (2 ^ rest)
    have hbase : kBase = 2 ^ rest * 2 ^ (32 - rest) := by
      rw [← pow_add]
      unfold kBase
      congr 1
      omega
    have hshifted : (x + kBase * above) / 2 ^ rest = x / 2 ^ rest + 2 ^ (32 - rest) * above := by
      rw [hbase, mul_assoc, Nat.add_mul_div_left _ _ (Nat.two_pow_pos rest)]
    rw [hshifted, hbase]
    calc x / 2 ^ rest + 2 ^ (32 - rest) * (above % 2 ^ rest) +
          2 ^ rest * 2 ^ (32 - rest) * (above / 2 ^ rest)
        = x / 2 ^ rest + 2 ^ (32 - rest) * (2 ^ rest * (above / 2 ^ rest) + above % 2 ^ rest) := by
          ring
      _ = _ := by rw [hsplit]

theorem shiftRight_spec (ha : ∀ d ∈ a, d < kBase) (bits : Nat) :
    Normal (shiftRight a bits) ∧ value (shiftRight a bits) = value a / 2 ^ bits := by
  unfold shiftRight
  rw [div_pow_bits, value_div ha]
  split
  · next h =>
    rw [drop_of_length_le h]
    exact ⟨normal_nil, by simp [value]⟩
  · refine ⟨normal_strip (shiftRightLoop_lt _ _), ?_⟩
    show ofDigits kBase (strip _) = _
    rw [ofDigits_strip]
    have hloop : value (shiftRightLoop a (bits / 32) (bits % 32) (a.length - bits / 32) 0) =
        value (a.drop (0 + bits / 32)) / 2 ^ (bits % 32) :=
      shiftRightLoop_value ha (Nat.mod_lt bits (by decide)) (a.length - bits / 32) 0 (by omega)
    rwa [zero_add] at hloop

/-! ## Division -/

/-- A number that a shift has made even takes in its lowest bit. -/
theorem setBit_zero_spec (ha : Normal a) (heven : value a % 2 = 0) :
    Normal (setBit a 0) ∧ value (setBit a 0) = value a + 1 := by
  cases a with
  | nil => exact ⟨⟨by decide, by decide⟩, by decide⟩
  | cons d l =>
    have hbit : value (d :: l) / 2 ^ 0 % 2 = 0 := by simpa using heven
    obtain ⟨heq, hvalue, hlt⟩ := setBit_spec ha.lt (i := 0) (by simp) hbit
    refine ⟨⟨hlt, ?_⟩, hvalue⟩
    have htop := ha.top
    rw [heq]
    cases l with
    | nil => simp
    | cons e l => simpa using htop

/-- The remainder with the next bit of the dividend taken in. -/
theorem takeBit_spec (ha : ∀ d ∈ a, d < kBase) {remainder : Limbs} (hr : Normal remainder)
    (bit : Nat) :
    Normal (if bitAt a bit then setBit (shiftLeft remainder 1) 0 else shiftLeft remainder 1) ∧
      value (if bitAt a bit then setBit (shiftLeft remainder 1) 0 else shiftLeft remainder 1) =
        2 * value remainder + value a / 2 ^ bit % 2 := by
  obtain ⟨hshift, hdouble⟩ := shiftLeft_spec hr 1
  rw [bitAt_eq ha]
  by_cases hone : value a / 2 ^ bit % 2 = 0
  · rw [if_neg (by simpa using hone), hone, hdouble]
    exact ⟨hshift, by omega⟩
  · obtain ⟨hn, hv⟩ := setBit_zero_spec hshift (by rw [hdouble]; omega)
    rw [if_pos (by simpa using hone), hv, hdouble]
    exact ⟨hn, by omega⟩

/-- After the bits from `bit` up: the dividend's high part is the quotient's times the divisor
    and the remainder. -/
structure Divided (a b : Limbs) (bit : Nat) (quotient remainder : Limbs) : Prop where
  size : quotient.length = a.length
  lt : ∀ d ∈ quotient, d < kBase
  normal : Normal remainder
  small : value remainder < value b
  split : ∃ q, value quotient = 2 ^ bit * q ∧ value a / 2 ^ bit = q * value b + value remainder

theorem divideLoop_spec (ha : ∀ d ∈ a, d < kBase) (hb : Normal b) :
    ∀ bit (quotient remainder : Limbs), bit ≤ 32 * a.length →
      Divided a b bit quotient remainder →
      Divided a b 0 (divideLoop a b bit quotient remainder).1
        (divideLoop a b bit quotient remainder).2 := by
  intro bit
  induction bit with
  | zero => intro quotient remainder _ h; exact h
  | succ bit ih =>
    intro quotient remainder hbit h
    unfold divideLoop
    obtain ⟨htaken, hvalue⟩ := takeBit_spec ha h.normal bit
    obtain ⟨q, hq, hsplit⟩ := h.split
    simp only
    generalize (if bitAt a bit then setBit (shiftLeft remainder 1) 0
      else shiftLeft remainder 1) = taken at htaken hvalue ⊢
    have hhigh : value a / 2 ^ bit = 2 * q * value b + value taken := by
      rw [pow_succ, ← Nat.div_div_eq_div_mul] at hsplit
      rw [hvalue, Nat.mul_assoc, ← Nat.add_assoc, ← Nat.mul_add, ← hsplit, Nat.div_add_mod]
    have hlt : value taken < value b + value b := by
      have hbit : value a / 2 ^ bit % 2 < 2 := Nat.mod_lt _ (by decide)
      have hsmall := h.small
      omega
    rw [Nat.pow_succ, Nat.mul_assoc] at hq
    split
    · next hge =>
      rw [compareMagnitude_nonneg htaken hb] at hge
      obtain ⟨hn, hv⟩ := subMagnitude_spec htaken hb hge
      have hfree : value quotient / 2 ^ bit % 2 = 0 := by
        rw [hq, Nat.mul_div_cancel_left _ (Nat.two_pow_pos bit), Nat.mul_mod_right]
      have hin : bit / 32 < quotient.length := by
        rw [h.size]
        exact Nat.div_lt_of_lt_mul hbit
      obtain ⟨heq, hset, hlimbs⟩ := setBit_spec h.lt hin hfree
      refine ih _ _ (Nat.le_of_succ_le hbit) ⟨?_, hlimbs, hn, ?_, 2 * q + 1, ?_, ?_⟩
      · rw [heq, length_set, h.size]
      · rw [hv]
        exact Nat.sub_lt_left_of_lt_add hge hlt
      · rw [hset, hq, Nat.mul_add, Nat.mul_one]
      · rw [hv, hhigh, Nat.add_mul, Nat.one_mul, Nat.add_assoc, Nat.add_sub_cancel' hge]
    · next hless =>
      rw [compareMagnitude_nonneg htaken hb, not_le] at hless
      exact ih _ _ (Nat.le_of_succ_le hbit) ⟨h.size, h.lt, htaken, hless, 2 * q, hq, hhigh⟩

theorem divideMagnitude_spec (ha : Normal a) (hb : Normal b) (hpos : 0 < value b) :
    Normal (divideMagnitude a b).1 ∧ Normal (divideMagnitude a b).2 ∧
      value (divideMagnitude a b).1 = value a / value b ∧
      value (divideMagnitude a b).2 = value a % value b := by
  obtain ⟨hup, hdown⟩ := bitLength_spec ha
  have hbits : bitLength a ≤ 32 * a.length := by
    by_cases hnil : a = []
    · rw [hnil]
      simp [bitLength]
    · have hlt := ofDigits_lt one_lt_kBase ha.lt
      have hle := lt_of_le_of_lt (hdown hnil) hlt
      rw [kBase_pow] at hle
      have := (Nat.pow_lt_pow_iff_right (by decide)).mp hle
      omega
  have hdone := divideLoop_spec ha.lt hb (bitLength a) (replicate a.length 0) [] hbits
    ⟨length_replicate, fun d hd => by rw [eq_of_mem_replicate hd]; exact kBase_pos,
      normal_nil, hpos, 0, by simp [value, Nat.ofDigits_replicate_zero], by
        rw [Nat.div_eq_of_lt hup]
        simp [value]⟩
  unfold divideMagnitude
  simp only
  generalize (divideLoop a b (bitLength a) (replicate a.length 0) []).1 = quotient at hdone ⊢
  generalize (divideLoop a b (bitLength a) (replicate a.length 0) []).2 = remainder at hdone ⊢
  obtain ⟨q, hq, hsplit⟩ := hdone.split
  rw [pow_zero, one_mul] at hq
  rw [pow_zero, Nat.div_one] at hsplit
  have hsmall := hdone.small
  refine ⟨normal_strip hdone.lt, hdone.normal, ?_, ?_⟩
  · show ofDigits kBase (strip quotient) = _
    rw [ofDigits_strip]
    change value quotient = _
    rw [hq, hsplit, mul_comm, Nat.mul_add_div hpos, Nat.div_eq_of_lt hsmall, add_zero]
  · rw [hsplit, mul_comm, Nat.mul_add_mod, Nat.mod_eq_of_lt hsmall]

end

end Camel.Literal
