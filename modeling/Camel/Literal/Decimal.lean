import Mathlib
import Camel.Literal.BigInt

/-! # Decimal Text

    Digits in any radix are read from the highest down. A value is written nine
    digits at a time, from the lowest up, each chunk but the highest filled with
    zeros to its nine places.
-/

namespace Camel.Literal

open Lib List
open Nat (ofDigits)

/-! ## The Operations -/

def digitOf (c : Char) : Int :=
  if '0' ≤ c ∧ c ≤ '9' then c.toNat - '0'.toNat
  else if 'a' ≤ c ∧ c ≤ 'f' then c.toNat - 'a'.toNat + 10
  else if 'A' ≤ c ∧ c ≤ 'F' then c.toNat - 'A'.toNat + 10
  else -1

def fromDigitsLoop (factor : BigInt) (radix : Int) : List Char → BigInt → Option BigInt
  | [], out => some out
  | c :: text, out =>
    let digit := digitOf c
    if digit < 0 ∨ radix ≤ digit then none
    else fromDigitsLoop factor radix text ((out.mul factor).add (BigInt.ofInt64 digit))

/-- `text` is digits only, in `radix`. -/
def BigInt.fromDigits (text : List Char) (radix : Int) : Option BigInt :=
  if text = [] then none else fromDigitsLoop (.ofInt64 radix) radix text ⟨[], false⟩

def kChunk : Nat := 1000000000

/-- One round from the highest limb down: the limbs of the quotient, and the remainder. -/
def divideChunk : Limbs → Limbs × Nat
  | [] => ([], 0)
  | d :: work =>
    let (quotient, remainder) := divideChunk work
    let current := u64 (remainder * 2 ^ 32) ||| d
    (limb (current / kChunk) :: quotient, current % kChunk)

/-- `while (!work.empty())`, for at most so many rounds. -/
def decimalLoop : Nat → Limbs → List Char → Option (List Char)
  | 0, work, text => if work = [] then some text else none
  | n + 1, work, text =>
    if work = [] then some text
    else
      let (quotient, remainder) := divideChunk work
      let work := strip quotient
      let part := Nat.toDigits 10 remainder
      let part := if work ≠ [] then List.replicate (9 - part.length) '0' ++ part else part
      decimalLoop n work (part ++ text)

def BigInt.toDecimal (a : BigInt) : Option (List Char) :=
  if a.limbs = [] then some ['0']
  else
    (decimalLoop (bitLength a.limbs) a.limbs []).map fun text =>
      if a.neg then '-' :: text else text

/-! ## Reading Digits -/

theorem digitOf_le (c : Char) : digitOf c < 16 := by
  unfold digitOf
  split
  · next h =>
    have : c.toNat ≤ '9'.toNat := h.2
    have hnine : '9'.toNat = 57 := rfl
    have hzero : '0'.toNat = 48 := rfl
    omega
  · split
    · next h =>
      have : c.toNat ≤ 'f'.toNat := h.2
      have hf : 'f'.toNat = 102 := rfl
      have ha : 'a'.toNat = 97 := rfl
      omega
    · split
      · next h =>
        have : c.toNat ≤ 'F'.toNat := h.2
        have hf : 'F'.toNat = 70 := rfl
        have ha : 'A'.toNat = 65 := rfl
        omega
      · decide

/-- The number the digits write, the highest first. -/
def positional (radix : Int) (text : List Char) (v : Int) : Int :=
  text.foldl (fun v c => v * radix + digitOf c) v

theorem fromDigitsLoop_spec {radix : Int} (hlow : -2 ^ 63 ≤ radix) (hhigh : radix < 2 ^ 63)
    (text : List Char) {out : BigInt} (hout : out.Normal) :
    ((∀ c ∈ text, 0 ≤ digitOf c ∧ digitOf c < radix) →
      ∃ n, fromDigitsLoop (.ofInt64 radix) radix text out = some n ∧ n.Normal ∧
        n.toInt = positional radix text out.toInt) ∧
    ((∃ c ∈ text, ¬ (0 ≤ digitOf c ∧ digitOf c < radix)) →
      fromDigitsLoop (.ofInt64 radix) radix text out = none) := by
  induction text generalizing out with
  | nil => exact ⟨fun _ => ⟨out, rfl, hout, rfl⟩, fun ⟨c, hc, _⟩ => absurd hc not_mem_nil⟩
  | cons c text ih =>
    by_cases hc : 0 ≤ digitOf c ∧ digitOf c < radix
    · have hdigit := digitOf_le c
      obtain ⟨hradix, hvradix⟩ := BigInt.ofInt64_spec hlow hhigh
      obtain ⟨hdn, hdv⟩ := BigInt.ofInt64_spec (v := digitOf c) (by omega) (by omega)
      obtain ⟨hmul, hvmul⟩ := BigInt.mul_spec hout hradix
      obtain ⟨hadd, hvadd⟩ := BigInt.add_spec hmul hdn
      obtain ⟨hdigits, hother⟩ := ih hadd
      rw [hvadd, hvmul, hvradix, hdv] at hdigits
      have hstep : fromDigitsLoop (.ofInt64 radix) radix (c :: text) out =
          fromDigitsLoop (.ofInt64 radix) radix text
            ((out.mul (.ofInt64 radix)).add (.ofInt64 (digitOf c))) :=
        if_neg (by omega)
      rw [hstep]
      refine ⟨fun h => hdigits fun d hd => h d (mem_cons_of_mem c hd), fun ⟨d, hd, hbad⟩ => ?_⟩
      rcases mem_cons.mp hd with rfl | hd
      · exact absurd hc hbad
      · exact hother ⟨d, hd, hbad⟩
    · exact ⟨fun h => absurd (h c mem_cons_self) hc, fun _ => if_pos (by omega)⟩

theorem BigInt.fromDigits_spec {radix : Int} (hlow : -2 ^ 63 ≤ radix) (hhigh : radix < 2 ^ 63)
    (text : List Char) :
    if text ≠ [] ∧ ∀ c ∈ text, 0 ≤ digitOf c ∧ digitOf c < radix then
      ∃ n, fromDigits text radix = some n ∧ n.Normal ∧ n.toInt = positional radix text 0
    else fromDigits text radix = none := by
  obtain ⟨hdigits, hother⟩ := fromDigitsLoop_spec hlow hhigh text
    (show BigInt.Normal ⟨[], false⟩ from ⟨normal_nil, fun h => Bool.noConfusion h⟩)
  unfold fromDigits
  split
  · next h =>
    rw [if_neg h.1]
    exact hdigits h.2
  · next h =>
    by_cases hnil : text = []
    · rw [if_pos hnil]
    · rw [if_neg hnil]
      -- some character is no digit of the radix
      have hbad : ¬ ∀ c ∈ text, 0 ≤ digitOf c ∧ digitOf c < radix := fun hall => h ⟨hnil, hall⟩
      push Not at hbad
      obtain ⟨c, hc, hdigit⟩ := hbad
      exact hother ⟨c, hc, fun hd => absurd hd.2 (not_lt.mpr (hdigit hd.1))⟩

theorem BigInt.fromDigits_of_digits {radix : Int} (hlow : -2 ^ 63 ≤ radix) (hhigh : radix < 2 ^ 63)
    {text : List Char} (hne : text ≠ []) (h : ∀ c ∈ text, 0 ≤ digitOf c ∧ digitOf c < radix) :
    ∃ n, fromDigits text radix = some n ∧ n.Normal ∧ n.toInt = positional radix text 0 := by
  have hspec := fromDigits_spec hlow hhigh text
  rwa [if_pos ⟨hne, h⟩] at hspec

/-! ## Writing Decimals -/

/-- A chunk behind others is filled with zeros. -/
theorem toDigits_append_chunk {n : Nat} (hn : 0 < n) (k : Nat) :
    ∀ r, r < 10 ^ (k + 1) → Nat.toDigits 10 (10 ^ (k + 1) * n + r) =
      Nat.toDigits 10 n ++ (List.replicate (k + 1 - (Nat.toDigits 10 r).length) '0' ++
        Nat.toDigits 10 r) := by
  induction k with
  | zero =>
    intro r hr
    rw [zero_add, pow_one] at *
    rw [← Nat.toDigits_append_toDigits (by decide) hn hr, Nat.toDigits_of_lt_base hr]
    rfl
  | succ k ih =>
    intro r hr
    have hten : 10 ^ (k + 1 + 1) = 10 * 10 ^ (k + 1) := Nat.pow_succ' ..
    have hdigit : r % 10 < 10 := Nat.mod_lt r (by decide)
    have hhigh : r / 10 < 10 ^ (k + 1) := by omega
    have hpos : 0 < 10 ^ (k + 1) * n + r / 10 :=
      Nat.add_pos_left (mul_pos (Nat.pow_pos (by decide)) hn) _
    -- the lowest digit apart, the rest by induction
    have hsplit : 10 ^ (k + 1 + 1) * n + r = 10 * (10 ^ (k + 1) * n + r / 10) + r % 10 := by
      rw [hten, mul_add, ← mul_assoc]
      omega
    rw [hsplit, ← Nat.toDigits_append_toDigits (by decide) hpos hdigit, ih _ hhigh,
      Nat.toDigits_of_lt_base hdigit]
    by_cases h0 : r / 10 = 0
    · have hr10 : r < 10 := by omega
      rw [h0, Nat.toDigits_zero, Nat.toDigits_of_lt_base hr10, Nat.mod_eq_of_lt hr10]
      have hzeros : List.replicate (k + 1 + 1 - 1) '0' = List.replicate (k + 1 - 1) '0' ++ ['0'] :=
        replicate_succ' ..
      rw [length_singleton, length_singleton, hzeros]
      simp
    · have hr10 : Nat.toDigits 10 r = Nat.toDigits 10 (r / 10) ++ [Nat.digitChar (r % 10)] := by
        rw [← Nat.toDigits_of_lt_base hdigit,
          Nat.toDigits_append_toDigits (by decide) (pos_of_ne_zero h0) hdigit, Nat.div_add_mod]
      rw [hr10, length_append, length_singleton, Nat.add_sub_add_right]
      simp

theorem divideChunk_spec {work : Limbs} (hwork : ∀ d ∈ work, d < kBase) :
    (∀ d ∈ (divideChunk work).1, d < kBase) ∧ (divideChunk work).2 < kChunk ∧
      value work = kChunk * value (divideChunk work).1 + (divideChunk work).2 := by
  induction work with
  | nil =>
    refine ⟨?_, by decide, rfl⟩
    intro d hd
    cases hd
  | cons d work ih =>
    obtain ⟨hlt, hsmall, hvalue⟩ := ih fun e he => hwork e (mem_cons_of_mem d he)
    have hd : d < 2 ^ 32 := hwork d (by simp)
    unfold divideChunk
    generalize divideChunk work = round at hlt hsmall hvalue ⊢
    obtain ⟨quotient, remainder⟩ := round
    simp only at *
    have hfit : remainder * 2 ^ 32 < kBase * kBase := by
      unfold kBase kChunk at *
      omega
    have hcurrent : u64 (remainder * 2 ^ 32) ||| d = 2 ^ 32 * remainder + d := by
      rw [u64_eq hfit, mul_comm, Nat.two_pow_add_eq_or_of_lt hd]
    rw [hcurrent]
    have hquotient : limb ((2 ^ 32 * remainder + d) / kChunk) = (2 ^ 32 * remainder + d) / kChunk := by
      unfold limb
      apply Nat.mod_eq_of_lt
      unfold kChunk at *
      omega
    refine ⟨?_, Nat.mod_lt _ (by decide), ?_⟩
    · intro e he
      rcases mem_cons.mp he with rfl | he
      · exact limb_lt _
      · exact hlt e he
    · have hdiv := Nat.div_add_mod (2 ^ 32 * remainder + d) kChunk
      rw [hquotient]
      unfold value at hvalue ⊢
      rw [Nat.ofDigits_cons, Nat.ofDigits_cons, hvalue]
      generalize (2 ^ 32 * remainder + d) / kChunk = q at hdiv ⊢
      generalize (2 ^ 32 * remainder + d) % kChunk = r at hdiv ⊢
      calc d + kBase * (kChunk * ofDigits kBase quotient + remainder)
          = (kBase * remainder + d) + kBase * (kChunk * ofDigits kBase quotient) := by ring
        _ = (kChunk * q + r) + kBase * (kChunk * ofDigits kBase quotient) := by
          rw [hdiv]
          rfl
        _ = kChunk * (q + kBase * ofDigits kBase quotient) + r := by ring

/-- The digits of the number are those of what is left to write, and then the text. -/
theorem decimalLoop_spec {work : Limbs} (hwork : Normal work) (hne : work ≠ []) (n : Nat)
    (hn : value work < 2 ^ n) (text : List Char) :
    decimalLoop n work text = some (Nat.toDigits 10 (value work) ++ text) := by
  induction n generalizing work text with
  | zero =>
    have hzero : value work = 0 := by omega
    exact absurd ((NormalDigits.eq_nil_iff kBase_pos hwork).mpr hzero) hne
  | succ n ih =>
    obtain ⟨hlt, hsmall, hvalue⟩ := divideChunk_spec hwork.lt
    unfold decimalLoop
    rw [if_neg hne]
    generalize divideChunk work = round at hlt hsmall hvalue ⊢
    obtain ⟨quotient, remainder⟩ := round
    simp only at *
    have hrest : Normal (strip quotient) := normal_strip hlt
    have hsame : value (strip quotient) = value quotient := ofDigits_strip quotient
    have hnil := NormalDigits.eq_nil_iff kBase_pos hrest
    change strip quotient = [] ↔ value (strip quotient) = 0 at hnil
    rw [hvalue, ← hsame]
    by_cases h0 : strip quotient = []
    · rw [hnil.mp h0, h0]
      cases n <;> simp [decimalLoop]
    · have hpos : 0 < value (strip quotient) := by
        have := mt hnil.mpr h0
        omega
      have hless : value (strip quotient) < 2 ^ n := by
        rw [pow_succ] at hn
        unfold kChunk at hvalue
        omega
      rw [if_pos h0, ih hrest h0 hless]
      have hchunk := toDigits_append_chunk hpos 8 remainder hsmall
      rw [show kChunk = 10 ^ (8 + 1) from rfl, hchunk]
      simp

theorem BigInt.toDecimal_eq {a : BigInt} (ha : a.Normal) :
    a.toDecimal = some (toString a.toInt).toList := by
  have hneg := ha.neg_iff
  have habs := toInt_natAbs a
  rw [Int.toString_eq_repr, Int.repr_eq_if]
  unfold toDecimal
  split
  · next h =>
    rw [(toInt_eq_zero_iff ha).mpr h]
    decide
  · next h =>
    rw [decimalLoop_spec ha.limbs h _ (bitLength_spec ha.limbs).1 [], append_nil, Option.map_some,
      ← habs]
    by_cases hn : a.neg = true
    · have hlt := hneg.mp hn
      rw [if_pos hn, if_neg (by omega), String.toList_append, Nat.toList_repr,
        show (-a.toInt).toNat = a.toInt.natAbs by omega]
      rfl
    · have hge : 0 ≤ a.toInt := by
        rw [hneg] at hn
        omega
      rw [if_neg hn, if_pos hge, Nat.toList_repr, show a.toInt.toNat = a.toInt.natAbs by omega]

end Camel.Literal

/-! # The Operations Are Those of the Integers

    Every value is made by the constructors and the operations, so it is in normal
    form; on normal forms each operation is the one on the integers. The exception
    is the right shift, which shifts the magnitude and keeps the sign.
-/

namespace Camel.Literal

open BigInt

/-- The values a program can come to hold. -/
inductive Made : BigInt → Prop
  | zero : Made ⟨[], false⟩
  | ofInt64 {v : Int} : -2 ^ 63 ≤ v → v < 2 ^ 63 → Made (.ofInt64 v)
  | fromDigits {text : List Char} {radix : Int} {a : BigInt} :
      -2 ^ 31 ≤ radix → radix < 2 ^ 31 → BigInt.fromDigits text radix = some a → Made a
  | abs {a : BigInt} : Made a → Made a.abs
  | negated {a : BigInt} : Made a → Made a.negated
  | add {a b : BigInt} : Made a → Made b → Made (a.add b)
  | sub {a b : BigInt} : Made a → Made b → Made (a.sub b)
  | mul {a b : BigInt} : Made a → Made b → Made (a.mul b)
  | quotient {a b : BigInt} : Made a → Made b → b.isZero = false → Made (a.divMod b).1
  | remainder {a b : BigInt} : Made a → Made b → b.isZero = false → Made (a.divMod b).2
  | shiftedLeft {a : BigInt} (bits : Nat) : Made a → Made (a.shiftedLeft bits)
  | shiftedRight {a : BigInt} (bits : Nat) : Made a → Made (a.shiftedRight bits)

theorem toInt_ne_zero {b : BigInt} (hb : b.Normal) (h : b.isZero = false) : b.toInt ≠ 0 := by
  rw [ne_eq, toInt_eq_zero_iff hb]
  simpa [isZero] using h

theorem fromDigits_normal {text : List Char} {radix : Int} {a : BigInt} (hlow : -2 ^ 31 ≤ radix)
    (hhigh : radix < 2 ^ 31) (h : BigInt.fromDigits text radix = some a) : a.Normal := by
  have hspec := @BigInt.fromDigits_spec radix (by omega) (by omega) text
  split at hspec
  · obtain ⟨n, hn, hnormal, -⟩ := hspec
    rw [h, Option.some.injEq] at hn
    rw [hn]
    exact hnormal
  · rw [h] at hspec
    cases hspec

theorem Made.normal {a : BigInt} (h : Made a) : a.Normal := by
  induction h with
  | zero => exact ⟨Lib.normal_nil, fun h => Bool.noConfusion h⟩
  | ofInt64 hlow hhigh => exact (ofInt64_spec hlow hhigh).1
  | fromDigits hlow hhigh h => exact fromDigits_normal hlow hhigh h
  | abs _ ih => exact (abs_spec ih).1
  | negated _ ih => exact (negated_spec ih).1
  | add _ _ iha ihb => exact (add_spec iha ihb).1
  | sub _ _ iha ihb => exact (sub_spec iha ihb).1
  | mul _ _ iha ihb => exact (mul_spec iha ihb).1
  | quotient _ _ h0 iha ihb => exact (divMod_spec iha ihb (toInt_ne_zero ihb h0)).1
  | remainder _ _ h0 iha ihb => exact (divMod_spec iha ihb (toInt_ne_zero ihb h0)).2.1
  | shiftedLeft bits _ ih => exact (shiftedLeft_spec ih bits).1
  | shiftedRight bits _ ih => exact (shiftedRight_spec ih bits).1

/-- What division promises, in the words of the integers. -/
structure DividesInto (a b : Int) (q r : Int) : Prop where
  split : a = q * b + r
  small : |r| < |b|
  sign : r ≠ 0 → Int.sign r = Int.sign a

theorem dividesInto_tdiv {a b : Int} (hb : b ≠ 0) : DividesInto a b (a.tdiv b) (a.tmod b) := by
  refine ⟨?_, ?_, fun hr => ?_⟩
  · rw [mul_comm, Int.mul_tdiv_add_tmod]
  · rw [Int.abs_eq_natAbs, Int.abs_eq_natAbs, Int.natAbs_tmod]
    exact_mod_cast Nat.mod_lt _ (Int.natAbs_pos.mpr hb)
  · rcases lt_trichotomy a 0 with h | rfl | h
    · have hle : a.tmod b ≤ 0 := by
        rw [← Int.neg_neg a, Int.neg_tmod]
        have := Int.tmod_nonneg b (a := -a) (by omega)
        omega
      rw [Int.sign_eq_neg_one_of_neg h, Int.sign_eq_neg_one_of_neg (by omega)]
    · rw [Int.zero_tmod] at hr
      exact absurd rfl hr
    · have := Int.tmod_nonneg b (a := a) (by omega)
      rw [Int.sign_eq_one_of_pos h, Int.sign_eq_one_of_pos (by omega)]

/-- The operations on two values agree with those on the integers, and their results are in
    normal form. -/
structure Exact (a b : BigInt) : Prop where
  unique : a.toInt = b.toInt → a = b
  abs : a.abs.Normal ∧ a.abs.toInt = |a.toInt|
  negated : a.negated.Normal ∧ a.negated.toInt = -a.toInt
  compare : a.compare b = Int.sign (a.toInt - b.toInt)
  add : (a.add b).Normal ∧ (a.add b).toInt = a.toInt + b.toInt
  sub : (a.sub b).Normal ∧ (a.sub b).toInt = a.toInt - b.toInt
  mul : (a.mul b).Normal ∧ (a.mul b).toInt = a.toInt * b.toInt
  divMod : b.toInt ≠ 0 → (a.divMod b).1.Normal ∧ (a.divMod b).2.Normal ∧
    DividesInto a.toInt b.toInt (a.divMod b).1.toInt (a.divMod b).2.toInt
  shiftedLeft (bits : Nat) :
    (a.shiftedLeft bits).Normal ∧ (a.shiftedLeft bits).toInt = a.toInt * 2 ^ bits
  shiftedRight (bits : Nat) :
    (a.shiftedRight bits).Normal ∧ (a.shiftedRight bits).toInt = a.toInt.tdiv (2 ^ bits)
  toDecimal : a.toDecimal = some (toString a.toInt).toList
  fitsInt64 : a.fitsInt64 = true ↔ -2 ^ 63 ≤ a.toInt ∧ a.toInt < 2 ^ 63
  toInt64 : a.fitsInt64 = true → a.toInt64 = a.toInt

theorem exact_of_normal {a b : BigInt} (ha : a.Normal) (hb : b.Normal) : Exact a b where
  unique := ha.ext hb
  abs := abs_spec ha
  negated := negated_spec ha
  compare := compare_spec ha hb
  add := add_spec ha hb
  sub := sub_spec ha hb
  mul := mul_spec ha hb
  divMod hne := by
    obtain ⟨hq, hr, hquotient, hremainder⟩ := divMod_spec ha hb hne
    refine ⟨hq, hr, ?_⟩
    rw [hquotient, hremainder]
    exact dividesInto_tdiv hne
  shiftedLeft := shiftedLeft_spec ha
  shiftedRight := shiftedRight_spec ha
  toDecimal := toDecimal_eq ha
  fitsInt64 := fitsInt64_iff ha
  toInt64 := toInt64_eq ha

/-- The values the program makes are normal forms, the operations on them are those of the
    integers, and so are the two ways in: an `int64_t`, and digits in a radix. -/
theorem bigInt_exact :
    (∀ a, Made a → a.Normal) ∧ (∀ a b, Made a → Made b → Exact a b) ∧
      (∀ v : Int, -2 ^ 63 ≤ v → v < 2 ^ 63 →
        (BigInt.ofInt64 v).Normal ∧ (BigInt.ofInt64 v).toInt = v) ∧
      ∀ (text : List Char) (radix : Int), -2 ^ 31 ≤ radix → radix < 2 ^ 31 →
        if text ≠ [] ∧ ∀ c ∈ text, 0 ≤ digitOf c ∧ digitOf c < radix then
          ∃ n, BigInt.fromDigits text radix = some n ∧ n.Normal ∧
            n.toInt = positional radix text 0
        else BigInt.fromDigits text radix = none := by
  refine ⟨fun a ha => ha.normal, fun a b ha hb => exact_of_normal ha.normal hb.normal,
    fun v hlow hhigh => ofInt64_spec hlow hhigh, fun text radix hlow hhigh => ?_⟩
  exact fromDigits_spec (by omega) (by omega) text

/-- `4294967295 + 1` carries into a second limb. -/
theorem bigInt_exact_carry :
    ((BigInt.ofInt64 4294967295).add (.ofInt64 1)).toInt = 4294967296 := by
  obtain ⟨-, hexact, hint, -⟩ := bigInt_exact
  have hx := hint 4294967295 (by decide) (by decide)
  have hone := hint 1 (by decide) (by decide)
  have hsum := (hexact _ _ (.ofInt64 (v := 4294967295) (by decide) (by decide))
    (.ofInt64 (v := 1) (by decide) (by decide))).add.2
  rw [hsum, hx.2, hone.2]
  rfl

/-- On the integers `-1` shifted right by one is `-1`, rounded down; here it is zero. -/
theorem shiftedRight_negative :
    ¬ ∀ (a : BigInt) (bits : Nat), Made a → (a.shiftedRight bits).toInt = a.toInt / 2 ^ bits := by
  intro h
  have hminus : BigInt.ofInt64 (-1) = ⟨[1], true⟩ := by
    simp [BigInt.ofInt64, limbsOf, limb, u64]
  have hshift := h (.ofInt64 (-1)) 1 (.ofInt64 (by decide) (by decide))
  rw [hminus] at hshift
  exact absurd hshift (by decide)

end Camel.Literal
