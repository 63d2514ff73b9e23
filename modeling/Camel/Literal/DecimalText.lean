import Camel.Lib.Decimals
import Camel.Literal.Decimal
import Camel.Literal.Rational
import Camel.Text.FloatText

/-! # The Decimal Text of a Rational

    A rational is written as its exact decimal where that terminates, and otherwise as a quotient
    that is rounded to so many significant digits.
-/

namespace Camel.Literal

open Camel.Lib List Option
open Camel.Text (Denotes RealText IsDigits dropZeros isDecimalDigit)

/-! ## The Exact Decimal -/

/-- The factors of two of a limb that is not zero. -/
def lowZeros (value : Nat) : Nat :=
  if value % 2 = 0 ∧ value ≠ 0 then lowZeros (value / 2) + 1 else 0
  termination_by value
  decreasing_by omega

def trailingZeros : Limbs → Nat → Nat
  | [], _ => 0
  | limb :: limbs, count => if limb = 0 then trailingZeros limbs (count + 32) else count + lowZeros limb

def BigInt.trailingZeroBits (a : BigInt) : Nat := trailingZeros a.limbs 0

/-- Whether a power of five divides. A power of more bits does not. -/
def dividesFives (reduced : BigInt) (fives : Nat) : Bool :=
  let power := powerOfLimb 5 fives
  power.bits ≤ reduced.bits && (reduced.divMod power).2.isZero

/-- `while (low < high)`. -/
def searchFives (reduced : BigInt) (low high : Nat) : Nat :=
  if low < high then
    let middle := low + (high - low + 1) / 2
    if dividesFives reduced middle then searchFives reduced middle high
    else searchFives reduced low (middle - 1)
  else low
  termination_by high - low
  decreasing_by all_goals omega

/-- The point before the last `places` digits, with zeros in front where these are too few. -/
def insertPoint (digits : List Char) (places : Nat) : List Char :=
  let digits := if digits.length ≤ places
    then List.replicate (places - digits.length + 1) '0' ++ digits else digits
  digits.take (digits.length - places) ++ '.' :: digits.drop (digits.length - places)

/-- A point at the end of a text, which is given from its end. -/
def popPoint : List Char → List Char
  | '.' :: text => text
  | text => text

def signText (value : Rational) : List Char := if value.num.neg then ['-'] else []

def withoutTwos (den : BigInt) : BigInt :=
  let twos := den.trailingZeroBits
  if twos ≠ 0 then den.shiftedRight twos else den

def fivesOf (reduced : BigInt) : Nat := searchFives reduced 0 (min (reduced.bits / 2 + 1) 4096)

def withoutFives (reduced : BigInt) (fives : Nat) : BigInt :=
  if fives ≠ 0 then (reduced.divMod (powerOfLimb 5 fives)).1 else reduced

/-- The factors of a base that are missing at so many places. -/
def padded (numerator : BigInt) (base : Int) (factors places : Nat) : BigInt :=
  if factors < places then numerator.mul (powerOfLimb base (places - factors)) else numerator

def exactDecimal (value : Rational) : Option (List Char) :=
  if value.num.isZero then some ['0']
  else if 32768 < value.den.bits then none
  else
    let twos := value.den.trailingZeroBits
    let reduced := withoutTwos value.den
    let fives := fivesOf reduced
    if (withoutFives reduced fives).isOne = false then none
    else
      let places := max twos fives
      let scaled := padded (padded value.num.abs 2 twos places) 5 fives places
      let digits := scaled.toDecimal.getD []
      if places = 0 then some (signText value ++ digits)
      else some (signText value ++ (popPoint (dropZeros (insertPoint digits places).reverse)).reverse)

/-! ## The Approximate Decimal -/

/-- The double nearest a number, ties to even, of those a small integer times a double reaches. -/
def nearestDouble (q : ℚ) : ℚ :=
  roundEven (q * 2 ^ (52 - Int.log 2 |q|)) * 2 ^ (Int.log 2 |q| - 52)

/-- The double the literal `0.30102999566398120` stands for. -/
def kLog10Of2 : ℚ := 5422874305198591 / 2 ^ 54

/-- Where the first significant digit is, within a digit. -/
def estimate (value : Rational) : Int :=
  let exponent := ⌊nearestDouble (((value.num.abs.bits : Int) - value.den.bits : Int) * kLog10Of2)⌋
  max (-8000) (min 8000 exponent)

/-- The scale, and the quotient and the remainder at it. -/
structure Scaled where
  scale : Int
  quotient : BigInt
  remainder : BigInt
  scaledDen : BigInt

/-- The numerator over the denominator, times ten to the scale. -/
def divideAt (numerator den : BigInt) (scale : Int) : Scaled :=
  let scaledNumerator := if 0 ≤ scale then numerator.mul (powerOfLimb 10 scale.toNat) else numerator
  let scaledDen := if 0 ≤ scale then den else den.mul (powerOfLimb 10 (-scale).toNat)
  let (quotient, remainder) := scaledNumerator.divMod scaledDen
  { scale, quotient, remainder, scaledDen }

@[simp] theorem divideAt_scale (numerator den : BigInt) (scale : Int) :
    (divideAt numerator den scale).scale = scale := rfl

def quotientDigits (s : Scaled) : Nat := (s.quotient.toDecimal.getD []).length

/-- The attempts at the scale; nothing where a scale is out of bounds. -/
def searchScale (numerator den : BigInt) (significant : Nat) : Nat → Scaled → Option Scaled
  | 0, s => some s
  | attempts + 1, s =>
    if 8192 < s.scale ∨ s.scale < -8192 then none
    else
      let s := divideAt numerator den s.scale
      let digits := quotientDigits s
      if digits = significant then some s
      else if digits < significant then
        searchScale numerator den significant attempts
          { s with scale := s.scale + (significant - digits : Nat) }
      else
        searchScale numerator den significant attempts
          { s with scale := s.scale - (digits - significant : Nat) }

/-- Half up at the last digit. -/
def roundQuotient (s : Scaled) : BigInt :=
  if !s.remainder.isZero ∧ 0 ≤ (s.remainder.mul (.ofInt64 2)).compare s.scaledDen then
    s.quotient.add (.ofInt64 1)
  else s.quotient

/-- Digits with the point before or behind them, or between them. -/
def layoutPoint (digits : List Char) (point : Int) : List Char :=
  if point ≤ 0 then ['0', '.'] ++ List.replicate (-point).toNat '0' ++ digits
  else if digits.length ≤ point then digits ++ List.replicate (point - digits.length).toNat '0'
  else digits.take point.toNat ++ '.' :: digits.drop point.toNat

def approximateDecimal (value : Rational) (significant : Nat) : List Char :=
  if value.num.isZero then ['0']
  else
    let zero : BigInt := ⟨[], false⟩
    match searchScale value.num.abs value.den significant 4
        ⟨(significant : Int) - 1 - estimate value, zero, zero, zero⟩ with
    | none => ['0']
    | some s =>
      let digits := (roundQuotient s).toDecimal.getD []
      signText value ++ layoutPoint digits (digits.length - s.scale)

/-! ## The Factors of the Denominator -/

theorem lowZeros_dvd (value : Nat) : 2 ^ lowZeros value ∣ value := by
  induction value using Nat.strongRecOn with
  | ind value ih =>
    unfold lowZeros
    split
    · next h =>
      obtain ⟨half, hhalf⟩ := ih (value / 2) (by omega)
      refine ⟨half, ?_⟩
      rw [pow_succ, mul_right_comm, ← hhalf]
      omega
    · exact one_dvd value

theorem trailingZeros_dvd {limbs : Limbs} (hlimbs : ∀ d ∈ limbs, d < kBase) (count : Nat) :
    2 ^ trailingZeros limbs count ∣ 2 ^ count * value limbs := by
  induction limbs generalizing count with
  | nil => exact dvd_mul_of_dvd_right (by exact dvd_zero _) _
  | cons limb limbs ih =>
    have hvalue : value (limb :: limbs) = limb + kBase * value limbs := rfl
    unfold trailingZeros
    split
    · next hzero =>
      have h := ih (fun d hd => hlimbs d (.tail _ hd)) (count + 32)
      rw [hvalue, hzero, zero_add, show kBase = 2 ^ 32 from rfl, ← mul_assoc, ← pow_add]
      exact h
    · next hne =>
      -- a limb has less than thirty-two factors of two, so those of the limb divide the rest
      have hlow := lowZeros_dvd limb
      have hlt : lowZeros limb < 32 := by
        apply (Nat.pow_lt_pow_iff_right (show 1 < 2 by decide)).1
        exact (Nat.le_of_dvd (pos_of_ne_zero hne) hlow).trans_lt (hlimbs limb mem_cons_self)
      rw [hvalue, pow_add]
      apply Nat.mul_dvd_mul_left
      apply Nat.dvd_add hlow
      apply dvd_mul_of_dvd_left
      exact Nat.pow_dvd_pow 2 hlt.le

theorem BigInt.trailingZeroBits_dvd {a : BigInt} (ha : a.Normal) :
    (2 : Int) ^ a.trailingZeroBits ∣ a.toInt := by
  have h := trailingZeros_dvd ha.limbs.lt 0
  rw [pow_zero, one_mul] at h
  have habs : 2 ^ a.trailingZeroBits ∣ a.toInt.natAbs := by
    rw [toInt_natAbs]
    exact h
  have hint := Int.natCast_dvd.2 habs
  push_cast at hint
  exact hint

/-- A power of five that is found divides. -/
theorem dvd_of_dividesFives {reduced : BigInt} (h : reduced.Normal) {fives : Nat}
    (hdivides : dividesFives reduced fives = true) : (5 : Int) ^ fives ∣ reduced.toInt := by
  obtain ⟨hnormal, hpower⟩ := @powerOfLimb_spec 5 (by decide) (by decide) fives
  unfold dividesFives at hdivides
  dsimp only at hdivides
  rw [Bool.and_eq_true] at hdivides
  have hne : (powerOfLimb 5 fives).toInt ≠ 0 := by
    rw [hpower]
    positivity
  obtain ⟨-, hrem, -, hmod⟩ := BigInt.divMod_spec h hnormal hne
  have hzero := (isZero_iff hrem).1 hdivides.2
  rw [hmod, hpower] at hzero
  exact Int.dvd_of_tmod_eq_zero hzero

/-- The search keeps a power of five that divides at its low end. -/
theorem searchFives_dvd {reduced : BigInt} (h : reduced.Normal) (low high : Nat)
    (hlow : (5 : Int) ^ low ∣ reduced.toInt) : (5 : Int) ^ searchFives reduced low high ∣ reduced.toInt := by
  induction hgap : high - low using Nat.strongRecOn generalizing low high with
  | ind gap ih =>
    unfold searchFives
    split
    · next hlt =>
      dsimp only
      split
      · next hdivides =>
        exact ih _ (by omega) _ _ (dvd_of_dividesFives h hdivides) rfl
      · exact ih _ (by omega) _ _ hlow rfl
    · exact hlow

section Factors

variable {den reduced numerator : BigInt}

theorem withoutTwos_spec (h : den.Normal) :
    (withoutTwos den).Normal ∧ den.toInt = 2 ^ den.trailingZeroBits * (withoutTwos den).toInt := by
  unfold withoutTwos
  dsimp only
  split
  · obtain ⟨hnormal, hvalue⟩ := BigInt.shiftedRight_spec h den.trailingZeroBits
    refine ⟨hnormal, ?_⟩
    rw [hvalue, Int.mul_tdiv_cancel' (BigInt.trailingZeroBits_dvd h)]
  · next hzero =>
    rw [not_not.1 hzero, pow_zero, one_mul]
    exact ⟨h, rfl⟩

theorem withoutFives_spec (h : reduced.Normal) {fives : Nat} (hdvd : (5 : Int) ^ fives ∣ reduced.toInt) :
    (withoutFives reduced fives).Normal ∧
      reduced.toInt = 5 ^ fives * (withoutFives reduced fives).toInt := by
  obtain ⟨hnormal, hpower⟩ := @powerOfLimb_spec 5 (by decide) (by decide) fives
  have hne : (powerOfLimb 5 fives).toInt ≠ 0 := by
    rw [hpower]
    positivity
  unfold withoutFives
  split
  · obtain ⟨hquotient, -, hvalue, -⟩ := BigInt.divMod_spec h hnormal hne
    refine ⟨hquotient, ?_⟩
    rw [hvalue, hpower, Int.mul_tdiv_cancel' hdvd]
  · next hzero =>
    rw [not_not.1 hzero, pow_zero, one_mul]
    exact ⟨h, rfl⟩

/-- What is left being one, the denominator is its twos and its fives. -/
theorem den_of_isOne (h : den.Normal)
    (hone : (withoutFives (withoutTwos den) (fivesOf (withoutTwos den))).isOne = true) :
    den.toInt = 2 ^ den.trailingZeroBits * 5 ^ fivesOf (withoutTwos den) := by
  obtain ⟨htwos, hden⟩ := withoutTwos_spec h
  obtain ⟨hfives, hodd⟩ := withoutFives_spec htwos (searchFives_dvd htwos 0 _ (one_dvd _))
  have hrest : (withoutFives (withoutTwos den) (fivesOf (withoutTwos den))).toInt = 1 :=
    (isOne_iff hfives).1 hone
  rw [hden]
  congr 1
  rw [hodd, show (withoutFives (withoutTwos den) (searchFives (withoutTwos den) 0 _)).toInt = 1
    from hrest, mul_one]
  rfl

theorem padded_spec (h : numerator.Normal) {base : Int} (hlow : -2 ^ 63 ≤ base) (hhigh : base < 2 ^ 63)
    (factors places : Nat) :
    (padded numerator base factors places).Normal ∧
      (padded numerator base factors places).toInt =
        numerator.toInt * base ^ (places - factors) := by
  obtain ⟨hnormal, hpower⟩ := powerOfLimb_spec hlow hhigh (places - factors)
  unfold padded
  split
  · obtain ⟨hproduct, hvalue⟩ := BigInt.mul_spec h hnormal
    exact ⟨hproduct, by rw [hvalue, hpower]⟩
  · next hle =>
    rw [Nat.sub_eq_zero_of_le (le_of_not_gt hle), pow_zero, mul_one]
    exact ⟨h, rfl⟩

/-- The decimal of a number of twos and fives, over a power of ten. -/
theorem over_factors (n : Int) {twos fives places : Nat} (htwos : twos ≤ places)
    (hfives : fives ≤ places) :
    (n : ℚ) / ((2 ^ twos * 5 ^ fives : Int) : ℚ) =
      (n * 2 ^ (places - twos) * 5 ^ (places - fives) : Int) * 10 ^ (-places : Int) := by
  have hten : (10 : ℚ) ^ places =
      2 ^ twos * 2 ^ (places - twos) * (5 ^ fives * 5 ^ (places - fives)) := by
    rw [← pow_add, ← pow_add, Nat.add_sub_cancel' htwos, Nat.add_sub_cancel' hfives, ← mul_pow]
    norm_num
  rw [zpow_neg, zpow_natCast, hten]
  push_cast
  field_simp

end Factors

/-! ## The Exact Decimal Is Exact -/

section Exact

variable {value : Rational}

theorem toDecimal_digits {a : BigInt} (ha : a.Normal) (hnonneg : 0 ≤ a.toInt) :
    a.toDecimal.getD [] = Nat.toDigits 10 a.toInt.toNat := by
  rw [BigInt.toDecimal_eq ha, getD_some, Int.toString_eq_repr, Int.repr_eq_if, if_pos hnonneg,
    Nat.toList_repr]

theorem isDigits_toDigits (n : Nat) : IsDigits (Nat.toDigits 10 n) :=
  ⟨Nat.toDigits_ne_nil, fun _ hc => Text.isDecimalDigit_of_isDigit
    (Nat.isDigit_of_mem_toDigits (by decide) (by decide) hc)⟩

/-- A magnitude under the sign of a rational. -/
def signed (value : Rational) (q : ℚ) : ℚ := if value.num.neg then -q else q

theorem denotes_signed (value : Rational) {t : RealText} (ht : t.WellFormed) :
    Denotes (signText value ++ t.text) (signed value t.value) :=
  ⟨value.num.neg, t, ht, rfl, rfl⟩

theorem signed_abs (h : value.Reduced) : signed value |value.toRat| = value.toRat := by
  have hden : (0 : ℚ) < value.den.toInt := by exact_mod_cast h.pos
  unfold signed Rational.toRat
  split
  · next hneg =>
    have hnum : (value.num.toInt : ℚ) < 0 := by exact_mod_cast h.num.neg_iff.1 hneg
    rw [abs_of_neg (div_neg_of_neg_of_pos hnum hden), neg_neg]
  · next hneg =>
    have hnum : (0 : ℚ) ≤ value.num.toInt := by
      have := mt h.num.neg_iff.2 hneg
      exact_mod_cast not_lt.1 this
    rw [abs_of_nonneg (by positivity)]

theorem abs_toRat (h : value.Reduced) :
    |value.toRat| = (value.num.abs.toInt : ℚ) / value.den.toInt := by
  have hden : (0 : ℚ) < value.den.toInt := by exact_mod_cast h.pos
  unfold Rational.toRat
  rw [(BigInt.abs_spec h.num).2, abs_div, abs_of_pos hden, Int.cast_abs]

/-- The digits behind the point, and those before it: at least one. -/
theorem insertPoint_eq {digits : List Char} (hne : digits ≠ []) (places : Nat) :
    ∃ zeros whole fraction, insertPoint digits places = whole ++ '.' :: fraction ∧
      whole ++ fraction = replicate zeros '0' ++ digits ∧ whole ≠ [] ∧
      fraction.length = places := by
  have hpos := length_pos_of_ne_nil hne
  unfold insertPoint
  dsimp only
  split
  · next hshort =>
    refine ⟨_, _, _, rfl, take_append_drop _ _, ?_, ?_⟩
    · apply ne_nil_of_length_pos
      rw [length_take, length_append, length_replicate]
      omega
    · rw [length_drop, length_append, length_replicate]
      omega
  · next hlong =>
    refine ⟨0, _, _, rfl, take_append_drop _ _, ?_, ?_⟩
    · apply ne_nil_of_length_pos
      rw [length_take]
      omega
    · rw [length_drop]
      omega

/-- Zeros at the end of the fraction go, and the point where no digit stays. -/
theorem trimmed_point {whole fraction : List Char}
    (hfraction : ∀ c ∈ fraction, isDecimalDigit c = true) :
    (popPoint (dropZeros (whole ++ '.' :: fraction).reverse)).reverse =
      (Text.plainReal whole (fraction.reverse.dropWhile (· = '0')).reverse).text := by
  have hreverse : (whole ++ '.' :: fraction).reverse = fraction.reverse ++ '.' :: whole.reverse := by
    rw [reverse_append, reverse_cons, append_assoc]
    rfl
  rw [hreverse, Text.dropZeros_point, Text.plainReal_text]
  cases hkept : fraction.reverse.dropWhile (· = '0') with
  | nil =>
    show whole.reverse.reverse = whole ++ []
    rw [reverse_reverse, append_nil]
  | cons c kept =>
    have hc : isDecimalDigit c = true := by
      apply hfraction c
      apply mem_reverse.1
      apply (dropWhile_sublist _).mem
      rw [hkept]
      exact mem_cons_self
    have hpoint : popPoint (c :: kept ++ '.' :: whole.reverse) = c :: kept ++ '.' :: whole.reverse := by
      rw [cons_append, popPoint]
      rintro _ heq
      rw [(cons.inj heq).1] at hc
      exact absurd hc (by decide)
    rw [hpoint, if_neg (by simp)]
    simp

/-- A whole number over a power of ten, written with its point. -/
theorem pointed_value {n places : Nat} {zeros : Nat} {whole fraction : List Char}
    (hall : whole ++ fraction = replicate zeros '0' ++ Nat.toDigits 10 n)
    (hlength : fraction.length = places) :
    (Text.plainReal whole (fraction.reverse.dropWhile (· = '0')).reverse).value =
      n * 10 ^ (-places : Int) := by
  obtain ⟨trailing, htrailing⟩ := Text.append_zeros fraction
  generalize (fraction.reverse.dropWhile (· = '0')).reverse = kept at htrailing ⊢
  have hdigits : n = 10 ^ trailing * Nat.ofDigitChars 10 (whole ++ kept) 0 := by
    rw [← Text.ofDigitChars_zeros, append_assoc, ← htrailing, hall,
      Text.ofDigitChars_zeros_append, Nat.ofDigitChars_ten_toDigits]
  have hplaces : (-kept.length : Int) = trailing + -places := by
    have := congrArg length htrailing
    rw [length_append, length_replicate] at this
    omega
  rw [Text.plainReal_value, hplaces, zpow_add₀ (by norm_num), zpow_natCast]
  conv_rhs => rw [hdigits]
  push_cast
  ring

theorem denotes_zero : Denotes ['0'] 0 := by
  refine ⟨false, Text.plainReal ['0'] [],
    Text.plainReal_wellFormed Text.isDigits_zero (fun _ h => nomatch h), ?_, ?_⟩
  · rw [Text.plainReal_text]
    rfl
  · rw [if_neg Bool.false_ne_true, Text.plainReal_value]
    show (0 : ℚ) = ((0 : ℕ) : ℚ) * _
    rw [Nat.cast_zero, zero_mul]

/-- A whole number over a power of ten is denoted by its digits with the point before the last
    ones of them. -/
theorem denotes_pointed (value : Rational) {scaled : BigInt} (h : scaled.Normal)
    (hnonneg : 0 ≤ scaled.toInt) (places : Nat) :
    Denotes (if places = 0 then signText value ++ scaled.toDecimal.getD []
      else signText value ++
        (popPoint (dropZeros (insertPoint (scaled.toDecimal.getD []) places).reverse)).reverse)
      (signed value (scaled.toInt * 10 ^ (-places : Int))) := by
  obtain ⟨n, hn⟩ := Int.eq_ofNat_of_zero_le hnonneg
  rw [toDecimal_digits h hnonneg, hn, Int.toNat_natCast, Int.cast_natCast]
  have hdigits := isDigits_toDigits n
  by_cases hplaces : places = 0
  · have hvalue : (Text.plainReal (Nat.toDigits 10 n) []).value = n * 10 ^ (-places : Int) := by
      rw [Text.plainReal_value, append_nil, Nat.ofDigitChars_ten_toDigits, hplaces]
      rfl
    have hdenotes := denotes_signed value
      (Text.plainReal_wellFormed hdigits (fun _ h => nomatch h) : (Text.plainReal _ []).WellFormed)
    rw [hvalue, Text.plainReal_text, if_pos rfl, append_nil] at hdenotes
    rw [if_pos hplaces]
    exact hdenotes
  · obtain ⟨zeros, whole, fraction, hpoint, hall, hwhole, hlength⟩ := insertPoint_eq hdigits.1 places
    have hdigit : ∀ c ∈ whole ++ fraction, isDecimalDigit c = true := fun c hc => by
      rw [hall] at hc
      rcases mem_append.1 hc with hc | hc
      · exact Text.isDigits_zeros c hc
      · exact hdigits.2 c hc
    have hfraction : ∀ c ∈ fraction, isDecimalDigit c = true := fun c hc =>
      hdigit c (mem_append_right _ hc)
    have hkept : ∀ c ∈ (fraction.reverse.dropWhile (· = '0')).reverse, isDecimalDigit c = true :=
      fun c hc => hfraction c
        (mem_reverse.1 ((dropWhile_sublist _).mem (mem_reverse.1 hc)))
    have hwf := Text.plainReal_wellFormed
      ⟨hwhole, fun c hc => hdigit c (mem_append_left _ hc)⟩ hkept
    rw [if_neg hplaces, hpoint, trimmed_point hfraction, ← pointed_value hall hlength]
    exact denotes_signed value hwf

/-- The exact decimal denotes the rational. -/
theorem exactDecimal_denotes (h : value.Reduced) {text : List Char}
    (htext : exactDecimal value = some text) : Denotes text value.toRat := by
  unfold exactDecimal at htext
  dsimp only at htext
  split at htext
  · next hzero =>
    obtain rfl := some.inj htext
    rw [h.toRat_eq_zero_iff.2 ((isZero_iff h.num).1 hzero)]
    exact denotes_zero
  · split at htext
    · cases htext
    · split at htext
      · cases htext
      · next hone =>
        have hden := den_of_isOne h.den (Bool.eq_true_of_not_eq_false hone)
        generalize value.den.trailingZeroBits = twos at hden htext
        generalize fivesOf (withoutTwos value.den) = fives at hden htext
        obtain ⟨hnumerator, habs⟩ := BigInt.abs_spec h.num
        obtain ⟨htwo, htwov⟩ :=
          @padded_spec _ hnumerator 2 (by decide) (by decide) twos (max twos fives)
        obtain ⟨hfive, hfivev⟩ := @padded_spec _ htwo 5 (by decide) (by decide) fives (max twos fives)
        have hvalue : |value.toRat| = (padded (padded value.num.abs 2 twos (max twos fives)) 5 fives
            (max twos fives)).toInt * 10 ^ (-(max twos fives : Nat) : Int) := by
          rw [abs_toRat h, hden, over_factors _ (le_max_left twos fives) (le_max_right twos fives),
            hfivev, htwov]
        have hnonneg : 0 ≤ (padded (padded value.num.abs 2 twos (max twos fives)) 5 fives
            (max twos fives)).toInt := by
          rw [hfivev, htwov, habs]
          positivity
        have hdenotes := denotes_pointed value hfive hnonneg (max twos fives)
        rw [← hvalue, signed_abs h] at hdenotes
        split at htext
        · next hplaces =>
          rw [if_pos hplaces] at hdenotes
          exact some.inj htext ▸ hdenotes
        · next hplaces =>
          rw [if_neg hplaces] at hdenotes
          exact some.inj htext ▸ hdenotes

end Exact

/-! ## The Scale Is Found -/

section Scale

variable {numerator den : BigInt} {s : Scaled} {x : ℚ}

/-- A quotient and a remainder of a number that is not negative. -/
structure Divides (s : Scaled) (x : ℚ) : Prop where
  quotient : s.quotient.Normal
  remainder : s.remainder.Normal
  scaledDen : s.scaledDen.Normal
  quotient_nonneg : 0 ≤ s.quotient.toInt
  remainder_nonneg : 0 ≤ s.remainder.toInt
  remainder_lt : s.remainder.toInt < s.scaledDen.toInt
  eq : x = s.quotient.toInt + (s.remainder.toInt : ℚ) / s.scaledDen.toInt

theorem divides_divMod {a b : BigInt} (ha : a.Normal) (hb : b.Normal) (hnonneg : 0 ≤ a.toInt)
    (hpos : 0 < b.toInt) (scale : Int) :
    Divides ⟨scale, (a.divMod b).1, (a.divMod b).2, b⟩ ((a.toInt : ℚ) / b.toInt) := by
  obtain ⟨hq, hr, hquotient, hremainder⟩ := BigInt.divMod_spec ha hb hpos.ne'
  have hne : (b.toInt : ℚ) ≠ 0 := by exact_mod_cast hpos.ne'
  refine ⟨hq, hr, hb, ?_, ?_, ?_, ?_⟩
  · show 0 ≤ (a.divMod b).1.toInt
    rw [hquotient]
    exact Int.tdiv_nonneg hnonneg hpos.le
  · show 0 ≤ (a.divMod b).2.toInt
    rw [hremainder]
    exact Int.tmod_nonneg _ hnonneg
  · show (a.divMod b).2.toInt < b.toInt
    rw [hremainder]
    exact Int.tmod_lt_of_pos _ hpos
  · show (a.toInt : ℚ) / b.toInt = ((a.divMod b).1.toInt : ℚ) + ((a.divMod b).2.toInt : ℚ) / b.toInt
    have hsplit : (b.toInt : ℚ) * (a.divMod b).1.toInt + (a.divMod b).2.toInt = a.toInt := by
      rw [hquotient, hremainder]
      exact_mod_cast Int.mul_tdiv_add_tmod a.toInt b.toInt
    rw [← hsplit]
    field_simp

theorem divides_divideAt (hnum : numerator.Normal) (hden : den.Normal) (hnonneg : 0 ≤ numerator.toInt)
    (hpos : 0 < den.toInt) (scale : Int) :
    Divides (divideAt numerator den scale) ((numerator.toInt : ℚ) / den.toInt * 10 ^ scale) := by
  unfold divideAt
  dsimp only
  by_cases hscale : 0 ≤ scale
  · obtain ⟨hpower, hpowerv⟩ := @powerOfLimb_spec 10 (by decide) (by decide) scale.toNat
    obtain ⟨hscaled, hscaledv⟩ := BigInt.mul_spec hnum hpower
    have hx : (numerator.toInt : ℚ) / den.toInt * 10 ^ scale =
        ((numerator.mul (powerOfLimb 10 scale.toNat)).toInt : ℚ) / den.toInt := by
      rw [hscaledv, hpowerv]
      conv_lhs => rw [← Int.toNat_of_nonneg hscale, zpow_natCast]
      push_cast
      ring
    rw [if_pos hscale, if_pos hscale, hx]
    exact divides_divMod hscaled hden (by rw [hscaledv, hpowerv]; positivity) hpos scale
  · obtain ⟨hpower, hpowerv⟩ := @powerOfLimb_spec 10 (by decide) (by decide) (-scale).toNat
    obtain ⟨hscaled, hscaledv⟩ := BigInt.mul_spec hden hpower
    have hx : (numerator.toInt : ℚ) / den.toInt * 10 ^ scale =
        (numerator.toInt : ℚ) / (den.mul (powerOfLimb 10 (-scale).toNat)).toInt := by
      have hsplit : scale = -((-scale).toNat : Int) := by omega
      rw [hscaledv, hpowerv]
      conv_lhs => rw [hsplit, zpow_neg, zpow_natCast]
      push_cast
      rw [div_mul_eq_div_div]
      rfl
    rw [if_neg hscale, if_neg hscale, hx]
    exact divides_divMod hnum hscaled hnonneg (by rw [hscaledv, hpowerv]; positivity) scale

/-- The quotient is the number without its fraction. -/
theorem Divides.bounds (h : Divides s x) :
    (s.quotient.toInt : ℚ) ≤ x ∧ x < s.quotient.toInt + 1 := by
  have hden : (0 : ℚ) < s.scaledDen.toInt := by
    exact_mod_cast h.remainder_nonneg.trans_lt h.remainder_lt
  have hrem : (0 : ℚ) ≤ s.remainder.toInt := by exact_mod_cast h.remainder_nonneg
  have hlt : (s.remainder.toInt : ℚ) / s.scaledDen.toInt < 1 := by
    rw [div_lt_one hden]
    exact_mod_cast h.remainder_lt
  have hnonneg : 0 ≤ (s.remainder.toInt : ℚ) / s.scaledDen.toInt := by positivity
  have heq := h.eq
  constructor <;> linarith

/-- How many digits the quotient has: those before the point, and one where there are none. -/
theorem quotientDigits_eq (h : Divides s x) {k : Int} (hlow : 10 ^ k ≤ x) (hhigh : x < 10 ^ (k + 1)) :
    (quotientDigits s : Int) = max 1 (k + 1) := by
  obtain ⟨hle, hlt⟩ := h.bounds
  obtain ⟨q, hq⟩ := Int.eq_ofNat_of_zero_le h.quotient_nonneg
  unfold quotientDigits
  rw [toDecimal_digits h.quotient h.quotient_nonneg, hq, Int.toNat_natCast]
  rw [hq, Int.cast_natCast] at hle hlt
  have hpos := Nat.length_toDigits_pos (b := 10) (n := q)
  -- no more digits than stand before the point
  have hupper : ∀ n : Nat, 0 < n → k + 1 ≤ n → (Nat.toDigits 10 q).length ≤ n := fun n hn hk => by
    apply (Nat.length_toDigits_le_iff (by norm_num) hn).2
    have hpow : (q : ℚ) < 10 ^ (n : Int) :=
      (hle.trans_lt hhigh).trans_le (zpow_le_zpow_right₀ (by norm_num) hk)
    rw [zpow_natCast] at hpow
    exact_mod_cast hpow
  by_cases hk : 0 < k
  · have hmost := hupper (k + 1).toNat (by omega) (by omega)
    have hleast : ¬ (Nat.toDigits 10 q).length ≤ k.toNat := fun hshort => by
      have hsmall := (Nat.length_toDigits_le_iff (by norm_num) (by omega)).1 hshort
      have hnext : (q : ℚ) + 1 ≤ 10 ^ k := by
        rw [← Int.toNat_of_nonneg hk.le, zpow_natCast]
        exact_mod_cast hsmall
      linarith
    omega
  · have hmost := hupper 1 (by norm_num) (by omega)
    omega

/-- How many digits the quotient has at a scale, for a number of a known decade. -/
theorem quotientDigits_divideAt (hnum : numerator.Normal) (hden : den.Normal)
    (hnonneg : 0 ≤ numerator.toInt) (hpos : 0 < den.toInt) {decade : Int}
    (hlow : (10 : ℚ) ^ decade ≤ (numerator.toInt : ℚ) / den.toInt)
    (hhigh : (numerator.toInt : ℚ) / den.toInt < 10 ^ (decade + 1)) (at_ : Int) :
    (quotientDigits (divideAt numerator den at_) : Int) = max 1 (decade + at_ + 1) := by
  apply quotientDigits_eq (divides_divideAt hnum hden hnonneg hpos at_)
  · rw [zpow_add₀ (by norm_num)]
    gcongr
  · rw [show decade + at_ + 1 = decade + 1 + at_ by ring, zpow_add₀ (by norm_num) (decade + 1)]
    gcongr

/-- A scale that is reached in steps of `d`, and one that is not reached yet. -/
theorem steps_left {gap d : Int} {attempts : Nat} (hgap : 0 < gap)
    (hsteps : gap ≤ ((attempts + 1 : Nat) - 1) * d) : 1 ≤ attempts ∧ d ≠ 0 ∧
      gap - d ≤ (attempts - 1) * d := by
  rw [Nat.cast_add, Nat.cast_one, add_sub_cancel_right] at hsteps
  refine ⟨Nat.one_le_iff_ne_zero.2 ?_, ?_, ?_⟩
  · rintro rfl
    rw [Nat.cast_zero, zero_mul] at hsteps
    exact absurd hgap (not_lt.2 hsteps)
  · rintro rfl
    rw [mul_zero] at hsteps
    exact absurd hgap (not_lt.2 hsteps)
  · rw [sub_mul, one_mul]
    exact sub_le_sub_right hsteps d

/-- The attempts end at the scale that gives as many digits as are asked for: at once, after one
    correction from above, or in steps of one digit less than asked for from below. -/
theorem searchScale_found (hnum : numerator.Normal) (hden : den.Normal) (hnonneg : 0 ≤ numerator.toInt)
    (hpos : 0 < den.toInt) {decade : Int}
    (hlow : (10 : ℚ) ^ decade ≤ (numerator.toInt : ℚ) / den.toInt)
    (hhigh : (numerator.toInt : ℚ) / den.toInt < 10 ^ (decade + 1)) {n : Nat} (hn : 1 ≤ n)
    (scale : Int) (hscale : scale = n - 1 - decade) (hbound : -8192 ≤ scale ∧ scale ≤ 8192)
    (attempts : Nat) (s : Scaled) (hs : -8192 ≤ s.scale ∧ s.scale ≤ 8192)
    (hreach : s.scale = scale ∧ 1 ≤ attempts ∨ scale < s.scale ∧ 2 ≤ attempts ∨
      s.scale < scale ∧ scale - s.scale ≤ ((attempts : Int) - 1) * (n - 1)) :
    searchScale numerator den n attempts s = some (divideAt numerator den scale) := by
  induction attempts generalizing s with
  | zero =>
    rcases hreach with ⟨-, h⟩ | ⟨-, h⟩ | ⟨hlt, h⟩
    · cases h
    · cases h
    · push_cast at h
      omega
  | succ attempts ih =>
    have hdigits := quotientDigits_divideAt hnum hden hnonneg hpos hlow hhigh s.scale
    unfold searchScale
    rw [if_neg (not_or.2 ⟨not_lt.2 hs.2, not_lt.2 hs.1⟩)]
    dsimp only [divideAt_scale]
    generalize quotientDigits (divideAt numerator den s.scale) = digits at hdigits
    -- the scale asked for, once the quotient is no longer written with the one zero
    have hshown : 0 ≤ decade + s.scale → (digits : Int) - n = s.scale - scale := fun h => by
      rw [hdigits, max_eq_right (le_add_of_nonneg_left h), hscale]
      ring
    rcases hreach with ⟨heq, -⟩ | ⟨habove, hattempts⟩ | ⟨hbelow, hsteps⟩
    · have hsame := hshown (by omega)
      rw [if_pos (by omega), heq]
    · have hmore := hshown (by omega)
      have hnew : s.scale - (digits - n : Nat) = scale := by omega
      rw [if_neg (by omega), if_neg (by omega), hnew]
      exact ih _ hbound (.inl ⟨rfl, Nat.le_of_succ_le_succ hattempts⟩)
    · obtain ⟨hattempts, hmany, hleft⟩ := steps_left (sub_pos.2 hbelow) hsteps
      by_cases hfront : 0 ≤ decade + s.scale
      · have hfewer := hshown hfront
        have hnew : s.scale + (n - digits : Nat) = scale := by omega
        rw [if_neg (by omega), if_pos (by omega), hnew]
        exact ih _ hbound (.inl ⟨rfl, hattempts⟩)
      · -- no digit stands before the point
        rw [max_eq_left (by omega)] at hdigits
        have hone : digits = 1 := by omega
        have hnew : s.scale + (n - digits : Nat) = s.scale + (n - 1) := by omega
        rw [if_neg (by omega), if_pos (by omega), hnew]
        refine ih _ ⟨by dsimp only; omega, by dsimp only; omega⟩ (.inr (.inr ⟨?_, ?_⟩))
        · dsimp only
          omega
        · dsimp only
          rwa [← sub_sub]

/-- The quotient is rounded to the nearest, half up. -/
theorem roundQuotient_spec (h : Divides s x) :
    (roundQuotient s).Normal ∧ 0 ≤ (roundQuotient s).toInt ∧ |x - (roundQuotient s).toInt| ≤ 1 / 2 ∧
      s.quotient.toInt ≤ (roundQuotient s).toInt ∧
      (roundQuotient s).toInt ≤ s.quotient.toInt + 1 := by
  obtain ⟨htwo, htwov⟩ := BigInt.ofInt64_spec (v := 2) (by decide) (by decide)
  obtain ⟨hdouble, hdoublev⟩ := BigInt.mul_spec h.remainder htwo
  have hquotient := h.quotient_nonneg
  have hden : (0 : ℚ) < s.scaledDen.toInt := by
    exact_mod_cast h.remainder_nonneg.trans_lt h.remainder_lt
  have hrem : (0 : ℚ) ≤ s.remainder.toInt := by exact_mod_cast h.remainder_nonneg
  have hlt : (s.remainder.toInt : ℚ) < s.scaledDen.toInt := by exact_mod_cast h.remainder_lt
  have heq := h.eq
  have hcompare : 0 ≤ (s.remainder.mul (.ofInt64 2)).compare s.scaledDen ↔
      s.scaledDen.toInt ≤ s.remainder.toInt * 2 := by
    rw [BigInt.compare_spec hdouble h.scaledDen, hdoublev, htwov, Int.sign_nonneg_iff]
    omega
  unfold roundQuotient
  split
  · next hup =>
    obtain ⟨hone, honev⟩ := one_spec
    obtain ⟨hsum, hsumv⟩ := BigInt.add_spec h.quotient hone
    have hhalf : (s.scaledDen.toInt : ℚ) ≤ s.remainder.toInt * 2 := by
      exact_mod_cast hcompare.1 hup.2
    have hlow : 1 / 2 ≤ (s.remainder.toInt : ℚ) / s.scaledDen.toInt := by
      rw [le_div_iff₀ hden]
      linarith
    have hhigh : (s.remainder.toInt : ℚ) / s.scaledDen.toInt ≤ 1 := by
      rw [div_le_one hden]
      exact hlt.le
    rw [hsumv, honev]
    refine ⟨hsum, by omega, ?_, by omega, le_rfl⟩
    rw [abs_le]
    push_cast
    constructor <;> linarith
  · next hdown =>
    have hhigh : (s.remainder.toInt : ℚ) / s.scaledDen.toInt ≤ 1 / 2 := by
      rw [div_le_iff₀ hden]
      by_cases hzero : s.remainder.isZero
      · rw [(isZero_iff h.remainder).1 hzero, Int.cast_zero]
        positivity
      · have hlarge := mt hcompare.2 fun hge => hdown ⟨by simpa using hzero, hge⟩
        have hlarge : (s.remainder.toInt : ℚ) * 2 < s.scaledDen.toInt := by
          exact_mod_cast not_le.1 hlarge
        linarith
    have hlow : 0 ≤ (s.remainder.toInt : ℚ) / s.scaledDen.toInt := by positivity
    refine ⟨h.quotient, hquotient, ?_, le_rfl, by omega⟩
    rw [abs_le]
    constructor <;> linarith

end Scale

/-! ## The Approximate Decimal Is Near -/

section Approximate

/-- The digits with their point denote the whole number over a power of ten. -/
theorem layoutPoint_spec {digits : List Char} (hdigits : IsDigits digits) (scale : Int) :
    ∃ t : RealText, t.WellFormed ∧ layoutPoint digits (digits.length - scale) = t.text ∧
      t.value = Nat.ofDigitChars 10 digits 0 * 10 ^ (-scale) := by
  unfold layoutPoint
  by_cases hsmall : (digits.length : Int) - scale ≤ 0
  · -- zeros stand between the point and the digits
    refine ⟨Text.plainReal ['0'] (replicate (-(digits.length - scale)).toNat '0' ++ digits),
      Text.plainReal_wellFormed Text.isDigits_zero ?_, ?_, ?_⟩
    · exact forall_mem_append.2 ⟨Text.isDigits_zeros, hdigits.2⟩
    · rw [if_pos hsmall, Text.plainReal_text,
        if_neg (append_ne_nil_of_right_ne_nil _ hdigits.1), append_assoc]
      rfl
    · rw [Text.plainReal_value, singleton_append, Text.ofDigitChars_zero_cons,
        Text.ofDigitChars_zeros_append, length_append, length_replicate]
      have hplaces : (-((-((digits.length : Int) - scale)).toNat + digits.length : Nat) : Int) =
          -scale := by omega
      rw [hplaces]
  · rw [if_neg hsmall]
    by_cases hwhole : (digits.length : Int) ≤ digits.length - scale
    · obtain ⟨n, hn⟩ := Int.eq_ofNat_of_zero_le (show 0 ≤ -scale by omega)
      have hzeros : ((digits.length : Int) - scale - digits.length).toNat = n := by omega
      refine ⟨Text.plainReal (digits ++ replicate n '0') [],
        Text.plainReal_wellFormed (hdigits.append Text.isDigits_zeros) (fun _ h => nomatch h), ?_, ?_⟩
      · rw [if_pos hwhole, hzeros, Text.plainReal_text, if_pos rfl, append_nil]
      · rw [Text.plainReal_value, append_nil, Text.ofDigitChars_zeros, hn, zpow_natCast]
        push_cast
        show (10 : ℚ) ^ n * _ * 10 ^ (0 : Int) = _
        rw [zpow_zero, mul_one, mul_comm]
    · have hlong : ((digits.length : Int) - scale).toNat < digits.length := by omega
      obtain ⟨n, hn⟩ : ∃ n, ((digits.length : Int) - scale).toNat = n + 1 :=
        ⟨((digits.length : Int) - scale).toNat - 1, by omega⟩
      refine ⟨Text.plainReal (digits.take (n + 1)) (digits.drop (n + 1)),
        Text.plainReal_wellFormed (hdigits.take n) (hdigits.drop (hn ▸ hlong)).2, ?_, ?_⟩
      · rw [if_neg hwhole, hn, Text.plainReal_text, if_neg (hdigits.drop (hn ▸ hlong)).1]
      · have hplaces : (-(digits.length - (n + 1) : Nat) : Int) = -scale := by omega
        rw [Text.plainReal_value, take_append_drop, length_drop, hplaces]

variable {value : Rational} {n : Nat}

/-- The scales the search begins and ends with are in bounds, and its attempts lead from the one to
    the other. -/
structure Reaches (value : Rational) (n : Nat) : Prop where
  digits : 1 ≤ n
  first : |(n : Int) - 1 - estimate value| ≤ 8192
  last : |lastPlace n (|value.toRat|)| ≤ 8192
  steps : estimate value - Int.log 10 |value.toRat| ≤ 3 * (n - 1)

/-- At the scale of so many digits, the rounded quotient is a number of so many digits, or the ten
    to their number. -/
theorem roundQuotient_digits {s : Scaled} {x : ℚ} (h : Divides s x)
    (hhigh : x < 10 ^ n) : (roundQuotient s).toInt ≤ 10 ^ n := by
  obtain ⟨-, -, -, -, hmost⟩ := roundQuotient_spec h
  have hlt : (s.quotient.toInt : ℚ) < 10 ^ n := h.bounds.1.trans_lt hhigh
  have hlt : s.quotient.toInt < 10 ^ n := by exact_mod_cast hlt
  omega

/-- A magnitude is as near under the sign of the rational. -/
theorem abs_signed_sub (h : value.Reduced) (q : ℚ) :
    |signed value q - value.toRat| = |q - (|value.toRat|)| := by
  have hsign := signed_abs h
  unfold signed at *
  split at hsign
  · next hneg =>
    rw [if_pos hneg, ← hsign, abs_neg, abs_abs, ← abs_neg]
    congr 1
    ring
  · next hneg =>
    rw [if_neg hneg, ← hsign, abs_abs]

theorem approximateDecimal_near (h : value.Reduced) (hne : value.num.toInt ≠ 0)
    (hreaches : Reaches value n) :
    ∃ q, Denotes (approximateDecimal value n) q ∧ HasDigits n q ∧
      |q - value.toRat| ≤ 10 ^ lastPlace n (|value.toRat|) / 2 := by
  obtain ⟨hnumerator, habs⟩ := BigInt.abs_spec h.num
  have hpos : 0 < |value.toRat| := abs_pos.2 (mt h.toRat_eq_zero_iff.1 hne)
  have hv := abs_toRat h
  have hfirst := abs_le.1 hreaches.first
  have hlast := abs_le.1 hreaches.last
  have hsteps := hreaches.steps
  have hdecade : lastPlace n (|value.toRat|) = Int.log 10 |value.toRat| - (n - 1) := rfl
  rw [hdecade] at hlast ⊢
  have hlow := pow_log_le hpos
  have hhigh := lt_pow_log |value.toRat|
  generalize Int.log 10 |value.toRat| = decade at hlow hhigh hlast hsteps
  rw [hv] at hlow hhigh
  have hfound := searchScale_found hnumerator h.den (by rw [habs]; positivity) h.pos hlow hhigh
    hreaches.digits (n - 1 - decade) rfl ⟨by omega, by omega⟩ 4
    ⟨(n : Int) - 1 - estimate value, ⟨[], false⟩, ⟨[], false⟩, ⟨[], false⟩⟩
    ⟨by dsimp only; omega, by dsimp only; omega⟩ (by
      dsimp only
      rcases lt_trichotomy (estimate value) decade with hlt | heq | hgt
      · exact .inr (.inl ⟨by omega, by norm_num⟩)
      · exact .inl ⟨by rw [heq], by norm_num⟩
      · exact .inr (.inr ⟨by omega, by push_cast; linarith⟩))
  have hdivides := divides_divideAt hnumerator h.den (by rw [habs]; positivity) h.pos (n - 1 - decade)
  obtain ⟨hround, hnonneg, hnear, -, -⟩ := roundQuotient_spec hdivides
  have hmost := roundQuotient_digits hdivides (by
    calc (value.num.abs.toInt : ℚ) / value.den.toInt * 10 ^ (n - 1 - decade : Int)
        < 10 ^ (decade + 1) * 10 ^ (n - 1 - decade : Int) := by gcongr
      _ = 10 ^ n := by
          rw [← zpow_add₀ (by norm_num), ← zpow_natCast]
          congr 1
          ring)
  generalize hquotient : roundQuotient (divideAt value.num.abs value.den (n - 1 - decade)) = quotient
    at hround hnonneg hnear hmost
  obtain ⟨t, hwf, htext, hvalue⟩ := layoutPoint_spec (isDigits_toDigits quotient.toInt.toNat)
    (n - 1 - decade)
  have hresult : approximateDecimal value n = signText value ++ t.text := by
    unfold approximateDecimal
    rw [if_neg (mt (isZero_iff h.num).1 hne)]
    dsimp only
    rw [hfound]
    dsimp only [divideAt_scale]
    rw [hquotient, toDecimal_digits hround hnonneg, htext]
  have hcast : ((quotient.toInt.toNat : ℕ) : ℚ) = quotient.toInt := by
    exact_mod_cast Int.toNat_of_nonneg hnonneg
  have hplace : -((n : Int) - 1 - decade) = decade - (n - 1) := by ring
  rw [Nat.ofDigitChars_ten_toDigits, hcast, hplace] at hvalue
  refine ⟨_, hresult ▸ denotes_signed value hwf, ?_, ?_⟩
  · have hdigits := hasDigits_of_le (e := decade - (n - 1)) hreaches.digits hnonneg hmost
    rw [← hvalue] at hdigits
    unfold signed
    split
    · exact hdigits.neg
    · exact hdigits
  · have hsplit : t.value - |value.toRat| =
        -((value.num.abs.toInt : ℚ) / value.den.toInt * 10 ^ (n - 1 - decade : Int) - quotient.toInt) *
          10 ^ (decade - (n - 1) : Int) := by
      have hone : (10 : ℚ) ^ (n - 1 - decade : Int) * 10 ^ (decade - (n - 1) : Int) = 1 := by
        rw [← zpow_add₀ (by norm_num), show (n : Int) - 1 - decade + (decade - (n - 1)) = 0 by ring,
          zpow_zero]
      rw [hvalue, hv, neg_sub, sub_mul, mul_assoc, hone, mul_one]
    rw [abs_signed_sub h, hsplit, abs_mul, abs_neg,
      abs_of_pos (show (0 : ℚ) < 10 ^ (decade - (n - 1) : Int) by positivity)]
    calc _ ≤ 1 / 2 * (10 : ℚ) ^ (decade - (n - 1) : Int) := by gcongr
      _ = 10 ^ (decade - (n - 1) : Int) / 2 := by ring

end Approximate

/-! ## The Estimate -/

section Estimate

variable {value : Rational} {n : Nat}

theorem BigInt.bits_bounds {a : BigInt} (ha : a.Normal) (hpos : 0 < a.toInt) :
    (2 : ℚ) ^ ((a.bits : Int) - 1) ≤ a.toInt ∧ (a.toInt : ℚ) < 2 ^ (a.bits : Int) := by
  obtain ⟨hlt, hle⟩ := bitLength_spec ha.limbs
  have hvalue : a.toInt = (Literal.value a.limbs : Int) := by
    have := toInt_natAbs a
    omega
  have hne : a.limbs ≠ [] := fun hnil => by
    rw [(toInt_eq_zero_iff ha).2 hnil] at hpos
    exact absurd hpos (lt_irrefl 0)
  have hle := hle hne
  rw [hvalue, Int.cast_natCast, zpow_natCast]
  have hbits : 1 ≤ bitLength a.limbs := by
    by_contra hzero
    have hzero : bitLength a.limbs = 0 := by omega
    rw [hzero] at hlt
    omega
  constructor
  · have hsub : (a.bits : Int) - 1 = ((bitLength a.limbs - 1 : Nat) : Int) := by
      show (bitLength a.limbs : Int) - 1 = _
      omega
    rw [hsub, zpow_natCast]
    exact_mod_cast hle
  · exact_mod_cast hlt

/-- How many bits the numerator has more than the denominator, as the estimate takes it. -/
def bitsOver (value : Rational) : Int := (value.num.abs.bits : Int) - value.den.bits

theorem bitsOver_bounds (h : value.Reduced) (hne : value.num.toInt ≠ 0) :
    (2 : ℚ) ^ (bitsOver value - 1) < |value.toRat| ∧ |value.toRat| < 2 ^ (bitsOver value + 1) := by
  obtain ⟨hnumerator, habs⟩ := BigInt.abs_spec h.num
  have hpos : 0 < value.num.abs.toInt := by
    rw [habs]
    exact abs_pos.2 hne
  obtain ⟨hlow, hhigh⟩ := BigInt.bits_bounds hnumerator hpos
  obtain ⟨hdlow, hdhigh⟩ := BigInt.bits_bounds h.den h.pos
  have hden : (0 : ℚ) < value.den.toInt := by exact_mod_cast h.pos
  rw [abs_toRat h]
  unfold bitsOver
  constructor
  · rw [lt_div_iff₀ hden]
    calc (2 : ℚ) ^ ((value.num.abs.bits : Int) - value.den.bits - 1) * value.den.toInt
        < 2 ^ ((value.num.abs.bits : Int) - value.den.bits - 1) * 2 ^ (value.den.bits : Int) := by
          gcongr
      _ = 2 ^ ((value.num.abs.bits : Int) - 1) := by
          rw [← zpow_add₀ (by norm_num)]
          congr 1
          ring
      _ ≤ value.num.abs.toInt := hlow
  · rw [div_lt_iff₀ hden]
    calc (value.num.abs.toInt : ℚ) < 2 ^ (value.num.abs.bits : Int) := hhigh
      _ = 2 ^ ((value.num.abs.bits : Int) - value.den.bits + 1) * 2 ^ ((value.den.bits : Int) - 1) := by
          rw [← zpow_add₀ (by norm_num)]
          congr 1
          ring
      _ ≤ 2 ^ ((value.num.abs.bits : Int) - value.den.bits + 1) * value.den.toInt := by gcongr

/-- Powers of two and of ten, compared by one inequality between two of them. -/
theorem two_le_ten {p q : Nat} (h : (2 : ℚ) ^ p ≤ 10 ^ q) {a : Int} (ha : 0 ≤ a) :
    (2 : ℚ) ^ (p * a) ≤ 10 ^ (q * a) := by
  rw [zpow_mul, zpow_mul, zpow_natCast, zpow_natCast]
  exact zpow_le_zpow_left₀ ha (by positivity) h

theorem ten_le_two {p q : Nat} (h : (10 : ℚ) ^ q ≤ 2 ^ p) {a : Int} (ha : 0 ≤ a) :
    (10 : ℚ) ^ (q * a) ≤ 2 ^ (p * a) := by
  rw [zpow_mul, zpow_mul, zpow_natCast, zpow_natCast]
  exact zpow_le_zpow_left₀ ha (by positivity) h

theorem two_pow_485_le : (2 : ℚ) ^ 485 ≤ 10 ^ 146 := by
  exact_mod_cast (by decide +kernel : (2 : ℕ) ^ 485 ≤ 10 ^ 146)

theorem lt_of_ten_lt_two {a b : Int} (h : (10 : ℚ) ^ a < 2 ^ b) :
    (0 ≤ a → 485 * a < 146 * b) ∧ (a ≤ 0 → 196 * a < 59 * b) := by
  constructor
  · intro ha
    have hlt : (2 : ℚ) ^ (485 * a) < 2 ^ (146 * b) := by
      calc (2 : ℚ) ^ (485 * a) ≤ 10 ^ (146 * a) := two_le_ten two_pow_485_le ha
        _ = (10 ^ a) ^ 146 := by rw [mul_comm, zpow_mul]; rfl
        _ < (2 ^ b) ^ 146 := by gcongr
        _ = 2 ^ (146 * b) := by rw [mul_comm, zpow_mul]; rfl
    exact (zpow_lt_zpow_iff_right₀ (by norm_num)).1 hlt
  · intro ha
    have hlt : (2 : ℚ) ^ (196 * a) < 2 ^ (59 * b) := by
      calc (2 : ℚ) ^ (196 * a) = (2 ^ (196 * -a))⁻¹ := by rw [← zpow_neg]; congr 1; ring
        _ ≤ (10 ^ (59 * -a))⁻¹ := by
            gcongr
            exact ten_le_two (p := 196) (q := 59) (by norm_num) (by omega)
        _ = (10 ^ a) ^ 59 := by
            rw [← zpow_neg, show -(59 * -a) = a * 59 by ring, zpow_mul]
            rfl
        _ < (2 ^ b) ^ 59 := by gcongr
        _ = 2 ^ (59 * b) := by rw [mul_comm, zpow_mul]; rfl
    exact (zpow_lt_zpow_iff_right₀ (by norm_num)).1 hlt

theorem lt_of_two_lt_ten {a b : Int} (h : (2 : ℚ) ^ b < 10 ^ a) :
    (0 ≤ a → 59 * b < 196 * a) ∧ (a ≤ 0 → 146 * b < 485 * a) := by
  have hinv : (10 : ℚ) ^ (-a) < 2 ^ (-b) := by
    rw [zpow_neg, zpow_neg]
    gcongr
  obtain ⟨hnonneg, hnonpos⟩ := lt_of_ten_lt_two hinv
  constructor
  · intro ha
    have := hnonpos (by omega)
    omega
  · intro ha
    have := hnonneg (by omega)
    omega

theorem nearestDouble_near {q : ℚ} (hq : |q| < 2 ^ 14) : |q - nearestDouble q| ≤ 1 / 2 ^ 39 := by
  have hlog : Int.log 2 |q| ≤ 13 := by
    rcases (abs_nonneg q).eq_or_lt with hzero | hpos
    · rw [← hzero, Int.log_zero_right]
      norm_num
    · have h := (Int.lt_zpow_iff_log_lt (b := 2) (x := 14) (by norm_num) hpos).1 (by exact_mod_cast hq)
      omega
  have hround := abs_sub_roundEven (q * 2 ^ (52 - Int.log 2 |q|))
  have hone : (2 : ℚ) ^ (52 - Int.log 2 |q|) * 2 ^ (Int.log 2 |q| - 52) = 1 := by
    rw [← zpow_add₀ (by norm_num), show 52 - Int.log 2 |q| + (Int.log 2 |q| - 52) = 0 by ring, zpow_zero]
  have hsplit : q - nearestDouble q =
      (q * 2 ^ (52 - Int.log 2 |q|) - roundEven (q * 2 ^ (52 - Int.log 2 |q|))) *
        2 ^ (Int.log 2 |q| - 52) := by
    unfold nearestDouble
    rw [sub_mul, mul_assoc, hone, mul_one]
  rw [hsplit, abs_mul, abs_of_pos (show (0 : ℚ) < 2 ^ (Int.log 2 |q| - 52) by positivity)]
  calc _ ≤ 1 / 2 * (2 : ℚ) ^ (Int.log 2 |q| - 52) := by gcongr
    _ ≤ 1 / 2 * (2 : ℚ) ^ (13 - 52 : Int) := by
        gcongr
        · norm_num
    _ ≤ 1 / 2 ^ 39 := by norm_num

/-- In the range where the estimate is not cut, it is within one of the decimal exponent. -/
theorem estimate_near (h : value.Reduced) (hne : value.num.toInt ≠ 0)
    (hdecade : |Int.log 10 (|value.toRat|)| ≤ 7999) :
    |estimate value - Int.log 10 (|value.toRat|)| ≤ 1 := by
  have hpos : 0 < |value.toRat| := abs_pos.2 (mt h.toRat_eq_zero_iff.1 hne)
  obtain ⟨hlow, hhigh⟩ := bitsOver_bounds h hne
  have hbelow := lt_of_ten_lt_two ((pow_log_le hpos).trans_lt hhigh)
  have habove := lt_of_two_lt_ten (hlow.trans (lt_pow_log |value.toRat|))
  have hestimate : estimate value =
      max (-8000) (min 8000 ⌊nearestDouble ((bitsOver value : Int) * kLog10Of2)⌋) := rfl
  rw [hestimate]
  generalize Int.log 10 |value.toRat| = decade at hdecade hbelow habove ⊢
  generalize bitsOver value = bits at hbelow habove ⊢
  obtain ⟨hdlow, hdhigh⟩ := abs_le.1 hdecade
  have hbits : -26600 ≤ bits ∧ bits ≤ 26600 := by
    constructor
    · rcases le_total 0 decade with hd | hd
      · have := hbelow.1 hd
        omega
      · have := hbelow.2 hd
        omega
    · rcases le_total 0 (decade + 1) with hd | hd
      · have := habove.1 hd
        omega
      · have := habove.2 hd
        omega
  have hlowq : (-26600 : ℚ) ≤ bits := by exact_mod_cast hbits.1
  have hhighq : (bits : ℚ) ≤ 26600 := by exact_mod_cast hbits.2
  have hdlowq : (-7999 : ℚ) ≤ decade := by exact_mod_cast hdlow
  have hdhighq : (decade : ℚ) ≤ 7999 := by exact_mod_cast hdhigh
  have hnear : |(bits : ℚ) * kLog10Of2 - nearestDouble (bits * kLog10Of2)| ≤ 1 / 2 ^ 39 := by
    apply nearestDouble_near
    unfold kLog10Of2
    rw [abs_lt]
    constructor <;> linarith
  obtain ⟨hn1, hn2⟩ := abs_le.1 hnear
  have hupper : ⌊nearestDouble ((bits : ℚ) * kLog10Of2)⌋ < decade + 2 := by
    rw [Int.floor_lt]
    push_cast
    unfold kLog10Of2 at *
    rcases le_total 0 (decade + 1) with hd | hd
    · have hcmp : (59 : ℚ) * (bits - 1) < 196 * (decade + 1) := by exact_mod_cast habove.1 hd
      linarith
    · have hcmp : (146 : ℚ) * (bits - 1) < 485 * (decade + 1) := by exact_mod_cast habove.2 hd
      linarith
  have hlower : decade - 1 ≤ ⌊nearestDouble ((bits : ℚ) * kLog10Of2)⌋ := by
    rw [Int.le_floor]
    push_cast
    unfold kLog10Of2 at *
    rcases le_total 0 decade with hd | hd
    · have hcmp : (485 : ℚ) * decade < 146 * (bits + 1) := by exact_mod_cast hbelow.1 hd
      linarith
    · have hcmp : (196 : ℚ) * decade < 59 * (bits + 1) := by exact_mod_cast hbelow.2 hd
      linarith
  rw [abs_le]
  omega

theorem reaches_of_decade (h : value.Reduced) (hne : value.num.toInt ≠ 0) (hn : 2 ≤ n)
    (hdecade : |Int.log 10 (|value.toRat|)| ≤ 7999)
    (hscale : (n : Int) - 1 - Int.log 10 (|value.toRat|) ≤ 8191) :
    Reaches value n := by
  have hnear := abs_le.1 (estimate_near h hne hdecade)
  have hplace : lastPlace n (|value.toRat|) = Int.log 10 |value.toRat| - (n - 1) := rfl
  obtain ⟨hlow, hhigh⟩ := abs_le.1 hdecade
  refine ⟨by omega, abs_le.2 ⟨by omega, by omega⟩, ?_, by omega⟩
  rw [hplace]
  exact abs_le.2 ⟨by omega, by omega⟩

end Estimate

/-! ## The Texts of a Rational -/

section Texts

variable {value : Rational}

/-- A text of so many digits, within half a unit of the last of them. -/
def NearText (value : Rational) (n : Nat) (text : List Char) : Prop :=
  ∃ q, Denotes text q ∧ HasDigits n q ∧ |q - value.toRat| ≤ 10 ^ lastPlace n (|value.toRat|) / 2

/-- The exact decimal denotes the rational. The approximate one denotes a decimal of the digits
    asked for within half a unit of the last place, where the scales tried stay in bounds; for two
    digits and more they do in the range of decimal exponents that the estimate covers. -/
theorem decimal_texts (h : value.Reduced) :
    (∀ text, exactDecimal value = some text → Denotes text value.toRat) ∧
    (∀ n, 1 ≤ n → value.num.toInt = 0 ∨ Reaches value n →
      NearText value n (approximateDecimal value n)) ∧
    ∀ n : Nat, 2 ≤ n → value.num.toInt ≠ 0 → |Int.log 10 (|value.toRat|)| ≤ 7999 →
      (n : Int) - 1 - Int.log 10 (|value.toRat|) ≤ 8191 → Reaches value n := by
  refine ⟨fun text htext => exactDecimal_denotes h htext, fun n hn hcase => ?_,
    fun n hn hne hdecade hscale => reaches_of_decade h hne hn hdecade hscale⟩
  by_cases hzero : value.num.toInt = 0
  · have htext : approximateDecimal value n = ['0'] := by
      unfold approximateDecimal
      rw [if_pos ((isZero_iff h.num).2 hzero)]
    rw [htext]
    refine ⟨0, denotes_zero, ⟨0, 0, by rw [abs_zero]; positivity, by norm_num⟩, ?_⟩
    rw [h.toRat_eq_zero_iff.2 hzero, sub_zero, abs_zero]
    positivity
  · exact approximateDecimal_near h hzero (hcase.resolve_left hzero)

def third : Rational := ⟨.ofInt64 1, .ofInt64 3⟩

theorem third_reduced : third.Reduced ∧ third.toRat = 1 / 3 ∧ third.num.toInt = 1 := by
  obtain ⟨hone, honev⟩ := one_spec
  obtain ⟨hthree, hthreev⟩ := BigInt.ofInt64_spec (v := 3) (by decide) (by decide)
  refine ⟨⟨hone, hthree, ?_, ?_⟩, ?_, honev⟩
  · show 0 < (BigInt.ofInt64 3).toInt
    rw [hthreev]
    decide
  · show Int.gcd (BigInt.ofInt64 1).toInt (BigInt.ofInt64 3).toInt = 1
    rw [honev, hthreev]
    rfl
  · show ((BigInt.ofInt64 1).toInt : ℚ) / (BigInt.ofInt64 3).toInt = 1 / 3
    rw [honev, hthreev]
    norm_num

theorem log_third : Int.log 10 (|third.toRat|) = -1 := by
  rw [third_reduced.2.1]
  have hpos : (0 : ℚ) < |1 / 3| := by norm_num
  apply le_antisymm
  · have h := (Int.lt_zpow_iff_log_lt (b := 10) (x := 0) (by norm_num) hpos).1 (by norm_num [abs_of_pos])
    omega
  · exact (Int.zpow_le_iff_le_log (b := 10) (by norm_num) hpos).1 (by norm_num [abs_of_pos])

/-- `0.33333333333333333`. -/
theorem decimal_texts_third : NearText third 17 (approximateDecimal third 17) := by
  have htexts := decimal_texts third_reduced.1
  refine htexts.2.1 17 (by norm_num) (.inr (htexts.2.2 17 (by norm_num) ?_ ?_ ?_))
  · rw [third_reduced.2.2]
    decide
  · rw [log_third]
    norm_num
  · rw [log_third]
    norm_num

/-- One has no text of 8194 digits: the scale asked for is out of bounds, and `0` is written. -/
theorem approximateDecimal_bounded :
    ¬ ∀ (value : Rational) (n : Nat), value.Reduced → 1 ≤ n →
      NearText value n (approximateDecimal value n) := by
  intro h
  obtain ⟨hone, honev⟩ := one_spec
  obtain ⟨habs, habsv⟩ := BigInt.abs_spec hone
  have hreduced : (⟨.ofInt64 1, .ofInt64 1⟩ : Rational).Reduced := by
    refine ⟨hone, hone, ?_, ?_⟩
    · show 0 < (BigInt.ofInt64 1).toInt
      rw [honev]
      decide
    · show Int.gcd (BigInt.ofInt64 1).toInt (BigInt.ofInt64 1).toInt = 1
      rw [honev]
      rfl
  have hvalue : (⟨.ofInt64 1, .ofInt64 1⟩ : Rational).toRat = 1 := by
    show ((BigInt.ofInt64 1).toInt : ℚ) / (BigInt.ofInt64 1).toInt = 1
    rw [honev]
    norm_num
  have hbits : (BigInt.ofInt64 1).abs = .ofInt64 1 :=
    habs.ext hone (by rw [habsv, honev]; rfl)
  have hestimate : estimate ⟨.ofInt64 1, .ofInt64 1⟩ = 0 := by
    unfold estimate
    dsimp only
    rw [hbits, sub_self, Int.cast_zero, zero_mul]
    unfold nearestDouble
    rw [zero_mul, roundEven_zero, Int.cast_zero, zero_mul, Int.floor_zero]
    rfl
  have htext : approximateDecimal ⟨.ofInt64 1, .ofInt64 1⟩ 8194 = ['0'] := by
    unfold approximateDecimal
    rw [if_neg (mt (isZero_iff hone).1 (by rw [honev]; decide))]
    dsimp only
    rw [hestimate]
    rfl
  obtain ⟨q, hdenotes, -, hnear⟩ := h _ 8194 hreduced (by norm_num)
  rw [htext] at hdenotes
  rw [hdenotes.unique denotes_zero, hvalue, zero_sub, abs_neg, abs_one] at hnear
  have hplace : lastPlace 8194 1 < 0 := by
    unfold lastPlace
    rw [Int.log_one_right]
    norm_num
  have hsmall : (10 : ℚ) ^ lastPlace 8194 1 < 1 := zpow_lt_one_of_neg₀ (by norm_num) hplace
  linarith

end Texts

end Camel.Literal
