import Camel.Lib.Decimals
import Camel.Text.FloatText

/-! # The Shortest Digits of a Narrow Float

    The digits of a bf16 or an f16 are searched by formatting its f32 with more and more digits,
    until a text reads back as the same element. Formatting is the library's: correctly rounded,
    with so many digits behind the point.
-/

namespace Camel.Text

open List

open Nat (ofDigitChars)
open Lib

/-! ## Formatting -/

/-- A finite float: its sign, its significand and its exponent of two. -/
structure FiniteFloat where
  negative : Bool
  significand : Nat
  exponent : Int

variable (value : FiniteFloat)

namespace FiniteFloat

def magnitude : ℚ := value.significand * 2 ^ value.exponent

/-- A magnitude under the sign of the float. -/
def signed (q : ℚ) : ℚ := if value.negative then -q else q

def toRat : ℚ := value.signed value.magnitude

theorem magnitude_nonneg : 0 ≤ value.magnitude := by
  unfold magnitude
  positivity

end FiniteFloat

/-- A number of at most so many digits, with zeros in front of it. -/
def decimalDigits (count m : Nat) : List Char :=
  List.replicate (count - (Nat.toDigits 10 m).length) '0' ++ Nat.toDigits 10 m

/-- The parts of the correctly rounded text: one digit before the point, `precision` behind it. -/
def charsReal (magnitude : ℚ) (precision : Nat) : RealText :=
  let digits := (roundedDigits (precision + 1) magnitude).toNat
  -- nines that are rounded up carry into the next decade
  if digits = 10 ^ (precision + 1) then
    exponentReal (decimalDigits (precision + 1) (digits / 10)) (Int.log 10 magnitude + 1)
  else exponentReal (decimalDigits (precision + 1) digits) (Int.log 10 magnitude)

/-- `std::to_chars` in scientific form. The buffer holds the text of every float. -/
def toChars (precision : Nat) : List Char :=
  (if value.negative then ['-'] else []) ++ (charsReal value.magnitude precision).text

/-! ## The Search -/

def dropPoint : List Char → List Char
  | '.' :: c :: text => c :: text
  | text => text

/-- The mantissa without zeros at its end, and the exponent behind it. -/
def trimmedText (candidate : List Char) : List Char :=
  let mantissa := candidate.takeWhile (· ≠ 'e')
  let kept := (dropPoint (dropZeros mantissa.reverse)).reverse
  if kept.length = mantissa.length then candidate
  else kept ++ candidate.drop mantissa.length

def shortestHalfDigits (roundsBack : List Char → Bool) : List Char :=
  match (List.range' 1 8).find? fun digitCount => roundsBack (toChars value digitCount) with
  | some digitCount => trimmedText (toChars value digitCount)
  | none => toChars value 9

/-- The digits of a text before its exponent. -/
def significantDigits (text : List Char) : Nat :=
  ((text.takeWhile (· ≠ 'e')).filter isDecimalDigit).length

/-! ## What Is Formatted -/

section Format

variable {count m : Nat} {digits : List Char} {exponent : Int}

theorem length_decimalDigits (hcount : 1 ≤ count) (hm : m < 10 ^ count) :
    (decimalDigits count m).length = count := by
  have hle := (Nat.length_toDigits_le_iff (by norm_num) hcount).2 hm
  unfold decimalDigits
  rw [length_append, length_replicate]
  omega

theorem isDigits_decimalDigits (count m : Nat) : IsDigits (decimalDigits count m) := by
  constructor
  · intro hnil
    exact Nat.toDigits_ne_nil (append_eq_nil_iff.1 hnil).2
  · intro c hc
    rcases mem_append.1 hc with hc | hc
    · exact isDigits_zeros c hc
    · exact isDecimalDigit_of_isDigit (Nat.isDigit_of_mem_toDigits (by decide) (by decide) hc)

theorem ofDigitChars_decimalDigits (count m : Nat) :
    ofDigitChars 10 (decimalDigits count m) 0 = m := by
  unfold decimalDigits
  rw [ofDigitChars_zeros_append, Nat.ofDigitChars_ten_toDigits]

/-- Digits and an exponent that stand for the rounding of a number to so many digits. -/
structure Formats (count : Nat) (v : ℚ) (digits : List Char) (exponent : Int) : Prop where
  isDigits : IsDigits digits
  length : digits.length = count
  value : scientific digits exponent = rounded count v
  /-- The front digit is no zero, but for the zero itself. -/
  low : 0 < v → 10 ^ (count - 1) ≤ ofDigitChars 10 digits 0

theorem charsReal_formats {v : ℚ} (hv : 0 ≤ v) (precision : Nat) :
    ∃ digits exponent, charsReal v precision = exponentReal digits exponent ∧
      Formats (precision + 1) v digits exponent := by
  have hnonneg := roundedDigits_nonneg (n := precision + 1) hv
  have hle := roundedDigits_le (n := precision + 1) (v := v)
  obtain ⟨digits, hdigits⟩ := Int.eq_ofNat_of_zero_le hnonneg
  have hlow : 0 < v → 10 ^ precision ≤ digits := fun hpos => by
    have h := le_roundedDigits (n := precision + 1) (by omega) hpos
    rw [hdigits, Nat.add_sub_cancel] at h
    exact_mod_cast h
  have hle : digits ≤ 10 ^ (precision + 1) := by
    rw [hdigits] at hle
    exact_mod_cast hle
  have hvalue : rounded (precision + 1) v = digits * 10 ^ (Int.log 10 v - precision) := by
    have hplace : lastPlace (precision + 1) v = Int.log 10 v - precision := by
      unfold lastPlace
      push_cast
      ring
    unfold rounded
    rw [hdigits, hplace]
    rfl
  unfold charsReal
  dsimp only
  rw [hdigits, Int.toNat_natCast]
  by_cases hcarry : digits = 10 ^ (precision + 1)
  · rw [if_pos hcarry]
    -- the ten to the number of digits is written with one digit less, a decade above
    have htenth : digits / 10 = 10 ^ precision := by
      rw [hcarry, pow_succ, Nat.mul_div_cancel _ (by norm_num)]
    have hlen : (decimalDigits (precision + 1) (digits / 10)).length = precision + 1 :=
      length_decimalDigits (by omega) (by rw [htenth]; exact Nat.pow_lt_pow_right (by norm_num) (by omega))
    refine ⟨_, _, rfl, isDigits_decimalDigits _ _, hlen, ?_, ?_⟩
    · rw [scientific_eq (isDigits_decimalDigits _ _).1, hlen, ofDigitChars_decimalDigits, htenth,
        hvalue, hcarry]
      have hexponent : (Int.log 10 v + 1 + 1 - (precision + 1 : Nat) : Int) =
          1 + (Int.log 10 v - precision) := by push_cast; ring
      rw [hexponent, zpow_add₀ (by norm_num)]
      push_cast
      ring
    · intro _
      rw [ofDigitChars_decimalDigits, htenth, Nat.add_sub_cancel]
  · rw [if_neg hcarry]
    have hlen : (decimalDigits (precision + 1) digits).length = precision + 1 :=
      length_decimalDigits (by omega) (lt_of_le_of_ne hle hcarry)
    refine ⟨_, _, rfl, isDigits_decimalDigits _ _, hlen, ?_, ?_⟩
    · rw [scientific_eq (isDigits_decimalDigits _ _).1, hlen, ofDigitChars_decimalDigits, hvalue]
      have hexponent : (Int.log 10 v + 1 - (precision + 1 : Nat) : Int) =
          Int.log 10 v - precision := by push_cast; ring
      rw [hexponent]
    · intro hpos
      rw [ofDigitChars_decimalDigits, Nat.add_sub_cancel]
      exact hlow hpos

end Format

/-- So many digits write no more than ten to their number. -/
theorem ofDigitChars_lt {digits : List Char} (h : ∀ c ∈ digits, isDecimalDigit c = true) :
    ofDigitChars 10 digits 0 < 10 ^ digits.length := by
  induction digits using reverseRecOn with
  | nil => exact one_pos
  | append_singleton digits last ih =>
    have hlast := h last (mem_append_right _ mem_cons_self)
    have hih := ih fun c hc => h c (mem_append_left _ hc)
    unfold isDecimalDigit at hlast
    rw [Bool.and_eq_true, decide_eq_true_eq, decide_eq_true_eq] at hlast
    have hhigh : last.toNat ≤ 57 := hlast.2
    rw [Nat.ofDigitChars_append, Nat.ofDigitChars_cons, Nat.ofDigitChars_nil, length_append,
      length_singleton, pow_succ, show '0'.toNat = 48 from rfl]
    omega

/-! ## What Is Trimmed -/

/-- The digits without zeros at their end. The front digit stays. -/
def trimmedDigits : List Char → List Char
  | [] => []
  | front :: rest => front :: (rest.reverse.dropWhile (· = '0')).reverse

section Trim

variable {front : Char} {rest : List Char} {exponent : Int}

/-- Digits are no point, so the point is dropped when no digit stands behind it. -/
theorem dropPoint_digits {digits tail : List Char} (hdigits : ∀ c ∈ digits, isDecimalDigit c = true)
    (htail : tail ≠ []) :
    dropPoint (digits ++ '.' :: tail) = if digits = [] then tail else digits ++ '.' :: tail := by
  cases digits with
  | nil =>
    obtain ⟨c, below, rfl⟩ := exists_cons_of_ne_nil htail
    rfl
  | cons c digits =>
    rw [if_neg (cons_ne_nil _ _), cons_append, dropPoint]
    rintro _ _ h
    have hc := hdigits c mem_cons_self
    rw [(cons.inj h).1] at hc
    exact absurd hc (by decide)

/-- What stands before the exponent: the sign, the front digit and the digits behind the point. -/
def mantissaText (negative : Bool) (front : Char) (rest : List Char) : List Char :=
  (if negative then ['-'] else []) ++ front :: (if rest = [] then [] else '.' :: rest)

def exponentTail (exponent : Int) : List Char :=
  ['e', if exponent < 0 then '-' else '+'] ++ magnitudeDigits exponent.natAbs

theorem exponentReal_text (negative : Bool) (front : Char) (rest : List Char) (exponent : Int) :
    (if negative then ['-'] else []) ++ (exponentReal (front :: rest) exponent).text =
      mantissaText negative front rest ++ exponentTail exponent := by
  unfold exponentReal RealText.text ExponentText.text mantissaText exponentTail
  cases rest with
  | nil => cases negative <;> rfl
  | cons c rest => simp

theorem mantissaText_ne_e (hdigits : IsDigits (front :: rest)) (negative : Bool) :
    ∀ c ∈ mantissaText negative front rest, c ≠ 'e' := by
  have hdigit : ∀ c ∈ front :: rest, c ≠ 'e' := fun c hc heq =>
    absurd (hdigits.2 c hc) (by rw [heq]; decide)
  intro c hc
  rcases mem_append.1 hc with hsign | hc
  · cases negative with
    | false => cases hsign
    | true =>
      obtain rfl := mem_singleton.1 hsign
      decide
  · rcases mem_cons.1 hc with rfl | hc
    · exact hdigit c mem_cons_self
    · split at hc
      · cases hc
      · rcases mem_cons.1 hc with rfl | hc
        · decide
        · exact hdigit c (.tail _ hc)

theorem takeWhile_mantissa (hdigits : IsDigits (front :: rest)) (negative : Bool) :
    (mantissaText negative front rest ++ exponentTail exponent).takeWhile (· ≠ 'e') =
      mantissaText negative front rest := by
  rw [takeWhile_append_of_pos fun c hc => decide_eq_true (mantissaText_ne_e hdigits negative c hc)]
  show _ ++ [] = _
  exact append_nil _

/-- The digits behind the point that stay. -/
theorem kept_mantissa (hdigits : IsDigits (front :: rest)) (hrest : rest ≠ []) (negative : Bool) :
    (dropPoint (dropZeros (mantissaText negative front rest).reverse)).reverse =
      mantissaText negative front (rest.reverse.dropWhile (· = '0')).reverse := by
  have hreverse : (mantissaText negative front rest).reverse =
      rest.reverse ++ '.' :: front :: (if negative then ['-'] else []).reverse := by
    unfold mantissaText
    rw [if_neg hrest]
    simp
  have hkept : ∀ c ∈ rest.reverse.dropWhile (· = '0'), isDecimalDigit c = true := fun c hc =>
    hdigits.2 c (.tail _ (mem_reverse.1 ((dropWhile_sublist _).mem hc)))
  rw [hreverse, dropZeros_point,
    dropPoint_digits hkept (cons_ne_nil _ _)]
  unfold mantissaText
  by_cases hnil : rest.reverse.dropWhile (· = '0') = []
  · rw [if_pos hnil, hnil]
    simp
  · rw [if_neg hnil, if_neg (mt reverse_eq_nil_iff.1 hnil)]
    simp

theorem length_of_mantissaText {negative : Bool} {kept : List Char} (hrest : rest ≠ [])
    (h : (mantissaText negative front kept).length = (mantissaText negative front rest).length) :
    kept.length = rest.length := by
  unfold mantissaText at h
  rw [if_neg hrest, length_append, length_append, length_cons, length_cons,
    length_cons] at h
  by_cases hkept : kept = []
  · rw [if_pos hkept, length_nil] at h
    omega
  · rw [if_neg hkept, length_cons] at h
    omega

theorem trimmedText_eq (hdigits : IsDigits (front :: rest)) (hrest : rest ≠ []) (negative : Bool) :
    trimmedText ((if negative then ['-'] else []) ++ (exponentReal (front :: rest) exponent).text) =
      (if negative then ['-'] else []) ++
        (exponentReal (trimmedDigits (front :: rest)) exponent).text := by
  unfold trimmedText trimmedDigits
  dsimp only
  rw [exponentReal_text, exponentReal_text, takeWhile_mantissa hdigits,
    kept_mantissa hdigits hrest, drop_left]
  split
  · next hlen =>
    -- nothing was dropped: what stays is all there was
    have hsuffix := dropWhile_suffix (l := rest.reverse) (· = '0')
    have hall : rest.reverse.dropWhile (· = '0') = rest.reverse := by
      apply hsuffix.eq_of_length
      have hlength := length_of_mantissaText hrest hlen
      rwa [length_reverse, ← @length_reverse _ rest] at hlength
    rw [hall, reverse_reverse]
  · rfl

theorem significantDigits_eq (hdigits : IsDigits (front :: rest)) (negative : Bool) :
    significantDigits
        ((if negative then ['-'] else []) ++ (exponentReal (front :: rest) exponent).text) =
      (front :: rest).length := by
  unfold significantDigits
  rw [exponentReal_text, takeWhile_mantissa hdigits]
  have hall : ∀ {digits : List Char}, (∀ c ∈ digits, isDecimalDigit c = true) →
      digits.filter isDecimalDigit = digits := fun h => filter_eq_self.2 h
  have hfront := hdigits.2 front mem_cons_self
  have hrest := hall fun c hc => hdigits.2 c (mem_cons_of_mem front hc)
  have hsign : (if negative then ['-'] else []).filter isDecimalDigit = [] := by
    cases negative <;> rfl
  unfold mantissaText
  rw [filter_append, hsign, nil_append, filter_cons_of_pos hfront]
  split
  · next h => rw [h]; rfl
  · rw [filter_cons_of_neg (by decide), hrest]

theorem trimmedDigits_append (front : Char) (rest : List Char) :
    ∃ zeros, front :: rest = trimmedDigits (front :: rest) ++ replicate zeros '0' := by
  obtain ⟨zeros, hzeros⟩ := append_zeros rest
  refine ⟨zeros, ?_⟩
  rw [trimmedDigits, cons_append, ← hzeros]

theorem trimmedDigits_ne_nil (front : Char) (rest : List Char) :
    trimmedDigits (front :: rest) ≠ [] := cons_ne_nil _ _

theorem isDigits_trimmed (hdigits : IsDigits (front :: rest)) :
    IsDigits (trimmedDigits (front :: rest)) := by
  obtain ⟨zeros, hzeros⟩ := trimmedDigits_append front rest
  refine ⟨trimmedDigits_ne_nil front rest, fun c hc => hdigits.2 c ?_⟩
  rw [hzeros]
  exact mem_append_left _ hc

/-- Zeros at the end of the digits leave the number as it is. -/
theorem scientific_trimmed (front : Char) (rest : List Char) :
    scientific (trimmedDigits (front :: rest)) exponent = scientific (front :: rest) exponent := by
  obtain ⟨zeros, hzeros⟩ := trimmedDigits_append front rest
  have hvalue : ofDigitChars 10 (front :: rest) 0 =
      10 ^ zeros * ofDigitChars 10 (trimmedDigits (front :: rest)) 0 := by
    conv_lhs => rw [hzeros]
    exact ofDigitChars_zeros _ _
  have hlength : (front :: rest).length = (trimmedDigits (front :: rest)).length + zeros := by
    conv_lhs => rw [hzeros, length_append, length_replicate]
  rw [scientific_eq (trimmedDigits_ne_nil front rest), scientific_eq (cons_ne_nil _ _),
    hvalue, hlength]
  have hexponent : (exponent + 1 - (trimmedDigits (front :: rest)).length : Int) =
      zeros + (exponent + 1 - ((trimmedDigits (front :: rest)).length + zeros : Nat)) := by
    push_cast
    ring
  rw [hexponent, zpow_add₀ (by norm_num), zpow_natCast]
  push_cast
  ring

/-- Where more than one digit stays, ten does not divide the number the digits write. -/
theorem not_dvd_trimmed (hdigits : IsDigits (front :: rest))
    (hmany : 1 < (trimmedDigits (front :: rest)).length) :
    ¬ 10 ∣ ofDigitChars 10 (trimmedDigits (front :: rest)) 0 := by
  have hne : rest.reverse.dropWhile (· = '0') ≠ [] := by
    intro hnil
    rw [trimmedDigits, hnil] at hmany
    exact absurd hmany (lt_irrefl 1)
  obtain ⟨last, above, hlast⟩ := exists_cons_of_ne_nil hne
  have hzero : last ≠ '0' := by
    have h := head_dropWhile_not (· = '0') hne
    simp only [hlast, head_cons] at h
    exact of_decide_eq_false h
  have hdigit : isDecimalDigit last = true := by
    apply hdigits.2 last
    apply mem_cons_of_mem
    apply mem_reverse.1
    apply (dropWhile_sublist _).mem
    rw [hlast]
    exact mem_cons_self
  have htrimmed : trimmedDigits (front :: rest) = (front :: above.reverse) ++ [last] := by
    rw [trimmedDigits, hlast, reverse_cons, cons_append]
  rw [htrimmed, Nat.ofDigitChars_append, Nat.ofDigitChars_cons, Nat.ofDigitChars_nil]
  unfold isDecimalDigit at hdigit
  rw [Bool.and_eq_true, decide_eq_true_eq, decide_eq_true_eq] at hdigit
  have hlow : '0'.toNat ≤ last.toNat := hdigit.1
  have hhigh : last.toNat ≤ '9'.toNat := hdigit.2
  have hne : last.toNat ≠ '0'.toNat := fun h => hzero (Char.toNat_inj.1 h)
  rw [show '0'.toNat = 48 from rfl] at *
  rw [show '9'.toNat = 57 from rfl] at hhigh
  omega

theorem length_trimmed_le {count k : Nat} {v : ℚ} (hv : 0 ≤ v)
    (h : Formats count v (front :: rest) exponent) (hk : 1 ≤ k) (hdigits : HasDigits k (rounded count v)) :
    (trimmedDigits (front :: rest)).length ≤ k := by
  by_cases hmany : 1 < (trimmedDigits (front :: rest)).length
  · have hdvd := not_dvd_trimmed h.isDigits hmany
    have hvalue : rounded count v = ofDigitChars 10 (trimmedDigits (front :: rest)) 0 *
        10 ^ (exponent + 1 - (trimmedDigits (front :: rest)).length : Int) := by
      rw [← h.value, ← scientific_trimmed, scientific_eq (trimmedDigits_ne_nil front rest)]
    obtain ⟨zeros, hzeros⟩ := trimmedDigits_append front rest
    have hnumber : ofDigitChars 10 (front :: rest) 0 =
        10 ^ zeros * ofDigitChars 10 (trimmedDigits (front :: rest)) 0 := by
      conv_lhs => rw [hzeros]
      exact ofDigitChars_zeros _ _
    have hlength : count = (trimmedDigits (front :: rest)).length + zeros := by
      rw [← h.length]
      conv_lhs => rw [hzeros, length_append, length_replicate]
    have hpos : 0 < v := by
      apply hv.lt_of_ne
      rintro rfl
      -- the zero has no digit but zeros
      rw [rounded_zero] at hvalue
      have hzero : ofDigitChars 10 (trimmedDigits (front :: rest)) 0 = 0 := by
        rcases mul_eq_zero.1 hvalue.symm with h | h
        · exact_mod_cast h
        · exact absurd h (by positivity)
      rw [hzero] at hdvd
      exact hdvd (dvd_zero _)
    have hlow := h.low hpos
    rw [hvalue] at hdigits
    apply digits_le_of_hasDigits _ hdvd hdigits
    apply Nat.le_of_mul_le_mul_left _ (show 0 < 10 ^ zeros by positivity)
    have hplaces : zeros + ((trimmedDigits (front :: rest)).length - 1) = count - 1 := by omega
    rw [← hnumber, ← pow_add, hplaces]
    exact hlow
  · omega

end Trim

/-! ## The Shortest Digits -/

section Shortest

variable {α : Type} {read : ℚ → α} {value : FiniteFloat} {roundsBack : List Char → Bool}

/-- `roundsBack` reads the number a text denotes, and sees whether it is the value's own. -/
def ReadsBack (read : ℚ → α) (value : FiniteFloat) (roundsBack : List Char → Bool) : Prop :=
  ∀ text q, Denotes text q → (roundsBack text = true ↔ read q = read value.toRat)

/-- The text reads back, and no decimal of fewer digits than it does. -/
def IsShortest (read : ℚ → α) (value : FiniteFloat) (roundsBack : List Char → Bool)
    (text : List Char) : Prop :=
  roundsBack text = true ∧
    ∀ k q, 1 ≤ k → HasDigits k q → read q = read value.toRat → significantDigits text ≤ k

/-- At the fewest digits any decimal that reads back has, ten at most and taken as two where it
    is one, the correctly rounded decimal reads back and needs no more than these. -/
def RoundsShort (read : ℚ → α) (value : FiniteFloat) : Prop :=
  ∃ n, 1 ≤ n ∧ n ≤ 10 ∧
    (∀ k q, 1 ≤ k → HasDigits k q → read q = read value.toRat → n ≤ k) ∧
    read (value.signed (rounded (max n 2) value.magnitude)) = read value.toRat ∧
    HasDigits n (rounded (max n 2) value.magnitude)

theorem denotes_exponentReal (value : FiniteFloat) {digits : List Char} (hdigits : IsDigits digits)
    (exponent : Int) :
    Denotes ((if value.negative then ['-'] else []) ++ (exponentReal digits exponent).text)
      (value.signed (scientific digits exponent)) := by
  refine ⟨value.negative, _, exponentReal_wellFormed hdigits, rfl, ?_⟩
  rw [exponentReal_value hdigits.1]
  rfl

/-- What a text of so many digits denotes, how many digits it has, and what trimming leaves. -/
theorem toChars_spec (value : FiniteFloat) (precision : Nat) :
    Denotes (toChars value precision) (value.signed (rounded (precision + 1) value.magnitude)) ∧
      significantDigits (toChars value precision) = precision + 1 := by
  obtain ⟨digits, exponent, hreal, hformats⟩ := charsReal_formats value.magnitude_nonneg precision
  obtain ⟨front, rest, rfl⟩ := exists_cons_of_ne_nil hformats.isDigits.1
  unfold toChars
  rw [hreal]
  constructor
  · rw [← hformats.value]
    exact denotes_exponentReal value hformats.isDigits exponent
  · rw [significantDigits_eq hformats.isDigits, hformats.length]

theorem trimmedText_spec (value : FiniteFloat) {precision : Nat} (hprecision : 1 ≤ precision) :
    Denotes (trimmedText (toChars value precision))
        (value.signed (rounded (precision + 1) value.magnitude)) ∧
      HasDigits (significantDigits (trimmedText (toChars value precision)))
        (rounded (precision + 1) value.magnitude) ∧
      1 ≤ significantDigits (trimmedText (toChars value precision)) ∧
      ∀ k, 1 ≤ k → HasDigits k (rounded (precision + 1) value.magnitude) →
        significantDigits (trimmedText (toChars value precision)) ≤ k := by
  obtain ⟨digits, exponent, hreal, hformats⟩ := charsReal_formats value.magnitude_nonneg precision
  obtain ⟨front, rest, rfl⟩ := exists_cons_of_ne_nil hformats.isDigits.1
  have hrest : rest ≠ [] := by
    rintro rfl
    have hlength := hformats.length
    rw [length_singleton] at hlength
    omega
  have htrimmed := isDigits_trimmed hformats.isDigits
  have hcount : significantDigits (trimmedText (toChars value precision)) =
      (trimmedDigits (front :: rest)).length := by
    unfold toChars
    rw [hreal, trimmedText_eq hformats.isDigits hrest]
    exact significantDigits_eq htrimmed value.negative
  have hvalue : scientific (trimmedDigits (front :: rest)) exponent =
      rounded (precision + 1) value.magnitude := (scientific_trimmed front rest).trans hformats.value
  rw [hcount]
  refine ⟨?_, ?_, length_pos_of_ne_nil htrimmed.1,
    fun k hk hdigits => length_trimmed_le value.magnitude_nonneg hformats hk hdigits⟩
  · unfold toChars
    rw [hreal, trimmedText_eq hformats.isDigits hrest, ← hvalue]
    exact denotes_exponentReal value htrimmed exponent
  · rw [← hvalue, scientific_eq htrimmed.1]
    refine ⟨ofDigitChars 10 (trimmedDigits (front :: rest)) 0, _, ?_, by rfl⟩
    rw [Nat.abs_cast]
    exact_mod_cast ofDigitChars_lt htrimmed.2

theorem hasDigits_signed (value : FiniteFloat) {n : Nat} {q : ℚ} (h : HasDigits n q) :
    HasDigits n (value.signed q) := by
  unfold FiniteFloat.signed
  split
  · exact h.neg
  · exact h

/-- The text the search gives: trimmed at the first count of digits that reads back, or at full
    width. -/
theorem shortestHalfDigits_cases (value : FiniteFloat) (roundsBack : List Char → Bool) :
    (∃ precision, 1 ≤ precision ∧ precision < 9 ∧ roundsBack (toChars value precision) = true ∧
      (∀ fewer, 1 ≤ fewer → fewer < precision → roundsBack (toChars value fewer) = false) ∧
      shortestHalfDigits value roundsBack = trimmedText (toChars value precision)) ∨
    (∀ precision, 1 ≤ precision → precision < 9 → roundsBack (toChars value precision) = false) ∧
      shortestHalfDigits value roundsBack = toChars value 9 := by
  unfold shortestHalfDigits
  cases hfind : (range' 1 8).find? fun digitCount => roundsBack (toChars value digitCount) with
  | some precision =>
    left
    obtain ⟨hback, hmem, hbefore⟩ := find?_range'_eq_some.1 hfind
    obtain ⟨hlow, hhigh⟩ := mem_range'_1.1 hmem
    refine ⟨precision, hlow, hhigh, hback, fun fewer hone hlt => ?_, rfl⟩
    have hnot := hbefore fewer hone hlt
    exact Bool.not_eq_true' _ ▸ hnot
  | none =>
    right
    refine ⟨fun precision hlow hhigh => ?_, rfl⟩
    have hnone := find?_eq_none.1 hfind precision (mem_range'_1.2 ⟨hlow, hhigh⟩)
    exact Bool.eq_false_iff.2 hnone

/-- The search gives the shortest text that reads back just when rounding to as few digits as any
    decimal that reads back has, or to two, reads back and needs no more. -/
theorem shortestHalfDigits_shortest_iff (hback : ReadsBack read value roundsBack) :
    IsShortest read value roundsBack (shortestHalfDigits value roundsBack) ↔
      RoundsShort read value := by
  have hreads : ∀ precision, roundsBack (toChars value precision) = true ↔
      read (value.signed (rounded (precision + 1) value.magnitude)) = read value.toRat :=
    fun precision => hback _ _ (toChars_spec value precision).1
  constructor
  · rintro ⟨hback', hleast⟩
    rcases shortestHalfDigits_cases value roundsBack with
      ⟨precision, hlow, hhigh, hprecision, -, htext⟩ | ⟨-, htext⟩
    · -- the digits that stay are the fewest, and rounding to them gives the same decimal
      rw [htext] at hleast
      obtain ⟨-, hdigits, hone, hfewest⟩ := trimmedText_spec value hlow
      have hwhole := hasDigits_rounded (n := precision + 1) (by omega) value.magnitude_nonneg
      have hle := hfewest _ (by omega) hwhole
      have hsame : rounded (max (significantDigits (trimmedText (toChars value precision))) 2)
          value.magnitude = rounded (precision + 1) value.magnitude := by
        rcases lt_or_ge (max (significantDigits (trimmedText (toChars value precision))) 2)
          (precision + 1) with hlt | hge
        · exact rounded_of_hasDigits (by omega) hlt value.magnitude_nonneg
            (hdigits.mono (le_max_left _ _))
        · rw [show max (significantDigits (trimmedText (toChars value precision))) 2 =
            precision + 1 by omega]
      refine ⟨_, hone, by omega, hleast, ?_, ?_⟩
      · rw [hsame]
        exact (hreads precision).1 hprecision
      · rw [hsame]
        exact hdigits
    · rw [htext] at hback' hleast
      rw [(toChars_spec value 9).2] at hleast
      exact ⟨10, by omega, le_rfl, hleast, (hreads 9).1 hback',
        hasDigits_rounded (by omega) value.magnitude_nonneg⟩
  · rintro ⟨n, hone, hten, hleast, hread, hdigits⟩
    have hnext : max n 2 - 1 + 1 = max n 2 := by omega
    -- fewer digits do not read back, so the search does not stop before these
    have hfirst : ∀ precision, 1 ≤ precision → roundsBack (toChars value precision) = true →
        max n 2 - 1 ≤ precision := fun precision hlow hprecision => by
      have hwhole := hasDigits_rounded (n := precision + 1) (by omega) value.magnitude_nonneg
      have hle := hleast (precision + 1) _ (by omega) (hasDigits_signed value hwhole)
        ((hreads precision).1 hprecision)
      omega
    have hthese : roundsBack (toChars value (max n 2 - 1)) = true := by
      rw [hreads, hnext]
      exact hread
    rcases shortestHalfDigits_cases value roundsBack with
      ⟨precision, hlow, hhigh, hprecision, hbefore, htext⟩ | ⟨hnone, htext⟩
    · have hge := hfirst precision hlow hprecision
      have hstop : precision = max n 2 - 1 := by
        rcases lt_or_ge (max n 2 - 1) precision with hlt | hge'
        · have hnot := hbefore (max n 2 - 1) (by omega) hlt
          rw [hthese] at hnot
          cases hnot
        · omega
      subst hstop
      obtain ⟨hdenotes, -, -, hfewest⟩ := trimmedText_spec value hlow
      rw [hnext] at hdenotes hfewest
      rw [htext]
      refine ⟨(hback _ _ hdenotes).2 hread, fun k q hk hq hqread => ?_⟩
      exact (hfewest n hone hdigits).trans (hleast k q hk hq hqread)
    · have hlast : max n 2 = 10 := by
        by_contra hne
        have hnot := hnone (max n 2 - 1) (by omega) (by omega)
        rw [hthese] at hnot
        cases hnot
      rw [htext]
      rw [show max n 2 - 1 = 9 by omega] at hthese
      refine ⟨hthese, fun k q hk hq hqread => ?_⟩
      rw [(toChars_spec value 9).2]
      have hle := hleast k q hk hq hqread
      omega

/-- The value of a text, read under its sign and compared. -/
def readsBackAs [DecidableEq α] (read : ℚ → α) (value : FiniteFloat) (text : List Char) : Bool :=
  match splitNumberSign text with
  | none => false
  | some (negative, body) =>
    match realParts body with
    | none => false
    | some parts =>
      let q := partsValue body parts
      read (if negative then -q else q) = read value.toRat

theorem readsBack_readsBackAs [DecidableEq α] (read : ℚ → α) (value : FiniteFloat) :
    ReadsBack read value (readsBackAs read value) := by
  rintro text q ⟨negative, t, hwf, rfl, rfl⟩
  obtain ⟨haccepts, hvalue⟩ := realParts_text hwf
  unfold readsBackAs
  rw [splitNumberSign_text hwf negative]
  dsimp only
  rw [haccepts]
  dsimp only
  rw [hvalue, decide_eq_true_eq]

/-- The least element of a bf16, whose neighbours are the multiples of it. -/
def leastBf16 : FiniteFloat := ⟨false, 1, -133⟩

def leastBf16Steps (q : ℚ) : ℤ := roundEven (q * 2 ^ 133)

theorem shortestHalfDigits_shortest_iff_least :
    IsShortest leastBf16Steps leastBf16 (readsBackAs leastBf16Steps leastBf16)
        (shortestHalfDigits leastBf16 (readsBackAs leastBf16Steps leastBf16)) ↔
      RoundsShort leastBf16Steps leastBf16 :=
  shortestHalfDigits_shortest_iff (readsBack_readsBackAs leastBf16Steps leastBf16)

theorem leastBf16_magnitude : leastBf16.magnitude = (2 ^ 133 : ℚ)⁻¹ := by
  unfold FiniteFloat.magnitude leastBf16
  norm_num

theorem log_leastBf16 : Int.log 10 ((2 ^ 133 : ℚ)⁻¹) = -41 := by
  have hpos : (0 : ℚ) < (2 ^ 133 : ℚ)⁻¹ := by positivity
  apply le_antisymm
  · have h := (Int.lt_zpow_iff_log_lt (b := 10) (x := -40) (by norm_num) hpos).1 (by norm_num)
    omega
  · exact (Int.zpow_le_iff_le_log (b := 10) (by norm_num) hpos).1 (by norm_num)

theorem rounded_leastBf16 : rounded 2 leastBf16.magnitude = (92 : ℕ) * 10 ^ (-42 : ℤ) := by
  rw [leastBf16_magnitude]
  unfold rounded roundedDigits lastPlace
  rw [log_leastBf16]
  have hdigits : roundEven ((2 ^ 133 : ℚ)⁻¹ * 10 ^ (-(-41 - (((2 : ℕ) : ℤ) - 1)))) = 92 := by
    apply roundEven_of_near
    norm_num [abs_lt]
  rw [hdigits]
  norm_num

/-- The least bf16 is written as `9.2e-41`, and `9e-41` reads back. -/
theorem shortestHalfDigits_least :
    ¬ ∀ (read : ℚ → ℤ) (value : FiniteFloat) (roundsBack : List Char → Bool),
      Monotone read → ReadsBack read value roundsBack →
      IsShortest read value roundsBack (shortestHalfDigits value roundsBack) := by
  intro h
  have hmono : Monotone leastBf16Steps := fun x y hxy =>
    roundEven_monotone (mul_le_mul_of_nonneg_right hxy (by positivity))
  have hback := readsBack_readsBackAs leastBf16Steps leastBf16
  have hvalue : leastBf16Steps leastBf16.toRat = 1 := by
    apply roundEven_of_near
    show |leastBf16.magnitude * 2 ^ 133 - (1 : ℤ)| < 1 / 2
    rw [leastBf16_magnitude]
    norm_num
  have htwo : readsBackAs leastBf16Steps leastBf16 (toChars leastBf16 1) = true := by
    rw [hback _ _ (toChars_spec leastBf16 1).1, hvalue]
    apply roundEven_of_near
    show |rounded 2 leastBf16.magnitude * 2 ^ 133 - (1 : ℤ)| < 1 / 2
    rw [rounded_leastBf16]
    norm_num [abs_lt]
  have htext : shortestHalfDigits leastBf16 (readsBackAs leastBf16Steps leastBf16) =
      trimmedText (toChars leastBf16 1) := by
    unfold shortestHalfDigits
    rw [show List.range' 1 8 = 1 :: List.range' 2 7 from rfl, find?_cons, htwo]
  obtain ⟨-, hleast⟩ := h _ _ _ hmono hback
  rw [htext] at hleast
  have hone := hleast 1 (9 * 10 ^ (-41 : ℤ)) le_rfl ⟨9, -41, by decide, by norm_num⟩ (by
    rw [hvalue]
    apply roundEven_of_near
    norm_num [abs_lt])
  obtain ⟨-, hdigits, -⟩ := @trimmedText_spec leastBf16 1 le_rfl
  rw [rounded_leastBf16] at hdigits
  have htwo := digits_le_of_hasDigits (c := 2) (by decide) (by decide) (hdigits.mono hone)
  exact absurd htwo (by decide)

end Shortest

end Camel.Text
