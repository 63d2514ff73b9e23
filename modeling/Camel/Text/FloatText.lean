import Camel.Text.NumberText
import Mathlib

/-! # The Layout of a Float

    A float is written from its decimal digits and its decimal exponent: as a plain number
    where that is short, with an exponent otherwise. The reader of real tokens splits the
    text again. What a text denotes is stated apart from both.
-/

namespace Camel.Text

open List Option

open Nat (ofDigitChars)

/-! ## The Writer -/

variable (n : Nat) (digits : List Char) (exponent : Int)

/-- `-exponent` of an `int`, which its least value does not have. -/
def negatedInt : Option Int := if exponent = -2 ^ 31 then none else some (-exponent)

def layoutFloatText (negative : Bool) : Option (List Char) :=
  let text := if negative then ['-'] else []
  if -4 ≤ exponent ∧ exponent < 16 then
    if exponent < 0 then
      some (text ++ ['0', '.'] ++ List.replicate (-exponent - 1).toNat '0' ++ digits)
    else
      let whole := exponent.toNat + 1
      if digits.length ≤ whole then
        some (text ++ digits ++ List.replicate (whole - digits.length) '0' ++ ['.', '0'])
      else some (text ++ digits.take whole ++ '.' :: digits.drop whole)
  else
    match digits with
    | [] => none
    | front :: rest =>
      let text := text ++ front :: (if rest = [] then [] else '.' :: rest)
      let text := text ++ ['e', if exponent < 0 then '-' else '+']
      (if exponent < 0 then negatedInt exponent else some exponent).map fun magnitude =>
        text ++ (if magnitude < 10 then ['0'] else []) ++ Nat.toDigits 10 magnitude.toNat

/-! ## The Reader -/

structure RealParts where
  point : Bool := false
  exponent : Bool := false
  integerDigits : Nat := 0

/-- A point with digits behind it, or no point; and what is left. -/
def fractionPart : List Char → Option (Bool × List Char)
  | '.' :: body =>
    if body.takeWhile isDecimalDigit = [] then none
    else some (true, body.dropWhile isDecimalDigit)
  | body => some (false, body)

/-- The sign of an exponent is left out. -/
def skipSign : List Char → List Char
  | '+' :: body => body
  | '-' :: body => body
  | body => body

/-- An exponent with its digits, or no exponent; and what is left. -/
def exponentPart : List Char → Option (Bool × List Char)
  | [] => some (false, [])
  | c :: body =>
    if c = 'e' ∨ c = 'E' then
      if (skipSign body).takeWhile isDecimalDigit = [] then none
      else some (true, (skipSign body).dropWhile isDecimalDigit)
    else some (false, c :: body)

def realParts (body : List Char) : Option RealParts :=
  let whole := body.takeWhile isDecimalDigit
  if whole = [] then none
  else
    match fractionPart (body.dropWhile isDecimalDigit) with
    | none => none
    | some (point, body) =>
      match exponentPart body with
      | none => none
      | some (exponent, body) =>
        if body = [] then some { point, exponent, integerDigits := whole.length } else none

/-! ## What a Text Denotes -/

/-- A nonempty run of decimal digits. -/
def IsDigits (text : List Char) : Prop := text ≠ [] ∧ ∀ c ∈ text, isDecimalDigit c = true

/-- The sign of an exponent, and its digits. -/
structure ExponentText where
  marker : Char
  sign : Option Char
  digits : List Char

/-- A real number as it is written: digits, a fraction, an exponent. -/
structure RealText where
  whole : List Char
  fraction : Option (List Char)
  exponent : Option ExponentText

namespace ExponentText

structure WellFormed (e : ExponentText) : Prop where
  marker : e.marker = 'e' ∨ e.marker = 'E'
  sign : e.sign = none ∨ e.sign = some '+' ∨ e.sign = some '-'
  digits : IsDigits e.digits

def text (e : ExponentText) : List Char := e.marker :: (e.sign.toList ++ e.digits)

def value (e : ExponentText) : Int :=
  if e.sign = some '-' then -(ofDigitChars 10 e.digits 0) else ofDigitChars 10 e.digits 0

end ExponentText

namespace RealText

structure WellFormed (t : RealText) : Prop where
  whole : IsDigits t.whole
  fraction : ∀ digits, t.fraction = some digits → IsDigits digits
  exponent : ∀ e, t.exponent = some e → e.WellFormed

def text (t : RealText) : List Char :=
  t.whole ++ (t.fraction.elim [] ('.' :: ·) ++ t.exponent.elim [] (·.text))

def value (t : RealText) : ℚ :=
  ofDigitChars 10 (t.whole ++ t.fraction.getD []) 0 *
    10 ^ (t.exponent.elim 0 (·.value) - (t.fraction.getD []).length : Int)

def parts (t : RealText) : RealParts where
  point := t.fraction.isSome
  exponent := t.exponent.isSome
  integerDigits := t.whole.length

end RealText

/-- A signed text and the number it stands for. -/
def Denotes (text : List Char) (q : ℚ) : Prop :=
  ∃ (negative : Bool) (t : RealText), t.WellFormed ∧
    text = (if negative then ['-'] else []) ++ t.text ∧ q = if negative then -t.value else t.value

/-- The number a body stands for, cut where the reader's parts say. -/
def partsValue (body : List Char) (parts : RealParts) : ℚ :=
  let whole := body.take parts.integerDigits
  let behind := body.drop (if parts.point then parts.integerDigits + 1 else parts.integerDigits)
  let fraction := if parts.point then behind.takeWhile isDecimalDigit else []
  let exponent := (behind.drop fraction.length).drop 1
  let magnitude : Int := ofDigitChars 10 (skipSign exponent) 0
  ofDigitChars 10 (whole ++ fraction) 0 *
    10 ^ ((if parts.exponent then if exponent.head? = some '-' then -magnitude else magnitude
      else 0) - fraction.length : Int)

/-! ## The Reader Splits What Is Written -/

/-- No digit stands at the front of a text. -/
def StopsAt (text : List Char) : Prop := ∀ c ∈ text.head?, isDecimalDigit c = false

theorem takeWhile_run {digits rest : List Char} (hdigits : ∀ c ∈ digits, isDecimalDigit c = true)
    (hrest : StopsAt rest) : (digits ++ rest).takeWhile isDecimalDigit = digits := by
  rw [takeWhile_append_of_pos hdigits]
  cases rest with
  | nil => rw [takeWhile_nil, append_nil]
  | cons c rest =>
    have hc := hrest c rfl
    rw [takeWhile_cons_of_neg (by rw [hc]; exact Bool.false_ne_true), append_nil]

theorem dropWhile_run {digits rest : List Char} (hdigits : ∀ c ∈ digits, isDecimalDigit c = true)
    (hrest : StopsAt rest) : (digits ++ rest).dropWhile isDecimalDigit = rest := by
  rw [dropWhile_append_of_pos hdigits]
  cases rest with
  | nil => rfl
  | cons c rest =>
    have hc := hrest c rfl
    rw [dropWhile_cons_of_neg (by rw [hc]; exact Bool.false_ne_true)]

section Split

variable {e : ExponentText} {t : RealText}

theorem not_digit_marker (h : e.WellFormed) : isDecimalDigit e.marker = false := by
  rcases h.marker with hm | hm <;> rw [hm] <;> rfl

/-- The sign is taken off the digits, which begin with none. -/
theorem skipSign_text (h : e.WellFormed) : skipSign (e.sign.toList ++ e.digits) = e.digits := by
  rcases h.sign with hs | hs | hs
  · rw [hs]
    show skipSign e.digits = e.digits
    have hdigits := h.digits.2
    unfold skipSign
    split
    · next heq => exact absurd (hdigits '+' (by rw [heq]; exact mem_cons_self)) (by decide)
    · next heq => exact absurd (hdigits '-' (by rw [heq]; exact mem_cons_self)) (by decide)
    · rfl
  · rw [hs]
    rfl
  · rw [hs]
    rfl

theorem head_exponent (h : e.WellFormed) :
    (e.sign.toList ++ e.digits).head? = some '-' ↔ e.sign = some '-' := by
  rcases h.sign with hs | hs | hs
  · rw [hs]
    constructor
    · intro hhead
      obtain ⟨hne, hdigits⟩ := h.digits
      cases hd : e.digits with
      | nil => exact absurd hd hne
      | cons c digits =>
        rw [hd] at hhead hdigits
        obtain rfl := some.inj hhead
        exact absurd (hdigits '-' mem_cons_self) (by decide)
    · exact nofun
  · rw [hs]
    exact ⟨nofun, nofun⟩
  · rw [hs]
    exact ⟨fun _ => rfl, fun _ => rfl⟩

section
variable (h : ∀ e, t.exponent = some e → e.WellFormed)
include h

theorem exponentPart_text :
    exponentPart (t.exponent.elim [] (·.text)) = some (t.exponent.isSome, []) := by
  cases he : t.exponent with
  | none => rfl
  | some e =>
    have hwf := h e he
    show exponentPart (e.marker :: (e.sign.toList ++ e.digits)) = some (true, [])
    rw [exponentPart, if_pos hwf.marker, skipSign_text hwf]
    have hrun := takeWhile_run hwf.digits.2 (show StopsAt [] from nofun)
    have hend := dropWhile_run hwf.digits.2 (show StopsAt [] from nofun)
    rw [append_nil] at hrun hend
    rw [hrun, hend, if_neg hwf.digits.1]

theorem stopsAt_exponent :
    StopsAt (t.exponent.elim [] (·.text)) := by
  cases he : t.exponent with
  | none => exact nofun
  | some e =>
    rintro c hc
    obtain rfl := some.inj hc
    exact not_digit_marker (h e he)

theorem stopsAt_fraction :
    StopsAt (t.fraction.elim [] ('.' :: ·) ++ t.exponent.elim [] (·.text)) := by
  cases hf : t.fraction with
  | none => exact stopsAt_exponent h
  | some digits =>
    rintro c hc
    obtain rfl := some.inj hc
    rfl

end

theorem fractionPart_text (h : t.WellFormed) :
    fractionPart (t.fraction.elim [] ('.' :: ·) ++ t.exponent.elim [] (·.text)) =
      some (t.fraction.isSome, t.exponent.elim [] (·.text)) := by
  have hstop := stopsAt_exponent h.exponent
  cases hf : t.fraction with
  | none =>
    show fractionPart (t.exponent.elim [] (·.text)) = some (false, _)
    unfold fractionPart
    split
    · next heq =>
      -- an exponent does not begin with a point
      cases he : t.exponent with
      | none =>
        rw [he] at heq
        cases heq
      | some e =>
        rw [he] at heq
        have hmarker : e.marker = '.' := (cons.inj heq).1
        rcases (h.exponent e he).marker with hm | hm <;> rw [hm] at hmarker <;>
          exact absurd hmarker (by decide)
    · rfl
  | some digits =>
    obtain ⟨hne, hdigits⟩ := h.fraction digits hf
    show fractionPart ('.' :: (digits ++ t.exponent.elim [] (·.text))) = some (true, _)
    rw [fractionPart, takeWhile_run hdigits hstop, dropWhile_run hdigits hstop, if_neg hne]

/-- What stands behind the digits that the parts count, without the point. -/
theorem behind_text (t : RealText) :
    t.text.drop (if t.parts.point then t.parts.integerDigits + 1 else t.parts.integerDigits) =
      t.fraction.getD [] ++ t.exponent.elim [] (·.text) := by
  unfold RealText.text RealText.parts
  dsimp only
  cases t.fraction with
  | none =>
    show (t.whole ++ ([] ++ _)).drop t.whole.length = [] ++ _
    exact drop_left
  | some digits =>
    show (t.whole ++ ('.' :: digits ++ _)).drop (t.whole.length + 1) = digits ++ _
    rw [drop_append, drop_eq_nil_of_le (Nat.le_succ _), nil_append,
      Nat.add_sub_cancel_left]
    rfl

theorem fraction_behind (h : t.WellFormed) :
    (if t.parts.point then
      (t.fraction.getD [] ++ t.exponent.elim [] (·.text)).takeWhile isDecimalDigit else []) =
        t.fraction.getD [] := by
  unfold RealText.parts
  dsimp only
  cases hf : t.fraction with
  | none => rfl
  | some digits => exact takeWhile_run (h.fraction digits hf).2 (stopsAt_exponent h.exponent)

/-- The digits of the exponent, and its sign, as the reader's parts find them. -/
theorem exponent_behind (h : ∀ e, t.exponent = some e → e.WellFormed) :
    (if t.parts.exponent then
      if ((t.exponent.elim [] (·.text)).drop 1).head? = some '-' then
        -(ofDigitChars 10 (skipSign ((t.exponent.elim [] (·.text)).drop 1)) 0 : Int)
      else (ofDigitChars 10 (skipSign ((t.exponent.elim [] (·.text)).drop 1)) 0 : Int)
    else 0) = t.exponent.elim 0 (·.value) := by
  unfold RealText.parts
  dsimp only
  cases he : t.exponent with
  | none => rfl
  | some e =>
    have hwf := h e he
    show (if (e.sign.toList ++ e.digits).head? = some '-' then
        -(ofDigitChars 10 (skipSign (e.sign.toList ++ e.digits)) 0 : Int)
      else (ofDigitChars 10 (skipSign (e.sign.toList ++ e.digits)) 0 : Int)) = e.value
    rw [skipSign_text hwf]
    unfold ExponentText.value
    by_cases hs : e.sign = some '-'
    · rw [if_pos ((head_exponent hwf).2 hs), if_pos hs]
    · rw [if_neg (mt (head_exponent hwf).1 hs), if_neg hs]

theorem partsValue_text (h : t.WellFormed) : partsValue t.text t.parts = t.value := by
  have hwhole : t.text.take t.parts.integerDigits = t.whole := take_left
  unfold partsValue
  dsimp only
  rw [hwhole, behind_text, fraction_behind h, drop_left, exponent_behind h.exponent]
  rfl

/-- The reader accepts what is written, and its parts stand for the same number. -/
theorem realParts_text (h : t.WellFormed) :
    realParts t.text = some t.parts ∧ partsValue t.text t.parts = t.value := by
  have hstop := stopsAt_fraction h.exponent
  constructor
  · unfold realParts RealText.text
    dsimp only
    rw [takeWhile_run h.whole.2 hstop, dropWhile_run h.whole.2 hstop, if_neg h.whole.1,
      fractionPart_text h]
    dsimp only
    rw [exponentPart_text h.exponent]
    rfl
  · exact partsValue_text h

end Split

/-! ## What Is Written -/

/-- The number of digits with a point behind the first, at a decimal exponent. -/
def scientific : ℚ :=
  ofDigitChars 10 digits 0 / 10 ^ (digits.length - 1) * 10 ^ exponent

/-- The digits of an exponent: two at least. -/
def magnitudeDigits (magnitude : Nat) : List Char :=
  (if magnitude < 10 then ['0'] else []) ++ Nat.toDigits 10 magnitude

/-- The parts of a text with an exponent, of the sign and the digits it is written with. -/
def exponentReal : RealText :=
  ⟨digits.take 1, if digits.tail = [] then none else some digits.tail,
    some ⟨'e', some (if exponent < 0 then '-' else '+'), magnitudeDigits exponent.natAbs⟩⟩

/-- The parts of the text that is laid out. -/
def writtenReal : RealText :=
  if -4 ≤ exponent ∧ exponent < 16 then
    if exponent < 0 then
      ⟨['0'], some (List.replicate (-exponent - 1).toNat '0' ++ digits), none⟩
    else
      let whole := exponent.toNat + 1
      if digits.length ≤ whole then
        ⟨digits ++ List.replicate (whole - digits.length) '0', some ['0'], none⟩
      else ⟨digits.take whole, some (digits.drop whole), none⟩
  else exponentReal digits exponent

section Layout

variable {digits : List Char} {exponent : Int}

theorem isDecimalDigit_of_isDigit {c : Char} (h : c.isDigit = true) : isDecimalDigit c = true := by
  have hc := Char.isDigit_iff_toNat.1 h
  unfold isDecimalDigit
  rw [Bool.and_eq_true, decide_eq_true_eq, decide_eq_true_eq]
  exact hc

theorem isDigits_magnitude : IsDigits (magnitudeDigits n) := by
  constructor
  · intro h
    exact Nat.toDigits_ne_nil (append_eq_nil_iff.1 h).2
  · intro c hc
    rcases mem_append.1 hc with hzero | hdigit
    · split at hzero
      · obtain rfl := mem_singleton.1 hzero
        rfl
      · cases hzero
    · exact isDecimalDigit_of_isDigit
        (Nat.isDigit_of_mem_toDigits (by decide) (by decide) hdigit)

/-- A zero in front leaves the number as it is. -/
theorem ofDigitChars_zero_cons (digits : List Char) :
    ofDigitChars 10 ('0' :: digits) 0 = ofDigitChars 10 digits 0 := by
  rw [Nat.ofDigitChars_cons]
  rfl

theorem magnitude_value : ofDigitChars 10 (magnitudeDigits n) 0 = n := by
  unfold magnitudeDigits
  split
  · rw [singleton_append, ofDigitChars_zero_cons, Nat.ofDigitChars_ten_toDigits]
  · rw [nil_append, Nat.ofDigitChars_ten_toDigits]

theorem isDigits_zeros {n : Nat} : ∀ c ∈ replicate n '0', isDecimalDigit c = true := by
  intro c hc
  rw [eq_of_mem_replicate hc]
  rfl

theorem IsDigits.append {front back : List Char} (h : IsDigits front)
    (hback : ∀ c ∈ back, isDecimalDigit c = true) : IsDigits (front ++ back) := by
  refine ⟨fun hnil => h.1 (append_eq_nil_iff.1 hnil).1, fun c hc => ?_⟩
  rcases mem_append.1 hc with hc | hc
  · exact h.2 c hc
  · exact hback c hc

theorem IsDigits.drop (h : IsDigits digits) {n : Nat} (hn : n < digits.length) :
    IsDigits (digits.drop n) := by
  refine ⟨fun hnil => ?_, fun c hc => h.2 c (mem_of_mem_drop hc)⟩
  exact Nat.not_le_of_lt hn (drop_eq_nil_iff.1 hnil)

theorem IsDigits.take (h : IsDigits digits) (n : Nat) : IsDigits (digits.take (n + 1)) := by
  refine ⟨fun hnil => h.1 ?_, fun c hc => h.2 c (mem_of_mem_take hc)⟩
  rcases take_eq_nil_iff.1 hnil with hzero | hzero
  · cases hzero
  · exact hzero

theorem isDigits_zero : IsDigits ['0'] := ⟨nofun, isDigits_zeros (n := 1)⟩

theorem exponentReal_wellFormed (h : IsDigits digits) :
    (exponentReal digits exponent).WellFormed := by
  refine ⟨h.take 0, ?_, ?_⟩
  · show ∀ fraction, (if digits.tail = [] then none else some digits.tail) = some fraction → _
    intro fraction hfraction
    split at hfraction
    · cases hfraction
    · next htail =>
      cases hfraction
      exact ⟨htail, fun c hc => h.2 c (mem_of_mem_tail hc)⟩
  · rintro e ⟨⟩
    refine ⟨.inl rfl, .inr ?_, isDigits_magnitude _⟩
    show some (if exponent < 0 then '-' else '+') = some '+' ∨
      some (if exponent < 0 then '-' else '+') = some '-'
    by_cases hneg : exponent < 0
    · exact .inr (by rw [if_pos hneg])
    · exact .inl (by rw [if_neg hneg])

theorem writtenReal_wellFormed (h : IsDigits digits) : (writtenReal digits exponent).WellFormed := by
  unfold writtenReal
  dsimp only
  split
  · split
    · -- the zeros stand before digits, so the fraction is not empty
      refine ⟨isDigits_zero, ?_, nofun⟩
      rintro fraction ⟨⟩
      refine ⟨fun hnil => h.1 (append_eq_nil_iff.1 hnil).2, fun c hc => ?_⟩
      rcases mem_append.1 hc with hc | hc
      · exact isDigits_zeros c hc
      · exact h.2 c hc
    · split
      · refine ⟨h.append isDigits_zeros, ?_, nofun⟩
        rintro fraction ⟨⟩
        exact isDigits_zero
      · next hlong =>
        refine ⟨h.take _, ?_, nofun⟩
        rintro fraction ⟨⟩
        exact h.drop (lt_of_not_ge hlong)
  · exact exponentReal_wellFormed h

/-- The writer lays these parts out behind the sign. -/
theorem layoutFloatText_eq (hne : digits ≠ []) (hlow : -2 ^ 31 < exponent) (negative : Bool) :
    layoutFloatText digits exponent negative =
      some ((if negative then ['-'] else []) ++ (writtenReal digits exponent).text) := by
  unfold layoutFloatText writtenReal exponentReal RealText.text
  dsimp only
  split
  · split
    · show some (_ ++ ['0', '.'] ++ _ ++ _) = some (_ ++ (['0'] ++ ('.' :: (_ ++ _) ++ [])))
      simp only [append_assoc, append_nil, cons_append, nil_append]
    · split
      · show some (_ ++ _ ++ _ ++ ['.', '0']) = some (_ ++ (_ ++ _ ++ (['.', '0'] ++ [])))
        simp only [append_assoc, append_nil]
      · show some (_ ++ _ ++ '.' :: _) = some (_ ++ (_ ++ ('.' :: _ ++ [])))
        simp only [append_assoc, append_nil]
  · obtain ⟨front, rest, rfl⟩ := exists_cons_of_ne_nil hne
    have hmagnitude : (if exponent < 0 then negatedInt exponent else some exponent) =
        some (exponent.natAbs : Int) := by
      unfold negatedInt
      split
      · rw [if_neg (by omega)]
        congr 1
        omega
      · congr 1
        omega
    dsimp only
    rw [hmagnitude]
    show some _ = some _
    congr 1
    unfold ExponentText.text magnitudeDigits
    generalize exponent.natAbs = magnitude
    have hsmall : ((magnitude : Int) < 10) ↔ magnitude < 10 := by omega
    cases rest with
    | nil => simp [hsmall]
    | cons c rest => simp [hsmall]

/-! ### The number that is written -/

theorem scientific_eq (hne : digits ≠ []) :
    scientific digits exponent =
      ofDigitChars 10 digits 0 * 10 ^ (exponent + 1 - digits.length : Int) := by
  have hpos := length_pos_of_ne_nil hne
  have hsplit : (exponent + 1 - digits.length : Int) = exponent - (digits.length - 1 : Nat) := by
    omega
  unfold scientific
  rw [hsplit, zpow_sub₀ (by norm_num), zpow_natCast]
  ring

theorem ofDigitChars_zeros (digits : List Char) (n : Nat) :
    ofDigitChars 10 (digits ++ replicate n '0') 0 = 10 ^ n * ofDigitChars 10 digits 0 := by
  rw [Nat.ofDigitChars_append, Nat.ofDigitChars_replicate_zero]

theorem ofDigitChars_zeros_append (digits : List Char) :
    ofDigitChars 10 (replicate n '0' ++ digits) 0 = ofDigitChars 10 digits 0 := by
  rw [Nat.ofDigitChars_append, Nat.ofDigitChars_replicate_zero, mul_zero]

/-- Below one: zeros stand between the point and the digits. -/
theorem value_small (digits : List Char) {n : Nat} (hn : (n : Int) = -exponent - 1) :
    RealText.value ⟨['0'], some (replicate n '0' ++ digits), none⟩ =
      ofDigitChars 10 digits 0 * 10 ^ (exponent + 1 - digits.length : Int) := by
  have hexponent : (0 - (n + digits.length : Nat) : Int) = exponent + 1 - digits.length := by omega
  unfold RealText.value
  show (ofDigitChars 10 ('0' :: (replicate n '0' ++ digits)) 0 : ℚ) *
    10 ^ (0 - ((replicate n '0' ++ digits).length : Nat) : Int) = _
  rw [ofDigitChars_zero_cons, ofDigitChars_zeros_append, length_append, length_replicate,
    hexponent]

/-- A whole number: zeros stand between the digits and the point. -/
theorem value_whole (digits : List Char) {n : Nat} (hn : (n : Int) = exponent + 1 - digits.length) :
    RealText.value ⟨digits ++ replicate n '0', some ['0'], none⟩ =
      ofDigitChars 10 digits 0 * 10 ^ (exponent + 1 - digits.length : Int) := by
  unfold RealText.value
  show (ofDigitChars 10 (digits ++ replicate n '0' ++ ['0']) 0 : ℚ) * 10 ^ (0 - 1 : Int) = _
  rw [← hn, append_assoc, ← replicate_succ', ofDigitChars_zeros, zpow_natCast]
  push_cast
  rw [pow_succ, zpow_neg_one]
  field_simp

/-- The point stands between the digits. -/
theorem value_split {n : Nat} (hn : (n : Int) = exponent + 1) (hlong : n < digits.length) :
    RealText.value ⟨digits.take n, some (digits.drop n), none⟩ =
      ofDigitChars 10 digits 0 * 10 ^ (exponent + 1 - digits.length : Int) := by
  have hexponent : (0 - (digits.length - n : Nat) : Int) = exponent + 1 - digits.length := by omega
  unfold RealText.value
  show (ofDigitChars 10 (digits.take n ++ digits.drop n) 0 : ℚ) *
    10 ^ (0 - (digits.drop n).length : Int) = _
  rw [take_append_drop, length_drop, hexponent]

theorem written_exponent (exponent : Int) :
    ExponentText.value ⟨'e', some (if exponent < 0 then '-' else '+'),
      magnitudeDigits exponent.natAbs⟩ = exponent := by
  unfold ExponentText.value
  dsimp only
  rw [magnitude_value]
  by_cases hneg : exponent < 0
  · rw [if_pos hneg, if_pos rfl]
    omega
  · rw [if_neg hneg, if_neg (by decide)]
    omega

theorem exponentReal_value (hne : digits ≠ []) :
    (exponentReal digits exponent).value = scientific digits exponent := by
  rw [scientific_eq hne]
  obtain ⟨front, rest, rfl⟩ := exists_cons_of_ne_nil hne
  have hrest : (if rest = [] then none else some rest).getD [] = rest := by
    split
    · next h => exact h.symm
    · rfl
  have hexponent : (exponent - rest.length : Int) = exponent + 1 - (rest.length + 1 : Nat) := by omega
  unfold RealText.value
  show (ofDigitChars 10 ([front] ++ (if rest = [] then none else some rest).getD []) 0 : ℚ) *
    10 ^ (ExponentText.value _ - ((if rest = [] then none else some rest).getD []).length : Int) = _
  rw [hrest, written_exponent, hexponent]
  rfl

theorem writtenReal_value (hne : digits ≠ []) :
    (writtenReal digits exponent).value = scientific digits exponent := by
  unfold writtenReal
  dsimp only
  split
  · rw [scientific_eq hne]
    split
    · exact value_small digits (by omega)
    · split
      · exact value_whole digits (by omega)
      · exact value_split (by omega) (by omega)
  · exact exponentReal_value hne

/-- The reader takes off the sign that is written, and no other. -/
theorem splitNumberSign_text {t : RealText} (h : t.WellFormed) (negative : Bool) :
    splitNumberSign ((if negative then ['-'] else []) ++ t.text) = some (negative, t.text) := by
  obtain ⟨c, whole, hwhole⟩ := exists_cons_of_ne_nil h.whole.1
  have hc : isSign c = false :=
    isSign_of_isDecimalDigit (h.whole.2 c (by rw [hwhole]; exact mem_cons_self))
  have htext : t.text = c :: (whole ++ (t.fraction.elim [] ('.' :: ·) ++
      t.exponent.elim [] (·.text))) := by
    unfold RealText.text
    rw [hwhole]
    rfl
  rw [htext]
  cases negative with
  | false =>
    show splitNumberSign (c :: _) = _
    rw [splitNumberSign, if_neg (by rw [hc]; exact Bool.false_ne_true)]
  | true =>
    show splitNumberSign ('-' :: c :: _) = _
    rw [splitNumberSign, if_pos (show isSign '-' = true by decide), head?_cons, any_some, hc,
      if_neg Bool.false_ne_true]
    rfl

/-- The text denotes the digits with a point behind the first, times ten to the exponent. Behind
    its sign, the reader of real tokens accepts it and splits it into parts of the same number. -/
theorem layoutFloatText_reads (hdigits : IsDigits digits) (hlow : -2 ^ 31 < exponent)
    (negative : Bool) :
    ∃ text body parts, layoutFloatText digits exponent negative = some text ∧
      Denotes text (if negative then -scientific digits exponent else scientific digits exponent) ∧
      splitNumberSign text = some (negative, body) ∧ realParts body = some parts ∧
      partsValue body parts = scientific digits exponent := by
  have hwf : (writtenReal digits exponent).WellFormed := writtenReal_wellFormed hdigits
  have hvalue : (writtenReal digits exponent).value = _ := writtenReal_value hdigits.1
  obtain ⟨haccepts, hparts⟩ := realParts_text hwf
  refine ⟨_, _, _, layoutFloatText_eq hdigits.1 hlow negative, ⟨negative, _, hwf, rfl, ?_⟩,
    splitNumberSign_text hwf negative, haccepts, hparts.trans hvalue⟩
  rw [hvalue]

/-- `1.5e-07`. -/
theorem layoutFloatText_reads_small :
    ∃ text body parts, layoutFloatText ['1', '5'] (-7) true = some text ∧
      Denotes text (-scientific ['1', '5'] (-7)) ∧
      splitNumberSign text = some (true, body) ∧ realParts body = some parts ∧
      partsValue body parts = scientific ['1', '5'] (-7) :=
  @layoutFloatText_reads ['1', '5'] (-7)
    ⟨cons_ne_nil _ _, forall_mem_cons.2 ⟨rfl, forall_mem_singleton.2 rfl⟩⟩ (by decide) true

/-- The reader of real tokens wants the sign taken off: it refuses `-1.0`. -/
theorem realParts_refuses_sign :
    ¬ ∀ (digits : List Char) (exponent : Int) (negative : Bool) (text : List Char),
      IsDigits digits → -2 ^ 31 < exponent → exponent < 2 ^ 31 →
      layoutFloatText digits exponent negative = some text → ∃ parts, realParts text = some parts := by
  intro h
  obtain ⟨parts, hparts⟩ := h ['1'] 0 true ['-', '1', '.', '0']
    ⟨cons_ne_nil _ _, forall_mem_singleton.2 rfl⟩ (by decide)
    (by decide) (by decide)
  exact absurd hparts (by rw [show realParts ['-', '1', '.', '0'] = none by decide]; exact nofun)

end Layout

/-- A text denotes one number: the one its reader finds. -/
theorem Denotes.unique {text : List Char} {q r : ℚ} (hq : Denotes text q) (hr : Denotes text r) :
    q = r := by
  obtain ⟨negative, t, ht, rfl, rfl⟩ := hq
  obtain ⟨negative', t', ht', htext, rfl⟩ := hr
  have hsplit := splitNumberSign_text ht negative
  rw [htext, splitNumberSign_text ht' negative'] at hsplit
  obtain ⟨hnegative, hbody⟩ := Prod.mk.inj (some.inj hsplit)
  obtain ⟨hparts, hvalue⟩ := realParts_text ht
  obtain ⟨hparts', hvalue'⟩ := realParts_text ht'
  rw [hbody, hparts] at hparts'
  rw [← hvalue, ← hvalue', hbody, hnegative, some.inj hparts']

/-! ## Zeros at the End of a Text -/

/-- The zeros at the end of a text, which is given from its end. One character stays. -/
def dropZeros : List Char → List Char
  | '0' :: c :: text => dropZeros (c :: text)
  | text => text

/-- The zeros behind a point go, and the point stays. -/
theorem dropZeros_point (zeros tail : List Char) :
    dropZeros (zeros ++ '.' :: tail) = zeros.dropWhile (· = '0') ++ '.' :: tail := by
  induction zeros with
  | nil =>
    show dropZeros ('.' :: tail) = '.' :: tail
    rw [dropZeros]
    exact fun _ _ h => absurd (cons.inj h).1 (by decide)
  | cons c zeros ih =>
    by_cases hc : c = '0'
    · subst hc
      obtain ⟨d, below, hbelow⟩ : ∃ d below, zeros ++ '.' :: tail = d :: below :=
        exists_cons_of_ne_nil (append_ne_nil_of_right_ne_nil _ (cons_ne_nil _ _))
      rw [dropWhile_cons_of_pos (by simp), ← ih, cons_append, hbelow, dropZeros]
    · rw [dropWhile_cons_of_neg (by simpa using hc), cons_append, dropZeros]
      exact fun _ _ h => absurd (cons.inj h).1 hc

/-- What stays when zeros at the end go, and how many these are. -/
theorem append_zeros :
    ∃ zeros, digits = (digits.reverse.dropWhile (· = '0')).reverse ++ replicate zeros '0' := by
  have hall : ∀ c ∈ digits.reverse.takeWhile (· = '0'), c = '0' := fun c hc =>
    of_decide_eq_true (all_eq_true.1 all_takeWhile c hc)
  refine ⟨(digits.reverse.takeWhile (· = '0')).length, ?_⟩
  calc digits = digits.reverse.reverse := (reverse_reverse digits).symm
    _ = (digits.reverse.takeWhile (· = '0') ++ digits.reverse.dropWhile (· = '0')).reverse := by
        rw [takeWhile_append_dropWhile]
    _ = (digits.reverse.dropWhile (· = '0')).reverse ++
          (digits.reverse.takeWhile (· = '0')).reverse := reverse_append
    _ = _ := by
        rw [eq_replicate_of_mem hall, reverse_replicate, length_replicate]

/-! ## Texts Without an Exponent -/

/-- Digits, and a point with digits behind it where there are any. -/
def plainReal (whole fraction : List Char) : RealText :=
  ⟨whole, if fraction = [] then none else some fraction, none⟩

section Plain

variable {whole fraction : List Char}

theorem plainReal_text (whole fraction : List Char) :
    (plainReal whole fraction).text = whole ++ (if fraction = [] then [] else '.' :: fraction) := by
  unfold plainReal RealText.text
  split
  · rfl
  · show whole ++ ('.' :: fraction ++ []) = _
    rw [append_nil]

theorem plainReal_wellFormed (hwhole : IsDigits whole)
    (hfraction : ∀ c ∈ fraction, isDecimalDigit c = true) : (plainReal whole fraction).WellFormed := by
  refine ⟨hwhole, ?_, nofun⟩
  show ∀ digits, (if fraction = [] then none else some fraction) = some digits → _
  intro digits hdigits
  split at hdigits
  · cases hdigits
  · next hne =>
    cases hdigits
    exact ⟨hne, hfraction⟩

theorem plainReal_value (whole fraction : List Char) :
    (plainReal whole fraction).value =
      ofDigitChars 10 (whole ++ fraction) 0 * 10 ^ (-fraction.length : Int) := by
  have hfraction : (if fraction = [] then none else some fraction).getD [] = fraction := by
    split
    · next h => exact h.symm
    · rfl
  unfold RealText.value plainReal
  show (ofDigitChars 10 (whole ++ (if fraction = [] then none else some fraction).getD []) 0 : ℚ) *
    10 ^ (0 - ((if fraction = [] then none else some fraction).getD []).length : Int) = _
  rw [hfraction, zero_sub]

end Plain

end Camel.Text
