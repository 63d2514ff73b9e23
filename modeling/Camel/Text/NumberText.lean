import Mathlib

/-! # Number Texts

    A number token is an optional sign and a body: decimal digits, or digits of another
    radix behind its prefix. The body is checked against the grammar first; its value is
    then built in a 64-bit word, and a number the target type cannot hold is found before
    it is built.
-/

open Option

namespace Camel.Text

/-! ## Digits -/

variable {m : Nat} {radix : Nat} (c : Char)

def isDecimalDigit : Bool := '0' ≤ c && c ≤ '9'

def isHexDigit : Bool :=
  isDecimalDigit c || ('a' ≤ c && c ≤ 'f') || ('A' ≤ c && c ≤ 'F')

def isBinaryDigit : Bool := c = '0' || c = '1'

def isOctalDigit : Bool := '0' ≤ c && c ≤ '7'

def allDigits (digit : Char → Bool) (text : List Char) : Bool := text ≠ [] && text.all digit

def allDecimalDigits (text : List Char) : Bool := allDigits isDecimalDigit text

def allHexDigits (text : List Char) : Bool := allDigits isHexDigit text

def allBinaryDigits (text : List Char) : Bool := allDigits isBinaryDigit text

def allOctalDigits (text : List Char) : Bool := allDigits isOctalDigit text

/-- The value of a character that is a digit. -/
def digitValue : Nat :=
  if '0' ≤ c ∧ c ≤ '9' then c.toNat - '0'.toNat
  else if 'a' ≤ c ∧ c ≤ 'f' then c.toNat - 'a'.toNat + 10
  else c.toNat - 'A'.toNat + 10

/-! ## Parts of a Text -/

def isSign : Bool := c = '+' || c = '-'

/-- Whether the text is negative, and its body. A second sign is refused. -/
def splitNumberSign : List Char → Option (Bool × List Char)
  | [] => some (false, [])
  | c :: body =>
    if isSign c then
      if body.head?.any isSign then none else some (c = '-', body)
    else some (false, c :: body)

structure IntegerParts where
  radix : Nat
  digits : List Char

def integerParts (body : List Char) : Option IntegerParts :=
  match body with
  | [] => none
  | '0' :: 'x' :: digits => if allHexDigits digits then some ⟨16, digits⟩ else none
  | '0' :: 'b' :: digits => if allBinaryDigits digits then some ⟨2, digits⟩ else none
  | '0' :: 'o' :: digits => if allOctalDigits digits then some ⟨8, digits⟩ else none
  | body => if allDecimalDigits body then some ⟨10, body⟩ else none

/-- A digit run that starts with `0` and goes on with another digit. -/
def hasLeadingZero : List Char → Bool
  | '0' :: d :: _ => isDecimalDigit d
  | _ => false

/-! ## Values -/

inductive NumberTextStatus (α : Type) where
  | ok (value : α)
  | notANumber | underflow | outOfRange | outOfRangeInteger
deriving DecidableEq

/-- A signed integer type, of at most 64 bits. -/
structure SignedIntegral where
  bits : Nat
  pos : 0 < bits
  le : bits ≤ 64

namespace SignedIntegral

variable (T : SignedIntegral)

def max : Int := 2 ^ (T.bits - 1) - 1

def min : Int := -2 ^ (T.bits - 1)

def Holds (v : Int) : Prop := T.min ≤ v ∧ v ≤ T.max

instance (v : Int) : Decidable (T.Holds v) := inferInstanceAs (Decidable (_ ∧ _))

/-- `static_cast<T>` -/
def cast (v : Int) : Int := v.bmod (2 ^ T.bits)

end SignedIntegral

def int64 : SignedIntegral := ⟨64, by decide, by decide⟩

/-- The loop over the digits, whose words are held as `word` says. -/
def accumulate (word : Nat → Nat) (limit radix : Nat) : List Char → Nat → Option Nat
  | [], magnitude => some magnitude
  | c :: digits, magnitude =>
    let digit := digitValue c
    if limit < digit ∨ (limit - digit) / radix < magnitude then none
    else accumulate word limit radix digits (word (word (magnitude * radix) + digit))

/-- `uint64_t` -/
def uint64 (n : Nat) : Nat := n % 2 ^ 64

def integerValue (T : SignedIntegral) (digits : List Char) (radix : Nat) (negative : Bool) :
    NumberTextStatus Int :=
  let maximum := uint64 T.max.toNat
  let limit := if negative then uint64 (maximum + 1) else maximum
  match accumulate uint64 limit radix digits 0 with
  | none => .outOfRange
  | some magnitude =>
    if negative then
      if magnitude = uint64 (maximum + 1) then .ok T.min
      else .ok (T.cast (-int64.cast magnitude))
    else .ok (T.cast magnitude)

def parseNumberToken (T : SignedIntegral) (text : List Char) : NumberTextStatus Int :=
  match splitNumberSign text with
  | none => .notANumber
  | some (negative, body) =>
    if hasLeadingZero body then .notANumber
    else
      match integerParts body with
      | none => .notANumber
      | some parts => integerValue T parts.digits parts.radix negative

/-! ## The Grammar -/

/-- The number that digits write, the highest first. -/
def digitsNumber (radix : Nat) (digits : List Char) : Nat :=
  digits.foldl (fun v c => v * radix + digitValue c) 0

/-- The digits of the radix a prefix names. -/
inductive RadixMark : Char → Nat → (Char → Bool) → Prop where
  | hexadecimal : RadixMark 'x' 16 isHexDigit
  | binary : RadixMark 'b' 2 isBinaryDigit
  | octal : RadixMark 'o' 8 isOctalDigit

/-- An integer token and its magnitude. A decimal one has no leading zero. -/
inductive IntegerToken : List Char → Nat → Prop where
  | decimal {digits : List Char} : digits ≠ [] → (∀ c ∈ digits, isDecimalDigit c = true) →
      (digits.head? = some '0' → digits = ['0']) → IntegerToken digits (digitsNumber 10 digits)
  | marked {mark : Char} {radix : Nat} {digit : Char → Bool} {digits : List Char} :
      RadixMark mark radix digit → digits ≠ [] → (∀ c ∈ digits, digit c = true) →
      IntegerToken ('0' :: mark :: digits) (digitsNumber radix digits)

/-- A text of the number grammar and its value. -/
inductive NumberGrammar : List Char → Int → Prop where
  | unsigned {body : List Char} {m : Nat} : IntegerToken body m → NumberGrammar body m
  | plus {body : List Char} {m : Nat} : IntegerToken body m → NumberGrammar ('+' :: body) m
  | minus {body : List Char} {m : Nat} : IntegerToken body m → NumberGrammar ('-' :: body) (-m)

/-! ## The Loop Does Not Wrap -/

section Accumulate

variable {limit radix : Nat}

theorem le_foldl (hradix : 0 < radix) (digits : List Char) (m : Nat) :
    m ≤ digits.foldl (fun v c => v * radix + digitValue c) m := by
  induction digits generalizing m with
  | nil => exact le_refl m
  | cons c digits ih =>
    calc m ≤ m * radix := Nat.le_mul_of_pos_right m hradix
      _ ≤ m * radix + digitValue c := Nat.le_add_right _ _
      _ ≤ _ := ih _

/-- The test of a round is whether the next magnitude passes the limit. -/
theorem passes_iff (hradix : 0 < radix) (digit m : Nat) :
    limit < digit ∨ (limit - digit) / radix < m ↔ limit < m * radix + digit := by
  rw [Nat.div_lt_iff_lt_mul hradix]
  omega

/-- The loop finds the number of its digits, and stops exactly when it passes the limit; no word
    it stores is longer than the limit. -/
theorem accumulate_spec (hradix : 0 < radix) (hlimit : limit < 2 ^ 64) {word : Nat → Nat}
    (hword : ∀ n, n < 2 ^ 64 → word n = n) (digits : List Char) (m : Nat) :
    accumulate word limit radix digits m =
      if digits = [] ∨ digits.foldl (fun v c => v * radix + digitValue c) m ≤ limit then
        some (digits.foldl (fun v c => v * radix + digitValue c) m)
      else none := by
  induction digits generalizing m with
  | nil => rfl
  | cons c digits ih =>
    unfold accumulate
    dsimp only
    have hle := le_foldl hradix digits (m * radix + digitValue c)
    by_cases hpass : limit < m * radix + digitValue c
    · rw [if_pos ((passes_iff hradix _ m).mpr hpass), if_neg]
      rintro (h | h)
      · cases h
      · exact absurd (le_trans hle h) (Nat.not_le.mpr hpass)
    · rw [if_neg (mt (passes_iff hradix _ m).mp hpass), hword (m * radix) (by omega),
        hword _ (by omega), ih]
      cases digits with
      | nil =>
        rw [if_pos (.inl rfl), if_pos]
        · rfl
        · exact .inr (Nat.not_lt.mp hpass)
      | cons d digits => simp

end Accumulate

section Values

variable (T : SignedIntegral)

theorem uint64_of_lt (n : Nat) (h : n < 2 ^ 64) : uint64 n = n := Nat.mod_eq_of_lt h

theorem SignedIntegral.pow_le : (2 : Int) ^ (T.bits - 1) ≤ 2 ^ 63 :=
  pow_le_pow_right₀ (by decide) (by have := T.le; omega)

theorem SignedIntegral.one_le_pow : (1 : Int) ≤ 2 ^ (T.bits - 1) := one_le_pow₀ (by decide)

theorem SignedIntegral.pow_bits : (2 : Int) ^ T.bits = 2 * 2 ^ (T.bits - 1) := by
  have hpos := T.pos
  rw [← pow_succ', Nat.sub_add_cancel hpos]

/-- A value the type holds is not changed by the cast. -/
theorem SignedIntegral.cast_of_holds {v : Int} (h : T.Holds v) : T.cast v = v := by
  have hbits := T.pow_bits
  obtain ⟨hlow, hhigh⟩ := h
  unfold min at hlow
  unfold max at hhigh
  unfold cast
  apply Int.bmod_eq_of_le
  · push_cast
    omega
  · push_cast
    omega

/-- The magnitude of a number with this sign is at most the limit. -/
theorem holds_iff (negative : Bool) (m : Nat) :
    T.Holds (if negative then -m else m) ↔
      m ≤ if negative then T.max.toNat + 1 else T.max.toNat := by
  have hone := T.one_le_pow
  unfold SignedIntegral.Holds SignedIntegral.min SignedIntegral.max
  cases negative with
  | true =>
    simp only [if_true]
    omega
  | false =>
    simp only [Bool.false_eq_true, if_false]
    omega

theorem integerValue_spec {digits : List Char} (hdigits : digits ≠ [])
    (hradix : 0 < radix) (negative : Bool) :
    integerValue T digits radix negative =
      if T.Holds (if negative then -(digitsNumber radix digits) else digitsNumber radix digits) then
        .ok (if negative then -(digitsNumber radix digits) else digitsNumber radix digits)
      else .outOfRange := by
  have hpow := T.pow_le
  have hone := T.one_le_pow
  have hmax : T.max.toNat < 2 ^ 63 := by
    unfold SignedIntegral.max
    omega
  have hholds := holds_iff T negative (digitsNumber radix digits)
  have hmaximum : uint64 T.max.toNat = T.max.toNat := uint64_of_lt _ (by omega)
  have hnext : uint64 (T.max.toNat + 1) = T.max.toNat + 1 := uint64_of_lt _ (by omega)
  unfold integerValue
  simp only [hmaximum, hnext]
  rw [accumulate_spec hradix (by split <;> omega) uint64_of_lt]
  have hnumber : digits.foldl (fun v c => v * radix + digitValue c) 0 = digitsNumber radix digits :=
    rfl
  rw [hnumber]
  generalize digitsNumber radix digits = m at hholds
  by_cases hm : m ≤ if negative then T.max.toNat + 1 else T.max.toNat
  · rw [if_pos (.inr hm), if_pos (hholds.mpr hm)]
    have hT := hholds.mpr hm
    cases negative with
    | true =>
      simp only [if_true] at hm hT ⊢
      split
      · next heq =>
        congr 1
        unfold SignedIntegral.min
        unfold SignedIntegral.max at heq
        omega
      · have hint : int64.Holds m := by
          show -2 ^ 63 ≤ (m : Int) ∧ (m : Int) ≤ 2 ^ 63 - 1
          omega
        rw [int64.cast_of_holds hint, T.cast_of_holds hT]
    | false =>
      simp only [Bool.false_eq_true, if_false] at hT ⊢
      rw [T.cast_of_holds hT]
  · rw [if_neg (not_or.mpr ⟨hdigits, hm⟩), if_neg (mt hholds.mp hm)]

end Values

/-! ## The Reader Reads the Grammar -/

variable {digit : Char → Bool} {text : List Char}

theorem allDigits_iff :
    allDigits digit text = true ↔ text ≠ [] ∧ ∀ c ∈ text, digit c = true := by
  unfold allDigits
  rw [Bool.and_eq_true, decide_eq_true_eq, List.all_eq_true]

/-- A prefixed body is read as its digits. -/
theorem integerParts_marked {mark : Char}
    (h : RadixMark mark radix digit) (digits : List Char) :
    integerParts ('0' :: mark :: digits) =
      if allDigits digit digits then some ⟨radix, digits⟩ else none := by
  cases h <;> rfl

/-- A body of decimal digits has no prefix. -/
theorem integerParts_decimal {digits : List Char} (hne : digits ≠ [])
    (hdigits : ∀ c ∈ digits, isDecimalDigit c = true) :
    integerParts digits = some ⟨10, digits⟩ := by
  unfold integerParts
  split
  · exact absurd rfl hne
  · exact absurd (hdigits 'x' (by simp)) (by decide)
  · exact absurd (hdigits 'b' (by simp)) (by decide)
  · exact absurd (hdigits 'o' (by simp)) (by decide)
  · exact if_pos (allDigits_iff.2 ⟨hne, hdigits⟩)

variable {body : List Char}

theorem integerToken_iff :
    IntegerToken body m ↔ hasLeadingZero body = false ∧
      ∃ parts, integerParts body = some parts ∧ m = digitsNumber parts.radix parts.digits := by
  constructor
  · intro h
    cases h with
    | decimal hne hdigits hzero =>
      refine ⟨?_, _, integerParts_decimal hne hdigits, rfl⟩
      unfold hasLeadingZero
      split
      · cases hzero rfl
      · rfl
    | marked hmark hne hdigits =>
      refine ⟨?_, _, (integerParts_marked hmark _).trans (if_pos (allDigits_iff.2 ⟨hne, hdigits⟩)),
        rfl⟩
      cases hmark <;> rfl
  · rintro ⟨hzero, parts, hparts, rfl⟩
    have hmarked : ∀ {mark : Char} {radix : Nat} {digit : Char → Bool} {digits : List Char},
        RadixMark mark radix digit →
        (if allDigits digit digits then some (⟨radix, digits⟩ : IntegerParts) else none) =
          some parts → IntegerToken ('0' :: mark :: digits) (digitsNumber parts.radix parts.digits) := by
      intro mark radix digit digits hmark hif
      split at hif
      · next hall =>
        cases hif
        obtain ⟨hne, hdigits⟩ := allDigits_iff.1 hall
        exact .marked hmark hne hdigits
      · cases hif
    unfold integerParts at hparts
    split at hparts
    · cases hparts
    · exact hmarked .hexadecimal hparts
    · exact hmarked .binary hparts
    · exact hmarked .octal hparts
    · split at hparts
      · next hall =>
        cases hparts
        obtain ⟨hne, hdigits⟩ := allDigits_iff.1 hall
        refine .decimal hne hdigits fun hhead => ?_
        -- a `0` with another digit behind it is a leading zero
        cases body with
        | nil => exact absurd rfl hne
        | cons c body =>
          obtain rfl := some.inj hhead
          cases body with
          | nil => rfl
          | cons d body =>
            have hd := hdigits d (by simp)
            exact Bool.noConfusion (hd.symm.trans hzero)
      · cases hparts

theorem isSign_of_isDecimalDigit {c : Char} (h : isDecimalDigit c = true) : isSign c = false := by
  unfold isSign
  by_contra hsign
  rw [Bool.not_eq_false, Bool.or_eq_true, decide_eq_true_eq, decide_eq_true_eq] at hsign
  rcases hsign with rfl | rfl
  · exact absurd h (by decide)
  · exact absurd h (by decide)

theorem IntegerToken.head {body : List Char} (h : IntegerToken body m) :
    ∃ c rest, body = c :: rest ∧ isSign c = false := by
  cases h with
  | @decimal digits hne hdigits hzero =>
    cases body with
    | nil => exact absurd rfl hne
    | cons c rest => exact ⟨c, rest, rfl, isSign_of_isDecimalDigit (hdigits c (by simp))⟩
  | marked hmark hne hdigits => exact ⟨_, _, rfl, by decide⟩

theorem splitNumberSign_sign {c : Char} (hc : isSign c = true)
    (h : IntegerToken body m) : splitNumberSign (c :: body) = some (decide (c = '-'), body) := by
  obtain ⟨d, rest, rfl, hd⟩ := h.head
  rw [splitNumberSign, if_pos hc, if_neg]
  rw [List.head?_cons, any_some, hd]
  exact Bool.false_ne_true

variable {v : Int}

theorem numberGrammar_iff :
    NumberGrammar text v ↔ ∃ negative body m, splitNumberSign text = some (negative, body) ∧
      IntegerToken body m ∧ v = if negative then -(m : Int) else m := by
  constructor
  · intro h
    cases h with
    | @unsigned body m h =>
      refine ⟨false, text, m, ?_, h, rfl⟩
      obtain ⟨c, rest, rfl, hc⟩ := h.head
      rw [splitNumberSign]
      exact if_neg (by rw [hc]; exact Bool.false_ne_true)
    | plus h => exact ⟨false, _, _, splitNumberSign_sign (by decide) h, h, rfl⟩
    | minus h => exact ⟨true, _, _, splitNumberSign_sign (by decide) h, h, rfl⟩
  · rintro ⟨negative, body, m, hsplit, h, rfl⟩
    unfold splitNumberSign at hsplit
    split at hsplit
    · cases hsplit
      exact .unsigned h
    · split at hsplit
      · next c rest hc =>
        split at hsplit
        · cases hsplit
        · cases hsplit
          unfold isSign at hc
          rw [Bool.or_eq_true, decide_eq_true_eq, decide_eq_true_eq] at hc
          rcases hc with rfl | rfl
          · exact .plus h
          · exact .minus h
      · cases hsplit
        exact .unsigned h

theorem radix_pos_of_parts {parts : IntegerParts}
    (h : integerParts body = some parts) : 0 < parts.radix ∧ parts.digits ≠ [] := by
  have hdigits : ∀ {digit : Char → Bool} {digits : List Char} {radix : Nat}, 0 < radix →
      (if allDigits digit digits then some (⟨radix, digits⟩ : IntegerParts) else none) = some parts →
      0 < parts.radix ∧ parts.digits ≠ [] := by
    intro digit digits radix hradix hif
    split at hif
    · next hall =>
      cases hif
      exact ⟨hradix, (allDigits_iff.1 hall).1⟩
    · cases hif
  unfold integerParts at h
  split at h
  · cases h
  · exact hdigits (by decide) h
  · exact hdigits (by decide) h
  · exact hdigits (by decide) h
  · exact hdigits (by decide) h

/-- The number a text of the grammar stands for. -/
theorem NumberGrammar.unique {w : Int} (hv : NumberGrammar text v)
    (hw : NumberGrammar text w) : v = w := by
  obtain ⟨negative, body, m, hsplit, hm, rfl⟩ := numberGrammar_iff.1 hv
  obtain ⟨negative', body', m', hsplit', hm', rfl⟩ := numberGrammar_iff.1 hw
  rw [hsplit, some.injEq, Prod.mk.injEq] at hsplit'
  obtain ⟨rfl, rfl⟩ := hsplit'
  obtain ⟨-, parts, hparts, rfl⟩ := integerToken_iff.1 hm
  obtain ⟨-, parts', hparts', rfl⟩ := integerToken_iff.1 hm'
  rw [hparts, some.injEq] at hparts'
  rw [hparts']

/-- A text of the grammar is read as its number, if the type holds it. -/
theorem parse_of_grammar (T : SignedIntegral)
    (h : NumberGrammar text v) :
    parseNumberToken T text = if T.Holds v then .ok v else .outOfRange := by
  obtain ⟨negative, body, m, hsplit, hm, rfl⟩ := numberGrammar_iff.1 h
  obtain ⟨hzero, parts, hparts, rfl⟩ := integerToken_iff.1 hm
  obtain ⟨hradix, hdigits⟩ := radix_pos_of_parts hparts
  unfold parseNumberToken
  rw [hsplit]
  dsimp only
  rw [hzero, hparts, if_neg Bool.false_ne_true]
  exact integerValue_spec T hdigits hradix negative

theorem parse_of_not_grammar (T : SignedIntegral)
    (h : ∀ v, ¬ NumberGrammar text v) : parseNumberToken T text = .notANumber := by
  unfold parseNumberToken
  cases hsplit : splitNumberSign text with
  | none => rfl
  | some split =>
    obtain ⟨negative, body⟩ := split
    dsimp only
    cases hzero : hasLeadingZero body with
    | true => rfl
    | false =>
      rw [if_neg Bool.false_ne_true]
      cases hparts : integerParts body with
      | none => rfl
      | some parts =>
        exact absurd (numberGrammar_iff.2
          ⟨negative, body, _, hsplit, integerToken_iff.2 ⟨hzero, parts, hparts, rfl⟩, rfl⟩) (h _)

end Camel.Text
