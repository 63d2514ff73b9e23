import Camel.Literal.Folds
import Camel.Syntax.Action
import Camel.Text.NumberText

/-! # Number Tokens

    A number in a text is read twice: at run time into an integer type, and by the compiler
    as the exact value of a literal. On the integer tokens the lexer finds, the two readers
    accept the same texts with the same values.
-/

namespace Camel.Text

open Literal Syntax List Option

/-! ## The Two Readers -/

/-- The two readers see the same number in a text, or both refuse it. -/
def ReadersAgree (T : SignedIntegral) (text : List Char) : Prop :=
  match Value.fromIntegerText text with
  | none => parseNumberToken T text = .notANumber
  | some v => parseNumberToken T text = if T.Holds v.integer then .ok v.integer else .outOfRange

theorem char_le (a b : Char) : a ≤ b ↔ a.toNat ≤ b.toNat := Iff.rfl

theorem toNat_inj {a b : Char} : a = b ↔ a.toNat = b.toNat :=
  ⟨congrArg Char.toNat, fun h => Char.ext (UInt32.toNat_inj.mp h)⟩

/-- The digits of the radix are the characters both readers take for digits. -/
inductive DigitsOf : Nat → (Char → Bool) → Prop where
  | decimal : DigitsOf 10 isDecimalDigit
  | marked {mark : Char} {radix : Nat} {digit : Char → Bool} :
      RadixMark mark radix digit → DigitsOf radix digit

variable {radix : Nat} {digit : Char → Bool}

theorem digitOf_iff (h : DigitsOf radix digit) (c : Char) :
    digit c = true ↔ 0 ≤ digitOf c ∧ digitOf c < radix := by
  have hdigit : (digitOf c = c.toNat - 48 ∧ 48 ≤ c.toNat ∧ c.toNat ≤ 57) ∨
      (digitOf c = c.toNat - 97 + 10 ∧ 97 ≤ c.toNat ∧ c.toNat ≤ 102) ∨
      (digitOf c = c.toNat - 65 + 10 ∧ 65 ≤ c.toNat ∧ c.toNat ≤ 70) ∨
      (digitOf c = -1 ∧ ¬ (48 ≤ c.toNat ∧ c.toNat ≤ 57) ∧ ¬ (97 ≤ c.toNat ∧ c.toNat ≤ 102) ∧
        ¬ (65 ≤ c.toNat ∧ c.toNat ≤ 70)) := by
    unfold digitOf
    split
    · next h => exact .inl ⟨rfl, h⟩
    · next h10 =>
      split
      · next h => exact .inr (.inl ⟨rfl, h⟩)
      · next h16 =>
        split
        · next h => exact .inr (.inr (.inl ⟨rfl, h⟩))
        · next h36 => exact .inr (.inr (.inr ⟨rfl, h10, h16, h36⟩))
  have hdecimal : isDecimalDigit c = true ↔ 48 ≤ c.toNat ∧ c.toNat ≤ 57 := by
    unfold isDecimalDigit
    rw [Bool.and_eq_true, decide_eq_true_eq, decide_eq_true_eq]
    exact Iff.rfl
  cases h with
  | decimal =>
    rw [hdecimal]
    omega
  | marked hmark =>
    cases hmark with
    | hexadecimal =>
      unfold isHexDigit
      rw [Bool.or_eq_true, Bool.or_eq_true, hdecimal, Bool.and_eq_true, Bool.and_eq_true,
        decide_eq_true_eq, decide_eq_true_eq, decide_eq_true_eq, decide_eq_true_eq, char_le, char_le,
        char_le, char_le]
      have ha : 'a'.toNat = 97 ∧ 'f'.toNat = 102 ∧ 'A'.toNat = 65 ∧ 'F'.toNat = 70 := by decide
      omega
    | binary =>
      unfold isBinaryDigit
      rw [Bool.or_eq_true, decide_eq_true_eq, decide_eq_true_eq, toNat_inj, toNat_inj]
      have hb : '0'.toNat = 48 ∧ '1'.toNat = 49 := by decide
      omega
    | octal =>
      unfold isOctalDigit
      rw [Bool.and_eq_true, decide_eq_true_eq, decide_eq_true_eq, char_le, char_le]
      have ho : '0'.toNat = 48 ∧ '7'.toNat = 55 := by decide
      omega

/-- A digit has one value. -/
theorem digitOf_eq {c : Char} (h : 0 ≤ digitOf c) : digitOf c = digitValue c := by
  have hzero : '0'.toNat = 48 := by decide
  have ha : 'a'.toNat = 97 := by decide
  have hA : 'A'.toNat = 65 := by decide
  unfold digitOf at h ⊢
  unfold digitValue
  split
  · next hc =>
    have hle : '0'.toNat ≤ c.toNat := hc.1
    omega
  · split
    · next hc =>
      have hle : 'a'.toNat ≤ c.toNat := hc.1
      omega
    · split
      · next hc =>
        have hle : 'A'.toNat ≤ c.toNat := hc.1
        omega
      · next h10 h16 h36 =>
        rw [if_neg h10, if_neg h16, if_neg h36] at h
        omega

variable {digits : List Char}

theorem positional_eq (hdigits : ∀ c ∈ digits, 0 ≤ digitOf c) :
    positional radix digits 0 = digitsNumber radix digits := by
  have hfold : ∀ m : Nat, positional radix digits m =
      (digits.foldl (fun v c => v * radix + digitValue c) m : Nat) := by
    induction digits with
    | nil => exact fun m => rfl
    | cons c digits ih =>
      intro m
      have hc := digitOf_eq (hdigits c mem_cons_self)
      have hstep : (m : Int) * radix + digitOf c = ((m * radix + digitValue c : Nat) : Int) := by
        rw [hc]
        push_cast
        rfl
      show positional radix digits ((m : Int) * radix + digitOf c) = _
      rw [hstep]
      exact ih (fun d hd => hdigits d (mem_cons_of_mem c hd)) _
  exact hfold 0

variable {lines : List Nat} (T : SignedIntegral)

/-- Two readers that take the same digits of a text, in the same radix, agree. -/
theorem readersAgree_of {text : List Char}
    (hdigit : DigitsOf radix digit) (hradix : radix ≤ 16)
    (hsign : takeSign text = (false, text)) (hmark : takePrefix text = ((radix : Int), digits))
    (hne : digits ≠ [])
    (hgrammar : (∀ c ∈ digits, digit c = true) → NumberGrammar text (digitsNumber radix digits))
    (hother : ¬ (∀ c ∈ digits, digit c = true) → parseNumberToken T text = .notANumber) :
    ReadersAgree T text := by
  have hspec := @BigInt.fromDigits_spec radix (by omega) (by omega) digits
  have htext : Value.fromIntegerText text = (BigInt.fromDigits digits radix).map fun magnitude =>
      ({ kind := .integer, rational := ⟨magnitude, .ofInt64 1⟩ } : Value) := by
    unfold Value.fromIntegerText
    rw [hsign]
    dsimp only
    rw [hmark]
    exact if_neg hne
  unfold ReadersAgree
  rw [htext]
  by_cases hall : ∀ c ∈ digits, digit c = true
  · have hvalid : ∀ c ∈ digits, 0 ≤ digitOf c ∧ digitOf c < radix :=
      fun c hc => (digitOf_iff hdigit c).mp (hall c hc)
    rw [if_pos ⟨hne, hvalid⟩] at hspec
    obtain ⟨n, hn, hnormal, hvalue⟩ := hspec
    rw [positional_eq fun c hc => (hvalid c hc).1] at hvalue
    obtain ⟨-, hrat⟩ := Value.integral_spec hnormal
    have hinteger : Value.integer { kind := .integer, rational := ⟨n, .ofInt64 1⟩ } =
        digitsNumber radix digits := by
      show (Rational.toRat ⟨n, .ofInt64 1⟩).num = _
      rw [hrat, Rat.num_intCast, hvalue]
    rw [hn, map_some]
    dsimp only
    rw [hinteger]
    exact parse_of_grammar T (hgrammar hall)
  · rw [if_neg] at hspec
    · rw [hspec]
      exact hother hall
    · rintro ⟨-, hvalid⟩
      exact hall fun c hc => (digitOf_iff hdigit c).mpr (hvalid c hc)

/-- A text that begins with a prefix and goes on. -/
theorem readersAgree_marked {mark : Char}
    (h : RadixMark mark radix digit) (hne : digits ≠ []) :
    ReadersAgree T ('0' :: mark :: digits) := by
  have hmark : takePrefix ('0' :: mark :: digits) = ((radix : Int), digits) := by
    cases digits with
    | nil => exact absurd rfl hne
    | cons d digits => cases h <;> rfl
  refine readersAgree_of T (.marked h) (by cases h <;> decide) rfl hmark hne
    (fun hall => .unsigned (.marked h hne hall)) fun hall => ?_
  have hparts := integerParts_marked h digits
  rw [if_neg (fun hdigits => hall (allDigits_iff.1 hdigits).2)] at hparts
  have hzero : hasLeadingZero ('0' :: mark :: digits) = false := by
    cases h <;> rfl
  have hsplit : splitNumberSign ('0' :: mark :: digits) = some (false, '0' :: mark :: digits) := rfl
  unfold parseNumberToken
  rw [hsplit]
  dsimp only
  rw [hzero, hparts]
  rfl

/-- A run of decimal digits without a leading zero. -/
theorem readersAgree_decimal (hne : digits ≠ [])
    (hdigits : ∀ c ∈ digits, isDecimalDigit c = true)
    (hzero : digits.head? = some '0' → digits = ['0']) : ReadersAgree T digits := by
  have hsign : takeSign digits = (false, digits) := by
    unfold takeSign
    split
    · exact absurd (hdigits '+' mem_cons_self) (by decide)
    · exact absurd (hdigits '-' mem_cons_self) (by decide)
    · rfl
  have hmark : takePrefix digits = (((10 : Nat) : Int), digits) := by
    unfold takePrefix
    split
    all_goals first
      | rfl
      | exact absurd (hzero rfl) (by simp)
  exact readersAgree_of T .decimal (by decide) hsign hmark hne
    (fun hall => .unsigned (.decimal hne hall hzero)) fun hall => absurd hdigits hall

/-! ## Integer Tokens -/

/-- The character of a byte. -/
def charOf (b : UInt8) : Char := Char.ofNat b.toNat

def tokenText (s : List UInt8) (i stop : Nat) : List Char := ((s.drop i).take (stop - i)).map charOf

section Tokens

variable {s : List UInt8} {n i stop : Nat}

theorem length_tokenText (hstop : stop ≤ s.length) : (tokenText s i stop).length = stop - i := by
  unfold tokenText
  rw [length_map, length_take, length_drop]
  omega

theorem getElem?_tokenText {k : Nat} (hk : i + k < stop) (hstop : stop ≤ s.length) :
    (tokenText s i stop)[k]? = some (charOf (byte s (i + k))) := by
  unfold tokenText byte
  rw [getElem?_map, getElem?_take_of_lt (by omega), getElem?_drop,
    getElem?_eq_getElem (by omega), getD_eq_getElem?_getD,
    getElem?_eq_getElem (by omega)]
  rfl

theorem mem_tokenText (hstop : stop ≤ s.length) {c : Char} (h : c ∈ tokenText s i stop) :
    ∃ k, i ≤ k ∧ k < stop ∧ c = charOf (byte s k) := by
  obtain ⟨k, hk, rfl⟩ := mem_iff_getElem.mp h
  have hlen := length_tokenText (i := i) hstop
  have hget := getElem?_tokenText (i := i) (k := k) (by omega) hstop
  rw [getElem?_eq_getElem hk, some.injEq] at hget
  exact ⟨i + k, by omega, by omega, hget⟩

theorem digit_charOf {b : UInt8} (h : isDigit b = true) :
    isDecimalDigit (charOf b) = true ∧ (charOf b = '0' → b = ch '0') := by
  unfold isDigit at h
  rw [Bool.and_eq_true, decide_eq_true_eq, decide_eq_true_eq] at h
  have hlow : 48 ≤ b.toNat := h.1
  have hhigh : b.toNat ≤ 57 := h.2
  have hzero : b = ch '0' ↔ b.toNat = 48 := UInt8.toNat_inj.symm
  rw [hzero]
  unfold charOf
  generalize b.toNat = k at hlow hhigh
  interval_cases k <;> decide

/-- What an integer token is: digits, or a prefix and more. -/
theorem integer_token_shape (hi : i < n) (hdigit : isDigit (byte s i) = true)
    (h : scanNumber s n i = .emit .integer stop lines) :
    (i < stop ∧ (∀ k, i ≤ k → k < stop → isDigit (byte s k) = true) ∧
      (byte s i = ch '0' → stop = i + 1)) ∨
    (byte s i = ch '0' ∧ i + 2 < stop ∧
      (byte s (i + 1) = ch 'x' ∨ byte s (i + 1) = ch 'b' ∨ byte s (i + 1) = ch 'o')) := by
  have hrun := scanWhile_bounds (s := s) isDigit (show i + 1 ≤ n from hi)
  have hbyte : ∀ {c : UInt8}, c ≠ 0 → at? s n (i + 1) = c → byte s (i + 1) = c := by
    intro c hc hat
    have hlt := lt_of_at? hat hc
    rwa [at?, if_pos hlt] at hat
  have hint := integerEnd_bounds (s := s) hi hrun.1 hrun.2
  have hend : integerEnd s n i (scanWhile isDigit s n (i + 1)) =
        ((integerEnd s n i (scanWhile isDigit s n (i + 1))).1, false) →
      ((integerEnd s n i (scanWhile isDigit s n (i + 1))).1 =
          (if byte s i = ch '0' then i + 1 else scanWhile isDigit s n (i + 1)) ∨
        byte s i = ch '0' ∧ i + 2 < (integerEnd s n i (scanWhile isDigit s n (i + 1))).1 ∧
          (byte s (i + 1) = ch 'x' ∨ byte s (i + 1) = ch 'b' ∨ byte s (i + 1) = ch 'o')) := by
    unfold integerEnd
    dsimp only
    split_ifs with h0 hx hnone hexp hb hbad ho hbad' hdigit' himag
    all_goals intro hvalid
    · cases hvalid
    · exact .inr ⟨h0, hexp.2.1, .inl (hbyte (by decide) hx)⟩
    · have := le_scanWhile Syntax.isHexDigit s n (i + 2)
      exact .inr ⟨h0, by omega, .inl (hbyte (by decide) hx)⟩
    · cases hvalid
    · have := le_scanWhile (fun c => decide (c = ch '0') || decide (c = ch '1')) s n (i + 2)
      exact .inr ⟨h0, by omega, .inr (.inl (hbyte (by decide) hb))⟩
    · cases hvalid
    · have := le_scanWhile (fun c => decide (ch '0' ≤ c) && decide (c ≤ ch '7')) s n (i + 2)
      exact .inr ⟨h0, by omega, .inr (.inr (hbyte (by decide) ho))⟩
    · cases hvalid
    · cases hvalid
    · exact .inl rfl
    · exact .inl rfl
  have hexp := exponentEnd_bounds (s := s) hint.2
  rw [scanNumber] at h
  dsimp only at h
  split at h
  · split_ifs at h <;> cases h
  · generalize hinteger : integerEnd s n i (scanWhile isDigit s n (i + 1)) = e at h hend hexp
    obtain ⟨digitsEnd, invalid⟩ := e
    dsimp only at h hend hexp
    cases invalid with
    | true => cases h
    | false =>
      rw [if_neg Bool.false_ne_true] at h
      split at h
      · cases h
      · rcases hend rfl with hplain | ⟨hzero, hlong, hmark⟩
        · -- a decimal token has no exponent, which would make it real
          have hdecimal : byte s i ≠ ch '0' ∨ digitsEnd = i + 1 := by
            by_cases h0 : byte s i = ch '0'
            · rw [if_pos h0] at hplain
              exact .inr hplain
            · exact .inl h0
          by_cases hreal : digitsEnd < exponentEnd s n digitsEnd
          · rw [if_pos ⟨hreal, hdecimal⟩] at h
            cases h
          · rw [if_neg fun hboth => hreal hboth.1] at h
            cases h
            have hstop : exponentEnd s n digitsEnd = digitsEnd := by omega
            rw [hstop]
            left
            by_cases h0 : byte s i = ch '0'
            · rw [if_pos h0] at hplain
              refine ⟨by omega, fun k hik hk => ?_, fun _ => hplain⟩
              rwa [show k = i by omega]
            · rw [if_neg h0] at hplain
              refine ⟨by omega, fun k hik hk => ?_, fun h => absurd h h0⟩
              rcases eq_or_lt_of_le hik with rfl | hlt
              · exact hdigit
              · exact scanWhile_run k hlt (hplain ▸ hk)
        · injection h with hkind hstop
          exact .inr ⟨hzero, by omega, hmark⟩

/-- On the text of an integer token the lexer finds, the two readers agree. -/
theorem readersAgree_token (hi : i < n)
    (hn : n ≤ s.length) (hdigit : isDigit (byte s i) = true)
    (h : scanNumber s n i = .emit .integer stop lines) : ReadersAgree T (tokenText s i stop) := by
  have hsound := scanNumber_sound (s := s) hi
  rw [h] at hsound
  obtain ⟨-, hlt, hstop⟩ := hsound
  have hlen := @length_tokenText s i stop (by omega)
  have hget : ∀ {k : Nat}, i + k < stop →
      (tokenText s i stop)[k]? = some (charOf (byte s (i + k))) :=
    fun hk => getElem?_tokenText hk (by omega)
  rcases integer_token_shape hi hdigit h with ⟨-, hdigits, hzero⟩ | ⟨hzero, hlong, hmark⟩
  · apply readersAgree_decimal
    · intro hnil
      rw [hnil, length_nil] at hlen
      omega
    · intro c hc
      obtain ⟨k, hik, hk, rfl⟩ := mem_tokenText (by omega) hc
      exact (digit_charOf (hdigits k hik hk)).1
    · intro hhead
      have hfirst := hget (k := 0) (by omega)
      rw [← head?_eq_getElem?, hhead, some.injEq] at hfirst
      have hstop1 := hzero ((digit_charOf hdigit).2 hfirst.symm)
      cases htext : tokenText s i stop with
      | nil =>
        rw [htext] at hhead
        cases hhead
      | cons c text =>
        rw [htext] at hhead hlen
        obtain rfl := some.inj hhead
        rw [length_cons] at hlen
        rw [eq_nil_of_length_eq_zero (show text.length = 0 by omega)]
  · -- the text is the prefix and what follows it
    have hfirst := hget (k := 0) (by omega)
    have hsecond := hget (k := 1) (by omega)
    cases htext : tokenText s i stop with
    | nil =>
      rw [htext] at hfirst
      cases hfirst
    | cons c text =>
      cases text with
      | nil =>
        rw [htext] at hsecond
        cases hsecond
      | cons d digits =>
        rw [htext] at hfirst hsecond hlen
        have hc : c = '0' := by
          rw [add_zero, hzero] at hfirst
          exact some.inj hfirst
        have hne : digits ≠ [] := by
          rintro rfl
          rw [length_cons, length_cons, length_nil] at hlen
          omega
        have hd : d = charOf (byte s (i + 1)) := some.inj hsecond
        rw [hc, hd]
        rcases hmark with hmark | hmark | hmark <;> rw [hmark]
        · exact readersAgree_marked T .hexadecimal hne
        · exact readersAgree_marked T .binary hne
        · exact readersAgree_marked T .octal hne

end Tokens

/-! ## The Answers -/

theorem charClass_digit {c : UInt8} (h : charClass c = .digit) : isDigit c = true := by
  rw [charClass] at h
  split_ifs at h with h1 h2 h3 h4
  exact h4

theorem classifyWord_ne_integer (text : List UInt8) : classifyWord text ≠ .integer := by
  rw [classifyWord]
  split
  · split <;> decide
  · split
    · next entry h =>
      have hall : ∀ e ∈ keywordTable, e.2 ≠ .integer := by decide
      exact hall entry (mem_of_find?_eq_some h)
    · decide

theorem kind_ite {p : Prop} [Decidable p] {a b : TokenKind × Nat} (ha : a.1 ≠ .integer)
    (hb : b.1 ≠ .integer) : (if p then a else b).1 ≠ .integer := by
  split
  · exact ha
  · exact hb

theorem operator_ne_integer (c c1 c2 : UInt8) (touches : Bool) :
    (operator c c1 c2 touches).1 ≠ .integer := by
  unfold operator
  repeat' apply kind_ite
  all_goals first
    | decide
    | cases touches <;> decide

/-- Only digits begin an integer token. -/
theorem action_integer {st : LexState} {n stop : Nat} {cls : CharClass}
    (h : st.action n cls = .emit .integer stop lines) : cls = .digit := by
  cases cls with
  | digit => rfl
  | identStart =>
    have hword : scanWord st.buffer.source n st.i = .emit .integer stop lines := h
    simp only [scanWord] at hword
    split_ifs at hword with hr hraw hraw
    · split at hword <;> cases hword
    · injection hword with hkind
      exact absurd hkind (classifyWord_ne_integer _)
    · exact absurd hraw.1 hr
    · injection hword with hkind
      exact absurd hkind (classifyWord_ne_integer _)
  | quote =>
    have hstring : scanString st.buffer.source n st.i ≠ .emit .integer stop lines := by
      unfold scanString
      split <;> simp
    have hquote : scanQuote st.buffer.source n st.i = .emit .integer stop lines := h
    simp only [scanQuote] at hquote
    split_ifs at hquote
    · split at hquote
      · cases hquote
      · exact absurd hquote hstring
    · split at hquote <;> cases hquote
    · exact absurd hquote hstring
  | hash =>
    have hhash : scanHash st.buffer.source n st.i = .emit .integer stop lines := h
    unfold scanHash at hhash
    split at hhash <;> cases hhash
  | punct =>
    have hpunct : scanPunct st.buffer.source n _ st.i = .emit .integer stop lines := h
    unfold scanPunct at hpunct
    dsimp only at hpunct
    split at hpunct
    · cases hpunct
    · split at hpunct
      · split at hpunct <;> cases hpunct
      · injection hpunct with hkind
        exact absurd hkind (operator_ne_integer _ _ _ _)
  | illegal => cases h
  | blank => cases h
  | newline => cases h

/-- The integer tokens the lexer finds in a range of its source. -/
def FindsInteger (st : LexState) (n stop : Nat) : Prop :=
  st.i < n ∧ n ≤ st.buffer.source.length ∧
    ∃ lines, st.action n (charClass (byte st.buffer.source st.i)) = .emit .integer stop lines

/-- A text is read as its number just when it is one of the grammar that the type holds; it is out
    of range just when the type does not hold it, and no number just when it is not of the grammar.
    No word of the loop wraps. The compiler's reader sees the same in an integer token. -/
theorem parseNumberToken_reads (T : SignedIntegral) :
    (∀ text, (∀ v, parseNumberToken T text = .ok v ↔ NumberGrammar text v ∧ T.Holds v) ∧
      (parseNumberToken T text = .outOfRange ↔ ∃ v, NumberGrammar text v ∧ ¬ T.Holds v) ∧
      (parseNumberToken T text = .notANumber ↔ ∀ v, ¬ NumberGrammar text v)) ∧
    (∀ limit radix digits, limit < 2 ^ 64 → 0 < radix → ∀ word : Nat → Nat,
      (∀ m, m < 2 ^ 64 → word m = m) →
        accumulate uint64 limit radix digits 0 = accumulate word limit radix digits 0) ∧
    ∀ st n stop, FindsInteger st n stop →
      ReadersAgree T (tokenText st.buffer.source st.i stop) := by
  refine ⟨fun text => ?_, ?_, ?_⟩
  · by_cases hgrammar : ∃ v, NumberGrammar text v
    · obtain ⟨w, hw⟩ := hgrammar
      rw [parse_of_grammar T hw]
      by_cases hholds : T.Holds w
      · rw [if_pos hholds]
        refine ⟨fun v => ⟨?_, ?_⟩, ⟨fun h => NumberTextStatus.noConfusion rfl (heq_of_eq h), ?_⟩,
          ⟨fun h => NumberTextStatus.noConfusion rfl (heq_of_eq h), fun h => absurd hw (h w)⟩⟩
        · intro h
          cases h
          exact ⟨hw, hholds⟩
        · rintro ⟨hv, -⟩
          rw [hv.unique hw]
        · rintro ⟨v, hv, hnot⟩
          rw [hv.unique hw] at hnot
          exact absurd hholds hnot
      · rw [if_neg hholds]
        refine ⟨fun v => ⟨fun h => NumberTextStatus.noConfusion rfl (heq_of_eq h), ?_⟩,
          ⟨fun _ => ⟨w, hw, hholds⟩, fun _ => rfl⟩,
          ⟨fun h => NumberTextStatus.noConfusion rfl (heq_of_eq h), fun h => absurd hw (h w)⟩⟩
        rintro ⟨hv, hT⟩
        rw [hv.unique hw] at hT
        exact absurd hT hholds
    · have hno : ∀ v, ¬ NumberGrammar text v := fun v hv => hgrammar ⟨v, hv⟩
      rw [parse_of_not_grammar T hno]
      exact ⟨fun v => ⟨fun h => NumberTextStatus.noConfusion rfl (heq_of_eq h),
        fun h => absurd h.1 (hno v)⟩,
        ⟨fun h => NumberTextStatus.noConfusion rfl (heq_of_eq h), fun ⟨v, hv, _⟩ => absurd hv (hno v)⟩,
        ⟨fun _ => hno, fun _ => rfl⟩⟩
  · intro limit radix digits hlimit hradix word hword
    rw [accumulate_spec hradix hlimit uint64_of_lt, accumulate_spec hradix hlimit hword]
  · rintro st n stop ⟨hi, hn, lines, haction⟩
    have hclass := action_integer haction
    rw [hclass] at haction
    exact readersAgree_token T hi hn (charClass_digit hclass) haction

/-- A text without its digit separators. -/
def withoutSeparators (text : List Char) : List Char := text.filter (· ≠ '_')

/-- `1_0` is no number: digits have no separators. -/
theorem separators_refused :
    ¬ ∀ (T : SignedIntegral) (text : List Char) (v : Int),
      NumberGrammar (withoutSeparators text) v → T.Holds v → parseNumberToken T text = .ok v := by
  intro h
  have hgrammar : NumberGrammar (withoutSeparators ['1', '_', '0']) 10 :=
    .unsigned (.decimal (by decide) (by simp [withoutSeparators, isDecimalDigit]) (by decide))
  have hread := h int64 ['1', '_', '0'] 10 hgrammar (by decide)
  exact absurd hread (by decide)

end Camel.Text
