import Camel.Syntax.Lexer

/-! # What the Lexer Finds

    Every scan goes on by at least one byte and stays in the range. The text of an
    error is the text of its token, but for an unclosed raw string: there the error
    begins at the opening quote, which is what the report shows.
-/

namespace Camel.Syntax

open List

/-! ## Positions -/

section Positions

variable {s : List UInt8} {n : Nat}

theorem lt_of_at? {c : UInt8} {k : Nat} (h : at? s n k = c) (hc : c ≠ 0) : k < n := by
  by_contra hk
  rw [at?, if_neg hk] at h
  exact hc h.symm

theorem lt_of_isDigit {k : Nat} (h : isDigit (at? s n k) = true) : k < n := by
  by_contra hk
  rw [at?, if_neg hk] at h
  revert h
  decide

theorem lt_of_imaginaryAt {k : Nat} (h : imaginaryAt s n k = true) : k < n := by
  simp only [imaginaryAt, Bool.and_eq_true, decide_eq_true_eq] at h
  exact lt_of_at? h.1 (by decide)

theorem exponentEnd_bounds {j : Nat} (hj : j ≤ n) :
    j ≤ exponentEnd s n j ∧ exponentEnd s n j ≤ n := by
  simp only [exponentEnd]
  split_ifs with he hsign hdigit hdigit
  · have hlt := lt_of_isDigit hdigit
    have hle := le_scanWhile isDigit s n (j + 2)
    have hend := scanWhile_le isDigit s (Nat.le_of_lt hlt)
    exact ⟨by omega, hend⟩
  · exact ⟨Nat.le_refl j, hj⟩
  · have hlt := lt_of_isDigit hdigit
    have hle := le_scanWhile isDigit s n (j + 1)
    have hend := scanWhile_le isDigit s (Nat.le_of_lt hlt)
    exact ⟨by omega, hend⟩
  · exact ⟨Nat.le_refl j, hj⟩
  · exact ⟨Nat.le_refl j, hj⟩

/-- A scan passes every byte it accepts. -/
theorem lt_scanWhile_of_run {p : UInt8 → Bool} {j k : Nat} (hjk : j ≤ k) (hk : k < n)
    (hp : ∀ m, j ≤ m → m ≤ k → p (byte s m) = true) : k < scanWhile p s n j := by
  induction j using scanWhile.induct p s n with
  | case1 j h ih =>
    rw [scanWhile, if_pos h]
    rcases Nat.eq_or_lt_of_le hjk with rfl | hlt
    · exact le_scanWhile p s n (j + 1)
    · exact ih hlt fun m hm => hp m (by omega)
  | case2 j h => exact absurd ⟨by omega, hp j (Nat.le_refl j) hjk⟩ h

/-- What a scan has passed, it has accepted. -/
theorem scanWhile_run {p : UInt8 → Bool} {j : Nat} :
    ∀ m, j ≤ m → m < scanWhile p s n j → p (byte s m) = true := by
  induction j using scanWhile.induct p s n with
  | case1 j h ih =>
    rw [scanWhile, if_pos h]
    intro m hjm hm
    rcases Nat.eq_or_lt_of_le hjm with rfl | hlt
    · exact h.2
    · exact ih m hlt hm
  | case2 j h =>
    rw [scanWhile, if_neg h]
    intro m hjm hm
    omega

theorem lineEnd_bounds {i : Nat} (hi : i < n) (h : byte s i ≠ ch '\n') :
    i < lineEnd s n i ∧ lineEnd s n i ≤ n := by
  have hp : decide (byte s i ≠ ch '\n') = true := by simpa using h
  exact ⟨lt_scanWhile hi hp, scanWhile_le _ s (Nat.le_of_lt hi)⟩

theorem scanWhile_bounds (p : UInt8 → Bool) {j : Nat} (hj : j ≤ n) :
    j ≤ scanWhile p s n j ∧ scanWhile p s n j ≤ n :=
  ⟨le_scanWhile p s n j, scanWhile_le p s hj⟩

theorem integerEnd_bounds {i j : Nat} (hi : i < n) (hj : i < j) (hjn : j ≤ n) :
    i < (integerEnd s n i j).1 ∧ (integerEnd s n i j).1 ≤ n := by
  have hlead : ∀ c : UInt8, c ≠ 0 → at? s n (i + 1) = c → i + 2 ≤ n :=
    fun c hc h => lt_of_at? h hc
  simp only [integerEnd]
  split_ifs with h0 hx hnone hexp hb hbad ho hbad hdigit himag
  -- hexadecimal: no digit, a signed exponent, digits
  · have hdigits := scanWhile_bounds (s := s) isHexDigit (hlead _ (by decide) hx)
    exact ⟨by omega, hdigits.2⟩
  · have hdigits := scanWhile_bounds (s := s) isHexDigit (hlead _ (by decide) hx)
    exact ⟨by omega, by omega⟩
  · have hdigits := scanWhile_bounds (s := s) isHexDigit (hlead _ (by decide) hx)
    exact ⟨by omega, hdigits.2⟩
  -- binary and octal: a bad run takes all decimal digits
  · have hdigits := scanWhile_bounds (s := s) (fun c => decide (c = ch '0') || decide (c = ch '1'))
      (hlead _ (by decide) hb)
    have hrun := scanWhile_bounds (s := s) isDigit hdigits.2
    exact ⟨by omega, hrun.2⟩
  · have hdigits := scanWhile_bounds (s := s) (fun c => decide (c = ch '0') || decide (c = ch '1'))
      (hlead _ (by decide) hb)
    exact ⟨by omega, hdigits.2⟩
  · have hdigits := scanWhile_bounds (s := s) (fun c => decide (ch '0' ≤ c) && decide (c ≤ ch '7'))
      (hlead _ (by decide) ho)
    have hrun := scanWhile_bounds (s := s) isDigit hdigits.2
    exact ⟨by omega, hrun.2⟩
  · have hdigits := scanWhile_bounds (s := s) (fun c => decide (ch '0' ≤ c) && decide (c ≤ ch '7'))
      (hlead _ (by decide) ho)
    exact ⟨by omega, hdigits.2⟩
  -- decimal: a leading zero, `0` itself, other digits
  · have hexp := exponentEnd_bounds (s := s) hjn
    have := lt_of_imaginaryAt himag
    exact ⟨by omega, by omega⟩
  · have hexp := exponentEnd_bounds (s := s) hjn
    exact ⟨by omega, hexp.2⟩
  · exact ⟨by omega, by omega⟩
  · exact ⟨hj, hjn⟩

end Positions

/-! ## Actions -/

/-- The opening of a raw string: `r`, then `#`s, then the quote at `opening`. -/
def RawOpening (s : List UInt8) (i opening : Nat) : Prop :=
  byte s i = ch 'r' ∧ i < opening ∧ (∀ k, i < k → k < opening → byte s k = ch '#') ∧
    byte s opening = doubleQuote

/-- Where the error of the token from `i` to `stop` begins. -/
def ErrorBegins (s : List UInt8) (i begin stop : Nat) : Prop :=
  begin = i ∨ (RawOpening s i begin ∧ begin < stop)

/-- A token ends behind its first byte, in the range, and is an Error token only if an error
    is reported. -/
def Action.Sound (s : List UInt8) (n i : Nat) : Action → Prop
  | .emit kind stop _ => (kind ≠ .eof ∧ kind ≠ .error) ∧ i < stop ∧ stop ≤ n
  | .fString stop parts _ =>
    (∀ part ∈ parts, i < part.1 ∧ part.1 + 2 ≤ part.2 ∧ part.2 < n) ∧ i < stop ∧ stop ≤ n
  | .trivia kind stop _ _ => (kind ≠ .eof ∧ kind ≠ .error) ∧ i < stop ∧ stop ≤ n
  | .error _ begin stop _ _ => ErrorBegins s i begin stop ∧ i < stop ∧ stop ≤ n

section Actions

variable {s : List UInt8} {n i : Nat}

theorem scanWord_sound (hi : i < n) (hc : byte s i ≠ ch '\n') : (scanWord s n i).Sound s n i := by
  have hline := lineEnd_bounds hi hc
  simp only [scanWord]
  split_ifs with hr hraw
  · have hlt : scanWhile (fun c => decide (c = ch '#')) s n (i + 1) < n :=
      lt_of_at? hraw.2 (by decide)
    have hle := le_scanWhile (fun c => decide (c = ch '#')) s n (i + 1)
    have hquote := hraw.2
    rw [at?, if_pos hlt] at hquote
    have hhashes : ∀ k, i < k → k < scanWhile (fun c => decide (c = ch '#')) s n (i + 1) →
        byte s k = ch '#' := by
      intro k hik hk
      have := scanWhile_run k hik hk
      simpa using this
    split
    next j hend =>
      have := rawEnd_spec hend
      exact ⟨by decide, by omega, this.2⟩
    next =>
      refine ⟨.inr ⟨⟨hr, hle, hhashes, hquote⟩, ?_⟩, hline.1, hline.2⟩
      -- no line break stands before the quote
      apply lt_scanWhile_of_run (by omega) hlt
      intro m him hm
      rcases Nat.eq_or_lt_of_le him with rfl | him
      · simpa using hc
      · rcases Nat.eq_or_lt_of_le hm with rfl | hm
        · rw [hquote]
          decide
        · rw [hhashes m him hm]
          decide
  · have hword := scanWhile_bounds (s := s) isIdentPart (show i + 1 ≤ n from hi)
    exact ⟨classifyWord_ne _, hword.1, hword.2⟩
  · rename_i h
    exact absurd h.1 hr
  · have hword := scanWhile_bounds (s := s) isIdentPart (show i + 1 ≤ n from hi)
    exact ⟨classifyWord_ne _, hword.1, hword.2⟩

theorem scanNumber_sound (hi : i < n) : (scanNumber s n i).Sound s n i := by
  have hrun := scanWhile_bounds (s := s) isDigit (show i + 1 ≤ n from hi)
  have hint := integerEnd_bounds (s := s) hi hrun.1 hrun.2
  have hexp := exponentEnd_bounds (s := s) hint.2
  rw [scanNumber]
  by_cases hreal : at? s n (scanWhile isDigit s n (i + 1)) = ch '.' ∧
      isDigit (at? s n (scanWhile isDigit s n (i + 1) + 1)) = true
  · have hfrac := scanWhile_bounds (s := s) isDigit
      (show scanWhile isDigit s n (i + 1) + 2 ≤ n from lt_of_isDigit hreal.2)
    have hend := exponentEnd_bounds (s := s) hfrac.2
    simp only [if_pos hreal]
    split_ifs with hzero himag himag
    · have := lt_of_imaginaryAt himag
      exact ⟨.inl rfl, by omega, by omega⟩
    · exact ⟨.inl rfl, by omega, hend.2⟩
    · have := lt_of_imaginaryAt himag
      exact ⟨by decide, by omega, by omega⟩
    · exact ⟨by decide, by omega, hend.2⟩
  · simp only [if_neg hreal]
    split_ifs with hbad hlead himag hkind
    · have hword := scanWhile_bounds (s := s) isIdentPart hint.2
      exact ⟨.inl rfl, by omega, hword.2⟩
    · exact ⟨.inl rfl, hint.1, hint.2⟩
    · have := lt_of_imaginaryAt himag.2
      exact ⟨by decide, by omega, by omega⟩
    · exact ⟨by decide, by omega, hexp.2⟩
    · exact ⟨by decide, by omega, hexp.2⟩

theorem scanString_sound (hi : i < n) (hc : byte s i ≠ ch '\n') :
    (scanString s n i).Sound s n i := by
  have hline := lineEnd_bounds hi hc
  rw [scanString]
  split
  next j hend =>
    have := stringEnd_spec hend
    exact ⟨by decide, by omega, this.2⟩
  next => exact ⟨.inl rfl, hline.1, hline.2⟩

/-- The interpolations of a string that goes on at `j` and ends at `e`. -/
def PartsWithin (n j e : Nat) (parts : List (Nat × Nat)) : Prop :=
  (∀ part ∈ parts, j ≤ part.1 ∧ part.1 + 2 ≤ part.2 ∧ part.2 < n) ∧ j < e ∧ e ≤ n

theorem PartsWithin.since {j k e : Nat} {parts : List (Nat × Nat)} (h : PartsWithin n k e parts)
    (hjk : j ≤ k) : PartsWithin n j e parts := by
  refine ⟨fun part hpart => ?_, Nat.lt_of_le_of_lt hjk h.2.1, h.2.2⟩
  obtain ⟨hopen, hclose⟩ := h.1 part hpart
  exact ⟨Nat.le_trans hjk hopen, hclose⟩

theorem fstringEnd_spec {j e : Nat} {parts : List (Nat × Nat)}
    (h : fstringEnd s n j = some (e, parts)) : PartsWithin n j e parts := by
  fun_induction fstringEnd s n j generalizing e parts with
  | case1 j hj hclose =>
    cases h
    exact ⟨by simp, by omega, hj⟩
  | case2 j hj _ _ _ ih => exact (ih h).since (by omega)
  | case3 j hj _ _ _ _ ih => exact (ih h).since (by omega)
  | case4 j hj _ _ _ _ _ ih => exact (ih h).since (by omega)
  | case5 j hj _ _ _ _ _ ih => exact (ih h).since (by omega)
  | case6 => cases h
  | case7 j hj _ _ _ close hclose _ ih =>
    obtain ⟨⟨e', parts'⟩, hrest, heq⟩ := Option.map_eq_some_iff.mp h
    cases heq
    have hin := ih hrest
    refine ⟨fun part hpart => ?_, by have := hin.2.1; omega, hin.2.2⟩
    rcases mem_cons.mp hpart with rfl | hpart
    · exact ⟨Nat.le_refl _, hclose.1, hclose.2⟩
    · have := hin.1 part hpart
      omega
  | case8 j hj _ _ _ ih => exact (ih h).since (by omega)
  | case9 => cases h

theorem scanQuote_sound (hi : i < n) (hc : byte s i ≠ ch '\n') :
    (scanQuote s n i).Sound s n i := by
  have hline := lineEnd_bounds hi hc
  simp only [scanQuote]
  split
  next =>
    split
    next close hfind =>
      have := find_spec hfind
      exact ⟨by decide, by omega, this.2⟩
    next => exact scanString_sound hi hc
  next =>
    split
    next =>
      split
      next j parts hend =>
        obtain ⟨hparts, hlt, hle⟩ := fstringEnd_spec hend
        refine ⟨fun part hpart => ?_, by omega, hle⟩
        have := hparts part hpart
        omega
      next => exact ⟨.inl rfl, hline.1, hline.2⟩
    next => exact scanString_sound hi hc

theorem scanHash_sound (hi : i < n) : (scanHash s n i).Sound s n i := by
  rw [scanHash]
  split
  next =>
    have hline := scanWhile_bounds (s := s) (fun c => inLine c && decide (c ≠ formFeed))
      (show i + 1 ≤ n from hi)
    exact ⟨by decide, hline.1, hline.2⟩
  next => exact ⟨by decide, Nat.lt_succ_self i, hi⟩

/-- An operator that is no longer than the bytes it was told by: `c1` and `c2` are 0 behind
    the range. -/
def OperatorFits (c1 c2 : UInt8) (op : TokenKind × Nat) : Prop :=
  (op.1 ≠ .eof ∧ op.1 ≠ .error) ∧
    (op.2 = 1 ∨ (op.2 = 2 ∧ c1 ≠ 0) ∨ (op.2 = 3 ∧ c1 ≠ 0 ∧ c2 ≠ 0))

section Operators

variable {c1 c2 : UInt8} {kind : TokenKind}

section
variable (h : kind ≠ .eof ∧ kind ≠ .error)
include h

theorem fits_one : OperatorFits c1 c2 (kind, 1) := ⟨h, .inl rfl⟩

theorem fits_two {d : UInt8} (h1 : c1 = d) (hd : d ≠ 0) :
    OperatorFits c1 c2 (kind, 2) := by
  subst h1
  exact ⟨h, .inr (.inl ⟨rfl, hd⟩)⟩

theorem fits_three {d e : UInt8} (h12 : c1 = d ∧ c2 = e)
    (hd : d ≠ 0) (he : e ≠ 0) : OperatorFits c1 c2 (kind, 3) := by
  obtain ⟨rfl, rfl⟩ := h12
  exact ⟨h, .inr (.inr ⟨rfl, hd, he⟩)⟩

end

theorem fits_ite {p : Prop} [Decidable p] {a b : TokenKind × Nat} (ha : p → OperatorFits c1 c2 a)
    (hb : ¬ p → OperatorFits c1 c2 b) : OperatorFits c1 c2 (if p then a else b) := by
  split
  next h => exact ha h
  next h => exact hb h

end Operators

/-- Every punctuation character starts an operator. -/
theorem operator_fits {c : UInt8} (c1 c2 : UInt8) (touches : Bool) (hc : c ∈ punctuation) :
    OperatorFits c1 c2 (operator c c1 c2 touches) := by
  rw [operator]
  -- one goal for each operator, and the last one for a byte that starts none
  repeat' (first | apply fits_ite | intro _)
  all_goals first
    | exact fits_one (by decide)
    | exact fits_two (by decide) ‹_› (by decide)
    | exact fits_three (by decide) ‹_› (by decide) (by decide)
    | exact fits_one (by split <;> decide)
    | exact absurd hc (by simp only [punctuation, map_cons, map_nil, mem_cons,
        not_mem_nil, or_false, not_or]; simp only [*, not_false_eq_true, and_self])

theorem scanPunct_sound (touches : Bool) (hi : i < n) (hc : byte s i ∈ punctuation) :
    (scanPunct s n touches i).Sound s n i := by
  rw [scanPunct]
  split
  next h =>
    have hcomment := scanWhile_bounds (s := s) inLine
      (show i + 2 ≤ n from lt_of_at? h.2 (by decide))
    refine ⟨by split <;> decide, by omega, hcomment.2⟩
  next =>
    split
    next h =>
      split
      next => exact ⟨.inl rfl, hi, Nat.le_refl n⟩
      next close hfind =>
        have := find_spec hfind
        simp only [length_cons, length_nil] at this
        exact ⟨by decide, by omega, by omega⟩
    next =>
      have hfits := operator_fits (at? s n (i + 1)) (at? s n (i + 2)) touches hc
      generalize operator (byte s i) (at? s n (i + 1)) (at? s n (i + 2)) touches = op at hfits ⊢
      obtain ⟨kind, length⟩ := op
      obtain ⟨hkind, hlength⟩ := hfits
      simp only at hkind hlength
      refine ⟨hkind, ?_⟩
      rcases hlength with rfl | ⟨rfl, hc1⟩ | ⟨rfl, hc1, hc2⟩
      · omega
      · have := lt_of_at? rfl hc1
        omega
      · have := lt_of_at? rfl hc2
        omega

theorem scanIllegal_sound (hi : i < n) (hc : charClass (byte s i) = .illegal) :
    (scanIllegal s n i).Sound s n i := by
  have hp : decide (charClass (byte s i) = .illegal) = true := decide_eq_true hc
  exact ⟨.inl rfl, lt_scanWhile hi hp, scanWhile_le _ s (Nat.le_of_lt hi)⟩

end Actions

theorem charClass_punct {c : UInt8} (h : charClass c = .punct) : c ∈ punctuation := by
  rw [charClass] at h
  split_ifs at h with _ _ _ _ _ hmem
  exact hmem

/-- What the lexer finds where no white space is. -/
theorem action_sound {n : Nat} {st : LexState} (hi : st.i < n)
    (hspace : isSpace (byte st.buffer.source st.i) = false) :
    (st.action n (charClass (byte st.buffer.source st.i))).Sound st.buffer.source n st.i := by
  have hline : byte st.buffer.source st.i ≠ ch '\n' := by
    intro h
    rw [h] at hspace
    revert hspace
    decide
  cases hc : charClass (byte st.buffer.source st.i) with
  | identStart => exact scanWord_sound hi hline
  | digit => exact scanNumber_sound hi
  | quote => exact scanQuote_sound hi hline
  | hash => exact scanHash_sound hi
  | punct => exact scanPunct_sound _ hi (charClass_punct hc)
  | illegal => exact scanIllegal_sound hi hc
  | blank => simp [isSpace, hc] at hspace
  | newline => simp [isSpace, hc] at hspace

end Camel.Syntax
