import Camel.Syntax.Action

/-! # Nothing Is Lost

    The lexer passes over its range once. Every byte lies in a token or is white space
    between two of them, and the errors it reports are its Error tokens. The text inside
    a `${...}` is lexed again to find where its expression ends; the range is smaller
    each time.
-/

namespace Camel.Syntax

open List

/-! ## The Loop -/

def Action.stop : Action → Nat
  | .emit _ stop _ => stop
  | .fString stop _ _ => stop
  | .trivia _ stop _ _ => stop
  | .error _ _ stop _ _ => stop

section Steps

variable (split : FStringInterpolation → FStringInterpolation) {n : Nat} {st : LexState}

@[simp] theorem act_i (st : LexState) (a : Action) : (st.act split a).i = a.stop := by
  cases a <;> rfl

theorem Action.Sound.stop {s : List UInt8} {i : Nat} {a : Action} (h : a.Sound s n i) :
    i < a.stop ∧ a.stop ≤ n := by
  cases a <;> exact h.2

/-- White space is passed over; anything else is recorded. -/
theorem step_cases (h : st.i < n) :
    (isSpace (byte st.buffer.source st.i) = true ∧ (st.step split n).i = st.i + 1 ∧
      (st.step split n).buffer.source = st.buffer.source ∧
      (st.step split n).buffer.tokens = st.buffer.tokens ∧
      (st.step split n).buffer.errors = st.buffer.errors) ∨
    isSpace (byte st.buffer.source st.i) = false ∧
      ∃ a : Action, a.Sound st.buffer.source n st.i ∧ st.step split n = st.act split a := by
  by_cases hspace : isSpace (byte st.buffer.source st.i) = true
  · left
    refine ⟨hspace, ?_⟩
    simp only [isSpace, Bool.or_eq_true, decide_eq_true_eq] at hspace
    rcases hspace with hc | hc
    · simp only [LexState.step, hc]
      trivial
    · simp only [LexState.step, hc]
      trivial
  · right
    rw [Bool.not_eq_true] at hspace
    refine ⟨hspace, _, action_sound h hspace, ?_⟩
    simp only [isSpace, Bool.or_eq_false_iff, decide_eq_false_iff_not] at hspace
    rw [LexState.step]
    split
    next hc => exact absurd hc hspace.1
    next hc => exact absurd hc hspace.2
    next => rfl

theorem step_progress (h : st.i < n) :
    st.i < (st.step split n).i ∧ (st.step split n).i ≤ n := by
  rcases step_cases split h with ⟨-, hi, -⟩ | ⟨-, a, ha, heq⟩
  · omega
  · rw [heq, act_i]
    exact ha.stop

/-- The loop of `tokenizeImpl`. -/
def LexState.run (n : Nat) (st : LexState) : LexState :=
  if st.i < n then LexState.run n (st.step split n) else st
termination_by n - st.i
decreasing_by
  have := step_progress split ‹st.i < n›
  omega

/-- What every turn of the loop keeps, the loop keeps. -/
theorem run_keeps {P : LexState → Prop} (hstep : ∀ st, st.i < n → P st → P (st.step split n))
    (h : P st) : P (st.run split n) := by
  induction st using LexState.run.induct split n with
  | case1 st hi ih =>
    rw [LexState.run, if_pos hi]
    exact ih (hstep st hi h)
  | case2 st hi =>
    rw [LexState.run, if_neg hi]
    exact h

end Steps

/-! ## Tokenizing a Range -/

/-- The first `:` outside every bracket; `stack` holds the brackets that are open. -/
def findColon : List TokenKind → List Token → Option Token
  | _, [] => none
  | stack, token :: rest =>
    match token.kind with
    | .eof => none
    | .lParen | .lBracket | .lBrace | .lAngle => findColon (token.kind :: stack) rest
    | .rParen | .rBracket | .rBrace => findColon stack.tail rest
    | .gt => findColon (if stack.head? = some .lAngle then stack.tail else stack) rest
    | .colon => if stack.isEmpty then some token else findColon stack rest
    | _ => findColon stack rest

/-- Splits `${EXPR[:SPEC]}`, given the tokens of its content. -/
def splitInterpolation (sub : List Token) (part : FStringInterpolation) : FStringInterpolation :=
  match findColon [] sub with
  | some token =>
    { part with
      hasSpec := true, exprEnd := token.begin, specBegin := token.stop, specEnd := part.close }
  | none =>
    { part with exprEnd := part.close, specBegin := part.close, specEnd := part.close }

variable (s : List UInt8)

def LexState.start (begin : Nat) : LexState :=
  { i := begin
    buffer := ⟨s, [], [], [], 0 :: noteLines s 0 begin⟩
    pending := ⟨false, false⟩
    previous := .eof }

/-- The end of the text, and the lines behind the range. -/
def LexState.finish (n : Nat) (st : LexState) : TokenBuffer :=
  { st.buffer with
    tokens := st.buffer.tokens ++ [⟨u32 n, u32 n, .eof, st.pending⟩]
    lineStarts := st.buffer.lineStarts ++ noteLines st.buffer.source n st.buffer.source.length }

/-- Tokenizes the range from `begin` to `stop`. An interpolation is split by tokenizing its
    content; that its range is smaller, which is asked here, is always so
    (`tokenizeImpl_eq`). -/
def tokenizeImpl (s : List UInt8) (begin stop : Nat) : TokenBuffer :=
  ((LexState.start s begin).run
    (fun part =>
      if min part.close s.length - min part.exprBegin s.length < stop - begin then
        splitInterpolation
          (tokenizeImpl s (min part.exprBegin s.length) (min part.close s.length)).tokens part
      else part)
    stop).finish stop
termination_by stop - begin

def tokenizeRange (begin stop : Nat) : TokenBuffer :=
  tokenizeImpl s (min begin s.length) (min stop s.length)

def tokenize : TokenBuffer := tokenizeImpl s 0 s.length

/-- An interpolation found in the range from `begin` to `n`. -/
def PartOf (begin n : Nat) (part : Nat × Nat) : Prop :=
  begin < part.1 ∧ part.1 + 2 ≤ part.2 ∧ part.2 < n

variable {begin n : Nat} {st : LexState}

/-- The loop splits only interpolations of its range. -/
theorem run_congr {split split' : FStringInterpolation → FStringInterpolation}
    (hsame : ∀ token part, PartOf begin n part →
      split (newPart token part) = split' (newPart token part)) (hi : begin ≤ st.i) :
    st.run split n = st.run split' n := by
  induction st using LexState.run.induct split n with
  | case1 st h ih =>
    have hstep : st.step split n = st.step split' n := by
      by_cases hspace : isSpace (byte st.buffer.source st.i) = true
      · simp only [isSpace, Bool.or_eq_true, decide_eq_true_eq] at hspace
        rcases hspace with hc | hc
        · simp only [LexState.step, hc]
        · simp only [LexState.step, hc]
      · have hsound := action_sound h (by simpa using hspace)
        have hact : st.act split (st.action n (charClass (byte st.buffer.source st.i))) =
            st.act split' (st.action n (charClass (byte st.buffer.source st.i))) := by
          generalize st.action n (charClass (byte st.buffer.source st.i)) = a at hsound ⊢
          cases a with
          | fString stop parts lines =>
            have hparts : (parts.map fun part => split (newPart st.buffer.tokens.length part)) =
                parts.map fun part => split' (newPart st.buffer.tokens.length part) := by
              apply map_congr_left
              intro part hpart
              obtain ⟨hopen, hclose⟩ := hsound.1 part hpart
              exact hsame _ part ⟨by omega, hclose⟩
            simp only [LexState.act, hparts]
          | _ => rfl
        simp only [LexState.step]
        split
        · rfl
        · rfl
        · exact hact
    have hprogress := step_progress split h
    rw [LexState.run, if_pos h, ih (by omega), hstep]
    conv_rhs => rw [LexState.run, if_pos h]
  | case2 st h =>
    rw [LexState.run, if_neg h, LexState.run, if_neg h]

/-- Nested interpolations are tokenized as the source does it: the range always shrinks. -/
theorem tokenizeImpl_eq (begin stop : Nat) :
    tokenizeImpl s begin stop =
      ((LexState.start s begin).run (fun part =>
        splitInterpolation (tokenizeRange s part.exprBegin part.close).tokens part) stop).finish
          stop := by
  rw [tokenizeImpl]
  congr 1
  apply run_congr _ (Nat.le_refl begin)
  intro token part ⟨hopen, hlen, hclose⟩
  -- cutting both ends to 32 bits never makes a range longer
  have hcut : u32 part.2 - u32 (part.1 + 2) ≤ part.2 - (part.1 + 2) := by
    simp only [u32]
    omega
  rw [if_pos]
  · rfl
  · simp only [newPart]
    omega

/-! ## Losslessness -/

/-- The tokens stand one behind the other from `a` to `b`, with white space between them. -/
def Tiled (s : List UInt8) : Nat → List Token → Nat → Prop
  | a, [], b => a ≤ b ∧ ∀ p, a ≤ p → p < b → isSpace (byte s p) = true
  | a, t :: ts, b =>
    (a ≤ t.begin ∧ ∀ p, a ≤ p → p < t.begin → isSpace (byte s p) = true) ∧ t.begin < t.stop ∧
      Tiled s t.stop ts b

section Tiled

variable {s : List UInt8} {a b : Nat} {ts : List Token}

section
variable (h : Tiled s a ts b)
include h

theorem Tiled.le : a ≤ b := by
  induction ts generalizing a with
  | nil => exact h.1
  | cons t ts ih =>
    have := ih h.2.2
    have := h.1.1
    have := h.2.1
    omega

theorem Tiled.space (hb : isSpace (byte s b) = true) :
    Tiled s a ts (b + 1) := by
  induction ts generalizing a with
  | nil =>
    refine ⟨Nat.le_succ_of_le h.1, fun p hap hp => ?_⟩
    rcases Nat.eq_or_lt_of_le (Nat.le_of_lt_succ hp) with rfl | hlt
    · exact hb
    · exact h.2 p hap hlt
  | cons t ts ih => exact ⟨h.1, h.2.1, ih h.2.2⟩

theorem Tiled.token {t : Token} (hbegin : t.begin = b)
    (hlt : t.begin < t.stop) : Tiled s a (ts ++ [t]) t.stop := by
  induction ts generalizing a with
  | nil =>
    subst hbegin
    exact ⟨h, hlt, Nat.le_refl _, fun p hap hp => by omega⟩
  | cons t' ts ih => exact ⟨h.1, h.2.1, ih h.2.2⟩

theorem Tiled.inside : ∀ t ∈ ts, a ≤ t.begin ∧ t.begin < t.stop ∧ t.stop ≤ b := by
  induction ts generalizing a with
  | nil => simp
  | cons t ts ih =>
    intro t' ht'
    have hle := h.2.2.le
    rcases mem_cons.mp ht' with rfl | ht'
    · exact ⟨h.1.1, h.2.1, hle⟩
    · obtain ⟨hbegin, hlt, hstop⟩ := ih h.2.2 t' ht'
      have := h.1.1
      have := h.2.1
      exact ⟨by omega, hlt, hstop⟩

theorem Tiled.ordered : ts.Pairwise fun t t' => t.stop ≤ t'.begin := by
  induction ts generalizing a with
  | nil => exact .nil
  | cons t ts ih =>
    apply pairwise_cons.mpr
    exact ⟨fun t' ht' => (h.2.2.inside t' ht').1, ih h.2.2⟩

theorem Tiled.covers {p : Nat} (hap : a ≤ p) (hpb : p < b) :
    (∃ t ∈ ts, t.begin ≤ p ∧ p < t.stop) ∨ isSpace (byte s p) = true := by
  induction ts generalizing a with
  | nil => exact .inr (h.2 p hap hpb)
  | cons t ts ih =>
    by_cases hbefore : p < t.begin
    · exact .inr (h.1.2 p hap hbefore)
    · by_cases hin : p < t.stop
      · exact .inl ⟨t, by simp, by omega, hin⟩
      · rcases ih h.2.2 (by omega) with ⟨t', ht', hp⟩ | hspace
        · exact .inl ⟨t', by simp [ht'], hp⟩
        · exact .inr hspace

end

end Tiled

/-- An error and the token that holds its text. -/
def ErrorOf (e : LexError) (t : Token) : Prop :=
  e.stop = t.stop ∧ ErrorBegins s t.begin e.begin t.stop

/-- The state after a part of the range from `begin` on. -/
structure Lexed (s : List UInt8) (begin n : Nat) (st : LexState) : Prop where
  source : st.buffer.source = s
  position : st.i ≤ n
  tiled : Tiled s begin st.buffer.tokens st.i
  kinds : ∀ t ∈ st.buffer.tokens, t.kind ≠ .eof
  errors : Forall₂ (ErrorOf s) st.buffer.errors
    (st.buffer.tokens.filter fun t => t.kind = .error)

variable {s : List UInt8}

/-- A token is recorded. -/
theorem Lexed.recorded {stop : Nat} {st' : LexState}
    {kind : TokenKind} {found : List LexError} (h : Lexed s begin n st) (hn : n < 2 ^ 32)
    (hlt : st.i < stop) (hle : stop ≤ n) (hkind : kind ≠ .eof) (hi : st'.i = stop)
    (hsource : st'.buffer.source = st.buffer.source)
    (htokens : st'.buffer.tokens = st.buffer.tokens ++ [⟨u32 st.i, u32 stop, kind, st.pending⟩])
    (herrors : st'.buffer.errors = st.buffer.errors ++ found)
    (hfound : Forall₂ (ErrorOf s) found
      ([⟨st.i, stop, kind, st.pending⟩].filter fun t : Token => t.kind = .error)) :
    Lexed s begin n st' := by
  have hbegin : u32 st.i = st.i := u32_eq (by omega)
  have hstop : u32 stop = stop := u32_eq (by omega)
  rw [hbegin, hstop] at htokens
  constructor
  · rw [hsource, h.source]
  · omega
  · rw [htokens, hi]
    exact h.tiled.token rfl hlt
  · intro t ht
    rw [htokens] at ht
    rcases mem_append.mp ht with ht | ht
    · exact h.kinds t ht
    · rw [mem_singleton.mp ht]
      exact hkind
  · rw [herrors, htokens, filter_append]
    exact rel_append h.errors hfound

theorem Lexed.act {a : Action}
    (split : FStringInterpolation → FStringInterpolation) (h : Lexed s begin n st)
    (hn : n < 2 ^ 32) (ha : a.Sound s n st.i) : Lexed s begin n (st.act split a) := by
  cases a with
  | emit kind stop lines =>
    obtain ⟨⟨heof, herror⟩, hlt, hle⟩ := ha
    exact h.recorded hn hlt hle heof rfl rfl rfl (append_nil _).symm (by simp [herror])
  | fString stop parts lines =>
    obtain ⟨-, hlt, hle⟩ := ha
    exact h.recorded hn hlt hle (show TokenKind.fString ≠ .eof by decide) rfl rfl rfl
      (append_nil _).symm (by simp)
  | trivia kind stop spansLines lines =>
    obtain ⟨⟨heof, herror⟩, hlt, hle⟩ := ha
    exact h.recorded hn hlt hle heof rfl rfl rfl (append_nil _).symm (by simp [herror])
  | error kind begin' stop spansLines lines =>
    obtain ⟨hbegins, hlt, hle⟩ := ha
    have hbegin : u32 begin' = begin' := by
      apply u32_eq
      rcases hbegins with rfl | ⟨-, hlt'⟩
      · omega
      · omega
    have hstop : u32 stop = stop := u32_eq (by omega)
    have hfound : Forall₂ (ErrorOf s) [⟨kind, u32 begin', u32 stop⟩]
        ([⟨st.i, stop, .error, st.pending⟩].filter fun t : Token => t.kind = .error) := by
      rw [hbegin, hstop]
      exact .cons ⟨rfl, hbegins⟩ .nil
    exact h.recorded hn hlt hle (show TokenKind.error ≠ .eof by decide) rfl rfl rfl rfl hfound

theorem Lexed.step {s : List UInt8} {begin n : Nat} {st : LexState}
    (split : FStringInterpolation → FStringInterpolation) (h : Lexed s begin n st)
    (hn : n < 2 ^ 32) (hi : st.i < n) : Lexed s begin n (st.step split n) := by
  rcases step_cases split hi with ⟨hspace, hi', hsource, htokens, herrors⟩ | ⟨-, a, ha, heq⟩
  · rw [h.source] at hspace
    constructor
    · rw [hsource, h.source]
    · omega
    · rw [htokens, hi']
      exact h.tiled.space hspace
    · rw [htokens]
      exact h.kinds
    · rw [herrors, htokens]
      exact h.errors
  · rw [heq]
    rw [h.source] at ha
    exact h.act split hn ha

theorem Lexed.start (s : List UInt8) (hle : begin ≤ n) :
    Lexed s begin n (.start s begin) where
  source := rfl
  position := hle
  tiled := ⟨Nat.le_refl begin, fun p hap hp => absurd hp (Nat.not_lt.mpr hap)⟩
  kinds := by simp [LexState.start]
  errors := .nil

/-- The loop ends at the end of the range. -/
theorem run_end {split : FStringInterpolation → FStringInterpolation}
    (hi : st.i ≤ n) : (st.run split n).i = n := by
  induction st using LexState.run.induct split n with
  | case1 st h ih =>
    rw [LexState.run, if_pos h]
    exact ih (step_progress split h).2
  | case2 st h =>
    rw [LexState.run, if_neg h]
    omega

/-- What the buffer of the range from `begin` to `stop` is to be. `errors` pairs the errors
    with the Error tokens. -/
structure Lossless (s : List UInt8) (begin stop : Nat) (buffer : TokenBuffer) : Prop where
  source : buffer.source = s
  /-- One Eof, at the end of the range; no other token is empty. -/
  eof : ∃ ts flags, buffer.tokens = ts ++ [⟨stop, stop, .eof, flags⟩] ∧
    ∀ t ∈ ts, t.kind ≠ .eof ∧ begin ≤ t.begin ∧ t.begin < t.stop ∧ t.stop ≤ stop
  ordered : buffer.tokens.Pairwise fun t t' => t.stop ≤ t'.begin
  gaps : ∀ p, begin ≤ p → p < stop →
    (∃ t ∈ buffer.tokens, t.begin ≤ p ∧ p < t.stop) ∨ isSpace (byte s p) = true
  errors : Forall₂ (ErrorOf s) buffer.errors (buffer.tokens.filter fun t => t.kind = .error)

theorem Lexed.finish (h : Lexed s begin n st)
    (hend : st.i = n) (hn : n < 2 ^ 32) : Lossless s begin n (st.finish n) := by
  have htiled := h.tiled
  rw [hend] at htiled
  have htokens : (st.finish n).tokens = st.buffer.tokens ++ [⟨n, n, .eof, st.pending⟩] := by
    simp only [LexState.finish, u32_eq hn]
  constructor
  · exact h.source
  · refine ⟨st.buffer.tokens, st.pending, htokens, fun t ht => ?_⟩
    exact ⟨h.kinds t ht, htiled.inside t ht⟩
  · rw [htokens, pairwise_append]
    refine ⟨htiled.ordered, pairwise_singleton _ _, fun t ht t' ht' => ?_⟩
    rw [mem_singleton.mp ht']
    exact (htiled.inside t ht).2.2
  · intro p hbegin hp
    rcases htiled.covers hbegin hp with ⟨t, ht, hin⟩ | hspace
    · exact .inl ⟨t, by rw [htokens]; simp [ht], hin⟩
    · exact .inr hspace
  · rw [htokens, filter_append, filter_cons_of_neg (by simp), filter_nil,
      append_nil]
    exact h.errors

/-- Tokenizing any range of any text ends, and nothing is lost: in order, without overlap
    and without a gap but for white space, and the errors are the Error tokens. The range
    must end below 4 GiB, where offsets are exact. -/
theorem tokenizeRange_lossless (s : List UInt8) (begin stop : Nat)
    (hsmall : min stop s.length < 2 ^ 32) :
    Lossless s (min begin s.length) (min stop s.length) (tokenizeRange s begin stop) := by
  rw [tokenizeRange, tokenizeImpl_eq]
  generalize (fun part : FStringInterpolation =>
    splitInterpolation (tokenizeRange s part.exprBegin part.close).tokens part) = split
  generalize min begin s.length = a at *
  generalize min stop s.length = n at *
  by_cases hle : a ≤ n
  · have hrun : Lexed s a n ((LexState.start s a).run split n) :=
      run_keeps split (fun st hi h => h.step split hsmall hi) (Lexed.start s hle)
    exact hrun.finish (run_end hle) hsmall
  · -- an empty range: only the end of the text
    rw [LexState.run, if_neg (show ¬ (LexState.start s a).i < n from fun h => hle (Nat.le_of_lt h))]
    constructor
    · rfl
    · refine ⟨[], ⟨false, false⟩, ?_, by simp⟩
      simp only [LexState.finish, LexState.start, u32_eq hsmall, nil_append]
    · exact pairwise_singleton _ _
    · intro p hbegin hp
      omega
    · simp only [LexState.finish, LexState.start, nil_append]
      exact .nil

/-- An unclosed raw string is a token and an error that begins behind it. -/
theorem tokenizeRange_lossless_rawString :
    min 2 [ch 'r', doubleQuote].length < 2 ^ 32 ∧
      Lossless [ch 'r', doubleQuote] 0 2 (tokenizeRange [ch 'r', doubleQuote] 0 2) :=
  ⟨by decide, tokenizeRange_lossless [ch 'r', doubleQuote] 0 2 (by decide)⟩

theorem tokens_of_spaces (h : ∀ i, i < s.length → isSpace (byte s i) = true) :
    ∃ flags, (tokenize s).tokens = [⟨u32 s.length, u32 s.length, .eof, flags⟩] := by
  rw [tokenize, tokenizeImpl_eq]
  generalize (fun part : FStringInterpolation =>
    splitInterpolation (tokenizeRange s part.exprBegin part.close).tokens part) = split
  have hnone : ((LexState.start s 0).run split s.length).buffer.source = s ∧
      ((LexState.start s 0).run split s.length).buffer.tokens = [] := by
    apply run_keeps split (P := fun st => st.buffer.source = s ∧ st.buffer.tokens = []) _ ⟨rfl, rfl⟩
    intro st hi ⟨hsource, htokens⟩
    rcases step_cases split hi with ⟨-, -, hsource', htokens', -⟩ | ⟨hno, -⟩
    · exact ⟨hsource'.trans hsource, htokens'.trans htokens⟩
    · rw [hsource, h st.i hi] at hno
      cases hno
  refine ⟨((LexState.start s 0).run split s.length).pending, ?_⟩
  rw [LexState.finish, hnone.2, nil_append]

/-- The error of an unclosed raw string has not the range of an Error token, and a text of
    4 GiB of blanks ends at offset 0. -/
theorem tokenize_exceptions :
    ((tokenize [ch 'r', doubleQuote]).errors = [⟨.unclosedString, 1, 2⟩] ∧
      ∀ t ∈ (tokenize [ch 'r', doubleQuote]).tokens, t.kind = .error → (t.begin, t.stop) ≠ (1, 2)) ∧
    ∃ flags, (tokenize (List.replicate (2 ^ 32) (ch ' '))).tokens = [⟨0, 0, .eof, flags⟩] := by
  refine ⟨⟨by decide +kernel, by decide +kernel⟩, ?_⟩
  have hspace : ∀ i, i < (List.replicate (2 ^ 32) (ch ' ')).length →
      isSpace (byte (List.replicate (2 ^ 32) (ch ' ')) i) = true := by
    intro i hi
    rw [length_replicate] at hi
    rw [byte, getD_eq_getElem?_getD, getElem?_replicate_of_lt hi]
    decide
  have htokens := tokens_of_spaces hspace
  rw [length_replicate] at htokens
  exact htokens

end Camel.Syntax
