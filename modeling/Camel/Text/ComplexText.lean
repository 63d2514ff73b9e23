import Camel.Text.FloatText

/-! # Complex Texts

    A complex number is written as its real part, the sign of the imaginary one, its magnitude
    and `i`. A sign also stands before a negative real part and inside an exponent; the text is
    split at the one between the parts.
-/

namespace Camel.Text

open List Option

/-! ## The Source -/

/-- What the writer asks of a floating-point type and what the reader of a text without a sign
    gives. `whole` is the integer of a whole value below 1e16. -/
structure PartType (F : Type) where
  isNaN : F → Bool
  signbit : F → Bool
  negated : F → F
  whole : F → Option Int
  isZero : F → Bool
  floatText : F → List Char
  read : List Char → Option F

variable {F : Type} (T : PartType F)

def integerText (n : Int) : List Char := (if n < 0 then ['-'] else []) ++ Nat.toDigits 10 n.natAbs

def complexPartText (x : F) : List Char :=
  match T.whole x with
  | some n => integerText n
  | none => if T.isZero x then ['0'] else T.floatText x

def complexText (real imaginary : F) : List Char :=
  let negative := !T.isNaN imaginary && T.signbit imaginary
  complexPartText T real ++ [if negative then '-' else '+'] ++
    complexPartText T (if negative then T.negated imaginary else imaginary) ++ ['i']

structure ComplexTextParts where
  real : List Char
  imaginary : List Char

/-- The last sign that is neither the first character nor behind an exponent's marker, searched
    from the end: what stands before it, and the rest from it on. -/
def splitAtSign : List Char → List Char → Option (List Char × List Char)
  | c :: before :: rest, behind =>
    if isSign c ∧ before ≠ 'e' ∧ before ≠ 'E' then some ((before :: rest).reverse, c :: behind)
    else splitAtSign (before :: rest) (c :: behind)
  | _, _ => none

def splitComplexText (text : List Char) : Option ComplexTextParts :=
  match text.reverse with
  | 'i' :: c :: rest =>
    match splitAtSign (c :: rest) [] with
    | none => some ⟨[], (c :: rest).reverse⟩
    | some (real, imaginary) => if imaginary.length ≤ 1 then none else some ⟨real, imaginary⟩
  | _ => none

/-- A part is read behind its sign. -/
def readPart (text : List Char) : Option F :=
  match splitNumberSign text with
  | none => none
  | some (negative, body) => (T.read body).map fun x => if negative then T.negated x else x

/-! ## What Is Written -/

/-- A number as it is written without a sign. -/
def IsBody (body : List Char) : Prop :=
  body = ['i', 'n', 'f'] ∨ body = ['n', 'a', 'n'] ∨ ∃ t : RealText, t.WellFormed ∧ body = t.text

/-- A value comes back as itself; of a zero, and of a value that is no number, the sign is lost. -/
def SamePart (x y : F) : Prop :=
  x = y ∨ (T.isZero x = true ∧ T.isZero y = true) ∨ (T.isNaN x = true ∧ T.isNaN y = true)

/-- What holds of a floating-point type and of the texts of its values. -/
structure PartType.Lawful : Prop where
  negated_negated : ∀ x, T.negated (T.negated x) = x
  signbit_negated : ∀ x, T.signbit (T.negated x) = !T.signbit x
  isNaN_negated : ∀ x, T.isNaN (T.negated x) = T.isNaN x
  isZero_negated : ∀ x, T.isZero (T.negated x) = T.isZero x
  isZero_iff : ∀ x, T.isZero x = true ↔ T.whole x = some 0
  whole_negated : ∀ x, T.whole (T.negated x) = (T.whole x).map (-·)
  whole_of_isNaN : ∀ x, T.isNaN x = true → T.whole x = none
  whole_nonneg : ∀ x n, T.whole x = some n → T.signbit x = false → 0 ≤ n
  floatText_negative : ∀ x, T.isNaN x = false → T.signbit x = true →
    T.floatText x = '-' :: T.floatText (T.negated x)
  floatText_isBody : ∀ x, T.isNaN x = true ∨ T.signbit x = false → IsBody (T.floatText x)
  read_floatText : ∀ x, T.isNaN x = true ∨ T.signbit x = false →
    ∃ y, T.read (T.floatText x) = some y ∧ (T.isNaN x = false → y = x) ∧ T.isNaN y = T.isNaN x
  read_whole : ∀ x (n : Nat), T.whole x = some (n : Int) → T.signbit x = false →
    T.read (Nat.toDigits 10 n) = some x

/-! ## Signs in a Text -/

variable {body : List Char} {l : List Char}

theorem splitAtSign_skip (h : ∀ c ∈ l, isSign c = false) (d : Char)
    (rest behind : List Char) :
    splitAtSign (l ++ d :: rest) behind = splitAtSign (d :: rest) (l.reverse ++ behind) := by
  induction l generalizing behind with
  | nil => rfl
  | cons c l ih =>
    obtain ⟨before, below, hbelow⟩ : ∃ before below, l ++ d :: rest = before :: below :=
      exists_cons_of_ne_nil (append_ne_nil_of_right_ne_nil _ (cons_ne_nil _ _))
    have hc := h c mem_cons_self
    rw [cons_append, hbelow, splitAtSign, if_neg (by rw [hc]; exact fun h => nomatch h.1),
      ← hbelow, ih fun c hc => h c (.tail _ hc), reverse_cons,
      append_assoc]
    rfl

/-- The sign of an exponent is no boundary. -/
theorem splitAtSign_marker {marker : Char} (h : marker = 'e' ∨ marker = 'E') (sign : Char)
    (rest behind : List Char) :
    splitAtSign (sign :: marker :: rest) behind =
      splitAtSign (marker :: rest) (sign :: behind) := by
  rw [splitAtSign, if_neg]
  rintro ⟨-, he, hE⟩
  exact h.elim he hE

theorem isSign_of_all (h : l.all (! isSign ·) = true) : ∀ c ∈ l, isSign c = false :=
  fun c hc => (Bool.not_eq_true' _).mp (all_eq_true.1 h c hc)

theorem isSign_of_digits (h : ∀ c ∈ l, isDecimalDigit c = true) :
    ∀ c ∈ l, isSign c = false :=
  fun c hc => isSign_of_isDecimalDigit (h c hc)

/-- A real number ends in digits. Before these stands no sign but the one of an exponent. -/
theorem RealText.text_ends {t : RealText} (ht : t.WellFormed) :
    ∃ front digits, IsDigits digits ∧ t.text = front ++ digits ∧
      ((∀ c ∈ front, isSign c = false) ∨
        ∃ pre marker sign, (marker = 'e' ∨ marker = 'E') ∧ front = pre ++ [marker, sign] ∧
          ∀ c ∈ pre, isSign c = false) := by
  have hwhole := isSign_of_digits ht.whole.2
  have hpre : ∀ c ∈ t.whole ++ t.fraction.elim [] ('.' :: ·), isSign c = false := by
    rw [forall_mem_append]
    refine ⟨hwhole, ?_⟩
    cases hf : t.fraction with
    | none => exact nofun
    | some digits =>
      exact forall_mem_cons.2 ⟨by decide, isSign_of_digits (ht.fraction digits hf).2⟩
  unfold RealText.text
  cases he : t.exponent with
  | some e =>
    have hwf := ht.exponent e he
    refine ⟨t.whole ++ t.fraction.elim [] ('.' :: ·) ++ e.marker :: e.sign.toList, e.digits,
      hwf.digits, by simp [ExponentText.text], ?_⟩
    cases hs : e.sign with
    | none =>
      refine .inl (forall_mem_append.2 ⟨hpre, forall_mem_singleton.2 ?_⟩)
      rcases hwf.marker with hm | hm <;> rw [hm] <;> decide
    | some sign => exact .inr ⟨_, e.marker, sign, hwf.marker, rfl, hpre⟩
  | none =>
    cases hf : t.fraction with
    | none => exact ⟨[], t.whole, ht.whole, by simp, .inl nofun⟩
    | some digits =>
      refine ⟨t.whole ++ ['.'], digits, ht.fraction digits hf, by simp, .inl ?_⟩
      exact forall_mem_append.2 ⟨hwhole, forall_mem_singleton.2 (by decide)⟩

/-- The search passes a number that is written without a sign. -/
theorem splitAtSign_body (h : IsBody body) (d : Char)
    (rest behind : List Char) :
    splitAtSign (body.reverse ++ d :: rest) behind = splitAtSign (d :: rest) (body ++ behind) := by
  rcases h with rfl | rfl | ⟨t, ht, rfl⟩
  · exact splitAtSign_skip (isSign_of_all rfl) d rest behind
  · exact splitAtSign_skip (isSign_of_all rfl) d rest behind
  · obtain ⟨front, digits, hdigits, htext, hfront⟩ := RealText.text_ends ht
    have hback : ∀ c ∈ digits.reverse, isSign c = false :=
      fun c hc => isSign_of_digits hdigits.2 c (mem_reverse.1 hc)
    rw [htext]
    rcases hfront with hfront | ⟨pre, marker, sign, hm, rfl, hpre⟩
    · rw [splitAtSign_skip fun c hc => ?_, reverse_reverse]
      rw [reverse_append, mem_append, mem_reverse, mem_reverse] at hc
      exact hc.elim (isSign_of_digits hdigits.2 c) (hfront c)
    · have hmarker : ∀ c ∈ marker :: pre.reverse, isSign c = false := by
        refine forall_mem_cons.2 ⟨?_, fun c hc => hpre c (mem_reverse.1 hc)⟩
        rcases hm with rfl | rfl <;> decide
      calc splitAtSign ((pre ++ [marker, sign] ++ digits).reverse ++ d :: rest) behind
          = splitAtSign (digits.reverse ++ sign :: (marker :: (pre.reverse ++ d :: rest))) behind := by
            simp
        _ = splitAtSign (marker :: (pre.reverse ++ d :: rest)) (sign :: (digits ++ behind)) := by
            rw [splitAtSign_skip hback, splitAtSign_marker hm, reverse_reverse]
        _ = splitAtSign (d :: rest) ((marker :: pre.reverse).reverse ++ sign :: (digits ++ behind)) :=
            splitAtSign_skip hmarker d rest _
        _ = _ := by simp

/-- A number that is written without a sign begins with none and ends in no marker. -/
theorem IsBody.ends (h : IsBody body) :
    (∃ c rest, body = c :: rest ∧ isSign c = false) ∧
      ∃ c front, body = front ++ [c] ∧ c ≠ 'e' ∧ c ≠ 'E' := by
  rcases h with rfl | rfl | ⟨t, ht, rfl⟩
  · exact ⟨⟨_, _, rfl, by decide⟩, 'f', ['i', 'n'], rfl, by decide⟩
  · exact ⟨⟨_, _, rfl, by decide⟩, 'n', ['n', 'a'], rfl, by decide⟩
  · constructor
    · obtain ⟨c, whole, hwhole⟩ := exists_cons_of_ne_nil ht.whole.1
      refine ⟨c, _, by rw [RealText.text, hwhole, cons_append], ?_⟩
      exact isSign_of_digits ht.whole.2 c (by rw [hwhole]; exact mem_cons_self)
    · obtain ⟨front, digits, hdigits, htext, -⟩ := RealText.text_ends ht
      have hlast := hdigits.2 _ (getLast_mem hdigits.1)
      refine ⟨digits.getLast hdigits.1, front ++ digits.dropLast, ?_, ?_, ?_⟩
      · rw [htext, append_assoc, dropLast_append_getLast]
      · intro he
        rw [he] at hlast
        cases hlast
      · intro hE
        rw [hE] at hlast
        cases hlast

/-- The text is split at the sign between its parts. -/
theorem splitComplexText_at {front body : List Char} {sign : Char} (hsign : isSign sign = true)
    (hbody : IsBody body) (hfront : ∃ c before, front = before ++ [c] ∧ c ≠ 'e' ∧ c ≠ 'E') :
    splitComplexText (front ++ [sign] ++ body ++ ['i']) = some ⟨front, sign :: body⟩ := by
  obtain ⟨c, before, rfl, he, hE⟩ := hfront
  obtain ⟨-, d, rest, hrest, -⟩ := hbody.ends
  have hreverse : (before ++ [c] ++ [sign] ++ body ++ ['i']).reverse =
      'i' :: (body.reverse ++ sign :: c :: before.reverse) := by
    simp
  have hsearch : splitAtSign (body.reverse ++ sign :: c :: before.reverse) [] =
      some (before ++ [c], sign :: body) := by
    rw [splitAtSign_body hbody, splitAtSign, if_pos ⟨hsign, he, hE⟩, append_nil]
    simp
  have hlength : ¬(sign :: body).length ≤ 1 := by
    rw [hrest]
    simp
  unfold splitComplexText
  rw [hreverse]
  rw [hrest, reverse_append, reverse_singleton, singleton_append,
    cons_append] at hsearch ⊢
  simp only [hsearch]
  rw [← hrest, if_neg hlength]

/-! ## Both Parts Read Back -/

section Parts

variable {T} (h : T.Lawful)

include h

/-- The text of a part that shows no sign, and what is read from it. -/
theorem complexPartText_body {x : F} (hx : T.isNaN x = true ∨ T.signbit x = false) :
    IsBody (complexPartText T x) ∧ ∃ y, T.read (complexPartText T x) = some y ∧
      (T.isNaN x = false → y = x) ∧ T.isNaN y = T.isNaN x := by
  unfold complexPartText
  cases hw : T.whole x with
  | none =>
    have hzero : ¬T.isZero x = true := by
      rw [h.isZero_iff, hw]
      exact nofun
    simp only [if_neg hzero]
    exact ⟨h.floatText_isBody x hx, h.read_floatText x hx⟩
  | some n =>
    have hsign : T.signbit x = false := by
      refine hx.resolve_left fun hnan => ?_
      rw [h.whole_of_isNaN x hnan] at hw
      cases hw
    obtain ⟨m, rfl⟩ := Int.eq_ofNat_of_zero_le (h.whole_nonneg x n hw hsign)
    have hdigits : IsDigits (Nat.toDigits 10 m) :=
      ⟨Nat.toDigits_ne_nil, fun c hc =>
        isDecimalDigit_of_isDigit (Nat.isDigit_of_mem_toDigits (by decide) (by decide) hc)⟩
    have htext : integerText (m : Int) = Nat.toDigits 10 m := by
      rw [integerText, if_neg (by omega), nil_append, Int.natAbs_natCast]
    simp only [htext]
    exact ⟨.inr (.inr ⟨⟨_, none, none⟩, ⟨hdigits, nofun, nofun⟩, (append_nil _).symm⟩),
      x, h.read_whole x m hw hsign, fun _ => rfl, rfl⟩

theorem complexPartText_negative {x : F} (hnan : T.isNaN x = false) (hx : T.signbit x = true)
    (hzero : T.isZero x = false) :
    complexPartText T x = '-' :: complexPartText T (T.negated x) := by
  have hwhole := h.whole_negated x
  unfold complexPartText
  cases hw : T.whole x with
  | none =>
    rw [hw] at hwhole
    simp only [hwhole, map_none, h.isZero_negated, hzero, Bool.false_eq_true, if_false]
    exact h.floatText_negative x hnan hx
  | some n =>
    rw [hw, map_some] at hwhole
    have hnonneg : 0 ≤ -n := h.whole_nonneg _ _ hwhole (by rw [h.signbit_negated, hx]; rfl)
    have hne : n ≠ 0 := by
      rintro rfl
      rw [(h.isZero_iff x).2 hw] at hzero
      cases hzero
    simp only [hwhole, integerText, Int.natAbs_neg]
    rw [if_pos (by omega), if_neg (by omega)]
    rfl

omit h in
theorem readPart_body (hbody : IsBody body) :
    readPart T body = T.read body ∧ readPart T ('+' :: body) = T.read body ∧
      readPart T ('-' :: body) = (T.read body).map T.negated := by
  obtain ⟨⟨c, rest, rfl, hc⟩, -⟩ := hbody.ends
  have hfirst : (c :: rest).head?.any isSign = false := hc
  refine ⟨?_, ?_, ?_⟩
  · rw [readPart, splitNumberSign, if_neg (by rw [hc]; exact Bool.false_ne_true)]
    exact Option.map_id'
  · rw [readPart, splitNumberSign, if_pos (by decide), if_neg (by rw [hfirst]; decide)]
    exact Option.map_id'
  · rw [readPart, splitNumberSign, if_pos (by decide), if_neg (by rw [hfirst]; decide)]
    rfl

/-- The first part reads back, and its text ends in no marker. -/
theorem readPart_complexPartText (x : F) :
    (∃ c before, complexPartText T x = before ++ [c] ∧ c ≠ 'e' ∧ c ≠ 'E') ∧
      ∃ y, readPart T (complexPartText T x) = some y ∧ SamePart T y x := by
  by_cases hx : T.isNaN x = true ∨ T.signbit x = false
  · obtain ⟨hbody, y, hread, hsame, hnan⟩ := complexPartText_body h hx
    refine ⟨hbody.ends.2, y, (readPart_body hbody).1.trans hread, ?_⟩
    cases hxnan : T.isNaN x with
    | true => exact .inr (.inr ⟨hnan.trans hxnan, hxnan⟩)
    | false => exact .inl (hsame hxnan)
  · obtain ⟨hnan, hsign⟩ : T.isNaN x = false ∧ T.signbit x = true := by
      rw [not_or, Bool.not_eq_true, Bool.not_eq_false] at hx
      exact hx
    have hnan' : T.isNaN (T.negated x) = false := (h.isNaN_negated x).trans hnan
    obtain ⟨hbody, y, hread, hsame, -⟩ := complexPartText_body h (x := T.negated x)
      (.inr (by rw [h.signbit_negated, hsign]; rfl))
    obtain rfl := hsame hnan'
    cases hzero : T.isZero x with
    | true =>
      -- a zero shows no sign
      have htext : complexPartText T x = complexPartText T (T.negated x) := by
        have hw := (h.isZero_iff x).1 hzero
        have hw' := (h.isZero_iff _).1 ((h.isZero_negated x).trans hzero)
        rw [complexPartText, complexPartText, hw, hw']
      rw [htext]
      exact ⟨hbody.ends.2, _, (readPart_body hbody).1.trans hread,
        .inr (.inl ⟨(h.isZero_negated x).trans hzero, hzero⟩)⟩
    | false =>
      rw [complexPartText_negative h hnan hsign hzero]
      obtain ⟨c, before, hends, hc⟩ := hbody.ends.2
      refine ⟨⟨c, '-' :: before, by rw [hends]; rfl, hc⟩, x, ?_, .inl rfl⟩
      rw [(readPart_body hbody).2.2, hread, map_some, h.negated_negated]

end Parts

/-- The text of two parts is split where the second begins, and both read back. -/
theorem splitComplexText_complexText (h : T.Lawful) (real imaginary : F) :
    ∃ parts, splitComplexText (complexText T real imaginary) = some parts ∧
      parts.real = complexPartText T real ∧
      (∃ x, readPart T parts.real = some x ∧ SamePart T x real) ∧
      ∃ y, readPart T parts.imaginary = some y ∧ SamePart T y imaginary := by
  obtain ⟨hends, hreal⟩ := readPart_complexPartText h real
  unfold complexText
  by_cases him : T.isNaN imaginary = true ∨ T.signbit imaginary = false
  · have hnegative : (!T.isNaN imaginary && T.signbit imaginary) = false := by
      rcases him with h | h <;> simp [h]
    obtain ⟨hbody, y, hread, hsame, hnan⟩ := complexPartText_body h him
    simp only [hnegative, Bool.false_eq_true, if_false]
    refine ⟨_, splitComplexText_at (by decide) hbody hends, rfl, hreal, y,
      (readPart_body hbody).2.1.trans hread, ?_⟩
    cases hxnan : T.isNaN imaginary with
    | true => exact .inr (.inr ⟨hnan.trans hxnan, hxnan⟩)
    | false => exact .inl (hsame hxnan)
  · rw [not_or, Bool.not_eq_true, Bool.not_eq_false] at him
    have hnegative : (!T.isNaN imaginary && T.signbit imaginary) = true := by
      rw [him.1, him.2]
      rfl
    obtain ⟨hbody, y, hread, hsame, -⟩ := complexPartText_body h (x := T.negated imaginary)
      (.inr (by rw [h.signbit_negated, him.2]; rfl))
    obtain rfl := hsame ((h.isNaN_negated imaginary).trans him.1)
    simp only [hnegative, if_true]
    refine ⟨_, splitComplexText_at (by decide) hbody hends, rfl, hreal, imaginary, ?_, .inl rfl⟩
    rw [(readPart_body hbody).2.2, hread, map_some, h.negated_negated]

/-- A type of `1.5` and `-1.5`. -/
def halves : PartType Bool where
  isNaN _ := false
  signbit negative := negative
  negated negative := !negative
  whole _ := none
  isZero _ := false
  floatText negative := (if negative then ['-'] else []) ++ ['1', '.', '5']
  read text := if text = ['1', '.', '5'] then some false else none

/-- `-1.5-1.5i`. -/
theorem splitComplexText_complexText_halves :
    ∃ parts, splitComplexText (complexText halves true true) = some parts ∧
      parts.real = complexPartText halves true ∧
      (∃ x, readPart halves parts.real = some x ∧ SamePart halves x true) ∧
      ∃ y, readPart halves parts.imaginary = some y ∧ SamePart halves y true := by
  have hbody : IsBody ['1', '.', '5'] :=
    .inr (.inr ⟨⟨['1'], some ['5'], none⟩, ⟨⟨nofun, all_eq_true.1 rfl⟩, fun _ h => by
      cases h
      exact ⟨nofun, all_eq_true.1 rfl⟩, nofun⟩, rfl⟩)
  exact splitComplexText_complexText halves
    { negated_negated := by decide
      signbit_negated := by decide
      isNaN_negated := by decide
      isZero_negated := by decide
      isZero_iff := by decide
      whole_negated := by decide
      whole_of_isNaN := by decide
      whole_nonneg := nofun
      floatText_negative := by decide
      floatText_isBody := fun x hx => by
        cases x with
        | false => exact hbody
        | true => exact absurd hx (by decide)
      read_floatText := fun x hx => by
        cases x with
        | false => exact ⟨false, rfl, fun _ => rfl, rfl⟩
        | true => exact absurd hx (by decide)
      read_whole := nofun } true true

end Camel.Text
