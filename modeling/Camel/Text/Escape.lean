import Camel.Text.Utf8

/-! # Escapes of String Literals

    `encodeEscapes` writes a text with escapes, `decodeEscapes` reads one. The two
    tables are apart from each other, and what an escape means depends on the bytes
    behind it.
-/

namespace Camel.Text

open List Option

/-! ## Writing -/

abbrev backslash : UInt8 := 0x5C

/-- The bytes with an escape of their own, and its letter. -/
def encodeTable : List (UInt8 × UInt8) :=
  [(0x0A, 'n'.toUInt8), (0x09, 't'.toUInt8), (0x0D, 'r'.toUInt8), (0x07, 'a'.toUInt8),
    (0x08, 'b'.toUInt8), (0x0C, 'f'.toUInt8), (0x0B, 'v'.toUInt8), (backslash, backslash),
    (0x22, 0x22), (0x27, 0x27), (0x00, '0'.toUInt8)]

variable (s : List UInt8) (c : UInt8) (doubleBraces : Bool)

/-- `std::isprint` in the "C" locale. -/
def isPrint : Bool := 0x20 ≤ c && c ≤ 0x7E

/-- A hexadecimal digit in upper case. -/
def hexUpper (d : UInt8) : UInt8 := if d < 10 then 0x30 + d else 0x41 + (d - 10)

def encodeByte : List UInt8 :=
  match encodeTable.lookup c with
  | some e => [backslash, e]
  | none =>
    if isPrint c then [c] else [backslash, 'x'.toUInt8, hexUpper (c / 16), hexUpper (c % 16)]

def encodeEscapes (input : List UInt8) : List UInt8 := input.flatMap encodeByte

/-! ## Reading -/

/-- The escapes of one letter. -/
def decodeTable : List (UInt8 × UInt8) :=
  [('n'.toUInt8, 0x0A), ('t'.toUInt8, 0x09), ('r'.toUInt8, 0x0D), ('a'.toUInt8, 0x07),
    ('b'.toUInt8, 0x08), ('f'.toUInt8, 0x0C), ('v'.toUInt8, 0x0B), (backslash, backslash),
    (0x22, 0x22), (0x27, 0x27), (0x60, 0x60), (0x24, 0x24)]

def isOctal : Bool := 0x30 ≤ c && c ≤ 0x37

def isXDigit : Bool :=
  (0x30 ≤ c && c ≤ 0x39) || (0x41 ≤ c && c ≤ 0x46) || (0x61 ≤ c && c ≤ 0x66)

def hexDigit : Nat :=
  if c ≤ 0x39 then (c - 0x30).toNat else ((c ||| 0x20) - 0x61).toNat + 10

def hexValue (digits : List UInt8) : Nat := digits.foldl (fun v d => v * 16 + hexDigit d) 0

/-- The run of octal digits an unknown octal escape is named by. -/
def octalRun (digits : List UInt8) : List UInt8 :=
  backslash :: (digits.takeWhile isOctal).take 3

/-- A byte an escape stands for; in the pattern of a formatted string a brace is doubled. -/
def put (ch : UInt8) : List UInt8 :=
  if doubleBraces && (ch == 0x7B || ch == 0x7D) then [ch, ch] else [ch]

/-- What an escape gives: the bytes it stands for, the unknown escape to report, and how
    many bytes behind the letter it takes. -/
structure Escape where
  out : List UInt8
  unknown : Option (List UInt8) := none
  taken : Nat := 0

/-- An escape kept as it is written. -/
def keepEscape (next : UInt8) (unknown : Option (List UInt8)) : Escape :=
  ⟨[backslash, next], unknown, 0⟩

/-- The escape with the letter `next`, where `rest` follows. -/
def decodeEscape (next : UInt8) (rest : List UInt8) : Escape :=
  match decodeTable.lookup next with
  | some c => ⟨[c], none, 0⟩
  | none =>
    if 0x31 ≤ next && next ≤ 0x37 then keepEscape next (some (octalRun (next :: rest)))
    else if next = 0x30 then
      -- a `0` before another octal digit is not the null byte
      if (rest.head?.map isOctal).getD false then
        keepEscape next (some (octalRun (next :: rest)))
      else ⟨[0], none, 0⟩
    else if next = 'x'.toUInt8 then
      let hex := (rest.take 2).takeWhile isXDigit
      if hex.isEmpty then keepEscape next none
      else ⟨put doubleBraces (.ofNat (hexValue hex)), none, hex.length⟩
    else if next = 'u'.toUInt8 then
      match rest with
      | 0x7B :: more =>
        let digits := (more.take 6).takeWhile isXDigit
        if !digits.isEmpty && (more.drop digits.length).head? == some 0x7D &&
            isScalarValue (hexValue digits) then
          ⟨(encodeOne (hexValue digits)).flatMap (put doubleBraces), none, digits.length + 2⟩
        else keepEscape next none
      | _ => keepEscape next none
    else keepEscape next (some [backslash, next])

/-- The bytes of a text and the unknown escapes in it, in order. -/
def decodeFrom (doubleBraces : Bool) : List UInt8 → List UInt8 × List (List UInt8)
  | [] => ([], [])
  | [c] => ([c], [])
  | c :: next :: rest =>
    if c = backslash then
      let e := decodeEscape doubleBraces next rest
      let r := decodeFrom doubleBraces (rest.drop e.taken)
      (e.out ++ r.1, e.unknown.toList ++ r.2)
    else
      let r := decodeFrom doubleBraces (next :: rest)
      (c :: r.1, r.2)
termination_by s => s.length

def noteUnknown (unknown : List (List UInt8)) (spelling : List UInt8) : List (List UInt8) :=
  if spelling ∈ unknown then unknown else unknown ++ [spelling]

/-- The text an input stands for, and the unknown escapes with those of the input, each
    once. -/
def decodeEscapes (input : List UInt8) (doubleBraces : Bool := false)
    (unknownEscapes : List (List UInt8) := []) : List UInt8 × List (List UInt8) :=
  let r := decodeFrom doubleBraces input
  (r.1, r.2.foldl noteUnknown unknownEscapes)

/-! ## There and Back -/

/-- What reading back gives: a null byte before an octal digit stays an escape. -/
def reread : List UInt8 → List UInt8
  | [] => []
  | c :: rest =>
    if c = 0 ∧ (rest.head?.map isOctal).getD false then backslash :: 0x30 :: reread rest
    else c :: reread rest

theorem reread_cons (c : UInt8) (rest : List UInt8) :
    reread (c :: rest) =
      if c = 0 ∧ (rest.head?.map isOctal).getD false then backslash :: 0x30 :: reread rest
      else c :: reread rest := rfl

/-- A null byte directly before an octal digit. -/
def NulBeforeOctal (s : List UInt8) : Prop :=
  ∃ pre d post, s = pre ++ 0 :: d :: post ∧ isOctal d = true

/-- What a byte is written as. -/
theorem encodeByte_cases :
    (∃ e, encodeByte c = [backslash, e] ∧ decodeTable.lookup e = some c) ∨
    (c = 0 ∧ encodeByte c = [backslash, 0x30]) ∨
    (c ≠ 0 ∧ c ≠ backslash ∧ encodeByte c = [c]) ∨
    (c ≠ 0 ∧ ∃ h l, encodeByte c = [backslash, 'x'.toUInt8, h, l] ∧ isXDigit h = true ∧
      isXDigit l = true ∧ UInt8.ofNat (hexValue [h, l]) = c) := by
  have hhex : ∀ n < 256, isXDigit (hexUpper (UInt8.ofNat n / 16)) = true ∧
      isXDigit (hexUpper (UInt8.ofNat n % 16)) = true ∧
      UInt8.ofNat (hexValue [hexUpper (UInt8.ofNat n / 16), hexUpper (UInt8.ofNat n % 16)]) =
        UInt8.ofNat n := by decide +kernel
  have hkey : ∀ e, encodeTable.lookup c = some e →
      (c = 0 ∧ e = 0x30) ∨ decodeTable.lookup e = some c := by
    intro e he
    have hmem : (c, e) ∈ encodeTable := by
      obtain ⟨l₁, l₂, hl, -⟩ := List.lookup_eq_some_iff.mp he
      simp [hl]
    simp only [encodeTable, mem_cons, Prod.mk.injEq, not_mem_nil, or_false] at hmem
    rcases hmem with h | h | h | h | h | h | h | h | h | h | h
    all_goals
      obtain ⟨rfl, rfl⟩ := h
      decide
  cases hl : encodeTable.lookup c with
  | some e =>
    have henc : encodeByte c = [backslash, e] := by simp [encodeByte, hl]
    rcases hkey e hl with ⟨h0, rfl⟩ | hdec
    · exact .inr (.inl ⟨h0, henc⟩)
    · exact .inl ⟨e, henc, hdec⟩
  | none =>
    have h0 : c ≠ 0 := by
      rintro rfl
      exact absurd hl (by decide)
    have hb : c ≠ backslash := by
      rintro rfl
      exact absurd hl (by decide)
    right
    right
    by_cases hp : isPrint c = true
    · exact .inl ⟨h0, hb, by simp [encodeByte, hl, hp]⟩
    · right
      have := hhex c.toNat c.toNat_lt
      rw [UInt8.ofNat_toNat] at this
      exact ⟨h0, _, _, by simp [encodeByte, hl, hp], this⟩

/-- What is written starts with an octal digit exactly where the text does. -/
theorem octal_encodeEscapes :
    ((encodeEscapes s).head?.map isOctal).getD false = (s.head?.map isOctal).getD false := by
  have hbyte : ∀ n < 256, (encodeByte (UInt8.ofNat n)).head?.map isOctal =
      some (isOctal (UInt8.ofNat n)) := by decide +kernel
  cases s with
  | nil => rfl
  | cons c rest =>
    have hc := hbyte c.toNat c.toNat_lt
    rw [UInt8.ofNat_toNat] at hc
    cases henc : encodeByte c with
    | nil => simp [henc] at hc
    | cons b bs =>
      simp only [henc, head?_cons, map_some, some.injEq] at hc
      simp [encodeEscapes, henc, hc]

theorem decodeFrom_nil : decodeFrom doubleBraces [] = ([], []) := by rw [decodeFrom]

/-- Reading a byte that is written as itself. -/
theorem decodeFrom_plain {c : UInt8} (hc : c ≠ backslash)
    (rest : List UInt8) :
    (decodeFrom doubleBraces (c :: rest)).1 = c :: (decodeFrom doubleBraces rest).1 := by
  cases rest with
  | nil => rw [decodeFrom_nil, decodeFrom]
  | cons next rest => rw [decodeFrom, if_neg hc]

/-- Reading an escape. -/
theorem decodeFrom_escape (next : UInt8) (rest : List UInt8) :
    (decodeFrom doubleBraces (backslash :: next :: rest)).1 =
      (decodeEscape doubleBraces next rest).out ++
        (decodeFrom doubleBraces (rest.drop (decodeEscape doubleBraces next rest).taken)).1 := by
  rw [decodeFrom, if_pos rfl]

theorem decodeEscape_table {next c : UInt8}
    (h : decodeTable.lookup next = some c) (rest : List UInt8) :
    decodeEscape doubleBraces next rest = ⟨[c], none, 0⟩ := by
  show (match decodeTable.lookup next with | some c => (⟨[c], none, 0⟩ : Escape) | none => _) = _
  rw [h]

theorem decodeEscape_zero (rest : List UInt8) :
    decodeEscape doubleBraces 0x30 rest =
      if (rest.head?.map isOctal).getD false then keepEscape 0x30 (some (octalRun (0x30 :: rest)))
      else ⟨[0], none, 0⟩ := by
  have htable : decodeTable.lookup 0x30 = none := by decide
  have hdigit : ((0x31 : UInt8) ≤ 0x30 && (0x30 : UInt8) ≤ 0x37) = false := by decide
  simp only [decodeEscape, htable, hdigit, Bool.false_eq_true, if_false, if_true]

theorem decodeEscape_hex {h l : UInt8} (hh : isXDigit h = true) (hl : isXDigit l = true)
    (rest : List UInt8) :
    decodeEscape false 'x'.toUInt8 (h :: l :: rest) = ⟨[.ofNat (hexValue [h, l])], none, 2⟩ := by
  have htable : decodeTable.lookup 'x'.toUInt8 = none := by decide
  have hdigit : ((0x31 : UInt8) ≤ 'x'.toUInt8 && 'x'.toUInt8 ≤ 0x37) = false := by decide
  have hzero : ('x'.toUInt8 = 0x30) = False := by decide
  simp only [decodeEscape, htable, hdigit, hzero, Bool.false_eq_true, if_false, if_true]
  simp [hh, hl, put]

/-- Reading back what was written. -/
theorem decodeFrom_encodeEscapes :
    (decodeFrom false (encodeEscapes s)).1 = reread s := by
  induction s with
  | nil => exact congrArg Prod.fst (decodeFrom_nil false)
  | cons c rest ih =>
    have hcons : encodeEscapes (c :: rest) = encodeByte c ++ encodeEscapes rest := by
      simp [encodeEscapes]
    have hkeep : c ≠ 0 → reread (c :: rest) = c :: reread rest := by
      intro h0
      rw [reread_cons, if_neg fun h => h0 h.1]
    rcases encodeByte_cases c with ⟨e, henc, htable⟩ | ⟨rfl, henc⟩ | ⟨h0, hb, henc⟩ |
        ⟨h0, h, l, henc, hh, hl, hval⟩
    · have h0 : c ≠ 0 := by
        rintro rfl
        have : encodeByte 0 = [backslash, 0x30] := by decide
        rw [this] at henc
        cases henc
        exact absurd htable (by decide)
      rw [hcons, henc, hkeep h0]
      show (decodeFrom false (backslash :: e :: encodeEscapes rest)).1 = _
      rw [decodeFrom_escape, decodeEscape_table _ htable, drop_zero, ih]
      rfl
    · rw [hcons, henc]
      show (decodeFrom false (backslash :: 0x30 :: encodeEscapes rest)).1 = _
      rw [decodeFrom_escape, decodeEscape_zero, octal_encodeEscapes, reread_cons]
      by_cases hoct : (rest.head?.map isOctal).getD false = true
      · rw [if_pos hoct, if_pos ⟨rfl, hoct⟩, keepEscape, drop_zero, ih]
        rfl
      · rw [if_neg hoct, if_neg fun h => hoct h.2, drop_zero, ih]
        rfl
    · rw [hcons, henc, hkeep h0]
      show (decodeFrom false (c :: encodeEscapes rest)).1 = _
      rw [decodeFrom_plain false hb, ih]
    · rw [hcons, henc, hkeep h0]
      show (decodeFrom false (backslash :: 'x'.toUInt8 :: h :: l :: encodeEscapes rest)).1 = _
      rw [decodeFrom_escape, decodeEscape_hex hh hl, hval]
      show [c] ++ (decodeFrom false (encodeEscapes rest)).1 = _
      rw [ih]
      rfl

theorem length_le_reread : s.length ≤ (reread s).length := by
  induction s with
  | nil => simp
  | cons c rest ih =>
    rw [reread_cons]
    split_ifs <;> simp only [length_cons] <;> omega

/-- A null byte before an octal digit is read back as two bytes. -/
theorem NulBeforeOctal.length_lt {s : List UInt8} (h : NulBeforeOctal s) :
    s.length < (reread s).length := by
  obtain ⟨pre, d, post, rfl, hd⟩ := h
  induction pre with
  | nil =>
    have hle := length_le_reread (d :: post)
    rw [nil_append, reread_cons, if_pos ⟨rfl, by simp [hd]⟩]
    simp only [length_cons] at hle ⊢
    omega
  | cons c pre ih =>
    rw [cons_append, reread_cons]
    split_ifs <;> simp only [length_cons] <;> omega

theorem reread_eq_self {s : List UInt8} (h : ¬NulBeforeOctal s) : reread s = s := by
  induction s with
  | nil => rfl
  | cons c rest ih =>
    have hrest : ¬NulBeforeOctal rest := by
      intro hr
      obtain ⟨pre, d, post, rfl, hd⟩ := hr
      exact h ⟨c :: pre, d, post, rfl, hd⟩
    have hhead : ¬(c = 0 ∧ (rest.head?.map isOctal).getD false = true) := by
      intro hc
      cases rest with
      | nil => simp at hc
      | cons d post =>
        simp only [head?_cons, map_some, getD_some] at hc
        exact h ⟨[], d, post, by rw [hc.1]; rfl, hc.2⟩
    rw [reread_cons, if_neg hhead, ih hrest]

/-- What is written is read back as it was exactly when no null byte stands before an
    octal digit. -/
theorem decodeEscapes_encodeEscapes_iff (s : List UInt8) :
    (decodeEscapes (encodeEscapes s)).1 = s ↔ ¬NulBeforeOctal s := by
  show (decodeFrom false (encodeEscapes s)).1 = s ↔ _
  rw [decodeFrom_encodeEscapes]
  constructor
  · intro heq hnul
    have := hnul.length_lt
    rw [heq] at this
    exact lt_irrefl _ this
  · exact reread_eq_self

/-- A null byte and the digit `1` are read back as a backslash, `0` and `1`. -/
theorem decodeEscapes_loses_nul : (decodeEscapes (encodeEscapes [0, 0x31])).1 ≠ [0, 0x31] := by
  show (decodeFrom false (encodeEscapes [0, 0x31])).1 ≠ _
  rw [decodeFrom_encodeEscapes]
  decide

end Camel.Text
