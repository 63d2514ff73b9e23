import Camel.Text.Utf8

/-! # Wide Texts

    `toWide` is a second decoder beside `invalidOffset`, for the texts the system takes and hands
    back: what is no valid UTF-8 becomes U+FFFD. `narrow` is a `wchar_t` of 16 bits, where a code
    point above U+FFFF takes two units.
-/

namespace Camel.Text

open List Option

/-! ## The Source -/

/-- The least value that needs so many bytes. -/
def leastOf (length : Nat) : Nat :=
  if length = 2 then 0x80 else if length = 3 then 0x800 else 0x10000

/-- One round of `toWide`: the code point a text starts with and its length, where it is taken. -/
def wideOne (first : UInt8) (rest : List UInt8) : Option (Nat × Nat) :=
  if first < 0x80 then some (first.toNat, 1)
  else
    let length := sequenceLength first
    if rest.length + 1 < length then none
    else
      match continuations (first.toNat &&& (0xFF >>> (length + 1))) (rest.take (length - 1)) with
      | none => none
      | some value =>
        if value < leastOf length ∨ 0x10FFFF < value ∨ (0xD800 ≤ value ∧ value ≤ 0xDFFF) then none
        else some (value, length)

variable {s : List UInt8} {b : UInt8} {cp : Nat} (narrow : Bool) {rest : List UInt8} {first : UInt8}

theorem wideOne_eq_some {v length : Nat}
    (hfirst : ¬first < 0x80) :
    wideOne first rest = some (v, length) ↔
      sequenceLength first = length ∧ length ≤ rest.length + 1 ∧
      continuations (first.toNat &&& (0xFF >>> (length + 1))) (rest.take (length - 1)) = some v ∧
      leastOf length ≤ v ∧ v ≤ 0x10FFFF ∧ ¬(0xD800 ≤ v ∧ v ≤ 0xDFFF) := by
  simp only [wideOne, if_neg hfirst]
  constructor
  · intro h
    split at h
    next => cases h
    next hlen =>
      split at h
      next => cases h
      next value hcont =>
        rw [ite_none_left_eq_some, some.injEq, Prod.mk.injEq] at h
        obtain ⟨hok, rfl, rfl⟩ := h
        rw [not_or, not_or] at hok
        exact ⟨rfl, Nat.not_lt.mp hlen, hcont, Nat.not_lt.mp hok.1, Nat.not_lt.mp hok.2.1, hok.2.2⟩
  · rintro ⟨rfl, hlen, hcont, hleast, hmax, hsur⟩
    rw [if_neg (Nat.not_lt.mpr hlen), hcont]
    refine if_neg ?_
    rw [not_or, not_or]
    exact ⟨Nat.not_lt.mpr hleast, Nat.not_lt.mpr hmax, hsur⟩

theorem wideOne_pos {value length : Nat}
    (h : wideOne first rest = some (value, length)) : 0 < length := by
  by_cases hascii : first < 0x80
  · rw [wideOne, if_pos hascii] at h
    cases h
    decide
  · rw [← ((wideOne_eq_some hascii).mp h).1, sequenceLength, if_neg hascii]
    split_ifs <;> decide

/-- The units of one code point. -/
def wideUnits (narrow : Bool) (value : Nat) : List Nat :=
  if narrow ∧ 0x10000 ≤ value then
    [0xD800 + (value - 0x10000) >>> 10, 0xDC00 + ((value - 0x10000) &&& 0x3FF)]
  else [value]

def toWide (narrow : Bool) : List UInt8 → List Nat
  | [] => []
  | first :: rest =>
    match h : wideOne first rest with
    | none => 0xFFFD :: toWide narrow rest
    | some (value, length) => wideUnits narrow value ++ toWide narrow ((first :: rest).drop length)
termination_by s => s.length
decreasing_by
  · simp
  · have := wideOne_pos h
    simp only [length_drop, length_cons]
    omega

/-- The code point that is encoded for a value. -/
def scalarOf (value : Nat) : Nat :=
  if 0x10FFFF < value ∨ (0xD800 ≤ value ∧ value ≤ 0xDFFF) then 0xFFFD else value

def fromWide (narrow : Bool) : List Nat → List UInt8
  | [] => []
  | [unit] => encodeOne (scalarOf unit)
  | unit :: low :: rest =>
    if narrow ∧ 0xD800 ≤ unit ∧ unit ≤ 0xDBFF ∧ 0xDC00 ≤ low ∧ low ≤ 0xDFFF then
      encodeOne (scalarOf (0x10000 + ((unit - 0xD800) <<< 10) + (low - 0xDC00))) ++
        fromWide narrow rest
    else encodeOne (scalarOf unit) ++ fromWide narrow (low :: rest)

/-! ## What a Text Says -/

/-- No sequence of a code point stands at the front. -/
def NoSequence (s : List UInt8) : Prop := ∀ cp, isScalarValue cp = true → ¬encodeOne cp <+: s

/-- The code points of any bytes: each sequence is its code point, each other byte is U+FFFD. -/
inductive Decodes : List UInt8 → List Nat → Prop where
  | nil : Decodes [] []
  | sequence {cp : Nat} {s : List UInt8} {cps : List Nat} : isScalarValue cp = true →
    Decodes s cps → Decodes (encodeOne cp ++ s) (cp :: cps)
  | other {b : UInt8} {s : List UInt8} {cps : List Nat} : NoSequence (b :: s) →
    Decodes s cps → Decodes (b :: s) (0xFFFD :: cps)

def Continues (b : UInt8) : Prop := 128 ≤ b.toNat ∧ b.toNat < 192

/-- What `sequenceLength` makes a sequence of though no sequence starts so: a continuation byte
    counts as the first of two bytes, a byte from 0xF8 on as the first of four. -/
inductive Misread : List UInt8 → Prop where
  | two {first next : UInt8} {s : List UInt8} : Continues first → 2 ≤ first.toNat % 32 →
    Continues next → Misread (first :: next :: s)
  | four {first b₁ b₂ b₃ : UInt8} {s : List UInt8} : 0xF8 ≤ first.toNat → Continues b₁ →
    Continues b₂ → Continues b₃ → 0x10 ≤ first.toNat % 8 * 64 + (b₁.toNat - 128) →
    first.toNat % 8 * 64 + (b₁.toNat - 128) < 0x110 → Misread (first :: b₁ :: b₂ :: b₃ :: s)

/-- Nothing is misread on the way through a text, sequence by sequence. -/
inductive Clean : List UInt8 → Prop where
  | nil : Clean []
  | sequence {cp : Nat} {s : List UInt8} : isScalarValue cp = true → Clean s →
    Clean (encodeOne cp ++ s)
  | other {b : UInt8} {s : List UInt8} : NoSequence (b :: s) → ¬Misread (b :: s) → Clean s →
    Clean (b :: s)

/-! ## One Round -/

/-- What `toWide` takes has the value that `decodeOne` gives it. -/
theorem decodeOne_of_wideOne {value length : Nat}
    (h : wideOne first rest = some (value, length)) :
    decodeOne (first :: rest) 0 = (value, length) := by
  simp only [decodeOne, getD_cons_zero, zero_add, drop_succ_cons, drop_zero]
  by_cases hascii : first < 0x80
  · rw [wideOne, if_pos hascii] at h
    rw [if_pos hascii]
    exact some.inj h
  · obtain ⟨rfl, -, hcont, -⟩ := (wideOne_eq_some hascii).mp h
    rw [if_neg hascii, foldl_of_continuations hcont]

theorem leastOf_lead {count value least : Nat} (h : leadOf first = some (count, value, least)) :
    leastOf (count + 1) = least := by
  rw [leadOf_eq] at h
  split_ifs at h
  all_goals
    simp only [some.injEq, Prod.mk.injEq] at h
    obtain ⟨rfl, -, rfl⟩ := h
    rfl

theorem checkOne_of_lead {count value least : Nat}
    (h : leadOf first = some (count, value, least)) (rest : List UInt8) :
    checkOne first rest = (wideOne first rest).map Prod.snd := by
  obtain ⟨hascii, hlen, rfl⟩ := sequenceLength_of_lead h
  obtain rfl := leastOf_lead h
  simp only [checkOne, wideOne, if_neg hascii, h, hlen, Nat.add_lt_add_iff_right,
    Nat.add_sub_cancel, add_comm 1]
  split
  · rfl
  · cases continuations (first.toNat &&& (0xFF >>> (count + 1 + 1))) (rest.take count) with
    | none => rfl
    | some v =>
      simp only
      split <;> rfl

/-- A sequence is taken as its code point, whatever follows it. -/
theorem wideOne_encodeOne (hs : isScalarValue cp = true) (s : List UInt8) :
    ∃ first tail, encodeOne cp = first :: tail ∧
      wideOne first (tail ++ s) = some (cp, (encodeOne cp).length) := by
  obtain ⟨first, tail, henc, hcheck⟩ := checkOne_encodeOne hs s
  have htaken : ∃ v, wideOne first (tail ++ s) = some (v, (encodeOne cp).length) := by
    by_cases hascii : first < 0x80
    · rw [checkOne, if_pos hascii] at hcheck
      exact ⟨first.toNat, by rw [wideOne, if_pos hascii, ← some.inj hcheck]⟩
    · cases hlead : leadOf first with
      | none =>
        rw [checkOne, if_neg hascii, hlead] at hcheck
        cases hcheck
      | some lead =>
        rw [checkOne_of_lead hlead, map_eq_some_iff] at hcheck
        obtain ⟨⟨v, length⟩, hwide, rfl⟩ := hcheck
        exact ⟨v, hwide⟩
  obtain ⟨v, hwide⟩ := htaken
  have hdecode := decodeOne_encodeOne hs [] s
  rw [nil_append, henc, cons_append, length_nil, decodeOne_of_wideOne hwide]
    at hdecode
  exact ⟨first, tail, henc, by rw [hwide, (Prod.mk.inj hdecode).1]⟩

theorem stray_of_lead (h : leadOf first = none) : first.toNat < 0xC2 ∨ 0xF5 ≤ first.toNat := by
  rw [leadOf_eq] at h
  split_ifs at h
  omega

/-- The first bytes that start no sequence, as two bytes or as four. -/
theorem wideOne_stray (hfirst : 0x80 ≤ first.toNat) :
    (first.toNat < 0xE0 → sequenceLength first = 2) ∧
      (0xF0 ≤ first.toNat → sequenceLength first = 4) ∧
      first.toNat &&& (0xFF >>> (2 + 1)) = first.toNat % 32 ∧
      first.toNat &&& (0xFF >>> (4 + 1)) = first.toNat % 8 := by
  rw [sequenceLength_eq hfirst]
  refine ⟨fun h => by rw [if_neg (by omega), if_neg (by omega)], fun h => if_pos h,
    Nat.and_two_pow_sub_one_eq_mod _ 5, Nat.and_two_pow_sub_one_eq_mod _ 3⟩

theorem wideOne_of_misread (h : Misread (first :: rest)) :
    ∃ v length, wideOne first rest = some (v, length) ∧
      (v < 0x800 ∨ (0x10000 ≤ v ∧ v ≤ 0x10FFFF)) := by
  cases h with
  | two hfirst hbits hnext =>
    obtain ⟨hlo, hhi⟩ := hfirst
    obtain ⟨htwo, -, hmask, -⟩ := wideOne_stray hlo
    have hbound := hnext.2
    have hcont := continuations_cons hnext.1 hnext.2 (first.toNat % 32) []
    refine ⟨_, 2, (wideOne_eq_some (not_ascii.2 hlo)).mpr ⟨htwo (by omega), by simp,
      (congrArg (continuations · _) hmask).trans hcont, ?_⟩, ?_⟩
    · change 0x80 ≤ _ ∧ _
      omega
    · omega
  | @four _ b₁ b₂ b₃ s hfirst h₁ h₂ h₃ hlo hhi =>
    have hascii : 0x80 ≤ first.toNat := by omega
    obtain ⟨-, hfour, -, hmask⟩ := wideOne_stray hascii
    have hbounds := And.intro h₂ h₃
    simp only [Continues] at hbounds
    have hcont := ((continuations_cons h₁.1 h₁.2 (first.toNat % 8) [b₂, b₃]).trans
      (continuations_cons h₂.1 h₂.2 _ _)).trans (continuations_cons h₃.1 h₃.2 _ _)
    refine ⟨_, 4, (wideOne_eq_some (not_ascii.2 hascii)).mpr ⟨hfour (by omega), by simp,
      (congrArg (continuations · _) hmask).trans hcont, ?_⟩, ?_⟩
    · change 0x10000 ≤ _ ∧ _
      omega
    · omega

theorem misread_of_wideOne {v length : Nat}
    (hcheck : checkOne first rest = none) (h : wideOne first rest = some (v, length)) :
    Misread (first :: rest) := by
  have hascii : ¬first < 0x80 := by
    intro hascii
    rw [checkOne, if_pos hascii] at hcheck
    cases hcheck
  have hlead : leadOf first = none := by
    by_contra hsome
    obtain ⟨lead, hlead⟩ := ne_none_iff_exists'.mp hsome
    rw [checkOne_of_lead hlead, h] at hcheck
    cases hcheck
  have hfirst := not_ascii.1 hascii
  obtain ⟨htwo, hfour, hmask₂, hmask₄⟩ := wideOne_stray hfirst
  obtain ⟨rfl, hlen, hcont, hleast, hmax, -⟩ := (wideOne_eq_some hascii).mp h
  rcases stray_of_lead hlead with hstray | hstray
  · rw [htwo (hstray.trans (by decide))] at hlen hcont hleast
    rw [hmask₂] at hcont
    change 0x80 ≤ v at hleast
    obtain ⟨next, tail, rfl, -⟩ := exists_cons (Nat.le_of_succ_le_succ hlen)
    obtain ⟨hlo, hhi, hv⟩ := continuations_some hcont
    obtain ⟨hbits, -⟩ := last_group hlo hhi (some.inj hv)
    have hleast := hbits.ge.trans' (Nat.div_le_div_right hleast)
    clear hv hbits hcont
    exact .two ⟨hfirst, by omega⟩ hleast ⟨hlo, hhi⟩
  · rw [hfour (hstray.trans' (by decide))] at hlen hcont hleast
    rw [hmask₄] at hcont
    change 0x10000 ≤ v at hleast
    obtain ⟨b₁, tail₁, rfl, hlen₁⟩ := exists_cons (Nat.le_of_succ_le_succ hlen)
    obtain ⟨b₂, tail₂, rfl, hlen₂⟩ := exists_cons hlen₁
    obtain ⟨b₃, tail₃, rfl, -⟩ := exists_cons hlen₂
    obtain ⟨hlo₁, hhi₁, hv⟩ := continuations_some hcont
    obtain ⟨hlo₂, hhi₂, hv⟩ := continuations_some hv
    obtain ⟨hlo₃, hhi₃, hv⟩ := continuations_some hv
    obtain ⟨hrest, -⟩ := last_group hlo₃ hhi₃ (some.inj hv)
    obtain ⟨hbits, -⟩ := last_group hlo₂ hhi₂ hrest
    rw [Nat.div_div_eq_div_mul] at hbits
    have hlow := hbits.ge.trans' (Nat.div_le_div_right hleast)
    have hhigh := hbits.le.trans (Nat.div_le_div_right hmax)
    clear hv hrest hbits hcont
    exact .four (by omega) ⟨hlo₁, hhi₁⟩ ⟨hlo₂, hhi₂⟩ ⟨hlo₃, hhi₃⟩ hlow (Nat.lt_succ_of_le hhigh)

/-! ## Whole Texts -/

theorem toWide_encodeOne (hs : isScalarValue cp = true)
    (s : List UInt8) :
    toWide narrow (encodeOne cp ++ s) = wideUnits narrow cp ++ toWide narrow s := by
  obtain ⟨first, tail, henc, hwide⟩ := wideOne_encodeOne hs s
  have hdrop : (first :: (tail ++ s)).drop (encodeOne cp).length = s := by
    rw [← cons_append, ← henc, drop_left]
  rw [show encodeOne cp ++ s = first :: (tail ++ s) by rw [henc]; rfl, toWide]
  split
  next hnone => rw [hwide] at hnone; cases hnone
  next value length hsome =>
    rw [hwide, some.injEq, Prod.mk.injEq] at hsome
    rw [← hsome.1, ← hsome.2, hdrop]

theorem checkOne_of_noSequence (h : NoSequence (b :: s)) :
    checkOne b s = none := by
  by_contra hsome
  obtain ⟨length, hlength⟩ := ne_none_iff_exists'.mp hsome
  obtain ⟨cp, rest, hs, heq, -⟩ := exists_encodeOne hlength
  exact h cp hs ⟨rest, heq.symm⟩

theorem toWide_other (h : NoSequence (b :: s))
    (hread : ¬Misread (b :: s)) : toWide narrow (b :: s) = 0xFFFD :: toWide narrow s := by
  rw [toWide]
  split
  next => rfl
  next hsome => exact (hread (misread_of_wideOne (checkOne_of_noSequence h) hsome)).elim

/-- What is misread does not come out as U+FFFD. -/
theorem toWide_misread (h : Misread (b :: s)) :
    (toWide narrow (b :: s)).head? ≠ some 0xFFFD := by
  obtain ⟨v, length, hwide, hv⟩ := wideOne_of_misread h
  rw [toWide]
  split
  next hnone => rw [hwide] at hnone; cases hnone
  next value length hsome =>
    rw [hwide, some.injEq, Prod.mk.injEq] at hsome
    rw [← hsome.1, wideUnits]
    split
    · rw [cons_append, head?_cons, ne_eq, some.injEq, Nat.shiftRight_eq_div_pow]
      omega
    · rw [singleton_append, head?_cons, ne_eq, some.injEq]
      omega

theorem fromWide_units (hs : isScalarValue cp = true) (w : List Nat) :
    fromWide narrow (wideUnits narrow cp ++ w) = encodeOne cp ++ fromWide narrow w := by
  obtain ⟨hmax, hsur⟩ := (isScalarValue_iff cp).mp hs
  have hscalar : scalarOf cp = cp := if_neg (by omega)
  rw [wideUnits]
  split
  next hpair =>
    have hhigh : (cp - 0x10000) >>> 10 = (cp - 0x10000) / 1024 := Nat.shiftRight_eq_div_pow _ 10
    have hlow : (cp - 0x10000) &&& 0x3FF = (cp - 0x10000) % 1024 :=
      Nat.and_two_pow_sub_one_eq_mod _ 10
    rw [hhigh, hlow, cons_append, singleton_append, fromWide,
      if_pos ⟨hpair.1, by omega, by omega, by omega, by omega⟩, Nat.shiftLeft_eq,
      show 0x10000 + (0xD800 + (cp - 0x10000) / 1024 - 0xD800) * 2 ^ 10 +
        (0xDC00 + (cp - 0x10000) % 1024 - 0xDC00) = cp by omega, hscalar]
  next =>
    cases w with
    | nil => rw [append_nil, fromWide, fromWide, append_nil, hscalar]
    | cons low w => rw [singleton_append, fromWide, if_neg (by omega), hscalar]

/-- `toWide` gives what a text says exactly where nothing is misread on the way, and `fromWide`
    gives every valid text back. -/
theorem toWide_decodes_iff (narrow : Bool) (s : List UInt8) :
    ((∃ cps, Decodes s cps ∧ toWide narrow s = cps.flatMap (wideUnits narrow)) ↔ Clean s) ∧
      (Valid s → fromWide narrow (toWide narrow s) = s) := by
  refine ⟨⟨?_, ?_⟩, ?_⟩
  · rintro ⟨cps, hdec, heq⟩
    induction hdec with
    | nil => exact .nil
    | sequence hs _ ih =>
      rw [toWide_encodeOne narrow hs, flatMap_cons] at heq
      exact .sequence hs (ih (append_cancel_left heq))
    | @other b s cps hno _ ih =>
      have hunits : wideUnits narrow 0xFFFD = [0xFFFD] := if_neg (by omega)
      rw [flatMap_cons, hunits] at heq
      have hread : ¬Misread (b :: s) := fun h => toWide_misread narrow h (by rw [heq]; rfl)
      rw [toWide_other narrow hno hread] at heq
      exact .other hno hread (ih (List.cons.inj heq).2)
  · intro hclean
    induction hclean with
    | nil => exact ⟨[], .nil, by rw [toWide]; rfl⟩
    | @sequence cp s hs _ ih =>
      obtain ⟨cps, hdec, heq⟩ := ih
      exact ⟨cp :: cps, .sequence hs hdec, by rw [toWide_encodeOne narrow hs, heq, flatMap_cons]⟩
    | other hno hread _ ih =>
      obtain ⟨cps, hdec, heq⟩ := ih
      refine ⟨0xFFFD :: cps, .other hno hdec, ?_⟩
      rw [toWide_other narrow hno hread, heq, flatMap_cons, wideUnits, if_neg (by omega)]
      rfl
  · rintro ⟨cps, hcps, rfl⟩
    induction cps with
    | nil => rw [encode, flatMap_nil, toWide, fromWide]
    | cons cp cps ih =>
      have hs := hcps cp (by simp)
      rw [encode, flatMap_cons, toWide_encodeOne narrow hs, fromWide_units narrow hs]
      exact congrArg (encodeOne cp ++ ·) (ih fun c hc => hcps c (by simp [hc]))

/-- A stray continuation byte is combined with the one behind it. -/
theorem toWide_combines :
    ¬∃ cps, Decodes [0x82, 0x80] cps ∧
      toWide false [0x82, 0x80] = cps.flatMap (wideUnits false) := by
  rintro ⟨cps, hdec, heq⟩
  have hmisread : Misread [0x82, 0x80] :=
    .two ⟨by decide, by decide⟩ (by decide) ⟨by decide, by decide⟩
  have hno : NoSequence [0x82, 0x80] := by
    rintro cp hs ⟨s, hseq⟩
    obtain ⟨first, tail, henc, hcheck⟩ := checkOne_encodeOne hs s
    rw [henc, cons_append, List.cons.injEq] at hseq
    rw [hseq.1, hseq.2] at hcheck
    cases hcheck
  generalize hbytes : [(0x82 : UInt8), 0x80] = bytes at hdec
  cases hdec with
  | nil => cases hbytes
  | sequence hs _ => exact hno _ hs ⟨_, hbytes.symm⟩
  | other _ _ => exact toWide_misread false hmisread (by rw [heq]; rfl)

end Camel.Text
