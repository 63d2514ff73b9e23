import Mathlib

/-! # UTF-8

    A `string` of the language is always valid UTF-8, and `invalidOffset` is how a
    text is checked. A text is a list of bytes and an offset counts them; `none`
    is `npos`.
-/

namespace Camel.Text

open List Option

/-! ## Encoding and Decoding -/

def isScalarValue (cp : Nat) : Bool := cp ≤ 0x10FFFF && !(0xD800 ≤ cp && cp ≤ 0xDFFF)

def encodeOne (cp : Nat) : List UInt8 :=
  if cp < 0x80 then [.ofNat cp]
  else if cp < 0x800 then [.ofNat (0xC0 ||| (cp >>> 6)), .ofNat (0x80 ||| (cp &&& 0x3F))]
  else if cp < 0x10000 then
    [.ofNat (0xE0 ||| (cp >>> 12)), .ofNat (0x80 ||| ((cp >>> 6) &&& 0x3F)),
      .ofNat (0x80 ||| (cp &&& 0x3F))]
  else
    [.ofNat (0xF0 ||| (cp >>> 18)), .ofNat (0x80 ||| ((cp >>> 12) &&& 0x3F)),
      .ofNat (0x80 ||| ((cp >>> 6) &&& 0x3F)), .ofNat (0x80 ||| (cp &&& 0x3F))]

/-- The text of some code points. -/
def encode (cps : List Nat) : List UInt8 := cps.flatMap encodeOne

/-- The length in bytes of the code point whose first byte is `first`. -/
def sequenceLength (first : UInt8) : Nat :=
  if first < 0x80 then 1
  else if 0xF0 ≤ first then 4
  else if 0xE0 ≤ first then 3
  else 2

/-- The value so far and six more bits. -/
def addBits (value : Nat) (next : UInt8) : Nat := (value <<< 6) ||| (next.toNat &&& 0x3F)

/-- The code point that starts at `pos` and the position behind it. -/
def decodeOne (s : List UInt8) (pos : Nat) : Nat × Nat :=
  let b0 := s.getD pos 0
  if b0 < 0x80 then (b0.toNat, pos + 1)
  else
    let length := sequenceLength b0
    let value := b0.toNat &&& (0xFF >>> (length + 1))
    (((s.drop (pos + 1)).take (length - 1)).foldl addBits value, pos + length)

theorem lt_decodeOne (s : List UInt8) (pos : Nat) : pos < (decodeOne s pos).2 := by
  simp only [decodeOne, sequenceLength]
  split_ifs <;> simp

/-- Steps over a text: each code point with its length in bytes. -/
def decodeAll (s : List UInt8) (pos : Nat) : List (Nat × Nat) :=
  if pos < s.length then
    ((decodeOne s pos).1, (decodeOne s pos).2 - pos) :: decodeAll s (decodeOne s pos).2
  else []
termination_by s.length - pos
decreasing_by
  have := lt_decodeOne s pos
  omega

/-! ## Checking a Text -/

/-- What the first byte of a longer sequence says: how many bytes follow, its own bits
    and the least value that needs that many bytes. -/
def leadOf (first : UInt8) : Option (Nat × Nat × Nat) :=
  if 0xC2 ≤ first && first ≤ 0xDF then some (1, first.toNat &&& 0x1F, 0x80)
  else if 0xE0 ≤ first && first ≤ 0xEF then some (2, first.toNat &&& 0x0F, 0x800)
  else if 0xF0 ≤ first && first ≤ 0xF4 then some (3, first.toNat &&& 0x07, 0x10000)
  else none

/-- The bits of the continuation bytes, unless one of them is not one. -/
def continuations (value : Nat) : List UInt8 → Option Nat
  | [] => some value
  | next :: rest =>
    if next &&& 0xC0 ≠ 0x80 then none else continuations (addBits value next) rest

/-- One round of the check: the length of the sequence a text starts with. -/
def checkOne (first : UInt8) (rest : List UInt8) : Option Nat :=
  if first < 0x80 then some 1
  else
    match leadOf first with
    | none => none
    | some (count, value, least) =>
      if rest.length < count then none
      else
        match continuations value (rest.take count) with
        | none => none
        | some value =>
          if value < least ∨ 0x10FFFF < value ∨ (0xD800 ≤ value ∧ value ≤ 0xDFFF) then none
          else some (1 + count)

variable {s : List UInt8} {n : Nat} {b : UInt8} {first : UInt8} {cp : Nat}

theorem checkOne_pos {rest : List UInt8} {length : Nat}
    (h : checkOne first rest = some length) : 0 < length := by
  simp only [checkOne] at h
  split_ifs at h
  · cases h
    decide
  · split at h
    · cases h
    · split_ifs at h
      split at h
      · cases h
      · split_ifs at h
        cases h
        omega

/-- The check from the offset `i` on, where the text goes on with the given bytes. -/
def invalidFrom (i : Nat) : List UInt8 → Option Nat
  | [] => none
  | first :: rest =>
    match h : checkOne first rest with
    | none => some i
    | some length => invalidFrom (i + length) ((first :: rest).drop length)
termination_by s => s.length
decreasing_by
  have := checkOne_pos h
  simp only [length_drop, length_cons]
  omega

def invalidOffset (s : List UInt8) : Option Nat := invalidFrom 0 s

/-! ## The Bits of a Byte -/

theorem toNat_ofNat_small (h : n < 256) : (UInt8.ofNat n).toNat = n :=
  UInt8.toNat_ofNat_of_lt h

theorem not_ascii : ¬first < 0x80 ↔ 0x80 ≤ first.toNat := by
  rw [UInt8.lt_iff_toNat_lt]
  exact not_lt

/-- The remainder in a block of numbers. -/
theorem mod_of_block {x k : Nat} (q : Nat) (hlo : k * q ≤ x) (hhi : x < k * q + k) :
    x % k = x - k * q := by
  rw [← Nat.sub_mul_mod hlo]
  exact Nat.mod_eq_of_lt (by omega)

theorem addBits_eq (value : Nat) (next : UInt8) :
    addBits value next = value * 64 + next.toNat % 64 := by
  have hlt : next.toNat % 2 ^ 6 < 2 ^ 6 := Nat.mod_lt _ (by decide)
  have hand : next.toNat &&& 0x3F = next.toNat % 2 ^ 6 := Nat.and_two_pow_sub_one_eq_mod _ 6
  rw [addBits, hand, ← Nat.shiftLeft_add_eq_or_of_lt hlt, Nat.shiftLeft_eq]
  rfl

theorem continuation_iff (b : UInt8) : b &&& 0xC0 = 0x80 ↔ 128 ≤ b.toNat ∧ b.toNat < 192 := by
  have h : ∀ n < 256, n &&& 192 = 128 ↔ 128 ≤ n ∧ n < 192 := by decide +kernel
  rw [← UInt8.toNat_inj, UInt8.toNat_and]
  exact h b.toNat b.toNat_lt

/-- A mark in the high bits and the bits below it. -/
theorem or_eq_add (q k : Nat) {bits : Nat} (hbits : bits < 2 ^ k) :
    (q * 2 ^ k) ||| bits = q * 2 ^ k + bits := by
  rw [← Nat.shiftLeft_eq, Nat.shiftLeft_add_eq_or_of_lt hbits]

/-- The last byte of a sequence, from the last bits. -/
theorem tailBits (x : Nat) : 0x80 ||| (x &&& 0x3F) = 0x80 + x % 64 := by
  have hand : x &&& 0x3F = x % 64 := Nat.and_two_pow_sub_one_eq_mod x 6
  rw [hand]
  exact or_eq_add 1 7 (by omega)

theorem encodeOne_two (hlo : 0x80 ≤ cp) (hhi : cp < 0x800) :
    encodeOne cp = [.ofNat (0xC0 + cp / 64), .ofNat (0x80 + cp % 64)] := by
  have hlead : 0xC0 ||| cp / 64 = 0xC0 + cp / 64 := or_eq_add 3 6 (by omega)
  have hshift : cp >>> 6 = cp / 64 := Nat.shiftRight_eq_div_pow cp 6
  rw [encodeOne, if_neg (by omega), if_pos hhi, tailBits, hshift, hlead]

theorem encodeOne_three (hlo : 0x800 ≤ cp) (hhi : cp < 0x10000) :
    encodeOne cp = [.ofNat (0xE0 + cp / 4096), .ofNat (0x80 + cp / 64 % 64),
      .ofNat (0x80 + cp % 64)] := by
  have hlead : 0xE0 ||| cp / 4096 = 0xE0 + cp / 4096 := or_eq_add 14 4 (by omega)
  have hshift₁ : cp >>> 12 = cp / 4096 := Nat.shiftRight_eq_div_pow cp 12
  have hshift₂ : cp >>> 6 = cp / 64 := Nat.shiftRight_eq_div_pow cp 6
  rw [encodeOne, if_neg (by omega), if_neg (by omega), if_pos hhi, tailBits, tailBits, hshift₁,
    hshift₂, hlead]

theorem encodeOne_four (hlo : 0x10000 ≤ cp) (hhi : cp ≤ 0x10FFFF) :
    encodeOne cp = [.ofNat (0xF0 + cp / 262144), .ofNat (0x80 + cp / 4096 % 64),
      .ofNat (0x80 + cp / 64 % 64), .ofNat (0x80 + cp % 64)] := by
  have hlead : 0xF0 ||| cp / 262144 = 0xF0 + cp / 262144 := or_eq_add 15 4 (by omega)
  have hshift₁ : cp >>> 18 = cp / 262144 := Nat.shiftRight_eq_div_pow cp 18
  have hshift₂ : cp >>> 12 = cp / 4096 := Nat.shiftRight_eq_div_pow cp 12
  have hshift₃ : cp >>> 6 = cp / 64 := Nat.shiftRight_eq_div_pow cp 6
  rw [encodeOne, if_neg (by omega), if_neg (by omega), if_neg (by omega), tailBits, tailBits,
    tailBits, hshift₁, hshift₂, hshift₃, hlead]

theorem leadOf_eq (b : UInt8) : leadOf b =
    if 0xC2 ≤ b.toNat ∧ b.toNat ≤ 0xDF then some (1, b.toNat - 0xC0, 0x80)
    else if 0xE0 ≤ b.toNat ∧ b.toNat ≤ 0xEF then some (2, b.toNat - 0xE0, 0x800)
    else if 0xF0 ≤ b.toNat ∧ b.toNat ≤ 0xF4 then some (3, b.toNat - 0xF0, 0x10000)
    else none := by
  have hand : ∀ k, b.toNat &&& (2 ^ k - 1) = b.toNat % 2 ^ k :=
    fun k => Nat.and_two_pow_sub_one_eq_mod _ k
  have h₅ : b.toNat &&& 0x1F = b.toNat % 32 := hand 5
  have h₄ : b.toNat &&& 0x0F = b.toNat % 16 := hand 4
  have h₃ : b.toNat &&& 0x07 = b.toNat % 8 := hand 3
  simp only [leadOf, h₅, h₄, h₃, Bool.and_eq_true, decide_eq_true_eq, UInt8.le_iff_toNat_le]
  simp only [UInt8.reduceToNat]
  clear hand h₅ h₄ h₃
  split_ifs with h₁ h₂ h₃
  · exact congrArg (fun value => some (1, value, 0x80)) (mod_of_block 6 (by omega) (by omega))
  · exact congrArg (fun value => some (2, value, 0x800)) (mod_of_block 14 (by omega) (by omega))
  · exact congrArg (fun value => some (3, value, 0x10000)) (mod_of_block 30 (by omega) (by omega))
  · rfl

theorem continuations_cons (hlo : 128 ≤ b.toNat) (hhi : b.toNat < 192) (value : Nat)
    (rest : List UInt8) :
    continuations value (b :: rest) = continuations (value * 64 + (b.toNat - 128)) rest := by
  have hbits : addBits value b = value * 64 + (b.toNat - 128) := by
    rw [addBits_eq]
    omega
  rw [continuations, if_neg (not_not.mpr ((continuation_iff b).mpr ⟨hlo, hhi⟩)), hbits]

theorem continuations_some {value v : Nat} {rest : List UInt8}
    (h : continuations value (b :: rest) = some v) :
    128 ≤ b.toNat ∧ b.toNat < 192 ∧ continuations (value * 64 + (b.toNat - 128)) rest = some v := by
  by_cases hb : b &&& 0xC0 = 0x80
  · obtain ⟨hlo, hhi⟩ := (continuation_iff b).mp hb
    rw [continuations_cons hlo hhi] at h
    exact ⟨hlo, hhi, h⟩
  · rw [continuations, if_pos hb] at h
    cases h

/-! ## One Sequence -/

theorem isScalarValue_iff (cp : Nat) :
    isScalarValue cp = true ↔ cp ≤ 0x10FFFF ∧ ¬(0xD800 ≤ cp ∧ cp ≤ 0xDFFF) := by
  simp only [isScalarValue, Bool.and_eq_true, Bool.not_eq_true', Bool.and_eq_false_iff,
    decide_eq_true_eq, decide_eq_false_iff_not]
  omega

theorem sequenceLength_eq (h : 0x80 ≤ b.toNat) : sequenceLength b =
    if 0xF0 ≤ b.toNat then 4 else if 0xE0 ≤ b.toNat then 3 else 2 := by
  simp only [sequenceLength, if_neg (not_ascii.2 h), UInt8.le_iff_toNat_le]
  rfl

/-- The first byte of a longer sequence says the same to both decoders. -/
theorem sequenceLength_of_lead {count value least : Nat}
    (h : leadOf first = some (count, value, least)) :
    ¬first < 0x80 ∧ sequenceLength first = count + 1 ∧
      first.toNat &&& (0xFF >>> (count + 1 + 1)) = value := by
  have hmod : ∀ k, first.toNat &&& (2 ^ k - 1) = first.toNat % 2 ^ k :=
    fun k => Nat.and_two_pow_sub_one_eq_mod _ k
  rw [leadOf_eq] at h
  split_ifs at h with h₁ h₂ h₃
  all_goals
    simp only [some.injEq, Prod.mk.injEq] at h
    obtain ⟨rfl, rfl, rfl⟩ := h
  · have hascii : 0x80 ≤ first.toNat := by omega
    rw [sequenceLength_eq hascii, if_neg (by omega), if_neg (by omega)]
    exact ⟨not_ascii.2 hascii, rfl, (hmod 5).trans (mod_of_block 6 (by omega) (by omega))⟩
  · have hascii : 0x80 ≤ first.toNat := by omega
    rw [sequenceLength_eq hascii, if_neg (by omega), if_pos (by omega)]
    exact ⟨not_ascii.2 hascii, rfl, (hmod 4).trans (mod_of_block 14 (by omega) (by omega))⟩
  · have hascii : 0x80 ≤ first.toNat := by omega
    rw [sequenceLength_eq hascii, if_pos (by omega)]
    exact ⟨not_ascii.2 hascii, rfl, (hmod 3).trans (mod_of_block 30 (by omega) (by omega))⟩

theorem leadOf_two (hlo : 2 ≤ n) (hhi : n < 32) :
    leadOf (.ofNat (0xC0 + n)) = some (1, n, 0x80) := by
  rw [leadOf_eq, toNat_ofNat_small (by omega), if_pos (by omega), Nat.add_sub_cancel_left]

theorem leadOf_three (h : n < 16) : leadOf (.ofNat (0xE0 + n)) = some (2, n, 0x800) := by
  rw [leadOf_eq, toNat_ofNat_small (by omega), if_neg (by omega), if_pos (by omega),
    Nat.add_sub_cancel_left]

theorem leadOf_four (h : n ≤ 4) : leadOf (.ofNat (0xF0 + n)) = some (3, n, 0x10000) := by
  rw [leadOf_eq, toNat_ofNat_small (by omega), if_neg (by omega), if_neg (by omega),
    if_pos (by omega), Nat.add_sub_cancel_left]

theorem continuations_ofNat (h : n < 64) (value : Nat) (rest : List UInt8) :
    continuations value (.ofNat (0x80 + n) :: rest) = continuations (value * 64 + n) rest := by
  have hb : (UInt8.ofNat (0x80 + n)).toNat = 0x80 + n := toNat_ofNat_small (by omega)
  rw [continuations_cons (by omega) (by omega), hb, Nat.add_sub_cancel_left]

/-- Six more bits of a number. -/
theorem next_group (x q : Nat) : x / (q * 64) * 64 + x / q % 64 = x / q := by
  rw [← Nat.div_div_eq_div_mul, Nat.div_add_mod']

/-- The first byte of a longer sequence says how many follow, and they give the code point. -/
theorem encodeOne_lead (h : ¬cp < 0x80) (hmax : cp ≤ 0x10FFFF) :
    ∃ first tail value least, encodeOne cp = first :: tail ∧
      leadOf first = some (tail.length, value, least) ∧ continuations value tail = some cp ∧
      least ≤ cp := by
  have hbits : ∀ x, x % 64 < 64 := fun x => Nat.mod_lt x (by decide)
  have hlow : cp / 64 * 64 + cp % 64 = cp := Nat.div_add_mod' cp 64
  by_cases h₂ : cp < 0x800
  · refine ⟨_, _, _, _, encodeOne_two (by omega) h₂, leadOf_two (by omega) (by omega), ?_,
      Nat.not_lt.1 h⟩
    rw [continuations_ofNat (hbits _), hlow]
    rfl
  have hmid : cp / 4096 * 64 + cp / 64 % 64 = cp / 64 := next_group cp 64
  by_cases h₃ : cp < 0x10000
  · refine ⟨_, _, _, _, encodeOne_three (by omega) h₃,
      leadOf_three (Nat.div_lt_of_lt_mul h₃), ?_, Nat.not_lt.1 h₂⟩
    rw [continuations_ofNat (hbits _), continuations_ofNat (hbits _), hmid, hlow]
    rfl
  · have hhigh : cp / 262144 * 64 + cp / 4096 % 64 = cp / 4096 := next_group cp 4096
    refine ⟨_, _, _, _, encodeOne_four (by omega) hmax,
      leadOf_four (Nat.div_le_div_right hmax), ?_, Nat.not_lt.1 h₃⟩
    rw [continuations_ofNat (hbits _), continuations_ofNat (hbits _),
      continuations_ofNat (hbits _), hhigh, hmid, hlow]
    rfl

/-- The sequence of a code point passes the check, whatever follows it. -/
theorem checkOne_encodeOne (hs : isScalarValue cp = true) (rest : List UInt8) :
    ∃ first tail, encodeOne cp = first :: tail ∧
      checkOne first (tail ++ rest) = some (encodeOne cp).length := by
  obtain ⟨hmax, hsur⟩ := (isScalarValue_iff cp).mp hs
  by_cases h₁ : cp < 0x80
  · have henc : encodeOne cp = [.ofNat cp] := by rw [encodeOne, if_pos h₁]
    refine ⟨.ofNat cp, [], henc, ?_⟩
    rw [checkOne, if_pos, henc]
    · rfl
    · rw [UInt8.lt_iff_toNat_lt, toNat_ofNat_small (by omega)]
      exact h₁
  · obtain ⟨first, tail, value, least, henc, hlead, hcont, hleast⟩ := encodeOne_lead h₁ hmax
    refine ⟨first, tail, henc, ?_⟩
    rw [checkOne, if_neg (sequenceLength_of_lead hlead).1, hlead]
    simp only [length_append, take_left, hcont]
    rw [if_neg (by omega), if_neg (by omega), henc, length_cons, add_comm]

/-- The continuation bytes that are there, one after the other. -/
theorem exists_cons {rest : List UInt8} (h : n + 1 ≤ rest.length) :
    ∃ b tail, rest = b :: tail ∧ n ≤ tail.length := by
  cases rest with
  | nil => simp at h
  | cons b tail => exact ⟨b, tail, rfl, by simpa using h⟩

/-- The last byte of a sequence, from the number that it ends. -/
theorem last_group {value v : Nat} (hlo : 128 ≤ n) (hhi : n < 192)
    (hv : value * 64 + (n - 128) = v) : value = v / 64 ∧ n = 0x80 + v % 64 := by
  omega

/-- The bytes that pass the check give back the sequence of their value. -/
theorem encodeOne_of_lead {rest : List UInt8} {count value least v : Nat}
    (hlead : leadOf first = some (count, value, least)) (hlen : count ≤ rest.length)
    (hcont : continuations value (rest.take count) = some v) (hleast : least ≤ v)
    (hmax : v ≤ 0x10FFFF) : encodeOne v = first :: rest.take count := by
  rw [leadOf_eq] at hlead
  split_ifs at hlead with h₁ h₂ h₃
  · simp only [some.injEq, Prod.mk.injEq] at hlead
    obtain ⟨rfl, rfl, rfl⟩ := hlead
    obtain ⟨b₁, tail, rfl, -⟩ := exists_cons hlen
    obtain ⟨hlo, hhi, hv⟩ := continuations_some hcont
    obtain ⟨hfirst, hb₁⟩ := last_group hlo hhi (some.inj hv)
    rw [encodeOne_two hleast (by omega), ← hfirst, Nat.add_sub_cancel' (by omega), ← hb₁,
      UInt8.ofNat_toNat, UInt8.ofNat_toNat]
    rfl
  · simp only [some.injEq, Prod.mk.injEq] at hlead
    obtain ⟨rfl, rfl, rfl⟩ := hlead
    obtain ⟨b₁, tail₁, rfl, hlen₁⟩ := exists_cons hlen
    obtain ⟨b₂, tail₂, rfl, -⟩ := exists_cons hlen₁
    obtain ⟨hlo₁, hhi₁, hv⟩ := continuations_some hcont
    obtain ⟨hlo₂, hhi₂, hv⟩ := continuations_some hv
    obtain ⟨hrest, hb₂⟩ := last_group hlo₂ hhi₂ (some.inj hv)
    obtain ⟨hfirst, hb₁⟩ := last_group hlo₁ hhi₁ hrest
    rw [Nat.div_div_eq_div_mul] at hfirst
    have hthree : v < 0x10000 := by omega
    rw [encodeOne_three hleast hthree, ← hfirst, Nat.add_sub_cancel' h₂.1, ← hb₁, ← hb₂,
      UInt8.ofNat_toNat, UInt8.ofNat_toNat, UInt8.ofNat_toNat]
    rfl
  · simp only [some.injEq, Prod.mk.injEq] at hlead
    obtain ⟨rfl, rfl, rfl⟩ := hlead
    obtain ⟨b₁, tail₁, rfl, hlen₁⟩ := exists_cons hlen
    obtain ⟨b₂, tail₂, rfl, hlen₂⟩ := exists_cons hlen₁
    obtain ⟨b₃, tail₃, rfl, -⟩ := exists_cons hlen₂
    obtain ⟨hlo₁, hhi₁, hv⟩ := continuations_some hcont
    obtain ⟨hlo₂, hhi₂, hv⟩ := continuations_some hv
    obtain ⟨hlo₃, hhi₃, hv⟩ := continuations_some hv
    obtain ⟨hrest, hb₃⟩ := last_group hlo₃ hhi₃ (some.inj hv)
    obtain ⟨hrest, hb₂⟩ := last_group hlo₂ hhi₂ hrest
    obtain ⟨hfirst, hb₁⟩ := last_group hlo₁ hhi₁ hrest
    simp only [Nat.div_div_eq_div_mul, Nat.reduceMul] at hfirst hb₁ hb₂
    rw [encodeOne_four hleast hmax, ← hfirst, Nat.add_sub_cancel' h₃.1, ← hb₁, ← hb₂, ← hb₃,
      UInt8.ofNat_toNat, UInt8.ofNat_toNat, UInt8.ofNat_toNat, UInt8.ofNat_toNat]
    rfl

/-- What passes the check is the sequence of a code point. -/
theorem exists_encodeOne {rest : List UInt8} {length : Nat}
    (h : checkOne first rest = some length) :
    ∃ cp rest', isScalarValue cp = true ∧ first :: rest = encodeOne cp ++ rest' ∧
      length = (encodeOne cp).length := by
  rw [checkOne] at h
  split at h
  next hascii =>
    rw [UInt8.lt_iff_toNat_lt] at hascii
    change first.toNat < 128 at hascii
    have henc : encodeOne first.toNat = [first] := by
      rw [encodeOne, if_pos hascii, UInt8.ofNat_toNat]
    refine ⟨first.toNat, rest, (isScalarValue_iff _).mpr (by omega), by rw [henc]; rfl, ?_⟩
    cases h
    rw [henc]
    rfl
  next =>
    split at h
    next => cases h
    next count value least hlead =>
      split at h
      next => cases h
      next hlen =>
        split at h
        next => cases h
        next v hcont =>
          split at h
          next => cases h
          next hok =>
            cases h
            have henc := encodeOne_of_lead hlead (by omega) hcont (by omega) (by omega)
            refine ⟨v, rest.drop count, (isScalarValue_iff v).mpr (by omega), ?_, ?_⟩
            · rw [henc, cons_append, take_append_drop]
            · rw [henc, length_cons, length_take]
              omega

/-- What `decodeOne` reads where a longer sequence starts. -/
theorem decodeOne_at {pre tail post : List UInt8}
    (hascii : ¬first < 0x80) (htail : tail.length + 1 = sequenceLength first) :
    decodeOne (pre ++ first :: tail ++ post) pre.length =
      (tail.foldl addBits (first.toNat &&& (0xFF >>> (sequenceLength first + 1))),
        pre.length + (tail.length + 1)) := by
  have hget : (pre ++ first :: tail ++ post).getD pre.length 0 = first := by simp
  have hdrop : (pre ++ first :: tail ++ post).drop (pre.length + 1) = tail ++ post := by
    rw [append_assoc, drop_append]
    simp
  simp only [decodeOne, hget, if_neg hascii, hdrop]
  rw [← htail, Nat.add_sub_cancel, take_left]

theorem foldl_of_continuations {value v : Nat} {bytes : List UInt8}
    (h : continuations value bytes = some v) : bytes.foldl addBits value = v := by
  induction bytes generalizing value with
  | nil => exact some.inj h
  | cons b bytes ih =>
    rw [continuations] at h
    split at h
    · cases h
    · exact ih h

/-- Decoding where the sequence of a code point starts gives it back. -/
theorem decodeOne_encodeOne (hs : isScalarValue cp = true) (pre post : List UInt8) :
    decodeOne (pre ++ encodeOne cp ++ post) pre.length =
      (cp, pre.length + (encodeOne cp).length) := by
  obtain ⟨hmax, -⟩ := (isScalarValue_iff cp).mp hs
  by_cases h₁ : cp < 0x80
  · have henc : encodeOne cp = [.ofNat cp] := by rw [encodeOne, if_pos h₁]
    have hascii : UInt8.ofNat cp < 0x80 := by
      rw [UInt8.lt_iff_toNat_lt, toNat_ofNat_small (by omega)]
      exact h₁
    rw [henc]
    simp [decodeOne, hascii, toNat_ofNat_small (show cp < 256 by omega)]
  · obtain ⟨first, tail, value, least, henc, hlead, hcont, -⟩ := encodeOne_lead h₁ hmax
    obtain ⟨hascii, hlen, hvalue⟩ := sequenceLength_of_lead hlead
    rw [henc, decodeOne_at hascii hlen.symm, hlen, hvalue, foldl_of_continuations hcont,
      length_cons]

/-- No sequence starts another: a text starts with one code point only. -/
theorem encodeOne_append_inj {a b : Nat} (ha : isScalarValue a = true)
    (hb : isScalarValue b = true) {x y : List UInt8} (h : encodeOne a ++ x = encodeOne b ++ y) :
    a = b ∧ x = y := by
  have hda := decodeOne_encodeOne ha [] x
  have hdb := decodeOne_encodeOne hb [] y
  simp only [nil_append, h] at hda hdb
  rw [hda, Prod.mk.injEq] at hdb
  obtain rfl := hdb.1
  exact ⟨rfl, append_cancel_left h⟩

/-! ## Valid Texts -/

/-- The text of scalar values. -/
def Valid (s : List UInt8) : Prop := ∃ cps, (∀ cp ∈ cps, isScalarValue cp = true) ∧ s = encode cps

theorem valid_nil : Valid [] := ⟨[], by simp, rfl⟩

theorem Valid.cons (hs : isScalarValue cp = true) (h : Valid s) :
    Valid (encodeOne cp ++ s) := by
  obtain ⟨cps, hcps, rfl⟩ := h
  refine ⟨cp :: cps, ?_, by simp [encode]⟩
  intro c hc
  rcases mem_cons.mp hc with rfl | hc
  · exact hs
  · exact hcps c hc

theorem encodeOne_ne_nil (cp : Nat) : encodeOne cp ≠ [] := by
  simp only [encodeOne]
  split_ifs <;> simp

/-- A valid text that is not empty starts with a sequence. -/
theorem Valid.uncons (h : Valid s) (hne : s ≠ []) :
    ∃ cp rest, isScalarValue cp = true ∧ s = encodeOne cp ++ rest ∧ Valid rest := by
  obtain ⟨cps, hcps, rfl⟩ := h
  cases cps with
  | nil => simp [encode] at hne
  | cons cp cps =>
    refine ⟨cp, encode cps, hcps cp (by simp), by simp [encode], cps, ?_, rfl⟩
    exact fun c hc => hcps c (by simp [hc])

/-- What follows a sequence in a valid text is valid. -/
theorem Valid.rest {cp : Nat} (hs : isScalarValue cp = true) {s : List UInt8}
    (h : Valid (encodeOne cp ++ s)) : Valid s := by
  obtain ⟨c, rest, hc, heq, hrest⟩ := h.uncons (by simp [encodeOne_ne_nil])
  obtain ⟨-, rfl⟩ := encodeOne_append_inj hs hc heq
  exact hrest

theorem Valid.drop_valid {pre s : List UInt8} (hpre : Valid pre) (h : Valid (pre ++ s)) :
    Valid s := by
  obtain ⟨cps, hcps, rfl⟩ := hpre
  induction cps with
  | nil => exact h
  | cons cp cps ih =>
    have hassoc : encode (cp :: cps) ++ s = encodeOne cp ++ (encode cps ++ s) := by simp [encode]
    rw [hassoc] at h
    exact ih (fun c hc => hcps c (by simp [hc])) (h.rest (hcps cp (by simp)))

/-- The check goes over a sequence. -/
theorem invalidFrom_encodeOne (hs : isScalarValue cp = true) (i : Nat)
    (rest : List UInt8) :
    invalidFrom i (encodeOne cp ++ rest) = invalidFrom (i + (encodeOne cp).length) rest := by
  obtain ⟨first, tail, henc, hcheck⟩ := checkOne_encodeOne hs rest
  have hdrop : (first :: (tail ++ rest)).drop (encodeOne cp).length = rest := by
    rw [← cons_append, ← henc, drop_left]
  rw [show encodeOne cp ++ rest = first :: (tail ++ rest) by rw [henc]; rfl, invalidFrom]
  split
  next hnone => rw [hcheck] at hnone; cases hnone
  next length hsome =>
    rw [hcheck, some.injEq] at hsome
    rw [← hsome, hdrop]

theorem invalidFrom_valid (h : Valid s) (i : Nat) : invalidFrom i s = none := by
  obtain ⟨cps, hcps, rfl⟩ := h
  induction cps generalizing i with
  | nil => simp [encode, invalidFrom]
  | cons cp cps ih =>
    have hcons : encode (cp :: cps) = encodeOne cp ++ encode cps := by simp [encode]
    rw [hcons, invalidFrom_encodeOne (hcps cp (by simp))]
    exact ih _ fun c hc => hcps c (by simp [hc])

/-- The check ends behind a valid prefix where no sequence starts, or at the end. -/
theorem invalidFrom_spec (i : Nat) (s : List UInt8) :
    (invalidFrom i s = none ∧ Valid s) ∨
    ∃ pre ill, s = pre ++ ill ∧ invalidFrom i s = some (i + pre.length) ∧ Valid pre ∧ ill ≠ [] ∧
      ∀ cp, isScalarValue cp = true → ∀ rest, ill ≠ encodeOne cp ++ rest := by
  induction hn : s.length using Nat.strong_induction_on generalizing i s with
  | _ n ih =>
    cases s with
    | nil => exact .inl ⟨by simp [invalidFrom], valid_nil⟩
    | cons first rest =>
      cases hc : checkOne first rest with
      | none =>
        right
        refine ⟨[], first :: rest, rfl, ?_, valid_nil, by simp, ?_⟩
        · rw [invalidFrom]
          split
          next => rfl
          next length hsome => rw [hc] at hsome; cases hsome
        · intro cp hs rest' heq
          obtain ⟨first', tail, henc, hcheck⟩ := checkOne_encodeOne hs rest'
          rw [henc, cons_append, List.cons.injEq] at heq
          rw [← heq.1, ← heq.2, hc] at hcheck
          cases hcheck
      | some length =>
        obtain ⟨cp, rest', hs, heq, -⟩ := exists_encodeOne hc
        have hpos : 0 < (encodeOne cp).length :=
          length_pos_iff.mpr (encodeOne_ne_nil cp)
        rw [heq, invalidFrom_encodeOne hs]
        have hlt : rest'.length < n := by
          rw [← hn, heq, length_append]
          omega
        rcases ih _ hlt (i + (encodeOne cp).length) rest' rfl with ⟨hnone, hv⟩ | h
        · exact .inl ⟨hnone, hv.cons hs⟩
        · obtain ⟨pre, ill, rfl, hsome, hv, hne, hno⟩ := h
          right
          refine ⟨encodeOne cp ++ pre, ill, by simp, ?_, hv.cons hs, hne, hno⟩
          rw [hsome, length_append, add_assoc]

theorem invalidOffset_eq_none_iff (s : List UInt8) : invalidOffset s = none ↔ Valid s := by
  constructor
  · intro h
    rcases invalidFrom_spec 0 s with ⟨-, hv⟩ | ⟨pre, ill, -, hsome, -⟩
    · exact hv
    · rw [invalidOffset, hsome] at h
      cases h
  · exact fun h => invalidFrom_valid h 0

variable {cps : List Nat}

theorem decodeAll_valid (hcps : ∀ cp ∈ cps, isScalarValue cp = true)
    (pre : List UInt8) : decodeAll (pre ++ encode cps) pre.length =
      cps.map fun cp => (cp, (encodeOne cp).length) := by
  induction cps generalizing pre with
  | nil =>
    rw [decodeAll, if_neg (by simp [encode])]
    rfl
  | cons cp cps ih =>
    have hs := hcps cp (by simp)
    have hpos : 0 < (encodeOne cp).length := length_pos_iff.mpr (encodeOne_ne_nil cp)
    have hcons : pre ++ encode (cp :: cps) = pre ++ encodeOne cp ++ encode cps := by
      simp [encode]
    rw [decodeAll, if_pos (by rw [hcons]; simp only [length_append]; omega), hcons,
      decodeOne_encodeOne hs]
    have hrest := ih (fun c hc => hcps c (by simp [hc])) (pre ++ encodeOne cp)
    rw [length_append] at hrest
    rw [hrest, map_cons, Nat.add_sub_cancel_left]

/-- `invalidOffset` accepts the texts of scalar values and no others; for another it
    gives the end of the longest valid prefix, where no sequence starts; and stepping
    over a valid text gives back what was encoded. -/
theorem invalidOffset_spec (s : List UInt8) :
    (invalidOffset s = none ↔ Valid s) ∧
    (∀ k, invalidOffset s = some k → k < s.length ∧ Valid (s.take k) ∧
      (∀ m ≤ s.length, Valid (s.take m) → m ≤ k) ∧
      ∀ cp, isScalarValue cp = true → ¬encodeOne cp <+: s.drop k) ∧
    ∀ cps, (∀ cp ∈ cps, isScalarValue cp = true) → s = encode cps →
      decodeAll s 0 = cps.map fun cp => (cp, (encodeOne cp).length) := by
  refine ⟨invalidOffset_eq_none_iff s, ?_, ?_⟩
  · intro k hk
    rcases invalidFrom_spec 0 s with ⟨hnone, -⟩ | ⟨pre, ill, rfl, hsome, hpre, hne, hno⟩
    · rw [invalidOffset, hnone] at hk
      cases hk
    · rw [invalidOffset, hsome, some.injEq, zero_add] at hk
      subst hk
      have hpos : 0 < ill.length := length_pos_iff.mpr hne
      refine ⟨by rw [length_append]; omega, by rw [take_left]; exact hpre, ?_, ?_⟩
      · -- a longer valid prefix would go on with a sequence behind the shorter one
        intro m hm hv
        by_contra hlt
        rw [take_append, take_of_length_le (by omega)] at hv
        have hq := hpre.drop_valid hv
        have hqne : ill.take (m - pre.length) ≠ [] := by
          rw [← length_pos_iff, length_take]
          omega
        obtain ⟨cp, rest, hs, heq, -⟩ := hq.uncons hqne
        apply hno cp hs (rest ++ ill.drop (m - pre.length))
        rw [← append_assoc, ← heq, take_append_drop]
      · intro cp hs hlead
        rw [drop_left] at hlead
        obtain ⟨rest, hrest⟩ := hlead
        exact hno cp hs rest hrest.symm
  · intro cps hcps hs
    have := decodeAll_valid hcps []
    rw [hs]
    exact this

/-! ## Indices and Offsets -/

/-- A byte that is not the first of its sequence. -/
def isContinuation (c : UInt8) : Bool := c &&& 0xC0 = 0x80

/-- The number of code points of a valid text. -/
def count (s : List UInt8) : Nat := s.countP fun c => !isContinuation c

/-- The loop over the sequences: the offset it stops at and what is left of the index. -/
def offsetWalk (s : List UInt8) : Nat → Nat → Nat × Nat
  | pos, 0 => (pos, 0)
  | pos, index + 1 =>
    if pos < s.length then offsetWalk s (pos + sequenceLength (s.getD pos 0)) index
    else (pos, index + 1)

/-- The offset at which code point number `index` of a valid text starts. -/
def offsetOf (s : List UInt8) (index : Nat) : Option Nat :=
  let (pos, left) := offsetWalk s 0 index
  if left = 0 ∧ pos ≤ s.length then some pos else none

/-- The number of code points before an offset. -/
def indexOf (s : List UInt8) (byteOffset : Nat) : Nat := count (s.take byteOffset)

/-- An offset is on a boundary where it is that of a first byte, or of the end. -/
def IsBoundary (s : List UInt8) (byteOffset : Nat) : Prop :=
  byteOffset = s.length ∨ ∃ c, s[byteOffset]? = some c ∧ isContinuation c = false

theorem isContinuation_iff (c : UInt8) :
    isContinuation c = true ↔ 128 ≤ c.toNat ∧ c.toNat < 192 := by
  rw [← continuation_iff, isContinuation, decide_eq_true_eq]

/-- Of the bytes of a sequence only the first is no continuation. -/
theorem exists_first (hs : isScalarValue cp = true) : ∃ first tail, encodeOne cp = first :: tail ∧
    isContinuation first = false ∧ ∀ c ∈ tail, isContinuation c = true := by
  obtain ⟨hmax, -⟩ := (isScalarValue_iff cp).mp hs
  have hfirst : ∀ m, m < 256 → m < 128 ∨ 192 ≤ m → isContinuation (.ofNat m) = false := by
    intro m hlt hm
    rw [Bool.eq_false_iff, Ne, isContinuation_iff, toNat_ofNat_small hlt]
    omega
  have htail : ∀ m, isContinuation (.ofNat (0x80 + m % 64)) = true := by
    intro m
    rw [isContinuation_iff, toNat_ofNat_small (by omega)]
    omega
  by_cases h₁ : cp < 0x80
  · exact ⟨_, [], by rw [encodeOne, if_pos h₁], hfirst cp (by omega) (by omega), by simp⟩
  by_cases h₂ : cp < 0x800
  · refine ⟨_, _, encodeOne_two (by omega) h₂, hfirst _ (by omega) (by omega), ?_⟩
    simp only [forall_mem_cons, htail, true_and, not_mem_nil, false_imp_iff, implies_true]
  by_cases h₃ : cp < 0x10000
  · refine ⟨_, _, encodeOne_three (by omega) h₃, hfirst _ (by omega) (by omega), ?_⟩
    simp only [forall_mem_cons, htail, true_and, not_mem_nil, false_imp_iff, implies_true]
  · refine ⟨_, _, encodeOne_four (by omega) hmax, hfirst _ (by omega) (by omega), ?_⟩
    simp only [forall_mem_cons, htail, true_and, not_mem_nil, false_imp_iff, implies_true]

theorem encode_cons (cp : Nat) (cps : List Nat) :
    encode (cp :: cps) = encodeOne cp ++ encode cps := by simp [encode]

theorem count_encode (hcps : ∀ cp ∈ cps, isScalarValue cp = true) :
    count (encode cps) = cps.length := by
  induction cps with
  | nil => rfl
  | cons cp cps ih =>
    rw [forall_mem_cons] at hcps
    obtain ⟨first, tail, henc, hfirst, htail⟩ := exists_first hcps.1
    have hnone : tail.countP (fun c => !isContinuation c) = 0 := by
      rw [countP_eq_zero]
      exact fun c hc => by simp [htail c hc]
    rw [encode_cons, count, countP_append, henc, countP_cons, hnone, hfirst]
    show 1 + count (encode cps) = _
    rw [ih hcps.2, length_cons, add_comm]

theorem decodeOne_snd (s : List UInt8) (pos : Nat) :
    (decodeOne s pos).2 = pos + sequenceLength (s.getD pos 0) := by
  simp only [decodeOne]
  split
  · next h => rw [sequenceLength, if_pos h]
  · rfl

/-- The loop goes over one sequence for each index, as long as there are sequences. -/
theorem offsetWalk_encode (hcps : ∀ cp ∈ cps, isScalarValue cp = true)
    (pre : List UInt8) (i : Nat) : offsetWalk (pre ++ encode cps) pre.length i =
      (pre.length + (encode (cps.take i)).length, i - cps.length) := by
  induction cps generalizing pre i with
  | nil =>
    cases i with
    | zero => rfl
    | succ i => simp [offsetWalk, encode]
  | cons cp cps ih =>
    cases i with
    | zero => simp [offsetWalk, encode]
    | succ i =>
      rw [forall_mem_cons] at hcps
      have hstep := decodeOne_snd (pre ++ encodeOne cp ++ encode cps) pre.length
      rw [decodeOne_encodeOne hcps.1] at hstep
      have hpos : 0 < (encodeOne cp).length := length_pos_iff.mpr (encodeOne_ne_nil cp)
      have hrest := ih hcps.2 (pre ++ encodeOne cp) i
      rw [encode_cons, ← append_assoc, offsetWalk,
        if_pos (by simp only [length_append]; omega), ← hstep, ← length_append, hrest,
        take_succ_cons, encode_cons, length_append, length_append, length_cons, add_assoc,
        Nat.add_sub_add_right]

theorem encode_take_append (cps : List Nat) (i : Nat) :
    encode cps = encode (cps.take i) ++ encode (cps.drop i) := by
  rw [encode, encode, encode, ← flatMap_append, take_append_drop]

theorem offsetOf_encode (hcps : ∀ cp ∈ cps, isScalarValue cp = true) (i : Nat) :
    offsetOf (encode cps) i =
      if i ≤ cps.length then some (encode (cps.take i)).length else none := by
  have hwalk := offsetWalk_encode hcps [] i
  rw [nil_append, length_nil, Nat.zero_add] at hwalk
  have hle : (encode (cps.take i)).length ≤ (encode cps).length := by
    rw [encode_take_append cps i, length_append]
    exact Nat.le_add_right _ _
  rw [offsetOf, hwalk]
  simp only [Nat.sub_eq_zero_iff_le, hle, and_true]

theorem indexOf_encode (hcps : ∀ cp ∈ cps, isScalarValue cp = true) {i : Nat}
    (hi : i ≤ cps.length) : indexOf (encode cps) (encode (cps.take i)).length = i := by
  have htake : (encode cps).take (encode (cps.take i)).length = encode (cps.take i) := by
    rw [encode_take_append cps i, take_left]
  rw [indexOf, htake, count_encode fun cp hcp => hcps cp (mem_of_mem_take hcp), length_take,
    Nat.min_eq_left hi]

/-- The boundaries of a valid text are the offsets of its code points, and its end. -/
theorem exists_of_isBoundary (hcps : ∀ cp ∈ cps, isScalarValue cp = true) {o : Nat}
    (h : IsBoundary (encode cps) o) : ∃ i ≤ cps.length, o = (encode (cps.take i)).length := by
  induction cps generalizing o with
  | nil =>
    rcases h with rfl | ⟨c, hc, -⟩
    · exact ⟨0, le_rfl, rfl⟩
    · simp [encode] at hc
  | cons cp cps ih =>
    rw [forall_mem_cons] at hcps
    obtain ⟨first, tail, henc, -, htail⟩ := exists_first hcps.1
    by_cases hzero : o = 0
    · exact ⟨0, Nat.zero_le _, hzero⟩
    by_cases hin : o < (encodeOne cp).length
    · -- inside the first sequence there are only continuations
      exfalso
      rw [encode_cons] at h
      rcases h with rfl | ⟨c, hc, hfirst⟩
      · rw [length_append] at hin
        omega
      · rw [getElem?_append_left hin, henc] at hc
        obtain ⟨o, rfl⟩ := Nat.exists_eq_succ_of_ne_zero hzero
        rw [getElem?_cons_succ] at hc
        rw [htail c (mem_of_getElem? hc)] at hfirst
        cases hfirst
    · have hrest : IsBoundary (encode cps) (o - (encodeOne cp).length) := by
        rw [encode_cons] at h
        rcases h with rfl | ⟨c, hc, hfirst⟩
        · left
          rw [length_append, Nat.add_sub_cancel_left]
        · rw [getElem?_append_right (Nat.not_lt.mp hin)] at hc
          exact .inr ⟨c, hc, hfirst⟩
      obtain ⟨i, hi, ho⟩ := ih hcps.2 hrest
      refine ⟨i + 1, Nat.succ_le_succ hi, ?_⟩
      rw [take_succ_cons, encode_cons, length_append, ← ho]
      omega

/-- What `offsetOf` and `indexOf` give in the text of some code points. -/
structure Indexed (s : List UInt8) (cps : List Nat) : Prop where
  scalars : ∀ cp ∈ cps, isScalarValue cp = true
  text : s = encode cps
  offset : ∀ i, offsetOf s i = if i ≤ cps.length then some (encode (cps.take i)).length else none
  index : ∀ i o, offsetOf s i = some o → indexOf s o = i
  boundary : ∀ o, IsBoundary s o → offsetOf s (indexOf s o) = some o

/-- In a valid text `offsetOf` gives the offset of each code point, and of the end, and
    `indexOf` takes an offset on a boundary back to its index. -/
theorem offsetOf_indexOf (h : invalidOffset s = none) : ∃ cps, Indexed s cps := by
  obtain ⟨cps, hcps, rfl⟩ := (invalidOffset_eq_none_iff s).mp h
  refine ⟨cps, hcps, rfl, offsetOf_encode hcps, ?_, ?_⟩
  · intro i o ho
    rw [offsetOf_encode hcps] at ho
    split at ho
    · next hi =>
      cases ho
      exact indexOf_encode hcps hi
    · cases ho
  · intro o ho
    obtain ⟨i, hi, rfl⟩ := exists_of_isBoundary hcps ho
    rw [indexOf_encode hcps hi, offsetOf_encode hcps, if_pos hi]

/-- The text `aé`, of two code points and three bytes. -/
theorem offsetOf_indexOf_two : ∃ cps, Indexed [0x61, 0xC3, 0xA9] cps :=
  offsetOf_indexOf ((invalidOffset_eq_none_iff _).mpr ⟨[0x61, 0xE9], by decide, rfl⟩)

end Camel.Text
