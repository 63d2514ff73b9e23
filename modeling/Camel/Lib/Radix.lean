import Mathlib

/-! # Numbers in a Radix

    A list of digits, the lowest first, stands for the number `Nat.ofDigits`
    gives. The lemmas say how that number is read from a place on, up to a place,
    and what a write at a place does to it. A list in normal form has no zero at
    its high end, and such lists are ordered by length first.
-/

namespace Camel.Lib

open List

open Nat (ofDigits)

variable {B : Nat} {l m : List Nat}

/-! ## Reading at a Place -/

theorem getD_eq_zero {l : List Nat} {i : Nat} (h : l.length ≤ i) : l.getD i 0 = 0 := by
  rw [getD_eq_getElem?_getD, getElem?_eq_none h]
  rfl

theorem getD_of_lt {l : List Nat} {i : Nat} (h : i < l.length) : l.getD i 0 = l[i] := by
  rw [getD_eq_getElem?_getD, getElem?_eq_getElem h]
  rfl

theorem getD_lt (hB : 0 < B) (hl : ∀ d ∈ l, d < B) (i : Nat) : l.getD i 0 < B := by
  rw [getD_eq_getElem?_getD]
  rcases h : l[i]? with _ | d
  · exact hB
  · exact hl d (mem_of_getElem? h)

/-- From a place on: the digit there, and the rest. -/
theorem ofDigits_drop (l : List Nat) (i : Nat) :
    ofDigits B (l.drop i) = l.getD i 0 + B * ofDigits B (l.drop (i + 1)) := by
  by_cases h : i < l.length
  · rw [drop_eq_getElem_cons h, Nat.ofDigits_cons, getD_of_lt h]
  · rw [drop_of_length_le (by omega), drop_of_length_le (by omega),
      getD_eq_zero (by omega)]
    simp

/-- Up to a place: the digits below it, and the digit there. -/
theorem ofDigits_take (l : List Nat) (i : Nat) :
    ofDigits B (l.take (i + 1)) = ofDigits B (l.take i) + B ^ i * l.getD i 0 := by
  by_cases h : i < l.length
  · rw [take_add_one, getElem?_eq_getElem h, Nat.ofDigits_append, length_take,
      min_eq_left h.le, getD_of_lt h]
    simp
  · rw [take_of_length_le (by omega), take_of_length_le (by omega),
      getD_eq_zero (by omega)]
    simp

theorem ofDigits_take_add_drop (l : List Nat) (i : Nat) (hi : i ≤ l.length) :
    ofDigits B (l.take i) + B ^ i * ofDigits B (l.drop i) = ofDigits B l := by
  conv_rhs => rw [← take_append_drop i l]
  rw [Nat.ofDigits_append, length_take, min_eq_left hi]

/-- A write at a place. -/
theorem ofDigits_set {k : Nat} (hk : k < l.length) (v : Nat) :
    ofDigits B (l.set k v) + B ^ k * l.getD k 0 = ofDigits B l + B ^ k * v := by
  induction l generalizing k with
  | nil => exact absurd hk (Nat.not_lt_zero _)
  | cons d l ih =>
    cases k with
    | zero =>
      rw [set_cons_zero, getD_cons_zero, Nat.ofDigits_cons, Nat.ofDigits_cons,
        pow_zero]
      omega
    | succ k =>
      have := ih (k := k) (by simpa using hk)
      rw [set_cons_succ, getD_cons_succ, Nat.ofDigits_cons, Nat.ofDigits_cons,
        Nat.pow_succ']
      calc d + B * ofDigits B (l.set k v) + B * B ^ k * l.getD k 0
          = d + B * (ofDigits B (l.set k v) + B ^ k * l.getD k 0) := by ring
        _ = d + B * (ofDigits B l + B ^ k * v) := by rw [this]
        _ = d + B * ofDigits B l + B * B ^ k * v := by ring

theorem getD_set_self {k v : Nat} (hk : k < l.length) : (l.set k v).getD k 0 = v := by
  rw [getD_eq_getElem?_getD, getElem?_set_self hk]
  rfl

theorem getD_set_ne {j k v : Nat} (h : k ≠ j) : (l.set k v).getD j 0 = l.getD j 0 := by
  rw [getD_eq_getElem?_getD, getElem?_set_ne h, ← getD_eq_getElem?_getD]

theorem forall_lt_set (hl : ∀ d ∈ l, d < B) {k v : Nat} (hv : v < B) : ∀ d ∈ l.set k v, d < B := by
  intro d hd
  rcases mem_or_eq_of_mem_set hd with hd | rfl
  · exact hl d hd
  · exact hv

theorem ofDigits_lt (hB : 1 < B) (hl : ∀ d ∈ l, d < B) : ofDigits B l < B ^ l.length :=
  Nat.ofDigits_lt_base_pow_length hB hl

theorem ofDigits_take_lt (hB : 1 < B) (hl : ∀ d ∈ l, d < B) (i : Nat) :
    ofDigits B (l.take i) < B ^ i := by
  have := ofDigits_lt hB (l := l.take i) fun d hd => hl d (mem_of_mem_take hd)
  refine Nat.lt_of_lt_of_le this (Nat.pow_le_pow_right (by omega) ?_)
  exact length_take_le i l

/-! ## Normal Form -/

/-- The zeros at the high end taken off. -/
def strip (l : List Nat) : List Nat := l.rdropWhile (· = 0)

structure NormalDigits (B : Nat) (l : List Nat) : Prop where
  lt : ∀ d ∈ l, d < B
  top : l.getLast? ≠ some 0

theorem ofDigits_strip (l : List Nat) : ofDigits B (strip l) = ofDigits B l := by
  induction l using List.reverseRecOn with
  | nil => rfl
  | append_singleton l d ih =>
    unfold strip at ih ⊢
    by_cases hd : d = 0
    · rw [rdropWhile_concat_pos _ _ _ (by simpa using hd), ih, Nat.ofDigits_append, hd]
      simp
    · rw [rdropWhile_concat_neg _ _ _ (by simpa using hd)]

theorem normal_strip (hl : ∀ d ∈ l, d < B) : NormalDigits B (strip l) := by
  constructor
  · intro d hd
    have hpre := rdropWhile_prefix (p := fun d => decide (d = 0)) l
    exact hl d (hpre.subset hd)
  · intro htop
    have hne : strip l ≠ [] := by
      intro h
      rw [h] at htop
      cases htop
    have := rdropWhile_last_not (fun d => decide (d = 0)) l hne
    rw [getLast?_eq_getLast_of_ne_nil hne, Option.some.injEq] at htop
    simp only [decide_eq_true_eq] at this
    exact this htop

theorem normal_nil : NormalDigits B [] := ⟨by simp, by simp⟩

/-- The top digit is not zero. -/
theorem NormalDigits.le_ofDigits (h : NormalDigits B l) (hne : l ≠ []) :
    B ^ (l.length - 1) ≤ ofDigits B l := by
  have htop := h.top
  obtain ⟨init, d, rfl⟩ := (eq_nil_or_concat l).resolve_left hne
  rw [concat_eq_append] at htop ⊢
  rw [getLast?_append, getLast?_singleton] at htop
  have hd : d ≠ 0 := fun h0 => htop (by simp [h0])
  rw [Nat.ofDigits_append, Nat.ofDigits_singleton, length_append, length_singleton,
    Nat.add_sub_cancel]
  calc B ^ init.length = B ^ init.length * 1 := (mul_one _).symm
    _ ≤ B ^ init.length * d := Nat.mul_le_mul_left _ (pos_of_ne_zero hd)
    _ ≤ ofDigits B init + B ^ init.length * d := Nat.le_add_left _ _

theorem NormalDigits.eq_nil_iff (hB : 0 < B) (h : NormalDigits B l) :
    l = [] ↔ ofDigits B l = 0 := by
  refine ⟨fun hl => by rw [hl]; rfl, fun h0 => ?_⟩
  by_contra hne
  have := h.le_ofDigits hne
  have hpos := Nat.pow_pos (n := l.length - 1) hB
  omega

/-- A longer number in normal form is larger. -/
theorem NormalDigits.lt_of_length (hB : 1 < B) (hl : ∀ d ∈ l, d < B) (hm : NormalDigits B m)
    (h : l.length < m.length) : ofDigits B l < ofDigits B m := by
  have hne : m ≠ [] := by
    intro hnil
    rw [hnil] at h
    exact absurd h (Nat.not_lt_zero _)
  calc ofDigits B l < B ^ l.length := ofDigits_lt hB hl
    _ ≤ B ^ (m.length - 1) := Nat.pow_le_pow_right (by omega) (by omega)
    _ ≤ ofDigits B m := hm.le_ofDigits hne

theorem strip_of_normal (h : NormalDigits B l) : strip l = l := by
  unfold strip
  apply List.rdropWhile_eq_self_iff.mpr
  intro hne
  have htop := h.top
  rw [getLast?_eq_getLast_of_ne_nil hne, ne_eq, Option.some.injEq] at htop
  simpa using htop

theorem NormalDigits.length_le (hB : 1 < B) (hl : NormalDigits B l) (hm : ∀ d ∈ m, d < B)
    (h : ofDigits B l ≤ ofDigits B m) : l.length ≤ m.length := by
  by_contra hlt
  have := NormalDigits.lt_of_length hB hm hl (lt_of_not_ge hlt)
  omega

/-- Two normal forms of one number are one list. -/
theorem NormalDigits.ext (hB : 1 < B) (hl : NormalDigits B l) (hm : NormalDigits B m)
    (h : ofDigits B l = ofDigits B m) : l = m := by
  have hlen : l.length = m.length :=
    le_antisymm (hl.length_le hB hm.lt (le_of_eq h))
      (hm.length_le hB hl.lt (le_of_eq h.symm))
  exact Nat.ofDigits_inj_of_len_eq hB hlen hl.lt hm.lt h

end Camel.Lib

/-! # Numbers in Bytes

    A number is stored least significant byte first. Reading as many bytes as were
    written gives the number back, less what did not fit. A store in a list of bytes
    is read at its place and leaves the rest.
-/

namespace Camel.Lib

open List

/-- The first `w` bytes of a number. -/
def bytesOf : Nat → Nat → List UInt8
  | 0, _ => []
  | w + 1, n => UInt8.ofNat n :: bytesOf w (n / 256)

/-- The number the bytes stand for. -/
def wordOf : List UInt8 → Nat
  | [] => 0
  | b :: bs => b.toNat + 256 * wordOf bs

/-- The bytes `bs` written over those from `at'` on. -/
def storeBytes (mem : List UInt8) (at' : Nat) (bs : List UInt8) : List UInt8 :=
  mem.take at' ++ (bs ++ mem.drop (at' + bs.length))

/-- The `w` bytes from `at'` on. -/
def loadBytes (mem : List UInt8) (at' w : Nat) : List UInt8 := (mem.drop at').take w

@[simp] theorem length_bytesOf (w n : Nat) : (bytesOf w n).length = w := by
  induction w generalizing n with
  | zero => rfl
  | succ w ih => rw [bytesOf, length_cons, ih]

theorem wordOf_bytesOf (w n : Nat) : wordOf (bytesOf w n) = n % 256 ^ w := by
  induction w generalizing n with
  | zero => simp [bytesOf, wordOf, Nat.mod_one]
  | succ w ih =>
    have hbyte : (UInt8.ofNat n).toNat = n % 256 := UInt8.toNat_ofNat'
    rw [bytesOf, wordOf, ih, hbyte, pow_succ, mul_comm (256 ^ w), Nat.mod_mul]

theorem wordOf_append_zeros (bs : List UInt8) (k : Nat) :
    wordOf (bs ++ List.replicate k 0) = wordOf bs := by
  induction bs with
  | nil =>
    induction k with
    | zero => rfl
    | succ k ih =>
      rw [nil_append] at ih ⊢
      rw [replicate_succ]
      show (0 : UInt8).toNat + 256 * wordOf (List.replicate k 0) = 0
      rw [ih]
      rfl
  | cons b bs ih => rw [cons_append, wordOf, ih, wordOf]

variable {mem bs : List UInt8} {at' : Nat}

theorem length_storeBytes (h : at' + bs.length ≤ mem.length) :
    (storeBytes mem at' bs).length = mem.length := by
  unfold storeBytes
  rw [length_append, length_append, length_take, length_drop]
  omega

/-- What was stored is read where it was stored. -/
theorem loadBytes_storeBytes (h : at' + bs.length ≤ mem.length) :
    loadBytes (storeBytes mem at' bs) at' bs.length = bs := by
  have hlen : (mem.take at').length = at' := by
    rw [length_take]
    omega
  unfold loadBytes storeBytes
  rw [drop_append_of_le_length (by omega), drop_of_length_le (by omega),
    nil_append, take_left]

end Camel.Lib
