import Mathlib

/-! # Scanning Text

    Text is a list of bytes. A number is written in decimal and read back by skipping blanks,
    taking a sign and then as many digits as follow; a word is found at the first place it
    occurs at.
-/

namespace Camel.Lib

open List

variable {α : Type} [DecidableEq α]

/-! ## Finding a Word -/

/-- The bytes of a text. -/
def ascii (s : String) : List UInt8 := s.toList.map fun c => c.toNat.toUInt8

/-- The first place a word occurs at. -/
def find (word : List α) : List α → Option Nat
  | [] => if word = [] then some 0 else none
  | c :: text => if word.isPrefixOf (c :: text) then some 0 else (find word text).map (· + 1)

/-- A letter is found where it first stands. -/
theorem find_letter {c : α} {before : List α} (h : c ∉ before) (after : List α) :
    find [c] (before ++ c :: after) = some before.length := by
  induction before with
  | nil => simp [find]
  | cons b before ih =>
    have hb : ¬ c = b := fun heq => h (heq ▸ mem_cons_self)
    rw [cons_append, find, ih fun hmem => h (.tail _ hmem)]
    simp [hb]

/-! ## Numbers -/

def isDigit (c : UInt8) : Bool := 48 ≤ c && c ≤ 57

def isBlank (c : UInt8) : Bool := c == 32 || (9 ≤ c && c ≤ 13)

/-- The number in decimal. -/
def decimal (n : Nat) : List UInt8 := (Nat.toDigits 10 n).map fun c => c.toNat.toUInt8

/-- The number the digits stand for. -/
def numberOf (digits : List UInt8) : Nat := digits.foldl (fun n c => n * 10 + (c.toNat - 48)) 0

/-- A number that was read: its sign, what follows it, and how many bytes it took. -/
structure Scanned where
  negative : Bool
  magnitude : Nat
  used : Nat

/-- The number at the beginning of a text, after blanks and a sign. -/
def scan (text : List UInt8) : Option Scanned :=
  let blanks := (text.takeWhile isBlank).length
  let rest := text.dropWhile isBlank
  let negative := rest.head? = some 45
  let sign := if rest.head? = some 45 ∨ rest.head? = some 43 then 1 else 0
  let digits := (rest.drop sign).takeWhile isDigit
  if digits = [] then none
  else some ⟨negative, numberOf digits, blanks + sign + digits.length⟩

theorem decimal_of_lt {n : Nat} (h : n < 10) : decimal n = [UInt8.ofNat (48 + n)] := by
  unfold decimal
  rw [Nat.toDigits_of_lt_base h, map_singleton, Nat.toNat_digitChar_of_lt_ten h]

theorem decimal_of_le {n : Nat} (h : 10 ≤ n) :
    decimal n = decimal (n / 10) ++ [UInt8.ofNat (48 + n % 10)] := by
  unfold decimal
  rw [Nat.toDigits_of_base_le (by decide) h, map_append, map_singleton,
    Nat.toNat_digitChar_of_lt_ten (Nat.mod_lt _ (by decide))]

theorem toNat_digit {d : Nat} (h : d < 10) : (UInt8.ofNat (48 + d)).toNat = 48 + d := by
  rw [UInt8.toNat_ofNat']
  omega

theorem isDigit_digit {d : Nat} (h : d < 10) : isDigit (UInt8.ofNat (48 + d)) = true := by
  unfold isDigit
  rw [Bool.and_eq_true, decide_eq_true_iff, decide_eq_true_iff, UInt8.le_iff_toNat_le,
    UInt8.le_iff_toNat_le, toNat_digit h]
  exact ⟨Nat.le_add_right _ _, by show 48 + d ≤ 57; omega⟩

theorem isDigit_of_mem_decimal {n : Nat} {c : UInt8} (hc : c ∈ decimal n) : isDigit c = true := by
  induction n using Nat.strong_induction_on with
  | _ n ih =>
    rcases lt_or_ge n 10 with hlt | hge
    · rw [decimal_of_lt hlt, mem_singleton] at hc
      rw [hc]
      exact isDigit_digit hlt
    · rw [decimal_of_le hge, mem_append, mem_singleton] at hc
      rcases hc with hc | rfl
      · exact ih (n / 10) (by omega) hc
      · exact isDigit_digit (Nat.mod_lt _ (by decide))

theorem decimal_ne_nil (n : Nat) : decimal n ≠ [] := by
  unfold decimal
  rw [Ne, map_eq_nil_iff]
  exact Nat.toDigits_ne_nil

/-- The digits stand for the number they were written for. -/
theorem numberOf_decimal (n : Nat) : numberOf (decimal n) = n := by
  induction n using Nat.strong_induction_on with
  | _ n ih =>
    rcases lt_or_ge n 10 with hlt | hge
    · rw [decimal_of_lt hlt]
      show 0 * 10 + ((UInt8.ofNat (48 + n)).toNat - 48) = n
      rw [toNat_digit hlt]
      omega
    · have hmod : n % 10 < 10 := Nat.mod_lt _ (by decide)
      have hrest := ih (n / 10) (by omega)
      unfold numberOf at hrest ⊢
      rw [decimal_of_le hge, foldl_append, hrest, foldl_cons, foldl_nil,
        toNat_digit hmod]
      omega

/-- No digit is a blank or a sign. -/
theorem not_blank_of_isDigit {c : UInt8} (h : isDigit c = true) :
    isBlank c = false ∧ c ≠ 45 ∧ c ≠ 43 := by
  unfold isDigit at h
  rw [Bool.and_eq_true, decide_eq_true_iff, decide_eq_true_iff, UInt8.le_iff_toNat_le,
    UInt8.le_iff_toNat_le] at h
  have hlo : 48 ≤ c.toNat := h.1
  have hne : ∀ d : UInt8, d.toNat < 48 → c ≠ d := by
    rintro d hd rfl
    omega
  refine ⟨?_, hne 45 (by decide), hne 43 (by decide)⟩
  have hgt : ¬ c ≤ 13 := by
    rw [UInt8.le_iff_toNat_le]
    show ¬ c.toNat ≤ 13
    omega
  simp [isBlank, hne 32 (by decide), hgt]

/-- A number in decimal is read up to where it ends. -/
theorem scan_decimal (n : Nat) {rest : List UInt8} (hrest : ∀ c ∈ rest.head?, isDigit c = false) :
    scan (decimal n ++ rest) = some ⟨false, n, (decimal n).length⟩ := by
  obtain ⟨c, digits, hdigits⟩ := exists_cons_of_ne_nil (decimal_ne_nil n)
  have hc : isDigit c = true := isDigit_of_mem_decimal (hdigits ▸ mem_cons_self)
  obtain ⟨hblank, hminus, hplus⟩ := not_blank_of_isDigit hc
  have htake : (decimal n ++ rest).takeWhile isBlank = [] := by
    rw [hdigits, cons_append, takeWhile_cons, hblank]
    rfl
  have hdrop : (decimal n ++ rest).dropWhile isBlank = decimal n ++ rest := by
    rw [hdigits, cons_append, dropWhile_cons, hblank]
    rfl
  have hhead : (decimal n ++ rest).head? = some c := by
    rw [hdigits]
    rfl
  have hnumber : (decimal n ++ rest).takeWhile isDigit = decimal n := by
    rw [takeWhile_append_of_pos fun d hd => isDigit_of_mem_decimal hd]
    cases rest with
    | nil => rw [takeWhile_nil, append_nil]
    | cons d rest =>
      rw [takeWhile_cons, hrest d rfl]
      simp
  unfold scan
  simp only [htake, hdrop, hhead, Option.some.injEq, hminus, hplus, or_self, if_false,
    drop_zero, hnumber, decimal_ne_nil n, numberOf_decimal, length_nil, Nat.zero_add,
    decide_false]

end Camel.Lib
