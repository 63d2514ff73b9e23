import Mathlib

/-! # Placing Blocks in Order

    Blocks with an alignment and a size are put one after another, each at the next offset that
    is a multiple of its alignment. No other way of placing them in this order ends earlier.
-/

namespace Camel.Lib

open List

/-! ## Rounding Up -/

/-- The next multiple of `a` that is not below `n`. -/
def roundUp (n a : Nat) : Nat := (n + a - 1) / a * a

theorem dvd_roundUp (n a : Nat) : a ∣ roundUp n a := Nat.dvd_mul_left a _

variable {n a : Nat}

theorem le_roundUp (ha : 0 < a) : n ≤ roundUp n a := by
  have hmod := Nat.div_add_mod (n + a - 1) a
  have hlt := Nat.mod_lt (n + a - 1) ha
  have hcomm : roundUp n a = a * ((n + a - 1) / a) := mul_comm _ _
  omega

theorem roundUp_le {m : Nat} (ha : 0 < a) (hle : n ≤ m) (hdvd : a ∣ m) : roundUp n a ≤ m := by
  obtain ⟨k, rfl⟩ := hdvd
  have hdiv : (n + a - 1) / a ≤ k := by
    apply Nat.le_of_lt_succ
    rw [Nat.div_lt_iff_lt_mul ha, Nat.succ_mul]
    have hcomm := mul_comm a k
    omega
  calc roundUp n a ≤ k * a := Nat.mul_le_mul_right a hdiv
    _ = a * k := mul_comm k a

theorem roundUp_of_dvd (ha : 0 < a) (hdvd : a ∣ n) : roundUp n a = n :=
  le_antisymm (roundUp_le ha le_rfl hdvd) (le_roundUp ha)

/-! ## Blocks -/

structure LayoutBlock where
  alignment : Nat
  size : Nat

/-- The offsets the blocks get from `start` on, and where the last one ends. -/
def place : Nat → List LayoutBlock → List Nat × Nat
  | start, [] => ([], start)
  | start, b :: bs =>
    let offset := roundUp start b.alignment
    let rest := place (offset + b.size) bs
    (offset :: rest.1, rest.2)

/-- The offsets are aligned, in order and apart from each other, between `start` and `stop`. -/
def Placed : Nat → List LayoutBlock → List Nat → Nat → Prop
  | start, [], offsets, stop => offsets = [] ∧ start ≤ stop
  | start, b :: bs, offsets, stop =>
    ∃ offset rest, offsets = offset :: rest ∧ start ≤ offset ∧ b.alignment ∣ offset ∧
      Placed (offset + b.size) bs rest stop

variable {bs : List LayoutBlock}

theorem place_placed (hpos : ∀ b ∈ bs, 0 < b.alignment) (start : Nat) :
    Placed start bs (place start bs).1 (place start bs).2 := by
  induction bs generalizing start with
  | nil => exact ⟨rfl, le_refl start⟩
  | cons b bs ih =>
    exact ⟨_, _, rfl, le_roundUp (hpos b mem_cons_self), dvd_roundUp _ _,
      ih (fun c hc => hpos c (.tail _ hc)) _⟩

variable {start stop : Nat} {offsets : List Nat}

/-- No placement in this order ends earlier. -/
theorem place_le (hpos : ∀ b ∈ bs, 0 < b.alignment) {at' : Nat}
    (hstart : start ≤ at') (h : Placed at' bs offsets stop) :
    (place start bs).2 ≤ stop := by
  induction bs generalizing start at' offsets with
  | nil => exact hstart.trans h.2
  | cons b bs ih =>
    obtain ⟨offset, rest, -, hle, hdvd, hrest⟩ := h
    have hnext : roundUp start b.alignment ≤ offset :=
      roundUp_le (hpos b mem_cons_self) (hstart.trans hle) hdvd
    exact ih (fun c hc => hpos c (mem_cons_of_mem _ hc)) (Nat.add_le_add_right hnext _) hrest

section
variable (h : Placed start bs offsets stop)
include h

theorem Placed.le
    : start ≤ stop := by
  induction bs generalizing start offsets with
  | nil => exact h.2
  | cons b bs ih =>
    obtain ⟨offset, rest, -, hle, -, hrest⟩ := h
    have hnext := ih hrest
    omega

theorem Placed.length_eq
    : offsets.length = bs.length := by
  induction bs generalizing start offsets with
  | nil =>
    rw [h.1]
    rfl
  | cons b bs ih =>
    obtain ⟨offset, rest, rfl, -, -, hrest⟩ := h
    rw [length_cons, length_cons, ih hrest]

/-- Every block lies within the bounds, at a multiple of its alignment. -/
theorem Placed.mem_zip
    {b : LayoutBlock} {offset : Nat}
    (hmem : (b, offset) ∈ bs.zip offsets) :
    b.alignment ∣ offset ∧ start ≤ offset ∧ offset + b.size ≤ stop := by
  induction bs generalizing start offsets with
  | nil => cases hmem
  | cons c bs ih =>
    obtain ⟨first, rest, rfl, hle, hdvd, hrest⟩ := h
    rw [zip_cons_cons, mem_cons] at hmem
    rcases hmem with heq | hmem
    · cases heq
      exact ⟨hdvd, hle, hrest.le⟩
    · obtain ⟨hdvd', hle', hstop⟩ := ih hrest hmem
      exact ⟨hdvd', by omega, hstop⟩

end

end Camel.Lib

/-! # Runs Packed in a Buffer

    Several runs of words lie in one buffer, one directly after the other, and
    the words behind the last run are free. A run is read by its start and its
    length. It is grown or shrunk in place by moving the runs after it by one
    word.
-/

namespace Camel.Lib.PackedRuns

open List

variable {α : Type}

/-! ## Reading and Moving Words -/

/-- The `n` words from `start` on. -/
def readAt (words : List α) (start n : Nat) : List α := (words.drop start).take n

/-- Copy `run` over the words from `start` on. -/
def copyAt (words : List α) (start : Nat) (run : List α) : List α :=
  words.take start ++ run ++ words.drop (start + run.length)

/-- Put `x` at `at`, of `total` words in use: those from `at` on move up by one. -/
def insertAt (words : List α) (total at_ : Nat) (x : α) : List α :=
  words.take at_ ++ x :: ((words.drop at_).take (total - at_) ++ words.drop (total + 1))

/-- Take the word at `at` out of the `total` in use: those after it move down by one. -/
def removeAt (words : List α) (total at_ : Nat) : List α :=
  words.take at_ ++ ((words.drop (at_ + 1)).take (total - at_ - 1) ++ words.drop (total - 1))

/-! ## What They Do to Packed Runs -/

theorem readAt_eq (before run behind : List α) :
    readAt (before ++ (run ++ behind)) before.length run.length = run := by
  rw [readAt, drop_left, take_left]

theorem copyAt_eq (before run free : List α) :
    copyAt (before ++ free) before.length run = (before ++ run) ++ free.drop run.length := by
  rw [copyAt, take_left, drop_append, drop_eq_nil_of_le (by omega), nil_append]
  congr 2
  omega

theorem insertAt_eq (before behind free : List α) (x : α) :
    insertAt (before ++ (behind ++ free)) (before.length + behind.length) before.length x =
      before ++ x :: (behind ++ free.drop 1) := by
  have hdrop : (before ++ (behind ++ free)).drop (before.length + behind.length + 1) =
      free.drop 1 := by
    rw [← append_assoc, ← length_append, ← drop_drop, drop_left]
  rw [insertAt, hdrop, take_left, drop_left, Nat.add_sub_cancel_left, take_left]

theorem insertAt_length {words : List α} {total at_ : Nat} (x : α) (h : total < words.length)
    (hat : at_ ≤ total) : (insertAt words total at_ x).length = words.length := by
  simp only [insertAt, length_append, length_cons, length_take, length_drop]
  omega

/-- The word that was last stays behind as a free one. -/
theorem removeAt_eq (before behind free : List α) (x : α) :
    ∃ free', removeAt (before ++ x :: (behind ++ free)) (before.length + 1 + behind.length)
      before.length = before ++ (behind ++ free') := by
  have htake : (before ++ x :: (behind ++ free)).take before.length = before := take_left
  have hdrop : (before ++ x :: (behind ++ free)).drop (before.length + 1) = behind ++ free := by
    rw [← drop_drop, drop_left, drop_one, tail_cons]
  have hlen : before.length + 1 + behind.length - before.length - 1 = behind.length := by omega
  refine ⟨(before ++ x :: (behind ++ free)).drop (before.length + 1 + behind.length - 1), ?_⟩
  rw [removeAt, htake, hdrop, hlen, take_left]

theorem removeAt_length {words : List α} {total at_ : Nat} (h : total ≤ words.length)
    (hat : at_ < total) : (removeAt words total at_).length = words.length := by
  simp only [removeAt, length_append, length_take, length_drop]
  omega

end Camel.Lib.PackedRuns
