import Camel.Tensor.GemmRun
import Camel.Lib.RowMajor
import Mathlib

/-! # Chunks of Rows

    A range of rows is split into contiguous chunks, and each row holds as many elements.
    The chunks together pass over the elements once, in order.
-/

open Function

namespace Camel.Lib

open Tensor (Splits)

variable {α : Type}

/-- A place in rows of `width` places. -/
theorem place_lt {rows width r s : Nat} (hr : r < rows) (hs : s < width) :
    r * width + s < rows * width := by
  have hmul : (r + 1) * width ≤ rows * width := Nat.mul_le_mul_right _ hr
  rw [add_mul, one_mul] at hmul
  omega

theorem div_mod_place {width r s : Nat} (hs : s < width) :
    (r * width + s) / width = r ∧ (r * width + s) % width = s := by
  constructor
  · rw [mul_comm, Nat.mul_add_div (by omega), Nat.div_eq_of_lt hs, add_zero]
  · rw [mul_comm, Nat.mul_add_mod, Nat.mod_eq_of_lt hs]

/-- Every place lies in a row. -/
theorem split_place {rows width i : Nat} (h : i < rows * width) :
    ∃ r s, r < rows ∧ s < width ∧ i = r * width + s := by
  have hpos : 0 < width := by
    apply pos_of_ne_zero
    rintro rfl
    exact absurd h (Nat.not_lt_zero i)
  refine ⟨i / width, i % width, (Nat.div_lt_iff_lt_mul hpos).2 h, Nat.mod_lt _ hpos, ?_⟩
  rw [Nat.mul_comm]
  exact (Nat.div_add_mod i width).symm

/-- A list whose elements are known. -/
theorem eq_map_range {l : List α} {n : Nat} {f : Nat → α} (hlen : l.length = n)
    (h : ∀ p < n, l[p]? = some (f p)) : l = (List.range n).map f := by
  apply List.ext_getElem?
  intro p
  by_cases hp : p < n
  · rw [h p hp, List.getElem?_map, List.getElem?_range hp, Option.map_some]
  · rw [List.getElem?_eq_none (by omega), List.getElem?_eq_none]
    rw [List.length_map, List.length_range]
    omega

/-- The elements of consecutive rows of width `w` are consecutive. -/
theorem flatMap_rows (f : Nat → α) (w a k : Nat) :
    ((List.range' a k).flatMap fun row => (List.range w).map fun i => f (row * w + i)) =
      (List.range' (a * w) (k * w)).map f := by
  induction k generalizing a with
  | zero => simp
  | succ k ih =>
    have hrow : ((List.range w).map fun i => f (a * w + i)) = (List.range' (a * w) w).map f := by
      rw [List.range'_eq_map_range, List.map_map]
      rfl
    have hjoin : List.range' (a * w) (w + k * w) =
        List.range' (a * w) w ++ List.range' ((a + 1) * w) (k * w) := by
      rw [add_mul, one_mul]
      exact (List.range'_append_1).symm
    rw [List.range'_succ, List.flatMap_cons, ih, hrow, add_mul k, one_mul,
      add_comm (k * w), hjoin, List.map_append]

/-- Chunks that split the rows from `a` to `b` pass over their elements in order. -/
theorem flatMap_chunks (f : Nat → α) (w : Nat) {a b : Nat} {chunks : List (Nat × Nat)}
    (h : Splits a b chunks) :
    (chunks.flatMap fun c => (List.range' (c.1 * w) ((c.2 - c.1) * w)).map f) =
      (List.range' (a * w) ((b - a) * w)).map f := by
  induction chunks generalizing a with
  | nil =>
    have hab : a = b := h
    simp [hab]
  | cons chunk chunks ih =>
    obtain ⟨start, stop⟩ := chunk
    obtain ⟨rfl, hle, hrest⟩ := h
    have hend := hrest.le
    have hcount : (b - start) * w = (stop - start) * w + (b - stop) * w := by
      rw [← add_mul]
      congr 1
      omega
    have hnext : start * w + (stop - start) * w = stop * w := by
      rw [← add_mul]
      congr 1
      omega
    have hjoin : List.range' (start * w) ((stop - start) * w + (b - stop) * w) =
        List.range' (start * w) ((stop - start) * w) ++
          List.range' (stop * w) ((b - stop) * w) := by
      rw [← hnext]
      exact (List.range'_append_1).symm
    rw [List.flatMap_cons, ih hrest, hcount, hjoin, List.map_append]

/-- A list cut into rows. -/
theorem flatten_rows {rows width : Nat} {l : List α} (h : l.length = rows * width) :
    ((List.range rows).map fun i => (l.drop (i * width)).take width).flatten = l := by
  induction rows generalizing l with
  | zero =>
    rw [zero_mul] at h
    rw [List.length_eq_zero_iff.1 h]
    rfl
  | succ rows ih =>
    have hrest : (l.drop width).length = rows * width := by
      rw [List.length_drop, h, Nat.succ_mul, Nat.add_sub_cancel]
    have htail : ((List.range rows).map fun i => (l.drop ((i + 1) * width)).take width) =
        (List.range rows).map fun i => ((l.drop width).drop (i * width)).take width := by
      apply List.map_congr_left
      intro i _
      rw [List.drop_drop, Nat.succ_mul, add_comm]
    rw [List.range_succ_eq_map, List.map_cons, List.map_map, List.flatten_cons, zero_mul,
      List.drop_zero]
    show l.take width ++ ((List.range rows).map fun i =>
      (l.drop ((i + 1) * width)).take width).flatten = l
    rw [htail, ih hrest, List.take_append_drop]

/-- The chunks of all rows stop at the last row. -/
theorem le_of_splits {a b : Nat} {chunks : List (Nat × Nat)} (h : Splits a b chunks) :
    ∀ c ∈ chunks, c.2 ≤ b := by
  induction chunks generalizing a with
  | nil => simp
  | cons chunk chunks ih =>
    intro c hc
    rcases List.mem_cons.1 hc with rfl | hc
    · exact h.2.2.le
    · exact ih h.2.2 c hc

end Camel.Lib

/-! # Stores into Memory

    A kernel that walks nested loops stores elements one after another, or adds to what is
    there. What a place holds afterwards follows from the stores that name it; what a sum
    over all places holds follows from all of them.
-/

namespace Camel.Lib

open Finset

variable {R : Type}

/-! ## Stores -/

/-- Stores, one after another. -/
def storeAll (m : Nat → R) (stores : List (Nat × R)) : Nat → R :=
  stores.foldl (fun m w => update m w.1 w.2) m

theorem storeAll_of_not_mem {m : Nat → R} {stores : List (Nat × R)} {a : Nat}
    (h : ∀ w ∈ stores, w.1 ≠ a) : storeAll m stores a = m a := by
  induction stores generalizing m with
  | nil => rfl
  | cons w stores ih =>
    have htail := ih (m := update m w.1 w.2) fun x hx => h x (List.mem_cons_of_mem _ hx)
    show storeAll (update m w.1 w.2) stores a = m a
    rw [htail]
    exact update_of_ne (Ne.symm (h w List.mem_cons_self)) _ _

/-- A place holds the value all stores to it agree on. -/
theorem storeAll_of_mem {m : Nat → R} {stores : List (Nat × R)} {a : Nat} {v : R}
    (hmem : (a, v) ∈ stores) (h : ∀ w ∈ stores, w.1 = a → w.2 = v) : storeAll m stores a = v := by
  induction stores generalizing m with
  | nil => cases hmem
  | cons w stores ih =>
    show storeAll (update m w.1 w.2) stores a = v
    by_cases hlater : ∃ x ∈ stores, x.1 = a
    · obtain ⟨x, hx, hxa⟩ := hlater
      have hxv := h x (List.mem_cons_of_mem _ hx) hxa
      apply ih
      · rw [← hxa, ← hxv]
        exact hx
      · exact fun y hy => h y (List.mem_cons_of_mem _ hy)
    · push Not at hlater
      rw [storeAll_of_not_mem hlater]
      rcases List.mem_cons.1 hmem with heq | hin
      · rw [← heq]
        exact update_self _ _ _
      · exact absurd rfl (hlater _ hin)

/-! ## Sums -/

section Sums

variable [AddCommMonoid R]

/-- Additions, one after another. -/
def addAll (m : Nat → R) (adds : List (Nat × R)) : Nat → R :=
  adds.foldl (fun m w => update m w.1 (m w.1 + w.2)) m

/-- A place gains what is added to it. -/
theorem addAll_apply (m : Nat → R) (adds : List (Nat × R)) (a : Nat) :
    addAll m adds a = m a + (adds.map fun w => if w.1 = a then w.2 else 0).sum := by
  induction adds generalizing m with
  | nil => simp [addAll]
  | cons w adds ih =>
    show addAll (update m w.1 (m w.1 + w.2)) adds a = _
    rw [ih, List.map_cons, List.sum_cons, ← add_assoc]
    congr 1
    by_cases ha : w.1 = a
    · rw [if_pos ha, ← ha, update_self]
    · rw [if_neg ha, update_of_ne (Ne.symm ha), add_zero]

/-- A sum over rows of equal width. -/
theorem sum_range_mul (a b : Nat) (f : Nat → R) :
    ∑ k ∈ range (a * b), f k = ∑ i ∈ range a, ∑ j ∈ range b, f (i * b + j) := by
  induction a with
  | zero => simp
  | succ a ih => rw [Nat.succ_mul, sum_range_add, ih, sum_range_succ]

/-- What nested loops sum up. -/
theorem sum_map_flatMap_range {β : Type} (n : Nat) (f : Nat → List β) (g : β → R) :
    (((List.range n).flatMap f).map g).sum = ∑ i ∈ range n, ((f i).map g).sum := by
  induction n with
  | zero => simp
  | succ n ih =>
    rw [List.range_succ, List.flatMap_append, List.map_append, List.sum_append, ih, sum_range_succ,
      List.flatMap_singleton]

/-- The sum of a list whose elements are known. -/
theorem sum_of_getElem? {l : List R} {n : Nat} {f : Nat → R} (hlen : l.length = n)
    (h : ∀ p < n, l[p]? = some (f p)) : l.sum = ∑ p ∈ range n, f p := by
  rw [eq_map_range hlen h]
  clear h hlen
  induction n with
  | zero => rfl
  | succ n ih => rw [List.range_succ, List.map_append, List.sum_append, ih, sum_range_succ,
      List.map_singleton, List.sum_singleton]

end Sums

section Inner

variable [CommRing R]

/-- Weighed with `x`, memory gains what is added. -/
theorem inner_addAll (x m : Nat → R) {adds : List (Nat × R)} {n : Nat}
    (h : ∀ w ∈ adds, w.1 < n) :
    ∑ a ∈ range n, x a * addAll m adds a =
      ∑ a ∈ range n, x a * m a + (adds.map fun w => x w.1 * w.2).sum := by
  induction adds generalizing m with
  | nil => simp [addAll]
  | cons w adds ih =>
    have hw : w.1 ∈ range n := mem_range.2 (h w List.mem_cons_self)
    have hstep : ∑ a ∈ range n, x a * update m w.1 (m w.1 + w.2) a =
        ∑ a ∈ range n, x a * m a + x w.1 * w.2 := by
      have hterm : ∀ a ∈ range n, x a * update m w.1 (m w.1 + w.2) a =
          x a * m a + if a = w.1 then x w.1 * w.2 else 0 := by
        intro a _
        by_cases ha : a = w.1
        · rw [ha, update_self, if_pos rfl, mul_add]
        · rw [update_of_ne ha, if_neg ha, add_zero]
      rw [sum_congr rfl hterm, sum_add_distrib, sum_ite_eq' , if_pos hw]
    show ∑ a ∈ range n, x a * addAll (update m w.1 (m w.1 + w.2)) adds a = _
    rw [ih _ fun y hy => h y (List.mem_cons_of_mem _ hy), hstep, List.map_cons, List.sum_cons,
      add_assoc]

end Inner

end Camel.Lib
