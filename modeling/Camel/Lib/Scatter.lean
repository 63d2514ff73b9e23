import Mathlib

/-! # Gathering and Scattering

    A map of places `at` gathers from a list the elements it names, and scatters values
    back to the places they came from: one after another, each added to what its place
    holds. The two are adjoint for the inner product.
-/

namespace Camel.Lib

open Finset

variable {R : Type}

/-- The values, one after another, written to their places. -/
def scatterSet (place : Nat → Nat) (values : Nat → R) (count : Nat) (base : List R) : List R :=
  (List.range count).foldl (fun held i => held.set (place i) (values i)) base

/-- The values, one after another, added at their places. -/
def scatterAdd [Zero R] [Add R] (place : Nat → Nat) (values : Nat → R) (count : Nat)
    (base : List R) : List R :=
  (List.range count).foldl
    (fun held i => held.set (place i) (held.getD (place i) 0 + values i)) base

variable {place : Nat → Nat} {values : Nat → R} {count : Nat} {base : List R}

theorem scatterSet_succ : scatterSet place values (count + 1) base =
    (scatterSet place values count base).set (place count) (values count) := by
  rw [scatterSet, List.range_succ, List.foldl_append]
  rfl

@[simp] theorem length_scatterSet :
    (scatterSet place values count base).length = base.length := by
  induction count with
  | zero => rfl
  | succ n ih => rw [scatterSet_succ, List.length_set, ih]

variable [CommRing R]

theorem scatterAdd_succ : scatterAdd place values (count + 1) base =
    (scatterAdd place values count base).set (place count)
      ((scatterAdd place values count base).getD (place count) 0 + values count) := by
  rw [scatterAdd, List.range_succ, List.foldl_append]
  rfl

@[simp] theorem length_scatterAdd :
    (scatterAdd place values count base).length = base.length := by
  induction count with
  | zero => rfl
  | succ n ih => rw [scatterAdd_succ, List.length_set, ih]

theorem getD_set {l : List R} {k j : Nat} {v : R} (hk : k < l.length) :
    (l.set k v).getD j 0 = if k = j then v else l.getD j 0 := by
  rw [List.getD_eq_getElem?_getD, List.getElem?_set, List.getD_eq_getElem?_getD]
  by_cases h : k = j
  · rw [if_pos h, if_pos hk, if_pos h]
    rfl
  · rw [if_neg h, if_neg h]

/-- A place holds what it held, and every value that was added there. -/
theorem getD_scatterAdd (h : ∀ i < count, place i < base.length) (j : Nat) :
    (scatterAdd place values count base).getD j 0 =
      base.getD j 0 + ∑ i ∈ range count, if place i = j then values i else 0 := by
  induction count with
  | zero => simp [scatterAdd]
  | succ n ih =>
    have ih' := ih fun i hi => h i (Nat.lt_succ_of_lt hi)
    have hlt : place n < (scatterAdd place values n base).length := by
      rw [length_scatterAdd]
      exact h n (lt_add_one n)
    rw [scatterAdd_succ, getD_set hlt, sum_range_succ]
    by_cases hj : place n = j
    · rw [if_pos hj, if_pos hj, hj, ih']
      ring
    · rw [if_neg hj, if_neg hj, ih', add_zero]

/-- Written to places that are all different and hold zero, values are added. -/
theorem getD_scatterSet (h : ∀ i < count, place i < base.length)
    (hinj : ∀ i j, i < count → j < count → place i = place j → i = j) (j : Nat)
    (hzero : ∀ k, base.getD k 0 = 0) :
    (scatterSet place values count base).getD j 0 =
      ∑ i ∈ range count, if place i = j then values i else 0 := by
  induction count with
  | zero => exact hzero j
  | succ n ih =>
    have ih' := ih (fun i hi => h i (Nat.lt_succ_of_lt hi))
      (fun a b ha hb => hinj a b (Nat.lt_succ_of_lt ha) (Nat.lt_succ_of_lt hb))
    have hlt : place n < (scatterSet place values n base).length := by
      rw [length_scatterSet]
      exact h n (lt_add_one n)
    rw [scatterSet_succ, getD_set hlt, sum_range_succ]
    by_cases hj : place n = j
    · -- no value before was written to this place
      have hnone : (∑ i ∈ range n, if place i = j then values i else 0) = 0 := by
        apply sum_eq_zero
        intro i hi
        rw [mem_range] at hi
        apply if_neg
        intro hi'
        have hsame := hinj i n (Nat.lt_succ_of_lt hi) (lt_add_one n) (hi'.trans hj.symm)
        omega
      rw [if_pos hj, if_pos hj, hnone, zero_add]
    · rw [if_neg hj, if_neg hj, ih', add_zero]

/-- Scattering is the adjoint of gathering. -/
theorem inner_scatter (x : Nat → R) {n : Nat} (h : ∀ i < count, place i < n) :
    ∑ j ∈ range n, (∑ i ∈ range count, if place i = j then values i else 0) * x j =
      ∑ i ∈ range count, values i * x (place i) := by
  have hterm : ∀ j ∈ range n, (∑ i ∈ range count, if place i = j then values i else 0) * x j =
      ∑ i ∈ range count, if place i = j then values i * x j else 0 := by
    intro j _
    rw [sum_mul]
    apply sum_congr rfl
    intro i _
    rw [ite_mul, zero_mul]
  rw [sum_congr rfl hterm, sum_comm]
  apply sum_congr rfl
  intro i hi
  rw [sum_ite_eq, if_pos (mem_range.mpr (h i (mem_range.mp hi)))]

end Camel.Lib
