import Mathlib

/-! # Affine Forms and Row-Major Places

    The sum of coefficients times coordinates, and how it takes sums and multiples of the
    coefficients; the place of a point in row-major order, for any extents. Both are over any
    commutative ring.
-/

namespace Camel.Lib

open List

variable {R : Type*} [CommRing R]

/-- The sum of each coefficient times its coordinate. -/
def weighted : List R → List R → R
  | a :: as, x :: xs => a * x + weighted as xs
  | _, _ => 0

/-- The row-major place of a point: each coordinate counts as many elements as the axes behind it
    have together. -/
def rowMajorPlace : List R → List R → R
  | _ :: es, c :: cs => c * es.prod + rowMajorPlace es cs
  | _, _ => 0

theorem weighted_cons (a x : R) (as xs : List R) :
    weighted (a :: as) (x :: xs) = a * x + weighted as xs := rfl

theorem weighted_zeros (n : Nat) (xs : List R) : weighted (replicate n 0) xs = 0 := by
  induction n generalizing xs with
  | zero => rfl
  | succ n ih =>
    cases xs with
    | nil => rfl
    | cons x xs => rw [replicate_succ, weighted_cons, ih, zero_mul, add_zero]

/-- A single coefficient of one takes its coordinate. -/
theorem weighted_one {n d : Nat} {xs : List R} {x : R} (hd : d < n) (hx : xs[d]? = some x) :
    weighted ((replicate n 0).set d 1) xs = x := by
  induction n generalizing d xs with
  | zero => exact absurd hd (Nat.not_lt_zero d)
  | succ n ih =>
    cases xs with
    | nil => cases hx
    | cons y xs =>
      rw [replicate_succ]
      cases d with
      | zero =>
        cases hx
        rw [set_cons_zero, weighted_cons, weighted_zeros, one_mul, add_zero]
      | succ d =>
        rw [getElem?_cons_succ] at hx
        rw [set_cons_succ, weighted_cons, ih (Nat.lt_of_succ_lt_succ hd) hx, zero_mul, zero_add]

theorem weighted_add {as bs xs : List R} (h : as.length = bs.length) :
    weighted (zipWith (· + ·) as bs) xs = weighted as xs + weighted bs xs := by
  induction as generalizing bs xs with
  | nil =>
    cases bs with
    | nil => exact (add_zero _).symm
    | cons b bs => cases h
  | cons a as ih =>
    cases bs with
    | nil => cases h
    | cons b bs =>
      cases xs with
      | nil => exact (add_zero _).symm
      | cons x xs =>
        rw [zipWith_cons_cons, weighted_cons, weighted_cons, weighted_cons, ih (Nat.succ.inj h)]
        ring

theorem weighted_scale (k : R) (as xs : List R) :
    weighted (as.map (k * ·)) xs = k * weighted as xs := by
  induction as generalizing xs with
  | nil => exact (mul_zero k).symm
  | cons a as ih =>
    cases xs with
    | nil => exact (mul_zero k).symm
    | cons x xs =>
      rw [map_cons, weighted_cons, weighted_cons, ih]
      ring

end Camel.Lib
