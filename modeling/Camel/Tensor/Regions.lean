import Camel.Lib.Upholds
import Camel.Tensor.Reshape

/-! # Regions of a Result

    A kernel computes its result region by region, one for each image or plane of a batch,
    and the batch is split into chunks.
-/

namespace Camel.Tensor

open Lib List

variable {α : Type}

/-! ## Memory -/

/-- Memory for a result. -/
def allocate (shape : List Int64) (blank : α) : Except Refusal (Tensor α) :=
  match createTensor shape blank with
  | .error text => .error (.argument text)
  | .ok t => .ok t

theorem allocate_ok_iff {shape : List Int64} {blank : α} {t : Tensor α} :
    allocate shape blank = .ok t ↔ createTensor shape blank = .ok t := by
  unfold allocate
  cases createTensor shape blank with
  | error text => simp
  | ok u => simp

/-! ## Regions -/

/-- Regions of `width` places, stored one behind the other. -/
def regions (width : Nat) (F : Nat → Nat → α) (ns : List Nat) : List (Nat × α) :=
  ns.flatMap fun n => (List.range width).map fun i => (n * width + i, F n i)

/-- A region of rows. -/
theorem region_rows (n rows cols : Nat) (f : Nat → Nat → α) :
    ((range rows).flatMap fun i => (range cols).map fun j =>
      (n * (rows * cols) + (i * cols + j), f i j)) =
      (range (rows * cols)).map fun p => (n * (rows * cols) + p, f (p / cols) (p % cols)) := by
  have hall := flatMap_rows (fun p => (n * (rows * cols) + p, f (p / cols) (p % cols))) cols 0 rows
  rw [zero_mul, ← range_eq_range', ← range_eq_range'] at hall
  rw [← hall]
  apply flatMap_congr
  intro i _
  apply map_congr_left
  intro j hj
  obtain ⟨hdiv, hmod⟩ := div_mod_place (r := i) (mem_range.1 hj)
  rw [hdiv, hmod]

/-- However the regions are split, they fill the result in order. -/
theorem regions_chunks (width : Nat) (F : Nat → Nat → α) {count : Nat} {chunks : List (Nat × Nat)}
    (h : Splits 0 count chunks) :
    (chunks.flatMap fun chunk => regions width F (range' chunk.1 (chunk.2 - chunk.1))) =
      (range (count * width)).map fun p => (p, F (p / width) (p % width)) := by
  have hall := flatMap_chunks (fun p => (p, F (p / width) (p % width))) width h
  rw [zero_mul, Nat.sub_zero, ← range_eq_range'] at hall
  rw [← hall]
  apply flatMap_congr
  intro chunk _
  rw [← flatMap_rows]
  apply flatMap_congr
  intro n _
  apply map_congr_left
  intro i hi
  obtain ⟨hdiv, hmod⟩ := div_mod_place (r := n) (mem_range.1 hi)
  rw [hdiv, hmod]

/-- A place of a result filled region by region. -/
theorem getElem?_fill_regions {t : Tensor α} {width : Nat} (F : Nat → Nat → α) {count : Nat}
    {chunks : List (Nat × Nat)} (h : Splits 0 count chunks) (hnumel : t.numel = count * width)
    {n i : Nat} (hn : n < count) (hi : i < width) :
    (t.fill (chunks.flatMap fun chunk =>
      regions width F (range' chunk.1 (chunk.2 - chunk.1)))).data[n * width + i]? =
      some (F n i) := by
  have hlt := place_lt hn hi
  obtain ⟨hdiv, hmod⟩ := div_mod_place (r := n) hi
  rw [regions_chunks width F h, ← hnumel, Tensor.fill_range, getElem?_map,
    getElem?_range (by omega), Option.map_some, hdiv, hmod]

end Camel.Tensor
