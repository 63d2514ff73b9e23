import Camel.Lib.Memory

/-! # Broadcasting Plans

    The operands of an elementwise kernel are walked together. A plan holds the shape of
    the result and an iteration space in which neighbouring axes are merged wherever every
    operand stays linear across them; the rows of the space are walked by an odometer that
    carries an offset for each operand.
-/

namespace Camel.Tensor.Broadcast

open Camel.Lib List

/-! ## The Plan -/

/-- A shape with leading axes of extent one. -/
def padded (rank : Nat) (shape : List Nat) : List Nat :=
  List.replicate (rank - shape.length) 1 ++ shape

variable {n : Nat}

variable (shapes : Fin n → List Nat)

/-- The rank of the result. -/
def rankOf : Nat :=
  (List.ofFn shapes).foldl (fun rank shape => max rank shape.length) 0

/-- An extent of the result, joined with one of an operand. -/
def joinExtent (out cand : Nat) : Option Nat :=
  if cand = out ∨ cand = 1 then some out else if out ≠ 1 then none else some cand

def joinShape : List Nat → List Nat → Option (List Nat)
  | out :: outs, cand :: cands => do
    let head ← joinExtent out cand
    let tail ← joinShape outs cands
    some (head :: tail)
  | outs, _ => some outs

/-- The shape of the result; `none` where two extents do not join. -/
def outShapeOf : Option (List Nat) :=
  (List.ofFn shapes).foldlM (fun out shape => joinShape out (padded (rankOf shapes) shape))
    (List.replicate (rankOf shapes) 1)

def extentsText (shape : List Nat) : String := ", ".intercalate (shape.map toString) ++ "]"

/-- The text of a rejection. -/
def rejection : String :=
  "cannot broadcast [" ++ " with [".intercalate ((List.ofFn shapes).map extentsText)

/-- The strides of an operand, zero on the axes it is broadcast along. -/
def operandStrides : List Nat → List Int
  | [] => []
  | extent :: shape => (if extent = 1 then 0 else (shape.prod : Int)) :: operandStrides shape

/-- An axis of an iteration space: its extent and the stride of each operand. -/
abbrev Axis (n : Nat) := Nat × (Fin n → Int)

/-- An axis joins the one before it when every operand stays linear across both. -/
def mergeAxis (merged : List (Axis n)) (axis : Axis n) : List (Axis n) :=
  if axis.1 = 1 then merged
  else
    match merged.getLast? with
    | some inner =>
      if ∀ op, inner.2 op = axis.2 op * axis.1 then
        merged.dropLast ++ [(inner.1 * axis.1, axis.2)]
      else merged ++ [axis]
    | none => merged ++ [axis]

/-- The axes of the result with the strides of every operand. -/
def axesOf (outShape : List Nat) : List (Axis n) :=
  (List.range outShape.length).map fun d =>
    (outShape.getD d 1, fun op => (operandStrides (padded outShape.length (shapes op))).getD d 0)

structure BroadcastPlan (n : Nat) where
  outShape : List Nat
  /-- The merged iteration space. -/
  axes : List (Axis n)

variable (plan : BroadcastPlan n)

/-- `numelOf`, in 64 bits. -/
def BroadcastPlan.numel : Nat := plan.outShape.prod % 2 ^ 64

def BroadcastPlan.innerExtent : Nat :=
  (plan.axes.getLast?.map (·.1)).getD 1

def BroadcastPlan.innerStrides : Fin n → Int :=
  (plan.axes.getLast?.map (·.2)).getD 0

/-- The extents of the outer axes. -/
def BroadcastPlan.outerExtents : List Nat :=
  plan.axes.dropLast.map (·.1)

def BroadcastPlan.outerStrides : List (Fin n → Int) :=
  plan.axes.dropLast.map (·.2)

def BroadcastPlan.outerCount : Nat := plan.outerExtents.prod

def makePlan : Except String (BroadcastPlan n) :=
  match outShapeOf shapes with
  | none => .error (rejection shapes)
  | some outShape => .ok ⟨outShape, (axesOf shapes outShape).foldl mergeAxis []⟩

/-! ## The Walk -/

/-- What a kernel is handed for a row: the offset of each operand at its first element, the
    place of that element in the result, how many elements it has and the strides. -/
structure Row (n : Nat) where
  offsets : Fin n → Int
  outBase : Nat
  count : Nat
  strides : Fin n → Int

/-- The elements of a row: the place in the result and the offset of each operand. -/
def Row.elements (row : Row n) : List (Nat × (Fin n → Int)) :=
  (List.range row.count).map fun i => (row.outBase + i, row.offsets + i • row.strides)

/-- `forEachRow` over the outer rows from `start` to `stop`. -/
def forEachRow (start stop : Nat) : List (Row n) :=
  let index := (decode plan.outerExtents start).1
  let offsets := dot plan.outerStrides index
  List.zipWith
    (fun row offsets => ⟨offsets, row * plan.innerExtent, plan.innerExtent, plan.innerStrides⟩)
    (List.range' start (stop - start))
    (walkRows plan.outerExtents plan.outerStrides (stop - start) ⟨index, offsets⟩)

/-- `forEachRow` over the chunks the worker pool makes of the rows. -/
def forChunks (chunks : List (Nat × Nat)) : List (Row n) :=
  chunks.flatMap fun chunk => forEachRow plan chunk.1 chunk.2

/-- `runPlan` -/
def runPlan (chunks : List (Nat × Nat)) : List (Row n) :=
  if plan.numel = 0 then [] else forChunks plan chunks

end Camel.Tensor.Broadcast

/-! # The Rows of a Plan

    Merging axes keeps the offset of every point, the odometer hands each row the offsets
    of its first point, and chunks of rows pass over all points of the result.
-/

namespace Camel.Tensor.Broadcast

open Camel.Lib List

variable {n : Nat}

/-! ## Merging -/

/-- Where two axes merge the outer strides span the inner axis. -/
theorem mergeable_iff {inner axis : Axis n} :
    (∀ op, inner.2 op = axis.2 op * axis.1) ↔ inner.2 = axis.1 • axis.2 := by
  rw [funext_iff]
  apply forall_congr'
  intro op
  rw [Pi.smul_apply, nsmul_eq_mul, mul_comm]

theorem mergeAxis_cases (merged : List (Axis n)) (axis : Axis n) :
    (axis.1 = 1 ∧ mergeAxis merged axis = merged) ∨
      (∃ front e, merged = front ++ [(e, axis.1 • axis.2)] ∧
        mergeAxis merged axis = front ++ [(e * axis.1, axis.2)]) ∨
      mergeAxis merged axis = merged ++ [axis] := by
  unfold mergeAxis
  by_cases hone : axis.1 = 1
  · exact .inl ⟨hone, if_pos hone⟩
  rw [if_neg hone]
  cases hlast : merged.getLast? with
  | none => exact .inr (.inr rfl)
  | some inner =>
    simp only
    by_cases hmerge : ∀ op, inner.2 op = axis.2 op * axis.1
    · rw [if_pos hmerge]
      have hfront : merged = merged.dropLast ++ [inner] :=
        (dropLast_append_getLast? inner hlast).symm
      refine .inr (.inl ⟨merged.dropLast, inner.1, ?_, rfl⟩)
      rw [← mergeable_iff.1 hmerge]
      exact hfront
    · rw [if_neg hmerge]
      exact .inr (.inr rfl)

theorem offsetAt_mergeAxis (merged rest : List (Axis n)) (axis : Axis n) (p : Nat) :
    offsetAt (mergeAxis merged axis ++ rest) p = offsetAt (merged ++ axis :: rest) p := by
  obtain ⟨e', s⟩ := axis
  rcases mergeAxis_cases merged (e', s) with ⟨hone, h⟩ | ⟨front, e, hfront, h⟩ | h
  · simp only at hone
    rw [h, hone, offsetAt_unit]
  · rw [h, hfront, append_assoc, append_assoc]
    exact (offsetAt_merge front rest e e' s p).symm
  · rw [h, append_assoc]
    rfl

theorem prod_mergeAxis (merged : List (Axis n)) (axis : Axis n) :
    ((mergeAxis merged axis).map (·.1)).prod = (merged.map (·.1)).prod * axis.1 := by
  rcases mergeAxis_cases merged axis with ⟨hone, h⟩ | ⟨front, e, hfront, h⟩ | h
  · rw [h, hone, mul_one]
  · rw [h, hfront]
    simp [mul_assoc]
  · rw [h]
    simp

/-- The merged axes number the same points and give each the same offsets. -/
theorem merged_spec (axes merged : List (Axis n)) :
    (∀ p, offsetAt (axes.foldl mergeAxis merged) p = offsetAt (merged ++ axes) p) ∧
      ((axes.foldl mergeAxis merged).map (·.1)).prod =
        (merged.map (·.1)).prod * (axes.map (·.1)).prod := by
  induction axes generalizing merged with
  | nil => simp
  | cons axis axes ih =>
    obtain ⟨hoffset, hprod⟩ := ih (mergeAxis merged axis)
    constructor
    · intro p
      rw [foldl_cons, hoffset, offsetAt_mergeAxis]
    · rw [foldl_cons, hprod, prod_mergeAxis, map_cons, prod_cons, mul_assoc]

/-! ## Rows -/

section
variable (plan : BroadcastPlan n)
include plan

/-- The axes of a plan are its outer axes and the innermost one. -/
theorem axes_cases :
    (plan.axes = [] ∧ plan.outerExtents = [] ∧ plan.innerExtent = 1) ∨
      (plan.axes = plan.axes.dropLast ++ [(plan.innerExtent, plan.innerStrides)]) := by
  unfold BroadcastPlan.innerExtent BroadcastPlan.innerStrides BroadcastPlan.outerExtents
  cases hlast : plan.axes.getLast? with
  | none =>
    have hnil := getLast?_eq_none_iff.1 hlast
    exact .inl ⟨hnil, by rw [hnil]; rfl, rfl⟩
  | some inner => exact .inr (dropLast_append_getLast? inner hlast).symm

/-- The points of a row follow its first point along the innermost axis. -/
theorem offsetAt_row (row : Nat) {i : Nat} (hi : i < plan.innerExtent) :
    offsetAt plan.axes (row * plan.innerExtent + i) =
      dot plan.outerStrides (coordsOf plan.outerExtents row) + i • plan.innerStrides := by
  rcases axes_cases plan with ⟨hnil, -, hone⟩ | haxes
  · have hzero : i = 0 := by omega
    simp [BroadcastPlan.outerStrides, hnil, hzero]
  · obtain ⟨hrow, hat⟩ := div_mod_place (r := row) hi
    conv_lhs => rw [haxes]
    rw [offsetAt_append, offsetAt_cons]
    simp only [map_cons, map_nil, prod_cons, prod_nil, mul_one,
      Nat.div_one, hrow, hat, offsetAt_nil, add_zero]
    rfl

theorem outerCount_mul :
    plan.outerCount * plan.innerExtent = (plan.axes.map (·.1)).prod := by
  unfold BroadcastPlan.outerCount
  rcases axes_cases plan with ⟨hnil, houter, hone⟩ | haxes
  · rw [houter, hone, hnil]
    rfl
  · conv_rhs => rw [haxes]
    simp [BroadcastPlan.outerExtents]

/-- The rows of a chunk, each decoded on its own. -/
theorem forEachRow_eq {start stop : Nat} (h : stop ≤ plan.outerCount) :
    forEachRow plan start stop = (range' start (stop - start)).map fun row =>
      ⟨dot plan.outerStrides (coordsOf plan.outerExtents row), row * plan.innerExtent,
        plan.innerExtent, plan.innerStrides⟩ := by
  unfold forEachRow
  rw [decode_eq]
  by_cases hrows : start < stop
  · have hpos : ∀ e ∈ plan.outerExtents, 0 < e := by
      intro e he
      apply pos_of_ne_zero
      rintro rfl
      have hzero : plan.outerCount = 0 := prod_eq_zero he
      omega
    have hlen : plan.outerStrides.length = plan.outerExtents.length := by
      simp [BroadcastPlan.outerStrides, BroadcastPlan.outerExtents]
    simp only [walkRows_spec hlen hpos]
    rw [zipWith_map_right, zipWith_self]
  · have hnone : stop - start = 0 := by omega
    simp [hnone]

theorem elements_forEachRow {start stop : Nat}
    (h : stop ≤ plan.outerCount) :
    (forEachRow plan start stop).flatMap Row.elements =
      (range' (start * plan.innerExtent) ((stop - start) * plan.innerExtent)).map
        fun p => (p, offsetAt plan.axes p) := by
  rw [forEachRow_eq plan h, flatMap_map, ← flatMap_rows]
  apply flatMap_congr
  intro row _
  apply map_congr_left
  intro i hi
  rw [offsetAt_row plan row (mem_range.1 hi)]

/-- Every split of the rows passes over all points in order. -/
theorem elements_forChunks {chunks : List (Nat × Nat)}
    (h : Splits 0 plan.outerCount chunks) :
    (forChunks plan chunks).flatMap Row.elements =
      (range (plan.axes.map (·.1)).prod).map fun p => (p, offsetAt plan.axes p) := by
  have hall := flatMap_chunks (fun p => (p, offsetAt plan.axes p)) plan.innerExtent h
  rw [zero_mul, Nat.sub_zero, outerCount_mul, ← range_eq_range'] at hall
  rw [← hall]
  unfold forChunks
  rw [flatMap_assoc]
  apply flatMap_congr
  intro chunk hchunk
  exact elements_forEachRow plan (le_of_splits h chunk hchunk)

end

end Camel.Tensor.Broadcast
