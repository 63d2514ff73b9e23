import Camel.Index.Slice
import Camel.Lib.RowMajor

/-! # Taking Positions Along an Axis

    A slice, an index and an index list each take positions of an array along one axis
    and leave every other coordinate as it is. A slice of the first axis by one shares
    the storage; everything else is copied element by element, each from the flat index
    that the coordinates of the result name in the parent. The arithmetic on
    coordinates is that of elements the arrays have, so it stays in 64 bits.
-/

namespace Camel.Index

open Lib Extents List

/-! ## Arrays -/

/-- The lengths of the dimensions. -/
def dimsOf (extents : List Int64) : List Nat := extents.map fun e => e.toInt.toNat

theorem prod_dimsOf (extents : List Int64) : (dimsOf extents).prod = numel extents := rfl

/-- An array: its elements lie in a block, from an offset on. A compact array can be viewed. -/
structure Arr (α : Type) where
  compact : Bool
  extents : List Int64
  block : List α
  offset : Nat
  counted : ∃ n, checkedNumel extents = .ok n
  held : offset + numel extents ≤ block.length

namespace Arr

variable {α : Type}

variable (a : Arr α)

def rank : Nat := a.extents.length

def dims : List Nat := dimsOf a.extents

def numel (a : Arr α) : Nat := Extents.numel a.extents

def dim (axis : Nat) : Int64 := a.extents.getD axis 0

theorem nonneg : NonNeg a.extents := by
  obtain ⟨n, hn⟩ := a.counted
  exact (checkedNumel_ok hn).1

theorem small : a.numel < 2 ^ 64 := by
  obtain ⟨n, hn⟩ := a.counted
  unfold numel
  rw [← (checkedNumel_ok hn).2]
  exact n.toNat_lt

/-- The first dimension's elements are rows of the remaining dimensions. -/
theorem numel_tail {a : Arr α} (h : 0 < a.dims.headD 0) :
    a.numel / a.dims.headD 0 = Extents.numel a.extents.tail := by
  unfold numel dims dimsOf at *
  cases hes : a.extents with
  | nil =>
    rw [hes] at h
    cases h
  | cons e es =>
    rw [hes] at h
    rw [numel_cons]
    exact Nat.mul_div_cancel_left _ h

theorem counted_tail {a : Arr α} (h : 0 < a.dims.headD 0) :
    ∃ n, checkedNumel a.extents.tail = .ok n := by
  have hcounted := a.counted
  unfold dims dimsOf at h
  cases hes : a.extents with
  | nil =>
    rw [hes] at h
    cases h
  | cons e es =>
    rw [hes] at h hcounted
    have hpos : 0 < e.toInt := by
      have hhead : 0 < e.toInt.toNat := h
      omega
    exact checkedNumel_tail hpos hcounted

variable [Inhabited α]

/-- `getSlot`: the element at a flat index. -/
def get (i : Nat) : α := a.block.getD (a.offset + i) default

/-- The element at the coordinates `cs`. -/
def at' (cs : List Nat) : α := a.get (flatOf a.dims cs)

/-- The elements in the order of their flat indices. -/
def elements : List α := (List.range a.numel).map a.get

/-- `Array::view` -/
def view (source : Arr α) (extents : List Int64) (elementOffset : Nat) : Except Fault (Arr α) :=
  match h : checkedNumel extents with
  | .error what => .error (.refused what)
  | .ok elements =>
    if hin : elementOffset ≤ source.numel ∧ elements.toNat ≤ source.numel - elementOffset then
      .ok { compact := source.compact, extents := extents, block := source.block,
            offset := source.offset + elementOffset,
            counted := ⟨elements, h⟩
            held := by
              have hheld := source.held
              rw [← (checkedNumel_ok h).2]
              unfold numel at hin
              omega }
    else .error (.refused "Array view must stay within its source")

/-- A new array of these extents whose element `i` a loop sets to `value i`. -/
def tabulate (compact : Bool) (extents : List Int64) (value : Nat → α) : Except Fault (Arr α) :=
  match h : checkedNumel extents with
  | .error what => .error (.refused what)
  | .ok elements =>
    .ok { compact := compact, extents := extents,
          block := (List.range (Extents.numel extents)).map value, offset := 0,
          counted := ⟨elements, h⟩
          held := by simp }

/-- `Array::firstDimensionElement` of a rank above one: the row, shared or copied. -/
def firstDimensionElement (index : Nat) : Except Fault (Arr α) :=
  if h : a.dims.headD 0 ≤ index then
    .error (.refused "The first dimension of an array has no such element")
  else
    let row := a.numel / a.dims.headD 0
    let start := index * row
    if a.compact then a.view a.extents.tail start
    else
      .ok { compact := false, extents := a.extents.tail,
            block := (List.range row).map fun i => a.get (start + i), offset := 0,
            counted := counted_tail (by omega)
            held := by
              have hrow := numel_tail (a := a) (by omega)
              rw [List.length_map, List.length_range]
              show 0 + _ ≤ a.numel / a.dims.headD 0
              omega }

end Arr

/-! ## Flat Indices of the Parent -/

/-- `rowMajorStrides` -/
def rowMajorStrides : List Nat → List Nat
  | [] => []
  | [_] => [1]
  | _ :: e :: es => ((rowMajorStrides (e :: es)).headD 1 * e) :: rowMajorStrides (e :: es)

/-- The loop of `parentIndexOfSlice` and `parentIndexOfTake`, from the last dimension to the
    first: what is left of the flat index, and the index in the parent so far. The coordinate on
    the axis stands for the position `position` gives. -/
def parentIndexFrom (axis : Nat) (position : Nat → Int) (flat : Nat) :
    Nat → List Nat → List Nat → Nat × Int
  | k, extent :: extents, stride :: strides =>
    let after := parentIndexFrom axis position flat (k + 1) extents strides
    let coord := if extent ≠ 0 then after.1 % extent else 0
    (if extent ≠ 0 then after.1 / extent else after.1,
      after.2 + (if k = axis then position coord else (coord : Int)) * stride)
  | _, _, _ => (flat, 0)

/-- `parentIndexOfSlice` -/
def parentIndexOfSlice (flat : Nat) (sliceExtents parentStrides : List Nat) (axis : Nat)
    (range : SliceRange) : Nat :=
  (parentIndexFrom axis (fun coord => range.start.toInt + coord * range.step.toInt) flat 0
    sliceExtents parentStrides).2.toNat

/-- `parentIndexOfTake` -/
def parentIndexOfTake (flat : Nat) (resultExtents parentStrides : List Nat) (axis : Nat)
    (positions : List Int64) : Nat :=
  (parentIndexFrom axis (fun coord => (positions.getD coord 0).toInt) flat 0
    resultExtents parentStrides).2.toNat

/-! ## The Reads -/

variable {α : Type} [Inhabited α]

/-- `sliceAxis` and `indexAxis`, which name what is out of range. -/
def readAxis (what : String) (rank : Nat) (axisArg : Int64) : Except Fault Nat :=
  let axis := if axisArg < 0 then axisArg + Int64.ofNat rank else axisArg
  let last := Int64.ofNat rank - 1
  if axis < 0 ∨ Int64.ofNat rank ≤ axis then
    .error (.invalidArgument "[]"
      (what ++ s!" axis must be between 0 and {last}, not {axisArg}"))
  else .ok axis.toInt.toNat

variable (a : Arr α)

def sliceAxis (axisArg : Int64) : Except Fault Nat := readAxis "a slice" a.rank axisArg

def indexAxis (axisArg : Int64) : Except Fault Nat := readAxis "an index" a.rank axisArg

def slicedExtents (axis : Nat) (range : SliceRange) : List Int64 :=
  a.extents.set axis range.count

/-- `__slice_sub__`; the step and the mask are 1 and 3 in a call that leaves them out. -/
def sliceSub (axisArg startRaw endRaw : Int64) (step written : Option Int64) :
    Except Fault (Arr α) := do
  let axis ← sliceAxis a axisArg
  let range ← sliceRange (a.dim axis) startRaw endRaw (step.getD 1) (written.getD 3) "an array"
  let extents := slicedExtents a axis range
  if axis = 0 ∧ range.step = 1 ∧ a.compact then
    -- the elements along the first axis are one run of the block
    a.view extents (range.start * (fillStrides a.extents).headD 0).toUInt64.toNat
  else
    Arr.tabulate a.compact extents fun i =>
      a.get (parentIndexOfSlice i (dimsOf extents) (rowMajorStrides a.dims) axis range)

/-- What an index reads: an element, or an array of one dimension fewer. -/
inductive Read (α : Type) where
  | slot (value : α)
  | array (value : Arr α)

def indexDimensionName (axis rank : Nat) : String :=
  if rank ≤ 1 then "an array"
  else if axis = 0 then "the first dimension of the input array"
  else s!"dimension {axis} of the input array"

/-- `__index_arr__`; the axis is 0 in a call that leaves it out. `readsElement`: the type of the
    result is not an array, which on the first axis of a higher rank reads the flat element. -/
def indexArr (raw : Int64) (axisArg : Option Int64) (readsElement : Bool) :
    Except Fault (Read α) :=
  if a.rank = 0 then
    .error (.runtimeError
      "a value of rank zero has no positions to index: it is the element itself")
  else do
    let axis ← indexAxis a (axisArg.getD 0)
    let elementRead := decide (axis = 0 ∧ 1 < a.rank) && readsElement
    let extent := if elementRead then Int64.ofNat a.numel else a.dim axis
    if raw < 0 ∨ extent ≤ raw then
      .error (.indexOutOfRange raw
        (if elementRead then "the elements" else indexDimensionName axis a.rank) extent)
    else if a.rank ≤ 1 then
      return .slot (a.get raw.toInt.toNat)
    else if axis = 0 then
      if elementRead then return .slot (a.get raw.toInt.toNat)
      else return .array (← a.firstDimensionElement raw.toInt.toNat)
    else
      let taken := a.extents.set axis 1
      return .array (← Arr.tabulate a.compact (a.extents.eraseIdx axis) fun i =>
        a.get (parentIndexOfTake i (dimsOf taken) (rowMajorStrides a.dims) axis [raw]))

/-- The loop that reads the indices: the first outside the axis is the fault. -/
def readPositions (axis rank : Nat) (extent : Int64) : List Int64 → Except Fault (List Int64)
  | [] => .ok []
  | raw :: indices =>
    if raw < 0 ∨ extent ≤ raw then
      .error (.indexOutOfRange raw (indexDimensionName axis rank) extent)
    else do return raw :: (← readPositions axis rank extent indices)

/-- `__idx_take_arr__` -/
def idxTakeArr (idx : Arr Int64) (axisArg : Option Int64) : Except Fault (Arr α) :=
  if a.rank < 1 then
    .error (.invalidArgument "[]" "a subscript of an array of rank 0")
  else do
    let axis ← indexAxis a (axisArg.getD 0)
    let positions ← readPositions axis a.rank (a.dim axis) idx.elements
    let extents := a.extents.set axis (Int64.ofNat idx.numel)
    Arr.tabulate a.compact extents fun i =>
      a.get (parentIndexOfTake i (dimsOf extents) (rowMajorStrides a.dims) axis positions)

/-! ## Coordinates -/

theorem toInt_ofNat_le (n : Nat) : (Int64.ofNat n).toInt ≤ n := by
  have hsize : Int64.size = 2 ^ 64 := rfl
  rw [Int64.toInt_ofNat', Int.bmod_def, hsize]
  by_cases hsmall : (n : Int) % (2 ^ 64 : Nat) < ((2 ^ 64 : Nat) + 1) / 2
  · rw [if_pos hsmall]
    omega
  · rw [if_neg hsmall]
    omega

theorem readAxis_lt {what : String} {rank axis : Nat} {axisArg : Int64}
    (h : readAxis what rank axisArg = .ok axis) : axis < rank := by
  unfold readAxis at h
  generalize (if axisArg < 0 then axisArg + Int64.ofNat rank else axisArg) = pos at h
  simp only [Int64.lt_iff_toInt_lt, Int64.le_iff_toInt_le, Int64.toInt_zero] at h
  by_cases hbad : pos.toInt < 0 ∨ (Int64.ofNat rank).toInt ≤ pos.toInt
  · rw [if_pos hbad] at h
    cases h
  · rw [if_neg hbad] at h
    cases h
    have hle := toInt_ofNat_le rank
    omega

theorem rowMajorStrides_cons (p : Nat) (ps : List Nat) :
    rowMajorStrides (p :: ps) = ps.prod :: rowMajorStrides ps := by
  induction ps generalizing p with
  | nil => rfl
  | cons q ps ih =>
    rw [rowMajorStrides, ih, headD_cons, prod_cons, mul_comm]

/-- The coordinates with the one on the axis replaced by the position it stands for. -/
def moveAxis (axis : Nat) (position : Nat → Nat) (cs : List Nat) : List Nat :=
  cs.set axis (position (cs.getD axis 0))

theorem moveAxis_zero (position : Nat → Nat) (c : Nat) (cs : List Nat) :
    moveAxis 0 position (c :: cs) = position c :: cs := rfl

theorem moveAxis_succ (axis : Nat) (position : Nat → Nat) (c : Nat) (cs : List Nat) :
    moveAxis (axis + 1) position (c :: cs) = c :: moveAxis axis position cs := rfl

/-- The loop, from dimension `k` on: what is left is the quotient by the dimensions it passed, and
    the index is the number of the moved coordinates in the parent. -/
theorem parentIndexFrom_eq {axis flat : Nat} {position : Nat → Int} {moved : Nat → Nat}
    {es ps : List Nat} (hes : ∀ e ∈ es, 0 < e) (hlen : es.length = ps.length) :
    ∀ k : Nat, (k ≤ axis → ∀ c < es.getD (axis - k) 0, position c = moved c) →
      parentIndexFrom axis position flat k es (rowMajorStrides ps) =
        (flat / es.prod, ((flatOf ps (if k ≤ axis then
          moveAxis (axis - k) moved (coordsOf es flat) else coordsOf es flat) : Nat) : Int)) := by
  induction es generalizing ps with
  | nil =>
    intro k _
    cases ps with
    | nil => simp [parentIndexFrom]
    | cons p ps => cases hlen
  | cons e es ih =>
    intro k hmoved
    cases ps with
    | nil => cases hlen
    | cons p ps =>
      have hpos : e ≠ 0 := Nat.pos_iff_ne_zero.mp (hes e mem_cons_self)
      have hes' : ∀ x ∈ es, 0 < x := fun x hx => hes x (mem_cons_of_mem _ hx)
      have hmoved' : k + 1 ≤ axis → ∀ c < es.getD (axis - (k + 1)) 0, position c = moved c := by
        intro hk c hc
        have hsub : axis - k = (axis - (k + 1)) + 1 := by omega
        apply hmoved (by omega)
        rw [hsub, getD_cons_succ]
        exact hc
      have hprod : flat / (e :: es).prod = flat / es.prod / e := by
        rw [prod_cons, mul_comm, Nat.div_div_eq_div_mul]
      rw [rowMajorStrides_cons, parentIndexFrom, ih hes' (Nat.succ.inj hlen) (k + 1) hmoved']
      simp only [ne_eq, hpos, not_false_eq_true, if_true, hprod, Prod.mk.injEq, true_and]
      by_cases hk : k = axis
      · -- the axis itself: the dimensions after it keep their coordinates
        subst hk
        have hnot : ¬ k + 1 ≤ k := by omega
        have hcoord : position (flat / es.prod % e) = moved (flat / es.prod % e) := by
          apply hmoved (le_refl k)
          rw [Nat.sub_self]
          exact Nat.mod_lt _ (pos_of_ne_zero hpos)
        rw [if_neg hnot, if_pos rfl, if_pos (le_refl k), Nat.sub_self, coordsOf,
          moveAxis_zero, flatOf, hcoord]
        push_cast
        ring
      · rw [if_neg hk]
        by_cases hlt : k + 1 ≤ axis
        · have hsub : axis - k = (axis - (k + 1)) + 1 := by omega
          rw [if_pos hlt, if_pos (by omega), hsub, coordsOf, moveAxis_succ, flatOf]
          push_cast
          ring
        · rw [if_neg hlt, if_neg (by omega), coordsOf, flatOf]
          push_cast
          ring

end Camel.Index
