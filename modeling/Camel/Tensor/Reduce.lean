import Camel.Tensor.Regions

/-! # Reductions Along an Axis

    A reduction folds the elements along one axis, from the first to the last, with an
    accumulation of its own. The elements of a fold lie in a lane of the flat data: the
    axes before the axis say where the lane begins, those after it how far its elements
    lie apart.
-/

namespace Camel.Tensor

open Lib Extents List Option

variable {E R : Type}

/-! ## Lanes -/

structure AxisSplit where
  outer : Nat
  extent : Nat
  inner : Nat

/-- The loop of `splitAt`, from axis `d` on. -/
def splitAtFrom (axis : Nat) : Nat → AxisSplit → List Nat → AxisSplit
  | _, split, [] => split
  | d, split, e :: shape =>
    splitAtFrom axis (d + 1)
      (if d < axis then { split with outer := split.outer * e }
      else if d = axis then { split with extent := e }
      else { split with inner := split.inner * e }) shape

def splitAt (shape : List Nat) (axis : Nat) : AxisSplit := splitAtFrom axis 0 ⟨1, 1, 1⟩ shape

def AxisSplit.lanes (split : AxisSplit) : Nat := split.outer * split.inner

/-- The offset of the first element of a lane. -/
def AxisSplit.base (split : AxisSplit) (lane : Nat) : Nat :=
  lane / split.inner * split.extent * split.inner + lane % split.inner

/-- What `forEachLane` stores, with the lanes split into `chunks`. -/
def forEachLane (split : AxisSplit) (chunks : List (Nat × Nat)) (fn : Nat → R) : List (Nat × R) :=
  chunks.flatMap fun chunk =>
    (List.range' chunk.1 (chunk.2 - chunk.1)).map fun lane => (lane, fn (split.base lane))

/-! ## Accumulations -/

inductive ReduceOp where
  | sum | mean | max | min | argMax | argMin
  deriving DecidableEq

def ReduceOp.name : ReduceOp → String
  | .sum => "tensor:sum_axis"
  | .mean => "tensor:mean_axis"
  | .max => "tensor:max_axis"
  | .min => "tensor:min_axis"
  | .argMax => "tensor:argmax_axis"
  | .argMin => "tensor:argmin_axis"

/-- The operator has no answer for a lane without elements. -/
def ReduceOp.needsElement (op : ReduceOp) : Bool :=
  op = .max ∨ op = .min ∨ op = .argMax ∨ op = .argMin

/-- The arithmetic of an element type: the accumulators of the loops, their steps, and what a
    loop stores in the end. -/
structure LaneArithmetic (E R : Type) where
  Acc : Type
  zero : Acc
  add : Acc → E → Acc
  sumOf : Acc → R
  meanOf : Acc → Nat → R
  maximumIdentity : E
  minimumIdentity : E
  maximum : E → E → E
  minimum : E → E → E
  beyondMaximum : E → E → Bool
  beyondMinimum : E → E → Bool
  ofElement : E → R
  ofIndex : Nat → R

/-- The position of the first element that none goes beyond. -/
def argExtreme (beyond : E → E → Bool) (extent : Nat) (v : Nat → E) : Nat :=
  ((List.range' 1 (extent - 1)).foldl
    (fun best k => if beyond (v k) best.1 then (v k, k) else best) (v 0, 0)).2

/-- The loop over a lane with elements `v`. -/
def reduceLane (op : ReduceOp) (A : LaneArithmetic E R) (extent : Nat) (v : Nat → E) : R :=
  match op with
  | .sum => A.sumOf ((List.range extent).foldl (fun acc k => A.add acc (v k)) A.zero)
  | .mean => A.meanOf ((List.range extent).foldl (fun acc k => A.add acc (v k)) A.zero) extent
  | .max => A.ofElement
      ((List.range extent).foldl (fun best k => A.maximum best (v k)) A.maximumIdentity)
  | .min => A.ofElement
      ((List.range extent).foldl (fun best k => A.minimum best (v k)) A.minimumIdentity)
  | .argMax => A.ofIndex (argExtreme A.beyondMaximum extent v)
  | .argMin => A.ofIndex (argExtreme A.beyondMinimum extent v)

/-! ## The Kernel -/

def normalizeAxis (axis : Int) (rank : Nat) : Except Refusal Nat :=
  let axis := if axis < 0 then axis + rank else axis
  if axis < 0 ∨ (rank : Int) ≤ axis then
    .error (.argument ("axis " ++ toString axis ++ " is out of range for a rank-" ++ toString rank ++
      " tensor"))
  else .ok axis.toNat

/-- The loop of `reducedShape`, from axis `d` on. -/
def reducedShapeFrom (axis : Nat) (keepDims : Bool) : Nat → List Int64 → List Int64
  | _, [] => []
  | d, e :: shape =>
    if d = axis then
      if keepDims then 1 :: reducedShapeFrom axis keepDims (d + 1) shape
      else reducedShapeFrom axis keepDims (d + 1) shape
    else e :: reducedShapeFrom axis keepDims (d + 1) shape

def reducedShape (shape : List Int64) (axis : Nat) (keepDims : Bool) : List Int64 :=
  reducedShapeFrom axis keepDims 0 shape

def reduceAxis [Inhabited E] (op : ReduceOp) (A : LaneArithmetic E R) (input : Tensor E)
    (axisArg : Int64) (keepDims : Bool) (blank : R) (chunks : List (Nat × Nat)) :
    Except Refusal (Tensor R) := do
  if axisArg.toInt < -(input.rank : Int) ∨ (input.rank : Int) ≤ axisArg.toInt then
    .error (.argument ("'" ++ op.name ++ "': the axis " ++ toString axisArg.toInt ++
      " is outside the rank " ++ toString input.rank))
  else
    let axis ← normalizeAxis axisArg.toInt input.rank
    let split := splitAt input.dims axis
    if op.needsElement ∧ split.extent = 0 then
      .error (.argument ("'" ++ op.name ++ "': the axis " ++ toString axis ++ " has no element"))
    else
      let out ← allocate (reducedShape input.shape axis keepDims) blank
      .ok (out.fill (forEachLane split chunks fun base =>
        reduceLane op A split.extent fun k => input.data.getD (base + k * split.inner) default))

/-! ## Lanes Are Lists -/

/-- The accumulation over a list, from left to right. -/
def foldLane [Inhabited E] (op : ReduceOp) (A : LaneArithmetic E R) (vs : List E) : R :=
  match op with
  | .sum => A.sumOf (vs.foldl A.add A.zero)
  | .mean => A.meanOf (vs.foldl A.add A.zero) vs.length
  | .max => A.ofElement (vs.foldl A.maximum A.maximumIdentity)
  | .min => A.ofElement (vs.foldl A.minimum A.minimumIdentity)
  | .argMax => A.ofIndex ((vs.tail.zipIdx 1).foldl
      (fun best v => if A.beyondMaximum v.1 best.1 then v else best) (vs.headD default, 0)).2
  | .argMin => A.ofIndex ((vs.tail.zipIdx 1).foldl
      (fun best v => if A.beyondMinimum v.1 best.1 then v else best) (vs.headD default, 0)).2

variable {vs : List E} {v : Nat → E}

theorem foldl_lane {σ : Type} (step : σ → E → σ) (s : σ)
    (h : ∀ k < vs.length, vs[k]? = some (v k)) :
    (range vs.length).foldl (fun s k => step s (v k)) s = vs.foldl step s := by
  conv_rhs => rw [eq_map_range rfl h]
  rw [foldl_map]

theorem argExtreme_lane [Inhabited E] (beyond : E → E → Bool)
    (h : ∀ k < vs.length, vs[k]? = some (v k)) (hne : vs ≠ []) :
    argExtreme beyond vs.length v = ((vs.tail.zipIdx 1).foldl
      (fun best v => if beyond v.1 best.1 then v else best) (vs.headD default, 0)).2 := by
  cases vs with
  | nil => exact absurd rfl hne
  | cons x rest =>
    have hx : v 0 = x := by
      have h0 := h 0 (by simp)
      simpa using h0.symm
    have hrest : rest.zipIdx 1 = (range' 1 rest.length).map fun k => (v k, k) := by
      apply ext_getElem?
      intro k
      rw [getElem?_zipIdx, getElem?_map]
      by_cases hk : k < rest.length
      · have hv := h (k + 1) (by simpa using hk)
        rw [getElem?_cons_succ] at hv
        rw [hv, getElem?_range' hk, map_some, map_some]
        simp [add_comm]
      · rw [getElem?_eq_none (by omega), getElem?_eq_none (by simpa using hk)]
        rfl
    unfold argExtreme
    rw [tail_cons, hrest, foldl_map, headD_cons, length_cons,
      Nat.add_sub_cancel, hx]

/-- The loop over a lane is the accumulation over the list of its elements. -/
theorem reduceLane_eq [Inhabited E] (op : ReduceOp) (A : LaneArithmetic E R)
    (h : ∀ k < vs.length, vs[k]? = some (v k))
    (hne : op.needsElement → vs ≠ []) : reduceLane op A vs.length v = foldLane op A vs := by
  unfold reduceLane foldLane
  cases op with
  | sum => simp only [foldl_lane A.add A.zero h]
  | mean => simp only [foldl_lane A.add A.zero h]
  | max => simp only [foldl_lane A.maximum A.maximumIdentity h]
  | min => simp only [foldl_lane A.minimum A.minimumIdentity h]
  | argMax => simp only [argExtreme_lane A.beyondMaximum h (hne (by decide))]
  | argMin => simp only [argExtreme_lane A.beyondMinimum h (hne (by decide))]

/-! ## Lanes Partition the Elements -/

theorem splitAtFrom_eq (axis d : Nat) (split : AxisSplit) (shape : List Nat) :
    splitAtFrom axis d split shape =
      ⟨split.outer * (shape.take (axis - d)).prod,
        if d ≤ axis then shape.getD (axis - d) split.extent else split.extent,
        split.inner * (shape.drop (axis + 1 - d)).prod⟩ := by
  induction shape generalizing d split with
  | nil => simp [splitAtFrom]
  | cons e shape ih =>
    unfold splitAtFrom
    rw [ih]
    rcases lt_trichotomy d axis with hlt | heq | hgt
    · -- still before the axis
      obtain ⟨k, rfl⟩ : ∃ k, axis = d + 1 + k := ⟨axis - d - 1, by omega⟩
      have h1 : d + 1 + k - (d + 1) = k := by omega
      have h2 : d + 1 + k - d = k + 1 := by omega
      have h3 : d + 1 + k + 1 - (d + 1) = k + 1 := by omega
      have h4 : d + 1 + k + 1 - d = k + 1 + 1 := by omega
      have h5 : d < d + 1 + k := by omega
      have h6 : d ≤ d + 1 + k := by omega
      have h7 : d + 1 ≤ d + 1 + k := by omega
      simp only [h1, h2, h3, h4, h5, h6, h7, if_true, take_succ_cons, prod_cons,
        getD_cons_succ, drop_succ_cons, mul_assoc]
    · subst heq
      simp
    · have h1 : ¬ d < axis := by omega
      have h2 : ¬ d = axis := by omega
      have h3 : ¬ d ≤ axis := by omega
      have h4 : ¬ d + 1 ≤ axis := by omega
      have h5 : axis - d = 0 := by omega
      have h6 : axis - (d + 1) = 0 := by omega
      have h7 : axis + 1 - d = 0 := by omega
      have h8 : axis + 1 - (d + 1) = 0 := by omega
      simp [h1, h2, h3, h4, h5, h6, h7, h8, mul_assoc]

theorem splitAt_eq {shape : List Nat} {axis : Nat} (h : axis < shape.length) :
    splitAt shape axis = ⟨(shape.take axis).prod, shape.getD axis 0, (shape.drop (axis + 1)).prod⟩ := by
  unfold splitAt
  rw [splitAtFrom_eq]
  simp [getD_eq_getElem?_getD, h]

theorem reducedShapeFrom_eq (axis d : Nat) (keepDims : Bool) (shape : List Int64) :
    reducedShapeFrom axis keepDims d shape =
      if axis < d then shape
      else if keepDims then shape.set (axis - d) 1 else shape.eraseIdx (axis - d) := by
  induction shape generalizing d with
  | nil => simp [reducedShapeFrom]
  | cons e shape ih =>
    unfold reducedShapeFrom
    rw [ih]
    rcases lt_trichotomy d axis with hlt | heq | hgt
    · obtain ⟨k, rfl⟩ : ∃ k, axis = d + 1 + k := ⟨axis - d - 1, by omega⟩
      have h1 : ¬ d = d + 1 + k := by omega
      have h2 : ¬ d + 1 + k < d + 1 := by omega
      have h3 : ¬ d + 1 + k < d := by omega
      have h4 : d + 1 + k - d = k + 1 := by omega
      have h5 : d + 1 + k - (d + 1) = k := by omega
      simp only [h1, h2, h3, h4, h5, if_false]
      cases keepDims with
      | false => rfl
      | true => rfl
    · subst heq
      simp
    · have h1 : ¬ d = axis := by omega
      have h2 : axis < d + 1 := by omega
      simp [h1, h2, hgt]

theorem reducedShape_eq (shape : List Int64) (axis : Nat) (keepDims : Bool) :
    reducedShape shape axis keepDims =
      if keepDims then shape.set axis 1 else shape.eraseIdx axis := by
  unfold reducedShape
  rw [reducedShapeFrom_eq]
  simp

/-- The result has as many elements as there are lanes. -/
theorem numel_reducedShape {shape : List Int64} {axis : Nat} (h : axis < shape.length)
    (keepDims : Bool) :
    numel (reducedShape shape axis keepDims) = (splitAt (dimsOf shape) axis).lanes := by
  have hdims : ((dimsOf shape).eraseIdx axis).prod = (splitAt (dimsOf shape) axis).lanes := by
    rw [prod_eraseIdx, splitAt_eq (by simpa using h)]
    rfl
  rw [← hdims, reducedShape_eq, ← prod_dimsOf]
  cases keepDims with
  | false => simp [dimsOf, eraseIdx_map]
  | true =>
    rw [if_pos rfl, ← prod_set_one, dimsOf, map_set]
    rfl

end Camel.Tensor

/-! # What a Reduction Stores

    A result element is the accumulation over the input elements that share its other
    coordinates, in the order of the axis; every input element is in the lane of one
    result element.
-/

namespace Camel.Tensor

open Lib Extents List

variable {E R : Type}

/-! ## When a Reduction Runs -/

variable {axis : Nat}

theorem normalizeAxis_ok_iff {axisArg : Int} {rank : Nat} :
    normalizeAxis axisArg rank = .ok axis ↔
      axis < rank ∧ (axisArg = axis ∨ axisArg = (axis : Int) - rank) := by
  unfold normalizeAxis
  have hshift : (if axisArg < 0 then axisArg + rank else axisArg) = axisArg + rank ∧ axisArg < 0 ∨
      (if axisArg < 0 then axisArg + rank else axisArg) = axisArg ∧ 0 ≤ axisArg := by
    split <;> omega
  generalize (if axisArg < 0 then axisArg + rank else axisArg) = shifted at hshift
  show (if shifted < 0 ∨ (rank : Int) ≤ shifted then Except.error _ else Except.ok _) = _ ↔ _
  split
  · next hout =>
    simp only [reduceCtorEq, false_iff]
    omega
  · next hin =>
    rw [Except.ok.injEq]
    omega

variable {chunks : List (Nat × Nat)}

/-- The lanes, however they are split, are visited in order. -/
theorem forEachLane_eq {split : AxisSplit}
    (h : Splits 0 split.lanes chunks) (fn : Nat → R) :
    forEachLane split chunks fn =
      (range split.lanes).map fun lane => (lane, fn (split.base lane)) := by
  have hall := flatMap_chunks (fun lane => (lane, fn (split.base lane))) 1 h
  simp only [mul_one, Nat.sub_zero] at hall
  rw [range_eq_range', ← hall]
  rfl

variable [Inhabited E]

variable {input : Tensor E} {keepDims : Bool}

/-- A reduction runs over an axis of the input that has an element where one is needed, if its
    result can be counted. -/
theorem reduceAxis_ok_iff {op : ReduceOp} {A : LaneArithmetic E R}
    {axisArg : Int64} {blank : R} {out : Tensor R} :
    reduceAxis op A input axisArg keepDims blank chunks = .ok out ↔
      ∃ axis, normalizeAxis axisArg.toInt input.rank = .ok axis ∧
        (op.needsElement → input.dims.getD axis 0 ≠ 0) ∧
        ∃ t, createTensor (reducedShape input.shape axis keepDims) blank = .ok t ∧
          let split := splitAt input.dims axis
          out = t.fill (forEachLane split chunks fun base => reduceLane op A split.extent fun k =>
            input.data.getD (base + k * split.inner) default) := by
  unfold reduceAxis
  constructor
  · intro h
    split at h
    · cases h
    · obtain ⟨axis, haxis, h⟩ := ok_of_bind h
      have hlt := (normalizeAxis_ok_iff.1 haxis).1
      have hextent : (splitAt input.dims axis).extent = input.dims.getD axis 0 := by
        rw [splitAt_eq (by simpa using hlt)]
      simp only at h
      split at h
      · cases h
      · next hneeds =>
        obtain ⟨t, ht, h⟩ := ok_of_bind h
        injection h with h
        refine ⟨axis, haxis, ?_, t, allocate_ok_iff.1 ht, h.symm⟩
        intro hop hzero
        exact hneeds ⟨hop, hextent.trans hzero⟩
  · intro ⟨axis, haxis, hneeds, t, ht, hout⟩
    obtain ⟨hlt, hargs⟩ := normalizeAxis_ok_iff.1 haxis
    have hextent : (splitAt input.dims axis).extent = input.dims.getD axis 0 := by
      rw [splitAt_eq (by simpa using hlt)]
    have hrange : ¬ (axisArg.toInt < -(input.rank : Int) ∨ (input.rank : Int) ≤ axisArg.toInt) := by
      omega
    have hfull : ¬ (op.needsElement ∧ (splitAt input.dims axis).extent = 0) := by
      rw [hextent]
      exact fun h => hneeds h.1 h.2
    rw [if_neg hrange]
    simp only [haxis, bind, Except.bind]
    rw [if_neg hfull, allocate_ok_iff.2 ht, hout]

/-! ## Result Elements -/

/-- The coordinates of a result element less the one of the axis. -/
def otherCoords (axis : Nat) (keepDims : Bool) (cs : List Nat) : List Nat :=
  if keepDims then cs.eraseIdx axis else cs

/-- The extents of a result. -/
def reducedDims (axis : Nat) (keepDims : Bool) (es : List Nat) : List Nat :=
  if keepDims then es.set axis 1 else es.eraseIdx axis

theorem dimsOf_reducedShape (shape : List Int64) (axis : Nat) (keepDims : Bool) :
    dimsOf (reducedShape shape axis keepDims) = reducedDims axis keepDims (dimsOf shape) := by
  rw [reducedShape_eq, reducedDims]
  cases keepDims with
  | false => simp [dimsOf, eraseIdx_map]
  | true => simp [dimsOf, map_set]

/-- A result element's number is that of its other coordinates. -/
theorem flatOf_reducedDims {es cs : List Nat}
    (hk : axis < es.length) (h : Inside cs (reducedDims axis keepDims es)) :
    Inside (otherCoords axis keepDims cs) (es.eraseIdx axis) ∧
      flatOf (reducedDims axis keepDims es) cs =
        flatOf (es.eraseIdx axis) (otherCoords axis keepDims cs) := by
  unfold reducedDims at h ⊢
  unfold otherCoords
  cases keepDims with
  | false => exact ⟨h, rfl⟩
  | true =>
    obtain ⟨heq, hin⟩ := h.eq_insertIdx hk
    constructor
    · exact hin
    · show flatOf (es.set axis 1) cs = _
      rw [heq, flatOf_insertIdx hk hin, eraseIdx_insertIdx_self]
      rfl

/-- The other coordinates of an input element are those of one result element. -/
theorem existsUnique_otherCoords {es is : List Nat} (keepDims : Bool)
    (hk : axis < es.length) (h : Inside is es) :
    ∃! cs, Inside cs (reducedDims axis keepDims es) ∧
      otherCoords axis keepDims cs = is.eraseIdx axis := by
  unfold reducedDims otherCoords
  cases keepDims with
  | false =>
    refine ⟨is.eraseIdx axis, ⟨h.eraseIdx, rfl⟩, ?_⟩
    intro cs hcs
    exact hcs.2
  | true =>
    have hset : Inside (is.set axis 0) (es.set axis 1) := h.set one_pos
    refine ⟨is.set axis 0, ⟨hset, ?_⟩, ?_⟩
    · exact eraseIdx_set_eq
    · intro cs hcs
      rw [(hcs.1.eq_insertIdx hk).1, (hset.eq_insertIdx hk).1]
      have herase : (is.set axis 0).eraseIdx axis = is.eraseIdx axis := eraseIdx_set_eq
      rw [herase]
      exact congrArg (fun l => l.insertIdx axis 0) hcs.2

/-- Element `k` of a lane, as the loops read it. -/
def laneElement (input : Tensor E) (axis lane k : Nat) : E :=
  input.data.getD ((splitAt input.dims axis).base lane + k * (splitAt input.dims axis).inner) default

/-- A lane holds the elements that share the other coordinates. -/
theorem get?_lane {k : Nat} {others : List Nat}
    (hk : axis < input.dims.length) (h : Inside others (input.dims.eraseIdx axis))
    (hlt : k < input.dims.getD axis 0) :
    Inside (others.insertIdx axis k) input.dims ∧ input.get? (others.insertIdx axis k) =
      some (laneElement input axis (flatOf (input.dims.eraseIdx axis) others) k) := by
  have hin := h.insertIdx hk hlt
  obtain ⟨x, hx⟩ := Tensor.get?_isSome hin
  refine ⟨hin, ?_⟩
  have hplace : flatOf input.dims (others.insertIdx axis k) =
      (splitAt input.dims axis).base (flatOf (input.dims.eraseIdx axis) others) +
        k * (splitAt input.dims axis).inner := by
    rw [flatOf_insertIdx_split hk h, splitAt_eq hk]
    rfl
  unfold Tensor.get? at hx ⊢
  unfold laneElement
  rw [hplace] at hx ⊢
  rw [getD_eq_getElem?_getD, hx, Option.getD_some]

/-- What the result holds at coordinates. -/
theorem reduceAxis_get {op : ReduceOp} {A : LaneArithmetic E R}
    {axisArg : Int64} {blank : R} {out : Tensor R}
    (h : reduceAxis op A input axisArg keepDims blank chunks = .ok out)
    (haxis : normalizeAxis axisArg.toInt input.rank = .ok axis)
    (hsplit : Splits 0 (splitAt input.dims axis).lanes chunks) :
    out.dims = reducedDims axis keepDims input.dims ∧
    ∀ cs, Inside cs out.dims → ∃ vs : List E, vs.length = input.dims.getD axis 0 ∧
      (∀ k < vs.length, Inside ((otherCoords axis keepDims cs).insertIdx axis k) input.dims ∧
        vs[k]? = input.get? ((otherCoords axis keepDims cs).insertIdx axis k)) ∧
      out.get? cs = some (foldLane op A vs) := by
  obtain ⟨axis', haxis', hneeds, t, ht, hout⟩ := reduceAxis_ok_iff.1 h
  rw [haxis] at haxis'
  injection haxis' with haxis'
  subst haxis'
  have hrank : axis < input.rank := (normalizeAxis_ok_iff.1 haxis).1
  have hk : axis < input.dims.length := by simpa using hrank
  have htshape := (createTensor_ok ht).1
  have hdims : out.dims = reducedDims axis keepDims input.dims := by
    rw [hout]
    show dimsOf t.shape = _
    rw [htshape, dimsOf_reducedShape]
    rfl
  refine ⟨hdims, ?_⟩
  intro cs hcs
  have hnumel : t.numel = (splitAt input.dims axis).lanes := by
    unfold Tensor.numel
    rw [htshape]
    exact numel_reducedShape hrank keepDims
  rw [hdims] at hcs
  obtain ⟨hothers, hflat⟩ := flatOf_reducedDims hk hcs
  have hextent : (splitAt input.dims axis).extent = input.dims.getD axis 0 := by
    rw [splitAt_eq hk]
  have hlane : flatOf (input.dims.eraseIdx axis) (otherCoords axis keepDims cs) <
      (splitAt input.dims axis).lanes := by
    have hlt := flatOf_lt hothers
    rw [prod_eraseIdx] at hlt
    rw [splitAt_eq hk]
    exact hlt
  generalize hl : flatOf (input.dims.eraseIdx axis) (otherCoords axis keepDims cs) = lane
    at hlane hflat
  have hget : ∀ k < input.dims.getD axis 0,
      Inside ((otherCoords axis keepDims cs).insertIdx axis k) input.dims ∧
      input.get? ((otherCoords axis keepDims cs).insertIdx axis k) =
        some (laneElement input axis lane k) := by
    intro k hlt
    rw [← hl]
    exact get?_lane hk hothers hlt
  have hvs : ∀ k < ((range (input.dims.getD axis 0)).map (laneElement input axis lane)).length,
      ((range (input.dims.getD axis 0)).map (laneElement input axis lane))[k]? =
        some (laneElement input axis lane k) := by
    intro k hlt
    rw [length_map, length_range] at hlt
    rw [getElem?_map, getElem?_range hlt, Option.map_some]
  have hlen : ((range (input.dims.getD axis 0)).map (laneElement input axis lane)).length =
      input.dims.getD axis 0 := by simp
  refine ⟨(range (input.dims.getD axis 0)).map (laneElement input axis lane), hlen, ?_, ?_⟩
  · intro k hlt
    obtain ⟨hin, hval⟩ := hget k (hlen ▸ hlt)
    exact ⟨hin, (hvs k hlt).trans hval.symm⟩
  · have hne : op.needsElement →
        (range (input.dims.getD axis 0)).map (laneElement input axis lane) ≠ [] := by
      intro hop hnil
      rw [hnil] at hlen
      exact hneeds hop hlen.symm
    rw [Tensor.get?, hdims, hflat, hout, forEachLane_eq hsplit, ← hnumel, Tensor.fill_range,
      getElem?_map, getElem?_range (by omega), Option.map_some,
      ← reduceLane_eq op A hvs hne, hlen, hextent]
    rfl

end Camel.Tensor
