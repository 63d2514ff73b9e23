import Camel.Index.Instance
import Camel.Index.Slice

/-! # The Index Instance of a Slice

    `sliceIndexing` states what a slice reads before the program runs: the positions
    along the axis, as an affine map of a dim whose extent is the count. Where the
    bounds and the extent are known it has a count of its own, which must be the one
    `sliceRange` computes when the program runs.
-/

namespace Camel.Index

open Lib List

/-- The facts one call of the slice is instantiated from: how many operands it has, the shape of
    the first with the extents that are known, and the operands that are constants. -/
structure InferContext where
  size : Nat
  shape : Option (List (Option Int64))
  constInt : Nat → Option Int64

/-- A negative axis counts from the end; `none` out of range. -/
def normalizeAxis (axis : Int64) (rank : Nat) : Option Nat :=
  let r := Int64.ofNat rank
  let axis := if axis < 0 then axis + r else axis
  if 0 ≤ axis ∧ axis < r then some axis.toInt.toNat else none

/-- A bound as an expression, with its value where it is known. -/
structure Bound where
  expr : Expr
  value : Option Int64

variable (ctx : InferContext)

/-- One bound: the value the program wrote, or the position `unwritten` stands for. `limit` is
    the upper end of its interval where the extent fixes it. -/
def bound (b : IndexedInstance) (index : Nat) (name : String) (wrote : Bool)
    (unwritten : Bound) (upper : Expr) (limit : Option Int64) : Option (Bound × IndexedInstance) :=
  if !wrote then some (unwritten, b)
  else
    match ctx.constInt index, limit with
    | some raw, some limit =>
      -- the fault the kernel raises
      if raw < 0 ∨ limit < raw then none
      else
        let (param, b) := b.constant name index raw
        some (⟨param, some raw⟩, b)
    | some raw, none =>
      if raw < 0 then none
      else
        let (param, b) := b.constant name index raw
        some (⟨param, some raw⟩, b.check index param (.const 0) upper)
    | none, _ =>
      let (param, b) := b.runtime name index
      some (⟨param, none⟩, b.check index param (.const 0) upper)

/-- The count, fixed by the bounds and the step alone. -/
def instanceLength (start stop step : Int64) : Int64 :=
  if step < 0 then
    if stop < start then (start - stop - step - 1) / (-step) else 0
  else
    if start < stop then (stop - start + step - 1) / step else 0

/-- The coordinates of the operand read, axis by axis from axis `k` on. -/
def sliceCoords (a : Nat) (start stepP lenP : Expr) :
    Nat → List (Option Int64) → IndexedInstance →
      Except BuildError (List Expr × IndexedInstance)
  | _, [], b => .ok ([], b)
  | k, known :: shape, b =>
    if k = a then do
      let d := b.dim lenP .parallel
      let scaled ← Expr.mkMul stepP d.1
      let coord ← Expr.mkAdd start scaled
      let rest ← sliceCoords a start stepP lenP (k + 1) shape d.2
      return (coord :: rest.1, rest.2)
    else do
      let n := b.extent 0 k known
      let d := n.2.dim n.1 .parallel
      let rest ← sliceCoords a start stepP lenP (k + 1) shape d.2
      return (d.1 :: rest.1, rest.2)

/-- The start and the end: `nP` is the extent, `beforeLast` the position before it. -/
def sliceBounds (b : IndexedInstance) (nP beforeLast : Expr)
    (extent : Option Int64) (step written : Int64) : Option (Bound × Bound × IndexedInstance) :=
  -- a backward start must be a position the axis has
  (bound ctx b 2 "start" (wroteStart written)
    (if step < 0 then ⟨beforeLast, extent.map (· - 1)⟩ else ⟨.const 0, some 0⟩)
    (if step < 0 then beforeLast else nP)
    (extent.map (· - if step < 0 then 1 else 0))).bind fun start =>
  (bound ctx start.2 3 "end" (wroteEnd written)
    (if step < 0 then ⟨.const (-1), some (-1)⟩ else ⟨nP, extent⟩) nP extent).map fun stop =>
  (start.1, stop.1, stop.2)

/-- The step as an expression: a parameter when the call gives it. -/
def sliceStep (b : IndexedInstance) (step : Int64) :
    Expr × IndexedInstance :=
  if 4 < ctx.size then b.constant "step" 4 step else (.const 1, b)

/-- The instance, once the axis, the step and the mask are constants. -/
def sliceInstance (shape : List (Option Int64)) (a : Nat)
    (extent : Option Int64) (step written : Int64) :
    Except BuildError (Option IndexedInstance) := do
  let b := (({} : IndexedInstance).constant "axis" 1 (Int64.ofNat a)).2
  let stepB := sliceStep ctx b step
  let nB := stepB.2.extent 0 a extent
  let beforeLast ← Expr.mkSub nB.1 (.const 1)
  match sliceBounds ctx nB.2 nB.1 beforeLast extent step written with
  | none => return none
  | some (start, stop, b) =>
    let len := match start.value, stop.value with
      | some first, some last => some (instanceLength first last step)
      | _, _ => none
    let lenB := b.derived "len" len none
    let coords ← sliceCoords a start.expr stepB.1 lenB.1 0 shape lenB.2
    let b := coords.2
    let b := if wroteStart written then
        (b.require (.const 0) .le start.expr).require start.expr .le
          (if step < 0 then beforeLast else nB.1)
      else b
    let b := if wroteEnd written then
        (b.require (.const 0) .le stop.expr).require stop.expr .le nB.1
      else b
    let b := b.require (.const 0) .le lenB.1
    let b := { b with norm := affine coords.1 :: List.replicate (ctx.size - 1) noAccess }
    return some (b.finish b.allDims .unique kNoLaw)

def sliceIndexing : Except BuildError (Option IndexedInstance) :=
  match ctx.shape, ctx.constInt 1 with
  | some shape, some axis =>
    match normalizeAxis axis shape.length with
    | none => .ok none
    | some a =>
      match if 4 < ctx.size then ctx.constInt 4 else some 1 with
      | none => .ok none
      | some step =>
        if step = 0 then .ok none
        else
          match if 5 < ctx.size then ctx.constInt 5 else some 3 with
          | none => .ok none
          | some written => sliceInstance ctx shape a (shape.getD a none) step written
  | _, _ => .ok none

/-! ## Known Values -/

/-- Where the known parameters are what the domain says, `e` is `v` at every point. -/
def HasValue (d : Domain) (e : Expr) (v : Int) : Prop :=
  ∀ dims params : Nat → Int, d.Known params → e.eval dims params = v

variable {i : Nat}

theorem getElem?_mono {α : Type} {l l' : List α} {x : α} (h : l <+: l')
    (hx : l[i]? = some x) : l'[i]? = some x := by
  obtain ⟨more, rfl⟩ := h
  rw [getElem?_append_left (List.getElem?_eq_some_iff.mp hx).1]
  exact hx

theorem ok_bind {α β : Type} (a : α) (f : α → Except BuildError β) :
    (Except.ok a >>= f) = f a := rfl

theorem Known.of_prefix {d d' : Domain} {params : Nat → Int} (h : d.params <+: d'.params)
    (hk : d'.Known params) : d.Known params := by
  intro i p v hp hv
  exact hk i p v (getElem?_mono h hp) hv

theorem HasValue.mono {d d' : Domain} {e : Expr} {v : Int} (h : HasValue d e v)
    (hp : d.params <+: d'.params) : HasValue d' e v :=
  fun dims params hk => h dims params (Known.of_prefix hp hk)

theorem hasValue_const (d : Domain) (v : Int64) : HasValue d (.const v) v.toInt :=
  fun _ _ _ => rfl

namespace IndexedInstance

variable (b : IndexedInstance)

theorem prefix_pushParam (p : Param) : b.domain.params <+: (b.pushParam p).domain.params :=
  prefix_append _ _

theorem hasValue_pushParam {p : Param} {v : Int64} (hv : p.value = some v) :
    HasValue (b.pushParam p).domain (b.pushParam p).lastParam v.toInt := by
  intro dims params hk
  apply hk _ p v _ hv
  show (b.domain.params ++ [p])[(b.domain.params ++ [p]).length - 1]? = some p
  simp

section
variable (operand axis : Nat) (known : Option Int64)
include operand axis known

theorem extent_param :
    ∃ i, (b.extent operand axis known).1 = .param i := by
  unfold extent
  cases b.domain.params.findIdx? fun p =>
      decide (p.source = .extent) && p.operand == operand && p.axis == axis with
  | some i => exact ⟨i, rfl⟩
  | none => exact ⟨_, rfl⟩

theorem prefix_extent :
    b.domain.params <+: (b.extent operand axis known).2.domain.params := by
  unfold extent
  cases b.domain.params.findIdx? fun p =>
      decide (p.source = .extent) && p.operand == operand && p.axis == axis with
  | some i => exact prefix_refl _
  | none => exact prefix_append _ _

theorem dims_extent :
    (b.extent operand axis known).2.domain.dims = b.domain.dims := by
  unfold extent
  cases b.domain.params.findIdx? fun p =>
      decide (p.source = .extent) && p.operand == operand && p.axis == axis with
  | some i => rfl
  | none => rfl

end

/-- The first extent asked for has the value it is asked with. -/
theorem hasValue_extent (operand axis : Nat) (known : Int64)
    (hfresh : ∀ p ∈ b.domain.params, p.source ≠ .extent) :
    HasValue (b.extent operand axis (some known)).2.domain
      (b.extent operand axis (some known)).1 known.toInt := by
  have hnone : (b.domain.params.findIdx? fun p =>
      decide (p.source = .extent) && p.operand == operand && p.axis == axis) = none := by
    rw [findIdx?_eq_none_iff]
    intro p hp
    simp [hfresh p hp]
  unfold extent
  rw [hnone]
  exact hasValue_pushParam b rfl

end IndexedInstance

/-! ## The Parts of the Instance -/

/-- What a bound can be: nothing a sum with a dim could fail on. -/
def Simple (e : Expr) : Prop :=
  e = .const 0 ∨ (∃ p, e = .param p) ∨ ∃ p, e = .add (.param p) (.const (-1))

theorem mkSub_param_one (p : Nat) :
    Expr.mkSub (.param p) (.const 1) = .ok (.add (.param p) (.const (-1))) := by
  rfl

/-- The coordinate along the axis of the slice is its start and the step times the dim. -/
theorem slice_coord {start stepP : Expr} (hstart : Simple start)
    (hstep : stepP = .const 1 ∨ ∃ p, stepP = .param p) (n : Nat) :
    ∃ scaled coord, Expr.mkMul stepP (.dim n) = .ok scaled ∧
      Expr.mkAdd start scaled = .ok coord ∧
      ∀ dims params : Nat → Int, coord.eval dims params =
        start.eval dims params + stepP.eval dims params * dims n := by
  have hscaled : ∃ scaled, Expr.mkMul stepP (.dim n) = .ok scaled ∧
      (scaled = .dim n ∨ ∃ p, scaled = .mul (.param p) (.dim n)) := by
    rcases hstep with rfl | ⟨p, rfl⟩
    · exact ⟨.dim n, rfl, .inl rfl⟩
    · exact ⟨.mul (.param p) (.dim n), rfl, .inr ⟨p, rfl⟩⟩
  obtain ⟨scaled, hmul, hform⟩ := hscaled
  have hcoord : ∃ coord, Expr.mkAdd start scaled = .ok coord := by
    rcases hstart with rfl | ⟨p, rfl⟩ | ⟨p, rfl⟩ <;> rcases hform with rfl | ⟨q, rfl⟩ <;>
      exact ⟨_, rfl⟩
  obtain ⟨coord, hadd⟩ := hcoord
  refine ⟨scaled, coord, hmul, hadd, ?_⟩
  intro dims params
  rw [Expr.eval_mkAdd hadd, Expr.eval_mkMul hmul, Expr.eval_dim]

theorem sliceCoords_ok (a : Nat) {start stepP : Expr} (lenP : Expr) (hstart : Simple start)
    (hstep : stepP = .const 1 ∨ ∃ p, stepP = .param p) (shape : List (Option Int64)) :
    ∀ (k : Nat) (b : IndexedInstance), b.domain.dims.length = k →
      ∃ coords b', sliceCoords a start stepP lenP k shape b = .ok (coords, b') ∧
        b.domain.params <+: b'.domain.params ∧ b.domain.dims <+: b'.domain.dims ∧
        (k ≤ a → a < k + shape.length → ∃ coord dim,
          coords[a - k]? = some coord ∧ b'.domain.dims[a]? = some dim ∧ dim.extent = lenP ∧
          ∀ dims params : Nat → Int, coord.eval dims params =
            start.eval dims params + stepP.eval dims params * dims a) := by
  induction shape with
  | nil =>
    intro k b _
    refine ⟨[], b, rfl, prefix_refl _, prefix_refl _, ?_⟩
    intro hle hlt
    rw [length_nil] at hlt
    omega
  | cons known shape ih =>
    intro k b hk
    by_cases hka : k = a
    · -- the axis of the slice: its dim has the count as its extent
      obtain ⟨scaled, coord, hmul, hadd, heval⟩ := slice_coord hstart hstep k
      obtain ⟨coords, b', hrest, hparams, hdims, -⟩ :=
        ih (k + 1) (b.dim lenP .parallel).2 (by simp [IndexedInstance.dim, hk])
      refine ⟨coord :: coords, b', ?_, hparams, ?_, ?_⟩
      · unfold sliceCoords
        rw [if_pos hka]
        have hd : (b.dim lenP .parallel).1 = .dim k := by rw [← hk]; rfl
        simp only [hd, hmul, ok_bind, hadd, hrest]
        rfl
      · exact (prefix_append _ _).trans hdims
      · intro _ _
        have hat : (b.dim lenP .parallel).2.domain.dims[a]? =
            some ⟨s!"d{b.domain.dims.length}", lenP, .parallel⟩ := by
          show (b.domain.dims ++ [_])[a]? = _
          rw [← hka, ← hk, getElem?_concat_length]
        refine ⟨coord, _, ?_, getElem?_mono hdims hat, rfl, ?_⟩
        · rw [← hka, Nat.sub_self]
          rfl
        · rw [← hka]
          exact heval
    · obtain ⟨coords, b', hrest, hparams, hdims, hat⟩ :=
        ih (k + 1) ((b.extent 0 k known).2.dim (b.extent 0 k known).1 .parallel).2
          (by simp [IndexedInstance.dim, IndexedInstance.dims_extent, hk])
      refine ⟨((b.extent 0 k known).2.dim (b.extent 0 k known).1 .parallel).1 :: coords, b',
        ?_, ?_, ?_, ?_⟩
      · unfold sliceCoords
        rw [if_neg hka]
        simp only [hrest]
        rfl
      · exact (b.prefix_extent 0 k known).trans hparams
      · rw [← b.dims_extent 0 k known]
        exact (prefix_append _ _).trans hdims
      · intro hle hlt
        rw [length_cons] at hlt
        obtain ⟨coord, dim, hcoord, hdim⟩ := hat (by omega) (by omega)
        refine ⟨coord, dim, ?_, hdim⟩
        have hsub : a - k = (a - (k + 1)) + 1 := by omega
        rw [hsub, getElem?_cons_succ]
        exact hcoord

variable {ctx : InferContext} {b : IndexedInstance} {index : Nat} {name : String} {wrote : Bool}
  {unwritten : Bound} {upper : Expr} {limit raw : Int64}

/-- A constant outside its interval, with the extent known, has no instance. -/
theorem bound_none (hraw : ctx.constInt index = some raw) (hout : raw < 0 ∨ limit < raw) :
    bound ctx b index name true unwritten upper (some limit) = none := by
  unfold bound
  simp [hraw, hout]

/-- A known bound inside its interval keeps its value. -/
theorem bound_some (name : String) (upper : Expr)
    (hraw : wrote = true → ctx.constInt index = some raw)
    (hin : wrote = true → ¬ (raw < 0 ∨ limit < raw)) {u : Int64}
    (hu : unwritten.value = some u) (hval : HasValue b.domain unwritten.expr u.toInt) :
    ∃ B b', bound ctx b index name wrote unwritten upper (some limit) = some (B, b') ∧
      B.value = some (if wrote then raw else u) ∧
      HasValue b'.domain B.expr (if wrote then raw else u).toInt ∧
      (B.expr = unwritten.expr ∨ ∃ p, B.expr = .param p) ∧
      b.domain.params <+: b'.domain.params ∧ b'.domain.dims = b.domain.dims := by
  cases wrote with
  | false =>
    exact ⟨unwritten, b, rfl, hu, hval, .inl rfl, prefix_refl _, rfl⟩
  | true =>
    refine ⟨⟨(b.constant name index raw).1, some raw⟩, (b.constant name index raw).2, ?_, rfl,
      ?_, .inr ⟨_, rfl⟩, prefix_append _ _, rfl⟩
    · unfold bound
      simp [hraw rfl, hin rfl]
    · exact IndexedInstance.hasValue_pushParam b rfl

variable {step : Int64}

/-- The static count is the one of the kernel, wherever it wraps. -/
theorem instanceLength_eq {start stop : Int64} (h : step ≠ 0) :
    instanceLength start stop step = (sliceCount start stop step).value := by
  have hstep := toInt_ne_zero h
  unfold instanceLength sliceCount
  by_cases hneg : step < 0
  · have hnot : ¬ 0 < step := by
      rw [Int64.lt_iff_toInt_lt, Int64.toInt_zero] at hneg ⊢
      omega
    rw [if_pos hneg, if_neg hnot]
    by_cases hlt : stop < start
    · rw [if_pos hlt, if_pos hlt, Int64.sub_eq_add_neg (start - stop) step]
      rfl
    · rw [if_neg hlt, if_neg hlt]
      rfl
  · have hpos : 0 < step := by
      rw [Int64.lt_iff_toInt_lt, Int64.toInt_zero] at hneg ⊢
      omega
    rw [if_neg hneg, if_pos hpos]
    by_cases hlt : start < stop
    · rw [if_pos hlt, if_pos hlt]
      rfl
    · rw [if_neg hlt, if_neg hlt]
      rfl

/-! ## The Instance and the Kernel -/

/-- The call the facts are about slices axis `a` of the extent given, with this step, this mask
    and these bounds where they are written. -/
structure Describes (ctx : InferContext) (a : Nat)
    (extent startRaw endRaw step written : Int64) : Prop where
  shape : ∃ shape axis, ctx.shape = some shape ∧ ctx.constInt 1 = some axis ∧
    normalizeAxis axis shape.length = some a ∧ shape[a]? = some (some extent)
  step_eq : (if 4 < ctx.size then ctx.constInt 4 else some 1) = some step
  written_eq : (if 5 < ctx.size then ctx.constInt 5 else some 3) = some written
  start_eq : wroteStart written = true → ctx.constInt 2 = some startRaw
  end_eq : wroteEnd written = true → ctx.constInt 3 = some endRaw

/-- The instance takes along axis `a` as many positions as the range, and reads them from the
    same start by the same step. -/
def Builds (a : Nat) (inst : IndexedInstance) (r : SliceRange) : Prop :=
  ∃ dim access coord, inst.domain.dims[a]? = some dim ∧ inst.norm[0]? = some access ∧
    access.kind = .affine ∧ access.coords[a]? = some (some coord) ∧
    ∀ dims params : Nat → Int, inst.domain.Known params →
      dim.extent.eval dims params = r.count.toInt ∧
      coord.eval dims params = r.start.toInt + r.step.toInt * dims a

/-- There is no instance where the kernel faults, and elsewhere one of the kernel's range. -/
def Agrees (a : Nat) (built : Except BuildError (Option IndexedInstance))
    (range : Except Fault SliceRange) : Prop :=
  match range with
  | .error _ => built = .ok none
  | .ok r => ∃ inst, built = .ok (some inst) ∧ Builds a inst r

variable {a : Nat} {extent startRaw endRaw written : Int64}

theorem sliceIndexing_eq (h : step ≠ 0)
    (hd : Describes ctx a extent startRaw endRaw step written) :
    ∃ shape : List (Option Int64), a < shape.length ∧
      sliceIndexing ctx = sliceInstance ctx shape a (some extent) step written := by
  obtain ⟨shape, axis, hshape, haxis, hnorm, hext⟩ := hd.shape
  refine ⟨shape, (List.getElem?_eq_some_iff.mp hext).1, ?_⟩
  unfold sliceIndexing
  have hget : shape.getD a none = some extent := by
    rw [getD_eq_getElem?_getD, hext]
    rfl
  simp only [hshape, haxis, hnorm, hd.step_eq, hd.written_eq, if_neg h, hget]

theorem toInt_sub_one (hn : 0 ≤ extent.toInt) :
    (extent - 1).toInt = extent.toInt - 1 := by
  have hmax := Int64.toInt_lt extent
  rw [Int64.toInt_sub, Int64.toInt_one, bmod_of_fits ⟨by omega, by omega⟩]

/-- The interval of the start is the kernel's. -/
theorem start_outside_iff (hn : 0 ≤ extent.toInt) (h : step ≠ 0) :
    (startRaw < 0 ∨ (extent - if step < 0 then 1 else 0) < startRaw) ↔
      ¬ (0 ≤ startRaw.toInt ∧ startRaw.toInt ≤ extent.toInt - if 0 < step then 0 else 1) := by
  have hstep := toInt_ne_zero h
  have hsub := toInt_sub_one hn
  simp only [Int64.lt_iff_toInt_lt, Int64.toInt_zero]
  by_cases hneg : step.toInt < 0
  · have hnot : ¬ 0 < step.toInt := by omega
    rw [if_pos hneg, if_neg hnot, hsub]
    omega
  · have hpos : 0 < step.toInt := by omega
    have hzero : extent - 0 = extent := Int64.sub_zero extent
    rw [if_neg hneg, if_pos hpos, hzero]
    omega

theorem end_outside_iff :
    (endRaw < 0 ∨ extent < endRaw) ↔
      ¬ (0 ≤ endRaw.toInt ∧ endRaw.toInt ≤ extent.toInt) := by
  simp only [Int64.lt_iff_toInt_lt, Int64.toInt_zero]
  omega

theorem not_neg_iff (h : step ≠ 0) : ¬ step < 0 ↔ 0 < step := by
  have hstep := toInt_ne_zero h
  simp only [Int64.lt_iff_toInt_lt, Int64.toInt_zero]
  omega

/-- What a start left out stands for. -/
theorem unwritten_start (startRaw written : Int64)
    (hn : 0 ≤ extent.toInt) (h : step ≠ 0) (hext : HasValue b.domain (.param i) extent.toInt) :
    ∃ u : Int64, ∃ unwritten : Bound,
      (if step < 0 then (⟨.add (.param i) (.const (-1)), some (extent - 1)⟩ : Bound)
        else ⟨.const 0, some 0⟩) = unwritten ∧
      unwritten.value = some u ∧ HasValue b.domain unwritten.expr u.toInt ∧
      Simple unwritten.expr ∧
      (if wroteStart written then startRaw else u) =
        sliceStart extent startRaw step written := by
  unfold sliceStart
  by_cases hs : step < 0
  · have hnot : ¬ 0 < step := fun hpos => (not_neg_iff h).mpr hpos hs
    rw [if_pos hs, if_neg hnot]
    refine ⟨extent - 1, _, rfl, rfl, ?_, .inr (.inr ⟨i, rfl⟩), rfl⟩
    intro dims params hk
    have hone : Int64.toInt (-1) = -1 := rfl
    rw [Expr.eval_add, Expr.eval_const, hone, hext dims params hk, toInt_sub_one hn]
    omega
  · rw [if_neg hs, if_pos ((not_neg_iff h).mp hs)]
    exact ⟨0, _, rfl, rfl, hasValue_const _ 0, .inl rfl, rfl⟩

/-- What an end left out stands for. -/
theorem unwritten_end (endRaw written : Int64) (h : step ≠ 0)
    (hext : HasValue b.domain (.param i) extent.toInt) :
    ∃ u : Int64, ∃ unwritten : Bound,
      (if step < 0 then (⟨.const (-1), some (-1)⟩ : Bound) else ⟨.param i, some extent⟩) =
        unwritten ∧
      unwritten.value = some u ∧ HasValue b.domain unwritten.expr u.toInt ∧
      (if wroteEnd written then endRaw else u) = sliceEnd extent endRaw step written := by
  unfold sliceEnd
  by_cases hs : step < 0
  · have hnot : ¬ 0 < step := fun hpos => (not_neg_iff h).mpr hpos hs
    rw [if_pos hs, if_neg hnot]
    exact ⟨-1, _, rfl, rfl, hasValue_const _ (-1), rfl⟩
  · rw [if_neg hs, if_pos ((not_neg_iff h).mp hs)]
    exact ⟨extent, _, rfl, rfl, hext, rfl⟩

/-- With the extent known, the bounds are refused with the kernel's fault, and are the kernel's
    where they are not. -/
theorem sliceBounds_known
    (hn : 0 ≤ extent.toInt) (h : step ≠ 0)
    (hd : Describes ctx a extent startRaw endRaw step written)
    (hext : HasValue b.domain (.param i) extent.toInt) :
    (WrittenOutside extent startRaw endRaw step written →
      sliceBounds ctx b (.param i) (.add (.param i) (.const (-1))) (some extent) step written =
        none) ∧
    (¬ WrittenOutside extent startRaw endRaw step written → ∃ start stop b',
      sliceBounds ctx b (.param i) (.add (.param i) (.const (-1))) (some extent) step written =
        some (start, stop, b') ∧
      start.value = some (sliceStart extent startRaw step written) ∧
      stop.value = some (sliceEnd extent endRaw step written) ∧
      HasValue b'.domain start.expr (sliceStart extent startRaw step written).toInt ∧
      Simple start.expr ∧ b.domain.params <+: b'.domain.params ∧
      b'.domain.dims = b.domain.dims) := by
  obtain ⟨u, unwritten, hunw, huval, hu, husimple, hstart⟩ :=
    unwritten_start startRaw written hn h hext
  unfold WrittenOutside
  rw [← start_outside_iff hn h, ← end_outside_iff]
  unfold sliceBounds
  simp only [Option.map_some, hunw]
  by_cases hout : wroteStart written = true ∧
      (startRaw < 0 ∨ (extent - if step < 0 then 1 else 0) < startRaw)
  · -- the start is outside
    refine ⟨fun _ => ?_, fun hin => absurd (.inl hout) hin⟩
    rw [hout.1, bound_none (hd.start_eq hout.1) hout.2]
    rfl
  · obtain ⟨start, b1, hbound, hval, hstartVal, hexpr, hpre, hdims⟩ :=
      bound_some "start" (if step < 0 then .add (.param i) (.const (-1)) else .param i)
        hd.start_eq (fun hw hbad => hout ⟨hw, hbad⟩) huval hu
    rw [hbound, Option.bind_some]
    rw [hstart] at hval hstartVal
    obtain ⟨v, unwritten', hunw', hvval, hv, hstop⟩ :=
      unwritten_end endRaw written h (hext.mono hpre)
    simp only [hunw']
    by_cases hout' : wroteEnd written = true ∧ (endRaw < 0 ∨ extent < endRaw)
    · refine ⟨fun _ => ?_, fun hin => absurd (.inr hout') hin⟩
      rw [hout'.1, bound_none (hd.end_eq hout'.1) hout'.2]
      rfl
    · refine ⟨fun hbad => absurd hbad (not_or.mpr ⟨hout, hout'⟩), fun _ => ?_⟩
      obtain ⟨stop, b2, hbound', hval', -, -, hpre', hdims'⟩ :=
        bound_some "end" (.param i) hd.end_eq
          (fun hw hbad => hout' ⟨hw, hbad⟩) hvval hv
      rw [hstop] at hval'
      refine ⟨start, stop, b2, ?_, hval, hval', hstartVal.mono hpre', ?_, hpre.trans hpre',
        hdims'.trans hdims⟩
      · rw [hbound']
        rfl
      · rcases hexpr with he | hp
        · rw [he]
          exact husimple
        · exact .inr (.inl hp)

theorem sliceStep_spec
    (hstep : (if 4 < ctx.size then ctx.constInt 4 else some 1) = some step)
    (hfresh : ∀ p ∈ b.domain.params, p.source ≠ .extent) :
    HasValue (sliceStep ctx b step).2.domain (sliceStep ctx b step).1 step.toInt ∧
      ((sliceStep ctx b step).1 = .const 1 ∨ ∃ p, (sliceStep ctx b step).1 = .param p) ∧
      (sliceStep ctx b step).2.domain.dims = b.domain.dims ∧
      ∀ p ∈ (sliceStep ctx b step).2.domain.params, p.source ≠ .extent := by
  unfold sliceStep
  by_cases hgiven : 4 < ctx.size
  · rw [if_pos hgiven]
    refine ⟨IndexedInstance.hasValue_pushParam b rfl, .inr ⟨_, rfl⟩, rfl, ?_⟩
    intro p hp
    rcases mem_append.mp hp with hp | hp
    · exact hfresh p hp
    · rw [mem_singleton.mp hp]
      simp
  · rw [if_neg hgiven] at hstep ⊢
    cases hstep
    exact ⟨hasValue_const _ 1, .inl rfl, rfl, hfresh⟩

/-- The instance is of the range the kernel computes, and there is none where the kernel
    faults. -/
theorem sliceIndexing_agrees
    (what : String) (hn : 0 ≤ extent.toInt) (h : step ≠ 0)
    (hd : Describes ctx a extent startRaw endRaw step written) :
    Agrees a (sliceIndexing ctx) (sliceRange extent startRaw endRaw step written what) := by
  obtain ⟨shape, hlen, heq⟩ := sliceIndexing_eq h hd
  rw [heq, sliceRange_eq hn h]
  -- the parameters, in the order the builder makes them: the axis, the step, the extent
  have haxis : ∀ p ∈ (({} : IndexedInstance).constant "axis" 1 (Int64.ofNat a)).2.domain.params,
      p.source ≠ .extent := by
    intro p hp
    rw [mem_singleton.mp hp]
    simp
  obtain ⟨hstepVal, hstepForm, hstepDims, hstepFresh⟩ := sliceStep_spec hd.step_eq haxis
  unfold sliceInstance
  simp only []
  generalize sliceStep ctx (({} : IndexedInstance).constant "axis" 1 (Int64.ofNat a)).2 step =
    stepB at hstepVal hstepForm hstepDims hstepFresh ⊢
  have hextVal := IndexedInstance.hasValue_extent stepB.2 0 a extent hstepFresh
  have hextPre := IndexedInstance.prefix_extent stepB.2 0 a (some extent)
  have hextDims := IndexedInstance.dims_extent stepB.2 0 a (some extent)
  obtain ⟨i, hi⟩ := IndexedInstance.extent_param stepB.2 0 a (some extent)
  generalize stepB.2.extent 0 a (some extent) = nB at hextVal hextPre hextDims hi ⊢
  rw [hi] at hextVal
  simp only [hi, mkSub_param_one, ok_bind]
  obtain ⟨hnone, hsome⟩ := sliceBounds_known hn h hd hextVal
  by_cases hout : WrittenOutside extent startRaw endRaw step written
  · rw [hnone hout, if_pos hout]
    rfl
  · rw [if_neg hout]
    obtain ⟨start, stop, b', hbounds, hstart, hstop, hstartVal, hsimple, hpre, hdims⟩ :=
      hsome hout
    rw [hbounds]
    simp only [hstart, hstop]
    -- the count is the parameter added last
    have hlenVal := IndexedInstance.hasValue_pushParam b'
      (p := { name := "len", source := .derived,
              value := some (instanceLength (sliceStart extent startRaw step written)
                (sliceEnd extent endRaw step written) step), definition := none }) rfl
    have hlenPre := b'.prefix_pushParam
      { name := "len", source := .derived,
        value := some (instanceLength (sliceStart extent startRaw step written)
          (sliceEnd extent endRaw step written) step), definition := none }
    obtain ⟨coords, bLast, hcoords, hparams, -, hat⟩ := sliceCoords_ok a
      (b'.derived "len" (some (instanceLength (sliceStart extent startRaw step written)
        (sliceEnd extent endRaw step written) step)) none).1 hsimple hstepForm shape 0
      (b'.derived "len" (some (instanceLength (sliceStart extent startRaw step written)
        (sliceEnd extent endRaw step written) step)) none).2 (by
          show b'.domain.dims.length = 0
          rw [hdims, hextDims, hstepDims]
          rfl)
    obtain ⟨coord, dim, hcoord, hdim, hdimExt, heval⟩ := hat (by omega) (by omega)
    rw [hcoords]
    have hknown : ∀ params : Nat → Int, bLast.domain.Known params →
        ∀ dims : Nat → Int, dim.extent.eval dims params =
          (sliceCount (sliceStart extent startRaw step written)
            (sliceEnd extent endRaw step written) step).value.toInt ∧
        coord.eval dims params =
          (sliceStart extent startRaw step written).toInt + step.toInt * dims a := by
      intro params hk dims
      have hkb : b'.domain.Known params := Known.of_prefix (hlenPre.trans hparams) hk
      have hkn : nB.2.domain.Known params := Known.of_prefix hpre hkb
      constructor
      · rw [hdimExt, ← instanceLength_eq h]
        exact hlenVal dims params (Known.of_prefix hparams hk)
      · rw [heval, hstartVal dims params hkb,
          hstepVal dims params (Known.of_prefix hextPre hkn)]
    refine ⟨_, rfl, dim, affine coords, coord, ?_, rfl, rfl, ?_, ?_⟩
    · cases wroteStart written <;> cases wroteEnd written <;> exact hdim
    · show (coords.map some)[a]? = _
      rw [getElem?_map]
      have ha : coords[a]? = some coord := hcoord
      rw [ha]
      rfl
    · intro dims params hk
      apply hknown params _ dims
      cases hws : wroteStart written <;> cases hwe : wroteEnd written <;>
        simp only [hws, hwe] at hk <;> exact hk

/-- The slice faults and takes its positions as defined, and its instance is the kernel's range,
    just where the distance and the step fit 64 bits together or nothing is computed. -/
theorem slice_exact_iff (extent startRaw endRaw step written : Int64) (what : String)
    (hn : 0 ≤ extent.toInt) (h : step ≠ 0) :
    (((∃ f, sliceRange extent startRaw endRaw step written what = .error f) ↔
        WrittenOutside extent startRaw endRaw step written) ∧
      (∀ r, sliceRange extent startRaw endRaw step written what = .ok r →
        IsSlice extent startRaw endRaw step written r) ∧
      (∀ ctx a, Describes ctx a extent startRaw endRaw step written →
        Agrees a (sliceIndexing ctx) (sliceRange extent startRaw endRaw step written what))) ↔
    (WrittenOutside extent startRaw endRaw step written ∨
      SliceFits (sliceFrom extent.toInt startRaw.toInt step.toInt (wroteStart written))
        (sliceTo extent.toInt endRaw.toInt step.toInt (wroteEnd written)) step.toInt) := by
  have hrange : sliceRange extent startRaw endRaw step written what = _ := sliceRange_eq hn h
  constructor
  · rintro ⟨-, hright, -⟩
    by_cases hout : WrittenOutside extent startRaw endRaw step written
    · exact .inl hout
    · rw [if_neg hout] at hrange
      exact .inr ((isSlice_iff hn h hout).mp (hright _ hrange))
  · intro hcond
    refine ⟨?_, ?_, fun ctx a hd => sliceIndexing_agrees what hn h hd⟩
    · rw [hrange]
      by_cases hout : WrittenOutside extent startRaw endRaw step written
      · rw [if_pos hout]
        exact iff_of_true ⟨_, rfl⟩ hout
      · rw [if_neg hout]
        apply iff_of_false _ hout
        rintro ⟨f, hf⟩
        cases hf
    · intro r hr
      by_cases hout : WrittenOutside extent startRaw endRaw step written
      · rw [hrange, if_pos hout] at hr
        cases hr
      · rw [hrange, if_neg hout] at hr
        cases hr
        exact (isSlice_iff hn h hout).mpr (hcond.resolve_left hout)

theorem slice_exact_iff_stepped :
    (((∃ f, sliceRange 7 1 6 2 3 "an array" = .error f) ↔ WrittenOutside 7 1 6 2 3) ∧
      (∀ r, sliceRange 7 1 6 2 3 "an array" = .ok r → IsSlice 7 1 6 2 3 r) ∧
      (∀ ctx a, Describes ctx a 7 1 6 2 3 →
        Agrees a (sliceIndexing ctx) (sliceRange 7 1 6 2 3 "an array"))) ↔
    (WrittenOutside 7 1 6 2 3 ∨
      SliceFits (sliceFrom 7 1 2 (wroteStart 3)) (sliceTo 7 6 2 (wroteEnd 3)) 2) :=
  slice_exact_iff 7 1 6 2 3 "an array" (by decide) (by decide)

/-- With the greatest step the count of a slice that takes one position wraps to minus one. -/
theorem sliceRange_greatestStep :
    sliceRange 2 0 2 Int64.maxValue 3 "an array" = .ok ⟨0, -1, Int64.maxValue⟩ ∧
      ¬ WrittenOutside 2 0 2 Int64.maxValue 3 ∧
      ¬ IsSlice 2 0 2 Int64.maxValue 3 ⟨0, -1, Int64.maxValue⟩ := by
  refine ⟨by decide, by decide, ?_⟩
  intro hr
  exact absurd hr.count_nonneg (by decide)

end Camel.Index
