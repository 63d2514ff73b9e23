import Camel.Tensor.BroadcastShape
import Camel.Tensor.Reduce

/-! # Batched Products

    A product of tensors multiplies the matrices in the last two axes; the axes before are
    a batch, and the batches of the two operands are broadcast. A batch is walked by number,
    and an operand's matrix is found from the number digit by digit.
-/

namespace Camel.Tensor

open Lib Extents Tensor.Broadcast List

variable {E : Type}

/-! ## Plans -/

structure MatmulPlan where
  outShape : List Nat
  batchShape : List Nat
  M : Nat
  N : Nat
  K : Nat
  lhsBatch : List Nat
  rhsBatch : List Nat

/-- The axes before those of the matrix, or of the vector. -/
def batchOf (shape : List Nat) : List Nat := shape.take (shape.length - if shape.length = 1 then 1 else 2)

def broadcastShapes (lhs rhs : List Nat) : Except Refusal (List Nat) :=
  match makePlan ![lhs, rhs] with
  | .error text => .error (.shape text)
  | .ok plan => .ok plan.outShape

def planMatmul (lhs rhs : List Nat) : Except Refusal MatmulPlan :=
  if lhs = [] ∨ rhs = [] then .error (.argument "matmul does not accept rank-0 tensors")
  else
    let lhsVector := lhs.length = 1
    let rhsVector := rhs.length = 1
    let M := if lhsVector then 1 else lhs.getD (lhs.length - 2) 0
    let K := lhs.getLastD 0
    let rhsK := if rhsVector then rhs.headD 0 else rhs.getD (rhs.length - 2) 0
    let N := if rhsVector then 1 else rhs.getLastD 0
    if K ≠ rhsK then
      .error (.shape ("matmul inner dimensions differ: " ++ toString K ++ " vs " ++ toString rhsK))
    else do
      let batchShape ← broadcastShapes (batchOf lhs) (batchOf rhs)
      .ok {
        outShape := batchShape ++ (if lhsVector then [] else [M]) ++ (if rhsVector then [] else [N])
        batchShape := batchShape
        M := M
        N := N
        K := K
        lhsBatch := padded batchShape.length (batchOf lhs)
        rhsBatch := padded batchShape.length (batchOf rhs) }

/-! ## The Walk -/

/-- Where a walk over the axes of a batch, from the last one, has got to. -/
structure BatchWalk where
  b : Nat
  offset : Nat
  stride : Nat

/-- The step for an axis, of extent `axis.1` in the batch and `axis.2` in the operand's. -/
def BatchWalk.step (walk : BatchWalk) (axis : Nat × Nat) : BatchWalk where
  b := walk.b / axis.1
  offset := if axis.2 ≠ 1 then walk.offset + walk.b % axis.1 * walk.stride else walk.offset
  stride := walk.stride * axis.2

/-- The offset, in matrices, of batch `b` in an operand with batch extents `extents`. -/
def batchOffset (batchShape extents : List Nat) (b : Nat) : Nat :=
  ((batchShape.zip extents).reverse.foldl BatchWalk.step ⟨b, 0, 1⟩).offset

/-- The data from an offset on. -/
def Tensor.dataFrom [Inhabited E] (t : Tensor E) (offset : Nat) : Nat → E :=
  fun i => t.data.getD (offset + i) default

/-- The element of a product in row `i` and column `j`, from the first term on. -/
def integerGemm (zero : E) (madd : E → E → E → E) (N K : Nat) (A B : Nat → E) (i j : Nat) : E :=
  (List.range K).foldl (fun acc k => madd acc (A (i * K + k)) (B (k * N + j))) zero

/-- `matmul` with a product of matrices, the batch split into `chunks`. -/
def matmul [Inhabited E] (gemm : Nat → Nat → (Nat → E) → (Nat → E) → Nat → Nat → E)
    (lhs rhs : Tensor E) (blank : E) (chunks : List (Nat × Nat)) : Except Refusal (Tensor E) := do
  let plan ← planMatmul lhs.dims rhs.dims
  let out ← allocate (plan.outShape.map Int64.ofNat) blank
  let aSize := plan.M * plan.K
  let bSize := plan.K * plan.N
  let cSize := plan.M * plan.N
  .ok (out.fill (chunks.flatMap fun chunk =>
    (List.range' chunk.1 (chunk.2 - chunk.1)).flatMap fun batch =>
      let aOff := batchOffset plan.batchShape plan.lhsBatch batch * aSize
      let bOff := batchOffset plan.batchShape plan.rhsBatch batch * bSize
      (List.range plan.M).flatMap fun i => (List.range plan.N).map fun j =>
        (batch * cSize + (i * plan.N + j),
          gemm plan.N plan.K (lhs.dataFrom aOff) (rhs.dataFrom bOff) i j)))

/-! ## Offsets -/

/-- The walk takes the digits of the number off and weighs them with the operand's extents. -/
theorem foldl_batchWalk {batchShape extents : List Nat} (h : extents.length = batchShape.length)
    (walk : BatchWalk) :
    (batchShape.zip extents).reverse.foldl BatchWalk.step walk =
      ⟨walk.b / batchShape.prod,
        walk.offset + walk.stride * flatOf extents (List.zipWith
          (fun extent c => if extent = 1 then 0 else c) extents (coordsOf batchShape walk.b)),
        walk.stride * extents.prod⟩ := by
  induction batchShape generalizing extents with
  | nil =>
    rw [length_eq_zero_iff.1 h]
    simp
  | cons x batchShape ih =>
    cases extents with
    | nil => cases h
    | cons e extents =>
      rw [zip_cons_cons, reverse_cons, foldl_append, ih (by simpa using h)]
      simp only [foldl_cons, foldl_nil, BatchWalk.step, coordsOf, zipWith_cons_cons,
        flatOf, prod_cons, Nat.div_div_eq_div_mul]
      rw [BatchWalk.mk.injEq]
      refine ⟨by rw [mul_comm], ?_, by ring⟩
      by_cases hone : e = 1
      · simp [hone]
      · simp only [hone, ne_eq, not_false_eq_true, if_true, if_false]
        ring

variable {shape : List Nat}

/-- The offset is that of the broadcast coordinates. -/
theorem batchOffset_eq {batchShape : List Nat} (h : shape.length ≤ batchShape.length)
    (b : Nat) :
    batchOffset batchShape (padded batchShape.length shape) b =
      readAt shape (coordsOf batchShape b) := by
  have hlen : (padded batchShape.length shape).length = batchShape.length := length_padded h
  have hcoords : shape.length ≤ (coordsOf batchShape b).length := by simpa using h
  have hread := readAt_padded hcoords
  rw [length_coordsOf] at hread
  rw [← hread]
  unfold batchOffset readAt clipped
  rw [foldl_batchWalk hlen, length_coordsOf, hlen, Nat.sub_self, drop_zero]
  simp

/-! ## Coordinates -/

/-- The axis of a matrix that a vector does not have. -/
def freeAxis (shape : List Nat) (e : Nat) : List Nat := if shape.length = 1 then [] else [e]

/-- An axis `e` with a coordinate `x`, or none. -/
def IsAxis (es xs : List Nat) (e x : Nat) : Prop :=
  (es = [] ∧ xs = [] ∧ e = 1 ∧ x = 0) ∨ (es = [e] ∧ xs = [x])

variable {e x : Nat}

theorem isAxis_free (hone : shape.length = 1 → e = 1) (hx : x < e) :
    IsAxis (freeAxis shape e) (freeAxis shape x) e x := by
  unfold freeAxis
  by_cases h : shape.length = 1
  · have he := hone h
    rw [if_pos h, if_pos h]
    exact .inl ⟨rfl, rfl, he, by omega⟩
  · rw [if_neg h, if_neg h]
    exact .inr ⟨rfl, rfl⟩

variable {batch ra xa rb xb : List Nat} {a b y : Nat}

/-- The place of an element of a batch of matrices. -/
theorem flatOf_matrix {bs : List Nat}
    (h : bs.length = batch.length) (ha : IsAxis ra xa a x) (hb : IsAxis rb xb b y) :
    flatOf (batch ++ ra ++ rb) (bs ++ xa ++ xb) = flatOf batch bs * (a * b) + (x * b + y) := by
  rw [append_assoc, append_assoc, flatOf_append h]
  rcases ha with ⟨rfl, rfl, rfl, rfl⟩ | ⟨rfl, rfl⟩
  · rcases hb with ⟨rfl, rfl, rfl, rfl⟩ | ⟨rfl, rfl⟩
    · simp
    · simp [flatOf]
  · rcases hb with ⟨rfl, rfl, rfl, rfl⟩ | ⟨rfl, rfl⟩
    · simp [flatOf]
    · simp [flatOf]

theorem prod_matrix (ha : IsAxis ra xa a x)
    (hb : IsAxis rb xb b y) : (batch ++ ra ++ rb).prod = batch.prod * (a * b) := by
  rcases ha with ⟨rfl, -, rfl, -⟩ | ⟨rfl, -⟩
  · rcases hb with ⟨rfl, -, rfl, -⟩ | ⟨rfl, -⟩
    · simp
    · simp
  · rcases hb with ⟨rfl, -, rfl, -⟩ | ⟨rfl, -⟩
    · simp
    · simp

theorem split_lhs (h : shape ≠ []) :
    shape = batchOf shape ++ freeAxis shape (shape.getD (shape.length - 2) 0) ++
      [shape.getLastD 0] := by
  obtain rfl | ⟨init, last, rfl⟩ := eq_nil_or_concat shape
  · exact absurd rfl h
  · obtain rfl | ⟨batch, row, rfl⟩ := eq_nil_or_concat init
    · simp [batchOf, freeAxis]
    · simp [batchOf, freeAxis, getD_eq_getElem?_getD]

theorem split_rhs (h : shape ≠ []) :
    shape = batchOf shape ++
      [if shape.length = 1 then shape.headD 0 else shape.getD (shape.length - 2) 0] ++
      freeAxis shape (shape.getLastD 0) := by
  obtain rfl | ⟨init, last, rfl⟩ := eq_nil_or_concat shape
  · exact absurd rfl h
  · obtain rfl | ⟨batch, row, rfl⟩ := eq_nil_or_concat init
    · simp [batchOf, freeAxis]
    · simp [batchOf, freeAxis, getD_eq_getElem?_getD]

/-- What a plan says of its operands. -/
structure PlanOf (lhs rhs : List Nat) (plan : MatmulPlan) : Prop where
  lhs_eq : lhs = batchOf lhs ++ freeAxis lhs plan.M ++ [plan.K]
  rhs_eq : rhs = batchOf rhs ++ [plan.K] ++ freeAxis rhs plan.N
  lhs_vector : lhs.length = 1 → plan.M = 1
  rhs_vector : rhs.length = 1 → plan.N = 1
  batch : IsBroadcast ![batchOf lhs, batchOf rhs] plan.batchShape
  out : plan.outShape = plan.batchShape ++ freeAxis lhs plan.M ++ freeAxis rhs plan.N
  lhsBatch : plan.lhsBatch = padded plan.batchShape.length (batchOf lhs)
  rhsBatch : plan.rhsBatch = padded plan.batchShape.length (batchOf rhs)

variable {lhs rhs : List Nat}

theorem broadcastShapes_ok {out : List Nat} (h : broadcastShapes lhs rhs = .ok out) :
    IsBroadcast ![lhs, rhs] out := by
  unfold broadcastShapes at h
  split at h
  · cases h
  · next plan hplan =>
    injection h with h
    rw [← h]
    exact (makePlan_eq_ok hplan).1

theorem freeAxis_lhs :
    freeAxis lhs (if lhs.length = 1 then 1 else e) = freeAxis lhs e := by
  unfold freeAxis
  split
  · rfl
  · rfl

variable {plan : MatmulPlan}

theorem planMatmul_ok
    (h : planMatmul lhs rhs = .ok plan) : PlanOf lhs rhs plan := by
  unfold planMatmul at h
  split at h
  · cases h
  · next hne =>
    push Not at hne
    simp only at h
    by_cases hK : lhs.getLastD 0 =
        (if rhs.length = 1 then rhs.headD 0 else rhs.getD (rhs.length - 2) 0)
    · rw [if_neg (not_not.2 hK)] at h
      obtain ⟨batchShape, hbatch, h⟩ := ok_of_bind h
      injection h with h
      subst h
      refine ⟨?_, ?_, ?_, ?_, broadcastShapes_ok hbatch, rfl, rfl, rfl⟩
      · show lhs = batchOf lhs ++ freeAxis lhs (if lhs.length = 1 then 1 else _) ++ _
        rw [freeAxis_lhs]
        exact split_lhs hne.1
      · show rhs = batchOf rhs ++ [lhs.getLastD 0] ++
          freeAxis rhs (if rhs.length = 1 then 1 else _)
        rw [freeAxis_lhs, hK]
        exact split_rhs hne.2
      · exact fun hone => if_pos hone
      · exact fun hone => if_pos hone
    · rw [if_pos hK] at h
      cases h

/-- Operands without an axis, with different inner extents or batches that do not go together
    are refused, and no others. -/
theorem planMatmul_ok_iff :
    (∃ plan, planMatmul lhs rhs = .ok plan) ↔ lhs ≠ [] ∧ rhs ≠ [] ∧
      lhs.getLastD 0 = (if rhs.length = 1 then rhs.headD 0 else rhs.getD (rhs.length - 2) 0) ∧
      Broadcastable ![batchOf lhs, batchOf rhs] := by
  have hbroadcast : (∃ out, broadcastShapes (batchOf lhs) (batchOf rhs) = .ok out) ↔
      Broadcastable ![batchOf lhs, batchOf rhs] := by
    rw [← not_iff_not, ← makePlan_error_iff]
    unfold broadcastShapes
    cases makePlan ![batchOf lhs, batchOf rhs] with
    | error text => simp
    | ok plan => simp
  rw [← hbroadcast]
  unfold planMatmul
  split
  · next hnil =>
    simp only [reduceCtorEq, exists_false, false_iff]
    tauto
  · next hne =>
    push Not at hne
    simp only
    by_cases hK : lhs.getLastD 0 =
        (if rhs.length = 1 then rhs.headD 0 else rhs.getD (rhs.length - 2) 0)
    · rw [if_neg (not_not.2 hK)]
      cases broadcastShapes (batchOf lhs) (batchOf rhs) with
      | error refusal => simp [bind, Except.bind]
      | ok out => exact iff_of_true ⟨_, rfl⟩ ⟨hne.1, hne.2, hK, _, rfl⟩
    · rw [if_pos hK]
      simp only [reduceCtorEq, exists_false, false_iff]
      exact fun h => hK h.2.2.1

/-! ## The Product -/

/-- A broadcast has no extent of its own. -/
theorem mem_of_isBroadcast {n : Nat} {shapes : Fin n → List Nat} {out : List Nat}
    (h : IsBroadcast shapes out) (he : e ∈ out) : e = 1 ∨ ∃ op, e ∈ shapes op := by
  obtain ⟨d, hd, rfl⟩ := mem_iff_getElem.1 he
  have hat : out[d] = extentFromEnd out (out.length - 1 - d) := by
    rw [← getD_eq_extentFromEnd hd, getD_eq_getElem?_getD, getElem?_eq_getElem hd,
      Option.getD_some]
  rw [hat]
  rcases (h.2 (out.length - 1 - d)).2 with hone | hmem
  · exact .inl hone
  · obtain ⟨op, hop⟩ := mem_ofFn.1 hmem
    rw [← hop]
    unfold extentFromEnd
    rw [getD_eq_getElem?_getD]
    cases hget : (shapes op).reverse[out.length - 1 - d]? with
    | none => exact .inl rfl
    | some x => exact .inr ⟨op, mem_reverse.1 (mem_of_getElem? hget)⟩

/-- The extents of a plan fit an `int64_t`, as those of the operands do. -/
theorem dimsOf_plan {lhs rhs : Tensor E} (h : PlanOf lhs.dims rhs.dims plan) :
    dimsOf (plan.outShape.map Int64.ofNat) = plan.outShape := by
  have hdims : ∀ (t : Tensor E), ∀ e ∈ t.dims, e < 2 ^ 63 := by
    intro t e he
    obtain ⟨x, -, rfl⟩ := mem_map.1 he
    have hx := x.toInt_lt
    omega
  have hbatch : ∀ e ∈ plan.batchShape, e < 2 ^ 63 := by
    intro e he
    rcases mem_of_isBroadcast h.batch he with rfl | ⟨op, hop⟩
    · norm_num
    · have hmem : e ∈ lhs.dims ∨ e ∈ rhs.dims := by
        match op, hop with
        | 0, hop => exact .inl (mem_of_mem_take hop)
        | 1, hop => exact .inr (mem_of_mem_take hop)
      rcases hmem with hmem | hmem
      · exact hdims lhs e hmem
      · exact hdims rhs e hmem
  have hall : ∀ e ∈ plan.outShape, e < 2 ^ 63 := by
    intro e he
    rw [h.out, mem_append, mem_append] at he
    rcases he with (he | he) | he
    · exact hbatch e he
    · apply hdims lhs e
      rw [h.lhs_eq]
      exact mem_append_left _ (mem_append_right _ he)
    · apply hdims rhs e
      rw [h.rhs_eq]
      exact mem_append_right _ he
  unfold dimsOf
  rw [map_map]
  conv_rhs => rw [← map_id plan.outShape]
  apply map_congr_left
  intro e he
  have hlt := hall e he
  show (Int64.ofNat e).toInt.toNat = e
  rw [Int64.toInt_ofNat_of_lt hlt]
  exact Int.toNat_natCast e

/-- What a place of the data from an offset on holds. -/
theorem dataFrom_eq [Inhabited E] {t : Tensor E} {offset i : Nat} (h : offset + i < t.numel) :
    t.data[offset + i]? = some (t.dataFrom offset i) := by
  have hlt : offset + i < t.data.length := by
    rw [t.held]
    exact h
  unfold Tensor.dataFrom
  rw [getD_eq_getElem?_getD, getElem?_eq_getElem hlt, Option.getD_some]

/-- An operand's matrix for a batch, as the product reads it. -/
theorem get?_matrix [Inhabited E] {t : Tensor E} {bs : List Nat}
    (hdims : t.dims = batch ++ ra ++ rb) (hbs : bs.length = batch.length)
    (hlt : flatOf batch bs < batch.prod) (ha : IsAxis ra xa a x) (hb : IsAxis rb xb b y)
    (hx : x < a) (hy : y < b) :
    t.get? (bs ++ xa ++ xb) = some (t.dataFrom (flatOf batch bs * (a * b)) (x * b + y)) := by
  unfold Tensor.get?
  rw [hdims, flatOf_matrix hbs ha hb]
  apply dataFrom_eq
  rw [← Tensor.prod_dims, hdims, prod_matrix ha hb]
  exact place_lt hlt (place_lt hx hy)

/-- Each matrix of the result is the product of the operands' matrices at the broadcast
    coordinates of its batch. -/
theorem matmul_get [Inhabited E] {gemm : Nat → Nat → (Nat → E) → (Nat → E) → Nat → Nat → E}
    {lhs rhs out : Tensor E} {blank : E} {chunks : List (Nat × Nat)}
    (h : matmul gemm lhs rhs blank chunks = .ok out)
    (hplan : planMatmul lhs.dims rhs.dims = .ok plan)
    (hsplit : Splits 0 plan.batchShape.prod chunks) :
    out.dims = plan.outShape ∧ ∀ bs, Inside bs plan.batchShape → ∃ A B : Nat → E,
      (∀ i < plan.M, ∀ k < plan.K,
        lhs.get? (clipped (batchOf lhs.dims) bs ++ freeAxis lhs.dims i ++ [k]) =
          some (A (i * plan.K + k))) ∧
      (∀ k < plan.K, ∀ j < plan.N,
        rhs.get? (clipped (batchOf rhs.dims) bs ++ [k] ++ freeAxis rhs.dims j) =
          some (B (k * plan.N + j))) ∧
      ∀ i < plan.M, ∀ j < plan.N,
        out.get? (bs ++ freeAxis lhs.dims i ++ freeAxis rhs.dims j) =
          some (gemm plan.N plan.K A B i j) := by
  have hof := planMatmul_ok hplan
  obtain ⟨plan', hplan', h⟩ := ok_of_bind h
  rw [hplan] at hplan'
  injection hplan' with hplan'
  subst hplan'
  obtain ⟨t, ht, h⟩ := ok_of_bind h
  simp only at h
  injection h with h
  have hdims : t.dims = plan.outShape := by
    unfold Tensor.dims
    rw [(createTensor_ok (allocate_ok_iff.1 ht)).1]
    exact dimsOf_plan hof
  have hout : out.dims = plan.outShape := by
    rw [← h]
    exact hdims
  refine ⟨hout, ?_⟩
  intro bs hbs
  have hpoint : flatOf plan.batchShape bs < plan.batchShape.prod := flatOf_lt hbs
  have hcoords : coordsOf plan.batchShape (flatOf plan.batchShape bs) = bs := coordsOf_flatOf hbs
  have hrank := hof.batch.1
  have hlhsLen : (batchOf lhs.dims).length ≤ plan.batchShape.length := by
    rw [hrank]
    exact length_le_rankOf ![batchOf lhs.dims, batchOf rhs.dims] 0
  have hrhsLen : (batchOf rhs.dims).length ≤ plan.batchShape.length := by
    rw [hrank]
    exact length_le_rankOf ![batchOf lhs.dims, batchOf rhs.dims] 1
  have hlhsLt := hof.batch.readAt_lt 0 hpoint
  have hrhsLt := hof.batch.readAt_lt 1 hpoint
  rw [hcoords] at hlhsLt hrhsLt
  have hclip : ∀ shape : List Nat, shape.length ≤ plan.batchShape.length →
      (clipped shape bs).length = shape.length := by
    intro shape hle
    unfold clipped
    rw [length_zipWith, length_drop, hbs.length]
    omega
  refine ⟨lhs.dataFrom (readAt (batchOf lhs.dims) bs * (plan.M * plan.K)),
    rhs.dataFrom (readAt (batchOf rhs.dims) bs * (plan.K * plan.N)), ?_, ?_, ?_⟩
  · intro i hi k hk
    exact get?_matrix hof.lhs_eq (hclip _ hlhsLen) hlhsLt (isAxis_free hof.lhs_vector hi)
      (.inr ⟨rfl, rfl⟩) hi hk
  · intro k hk j hj
    exact get?_matrix hof.rhs_eq (hclip _ hrhsLen) hrhsLt (.inr ⟨rfl, rfl⟩)
      (isAxis_free hof.rhs_vector hj) hk hj
  · intro i hi j hj
    have hrow := isAxis_free hof.lhs_vector hi
    have hcol := isAxis_free hof.rhs_vector hj
    have hnumel : t.numel = plan.batchShape.prod * (plan.M * plan.N) := by
      rw [← Tensor.prod_dims, hdims, hof.out, prod_matrix hrow hcol]
    have hregions := getElem?_fill_regions (t := t) (fun batch p => gemm plan.N plan.K
      (lhs.dataFrom (batchOffset plan.batchShape plan.lhsBatch batch * (plan.M * plan.K)))
      (rhs.dataFrom (batchOffset plan.batchShape plan.rhsBatch batch * (plan.K * plan.N)))
      (p / plan.N) (p % plan.N)) hsplit hnumel hpoint (place_lt hi hj)
    obtain ⟨hdiv, hmod⟩ := div_mod_place (r := i) hj
    rw [hdiv, hmod, hof.lhsBatch, hof.rhsBatch, batchOffset_eq hlhsLen, batchOffset_eq hrhsLen,
      hcoords] at hregions
    unfold Tensor.get?
    rw [hout, hof.out, flatOf_matrix hbs.length hrow hcol, ← hregions, ← h]
    -- the loops over rows and columns fill one region
    congr 3
    apply flatMap_congr
    intro chunk _
    apply flatMap_congr
    intro batch _
    rw [hof.lhsBatch, hof.rhsBatch]
    exact region_rows batch plan.M plan.N _

theorem matmul_ok_iff [Inhabited E] {gemm : Nat → Nat → (Nat → E) → (Nat → E) → Nat → Nat → E}
    {lhs rhs : Tensor E} {blank : E} {chunks : List (Nat × Nat)}
    (hplan : planMatmul lhs.dims rhs.dims = .ok plan) :
    (∃ out, matmul gemm lhs rhs blank chunks = .ok out) ↔
      ∃ n, checkedNumel (plan.outShape.map Int64.ofNat) = .ok n := by
  rw [← createTensor_ok_iff _ blank]
  constructor
  · intro ⟨out, h⟩
    obtain ⟨plan', hplan', h⟩ := ok_of_bind h
    rw [hplan] at hplan'
    injection hplan' with hplan'
    subst hplan'
    obtain ⟨t, ht, -⟩ := ok_of_bind h
    exact ⟨t, allocate_ok_iff.1 ht⟩
  · intro ⟨t, ht⟩
    unfold matmul
    rw [hplan]
    simp only [bind, Except.bind, allocate_ok_iff.2 ht]
    exact ⟨_, rfl⟩

/-! ## Lanes and Batches -/

/-- A reduction stores in each result element the accumulation over the input elements that
    share its other coordinates, in the order of the axis, and every input element belongs to
    one of them; a product stores in each of its matrices the product of the operands'
    matrices at the broadcast coordinates. -/
theorem reduce_matmul_correct (E R : Type) [Inhabited E] :
    (∀ (op : ReduceOp) (A : LaneArithmetic E R) (input : Tensor E) axisArg keepDims blank chunks,
      ((∃ out, reduceAxis op A input axisArg keepDims blank chunks = .ok out) ↔
        ∃ axis, normalizeAxis axisArg.toInt input.rank = .ok axis ∧
          (op.needsElement → input.dims.getD axis 0 ≠ 0) ∧
          ∃ n, checkedNumel (reducedShape input.shape axis keepDims) = .ok n) ∧
      ∀ out axis, reduceAxis op A input axisArg keepDims blank chunks = .ok out →
        normalizeAxis axisArg.toInt input.rank = .ok axis →
        Splits 0 (splitAt input.dims axis).lanes chunks →
        out.dims = reducedDims axis keepDims input.dims ∧
        (∀ cs, Inside cs out.dims → ∃ vs : List E, vs.length = input.dims.getD axis 0 ∧
          (∀ k < vs.length,
            Inside ((otherCoords axis keepDims cs).insertIdx axis k) input.dims ∧
            vs[k]? = input.get? ((otherCoords axis keepDims cs).insertIdx axis k)) ∧
          out.get? cs = some (foldLane op A vs)) ∧
        ∀ is, Inside is input.dims →
          ∃! cs, Inside cs out.dims ∧ otherCoords axis keepDims cs = is.eraseIdx axis) ∧
    (∀ gemm (lhs rhs : Tensor E) blank chunks,
      ((∃ plan, planMatmul lhs.dims rhs.dims = .ok plan) ↔ lhs.dims ≠ [] ∧ rhs.dims ≠ [] ∧
        lhs.dims.getLastD 0 = (if rhs.dims.length = 1 then rhs.dims.headD 0
          else rhs.dims.getD (rhs.dims.length - 2) 0) ∧
        Broadcastable ![batchOf lhs.dims, batchOf rhs.dims]) ∧
      ∀ plan, planMatmul lhs.dims rhs.dims = .ok plan →
        IsBroadcast ![batchOf lhs.dims, batchOf rhs.dims] plan.batchShape ∧
        ((∃ out, matmul gemm lhs rhs blank chunks = .ok out) ↔
          ∃ n, checkedNumel (plan.outShape.map Int64.ofNat) = .ok n) ∧
        ∀ out, matmul gemm lhs rhs blank chunks = .ok out →
          Splits 0 plan.batchShape.prod chunks →
          out.dims = plan.batchShape ++ freeAxis lhs.dims plan.M ++ freeAxis rhs.dims plan.N ∧
          ∀ bs, Inside bs plan.batchShape → ∃ A B : Nat → E,
            (∀ i < plan.M, ∀ k < plan.K,
              lhs.get? (clipped (batchOf lhs.dims) bs ++ freeAxis lhs.dims i ++ [k]) =
                some (A (i * plan.K + k))) ∧
            (∀ k < plan.K, ∀ j < plan.N,
              rhs.get? (clipped (batchOf rhs.dims) bs ++ [k] ++ freeAxis rhs.dims j) =
                some (B (k * plan.N + j))) ∧
            ∀ i < plan.M, ∀ j < plan.N,
              out.get? (bs ++ freeAxis lhs.dims i ++ freeAxis rhs.dims j) =
                some (gemm plan.N plan.K A B i j)) := by
  constructor
  · intro op A input axisArg keepDims blank chunks
    constructor
    · constructor
      · intro ⟨out, h⟩
        obtain ⟨axis, haxis, hneeds, t, ht, -⟩ := reduceAxis_ok_iff.1 h
        exact ⟨axis, haxis, hneeds, (createTensor_ok_iff _ blank).1 ⟨t, ht⟩⟩
      · intro ⟨axis, haxis, hneeds, hcount⟩
        obtain ⟨t, ht⟩ := (createTensor_ok_iff _ blank).2 hcount
        exact ⟨_, reduceAxis_ok_iff.2 ⟨axis, haxis, hneeds, t, ht, rfl⟩⟩
    · intro out axis h haxis hsplit
      obtain ⟨hdims, hget⟩ := reduceAxis_get h haxis hsplit
      refine ⟨hdims, hget, ?_⟩
      intro is his
      rw [hdims]
      have hlt : axis < input.dims.length := by
        simpa using (normalizeAxis_ok_iff.1 haxis).1
      exact existsUnique_otherCoords keepDims hlt his
  · intro gemm lhs rhs blank chunks
    constructor
    · exact planMatmul_ok_iff
    · intro plan hplan
      refine ⟨(planMatmul_ok hplan).batch, matmul_ok_iff hplan, ?_⟩
      intro out h hsplit
      rw [← (planMatmul_ok hplan).out]
      exact matmul_get h hplan hsplit

/-- Sums of numbers, the extremes left at the accumulator. -/
def natLanes : LaneArithmetic Nat Nat where
  Acc := Nat
  zero := 0
  add := (· + ·)
  sumOf := id
  meanOf := (· / ·)
  maximumIdentity := 0
  minimumIdentity := 0
  maximum := max
  minimum := min
  beyondMaximum := fun v best => best < v
  beyondMinimum := fun v best => v < best
  ofElement := id
  ofIndex := id

/-- A vector of three elements. -/
def threeVector : Tensor Nat where
  shape := [3]
  data := [1, 10, 100]
  counted := ⟨3, rfl⟩
  held := rfl

/-- The rows of a matrix summed up, its last one with the dimension kept; and its product with
    a vector. -/
theorem reduce_matmul_correct_small :
    (∃ out vs, reduceAxis .sum natLanes twoByThree (-1) true 0 [(0, 1), (1, 2)] = .ok out ∧
      out.get? [1, 0] = some 12 ∧ out.get? [1, 0] = some (foldLane .sum natLanes vs) ∧
        vs.length = 3) ∧
    ∃ out A B, matmul (integerGemm 0 fun acc a b => acc + a * b) twoByThree threeVector 0 [(0, 1)] =
        .ok out ∧ out.get? [1] = some 543 ∧
      out.get? [1] = some (integerGemm 0 (fun acc a b => acc + a * b) 1 3 A B 1 0) := by
  constructor
  · have hrun : ∃ out, reduceAxis .sum natLanes twoByThree (-1) true 0 [(0, 1), (1, 2)] = .ok out ∧
        out.get? [1, 0] = some 12 ∧ out.dims = [2, 1] := ⟨_, rfl, by decide, by decide⟩
    obtain ⟨out, h, hget, hdims⟩ := hrun
    have hsplit : Splits 0 (splitAt twoByThree.dims 1).lanes [(0, 1), (1, 2)] :=
      ⟨rfl, by decide, rfl, by decide, rfl⟩
    have hall := ((reduce_matmul_correct Nat Nat).1 .sum natLanes twoByThree (-1) true 0
      [(0, 1), (1, 2)]).2 out 1 h rfl hsplit
    have hcs : Inside [1, 0] out.dims := by
      rw [hdims]
      exact .cons (by decide) (.cons (by decide) .nil)
    obtain ⟨vs, hlen, -, hfold⟩ := hall.2.1 [1, 0] hcs
    exact ⟨out, vs, h, hget, hfold, hlen⟩
  · have hrun : ∃ out, matmul (integerGemm 0 fun acc a b => acc + a * b) twoByThree threeVector 0
        [(0, 1)] = .ok out ∧ out.get? [1] = some 543 := ⟨_, rfl, by decide⟩
    obtain ⟨out, h, hget⟩ := hrun
    have hplan : ∃ plan, planMatmul twoByThree.dims threeVector.dims = .ok plan ∧
        plan.batchShape = [] ∧ plan.M = 2 ∧ plan.N = 1 ∧ plan.K = 3 :=
      ⟨_, rfl, rfl, rfl, rfl, rfl⟩
    obtain ⟨plan, hplan, hbatch, hM, hN, hK⟩ := hplan
    have hsplit : Splits 0 plan.batchShape.prod [(0, 1)] := by
      rw [hbatch]
      exact ⟨rfl, by decide, rfl⟩
    have hall := (((reduce_matmul_correct Nat Nat).2 (integerGemm 0 fun acc a b => acc + a * b)
      twoByThree threeVector 0 [(0, 1)]).2 plan hplan).2.2 out h hsplit
    have hbs : Inside [] plan.batchShape := by
      rw [hbatch]
      exact .nil
    obtain ⟨A, B, -, -, hproduct⟩ := hall.2 [] hbs
    have hone := hproduct 1 (by omega) 0 (by omega)
    rw [hN, hK] at hone
    exact ⟨out, A, B, h, hget, hone⟩

end Camel.Tensor
