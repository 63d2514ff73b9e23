import Camel.Lib.Buffer

/-! # The Blocked Matrix Product

    The product is cut into tiles of rows and columns, and a task computes a run of
    tiles with buffers of its own: packed panels of both operands and, between two
    blocks of the inner extent, the accumulators. The arithmetic is a parameter. A
    buffer has the size that was asked for and whatever was in it before; an access
    outside of it fails.

    A task reads an element of the result only to store the same element, so what it
    does to the result is a list of stores.
-/

namespace Camel.Tensor

open Lib List

/-! ## The Problem -/

/-- The arithmetic of the elements; `eqZero` and `eqOne` are comparisons with 0 and 1. -/
structure FloatOps (α : Type) where
  zero : α
  fma : α → α → α → α
  mul : α → α → α
  add : α → α → α
  eqZero : α → Bool
  eqOne : α → Bool

/-- The widths of the blocks. A unit of the kernel is compiled for one vector width. -/
structure Blocking where
  vecWidth : Nat
  MR : Nat
  NR : Nat
  KC : Nat
  MC : Nat
  NC : Nat
  vecWidth_pos : 0 < vecWidth
  vecWidth_dvd : vecWidth ∣ NR
  MR_pos : 0 < MR
  NR_pos : 0 < NR
  KC_pos : 0 < KC
  MC_pos : 0 < MC
  NC_pos : 0 < NC

/-- `gemm_generic.cpp`. -/
def Blocking.generic : Blocking where
  vecWidth := 4
  MR := 4
  NR := 8
  KC := 256
  MC := 72
  NC := 256
  vecWidth_pos := by decide
  vecWidth_dvd := by decide
  MR_pos := by decide
  NR_pos := by decide
  KC_pos := by decide
  MC_pos := by decide
  NC_pos := by decide

/-- `gemm_avx2.cpp`. -/
def Blocking.avx2 : Blocking :=
  { Blocking.generic with
    vecWidth := 8
    MR := 6
    NR := 16
    vecWidth_pos := by decide
    vecWidth_dvd := by decide
    MR_pos := by decide
    NR_pos := by decide }

/-- `gemm_avx512.cpp`. -/
def Blocking.avx512 : Blocking :=
  { Blocking.generic with
    vecWidth := 16
    MR := 8
    NR := 32
    vecWidth_pos := by decide
    vecWidth_dvd := by decide
    MR_pos := by decide
    NR_pos := by decide }

/-- `kNVec`. -/
def Blocking.NVec (bl : Blocking) : Nat := bl.NR / bl.vecWidth

/-- The arguments of `sgemm`, but for the result. -/
structure Product (α : Type) where
  transA : Bool
  transB : Bool
  M : Nat
  N : Nat
  K : Nat
  alpha : α
  A : Nat → α
  lda : Nat
  B : Nat → α
  ldb : Nat
  beta : α
  ldc : Nat

variable {α : Type} (bl : Blocking) (ops : FloatOps α) (p : Product α)

def elemA (i k : Nat) : α := if p.transA then p.A (k * p.lda + i) else p.A (i * p.lda + k)

def elemB (k j : Nat) : α := if p.transB then p.B (j * p.ldb + k) else p.B (k * p.ldb + j)

/-- The last step of an element. -/
def finish (acc c : α) : α :=
  let product := ops.mul p.alpha acc
  if ops.eqZero p.beta then product
  else if ops.eqOne p.beta then ops.add product c
  else ops.add product (ops.mul p.beta c)

/-- The first `k` steps of an element of the product, in ascending order from 0. -/
def chain (i j : Nat) : Nat → α
  | 0 => ops.zero
  | k + 1 => ops.fma (elemA p i k) (elemB p k j) (chain i j k)

/-- A store into the result: the new value of an element from its old one. -/
structure Store (α : Type) where
  addr : Nat
  value : α → α

/-! ## Panels and Micro Tiles -/

/-- Column `j` of panel `q` of the packed columns from `jc` on, in step `k`. -/
def packBElem (pc jc nc q k j : Nat) : α :=
  let j0 := jc + q * bl.NR
  let nr := min bl.NR (jc + nc - j0)
  if !p.transB ∧ nr = bl.NR then p.B ((pc + k) * p.ldb + j0 + j)
  else if j < nr then elemB p (pc + k) (j0 + j) else ops.zero

/-- Panel `q` holds `kc` rows of `NR` columns, the last panel padded. -/
def packB (pc kc jc nc : Nat) (out : Buffer α) : Option (Buffer α) :=
  out.setAll? (gridWrites 0 (blocks nc bl.NR) kc bl.NR (packBElem bl ops p pc jc nc))

def packAElem (ic mc pc q k i : Nat) : α :=
  let i0 := q * bl.MR
  let mr := min bl.MR (mc - i0)
  if i < mr then elemA p (ic + i0 + i) (pc + k) else ops.zero

/-- Panel `q` holds `kc` columns of `MR` rows, the last panel padded. -/
def packA (ic mc pc kc : Nat) (out : Buffer α) : Option (Buffer α) :=
  out.setAll? (gridWrites 0 (blocks mc bl.MR) kc bl.MR (packAElem bl ops p ic mc pc))

/-- The accumulators of a micro tile: rows of vectors of lanes. -/
abbrev Accumulators (α : Type) := Nat → Nat → Nat → α

/-- The accumulators at the start of a K block. -/
def loadAcc (carry : Buffer α) (cp : Nat) (first : Bool) : Option (Accumulators α) :=
  if first then some fun _ _ _ => ops.zero
  else allOf (fun _ _ => ops.zero) bl.MR fun i =>
    allOf (fun _ => ops.zero) bl.NVec fun v =>
      carry.slice? bl.vecWidth (cp + i * bl.NR + v * bl.vecWidth)

/-- One step of all chains of a micro tile. -/
def accStep (packedA : Buffer α) (ap : Nat) (packedB : Buffer α) (bp k : Nat)
    (acc : Accumulators α) : Option (Accumulators α) := do
  let b ← allOf (fun _ => ops.zero) bl.NVec fun v =>
    packedB.slice? bl.vecWidth (bp + k * bl.NR + v * bl.vecWidth)
  let a ← packedA.slice? bl.MR (ap + k * bl.MR)
  some fun i v l => ops.fma (a i) (b v l) (acc i v l)

/-- One entry for each lane of the accumulators. -/
def eachLane {β : Type} (f : Nat → Nat → Nat → β) : List β :=
  (List.range bl.MR).flatMap fun i =>
    (List.range bl.NVec).flatMap fun v => (List.range bl.vecWidth).map fun l => f i v l

/-- The stores of a micro tile at `c`. A whole tile with `beta` 0 is stored by vectors, any
    other through a copy of the accumulators, element by element. -/
def tileStores (acc : Accumulators α) (c mr nr : Nat) : List (Store α) :=
  if mr = bl.MR ∧ nr = bl.NR ∧ ops.eqZero p.beta then
    eachLane bl fun i v l =>
      ⟨c + i * p.ldc + v * bl.vecWidth + l, fun _ => ops.mul p.alpha (acc i v l)⟩
  else
    (List.range mr).flatMap fun i => (List.range nr).map fun j =>
      ⟨c + i * p.ldc + j, fun old =>
        finish ops p (acc i (j / bl.vecWidth) (j % bl.vecWidth)) old⟩

def microKernel (kc : Nat) (packedA : Buffer α) (ap : Nat) (packedB : Buffer α) (bp : Nat)
    (carry : Buffer α) (cp : Nat) (first last : Bool) (c mr nr : Nat) :
    Option (Buffer α × List (Store α)) := do
  let acc ← loadAcc bl ops carry cp first
  let acc ← forRange kc (accStep bl ops packedA ap packedB bp) acc
  if !last then
    let carry ← carry.setAll? (eachLane bl fun i v l =>
      (cp + i * bl.NR + v * bl.vecWidth + l, acc i v l))
    some (carry, [])
  else some (carry, tileStores bl ops p acc c mr nr)

/-- The stores of a tile without a product. -/
def finishEmptyTile (ic mc jc nc : Nat) : List (Store α) :=
  (List.range mc).flatMap fun i => (List.range nc).map fun j =>
    ⟨(ic + i) * p.ldc + jc + j, fun old => finish ops p ops.zero old⟩

/-! ## Tasks -/

variable (workers : Nat)

def mTiles : Nat := blocks p.M bl.MC

/-- Tiles are narrowed until there are as many as workers. -/
def ncTile : Nat :=
  if mTiles bl p * blocks p.N bl.NC < workers then
    let wanted := blocks workers (mTiles bl p)
    let width := blocks p.N wanted
    max bl.NR (blocks width bl.NR * bl.NR)
  else bl.NC

def nTiles : Nat := blocks p.N (ncTile bl p workers)

def tiles : Nat := mTiles bl p * nTiles bl p workers

def rowBlocks : Nat := blocks bl.MC bl.MR

def colBlocks : Nat := blocks (ncTile bl p workers) bl.NR

/-- The accumulators of one row tile. -/
def tileCarrySize : Nat := rowBlocks bl * colBlocks bl p workers * bl.MR * bl.NR

/-- The buffers of a task and the stores so far. -/
structure Task (α : Type) where
  packedA : Buffer α
  packedB : Buffer α
  carry : Buffer α
  stores : List (Store α)

/-- The buffers as they are asked for; `garbage` is what is in each. Without a second K block
    there is no carry buffer. -/
def Task.start (start stop : Nat) (garbage : Fin 3 → Nat → α) : Task α :=
  let kcMax := min bl.KC p.K
  { packedA := ⟨rowBlocks bl * bl.MR * kcMax, garbage 0⟩
    packedB := ⟨colBlocks bl p workers * bl.NR * kcMax, garbage 1⟩
    carry :=
      ⟨if bl.KC < p.K then min (mTiles bl p) (stop - start) * tileCarrySize bl p workers else 0,
        garbage 2⟩
    stores := [] }

/-- The micro tile at row block `u` and column block `y` of the row tile at place `x` of its
    run, in one K block. -/
def microStep (pc jc nc rowBegin x y u : Nat) (task : Task α) : Option (Task α) := do
  let kc := min bl.KC (p.K - pc)
  let ic := (rowBegin + x) * bl.MC
  let mc := min bl.MC (p.M - ic)
  let (carry, stores) ← microKernel bl ops p kc task.packedA (u * kc * bl.MR) task.packedB
    (y * kc * bl.NR) task.carry
    (x * tileCarrySize bl p workers + (u * colBlocks bl p workers + y) * bl.MR * bl.NR)
    (pc = 0) (pc + kc = p.K) ((ic + u * bl.MR) * p.ldc + jc + y * bl.NR)
    (min bl.MR (mc - u * bl.MR)) (min bl.NR (nc - y * bl.NR))
  some { task with carry := carry, stores := task.stores ++ stores }

/-- The row tile at place `x` of its run, in one K block. -/
def rowTileStep (pc jc nc rowBegin x : Nat) (task : Task α) : Option (Task α) := do
  let kc := min bl.KC (p.K - pc)
  let ic := (rowBegin + x) * bl.MC
  let mc := min bl.MC (p.M - ic)
  let packedA ← packA bl ops p ic mc pc kc task.packedA
  forRange (blocks nc bl.NR)
    (fun y => forRange (blocks mc bl.MR) (microStep bl ops p workers pc jc nc rowBegin x y))
    { task with packedA := packedA }

/-- A run of row tiles of one column band. -/
def bandRun (jc nc rowBegin rowEnd : Nat) (task : Task α) : Option (Task α) :=
  if ops.eqZero p.alpha ∨ p.K = 0 then
    forRange (rowEnd - rowBegin) (fun x task =>
      let ic := (rowBegin + x) * bl.MC
      let mc := min bl.MC (p.M - ic)
      some { task with stores := task.stores ++ finishEmptyTile ops p ic mc jc nc }) task
  else
    forRange (blocks p.K bl.KC) (fun b task => do
      let pc := b * bl.KC
      let packedB ← packB bl ops p pc (min bl.KC (p.K - pc)) jc nc task.packedB
      forRange (rowEnd - rowBegin) (rowTileStep bl ops p workers pc jc nc rowBegin)
        { task with packedB := packedB }) task

/-- The tiles from `t` to `stop`, one run of a column band after the other. -/
def runTiles (stop t : Nat) (hm : 0 < mTiles bl p) (task : Task α) : Option (Task α) :=
  if t < stop then
    let band := t / mTiles bl p
    let rowBegin := t - band * mTiles bl p
    let rowEnd := min (mTiles bl p) (stop - band * mTiles bl p)
    let jc := band * ncTile bl p workers
    let nc := min (ncTile bl p workers) (p.N - jc)
    (bandRun bl ops p workers jc nc rowBegin rowEnd task).bind
      (runTiles stop (band * mTiles bl p + rowEnd) hm)
  else some task
termination_by stop - t
decreasing_by
  have hdiv := Nat.div_add_mod' t (mTiles bl p)
  have hmod := Nat.mod_lt t hm
  omega

/-- The body of the parallel region. -/
def taskStores (start stop : Nat) (hm : 0 < mTiles bl p) (garbage : Fin 3 → Nat → α) :
    Option (List (Store α)) :=
  (runTiles bl ops p workers stop start hm (Task.start bl p workers start stop garbage)).map
    Task.stores

/-- The product: the stores of each chunk of the tiles, each with the garbage in the buffers
    of its thread. -/
def gemm (splits : List ((Nat × Nat) × (Fin 3 → Nat → α))) : Option (List (List (Store α))) :=
  if h : p.M = 0 ∨ p.N = 0 then some []
  else splits.mapM fun s => taskStores bl ops p workers s.1.1 s.1.2
    ((lt_blocks_iff bl.MC_pos).mpr (by omega)) s.2

/-- Stores in some order. -/
def applyStores (stores : List (Store α)) (C : Nat → α) : Nat → α :=
  stores.foldl (fun C s => Function.update C s.addr (s.value (C s.addr))) C

end Camel.Tensor

/-! # Micro Tiles

    Packing puts every element a micro tile reads where it reads it, and a micro tile
    continues the chains of its elements by the steps of one K block. Lanes beyond the
    edge are never stored.
-/

namespace Camel.Tensor

open Lib List

variable {α : Type} (bl : Blocking) (ops : FloatOps α) (p : Product α)

theorem Blocking.NVec_mul : bl.NVec * bl.vecWidth = bl.NR := Nat.div_mul_cancel bl.vecWidth_dvd

/-! ## Panels -/

/-- The panels of a packed operand of `n` rows or columns, `W` of them side by side, in which
    place `x` holds `f x k` in step `k`. -/
def Packed (buffer : Buffer α) (W kc n : Nat) (f : Nat → Nat → α) : Prop :=
  ∀ q < blocks n W, ∀ k < kc, ∀ x < W, q * W + x < n →
    buffer.data (q * kc * W + k * W + x) = f (q * W + x) k

theorem packB_spec (pc kc jc nc : Nat) {out : Buffer α}
    (hsize : blocks nc bl.NR * kc * bl.NR ≤ out.size) :
    ∃ out', packB bl ops p pc kc jc nc out = some out' ∧ out'.size = out.size ∧
      Packed out' bl.NR kc nc fun j k => elemB p (pc + k) (jc + j) := by
  obtain ⟨out', hset, hsz, -, hstored⟩ := Buffer.setAll?_grid out 0 (blocks nc bl.NR) kc bl.NR
    (packBElem bl ops p pc jc nc) (by omega)
  refine ⟨out', hset, hsz, fun q hq k hk x hx hin => ?_⟩
  have hstore := hstored q hq k hk x hx
  rw [zero_add] at hstore
  rw [hstore, packBElem]
  split
  next h =>
    have htrans : p.transB = false := by simpa using h.1
    simp only [elemB, htrans, Bool.false_eq_true, if_false]
    congr 1
    ring
  next =>
    rw [if_pos (by omega), add_assoc]

theorem packA_spec (ic mc pc kc : Nat) {out : Buffer α}
    (hsize : blocks mc bl.MR * kc * bl.MR ≤ out.size) :
    ∃ out', packA bl ops p ic mc pc kc out = some out' ∧ out'.size = out.size ∧
      Packed out' bl.MR kc mc fun i k => elemA p (ic + i) (pc + k) := by
  obtain ⟨out', hset, hsz, -, hstored⟩ := Buffer.setAll?_grid out 0 (blocks mc bl.MR) kc bl.MR
    (packAElem bl ops p ic mc pc) (by omega)
  refine ⟨out', hset, hsz, fun q hq k hk x hx hin => ?_⟩
  have hstore := hstored q hq k hk x hx
  rw [zero_add] at hstore
  rw [hstore, packAElem]
  simp only
  rw [if_pos (by omega), add_assoc]

/-! ## The Chains of a Micro Tile -/

variable {carry : Buffer α} {acc : Accumulators α}

section Micro

variable {bl} {ops} {p} {mr nr row col : Nat}

/-- The accumulators of the elements from `row` and `col` on after `k` steps. -/
def AccAt (bl : Blocking) (ops : FloatOps α) (p : Product α) (mr nr row col : Nat)
    (acc : Accumulators α) (k : Nat) : Prop :=
  ∀ i < mr, ∀ j < nr,
    acc i (j / bl.vecWidth) (j % bl.vecWidth) = chain ops p (row + i) (col + j) k

/-- The same, kept in a buffer at `cp`. -/
def CarriedAt (bl : Blocking) (ops : FloatOps α) (p : Product α) (mr nr row col : Nat)
    (carry : Buffer α) (cp k : Nat) : Prop :=
  ∀ i < mr, ∀ j < nr, carry.data (cp + i * bl.NR + j) = chain ops p (row + i) (col + j) k

theorem lane_lt (bl : Blocking) {j : Nat} (hj : j < bl.NR) :
    j / bl.vecWidth < bl.NVec ∧ j % bl.vecWidth < bl.vecWidth ∧
      j / bl.vecWidth * bl.vecWidth + j % bl.vecWidth = j := by
  refine ⟨?_, Nat.mod_lt j bl.vecWidth_pos, Nat.div_add_mod' j bl.vecWidth⟩
  rw [Nat.div_lt_iff_lt_mul bl.vecWidth_pos, bl.NVec_mul]
  exact hj

/-- A vector of a row of `NR` elements lies inside the row. -/
theorem vec_le (bl : Blocking) {v : Nat} (hv : v < bl.NVec) :
    v * bl.vecWidth + bl.vecWidth ≤ bl.NR := by
  have := Nat.mul_le_mul_right bl.vecWidth (show v + 1 ≤ bl.NVec from hv)
  rw [bl.NVec_mul, add_mul, one_mul] at this
  exact this

theorem row_le {R W i : Nat} (hi : i < R) : i * W + W ≤ R * W := by
  have := Nat.mul_le_mul_right W (show i + 1 ≤ R from hi)
  rwa [add_mul, one_mul] at this

theorem loadAcc_first {cp : Nat} :
    ∃ acc, loadAcc bl ops carry cp true = some acc ∧ AccAt bl ops p mr nr row col acc 0 :=
  ⟨fun _ _ _ => ops.zero, rfl, fun _ _ _ _ => rfl⟩

theorem loadAcc_carried {cp k : Nat} (hmr : mr ≤ bl.MR) (hnr : nr ≤ bl.NR)
    (hsize : cp + bl.MR * bl.NR ≤ carry.size) (h : CarriedAt bl ops p mr nr row col carry cp k) :
    ∃ acc, loadAcc bl ops carry cp false = some acc ∧ AccAt bl ops p mr nr row col acc k := by
  have hslice : ∀ i < bl.MR, ∀ v < bl.NVec,
      carry.slice? bl.vecWidth (cp + i * bl.NR + v * bl.vecWidth) =
        some fun l => carry.data (cp + i * bl.NR + v * bl.vecWidth + l) := by
    intro i hi v hv
    have hrow := row_le (W := bl.NR) hi
    have hvec := vec_le bl hv
    rw [Buffer.slice?, if_pos (by omega)]
  have hrow : ∀ i < bl.MR, (allOf (fun _ => ops.zero) bl.NVec fun v =>
      carry.slice? bl.vecWidth (cp + i * bl.NR + v * bl.vecWidth)) =
        some fun v => (carry.slice? bl.vecWidth (cp + i * bl.NR + v * bl.vecWidth)).getD
          fun _ => ops.zero := by
    intro i hi
    apply allOf_eq
    intro v hv
    rw [hslice i hi v hv]
    rfl
  refine ⟨_, allOf_eq fun i hi => by rw [hrow i hi]; rfl, ?_⟩
  intro i hi j hj
  obtain ⟨hv, -, hsplit⟩ := lane_lt bl (show j < bl.NR by omega)
  simp only [hrow i (by omega), hslice i (by omega) _ hv, Option.getD_some]
  rw [add_assoc, hsplit]
  exact h i hi j hj

/-- The panels hold the rows from `row` on and the columns from `col` on, of the steps from
    `pc` on. -/
structure PanelsAt (bl : Blocking) (p : Product α) (mr nr row col pc kc : Nat)
    (packedA : Buffer α) (ap : Nat) (packedB : Buffer α) (bp : Nat) : Prop where
  sizeA : ap + kc * bl.MR ≤ packedA.size
  sizeB : bp + kc * bl.NR ≤ packedB.size
  elemA : ∀ k < kc, ∀ i < mr, packedA.data (ap + k * bl.MR + i) = elemA p (row + i) (pc + k)
  elemB : ∀ k < kc, ∀ j < nr, packedB.data (bp + k * bl.NR + j) = elemB p (pc + k) (col + j)

section Steps

variable {pc kc ap bp : Nat} {packedA packedB : Buffer α}

theorem accStep_spec (hnr : nr ≤ bl.NR)
    (h : PanelsAt bl p mr nr row col pc kc packedA ap packedB bp) {k : Nat} (hk : k < kc)
    (hacc : AccAt bl ops p mr nr row col acc (pc + k)) :
    ∃ acc', accStep bl ops packedA ap packedB bp k acc = some acc' ∧
      AccAt bl ops p mr nr row col acc' (pc + (k + 1)) := by
  have hrowA := row_le (W := bl.MR) hk
  have hrowB := row_le (W := bl.NR) hk
  have hsizeA := h.sizeA
  have hsizeB := h.sizeB
  have hslice : ∀ v < bl.NVec, packedB.slice? bl.vecWidth (bp + k * bl.NR + v * bl.vecWidth) =
      some fun l => packedB.data (bp + k * bl.NR + v * bl.vecWidth + l) := by
    intro v hv
    have hvec := vec_le bl hv
    rw [Buffer.slice?, if_pos (by omega)]
  have hb : (allOf (fun _ => ops.zero) bl.NVec fun v =>
      packedB.slice? bl.vecWidth (bp + k * bl.NR + v * bl.vecWidth)) =
        some fun v => (packedB.slice? bl.vecWidth (bp + k * bl.NR + v * bl.vecWidth)).getD
          fun _ => ops.zero := by
    apply allOf_eq
    intro v hv
    rw [hslice v hv]
    rfl
  have ha : packedA.slice? bl.MR (ap + k * bl.MR) =
      some fun i => packedA.data (ap + k * bl.MR + i) := by
    rw [Buffer.slice?, if_pos (by omega)]
  refine ⟨_, by rw [accStep, hb, ha]; rfl, ?_⟩
  intro i hi j hj
  obtain ⟨hv, -, hsplit⟩ := lane_lt bl (show j < bl.NR by omega)
  simp only [hslice _ hv, Option.getD_some]
  rw [add_assoc (bp + k * bl.NR), hsplit, h.elemA k hk i hi, h.elemB k hk j hj, hacc i hi j hj]
  rfl

/-- A K block continues the chains by its steps. -/
theorem accSteps_spec (hnr : nr ≤ bl.NR)
    (h : PanelsAt bl p mr nr row col pc kc packedA ap packedB bp)
    (hacc : AccAt bl ops p mr nr row col acc pc) :
    ∃ acc', forRange kc (accStep bl ops packedA ap packedB bp) acc = some acc' ∧
      AccAt bl ops p mr nr row col acc' (pc + kc) :=
  forRange_inv (P := fun k acc => AccAt bl ops p mr nr row col acc (pc + k)) hacc
    fun _ hk _ hacc => accStep_spec hnr h hk hacc

end Steps

/-! ## What a Micro Tile Stores -/

/-- A list over rows of vectors of lanes is one over rows of elements. -/
theorem eachLane_eq {β : Type} (bl : Blocking) (g : Nat → Nat → β) :
    (eachLane bl fun i v l => g i (v * bl.vecWidth + l)) =
      (range bl.MR).flatMap fun i => (range bl.NR).map (g i) := by
  have hrow : ∀ (n : Nat) (f : Nat → β), ((range n).flatMap fun v =>
      (range bl.vecWidth).map fun l => f (v * bl.vecWidth + l)) =
        (range (n * bl.vecWidth)).map f := by
    intro n f
    induction n with
    | zero => simp
    | succ n ih =>
      rw [range_succ, flatMap_append, ih, add_mul, one_mul, range_add,
        map_append, map_map]
      simp [Function.comp_def]
  rw [eachLane]
  congr 1
  funext i
  rw [hrow, bl.NVec_mul]

theorem storeAcc_spec {cp k : Nat} (hmr : mr ≤ bl.MR)
    (hnr : nr ≤ bl.NR) (hsize : cp + bl.MR * bl.NR ≤ carry.size)
    (hacc : AccAt bl ops p mr nr row col acc k) :
    ∃ carry', carry.setAll? (eachLane bl fun i v l =>
        (cp + i * bl.NR + v * bl.vecWidth + l, acc i v l)) = some carry' ∧
      carry'.size = carry.size ∧ CarriedAt bl ops p mr nr row col carry' cp k ∧
      ∀ a, a < cp ∨ cp + bl.MR * bl.NR ≤ a → carry'.data a = carry.data a := by
  have hwrites : (eachLane bl fun i v l => (cp + i * bl.NR + v * bl.vecWidth + l, acc i v l)) =
      gridWrites cp bl.MR bl.NVec bl.vecWidth acc := by
    simp only [eachLane, gridWrites, mul_assoc, bl.NVec_mul, add_assoc]
  have hgrid : bl.MR * bl.NVec * bl.vecWidth = bl.MR * bl.NR := by
    rw [mul_assoc, bl.NVec_mul]
  obtain ⟨carry', hset, hsz, hother, hstored⟩ := Buffer.setAll?_grid carry cp bl.MR bl.NVec
    bl.vecWidth acc (by omega)
  rw [hgrid] at hother
  refine ⟨carry', by rw [hwrites]; exact hset, hsz, ?_, hother⟩
  intro i hi j hj
  obtain ⟨hv, hl, hsplit⟩ := lane_lt bl (show j < bl.NR by omega)
  have hstore := hstored i (by omega) _ hv _ hl
  rw [mul_assoc i, bl.NVec_mul, add_assoc (i * bl.NR), hsplit, ← add_assoc] at hstore
  rw [hstore]
  exact hacc i hi j hj

/-- The stores of an `mr` by `nr` tile at `c`, in row order, when the chains are done. -/
theorem tileStores_spec {k c : Nat}
    (hacc : AccAt bl ops p mr nr row col acc k) :
    tileStores bl ops p acc c mr nr =
      (range mr).flatMap fun i => (range nr).map fun j =>
        ⟨c + i * p.ldc + j, finish ops p (chain ops p (row + i) (col + j) k)⟩ := by
  have hcells : ((range mr).flatMap fun i => (range nr).map fun j =>
      (⟨c + i * p.ldc + j, fun old =>
        finish ops p (acc i (j / bl.vecWidth) (j % bl.vecWidth)) old⟩ : Store α)) =
      (range mr).flatMap fun i => (range nr).map fun j =>
        ⟨c + i * p.ldc + j, finish ops p (chain ops p (row + i) (col + j) k)⟩ := by
    apply flatMap_congr
    intro i hi
    apply map_congr_left
    intro j hj
    rw [hacc i (mem_range.mp hi) j (mem_range.mp hj)]
  rw [tileStores]
  split
  next h =>
    -- by vectors: with `beta` 0 the old element is not read
    obtain ⟨rfl, rfl, hbeta⟩ := h
    rw [← hcells, ← eachLane_eq bl fun i j => (⟨c + i * p.ldc + j, fun old =>
      finish ops p (acc i (j / bl.vecWidth) (j % bl.vecWidth)) old⟩ : Store α)]
    simp only [eachLane]
    apply flatMap_congr
    intro i _
    apply flatMap_congr
    intro v _
    apply map_congr_left
    intro l hl
    have hl' := mem_range.mp hl
    have hdiv : (v * bl.vecWidth + l) / bl.vecWidth = v := by
      rw [add_comm, Nat.add_mul_div_right _ _ bl.vecWidth_pos, Nat.div_eq_of_lt hl', zero_add]
    have hmod : (v * bl.vecWidth + l) % bl.vecWidth = l := by
      rw [add_comm, Nat.add_mul_mod_self_right, Nat.mod_eq_of_lt hl']
    simp only [hdiv, hmod, finish, hbeta, if_true, add_assoc]
  next => exact hcells

/-- A micro tile: before the last K block it keeps the chains, in the last one it stores the
    elements. It touches nothing else. -/
theorem microKernel_spec (ops : FloatOps α) (first last : Bool) (c : Nat) {pc kc ap bp cp : Nat}
    {packedA packedB carry : Buffer α} (hmr : mr ≤ bl.MR) (hnr : nr ≤ bl.NR)
    (hpanels : PanelsAt bl p mr nr row col pc kc packedA ap packedB bp)
    (hfirst : first = true → pc = 0)
    (hcarry : first = false → cp + bl.MR * bl.NR ≤ carry.size ∧
      CarriedAt bl ops p mr nr row col carry cp pc)
    (hlast : last = false → cp + bl.MR * bl.NR ≤ carry.size) :
    ∃ carry' stores, microKernel bl ops p kc packedA ap packedB bp carry cp first last c mr nr =
        some (carry', stores) ∧ carry'.size = carry.size ∧
      (∀ a, a < cp ∨ cp + bl.MR * bl.NR ≤ a → carry'.data a = carry.data a) ∧
      (last = false → stores = [] ∧ CarriedAt bl ops p mr nr row col carry' cp (pc + kc)) ∧
      (last = true → stores = (range mr).flatMap fun i => (range nr).map fun j =>
        ⟨c + i * p.ldc + j, finish ops p (chain ops p (row + i) (col + j) (pc + kc))⟩) := by
  have hload : ∃ acc, loadAcc bl ops carry cp first = some acc ∧
      AccAt bl ops p mr nr row col acc pc := by
    cases first with
    | true =>
      rw [hfirst rfl]
      exact loadAcc_first
    | false => exact loadAcc_carried hmr hnr (hcarry rfl).1 (hcarry rfl).2
  obtain ⟨acc, hacc, hat⟩ := hload
  obtain ⟨acc', hsteps, hat'⟩ := accSteps_spec hnr hpanels hat
  cases last with
  | true =>
    refine ⟨carry, tileStores bl ops p acc' c mr nr, ?_, rfl, fun _ _ => rfl, by simp,
      fun _ => tileStores_spec hat'⟩
    simp only [microKernel, hacc, hsteps, bind, Option.bind, Bool.not_true, Bool.false_eq_true,
      if_false]
  | false =>
    obtain ⟨carry', hset, hsz, hcarried, hother⟩ := storeAcc_spec hmr hnr (hlast rfl) hat'
    refine ⟨carry', [], ?_, hsz, hother, fun _ => ⟨rfl, hcarried⟩, by simp⟩
    simp only [microKernel, hacc, hsteps, bind, Option.bind, Bool.not_false, if_true, hset]

end Micro

end Camel.Tensor
