import Camel.Tensor.GemmRow
import Mathlib

/-! # The Whole Product

    However the tiles are split into chunks, and in whatever order the stores of the
    chunks reach the result, every element is stored once, with its whole chain.
-/

namespace Camel.Tensor

open Lib List Function

variable {α : Type} {bl : Blocking} {ops : FloatOps α} {p : Product α} {workers : Nat}

/-! ## A Column Band -/

/-- The elements of a row tile in row order. -/
def emptyCells (bl : Blocking) (p : Product α) (jc nc rowBegin x : Nat) : List (Nat × Nat) :=
  (List.range (rowCount bl p rowBegin x)).flatMap fun i =>
    (List.range nc).map fun j => (rowStart bl rowBegin x + i, jc + j)

theorem mem_emptyCells {jc nc rowBegin x i j : Nat} :
    (i, j) ∈ emptyCells bl p jc nc rowBegin x ↔
      (i < p.M ∧ i / bl.MC = rowBegin + x) ∧ jc ≤ j ∧ j < jc + nc := by
  simp only [emptyCells, mem_flatMap, mem_map, mem_range, Prod.mk.injEq]
  constructor
  · rintro ⟨i', hi', j', hj', rfl, rfl⟩
    obtain ⟨hin, hdiv, -⟩ := index_of_block (b := rowBegin + x) (d := bl.MC) (n := p.M) hi'
    exact ⟨⟨hin, hdiv⟩, by omega, by omega⟩
  · rintro ⟨⟨hi, hdiv⟩, hjlo, hjhi⟩
    obtain ⟨-, hsplit, hrow⟩ := block_of_index bl.MC_pos hi
    rw [hdiv] at hsplit hrow
    exact ⟨i % bl.MC, hrow, j - jc, by omega, hsplit, by omega⟩

theorem nodup_emptyCells {jc nc rowBegin x : Nat} : (emptyCells bl p jc nc rowBegin x).Nodup := by
  apply nodup_flatMap_of_key (fun cell => cell.1 - rowStart bl rowBegin x) nodup_range
  · intro i _
    apply List.Nodup.map _ nodup_range
    intro j j' heq
    simpa using heq
  · intro i _ cell hcell
    obtain ⟨j, -, rfl⟩ := mem_map.mp hcell
    simp

theorem finishEmptyTile_eq (jc nc rowBegin x : Nat) :
    finishEmptyTile ops p (rowStart bl rowBegin x) (rowCount bl p rowBegin x) jc nc =
      (emptyCells bl p jc nc rowBegin x).map (cellStore ops p 0) := by
  rw [finishEmptyTile, emptyCells, map_flatMap]
  apply flatMap_congr
  intro i _
  rw [map_map]
  apply map_congr_left
  intro j _
  simp only [comp_apply, cellStore, chain, Store.mk.injEq, and_true]
  ring

/-- A run of row tiles of a column band stores its elements. -/
theorem bandRun_spec (ops : FloatOps α) (jc rowBegin rowEnd : Nat) {nc room : Nat} {task : Task α}
    (hwidth : nc ≤ ncTile bl p workers) (hsized : Sized bl p workers room task)
    (hrows : rowEnd - rowBegin ≤ room) :
    ∃ task' cells, bandRun bl ops p workers jc nc rowBegin rowEnd task = some task' ∧
      Sized bl p workers room task' ∧ CellsOf bl p jc nc rowBegin (rowEnd - rowBegin) cells ∧
      task'.stores = task.stores ++ cells.map (finalStore ops p) := by
  rw [bandRun]
  split
  next hempty =>
    have hsteps : (if ops.eqZero p.alpha then 0 else p.K) = 0 := by
      rcases hempty with h | h
      · rw [if_pos h]
      · rw [h, ite_self]
    have hloop := forRange_inv (n := rowEnd - rowBegin) (s := task)
      (f := fun x task => some { task with
        stores := task.stores ++
          finishEmptyTile ops p (rowStart bl rowBegin x) (rowCount bl p rowBegin x) jc nc })
      (P := fun x task' => Sized bl p workers room task' ∧ task'.stores = task.stores ++
        ((range x).flatMap (emptyCells bl p jc nc rowBegin)).map (finalStore ops p))
      ⟨hsized, by simp⟩ ?_
    · obtain ⟨task', hrun, hsized', hstores⟩ := hloop
      exact ⟨task', _, hrun, hsized', cellsOf_rows (fun x => nodup_emptyCells)
        (fun x i j => mem_emptyCells), hstores⟩
    · intro x _ task' ⟨hsz, hstores⟩
      refine ⟨_, rfl, ⟨hsz.packedA, hsz.packedB, hsz.carry⟩, ?_⟩
      have hfinal : finalStore ops p = cellStore ops p 0 := by
        funext cell
        rw [finalStore, hsteps]
      simp only [finishEmptyTile_eq, hstores, hfinal, range_succ, flatMap_append,
        map_append, append_assoc, flatMap_cons, flatMap_nil, append_nil]
  next hempty =>
    rw [not_or] at hempty
    obtain ⟨task', hrun, hsized', hstores⟩ := kBlocks_spec ops jc rowBegin
      (pos_of_ne_zero hempty.2) hwidth hsized hrows
    refine ⟨task', _, hrun, hsized', cellsOf_rows (fun x => nodup_rowCells)
      (fun x i j => mem_rowCells), ?_⟩
    have hfinal : finalStore ops p = cellStore ops p p.K := by
      funext cell
      rw [finalStore, if_neg hempty.1]
    rw [hstores, hfinal]
    rfl

/-! ## The Tiles of a Task -/

theorem ncTile_pos (bl : Blocking) (p : Product α) (workers : Nat) : 0 < ncTile bl p workers := by
  rw [ncTile]
  split
  next =>
    have := bl.NR_pos
    simp only
    omega
  next => exact bl.NC_pos

/-- The place of an element's tile in the order of tiles: by column band, then by row. -/
def tileIndex (bl : Blocking) (p : Product α) (workers i j : Nat) : Nat :=
  j / ncTile bl p workers * mTiles bl p + i / bl.MC

theorem row_lt_mTiles (bl : Blocking) {i : Nat} (hi : i < p.M) : i / bl.MC < mTiles bl p :=
  (block_of_index bl.MC_pos hi).1

theorem tileIndex_lt_tiles {i j : Nat} (hi : i < p.M) (hj : j < p.N) :
    tileIndex bl p workers i j < tiles bl p workers := by
  have hrow := row_lt_mTiles bl hi
  have hband : j / ncTile bl p workers < nTiles bl p workers := (block_of_index (ncTile_pos bl p workers) hj).1
  have := row_le (W := mTiles bl p) hband
  simp only [tileIndex, tiles, mul_comm (mTiles bl p)]
  omega

/-- The elements of the tiles from `t` to `stop`, each once. -/
structure CellsBetween (bl : Blocking) (p : Product α) (workers t stop : Nat)
    (cells : List (Nat × Nat)) : Prop where
  nodup : cells.Nodup
  mem : ∀ i j, (i, j) ∈ cells ↔
    (i < p.M ∧ j < p.N) ∧ t ≤ tileIndex bl p workers i j ∧ tileIndex bl p workers i j < stop

theorem CellsBetween.append {t t' stop : Nat} {cells cells' : List (Nat × Nat)}
    (h : CellsBetween bl p workers t t' cells) (h' : CellsBetween bl p workers t' stop cells')
    (hle : t ≤ t') (hle' : t' ≤ stop) :
    CellsBetween bl p workers t stop (cells ++ cells') where
  nodup := by
    apply nodup_append.mpr
    refine ⟨h.nodup, h'.nodup, ?_⟩
    intro c hc c' hc' heq
    subst heq
    have h₁ := (h.mem c.1 c.2).mp hc
    have h₂ := (h'.mem c.1 c.2).mp hc'
    omega
  mem i j := by
    rw [mem_append, h.mem, h'.mem]
    omega

/-- The elements of a run of a band are those of its tiles. -/
theorem CellsOf.between {band rowBegin rowEnd : Nat} {cells : List (Nat × Nat)}
    (hrow : rowEnd ≤ mTiles bl p) (hle : rowBegin ≤ rowEnd)
    (h : CellsOf bl p (band * ncTile bl p workers)
      (min (ncTile bl p workers) (p.N - band * ncTile bl p workers)) rowBegin (rowEnd - rowBegin)
      cells) :
    CellsBetween bl p workers (band * mTiles bl p + rowBegin) (band * mTiles bl p + rowEnd)
      cells where
  nodup := h.nodup
  mem i j := by
    rw [h.mem]
    constructor
    · rintro ⟨⟨hi, hlo, hhi⟩, hjlo, hjhi⟩
      obtain ⟨hj, hdiv, -⟩ := index_of_block (n := p.N) (b := band) (d := ncTile bl p workers)
        (x := j - band * ncTile bl p workers) (by omega)
      rw [show band * ncTile bl p workers + (j - band * ncTile bl p workers) = j by omega] at hj hdiv
      rw [tileIndex, hdiv]
      exact ⟨⟨hi, hj⟩, by omega, by omega⟩
    · rintro ⟨⟨hi, hj⟩, hlo, hhi⟩
      have hrow' := row_lt_mTiles bl hi
      rw [tileIndex] at hlo hhi
      have hnonneg := Nat.zero_le (i / bl.MC)
      -- the tiles of the run are all in one band
      have hband : j / ncTile bl p workers = band := by
        rcases lt_trichotomy (j / ncTile bl p workers) band with h' | h' | h'
        · have := row_le (W := mTiles bl p) h'
          omega
        · exact h'
        · have := row_le (W := mTiles bl p) h'
          omega
      obtain ⟨-, hsplit, hcol⟩ := block_of_index (ncTile_pos bl p workers) hj
      rw [hband] at hsplit hcol hlo hhi
      exact ⟨⟨hi, by omega, by omega⟩, by omega, by omega⟩

/-- The end of the run from `t` on: that of the band that starts at `lo`, or of the task. -/
theorem run_end {lo m t stop : Nat} (hlo : lo ≤ t) (hhi : t < lo + m) (hlt : t < stop) :
    t - lo ≤ min m (stop - lo) ∧ t < lo + min m (stop - lo) ∧ lo + min m (stop - lo) ≤ stop := by
  rcases le_total m (stop - lo) with h | h
  · rw [min_eq_left h]
    omega
  · rw [min_eq_right h]
    omega

/-- A task stores the elements of its tiles. -/
theorem runTiles_spec (ops : FloatOps α) {stop t room : Nat} (hm : 0 < mTiles bl p) {task : Task α} (hle : t ≤ stop)
    (hsized : Sized bl p workers room task) (hroom : min (mTiles bl p) (stop - t) ≤ room) :
    ∃ task' cells, runTiles bl ops p workers stop t hm task = some task' ∧
      CellsBetween bl p workers t stop cells ∧
      task'.stores = task.stores ++ cells.map (finalStore ops p) := by
  induction hn : stop - t using Nat.strongRecOn generalizing t task with
  | ind n ih =>
    rw [runTiles]
    by_cases hlt : t < stop
    · rw [if_pos hlt]
      have hlo := Nat.div_mul_le_self t (mTiles bl p)
      have hhi := Nat.lt_div_mul_add hm (a := t)
      generalize t / mTiles bl p = band at hlo hhi
      -- the run from `t` to the end of its band or of the task
      obtain ⟨hrun, hnext, hstop⟩ := run_end hlo hhi hlt
      have hrows : min (mTiles bl p) (stop - band * mTiles bl p) - (t - band * mTiles bl p) ≤ room := by
        refine le_trans (le_min (le_trans (Nat.sub_le _ _) (min_le_left _ _)) ?_) hroom
        have hsplit : stop - band * mTiles bl p - (t - band * mTiles bl p) = stop - t := by omega
        rw [← hsplit]
        exact Nat.sub_le_sub_right (min_le_right _ _) _
      obtain ⟨task₁, cells₁, hrun₁, hsized₁, hcells₁, hstores₁⟩ :=
        bandRun_spec ops (band * ncTile bl p workers) (t - band * mTiles bl p)
          (min (mTiles bl p) (stop - band * mTiles bl p))
          (min_le_left (ncTile bl p workers) (p.N - band * ncTile bl p workers)) hsized hrows
      have hbetween := hcells₁.between (min_le_left _ _) hrun
      rw [Nat.add_sub_cancel' hlo] at hbetween
      obtain ⟨task₂, cells₂, hrun₂, hcells₂, hstores₂⟩ :=
        ih _ (hn ▸ Nat.sub_lt_sub_left hlt hnext) hstop hsized₁
          (le_trans (min_le_min_left _ (Nat.sub_le_sub_left hnext.le _)) hroom) rfl
      refine ⟨task₂, cells₁ ++ cells₂, ?_, hbetween.append hcells₂ hnext.le hstop, ?_⟩
      · simp only [hrun₁, Option.bind_some, hrun₂]
      · rw [hstores₂, hstores₁, map_append, append_assoc]
    · rw [if_neg hlt]
      refine ⟨task, [], rfl, ⟨nodup_nil, ?_⟩, by simp⟩
      intro i j
      simp only [not_mem_nil, false_iff]
      omega

/-- The body of the parallel region on its chunk. -/
theorem taskStores_spec (ops : FloatOps α) (workers : Nat) {start stop : Nat}
    (hm : 0 < mTiles bl p) (hle : start ≤ stop)
    (garbage : Fin 3 → Nat → α) :
    ∃ cells, taskStores bl ops p workers start stop hm garbage =
        some (cells.map (finalStore ops p)) ∧ CellsBetween bl p workers start stop cells := by
  have hsized : Sized bl p workers (min (mTiles bl p) (stop - start))
      (Task.start bl p workers start stop garbage) := by
    refine ⟨rfl, rfl, fun hK => ?_⟩
    simp only [Task.start, if_pos hK]
    exact le_rfl
  obtain ⟨task, cells, hrun, hcells, hstores⟩ := runTiles_spec ops hm hle hsized
    le_rfl
  refine ⟨cells, ?_, hcells⟩
  rw [taskStores, hrun, Option.map_some, hstores]
  rfl

/-! ## The Product -/

/-- Contiguous chunks from `a` to `b`. -/
def Splits : Nat → Nat → List (Nat × Nat) → Prop
  | a, b, [] => a = b
  | a, b, (start, stop) :: rest => start = a ∧ a ≤ stop ∧ Splits stop b rest

theorem Splits.le {a b : Nat} {chunks : List (Nat × Nat)} (h : Splits a b chunks) : a ≤ b := by
  induction chunks generalizing a with
  | nil => exact le_of_eq h
  | cons chunk rest ih => exact le_trans h.2.1 (ih h.2.2)

/-- The chunks together store the elements of all tiles. -/
theorem chunks_spec (ops : FloatOps α) (hm : 0 < mTiles bl p) {a b : Nat}
    {splits : List ((Nat × Nat) × (Fin 3 → Nat → α))} (h : Splits a b (splits.map Prod.fst)) :
    ∃ results cells, (splits.mapM fun s => taskStores bl ops p workers s.1.1 s.1.2 hm s.2) =
        some results ∧ results.flatten = cells.map (finalStore ops p) ∧
      CellsBetween bl p workers a b cells := by
  induction splits generalizing a with
  | nil =>
    refine ⟨[], [], rfl, rfl, nodup_nil, fun i j => ?_⟩
    have heq : a = b := h
    simp only [not_mem_nil, false_iff]
    omega
  | cons s splits ih =>
    obtain ⟨⟨start, stop⟩, garbage⟩ := s
    obtain ⟨rfl, hle, hrest⟩ := h
    obtain ⟨cells₁, hstores, hcells₁⟩ := taskStores_spec ops workers hm hle garbage
    obtain ⟨results, cells₂, hmap, hflat, hcells₂⟩ := ih hrest
    refine ⟨cells₁.map (finalStore ops p) :: results, cells₁ ++ cells₂, ?_, ?_,
      hcells₁.append hcells₂ hle hrest.le⟩
    · simp only [mapM_cons, hstores, hmap, bind, Option.bind, pure]
    · rw [flatten_cons, hflat, map_append]

/-- Stores to different elements. -/
theorem applyStores_spec {stores : List (Store α)} (h : (stores.map Store.addr).Nodup)
    (C : Nat → α) :
    (∀ s ∈ stores, applyStores stores C s.addr = s.value (C s.addr)) ∧
      ∀ a, a ∉ stores.map Store.addr → applyStores stores C a = C a := by
  induction stores generalizing C with
  | nil => exact ⟨by simp, fun _ _ => rfl⟩
  | cons s stores ih =>
    obtain ⟨hnot, hrest⟩ := nodup_cons.mp h
    obtain ⟨hin, hout⟩ := ih hrest (update C s.addr (s.value (C s.addr)))
    constructor
    · intro s' hs'
      rcases mem_cons.mp hs' with rfl | hs'
      · show applyStores stores _ s'.addr = _
        rw [hout _ hnot, update_self]
      · have hne : s'.addr ≠ s.addr := fun heq => hnot (heq ▸ mem_map_of_mem hs')
        show applyStores stores _ s'.addr = _
        rw [hin s' hs', update_of_ne hne]
    · intro a ha
      simp only [map_cons, mem_cons, not_or] at ha
      show applyStores stores _ a = _
      rw [hout a ha.2, update_of_ne ha.1]

/-- Elements of rows that do not overlap have different addresses. -/
theorem cell_inj {i j i' j' : Nat} (hrows : p.M ≤ 1 ∨ p.N ≤ p.ldc) (hi : i < p.M) (hj : j < p.N)
    (hi' : i' < p.M) (hj' : j' < p.N) (h : i * p.ldc + j = i' * p.ldc + j') : i = i' ∧ j = j' := by
  rcases hrows with hM | hN
  · have hi0 : i = 0 := by omega
    have hi0' : i' = 0 := by omega
    subst hi0 hi0'
    exact ⟨rfl, by omega⟩
  · exact place_inj (by omega) (by omega) h

/-- The product, for all block sizes, vector widths, worker counts and chunks, whatever the
    buffers hold at the start: no access leaves its buffer, and in any order of the stores
    each element is the whole chain in ascending `k`, finished with the old element, and
    nothing else is stored. With `alpha` 0 the chain has no steps. -/
theorem gemm_spec (bl : Blocking) (ops : FloatOps α) (p : Product α) (workers : Nat)
    (splits : List ((Nat × Nat) × (Fin 3 → Nat → α)))
    (hsplits : Splits 0 (tiles bl p workers) (splits.map Prod.fst))
    (hrows : p.M ≤ 1 ∨ p.N ≤ p.ldc) :
    ∃ results, gemm bl ops p workers splits = some results ∧
      ∀ (events : List (Store α)) (C : Nat → α), events.Perm results.flatten →
        (∀ i < p.M, ∀ j < p.N, applyStores events C (i * p.ldc + j) =
          finish ops p (chain ops p i j (if ops.eqZero p.alpha then 0 else p.K))
            (C (i * p.ldc + j))) ∧
        ∀ a, (∀ i < p.M, ∀ j < p.N, a ≠ i * p.ldc + j) → applyStores events C a = C a := by
  by_cases hempty : p.M = 0 ∨ p.N = 0
  · refine ⟨[], by rw [gemm, dif_pos hempty], fun events C hperm => ?_⟩
    have hnil : events = [] := List.perm_nil.mp hperm
    subst hnil
    exact ⟨fun i hi j hj => by omega, fun _ _ => rfl⟩
  · have hm : 0 < mTiles bl p := (lt_blocks_iff bl.MC_pos).mpr (by omega)
    obtain ⟨results, cells, hmap, hflat, hcells⟩ := chunks_spec ops hm hsplits
    refine ⟨results, by rw [gemm, dif_neg hempty]; exact hmap, fun events C hperm => ?_⟩
    rw [hflat] at hperm
    have hmem : ∀ i j, (i, j) ∈ cells ↔ i < p.M ∧ j < p.N := by
      intro i j
      rw [hcells.mem]
      constructor
      · exact fun h => h.1
      · exact fun h => ⟨h, Nat.zero_le _, tileIndex_lt_tiles h.1 h.2⟩
    -- different elements, so different addresses
    have hnodup : (events.map Store.addr).Nodup := by
      rw [(hperm.map Store.addr).nodup_iff, map_map]
      apply Nodup.map_on _ hcells.nodup
      intro c hc c' hc' heq
      have h₁ := (hmem c.1 c.2).mp hc
      have h₂ := (hmem c'.1 c'.2).mp hc'
      obtain ⟨hfst, hsnd⟩ := cell_inj hrows h₁.1 h₁.2 h₂.1 h₂.2 heq
      exact Prod.ext hfst hsnd
    obtain ⟨hin, hout⟩ := applyStores_spec hnodup C
    constructor
    · intro i hi j hj
      have hstore : finalStore ops p (i, j) ∈ events :=
        hperm.mem_iff.mpr (mem_map_of_mem ((hmem i j).mpr ⟨hi, hj⟩))
      exact hin _ hstore
    · intro a ha
      apply hout
      intro hmem'
      obtain ⟨s, hs, rfl⟩ := mem_map.mp hmem'
      obtain ⟨⟨i, j⟩, hc, rfl⟩ := mem_map.mp (hperm.mem_iff.mp hs)
      obtain ⟨hi, hj⟩ := (hmem i j).mp hc
      exact ha i hi j hj rfl

/-- Integers and a value that is not a number. -/
def nanOps : FloatOps (Option Int) where
  zero := some 0
  fma a b c := do some ((← a) * (← b) + (← c))
  mul a b := do some ((← a) * (← b))
  add a b := do some ((← a) + (← b))
  eqZero a := a == some 0
  eqOne a := a == some 1

/-- A product of one row of two and one column of two. -/
def smallProduct (M : Nat) (alpha beta a : Option Int) (ldc : Nat) : Product (Option Int) where
  transA := false
  transB := true
  M := M
  N := 1
  K := 2
  alpha := alpha
  A := fun _ => a
  lda := 2
  B := fun k => some k
  ldb := 2
  beta := beta
  ldc := ldc

theorem gemm_spec_small :
    Splits 0 (tiles .generic (smallProduct 1 (some 3) (some 1) (some 2) 1) 1) [(0, 1)] ∧
      ∃ results, gemm .generic nanOps (smallProduct 1 (some 3) (some 1) (some 2) 1) 1
          [((0, 1), fun _ _ => none)] = some results ∧
        ∀ (events : List (Store (Option Int))) (C : Nat → Option Int),
          events.Perm results.flatten →
          (∀ i < 1, ∀ j < 1, applyStores events C (i * 1 + j) =
            finish nanOps (smallProduct 1 (some 3) (some 1) (some 2) 1)
              (chain nanOps (smallProduct 1 (some 3) (some 1) (some 2) 1) i j 2) (C (i * 1 + j))) ∧
          ∀ a, (∀ i < 1, ∀ j < 1, a ≠ i * 1 + j) → applyStores events C a = C a :=
  ⟨⟨rfl, by decide, rfl⟩, gemm_spec .generic nanOps (smallProduct 1 (some 3) (some 1) (some 2) 1) 1
    [((0, 1), fun _ _ => none)] ⟨rfl, by decide, rfl⟩ (.inl (by decide))⟩

/-- With `alpha` 0 an operand that is not a number does not reach the result, and where rows
    of the result overlap an element is finished twice. -/
theorem gemm_exceptions :
    ((gemm .generic nanOps (smallProduct 1 (some 0) (some 0) none 1) 1
        [((0, 1), fun _ _ => none)]).map fun r => applyStores r.flatten (fun _ => none) 0) =
      some (some 0) ∧
    finish nanOps (smallProduct 1 (some 0) (some 0) none 1)
      (chain nanOps (smallProduct 1 (some 0) (some 0) none 1) 0 0 2) none = none ∧
    ((gemm .generic nanOps (smallProduct 2 (some 1) (some 1) (some 2) 0) 1
        [((0, 1), fun _ _ => none)]).map fun r => applyStores r.flatten (fun _ => some 0) 0) =
      some (some 4) ∧
    finish nanOps (smallProduct 2 (some 1) (some 1) (some 2) 0)
      (chain nanOps (smallProduct 2 (some 1) (some 1) (some 2) 0) 0 0 2) (some 0) = some 2 := by
  decide +kernel

end Camel.Tensor
