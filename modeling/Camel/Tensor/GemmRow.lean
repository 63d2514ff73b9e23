import Camel.Tensor.Gemm

/-! # Row Tiles and Column Bands

    In one K block a row tile goes through its micro tiles, each with a place of its
    own in the carry buffer. Over all K blocks a run of row tiles of a column band
    stores each of its elements once, with the whole chain.
-/

namespace Camel.Tensor

open Lib List

variable {α : Type} {bl : Blocking} {ops : FloatOps α} {p : Product α}
variable {workers jc nc rowBegin : Nat}

/-! ## Places -/

/-- The first row of a row tile. -/
def rowStart (bl : Blocking) (rowBegin x : Nat) : Nat := (rowBegin + x) * bl.MC

/-- The number of its rows. -/
def rowCount (bl : Blocking) (p : Product α) (rowBegin x : Nat) : Nat :=
  min bl.MC (p.M - rowStart bl rowBegin x)

/-- The place of a micro tile in the carry buffer. -/
def carryPlace (bl : Blocking) (p : Product α) (workers x u y : Nat) : Nat :=
  x * tileCarrySize bl p workers + (u * colBlocks bl p workers + y) * bl.MR * bl.NR

/-- The chains of a micro tile after `k` steps are in the carry buffer. -/
def BlockCarried (bl : Blocking) (ops : FloatOps α) (p : Product α)
    (workers jc nc rowBegin x u y : Nat) (carry : Buffer α) (k : Nat) : Prop :=
  CarriedAt bl ops p (min bl.MR (rowCount bl p rowBegin x - u * bl.MR))
    (min bl.NR (nc - y * bl.NR)) (rowStart bl rowBegin x + u * bl.MR) (jc + y * bl.NR) carry
    (carryPlace bl p workers x u y) k

/-- The chains of a row tile after `k` steps are in the carry buffer. -/
def RowCarried (bl : Blocking) (ops : FloatOps α) (p : Product α)
    (workers jc nc rowBegin x : Nat) (carry : Buffer α) (k : Nat) : Prop :=
  ∀ u < blocks (rowCount bl p rowBegin x) bl.MR, ∀ y < blocks nc bl.NR,
    BlockCarried bl ops p workers jc nc rowBegin x u y carry k

theorem CarriedAt.congr {mr nr row col cp k : Nat} {carry carry' : Buffer α} (hmr : mr ≤ bl.MR)
    (hnr : nr ≤ bl.NR) (h : CarriedAt bl ops p mr nr row col carry cp k)
    (hsame : ∀ a, cp ≤ a → a < cp + bl.MR * bl.NR → carry'.data a = carry.data a) :
    CarriedAt bl ops p mr nr row col carry' cp k := by
  intro i hi j hj
  have hrow := row_le (W := bl.NR) (show i < bl.MR by omega)
  rw [hsame _ (by omega) (by omega)]
  exact h i hi j hj

/-- Micro tile `b` of a row of tiles ends before the next one begins. -/
theorem place_apart {b b' S : Nat} (h : b < b') : b * S + S ≤ b' * S := by
  have := Nat.mul_le_mul_right S (show b + 1 ≤ b' from h)
  rwa [add_mul, one_mul] at this

section Places

variable {x u y u' y' : Nat}

/-- The places of a row tile are inside its share of the carry buffer. -/
theorem carryPlace_bounds (hu : u < rowBlocks bl) (hy : y < colBlocks bl p workers) :
    x * tileCarrySize bl p workers ≤ carryPlace bl p workers x u y ∧
      carryPlace bl p workers x u y + bl.MR * bl.NR ≤ (x + 1) * tileCarrySize bl p workers := by
  have hb : u * colBlocks bl p workers + y < rowBlocks bl * colBlocks bl p workers := by
    have := row_le (W := colBlocks bl p workers) hu
    omega
  have hplace := row_le (W := bl.MR * bl.NR) hb
  simp only [carryPlace, tileCarrySize, add_mul, one_mul] at *
  simp only [mul_assoc] at *
  omega

theorem carryPlace_apart (hy : y < colBlocks bl p workers) (hy' : y' < colBlocks bl p workers)
    (hne : ¬ (u = u' ∧ y = y')) :
    carryPlace bl p workers x u y + bl.MR * bl.NR ≤ carryPlace bl p workers x u' y' ∨
      carryPlace bl p workers x u' y' + bl.MR * bl.NR ≤ carryPlace bl p workers x u y := by
  have hb : u * colBlocks bl p workers + y ≠ u' * colBlocks bl p workers + y' := by
    intro h
    exact hne (place_inj hy hy' h)
  simp only [carryPlace, mul_assoc]
  rcases Nat.lt_or_gt_of_ne hb with h | h
  · have := place_apart (S := bl.MR * bl.NR) h
    omega
  · have := place_apart (S := bl.MR * bl.NR) h
    omega

end Places

/-! ## A Row Tile in One K Block -/

/-- The depth of the K block at `pc`. -/
def blockDepth (bl : Blocking) (p : Product α) (pc : Nat) : Nat := min bl.KC (p.K - pc)

/-- The elements of a micro tile. -/
def tileCells (bl : Blocking) (p : Product α) (jc nc rowBegin x u y : Nat) : List (Nat × Nat) :=
  (List.range (min bl.MR (rowCount bl p rowBegin x - u * bl.MR))).flatMap fun i =>
    (List.range (min bl.NR (nc - y * bl.NR))).map fun j =>
      (rowStart bl rowBegin x + u * bl.MR + i, jc + y * bl.NR + j)

/-- The elements of a row tile, as they are stored. -/
def rowCells (bl : Blocking) (p : Product α) (jc nc rowBegin x : Nat) : List (Nat × Nat) :=
  (List.range (blocks nc bl.NR)).flatMap fun y =>
    (List.range (blocks (rowCount bl p rowBegin x) bl.MR)).flatMap fun u =>
      tileCells bl p jc nc rowBegin x u y

/-- The store of an element, with a chain of `k` steps. -/
def cellStore (ops : FloatOps α) (p : Product α) (k : Nat) (cell : Nat × Nat) : Store α :=
  ⟨cell.1 * p.ldc + cell.2, finish ops p (chain ops p cell.1 cell.2 k)⟩

/-- The elements stored in the K block at `pc`: none but in the last one. -/
def storedIn (bl : Blocking) (p : Product α) (pc : Nat) (cells : List (Nat × Nat)) :
    List (Nat × Nat) :=
  if pc + blockDepth bl p pc = p.K then cells else []

/-- Row tile `x` in the middle of the K block at `pc`: the micro tiles in `D` are done. -/
structure RowInv (bl : Blocking) (ops : FloatOps α) (p : Product α)
    (workers jc nc rowBegin pc x : Nat) (D : Nat → Nat → Prop) (start task : Task α) : Prop where
  packedA : task.packedA = start.packedA
  packedB : task.packedB = start.packedB
  size : task.carry.size = start.carry.size
  frame : ∀ a, a < x * tileCarrySize bl p workers ∨ (x + 1) * tileCarrySize bl p workers ≤ a →
    task.carry.data a = start.carry.data a
  finished : pc + blockDepth bl p pc ≠ p.K →
    ∀ u < blocks (rowCount bl p rowBegin x) bl.MR, ∀ y < blocks nc bl.NR, D u y →
      BlockCarried bl ops p workers jc nc rowBegin x u y task.carry (pc + blockDepth bl p pc)
  todo : pc ≠ 0 →
    ∀ u < blocks (rowCount bl p rowBegin x) bl.MR, ∀ y < blocks nc bl.NR, ¬ D u y →
      BlockCarried bl ops p workers jc nc rowBegin x u y task.carry pc

/-- What the micro tiles of a row tile rely on. -/
structure RowReady (bl : Blocking) (p : Product α) (workers jc nc rowBegin pc x : Nat)
    (task : Task α) : Prop where
  width : nc ≤ ncTile bl p workers
  packedA : Packed task.packedA bl.MR (blockDepth bl p pc) (rowCount bl p rowBegin x) fun i k =>
    elemA p (rowStart bl rowBegin x + i) (pc + k)
  sizeA : blocks (rowCount bl p rowBegin x) bl.MR * blockDepth bl p pc * bl.MR ≤ task.packedA.size
  packedB : Packed task.packedB bl.NR (blockDepth bl p pc) nc fun j k => elemB p (pc + k) (jc + j)
  sizeB : blocks nc bl.NR * blockDepth bl p pc * bl.NR ≤ task.packedB.size
  carry : pc ≠ 0 ∨ pc + blockDepth bl p pc ≠ p.K →
    (x + 1) * tileCarrySize bl p workers ≤ task.carry.size

variable {pc x u y : Nat} {task : Task α}

theorem RowReady.panels
    (h : RowReady bl p workers jc nc rowBegin pc x task)
    (hu : u < blocks (rowCount bl p rowBegin x) bl.MR) (hy : y < blocks nc bl.NR) :
    PanelsAt bl p (min bl.MR (rowCount bl p rowBegin x - u * bl.MR)) (min bl.NR (nc - y * bl.NR))
      (rowStart bl rowBegin x + u * bl.MR) (jc + y * bl.NR) pc (blockDepth bl p pc) task.packedA
      (u * blockDepth bl p pc * bl.MR) task.packedB (y * blockDepth bl p pc * bl.NR) where
  sizeA := by
    have := row_le (W := blockDepth bl p pc * bl.MR) hu
    have hsize := h.sizeA
    simp only [mul_assoc] at *
    omega
  sizeB := by
    have := row_le (W := blockDepth bl p pc * bl.NR) hy
    have hsize := h.sizeB
    simp only [mul_assoc] at *
    omega
  elemA k hk i hi := by
    rw [h.packedA u hu k hk i (by omega) (by omega), add_assoc]
  elemB k hk j hj := by
    rw [h.packedB y hy k hk j (by omega) (by omega), add_assoc]

/-- The micro tiles of a tile have places of their own. -/
theorem microBlocks_le (hu : u < blocks (rowCount bl p rowBegin x) bl.MR) :
    u < rowBlocks bl := by
  have hmono := blocks_mono bl.MR_pos (show rowCount bl p rowBegin x ≤ bl.MC from min_le_left _ _)
  exact lt_of_lt_of_le hu hmono

theorem microStep_eq (pc x y u : Nat) (task : Task α) :
    microStep bl ops p workers pc jc nc rowBegin x y u task =
      (microKernel bl ops p (blockDepth bl p pc) task.packedA (u * blockDepth bl p pc * bl.MR)
        task.packedB (y * blockDepth bl p pc * bl.NR) task.carry (carryPlace bl p workers x u y)
        (pc = 0) (pc + blockDepth bl p pc = p.K)
        ((rowStart bl rowBegin x + u * bl.MR) * p.ldc + jc + y * bl.NR)
        (min bl.MR (rowCount bl p rowBegin x - u * bl.MR)) (min bl.NR (nc - y * bl.NR))).bind
          fun r => some { task with carry := r.1, stores := task.stores ++ r.2 } :=
  rfl

variable {start : Task α}

/-- One micro tile. -/
theorem RowInv.micro {D : Nat → Nat → Prop}
    (hready : RowReady bl p workers jc nc rowBegin pc x start)
    (h : RowInv bl ops p workers jc nc rowBegin pc x D start task)
    (hu : u < blocks (rowCount bl p rowBegin x) bl.MR) (hy : y < blocks nc bl.NR)
    (hnew : ¬ D u y) :
    ∃ task', microStep bl ops p workers pc jc nc rowBegin x y u task = some task' ∧
      task'.stores = task.stores ++
        (storedIn bl p pc (tileCells bl p jc nc rowBegin x u y)).map (cellStore ops p p.K) ∧
      RowInv bl ops p workers jc nc rowBegin pc x (fun u' y' => D u' y' ∨ (u' = u ∧ y' = y)) start
        task' := by
  have hu' := microBlocks_le hu
  have hy' : ∀ {y'}, y' < blocks nc bl.NR → y' < colBlocks bl p workers := fun h' =>
    lt_of_lt_of_le h' (blocks_mono bl.NR_pos hready.width)
  obtain ⟨hlow, hhigh⟩ := carryPlace_bounds (x := x) hu' (hy' hy)
  have hroom : pc ≠ 0 ∨ pc + blockDepth bl p pc ≠ p.K →
      carryPlace bl p workers x u y + bl.MR * bl.NR ≤ task.carry.size := by
    intro hneeded
    have := hready.carry hneeded
    rw [h.size]
    omega
  have hpanels := hready.panels hu hy
  rw [← h.packedA, ← h.packedB] at hpanels
  obtain ⟨carry, stores, hmicro, hsize, hother, hkept, hstored⟩ := microKernel_spec
    ops (pc = 0) (pc + blockDepth bl p pc = p.K)
    ((rowStart bl rowBegin x + u * bl.MR) * p.ldc + jc + y * bl.NR)
    (min_le_left _ _) (min_le_left _ _) hpanels (fun hfirst => of_decide_eq_true hfirst)
    (fun hfirst => ⟨hroom (.inl (of_decide_eq_false hfirst)),
      h.todo (of_decide_eq_false hfirst) u hu y hy hnew⟩)
    (fun hlast => hroom (.inr (of_decide_eq_false hlast)))
  -- the other micro tiles of the row keep what they have
  have hkeep : ∀ {u' y' k}, u' < blocks (rowCount bl p rowBegin x) bl.MR → y' < blocks nc bl.NR →
      ¬ (u' = u ∧ y' = y) →
      BlockCarried bl ops p workers jc nc rowBegin x u' y' task.carry k →
      BlockCarried bl ops p workers jc nc rowBegin x u' y' carry k := by
    intro u' y' k hu₁ hy₁ hne hcarried
    apply CarriedAt.congr (min_le_left _ _) (min_le_left _ _) hcarried
    intro a hlo hhi
    apply hother
    rcases carryPlace_apart (x := x) (hy' hy₁) (hy' hy) hne with hapart | hapart
    · omega
    · omega
  refine ⟨{ task with carry := carry, stores := task.stores ++ stores }, ?_, ?_, ?_⟩
  · rw [microStep_eq, hmicro]
    rfl
  · show task.stores ++ stores = _
    congr 1
    rw [storedIn]
    split
    next hlast =>
      rw [hstored (decide_eq_true hlast), tileCells, map_flatMap]
      apply flatMap_congr
      intro i _
      rw [map_map]
      apply map_congr_left
      intro j _
      simp only [Function.comp_apply, cellStore, hlast, Store.mk.injEq, and_true]
      ring
    next hlast => exact (hkept (decide_eq_false hlast)).1
  · constructor
    · exact h.packedA
    · exact h.packedB
    · exact hsize.trans h.size
    · intro a ha
      rw [← h.frame a ha]
      apply hother
      omega
    · intro hlast u' hu₁ y' hy₁ hdone
      by_cases heq : u' = u ∧ y' = y
      · obtain ⟨rfl, rfl⟩ := heq
        exact (hkept (decide_eq_false hlast)).2
      · apply hkeep hu₁ hy₁ heq
        exact h.finished hlast u' hu₁ y' hy₁ (hdone.resolve_right heq)
    · intro hfirst u' hu₁ y' hy₁ hdone
      rw [not_or] at hdone
      exact hkeep hu₁ hy₁ hdone.2 (h.todo hfirst u' hu₁ y' hy₁ hdone.1)

theorem RowInv.congr {D D' : Nat → Nat → Prop}
    (h : RowInv bl ops p workers jc nc rowBegin pc x D start task)
    (hD : ∀ u < blocks (rowCount bl p rowBegin x) bl.MR, ∀ y < blocks nc bl.NR, D u y ↔ D' u y) :
    RowInv bl ops p workers jc nc rowBegin pc x D' start task :=
  { h with
    finished := fun hlast u hu y hy hdone => h.finished hlast u hu y hy ((hD u hu y hy).mpr hdone)
    todo := fun hfirst u hu y hy hdone =>
      h.todo hfirst u hu y hy fun hd => hdone ((hD u hu y hy).mp hd) }

theorem storedIn_append (pc : Nat) (xs ys : List (Nat × Nat)) :
    storedIn bl p pc (xs ++ ys) = storedIn bl p pc xs ++ storedIn bl p pc ys := by
  rw [storedIn, storedIn, storedIn]
  split <;> simp

/-- The micro tiles of a row tile, column by column. -/
theorem rowLoop_spec
    (hready : RowReady bl p workers jc nc rowBegin pc x start)
    (hprev : pc ≠ 0 → RowCarried bl ops p workers jc nc rowBegin x start.carry pc) :
    ∃ task, forRange (blocks nc bl.NR) (fun y =>
        forRange (blocks (rowCount bl p rowBegin x) bl.MR)
          (microStep bl ops p workers pc jc nc rowBegin x y)) start = some task ∧
      RowInv bl ops p workers jc nc rowBegin pc x (fun _ _ => True) start task ∧
      task.stores = start.stores ++
        (storedIn bl p pc (rowCells bl p jc nc rowBegin x)).map (cellStore ops p p.K) := by
  have hloop := forRange_inv (n := blocks nc bl.NR) (s := start)
    (f := fun y => forRange (blocks (rowCount bl p rowBegin x) bl.MR)
      (microStep bl ops p workers pc jc nc rowBegin x y))
    (P := fun y task => RowInv bl ops p workers jc nc rowBegin pc x (fun _ y' => y' < y) start task ∧
      task.stores = start.stores ++ (storedIn bl p pc ((range y).flatMap fun y' =>
        (range (blocks (rowCount bl p rowBegin x) bl.MR)).flatMap fun u =>
          tileCells bl p jc nc rowBegin x u y')).map (cellStore ops p p.K)) ?_ ?_
  · obtain ⟨task, hrun, hinv, hstores⟩ := hloop
    refine ⟨task, hrun, hinv.congr ?_, hstores⟩
    intro u _ y hy
    simp [hy]
  · refine ⟨⟨rfl, rfl, rfl, fun _ _ => rfl, ?_, fun hfirst u hu y hy _ => hprev hfirst u hu y hy⟩, ?_⟩
    · intro _ u _ y _ hlt
      omega
    · simp [storedIn]
  · -- the micro tiles of one column
    intro y hy task ⟨hinv, hstores⟩
    have hcol := forRange_inv (n := blocks (rowCount bl p rowBegin x) bl.MR) (s := task)
      (f := microStep bl ops p workers pc jc nc rowBegin x y)
      (P := fun u task' => RowInv bl ops p workers jc nc rowBegin pc x
        (fun u' y' => y' < y ∨ (y' = y ∧ u' < u)) start task' ∧
        task'.stores = task.stores ++ (storedIn bl p pc ((range u).flatMap fun u' =>
          tileCells bl p jc nc rowBegin x u' y)).map (cellStore ops p p.K)) ?_ ?_
    · obtain ⟨task', hrun, hinv', hstores'⟩ := hcol
      refine ⟨task', hrun, hinv'.congr ?_, ?_⟩
      · intro u hu y' _
        omega
      · rw [hstores', hstores, range_succ, flatMap_append, storedIn_append,
          map_append, append_assoc]
        simp
    · refine ⟨hinv.congr ?_, by simp [storedIn]⟩
      intro u _ y' _
      omega
    · intro u hu task' ⟨hinv', hstores'⟩
      obtain ⟨task'', hstep, hstores'', hinv''⟩ := hinv'.micro hready hu hy (by omega)
      refine ⟨task'', hstep, hinv''.congr ?_, ?_⟩
      · intro u' _ y' _
        omega
      · rw [hstores'', hstores', range_succ, flatMap_append, storedIn_append,
          map_append, append_assoc]
        simp

/-- The buffers of a task have room for `rows` row tiles. -/
structure Sized (bl : Blocking) (p : Product α) (workers rows : Nat) (task : Task α) : Prop where
  packedA : task.packedA.size = rowBlocks bl * bl.MR * min bl.KC p.K
  packedB : task.packedB.size = colBlocks bl p workers * bl.NR * min bl.KC p.K
  carry : bl.KC < p.K → rows * tileCarrySize bl p workers ≤ task.carry.size

/-- The K blocks begin at multiples of `KC`. -/
structure BlockStart (bl : Blocking) (p : Product α) (pc : Nat) : Prop where
  lt : pc < p.K
  multiple : bl.KC ∣ pc

theorem BlockStart.several (h : BlockStart bl p pc)
    (hsome : pc ≠ 0 ∨ pc + blockDepth bl p pc ≠ p.K) : bl.KC < p.K := by
  have hlt := h.lt
  rcases hsome with hpc | hend
  · have := Nat.le_of_dvd (pos_of_ne_zero hpc) h.multiple
    omega
  · simp only [blockDepth] at hend
    omega

theorem panel_le {n m W kc kcMax : Nat} (hn : n ≤ m) (hkc : kc ≤ kcMax) :
    n * kc * W ≤ m * W * kcMax := by
  have h₁ : n * kc * W ≤ m * kcMax * W :=
    Nat.mul_le_mul_right W (Nat.mul_le_mul hn hkc)
  rwa [Nat.mul_right_comm m kcMax W] at h₁

variable {rows : Nat}

theorem rowTileStep_spec (hpc : BlockStart bl p pc)
    (hwidth : nc ≤ ncTile bl p workers) (hsized : Sized bl p workers rows task) (hx : x < rows)
    (hpacked : Packed task.packedB bl.NR (blockDepth bl p pc) nc fun j k =>
      elemB p (pc + k) (jc + j))
    (hprev : pc ≠ 0 → RowCarried bl ops p workers jc nc rowBegin x task.carry pc) :
    ∃ task', rowTileStep bl ops p workers pc jc nc rowBegin x task = some task' ∧
      Sized bl p workers rows task' ∧ task'.packedB = task.packedB ∧
      (∀ a, a < x * tileCarrySize bl p workers ∨ (x + 1) * tileCarrySize bl p workers ≤ a →
        task'.carry.data a = task.carry.data a) ∧
      (pc + blockDepth bl p pc ≠ p.K →
        RowCarried bl ops p workers jc nc rowBegin x task'.carry (pc + blockDepth bl p pc)) ∧
      task'.stores = task.stores ++
        (storedIn bl p pc (rowCells bl p jc nc rowBegin x)).map (cellStore ops p p.K) := by
  have hdepth : blockDepth bl p pc ≤ min bl.KC p.K := by
    simp only [blockDepth]
    omega
  have hroomA : blocks (rowCount bl p rowBegin x) bl.MR * blockDepth bl p pc * bl.MR ≤
      task.packedA.size := by
    rw [hsized.packedA]
    exact panel_le (blocks_mono bl.MR_pos (min_le_left _ _)) hdepth
  have hroomB : blocks nc bl.NR * blockDepth bl p pc * bl.NR ≤ task.packedB.size := by
    rw [hsized.packedB]
    exact panel_le (blocks_mono bl.NR_pos hwidth) hdepth
  obtain ⟨packedA, hpackA, hsizeA, hpackedA⟩ := packA_spec bl ops p
    (rowStart bl rowBegin x) _ pc _ hroomA
  have hready : RowReady bl p workers jc nc rowBegin pc x { task with packedA := packedA } := by
    refine ⟨hwidth, hpackedA, ?_, hpacked, hroomB, fun hneeded => ?_⟩
    · show _ ≤ packedA.size
      rw [hsizeA]
      exact hroomA
    · have hcarry := hsized.carry (hpc.several hneeded)
      have := Nat.mul_le_mul_right (tileCarrySize bl p workers) (show x + 1 ≤ rows from hx)
      show _ ≤ task.carry.size
      omega
  obtain ⟨task', hloop, hinv, hstores⟩ := rowLoop_spec hready hprev
  refine ⟨task', ?_, ?_, hinv.packedB, hinv.frame, ?_, hstores⟩
  · show (packA bl ops p (rowStart bl rowBegin x) (rowCount bl p rowBegin x) pc (blockDepth bl p pc)
      task.packedA).bind _ = _
    rw [hpackA]
    exact hloop
  · refine ⟨?_, ?_, ?_⟩
    · rw [hinv.packedA]
      exact hsizeA.trans hsized.packedA
    · rw [hinv.packedB]
      exact hsized.packedB
    · rw [hinv.size]
      exact hsized.carry
  · intro hlast u hu y hy
    exact hinv.finished hlast u hu y hy trivial

/-! ## A Run of Row Tiles -/

theorem RowCarried.congr {k : Nat} {carry carry' : Buffer α}
    (hwidth : nc ≤ ncTile bl p workers)
    (h : RowCarried bl ops p workers jc nc rowBegin x carry k)
    (hsame : ∀ a, x * tileCarrySize bl p workers ≤ a → a < (x + 1) * tileCarrySize bl p workers →
      carry'.data a = carry.data a) :
    RowCarried bl ops p workers jc nc rowBegin x carry' k := by
  intro u hu y hy
  have hy' : y < colBlocks bl p workers :=
    lt_of_lt_of_le hy (blocks_mono bl.NR_pos hwidth)
  obtain ⟨hlow, hhigh⟩ := carryPlace_bounds (x := x) (microBlocks_le hu) hy'
  apply CarriedAt.congr (min_le_left _ _) (min_le_left _ _) (h u hu y hy)
  intro a hlo hhi
  exact hsame a (by omega) (by omega)

/-- The elements of a run of row tiles. -/
def runCells (bl : Blocking) (p : Product α) (jc nc rowBegin rows : Nat) : List (Nat × Nat) :=
  (List.range rows).flatMap (rowCells bl p jc nc rowBegin)

/-- All row tiles of a run in one K block. -/
theorem rowTiles_spec {room : Nat} (hpc : BlockStart bl p pc)
    (hwidth : nc ≤ ncTile bl p workers) (hsized : Sized bl p workers room start) (hrows : rows ≤ room)
    (hpacked : Packed start.packedB bl.NR (blockDepth bl p pc) nc fun j k =>
      elemB p (pc + k) (jc + j))
    (hprev : pc ≠ 0 → ∀ x < rows, RowCarried bl ops p workers jc nc rowBegin x start.carry pc) :
    ∃ task, forRange rows (rowTileStep bl ops p workers pc jc nc rowBegin) start = some task ∧
      Sized bl p workers room task ∧
      (pc + blockDepth bl p pc ≠ p.K → ∀ x < rows,
        RowCarried bl ops p workers jc nc rowBegin x task.carry (pc + blockDepth bl p pc)) ∧
      task.stores = start.stores ++
        (storedIn bl p pc (runCells bl p jc nc rowBegin rows)).map (cellStore ops p p.K) := by
  have hloop := forRange_inv (n := rows) (s := start)
    (f := rowTileStep bl ops p workers pc jc nc rowBegin)
    (P := fun x task => Sized bl p workers room task ∧ task.packedB = start.packedB ∧
      (pc + blockDepth bl p pc ≠ p.K → ∀ x' < x,
        RowCarried bl ops p workers jc nc rowBegin x' task.carry (pc + blockDepth bl p pc)) ∧
      (pc ≠ 0 → ∀ x' < rows, x ≤ x' →
        RowCarried bl ops p workers jc nc rowBegin x' task.carry pc) ∧
      task.stores = start.stores ++
        (storedIn bl p pc (runCells bl p jc nc rowBegin x)).map (cellStore ops p p.K)) ?_ ?_
  · obtain ⟨task, hrun, hsized', -, hdone, -, hstores⟩ := hloop
    exact ⟨task, hrun, hsized', hdone, hstores⟩
  · refine ⟨hsized, rfl, ?_, fun hfirst x hx _ => hprev hfirst x hx, ?_⟩
    · intro _ x hx
      omega
    · simp [storedIn, runCells]
  · intro x hx task ⟨hsz, hB, hdone, htodo, hstores⟩
    rw [← hB] at hpacked
    obtain ⟨task', hstep, hsz', hB', hframe, hnew, hstores'⟩ := rowTileStep_spec hpc hwidth hsz
      (show x < room by omega) hpacked fun hfirst => htodo hfirst x hx (le_refl x)
    -- the other rows keep what they have
    have hkeep : ∀ {x' k}, x' ≠ x → RowCarried bl ops p workers jc nc rowBegin x' task.carry k →
        RowCarried bl ops p workers jc nc rowBegin x' task'.carry k := by
      intro x' k hne hcarried
      apply hcarried.congr hwidth
      intro a hlo hhi
      apply hframe
      rcases Nat.lt_or_gt_of_ne hne with h | h
      · have := Nat.mul_le_mul_right (tileCarrySize bl p workers) (show x' + 1 ≤ x from h)
        omega
      · have := Nat.mul_le_mul_right (tileCarrySize bl p workers) (show x + 1 ≤ x' from h)
        omega
    refine ⟨task', hstep, hsz', hB'.trans hB, ?_, ?_, ?_⟩
    · intro hlast x' hx'
      rcases eq_or_lt_of_le (Nat.le_of_lt_succ hx') with rfl | hlt
      · exact hnew hlast
      · exact hkeep (by omega) (hdone hlast x' hlt)
    · intro hfirst x' hx' hle
      exact hkeep (by omega) (htodo hfirst x' hx' (by omega))
    · rw [hstores', hstores, runCells, runCells, range_succ, flatMap_append,
        storedIn_append, map_append, append_assoc]
      simp

/-- The value every element ends with: with `alpha` 0 the operands are not read. -/
def finalStore (ops : FloatOps α) (p : Product α) (cell : Nat × Nat) : Store α :=
  cellStore ops p (if ops.eqZero p.alpha then 0 else p.K) cell

/-- Over all K blocks a run stores its elements, once the chains are whole. -/
theorem kBlocks_spec (ops : FloatOps α) (jc rowBegin : Nat) {room : Nat}
    (hK : 0 < p.K)
    (hwidth : nc ≤ ncTile bl p workers) (hsized : Sized bl p workers room start)
    (hrows : rows ≤ room) :
    ∃ task, forRange (blocks p.K bl.KC) (fun b task =>
        (packB bl ops p (b * bl.KC) (blockDepth bl p (b * bl.KC)) jc nc task.packedB).bind
          fun packedB => forRange rows (rowTileStep bl ops p workers (b * bl.KC) jc nc rowBegin)
            { task with packedB := packedB }) start = some task ∧
      Sized bl p workers room task ∧
      task.stores = start.stores ++
        (runCells bl p jc nc rowBegin rows).map (cellStore ops p p.K) := by
  have hloop := forRange_inv (n := blocks p.K bl.KC) (s := start)
    (f := fun b task =>
      (packB bl ops p (b * bl.KC) (blockDepth bl p (b * bl.KC)) jc nc task.packedB).bind
        fun packedB => forRange rows (rowTileStep bl ops p workers (b * bl.KC) jc nc rowBegin)
          { task with packedB := packedB })
    (P := fun b task => Sized bl p workers room task ∧
      (b ≠ 0 → b * bl.KC < p.K → ∀ x < rows,
        RowCarried bl ops p workers jc nc rowBegin x task.carry (b * bl.KC)) ∧
      task.stores = start.stores ++
        ((if p.K ≤ b * bl.KC then runCells bl p jc nc rowBegin rows else []).map
          (cellStore ops p p.K))) ?_ ?_
  · obtain ⟨task, hrun, hsized', -, hstores⟩ := hloop
    rw [if_pos (le_blocks_mul bl.KC_pos)] at hstores
    exact ⟨task, hrun, hsized', hstores⟩
  · refine ⟨hsized, fun h => absurd rfl h, ?_⟩
    rw [if_neg (by omega)]
    simp
  · intro b hb task ⟨hsz, hcarried, hstores⟩
    have hpc : BlockStart bl p (b * bl.KC) := ⟨(lt_blocks_iff bl.KC_pos).mp hb, Nat.dvd_mul_left _ _⟩
    have hdepth : blockDepth bl p (b * bl.KC) ≤ min bl.KC p.K := by
      simp only [blockDepth]
      omega
    have hroomB : blocks nc bl.NR * blockDepth bl p (b * bl.KC) * bl.NR ≤ task.packedB.size := by
      rw [hsz.packedB]
      exact panel_le (blocks_mono bl.NR_pos hwidth) hdepth
    obtain ⟨packedB, hpackB, hsizeB, hpacked⟩ := packB_spec bl ops p (b * bl.KC) _ jc nc hroomB
    have hsz₁ : Sized bl p workers room { task with packedB := packedB } :=
      ⟨hsz.packedA, hsizeB.trans hsz.packedB, hsz.carry⟩
    obtain ⟨task', hrun, hsz', hdone, hstores'⟩ := rowTiles_spec hpc hwidth hsz₁ hrows hpacked
      fun hfirst x hx => hcarried (fun h0 => hfirst (by rw [h0, zero_mul])) hpc.lt x hx
    have hlt := hpc.lt
    rw [if_neg (by omega), map_nil, append_nil] at hstores
    have hnext : (b + 1) * bl.KC = b * bl.KC + bl.KC := by rw [add_mul, one_mul]
    refine ⟨task', by rw [hpackB]; exact hrun, hsz', ?_, ?_⟩
    · intro _ hmore x hx
      have hpart : b * bl.KC + blockDepth bl p (b * bl.KC) = (b + 1) * bl.KC := by
        simp only [blockDepth]
        omega
      rw [← hpart]
      exact hdone (by omega) x hx
    · rw [hstores']
      show task.stores ++ _ = _
      rw [hstores, storedIn]
      -- the last K block is the one that ends at `K`
      have hlast : b * bl.KC + blockDepth bl p (b * bl.KC) = p.K ↔ p.K ≤ (b + 1) * bl.KC := by
        simp only [blockDepth]
        omega
      simp only [hlast]

/-! ## The Elements of a Run -/

theorem mem_tileCells {i j : Nat} :
    (i, j) ∈ tileCells bl p jc nc rowBegin x u y ↔
      (∃ i' < min bl.MR (rowCount bl p rowBegin x - u * bl.MR),
        i = rowStart bl rowBegin x + (u * bl.MR + i')) ∧
      ∃ j' < min bl.NR (nc - y * bl.NR), j = jc + (y * bl.NR + j') := by
  simp only [tileCells, mem_flatMap, mem_map, mem_range, Prod.mk.injEq,
    ← add_assoc]
  constructor
  · rintro ⟨i', hi', j', hj', rfl, rfl⟩
    exact ⟨⟨i', hi', rfl⟩, j', hj', rfl⟩
  · rintro ⟨⟨i', hi', rfl⟩, j', hj', rfl⟩
    exact ⟨i', hi', j', hj', rfl, rfl⟩

theorem mem_rowCells {i j : Nat} :
    (i, j) ∈ rowCells bl p jc nc rowBegin x ↔
      (i < p.M ∧ i / bl.MC = rowBegin + x) ∧ jc ≤ j ∧ j < jc + nc := by
  simp only [rowCells, mem_flatMap, mem_range, mem_tileCells]
  constructor
  · rintro ⟨y, hy, u, hu, ⟨i', hi', rfl⟩, j', hj', rfl⟩
    obtain ⟨hrow, -, -⟩ := index_of_block hi'
    obtain ⟨hin, hdiv, -⟩ := index_of_block (b := rowBegin + x) (d := bl.MC) (n := p.M) hrow
    obtain ⟨hcol, -, -⟩ := index_of_block hj'
    exact ⟨⟨hin, hdiv⟩, by omega, by omega⟩
  · rintro ⟨⟨hi, hdiv⟩, hjlo, hjhi⟩
    obtain ⟨-, hsplit, hrow⟩ := block_of_index bl.MC_pos hi
    rw [hdiv] at hsplit hrow
    obtain ⟨hu, husplit, hui⟩ := block_of_index bl.MR_pos hrow
    obtain ⟨hy, hysplit, hyj⟩ := block_of_index bl.NR_pos (show j - jc < nc by omega)
    refine ⟨_, hy, _, hu, ⟨_, hui, ?_⟩, _, hyj, ?_⟩
    · rw [husplit]
      exact hsplit.symm
    · rw [hysplit]
      omega

theorem nodup_rowCells : (rowCells bl p jc nc rowBegin x).Nodup := by
  apply nodup_flatMap_of_key (fun cell => (cell.2 - jc) / bl.NR) nodup_range
  · intro y _
    apply nodup_flatMap_of_key (fun cell => (cell.1 - rowStart bl rowBegin x) / bl.MR)
      nodup_range
    · intro u _
      apply nodup_flatMap_of_key (fun cell => cell.1 - (rowStart bl rowBegin x + u * bl.MR))
        nodup_range
      · intro i _
        apply List.Nodup.map _ nodup_range
        intro j j' heq
        simpa using heq
      · intro i _ cell hcell
        obtain ⟨j, -, rfl⟩ := mem_map.mp hcell
        simp
    · intro u _ cell hcell
      obtain ⟨⟨i', hi', hi⟩, -⟩ := mem_tileCells.1 (show (cell.1, cell.2) ∈ _ from hcell)
      simp only [hi, Nat.add_sub_cancel_left]
      exact (index_of_block hi').2.1
  · intro y _ cell hcell
    obtain ⟨u, -, hcell⟩ := mem_flatMap.mp hcell
    obtain ⟨-, j', hj', hj⟩ := mem_tileCells.1 (show (cell.1, cell.2) ∈ _ from hcell)
    simp only [hj, Nat.add_sub_cancel_left]
    exact (index_of_block hj').2.1

/-- A list of the elements of row tiles in columns, each once. -/
structure CellsOf (bl : Blocking) (p : Product α) (jc nc rowBegin rows : Nat)
    (cells : List (Nat × Nat)) : Prop where
  nodup : cells.Nodup
  mem : ∀ i j, (i, j) ∈ cells ↔
    (i < p.M ∧ rowBegin ≤ i / bl.MC ∧ i / bl.MC < rowBegin + rows) ∧ jc ≤ j ∧ j < jc + nc

/-- Row tiles, whatever the order in each of them. -/
theorem cellsOf_rows {cells : Nat → List (Nat × Nat)}
    (hnodup : ∀ x, (cells x).Nodup)
    (hmem : ∀ x i j, (i, j) ∈ cells x ↔
      (i < p.M ∧ i / bl.MC = rowBegin + x) ∧ jc ≤ j ∧ j < jc + nc) :
    CellsOf bl p jc nc rowBegin rows ((range rows).flatMap cells) where
  nodup := by
    apply nodup_flatMap_of_key (fun cell => cell.1 / bl.MC - rowBegin) nodup_range
    · intro x _
      exact hnodup x
    · intro x _ cell hcell
      have := ((hmem x cell.1 cell.2).mp hcell).1.2
      simp only [this, Nat.add_sub_cancel_left]
  mem i j := by
    simp only [mem_flatMap, mem_range, hmem]
    constructor
    · rintro ⟨x, hx, ⟨hi, hdiv⟩, hj⟩
      exact ⟨⟨hi, by omega, by omega⟩, hj⟩
    · rintro ⟨⟨hi, hlo, hhi⟩, hj⟩
      exact ⟨i / bl.MC - rowBegin, by omega, ⟨hi, by omega⟩, hj⟩

end Camel.Tensor
