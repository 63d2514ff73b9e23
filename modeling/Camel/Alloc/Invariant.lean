import Camel.Alloc.FreeList

/-! # The Invariant of the Free-List Allocator

    The free list and the blocks that are handed out tile the arena. Each operation is
    cut out of the tiling at the blocks it is about, and what the search of a freed
    block finds does not depend on where it started.
-/

namespace Camel.Alloc

open Lib List Function

/-! ## The Invariant -/

/-- The sizes of free blocks. -/
def FreeSize (n : Nat) : Prop := freeBlockSize ≤ n ∧ n % 8 = 0

/-- The allocator has handed out the blocks `live`, here by address. -/
structure Inv (s : FreeListAllocator) (live : List Block) : Prop where
  tiles : ∃ c, Tiles FreeSize false 0 s.freeList live c s.limit
  sizes : ∀ b ∈ live, FreeSize b.size
  header : ∀ b ∈ live, s.header b.addr = b.size
  table : s.sizesFromHeaders = false →
    ∀ b ∈ live, s.allocatedSizes.lookup (b.addr + headerSize) = some b.size

@[simp] theorem guardThat_true {c : Prop} [Decidable c] (h : c) (text : String) :
    guardThat c text = .ok () := by
  simp [guardThat, h]

theorem alignUp_eq {n : Nat} (h : n + 7 < 2 ^ 64) : alignUp n = (n + 7) / 8 * 8 := by
  rw [alignUp, Nat.mod_eq_of_lt h]

/-- An arena that has room for a free block is one free block. -/
theorem inv_create {capacity : Nat} (hroom : freeBlockSize ≤ alignUp capacity)
    (sizesFromHeaders : Bool) (garbage : Nat → Nat) :
    Inv (.create capacity sizesFromHeaders garbage) [] := by
  have hsize : FreeSize (alignUp capacity) := by
    refine ⟨hroom, ?_⟩
    rw [alignUp]
    omega
  have hpos : 0 < alignUp capacity := lt_of_lt_of_le (by decide) hroom
  have htile : Tiles FreeSize true (0 + alignUp capacity) [] [] true (alignUp capacity) := by
    rw [Nat.zero_add]
    exact .nil
  constructor
  · exact ⟨true, .free hsize hpos htile⟩
  · simp
  · simp
  · simp

variable {s : FreeListAllocator}

theorem Inv.bound {live : List Block} (h : Inv s live) {b : Block}
    (hb : b ∈ live) : b.addr + b.size ≤ s.limit := by
  obtain ⟨c, ht⟩ := h.tiles
  exact (ht.bounds.2 b hb).2.1

/-! ## Allocating -/

/-- What the search for a free block finds. -/
theorem allocFrom_spec (totalSize : Nat) {fs : List Block} (hfs : ∀ f ∈ fs, FreeSize f.size) :
    allocFrom totalSize fs = .ok none ∨
    ∃ pre f post, fs = pre ++ f :: post ∧ totalSize ≤ f.size ∧
      ((freeBlockSize ≤ f.size - totalSize ∧ allocFrom totalSize fs =
          .ok (some (⟨f.addr, totalSize⟩,
            pre ++ ⟨f.addr + totalSize, f.size - totalSize⟩ :: post))) ∨
        (f.size - totalSize < freeBlockSize ∧
          allocFrom totalSize fs = .ok (some (f, pre ++ post)))) := by
  induction fs with
  | nil => exact .inl rfl
  | cons f fs ih =>
    obtain ⟨hsize, halign⟩ := hfs f (by simp)
    have hrest : ∀ g ∈ fs, FreeSize g.size := fun g hg => hfs g (by simp [hg])
    by_cases hfit : totalSize ≤ f.size
    · right
      refine ⟨[], f, fs, rfl, hfit, ?_⟩
      by_cases hrem : freeBlockSize ≤ f.size - totalSize
      · exact .inl ⟨hrem, by simp [allocFrom, guardThat, hsize, halign, hfit, hrem, bind, Except.bind]⟩
      · exact .inr ⟨by omega,
          by simp [allocFrom, guardThat, hsize, halign, hfit, hrem, bind, Except.bind]⟩
    · rcases ih hrest with hnone | ⟨pre, g, post, rfl, hle, hfound⟩
      · left
        simp [allocFrom, guardThat, hsize, halign, hfit, hnone, bind, Except.bind]
      · right
        refine ⟨f :: pre, g, post, rfl, hle, ?_⟩
        rcases hfound with ⟨hrem, heq⟩ | ⟨hrem, heq⟩
        · exact .inl ⟨hrem,
            by simp [allocFrom, guardThat, hsize, halign, hfit, heq, bind, Except.bind]⟩
        · exact .inr ⟨hrem,
            by simp [allocFrom, guardThat, hsize, halign, hfit, heq, bind, Except.bind]⟩

variable {ls : List Block} {f : Block} {limit : Nat}

/-- A block handed out at the place of a free one, with what remains of that. -/
theorem Tiles.take_block {pre post : List Block} {b : Bool} {totalSize : Nat}
    (h : Tiles FreeSize false 0 (pre ++ f :: post) ls b limit) (htotal : FreeSize totalSize)
    (hfit : totalSize ≤ f.size) (hrem : freeBlockSize ≤ f.size - totalSize) :
    ∃ ls₁ ls₂ c, ls = ls₁ ++ ls₂ ∧ Tiles FreeSize false 0
      (pre ++ ⟨f.addr + totalSize, f.size - totalSize⟩ :: post)
      (ls₁ ++ ⟨f.addr, totalSize⟩ :: ls₂) c limit := by
  obtain ⟨ls₁, ls₂, rfl, hpre, hf, -, hpost⟩ := h.cut_free
  refine ⟨ls₁, ls₂, b, rfl, hpre.append ?_⟩
  have hsize : FreeSize (f.size - totalSize) := ⟨hrem, by have := hf.2; have := htotal.2; omega⟩
  have hend : f.addr + totalSize + (f.size - totalSize) = f.limit := by
    simp only [Block.limit]
    omega
  have hpos : 0 < totalSize := lt_of_lt_of_le (by decide) htotal.1
  have hrpos : 0 < f.size - totalSize := lt_of_lt_of_le (by decide) hrem
  exact .live hpos (.free hsize hrpos (hend ▸ hpost))

theorem Tiles.take_whole {pre post : List Block} {b : Bool}
    (h : Tiles FreeSize false 0 (pre ++ f :: post) ls b limit) :
    ∃ ls₁ ls₂ c, ls = ls₁ ++ ls₂ ∧
      Tiles FreeSize false 0 (pre ++ post) (ls₁ ++ f :: ls₂) c limit := by
  obtain ⟨ls₁, ls₂, rfl, hpre, -, hpos, hpost⟩ := h.cut_free
  obtain ⟨c, hpost'⟩ := hpost.behind_live
  exact ⟨ls₁, ls₂, c, rfl, hpre.append (.live hpos hpost')⟩

variable {c : Bool}

/-- The state after a block is handed out. -/
theorem Inv.handed {ls₁ ls₂ rest : List Block} {block : Block}
    (h : Inv s (ls₁ ++ ls₂)) (hsize : FreeSize block.size) (hfits : block.size < 2 ^ 48)
    (htiles : Tiles FreeSize false 0 rest (ls₁ ++ block :: ls₂) c s.limit) :
    Inv { s.installHeader block.addr block.size with
        freeList := rest
        allocatedSizes := if s.sizesFromHeaders then s.allocatedSizes
          else (block.addr + headerSize, block.size) :: s.allocatedSizes }
      (ls₁ ++ block :: ls₂) := by
  have hmem : ∀ b, b ∈ ls₁ ++ block :: ls₂ ↔ b = block ∨ b ∈ ls₁ ++ ls₂ := by
    intro b
    simp only [mem_append, mem_cons]
    tauto
  -- the other blocks lie elsewhere
  have hother : ∀ b ∈ ls₁ ++ ls₂, b.addr ≠ block.addr := by
    have hnodup := htiles.ascending.imp Nat.ne_of_lt
    rw [map_append, map_cons, ← nodup_iff_pairwise_ne, nodup_middle, ← map_append] at hnodup
    exact fun b hb heq => (nodup_cons.mp hnodup).1 (heq ▸ mem_map_of_mem hb)
  constructor
  · exact ⟨c, htiles⟩
  · intro b hb
    rcases (hmem b).mp hb with rfl | hb
    · exact hsize
    · exact h.sizes b hb
  · intro b hb
    show update s.header block.addr (block.size % 2 ^ 48) b.addr = b.size
    rcases (hmem b).mp hb with rfl | hb
    · rw [update_self, Nat.mod_eq_of_lt hfits]
    · rw [update_of_ne (hother b hb)]
      exact h.header b hb
  · intro hflag b hb
    have hflag' : s.sizesFromHeaders = false := hflag
    show (if s.sizesFromHeaders then s.allocatedSizes
      else (block.addr + headerSize, block.size) :: s.allocatedSizes).lookup _ = _
    rw [if_neg (by simp [hflag'])]
    rcases (hmem b).mp hb with rfl | hb
    · simp
    · rw [lookup_cons, beq_false_of_ne (by have := hother b hb; omega)]
      exact h.table hflag' b hb

/-- The size of a request with its header, rounded up, does not overflow, and the header
    can hold the size of the block found for it. -/
def Representable (limit size : Nat) : Prop :=
  size + 15 < 2 ^ 64 ∧ (limit < 2 ^ 48 ∨ size + 23 < 2 ^ 48)

variable {size : Nat}

/-- `alloc` hands out a new block or nothing, and no GUARD fires. -/
theorem Inv.alloc {live : List Block} (h : Inv s live)
    (hlo : 1 ≤ size) (hrep : Representable s.limit size) :
    s.alloc size = .ok (s, none) ∨
    ∃ ls₁ ls₂ block s', live = ls₁ ++ ls₂ ∧ s.alloc size = .ok (s', some (block.addr + headerSize)) ∧
      size + headerSize ≤ block.size ∧ Inv s' (ls₁ ++ block :: ls₂) ∧ s'.limit = s.limit := by
  obtain ⟨c, htiles⟩ := h.tiles
  obtain ⟨hhi, hheader⟩ := hrep
  have htotal : alignUp ((headerSize + size) % 2 ^ 64) = (size + 15) / 8 * 8 := by
    rw [Nat.mod_eq_of_lt (by simp only [headerSize]; omega), alignUp_eq (by simp only [headerSize]; omega)]
    simp only [headerSize]
    omega
  have hsize : FreeSize ((size + 15) / 8 * 8) := ⟨show 16 ≤ _ by omega, by omega⟩
  have hroom : size + headerSize ≤ (size + 15) / 8 * 8 := by
    simp only [headerSize]
    omega
  have hfs : ∀ f ∈ s.freeList, FreeSize f.size := fun f hf => (htiles.bounds.1 f hf).2.2.2
  rcases allocFrom_spec ((size + 15) / 8 * 8) hfs with hnone | ⟨pre, f, post, hfl, hfit, hfound⟩
  · left
    simp only [FreeListAllocator.alloc, htotal, hnone]
    rfl
  · right
    rw [hfl] at htiles
    have hend : f.addr + f.size ≤ s.limit := (htiles.bounds.1 f (by simp)).2.1
    rcases hfound with ⟨hrem, heq⟩ | ⟨hrem, heq⟩
    · obtain ⟨ls₁, ls₂, c', rfl, hnew⟩ := Tiles.take_block htiles hsize hfit hrem
      have hfits : (size + 15) / 8 * 8 < 2 ^ 48 := by
        omega
      refine ⟨ls₁, ls₂, ⟨f.addr, (size + 15) / 8 * 8⟩, _, rfl, ?_, hroom, h.handed hsize hfits hnew,
        rfl⟩
      simp only [FreeListAllocator.alloc, htotal, heq]
      rfl
    · obtain ⟨ls₁, ls₂, c', rfl, hnew⟩ := Tiles.take_whole htiles
      have hfits : f.size < 2 ^ 48 := by
        have := (hfs f (by simp [hfl])).2
        simp only [freeBlockSize] at hrem
        omega
      refine ⟨ls₁, ls₂, f, _, rfl, ?_, by omega, h.handed (hfs f (by simp [hfl])) hfits hnew, rfl⟩
      simp only [FreeListAllocator.alloc, htotal, heq]
      rfl

/-! ## Where a Freed Block Belongs -/

variable {addr : Nat} {fs₁ fs₂ : List Block}

theorem seek_eq (h₁ : ∀ f ∈ fs₁, f.addr < addr)
    (h₂ : ∀ f ∈ fs₂, addr ≤ f.addr) (before : List Block) :
    seek addr before (fs₁ ++ fs₂) = (fs₁.reverse ++ before, fs₂) := by
  induction fs₁ generalizing before with
  | nil =>
    cases fs₂ with
    | nil => rfl
    | cons f fs₂ =>
      have := h₂ f (by simp)
      simp only [nil_append, seek, if_neg (Nat.not_lt.mpr this), reverse_nil]
  | cons f fs₁ ih =>
    rw [cons_append, seek, if_pos (h₁ f (by simp)), ih fun g hg => h₁ g (by simp [hg])]
    simp

theorem resume_eq {p : List Block} (hp : ∀ g ∈ p, g.addr ≠ f.addr)
    (q before : List Block) :
    resume f.addr before (p ++ f :: q) = (f :: (p.reverse ++ before), q) := by
  induction p generalizing before with
  | nil => simp [resume]
  | cons g p ih =>
    rw [cons_append, resume, if_neg (hp g (by simp)), ih fun k hk => hp k (by simp [hk])]
    simp

/-- A free block below the freed one, from which the search may go on. -/
def Resumes (fs : List Block) (addr : Nat) (from? : Option Nat) : Prop :=
  ∀ g ∈ from?, g < addr ∧ ∃ f ∈ fs, f.addr = g

/-- The search finds the same place wherever it starts. -/
theorem insertAndCoalesce_eq {from? : Option Nat}
    (hsize : freeBlockSize ≤ size) (hlimit : addr + size ≤ limit)
    (h₁ : ∀ f ∈ fs₁, f.addr < addr) (h₂ : ∀ f ∈ fs₂, addr ≤ f.addr)
    (hsorted : fs₁.Pairwise fun f g => f.limit < g.addr)
    (hfrom : Resumes (fs₁ ++ fs₂) addr from?) :
    insertAndCoalesce limit (fs₁ ++ fs₂) addr size from? =
      .ok (coalesce fs₁.reverse fs₂ addr size) := by
  have hguard : ∀ f ∈ from?, f < addr := fun f hf => (hfrom f hf).1
  simp only [insertAndCoalesce, guardThat_true hsize, guardThat_true hlimit,
    guardThat_true hguard]
  cases from? with
  | none =>
    show Except.ok (coalesce (seek addr [] (fs₁ ++ fs₂)).1 (seek addr [] (fs₁ ++ fs₂)).2 addr size) = _
    rw [seek_eq h₁ h₂, append_nil]
  | some g =>
    obtain ⟨hg, f, hf, rfl⟩ := hfrom g rfl
    have hf₁ : f ∈ fs₁ := by
      rcases mem_append.mp hf with hf | hf
      · exact hf
      · have := h₂ f hf
        omega
    obtain ⟨p, q, rfl⟩ := append_of_mem hf₁
    have hp : ∀ k ∈ p, k.addr ≠ f.addr := by
      intro k hk heq
      have := (pairwise_append.mp hsorted).2.2 k hk f (by simp)
      simp only [Block.limit] at this
      omega
    have hq : ∀ k ∈ q, k.addr < addr := fun k hk => h₁ k (by simp [hk])
    show Except.ok (coalesce (seek addr (resume f.addr [] (p ++ f :: q ++ fs₂)).1
      (resume f.addr [] (p ++ f :: q ++ fs₂)).2).1 (seek addr (resume f.addr [] (p ++ f :: q ++ fs₂)).1
      (resume f.addr [] (p ++ f :: q ++ fs₂)).2).2 addr size) = _
    rw [append_assoc, cons_append, resume_eq hp, seek_eq hq h₂]
    simp

/-- The free block a freed one is in starts at or below it. -/
theorem mergePrev_holds (addr size : Nat) (after before : List Block) :
    (mergePrev addr size after before).2 ≤ addr ∧
      ∃ f ∈ (mergePrev addr size after before).1,
        f.addr = (mergePrev addr size after before).2 := by
  cases before with
  | nil => exact ⟨le_rfl, ⟨addr, size⟩, by simp [mergePrev], rfl⟩
  | cons prev rest =>
    rw [mergePrev]
    split
    next h => exact ⟨by simp only; omega, ⟨prev.addr, prev.size + size⟩, by simp, rfl⟩
    next => exact ⟨le_rfl, ⟨addr, size⟩, by simp, rfl⟩

/-- With the free block behind it, a block ends where a taken one begins. -/
theorem mergeNext_tiles {fs : List Block}
    (hsize : FreeSize size) (h : Tiles FreeSize false (addr + size) fs ls c limit) :
    FreeSize (mergeNext addr size fs).1 ∧ ∃ c', Tiles FreeSize true
      (addr + (mergeNext addr size fs).1) (mergeNext addr size fs).2 ls c' limit := by
  rcases h.first_free with ⟨n, fs', rfl, hn, -, hrest⟩ | ⟨hno, c', hrest⟩
  · have ha := hsize.1
    have hb := hsize.2
    have hd := hn.2
    rw [mergeNext, if_pos rfl]
    exact ⟨⟨show _ ≤ size + n by omega, show (size + n) % 8 = 0 by omega⟩, c,
      by rw [← Nat.add_assoc]; exact hrest⟩
  · have hmerge : mergeNext addr size fs = (size, fs) := by
      cases fs with
      | nil => rfl
      | cons f fs =>
        have := hno f (by simp)
        rw [mergeNext, if_neg (by omega)]
    rw [hmerge]
    exact ⟨hsize, c', hrest⟩

/-- The row with a block freed in the middle of it. -/
theorem coalesce_tiles {ls₁ ls₂ : List Block} {e : Bool}
    (h₁ : Tiles FreeSize false 0 fs₁ ls₁ e addr) (hsize : FreeSize size)
    (h₂ : Tiles FreeSize false (addr + size) fs₂ ls₂ c limit) :
    ∃ c', Tiles FreeSize false 0 (coalesce fs₁.reverse fs₂ addr size).1 (ls₁ ++ ls₂) c' limit := by
  obtain ⟨hsize', c', h₂'⟩ := mergeNext_tiles hsize h₂
  rw [coalesce]
  generalize mergeNext addr size fs₂ = merged at hsize' h₂' ⊢
  have hpos : 0 < merged.1 := lt_of_lt_of_le (by decide) hsize'.1
  cases e with
  | true =>
    -- the free block before it ends here
    obtain ⟨fs', f, rfl, hlim, hPf, hfpos, hfs'⟩ := h₁.last_free
    simp only [Block.limit] at hlim
    have hboth : FreeSize (f.size + merged.1) := by
      have ha := hPf.1
      have hb := hPf.2
      have hd := hsize'.2
      exact ⟨by omega, by omega⟩
    have hmerge : mergePrev addr merged.1 merged.2 (fs' ++ [f]).reverse =
        (fs' ++ ⟨f.addr, f.size + merged.1⟩ :: merged.2, f.addr) := by
      simp [mergePrev, hlim]
    rw [hmerge]
    refine ⟨c', hfs'.append (.free hboth (by omega) ?_)⟩
    rw [← Nat.add_assoc, hlim]
    exact h₂'
  | false =>
    have hno := h₁.last_not_free
    have hnew : Tiles FreeSize false 0 (fs₁ ++ ⟨addr, merged.1⟩ :: merged.2) (ls₁ ++ ls₂) c' limit :=
      h₁.append (.free hsize' hpos h₂')
    have hmerge : (mergePrev addr merged.1 merged.2 fs₁.reverse).1 =
        fs₁ ++ ⟨addr, merged.1⟩ :: merged.2 := by
      cases hrev : fs₁.reverse with
      | nil =>
        rw [reverse_eq_nil_iff] at hrev
        rw [hrev]
        rfl
      | cons prev rest =>
        have hfs₁ : fs₁ = rest.reverse ++ [prev] := by
          rw [← reverse_reverse fs₁, hrev, reverse_cons]
        have hprev := hno prev (by simp [hfs₁])
        simp only [Block.limit] at hprev
        rw [mergePrev, if_neg (by omega), ← hrev, reverse_reverse]
    rw [hmerge]
    exact ⟨c', hnew⟩

end Camel.Alloc
