import Camel.Alloc.Free

/-! # Walking the Arena

    Both walks over the arena, the one that visits the allocated blocks and the one
    that checks everything, pass from tile to tile. What they see is the tiling.
-/

namespace Camel.Alloc

open Lib

section Walk

variable {header : Nat → Nat} {limit x : Nat} {fs live : List Block} {a c : Bool}

/-- What a walk needs to know of a block that is handed out. -/
def Marked (header : Nat → Nat) (b : Block) : Prop :=
  FreeSize b.size ∧ header b.addr = b.size

theorem Inv.marked {s : FreeListAllocator} (h : Inv s live) : ∀ b ∈ live, Marked s.header b :=
  fun b hb => ⟨h.sizes b hb, h.header b hb⟩

/-- The walk visits the blocks that are handed out, by address. -/
theorem iterateFrom_tiles (h : Tiles FreeSize a x fs live c limit)
    (hlive : ∀ b ∈ live, Marked header b) :
    iterateFrom header limit x fs = .ok (live.map Block.addr) := by
  induction h with
  | nil =>
    rw [iterateFrom]
    simp
  | @free x n y fs live c hn hpos hrest ih =>
    have hle := hrest.le
    have hge : ¬ n < freeBlockSize := Nat.not_lt.mpr hn.1
    rw [iterateFrom, dif_pos (by omega)]
    simp only [if_true, dif_neg hge, hn.2, ne_eq, not_true_eq_false, if_false]
    rw [if_neg (by omega)]
    exact ih hlive
  | @live a x n y fs live c hpos hrest ih =>
    have hle := hrest.le
    obtain ⟨hn, hheader⟩ := hlive ⟨x, n⟩ (by simp)
    simp only at hn hheader
    have hge : ¬ n < headerSize := Nat.not_lt.mpr (le_trans (by decide) hn.1)
    have hih := ih fun b hb => hlive b (by simp [hb])
    cases fs with
    | nil =>
      rw [iterateFrom, dif_pos (by omega)]
      simp only [hheader, dif_neg hge, hn.2, ne_eq, not_true_eq_false, if_false]
      rw [if_neg (by omega), hih]
      rfl
    | cons f fs =>
      -- the next free block lies behind this one
      have hbehind := (hrest.bounds.1 f (by simp)).1
      rw [iterateFrom, dif_pos (by omega)]
      simp only [hheader, dif_neg hge, hn.2, ne_eq, not_true_eq_false, if_false]
      rw [if_neg (by omega), if_neg (by omega), if_neg (by omega), if_neg (by omega), hih]
      rfl

/-- The scan sees every block, and sums up those that are handed out. -/
theorem validateScan_tiles (h : Tiles FreeSize a x fs live c limit)
    (hlive : ∀ b ∈ live, Marked header b) {fuel : Nat} (hfuel : limit - x < fuel) :
    validateScan header limit fuel x fs = some (live.map Block.size).sum := by
  induction h generalizing fuel with
  | nil =>
    obtain ⟨fuel, rfl⟩ := Nat.exists_eq_add_of_lt hfuel
    simp [validateScan]
  | @free x n y fs live c hn hpos hrest ih =>
    have hle := hrest.le
    obtain ⟨fuel, rfl⟩ : ∃ k, fuel = k + 1 := ⟨fuel - 1, by omega⟩
    rw [validateScan, if_pos (by omega)]
    simp only [if_true]
    exact ih hlive (by omega)
  | @live a x n y fs live c hpos hrest ih =>
    have hle := hrest.le
    obtain ⟨hn, hheader⟩ := hlive ⟨x, n⟩ (by simp)
    simp only at hn hheader
    have hge : headerSize ≤ n := le_trans (by decide) hn.1
    have hbad : ¬ (n < headerSize ∨ n % 8 ≠ 0 ∨ y < x + n) := by
      have := hn.2
      omega
    obtain ⟨fuel, rfl⟩ : ∃ k, fuel = k + 1 := ⟨fuel - 1, by omega⟩
    have hih := ih (fun b hb => hlive b (by simp [hb])) (show y - (x + n) < fuel by omega)
    cases fs with
    | nil =>
      rw [validateScan, if_pos (by omega)]
      simp only [hheader, if_neg hbad, hih]
      rfl
    | cons f fs =>
      have hbehind := (hrest.bounds.1 f (by simp)).1
      rw [validateScan, if_pos (by omega)]
      simp only [hheader, if_neg hbad]
      rw [if_neg (by omega), if_neg (by omega), if_neg (by omega), hih]
      rfl

theorem validateList_sorted (hfs : ∀ f ∈ fs, f.limit ≤ limit ∧ FreeSize f.size)
    (hsorted : fs.Pairwise fun f g => f.limit < g.addr) {seen : List Nat} {prev : Option Block}
    (hseen : ∀ a ∈ seen, ∀ f ∈ fs, a < f.addr) (hprev : ∀ p ∈ prev, ∀ f ∈ fs, p.limit < f.addr) :
    validateList limit seen prev fs = true := by
  induction fs generalizing seen prev with
  | nil => rfl
  | cons f fs ih =>
    obtain ⟨hlimit, hsize⟩ := hfs f (by simp)
    obtain ⟨hfirst, hrest⟩ := List.pairwise_cons.mp hsorted
    have hpos : 0 < f.size := lt_of_lt_of_le (by decide) hsize.1
    have hend : f.addr + f.size ≤ limit := hlimit
    have hnew : seen.contains f.addr = false := by
      rw [List.contains_eq_mem, decide_eq_false_iff_not]
      intro hmem
      exact lt_irrefl _ (hseen f.addr hmem f (by simp))
    have hnext : validateList limit (f.addr :: seen) (some f) fs = true := by
      apply ih (fun g hg => hfs g (by simp [hg])) hrest
      · intro a ha g hg
        have hlt := hfirst g hg
        simp only [Block.limit] at hlt
        rcases List.mem_cons.mp ha with rfl | ha
        · omega
        · have := hseen a ha f (by simp)
          omega
      · intro p hp g hg
        cases hp
        exact hfirst g hg
    have hbounds : (decide (f.addr < limit) && decide (f.addr + f.size ≤ limit) &&
        decide (freeBlockSize ≤ f.size) && f.size % 8 == 0) = true := by
      simp only [Bool.and_eq_true, decide_eq_true_eq, beq_iff_eq]
      exact ⟨⟨⟨by omega, hend⟩, hsize.1⟩, hsize.2⟩
    cases prev with
    | none =>
      simp only [validateList, hnew, hnext, Bool.not_false, Bool.true_and, Bool.and_true, hbounds]
    | some p =>
      have hbefore := hprev p rfl f (by simp)
      simp only [Block.limit] at hbefore
      have hbefore' : (decide (p.addr < f.addr) && decide (p.addr + p.size < f.addr)) = true := by
        simp only [Bool.and_eq_true, decide_eq_true_eq]
        omega
      simp only [validateList, hnew, hnext, hbefore', Bool.not_false, Bool.true_and, Bool.and_true,
        hbounds]

end Walk

theorem Inv.iterateAllocated {s : FreeListAllocator} {live : List Block} (h : Inv s live) :
    s.iterateAllocated = .ok (live.map Block.addr) := by
  obtain ⟨c, htiles⟩ := h.tiles
  exact iterateFrom_tiles htiles h.marked

theorem Inv.validate {s : FreeListAllocator} {live : List Block} (h : Inv s live) :
    s.validate = true := by
  obtain ⟨c, htiles⟩ := h.tiles
  have hlist : validateList s.limit [] none s.freeList = true := by
    apply validateList_sorted _ htiles.sorted.1 (by simp) (by simp)
    intro f hf
    obtain ⟨-, hlimit, -, hsize⟩ := htiles.bounds.1 f hf
    exact ⟨hlimit, hsize⟩
  have hscan := validateScan_tiles htiles h.marked (show s.limit - 0 < s.limit + 1 by omega)
  have hsum := htiles.sum
  rw [FreeListAllocator.validate, hlist, hscan]
  simp only [Bool.true_and, beq_iff_eq]
  omega

end Camel.Alloc
