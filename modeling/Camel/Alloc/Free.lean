import Camel.Alloc.Invariant

/-! # Freeing Blocks

    A freed block leaves the tiling of the arena with one block less that is taken.
    A batch is freed in address order and each search goes on in the free block the
    one before ended in; since the taken blocks determine the free ones, it ends as
    freeing one by one does.
-/

namespace Camel.Alloc

open Lib List

/-- The blocks but those at some addresses. -/
def without (live : List Block) (objects : List Nat) : List Block :=
  live.filter fun b => b.addr ∉ objects

variable {live : List Block} {objects : List Nat}

theorem mem_without {b : Block} :
    b ∈ without live objects ↔ b ∈ live ∧ b.addr ∉ objects := by
  simp [without]

theorem without_without (live : List Block) (xs ys : List Nat) :
    without (without live xs) ys = without live (xs ++ ys) := by
  simp only [without, filter_filter]
  apply filter_congr
  intro b _
  simp only [mem_append, not_or, Bool.decide_and]
  rw [Bool.and_comm]

theorem without_congr (live : List Block) {xs ys : List Nat} (h : ∀ a, a ∈ xs ↔ a ∈ ys) :
    without live xs = without live ys := by
  apply filter_congr
  intro b _
  rw [decide_eq_decide, h]

/-! ## Blocks That Are Taken -/

section Taken

variable {fs live : List Block} {c : Bool} {limit : Nat}

variable {b : Block}

section
variable (h : Tiles FreeSize false 0 fs live c limit)
include h

/-- Of two taken blocks one ends before the other begins. -/
theorem taken_apart {b' : Block} (hb : b ∈ live)
    (hb' : b' ∈ live) (hlt : b.addr < b'.addr) : b.limit ≤ b'.addr := by
  have hsorted := h.sorted.2
  have hbounds := h.bounds.2
  have hpos := (hbounds b' hb').2.2
  obtain ⟨pre, post, rfl⟩ := append_of_mem hb
  obtain ⟨-, htail, hcross⟩ := pairwise_append.mp hsorted
  rcases mem_append.mp hb' with hb' | hb'
  · have := hcross b' hb' b (by simp)
    simp only [Block.limit] at this
    omega
  · rcases mem_cons.mp hb' with rfl | hb'
    · omega
    · exact (pairwise_cons.mp htail).1 b' hb'

/-- A taken block and the ones before and behind it. -/
theorem without_split (hb : b ∈ live) :
    ∃ pre post, live = pre ++ b :: post ∧ without live [b.addr] = pre ++ post := by
  obtain ⟨pre, post, rfl⟩ := append_of_mem hb
  have hnodup := h.ascending.imp Nat.ne_of_lt
  rw [map_append, map_cons, ← nodup_iff_pairwise_ne, nodup_middle, ← map_append] at hnodup
  refine ⟨pre, post, rfl, ?_⟩
  have hrest : without (pre ++ post) [b.addr] = pre ++ post := by
    refine filter_eq_self.mpr fun k hk => ?_
    have : k.addr ≠ b.addr := fun heq => (nodup_cons.mp hnodup).1 (heq ▸ mem_map_of_mem hk)
    simpa using this
  simp only [without, filter_append] at hrest ⊢
  rw [filter_cons_of_neg (by simp), hrest]

/-- A taken block goes to its place in the free list. -/
theorem insert_taken (hb : b ∈ live)
    (hsize : FreeSize b.size) {from? : Option Nat} (hfrom : Resumes fs b.addr from?) :
    ∃ fs' g c', insertAndCoalesce limit fs b.addr b.size from? = .ok (fs', g) ∧
      Tiles FreeSize false 0 fs' (without live [b.addr]) c' limit ∧ g ≤ b.addr ∧
      ∃ f ∈ fs', f.addr = g := by
  obtain ⟨pre, post, hsplit, hwithout⟩ := without_split h hb
  have hlimit : b.addr + b.size ≤ limit := (h.bounds.2 b hb).2.1
  have hsorted := h.sorted.1
  rw [hsplit] at h
  obtain ⟨fs₁, fs₂, e, rfl, h₁, -, h₂⟩ := h.cut_live
  have hbelow : ∀ f ∈ fs₁, f.addr < b.addr := by
    intro f hf
    have := h₁.bounds.1 f hf
    simp only [Block.limit] at this
    omega
  have habove : ∀ f ∈ fs₂, b.addr ≤ f.addr := by
    intro f hf
    have := (h₂.bounds.1 f hf).1
    simp only [Block.limit] at this
    omega
  obtain ⟨c', hnew⟩ := coalesce_tiles h₁ hsize h₂
  obtain ⟨hle, hmem⟩ := mergePrev_holds b.addr (mergeNext b.addr b.size fs₂).1
    (mergeNext b.addr b.size fs₂).2 fs₁.reverse
  have hins := insertAndCoalesce_eq hsize.1 hlimit hbelow habove
    (pairwise_append.mp hsorted).1 hfrom
  rw [hwithout]
  exact ⟨_, _, c', hins, hnew, hle, hmem⟩

/-- Several taken blocks in address order. -/
theorem insertAll_taken {blocks : List Block}
    (hblocks : ∀ b ∈ blocks, b ∈ live ∧ FreeSize b.size)
    (hsorted : blocks.Pairwise fun a b => a.addr < b.addr) {from? : Option Nat}
    (hfrom : ∀ b ∈ blocks, Resumes fs b.addr from?) :
    ∃ fs' c', insertAll limit fs blocks from? = .ok fs' ∧
      Tiles FreeSize false 0 fs' (without live (blocks.map Block.addr)) c' limit := by
  induction blocks generalizing fs live c from? with
  | nil =>
    refine ⟨fs, c, rfl, ?_⟩
    simpa [without] using h
  | cons b blocks ih =>
    obtain ⟨hb, hsize⟩ := hblocks b (by simp)
    obtain ⟨hfirst, hrest⟩ := pairwise_cons.mp hsorted
    obtain ⟨fs₁, g, c₁, hins, h₁, hle, hmem⟩ := insert_taken h hb hsize (hfrom b (by simp))
    have hblocks' : ∀ k ∈ blocks, k ∈ without live [b.addr] ∧ FreeSize k.size := by
      intro k hk
      have hlt := hfirst k hk
      refine ⟨mem_without.2 ⟨(hblocks k (by simp [hk])).1, ?_⟩, (hblocks k (by simp [hk])).2⟩
      simp only [mem_singleton]
      omega
    have hfrom' : ∀ k ∈ blocks, Resumes fs₁ k.addr (some g) := by
      intro k hk g' hg'
      cases hg'
      have hlt := hfirst k hk
      exact ⟨by omega, hmem⟩
    obtain ⟨fs₂, c₂, hall, h₂⟩ := ih h₁ hblocks' hrest hfrom'
    refine ⟨fs₂, c₂, ?_, ?_⟩
    · simp only [insertAll, hins]
      exact hall
    · rw [without_without] at h₂
      simpa using h₂

end

end Taken

/-! ## One Block -/

variable {s : FreeListAllocator}

/-- The size of a taken block is found, and only this block is forgotten. -/
theorem takeSize_spec {b : Block} (hheader : s.header b.addr = b.size)
    (htable : s.sizesFromHeaders = false →
      s.allocatedSizes.lookup (b.addr + headerSize) = some b.size) (text : String) :
    ∃ table, s.takeSize b.addr text = .ok (b.size, { s with allocatedSizes := table }) ∧
      ∀ a, a ≠ b.addr → table.lookup (a + headerSize) = s.allocatedSizes.lookup (a + headerSize) := by
  by_cases hflag : s.sizesFromHeaders = true
  · refine ⟨s.allocatedSizes, ?_, fun _ _ => rfl⟩
    rw [FreeListAllocator.takeSize, if_pos hflag, hheader]
  · have hfound := htable (by simpa using hflag)
    refine ⟨s.allocatedSizes.filter fun e => e.1 ≠ b.addr + headerSize, ?_, ?_⟩
    · rw [FreeListAllocator.takeSize, if_neg hflag, hfound]
    · intro a ha
      induction s.allocatedSizes with
      | nil => rfl
      | cons e entries ih =>
        by_cases he : e.1 = b.addr + headerSize
        · rw [filter_cons_of_neg (by simp [he]), ih, lookup_cons,
            beq_false_of_ne (by rw [he]; omega)]
        · rw [filter_cons_of_pos (by simp [he]), lookup_cons, lookup_cons, ih]

/-- The state when the blocks at some addresses are free. -/
theorem Inv.freed {fs : List Block} {c : Bool}
    {table : List (Nat × Nat)} (h : Inv s live)
    (htiles : Tiles FreeSize false 0 fs (without live objects) c s.limit)
    (htable : ∀ a, a ∉ objects →
      table.lookup (a + headerSize) = s.allocatedSizes.lookup (a + headerSize)) :
    Inv { s with allocatedSizes := table, freeList := fs } (without live objects) where
  tiles := ⟨c, htiles⟩
  sizes b hb := h.sizes b (mem_without.1 hb).1
  header b hb := h.header b (mem_without.1 hb).1
  table hflag b hb := by
    obtain ⟨hmem, hno⟩ := mem_without.1 hb
    show table.lookup (b.addr + headerSize) = some b.size
    rw [htable b.addr hno]
    exact h.table hflag b hmem

theorem Inv.free {s : FreeListAllocator} {live : List Block} (h : Inv s live) {b : Block}
    (hb : b ∈ live) :
    ∃ s', s.free (b.addr + headerSize) = .ok s' ∧ Inv s' (without live [b.addr]) ∧
      s'.limit = s.limit := by
  obtain ⟨c, htiles⟩ := h.tiles
  have hsize := h.sizes b hb
  have hlimit := h.bound hb
  have hge : headerSize ≤ b.size := le_trans (by decide) hsize.1
  have hin : b.addr < s.limit := by
    simp only [headerSize] at hge
    omega
  obtain ⟨table, htake, hother⟩ := takeSize_spec (h.header b hb) (fun hf => h.table hf b hb)
    "Free pointer was not allocated by this allocator."
  obtain ⟨fs', g, c', hins, hnew, -, -⟩ := insert_taken htiles hb hsize
    (show Resumes s.freeList b.addr none from fun g hg => by cases hg)
  refine ⟨{ s with allocatedSizes := table, freeList := fs' }, ?_, h.freed hnew ?_, rfl⟩
  · simp only [FreeListAllocator.free, Nat.add_sub_cancel, htake, bind, Except.bind,
      guardThat_true hsize.2, guardThat_true hge, guardThat_true hin, guardThat_true hlimit, hins]
  · intro a ha
    exact hother a (by simpa using ha)

/-! ## A Batch -/

theorem collect_spec (objects : List Nat)
    (hobjects : ∀ a ∈ objects, ∃ b ∈ live, b.addr = a) (hnodup : objects.Nodup)
    (hheader : ∀ b ∈ live, s.header b.addr = b.size)
    (htable : s.sizesFromHeaders = false → ∀ b ∈ live, b.addr ∈ objects →
      s.allocatedSizes.lookup (b.addr + headerSize) = some b.size)
    (hsizes : ∀ b ∈ live, FreeSize b.size) (hlimit : ∀ b ∈ live, b.addr + b.size ≤ s.limit) :
    ∃ blocks table, s.collect objects = .ok (blocks, { s with allocatedSizes := table }) ∧
      blocks.map Block.addr = objects ∧ (∀ b ∈ blocks, b ∈ live) ∧
      ∀ a, a ∉ objects →
        table.lookup (a + headerSize) = s.allocatedSizes.lookup (a + headerSize) := by
  induction objects generalizing s with
  | nil => exact ⟨[], s.allocatedSizes, rfl, rfl, by simp, fun _ _ => rfl⟩
  | cons a objects ih =>
    obtain ⟨b, hb, rfl⟩ := hobjects a (by simp)
    obtain ⟨hnot, hrest⟩ := nodup_cons.mp hnodup
    have hsize := hsizes b hb
    have hge : headerSize ≤ b.size := le_trans (by decide) hsize.1
    have hin : b.addr < s.limit := by
      have := hlimit b hb
      simp only [headerSize] at hge
      omega
    obtain ⟨table, htake, hother⟩ := takeSize_spec (hheader b hb)
      (fun hf => htable hf b hb (by simp)) "Bulk free pointer was not allocated by this allocator."
    have htable' : s.sizesFromHeaders = false → ∀ k ∈ live, k.addr ∈ objects →
        table.lookup (k.addr + headerSize) = some k.size := by
      intro hf k hk hmem
      rw [hother k.addr fun heq => hnot (heq ▸ hmem)]
      exact htable hf k hk (by simp [hmem])
    obtain ⟨blocks, table', hcollect, hmap, hlive, hother'⟩ :=
      ih (s := { s with allocatedSizes := table }) (fun a ha => hobjects a (by simp [ha])) hrest
        hheader htable' hlimit
    refine ⟨b :: blocks, table', ?_, by simp [hmap], ?_, ?_⟩
    · simp only [FreeListAllocator.collect, htake, bind, Except.bind, guardThat_true hsize.2,
        guardThat_true hge, guardThat_true hin, guardThat_true (hlimit b hb), hcollect]
    · intro k hk
      rcases mem_cons.mp hk with rfl | hk
      · exact hb
      · exact hlive k hk
    · intro k hk
      simp only [mem_cons, not_or] at hk
      rw [hother' k hk.2]
      exact hother k hk.1

theorem checkApart_ok {blocks : List Block} (h : blocks.Pairwise fun a b => a.addr < b.addr)
    (h' : blocks.Pairwise fun a b => a.limit ≤ b.addr) : checkApart blocks = .ok () := by
  match blocks with
  | [] => rfl
  | [_] => rfl
  | a :: b :: rest =>
    obtain ⟨hfirst, hrest⟩ := pairwise_cons.mp h
    obtain ⟨hfirst', hrest'⟩ := pairwise_cons.mp h'
    have hne : a.addr ≠ b.addr := ne_of_lt (hfirst b (by simp))
    have hle : a.addr + a.size ≤ b.addr := hfirst' b (by simp)
    simp only [checkApart, guardThat_true hne, guardThat_true hle]
    exact checkApart_ok hrest hrest'

theorem Inv.freeBulk (h : Inv s live)
    (hobjects : ∀ a ∈ objects, ∃ b ∈ live, b.addr = a)
    (hnodup : objects.Nodup) :
    ∃ s', s.freeBulk objects = .ok s' ∧ Inv s' (without live objects) ∧ s'.limit = s.limit := by
  by_cases hempty : objects.isEmpty = true
  · have hnil : objects = [] := List.isEmpty_iff.mp hempty
    have hsame : without live objects = live := by
      apply filter_eq_self.mpr
      simp [hnil]
    refine ⟨s, ?_, ?_, rfl⟩
    · simp [FreeListAllocator.freeBulk, hempty]
    · rw [hsame]
      exact h
  obtain ⟨c, htiles⟩ := h.tiles
  obtain ⟨blocks, table, hcollect, hmap, hlive, hother⟩ := collect_spec objects hobjects hnodup
    h.header (fun hf b hb _ => h.table hf b hb) h.sizes fun b hb => h.bound hb
  have hperm := mergeSort_perm blocks fun a b => decide (a.addr ≤ b.addr)
  generalize hsort : (blocks.mergeSort fun a b => decide (a.addr ≤ b.addr)) = sorted at hperm
  have hmem : ∀ b ∈ sorted, b ∈ live := fun b hb => hlive b (hperm.mem_iff.mp hb)
  have haddr : sorted.Pairwise fun a b => a.addr < b.addr := by
    have hle : sorted.Pairwise fun a b => a.addr ≤ b.addr := by
      rw [← hsort]
      have htrans : ∀ a b c : Block, decide (a.addr ≤ b.addr) = true →
          decide (b.addr ≤ c.addr) = true → decide (a.addr ≤ c.addr) = true := by
        intro a b c h₁ h₂
        simp only [decide_eq_true_eq] at *
        omega
      have htotal : ∀ a b : Block,
          (decide (a.addr ≤ b.addr) || decide (b.addr ≤ a.addr)) = true := by
        intro a b
        simp only [Bool.or_eq_true, decide_eq_true_eq]
        omega
      exact (pairwise_mergeSort htrans htotal blocks).imp fun h => of_decide_eq_true h
    have hne : sorted.Pairwise fun a b => a.addr ≠ b.addr := by
      have : (sorted.map Block.addr).Nodup := by
        rw [(hperm.map Block.addr).nodup_iff, hmap]
        exact hnodup
      exact List.pairwise_map.mp this
    exact (hle.and hne).imp fun h => lt_of_le_of_ne h.1 h.2
  have hapart : sorted.Pairwise fun a b => a.limit ≤ b.addr := by
    apply haddr.imp_of_mem
    intro a b ha hb hlt
    exact taken_apart htiles (hmem a ha) (hmem b hb) hlt
  obtain ⟨fs', c', hall, hnew⟩ := insertAll_taken htiles
    (fun b hb => ⟨hmem b hb, h.sizes b (hmem b hb)⟩) haddr
    (show ∀ b ∈ sorted, Resumes s.freeList b.addr none from fun b _ g hg => by cases hg)
  have hsame : without live (sorted.map Block.addr) = without live objects := by
    apply without_congr
    intro a
    rw [(hperm.map Block.addr).mem_iff, hmap]
  rw [hsame] at hnew
  refine ⟨{ s with allocatedSizes := table, freeList := fs' }, ?_, h.freed hnew hother, rfl⟩
  simp only [FreeListAllocator.freeBulk, hempty, Bool.false_eq_true, if_false, hcollect, bind,
    Except.bind, hsort, checkApart_ok haddr hapart, hall]

end Camel.Alloc
