import Camel.Alloc.Walk

/-! # Runs of the Free-List Allocator

    A client allocates, and frees what it holds, alone or in batches. In every state of
    every run the arena is tiled by the free list and the blocks the client holds, so
    that all checks pass and no GUARD fires. The rounded capacity must have room for
    one free block, and requests must not be so large that their rounded size
    overflows, or does not fit into a header.
-/

namespace Camel.Alloc

open Lib List

/-! ## Clients -/

structure Client where
  arena : FreeListAllocator
  /-- The payloads handed out and not yet freed. -/
  held : List Nat

inductive Op where
  | alloc (size : Nat)
  | free (ptr : Nat)
  /-- Batches are given by headers. -/
  | freeBulk (objects : List Nat)

/-- A client asks for at least one byte and frees only what it holds. -/
def Client.Allowed (c : Client) : Op → Prop
  | .alloc size => 1 ≤ size
  | .free ptr => ptr ∈ c.held
  | .freeBulk objects => objects.Nodup ∧ ∀ a ∈ objects, a + headerSize ∈ c.held

def Op.Representable (limit : Nat) : Op → Prop
  | .alloc size => Alloc.Representable limit size
  | _ => True

def Client.step (c : Client) : Op → Except String Client
  | .alloc size => do
    let (arena, ptr) ← c.arena.alloc size
    .ok ⟨arena, ptr.toList ++ c.held⟩
  | .free ptr => do
    let arena ← c.arena.free ptr
    .ok ⟨arena, c.held.filter (· ≠ ptr)⟩
  | .freeBulk objects => do
    let arena ← c.arena.freeBulk objects
    .ok ⟨arena, c.held.filter fun p => p ∉ objects.map (· + headerSize)⟩

def Client.fresh (capacity : Nat) (sizesFromHeaders : Bool) (garbage : Nat → Nat) : Client :=
  ⟨.create capacity sizesFromHeaders garbage, []⟩

/-- The states a client can reach, with requests that are representable. -/
inductive Run (start : Client) : Client → Prop where
  | start : Run start start
  | step {c c' : Client} {op : Op} : Run start c → c.Allowed op →
      op.Representable c.arena.limit → c.step op = .ok c' → Run start c'

/-- Frees the blocks with the given headers one by one. -/
def FreeListAllocator.freeEach (s : FreeListAllocator) :
    List Nat → Except String FreeListAllocator
  | [] => .ok s
  | addr :: rest => do
    let s ← s.free (addr + headerSize)
    s.freeEach rest

/-- Everything that is to hold between two operations. -/
structure Sound (c : Client) : Prop where
  validates : c.arena.validate = true
  /-- The free list is sorted, and no two free blocks overlap or touch. -/
  sorted : c.arena.freeList.Pairwise fun f g => f.limit < g.addr
  sizes : ∀ f ∈ c.arena.freeList, freeBlockSize ≤ f.size ∧ f.size % 8 = 0
  /-- The live blocks, by address, are disjoint, tile the arena with the free ones, and are
      what is visited. -/
  blocks : ∃ live : List Block, (live.map fun b => b.addr + headerSize).Perm c.held ∧
    (∀ b ∈ live, c.arena.header b.addr = b.size) ∧ (live.Pairwise fun k l => k.limit ≤ l.addr) ∧
    (∃ e, Tiles FreeSize false 0 c.arena.freeList live e c.arena.limit) ∧
    c.arena.iterateAllocated = .ok (live.map Block.addr)
  /-- No GUARD fires. -/
  proceeds : ∀ op, c.Allowed op → op.Representable c.arena.limit → ∃ c', c.step op = .ok c'
  bulk : ∀ objects order, c.Allowed (.freeBulk objects) → order.Perm objects →
    ∃ s₁ s₂, c.arena.freeBulk objects = .ok s₁ ∧ c.arena.freeEach order = .ok s₂ ∧
      s₁.freeList = s₂.freeList

/-! ## The Invariant of Runs -/

/-- The blocks handed out are those the client holds. -/
def Holds (c : Client) (live : List Block) : Prop :=
  Inv c.arena live ∧ (live.map fun b => b.addr + headerSize).Perm c.held

section Holds

variable {c : Client} {live : List Block}

theorem Holds.block (h : Holds c live) {a : Nat} (ha : a + headerSize ∈ c.held) :
    ∃ b ∈ live, b.addr = a := by
  obtain ⟨b, hb, heq⟩ := mem_map.mp (h.2.mem_iff.mpr ha)
  exact ⟨b, hb, Nat.add_right_cancel heq⟩

theorem Holds.ptr (h : Holds c live) {ptr : Nat} (hptr : ptr ∈ c.held) :
    ∃ b ∈ live, ptr = b.addr + headerSize := by
  obtain ⟨b, hb, heq⟩ := mem_map.mp (h.2.mem_iff.mpr hptr)
  exact ⟨b, hb, heq.symm⟩

/-- What remains when some blocks are freed. -/
theorem perm_without {held : List Nat}
    (h : (live.map fun b => b.addr + headerSize).Perm held) (objects : List Nat) :
    ((without live objects).map fun b => b.addr + headerSize).Perm
      (held.filter fun p => p ∉ objects.map (· + headerSize)) := by
  have hfilter := h.filter fun p => decide (p ∉ objects.map (· + headerSize))
  rw [filter_map] at hfilter
  have hsame : (live.filter ((fun p => decide (p ∉ objects.map (· + headerSize))) ∘
      fun b => b.addr + headerSize)) = without live objects := by
    apply filter_congr
    intro b _
    simp only [Function.comp_apply, mem_map, Nat.add_right_cancel_iff, exists_eq_right]
  rw [hsame] at hfilter
  exact hfilter

/-- Each allowed operation succeeds, and what is held stays known. -/
theorem Holds.step (h : Holds c live) {op : Op} (hop : c.Allowed op)
    (hrep : op.Representable c.arena.limit) :
    ∃ c' live', c.step op = .ok c' ∧ Holds c' live' ∧ c'.arena.limit = c.arena.limit := by
  cases op with
  | alloc size =>
    rcases h.1.alloc hop hrep with hnone | ⟨ls₁, ls₂, block, s', rfl, hsome, -, hinv, hlimit⟩
    · exact ⟨c, live, by simp [Client.step, hnone, bind, Except.bind], h, rfl⟩
    · refine ⟨⟨s', (block.addr + headerSize) :: c.held⟩, ls₁ ++ block :: ls₂, ?_, ⟨hinv, ?_⟩, hlimit⟩
      · simp [Client.step, hsome, bind, Except.bind]
      · rw [map_append, map_cons]
        apply List.perm_middle.trans
        rw [← map_append]
        exact h.2.cons _
  | free ptr =>
    obtain ⟨b, hb, rfl⟩ := h.ptr hop
    obtain ⟨s', hfree, hinv, hlimit⟩ := h.1.free hb
    refine ⟨⟨s', c.held.filter (· ≠ b.addr + headerSize)⟩, without live [b.addr], ?_, ⟨hinv, ?_⟩,
      hlimit⟩
    · simp [Client.step, hfree, bind, Except.bind]
    · simpa using perm_without h.2 [b.addr]
  | freeBulk objects =>
    obtain ⟨hnodup, hheld⟩ := hop
    obtain ⟨s', hfree, hinv, hlimit⟩ := h.1.freeBulk (fun a ha => h.block (hheld a ha)) hnodup
    refine ⟨⟨s', c.held.filter fun p => p ∉ objects.map (· + headerSize)⟩, without live objects,
      ?_, ⟨hinv, perm_without h.2 objects⟩, hlimit⟩
    simp [Client.step, hfree, bind, Except.bind]

theorem Inv.freeEach {s : FreeListAllocator} {live : List Block} (h : Inv s live)
    {objects : List Nat} (hobjects : ∀ a ∈ objects, ∃ b ∈ live, b.addr = a)
    (hnodup : objects.Nodup) :
    ∃ s', s.freeEach objects = .ok s' ∧ Inv s' (without live objects) ∧ s'.limit = s.limit := by
  induction objects generalizing s live with
  | nil =>
    refine ⟨s, rfl, ?_, rfl⟩
    rw [without, filter_eq_self.mpr (by simp)]
    exact h
  | cons a objects ih =>
    obtain ⟨b, hb, rfl⟩ := hobjects a (by simp)
    obtain ⟨hnot, hrest⟩ := nodup_cons.mp hnodup
    obtain ⟨s₁, hfree, h₁, hlimit₁⟩ := h.free hb
    have hobjects' : ∀ a ∈ objects, ∃ k ∈ without live [b.addr], k.addr = a := by
      intro a ha
      obtain ⟨k, hk, rfl⟩ := hobjects a (by simp [ha])
      refine ⟨k, mem_without.2 ⟨hk, ?_⟩, rfl⟩
      simp only [mem_singleton]
      intro heq
      exact hnot (heq ▸ ha)
    obtain ⟨s₂, heach, h₂, hlimit₂⟩ := ih h₁ hobjects' hrest
    refine ⟨s₂, ?_, ?_, hlimit₂.trans hlimit₁⟩
    · simp only [FreeListAllocator.freeEach, hfree, bind, Except.bind]
      exact heach
    · rw [without_without] at h₂
      exact h₂

/-- The taken blocks determine the free list, so a batch may be freed in any order. -/
theorem Holds.bulk (h : Holds c live) {objects order : List Nat}
    (hop : c.Allowed (.freeBulk objects)) (hperm : order.Perm objects) :
    ∃ s₁ s₂, c.arena.freeBulk objects = .ok s₁ ∧ c.arena.freeEach order = .ok s₂ ∧
      s₁.freeList = s₂.freeList := by
  obtain ⟨hnodup, hheld⟩ := hop
  have hobjects : ∀ a ∈ objects, ∃ b ∈ live, b.addr = a := fun a ha => h.block (hheld a ha)
  obtain ⟨s₁, hbulk, h₁, hlimit₁⟩ := h.1.freeBulk hobjects hnodup
  obtain ⟨s₂, heach, h₂, hlimit₂⟩ := h.1.freeEach
    (fun a ha => hobjects a (hperm.mem_iff.mp ha)) (hperm.nodup_iff.mpr hnodup)
  refine ⟨s₁, s₂, hbulk, heach, ?_⟩
  obtain ⟨e₁, ht₁⟩ := h₁.tiles
  obtain ⟨e₂, ht₂⟩ := h₂.tiles
  rw [hlimit₁] at ht₁
  rw [hlimit₂, without_congr live fun a => hperm.mem_iff] at ht₂
  exact ht₁.unique ht₂

/-- The blocks that are held, by address, are those at their addresses with the sizes in their
    headers. -/
theorem Holds.live_eq (h : Holds c live) :
    live = ((live.map Block.addr).map fun a => ⟨a, c.arena.header a⟩) ∧
      (live.map Block.addr).Pairwise (· < ·) ∧
      (live.map Block.addr).Perm (c.held.map (· - headerSize)) := by
  obtain ⟨e, htiles⟩ := h.1.tiles
  refine ⟨?_, ?_, ?_⟩
  · rw [map_map]
    refine ((map_congr_left fun b hb => ?_).trans (map_id live)).symm
    exact Block.mk.injEq .. ▸ ⟨rfl, h.1.header b hb⟩
  · exact htiles.ascending
  · have hperm := h.2.map (· - headerSize)
    rw [map_map] at hperm
    exact hperm

theorem Holds.sound (h : Holds c live) : Sound c := by
  obtain ⟨e, htiles⟩ := h.1.tiles
  constructor
  · exact h.1.validate
  · exact htiles.sorted.1
  · intro f hf
    exact (htiles.bounds.1 f hf).2.2.2
  · exact ⟨live, h.2, h.1.header, htiles.sorted.2, ⟨e, htiles⟩, h.1.iterateAllocated⟩
  · intro op hop hrep
    obtain ⟨c', -, hstep, -⟩ := h.step hop hrep
    exact ⟨c', hstep⟩
  · intro objects order hop hperm
    exact h.bulk hop hperm

end Holds

theorem Run.holds {start c : Client} (h : Run start c) (hstart : Holds start []) :
    ∃ live, Holds c live := by
  induction h with
  | start => exact ⟨[], hstart⟩
  | step _ hop hrep hstep ih =>
    obtain ⟨live, hlive⟩ := ih
    obtain ⟨c', live', hstep', hlive', -⟩ := hlive.step hop hrep
    rw [hstep] at hstep'
    cases hstep'
    exact ⟨live', hlive'⟩

theorem Run.limit_eq {start : Client} (h : Run start c) (hstart : Holds start []) :
    c.arena.limit = start.arena.limit := by
  induction h with
  | start => rfl
  | step hrun hop hrep hstep ih =>
    obtain ⟨live, hlive⟩ := hrun.holds hstart
    obtain ⟨c', live', hstep', -, hlimit⟩ := hlive.step hop hrep
    rw [hstep] at hstep'
    cases hstep'
    exact hlimit.trans ih

/-! ## Every Run -/

/-- Every state of every run is as it should be, provided that the rounded capacity has room
    for a free block. A smaller arena starts with a free block that is no free block. -/
theorem runs_sound_iff (capacity : Nat) (sizesFromHeaders : Bool) (garbage : Nat → Nat) :
    (∀ c, Run (.fresh capacity sizesFromHeaders garbage) c → Sound c) ↔
      freeBlockSize ≤ alignUp capacity := by
  constructor
  · intro h
    exact ((h _ .start).sizes ⟨0, alignUp capacity⟩ (by simp [Client.fresh,
      FreeListAllocator.create])).1
  · intro hroom c hrun
    have hstart : Holds (.fresh capacity sizesFromHeaders garbage) [] :=
      ⟨inv_create hroom sizesFromHeaders garbage, .nil⟩
    obtain ⟨live, hlive⟩ := hrun.holds hstart
    exact hlive.sound

/-- An arena of 8 bytes fails its own check and cannot be asked for a byte. In one of 32
    bytes, a request whose rounded size overflows is granted an empty block, and the next
    request gets the same block. -/
theorem small_arena_unsound :
    ¬ Sound (.fresh 8 false fun _ => 0) ∧
      (FreeListAllocator.create 8 false fun _ => 0).validate = false ∧
      ((FreeListAllocator.create 8 false fun _ => 0).alloc 1).map Prod.snd =
        .error "Corrupted free block" ∧
      (((FreeListAllocator.create 32 false fun _ => 0).alloc (2 ^ 64 - 8)).bind fun r =>
        (r.1.alloc 1).map fun r' => (r.2, r'.2)) = .ok (some 8, some 8) := by
  have hsmall : (FreeListAllocator.create 8 false fun _ => 0).validate = false := by decide
  refine ⟨fun h => ?_, hsmall, by rfl, by rfl⟩
  have hvalid : (FreeListAllocator.create 8 false fun _ => 0).validate = true := h.validates
  rw [hsmall] at hvalid
  cases hvalid

/-! ## What Is Free -/

theorem availableFrom_eq {fs : List Block} (visited : List Nat) (total : Nat)
    (hsorted : fs.Pairwise fun f g => f.limit < g.addr) (hnew : ∀ f ∈ fs, f.addr ∉ visited)
    (hsizes : ∀ f ∈ fs, FreeSize f.size) :
    availableFrom visited total fs = .ok (total + (fs.map Block.size).sum) := by
  induction fs generalizing visited total with
  | nil => rfl
  | cons f fs ih =>
    obtain ⟨hf, hsorted⟩ := pairwise_cons.mp hsorted
    have hrest : ∀ g ∈ fs, g.addr ∉ f.addr :: visited := by
      intro g hg hmem
      have hlt := hf g hg
      rcases mem_cons.mp hmem with heq | hmem
      · simp only [Block.limit] at hlt
        omega
      · exact hnew g (by simp [hg]) hmem
    rw [availableFrom, guardThat_true (hnew f (by simp)), guardThat_true (hsizes f (by simp)).1]
    simp only [bind, Except.bind]
    rw [ih _ _ hsorted hrest fun g hg => hsizes g (by simp [hg]), map_cons, sum_cons, Nat.add_assoc]

end Camel.Alloc
