import Mathlib

/-! # The Worker Pool of the Tensor Kernels

    A parallel region publishes a body, a count and a number of chunks, and the
    caller and the workers claim the chunks one at a time. Every section under the
    state mutex is one step here, and so are a call of the body, taking and giving
    back the region mutex, and the start and the end of a thread. What spins and
    condition variables do is only to choose when a step is taken, so a step may be
    taken whenever its predicate holds.

    Behind the fields of the pool the state keeps what has happened: the regions
    that were published, the calls of bodies, the calls that were counted as done,
    and the regions that have returned.
-/

namespace Camel.Tensor

/-! ## Chunks -/

/-- A 64-bit product as the machine has it. -/
def int64 (x : Int) : Int := (x + 2 ^ 63) % 2 ^ 64 - 2 ^ 63

def chunkBegin (count : Int) (chunk chunkCount : Nat) : Int :=
  (int64 (count * chunk)).tdiv chunkCount

def chunkEnd (count : Int) (chunk chunkCount : Nat) : Int :=
  (int64 (count * (chunk + 1))).tdiv chunkCount

/-- Into how many chunks a range is split. -/
def chunksOf (threadCount : Nat) (count grain : Int) : Int :=
  min threadCount (max 1 (count.tdiv (max grain 1)))

theorem int64_eq {x : Int} (hlo : 0 ≤ x) (hhi : x < 2 ^ 63) : int64 x = x := by
  simp only [int64]
  omega

/-- Where nothing overflows a chunk ends where the next one begins. -/
theorem chunkBegin_eq {count : Int} {chunk chunkCount : Nat} (hcount : 0 ≤ count)
    (hchunk : chunk ≤ chunkCount) (hfits : count * chunkCount < 2 ^ 63) :
    chunkBegin count chunk chunkCount = count * chunk / chunkCount := by
  have hle : count * chunk ≤ count * chunkCount :=
    mul_le_mul_of_nonneg_left (by exact_mod_cast hchunk) hcount
  have hpos : 0 ≤ count * (chunk : Int) := mul_nonneg hcount (by positivity)
  rw [chunkBegin, int64_eq hpos (by omega), Int.tdiv_eq_ediv_of_nonneg hpos]

theorem chunkEnd_eq_chunkBegin (count : Int) (chunk chunkCount : Nat) :
    chunkEnd count chunk chunkCount = chunkBegin count (chunk + 1) chunkCount := by
  simp [chunkEnd, chunkBegin]

theorem chunkBegin_mono {count : Int} {chunk chunk' chunkCount : Nat} (hpos : 0 < chunkCount)
    (hcount : 0 ≤ count) (hle : chunk ≤ chunk')
    (hchunk : chunk' ≤ chunkCount) (hfits : count * chunkCount < 2 ^ 63) :
    chunkBegin count chunk chunkCount ≤ chunkBegin count chunk' chunkCount := by
  rw [chunkBegin_eq hcount (by omega) hfits, chunkBegin_eq hcount hchunk hfits]
  apply Int.ediv_le_ediv (by exact_mod_cast hpos)
  exact mul_le_mul_of_nonneg_left (by exact_mod_cast hle) hcount

/-- The chunks of a range partition it. -/
theorem existsUnique_chunk {count : Int} {chunkCount : Nat} (hpos : 0 < chunkCount)
    (hfits : count * chunkCount < 2 ^ 63) {i : Int} (hlo : 0 ≤ i) (hhi : i < count) :
    ∃! chunk, chunk < chunkCount ∧ chunkBegin count chunk chunkCount ≤ i ∧
      i < chunkEnd count chunk chunkCount := by
  have hcount : 0 ≤ count := by omega
  have hfirst : chunkBegin count 0 chunkCount = 0 := by
    rw [chunkBegin_eq hcount (by omega) hfits]
    simp
  have hlast : chunkBegin count chunkCount chunkCount = count := by
    rw [chunkBegin_eq hcount le_rfl hfits]
    exact Int.mul_ediv_cancel _ (by omega)
  -- the first boundary behind `i` among the first ones ends its chunk
  have hfind : ∀ n ≤ chunkCount, i < chunkBegin count n chunkCount →
      ∃ chunk < n, chunkBegin count chunk chunkCount ≤ i ∧ i < chunkEnd count chunk chunkCount := by
    intro n
    induction n with
    | zero =>
      intro _ hlt
      omega
    | succ n ih =>
      intro hn hlt
      by_cases hbefore : i < chunkBegin count n chunkCount
      · obtain ⟨chunk, hc, hrange⟩ := ih (by omega) hbefore
        exact ⟨chunk, by omega, hrange⟩
      · exact ⟨n, by omega, by omega, by rw [chunkEnd_eq_chunkBegin]; exact hlt⟩
  obtain ⟨chunk, hlt, hrange⟩ := hfind chunkCount le_rfl (by omega)
  refine ⟨chunk, ⟨hlt, hrange⟩, ?_⟩
  intro chunk' hchunk'
  obtain ⟨hlt', hrange'⟩ := hchunk'
  rw [chunkEnd_eq_chunkBegin] at hrange hrange'
  rcases lt_trichotomy chunk chunk' with h | h | h
  · have := chunkBegin_mono hpos hcount (show chunk + 1 ≤ chunk' by omega) (by omega) hfits
    omega
  · exact h.symm
  · have := chunkBegin_mono hpos hcount (show chunk' + 1 ≤ chunk by omega) (by omega) hfits
    omega

/-- A range that is split has an index for each chunk. -/
theorem count_pos_of_chunksOf {threadCount : Nat} {count grain : Int}
    (h : 1 < chunksOf threadCount count grain) : 0 < count := by
  have hmax : 1 < count.tdiv (max grain 1) := by
    simp only [chunksOf] at h
    omega
  by_contra hle
  have hneg : count.tdiv (max grain 1) ≤ 0 := by
    rw [← Int.neg_neg count, Int.neg_tdiv]
    have : 0 ≤ (-count).tdiv (max grain 1) := Int.tdiv_nonneg (by omega) (by omega)
    omega
  omega

/-! ## The State -/

variable {Tid B E : Type}

structure Region (B : Type) where
  body : B
  count : Int
  chunkCount : Nat

/-- A chunk with what its thread copied under the lock, and the region it was claimed in. -/
structure Claim (B : Type) where
  region : Nat
  chunk : Nat
  body : B
  count : Int
  chunkCount : Nat

/-- A call of a body. -/
structure Call (B E : Type) where
  region : Nat
  chunk : Nat
  body : B
  first : Int
  last : Int
  error : Option E

/-- Who runs `runChunks`: the caller of a region, or a worker that saw a generation. -/
inductive Role where
  | caller (region : Nat)
  | worker (seenGeneration : Nat)

/-- Where a thread is. -/
inductive Local (B E : Type) where
  /-- Not started, or ended. -/
  | off
  /-- A thread of the program, not in the pool. -/
  | outside
  /-- `run`, with the region mutex. -/
  | publishing (body : B) (count : Int) (chunks : Nat)
  | claiming (role : Role)
  | calling (role : Role) (claim : Claim B)
  | completing (role : Role) (claim : Claim B) (error : Option E)
  /-- `run`, behind `runChunks`. -/
  | waiting (region : Nat)
  /-- `run`, with its result. -/
  | leaving (error : Option E)
  /-- A worker between two regions. -/
  | asleep (seenGeneration : Nat)
  /-- `resize`, with the region mutex. -/
  | resizing (threads : Nat)
  | joining (threads : Nat)
  | creating (missing : Nat)

structure Pool (Tid B E : Type) where
  regionMutex : Option Tid
  threadCount : Nat
  workers : List Tid
  stopping : Bool
  body : Option B
  count : Int
  chunkCount : Nat
  nextChunk : Nat
  doneChunks : Nat
  generation : Nat
  firstError : Option E
  loc : Tid → Local B E
  regions : List (Region B)
  calls : List (Call B E)
  completed : List (Call B E)
  returned : List (Nat × Option E)

variable [DecidableEq Tid]

def Pool.move (s : Pool Tid B E) (t : Tid) (l : Local B E) : Pool Tid B E :=
  { s with loc := Function.update s.loc t l }

/-! ## Steps -/

inductive Act (Tid B E : Type) where
  /-- A `run` that calls its body once and leaves the pool alone: one chunk, a thread
      inside a region, or a busy pool. -/
  | serial (t : Tid)
  | acquire (t : Tid) (body : B) (count grain : Int)
  | publish (t : Tid)
  | claim (t : Tid)
  | call (t : Tid) (error : Option E)
  | complete (t : Tid)
  | finish (t : Tid)
  | release (t : Tid)
  | wake (t : Tid)
  | beginResize (t : Tid) (threads : Int)
  | stopWorkers (t : Tid)
  | join (t : Tid)
  | create (t worker : Tid)
  | endResize (t : Tid)

/-- The end of `runChunks`. -/
def Role.after : Role → Local B E
  | .caller region => .waiting region
  | .worker seen => .asleep seen

/-- A chunk is claimed, or none is left. -/
def Pool.claimChunk (s : Pool Tid B E) (t : Tid) (role : Role) : Pool Tid B E :=
  match s.body with
  | none => s.move t role.after
  | some body =>
    if s.nextChunk < s.chunkCount then
      { s.move t (.calling role ⟨s.regions.length - 1, s.nextChunk, body, s.count, s.chunkCount⟩)
        with nextChunk := s.nextChunk + 1 }
    else s.move t role.after

def Claim.call (c : Claim B) (error : Option E) : Call B E :=
  ⟨c.region, c.chunk, c.body, chunkBegin c.count c.chunk c.chunkCount,
    chunkEnd c.count c.chunk c.chunkCount, error⟩

def Local.isOff : Local B E → Bool
  | .off => true
  | _ => false

/-- One step; `none` where it cannot be taken. -/
def step (s : Pool Tid B E) : Act Tid B E → Option (Pool Tid B E)
  | .serial _ => some s
  | .acquire t body count grain =>
    match s.loc t, s.regionMutex with
    | .outside, none =>
      if 1 < chunksOf s.threadCount count grain then
        some { s.move t (.publishing body count (chunksOf s.threadCount count grain).toNat) with
          regionMutex := some t }
      else none
    | _, _ => none
  | .publish t =>
    match s.loc t with
    | .publishing body count chunks =>
      some { s.move t (.claiming (.caller s.regions.length)) with
        body := some body
        count := count
        chunkCount := chunks
        nextChunk := 0
        doneChunks := 0
        firstError := none
        generation := (s.generation + 1) % 2 ^ 64
        regions := s.regions ++ [⟨body, count, chunks⟩] }
    | _ => none
  | .claim t =>
    match s.loc t with
    | .claiming role => some (s.claimChunk t role)
    | _ => none
  | .call t error =>
    match s.loc t with
    | .calling role c =>
      some { s.move t (.completing role c error) with calls := s.calls ++ [c.call error] }
    | _ => none
  | .complete t =>
    match s.loc t with
    | .completing role c error =>
      some { s.move t (.claiming role) with
        firstError := s.firstError.or error
        doneChunks := s.doneChunks + 1
        completed := s.completed ++ [c.call error] }
    | _ => none
  | .finish t =>
    match s.loc t with
    | .waiting region =>
      if s.doneChunks = s.chunkCount then
        some { s.move t (.leaving s.firstError) with
          body := none
          returned := s.returned ++ [(region, s.firstError)] }
      else none
    | _ => none
  | .release t =>
    match s.loc t with
    | .leaving _ => some { s.move t .outside with regionMutex := none }
    | _ => none
  | .wake t =>
    match s.loc t with
    | .asleep seen =>
      if s.stopping then some (s.move t .off)
      else if s.generation ≠ seen then some (s.move t (.claiming (.worker s.generation)))
      else none
    | _ => none
  | .beginResize t threads =>
    match s.loc t, s.regionMutex with
    | .outside, none =>
      some { s.move t (.resizing (max threads 1).toNat) with regionMutex := some t }
    | _, _ => none
  | .stopWorkers t =>
    match s.loc t with
    | .resizing threads => some { s.move t (.joining threads) with stopping := true }
    | _ => none
  | .join t =>
    match s.loc t with
    | .joining threads =>
      if s.workers.all fun w => (s.loc w).isOff then
        some { s.move t (.creating (threads - 1)) with
          workers := []
          threadCount := threads
          stopping := false }
      else none
    | _ => none
  | .create t worker =>
    match s.loc t, s.loc worker with
    | .creating (missing + 1), .off =>
      some { (s.move t (.creating missing)).move worker (.asleep 0) with
        workers := s.workers ++ [worker] }
    | _, _ => none
  | .endResize t =>
    match s.loc t with
    | .creating 0 => some { s.move t .outside with regionMutex := none }
    | _ => none

/-- A pool as its constructor leaves it: workers asleep, no region yet. -/
structure Fresh (s : Pool Tid B E) : Prop where
  mutex : s.regionMutex = none
  body : s.body = none
  outside : ∀ t, s.loc t = .off ∨ s.loc t = .outside ∨ s.loc t = .asleep 0
  regions : s.regions = []
  calls : s.calls = []
  completed : s.completed = []
  returned : s.returned = []

inductive Reachable : Pool Tid B E → Prop where
  | start {s : Pool Tid B E} : Fresh s → Reachable s
  | next {s s' : Pool Tid B E} {a : Act Tid B E} : Reachable s → step s a = some s' → Reachable s'

end Camel.Tensor
