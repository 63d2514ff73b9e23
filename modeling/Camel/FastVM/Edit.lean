import Camel.FastVM.Chunk

/-! # The Bytecode Optimizer

    Four strategies rewrite a chunk in place: `JumpToJump` folds a chain of
    JUMPs, `JumpToNext` drops a JUMP to the instruction behind it, `JumpToRetn`
    copies the RETN a JUMP goes to, and `JoinCleanup` drops the JUMPs to a JOIN
    that stand behind a TAIL or a RETN and then a JOIN nothing reaches.

    `optimize` scans the chunk once. At each instruction the first enabled
    strategy with something to do rewrites the chunk and says where the scan
    goes on. The order of the strategies is the one of an unordered map, so it
    is a parameter here.
-/

namespace Camel.FastVM

/-! ## The Edits -/

/-- An address after `step` units went away behind `start`. -/
def Bytecode.moved (start : Nat) (step : Int) (bc : Bytecode) : Bytecode :=
  if hasJumpTarget bc.opcode = true ∧ start < bc.target then
    { bc with fastop0 := bc.fastop0 + step }
  else bc

variable (codes : Chunk) (curr : Nat)

/-- Moves every target behind `start`. -/
def redirect (start : Nat) (step : Int) : Chunk :=
  codes.map (Bytecode.moved start step)

/-- Drops the instruction at an address. -/
def removeop : Chunk → Nat → Chunk
  | [], _ => []
  | bc :: rest, index =>
    if index = 0 then rest
    else if index < bc.opsize then bc :: rest
    else bc :: removeop rest (index - bc.opsize)

/-- Writes the instruction at an address over. -/
def overwrite : Chunk → Nat → Bytecode → Chunk
  | [], _, _ => []
  | bc :: rest, index, new =>
    if index = 0 then new :: rest
    else if index < bc.opsize then bc :: rest
    else bc :: overwrite rest (index - bc.opsize) new

/-- The walk of `findPrev` from the instruction at `i` on. -/
def findPrevFrom : Chunk → Nat → Nat → Nat
  | [], _, index => index
  | bc :: rest, i, index =>
    if i < index then
      if i + bc.opsize = index then i else findPrevFrom rest (i + bc.opsize) index
    else index

/-- The address of the instruction in front of `index`, or `index` itself when
    that is the first one. -/
def findPrev (index : Nat) : Nat := findPrevFrom codes 0 index

/-- The opcode at an address. -/
def opAt (pc : Nat) : Option OpCode := (instrAt codes pc).map Bytecode.opcode

/-- The walk over the BRCHs of a chunk: one of them has `index` in its table. -/
def dispatchFrom : Chunk → Nat → Nat → Bool
  | [], _, _ => false
  | bc :: rest, pc, index =>
    if bc.opcode = .brch then
      if pc + bc.opsize ≤ index ∧ index < pc + bc.opsize + bc.brchArmDispatchCount then true
      else if index ≤ pc then false
      else dispatchFrom rest (pc + bc.opsize) index
    else dispatchFrom rest (pc + bc.opsize) index

/-- The JUMP at `index` is an entry of a BRCH's dispatch table: the BRCH goes to
    it by its place. -/
def isBrchDispatchJump (index : Nat) : Bool :=
  opAt codes index == some .jump && dispatchFrom codes 0 index

/-- Some JUMP of the chunk goes to `pc`. -/
def jumpTargets (pc : Nat) : Bool :=
  codes.any fun bc => bc.opcode == .jump && bc.target == pc

/-! ## The Strategies -/

inductive Strategy where
  | jumpToJump | jumpToNext | jumpToRetn | joinCleanup
  deriving DecidableEq

def Strategy.triggerOp : Strategy → OpCode
  | .joinCleanup => .join
  | _ => .jump

/-- The instruction in front of `index` hands control on to it: it is none of
    the ones that leave. -/
def prevFallsThrough (index : Nat) : Bool :=
  let prev := findPrev codes index
  prev == index ||
    !(opAt codes prev == some .tail || opAt codes prev == some .retn ||
      opAt codes prev == some .jump)

/-- The chunk after a JUMP is gone, with the targets behind it moved. -/
def dropJump (index : Nat) : Chunk := redirect (removeop codes index) index (-1)

variable (bc : Bytecode)

/-- The chunk with the JUMP at `curr` sent where the JUMP it goes to goes. -/
def foldJump : Option Chunk :=
  if isBrchDispatchJump codes curr then none
  else
    match instrAt codes bc.target with
    | none => none
    | some tbc =>
      if tbc.opcode = .jump ∧ bc.target ≠ curr ∧ tbc.target ≠ bc.target then
        some (overwrite codes curr { bc with fastop0 := tbc.fastop0 })
      else none

/-- The middle JUMP goes only when nothing else reaches it: it is no dispatch
    entry, no JUMP goes to it, and the instruction in front does not fall
    through. A first instruction counts as one nothing falls into. -/
def middleGoes (next : Nat) : Bool :=
  !isBrchDispatchJump codes next && !jumpTargets codes next &&
    !(findPrev codes next != next && prevFallsThrough codes next)

def applyJumpToJump : Option (Chunk × Nat) :=
  let next := bc.target
  match foldJump codes curr bc with
  | none => none
  | some folded =>
    if middleGoes folded next then
      some (dropJump folded next, if next < curr then curr - 1 else curr)
    else some (folded, curr)

def applyJumpToNext : Option (Chunk × Nat) :=
  if isBrchDispatchJump codes curr then none
  else if bc.target = curr + 1 then some (dropJump codes curr, curr)
  else none

def applyJumpToRetn : Option (Chunk × Nat) :=
  if isBrchDispatchJump codes curr then none
  else
    match instrAt codes bc.target with
    | none => none
    | some tbc =>
      if tbc.opcode = .retn then some (overwrite codes curr tbc, curr + 1) else none

/-- The first JUMP to the JOIN at `curr` that stands behind a TAIL or a RETN. -/
def joinVictimFrom (codes : Chunk) (curr : Nat) : Chunk → Nat → Option Nat
  | [], _ => none
  | nbc :: rest, j =>
    let pop := opAt codes (findPrev codes j)
    if nbc.opcode = .jump ∧ nbc.target = curr ∧ (pop = some .tail ∨ pop = some .retn) then some j
    else joinVictimFrom codes curr rest (j + nbc.opsize)

def joinVictim : Option Nat := joinVictimFrom codes curr codes 0

def applyJoinCleanup : Option (Chunk × Nat) :=
  match joinVictim codes curr with
  | some j => some (dropJump codes j, curr - 1)
  | none =>
    if jumpTargets codes curr = false ∧ prevFallsThrough codes curr = false then
      some (redirect (removeop codes curr) curr (-bc.opsize), curr)
    else none

/-- What a strategy does at an instruction with its trigger opcode: the chunk it
    leaves and where the scan goes on, or nothing. -/
def Strategy.apply (s : Strategy) (codes : Chunk) (curr : Nat) (bc : Bytecode) :
    Option (Chunk × Nat) :=
  if bc.opcode = s.triggerOp then
    match s with
    | .jumpToJump => applyJumpToJump codes curr bc
    | .jumpToNext => applyJumpToNext codes curr bc
    | .jumpToRetn => applyJumpToRetn codes curr bc
    | .joinCleanup => applyJoinCleanup codes curr bc
  else none

/-- What a strategy does when it does something. -/
inductive Rewrites (codes : Chunk) (curr : Nat) (bc : Bytecode) : Strategy → Chunk → Nat → Prop where
  | middle {folded : Chunk} (hop : bc.opcode = .jump) (hf : foldJump codes curr bc = some folded)
      (hgoes : middleGoes folded bc.target = true) :
      Rewrites codes curr bc .jumpToJump (dropJump folded bc.target)
        (if bc.target < curr then curr - 1 else curr)
  | fold {folded : Chunk} (hop : bc.opcode = .jump) (hf : foldJump codes curr bc = some folded)
      (hstays : ¬middleGoes folded bc.target = true) :
      Rewrites codes curr bc .jumpToJump folded curr
  | next (hop : bc.opcode = .jump) (hnd : isBrchDispatchJump codes curr = false)
      (ht : bc.target = curr + 1) : Rewrites codes curr bc .jumpToNext (dropJump codes curr) curr
  | retn {tbc : Bytecode} (hop : bc.opcode = .jump) (hnd : isBrchDispatchJump codes curr = false)
      (ht : instrAt codes bc.target = some tbc) (htop : tbc.opcode = .retn) :
      Rewrites codes curr bc .jumpToRetn (overwrite codes curr tbc) (curr + 1)
  | victim {j : Nat} (hop : bc.opcode = .join) (hj : joinVictim codes curr = some j) :
      Rewrites codes curr bc .joinCleanup (dropJump codes j) (curr - 1)
  | dead (hop : bc.opcode = .join) (hj : joinVictim codes curr = none)
      (hdead : jumpTargets codes curr = false ∧ prevFallsThrough codes curr = false) :
      Rewrites codes curr bc .joinCleanup (redirect (removeop codes curr) curr (-bc.opsize)) curr

theorem Strategy.rewrites {s : Strategy} {codes codes' : Chunk} {curr curr' : Nat} {bc : Bytecode}
    (hs : s.apply codes curr bc = some (codes', curr')) :
    Rewrites codes curr bc s codes' curr' := by
  simp only [Strategy.apply] at hs
  split at hs
  next hop =>
    cases s with
    | jumpToJump =>
      simp only [applyJumpToJump] at hs
      cases hf : foldJump codes curr bc with
      | none => simp [hf] at hs
      | some folded =>
        simp only [hf] at hs
        split at hs
        next hgoes =>
          cases hs
          exact .middle hop hf hgoes
        next hstays =>
          cases hs
          exact .fold hop hf hstays
    | jumpToNext =>
      simp only [applyJumpToNext] at hs
      split at hs
      next => cases hs
      next hnd =>
        split at hs
        next ht =>
          cases hs
          exact .next hop (by simpa using hnd) ht
        next => cases hs
    | jumpToRetn =>
      simp only [applyJumpToRetn] at hs
      split at hs
      next => cases hs
      next hnd =>
        cases ht : instrAt codes bc.target with
        | none => simp [ht] at hs
        | some tbc =>
          simp only [ht] at hs
          split at hs
          next htop =>
            cases hs
            exact .retn hop (by simpa using hnd) ht htop
          next => cases hs
    | joinCleanup =>
      simp only [applyJoinCleanup] at hs
      cases hj : joinVictim codes curr with
      | some j =>
        simp only [hj] at hs
        cases hs
        exact .victim hop hj
      | none =>
        simp only [hj] at hs
        split at hs
        next hdead =>
          cases hs
          exact .dead hop hj hdead
        next => cases hs
  next => cases hs

/-! ## The Scan -/

/-- One turn of the scan: where it goes on and with which chunk. It reads no
    instruction, and has no turn, when `curr` is not the start of one. -/
def round (strategies : List Strategy) (codes : Chunk) (curr : Nat) : Option (Chunk × Nat) :=
  match instrAt codes curr with
  | none => none
  | some bc =>
    match strategies.findSome? fun s => s.apply codes curr bc with
    | some hit => some hit
    | none => some (codes, curr + bc.opsize)

/-- The scan, with `fuel` turns at most. -/
def optimizeFrom (strategies : List Strategy) : Nat → Chunk → Nat → Option Chunk
  | 0, _, _ => none
  | fuel + 1, codes, curr =>
    if curr < units codes then
      match round strategies codes curr with
      | none => none
      | some (codes', curr') => optimizeFrom strategies fuel codes' curr'
    else some codes

/-- `BytecodeOptimizer::optimize` on a whole chunk. -/
def optimize (strategies : List Strategy) (fuel : Nat) (codes : Chunk) : Option Chunk :=
  optimizeFrom strategies fuel codes 0

end Camel.FastVM

/-! # What the Edits Do

    The reading lemmas of the edits the strategies are made of: what stands at
    which address after an instruction was dropped or written over, and what the
    walks `findPrev`, `isBrchDispatchJump` and `jumpTargets` answer.
-/

namespace Camel.FastVM

open List

/-! ## The Walks -/

variable {codes : Chunk} {bc : Bytecode}

theorem mem_iff_instrAt (hs : Sized codes) :
    bc ∈ codes ↔ ∃ pc, instrAt codes pc = some bc := by
  constructor
  · intro hmem
    obtain ⟨pre, post, rfl⟩ := append_of_mem hmem
    exact ⟨units pre, instrAt_split bc post hs.append.1⟩
  · rintro ⟨pc, h⟩
    exact instrAt_mem h

variable {pc p : Nat}

theorem jumpTargets_eq_false (h : jumpTargets codes pc = false)
    (hat : instrAt codes p = some bc) (hj : bc.opcode = .jump) :
    bc.target ≠ pc := by
  have hmem := instrAt_mem hat
  simp only [jumpTargets, any_eq_false] at h
  have := h bc hmem
  simpa [hj] using this

theorem jumpTargets_eq_true (hs : Sized codes)
    (h : jumpTargets codes pc = true) :
    ∃ p bc, instrAt codes p = some bc ∧ bc.opcode = .jump ∧ bc.target = pc := by
  simp only [jumpTargets, any_eq_true, Bool.and_eq_true, beq_iff_eq] at h
  obtain ⟨bc, hmem, hj, ht⟩ := h
  obtain ⟨p, hp⟩ := (mem_iff_instrAt hs).mp hmem
  exact ⟨p, bc, hp, hj, ht⟩

variable {pre : Chunk}

/-- The walk meets the instruction that ends at `index`. -/
theorem findPrevFrom_of_end (post : Chunk) (hpre : Sized pre)
    (hbc : 0 < bc.opsize) (i : Nat) :
    findPrevFrom (pre ++ bc :: post) i (i + units pre + bc.opsize) = i + units pre := by
  induction pre generalizing i with
  | nil =>
    simp only [nil_append, findPrevFrom, units_nil, add_zero]
    rw [if_pos (by omega), if_pos trivial]
  | cons b rest ih =>
    have hb : 0 < b.opsize := hpre b (by simp)
    have hrest : Sized rest := fun c hc => hpre c (by simp [hc])
    simp only [cons_append, findPrevFrom, units_cons]
    rw [if_pos (by omega), if_neg (by omega)]
    have := ih hrest (i + b.opsize)
    rw [← add_assoc i]
    exact this

/-- `findPrev` finds the instruction in front. -/
theorem findPrev_of_end (hs : Sized codes)
    (hp : instrAt codes p = some bc) : findPrev codes (p + bc.opsize) = p := by
  obtain ⟨pre, post, rfl, rfl⟩ := exists_split_of_instrAt hp
  have := findPrevFrom_of_end post hs.append.1 (hs bc (by simp)) 0
  simpa [findPrev] using this

/-- Every boundary but the first has an instruction in front. -/
theorem exists_prev (hs : Sized codes) (hb : Boundary codes pc)
    (hpos : 0 < pc) : ∃ p bc, instrAt codes p = some bc ∧ p + bc.opsize = pc := by
  have hsplit : ∃ pre post, codes = pre ++ post ∧ units pre = pc := by
    rcases hb with ⟨bc, hat⟩ | rfl
    · obtain ⟨pre, post, rfl, rfl⟩ := exists_split_of_instrAt hat
      exact ⟨pre, bc :: post, rfl, rfl⟩
    · exact ⟨codes, [], by simp, rfl⟩
  obtain ⟨pre, post, rfl, rfl⟩ := hsplit
  rcases eq_nil_or_concat pre with rfl | ⟨front, bc, rfl⟩
  · simp at hpos
  · refine ⟨units front, bc, ?_, by simp⟩
    rw [concat_eq_append, append_assoc]
    have hsized : Sized front := by
      rw [concat_eq_append, append_assoc] at hs
      exact hs.append.1
    exact instrAt_split bc post hsized

theorem dispatchFrom_eq_true {index : Nat}
    (hp : instrAt codes p = some bc) (hop : bc.opcode = .brch)
    (hlo : pc + p + bc.opsize ≤ index)
    (hhi : index < pc + p + bc.opsize + bc.brchArmDispatchCount) (hs : Sized codes) :
    dispatchFrom codes pc index = true := by
  induction codes generalizing pc p with
  | nil => cases hp
  | cons b rest ih =>
    have hb : 0 < b.opsize := hs b (by simp)
    have hrest : Sized rest := fun c hc => hs c (by simp [hc])
    rw [instrAt_cons] at hp
    simp only [dispatchFrom]
    split at hp
    next hz =>
      cases hp
      subst hz
      rw [if_pos hop, if_pos ⟨by omega, by omega⟩]
    next hz =>
      split at hp
      next => cases hp
      next hge =>
        have hbelow : dispatchFrom rest (pc + b.opsize) index = true :=
          ih hp (by omega) (by omega) hrest
        split
        · split
          · rfl
          · rw [if_neg (by omega)]
            exact hbelow
        · exact hbelow

/-- A JUMP the walk does not take for a dispatch entry stands in no table. -/
theorem not_dispatch (hs : Sized codes) {index : Nat} {x : Bytecode}
    (hat : instrAt codes index = some x) (hj : x.opcode = .jump)
    (h : isBrchDispatchJump codes index = false)
    (hp : instrAt codes p = some bc) (hop : bc.opcode = .brch) :
    ¬(p + bc.opsize ≤ index ∧ index < p + bc.opsize + bc.brchArmDispatchCount) := by
  rintro ⟨hlo, hhi⟩
  have hd : dispatchFrom codes 0 index = true :=
    dispatchFrom_eq_true hp hop (by omega) (by omega) hs
  simp [isBrchDispatchJump, opAt, hat, hj, hd] at h

/-! ## Writing an Instruction Over -/

variable {old new : Bytecode}

theorem overwrite_split {post : Chunk} (hpre : Sized pre) :
    overwrite (pre ++ old :: post) (units pre) new = pre ++ new :: post := by
  induction pre with
  | nil => simp [overwrite]
  | cons b rest ih =>
    have hb : 0 < b.opsize := hpre b (by simp)
    have hrest : Sized rest := fun c hc => hpre c (by simp [hc])
    simp only [cons_append, overwrite, units_cons]
    rw [if_neg (by omega), if_neg (by omega), Nat.add_sub_cancel_left, ih hrest]

variable {c : Nat}

/-- The address the other instructions keep. -/
theorem instrAt_overwrite (hs : Sized codes)
    (hold : instrAt codes c = some old) (hsize : new.opsize = old.opsize) (p : Nat) :
    instrAt (overwrite codes c new) p = if p = c then some new else instrAt codes p := by
  obtain ⟨pre, post, rfl, rfl⟩ := exists_split_of_instrAt hold
  have hpre := hs.append.1
  rw [overwrite_split hpre]
  rcases Nat.lt_or_ge p (units pre) with hlt | hge
  · rw [if_neg (by omega), instrAt_append_left hlt, instrAt_append_left hlt]
  · obtain ⟨k, rfl⟩ := Nat.exists_eq_add_of_le hge
    rw [instrAt_append_right hpre, instrAt_append_right hpre]
    simp only [instrAt_cons, hsize]
    rcases Nat.eq_zero_or_pos k with rfl | hk
    · simp
    · have hne : k ≠ 0 := by omega
      have hne' : units pre + k ≠ units pre := by omega
      simp only [hne, hne', if_false]

theorem units_overwrite (hs : Sized codes)
    (hold : instrAt codes c = some old) (hsize : new.opsize = old.opsize) :
    units (overwrite codes c new) = units codes := by
  obtain ⟨pre, post, rfl, rfl⟩ := exists_split_of_instrAt hold
  rw [overwrite_split hs.append.1]
  simp [hsize]

theorem Sized.overwrite (hs : Sized codes)
    (hold : instrAt codes c = some old) (hsize : new.opsize = old.opsize) :
    Sized (overwrite codes c new) := by
  obtain ⟨pre, post, rfl, rfl⟩ := exists_split_of_instrAt hold
  rw [overwrite_split hs.append.1]
  intro b hb
  have hold' : 0 < old.opsize := hs old (by simp)
  simp only [mem_append, mem_cons] at hb
  rcases hb with hb | rfl | hb
  · exact hs b (by simp [hb])
  · omega
  · exact hs b (by simp [hb])

/-! ## Dropping an Instruction -/

/-- Where an address goes when the `size` units at `d` are dropped. -/
def shift (d size p : Nat) : Nat := if d < p then p - size else p

variable {d size : Nat}

theorem shift_of_le (h : p ≤ d) : shift d size p = p := by
  simp [shift, Nat.not_lt.mpr h]

theorem shift_of_lt (h : d < p) : shift d size p = p - size := by
  simp [shift, h]

theorem moved_opsize (d : Nat) (k : Int) (bc : Bytecode) : (bc.moved d k).opsize = bc.opsize := by
  simp only [Bytecode.moved]
  split <;> rfl

theorem moved_opcode (d : Nat) (k : Int) (bc : Bytecode) : (bc.moved d k).opcode = bc.opcode := by
  simp only [Bytecode.moved]
  split <;> rfl

theorem moved_extra (d : Nat) (k : Int) (bc : Bytecode) : (bc.moved d k).extra = bc.extra := by
  simp only [Bytecode.moved]
  split <;> rfl

theorem moved_readdressed (d : Nat) (k : Int) (bc : Bytecode) :
    Readdressed bc (bc.moved d k) := by
  simp only [Bytecode.moved]
  split
  next h => exact .inr ⟨h.1, _, rfl⟩
  next => exact .inl rfl

theorem moved_brchArmDispatchCount {k : Int} (h : bc.opcode = .brch) :
    (bc.moved d k).brchArmDispatchCount = bc.brchArmDispatchCount := by
  simp [Bytecode.moved, hasJumpTarget, h]

theorem moved_target (h : hasJumpTarget bc.opcode = true) :
    (bc.moved d (-size)).target = shift d size bc.target := by
  simp only [Bytecode.moved, h, true_and, shift]
  split
  next hlt =>
    simp only [Bytecode.target] at hlt ⊢
    omega
  next => rfl

theorem removeop_split {post : Chunk} (hpre : Sized pre) :
    removeop (pre ++ bc :: post) (units pre) = pre ++ post := by
  induction pre with
  | nil => simp [removeop]
  | cons b rest ih =>
    have hb : 0 < b.opsize := hpre b (by simp)
    have hrest : Sized rest := fun c hc => hpre c (by simp [hc])
    simp only [cons_append, removeop, units_cons]
    rw [if_neg (by omega), if_neg (by omega), Nat.add_sub_cancel_left, ih hrest]

/-- The chunk without the instruction at `d`, its targets moved. -/
def dropAt (codes : Chunk) (d size : Nat) : Chunk := redirect (removeop codes d) d (-size)

theorem dropJump_eq (codes : Chunk) (d : Nat) : dropJump codes d = dropAt codes d 1 := rfl

section Drop

variable {codes : Chunk} {d : Nat} {x : Bytecode}

theorem units_dropAt (hs : Sized codes) (hx : instrAt codes d = some x) :
    units (dropAt codes d x.opsize) + x.opsize = units codes := by
  obtain ⟨pre, post, rfl, rfl⟩ := exists_split_of_instrAt hx
  rw [dropAt, redirect, removeop_split hs.append.1, units_map (moved_opsize _ _)]
  simp only [units_append, units_cons]
  omega

theorem Sized.dropAt (hs : Sized codes) (hx : instrAt codes d = some x) :
    Sized (dropAt codes d x.opsize) := by
  obtain ⟨pre, post, rfl, rfl⟩ := exists_split_of_instrAt hx
  rw [FastVM.dropAt, redirect, removeop_split hs.append.1]
  apply Sized.map (moved_opsize _ _)
  intro b hb
  apply hs b
  simp only [mem_append, mem_cons] at hb ⊢
  tauto

/-- What stood before or behind the dropped instruction still stands, moved. -/
theorem instrAt_dropAt (hs : Sized codes) (hx : instrAt codes d = some x) {p : Nat}
    (hp : p < d ∨ d + x.opsize ≤ p) :
    instrAt (dropAt codes d x.opsize) (shift d x.opsize p) =
      (instrAt codes p).map (Bytecode.moved d (-x.opsize)) := by
  obtain ⟨pre, post, rfl, rfl⟩ := exists_split_of_instrAt hx
  have hpre := hs.append.1
  have hxs : 0 < x.opsize := hs x (by simp)
  rw [dropAt, redirect, removeop_split hpre, instrAt_map (moved_opsize _ _)]
  congr 1
  rcases hp with hlt | hge
  · rw [shift_of_le (by omega), instrAt_append_left hlt, instrAt_append_left hlt]
  · obtain ⟨k, rfl⟩ := Nat.exists_eq_add_of_le hge
    rw [shift_of_lt (by omega)]
    have hleft : units pre + x.opsize + k - x.opsize = units pre + k := by omega
    rw [hleft, instrAt_append_right hpre, add_assoc, instrAt_append_right hpre]
    rw [instrAt_cons, if_neg (by omega), if_neg (by omega), Nat.add_sub_cancel_left]

/-- Every instruction of the chunk that is left comes from one of the old chunk. -/
theorem exists_of_instrAt_dropAt (hs : Sized codes) (hx : instrAt codes d = some x) {q : Nat}
    {b' : Bytecode} (h : instrAt (dropAt codes d x.opsize) q = some b') :
    ∃ p b, instrAt codes p = some b ∧ (p < d ∨ d + x.opsize ≤ p) ∧ q = shift d x.opsize p ∧
      b' = b.moved d (-x.opsize) := by
  have hxs : 0 < x.opsize := hs x (instrAt_mem hx)
  have hpre : ∃ p, (p < d ∨ d + x.opsize ≤ p) ∧ q = shift d x.opsize p := by
    rcases Nat.lt_or_ge q d with hlt | hge
    · exact ⟨q, .inl hlt, (shift_of_le (by omega)).symm⟩
    · refine ⟨q + x.opsize, .inr (by omega), ?_⟩
      rw [shift_of_lt (by omega)]
      omega
  obtain ⟨p, hp, rfl⟩ := hpre
  rw [instrAt_dropAt hs hx hp] at h
  obtain ⟨b, hb, rfl⟩ := Option.map_eq_some_iff.mp h
  exact ⟨p, b, hb, hp, rfl, rfl⟩

/-- A boundary other than `d` lies before or behind the dropped instruction. -/
theorem Boundary.outside (hs : Sized codes) (hx : instrAt codes d = some x) {p : Nat}
    (hp : Boundary codes p) (hne : p ≠ d) : p < d ∨ d + x.opsize ≤ p := by
  rcases Nat.lt_trichotomy p d with hlt | heq | hgt
  · exact .inl hlt
  · exact absurd heq hne
  · exact .inr (Boundary.end_le hs hx hp hgt)

/-- What follows an instruction still follows it. -/
theorem shift_next (hs : Sized codes) (hx : instrAt codes d = some x) {p : Nat} {b : Bytecode}
    (hb : instrAt codes p = some b) (hne : p ≠ d) :
    shift d x.opsize (p + b.opsize) = shift d x.opsize p + b.opsize := by
  rcases Boundary.outside hs hx (.of_instrAt hb) hne with hlt | hge
  · have := Boundary.end_le hs hb (.of_instrAt hx) hlt
    rw [shift_of_le this, shift_of_le (by omega)]
  · have hxs : 0 < x.opsize := hs x (instrAt_mem hx)
    rw [shift_of_lt (by omega), shift_of_lt (by omega)]
    omega

end Drop

end Camel.FastVM
