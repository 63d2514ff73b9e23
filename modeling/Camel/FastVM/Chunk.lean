import Mathlib
import Camel.Lib.Silent

/-! # FastVM Bytecode Chunks

    A chunk is the bytecode of one graph. An instruction takes `opsize` units
    and a pc counts units, so a chunk is modelled as the list of its
    instructions and the address of an instruction is the sum of the sizes
    before it. The operand and extra units of an instruction are its fields
    `operands` and `extra`; nothing ever reads them as instructions.

    JUMP, LTST and LEND carry the address they go to in `fastop[0]`.
-/

namespace Camel.FastVM

/-! ## Instructions -/

/-- The number types of the inline operators. -/
inductive NumKind where
  | int32 | int64 | float32 | float64
  deriving DecidableEq

/-- The inline operators. -/
inductive ArithOp where
  | add | sub | mul | div | mod | lt | gt | eq | ne | le | ge
  deriving DecidableEq

inductive OpCode where
  | retn | cast | copy | accs | jump
  | brch | join | fill | call | func | tail | oper | schd
  | lbeg | ltst | lend
  | arith (kind : NumKind) (op : ArithOp)
  deriving DecidableEq

/-- The instructions that go to the address in their operands. -/
def hasJumpTarget (op : OpCode) : Bool :=
  op == .jump || op == .ltst || op == .lend

/-- One instruction: the header, its operand units and its extra word (a type,
    a callee or a loop, as the opcode says). -/
structure Bytecode where
  opcode : OpCode
  opsize : Nat := 1
  result : Int := 0
  fastop0 : Int := 0
  fastop1 : Int := 0
  operands : List Int := []
  extra : Nat := 0
  deriving DecidableEq

namespace Bytecode

def normCnt (bc : Bytecode) : Nat := bc.fastop0.toNat
def withCnt (bc : Bytecode) : Nat := bc.fastop1.toNat
def nargs (bc : Bytecode) : List Int := bc.operands.take bc.normCnt
def wargs (bc : Bytecode) : List Int := (bc.operands.drop bc.normCnt).take bc.withCnt

/-- `fastop[0]` read as an address. -/
def target (bc : Bytecode) : Nat := bc.fastop0.toNat

/-- How many dispatch JUMPs follow a BRCH. -/
def brchArmDispatchCount (bc : Bytecode) : Nat :=
  if bc.withCnt = 0 then 2 else bc.withCnt + 1

end Bytecode

abbrev Chunk := List Bytecode

/-! ## Addresses -/

/-- The units of a chunk. -/
def units (codes : Chunk) : Nat := (codes.map Bytecode.opsize).sum

@[simp] theorem units_nil : units [] = 0 := rfl

@[simp] theorem units_cons (bc : Bytecode) (codes : Chunk) :
    units (bc :: codes) = bc.opsize + units codes := by
  simp [units]

@[simp] theorem units_append (xs ys : Chunk) : units (xs ++ ys) = units xs + units ys := by
  simp [units]

/-- The instruction that starts at an address, if one does. -/
def instrAt : Chunk → Nat → Option Bytecode
  | [], _ => none
  | bc :: rest, pc =>
    if pc = 0 then some bc
    else if pc < bc.opsize then none
    else instrAt rest (pc - bc.opsize)

/-- Every instruction has its header, so no two start at one address. -/
def Sized (codes : Chunk) : Prop := ∀ bc ∈ codes, 0 < bc.opsize

theorem Sized.append {xs ys : Chunk} (h : Sized (xs ++ ys)) : Sized xs ∧ Sized ys :=
  ⟨fun bc hbc => h bc (List.mem_append_left _ hbc), fun bc hbc => h bc (List.mem_append_right _ hbc)⟩

theorem instrAt_cons (bc : Bytecode) (rest : Chunk) (pc : Nat) :
    instrAt (bc :: rest) pc = if pc = 0 then some bc
      else if pc < bc.opsize then none else instrAt rest (pc - bc.opsize) := rfl

theorem instrAt_zero_cons (bc : Bytecode) (rest : Chunk) : instrAt (bc :: rest) 0 = some bc :=
  if_pos rfl

variable {pc : Nat}

theorem instrAt_append_left {xs : Chunk} (hlt : pc < units xs) (ys : Chunk) :
    instrAt (xs ++ ys) pc = instrAt xs pc := by
  induction xs generalizing pc with
  | nil => simp at hlt
  | cons bc rest ih =>
    simp only [List.cons_append, instrAt_cons]
    split
    · rfl
    · split
      · rfl
      · apply ih
        simp only [units_cons] at hlt
        omega

theorem instrAt_append_right {xs : Chunk} (hxs : Sized xs) (pc : Nat) (ys : Chunk) :
    instrAt (xs ++ ys) (units xs + pc) = instrAt ys pc := by
  induction xs with
  | nil => simp
  | cons bc rest ih =>
    have hpos : 0 < bc.opsize := hxs bc (by simp)
    have hrest : Sized rest := fun b hb => hxs b (by simp [hb])
    simp only [List.cons_append, instrAt_cons, units_cons]
    rw [if_neg (by omega), if_neg (by omega), ← ih hrest]
    congr 1
    omega

variable {codes : Chunk} {bc : Bytecode}

/-- The instruction at an address splits the chunk there. -/
theorem exists_split_of_instrAt
    (h : instrAt codes pc = some bc) :
    ∃ pre post, codes = pre ++ bc :: post ∧ units pre = pc := by
  induction codes generalizing pc with
  | nil => cases h
  | cons b rest ih =>
    rw [instrAt_cons] at h
    split at h
    next hz =>
      cases h
      exact ⟨[], rest, rfl, hz.symm⟩
    next hz =>
      split at h
      next => cases h
      next hge =>
        obtain ⟨pre, post, rfl, hpre⟩ := ih h
        refine ⟨b :: pre, post, rfl, ?_⟩
        simp only [units_cons]
        omega

theorem instrAt_split {pre : Chunk} (bc : Bytecode) (post : Chunk) (hpre : Sized pre) :
    instrAt (pre ++ bc :: post) (units pre) = some bc := by
  have := instrAt_append_right hpre 0 (bc :: post)
  rwa [instrAt_zero_cons, add_zero] at this

theorem instrAt_mem (h : instrAt codes pc = some bc) :
    bc ∈ codes := by
  obtain ⟨pre, post, rfl, -⟩ := exists_split_of_instrAt h
  simp

theorem instrAt_end_le
    (h : instrAt codes pc = some bc) : pc + bc.opsize ≤ units codes := by
  obtain ⟨pre, post, rfl, rfl⟩ := exists_split_of_instrAt h
  simp only [units_append, units_cons]
  omega

theorem instrAt_lt (hs : Sized codes)
    (h : instrAt codes pc = some bc) : pc < units codes := by
  have := instrAt_end_le h
  have := hs bc (instrAt_mem h)
  omega

/-- Instructions do not overlap: none starts inside another. -/
theorem instrAt_inside (hs : Sized codes) {q : Nat}
    (h : instrAt codes pc = some bc) (hlo : pc < q) (hhi : q < pc + bc.opsize) :
    instrAt codes q = none := by
  obtain ⟨pre, post, rfl, rfl⟩ := exists_split_of_instrAt h
  obtain ⟨k, rfl⟩ := Nat.exists_eq_add_of_lt hlo
  have hpre := hs.append.1
  rw [add_assoc, instrAt_append_right hpre]
  rw [instrAt_cons, if_neg (by omega), if_pos (by omega)]

/-- Where the interpreter may stand: at an instruction or behind the last one. -/
def Boundary (codes : Chunk) (pc : Nat) : Prop :=
  (∃ bc, instrAt codes pc = some bc) ∨ pc = units codes

theorem Boundary.of_instrAt
    (h : instrAt codes pc = some bc) : Boundary codes pc := .inl ⟨bc, h⟩

/-- What follows an instruction starts where the instruction ends. -/
theorem Boundary.next (hs : Sized codes)
    (h : instrAt codes pc = some bc) : Boundary codes (pc + bc.opsize) := by
  obtain ⟨pre, post, rfl, rfl⟩ := exists_split_of_instrAt h
  cases post with
  | nil =>
    right
    simp
  | cons b post =>
    left
    refine ⟨b, ?_⟩
    have hsplit : pre ++ bc :: b :: post = (pre ++ [bc]) ++ b :: post := by simp
    have hsized : Sized (pre ++ [bc]) := by
      rw [hsplit] at hs
      exact hs.append.1
    have := instrAt_split b post hsized
    rw [hsplit]
    simpa using this

/-- Between two boundaries in order there is room for the first instruction. -/
theorem Boundary.end_le (hs : Sized codes) {q : Nat}
    (h : instrAt codes pc = some bc) (hq : Boundary codes q) (hlt : pc < q) :
    pc + bc.opsize ≤ q := by
  by_contra hno
  have hnone := instrAt_inside hs h hlt (by omega)
  have hend := instrAt_end_le h
  rcases hq with ⟨b, hb⟩ | rfl
  · simp [hb] at hnone
  · omega

/-! ## Maps over a Chunk -/

variable {f : Bytecode → Bytecode}

theorem units_map (hf : ∀ bc, (f bc).opsize = bc.opsize)
    (codes : Chunk) : units (codes.map f) = units codes := by
  simp [units, Function.comp_def, hf]

theorem instrAt_map (hf : ∀ bc, (f bc).opsize = bc.opsize)
    (codes : Chunk) (pc : Nat) : instrAt (codes.map f) pc = (instrAt codes pc).map f := by
  induction codes generalizing pc with
  | nil => rfl
  | cons bc rest ih =>
    simp only [List.map_cons, instrAt_cons, hf, ih]
    split
    · rfl
    · split <;> rfl

theorem Sized.map (hf : ∀ bc, (f bc).opsize = bc.opsize)
    (hs : Sized codes) : Sized (codes.map f) := by
  intro bc hbc
  obtain ⟨b, hb, rfl⟩ := List.mem_map.mp hbc
  rw [hf]
  exact hs b hb

end Camel.FastVM

/-! # The Interpreter

    The interpreter runs one activation of a chunk from its first unit. What
    the control instructions do is written out; the other instructions, the
    three loop events and the comparison of a case value are operations of the
    surrounding system and come as parameters, which may fault.

    A JUMP is a silent move. Every other instruction shows itself, without the
    address it carries, together with the slots and the world it ran on.

    A TAIL replaces the activation and so ends it, except in the activation of
    the entry graph (`depth` 0: no call is open). There it runs as a call and
    the interpreter goes on behind it.
-/

namespace Camel.FastVM

open Lib

variable {V ω : Type}

/-! ## States and Operations -/

/-- The slots of the current frame and everything else an operation may touch. -/
structure State (V ω : Type) where
  slots : Int → V
  world : ω

def State.set (st : State V ω) (index : Int) (v : V) : State V ω :=
  { st with slots := fun i => if i = index then v else st.slots i }

/-- The operations the interpreter calls. `none` is a fault. -/
structure Ops (V ω : Type) where
  null : V
  asBool : V → Bool
  asInt : V → Int
  ofInt : Int → V
  /-- The type of a JOIN's result is `void`. -/
  isVoid : Nat → Bool
  /-- The value of a match equals the value of a case. -/
  equals : State V ω → V → V → Bool
  /-- An instruction other than the control ones. -/
  exec : Bytecode → State V ω → Option (State V ω)
  loopBegin : Nat → State V ω → Option (State V ω)
  /-- The test of a round: whether the loop stops. -/
  loopTest : Nat → State V ω → Option (Bool × State V ω)
  /-- The end of a round: whether another one follows. -/
  loopEnd : Nat → State V ω → Option (Bool × State V ω)

variable (ops : Ops V ω) (bc : Bytecode)

/-- An instruction as it is shown: an address it carries is left out. -/
def Bytecode.shown : Bytecode :=
  if hasJumpTarget bc.opcode then { bc with fastop0 := 0 } else bc

/-- How an activation ends. -/
inductive Exit (V ω : Type) where
  | returned (bc : Bytecode) (v : V) (st : State V ω)
  | replaced (bc : Bytecode) (st : State V ω)
  | fault (bc : Bytecode) (st : State V ω)
  | noInstruction

/-- Where an instruction goes on. -/
inductive Next where
  | fall
  | goto
  | arm (index : Nat)

def Next.pc (bc : Bytecode) (pc : Nat) : Next → Nat
  | .fall => pc + bc.opsize
  | .goto => bc.target
  | .arm index => pc + bc.opsize + index

/-! ## The Instructions -/

/-- The first case of a BRCH whose value equals the one of the match, or the
    number of the cases. -/
def selectBranchArm (st : State V ω) : Nat :=
  let cond := st.slots (bc.nargs.headD 0)
  bc.wargs.findIdx fun w => ops.equals st cond (st.slots w)

def execBrch (st : State V ω) : Nat :=
  if bc.withCnt = 0 then
    if ops.asBool (st.slots (bc.operands.headD 0)) then 0 else 1
  else selectBranchArm ops bc st

/-- `none` is the guard on the index of the arm. -/
def execJoin (st : State V ω) : Option (State V ω) :=
  let brIndex := ops.asInt (st.slots (bc.nargs.headD 0))
  if 0 ≤ brIndex ∧ brIndex.toNat < bc.withCnt then
    if bc.result = 0 then some st
    else if ops.isVoid bc.extra then some (st.set bc.result ops.null)
    else some (st.set bc.result (st.slots (bc.wargs.getD brIndex.toNat 0)))
  else none

/-- A step that faults or goes on. -/
def orFault (st : State V ω) (next : Option (Next × State V ω)) :
    Except (Exit V ω) (Next × State V ω) :=
  match next with
  | some r => .ok r
  | none => .error (.fault bc.shown st)

/-- What an instruction other than a JUMP does. -/
def perform (depth : Nat) (bc : Bytecode) (st : State V ω) :
    Except (Exit V ω) (Next × State V ω) :=
  match bc.opcode with
  | .retn =>
    .error (.returned bc (if bc.fastop0 = 0 then ops.null else st.slots bc.fastop0) st)
  | .brch =>
    let index := execBrch ops bc st
    .ok (.arm index, st.set bc.result (ops.ofInt index))
  | .join => orFault bc st ((execJoin ops bc st).map fun s => (.fall, s))
  | .lbeg => orFault bc st ((ops.loopBegin bc.extra st).map fun s => (.fall, s))
  | .ltst =>
    orFault bc st ((ops.loopTest bc.extra st).map fun r => (if r.1 then .goto else .fall, r.2))
  | .lend =>
    orFault bc st ((ops.loopEnd bc.extra st).map fun r => (if r.1 then .goto else .fall, r.2))
  | .tail =>
    if depth = 0 then orFault bc st ((ops.exec bc st).map fun s => (.fall, s))
    else .error (.replaced bc st)
  | _ => orFault bc st ((ops.exec bc st).map fun s => (.fall, s))

/-- One move of the interpreter. -/
def step (depth : Nat) (codes : Chunk) (s : Nat × State V ω) :
    Move (Nat × State V ω) (Bytecode × State V ω) (Exit V ω) :=
  match instrAt codes s.1 with
  | none => .halt .noInstruction
  | some bc =>
    if bc.opcode = .jump then .silent (bc.target, s.2)
    else
      match perform ops depth bc s.2 with
      | .error e => .halt e
      | .ok (next, st) => .emit (bc.shown, s.2) (next.pc bc s.1, st)

/-- Two chunks run alike: whatever the operations do and whatever the slots hold,
    they show the same instructions on the same states and end the same way. -/
def RunsAlike (depth : Nat) (codes codes' : Chunk) : Prop :=
  ∀ (V ω : Type) (ops : Ops V ω) (st : State V ω),
    SameBehaviour (step ops depth codes) (step ops depth codes') (0, st) (0, st)

theorem RunsAlike.refl (depth : Nat) (codes : Chunk) : RunsAlike depth codes codes :=
  fun _ _ _ _ => SameBehaviour.refl _ _

variable {depth : Nat}

theorem RunsAlike.trans {a b c : Chunk} (hab : RunsAlike depth a b)
    (hbc : RunsAlike depth b c) : RunsAlike depth a c :=
  fun V ω ops st => (hab V ω ops st).trans (hbc V ω ops st)

/-! ## Where Control Can Go -/

/-- The ways on from an instruction, whatever the operations do. -/
def CanGo (depth : Nat) (bc : Bytecode) : Next → Prop
  | .fall => bc.opcode ≠ .retn ∧ bc.opcode ≠ .jump ∧ bc.opcode ≠ .brch ∧
      (bc.opcode = .tail → depth = 0)
  | .goto => bc.opcode = .ltst ∨ bc.opcode = .lend
  | .arm index => bc.opcode = .brch ∧ index < bc.brchArmDispatchCount

theorem execBrch_lt (st : State V ω) :
    execBrch ops bc st < bc.brchArmDispatchCount := by
  simp only [execBrch, Bytecode.brchArmDispatchCount]
  split
  · split <;> decide
  · have hle : selectBranchArm ops bc st ≤ bc.wargs.length := List.findIdx_le_length
    have hlen : bc.wargs.length ≤ bc.withCnt := by
      simp only [Bytecode.wargs, List.length_take]
      exact Nat.min_le_left _ _
    omega

variable {bc : Bytecode} {st st' : State V ω} {next : Next}

theorem orFault_ok {x : Option (Next × State V ω)}
    (h : orFault bc st x = .ok (next, st')) : x = some (next, st') := by
  cases x with
  | none => simp [orFault] at h
  | some r => simpa [orFault] using h

/-- An operation that only falls through. -/
theorem orFault_fall {x : Option (State V ω)}
    (h : orFault bc st (x.map fun s => (Next.fall, s)) = .ok (next, st')) : next = .fall := by
  obtain ⟨s, -, hs⟩ := Option.map_eq_some_iff.mp (orFault_ok h)
  simp only [Prod.mk.injEq] at hs
  exact hs.1.symm

/-- A loop event falls through or goes to its target. -/
theorem orFault_loop {x : Option (Bool × State V ω)}
    (h : orFault bc st (x.map fun r => (if r.1 then Next.goto else Next.fall, r.2)) =
      .ok (next, st')) : next = .fall ∨ next = .goto := by
  obtain ⟨⟨b, s⟩, -, hs⟩ := Option.map_eq_some_iff.mp (orFault_ok h)
  cases b <;> simp only [Prod.mk.injEq] at hs <;> simp [← hs.1]

theorem perform_canGo {ops : Ops V ω}
    (hj : bc.opcode ≠ .jump) (h : perform ops depth bc st = .ok (next, st')) :
    CanGo depth bc next := by
  cases hop : bc.opcode with
  | jump => exact absurd hop hj
  | retn => simp [perform, hop] at h
  | brch =>
    simp only [perform, hop, Except.ok.injEq, Prod.mk.injEq] at h
    rw [← h.1]
    exact ⟨hop, execBrch_lt ops bc st⟩
  | tail =>
    simp only [perform, hop] at h
    split at h
    next hd =>
      rw [orFault_fall h]
      exact ⟨by simp [hop], by simp [hop], by simp [hop], fun _ => hd⟩
    next => cases h
  | ltst | lend =>
    simp only [perform, hop] at h
    rcases orFault_loop h with rfl | rfl
    · simp [CanGo, hop]
    · simp [CanGo, hop]
  | join | lbeg | cast | copy | accs | fill | call | func | oper | schd | arith _ _ =>
    simp only [perform, hop] at h
    rw [orFault_fall h]
    simp [CanGo, hop]

/-- An instruction and the same one with another address in it. -/
def Readdressed (bc bc' : Bytecode) : Prop :=
  bc' = bc ∨ (hasJumpTarget bc.opcode = true ∧ ∃ t, bc' = { bc with fastop0 := t })

variable {bc' : Bytecode}

theorem Readdressed.opcode (h : Readdressed bc bc') :
    bc'.opcode = bc.opcode := by
  rcases h with rfl | ⟨-, t, rfl⟩ <;> rfl

theorem Readdressed.shown (h : Readdressed bc bc') :
    bc'.shown = bc.shown := by
  rcases h with rfl | ⟨ht, t, rfl⟩
  · rfl
  · simp [Bytecode.shown, ht]

/-- The address an instruction carries does not change what it does. -/
theorem Readdressed.perform (h : Readdressed bc bc') (ops : Ops V ω)
    (depth : Nat) (st : State V ω) :
    bc.opcode ≠ .jump → perform ops depth bc' st = perform ops depth bc st := by
  intro hj
  rcases h with rfl | ⟨ht, t, rfl⟩
  · rfl
  · simp only [hasJumpTarget, Bool.or_eq_true, beq_iff_eq] at ht
    rcases ht with (hop | hop) | hop
    · exact absurd hop hj
    all_goals simp [FastVM.perform, hop, orFault, Bytecode.shown, hasJumpTarget]

/-! ## Matching Two Chunks -/

/-- `pc` leads to `q` by JUMPs alone, and no JUMP stands at `q`. -/
inductive Lands (codes : Chunk) : Nat → Nat → Prop where
  | here {pc : Nat} : (∀ bc, instrAt codes pc = some bc → bc.opcode ≠ .jump) → Lands codes pc pc
  | jump {pc q : Nat} {bc : Bytecode} : instrAt codes pc = some bc → bc.opcode = .jump →
      Lands codes bc.target q → Lands codes pc q

variable {codes : Chunk}

theorem Lands.settles {pc q : Nat} (h : Lands codes pc q) (ops : Ops V ω)
    (depth : Nat) (st : State V ω) : Settles (step ops depth codes) (pc, st) (q, st) := by
  induction h with
  | @here pc hno =>
    refine .here fun s' => ?_
    cases hat : instrAt codes pc with
    | none => simp [step, hat]
    | some bc =>
      simp only [step, hat, hno bc hat, if_false]
      split <;> simp
  | jump hat hj _ ih => exact .silent (by simp [step, hat, hj]) ih

/-- The same instruction stands at `a` in one chunk and at `b` in the other, up to
    its address, and every way on from it leads to related addresses. -/
def MatchAt (depth : Nat) (codes codes' : Chunk) (R : Nat → Nat → Prop) (a b : Nat) : Prop :=
  (instrAt codes a = none ∧ instrAt codes' b = none) ∨
  ∃ bc bc', instrAt codes a = some bc ∧ instrAt codes' b = some bc' ∧ bc.opcode ≠ .jump ∧
    Readdressed bc bc' ∧ ∀ next, CanGo depth bc next → R (next.pc bc a) (next.pc bc' b)

/-- Related addresses land on instructions that match. -/
def Matching (depth : Nat) (codes codes' : Chunk) (R : Nat → Nat → Prop) : Prop :=
  ∀ p q, R p q → ∃ a b, Lands codes p a ∧ Lands codes' q b ∧ MatchAt depth codes codes' R a b

variable {codes' : Chunk} {R : Nat → Nat → Prop}

/-- Two instructions that match make the same visible move. -/
theorem MatchAt.agree {a b : Nat}
    (h : MatchAt depth codes codes' R a b) (ops : Ops V ω) (st : State V ω) :
    Agree (fun s t => R s.1 t.1 ∧ s.2 = t.2) (step ops depth codes (a, st))
      (step ops depth codes' (b, st)) := by
  rcases h with ⟨ha, hb⟩ | ⟨bc, bc', ha, hb, hj, hre, hgo⟩
  · simp [step, ha, hb, Agree]
  · have hj' : bc'.opcode ≠ .jump := by rw [hre.opcode]; exact hj
    simp only [step, ha, hb, hj, hj', if_false, hre.perform ops depth st hj]
    cases hp : perform ops depth bc st with
    | error e => simp [Agree]
    | ok r => exact ⟨by rw [hre.shown], hgo _ (perform_canGo hj hp), rfl⟩

theorem Matching.bisimulation
    (h : Matching depth codes codes' R) (ops : Ops V ω) :
    Bisimulation (step ops depth codes) (step ops depth codes')
      (fun s t => R s.1 t.1 ∧ s.2 = t.2) := by
  rintro ⟨p, st⟩ ⟨q, st'⟩ ⟨hR, rfl : st = st'⟩
  obtain ⟨a, b, ha, hb, hmatch⟩ := h p q hR
  exact ⟨(a, st), (b, st), ha.settles ops depth st, hb.settles ops depth st, hmatch.agree ops st⟩

/-- Chunks with a matching that relates their first units run alike. -/
theorem Matching.runsAlike
    (h : Matching depth codes codes' R) (h0 : R 0 0) : RunsAlike depth codes codes' := by
  intro V ω ops st
  exact (h.bisimulation ops).sameBehaviour ⟨h0, rfl⟩

end Camel.FastVM
