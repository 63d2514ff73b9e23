import Camel.Jit.Mir

/-! # The x64 Instructions of the Encoder

    The instructions `Encoder` emits for integer operations
    (`fastvm/jit/backend/x64/x64_encoder.h`) and what the machine does with them.
    Registers go by their MIR ids. Jumps inside one lowering are forward and count
    instructions; a fault site's jump goes to its stub.
-/

namespace Camel.Jit.X64

/-! ## The Machine -/

abbrev Reg := Nat

def kRegRax : Reg := 0
def kRegRdx : Reg := 2
def kRegRbx : Reg := 3
def kRegR11 : Reg := 7

/-- `Encoder::Cond`. -/
inductive Cc
  | e | ne | l | ge | le | g
  deriving DecidableEq

structure Flags where
  zf : Bool
  sf : Bool
  of : Bool

/-- Flags that an instruction leaves undefined, or that no lowering reads, are `none`. -/
structure State where
  regs : Reg → Word
  flags : Option Flags
  stack : List Word

def Cc.holds (f : Flags) : Cc → Bool
  | .e => f.zf
  | .ne => !f.zf
  | .l => f.sf != f.of
  | .ge => f.sf == f.of
  | .le => f.zf || f.sf != f.of
  | .g => !f.zf && f.sf == f.of

inductive Instr
  | mov (w : Width) (dst src : Reg)
  | movImm (w : Width) (dst : Reg) (imm : Word)
  | alu (w : Width) (op : Arith) (dst src : Reg)
  | aluImm (op : Arith) (dst : Reg) (imm : Word)
  | neg (w : Width) (r : Reg)
  | cmp (w : Width) (left right : Reg)
  | cmpImm (w : Width) (r : Reg) (imm : Word)
  | test (w : Width) (r : Reg)
  | setcc (cc : Cc) (r : Reg)
  | movzx8 (r : Reg)
  | cmov (zero : Bool) (dst src : Reg)
  | push (r : Reg)
  | pop (r : Reg)
  /-- `cqo` or `cdq`: rdx is filled with the sign of rax. -/
  | signExtend (w : Width)
  | idiv (w : Width) (r : Reg)
  | jcc (cc : Cc) (count : Nat)
  | jmp (count : Nat)
  | jccFault (cc : Cc) (kind : JitFaultKind) (pc : Nat)
  deriving DecidableEq

/-! ## One Instruction -/

variable {n : Nat} (s : State) (f : Option Flags)

namespace State

def set (r : Reg) (w : Word) : State := { s with regs := Function.update s.regs r w }

def withFlags (f : Option Flags) : State := { s with flags := f }

@[simp] theorem regs_set (r q : Reg) (w : Word) :
    (s.set r w).regs q = if q = r then w else s.regs q := Function.update_apply ..

@[simp] theorem flags_set (r : Reg) (w : Word) : (s.set r w).flags = s.flags := rfl

@[simp] theorem stack_set (r : Reg) (w : Word) : (s.set r w).stack = s.stack := rfl

@[simp] theorem regs_withFlags : (s.withFlags f).regs = s.regs := rfl

@[simp] theorem flags_withFlags : (s.withFlags f).flags = f := rfl

@[simp] theorem stack_withFlags :
    (s.withFlags f).stack = s.stack := rfl

end State

def flagsOfSub (a b : BitVec n) : Flags := ⟨a - b == 0, (a - b).msb, a.ssubOverflow b⟩

/-- The flags of `a and a`. -/
def flagsOfTest (a : BitVec n) : Flags := ⟨a == 0, a.msb, false⟩

/-- The quotient and the remainder of the signed `hi:lo` by the divisor, unless the divisor is
    zero or the quotient does not fit. -/
def divideSigned (hi lo divisor : BitVec n) : Option (BitVec n × BitVec n) :=
  let dividend := hi.toInt * 2 ^ n + lo.toNat
  let q := dividend.tdiv divisor.toInt
  if divisor = 0 ∨ q < -2 ^ (n - 1) ∨ 2 ^ (n - 1) ≤ q then none
  else some (BitVec.ofInt n q, BitVec.ofInt n (dividend.tmod divisor.toInt))

def signMask (a : BitVec n) : BitVec n := if a.msb then BitVec.allOnes n else 0

inductive Outcome
  | done (s : State)
  | fault (kind : JitFaultKind) (pc : Nat) (s : State)
  /-- The divide error of the hardware. -/
  | trap
  | stuck

/-- What one instruction leads to: the state after it and how many instructions are skipped. -/
inductive Effect
  | next (s : State) (count : Nat)
  | fault (kind : JitFaultKind) (pc : Nat)
  | trap
  | stuck

def step : Instr → Effect
  | .mov .w64 dst src => .next (s.set dst (s.regs src)) 0
  | .mov .w32 dst src => .next (s.set dst (ofLow (low (s.regs src)))) 0
  | .movImm .w64 dst imm => .next (s.set dst imm) 0
  | .movImm .w32 dst imm => .next (s.set dst (ofLow (low imm))) 0
  | .alu .w64 op dst src => .next ((s.set dst (op.eval (s.regs dst) (s.regs src))).withFlags none) 0
  | .alu .w32 op dst src =>
    .next ((s.set dst (ofLow (op.eval (low (s.regs dst)) (low (s.regs src))))).withFlags none) 0
  | .aluImm op dst imm => .next ((s.set dst (op.eval (s.regs dst) imm)).withFlags none) 0
  | .neg .w64 r => .next ((s.set r (-s.regs r)).withFlags none) 0
  | .neg .w32 r => .next ((s.set r (ofLow (-low (s.regs r)))).withFlags none) 0
  | .cmp .w64 a b => .next (s.withFlags (some (flagsOfSub (s.regs a) (s.regs b)))) 0
  | .cmp .w32 a b => .next (s.withFlags (some (flagsOfSub (low (s.regs a)) (low (s.regs b))))) 0
  | .cmpImm .w64 r imm => .next (s.withFlags (some (flagsOfSub (s.regs r) imm))) 0
  | .cmpImm .w32 r imm => .next (s.withFlags (some (flagsOfSub (low (s.regs r)) (low imm)))) 0
  | .test .w64 r => .next (s.withFlags (some (flagsOfTest (s.regs r)))) 0
  | .test .w32 r => .next (s.withFlags (some (flagsOfTest (low (s.regs r))))) 0
  | .setcc cc r =>
    match s.flags with
    | none => .stuck
    | some f =>
      -- the rest of the register is left as it is
      .next (s.set r ((s.regs r &&& ~~~0xFF) ||| ofBool (cc.holds f))) 0
  | .movzx8 r => .next (s.set r (s.regs r &&& 0xFF)) 0
  | .cmov zero dst src =>
    match s.flags with
    | none => .stuck
    | some f => .next (s.set dst (if f.zf = zero then s.regs src else s.regs dst)) 0
  | .push r => .next { s with stack := s.regs r :: s.stack } 0
  | .pop r =>
    match s.stack with
    | [] => .stuck
    | w :: rest => .next ({ s with stack := rest }.set r w) 0
  | .signExtend .w64 => .next (s.set kRegRdx (signMask (s.regs kRegRax))) 0
  | .signExtend .w32 => .next (s.set kRegRdx (ofLow (signMask (low (s.regs kRegRax))))) 0
  | .idiv .w64 r =>
    match divideSigned (s.regs kRegRdx) (s.regs kRegRax) (s.regs r) with
    | none => .trap
    | some (q, rem) => .next (((s.set kRegRax q).set kRegRdx rem).withFlags none) 0
  | .idiv .w32 r =>
    match divideSigned (low (s.regs kRegRdx)) (low (s.regs kRegRax)) (low (s.regs r)) with
    | none => .trap
    | some (q, rem) =>
      .next (((s.set kRegRax (ofLow q)).set kRegRdx (ofLow rem)).withFlags none) 0
  | .jcc cc count =>
    match s.flags with
    | none => .stuck
    | some f => .next s (if cc.holds f then count else 0)
  | .jmp count => .next s count
  | .jccFault cc kind pc =>
    match s.flags with
    | none => .stuck
    | some f => if cc.holds f then .fault kind pc else .next s 0

/-- Runs a lowering to its end; so many instructions are jumped over first. -/
def exec : Nat → List Instr → State → Outcome
  | _, [], s => .done s
  | count + 1, _ :: rest, s => exec count rest s
  | 0, i :: rest, s =>
    match step s i with
    | .next s count => exec count rest s
    | .fault kind pc => .fault kind pc s
    | .trap => .trap
    | .stuck => .stuck

/-! ## The Flags of a Comparison -/

/-- The condition code of a signed comparison. -/
def ccOf : Cond → Cc
  | .l => .l
  | .le => .le
  | .g => .g
  | .ge => .ge
  | .e => .e
  | .ne => .ne

theorem slt_of_flags (a b : BitVec n) :
    ((a - b).msb != a.ssubOverflow b) = a.slt b := by
  rw [BitVec.slt_eq_decide]
  by_cases ho : a.ssubOverflow b = true
  · -- the signs of the operands differ, and the difference has the wrong one
    rw [ho, Bool.bne_true, BitVec.msb_eq_toInt, Bool.not_eq_eq_eq_not]
    rw [BitVec.ssubOverflow_eq] at ho
    simp only [BitVec.msb_eq_toInt, Bool.or_eq_true, Bool.and_eq_true, Bool.not_eq_true',
      decide_eq_true_eq, decide_eq_false_iff_not] at ho
    rw [← decide_not, decide_eq_decide]
    omega
  · have hsub := BitVec.toInt_sub_of_not_ssubOverflow ho
    rw [Bool.not_eq_true] at ho
    rw [ho, Bool.bne_false, BitVec.msb_eq_toInt, hsub, decide_eq_decide]
    omega

theorem zero_of_sub (a b : BitVec n) : (a - b == 0) = (a == b) := by
  rw [Bool.eq_iff_iff, beq_iff_eq, beq_iff_eq]
  constructor
  · intro h
    have hadd := congrArg (· + b) h
    simpa using hadd
  · rintro rfl
    simp

/-- A condition code read behind a comparison. -/
theorem holds_ccOf (c : Cond) (a b : BitVec n) :
    (ccOf c).holds (flagsOfSub a b) = c.holds a b := by
  have hge : b.sle a = !a.slt b := by
    rw [BitVec.slt_eq_decide, BitVec.sle_eq_decide, ← decide_not, decide_eq_decide]
    omega
  have hle : a.sle b = (a == b || a.slt b) := by
    rw [Bool.eq_iff_iff, Bool.or_eq_true, beq_iff_eq, BitVec.sle_iff_toInt_le,
      BitVec.slt_iff_toInt_lt, ← BitVec.toInt_inj]
    omega
  have hg : b.slt a = !a.sle b := by
    rw [BitVec.slt_eq_decide, BitVec.sle_eq_decide, ← decide_not, decide_eq_decide]
    omega
  cases c <;> simp only [ccOf, Cc.holds, Cond.holds, flagsOfSub, zero_of_sub]
  · exact slt_of_flags a b
  · rw [slt_of_flags, hle]
  · rw [hg, hle, Bool.not_or, ← slt_of_flags a b, bne, Bool.not_not]
  · rw [hge, ← slt_of_flags a b, bne, Bool.not_not]
  · rfl

end Camel.Jit.X64

/-! # Lowering Integer Operations

    `encodeMirBuffer` (`fastvm/jit/mir/mir_encode.cpp`) lowers one instruction of the
    machine IR to a sequence of x64 instructions. The destination may be the register
    of either operand and both operands may be one register; r11 is never allocated
    and is the scratch register. An operand without a register belongs to a value
    that is never read, and its instruction is left out.
-/

namespace Camel.Jit.X64

/-! ## The Encoder -/

def emitMovRegReg (dst src : Reg) : List Instr := if dst = src then [] else [.mov .w64 dst src]

/-- A move of a width: only the one of 64 bits is left out when it moves nothing. -/
def emitMov (w : Width) (dst src : Reg) : List Instr :=
  match w with
  | .w64 => emitMovRegReg dst src
  | .w32 => [.mov .w32 dst src]

def emitCommutative (w : Width) (op : Arith) (dr lr rr : Reg) : List Instr :=
  if dr = lr then [.alu w op dr rr]
  else if dr = rr then [.alu w op dr lr]
  else emitMov w dr lr ++ [.alu w op dr rr]

def emitSub (w : Width) (dr lr rr : Reg) : List Instr :=
  if dr = lr then [.alu w .sub dr rr]
  else if dr ≠ rr then emitMov w dr lr ++ [.alu w .sub dr rr]
  else [.neg w dr, .alu w .add dr lr]

def emitSetcc (dr : Reg) (cc : Cc) : List Instr := [.setcc cc dr, .movzx8 dr]

def emitCmpSet (w : Width) (c : Cond) (dr lr rr : Reg) : List Instr :=
  .cmp w lr rr :: emitSetcc dr (ccOf c)

/-- The part of a division around `idiv`: it takes the dividend in rdx:rax and leaves quotient
    and remainder there, so whatever else lives in the two is saved around it. -/
def emitIdivBody (w : Width) (dr lr : Reg) : List Instr :=
  (if dr ≠ kRegRax then [.push kRegRax] else []) ++
  (if dr ≠ kRegRdx then [.push kRegRdx] else []) ++
  (if lr ≠ kRegRax then emitMov w kRegRax lr else []) ++
  [.signExtend w, .idiv w kRegR11] ++
  (if dr ≠ kRegRax then emitMov w dr kRegRax else []) ++
  (if dr ≠ kRegRdx then [.pop kRegRdx] else []) ++
  (if dr ≠ kRegRax then [.pop kRegRax] else [])

/-- x / -1 is computed as -x. -/
def emitIdivNeg (w : Width) (dr lr : Reg) : List Instr :=
  (match w with
    | .w64 => emitMovRegReg dr lr
    | .w32 => if dr ≠ lr then [.mov .w32 dr lr] else []) ++ [.neg w dr]

def emitIdiv (w : Width) (dr lr rr : Reg) (checked : Bool) (pc : Nat) : List Instr :=
  let neg := emitIdivNeg w dr lr
  let body := emitIdivBody w dr lr
  -- the divisor is moved out of the way of rax and rdx first
  emitMov w kRegR11 rr ++
    if checked then
      [.test w kRegR11, .jccFault .e .divisionByZero pc, .cmpImm w kRegR11 (-1),
        .jcc .ne (neg.length + 1)] ++ neg ++ [.jmp body.length] ++ body
    else body

/-- One instruction; none if the operation is not one on integers. -/
def encodeMir (pregFor : VRegId → Option Reg) (m : Mir) : Option (List Instr) :=
  let one (f : Reg → List Instr) := (pregFor m.r0).elim [] f
  let two (f : Reg → Reg → List Instr) := one fun dr => (pregFor m.r1).elim [] (f dr)
  let three (f : Reg → Reg → Reg → List Instr) :=
    two fun dr lr => (pregFor m.immV).elim [] (f dr lr)
  let cmpSetImm (c : Cond) := two fun dr sr => .cmpImm .w64 sr m.simm :: emitSetcc dr (ccOf c)
  match m.op with
  | .vCopy => two emitMovRegReg
  | .vTest => one fun r => [.test .w64 r]
  | .vCmove => two fun dr sr => [.cmov true dr sr]
  | .vCmovnz => two fun dr sr => [.cmov false dr sr]
  | .vLoadImm32 => one fun r => [.movImm .w32 r (BitVec.ofNat 64 m.imm32)]
  | .vLoadImm64 => one fun r => [.movImm .w64 r (BitVec.ofNat 64 m.imm64)]
  | .vAdd => three (emitCommutative .w64 .add)
  | .vSub => three (emitSub .w64)
  | .vMul => three (emitCommutative .w64 .mul)
  | .vIdiv => three fun dr lr rr => emitIdiv .w64 dr lr rr m.checked m.divisionPc
  | .vCmpSetL => three (emitCmpSet .w64 .l)
  | .vCmpSetLE => three (emitCmpSet .w64 .le)
  | .vCmpSetG => three (emitCmpSet .w64 .g)
  | .vCmpSetGE => three (emitCmpSet .w64 .ge)
  | .vCmpSetE => three (emitCmpSet .w64 .e)
  | .vCmpSetNE => three (emitCmpSet .w64 .ne)
  | .vAddImm => two fun dr sr => emitMovRegReg dr sr ++ [.aluImm .add dr m.simm]
  | .vSubImm => two fun dr sr => emitMovRegReg dr sr ++ [.aluImm .sub dr m.simm]
  | .vCmpSetLImm => cmpSetImm .l
  | .vCmpSetLEImm => cmpSetImm .le
  | .vCmpSetGImm => cmpSetImm .g
  | .vCmpSetGEImm => cmpSetImm .ge
  | .vCmpSetEImm => cmpSetImm .e
  | .vCmpSetNEImm => cmpSetImm .ne
  | .vCmpRegImm => one fun r => [.cmpImm .w64 r m.simm]
  | .vAdd32 => three (emitCommutative .w32 .add)
  | .vSub32 => three (emitSub .w32)
  | .vMul32 => three (emitCommutative .w32 .mul)
  | .vIdiv32 => three fun dr lr rr => emitIdiv .w32 dr lr rr m.checked m.divisionPc
  | .vCmpSetL32 => three (emitCmpSet .w32 .l)
  | .vCmpSetLE32 => three (emitCmpSet .w32 .le)
  | .vCmpSetG32 => three (emitCmpSet .w32 .g)
  | .vCmpSetGE32 => three (emitCmpSet .w32 .ge)
  | .vCmpSetE32 => three (emitCmpSet .w32 .e)
  | .vCmpSetNE32 => three (emitCmpSet .w32 .ne)
  | _ => none

end Camel.Jit.X64
