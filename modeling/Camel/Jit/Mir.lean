import Camel.Jit.SlotAlloc

/-! # Machine IR

    One instruction of the machine IR (`fastvm/jit/mir/mir.h`) and what it means. The
    operations fall into forms: what an operation reads, what it writes and the value
    it computes. The values are words of a slot; a 32-bit value is the low half of a
    word whose upper half is clear, and a floating-point value is its bit pattern.
-/

namespace Camel.Jit

/-! ## Instructions -/

abbrev Word := BitVec 64

abbrev VRegId := Nat

def kInvalidVReg : VRegId := 0xFFFFFFFF

inductive MirOp
  | movRegReg | movRegImm32 | movRegImm64 | pushRdi | popRdi | pushRsi | popRsi | pushRbx | popRbx
  | subRsp8 | addRsp8 | callRax | callRel32 | jzRel32 | jmpRel32 | jleRel32 | jlRel32 | jgRel32
  | jgeRel32 | jeRel32 | jneRel32 | vCmpRegImm | jmpRel8 | jleRel8 | ret | jmpRax | vLoadFromFrame
  | vStoreToFrame | vLoadFromMemAt | vLoadImm32 | vLoadImm64 | vCopy | vTest | vCmove | vCmovnz
  | vMovFromRax | vMovToRax | vRet | vAdd | vSub | vMul | vIdiv | vCmpSetL | vCmpSetLE | vCmpSetG
  | vCmpSetGE | vCmpSetE | vCmpSetNE | vAddImm | vSubImm | vCmpSetLImm | vCmpSetLEImm
  | vCmpSetGImm | vCmpSetGEImm | vCmpSetEImm | vCmpSetNEImm | vXmmLoadFromFrame | vXmmStoreToFrame
  | vXmmLoadFromMemAt | vXmmAdd | vXmmSub | vXmmMul | vXmmDiv | vXmmCmpSetB | vXmmCmpSetBE
  | vXmmCmpSetE | vXmmCmpSetA | vXmmCmpSetAE | vXmmCmpSetNZ | vAdd32 | vSub32 | vMul32 | vIdiv32
  | vCmpSetL32 | vCmpSetLE32 | vCmpSetG32 | vCmpSetGE32 | vCmpSetE32 | vCmpSetNE32
  | vXmm32LoadFromFrame | vXmm32StoreToFrame | vXmm32LoadFromMemAt | vXmm32Add | vXmm32Sub
  | vXmm32Mul | vXmm32Div | vXmm32CmpSetB | vXmm32CmpSetBE | vXmm32CmpSetE | vXmm32CmpSetA
  | vXmm32CmpSetAE | vXmm32CmpSetNZ | debugTrace | nativeJitFuncCall | pushFrameSlot | pushImm64
  | popFrameSlot | movRsiR13 | callHelper | exitToDriver | safepointPoll | nop
  deriving DecidableEq

inductive JitFaultKind
  | divisionByZero | maxRecursionDepthExceeded | nativeStackExhausted | pendingException
  deriving DecidableEq

/-- An argument of a native self call: in a register, a constant, or a slot of the caller. -/
structure NativeJitCallArg where
  dstDisp : Int
  vreg : VRegId
  srcDisp : Int
  isImm : Bool
  imm : Word

structure NativeJitCallParams where
  args : List NativeJitCallArg
  resultDisp : Int
  resultVReg : VRegId
  pc : Nat

/-- `params` is what `imm64` points to in a native call. -/
structure Mir where
  op : MirOp
  r0 : VRegId := 0
  r1 : VRegId := 0
  disp : Int := 0
  imm32 : Nat := 0
  imm64 : Nat := 0
  params : Option NativeJitCallParams := none
  pc : Option Nat := none

abbrev MirBuffer := List Mir

variable (m : Mir)

/-- The third operand of the three-operand forms is in `imm32`. -/
def Mir.immV : VRegId := m.imm32

def Mir.simm : Word := (BitVec.ofNat 32 m.imm32).signExtend 64

/-- A division's own fields: whether its divisor is checked, and the pc of its fault. -/
def Mir.checked : Bool := m.imm64 % 2 == 1

def Mir.divisionPc : Nat := m.imm64 / 2 % 2 ^ 32

/-! ## Forms -/

inductive Width
  | w32 | w64
  deriving DecidableEq

inductive Arith
  | add | sub | mul
  deriving DecidableEq

inductive Cond
  | l | le | g | ge | e | ne
  deriving DecidableEq

inductive FloatArith
  | add | sub | mul | div
  deriving DecidableEq

inductive FloatCmp
  | lt | le | eq | gt | ge | ne
  deriving DecidableEq

/-- `r0 := r1 op immV`. -/
inductive Binary
  | int (w : Width) (op : Arith)
  | div (w : Width)
  | cmp (w : Width) (c : Cond)
  | float (w : Width) (op : FloatArith)
  | floatCmp (w : Width) (c : FloatCmp)
  deriving DecidableEq

/-- `r0 := r1 op imm32`, the immediate sign-extended. -/
inductive Immediate
  | add | sub | cmp (c : Cond)
  deriving DecidableEq

inductive Form
  /-- `r0` is read from the frame, or from an address. -/
  | loadFrame (w : Width)
  | loadMem (w : Width)
  | store
  /-- `r0` is a constant, of 32 bits with the upper half clear or of 64. -/
  | constant (w : Width)
  | copy
  | fromRax
  /-- The flags of `r0` against itself, or against `imm32`. -/
  | test
  | compare
  | returnValue
  /-- `r0 := r1` when the zero flag is as given. -/
  | select (zero : Bool)
  | immediate (f : Immediate)
  | binary (f : Binary)
  /-- A jump to the instruction that carries the pc in `imm32`. -/
  | jump (c : Option Cond)
  | nativeCall
  | helperCall
  | driverExit
  | poll
  | pushSlot
  | pushConstant
  | popSlot
  | skip
  /-- An operation on fixed registers. The back end emits none. -/
  | fixed
  deriving DecidableEq

def MirOp.form : MirOp → Form
  | .movRegReg | .movRegImm32 | .movRegImm64 | .pushRdi | .popRdi | .pushRsi | .popRsi | .pushRbx
  | .popRbx | .subRsp8 | .addRsp8 | .callRax | .callRel32 | .jmpRel8 | .jleRel8 | .ret | .jmpRax
  | .vMovToRax | .movRsiR13 => .fixed
  | .jzRel32 => .jump (some .e)
  | .jmpRel32 => .jump none
  | .jleRel32 => .jump (some .le)
  | .jlRel32 => .jump (some .l)
  | .jgRel32 => .jump (some .g)
  | .jgeRel32 => .jump (some .ge)
  | .jeRel32 => .jump (some .e)
  | .jneRel32 => .jump (some .ne)
  | .vCmpRegImm => .compare
  | .vLoadFromFrame => .loadFrame .w64
  | .vStoreToFrame => .store
  | .vLoadFromMemAt => .loadMem .w64
  | .vLoadImm32 => .constant .w32
  | .vLoadImm64 => .constant .w64
  | .vCopy => .copy
  | .vTest => .test
  | .vCmove => .select true
  | .vCmovnz => .select false
  | .vMovFromRax => .fromRax
  | .vRet => .returnValue
  | .vAdd => .binary (.int .w64 .add)
  | .vSub => .binary (.int .w64 .sub)
  | .vMul => .binary (.int .w64 .mul)
  | .vIdiv => .binary (.div .w64)
  | .vCmpSetL => .binary (.cmp .w64 .l)
  | .vCmpSetLE => .binary (.cmp .w64 .le)
  | .vCmpSetG => .binary (.cmp .w64 .g)
  | .vCmpSetGE => .binary (.cmp .w64 .ge)
  | .vCmpSetE => .binary (.cmp .w64 .e)
  | .vCmpSetNE => .binary (.cmp .w64 .ne)
  | .vAddImm => .immediate .add
  | .vSubImm => .immediate .sub
  | .vCmpSetLImm => .immediate (.cmp .l)
  | .vCmpSetLEImm => .immediate (.cmp .le)
  | .vCmpSetGImm => .immediate (.cmp .g)
  | .vCmpSetGEImm => .immediate (.cmp .ge)
  | .vCmpSetEImm => .immediate (.cmp .e)
  | .vCmpSetNEImm => .immediate (.cmp .ne)
  | .vXmmLoadFromFrame => .loadFrame .w64
  | .vXmmStoreToFrame => .store
  | .vXmmLoadFromMemAt => .loadMem .w64
  | .vXmmAdd => .binary (.float .w64 .add)
  | .vXmmSub => .binary (.float .w64 .sub)
  | .vXmmMul => .binary (.float .w64 .mul)
  | .vXmmDiv => .binary (.float .w64 .div)
  | .vXmmCmpSetB => .binary (.floatCmp .w64 .lt)
  | .vXmmCmpSetBE => .binary (.floatCmp .w64 .le)
  | .vXmmCmpSetE => .binary (.floatCmp .w64 .eq)
  | .vXmmCmpSetA => .binary (.floatCmp .w64 .gt)
  | .vXmmCmpSetAE => .binary (.floatCmp .w64 .ge)
  | .vXmmCmpSetNZ => .binary (.floatCmp .w64 .ne)
  | .vAdd32 => .binary (.int .w32 .add)
  | .vSub32 => .binary (.int .w32 .sub)
  | .vMul32 => .binary (.int .w32 .mul)
  | .vIdiv32 => .binary (.div .w32)
  | .vCmpSetL32 => .binary (.cmp .w32 .l)
  | .vCmpSetLE32 => .binary (.cmp .w32 .le)
  | .vCmpSetG32 => .binary (.cmp .w32 .g)
  | .vCmpSetGE32 => .binary (.cmp .w32 .ge)
  | .vCmpSetE32 => .binary (.cmp .w32 .e)
  | .vCmpSetNE32 => .binary (.cmp .w32 .ne)
  | .vXmm32LoadFromFrame => .loadFrame .w32
  | .vXmm32StoreToFrame => .store
  | .vXmm32LoadFromMemAt => .loadMem .w32
  | .vXmm32Add => .binary (.float .w32 .add)
  | .vXmm32Sub => .binary (.float .w32 .sub)
  | .vXmm32Mul => .binary (.float .w32 .mul)
  | .vXmm32Div => .binary (.float .w32 .div)
  | .vXmm32CmpSetB => .binary (.floatCmp .w32 .lt)
  | .vXmm32CmpSetBE => .binary (.floatCmp .w32 .le)
  | .vXmm32CmpSetE => .binary (.floatCmp .w32 .eq)
  | .vXmm32CmpSetA => .binary (.floatCmp .w32 .gt)
  | .vXmm32CmpSetAE => .binary (.floatCmp .w32 .ge)
  | .vXmm32CmpSetNZ => .binary (.floatCmp .w32 .ne)
  | .debugTrace | .nop => .skip
  | .nativeJitFuncCall => .nativeCall
  | .pushFrameSlot => .pushSlot
  | .pushImm64 => .pushConstant
  | .popFrameSlot => .popSlot
  | .callHelper => .helperCall
  | .exitToDriver => .driverExit
  | .safepointPoll => .poll

/-! ## Values -/

def Arith.eval {n : Nat} : Arith → BitVec n → BitVec n → BitVec n
  | .add, a, b => a + b
  | .sub, a, b => a - b
  | .mul, a, b => a * b

/-- The signed comparisons. -/
def Cond.holds {n : Nat} : Cond → BitVec n → BitVec n → Bool
  | .l, a, b => a.slt b
  | .le, a, b => a.sle b
  | .g, a, b => b.slt a
  | .ge, a, b => b.sle a
  | .e, a, b => a == b
  | .ne, a, b => a != b

/-- `utils::quotient`: the quotient truncated towards zero, and the smallest value divided
    by -1 wraps. -/
def quotient {n : Nat} (lhs rhs : BitVec n) : BitVec n :=
  if rhs = -1 then 0 - lhs else lhs.sdiv rhs

/-- The quotient as an integer, wrapped around. -/
theorem toInt_quotient {n : Nat} (lhs rhs : BitVec n) :
    (quotient lhs rhs).toInt = (lhs.toInt.tdiv rhs.toInt).bmod (2 ^ n) := by
  unfold quotient
  split
  · next h =>
    subst h
    have hone : (-1 : BitVec n) = BitVec.allOnes n := BitVec.neg_one_eq_allOnes
    rw [show (0 : BitVec n) - lhs = -lhs by simp, BitVec.toInt_neg, hone, BitVec.toInt_allOnes]
    obtain rfl | hpos := Nat.eq_zero_or_pos n
    · simp [BitVec.toInt_zero_length]
    · rw [if_pos hpos, Int.tdiv_neg, Int.tdiv_one]
  · exact BitVec.toInt_sdiv lhs rhs

def low (w : Word) : BitVec 32 := w.setWidth 32

def ofLow (x : BitVec 32) : Word := x.setWidth 64

def ofBool (b : Bool) : Word := if b then 1 else 0

@[simp] theorem low_ofLow (x : BitVec 32) : low (ofLow x) = x := by
  simp [low, ofLow]

/-- The value a move of the width leaves. -/
def Width.cut (w : Width) (x : Word) : Word :=
  match w with
  | .w64 => x
  | .w32 => ofLow (low x)

/-- What the floating-point unit computes on bit patterns. -/
structure Floats where
  arith : Width → FloatArith → Word → Word → Word
  compare : Width → FloatCmp → Word → Word → Bool

/-- What an operation comes to. An unchecked division by zero, or of the smallest value by
    -1, raises the hardware's divide error. -/
inductive Eval
  | value (w : Word)
  | fault (kind : JitFaultKind) (pc : Nat)
  | trap
  deriving DecidableEq

def divide {n : Nat} (checked : Bool) (pc : Nat) (lhs rhs : BitVec n)
    (result : BitVec n → Word) : Eval :=
  if checked then
    if rhs = 0 then .fault .divisionByZero pc else .value (result (quotient lhs rhs))
  else if rhs = 0 ∨ (lhs = BitVec.intMin n ∧ rhs = -1) then .trap
  else .value (result (quotient lhs rhs))

/-- A floating-point divisor that compares equal to zero: every bit but the sign is clear. -/
def floatZero (w : Width) (b : Word) : Bool :=
  match w with
  | .w64 => b + b == 0
  | .w32 => low b + low b == 0

def Mir.evalBinary (floats : Floats) (f : Binary) (a b : Word) : Eval :=
  match f with
  | .int .w64 op => .value (op.eval a b)
  | .int .w32 op => .value (ofLow (op.eval (low a) (low b)))
  | .div .w64 => divide m.checked m.divisionPc a b id
  | .div .w32 => divide m.checked m.divisionPc (low a) (low b) ofLow
  | .cmp .w64 c => .value (ofBool (c.holds a b))
  | .cmp .w32 c => .value (ofBool (c.holds (low a) (low b)))
  | .float w op =>
    if op = .div ∧ m.checked ∧ floatZero w b then .fault .divisionByZero m.divisionPc
    else .value (floats.arith w op a b)
  | .floatCmp w c => .value (ofBool (floats.compare w c a b))

def Mir.evalImmediate (f : Immediate) (a : Word) : Word :=
  match f with
  | .add => a + m.simm
  | .sub => a - m.simm
  | .cmp c => ofBool (c.holds a m.simm)

end Camel.Jit

/-! # Registers for Virtual Registers

    `linearScanVReg` gives every virtual register that is used a physical one for its
    whole live range, from its first definition to its last use in the buffer
    (`fastvm/jit/regalloc/regalloc.cpp`). The encoder has no spill code, so the
    allocation fails where a value would have to be spilled: when it is used before it
    is defined, when it lives across a call, and when more values live at once than
    there are registers.
-/

namespace Camel.Jit

open Lib (Scan)

/-! ## Definitions and Uses -/

def isDivision (op : MirOp) : Bool :=
  op == .vIdiv || op == .vIdiv32 || op == .vXmmDiv || op == .vXmm32Div

def isVRegOp : MirOp → Bool
  | .vLoadFromFrame | .vStoreToFrame | .vLoadFromMemAt | .vLoadImm32 | .vLoadImm64 | .vCopy | .vTest
  | .vCmove | .vCmovnz | .vMovFromRax | .vMovToRax | .vRet | .vAddImm | .vSubImm | .vCmpSetLImm
  | .vCmpSetLEImm | .vCmpSetGImm | .vCmpSetGEImm | .vCmpSetEImm | .vCmpSetNEImm | .vCmpRegImm
  | .vAdd | .vSub | .vMul | .vIdiv | .vCmpSetL | .vCmpSetLE | .vCmpSetG | .vCmpSetGE | .vCmpSetE
  | .vCmpSetNE | .vXmmLoadFromFrame | .vXmmStoreToFrame | .vXmmLoadFromMemAt | .vXmmAdd | .vXmmSub
  | .vXmmMul | .vXmmDiv | .vXmmCmpSetB | .vXmmCmpSetBE | .vXmmCmpSetE | .vXmmCmpSetA
  | .vXmmCmpSetAE | .vXmmCmpSetNZ | .vAdd32 | .vSub32 | .vMul32 | .vIdiv32 | .vCmpSetL32
  | .vCmpSetLE32 | .vCmpSetG32 | .vCmpSetGE32 | .vCmpSetE32 | .vCmpSetNE32 | .vXmm32LoadFromFrame
  | .vXmm32StoreToFrame | .vXmm32LoadFromMemAt | .vXmm32Add | .vXmm32Sub | .vXmm32Mul | .vXmm32Div
  | .vXmm32CmpSetB | .vXmm32CmpSetBE | .vXmm32CmpSetE | .vXmm32CmpSetA | .vXmm32CmpSetAE
  | .vXmm32CmpSetNZ => true
  | _ => false

/-- The virtual registers an instruction defines and those it uses, as the table of
    `collectVRegDefUse` has them. -/
def tableDefUse (m : Mir) : List VRegId × List VRegId :=
  if isDivision m.op then ([m.r0], [m.r1, m.immV, m.r0])
  else if m.op = .nativeJitFuncCall then
    match m.params with
    | some p => ([p.resultVReg], p.args.map NativeJitCallArg.vreg)
    | none => ([], [])
  else if ¬ isVRegOp m.op then ([], [])
  else
    match m.op with
    | .vLoadFromFrame | .vLoadFromMemAt | .vMovFromRax | .vLoadImm32 | .vLoadImm64
    | .vXmmLoadFromFrame | .vXmmLoadFromMemAt | .vXmm32LoadFromFrame | .vXmm32LoadFromMemAt =>
      ([m.r0], [])
    | .vStoreToFrame | .vMovToRax | .vXmmStoreToFrame | .vXmm32StoreToFrame => ([], [m.r0])
    | .vCopy | .vAddImm | .vSubImm | .vCmpSetLImm | .vCmpSetLEImm | .vCmpSetGImm | .vCmpSetGEImm
    | .vCmpSetEImm | .vCmpSetNEImm => ([m.r0], [m.r1])
    | .vTest | .vRet | .vCmpRegImm => ([], [m.r0])
    | .vCmove | .vCmovnz => ([m.r0], [m.r0, m.r1])
    | .vAdd | .vSub | .vMul | .vIdiv | .vCmpSetL | .vCmpSetLE | .vCmpSetG | .vCmpSetGE | .vCmpSetE
    | .vCmpSetNE | .vXmmAdd | .vXmmSub | .vXmmMul | .vXmmDiv | .vXmmCmpSetB | .vXmmCmpSetBE
    | .vXmmCmpSetE | .vXmmCmpSetA | .vXmmCmpSetAE | .vXmmCmpSetNZ | .vAdd32 | .vSub32 | .vMul32
    | .vIdiv32 | .vCmpSetL32 | .vCmpSetLE32 | .vCmpSetG32 | .vCmpSetGE32 | .vCmpSetE32
    | .vCmpSetNE32 | .vXmm32Add | .vXmm32Sub | .vXmm32Mul | .vXmm32Div | .vXmm32CmpSetB
    | .vXmm32CmpSetBE | .vXmm32CmpSetE | .vXmm32CmpSetA | .vXmm32CmpSetAE | .vXmm32CmpSetNZ =>
      ([m.r0], [m.r1, m.immV])
    | _ => ([], [])

/-- `firstDef` and `lastUse`; `none` is the source's `-1`. -/
structure VRegDefUse where
  firstDef : List (Option Nat)
  lastUse : List (Option Nat)

namespace VRegDefUse

def ensureSize (d : VRegDefUse) (v : Nat) : VRegDefUse :=
  if d.firstDef.length < v + 1 then
    { firstDef := d.firstDef ++ List.replicate (v + 1 - d.firstDef.length) none
      lastUse := d.lastUse ++ List.replicate (v + 1 - d.lastUse.length) none }
  else d

def useVReg (i : Nat) (d : VRegDefUse) (v : Nat) : VRegDefUse :=
  if v ≠ kInvalidVReg then
    let d := d.ensureSize v
    { d with lastUse := d.lastUse.set v (some i) }
  else d

def defVReg (i : Nat) (d : VRegDefUse) (v : Nat) : VRegDefUse :=
  if v ≠ kInvalidVReg then
    let d := d.ensureSize v
    if d.firstDef.getD v none = none then { d with firstDef := d.firstDef.set v (some i) } else d
  else d

end VRegDefUse

def collectVRegDefUse (buf : MirBuffer) : VRegDefUse :=
  buf.zipIdx.foldl (fun d p =>
    let du := tableDefUse p.1
    du.2.foldl (VRegDefUse.useVReg p.2) (du.1.foldl (VRegDefUse.defVReg p.2) d)) ⟨[], []⟩

/-! ## The Allocation -/

/-- Every call clobbers the allocatable registers, and so does an exit to the driver. -/
def clobbers (op : MirOp) : Bool :=
  op == .callRax || op == .callRel32 || op == .nativeJitFuncCall || op == .callHelper ||
    op == .exitToDriver || op == .safepointPoll

def callIndices (buf : MirBuffer) : List Nat :=
  (buf.zipIdx.filter fun p => clobbers p.1.op).map Prod.snd

structure VLiveInterval where
  vreg : VRegId
  start : Nat
  stop : Nat

inductive VRegFailure
  | usedBeforeDefined (v lastUse : Nat)
  | acrossCall (v start stop call : Nat)
  | tooMany (count at_ : Nat)
  deriving DecidableEq

def VRegFailure.reason : VRegFailure → String
  | .usedBeforeDefined v lastUse => s!"v{v} is used at MIR instruction {lastUse} before it is defined"
  | .acrossCall v start stop call =>
    s!"v{v} (MIR instructions {start} to {stop}) is live across the call at {call}"
  | .tooMany count at_ => s!"more than {count} values are live at MIR instruction {at_}"

/-- The interval of a virtual register that is used. -/
def vregInterval (d : VRegDefUse) (calls : List Nat) (v : Nat) :
    Except VRegFailure (Option VLiveInterval) :=
  match d.lastUse.getD v none with
  | none => .ok none
  | some stop =>
    match d.firstDef.getD v none with
    | none => .error (.usedBeforeDefined v stop)
    | some start =>
      if stop < start then .error (.usedBeforeDefined v stop)
      else
        -- the first call behind the definition
        match calls.find? fun call => start < call with
        | some call =>
          if call < stop then .error (.acrossCall v start stop call)
          else .ok (some ⟨v, start, stop⟩)
        | none => .ok (some ⟨v, start, stop⟩)

def kReservedRegScratch : Nat := 7

/-- rbx is reserved, and r11 is the encoder's scratch register. -/
def freeVRegs : List Bool :=
  ((List.replicate kNumAllocatableRegs true).set kReservedRegRbx false).set kReservedRegScratch false

structure VAllocState where
  scan : Scan VLiveInterval
  vregToPreg : List (Option Nat)

def vallocStep (s : VAllocState) (cur : VLiveInterval) : Except VRegFailure VAllocState :=
  let scan := s.scan.expire VLiveInterval.stop cur.start
  match scan.firstFree with
  | none => .error (.tooMany scan.active.length cur.start)
  | some r => .ok ⟨scan.take cur r, s.vregToPreg.set cur.vreg (some r)⟩

def vallocLoop : VAllocState → List VLiveInterval → Except VRegFailure VAllocState
  | s, [] => .ok s
  | s, cur :: rest =>
    match vallocStep s cur with
    | .error f => .error f
    | .ok s => vallocLoop s rest

def vregIntervals (d : VRegDefUse) (calls : List Nat) :
    List Nat → Except VRegFailure (List VLiveInterval)
  | [] => .ok []
  | v :: rest =>
    match vregInterval d calls v with
    | .error f => .error f
    | .ok i =>
      match vregIntervals d calls rest with
      | .error f => .error f
      | .ok is => .ok (i.toList ++ is)

/-- `vregToPreg`; a virtual register that is never used has none. -/
def linearScanVReg (buf : MirBuffer) : Except VRegFailure (List (Option Nat)) :=
  let d := collectVRegDefUse buf
  match vregIntervals d (callIndices buf) (List.range d.firstDef.length) with
  | .error f => .error f
  | .ok intervals =>
    match vallocLoop ⟨⟨[], freeVRegs⟩, List.replicate d.firstDef.length none⟩
        (intervals.mergeSort fun a b => a.start ≤ b.start) with
    | .error f => .error f
    | .ok s => .ok s.vregToPreg

def pregForVReg (vregToPreg : List (Option Nat)) (v : VRegId) : Option Nat := vregToPreg.getD v none

end Camel.Jit
