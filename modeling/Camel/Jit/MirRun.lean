import Camel.Jit.Mir

/-! # Running a MIR Buffer

    A buffer of the machine IR runs over registers of some kind: the virtual registers
    themselves, or the physical ones the allocator gave them. An instruction is left out
    when one of its virtual registers has no register, as the encoder leaves it out.
    A run shows its frame to the helpers it calls and to the driver it leaves to; what
    they answer may depend on everything they have been shown.

    A register that nothing has written yet, or that a call has clobbered, holds `none`,
    and so do the flags where no comparison has set them; a run that reads one is stuck.
    The value a helper returns is in rax, and rax may be the register of any value, so it
    is known only until an instruction writes a register.
-/

open Function

namespace Camel.Jit

/-! ## The Surroundings -/

/-- The slots of a frame, by their displacements. -/
abbrev Frame := Int → Word

inductive Shown
  | helper (address pc : Nat) (frame : Frame)
  | exit (kind pc : Nat) (frame : Frame)
  | poll (flag : Nat)

abbrev History := List Shown

/-- What a helper comes back with: its value and what it left in the frame, or a fault that it
    has recorded. -/
inductive Reply
  | back (value : Word) (frame : Frame)
  | fault (kind : JitFaultKind) (pc : Nat)

structure Env where
  floats : Floats
  memory : History → Nat → Word
  helper : History → Reply
  /-- The frame the code is entered again with, if it is. -/
  driver : History → Option Frame
  safepoint : History → Bool
  /-- A native call refused at a depth. -/
  refuses : Nat → Option JitFaultKind
  /-- What the machine stack holds where a callee's frame is built. -/
  stackFrame : Nat → Frame

/-- The registers of a run: where each virtual register is, whether they outlive a call, and
    what they hold when the code is entered. -/
structure Machine (L : Type) where
  loc : VRegId → Option L
  keeps : Bool
  fresh : L → Option Word

structure MirState (L : Type) where
  index : Nat
  regs : L → Option Word
  flags : Option (Word × Word)
  rax : Option Word
  frame : Frame
  stack : List Word
  seen : History

inductive Result
  | value (w : Word) (seen : History)
  | fault (kind : JitFaultKind) (pc : Nat) (seen : History)
  /-- Left to the driver, and not entered again. -/
  | left (seen : History)
  | stuck
  | unfinished

inductive Next (L : Type)
  | goto (s : MirState L)
  | call (frame : Frame) (p : NativeJitCallParams)
  | done (r : Result)

/-! ## One Instruction -/

/-- The first instruction that carries a pc: the encoder jumps there. -/
def targetOf (buf : MirBuffer) (pc : Nat) : Option Nat := buf.findIdx? fun m => m.pc == some pc

/-- Where control may go behind an instruction. -/
def Succ (buf : MirBuffer) (i j : Nat) : Prop :=
  ∃ m, buf[i]? = some m ∧
    match m.op.form with
    | .jump none => targetOf buf m.imm32 = some j
    | .jump (some _) => targetOf buf m.imm32 = some j ∨ j = i + 1
    | .returnValue | .fixed => False
    | _ => j = i + 1

def JitExitKind.tail : Nat := 2

variable {L : Type}

variable (M : Machine L) (s : MirState L)

namespace MirState

def next : MirState L := { s with index := s.index + 1 }

def setFrame (disp : Int) (w : Word) : MirState L :=
  { s with frame := update s.frame disp w }

variable [DecidableEq L]

/-- Writes a register. -/
def set (l : L) (w : Word) : MirState L :=
  { s with regs := update s.regs l (some w), rax := none }

/-- What a call or an exit leaves: a frame, and no flags. -/
def afterCall (M : Machine L) (rax : Option Word) (frame : Frame)
    (seen : History) : MirState L :=
  { s with
    regs := if M.keeps then s.regs else fun _ => none
    flags := none
    rax := rax
    frame := frame
    seen := seen }

end MirState

/-- An instruction on no register has no meaning. -/
def Mir.lacksOperand (m : Mir) : Bool :=
  match m.op.form with
  | .loadFrame _ | .loadMem _ | .store | .constant _ | .fromRax | .test | .compare | .returnValue =>
    m.r0 == kInvalidVReg
  | .copy | .select _ | .immediate _ => m.r0 == kInvalidVReg || m.r1 == kInvalidVReg
  | .binary _ => m.r0 == kInvalidVReg || m.r1 == kInvalidVReg || m.immV == kInvalidVReg
  | _ => false

/-- An argument of a native call; a value without a register is read where it comes from. -/
def argValue (arg : NativeJitCallArg) : Option Word :=
  match if arg.vreg = kInvalidVReg then none else M.loc arg.vreg with
  | some l => s.regs l
  | none => some (if arg.isImm then arg.imm else s.frame arg.srcDisp)

/-- The callee's frame: the arguments land on its parameter slots. -/
def calleeFrame (M : Machine L) (s : MirState L) : List NativeJitCallArg → Frame → Option Frame
  | [], frame => some frame
  | arg :: args, frame =>
    match argValue M s arg with
    | none => none
    | some w => calleeFrame M s args (update frame arg.dstDisp w)

/-- Leaves to the driver. Framed code makes no native calls, and has nothing on the machine
    stack at an exit. -/
def exitStep [DecidableEq L] (env : Env) (depth kind pc : Nat) (s : MirState L) :
    Next L :=
  if depth ≠ 0 ∨ s.stack ≠ [] then .done .stuck
  else
    let seen := .exit kind pc s.frame :: s.seen
    match env.driver seen with
    | none => .done (.left seen)
    | some frame => .goto (s.next.afterCall M none frame seen)

def binaryStep [DecidableEq L] (env : Env) (m : Mir) (f : Binary)
    (s : MirState L) : Next L :=
  match M.loc m.r0, M.loc m.r1, M.loc m.immV with
  | some d, some l, some r =>
    match s.regs l, s.regs r with
    | some a, some b =>
      match m.evalBinary env.floats f a b with
      | .value w => .goto { s.next.set d w with flags := none }
      | .fault kind pc => .done (.fault kind pc s.seen)
      | .trap => .done .stuck
    | _, _ => .done .stuck
  | _, _, _ => .goto s.next

def stepMir [DecidableEq L] (env : Env) (buf : MirBuffer) (depth : Nat) (m : Mir)
    (s : MirState L) : Next L :=
  let write (w : Word) : Next L := (M.loc m.r0).elim (.goto s.next) fun d => .goto (s.next.set d w)
  let use (v : VRegId) (k : Word → Next L) : Next L :=
    (M.loc v).elim (.goto s.next) fun l => (s.regs l).elim (.done .stuck) k
  if m.lacksOperand then .done .stuck
  else match m.op.form with
  | .loadFrame w => write (w.cut (s.frame m.disp))
  | .loadMem w => write (w.cut (env.memory s.seen m.imm64))
  | .store => use m.r0 fun w => .goto (s.next.setFrame m.disp w)
  | .constant .w32 => write (BitVec.ofNat 32 m.imm32 |> ofLow)
  | .constant .w64 => write (BitVec.ofNat 64 m.imm64)
  | .copy => (M.loc m.r0).elim (.goto s.next) fun _ => use m.r1 write
  | .fromRax => (M.loc m.r0).elim (.goto s.next) fun _ => s.rax.elim (.done .stuck) write
  | .test => use m.r0 fun w => .goto { s.next with flags := some (w, 0) }
  | .compare => use m.r0 fun w => .goto { s.next with flags := some (w, m.simm) }
  | .returnValue => use m.r0 fun w => if s.stack = [] then .done (.value w s.seen) else .done .stuck
  | .select zero =>
    (M.loc m.r1).elim (.goto s.next) fun r =>
      use m.r0 fun old =>
        match s.regs r, s.flags with
        | some new, some (a, b) => write (if (a == b) = zero then new else old)
        | _, _ => .done .stuck
  | .immediate f =>
    (M.loc m.r0).elim (.goto s.next) fun d =>
      use m.r1 fun a => .goto { s.next.set d (m.evalImmediate f a) with flags := none }
  | .binary f => binaryStep M env m f s
  | .jump c =>
    match targetOf buf m.imm32, c, s.flags with
    | some t, none, _ => .goto { s with index := t }
    | some t, some c, some (a, b) => .goto (if c.holds a b then { s with index := t } else s.next)
    | _, _, _ => .done .stuck
  | .nativeCall =>
    match m.params with
    | none => .done .stuck
    | some p =>
      match env.refuses depth with
      | some kind => .done (.fault kind p.pc s.seen)
      | none => (calleeFrame M s p.args (env.stackFrame depth)).elim (.done .stuck) fun frame =>
        .call frame p
  | .helperCall =>
    let seen := .helper m.imm64 m.imm32 s.frame :: s.seen
    match env.helper seen with
    | .back w frame => .goto (s.next.afterCall M (some w) frame seen)
    | .fault kind pc => .done (.fault kind pc seen)
  | .driverExit => exitStep M env depth m.imm64 m.imm32 s
  | .poll =>
    let s := { s with seen := .poll m.imm64 :: s.seen, flags := none }
    if env.safepoint s.seen then exitStep M env depth JitExitKind.tail m.imm32 s else .goto s.next
  | .pushSlot => .goto { s.next with stack := s.frame m.disp :: s.stack }
  | .pushConstant => .goto { s.next with stack := BitVec.ofNat 64 m.imm64 :: s.stack }
  | .popSlot =>
    match s.stack with
    | [] => .done .stuck
    | w :: rest => .goto { s.next.setFrame m.disp w with stack := rest }
  | .skip => .goto s.next
  | .fixed => .done .stuck

/-! ## Runs -/

/-- The code is entered with a frame. -/
def entry (frame : Frame) (seen : History) : MirState L :=
  ⟨0, M.fresh, none, none, frame, [], seen⟩

/-- A native call has returned: its value goes to a register or to a slot. -/
def returned [DecidableEq L] (p : NativeJitCallParams) (w : Word)
    (seen : History) : MirState L :=
  let s := s.next.afterCall M none s.frame seen
  if p.resultVReg = kInvalidVReg then s.setFrame p.resultDisp w
  else (M.loc p.resultVReg).elim s fun l => s.set l w

def run [DecidableEq L] (M : Machine L) (env : Env) (buf : MirBuffer) :
    Nat → Nat → MirState L → Result
  | 0, _, _ => .unfinished
  | fuel + 1, depth, s =>
    match buf[s.index]? with
    | none => .stuck
    | some m =>
      match stepMir M env buf depth m s with
      | .goto s' => run M env buf fuel depth s'
      | .done r => r
      | .call frame p =>
        match run M env buf fuel (depth + 1) (entry M frame s.seen) with
        | .value w seen => run M env buf fuel depth (returned M s p w seen)
        | r => r

/-- The virtual registers themselves: each is where it is, and outlives every call. -/
def virtual (fresh : VRegId → Option Word) : Machine VRegId where
  loc v := some v
  keeps := true
  fresh := fresh

@[simp] theorem virtual_loc (fresh : VRegId → Option Word) (v : VRegId) :
    (virtual fresh).loc v = some v := rfl

end Camel.Jit

/-! # The MIR Passes

    The passes over a MIR buffer before its registers are given out
    (`fastvm/jit/mir/mir_optimize.cpp`): the peephole forwards a value that was just
    stored to the loads of its slot and removes a store another one overwrites, and
    `eliminateDeadFrameStores` removes the stores to slots nothing reads any longer.
-/

namespace Camel.Jit

/-! ## Kinds of Operations -/

def isJumpOp : MirOp → Bool
  | .jzRel32 | .jmpRel32 | .jleRel32 | .jlRel32 | .jgRel32 | .jgeRel32 | .jeRel32 | .jneRel32
  | .jmpRel8 | .jleRel8 => true
  | _ => false

def isBarrierOp : MirOp → Bool
  | .ret | .jmpRax | .nativeJitFuncCall | .callRax | .callRel32 | .callHelper | .exitToDriver
  | .safepointPoll | .pushRdi | .popRdi | .pushFrameSlot | .pushImm64 | .popFrameSlot => true
  | op => isJumpOp op

def readsFrameSlot : MirOp → Bool
  | .vLoadFromFrame | .vXmmLoadFromFrame | .vXmm32LoadFromFrame => true
  | _ => false

def writesFrameSlot : MirOp → Bool
  | .vStoreToFrame | .vXmmStoreToFrame | .vXmm32StoreToFrame => true
  | _ => false

variable (buf : MirBuffer)

/-- The pcs some jump goes to. -/
def jumpTargets : List Nat :=
  (buf.filter fun m => isJumpOp m.op).map Mir.imm32

/-- Control may come to an instruction from a jump. -/
def isTarget (targets : List Nat) (m : Mir) : Bool := m.pc.any targets.contains

def Mir.removed (m : Mir) : Mir := { m with op := .nop }

/-! ## Moves of the Arguments -/

def kRegRcx : Nat := 1
def kRegRdx : Nat := 2
def kRegRdi : Nat := 8
def kRegRsi : Nat := 9

def isMove (m : Mir) (dst src : Nat) : Bool := m.op == .movRegReg && m.r0 == dst && m.r1 == src

/-- The moves of the two arguments to their registers and back again. -/
def optimizeWin64RedundantArgSetup : MirBuffer → MirBuffer
  | a :: b :: c :: d :: rest =>
    if isMove a kRegRdi kRegRcx ∧ isMove b kRegRsi kRegRdx ∧ isMove c kRegRcx kRegRdi ∧
        isMove d kRegRdx kRegRsi then a :: b :: rest
    else a :: optimizeWin64RedundantArgSetup (b :: c :: d :: rest)
  | buf => buf

def optimizeRemoveNoopMovRaxRax : MirBuffer := buf

/-! ## The Peephole -/

/-- The last store to a slot: what it stored, where it is, and whether it has been read since. -/
structure StoreInfo where
  vreg : VRegId
  index : Nat
  read : Bool

abbrev PendingStore := Int → Option StoreInfo

structure Peephole where
  buf : MirBuffer
  pendingStore : PendingStore

/-- What is known of the slots where control may come from a jump. -/
def atTarget (targets : List Nat) (m : Mir) (pendingStore : PendingStore) : PendingStore :=
  if isTarget targets m then fun _ => none else pendingStore

/-- A load of a slot becomes a copy of the register that was stored there. -/
def Mir.forwarded (m : Mir) (info : StoreInfo) : Mir :=
  { m with op := .vCopy, r1 := info.vreg, disp := 0 }

/-- A store to a slot removes the one before it unless that has been read. -/
def removeUnread : Option StoreInfo → MirBuffer
  | some info => if info.read then buf else buf.modify info.index Mir.removed
  | none => buf

def peepholeStep (targets : List Nat) (forwardStores : Bool) (s : Peephole) (i : Nat) : Peephole :=
  match s.buf[i]? with
  | none => s
  | some m =>
    let pendingStore := atTarget targets m s.pendingStore
    if m.op = .nop ∨ m.op = .debugTrace then ⟨s.buf, pendingStore⟩
    else if isBarrierOp m.op then ⟨s.buf, fun _ => none⟩
    else if writesFrameSlot m.op then
      if m.op = .vStoreToFrame then
        ⟨removeUnread s.buf (pendingStore m.disp),
          update pendingStore m.disp (some ⟨m.r0, i, false⟩)⟩
      else ⟨s.buf, update pendingStore m.disp none⟩
    else if readsFrameSlot m.op then
      match pendingStore m.disp with
      | none => ⟨s.buf, pendingStore⟩
      | some info =>
        ⟨if m.op = .vLoadFromFrame ∧ forwardStores then s.buf.set i (m.forwarded info) else s.buf,
          update pendingStore m.disp (some { info with read := true })⟩
    else ⟨s.buf, pendingStore⟩

/-- The state of the loop in front of an instruction. -/
def peepholeAt (buf : MirBuffer) (forwardStores : Bool) : Nat → Peephole
  | 0 => ⟨buf, fun _ => none⟩
  | i + 1 => peepholeStep (jumpTargets buf) forwardStores (peepholeAt buf forwardStores i) i

def optimizePeephole (forwardStores : Bool) : MirBuffer :=
  (peepholeAt buf forwardStores buf.length).buf

/-! ## Dead Stores -/

/-- Stands for every slot: no slot has this displacement. -/
def kAllSlotsLive : Int := -2 ^ 31

abbrev LiveSlots := Int → Bool

namespace LiveSlots

def insert (live : LiveSlots) (d : Int) : LiveSlots := update live d true

def erase (live : LiveSlots) (d : Int) : LiveSlots := update live d false

def union (live other : LiveSlots) : LiveSlots := fun d => live d || other d

end LiveSlots

/-- The slots a native call copies its arguments from. -/
def NativeJitCallParams.readSlots (p : NativeJitCallParams) : List Int :=
  (p.args.filter fun arg => arg.vreg == kInvalidVReg && !arg.isImm).map NativeJitCallArg.srcDisp

/-- What an instruction does to the set, going backwards: the set after it becomes the one before
    it, and a dead store is removed. -/
def transfer (targetLiveness : Nat → Option LiveSlots) (liveSlots : LiveSlots) (m : Mir) :
    Mir × LiveSlots :=
  if m.op = .nop ∨ m.op = .debugTrace then (m, liveSlots)
  else if m.op = .ret ∨ m.op = .jmpRax ∨ m.op = .vRet then (m, fun _ => false)
  else if isJumpOp m.op then
    -- a target that is not seen yet lies before the jump
    match targetLiveness m.imm32 with
    | some live => (m, liveSlots.union live)
    | none => (m, liveSlots.insert kAllSlotsLive)
  else if m.op = .pushFrameSlot then (m, liveSlots.insert m.disp)
  else if m.op = .popFrameSlot then (m, liveSlots.erase m.disp)
  else if m.op = .nativeJitFuncCall then
    match m.params with
    | none => (m, liveSlots)
    | some p =>
      let liveSlots := if p.resultVReg = kInvalidVReg then liveSlots.erase p.resultDisp else liveSlots
      (m, p.readSlots.foldl LiveSlots.insert liveSlots)
  else if m.op = .callRax ∨ m.op = .callRel32 ∨ m.op = .callHelper ∨ m.op = .exitToDriver ∨
      m.op = .safepointPoll then (m, liveSlots.insert kAllSlotsLive)
  else if readsFrameSlot m.op then (m, liveSlots.insert m.disp)
  else if writesFrameSlot m.op then
    if liveSlots m.disp = false ∧ liveSlots kAllSlotsLive = false then (m.removed, liveSlots)
    else (m, liveSlots.erase m.disp)
  else (m, liveSlots)

structure DeadStores where
  buf : MirBuffer
  liveSlots : LiveSlots
  targetLiveness : Nat → Option LiveSlots

/-- The loop from the last instruction to the first. -/
def deadStores (targets : List Nat) : MirBuffer → DeadStores
  | [] => ⟨[], fun _ => false, fun _ => none⟩
  | m :: rest =>
    let s := deadStores targets rest
    let out := transfer s.targetLiveness s.liveSlots m
    ⟨out.1 :: s.buf, out.2,
      -- a jump lands before the instruction: the set saved is the one in front of it
      match m.pc with
      | some pc =>
        if targets.contains pc then update s.targetLiveness pc (some out.2)
        else s.targetLiveness
      | none => s.targetLiveness⟩

def eliminateDeadFrameStores : MirBuffer := (deadStores (jumpTargets buf) buf).buf

def runMirOptimizationPasses (keepValuesInRegisters : Bool) : MirBuffer :=
  let buf := optimizeWin64RedundantArgSetup buf
  let buf := optimizeRemoveNoopMovRaxRax buf
  let buf := optimizePeephole buf keepValuesInRegisters
  eliminateDeadFrameStores buf

end Camel.Jit
