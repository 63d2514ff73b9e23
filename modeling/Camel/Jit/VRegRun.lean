import Camel.Jit.VRegSound
import Camel.Jit.MirRun

/-! # Running over the Registers Given Out

    A buffer runs over the physical registers of its table as it runs over the virtual
    ones. The two runs go instruction by instruction; at each the registers of the
    values that are live hold the same. A value that is live behind an instruction was
    so before it or is what the instruction defines, so its range has begun; as no
    value is live where a jump goes back to, its last use is still to come in the
    buffer. Hence its range overlaps that of whatever the instruction writes.
-/

open Option Function List

namespace Camel.Jit

/-! ## The Table and the Instructions -/

/-- What the operations of a form define and use. -/
def formDefUse (m : Mir) : Form → List VRegId × List VRegId
  | .loadFrame _ | .loadMem _ | .constant _ | .fromRax => ([m.r0], [])
  | .store | .test | .compare | .returnValue => ([], [m.r0])
  | .copy | .immediate _ => ([m.r0], [m.r1])
  | .select _ => ([m.r0], [m.r0, m.r1])
  -- a division faults whether or not its quotient is read: it keeps a register
  | .binary (.div _) | .binary (.float _ .div) => ([m.r0], [m.r1, m.immV, m.r0])
  | .binary _ => ([m.r0], [m.r1, m.immV])
  | .nativeCall =>
    match m.params with
    | some p => ([p.resultVReg], p.args.map NativeJitCallArg.vreg)
    | none => ([], [])
  | _ => ([], [])

/-- No kind of instruction is missing from the table. -/
theorem tableDefUse_eq (m : Mir) (h : m.op.form ≠ .fixed) :
    tableDefUse m = formDefUse m m.op.form := by
  obtain ⟨op, r0, r1, disp, imm32, imm64, params, pc⟩ := m
  cases op <;> first | rfl | exact absurd rfl h

theorem clobbers_of_form : ∀ op : MirOp, (op.form = .nativeCall ∨ op.form = .helperCall ∨
    op.form = .driverExit ∨ op.form = .poll) → clobbers op = true := by
  intro op
  cases op <;> decide

/-- Control goes on to the next instruction, and nowhere else. -/
def Form.goesOn : Form → Bool
  | .jump _ | .returnValue | .fixed => false
  | _ => true

theorem succ_next {buf : MirBuffer} {i : Nat} {m : Mir} {f : Form} (hm : buf[i]? = some m)
    (hform : m.op.form = f) (hf : f.goesOn = true) : Succ buf i (i + 1) := by
  refine ⟨m, hm, ?_⟩
  rw [hform]
  cases f <;> first | rfl | cases hf

/-- Some way from here reads the virtual register before it is defined. -/
inductive LiveAt (buf : MirBuffer) (v : VRegId) : Nat → Prop
  | use {i : Nat} {m : Mir} (hm : buf[i]? = some m) (hv : v ∈ usesOf m) : LiveAt buf v i
  | flow {i j : Nat} {m : Mir} (hm : buf[i]? = some m) (hv : v ∉ defsOf m) (hs : Succ buf i j)
      (hj : LiveAt buf v j) : LiveAt buf v i

/-- No virtual register is live where a jump goes back to. -/
def NoneOverBackEdges (buf : MirBuffer) : Prop :=
  ∀ i j, Succ buf i j → j ≤ i → ∀ v, ¬ LiveAt buf v j

/-- A virtual register that is used is not defined behind its last use. -/
def DefinedInRange (buf : MirBuffer) : Prop :=
  ∀ (i : Nat) m v start stop, buf[i]? = some m → v ∈ defsOf m → Ranges buf v start stop → i ≤ stop

/-- The registers of a table. A call clobbers them. -/
def physical (table : List (Option Nat)) : Machine Nat where
  loc := pregForVReg table
  keeps := false
  fresh _ := none

variable {buf : MirBuffer} {table : List (Option Nat)} {v : VRegId} {i : Nat} {m : Mir}

/-! ## Where a Live Value Is -/

theorem LiveAt.used_behind (N : NoneOverBackEdges buf) (h : LiveAt buf v i) :
    ∃ j m, i ≤ j ∧ buf[j]? = some m ∧ v ∈ usesOf m := by
  induction h with
  | use hm hv => exact ⟨_, _, le_rfl, hm, hv⟩
  | @flow i j m hm hv hs hj ih =>
    obtain ⟨k, m', hle, hk, hv'⟩ := ih
    have hlt : i < j := by
      by_contra hge
      exact N i j hs (le_of_not_gt hge) v hj
    exact ⟨k, m', by omega, hk, hv'⟩

variable {start stop j : Nat}

theorem Ranges.last_use (h : Ranges buf v start stop)
    (hj : buf[j]? = some m) (hv : v ∈ usesOf m) : j ≤ stop := by
  have := (lastIndex_some h.used).2.2 j m hj (by simpa using hv)
  omega

theorem Ranges.first_def (h : Ranges buf v start stop)
    (hj : buf[j]? = some m) (hv : v ∈ defsOf m) : start ≤ j := by
  have := (firstIndex_some h.defined).2.2 j m hj (by simpa using hv)
  omega

/-- A value that is live has a range that is not over, and a register. -/
theorem LiveAt.given (T : SoundTable buf table) (N : NoneOverBackEdges buf) (h : LiveAt buf v i) :
    ∃ start stop r, Ranges buf v start stop ∧ i ≤ stop ∧ pregForVReg table v = some r := by
  obtain ⟨j, m, hle, hj, hv⟩ := h.used_behind N
  obtain ⟨start, stop, r, hrange, hr⟩ := T.given j m v hj hv
  exact ⟨start, stop, r, hrange, le_trans hle (hrange.last_use hj hv), hr⟩

theorem Ranges.unique {start' stop' : Nat} (h : Ranges buf v start stop)
    (h' : Ranges buf v start' stop') : start = start' ∧ stop = stop' :=
  ⟨some.inj (h.defined.symm.trans h'.defined), some.inj (h.used.symm.trans h'.used)⟩

/-! ## Two Runs -/

/-- The states of the two runs: what is live is in its register, and the rest is the same as
    far as it is known. -/
structure Agrees (buf : MirBuffer) (table : List (Option Nat)) (sv : MirState VRegId)
    (sp : MirState Nat) : Prop where
  index : sp.index = sv.index
  regs : ∀ v, LiveAt buf v sv.index → ∀ w, sv.regs v = some w →
    ∃ start stop r, Ranges buf v start stop ∧ start < sv.index ∧ pregForVReg table v = some r ∧
      sp.regs r = some w
  flags : ∀ f, sv.flags = some f → sp.flags = some f
  rax : ∀ w, sv.rax = some w → sp.rax = some w
  frame : sp.frame = sv.frame
  stack : sp.stack = sv.stack
  seen : sp.seen = sv.seen

/-- What one instruction leads to in the two runs; nothing is said of a run that is stuck. -/
inductive NextAgrees (buf : MirBuffer) (table : List (Option Nat)) (m : Mir) :
    Next VRegId → Next Nat → Prop
  | goto {sv : MirState VRegId} {sp : MirState Nat} (h : Agrees buf table sv sp) :
      NextAgrees buf table m (.goto sv) (.goto sp)
  | call (frame : Frame) {p : NativeJitCallParams} (hform : m.op.form = .nativeCall)
      (hp : m.params = some p) : NextAgrees buf table m (.call frame p) (.call frame p)
  | done (r : Result) : NextAgrees buf table m (.done r) (.done r)
  | stuck (n : Next Nat) : NextAgrees buf table m (.done .stuck) n

variable {sv : MirState VRegId} {sp : MirState Nat}

/-- An operand the virtual run can read is in its register. -/
theorem Agrees.read (h : Agrees buf table sv sp) (hm : buf[sv.index]? = some m)
    (hv : v ∈ usesOf m) {w : Word} (hw : sv.regs v = some w) :
    ∃ r, pregForVReg table v = some r ∧ sp.regs r = some w := by
  obtain ⟨-, -, r, -, -, hr, hsp⟩ := h.regs v (.use hm hv) w hw
  exact ⟨r, hr, hsp⟩

/-- Behind an instruction that goes on to the next one and has written at most what it
    defines, what was live is live still where it was. -/
theorem Agrees.live_next (h : Agrees buf table sv sp) (hm : buf[sv.index]? = some m)
    (hs : Succ buf sv.index (sv.index + 1)) (hv : v ∉ defsOf m) (hlive : LiveAt buf v (sv.index + 1))
    {w : Word} (hw : sv.regs v = some w) :
    ∃ start stop r, Ranges buf v start stop ∧ start < sv.index ∧ pregForVReg table v = some r ∧
      sp.regs r = some w :=
  h.regs v (.flow hm hv hs hlive) w hw

/-- Nothing is written, and control goes on somewhere. -/
theorem Agrees.to (N : NoneOverBackEdges buf) (h : Agrees buf table sv sp)
    (hm : buf[sv.index]? = some m) (hdefs : defsOf m = []) (hs : Succ buf sv.index j) :
    Agrees buf table { sv with index := j } { sp with index := j } where
  index := rfl
  regs v hlive w hw := by
    have hlt : sv.index < j := by
      by_contra hge
      exact N sv.index j hs (le_of_not_gt hge) v hlive
    obtain ⟨start, stop, r, hrange, hbegun, hr⟩ := h.regs v (.flow hm (by simp [hdefs]) hs hlive) w hw
    exact ⟨start, stop, r, hrange, lt_trans hbegun hlt, hr⟩
  flags := h.flags
  rax := h.rax
  frame := h.frame
  stack := h.stack
  seen := h.seen

/-- Nothing is written. -/
theorem Agrees.next (N : NoneOverBackEdges buf) (h : Agrees buf table sv sp)
    (hm : buf[sv.index]? = some m) (hs : Succ buf sv.index (sv.index + 1)) (hdefs : defsOf m = []) :
    Agrees buf table sv.next sp.next := by
  unfold MirState.next
  rw [h.index]
  exact h.to N hm hdefs hs

variable {d : VRegId}

/-- The destination is written, if it has a register. -/
theorem Agrees.set (T : SoundTable buf table) (N : NoneOverBackEdges buf) (D : DefinedInRange buf)
    (h : Agrees buf table sv sp) (hm : buf[sv.index]? = some m)
    (hs : Succ buf sv.index (sv.index + 1)) (hdefs : defsOf m = [d]) (w : Word) :
    Agrees buf table (sv.next.set d w)
      ((pregForVReg table d).elim sp.next fun r => sp.next.set r w) := by
  have hd : d ∈ defsOf m := by simp [hdefs]
  have hmem : ∀ v, v ≠ d → v ∉ defsOf m := by
    intro v hne
    simpa [hdefs] using hne
  cases hloc : pregForVReg table d with
  | none =>
    -- the value is never used, and the encoder leaves the instruction out
    refine ⟨congrArg (· + 1) h.index, fun v hlive x hx => ?_, h.flags, (fun _ hr => by cases hr),
      h.frame, h.stack, h.seen⟩
    have hne : v ≠ d := by
      rintro rfl
      obtain ⟨start, stop, r, -, -, hr⟩ := hlive.given T N
      rw [hloc] at hr
      cases hr
    have hx' : sv.regs v = some x := by
      simpa [MirState.set, MirState.next, update_of_ne hne] using hx
    obtain ⟨start, stop, r, hrange, hlt, hr⟩ := h.live_next hm hs (hmem v hne) hlive hx'
    exact ⟨start, stop, r, hrange, Nat.lt_succ_of_lt hlt, hr⟩
  | some rd =>
    refine ⟨congrArg (· + 1) h.index, fun v hlive x hx => ?_, h.flags, (fun _ hr => by cases hr),
      h.frame, h.stack, h.seen⟩
    by_cases hne : v = d
    · subst hne
      obtain ⟨start, stop, r, hrange, -, hr⟩ := hlive.given T N
      have hw : w = x := by simpa [MirState.set] using hx
      refine ⟨start, stop, rd, hrange, Nat.lt_succ_of_le (hrange.first_def hm hd), hloc, ?_⟩
      simp [MirState.set, hw]
    · have hx' : sv.regs v = some x := by
        simpa [MirState.set, MirState.next, update_of_ne hne] using hx
      obtain ⟨start, stop, r, hrange, hlt, hr, hsp⟩ := h.live_next hm hs (hmem v hne) hlive hx'
      refine ⟨start, stop, r, hrange, Nat.lt_succ_of_lt hlt, hr, ?_⟩
      -- the two ranges overlap here, so the registers differ
      obtain ⟨start', stop', hrange'⟩ := T.only d rd hloc
      obtain ⟨s₁, e₁, r₁, hrange₁, hle₁, -⟩ := hlive.given T N
      obtain ⟨rfl, rfl⟩ := hrange.unique hrange₁
      have hbegin := hrange'.first_def hm hd
      have hafter : sv.index + 1 ≤ stop := hle₁
      have hend := D sv.index m d start' stop' hm hd hrange'
      have hdiff := T.apart v d start stop start' stop' hne hrange hrange' (by omega) (by omega)
      have hrd : r ≠ rd := by
        rintro rfl
        exact hdiff (hr.trans hloc.symm)
      simpa [MirState.set, MirState.next, update_of_ne hrd] using hsp

section
variable (h : Agrees buf table sv sp)
include h

/-- The flags are set, or lost. -/
theorem Agrees.withFlags {f f' : Option (Word × Word)}
    (hf : ∀ x, f = some x → f' = some x) :
    Agrees buf table { sv with flags := f } { sp with flags := f' } :=
  ⟨h.index, h.regs, hf, h.rax, h.frame, h.stack, h.seen⟩

/-- Nothing is said of flags that are lost. -/
theorem Agrees.noFlags (f : Option (Word × Word)) :
    Agrees buf table { sv with flags := none } { sp with flags := f } :=
  h.withFlags nofun

theorem Agrees.withFrame (disp : Int) (w : Word) :
    Agrees buf table (sv.setFrame disp w) (sp.setFrame disp w) where
  index := h.index
  regs := h.regs
  flags := h.flags
  rax := h.rax
  frame := by
    show update sp.frame disp w = update sv.frame disp w
    rw [h.frame]
  stack := h.stack
  seen := h.seen

theorem Agrees.withStack (stack : List Word) :
    Agrees buf table { sv with stack := stack } { sp with stack := stack } :=
  ⟨h.index, h.regs, h.flags, h.rax, h.frame, rfl, h.seen⟩

end

/-- Nothing is live across a call but what it defines. -/
theorem not_live_call (T : SoundTable buf table) (N : NoneOverBackEdges buf)
    (h : Agrees buf table sv sp) (hm : buf[sv.index]? = some m)
    (hs : Succ buf sv.index (sv.index + 1)) (hcall : clobbers m.op = true) (hv : v ∉ defsOf m)
    (hlive : LiveAt buf v (sv.index + 1)) : sv.regs v = none := by
  cases hw : sv.regs v with
  | none => rfl
  | some w =>
    obtain ⟨start, stop, r, hrange, hlt, -⟩ := h.live_next hm hs hv hlive hw
    obtain ⟨start', stop', -, hrange', hle, -⟩ := hlive.given T N
    obtain ⟨rfl, rfl⟩ := hrange.unique hrange'
    exact absurd ⟨hlt, hle⟩ (T.calls v start stop hrange sv.index m hm hcall)

/-- A call that defines no register. -/
theorem Agrees.afterCall (T : SoundTable buf table) (N : NoneOverBackEdges buf)
    (h : Agrees buf table sv sp) (hm : buf[sv.index]? = some m)
    (hs : Succ buf sv.index (sv.index + 1)) (hcall : clobbers m.op = true) (hdefs : defsOf m = [])
    (fresh : VRegId → Option Word) (rax : Option Word) (frame : Frame) (seen : History) :
    Agrees buf table (sv.next.afterCall (virtual fresh) rax frame seen)
      (sp.next.afterCall (physical table) rax frame seen) where
  index := congrArg (· + 1) h.index
  regs v hlive w hw := by
    have hnone := not_live_call T N h hm hs hcall (v := v) (by simp [hdefs]) hlive
    rw [show (sv.next.afterCall (virtual fresh) rax frame seen).regs v = sv.regs v from rfl,
      hnone] at hw
    cases hw
  flags _ hf := by cases hf
  rax _ hr := hr
  frame := rfl
  stack := h.stack
  seen := rfl

/-! ## One Instruction -/

variable {env : Env} {depth : Nat} {fresh : VRegId → Option Word}

/-- A value is written to the destination, if it has a register. -/
theorem Agrees.write (T : SoundTable buf table) (N : NoneOverBackEdges buf)
    (D : DefinedInRange buf) (h : Agrees buf table sv sp) (hm : buf[sv.index]? = some m)
    (hs : Succ buf sv.index (sv.index + 1)) (hdefs : defsOf m = [d]) (w : Word) :
    NextAgrees buf table m (.goto (sv.next.set d w))
      ((pregForVReg table d).elim (.goto sp.next) fun r => .goto (sp.next.set r w)) := by
  have hset := h.set T N D hm hs hdefs w
  cases hloc : pregForVReg table d with
  | none =>
    rw [hloc] at hset
    exact .goto hset
  | some r =>
    rw [hloc] at hset
    exact .goto hset

/-- An instruction is left out when its destination has no register. -/
theorem Agrees.written (T : SoundTable buf table) (N : NoneOverBackEdges buf)
    (D : DefinedInRange buf) (h : Agrees buf table sv sp) (hm : buf[sv.index]? = some m)
    (hs : Succ buf sv.index (sv.index + 1)) (hdefs : defsOf m = [d])
    {o : Option Word} {n : Nat → Next Nat}
    (hn : ∀ w, o = some w → ∀ r, pregForVReg table d = some r → n r = .goto (sp.next.set r w)) :
    NextAgrees buf table m (o.elim (.done .stuck) fun w => .goto (sv.next.set d w))
      ((pregForVReg table d).elim (.goto sp.next) n) := by
  cases ho : o with
  | none => exact .stuck _
  | some w =>
    have hwrite := h.write T N D hm hs hdefs w
    cases hloc : pregForVReg table d with
    | none =>
      rw [hloc] at hwrite
      exact hwrite
    | some r =>
      rw [hloc] at hwrite
      show NextAgrees buf table m (.goto (sv.next.set d w)) (n r)
      rw [hn w ho r hloc]
      exact hwrite

/-- An operand is read. -/
theorem Agrees.use (h : Agrees buf table sv sp)
    (hm : buf[sv.index]? = some m) (hv : v ∈ usesOf m) {k : Word → Next VRegId}
    {k' : Word → Next Nat} {n : Next Nat}
    (hk : ∀ w, sv.regs v = some w → NextAgrees buf table m (k w) (k' w)) :
    NextAgrees buf table m ((sv.regs v).elim (.done .stuck) k)
      ((pregForVReg table v).elim n fun l => (sp.regs l).elim (.done .stuck) k') := by
  cases hw : sv.regs v with
  | none => exact .stuck _
  | some w =>
    obtain ⟨r, hr, hsp⟩ := h.read hm hv hw
    rw [hr]
    show NextAgrees buf table m (k w) ((sp.regs r).elim (.done .stuck) k')
    rw [hsp]
    exact hk w hw

theorem defsOf_eq (h : m.op.form ≠ .fixed) :
    defsOf m = (formDefUse m m.op.form).1.filter (· ≠ kInvalidVReg) := by
  unfold defsOf
  rw [tableDefUse_eq m h]

theorem usesOf_eq (h : m.op.form ≠ .fixed) :
    usesOf m = (formDefUse m m.op.form).2.filter (· ≠ kInvalidVReg) := by
  unfold usesOf
  rw [tableDefUse_eq m h]

/-- An operation on two operands that is not a division has a value. -/
theorem evalBinary_value (floats : Floats) {f : Binary} (hdiv : ∀ w, f ≠ .div w)
    (hfloat : ∀ w, f ≠ .float w .div) (a b : Word) : ∃ w, m.evalBinary floats f a b = .value w := by
  cases f with
  | int w op => cases w <;> exact ⟨_, rfl⟩
  | div w => exact absurd rfl (hdiv w)
  | cmp w c => cases w <;> exact ⟨_, rfl⟩
  | float w op =>
    have hop : op ≠ .div := by
      rintro rfl
      exact hfloat w rfl
    exact ⟨floats.arith w op a b, if_neg fun h => hop h.1⟩
  | floatCmp w c => exact ⟨_, rfl⟩

theorem binary_agrees (T : SoundTable buf table) (N : NoneOverBackEdges buf)
    (D : DefinedInRange buf) (h : Agrees buf table sv sp) (hm : buf[sv.index]? = some m)
    {f : Binary} (hform : m.op.form = .binary f) (hlack : m.lacksOperand = false) :
    NextAgrees buf table m (binaryStep (virtual fresh) env m f sv)
      (binaryStep (physical table) env m f sp) := by
  have hs := succ_next hm hform rfl
  have hfixed : m.op.form ≠ .fixed := by simp [hform]
  have hvalid : (m.r0 ≠ kInvalidVReg ∧ m.r1 ≠ kInvalidVReg) ∧ m.immV ≠ kInvalidVReg := by
    simpa [Mir.lacksOperand, hform] using hlack
  obtain ⟨⟨h0, h1⟩, h2⟩ := hvalid
  have hdefs : defsOf m = [m.r0] := by
    rw [defsOf_eq hfixed, hform]
    unfold formDefUse
    split <;> simp_all
  have huse : m.r1 ∈ usesOf m ∧ m.immV ∈ usesOf m := by
    rw [usesOf_eq hfixed, hform]
    unfold formDefUse
    split <;> simp_all
  unfold binaryStep
  simp only [virtual]
  cases ha : sv.regs m.r1 with
  | none => exact .stuck _
  | some a =>
    cases hb : sv.regs m.immV with
    | none => exact .stuck _
    | some b =>
      obtain ⟨l, hl, hla⟩ := h.read hm huse.1 ha
      obtain ⟨r, hr, hrb⟩ := h.read hm huse.2 hb
      simp only [physical, hl, hr]
      cases hd : pregForVReg table m.r0 with
      | some d =>
        simp only [hla, hrb]
        cases heval : m.evalBinary env.floats f a b with
        | value w =>
          have hset := h.set T N D hm hs hdefs w
          rw [hd] at hset
          exact .goto (hset.withFlags fun x hx => by cases hx)
        | fault kind pc =>
          rw [← h.seen]
          exact .done _
        | trap => exact .stuck _
      | none =>
        -- a division keeps its register, so this is no division
        have hkeeps : m.r0 ∉ usesOf m := by
          intro hmem
          obtain ⟨-, -, r, -, hr⟩ := T.given _ m _ hm hmem
          rw [hd] at hr
          cases hr
        rw [usesOf_eq hfixed, hform] at hkeeps
        obtain ⟨w, hw⟩ : ∃ w, m.evalBinary env.floats f a b = .value w := by
          apply evalBinary_value
          · rintro w rfl
            exact hkeeps (by simp [formDefUse, h0])
          · rintro w rfl
            exact hkeeps (by simp [formDefUse, h0])
        have hset := h.set T N D hm hs hdefs w
        rw [hd] at hset
        simp only [hw]
        exact .goto (hset.noFlags sp.next.flags)

theorem exit_agrees (T : SoundTable buf table) (N : NoneOverBackEdges buf)
    (h : Agrees buf table sv sp) (hm : buf[sv.index]? = some m)
    (hs : Succ buf sv.index (sv.index + 1)) (hcall : clobbers m.op = true) (hdefs : defsOf m = [])
    (kind pc : Nat) :
    NextAgrees buf table m (exitStep (virtual fresh) env depth kind pc sv)
      (exitStep (physical table) env depth kind pc sp) := by
  unfold exitStep
  rw [h.stack, h.frame, h.seen]
  split
  · exact .stuck _
  · simp only
    split
    · exact .done _
    · exact .goto (h.afterCall T N hm hs hcall hdefs fresh none _ _)

theorem args_agree (h : Agrees buf table sv sp) (hm : buf[sv.index]? = some m)
    {args : List NativeJitCallArg}
    (huse : ∀ arg ∈ args, arg.vreg ≠ kInvalidVReg → arg.vreg ∈ usesOf m) (frame : Frame) :
    ∀ out, calleeFrame (virtual fresh) sv args frame = some out →
      calleeFrame (physical table) sp args frame = some out := by
  induction args generalizing frame with
  | nil => exact fun out hout => hout
  | cons arg args ih =>
    intro out hout
    unfold calleeFrame at hout ⊢
    have hvalue : ∀ w, argValue (virtual fresh) sv arg = some w →
        argValue (physical table) sp arg = some w := by
      intro w hw
      unfold argValue at hw ⊢
      by_cases hvreg : arg.vreg = kInvalidVReg
      · rw [if_pos hvreg] at hw ⊢
        rw [h.frame]
        exact hw
      · rw [if_neg hvreg] at hw ⊢
        obtain ⟨r, hr, hsp⟩ := h.read hm (huse arg mem_cons_self hvreg) hw
        simp only [physical, hr]
        exact hsp
    split at hout
    · cases hout
    · next w hw =>
      rw [hvalue w hw]
      exact ih (fun a ha => huse a (mem_cons_of_mem arg ha)) _ out hout

/-- What the instruction of a form defines and uses, once no operand is missing. -/
theorem operands_of_form (hlack : m.lacksOperand = false) :
    (∀ w, m.op.form = .loadFrame w ∨ m.op.form = .loadMem w ∨ m.op.form = .constant w ∨
        m.op.form = .fromRax → defsOf m = [m.r0]) ∧
      (m.op.form = .store ∨ m.op.form = .test ∨ m.op.form = .compare ∨ m.op.form = .returnValue →
        defsOf m = [] ∧ m.r0 ∈ usesOf m) ∧
      (∀ f, m.op.form = .copy ∨ m.op.form = .immediate f → defsOf m = [m.r0] ∧ m.r1 ∈ usesOf m) ∧
      ∀ z, m.op.form = .select z → defsOf m = [m.r0] ∧ m.r0 ∈ usesOf m ∧ m.r1 ∈ usesOf m := by
  refine ⟨fun w h => ?_, fun h => ?_, fun f h => ?_, fun z h => ?_⟩
  · rcases h with h | h | h | h <;>
      simpa [defsOf_eq, formDefUse, Mir.lacksOperand, h] using hlack
  · rcases h with h | h | h | h <;>
      simpa [defsOf_eq, usesOf_eq, formDefUse, Mir.lacksOperand, h] using hlack
  · rcases h with h | h <;>
      simpa [defsOf_eq, usesOf_eq, formDefUse, Mir.lacksOperand, h] using hlack
  · simpa [defsOf_eq, usesOf_eq, formDefUse, Mir.lacksOperand, h] using hlack

/-- One instruction does the same in the two runs. -/
theorem step_agrees (T : SoundTable buf table) (N : NoneOverBackEdges buf)
    (D : DefinedInRange buf) (h : Agrees buf table sv sp) (hm : buf[sv.index]? = some m) :
    NextAgrees buf table m (stepMir (virtual fresh) env buf depth m sv)
      (stepMir (physical table) env buf depth m sp) := by
  unfold stepMir
  cases hlack : m.lacksOperand with
  | true => exact .stuck _
  | false =>
  obtain ⟨hwrite, hread, hunary, hselect⟩ := operands_of_form hlack
  simp only [Bool.false_eq_true, if_false]
  cases hform : m.op.form with
  | fixed => exact .stuck _
  | binary f => exact @binary_agrees buf table m sv sp env fresh T N D h hm f hform hlack
  | loadFrame w =>
    have hs := succ_next hm hform rfl
    show NextAgrees buf table m (.goto (sv.next.set m.r0 (w.cut (sv.frame m.disp))))
      ((pregForVReg table m.r0).elim (.goto sp.next) fun d =>
        .goto (sp.next.set d (w.cut (sp.frame m.disp))))
    rw [h.frame]
    exact h.write T N D hm hs (hwrite w (.inl hform)) _
  | loadMem w =>
    have hs := succ_next hm hform rfl
    show NextAgrees buf table m (.goto (sv.next.set m.r0 (w.cut (env.memory sv.seen m.imm64))))
      ((pregForVReg table m.r0).elim (.goto sp.next) fun d =>
        .goto (sp.next.set d (w.cut (env.memory sp.seen m.imm64))))
    rw [h.seen]
    exact h.write T N D hm hs (hwrite w (.inr (.inl hform))) _
  | constant w =>
    have hs := succ_next hm hform rfl
    cases w <;> exact h.write T N D hm hs (hwrite _ (.inr (.inr (.inl hform)))) _
  | store =>
    have hs := succ_next hm hform rfl
    obtain ⟨hdefs, huse⟩ := hread (.inl hform)
    exact h.use hm huse fun w _ => .goto ((h.next N hm hs hdefs).withFrame m.disp w)
  | test =>
    have hs := succ_next hm hform rfl
    obtain ⟨hdefs, huse⟩ := hread (.inr (.inl hform))
    exact h.use hm huse fun w _ => .goto ((h.next N hm hs hdefs).withFlags fun x hx => hx)
  | compare =>
    have hs := succ_next hm hform rfl
    obtain ⟨hdefs, huse⟩ := hread (.inr (.inr (.inl hform)))
    exact h.use hm huse fun w _ => .goto ((h.next N hm hs hdefs).withFlags fun x hx => hx)
  | returnValue =>
    obtain ⟨-, huse⟩ := hread (.inr (.inr (.inr hform)))
    apply h.use hm huse
    intro w _
    rw [h.stack, h.seen]
    split
    · exact .done _
    · exact .stuck _
  | copy =>
    have hs := succ_next hm hform rfl
    obtain ⟨hdefs, huse⟩ := hunary .add (.inl hform)
    apply h.written T N D hm hs hdefs
    intro w hw r hr
    obtain ⟨l, hl, hsp⟩ := h.read hm huse hw
    simp [physical, hl, hsp, hr]
  | immediate f =>
    have hs := succ_next hm hform rfl
    obtain ⟨hdefs, huse⟩ := hunary f (.inr hform)
    cases ha : sv.regs m.r1 with
    | none =>
      simp only [virtual, elim_some, ha, elim_none]
      exact .stuck _
    | some a =>
      obtain ⟨l, hl, hsp⟩ := h.read hm huse ha
      have hset := h.set T N D hm hs hdefs (m.evalImmediate f a)
      simp only [virtual, physical, elim_some, ha, hl, hsp]
      cases hd : pregForVReg table m.r0 with
      | none =>
        rw [hd] at hset
        exact .goto (hset.noFlags sp.next.flags)
      | some d =>
        rw [hd] at hset
        exact .goto (hset.withFlags fun x hx => hx)
  | fromRax =>
    have hs := succ_next hm hform rfl
    have hdefs := hwrite .w64 (.inr (.inr (.inr hform)))
    apply h.written T N D hm hs hdefs
    intro w hw r hr
    simp [physical, h.rax w hw, hr]
  | select zero =>
    have hs := succ_next hm hform rfl
    obtain ⟨hdefs, huse₀, huse₁⟩ := hselect zero hform
    simp only [virtual, elim_some]
    cases hold : sv.regs m.r0 with
    | none => exact .stuck _
    | some old =>
      cases hnew : sv.regs m.r1 with
      | none => exact .stuck _
      | some new =>
        cases hf : sv.flags with
        | none => exact .stuck _
        | some f =>
          obtain ⟨d, hd, hdold⟩ := h.read hm huse₀ hold
          obtain ⟨r, hr, hrnew⟩ := h.read hm huse₁ hnew
          have hwrite := h.write T N D hm hs hdefs (if (f.1 == f.2) = zero then new else old)
          simp only [physical, hd, hr, hdold, hrnew, h.flags f hf, elim_some] at hwrite ⊢
          exact hwrite
  | jump c =>
    have hdefs : defsOf m = [] := by simp [defsOf_eq, formDefUse, hform]
    cases ht : targetOf buf m.imm32 with
    | none => exact .stuck _
    | some t =>
      cases c with
      | none => exact .goto (h.to N hm hdefs ⟨m, hm, by rw [hform]; exact ht⟩)
      | some c =>
        cases hf : sv.flags with
        | none => exact .stuck _
        | some f =>
          simp only [h.flags f hf]
          split
          · have hto := h.to N hm hdefs ⟨m, hm, by rw [hform]; exact .inl ht⟩
            exact .goto (hto.withFlags fun x hx => hx)
          · exact .goto (h.next N hm ⟨m, hm, by rw [hform]; exact .inr rfl⟩ hdefs)
  | nativeCall =>
    cases hp : m.params with
    | none => exact .stuck _
    | some p =>
      have huse : ∀ arg ∈ p.args, arg.vreg ≠ kInvalidVReg → arg.vreg ∈ usesOf m := by
        intro arg harg hvreg
        rw [usesOf_eq (by simp [hform]), hform]
        simp only [formDefUse, hp, List.mem_filter, List.mem_map, decide_eq_true_eq]
        exact ⟨⟨arg, harg, rfl⟩, hvreg⟩
      dsimp only
      rw [h.seen]
      split
      · exact .done _
      · cases hframe : calleeFrame (virtual fresh) sv p.args (env.stackFrame depth) with
        | none => exact .stuck _
        | some frame =>
          rw [args_agree h hm huse _ frame hframe]
          exact .call frame hform hp
  | helperCall =>
    have hs := succ_next hm hform rfl
    have hdefs : defsOf m = [] := by simp [defsOf_eq, formDefUse, hform]
    have hcall := clobbers_of_form m.op (.inr (.inl hform))
    dsimp only
    rw [h.frame, h.seen]
    split
    · exact .goto (h.afterCall T N hm hs hcall hdefs fresh _ _ _)
    · exact .done _
  | driverExit =>
    have hs := succ_next hm hform rfl
    have hdefs : defsOf m = [] := by simp [defsOf_eq, formDefUse, hform]
    exact exit_agrees T N h hm hs (clobbers_of_form m.op (.inr (.inr (.inl hform)))) hdefs _ _
  | poll =>
    have hs := succ_next hm hform rfl
    have hdefs : defsOf m = [] := by simp [defsOf_eq, formDefUse, hform]
    have hcall := clobbers_of_form m.op (.inr (.inr (.inr hform)))
    have hpolled : Agrees buf table { sv with seen := .poll m.imm64 :: sv.seen, flags := none }
        { sp with seen := .poll m.imm64 :: sp.seen, flags := none } :=
      ⟨h.index, h.regs, fun _ hf => (by cases hf), h.rax, h.frame, h.stack, congrArg (Shown.poll m.imm64 :: ·) h.seen⟩
    dsimp only
    rw [h.seen] at hpolled ⊢
    split
    · exact exit_agrees T N hpolled hm hs hcall hdefs _ _
    · exact .goto (hpolled.next N hm hs hdefs)
  | pushSlot =>
    have hs := succ_next hm hform rfl
    have hdefs : defsOf m = [] := by simp [defsOf_eq, formDefUse, hform]
    rw [h.frame, h.stack]
    exact .goto ((h.next N hm hs hdefs).withStack _)
  | pushConstant =>
    have hs := succ_next hm hform rfl
    have hdefs : defsOf m = [] := by simp [defsOf_eq, formDefUse, hform]
    rw [h.stack]
    exact .goto ((h.next N hm hs hdefs).withStack _)
  | popSlot =>
    have hs := succ_next hm hform rfl
    have hdefs : defsOf m = [] := by simp [defsOf_eq, formDefUse, hform]
    dsimp only
    rw [h.stack]
    split
    · exact .stuck _
    · exact .goto (((h.next N hm hs hdefs).withFrame m.disp _).withStack _)
  | skip =>
    have hs := succ_next hm hform rfl
    have hdefs : defsOf m = [] := by simp [defsOf_eq, formDefUse, hform]
    exact .goto (h.next N hm hs hdefs)

/-! ## Whole Runs -/

/-- A native call has returned in both runs. -/
theorem returned_agrees (T : SoundTable buf table) (N : NoneOverBackEdges buf)
    (h : Agrees buf table sv sp) (hm : buf[sv.index]? = some m)
    (hform : m.op.form = .nativeCall) {p : NativeJitCallParams} (hp : m.params = some p) (w : Word)
    (seen : History) :
    Agrees buf table (returned (virtual fresh) sv p w seen) (returned (physical table) sp p w seen) := by
  have hs := succ_next hm hform rfl
  have hcall := clobbers_of_form m.op (.inl hform)
  have hdefs : defsOf m = [p.resultVReg].filter (· ≠ kInvalidVReg) := by
    rw [defsOf_eq (by simp [hform]), hform]
    simp [formDefUse, hp]
  unfold returned
  by_cases hvreg : p.resultVReg = kInvalidVReg
  · simp only [hvreg, if_true]
    rw [h.frame]
    have hback := h.afterCall T N hm hs hcall (by simp [hdefs, hvreg]) fresh none sv.frame seen
    exact hback.withFrame p.resultDisp w
  · simp only [hvreg, if_false, virtual, physical, elim_some]
    have hd : p.resultVReg ∈ defsOf m := by simp [hdefs, hvreg]
    -- of what is live behind the call only its value is known
    have honly : ∀ v, LiveAt buf v (sv.index + 1) → ∀ x,
        update sv.regs p.resultVReg (some w) v = some x → v = p.resultVReg ∧ w = x := by
      intro v hlive x hx
      by_cases hv : v = p.resultVReg
      · subst hv
        exact ⟨rfl, by simpa using hx⟩
      · have hout : v ∉ defsOf m := by
          intro hmem
          exact hv (by simpa [hdefs, hvreg] using hmem)
        rw [update_of_ne hv, not_live_call T N h hm hs hcall hout hlive] at hx
        cases hx
    have hindex : sp.next.index = sv.next.index := congrArg (· + 1) h.index
    cases hloc : pregForVReg table p.resultVReg with
    | none =>
      refine ⟨hindex, fun v hlive x hx => ?_, nofun, nofun, h.frame, h.stack, rfl⟩
      obtain ⟨rfl, -⟩ := honly v hlive x hx
      obtain ⟨start, stop, r, -, -, hr⟩ := hlive.given T N
      rw [hloc] at hr
      cases hr
    | some r =>
      refine ⟨hindex, fun v hlive x hx => ?_, nofun, nofun, h.frame, h.stack, rfl⟩
      obtain ⟨rfl, rfl⟩ := honly v hlive x hx
      obtain ⟨start, stop, -, hrange, -, -⟩ := hlive.given T N
      refine ⟨start, stop, r, hrange, Nat.lt_succ_of_le (hrange.first_def hm hd), hloc, ?_⟩
      show update (fun _ => none) r (some w) r = some w
      rw [update_self]

/-- Where the code is entered nothing is known of a register. -/
theorem entry_agrees (frame : Frame) (seen : History) :
    Agrees buf table (entry (virtual fun _ => none) frame seen) (entry (physical table) frame seen) :=
  ⟨rfl, fun _ _ _ hw => (by cases hw), nofun, nofun, rfl, rfl, rfl⟩

/-- The two runs end alike. -/
theorem run_agrees (T : SoundTable buf table) (N : NoneOverBackEdges buf) (D : DefinedInRange buf)
    (h : Agrees buf table sv sp) (fuel : Nat) :
    run (virtual fun _ => none) env buf fuel depth sv ≠ .stuck →
      run (physical table) env buf fuel depth sp = run (virtual fun _ => none) env buf fuel depth sv := by
  induction fuel generalizing depth sv sp with
  | zero => exact fun _ => rfl
  | succ fuel ih =>
    intro hrun
    unfold run at hrun ⊢
    rw [h.index]
    cases hm : buf[sv.index]? with
    | none => rfl
    | some m =>
      rw [hm] at hrun
      dsimp only at hrun ⊢
      have hstep := @step_agrees buf table m sv sp env depth (fun _ => none) T N D h hm
      generalize stepMir (virtual fun _ => none) env buf depth m sv = nv at hstep hrun ⊢
      generalize stepMir (physical table) env buf depth m sp = np at hstep ⊢
      cases hstep with
      | goto h' => exact ih h' hrun
      | done r => rfl
      | stuck n => exact absurd rfl hrun
      | call frame hform hp =>
        dsimp only at hrun ⊢
        rw [h.seen]
        have hnested := @ih _ _ (depth + 1) (entry_agrees frame sv.seen)
        generalize run (virtual fun _ => none) env buf fuel (depth + 1)
          (entry (virtual fun _ => none) frame sv.seen) = r at hrun hnested ⊢
        cases r with
        | value w seen =>
          rw [hnested (by simp)]
          exact ih (returned_agrees T N h hm hform hp w seen) hrun
        | fault kind pc seen => rw [hnested (by simp)]
        | left seen => rw [hnested (by simp)]
        | unfinished => rw [hnested (by simp)]
        | stuck => exact absurd rfl hrun

/-! ## The Allocation -/

/-- Where the buffer defines no value behind its last use and none is live over a back edge, it
    comes to the same over the registers given out, whatever it calls. -/
theorem linearScanVReg_run {buf : MirBuffer} {table : List (Option Nat)}
    (h : linearScanVReg buf = .ok table) :
    SoundTable buf table ∧
      (NoneOverBackEdges buf → DefinedInRange buf → ∀ env fuel depth frame seen,
        run (virtual fun _ => none) env buf fuel depth
            (entry (virtual fun _ => none) frame seen) ≠ .stuck →
          run (physical table) env buf fuel depth (entry (physical table) frame seen) =
            run (virtual fun _ => none) env buf fuel depth
              (entry (virtual fun _ => none) frame seen)) := by
  have T := linearScanVReg_sound h
  refine ⟨T, fun N D env fuel depth frame seen hrun => ?_⟩
  exact run_agrees T N D (entry_agrees frame seen) fuel hrun

/-- The intervals of a buffer are mostly sorted already. -/
theorem linearScanVReg_of_sorted (is : List VLiveInterval) {s : VAllocState}
    (his : vregIntervals (collectVRegDefUse buf) (callIndices buf)
      (range (collectVRegDefUse buf).firstDef.length) = .ok is)
    (hsorted : is.Pairwise fun a b => (decide (a.start ≤ b.start)) = true)
    (hloop : vallocLoop ⟨⟨[], freeVRegs⟩,
      replicate (collectVRegDefUse buf).firstDef.length none⟩ is = .ok s) :
    linearScanVReg buf = .ok s.vregToPreg := by
  unfold linearScanVReg
  simp only [his, mergeSort_of_pairwise hsorted, hloop]

/-- Without a jump nothing goes back. -/
theorem noneOverBackEdges_of_straight (h : ∀ m ∈ buf, ∀ c, m.op.form ≠ .jump c) :
    NoneOverBackEdges buf := by
  rintro i j ⟨m, hm, hs⟩ hle
  have hform := h m (mem_of_getElem? hm)
  split at hs
  · next heq => exact absurd heq (hform _)
  · next heq => exact absurd heq (hform _)
  · exact hs.elim
  · exact hs.elim
  · omega

/-- No helper, no driver and nothing in memory. -/
def quiet : Env where
  floats := ⟨fun _ _ _ _ => 0, fun _ _ _ _ => false⟩
  memory _ _ := 0
  helper _ := .fault .divisionByZero 0
  driver _ := none
  safepoint _ := false
  refuses _ := none
  stackFrame _ _ := 0

/-- A slot is added to itself. -/
def doubled : MirBuffer :=
  [{ op := .vLoadFromFrame, r0 := 0, disp := 8 }, { op := .vAdd, r0 := 1, r1 := 0, imm32 := 0 },
    { op := .vRet, r0 := 1 }]

theorem linearScanVReg_doubled : linearScanVReg doubled = .ok [some 0, some 0] :=
  linearScanVReg_of_sorted [⟨0, 0, 1⟩, ⟨1, 1, 2⟩] rfl (by decide) rfl

theorem doubled_definedInRange : DefinedInRange doubled := by
  intro i m v start stop hm hv hrange
  have hused := hrange.used
  match i with
  | 0 =>
    cases hm
    omega
  | 1 =>
    cases hm
    obtain rfl : v = 1 := mem_singleton.1 hv
    obtain rfl : 2 = stop := by
      have : lastIndex (fun m => decide (1 ∈ usesOf m)) doubled 0 = some 2 := by decide
      exact some.inj (this.symm.trans hused)
    omega
  | 2 =>
    cases hm
    cases hv
  | i + 3 => cases hm

theorem linearScanVReg_run_doubled :
    run (physical [some 0, some 0]) quiet doubled 4 0 (entry (physical [some 0, some 0])
      (fun _ => 21) []) = .value 42 [] := by
  have hvirtual : run (virtual fun _ => none) quiet doubled 4 0
      (entry (virtual fun _ => none) (fun _ => 21) []) = .value 42 [] := rfl
  have hsame := (linearScanVReg_run linearScanVReg_doubled).2
    (noneOverBackEdges_of_straight (by simp [doubled, MirOp.form])) doubled_definedInRange quiet 4 0 (fun _ => 21) []
    (by rw [hvirtual]; nofun)
  exact hsame.trans hvirtual

/-- A virtual register is defined once more when its value is not needed any longer. -/
def redefined : MirBuffer :=
  [{ op := .vLoadImm32, r0 := 0, imm32 := 1 }, { op := .vStoreToFrame, r0 := 0, disp := 8 },
    { op := .vLoadImm32, r0 := 1, imm32 := 7 }, { op := .vLoadImm32, r0 := 0, imm32 := 2 },
    { op := .vRet, r0 := 1 }]

/-- Its register is another value's by then. -/
theorem linearScanVReg_redefined :
    ¬ ∀ buf table, linearScanVReg buf = .ok table → NoneOverBackEdges buf →
      ∀ env fuel depth frame seen,
        run (virtual fun _ => none) env buf fuel depth
            (entry (virtual fun _ => none) frame seen) ≠ .stuck →
          run (physical table) env buf fuel depth (entry (physical table) frame seen) =
            run (virtual fun _ => none) env buf fuel depth
              (entry (virtual fun _ => none) frame seen) := by
  intro hall
  have htable : linearScanVReg redefined = .ok [some 0, some 0] :=
    linearScanVReg_of_sorted [⟨0, 0, 1⟩, ⟨1, 2, 4⟩] rfl (by decide) rfl
  have hvirtual : run (virtual fun _ => none) quiet redefined 6 0
      (entry (virtual fun _ => none) (fun _ => 0) []) = .value 7 [] := rfl
  have hphysical : run (physical [some 0, some 0]) quiet redefined 6 0
      (entry (physical [some 0, some 0]) (fun _ => 0) []) = .value 2 [] := rfl
  have hsame := hall redefined _ htable (noneOverBackEdges_of_straight (by simp [redefined, MirOp.form])) quiet 6 0
    (fun _ => 0) [] (by rw [hvirtual]; nofun)
  rw [hvirtual, hphysical] at hsame
  cases hsame

end Camel.Jit
