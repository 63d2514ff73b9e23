import Camel.Jit.MirRun

/-! # Removing Dead Stores

    A store to a slot that no way from there reads before it is written again can be
    removed: the runs of the two buffers show the same frames to whatever reads one, and
    end alike. Their frames differ at most in slots that are dead where the runs are.
-/

open Option Function List

namespace Camel.Jit

/-! ## Slots That Are Read -/

/-- An instruction reads a slot, or shows the frame. -/
def readsSlot (m : Mir) (d : Int) : Prop :=
  match m.op.form with
  | .loadFrame _ | .pushSlot => m.disp = d
  | .nativeCall => ∃ p, m.params = some p ∧ d ∈ p.readSlots
  | .helperCall | .driverExit | .poll => True
  | _ => False

def overwrites (m : Mir) (d : Int) : Prop :=
  match m.op.form with
  | .store | .popSlot => m.disp = d
  | .nativeCall => ∃ p, m.params = some p ∧ p.resultVReg = kInvalidVReg ∧ p.resultDisp = d
  | _ => False

/-- Some way from here reads the slot before it is written. -/
inductive SlotLive (buf : MirBuffer) (d : Int) : Nat → Prop
  | read {i : Nat} {m : Mir} (hm : buf[i]? = some m) (hd : readsSlot m d) : SlotLive buf d i
  | flow {i j : Nat} {m : Mir} (hm : buf[i]? = some m) (hd : ¬ overwrites m d)
      (hs : Succ buf i j) (hj : SlotLive buf d j) : SlotLive buf d i

/-- A buffer without some of the stores of another: what these store is never read. -/
structure Cleared (buf buf' : MirBuffer) : Prop where
  length : buf'.length = buf.length
  same : ∀ (i : Nat) m, buf[i]? = some m → buf'[i]? = some m ∨
    (buf'[i]? = some m.removed ∧ m.op.form = .store ∧ ¬ SlotLive buf m.disp (i + 1))

variable {buf buf' : MirBuffer} {m : Mir} {s : MirState VRegId} {f : Frame}

/-- What one instruction leads to in the two runs. -/
inductive NextKept (buf : MirBuffer) (m : Mir) : Next VRegId → Next VRegId → Prop
  | goto {s : MirState VRegId} {f : Frame} (h : ∀ d, SlotLive buf d s.index → f d = s.frame d) :
      NextKept buf m (.goto s) (.goto { s with frame := f })
  | call (frame : Frame) {p : NativeJitCallParams} (hform : m.op.form = .nativeCall)
      (hp : m.params = some p) : NextKept buf m (.call frame p) (.call frame p)
  | done (r : Result) : NextKept buf m (.done r) (.done r)
  | stuck (n : Next VRegId) : NextKept buf m (.done .stuck) n

/-! ## One Instruction -/

variable {env : Env} {depth : Nat} {fresh : VRegId → Option Word}

theorem NextKept.elim {α : Type} {o : Option α} {k k' : α → Next VRegId}
    (h : ∀ a, o = some a → NextKept buf m (k a) (k' a)) :
    NextKept buf m (o.elim (.done .stuck) k) (o.elim (.done .stuck) k') := by
  cases o with
  | none => exact .stuck _
  | some a => exact h a rfl

section
variable (hm : buf[s.index]? = some m) (hf : ∀ d, SlotLive buf d s.index → f d = s.frame d)
include hm hf

/-- Behind an instruction that goes on somewhere and does not write the slot. -/
theorem live_to
    {j : Nat} (hs : Succ buf s.index j) :
    ∀ d, ¬ overwrites m d → SlotLive buf d j → f d = s.frame d :=
  fun d hd hlive => hf d (.flow hm hd hs hlive)

/-- Behind an instruction that goes on to the next one and writes no slot. -/
theorem live_next
    (hform : match m.op.form with
      | .store | .popSlot | .nativeCall | .jump _ | .returnValue | .fixed => False
      | _ => True) :
    ∀ d, SlotLive buf d (s.index + 1) → f d = s.frame d := by
  intro d hlive
  refine live_to hm hf (j := s.index + 1) ⟨m, hm, ?_⟩ d ?_ hlive
  · split <;> simp_all
  · unfold overwrites
    split <;> simp_all

/-- A slot is written. -/
theorem live_update
    (hs : Succ buf s.index (s.index + 1))
    {e : Int} (hover : ∀ d, overwrites m d → d = e) (w : Word) :
    ∀ d, SlotLive buf d (s.index + 1) → update f e w d = update s.frame e w d := by
  intro d hlive
  by_cases hd : d = e
  · rw [hd, update_self, update_self]
  · rw [update_of_ne hd, update_of_ne hd]
    exact live_to hm hf hs d (fun h => hd (hover d h)) hlive

end

/-- The slots of the arguments hold the same. -/
theorem calleeFrame_kept {args : List NativeJitCallArg}
    (hf : ∀ arg ∈ args, arg.vreg = kInvalidVReg → arg.isImm = false →
      f arg.srcDisp = s.frame arg.srcDisp) (frame : Frame) :
    calleeFrame (virtual fresh) { s with frame := f } args frame =
      calleeFrame (virtual fresh) s args frame := by
  induction args generalizing frame with
  | nil => rfl
  | cons arg args ih =>
    have hvalue : argValue (virtual fresh) { s with frame := f } arg =
        argValue (virtual fresh) s arg := by
      unfold argValue
      by_cases hvreg : arg.vreg = kInvalidVReg
      · rw [if_pos hvreg]
        cases himm : arg.isImm with
        | true => rfl
        | false =>
          show some (f arg.srcDisp) = some (s.frame arg.srcDisp)
          rw [hf arg mem_cons_self hvreg himm]
      · rw [if_neg hvreg]
        rfl
    unfold calleeFrame
    rw [hvalue]
    split
    · rfl
    · exact ih (fun a ha => hf a (mem_cons_of_mem arg ha)) _

theorem exit_kept (hf : f = s.frame) (kind pc : Nat) :
    NextKept buf m (exitStep (virtual fresh) env depth kind pc s)
      (exitStep (virtual fresh) env depth kind pc { s with frame := f }) := by
  subst hf
  unfold exitStep
  split
  · exact .stuck _
  · dsimp only
    split
    · exact .done _
    · exact .goto fun _ _ => rfl

/-- One instruction in the two runs. -/
theorem step_kept (htarget : targetOf buf' = targetOf buf) (hm : buf[s.index]? = some m)
    (hf : ∀ d, SlotLive buf d s.index → f d = s.frame d) :
    NextKept buf m (stepMir (virtual fresh) env buf depth m s)
      (stepMir (virtual fresh) env buf' depth m { s with frame := f }) := by
  unfold stepMir
  rw [htarget]
  cases hlack : m.lacksOperand with
  | true => exact .stuck _
  | false =>
  have hread : ∀ d, readsSlot m d → f d = s.frame d := fun d hd => hf d (.read hm hd)
  have hnext := live_next hm hf
  have hwritten : m.op.form = .store ∨ m.op.form = .popSlot → ∀ w d,
      SlotLive buf d (s.index + 1) →
        update f m.disp w d = update s.frame m.disp w d := by
    intro hform w
    refine live_update hm hf ⟨m, hm, ?_⟩ (fun d hd => ?_) w
    · rcases hform with h | h <;> rw [h]
    · rcases hform with h | h <;> simp_all [overwrites]
  simp only [Bool.false_eq_true, if_false, virtual_loc, elim_some]
  cases hform : m.op.form with
  | fixed => exact .stuck _
  | loadFrame w =>
    rw [hform] at hnext
    rw [hread m.disp (by unfold readsSlot; rw [hform])]
    exact .goto (hnext trivial)
  | loadMem w =>
    rw [hform] at hnext
    exact .goto (hnext trivial)
  | constant w =>
    rw [hform] at hnext
    cases w <;> exact .goto (hnext trivial)
  | copy | fromRax =>
    rw [hform] at hnext
    exact .elim fun w _ => .goto (hnext trivial)
  | test | compare =>
    rw [hform] at hnext
    exact .elim fun w _ => .goto (hnext trivial)
  | returnValue =>
    apply NextKept.elim
    intro w _
    split
    · exact .done _
    · exact .stuck _
  | select zero =>
    rw [hform] at hnext
    apply NextKept.elim
    intro old _
    split
    · exact .goto (hnext trivial)
    · exact .stuck _
  | immediate g =>
    rw [hform] at hnext
    exact .elim fun a _ => .goto (hnext trivial)
  | binary g =>
    rw [hform] at hnext
    simp only [binaryStep, virtual_loc]
    split
    · split
      · exact .goto (hnext trivial)
      · exact .done _
      · exact .stuck _
    · exact .stuck _
  | jump c =>
    have hto : ∀ j, Succ buf s.index j → ∀ d, SlotLive buf d j → f d = s.frame d :=
      fun j hs d => live_to hm hf hs d (by simp [overwrites, hform])
    cases ht : targetOf buf m.imm32 with
    | none => exact .stuck _
    | some t =>
      cases c with
      | none => exact .goto (hto t ⟨m, hm, by rw [hform]; exact ht⟩)
      | some c =>
        cases hflags : s.flags with
        | none => exact .stuck _
        | some g =>
          dsimp only
          rw [← hflags]
          split
          · exact .goto (hto t ⟨m, hm, by rw [hform]; exact .inl ht⟩)
          · exact NextKept.goto (s := s.next) (hto (s.index + 1) ⟨m, hm, by rw [hform]; exact .inr rfl⟩)
  | nativeCall =>
    cases hp : m.params with
    | none => exact .stuck _
    | some p =>
      dsimp only
      split
      · exact .done _
      · have hargs : ∀ arg ∈ p.args, arg.vreg = kInvalidVReg → arg.isImm = false →
            f arg.srcDisp = s.frame arg.srcDisp := by
          intro arg harg hvreg himm
          apply hread
          unfold readsSlot
          rw [hform]
          refine ⟨p, hp, mem_map.mpr ⟨arg, ?_, rfl⟩⟩
          simp [harg, hvreg, himm]
        rw [calleeFrame_kept hargs]
        exact .elim fun frame _ => .call frame hform hp
  | helperCall =>
    have hsame : f = s.frame := by
      funext d
      exact hread d (by simp [readsSlot, hform])
    subst hsame
    dsimp only
    split
    · exact .goto fun _ _ => rfl
    · exact .done _
  | driverExit =>
    have hsame : f = s.frame := by
      funext d
      exact hread d (by simp [readsSlot, hform])
    exact exit_kept hsame _ _
  | poll =>
    have hsame : f = s.frame := by
      funext d
      exact hread d (by simp [readsSlot, hform])
    dsimp only
    split
    · exact exit_kept (s := { s with seen := .poll m.imm64 :: s.seen, flags := none }) hsame _ _
    · subst hsame
      exact .goto fun _ _ => rfl
  | pushSlot =>
    rw [hform] at hnext
    rw [hread m.disp (by unfold readsSlot; rw [hform])]
    exact .goto (hnext trivial)
  | pushConstant =>
    rw [hform] at hnext
    exact .goto (hnext trivial)
  | popSlot =>
    dsimp only
    split
    · exact .stuck _
    · exact .goto (hwritten (.inr hform) _)
  | skip =>
    rw [hform] at hnext
    exact .goto (hnext trivial)
  | store =>
    exact .elim fun w _ => .goto (hwritten (.inl hform) w)

/-! ## Whole Runs -/

/-- Jumps land where they did when no instruction changes its pc. -/
theorem targetOf_congr (h : buf'.map Mir.pc = buf.map Mir.pc) : targetOf buf' = targetOf buf := by
  funext pc
  have hfind : ∀ b : MirBuffer, targetOf b pc = (b.map Mir.pc).findIdx? fun p => p == some pc := by
    intro b
    rw [findIdx?_map]
    rfl
  rw [hfind, hfind, h]

theorem Cleared.pcs (C : Cleared buf buf') : buf'.map Mir.pc = buf.map Mir.pc := by
  apply ext_getElem?
  intro i
  rw [getElem?_map, getElem?_map]
  cases hm : buf[i]? with
  | none =>
    have hlen := C.length
    rw [getElem?_eq_none_iff] at hm
    rw [getElem?_eq_none (by omega)]
  | some m =>
    rcases C.same i m hm with h | ⟨h, -, -⟩
    · rw [h]
    · rw [h]
      rfl

/-- A store that is removed. -/
theorem removed_kept (hm : buf[s.index]? = some m) (hf : ∀ d, SlotLive buf d s.index → f d = s.frame d)
    (hform : m.op.form = .store) (hdead : ¬ SlotLive buf m.disp (s.index + 1)) :
    NextKept buf m (stepMir (virtual fresh) env buf depth m s)
      (stepMir (virtual fresh) env buf' depth m.removed { s with frame := f }) := by
  have hskip : stepMir (virtual fresh) env buf' depth m.removed { s with frame := f } =
      .goto { s.next with frame := f } := rfl
  rw [hskip]
  unfold stepMir
  cases hlack : m.lacksOperand with
  | true => exact .stuck _
  | false =>
    simp only [Bool.false_eq_true, if_false, hform, virtual_loc, elim_some]
    cases hw : s.regs m.r0 with
    | none => exact .stuck _
    | some w =>
      apply NextKept.goto (s := s.next.setFrame m.disp w) (f := f)
      intro d hlive
      -- the slot is not read, so it is another one
      have hd : d ≠ m.disp := by
        rintro rfl
        exact hdead hlive
      show f d = update s.frame m.disp w d
      rw [update_of_ne hd]
      have hs : Succ buf s.index (s.index + 1) := ⟨m, hm, by rw [hform]⟩
      refine live_to hm hf hs d (fun hover => hd ?_) hlive
      unfold overwrites at hover
      rw [hform] at hover
      exact hover.symm

/-- What is known when a native call has returned. -/
theorem returned_kept (hm : buf[s.index]? = some m) (hf : ∀ d, SlotLive buf d s.index → f d = s.frame d)
    (hform : m.op.form = .nativeCall) {p : NativeJitCallParams} (hp : m.params = some p) (w : Word)
    (seen : History) :
    ∃ f', returned (virtual fresh) { s with frame := f } p w seen =
        { returned (virtual fresh) s p w seen with frame := f' } ∧
      (returned (virtual fresh) s p w seen).index = s.index + 1 ∧
      ∀ d, SlotLive buf d (s.index + 1) → f' d = (returned (virtual fresh) s p w seen).frame d := by
  have hs : Succ buf s.index (s.index + 1) := ⟨m, hm, by rw [hform]⟩
  unfold returned
  by_cases hvreg : p.resultVReg = kInvalidVReg
  · simp only [hvreg, if_true]
    refine ⟨update f p.resultDisp w, rfl, rfl, live_update hm hf hs (fun d hd => ?_) w⟩
    simp only [overwrites, hform] at hd
    obtain ⟨q, hq, -, hdisp⟩ := hd
    obtain rfl : p = q := some.inj (hp.symm.trans hq)
    exact hdisp.symm
  · simp only [hvreg, if_false, virtual_loc, elim_some]
    refine ⟨f, rfl, rfl, fun d hd => live_to hm hf hs d (fun hover => ?_) hd⟩
    simp only [overwrites, hform] at hover
    obtain ⟨q, hq, hnone, -⟩ := hover
    obtain rfl : p = q := some.inj (hp.symm.trans hq)
    exact hvreg hnone

/-- The run without the stores ends alike. -/
theorem run_kept (C : Cleared buf buf') (fuel : Nat) :
    ∀ {depth : Nat} {s : MirState VRegId} {f : Frame},
      (∀ d, SlotLive buf d s.index → f d = s.frame d) →
      run (virtual fresh) env buf fuel depth s ≠ .stuck →
        run (virtual fresh) env buf' fuel depth { s with frame := f } =
          run (virtual fresh) env buf fuel depth s := by
  have htarget := targetOf_congr C.pcs
  induction fuel with
  | zero => exact fun _ _ => rfl
  | succ fuel ih =>
    intro depth s f hf hrun
    unfold run at hrun ⊢
    dsimp only
    cases hm : buf[s.index]? with
    | none =>
      have hlen := C.length
      rw [getElem?_eq_none_iff] at hm
      rw [getElem?_eq_none (by omega)]
    | some m =>
      rw [hm] at hrun
      dsimp only at hrun ⊢
      obtain ⟨m', hm', hstep⟩ : ∃ m', buf'[s.index]? = some m' ∧
          NextKept buf m (stepMir (virtual fresh) env buf depth m s)
            (stepMir (virtual fresh) env buf' depth m' { s with frame := f }) := by
        rcases C.same s.index m hm with h | ⟨h, hform, hdead⟩
        · exact ⟨m, h, step_kept htarget hm hf⟩
        · exact ⟨m.removed, h, removed_kept hm hf hform hdead⟩
      rw [hm']
      dsimp only
      generalize stepMir (virtual fresh) env buf depth m s = n at hstep hrun ⊢
      generalize stepMir (virtual fresh) env buf' depth m' { s with frame := f } = n' at hstep ⊢
      cases hstep with
      | goto h => exact ih h hrun
      | done r => rfl
      | stuck n => exact absurd rfl hrun
      | call frame hform hp =>
        dsimp only at hrun ⊢
        have hnested := @ih (depth + 1) (entry (virtual fresh) frame s.seen) frame
          (fun d _ => rfl)
        rw [show { entry (virtual fresh) frame s.seen with frame := frame } =
          entry (virtual fresh) frame s.seen from rfl] at hnested
        generalize run (virtual fresh) env buf fuel (depth + 1)
          (entry (virtual fresh) frame s.seen) = r at hrun hnested ⊢
        cases r with
        | value w seen =>
          rw [hnested (by simp)]
          obtain ⟨f', hback, hindex, hf'⟩ := @returned_kept buf m s f fresh hm hf hform _ hp w seen
          dsimp only
          rw [hback]
          exact ih (hindex ▸ hf') hrun
        | fault kind pc seen => rw [hnested (by simp)]
        | left seen => rw [hnested (by simp)]
        | unfinished => rw [hnested (by simp)]
        | stuck => exact absurd rfl hrun

end Camel.Jit
