import Camel.Jit.Peephole

/-! # The Passes Keep Every Run

    The backward sweep keeps at each instruction a set of slots that has every slot some
    way from there reads. A jump takes over the set saved for its target when the target
    lies ahead; a target that is not seen yet lies behind, and then every slot is live.
    So the set is right where no jump lies between two instructions of its target's pc.
-/

namespace Camel.Jit

open List Option Function

/-! ## The Sweep -/

variable {buf : MirBuffer} {m : Mir} {i j k : Nat} {d : Int} {live : LiveSlots}
variable {saved : Nat → Option LiveSlots}

/-- A set has a slot, or stands for every slot. -/
def LiveSlots.Has (live : LiveSlots) (d : Int) : Prop := live d = true ∨ live kAllSlotsLive = true

theorem LiveSlots.Has.insert (h : live.Has d) (c : Int) : (live.insert c).Has d := by
  unfold LiveSlots.Has LiveSlots.insert at *
  rcases h with h | h
  · left
    by_cases hc : d = c
    · rw [hc, update_self]
    · rw [update_of_ne hc, h]
  · right
    by_cases hc : kAllSlotsLive = c
    · rw [hc, update_self]
    · rw [update_of_ne hc, h]

theorem LiveSlots.has_insert (live : LiveSlots) (d : Int) : (live.insert d).Has d := by
  left
  show update live d true d = true
  rw [update_self]

theorem LiveSlots.has_all (live : LiveSlots) (d : Int) : (live.insert kAllSlotsLive).Has d := by
  right
  show update live kAllSlotsLive true kAllSlotsLive = true
  rw [update_self]

theorem LiveSlots.Has.erase (h : live.Has d) {c : Int} (hd : c ≠ d) (hc : c ≠ kAllSlotsLive) :
    (live.erase c).Has d := by
  unfold LiveSlots.Has LiveSlots.erase at *
  rw [update_of_ne (Ne.symm hd), update_of_ne (Ne.symm hc)]
  exact h

theorem LiveSlots.Has.foldl (h : live.Has d) (cs : List Int) : (cs.foldl LiveSlots.insert live).Has d := by
  induction cs generalizing live with
  | nil => exact h
  | cons c cs ih => exact ih (h.insert c)

theorem LiveSlots.has_foldl {cs : List Int} (hd : d ∈ cs) (live : LiveSlots) :
    (cs.foldl LiveSlots.insert live).Has d := by
  induction cs generalizing live with
  | nil => cases hd
  | cons c cs ih =>
    rcases mem_cons.mp hd with rfl | hd
    · exact (live.has_insert d).foldl cs
    · exact ih hd _

/-- What the operations of a form do to the set. -/
def formTransfer (saved : Nat → Option LiveSlots) (live : LiveSlots) (m : Mir) : Form → Mir × LiveSlots
  | .returnValue => (m, fun _ => false)
  | .jump _ =>
    match saved m.imm32 with
    | some l => (m, live.union l)
    | none => (m, live.insert kAllSlotsLive)
  | .pushSlot | .loadFrame _ => (m, live.insert m.disp)
  | .popSlot => (m, live.erase m.disp)
  | .nativeCall =>
    match m.params with
    | none => (m, live)
    | some p =>
      let live := if p.resultVReg = kInvalidVReg then live.erase p.resultDisp else live
      (m, p.readSlots.foldl LiveSlots.insert live)
  | .helperCall | .driverExit | .poll => (m, live.insert kAllSlotsLive)
  | .store =>
    if live m.disp = false ∧ live kAllSlotsLive = false then (m.removed, live)
    else (m, live.erase m.disp)
  | _ => (m, live)

/-- No kind of instruction is classified otherwise than it behaves. -/
theorem transfer_eq (h : m.op.form ≠ .fixed) :
    transfer saved live m = formTransfer saved live m m.op.form := by
  obtain ⟨op, r0, r1, disp, imm32, imm64, params, pc⟩ := m
  cases op <;> first | rfl | exact absurd rfl h

/-- No slot that is written has the displacement that stands for every slot. -/
def WritesSlots (m : Mir) : Prop :=
  match m.op.form with
  | .store | .popSlot => m.disp ≠ kAllSlotsLive
  | .nativeCall => ∀ p, m.params = some p → p.resultDisp ≠ kAllSlotsLive
  | _ => True

/-- What an instruction reads is in the set in front of it. -/
theorem transfer_read (h : m.op.form ≠ .fixed) (hd : readsSlot m d) :
    (transfer saved live m).2.Has d := by
  rw [transfer_eq h]
  unfold readsSlot at hd
  split at hd
  · next hform =>
    rw [hform, ← hd]
    exact live.has_insert m.disp
  · next hform =>
    rw [hform, ← hd]
    exact live.has_insert m.disp
  · next hform =>
    obtain ⟨p, hp, hd⟩ := hd
    rw [hform]
    show (match m.params with | none => _ | some p => _ : Mir × LiveSlots).2.Has d
    rw [hp]
    exact LiveSlots.has_foldl hd _
  · next hform =>
    rw [hform]
    exact live.has_all d
  · next hform =>
    rw [hform]
    exact live.has_all d
  · next hform =>
    rw [hform]
    exact live.has_all d
  · exact hd.elim

/-- What is in the set behind an instruction is in the one in front unless it is written. -/
theorem transfer_keep (h : m.op.form ≠ .fixed) (hreturn : m.op.form ≠ .returnValue)
    (hslots : WritesSlots m) (hover : ¬ overwrites m d) (hd : live.Has d) :
    (transfer saved live m).2.Has d := by
  rw [transfer_eq h]
  unfold overwrites at hover
  unfold WritesSlots at hslots
  cases hform : m.op.form with
  | fixed => exact absurd hform h
  | returnValue => exact absurd hform hreturn
  | jump c =>
    show (match saved m.imm32 with | some l => _ | none => _ : Mir × LiveSlots).2.Has d
    cases saved m.imm32 with
    | none => exact hd.insert _
    | some l =>
      rcases hd with hd | hd
      · exact .inl (by simp [LiveSlots.union, hd])
      · exact .inr (by simp [LiveSlots.union, hd])
  | pushSlot | loadFrame w => exact hd.insert _
  | helperCall | driverExit | poll => exact live.has_all d
  | popSlot =>
    rw [hform] at hover hslots
    exact hd.erase hover hslots
  | store =>
    rw [hform] at hover hslots
    show (if _ then _ else _ : Mir × LiveSlots).2.Has d
    split
    · exact hd
    · exact hd.erase hover hslots
  | nativeCall =>
    rw [hform] at hover hslots
    show (match m.params with | none => _ | some p => _ : Mir × LiveSlots).2.Has d
    cases hp : m.params with
    | none => exact hd
    | some p =>
      apply LiveSlots.Has.foldl
      split
      · next hvreg => exact hd.erase (fun hdisp => hover ⟨p, hp, hvreg, hdisp⟩) (hslots p hp)
      · exact hd
  | loadMem w | constant w | copy | fromRax | test | compare | select z | immediate f | binary f
  | pushConstant | skip => exact hd

/-- A jump takes over what is live at its target. -/
theorem transfer_jump {c : Option Cond} (hform : m.op.form = .jump c)
    (hd : ∀ l, saved m.imm32 = some l → l.Has d) : (transfer saved live m).2.Has d := by
  rw [transfer_eq (by simp [hform]), hform]
  show (match saved m.imm32 with | some l => _ | none => _ : Mir × LiveSlots).2.Has d
  cases hl : saved m.imm32 with
  | none => exact live.has_all d
  | some l =>
    rcases hd l hl with hd | hd
    · exact .inl (by simp [LiveSlots.union, hd])
    · exact .inr (by simp [LiveSlots.union, hd])

/-- Only a store to a slot that is not live is removed. -/
theorem transfer_mir (h : m.op.form ≠ .fixed) :
    (transfer saved live m).1 = m ∨
      ((transfer saved live m).1 = m.removed ∧ m.op.form = .store ∧ ¬ live.Has m.disp) := by
  rw [transfer_eq h]
  unfold formTransfer
  split
  · exact .inl rfl
  · split <;> exact .inl rfl
  · exact .inl rfl
  · exact .inl rfl
  · exact .inl rfl
  · split <;> exact .inl rfl
  · exact .inl rfl
  · exact .inl rfl
  · exact .inl rfl
  · next hform =>
    split
    · next hdead =>
      refine .inr ⟨rfl, hform, fun hlive => ?_⟩
      rcases hlive with hlive | hlive
      · rw [hdead.1] at hlive
        cases hlive
      · rw [hdead.2] at hlive
        cases hlive
    · exact .inl rfl
  · exact .inl rfl

/-! ## What Is Live -/

/-- No jump lies between two instructions that carry the pc it goes to. -/
def JumpsOutside (buf : MirBuffer) : Prop :=
  ∀ (i a b : Nat) m m' m'', buf[i]? = some m → isJumpOp m.op = true → buf[a]? = some m' →
    buf[b]? = some m'' → m'.pc = some m.imm32 → m''.pc = some m.imm32 → a ≤ i → ¬ i < b

/-- Buffers the sweep is right for. -/
structure Sweepable (buf : MirBuffer) : Prop where
  virtual : ∀ m ∈ buf, m.op.form ≠ .fixed
  slots : ∀ m ∈ buf, WritesSlots m
  outside : JumpsOutside buf

variable {targets : List Nat}

/-- The set saved for a target is the one in front of the first instruction of its pc. -/
theorem saved_target {pc : Nat} {l : LiveSlots} (hpc : targets.contains pc = true)
    (h : (deadStores targets buf).targetLiveness pc = some l) :
    ∃ c m, buf[c]? = some m ∧ m.pc = some pc ∧
      (∀ c' m', c' < c → buf[c']? = some m' → m'.pc ≠ some pc) ∧
      l = (deadStores targets (buf.drop c)).liveSlots := by
  induction buf with
  | nil => cases h
  | cons m rest ih =>
    by_cases hm : m.pc = some pc
    · refine ⟨0, m, rfl, hm, fun c' m' hc => absurd hc (Nat.not_lt_zero c'), ?_⟩
      unfold deadStores at h
      simp only [hm, hpc, if_true, update_self] at h
      exact (some.inj h).symm
    · have hrest : (deadStores targets rest).targetLiveness pc = some l := by
        unfold deadStores at h
        dsimp only at h
        cases hq : m.pc with
        | none =>
          rw [hq] at h
          exact h
        | some q =>
          rw [hq] at h hm
          dsimp only at h
          split at h
          · rw [update_of_ne (fun heq => hm (congrArg some heq.symm))] at h
            exact h
          · exact h
      obtain ⟨c, m', hc, hpc', hfirst, hl⟩ := ih hrest
      refine ⟨c + 1, m', hc, hpc', fun c' m'' hlt hc' => ?_, hl⟩
      cases c' with
      | zero =>
        obtain rfl : m = m'' := by simpa using hc'
        exact hm
      | succ c' => exact hfirst c' m'' (by omega) (by simpa using hc')

/-- One instruction of the sweep. -/
theorem deadStores_drop (hm : buf[k]? = some m) :
    (deadStores targets (buf.drop k)).liveSlots =
      (transfer (deadStores targets (buf.drop (k + 1))).targetLiveness
        (deadStores targets (buf.drop (k + 1))).liveSlots m).2 := by
  obtain ⟨hlt, rfl⟩ := List.getElem?_eq_some_iff.mp hm
  rw [drop_eq_getElem_cons hlt]
  rfl

/-- A slot that some way from an instruction reads is in the set in front of it. -/
theorem live_sound (S : Sweepable buf) (h : SlotLive buf d k) :
    (deadStores (jumpTargets buf) (buf.drop k)).liveSlots.Has d := by
  induction h with
  | @read k m hm hd =>
    rw [deadStores_drop hm]
    exact transfer_read (S.virtual m (mem_of_getElem? hm)) hd
  | @flow k j m hm hover hs hlive ih =>
    have hmem := mem_of_getElem? hm
    rw [deadStores_drop hm]
    obtain ⟨m₀, hm₀, hs⟩ := hs
    obtain rfl : m = m₀ := some.inj (hm.symm.trans hm₀)
    -- where control falls through, and where it jumps
    have hfall : j = k + 1 → m.op.form ≠ .returnValue →
        (transfer (deadStores (jumpTargets buf) (buf.drop (k + 1))).targetLiveness
          (deadStores (jumpTargets buf) (buf.drop (k + 1))).liveSlots m).2.Has d := by
      rintro rfl hreturn
      exact transfer_keep (S.virtual m hmem) hreturn (S.slots m hmem) hover ih
    have hjump : ∀ c, m.op.form = .jump c → targetOf buf m.imm32 = some j →
        (transfer (deadStores (jumpTargets buf) (buf.drop (k + 1))).targetLiveness
          (deadStores (jumpTargets buf) (buf.drop (k + 1))).liveSlots m).2.Has d := by
      intro c hform ht
      have hop := isJumpOp_of_form m.op ⟨c, hform⟩
      have htarget : (jumpTargets buf).contains m.imm32 = true := by
        rw [contains_iff_mem]
        exact mem_map_of_mem (mem_filter.mpr ⟨hmem, hop⟩)
      apply transfer_jump hform
      intro l hl
      obtain ⟨c', m', hc', hpc', hfirst, rfl⟩ := saved_target htarget hl
      rw [getElem?_drop] at hc'
      obtain ⟨hlt, hcarries, hbefore⟩ := List.findIdx?_eq_some_iff_getElem.mp ht
      have hj : buf[j]? = some buf[j] := getElem?_eq_getElem hlt
      have hjpc : buf[j].pc = some m.imm32 := by simpa using hcarries
      -- the first instruction of the pc is not in front of the jump, so it is the one found
      have hahead : k < j := by
        by_contra hge
        exact S.outside k j (k + 1 + c') m _ m' hm hop hj hc' hjpc hpc' (by omega) (by omega)
      have heq : k + 1 + c' = j := by
        rcases lt_trichotomy (k + 1 + c') j with hlt' | heq | hgt
        · have hc'' : buf[k + 1 + c']? = some buf[k + 1 + c'] := getElem?_eq_getElem (by omega)
          have := hbefore (k + 1 + c') hlt'
          rw [hc''] at hc'
          obtain rfl := some.inj hc'
          simp [hpc'] at this
        · exact heq
        · refine absurd hjpc (hfirst (j - (k + 1)) buf[j] (by omega) ?_)
          rw [getElem?_drop, show k + 1 + (j - (k + 1)) = j by omega]
          exact hj
      rw [drop_drop, heq]
      exact ih
    split at hs
    · next hform => exact hjump _ hform hs
    · next hform =>
      rcases hs with ht | hnext
      · exact hjump _ hform ht
      · exact hfall hnext (by simp [hform])
    · exact hs.elim
    · exact hs.elim
    · next hreturn _ => exact hfall hs hreturn

/-! ## The Passes -/

theorem getElem?_deadStores (targets : List Nat) (buf : MirBuffer) (i : Nat) :
    (deadStores targets buf).buf[i]? = (buf[i]?).map fun m =>
      (transfer (deadStores targets (buf.drop (i + 1))).targetLiveness
        (deadStores targets (buf.drop (i + 1))).liveSlots m).1 := by
  induction buf generalizing i with
  | nil => rfl
  | cons m rest ih =>
    cases i with
    | zero => rfl
    | succ i => exact ih i

theorem deadStores_length (targets : List Nat) (buf : MirBuffer) :
    (deadStores targets buf).buf.length = buf.length := by
  induction buf with
  | nil => rfl
  | cons m rest ih => exact congrArg (· + 1) ih

/-- The sweep removes only stores to slots that nothing reads. -/
theorem dead_cleared (S : Sweepable buf) : Cleared buf (eliminateDeadFrameStores buf) := by
  refine ⟨deadStores_length _ buf, fun i m hm => ?_⟩
  unfold eliminateDeadFrameStores
  rw [getElem?_deadStores, hm, map_some]
  rcases transfer_mir (S.virtual m (mem_of_getElem? hm)) with h | ⟨h, hform, hdead⟩
  · exact .inl (congrArg some h)
  · exact .inr ⟨congrArg some h, hform, fun hlive => hdead (live_sound S hlive)⟩

/-- The first pass looks for moves of fixed registers. -/
theorem argSetup_id (h : ∀ m ∈ buf, m.op.form ≠ .fixed) : optimizeWin64RedundantArgSetup buf = buf := by
  fun_induction optimizeWin64RedundantArgSetup buf with
  | case1 a b c d rest hmoves =>
    have hop : a.op = .movRegReg := by
      have hmove := hmoves.1
      simp only [isMove, Bool.and_eq_true, beq_iff_eq] at hmove
      exact hmove.1.1
    exact absurd (by rw [hop]; rfl) (h a mem_cons_self)
  | case2 a b c d rest hmoves ih =>
    rw [ih fun m hm => h m (mem_cons_of_mem a hm)]
  | case3 buf hshort => rfl

/-- What the peephole makes of an instruction keeps its pc, and is a copy, is nothing, or is the
    instruction itself. -/
theorem peephole_mir {fs : Bool} {m' : Mir} (h : (optimizePeephole buf fs)[i]? = some m') :
    ∃ m, buf[i]? = some m ∧ m'.pc = m.pc ∧ (m' = m ∨ m'.op = .vCopy ∨ m'.op = .nop) := by
  have C := peephole_cleared buf fs
  have hlt : i < (forwardedBuf buf fs).length := C.length ▸ (List.getElem?_eq_some_iff.mp h).1
  have hforward := C.same i _ (getElem?_eq_getElem hlt)
  have hget := getElem?_eq_getElem hlt
  rw [getElem?_forwardedBuf] at hget
  obtain ⟨m, hm, hm₁⟩ := map_eq_some_iff.mp hget
  rw [← hm₁, h] at hforward
  refine ⟨m, hm, ?_⟩
  rcases hforward with heq | ⟨heq, -, -⟩
  · obtain rfl := some.inj heq
    refine ⟨forwardAt_pc i m, ?_⟩
    unfold forwardAt
    split
    · cases pendingAt buf fs i m.disp with
      | none => exact .inl rfl
      | some e => exact .inr (.inl rfl)
    · exact .inl rfl
  · obtain rfl := some.inj heq
    exact ⟨forwardAt_pc i m, .inr (.inr rfl)⟩

/-- The sweep is right for what the peephole leaves. -/
theorem Sweepable.peephole (S : Sweepable buf) (fs : Bool) : Sweepable (optimizePeephole buf fs) := by
  constructor
  · intro m' hm'
    obtain ⟨i, hi⟩ := mem_iff_getElem?.mp hm'
    obtain ⟨m, hm, -, rfl | hop | hop⟩ := peephole_mir hi
    · exact S.virtual m' (mem_of_getElem? hm)
    · simp [hop, MirOp.form]
    · simp [hop, MirOp.form]
  · intro m' hm'
    obtain ⟨i, hi⟩ := mem_iff_getElem?.mp hm'
    obtain ⟨m, hm, -, rfl | hop | hop⟩ := peephole_mir hi
    · exact S.slots m' (mem_of_getElem? hm)
    · simp [WritesSlots, hop, MirOp.form]
    · simp [WritesSlots, hop, MirOp.form]
  · intro i a b m m' m'' hi hjump ha hb hpc hpc' hai
    obtain ⟨m₁, hm₁, -, rfl | hop | hop⟩ := peephole_mir hi
    · obtain ⟨m₂, hm₂, hpc₂, -⟩ := peephole_mir ha
      obtain ⟨m₃, hm₃, hpc₃, -⟩ := peephole_mir hb
      exact S.outside i a b m m₂ m₃ hm₁ hjump hm₂ hm₃ (hpc₂ ▸ hpc) (hpc₃ ▸ hpc') hai
    · rw [hop] at hjump
      cases hjump
    · rw [hop] at hjump
      cases hjump

/-- The passes keep every run: its value or its fault, and what it shows of its frame on the way. -/
theorem runMirOptimizationPasses_run (D : DefinedOnce buf) (S : Sweepable buf)
    (keepValuesInRegisters : Bool) (env : Env) (fuel depth : Nat) (frame : Frame) (seen : History)
    (hrun : run (virtual fun _ => none) env buf fuel depth
      (entry (virtual fun _ => none) frame seen) ≠ .stuck) :
    run (virtual fun _ => none) env (runMirOptimizationPasses buf keepValuesInRegisters) fuel depth
        (entry (virtual fun _ => none) frame seen) =
      run (virtual fun _ => none) env buf fuel depth (entry (virtual fun _ => none) frame seen) := by
  have hpeephole := @run_optimizePeephole buf keepValuesInRegisters env D fuel depth frame seen hrun
  have hpasses : runMirOptimizationPasses buf keepValuesInRegisters =
      eliminateDeadFrameStores (optimizePeephole buf keepValuesInRegisters) := by
    show eliminateDeadFrameStores (optimizePeephole (optimizeRemoveNoopMovRaxRax
      (optimizeWin64RedundantArgSetup buf)) keepValuesInRegisters) = _
    rw [argSetup_id S.virtual]
    rfl
  rw [hpasses, ← hpeephole]
  rw [← hpeephole] at hrun
  exact run_kept (dead_cleared (S.peephole keepValuesInRegisters)) fuel (fun _ _ => rfl) hrun

theorem definedOnce_of_pairwise (h : buf.Pairwise fun m m' => ∀ v ∈ defsOf m, v ∉ defsOf m') :
    DefinedOnce buf := by
  intro i j m m' v hij hm hm' hv hv'
  obtain ⟨hi, rfl⟩ := List.getElem?_eq_some_iff.mp hm
  obtain ⟨hj, rfl⟩ := List.getElem?_eq_some_iff.mp hm'
  exact absurd hv' (pairwise_iff_getElem.mp h i j hi hj hij v hv)

/-- A slot is stored, read back and added to itself; the store is dead then. -/
def storedBack : MirBuffer :=
  [{ op := .vLoadFromFrame, r0 := 0, disp := 8 }, { op := .vStoreToFrame, r0 := 0, disp := 16 },
    { op := .vLoadFromFrame, r0 := 1, disp := 16 }, { op := .vAdd, r0 := 2, r1 := 0, imm32 := 1 },
    { op := .vRet, r0 := 2 }]

theorem storedBack_sweepable : Sweepable storedBack := by
  refine ⟨by decide, ?_, fun i a b m m' m'' hm hjump => ?_⟩
  · simp [storedBack, WritesSlots, MirOp.form, kAllSlotsLive]
  · have hstraight : ∀ m ∈ storedBack, isJumpOp m.op = false := by decide
    rw [hstraight m (mem_of_getElem? hm)] at hjump
    cases hjump

theorem runMirOptimizationPasses_run_storedBack :
    run (virtual fun _ => none) quiet (runMirOptimizationPasses storedBack true) 6 0
      (entry (virtual fun _ => none) (fun _ => 21) []) = .value 42 [] := by
  have hrun : run (virtual fun _ => none) quiet storedBack 6 0
      (entry (virtual fun _ => none) (fun _ => 21) []) = .value 42 [] := rfl
  have hsame := runMirOptimizationPasses_run (definedOnce_of_pairwise (by decide))
    storedBack_sweepable true quiet 6 0 (fun _ => 21) [] (by rw [hrun]; simp)
  exact hsame.trans hrun

/-- A loop whose jump back lies between two instructions of the pc it goes to. The slot it
    stores is read in the next round. -/
def jumpInside : MirBuffer :=
  [{ op := .vLoadFromFrame, r0 := 0, disp := 8, pc := some 1 },
    { op := .vLoadFromFrame, r0 := 2, disp := 16 }, { op := .vTest, r0 := 2 },
    { op := .jneRel32, imm32 := 2 }, { op := .vLoadImm32, r0 := 1, imm32 := 5 },
    { op := .vStoreToFrame, r0 := 1, disp := 8 }, { op := .pushImm64, imm64 := 1 },
    { op := .popFrameSlot, disp := 16 }, { op := .jmpRel32, imm32 := 1 },
    { op := .nop, pc := some 1 }, { op := .vRet, r0 := 0, pc := some 2 }]

/-- The sweep takes the set of the second instruction of the pc, which the jump does not go to. -/
theorem runMirOptimizationPasses_jumpInside :
    ¬ ∀ buf, DefinedOnce buf → (∀ m ∈ buf, m.op.form ≠ .fixed) → (∀ m ∈ buf, WritesSlots m) →
      (∀ m ∈ buf, isJumpOp m.op = true → ∃ m' ∈ buf, m'.pc = some m.imm32) →
      ∀ keepValuesInRegisters env fuel depth frame seen,
        run (virtual fun _ => none) env buf fuel depth
            (entry (virtual fun _ => none) frame seen) ≠ .stuck →
          run (virtual fun _ => none) env (runMirOptimizationPasses buf keepValuesInRegisters) fuel
              depth (entry (virtual fun _ => none) frame seen) =
            run (virtual fun _ => none) env buf fuel depth
              (entry (virtual fun _ => none) frame seen) := by
  intro hall
  have hrun : run (virtual fun _ => none) quiet jumpInside 20 0
      (entry (virtual fun _ => none) (fun _ => 0) []) = .value 5 [] := rfl
  have hpasses : run (virtual fun _ => none) quiet (runMirOptimizationPasses jumpInside true) 20 0
      (entry (virtual fun _ => none) (fun _ => 0) []) = .value 0 [] := rfl
  have hsame := hall jumpInside (definedOnce_of_pairwise (by decide)) (by decide)
    (by simp [jumpInside, WritesSlots, MirOp.form, kAllSlotsLive]) (by decide) true quiet 20 0
    (fun _ => 0) [] (by rw [hrun]; simp)
  rw [hrun, hpasses] at hsame
  cases hsame

end Camel.Jit
