import Camel.Jit.MirStores
import Camel.Jit.VRegRun

/-! # The Peephole Keeps Every Run

    What the peephole knows of a slot is what the last store put there: while the slot
    is pending the register still holds its value. A load of the slot can then copy the
    register, and a store to it makes the one before dead unless it has been read.

    A virtual register is defined once, so nothing changes it between the store and the
    load: a store in front of the definition would have read it undefined.
-/

namespace Camel.Jit

open List Option Function

/-! ## What Is Pending -/

/-- What is known of the slots at an instruction. -/
def pendingAt (buf : MirBuffer) (fs : Bool) (i : Nat) : PendingStore :=
  match buf[i]? with
  | some m => atTarget (jumpTargets buf) m (peepholeAt buf fs i).pendingStore
  | none => (peepholeAt buf fs i).pendingStore

variable {buf : MirBuffer} {fs : Bool} {targets : List Nat} {m : Mir} {i j k : Nat} {d : Int}
variable {e : StoreInfo} {s : Peephole}

theorem atTarget_some {p : PendingStore} (h : atTarget targets m p d = some e) : p d = some e := by
  unfold atTarget at h
  by_cases ht : isTarget targets m = true
  · rw [if_pos ht] at h
    cases h
  · rw [if_neg ht] at h
    exact h

theorem pendingAt_some (h : pendingAt buf fs i d = some e) :
    (peepholeAt buf fs i).pendingStore d = some e := by
  unfold pendingAt at h
  cases hm : buf[i]? with
  | none =>
    rw [hm] at h
    exact h
  | some m =>
    rw [hm] at h
    exact atTarget_some h

/-- What is pending behind an instruction: its own store, or what was pending and is not written. -/
theorem pending_step (hm : s.buf[i]? = some m)
    (h : (peepholeStep targets fs s i).pendingStore d = some e) :
    isBarrierOp m.op = false ∧
      ((m.op = .vStoreToFrame ∧ m.disp = d ∧ e = ⟨m.r0, i, false⟩) ∨
        (¬ (writesFrameSlot m.op = true ∧ m.disp = d) ∧
          ∃ e', atTarget targets m s.pendingStore d = some e' ∧ e'.vreg = e.vreg ∧
            e'.index = e.index ∧
            (e.read = false → e'.read = false ∧ ¬ (readsFrameSlot m.op = true ∧ m.disp = d)))) := by
  unfold peepholeStep at h
  rw [hm] at h
  dsimp only at h
  split at h
  · next hskip =>
    -- an instruction that does nothing
    refine ⟨?_, .inr ⟨?_, e, h, rfl, rfl, fun he => ⟨he, ?_⟩⟩⟩ <;>
      rcases hskip with hop | hop <;> simp [hop, isBarrierOp, isJumpOp, writesFrameSlot, readsFrameSlot]
  split at h
  · cases h
  next hbarrier =>
  refine ⟨by simpa using hbarrier, ?_⟩
  split at h
  · next hwrites =>
    have hreads : readsFrameSlot m.op = false := by
      revert hwrites
      cases m.op <;> decide
    split at h
    · next hop =>
      dsimp only at h
      by_cases hd : m.disp = d
      · rw [hd, update_self] at h
        exact .inl ⟨hop, hd, (some.inj h).symm⟩
      · rw [update_of_ne (Ne.symm hd)] at h
        exact .inr ⟨fun h => hd h.2, e, h, rfl, rfl, fun he => ⟨he, fun h => hd h.2⟩⟩
    · dsimp only at h
      by_cases hd : m.disp = d
      · rw [hd, update_self] at h
        cases h
      · rw [update_of_ne (Ne.symm hd)] at h
        exact .inr ⟨fun h => hd h.2, e, h, rfl, rfl, fun he => ⟨he, fun h => hd h.2⟩⟩
  next hwrites =>
  refine .inr ⟨fun h => hwrites h.1, ?_⟩
  split at h
  · next hreads =>
    split at h
    · next hnone =>
      dsimp only at h
      refine ⟨e, h, rfl, rfl, fun he => ⟨he, fun hr => ?_⟩⟩
      rw [← hr.2, hnone] at h
      cases h
    · next info hinfo =>
      dsimp only at h
      by_cases hd : m.disp = d
      · rw [hd, update_self] at h
        obtain rfl := some.inj h
        exact ⟨info, hd ▸ hinfo, rfl, rfl, fun he => by cases he⟩
      · rw [update_of_ne (Ne.symm hd)] at h
        exact ⟨e, h, rfl, rfl, fun he => ⟨he, fun h => hd h.2⟩⟩
  · next hreads => exact ⟨e, h, rfl, rfl, fun he => ⟨he, fun h => hreads h.1⟩⟩

/-- A load that is forwarded, at its place. -/
def forwardAt (buf : MirBuffer) (fs : Bool) (i : Nat) (m : Mir) : Mir :=
  if m.op = .vLoadFromFrame ∧ fs = true then
    (pendingAt buf fs i m.disp).elim m m.forwarded
  else m

/-- A store another one overwrites before anything reads its slot. -/
def Overwritten (buf : MirBuffer) (fs : Bool) (i : Nat) (m : Mir) : Prop :=
  ∃ k m' e, buf[k]? = some m' ∧ m'.op = .vStoreToFrame ∧ m'.disp = m.disp ∧
    pendingAt buf fs k m.disp = some e ∧ e.index = i ∧ e.read = false

/-- The state of the peephole in front of an instruction. -/
structure PeepholeState (buf : MirBuffer) (fs : Bool) (i : Nat) (s : Peephole) : Prop where
  length : s.buf.length = buf.length
  ahead : ∀ j, i ≤ j → s.buf[j]? = buf[j]?
  behind : ∀ j m, j < i → buf[j]? = some m → s.buf[j]? = some (forwardAt buf fs j m) ∨
    (s.buf[j]? = some m.removed ∧ m.op = .vStoreToFrame ∧ Overwritten buf fs j m)
  pending : ∀ d e, s.pendingStore d = some e → e.index < i ∧
    ∃ m, buf[e.index]? = some m ∧ m.op = .vStoreToFrame ∧ m.disp = d ∧ m.r0 = e.vreg

theorem pendingAt_eq (hm : buf[i]? = some m) :
    pendingAt buf fs i = atTarget (jumpTargets buf) m (peepholeAt buf fs i).pendingStore := by
  unfold pendingAt
  rw [hm]

theorem forwardAt_of_ne (h : m.op ≠ .vLoadFromFrame) : forwardAt buf fs i m = m :=
  if_neg fun hm => h hm.1

/-- What a step does to the buffer: the instruction itself may be a load that is forwarded, and a
    store may remove another one. -/
theorem peepholeStep_buf (h : s.buf[i]? = some m)
    (hp : atTarget targets m s.pendingStore = pendingAt buf fs i) :
    (peepholeStep targets fs s i).buf = s.buf.set i (forwardAt buf fs i m) ∨
      (m.op = .vStoreToFrame ∧ (peepholeStep targets fs s i).buf =
        removeUnread s.buf (pendingAt buf fs i m.disp)) := by
  have hsame : s.buf.set i m = s.buf := by
    apply ext_getElem?
    intro k
    rw [getElem?_set]
    split
    · next hik =>
      subst hik
      rw [h]
      split
      · rfl
      · next hlt => exact absurd (List.getElem?_eq_some_iff.mp h).1 hlt
    · rfl
  unfold peepholeStep
  rw [h]
  dsimp only
  rw [hp]
  split
  · next hskip =>
    rw [forwardAt_of_ne (by rcases hskip with hop | hop <;> simp [hop]), hsame]
    exact .inl rfl
  split
  · next hbarrier =>
    rw [forwardAt_of_ne (by rintro hop; simp [hop, isBarrierOp, isJumpOp] at hbarrier), hsame]
    exact .inl rfl
  split
  · next hwrites =>
    split
    · next hop => exact .inr ⟨hop, rfl⟩
    · rw [forwardAt_of_ne (by rintro hop; simp [hop, writesFrameSlot] at hwrites), hsame]
      exact .inl rfl
  split
  · split
    · next hnone =>
      left
      show s.buf = _
      unfold forwardAt
      rw [hnone]
      split <;> exact hsame.symm
    · next info hinfo =>
      left
      show (if _ then _ else _) = _
      unfold forwardAt
      rw [hinfo]
      split
      · rfl
      · exact hsame.symm
  · next hreads =>
    rw [forwardAt_of_ne (by rintro hop; simp [hop, readsFrameSlot] at hreads), hsame]
    exact .inl rfl

/-- The instruction itself is dealt with. -/
theorem PeepholeState.set (h : PeepholeState buf fs i s) (hm : buf[i]? = some m) {s' : Peephole}
    (hbuf : s'.buf = s.buf.set i (forwardAt buf fs i m)) :
    s'.buf.length = buf.length ∧ (∀ j, i + 1 ≤ j → s'.buf[j]? = buf[j]?) ∧
      ∀ j m, j < i + 1 → buf[j]? = some m → s'.buf[j]? = some (forwardAt buf fs j m) ∨
        (s'.buf[j]? = some m.removed ∧ m.op = .vStoreToFrame ∧ Overwritten buf fs j m) := by
  have hlt : i < s.buf.length := h.length ▸ (List.getElem?_eq_some_iff.mp hm).1
  rw [hbuf]
  refine ⟨length_set.trans h.length, fun j hj => ?_, fun j m' hj hm' => ?_⟩
  · rw [getElem?_set_ne (by omega)]
    exact h.ahead j (by omega)
  · by_cases hji : j = i
    · subst hji
      obtain rfl : m = m' := some.inj (hm.symm.trans hm')
      exact .inl (getElem?_set_self hlt)
    · rw [getElem?_set_ne (Ne.symm hji)]
      exact h.behind j m' (by omega) hm'

/-- The store in front of another one is removed unless it has been read. -/
theorem PeepholeState.remove (h : PeepholeState buf fs i s) (hm : buf[i]? = some m)
    (hop : m.op = .vStoreToFrame) (hp : ∀ d e, pendingAt buf fs i d = some e → s.pendingStore d = some e)
    {s' : Peephole} (hbuf : s'.buf = removeUnread s.buf (pendingAt buf fs i m.disp)) :
    s'.buf.length = buf.length ∧ (∀ j, i + 1 ≤ j → s'.buf[j]? = buf[j]?) ∧
      ∀ j m, j < i + 1 → buf[j]? = some m → s'.buf[j]? = some (forwardAt buf fs j m) ∨
        (s'.buf[j]? = some m.removed ∧ m.op = .vStoreToFrame ∧ Overwritten buf fs j m) := by
  -- a store is not a load, so it stands where it stood
  have hself : ∀ j m', j < i + 1 → buf[j]? = some m' → s.buf[j]? = some (forwardAt buf fs j m') ∨
      (s.buf[j]? = some m'.removed ∧ m'.op = .vStoreToFrame ∧ Overwritten buf fs j m') := by
    intro j m' hj hm'
    by_cases hji : j = i
    · subst hji
      obtain rfl : m = m' := some.inj (hm.symm.trans hm')
      rw [forwardAt_of_ne (by simp [hop])]
      exact .inl ((h.ahead j (le_refl j)).trans hm)
    · exact h.behind j m' (by omega) hm'
  have hahead : ∀ j, i + 1 ≤ j → s.buf[j]? = buf[j]? := fun j hj => h.ahead j (by omega)
  rw [hbuf]
  cases hinfo : pendingAt buf fs i m.disp with
  | none => exact ⟨h.length, hahead, hself⟩
  | some info =>
    obtain ⟨hlt, m₀, hm₀, hop₀, hdisp, -⟩ := h.pending _ _ (hp _ _ hinfo)
    cases hread : info.read with
    | true =>
      simp only [removeUnread, hread, if_true]
      exact ⟨h.length, hahead, hself⟩
    | false =>
      simp only [removeUnread, hread, Bool.false_eq_true, if_false]
      refine ⟨(length_modify ..).trans h.length, fun j hj => ?_, fun j m' hj hm' => ?_⟩
      · rw [getElem?_modify_ne _ _ (show info.index ≠ j by omega)]
        exact hahead j hj
      · by_cases hji : info.index = j
        · subst hji
          obtain rfl : m₀ = m' := some.inj (hm₀.symm.trans hm')
          refine .inr ⟨?_, hop₀, i, m, info, hm, hop, hdisp.symm, hdisp ▸ hinfo, rfl, hread⟩
          rw [getElem?_modify_eq]
          rcases hself info.index m₀ hj hm₀ with hb | ⟨hb, -, -⟩
          · rw [hb, forwardAt_of_ne (by simp [hop₀])]
            rfl
          · rw [hb]
            rfl
        · rw [getElem?_modify_ne _ _ hji]
          exact hself j m' hj hm'

theorem PeepholeState.step (h : PeepholeState buf fs i s) (hs : s = peepholeAt buf fs i) :
    PeepholeState buf fs (i + 1) (peepholeStep (jumpTargets buf) fs s i) := by
  have hnext := h.ahead i (le_refl i)
  cases hm : buf[i]? with
  | none =>
    rw [hm] at hnext
    have hsame : peepholeStep (jumpTargets buf) fs s i = s := by
      unfold peepholeStep
      rw [hnext]
    rw [hsame]
    refine ⟨h.length, fun j hj => h.ahead j (by omega), fun j m hj hm' => ?_, fun d e he => ?_⟩
    · by_cases hji : j = i
      · rw [hji, hm] at hm'
        cases hm'
      · exact h.behind j m (by omega) hm'
    · obtain ⟨hlt, hrest⟩ := h.pending d e he
      exact ⟨by omega, hrest⟩
  | some m =>
    rw [hm] at hnext
    have hp : atTarget (jumpTargets buf) m s.pendingStore = pendingAt buf fs i := by
      rw [pendingAt_eq hm, hs]
    obtain ⟨hlength, hahead, hbehind⟩ : (peepholeStep (jumpTargets buf) fs s i).buf.length = buf.length ∧ _ ∧ _ := by
      rcases peepholeStep_buf hnext hp with hbuf | ⟨hop, hbuf⟩
      · exact h.set hm hbuf
      · exact h.remove hm hop (fun d e he => hs ▸ pendingAt_some he) hbuf
    refine ⟨hlength, hahead, hbehind, fun d e he => ?_⟩
    obtain ⟨-, ⟨hop, hd, rfl⟩ | ⟨-, e', he', hvreg, hindex, -⟩⟩ := pending_step hnext he
    · exact ⟨Nat.lt_succ_self i, m, hm, hop, hd, rfl⟩
    · obtain ⟨hlt, m', hm', hop, hd, hr⟩ := h.pending d e' (atTarget_some he')
      rw [← hindex, ← hvreg]
      exact ⟨by omega, m', hm', hop, hd, hr⟩

theorem peephole_state (buf : MirBuffer) (fs : Bool) (i : Nat) :
    PeepholeState buf fs i (peepholeAt buf fs i) := by
  induction i with
  | zero =>
    refine ⟨rfl, fun _ _ => rfl, fun j m hj => absurd hj (Nat.not_lt_zero j), fun d e h => ?_⟩
    cases h
  | succ i ih => exact ih.step rfl

/-- What is pending at an instruction, from the one in front of it. -/
theorem pendingAt_succ (hm : buf[i]? = some m) (h : pendingAt buf fs (i + 1) d = some e) :
    isBarrierOp m.op = false ∧
      ((m.op = .vStoreToFrame ∧ m.disp = d ∧ e = ⟨m.r0, i, false⟩) ∨
        (¬ (writesFrameSlot m.op = true ∧ m.disp = d) ∧
          ∃ e', pendingAt buf fs i d = some e' ∧ e'.vreg = e.vreg ∧ e'.index = e.index ∧
            (e.read = false → e'.read = false ∧ ¬ (readsFrameSlot m.op = true ∧ m.disp = d)))) := by
  have hs := (peephole_state buf fs i).ahead i (le_refl i)
  rw [pendingAt_eq hm]
  exact pending_step (hs.trans hm) (pendingAt_some h)

/-- A pending store was so ever since. -/
theorem pendingAt_back (h : pendingAt buf fs k d = some e) (hk : k ≤ buf.length) (hj : e.index < j)
    (hjk : j ≤ k) :
    ∃ e', pendingAt buf fs j d = some e' ∧ e'.vreg = e.vreg ∧ e'.index = e.index ∧
      (e.read = false → e'.read = false) := by
  induction k generalizing e with
  | zero => exact absurd (Nat.lt_of_lt_of_le hj hjk) (Nat.not_lt_zero _)
  | succ k ih =>
    by_cases hlast : j = k + 1
    · subst hlast
      exact ⟨e, h, rfl, rfl, id⟩
    · obtain ⟨m, hm⟩ : ∃ m, buf[k]? = some m := ⟨_, getElem?_eq_getElem (by omega)⟩
      obtain ⟨-, ⟨-, -, rfl⟩ | ⟨-, e', he', hvreg, hindex, hread⟩⟩ := pendingAt_succ hm h
      · exact absurd hj (by simp only; omega)
      · obtain ⟨e'', he'', hv, hi, hr⟩ := ih he' (by omega) (hindex ▸ hj) (by omega)
        exact ⟨e'', he'', hv.trans hvreg, hi.trans hindex, fun he => hr (hread he).1⟩

/-- The store that is pending. -/
theorem pendingAt_store (h : pendingAt buf fs k d = some e) :
    e.index < k ∧ ∃ m, buf[e.index]? = some m ∧ m.op = .vStoreToFrame ∧ m.disp = d ∧ m.r0 = e.vreg :=
  (peephole_state buf fs k).pending d e (pendingAt_some h)

theorem pendingAt_zero : pendingAt buf fs 0 d = none := by
  cases h : pendingAt buf fs 0 d with
  | none => rfl
  | some e => exact absurd (pendingAt_store h).1 (Nat.not_lt_zero _)

/-- Nothing is pending where a jump lands. -/
theorem pendingAt_target {pc : Nat} (ht : targetOf buf pc = some j) (hm : buf[i]? = some m)
    (hjump : isJumpOp m.op = true) (hpc : m.imm32 = pc) : pendingAt buf fs j d = none := by
  obtain ⟨hlt, hcarries, -⟩ := List.findIdx?_eq_some_iff_getElem.mp ht
  have hj : buf[j]? = some buf[j] := getElem?_eq_getElem hlt
  have htarget : isTarget (jumpTargets buf) buf[j] = true := by
    unfold isTarget
    have hpc' : buf[j].pc = some pc := by simpa using hcarries
    rw [hpc', any_some, contains_iff_mem, ← hpc]
    exact mem_map_of_mem (mem_filter.mpr ⟨mem_of_getElem? hm, hjump⟩)
  rw [pendingAt_eq hj]
  unfold atTarget
  rw [if_pos htarget]

/-! ## What a Run Knows -/

/-- Each virtual register is defined once, apart from a copy that a conditional move follows; no
    store of the register is between the two. -/
def DefinedOnce (buf : MirBuffer) : Prop :=
  ∀ (i j : Nat) m m' v, i < j → buf[i]? = some m → buf[j]? = some m' → v ∈ defsOf m →
    v ∈ defsOf m' → m.op.form = .copy ∧ (∃ z, m'.op.form = .select z) ∧
      ∀ (k : Nat) m'', i < k → k < j → buf[k]? = some m'' → m''.op.form = .store → m''.r0 ≠ v

/-- A pending store's register holds what is in the slot, and a register that is pending where it
    is defined has not been defined yet. -/
structure Known (buf : MirBuffer) (fs : Bool) (s : MirState VRegId) : Prop where
  stored : ∀ d e, pendingAt buf fs s.index d = some e →
    e.vreg ≠ kInvalidVReg ∧ s.regs e.vreg = some (s.frame d)
  undefined : ∀ (k : Nat) m d e, buf[k]? = some m → pendingAt buf fs k d = some e →
    e.vreg ∈ defsOf m → s.regs e.vreg = none

theorem barrier_of_form : ∀ op : MirOp, (match op.form with
    | .jump _ | .nativeCall | .helperCall | .driverExit | .poll | .pushSlot | .pushConstant
    | .popSlot => True
    | _ => False) → isBarrierOp op = true := by
  intro op
  cases op <;> simp [MirOp.form, isBarrierOp, isJumpOp]

theorem writesFrameSlot_iff (op : MirOp) : writesFrameSlot op = true ↔ op.form = .store := by
  cases op <;> simp [MirOp.form, writesFrameSlot]

theorem readsFrameSlot_iff (op : MirOp) : readsFrameSlot op = true ↔ ∃ w, op.form = .loadFrame w := by
  cases op <;> simp [MirOp.form, readsFrameSlot]

variable {st st' : MirState VRegId}

/-- A register that an instruction defines is not pending there. -/
theorem Known.not_pending (K : Known buf fs st) (hm : buf[st.index]? = some m)
    (h : pendingAt buf fs st.index d = some e) : e.vreg ∉ defsOf m := by
  intro hdef
  have hnone := K.undefined st.index m d e hm h hdef
  rw [(K.stored d e h).2] at hnone
  cases hnone

/-- What is undefined stays so while an instruction defines its own. -/
theorem Known.undefined_after (K : Known buf fs st) (D : DefinedOnce buf)
    (hm : buf[st.index]? = some m) (hregs : ∀ v, v ∉ defsOf m → st'.regs v = st.regs v)
    (hselect : ∀ z, m.op.form = .select z → defsOf m = [m.r0] ∧ ∃ w, st.regs m.r0 = some w)
    {m' : Mir} (hm' : buf[k]? = some m') (h : pendingAt buf fs k d = some e) (hdef : e.vreg ∈ defsOf m') :
    st'.regs e.vreg = none := by
  have hnone := K.undefined k m' d e hm' h hdef
  by_cases hown : e.vreg ∈ defsOf m
  · exfalso
    rcases lt_trichotomy st.index k with hlt | heq | hgt
    · -- the second definition is a conditional move, and the store is in front of both
      obtain ⟨hcopy, -, hbetween⟩ := D st.index k m m' e.vreg hlt hm hm' hown hdef
      obtain ⟨hk, m₀, hm₀, hop₀, -, hr₀⟩ := pendingAt_store h
      have hform₀ : m₀.op.form = .store := by rw [hop₀]; rfl
      have hbefore : e.index < st.index := by
        by_contra hge
        rcases lt_or_ge st.index e.index with hin | hle
        · exact hbetween e.index m₀ hin hk hm₀ hform₀ hr₀
        · obtain heq : e.index = st.index := by omega
          rw [heq, hm] at hm₀
          rw [← some.inj hm₀, hcopy] at hform₀
          cases hform₀
      have hlen : k ≤ buf.length := le_of_lt (List.getElem?_eq_some_iff.mp hm').1
      obtain ⟨e', he', hvreg, -, -⟩ := pendingAt_back h hlen hbefore hlt.le
      exact K.not_pending hm he' (hvreg ▸ hown)
    · subst heq
      exact K.not_pending hm h hown
    · -- the conditional move reads what it defines
      obtain ⟨-, ⟨z, hz⟩, -⟩ := D k st.index m' m e.vreg hgt hm' hm hdef hown
      obtain ⟨hdefs, w, hw⟩ := hselect z hz
      have heq : e.vreg = m.r0 := by simpa [hdefs] using hown
      rw [heq, hw] at hnone
      cases hnone
  · rw [hregs e.vreg hown]
    exact hnone

/-! ## One Instruction -/

variable {env : Env} {depth : Nat} {fresh : VRegId → Option Word}

/-- What an instruction that goes on leaves as it is. -/
structure Goes (buf : MirBuffer) (m : Mir) (st st' : MirState VRegId) : Prop where
  index : st'.index = st.index + 1 ∨
    (isJumpOp m.op = true ∧ targetOf buf m.imm32 = some st'.index)
  regs : ∀ v, v ∉ defsOf m → st'.regs v = st.regs v
  select : ∀ z, m.op.form = .select z → defsOf m = [m.r0] ∧ ∃ w, st.regs m.r0 = some w
  store : m.op.form = .store → m.r0 ≠ kInvalidVReg ∧
    ∃ w, st.regs m.r0 = some w ∧ st'.frame = update st.frame m.disp w
  frame : m.op.form ≠ .store → isBarrierOp m.op = false → st'.frame = st.frame

/-- The destination is written. -/
theorem goes_set (hdefs : defsOf m = [m.r0]) (hstore : m.op.form ≠ .store)
    (hselect : ∀ z, m.op.form = .select z → ∃ w, st.regs m.r0 = some w) (w : Word)
    (hindex : st'.index = st.index + 1) (hregs : st'.regs = update st.regs m.r0 (some w))
    (hframe : st'.frame = st.frame) : Goes buf m st st' where
  index := .inl hindex
  regs v hv := by
    rw [hregs, update_of_ne]
    simpa [hdefs] using hv
  select z hz := ⟨hdefs, hselect z hz⟩
  store h := absurd h hstore
  frame _ _ := hframe

/-- No register is written. -/
theorem goes_keep (hstore : m.op.form ≠ .store) (hselect : ∀ z, m.op.form ≠ .select z)
    (hto : st'.index = st.index + 1 ∨ (isJumpOp m.op = true ∧ targetOf buf m.imm32 = some st'.index))
    (hregs : st'.regs = st.regs) (hframe : isBarrierOp m.op = true ∨ st'.frame = st.frame) :
    Goes buf m st st' where
  index := hto
  regs v _ := by rw [hregs]
  select z hz := absurd hz (hselect z)
  store h := absurd h hstore
  frame _ hb := hframe.resolve_left (by simp [hb])

theorem isJumpOp_of_form : ∀ op : MirOp, (∃ c, op.form = .jump c) → isJumpOp op = true := by
  intro op
  cases op <;> simp [MirOp.form, isJumpOp]

theorem exit_goes (hform : m.op.form = .driverExit ∨ m.op.form = .poll) {st₀ : MirState VRegId}
    {kind pc : Nat} (h : exitStep (virtual fresh) env depth kind pc st₀ = .goto st')
    (hindex : st₀.index = st.index) (hregs : st₀.regs = st.regs) : Goes buf m st st' := by
  have hbarrier : isBarrierOp m.op = true :=
    barrier_of_form m.op (by rcases hform with h | h <;> rw [h] <;> trivial)
  unfold exitStep at h
  split at h
  · cases h
  · dsimp only at h
    split at h
    · cases h
    · cases h
      apply goes_keep
      · rcases hform with h | h <;> simp [h]
      · rcases hform with h | h <;> simp [h]
      · exact .inl (congrArg (· + 1) hindex)
      · exact hregs
      · exact .inl hbarrier

theorem elim_goto {α : Type} {o : Option α} {f : α → Next VRegId}
    (h : o.elim (.done .stuck) f = .goto st') : ∃ a, o = some a ∧ f a = .goto st' := by
  cases o with
  | none => cases h
  | some a => exact ⟨a, rfl, h⟩

theorem binary_goes {g : Binary} (hform : m.op.form = .binary g) (hlack : m.lacksOperand = false)
    (h : binaryStep (virtual fresh) env m g st = .goto st') : Goes buf m st st' := by
  have hvalid : (m.r0 ≠ kInvalidVReg ∧ m.r1 ≠ kInvalidVReg) ∧ m.immV ≠ kInvalidVReg := by
    simpa [Mir.lacksOperand, hform] using hlack
  have hdefs : defsOf m = [m.r0] := by
    rw [defsOf_eq (by simp [hform]), hform]
    unfold formDefUse
    split <;> simp_all
  simp only [binaryStep, virtual_loc] at h
  split at h
  · split at h
    · cases h
      exact goes_set hdefs (by simp [hform]) (by simp [hform]) _ rfl rfl rfl
    · cases h
    · cases h
  · cases h

/-- Every instruction, by what it goes to. -/
theorem stepMir_goes (h : stepMir (virtual fresh) env buf depth m st = .goto st') :
    Goes buf m st st' := by
  unfold stepMir at h
  cases hlack : m.lacksOperand with
  | true =>
    rw [hlack] at h
    cases h
  | false =>
  obtain ⟨hwrite, hread, hunary, hsel⟩ := operands_of_form hlack
  simp only [hlack, Bool.false_eq_true, if_false, virtual_loc, elim_some] at h
  cases hform : m.op.form with
  | fixed =>
    rw [hform] at h
    cases h
  | loadFrame w =>
    rw [hform] at h
    cases h
    exact goes_set (hwrite w (.inl hform)) (by simp [hform]) (by simp [hform]) _ rfl rfl rfl
  | loadMem w =>
    rw [hform] at h
    cases h
    exact goes_set (hwrite w (.inr (.inl hform))) (by simp [hform]) (by simp [hform]) _ rfl rfl rfl
  | constant w =>
    rw [hform] at h
    cases w <;> cases h <;>
      exact goes_set (hwrite _ (.inr (.inr (.inl hform)))) (by simp [hform]) (by simp [hform]) _ rfl rfl rfl
  | copy =>
    rw [hform] at h
    obtain ⟨w, -, h⟩ := elim_goto h
    cases h
    exact goes_set (hunary .add (.inl hform)).1 (by simp [hform]) (by simp [hform]) _ rfl rfl rfl
  | fromRax =>
    rw [hform] at h
    obtain ⟨w, -, h⟩ := elim_goto h
    cases h
    exact goes_set (hwrite .w64 (.inr (.inr (.inr hform)))) (by simp [hform]) (by simp [hform]) _ rfl rfl rfl
  | test =>
    rw [hform] at h
    obtain ⟨w, -, h⟩ := elim_goto h
    cases h
    exact goes_keep (by simp [hform]) (by simp [hform]) (.inl rfl) rfl (.inr rfl)
  | compare =>
    rw [hform] at h
    obtain ⟨w, -, h⟩ := elim_goto h
    cases h
    exact goes_keep (by simp [hform]) (by simp [hform]) (.inl rfl) rfl (.inr rfl)
  | returnValue =>
    rw [hform] at h
    obtain ⟨w, -, h⟩ := elim_goto h
    split at h <;> cases h
  | select zero =>
    rw [hform] at h
    obtain ⟨old, hold, h⟩ := elim_goto h
    split at h
    · cases h
      exact goes_set (hsel zero hform).1 (by simp [hform]) (fun z _ => ⟨old, hold⟩) _ rfl rfl rfl
    · cases h
  | immediate g =>
    rw [hform] at h
    obtain ⟨a, -, h⟩ := elim_goto h
    cases h
    exact goes_set (hunary g (.inr hform)).1 (by simp [hform]) (by simp [hform]) _ rfl rfl rfl
  | binary g =>
    rw [hform] at h
    exact binary_goes hform hlack h
  | jump c =>
    have hjump := isJumpOp_of_form m.op ⟨c, hform⟩
    rw [hform] at h
    cases ht : targetOf buf m.imm32 with
    | none =>
      rw [ht] at h
      cases h
    | some t =>
      rw [ht] at h
      have hland : Goes buf m st { st with index := t } :=
        goes_keep (by simp [hform]) (by simp [hform]) (.inr ⟨hjump, ht⟩) rfl (.inr rfl)
      cases c with
      | none =>
        cases h
        exact hland
      | some c =>
        cases hflags : st.flags with
        | none =>
          rw [hflags] at h
          cases h
        | some g =>
          rw [hflags] at h
          dsimp only at h
          split at h
          · cases h
            rw [hflags] at hland
            exact hland
          · cases h
            exact goes_keep (by simp [hform]) (by simp [hform]) (.inl rfl) rfl (.inr rfl)
  | nativeCall =>
    rw [hform] at h
    dsimp only at h
    split at h
    · cases h
    · split at h
      · cases h
      · obtain ⟨frame, -, h⟩ := elim_goto h
        cases h
  | helperCall =>
    rw [hform] at h
    dsimp only at h
    split at h
    · cases h
      exact goes_keep (by simp [hform]) (by simp [hform]) (.inl rfl) rfl
        (.inl (barrier_of_form m.op (by rw [hform]; trivial)))
    · cases h
  | driverExit =>
    rw [hform] at h
    exact exit_goes (.inl hform) h rfl rfl
  | poll =>
    rw [hform] at h
    dsimp only at h
    split at h
    · exact exit_goes (.inr hform) h rfl rfl
    · cases h
      exact goes_keep (by simp [hform]) (by simp [hform]) (.inl rfl) rfl (.inr rfl)
  | pushSlot =>
    rw [hform] at h
    cases h
    exact goes_keep (by simp [hform]) (by simp [hform]) (.inl rfl) rfl (.inr rfl)
  | pushConstant =>
    rw [hform] at h
    cases h
    exact goes_keep (by simp [hform]) (by simp [hform]) (.inl rfl) rfl (.inr rfl)
  | popSlot =>
    rw [hform] at h
    dsimp only at h
    split at h
    · cases h
    · cases h
      exact goes_keep (by simp [hform]) (by simp [hform]) (.inl rfl) rfl
        (.inl (barrier_of_form m.op (by rw [hform]; trivial)))
  | skip =>
    rw [hform] at h
    cases h
    exact goes_keep (by simp [hform]) (by simp [hform]) (.inl rfl) rfl (.inr rfl)
  | store =>
    rw [hform] at h
    obtain ⟨w, hw, h⟩ := elim_goto h
    cases h
    have hvalid : m.r0 ≠ kInvalidVReg := by simpa [Mir.lacksOperand, hform] using hlack
    exact ⟨.inl rfl, fun v _ => rfl, by simp [hform], fun _ => ⟨hvalid, w, hw, rfl⟩,
      fun hne => absurd hform hne⟩

/-- Only a native call asks for a run of the code. -/
theorem stepMir_call {frame : Frame} {p : NativeJitCallParams} (hm : buf[st.index]? = some m)
    (h : stepMir (virtual fresh) env buf depth m st = .call frame p) :
    m.op.form = .nativeCall ∧ m.params = some p := by
  have hkept : NextKept buf m (stepMir (virtual fresh) env buf depth m st)
      (stepMir (virtual fresh) env buf depth m st) :=
    step_kept rfl hm (f := st.frame) fun _ _ => rfl
  rw [h] at hkept
  cases hkept with
  | call _ hform hp => exact ⟨hform, hp⟩

/-- What is known in front of an instruction is known where it goes to. -/
theorem Known.goes (K : Known buf fs st) (D : DefinedOnce buf) (hm : buf[st.index]? = some m)
    (h : Goes buf m st st') : Known buf fs st' where
  undefined _ _ _ _ hm' hp hdef := K.undefined_after D hm h.regs h.select hm' hp hdef
  stored d e hp := by
    rcases h.index with hindex | ⟨hjump, ht⟩
    · rw [hindex] at hp
      obtain ⟨hbarrier, ⟨hop, hd, rfl⟩ | ⟨hwrites, e', he', hvreg, -, -⟩⟩ := pendingAt_succ hm hp
      · -- the instruction is the store
        have hform : m.op.form = .store := by rw [hop]; rfl
        obtain ⟨hvalid, w, hw, hframe⟩ := h.store hform
        refine ⟨hvalid, ?_⟩
        show st'.regs m.r0 = _
        have hnone : defsOf m = [] := by
          unfold defsOf tableDefUse
          rw [hop]
          rfl
        rw [h.regs m.r0 (by simp [hnone]), hw, hframe, hd, update_self]
      · obtain ⟨hvalid, hreg⟩ := K.stored d e' he'
        have hout := K.not_pending hm he'
        rw [hvreg] at hvalid hreg hout
        refine ⟨hvalid, ?_⟩
        rw [h.regs e.vreg hout, hreg]
        by_cases hform : m.op.form = .store
        · obtain ⟨-, w, -, hframe⟩ := h.store hform
          have hd : d ≠ m.disp := fun hd => hwrites ⟨(writesFrameSlot_iff _).mpr hform, hd.symm⟩
          rw [hframe, update_of_ne hd]
        · rw [h.frame hform hbarrier]
    · rw [pendingAt_target ht hm hjump rfl] at hp
      cases hp

/-- A native call has returned. -/
theorem Known.returned (K : Known buf fs st) (D : DefinedOnce buf) (hm : buf[st.index]? = some m)
    (hform : m.op.form = .nativeCall) {p : NativeJitCallParams} (hp : m.params = some p) (w : Word)
    (seen : History) : Known buf fs (returned (virtual fresh) st p w seen) := by
  have hbarrier : isBarrierOp m.op = true := barrier_of_form m.op (by rw [hform]; trivial)
  have hdefs : defsOf m = [p.resultVReg].filter (· ≠ kInvalidVReg) := by
    rw [defsOf_eq (by simp [hform]), hform]
    simp [formDefUse, hp]
  have hafter : (Jit.returned (virtual fresh) st p w seen).index = st.index + 1 ∧
      ∀ v, v ∉ defsOf m → (Jit.returned (virtual fresh) st p w seen).regs v = st.regs v := by
    unfold Jit.returned
    by_cases hvreg : p.resultVReg = kInvalidVReg
    · simp only [hvreg, if_true]
      exact ⟨rfl, fun v _ => rfl⟩
    · simp only [hvreg, if_false, virtual_loc, elim_some]
      refine ⟨rfl, fun v hv => ?_⟩
      apply update_of_ne
      simpa [hdefs, hvreg] using hv
  constructor
  · intro d e he
    rw [hafter.1] at he
    rw [(pendingAt_succ hm he).1] at hbarrier
    cases hbarrier
  · intro k m' d e hm' he hdef
    exact K.undefined_after D hm hafter.2 (by simp [hform]) hm' he hdef

theorem known_entry (frame : Frame) (seen : History) :
    Known buf fs (entry (virtual fun _ => none) frame seen) := by
  constructor
  · intro d e he
    rw [show (entry (virtual fun _ => none) frame seen).index = 0 from rfl, pendingAt_zero] at he
    cases he
  · exact fun _ _ _ _ _ _ _ => rfl

/-! ## Forwarding -/

/-- The buffer with the loads that are forwarded. -/
def forwardedBuf (buf : MirBuffer) (fs : Bool) : MirBuffer := buf.mapIdx (forwardAt buf fs)

theorem getElem?_forwardedBuf (i : Nat) :
    (forwardedBuf buf fs)[i]? = (buf[i]?).map (forwardAt buf fs i) := by
  unfold forwardedBuf
  rw [getElem?_mapIdx]

theorem forwardAt_pc (i : Nat) (m : Mir) : (forwardAt buf fs i m).pc = m.pc := by
  unfold forwardAt
  split
  · cases pendingAt buf fs i m.disp <;> rfl
  · rfl

theorem forwarded_target : targetOf (forwardedBuf buf fs) = targetOf buf := by
  apply targetOf_congr
  apply ext_getElem?
  intro i
  rw [getElem?_map, getElem?_map, getElem?_forwardedBuf, Option.map_map]
  congr 1
  funext m
  exact forwardAt_pc i m

theorem stepMir_congr {buf' : MirBuffer} (h : targetOf buf' = targetOf buf) :
    stepMir (virtual fresh) env buf' depth m st = stepMir (virtual fresh) env buf depth m st := by
  unfold stepMir
  rw [h]

/-- A forwarded load reads the register where the load reads the slot. -/
theorem forwarded_step (K : Known buf fs st) :
    stepMir (virtual fresh) env (forwardedBuf buf fs) depth (forwardAt buf fs st.index m) st =
      stepMir (virtual fresh) env buf depth m st := by
  rw [stepMir_congr forwarded_target]
  unfold forwardAt
  split
  · next hload =>
    cases hp : pendingAt buf fs st.index m.disp with
    | none => rfl
    | some e =>
      obtain ⟨hvalid, hreg⟩ := K.stored m.disp e hp
      have hform : m.op.form = .loadFrame .w64 := by rw [hload.1]; rfl
      have hcopy : (m.forwarded e).op.form = .copy := rfl
      have hlack : (m.forwarded e).lacksOperand = m.lacksOperand := by
        unfold Mir.lacksOperand
        rw [hcopy, hform]
        show (m.r0 == kInvalidVReg || e.vreg == kInvalidVReg) = (m.r0 == kInvalidVReg)
        simp [hvalid]
      show stepMir (virtual fresh) env buf depth (m.forwarded e) st = _
      unfold stepMir
      rw [hlack, hform]
      show (if m.lacksOperand = true then Next.done Result.stuck else
        (st.regs e.vreg).elim (.done .stuck) fun w => .goto (st.next.set m.r0 w)) = _
      rw [hreg]
      rfl
  · rfl

/-- A run is the same with the loads forwarded. -/
theorem run_forwarded (D : DefinedOnce buf) (fuel : Nat) :
    ∀ {depth : Nat} {st : MirState VRegId}, Known buf fs st →
      run (virtual fun _ => none) env (forwardedBuf buf fs) fuel depth st =
        run (virtual fun _ => none) env buf fuel depth st := by
  induction fuel with
  | zero => exact fun _ => rfl
  | succ fuel ih =>
    intro depth st K
    unfold run
    rw [getElem?_forwardedBuf]
    cases hm : buf[st.index]? with
    | none => rfl
    | some m =>
      simp only [map_some]
      rw [forwarded_step K]
      cases hstep : stepMir (virtual fun _ => none) env buf depth m st with
      | goto st' => exact ih (K.goes D hm (stepMir_goes hstep))
      | done r => rfl
      | call frame p =>
        dsimp only
        rw [ih (known_entry frame st.seen)]
        obtain ⟨hform, hp⟩ := stepMir_call hm hstep
        split
        · next w seen _ => exact ih (K.returned D hm hform hp w seen)
        · rfl

/-! ## Stores That Are Overwritten -/

/-- Between a store and the one that overwrites it nothing reads the slot. -/
theorem overwritten_dead (hk : buf[k]? = some m) (hop : m.op = .vStoreToFrame) (hd : m.disp = d)
    (hp : pendingAt buf fs k d = some e) (hread : e.read = false) :
    ∀ j, SlotLive (forwardedBuf buf fs) d j → e.index < j → ¬ j ≤ k := by
  have hlen : k < buf.length := (List.getElem?_eq_some_iff.mp hk).1
  have hself : (forwardedBuf buf fs)[k]? = some m := by
    rw [getElem?_forwardedBuf, hk]
    show some (forwardAt buf fs k m) = some m
    rw [forwardAt_of_ne (by simp [hop])]
  -- what the instructions in front of the second store do
  have hbetween : ∀ j m', e.index < j → j < k → (forwardedBuf buf fs)[j]? = some m' →
      isBarrierOp m'.op = false ∧ ¬ readsSlot m' d := by
    intro j m' hj hjk hm'
    obtain ⟨m₀, hm₀⟩ : ∃ m₀, buf[j]? = some m₀ := ⟨_, getElem?_eq_getElem (by omega)⟩
    obtain ⟨e', he', -, hindex, hunread⟩ := pendingAt_back (j := j + 1) hp (by omega) (by omega) (by omega)
    obtain ⟨hbarrier, ⟨-, -, rfl⟩ | ⟨-, e'', -, -, -, hr⟩⟩ := pendingAt_succ hm₀ he'
    · exact absurd hindex (by simp only; omega)
    · obtain ⟨-, hnoread⟩ := hr (hunread hread)
      rw [getElem?_forwardedBuf, hm₀] at hm'
      obtain rfl := some.inj hm'
      have hsame : forwardAt buf fs j m₀ = m₀ ∨ (forwardAt buf fs j m₀).op = .vCopy := by
        unfold forwardAt
        split
        · cases pendingAt buf fs j m₀.disp with
          | none => exact .inl rfl
          | some info => exact .inr rfl
        · exact .inl rfl
      rcases hsame with hsame | hcopy
      · rw [hsame]
        refine ⟨hbarrier, fun hr => ?_⟩
        unfold readsSlot at hr
        have hforms := barrier_of_form m₀.op
        split at hr
        · next w hform => exact hnoread ⟨(readsFrameSlot_iff _).mpr ⟨w, hform⟩, hr⟩
        all_goals first
          | exact hr
          | (rename_i hform; rw [hform] at hforms; rw [hforms trivial] at hbarrier; cases hbarrier)
      · unfold readsSlot
        rw [hcopy]
        exact ⟨rfl, fun hr => hr⟩
  intro j hlive
  induction hlive with
  | @read j m' hm' hr =>
    intro hj hjk
    rcases lt_or_eq_of_le hjk with hlt | rfl
    · exact (hbetween j m' hj hlt hm').2 hr
    · obtain rfl : m = m' := some.inj (hself.symm.trans hm')
      unfold readsSlot at hr
      rw [hop] at hr
      exact hr
  | @flow j j' m' hm' hover hs hlive ih =>
    intro hj hjk
    rcases lt_or_eq_of_le hjk with hlt | rfl
    · have hbarrier := (hbetween j m' hj hlt hm').1
      obtain ⟨m₀, hm₀, hs⟩ := hs
      obtain rfl : m' = m₀ := some.inj (hm'.symm.trans hm₀)
      have hforms := barrier_of_form m'.op
      -- no jump, so control goes on to the next instruction
      split at hs
      · next hform =>
        rw [hform] at hforms
        rw [hforms trivial] at hbarrier
        cases hbarrier
      · next hform =>
        rw [hform] at hforms
        rw [hforms trivial] at hbarrier
        cases hbarrier
      · exact hs
      · exact hs
      · subst hs
        exact ih (by omega) (by omega)
    · obtain rfl : m = m' := some.inj (hself.symm.trans hm')
      apply hover
      unfold overwrites
      rw [hop]
      exact hd

/-- The peephole removes only stores that are overwritten before anything reads them. -/
theorem peephole_cleared (buf : MirBuffer) (fs : Bool) :
    Cleared (forwardedBuf buf fs) (optimizePeephole buf fs) := by
  have h := peephole_state buf fs buf.length
  refine ⟨?_, fun i m hm => ?_⟩
  · unfold forwardedBuf
    rw [length_mapIdx]
    exact h.length
  · rw [getElem?_forwardedBuf] at hm
    obtain ⟨m₀, hm₀, rfl⟩ := map_eq_some_iff.mp hm
    have hlt : i < buf.length := (List.getElem?_eq_some_iff.mp hm₀).1
    rcases h.behind i m₀ hlt hm₀ with hb | ⟨hb, hop, k, m', e, hk, hop', hd, hp, rfl, hread⟩
    · exact .inl hb
    · right
      rw [forwardAt_of_ne (by simp [hop])]
      refine ⟨hb, by rw [hop]; rfl, fun hlive => ?_⟩
      have hbehind : e.index < k := (pendingAt_store hp).1
      exact overwritten_dead hk hop' hd hp hread _ hlive (Nat.lt_succ_self _) hbehind

/-- The peephole keeps every run. -/
theorem run_optimizePeephole (D : DefinedOnce buf) (fuel depth : Nat) (frame : Frame)
    (seen : History)
    (hrun : run (virtual fun _ => none) env buf fuel depth
      (entry (virtual fun _ => none) frame seen) ≠ .stuck) :
    run (virtual fun _ => none) env (optimizePeephole buf fs) fuel depth
        (entry (virtual fun _ => none) frame seen) =
      run (virtual fun _ => none) env buf fuel depth (entry (virtual fun _ => none) frame seen) := by
  have hforward := @run_forwarded buf fs env D fuel depth _ (known_entry frame seen)
  rw [← hforward] at hrun ⊢
  exact run_kept (peephole_cleared buf fs) fuel (fun _ _ => rfl) hrun

end Camel.Jit
