import Camel.Jit.SlotAlloc

/-! # The Slot Allocation Is Sound

    Two slots that live at once have different registers, and a slot that lives
    across a call has none. The second rests on the order of the scan: an
    interval that gives its register up stops behind the one that takes it, so if
    the new one lived across a call the old one would too.
-/

namespace Camel.Jit

open FastVM List
open Lib Lib.Scan

/-! ## Registers Held -/

/-- The intervals that have registers in the table. -/
def Held (done : Set LiveInterval) (slotToReg : List Int) : Set (LiveInterval × Nat) :=
  {p | p.1 ∈ done ∧ slotToReg.getD p.1.slot kSpilled = p.2}

def registers : Set Nat := {r | r < kNumAllocatableRegs ∧ r ≠ kReservedRegRbx}

/-- After the intervals `done`, whose starts reach `t`. -/
structure Allocated (callPcs : List Nat) (size : Nat) (done : Set LiveInterval) (s : AllocState)
    (t : Nat) : Prop where
  shares : Shares LiveInterval.start LiveInterval.stop registers s.scan (Held done s.slotToReg) t
  started : ∀ i ∈ done, i.start ≤ t
  size : s.slotToReg.length = size
  calls : ∀ p ∈ Held done s.slotToReg, p.1.spansCall = false
  only : ∀ slot, s.slotToReg.getD slot kSpilled ≠ kSpilled →
    ∃ p ∈ Held done s.slotToReg, p.1.slot = slot

/-- What holds of the intervals of the scan. -/
structure Interval (callPcs : List Nat) (size : Nat) (i : LiveInterval) : Prop where
  ordered : i.start ≤ i.stop
  fits : i.slot < size
  spans : i.spansCall =
    (intervalSpansCall callPcs i.start i.stop || defAtCall callPcs i.start)

section
variable {callPcs : List Nat} {size : Nat} {done : Set LiveInterval} {s : AllocState} {t : Nat}
variable {cur : LiveInterval}

theorem Interval.spans_iff {i : LiveInterval} (h : Interval callPcs size i) :
    i.spansCall = true ↔
      ∃ cp ∈ callPcs, (i.start < cp ∧ cp < i.stop) ∨ i.start = cp := by
  rw [h.spans]
  unfold intervalSpansCall defAtCall
  simp only [Bool.or_eq_true, any_eq_true, Bool.and_eq_true, decide_eq_true_eq, beq_iff_eq]
  constructor
  · rintro (⟨cp, hcp, h⟩ | ⟨cp, hcp, h⟩)
    · exact ⟨cp, hcp, .inl h⟩
    · exact ⟨cp, hcp, .inr h⟩
  · rintro ⟨cp, hcp, h | h⟩
    · exact .inl ⟨cp, hcp, h⟩
    · exact .inr ⟨cp, hcp, h⟩

/-- An interval that starts before one across a call and stops behind it is across that call. -/
theorem Interval.spans_of_wider {i j : LiveInterval} (hi : Interval callPcs size i)
    (hj : Interval callPcs size j) (hspan : i.spansCall = true) (hstart : j.start ≤ i.start)
    (hstop : i.stop < j.stop) : j.spansCall = true := by
  obtain ⟨cp, hcp, hat⟩ := hi.spans_iff.mp hspan
  have hle := hi.ordered
  rw [hj.spans_iff]
  rcases lt_or_ge j.start cp with hlt | hge
  · exact ⟨cp, hcp, .inl ⟨hlt, by omega⟩⟩
  · exact ⟨cp, hcp, .inr (by omega)⟩

theorem furthest_mem {active : List (LiveInterval × Nat)} {p : LiveInterval × Nat}
    (h : furthest active = some p) : p ∈ active := by
  cases active with
  | nil => cases h
  | cons a rest =>
    cases h
    suffices hmem : ∀ (l : List (LiveInterval × Nat)) (a : LiveInterval × Nat),
        l.foldl (fun a b => if a.1.stop < b.1.stop then b else a) a ∈ a :: l from hmem rest a
    intro l
    induction l with
    | nil => intro a; simp
    | cons b l ih =>
      intro a
      rw [foldl_cons]
      split
      · exact mem_cons_of_mem a (ih b)
      · rcases mem_cons.mp (ih a) with h | h
        · rw [h]
          exact mem_cons_self
        · exact mem_cons_of_mem a (mem_cons_of_mem b h)

/-! ## One Interval -/

/-- Writing the register of a new interval into the table. -/
theorem held_insert (hnew : ∀ i ∈ done, i.slot ≠ cur.slot) {slotToReg : List Int}
    (hfits : cur.slot < slotToReg.length) (v : Int) (p : LiveInterval × Nat) :
    p ∈ Held (insert cur done) (slotToReg.set cur.slot v) ↔
      (p.1 = cur ∧ v = p.2) ∨ p ∈ Held done slotToReg := by
  unfold Held
  simp only [Set.mem_ofPred_eq, Set.mem_insert_iff]
  constructor
  · rintro ⟨rfl | hdone, hreg⟩
    · rw [getD_set hfits, if_pos rfl] at hreg
      exact .inl ⟨rfl, hreg⟩
    · rw [getD_set hfits, if_neg (hnew p.1 hdone)] at hreg
      exact .inr ⟨hdone, hreg⟩
  · rintro (⟨hcur, hv⟩ | ⟨hdone, hreg⟩)
    · refine ⟨.inl hcur, ?_⟩
      rw [getD_set hfits, if_pos (by rw [hcur])]
      exact hv
    · refine ⟨.inr hdone, ?_⟩
      rw [getD_set hfits, if_neg (hnew p.1 hdone)]
      exact hreg

theorem held_insert_reg (hnew : ∀ i ∈ done, i.slot ≠ cur.slot) {slotToReg : List Int}
    (hfits : cur.slot < slotToReg.length) (r : Nat) (p : LiveInterval × Nat) :
    p ∈ Held (insert cur done) (slotToReg.set cur.slot r) ↔
      p = (cur, r) ∨ p ∈ Held done slotToReg := by
  rw [held_insert hnew hfits, Prod.ext_iff, Int.natCast_inj, @eq_comm Nat r]

/-- The interval stays in the frame. -/
theorem held_spilled (hnew : ∀ i ∈ done, i.slot ≠ cur.slot) {slotToReg : List Int}
    (hfits : cur.slot < slotToReg.length) :
    Held (insert cur done) (slotToReg.set cur.slot kSpilled) = Held done slotToReg := by
  ext p
  rw [held_insert hnew hfits]
  constructor
  · rintro (⟨-, hv⟩ | hp)
    · unfold kSpilled at hv
      omega
    · exact hp
  · exact .inr

/-- A holder that is spilled leaves the table. -/
theorem held_removed (hdistinct : ∀ i ∈ done, ∀ j ∈ done, i.slot = j.slot → i = j)
    {slotToReg : List Int} {a : LiveInterval × Nat} (ha : a ∈ Held done slotToReg)
    (hfits : a.1.slot < slotToReg.length) (p : LiveInterval × Nat) :
    p ∈ Held done (slotToReg.set a.1.slot kSpilled) ↔ p ∈ Held done slotToReg ∧ p ≠ a := by
  unfold Held at *
  simp only [Set.mem_ofPred_eq] at *
  rw [getD_set hfits]
  constructor
  · rintro ⟨hdone, hreg⟩
    split at hreg
    · unfold kSpilled at hreg
      omega
    · next hslot => exact ⟨⟨hdone, hreg⟩, fun h => hslot (by rw [h])⟩
  · rintro ⟨⟨hdone, hreg⟩, hne⟩
    refine ⟨hdone, ?_⟩
    rw [if_neg]
    · exact hreg
    · intro hslot
      have hsame := hdistinct p.1 hdone a.1 ha.1 hslot
      rw [hsame, ha.2] at hreg
      exact hne (Prod.ext hsame (by omega))

/-- One interval of the scan. -/
theorem Allocated.step (h : Allocated callPcs size done s t)
    (hdone : ∀ i ∈ done, Interval callPcs size i) (hcur : Interval callPcs size cur)
    (hdistinct : ∀ i ∈ done, ∀ j ∈ done, i.slot = j.slot → i = j)
    (hnew : ∀ i ∈ done, i.slot ≠ cur.slot) (hstart : t ≤ cur.start) :
    Allocated callPcs size (insert cur done) (allocStep s cur) cur.start := by
  have hexpired := h.shares.expire hstart
  have hstarted : ∀ i ∈ insert cur done, i.start ≤ cur.start := by
    rintro i (rfl | hi)
    · exact le_rfl
    · exact le_trans (h.started i hi) hstart
  have hfits : cur.slot < s.slotToReg.length := by
    rw [h.size]
    exact hcur.fits
  have hout : ∀ r, (cur, r) ∉ Held done s.slotToReg := fun r hr => hnew cur hr.1 rfl
  -- the interval that stays in the frame
  have hstay : Allocated callPcs size (insert cur done)
      ⟨s.scan.expire LiveInterval.stop cur.start, s.slotToReg.set cur.slot kSpilled⟩
      cur.start := by
    have hheld := held_spilled hnew hfits
    refine ⟨?_, hstarted, ?_, ?_, ?_⟩
    · show Shares _ _ _ _ (Held (insert cur done) (s.slotToReg.set cur.slot kSpilled)) _
      rw [hheld]
      exact hexpired
    · rw [length_set, h.size]
    · show ∀ p ∈ Held (insert cur done) (s.slotToReg.set cur.slot kSpilled), _
      rw [hheld]
      exact h.calls
    · show ∀ slot, (s.slotToReg.set cur.slot kSpilled).getD slot kSpilled ≠ kSpilled →
        ∃ p ∈ Held (insert cur done) (s.slotToReg.set cur.slot kSpilled), _
      rw [hheld]
      intro slot hslot
      rw [getD_set hfits] at hslot
      split at hslot
      · exact absurd rfl hslot
      · exact h.only slot hslot
  unfold allocStep
  simp only
  split
  · next r htaken =>
    -- a free register
    have hno : cur.spansCall = false := by
      by_contra hspan
      rw [Bool.not_eq_false] at hspan
      rw [if_pos hspan] at htaken
      cases htaken
    rw [hno, if_neg (by simp)] at htaken
    have hheld : ∀ p, p ∈ Held (insert cur done) (s.slotToReg.set cur.slot r) ↔
        p = (cur, r) ∨ p ∈ Held done s.slotToReg := by
      exact held_insert_reg hnew hfits r
    refine ⟨hexpired.take le_rfl htaken hheld, hstarted, ?_, ?_, ?_⟩
    · rw [length_set, h.size]
    · intro p hp
      rcases (hheld p).mp hp with rfl | hp
      · exact hno
      · exact h.calls p hp
    · intro slot hslot
      rw [getD_set hfits] at hslot
      split at hslot
      · next heq => exact ⟨(cur, r), (hheld _).mpr (.inl rfl), heq.symm⟩
      · obtain ⟨p, hp, heq⟩ := h.only slot hslot
        exact ⟨p, (hheld p).mpr (.inr hp), heq⟩
  · split
    · next spill hfurthest =>
      split
      · next hlater =>
        -- the holder that stops last gives its register up
        obtain ⟨hactive, hlive⟩ := mem_expire.1 (furthest_mem hfurthest)
        have hspill := h.shares.holds spill hactive
        have hno : cur.spansCall = false := by
          by_contra hspan
          rw [Bool.not_eq_false] at hspan
          have hwider := hcur.spans_of_wider (hdone spill.1 hspill.1) hspan
            (le_trans (h.started _ hspill.1) hstart) hlater
          rw [h.calls spill hspill] at hwider
          cases hwider
        have hremoved := held_removed hdistinct hspill
          (by rw [h.size]; exact (hdone spill.1 hspill.1).fits)
        have hheld : ∀ p, p ∈ Held (insert cur done)
            ((s.slotToReg.set spill.1.slot kSpilled).set cur.slot spill.2) ↔
            p = (cur, spill.2) ∨ (p ∈ Held done s.slotToReg ∧ p ≠ spill) := by
          intro p
          rw [held_insert_reg hnew (by rw [length_set]; exact hfits), hremoved]
        refine ⟨hexpired.replace le_rfl (furthest_mem hfurthest) hheld (hout _), hstarted,
          ?_, ?_, ?_⟩
        · rw [length_set, length_set, h.size]
        · intro p hp
          rcases (hheld p).mp hp with rfl | ⟨hp, -⟩
          · exact hno
          · exact h.calls p hp
        · intro slot hslot
          rw [getD_set (by rw [length_set]; exact hfits), getD_set
            (by rw [h.size]; exact (hdone spill.1 hspill.1).fits)] at hslot
          split at hslot
          · next heq => exact ⟨(cur, spill.2), (hheld _).mpr (.inl rfl), heq.symm⟩
          · split at hslot
            · exact absurd rfl hslot
            · next hne =>
              obtain ⟨p, hp, heq⟩ := h.only slot hslot
              exact ⟨p, (hheld p).mpr (.inr ⟨hp, fun h => hne (by rw [← heq, h])⟩), heq⟩
      · exact hstay
    · exact hstay

/-! ## The Scan -/

theorem Allocated.run (h : Allocated callPcs size done s t)
    (hdone : ∀ i ∈ done, Interval callPcs size i)
    (hdistinct : ∀ i ∈ done, ∀ j ∈ done, i.slot = j.slot → i = j) :
    ∀ l : List LiveInterval, (∀ i ∈ l, Interval callPcs size i) →
      (l.map LiveInterval.slot).Nodup → (∀ i ∈ done, ∀ j ∈ l, i.slot ≠ j.slot) →
      l.Pairwise (fun i j => i.start ≤ j.start) → (∀ i ∈ l, t ≤ i.start) →
      ∃ u, Allocated callPcs size (done ∪ {i | i ∈ l}) (l.foldl allocStep s) u := by
  intro l
  induction l generalizing done s t with
  | nil =>
    intro _ _ _ _ _
    have : done ∪ {i | i ∈ ([] : List LiveInterval)} = done := by simp
    rw [this]
    exact ⟨t, h⟩
  | cons cur l ih =>
    intro hl hslots hapart hsorted hlater
    rw [map_cons, nodup_cons] at hslots
    rw [pairwise_cons] at hsorted
    have hstep := h.step hdone (hl cur (by simp)) hdistinct
      (fun i hi => hapart i hi cur (by simp)) (hlater cur (by simp))
    have hcurne : ∀ j ∈ l, cur.slot ≠ j.slot := fun j hj heq =>
      hslots.1 (heq ▸ mem_map_of_mem hj)
    obtain ⟨u, hu⟩ := ih hstep
      (by
        rintro i (rfl | hi)
        · exact hl i (by simp)
        · exact hdone i hi)
      (by
        rintro i (rfl | hi) j (rfl | hj) heq
        · rfl
        · exact absurd heq.symm (hapart j hj i (by simp))
        · exact absurd heq (hapart i hi j (by simp))
        · exact hdistinct i hi j hj heq)
      (fun i hi => hl i (mem_cons_of_mem cur hi)) hslots.2
      (by
        rintro i (rfl | hi) j hj
        · exact hcurne j hj
        · exact hapart i hi j (mem_cons_of_mem cur hj))
      hsorted.2 (fun i hi => hsorted.1 i hi)
    refine ⟨u, ?_⟩
    have hset : insert cur done ∪ {i | i ∈ l} = done ∪ {i | i ∈ cur :: l} := by
      ext i
      simp only [Set.mem_union, Set.mem_insert_iff, Set.mem_ofPred_eq, mem_cons]
      tauto
    rw [hset] at hu
    exact hu

end

/-! ## The Whole Allocation -/

section
variable (codes : Chunk) (entryPc : Nat)

theorem intervalsOf_slots (d : DefUse) (callPcs : List Nat) :
    ((intervalsOf d callPcs).map LiveInterval.slot).Nodup := by
  have hslot : ∀ slot i, intervalOf d callPcs slot = some i → i.slot = slot := by
    intro slot i h
    unfold intervalOf at h
    split at h
    · cases h
    · simp only at h
      split at h
      · cases h
        rfl
      · cases h
  unfold intervalsOf
  generalize hl : range' 1 (d.firstDef.length - 1) = l
  have hnodup : l.Nodup := hl ▸ nodup_range'
  clear hl
  induction l with
  | nil => simp
  | cons slot l ih =>
    obtain ⟨hout, hrest⟩ := nodup_cons.mp hnodup
    rw [filterMap_cons]
    split
    · exact ih hrest
    · next i hi =>
      rw [map_cons, nodup_cons]
      refine ⟨fun hmem => ?_, ih hrest⟩
      obtain ⟨j, hj, heq⟩ := mem_map.mp hmem
      obtain ⟨slot', hslot', hof⟩ := mem_filterMap.mp hj
      rw [hslot slot i hi, hslot slot' j hof] at heq
      exact hout (heq ▸ hslot')

theorem allocated_all : ∃ u,
    Allocated (callPcsOf codes entryPc) (collectAll codes entryPc).firstDef.length
      {i | i ∈ intervalsOf (collectAll codes entryPc) (callPcsOf codes entryPc)}
      ((sortedIntervals codes entryPc).foldl allocStep
        ⟨⟨[], freeRegs⟩, replicate (collectAll codes entryPc).firstDef.length kSpilled⟩) u := by
  have hperm := mergeSort_perm (intervalsOf (collectAll codes entryPc) (callPcsOf codes entryPc))
    fun a b => a.start ≤ b.start
  have hsorted : (sortedIntervals codes entryPc).Pairwise fun a b => a.start ≤ b.start := by
    have := @pairwise_mergeSort LiveInterval (fun a b => a.start ≤ b.start)
      (fun a b c => by simp only [decide_eq_true_eq]; omega)
      (fun a b => by simp only [Bool.or_eq_true, decide_eq_true_eq]; omega)
      (intervalsOf (collectAll codes entryPc) (callPcsOf codes entryPc))
    exact this.imp fun h => of_decide_eq_true h
  have hmem : ∀ i, i ∈ sortedIntervals codes entryPc ↔
      i ∈ intervalsOf (collectAll codes entryPc) (callPcsOf codes entryPc) := fun i => hperm.mem_iff
  have hempty : Allocated (callPcsOf codes entryPc) (collectAll codes entryPc).firstDef.length ∅
      ⟨⟨[], freeRegs⟩, replicate (collectAll codes entryPc).firstDef.length kSpilled⟩ 0 := by
    refine ⟨?_, fun i hi => hi.elim, length_replicate, fun p hp => hp.1.elim,
      fun slot hslot => absurd ?_ hslot⟩
    swap
    · rw [getD_eq_getElem?_getD, getElem?_replicate]
      split <;> rfl
    have hnone : Held ∅ (replicate (collectAll codes entryPc).firstDef.length kSpilled) = ∅ := by
      ext p
      exact ⟨fun hp => hp.1, fun hp => hp.elim⟩
    show Shares _ _ _ _ (Held ∅ (replicate _ kSpilled)) 0
    rw [hnone]
    apply shares_nil
    intro r hr
    have hlt : r < kNumAllocatableRegs := by
      by_contra hge
      rw [getD_eq_getElem?_getD, getElem?_eq_none (le_of_not_gt hge)] at hr
      cases hr
    refine ⟨hlt, ?_⟩
    rintro rfl
    exact absurd hr (by decide)
  obtain ⟨u, hu⟩ := hempty.run (fun i hi => hi.elim) (fun i hi => hi.elim)
    (sortedIntervals codes entryPc)
    (fun i hi => by
      obtain ⟨hlives, hfits, hspans⟩ := mem_intervalsOf ((hmem i).mp hi)
      exact ⟨hlives.ordered, hfits, hspans⟩)
    ((hperm.map _).nodup_iff.mpr (intervalsOf_slots _ _))
    (fun i hi => hi.elim) hsorted (fun i _ => Nat.zero_le _)
  refine ⟨u, ?_⟩
  have hset : ∅ ∪ {i | i ∈ sortedIntervals codes entryPc} =
      {i | i ∈ intervalsOf (collectAll codes entryPc) (callPcsOf codes entryPc)} := by
    ext i
    simp [hmem]
  rw [hset] at hu
  exact hu

variable {codes entryPc}

theorem Lives.unique {slot start stop start' stop' : Nat} (h : Lives codes entryPc slot start stop)
    (h' : Lives codes entryPc slot start' stop') : start = start' ∧ stop = stop' := by
  have hfirst := h.first
  rw [h'.first, Option.some.injEq] at hfirst
  exact ⟨hfirst.symm, h.last.symm.trans h'.last⟩

variable (codes entryPc)

/-- A slot with a register is live, its register may be handed out, and no call comes inside its
    interval. Two slots with one register do not overlap: one stops at the latest where the other
    starts. -/
theorem linearScanAllocate_sound :
    (∀ slot : Nat, regForSlot (linearScanAllocate codes entryPc) slot ≠ kSpilled →
      ∃ start stop, Lives codes entryPc slot start stop ∧
        (∃ r ∈ registers, regForSlot (linearScanAllocate codes entryPc) slot = (r : Int)) ∧
        ∀ cp ∈ callPcsOf codes entryPc, ¬ (start < cp ∧ cp < stop)) ∧
    ∀ slot slot' start stop start' stop' : Nat, slot ≠ slot' →
      Lives codes entryPc slot start stop → Lives codes entryPc slot' start' stop' →
      regForSlot (linearScanAllocate codes entryPc) slot =
        regForSlot (linearScanAllocate codes entryPc) slot' →
      regForSlot (linearScanAllocate codes entryPc) slot ≠ kSpilled →
      ¬ (start < stop' ∧ start' < stop) := by
  obtain ⟨u, hall⟩ := allocated_all codes entryPc
  have hget : ∀ slot : Nat, regForSlot (linearScanAllocate codes entryPc) slot =
      (linearScanAllocate codes entryPc).getD slot kSpilled := by
    intro slot
    unfold regForSlot
    split
    · next h =>
      rw [getD_eq_getElem?_getD, getElem?_eq_none (by omega)]
      rfl
    · rfl
  have hheld : ∀ slot : Nat, regForSlot (linearScanAllocate codes entryPc) slot ≠ kSpilled →
      ∃ i r, (i, r) ∈ Held {i | i ∈ intervalsOf (collectAll codes entryPc)
          (callPcsOf codes entryPc)} (linearScanAllocate codes entryPc) ∧ i.slot = slot ∧
        Lives codes entryPc slot i.start i.stop ∧
        regForSlot (linearScanAllocate codes entryPc) slot = (r : Int) := by
    intro slot hslot
    rw [hget] at hslot
    obtain ⟨⟨i, r⟩, hp, heq⟩ := hall.only slot hslot
    have hlives := (mem_intervalsOf hp.1).1
    rw [show i.slot = slot from heq] at hlives
    refine ⟨i, r, hp, heq, hlives, ?_⟩
    rw [hget, ← heq]
    exact hp.2
  constructor
  · intro slot hslot
    obtain ⟨i, r, hp, heq, hlives, hreg⟩ := hheld slot hslot
    refine ⟨i.start, i.stop, hlives, ⟨r, hall.shares.given _ hp, hreg⟩, fun cp hcp hinside => ?_⟩
    have hspans := (mem_intervalsOf hp.1).2.2
    have hnone := hall.calls _ hp
    have hyes : intervalSpansCall (callPcsOf codes entryPc) i.start i.stop = true := by
      unfold intervalSpansCall
      exact any_eq_true.mpr ⟨cp, hcp, by simpa using hinside⟩
    rw [show i.spansCall = false from hnone, hyes] at hspans
    cases hspans
  · intro slot slot' start stop start' stop' hne hlives hlives' hsame hslot
    obtain ⟨i, r, hp, heq, hi, hreg⟩ := hheld slot hslot
    obtain ⟨j, q, hq, heq', hj, hreg'⟩ := hheld slot' (hsame ▸ hslot)
    obtain ⟨rfl, rfl⟩ := hlives.unique hi
    obtain ⟨rfl, rfl⟩ := hlives'.unique hj
    have hapart := hall.shares.apart _ hp _ hq
      (fun h => hne (heq.symm.trans ((congrArg (fun p => p.1.slot) h).trans heq')))
      (by
        rw [hreg, hreg'] at hsame
        exact Int.ofNat.inj hsame)
    rintro ⟨hover, hover'⟩
    rcases hapart with h | h
    · exact absurd hover' (Nat.not_lt_of_le h)
    · exact absurd hover (Nat.not_lt_of_le h)

end

end Camel.Jit
