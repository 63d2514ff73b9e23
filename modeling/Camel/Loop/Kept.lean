import Camel.Loop.Components

/-! # A Loop Run as its Components

    The run over the components and the run over the tuple go through the same
    states, as long as the state slots do not clash. Between two rounds the frames
    differ only in the slots the regions write, in the ports of the body and in the
    slot of the loop.
-/

namespace Camel.Loop

open Lib List Option Function
open Plan (Ref NodeKind)

/-! ## Where things are -/

/-- The values of a state at the ports from `first` on. -/
def bound (loop : ExecLoop) (first : Nat) (v : Nat → Value) (frame : Frame) : Frame :=
  putEach (fun j => loop.slotAt (first + j)) (fun _ j => v j) (List.range loop.stateCount) frame

variable {i : Nat} {s : Slot}

theorem bound_of_ne {loop : ExecLoop} {first : Nat}
    (h : ∀ j < loop.stateCount, loop.slotAt (first + j) ≠ s) (v : Nat → Value) (frame : Frame) :
    bound loop first v frame s = frame s :=
  putEach_of_ne (fun j hj => h j (mem_range.mp hj)) frame

namespace Layout

variable {graph : Graph} {fill : Node} {loop : ExecLoop} {writes : Writes}

section
variable (L : Layout graph fill loop writes)
include L

theorem slotAt_mem (h : loop.stateCount ≤ i)
    (hi : i < loop.bodyState + loop.stateCount) :
    loop.slotAt i ∈ loop.slots.drop loop.stateCount := by
  have hlen := L.slots_length
  have hget : loop.slotAt i = (loop.slots.drop loop.stateCount).get ⟨i - loop.stateCount,
      by rw [length_drop]; omega⟩ := by
    simp only [ExecLoop.slotAt, getD_eq_getElem?_getD, get_eq_getElem, getElem_drop]
    rw [getElem?_eq_getElem (by omega), getD_some]
    congr 1
    omega
  rw [hget]
  exact get_mem ..

theorem slotAt_inj {i j : Nat} (hi : loop.stateCount ≤ i)
    (hi' : i < loop.bodyState + loop.stateCount) (hj : loop.stateCount ≤ j)
    (hj' : j < loop.bodyState + loop.stateCount) (h : loop.slotAt i = loop.slotAt j) : i = j := by
  have hlen := L.slots_length
  have hnodup := (nodup_cons.mp (nodup_cons.mp L.ports_nodup).2).2
  have hget : ∀ m, loop.stateCount ≤ m → m < loop.bodyState + loop.stateCount →
      (loop.slots.drop loop.stateCount)[m - loop.stateCount]? = some (loop.slotAt m) := by
    intro m hm hm'
    rw [getElem?_drop, show loop.stateCount + (m - loop.stateCount) = m by omega]
    unfold ExecLoop.slotAt
    rw [getD_eq_getElem?_getD, getElem?_eq_getElem (by omega), getD_some]
  have hii : i - loop.stateCount < (loop.slots.drop loop.stateCount).length := by
    rw [length_drop]
    omega
  have heq := (getElem?_inj (j := j - loop.stateCount) hii hnodup).mp
    (by rw [hget i hi hi', hget j hj hj', h])
  omega

/-- A port is neither the value of the loop nor its round, and no code writes it. -/
theorem port_apart (h : loop.stateCount ≤ i)
    (hi : i < loop.bodyState + loop.stateCount) :
    loop.slotAt i ≠ loop.stateSlot ∧ loop.slotAt i ≠ loop.roundSlot ∧
      loop.slotAt i ∉ writes.cond ∧ loop.slotAt i ∉ writes.body := by
  have hmem := L.slotAt_mem h hi
  obtain ⟨hstate, hrest⟩ := nodup_cons.mp L.ports_nodup
  obtain ⟨hround, -⟩ := nodup_cons.mp hrest
  have hout : ∀ s, s ∈ writes.cond ∨ s ∈ writes.body → s ≠ loop.slotAt i := by
    intro s hs heq
    exact L.written s hs (by simp [heq, hmem])
  refine ⟨?_, fun h => hround (h ▸ hmem), fun h => hout _ (.inl h) rfl,
    fun h => hout _ (.inr h) rfl⟩
  intro h
  exact hstate (.tail _ (h ▸ hmem))

theorem state_apart :
    loop.stateSlot ≠ loop.roundSlot ∧ loop.stateSlot ∉ writes.cond ∧
      loop.stateSlot ∉ writes.body := by
  obtain ⟨hstate, -⟩ := nodup_cons.mp L.ports_nodup
  refine ⟨fun h => hstate (h ▸ .head _), fun h => L.written _ (.inl h) (by simp),
    fun h => L.written _ (.inr h) (by simp)⟩

theorem round_apart :
    loop.roundSlot ∉ writes.cond ∧ loop.roundSlot ∉ writes.body :=
  ⟨fun h => L.written _ (.inl h) (by simp), fun h => L.written _ (.inr h) (by simp)⟩

end

end Layout

namespace ExecLoop

variable {loop : ExecLoop}

theorem bodyFirst_le : loop.stateCount ≤ loop.bodyFirst := by
  unfold bodyFirst
  omega

theorem bodyFirst_le_bodyState : loop.bodyFirst ≤ loop.bodyState := by
  unfold bodyState
  omega

theorem IsCondPort.index (h : loop.IsCondPort s) :
    ∃ i, loop.stateCount ≤ i ∧ i < loop.bodyFirst ∧ loop.slotAt i = s := by
  obtain ⟨hcond, j, hj, rfl⟩ := h
  refine ⟨loop.stateCount + j, by omega, ?_, rfl⟩
  simp only [bodyFirst, hcond, if_true]
  omega

theorem IsBodyPort.index (h : loop.IsBodyPort s) :
    ∃ i, loop.bodyFirst ≤ i ∧ i < loop.bodyState + loop.stateCount ∧ loop.slotAt i = s := by
  obtain ⟨hiter, rfl⟩ | ⟨j, hj, rfl⟩ := h
  · refine ⟨loop.bodyFirst, le_rfl, ?_, rfl⟩
    simp only [bodyState, hiter, if_true]
    omega
  · exact ⟨loop.bodyState + j, by have := @ExecLoop.bodyFirst_le_bodyState loop; omega, by omega, rfl⟩

end ExecLoop

/-- The condition of a loop and its body have different ports. -/
theorem Layout.condPort_not_bodyPort {graph : Graph} {fill : Node} {loop : ExecLoop}
    {writes : Writes} (L : Layout graph fill loop writes) (hc : loop.IsCondPort s) :
    ¬ loop.IsBodyPort s := by
  intro hb
  obtain ⟨i, hi, hi', rfl⟩ := hc.index
  obtain ⟨j, hj, hj', heq⟩ := hb.index
  have hfirst := @ExecLoop.bodyFirst_le loop
  have hstate := @ExecLoop.bodyFirst_le_bodyState loop
  have := L.slotAt_inj (by omega) (by omega) (by omega) (by omega) heq
  omega

/-! ## Binding the ports -/

section Binding

variable {loop : ExecLoop} {first : Nat} {v : Nat → Value} {frame : Frame}

/-- The ports are bound to the items of the tuple. -/
theorem bindLoopState_tuple (hk : 2 ≤ loop.stateCount)
    (hstate : ∀ j < loop.stateCount, loop.slotAt (first + j) ≠ loop.stateSlot)
    (h : frame loop.stateSlot = .tuple ((range loop.stateCount).map v)) :
    bindLoopState loop.asTuple first frame = bound loop first v frame := by
  have hread : ∀ (f : Frame) (j : Nat), loopStateComponent loop.asTuple f j =
      (f loop.stateSlot).items.getD j .null := by
    intro f j
    show shapeStateComponent _ (f loop.stateSlot) j = _
    unfold shapeStateComponent ExecLoop.valueIsTuple
    simp [show loop.stateCount > 1 by omega]
  show putEach _ _ (range loop.stateCount) frame = _
  rw [putEach_congr _ fun j _ f => hread f j, putEach_at_once]
  · apply putEach_congr
    intro j hj _
    simp only [h, Value.items, getD_eq_getElem?_getD, getElem?_map,
      getElem?_range (mem_range.mp hj), map_some, getD_some]
  · -- the tuple is in the slot of the loop, which is no port
    apply Pairwise.imp_of_mem _ (pairwise_lt_range (n := loop.stateCount))
    intro i j hi _ _ f x
    show (update f (loop.slotAt (first + i)) x loop.stateSlot).items.getD j .null =
      (f loop.stateSlot).items.getD j .null
    rw [update_of_ne (hstate i (mem_range.mp hi)).symm]

/-- The ports are bound to the components, if none is a port bound before it is read. -/
theorem bindLoopState_parts {stateSlots : List Slot}
    (hread : loop.stateCount ≠ 2 → ∀ j < loop.stateCount, ∀ i < j,
      stateSlots.getD j 0 ≠ loop.slotAt (first + i))
    (h : ∀ j < loop.stateCount, frame (stateSlots.getD j 0) = v j) :
    bindLoopState (loop.asComponents stateSlots) first frame =
      bound loop first v frame := by
  unfold bindLoopState
  split
  · rename_i hcount
    have h2 : loop.stateCount = 2 := by simpa using hcount
    unfold bound
    rw [h2]
    show (frame.set (loop.slotAt first) (frame (stateSlots.getD 0 0))).set _
      (frame (stateSlots.getD 1 0)) = _
    rw [h 0 (by omega), h 1 (by omega)]
    rfl
  · rename_i hcount
    have h2 : loop.stateCount ≠ 2 := by simpa using hcount
    show putEach _ _ (range loop.stateCount) frame = _
    rw [putEach_at_once]
    · apply putEach_congr
      intro j hj _
      exact h j (mem_range.mp hj)
    · apply Pairwise.imp_of_mem _ (pairwise_lt_range (n := loop.stateCount))
      intro i j _ hj hlt f x
      exact update_of_ne (hread h2 j (mem_range.mp hj) i hlt) ..

end Binding

/-! ## The two runs side by side -/

section Runs

variable {W : Type} {graph : Graph} {fill : Node} {loop : ExecLoop} {writes : Writes}
  {stateSlots : List Slot} {start f g : Frame} {v : Nat → Value}

/-- The parts of the next state are values the body can see. -/
def Parts (graph : Graph) (fill : Node) (loop : ExecLoop) (stateSlots : List Slot) : Prop :=
  ∀ j < loop.stateCount, ∃ input ∈ fill.withInputs,
    graph.dataIndexOf input = stateSlots.getD j 0

/-- A slot the regions do not write and that is not the value of the loop. -/
def Quiet (loop : ExecLoop) (writes : Writes) (s : Slot) : Prop :=
  s ≠ loop.stateSlot ∧ s ∉ writes.cond ∧ s ∉ writes.body

/-- Frames between two rounds: the components of one are the items of the other's
    tuple, and the loop has left everything outside of it alone. -/
structure Matches (loop : ExecLoop) (writes : Writes) (stateSlots : List Slot) (start f g : Frame)
    (v : Nat → Value) : Prop where
  same : ∀ s, Quiet loop writes s → ¬ loop.IsBodyPort s → f s = g s
  parts : ∀ j < loop.stateCount, f (stateSlots.getD j 0) = v j
  tuple : g loop.stateSlot = .tuple ((List.range loop.stateCount).map v)
  kept : (f loop.stateSlot).items.length = loop.stateCount
  outside : ∀ s, ¬ loop.Inside writes s → f s = start s
  round : 0 ≤ (f loop.roundSlot).toInt

/-- Frames in a round once the ports of the body are bound. -/
structure Enters (loop : ExecLoop) (writes : Writes) (start f g : Frame) : Prop where
  same : ∀ s, Quiet loop writes s → f s = g s
  kept : (f loop.stateSlot).items.length = loop.stateCount
  outside : ∀ s, ¬ loop.Inside writes s → f s = start s
  round : 0 ≤ (f loop.roundSlot).toInt

theorem quiet_of_outside (h : ¬ loop.Inside writes s) : Quiet loop writes s := by
  unfold ExecLoop.Inside at h
  push Not at h
  exact ⟨h.1, h.2.2.2.2.1, h.2.2.2.2.2⟩

theorem not_bodyPort_of_outside (h : ¬ loop.Inside writes s) : ¬ loop.IsBodyPort s :=
  fun hb => h (.inr (.inr (.inr (.inl hb))))

section
variable (L : Layout graph fill loop writes)
include L

theorem Layout.quiet_port (h : loop.stateCount ≤ i)
    (hi : i < loop.bodyState + loop.stateCount) : Quiet loop writes (loop.slotAt i) :=
  ⟨(L.port_apart h hi).1, (L.port_apart h hi).2.2.1, (L.port_apart h hi).2.2.2⟩

theorem Layout.quiet_condPort
    (h : loop.IsCondPort s) : Quiet loop writes s := by
  obtain ⟨i, hi, hi', rfl⟩ := h.index
  have := @ExecLoop.bodyFirst_le_bodyState loop
  exact L.quiet_port hi (by omega)

theorem Layout.quiet_bodyPort
    (h : loop.IsBodyPort s) : Quiet loop writes s := by
  obtain ⟨i, hi, hi', rfl⟩ := h.index
  exact L.quiet_port (le_trans ExecLoop.bodyFirst_le hi) hi'

theorem Layout.quiet_round : Quiet loop writes loop.roundSlot :=
  ⟨L.state_apart.1.symm, L.round_apart⟩

/-- Binding the ports of the condition keeps the frames together. -/
theorem Matches.bindCond (hk : 2 ≤ loop.stateCount)
    (hparts : Parts graph fill loop stateSlots) (hcond : loop.hasCond = true)
    (h : Matches loop writes stateSlots start f g v) :
    Matches loop writes stateSlots start
      (bindLoopState (loop.asComponents stateSlots) loop.stateCount f)
      (bindLoopState loop.asTuple loop.stateCount g) v := by
  have hlast : loop.stateCount + loop.stateCount ≤ loop.bodyState := by
    have := @ExecLoop.bodyFirst_le_bodyState loop
    unfold ExecLoop.bodyFirst at this
    simp only [hcond, if_true] at this
    omega
  have hport : ∀ j < loop.stateCount, loop.IsCondPort (loop.slotAt (loop.stateCount + j)) :=
    fun j hj => ⟨hcond, j, hj, rfl⟩
  -- a part of the state is no port of the condition
  have hpart : ∀ j < loop.stateCount, ∀ i < loop.stateCount,
      loop.slotAt (loop.stateCount + i) ≠ stateSlots.getD j 0 := by
    intro j hj i hi heq
    obtain ⟨input, hinput, hslot⟩ := hparts j hj
    exact (L.input_seen input hinput _ hslot).2.2.1 (heq ▸ hport i hi)
  rw [bindLoopState_tuple hk (fun j hj => (L.quiet_condPort (hport j hj)).1) h.tuple,
    bindLoopState_parts (fun _ j hj i hi => (hpart j hj i (by omega)).symm) h.parts]
  constructor
  · intro s hs hb
    exact putEach_agree _ (h.same s hs hb)
  · intro j hj
    rw [bound_of_ne (hpart j hj)]
    exact h.parts j hj
  · rw [bound_of_ne fun j hj => (L.quiet_condPort (hport j hj)).1]
    exact h.tuple
  · rw [bound_of_ne fun j hj => (L.quiet_condPort (hport j hj)).1]
    exact h.kept
  · intro s hs
    rw [bound_of_ne]
    · exact h.outside s hs
    · rintro j hj rfl
      exact hs (.inr (.inr (.inl (hport j hj))))
  · rw [bound_of_ne fun j hj => (L.port_apart (by omega) (by omega)).2.1]
    exact h.round

end

/-- The frame once the first state is made. -/
def started (loop : ExecLoop) (frame : Frame) : Frame :=
  (frame.set loop.roundSlot (.int 0)).set loop.stateSlot
    (.tuple ((List.range loop.stateCount).map fun j => frame (loop.slotAt j)))

theorem startLoopState_eq (L : Layout graph fill loop writes) (hk : 2 ≤ loop.stateCount)
    (hcollects : loop.collectionCount = 0) (frame : Frame) :
    startLoopState loop (frame.set loop.roundSlot (.int 0)) = started loop frame := by
  have hfirst : (range loop.stateCount).map
      (fun j => frame.set loop.roundSlot (.int 0) (loop.slotAt j)) =
      (range loop.stateCount).map fun j => frame (loop.slotAt j) := by
    apply map_congr_left
    intro j hj
    apply Frame.set_of_ne
    intro h
    exact L.first_outside j (mem_range.mp hj) (.inr (.inl h))
  unfold startLoopState started ExecLoop.valueIsTuple
  rw [hfirst, hcollects]
  simp [show loop.stateCount > 1 by omega]

/-- The loop starts the same way with its components as with its tuple. -/
theorem matches_loopBegin (L : Layout graph fill loop writes) (hk : 2 ≤ loop.stateCount)
    (hcollects : loop.collectionCount = 0) (hparts : Parts graph fill loop stateSlots)
    (hsep : Separate loop writes stateSlots) :
    Matches loop writes stateSlots start (loopBegin (loop.asComponents stateSlots) start)
      (loopBegin loop.asTuple start) (fun j => start (loop.slotAt j)) := by
  have hinput : ∀ j < loop.stateCount, stateSlots.getD j 0 ≠ loop.stateSlot ∧
      stateSlots.getD j 0 ≠ loop.roundSlot ∧ stateSlots.getD j 0 ∉ writes.cond := by
    intro j hj
    obtain ⟨input, hin, hslot⟩ := hparts j hj
    have := L.input_seen input hin _ hslot
    exact ⟨this.1, this.2.1, this.2.2.2.1⟩
  -- the frame the components are written into
  let f := putEach (fun j => stateSlots.getD j 0) (fun _ j => start (loop.slotAt j))
    (range loop.stateCount) (started loop start)
  have hput : putEach (fun j => stateSlots.getD j 0)
      (fun _ j => shapeStateComponent loop (started loop start loop.stateSlot) j)
      (range loop.stateCount) (started loop start) = f := by
    apply putEach_congr
    intro j hj _
    unfold shapeStateComponent ExecLoop.valueIsTuple started
    simp [show loop.stateCount > 1 by omega, Value.items, mem_range.mp hj]
  have hcomponents : loopBegin (loop.asComponents stateSlots) start =
      if loop.hasCond then bindLoopState (loop.asComponents stateSlots) loop.stateCount f else f := by
    have hdef : ∀ x, startLoopState loop (start.set loop.roundSlot (.int 0)) = x →
        loopBegin (loop.asComponents stateSlots) start =
          (fun f => if loop.hasCond then
            bindLoopState (loop.asComponents stateSlots) loop.stateCount f else f)
          (putEach (fun j => stateSlots.getD j 0)
            (fun _ j => shapeStateComponent loop (x loop.stateSlot) j)
            (range loop.stateCount) x) := by
      rintro x rfl
      rfl
    rw [hdef _ (startLoopState_eq L hk hcollects start), hput]
  have htuple : loopBegin loop.asTuple start =
      if loop.hasCond then bindLoopState loop.asTuple loop.stateCount (started loop start)
      else started loop start := by
    have hdef : ∀ x, startLoopState loop (start.set loop.roundSlot (.int 0)) = x →
        loopBegin loop.asTuple start =
          (fun f => if loop.hasCond then bindLoopState loop.asTuple loop.stateCount f else f) x := by
      rintro x rfl
      rfl
    exact hdef _ (startLoopState_eq L hk hcollects start)
  have hkeep : ∀ s, s ≠ loop.stateSlot → s ≠ loop.roundSlot → started loop start s = start s := by
    intro s hs hr
    unfold started
    rw [Frame.set_of_ne hs, Frame.set_of_ne hr]
  have hmatches : Matches loop writes stateSlots start f (started loop start)
      (fun j => start (loop.slotAt j)) := by
    have hsame : ∀ s, Quiet loop writes s → ¬ loop.IsBodyPort s → f s = started loop start s := by
      intro s hs hb
      by_cases hin : ∃ j ∈ range loop.stateCount, stateSlots.getD j 0 = s
      · -- a part that is not the loop's is in the slot it starts from
        have hout : ∀ j < loop.stateCount, stateSlots.getD j 0 = s → loop.slotAt j = s := by
          rintro j hj rfl
          refine (hsep.outside j hj ?_).symm
          obtain ⟨input, hin, hslot⟩ := hparts j hj
          have := L.input_seen input hin _ hslot
          rintro (h | h | h | h | h | h)
          · exact hs.1 h
          · exact this.2.1 h
          · exact this.2.2.1 h
          · exact hb h
          · exact hs.2.1 h
          · exact hs.2.2 h
        obtain ⟨j, hj, hjs⟩ := hin
        have hne := hinput j (mem_range.mp hj)
        rw [hkeep s hs.1 (hjs ▸ hne.2.1)]
        apply putEach_of_mem ⟨j, hj, hjs⟩
        intro i hi his
        rw [hout i (mem_range.mp hi) his]
      · push Not at hin
        exact putEach_of_ne hin _
    constructor
    · exact hsame
    · intro j hj
      apply putEach_of_mem ⟨j, mem_range.mpr hj, rfl⟩
      intro i hi heq
      rw [hsep.shared i (mem_range.mp hi) j hj heq]
    · exact Frame.set_self ..
    · have : f loop.stateSlot = started loop start loop.stateSlot :=
        putEach_of_ne (fun j hj => (hinput j (mem_range.mp hj)).1) _
      rw [this]
      unfold started
      rw [Frame.set_self]
      simp [Value.items]
    · intro s hs
      rw [hsame s (quiet_of_outside hs) (not_bodyPort_of_outside hs)]
      exact hkeep s (fun h => hs (.inl h)) fun h => hs (.inr (.inl h))
    · have : f loop.roundSlot = started loop start loop.roundSlot :=
        putEach_of_ne (fun j hj => (hinput j (mem_range.mp hj)).2.1) _
      rw [this]
      unfold started
      rw [Frame.set_of_ne L.state_apart.1.symm, Frame.set_self]
      exact le_refl 0
  rw [hcomponents, htuple]
  split
  · rename_i hcond
    exact hmatches.bindCond L hk hparts hcond
  · exact hmatches

/-- The condition keeps the frames together and answers the same in both. -/
theorem Matches.cond (L : Layout graph fill loop writes)
    (hparts : Parts graph fill loop stateSlots) {code body : Code W}
    (hb : Behaves graph fill loop writes code body) (hcond : loop.hasCond = true)
    (h : Matches loop writes stateSlots start f g v) (w : W) :
    (code w f = none ∧ code w g = none) ∨
    ∃ w' f' g', code w f = some (w', f') ∧ code w g = some (w', g') ∧
      Matches loop writes stateSlots start f' g' v ∧
      f' loop.condResultSlot = g' loop.condResultSlot := by
  have hsees : ∀ s, CondSees loop writes s → f s = g s := by
    rintro s (hs | hs)
    · exact h.same s (L.quiet_condPort hs) (L.condPort_not_bodyPort hs)
    · exact h.same s (quiet_of_outside hs) (not_bodyPort_of_outside hs)
  obtain hnone | ⟨w', f', g', hf, hg, hresult⟩ := hb.cond.reads w f g hsees
  · exact .inl hnone
  refine .inr ⟨w', f', g', hf, hg, ?_⟩
  have hf' := hb.cond.frame w f w' f' hf
  have hg' := hb.cond.frame w g w' g' hg
  have hmatches : Matches loop writes stateSlots start f' g' v := by
    constructor
    · intro s hs hbody
      rw [hf' s hs.2.1, hg' s hs.2.1]
      exact h.same s hs hbody
    · intro j hj
      obtain ⟨input, hin, hslot⟩ := hparts j hj
      rw [hf' _ (L.input_seen input hin _ hslot).2.2.2.1]
      exact h.parts j hj
    · rw [hg' _ L.state_apart.2.1]
      exact h.tuple
    · rw [hf' _ L.state_apart.2.1]
      exact h.kept
    · intro s hs
      rw [hf' s (quiet_of_outside hs).2.1]
      exact h.outside s hs
    · rw [hf' _ L.round_apart.1]
      exact h.round
  refine ⟨hmatches, ?_⟩
  obtain hwritten | hport | hout := L.cond_result hcond
  · exact hresult _ rfl hwritten
  · exact hmatches.same _ (L.quiet_condPort hport) (L.condPort_not_bodyPort hport)
  · exact hmatches.same _ (quiet_of_outside hout) (not_bodyPort_of_outside hout)

/-- Both runs take the same element in a round. -/
theorem Matches.roundElement (L : Layout graph fill loop writes)
    (h : Matches loop writes stateSlots start f g v) (round : Int) :
    roundElement loop f round = roundElement loop g round := by
  have hout : ∀ s, ¬ loop.Inside writes s → f s = g s :=
    fun s hs => h.same s (quiet_of_outside hs) (not_bodyPort_of_outside hs)
  have hbound : ∀ p ∈ loop.interval, ∀ b, p.1 = b ∨ p.2 = b →
      intervalBoundValue f b = intervalBoundValue g b := by
    intro p hp b hb
    cases b with
    | constant n => rfl
    | slot s =>
      show (f s).toInt = (g s).toInt
      rw [hout s (L.bounds_outside p hp s hb)]
  unfold Loop.roundElement
  split
  · rename_i lo hi heq
    have hp : (lo, hi) ∈ loop.interval := heq
    rw [hbound _ hp lo (.inl rfl), hbound _ hp hi (.inr rfl)]
  · rw [hout _ L.iterable_outside]

/-- The ports of the body are bound to the same values. -/
theorem Matches.enter (L : Layout graph fill loop writes) (hk : 2 ≤ loop.stateCount)
    (hsep : Separate loop writes stateSlots) (h : Matches loop writes stateSlots start f g v)
    (element : Option Value) (helement : element.isSome = loop.iterates) :
    Enters loop writes start
      (bindLoopState (loop.asComponents stateSlots) loop.bodyState
        ((element.map (f.set loop.elementPort)).getD f))
      (bindLoopState loop.asTuple loop.bodyState
        ((element.map (g.set loop.elementPort)).getD g)) := by
  have hfirst := @ExecLoop.bodyFirst_le loop
  have hlast := @ExecLoop.bodyFirst_le_bodyState loop
  have hport : ∀ j < loop.stateCount, loop.IsBodyPort (loop.slotAt (loop.bodyState + j)) :=
    fun j hj => .inr ⟨j, hj, rfl⟩
  -- what the element is written over
  have hset : ∀ (f : Frame) s, (loop.iterates = true → s ≠ loop.elementPort) →
      (element.map (f.set loop.elementPort)).getD f s = f s := by
    intro f s hs
    cases element with
    | none => rfl
    | some e => exact Frame.set_of_ne (hs (by rw [← helement]; rfl))
  have hquiet : loop.iterates = true → Quiet loop writes loop.elementPort :=
    fun hiter => L.quiet_bodyPort (.inl ⟨hiter, rfl⟩)
  have hround : loop.iterates = true → loop.roundSlot ≠ loop.elementPort := by
    intro hiter
    obtain ⟨i, hi, hi', heq⟩ := ExecLoop.IsBodyPort.index (.inl ⟨hiter, rfl⟩)
    exact heq ▸ (L.port_apart (le_trans hfirst hi) hi').2.1.symm
  have htuple : (element.map (g.set loop.elementPort)).getD g loop.stateSlot =
      .tuple ((range loop.stateCount).map v) := by
    rw [hset g _ fun hiter => (hquiet hiter).1.symm]
    exact h.tuple
  have hparts : ∀ j < loop.stateCount,
      (element.map (f.set loop.elementPort)).getD f (stateSlots.getD j 0) = v j := by
    intro j hj
    rw [hset f _ fun hiter => hsep.element hiter j hj]
    exact h.parts j hj
  rw [bindLoopState_tuple hk (fun j hj => (L.quiet_bodyPort (hport j hj)).1) htuple,
    bindLoopState_parts (fun h2 j hj i hi => hsep.rebound h2 j hj i hi) hparts]
  constructor
  · intro s hs
    by_cases hw : ∃ j ∈ range loop.stateCount, loop.slotAt (loop.bodyState + j) = s
    · -- a port of the state
      obtain ⟨j, hj, rfl⟩ := hw
      have hinj : ∀ i ∈ range loop.stateCount,
          loop.slotAt (loop.bodyState + i) = loop.slotAt (loop.bodyState + j) → v i = v j := by
        intro i hi heq
        have hi := mem_range.mp hi
        have hj := mem_range.mp hj
        have := L.slotAt_inj (by omega) (by omega) (by omega) (by omega) heq
        rw [show i = j by omega]
      unfold bound
      rw [putEach_of_mem ⟨j, hj, rfl⟩ hinj, putEach_of_mem ⟨j, hj, rfl⟩ hinj]
    · apply putEach_agree
      by_cases he : loop.iterates = true ∧ s = loop.elementPort
      · obtain ⟨e, rfl⟩ := isSome_iff_exists.mp (helement.trans he.1)
        simp [he.2]
      · rw [hset f s fun hiter h => he ⟨hiter, h⟩, hset g s fun hiter h => he ⟨hiter, h⟩]
        apply h.same s hs
        rintro (⟨hiter, rfl⟩ | ⟨j, hj, rfl⟩)
        · exact he ⟨hiter, rfl⟩
        · exact hw ⟨j, mem_range.mpr hj, rfl⟩
  · rw [bound_of_ne fun j hj => (L.quiet_bodyPort (hport j hj)).1,
      hset f _ fun hiter => (hquiet hiter).1.symm]
    exact h.kept
  · intro s hs
    have hb := not_bodyPort_of_outside hs
    have hne : ∀ j < loop.stateCount, loop.slotAt (loop.bodyState + j) ≠ s :=
      fun j hj heq => hb (heq ▸ hport j hj)
    rw [bound_of_ne hne,
      hset f s fun hiter heq => hb (.inl ⟨hiter, heq.symm⟩)]
    exact h.outside s hs
  · rw [bound_of_ne fun j hj => (L.port_apart (by omega) (by omega)).2.1, hset f _ hround]
    exact h.round

/-- The next round of a loop of components. -/
theorem loopEnd_asComponents (hround : 0 ≤ (f loop.roundSlot).toInt) :
    (loopEnd (loop.asComponents stateSlots) f).2 =
      (fun f => if loop.hasCond then bindLoopState (loop.asComponents stateSlots) loop.stateCount f
        else f) (f.set loop.roundSlot (.int ((f loop.roundSlot).toInt + 1))) :=
  congrArg Prod.snd (loopEnd_next (show 0 ≤ (f (loop.asComponents stateSlots).roundSlot).toInt from hround))

/-- The next round of a loop that keeps its tuple: what the body returned is the state. -/
theorem loopEnd_asTuple (hcollects : loop.collectionCount = 0)
    (hround : 0 ≤ (g loop.roundSlot).toInt) :
    (loopEnd loop.asTuple g).2 =
      (fun f => if loop.hasCond then bindLoopState loop.asTuple loop.stateCount f else f)
        ((g.set loop.stateSlot (g loop.bodyResultSlot)).set loop.roundSlot
          (.int ((g loop.roundSlot).toInt + 1))) := by
  have hnext : nextState loop.asTuple g = g.set loop.stateSlot (g loop.bodyResultSlot) :=
    congrArg (g.set loop.stateSlot) (if_pos hcollects)
  rw [← hnext]
  exact congrArg Prod.snd (loopEnd_next (show 0 ≤ (g loop.asTuple.roundSlot).toInt from hround))

/-- The body computes the same next state in both runs, and both start their next
    round from it. -/
theorem Enters.body (L : Layout graph fill loop writes) {topo : List Ref} {elidedTopo : Nat}
    (hplan : graph.Planned topo loop fill stateSlots elidedTopo)
    (hparts : Parts graph fill loop stateSlots) {code body : Code W}
    (hb : Behaves graph fill loop writes code body)
    (htemplate : (start (graph.dataIndexOf (fill.normInputs.headD 0))).items.length =
      loop.stateCount)
    (h : Enters loop writes start f g) (w : W) :
    (bodyRange graph fill (loop.asComponents stateSlots) body w f = none ∧
      bodyRange graph fill loop.asTuple body w g = none) ∨
    ∃ w' f' g', bodyRange graph fill (loop.asComponents stateSlots) body w f = some (w', f') ∧
      bodyRange graph fill loop.asTuple body w g = some (w', g') ∧
      ∃ v, Matches loop writes stateSlots start (loopEnd (loop.asComponents stateSlots) f').2
        (loopEnd loop.asTuple g').2 v := by
  have hk := hplan.several
  have hsees : ∀ s, BodySees loop writes s → f s = g s := by
    rintro s (hs | hs)
    · exact h.same s (L.quiet_bodyPort hs)
    · exact h.same s (quiet_of_outside hs)
  obtain ⟨hf, hg⟩ | ⟨w', f', g', hf, hg, hresult⟩ := hb.body.reads w f g hsees
  · exact .inl ⟨by simp [bodyRange, hf], by simp [bodyRange, hg]⟩
  have hf' := hb.body.frame w f w' f' hf
  have hg' := hb.body.frame w g w' g' hg
  have hquiet : ∀ s, Quiet loop writes s → f' s = g' s := by
    intro s hs
    rw [hf' s hs.2.2, hg' s hs.2.2]
    exact h.same s hs
  -- the parts of the next state, whether the body computes them or not
  have hnext : ∀ j < loop.stateCount, f' (stateSlots.getD j 0) = g' (stateSlots.getD j 0) := by
    intro j hj
    obtain ⟨input, hin, hslot⟩ := hparts j hj
    have hseen := L.input_seen input hin _ hslot
    by_cases hw : stateSlots.getD j 0 ∈ writes.body
    · exact hresult _ ⟨input, hin, hslot⟩ hw
    · exact hquiet _ ⟨hseen.1, hseen.2.2.2.1, hw⟩
  have hstate := L.state_apart
  have hround : 0 ≤ (f' loop.roundSlot).toInt := by
    rw [hf' _ L.round_apart.2]
    exact h.round
  -- the tuple of the run that keeps it
  let tuple := Value.tuple (stateSlots.map g')
  have hfill : graph.runFill fill g' = g'.set fill.dataIndex tuple := by
    apply hplan.tuple
    rw [← hquiet _ (quiet_of_outside L.template_outside),
      hf' _ (quiet_of_outside L.template_outside).2.2, h.outside _ L.template_outside]
    exact htemplate
  have hfillround : loop.roundSlot ≠ fill.dataIndex :=
    fun heq => L.round_apart.2 (heq ▸ L.fill_written)
  refine .inr ⟨w', f', g'.set fill.dataIndex tuple, by simp [bodyRange, hf],
    by simp [bodyRange, hg, hfill], fun j => f' (stateSlots.getD j 0), ?_⟩
  let n := (f' loop.roundSlot).toInt + 1
  have hr : (g'.set fill.dataIndex tuple) loop.roundSlot = f' loop.roundSlot := by
    rw [Frame.set_of_ne hfillround, hquiet _ L.quiet_round]
  have hmatches : Matches loop writes stateSlots start (f'.set loop.roundSlot (.int n))
      (((g'.set fill.dataIndex tuple).set loop.stateSlot tuple).set loop.roundSlot (.int n))
      (fun j => f' (stateSlots.getD j 0)) := by
    constructor
    · intro s hs _
      by_cases hr : s = loop.roundSlot
      · rw [hr, Frame.set_self, Frame.set_self]
      · have hfill : s ≠ fill.dataIndex := fun heq => hs.2.2 (heq ▸ L.fill_written)
        rw [Frame.set_of_ne hr, Frame.set_of_ne hr, Frame.set_of_ne hs.1, Frame.set_of_ne hfill]
        exact hquiet s hs
    · intro j hj
      obtain ⟨input, hin, hslot⟩ := hparts j hj
      rw [Frame.set_of_ne (L.input_seen input hin _ hslot).2.1]
    · rw [Frame.set_of_ne hstate.1, Frame.set_self]
      show Value.tuple (stateSlots.map g') = .tuple _
      congr 1
      apply ext_getElem (by simp [hplan.length])
      intro j hj _
      have hj' : j < loop.stateCount := by simpa [hplan.length] using hj
      have := hnext j hj'
      simp only [getElem_map, getElem_range]
      rw [this, getD_eq_getElem?_getD, getElem?_eq_getElem (by simpa using hj),
        getD_some]
    · rw [Frame.set_of_ne hstate.1, hf' _ hstate.2.2]
      exact h.kept
    · intro s hs
      rw [Frame.set_of_ne fun heq => hs (.inr (.inl heq)), hf' s (quiet_of_outside hs).2.2]
      exact h.outside s hs
    · rw [Frame.set_self]
      show 0 ≤ n
      omega
  rw [loopEnd_asComponents hround, loopEnd_asTuple hplan.collects (hr ▸ hround), hr, L.fill_result,
    Frame.set_self]
  dsimp only
  split
  · rename_i hcond
    exact hmatches.bindCond L hk hparts hcond
  · exact hmatches

/-- The test of a round: both runs fault, stop or go on. -/
theorem Matches.test (L : Layout graph fill loop writes) (hk : 2 ≤ loop.stateCount)
    (hsep : Separate loop writes stateSlots) (h : Matches loop writes stateSlots start f g v)
    (hcond : loop.hasCond = true → f loop.condResultSlot = g loop.condResultSlot) :
    (loopTest (loop.asComponents stateSlots) f = none ∧ loopTest loop.asTuple g = none) ∨
    (loopTest (loop.asComponents stateSlots) f = some (true, f.set loop.roundSlot (.int (-1))) ∧
      loopTest loop.asTuple g = some (true, g.set loop.roundSlot (.int (-1)))) ∨
    ∃ f' g', loopTest (loop.asComponents stateSlots) f = some (false, f') ∧
      loopTest loop.asTuple g = some (false, g') ∧ Enters loop writes start f' g' := by
  have hround : f loop.roundSlot = g loop.roundSlot := by
    apply h.same _ L.quiet_round
    intro hb
    obtain ⟨i, hi, hi', heq⟩ := hb.index
    exact (L.port_apart (le_trans ExecLoop.bodyFirst_le hi) hi').2.1 heq
  have henter := h.enter L hk hsep
  by_cases hstop : (loop.hasCond && !(f loop.condResultSlot).toBool) = true
  · -- the condition does not hold
    have hstop' : (loop.hasCond && !(g loop.condResultSlot).toBool) = true := by
      rw [Bool.and_eq_true] at hstop
      rw [← hcond hstop.1]
      simpa using hstop
    exact .inr (.inl ⟨@loopTest_stop (loop.asComponents stateSlots) _ hstop,
      @loopTest_stop loop.asTuple _ hstop'⟩)
  rw [Bool.not_eq_true] at hstop
  have hgo : (loop.hasCond && !(g loop.condResultSlot).toBool) = false := by
    cases hc : loop.hasCond
    · rfl
    · rw [← hcond hc]
      simpa [hc] using hstop
  cases hiter : loop.iterates
  · exact .inr (.inr ⟨_, _, @loopTest_go (loop.asComponents stateSlots) _ hstop hiter,
      @loopTest_go loop.asTuple _ hgo hiter, henter none (by simp [hiter])⟩)
  have hf := @loopTest_element (loop.asComponents stateSlots) _ hstop hiter
  have hg := @loopTest_element loop.asTuple _ hgo hiter
  have helement : Loop.roundElement loop.asTuple g (g loop.asTuple.roundSlot).toInt =
      Loop.roundElement (loop.asComponents stateSlots) f
        (f (loop.asComponents stateSlots).roundSlot).toInt := by
    show Loop.roundElement loop g (g loop.roundSlot).toInt = _
    rw [← hround]
    exact (h.roundElement L _).symm
  rw [helement] at hg
  match he : Loop.roundElement (loop.asComponents stateSlots) f
      (f (loop.asComponents stateSlots).roundSlot).toInt with
  | none =>
    rw [he] at hf hg
    exact .inl ⟨hf, hg⟩
  | some none =>
    rw [he] at hf hg
    exact .inr (.inl ⟨hf, hg⟩)
  | some (some e) =>
    rw [he] at hf hg
    exact .inr (.inr ⟨_, _, hf, hg, henter (some e) hiter.symm⟩)

/-- What two outcomes have in common, the loop run as its components on the left:
    both fault, or they go on in one world, or they end there with one value; nothing
    outside the loop is written. -/
def SameOutcome (loop : ExecLoop) (writes : Writes) (start : Frame) : Outcome W → Outcome W → Prop
  | .fault, .fault => True
  | .running w f, .running w' _ => w = w' ∧ ∀ s, ¬ loop.Inside writes s → f s = start s
  | .finished w f, .finished w' g =>
    w = w' ∧ f loop.stateSlot = g loop.stateSlot ∧ ∀ s, ¬ loop.Inside writes s → f s = start s
  | _, _ => False

/-- Two runs after a round. -/
def SameRound (loop : ExecLoop) (writes : Writes) (stateSlots : List Slot) (start : Frame)
    (a b : List Seen × Outcome W) : Prop :=
  a.1 = b.1 ∧ ((∃ w f g v, a.2 = .running w f ∧ b.2 = .running w g ∧
      Matches loop writes stateSlots start f g v) ∨
    (SameOutcome loop writes start a.2 b.2 ∧ (∀ w f, a.2 ≠ .running w f)))

theorem foldl_range_set (w : Nat → Value) {items : List Value} {n : Nat} (h : n ≤ items.length) :
    (range n).foldl (fun items j => items.set j (w j)) items =
      (range n).map w ++ items.drop n := by
  induction n with
  | zero => rfl
  | succ n ih =>
    rw [range_succ, foldl_concat, ih (by omega), set_append,
      if_neg (by simp), length_map, length_range, Nat.sub_self,
      drop_eq_getElem_cons (show n < items.length by omega), set_cons_zero]
    simp

/-- A stopped loop has the same value either way. -/
theorem Matches.finished (L : Layout graph fill loop writes)
    (hparts : Parts graph fill loop stateSlots)
    (h : Matches loop writes stateSlots start f g v) (w : W) :
    SameOutcome loop writes start
      (.finished w (loopEnd (loop.asComponents stateSlots) (f.set loop.roundSlot (.int (-1)))).2)
      (.finished w (loopEnd loop.asTuple (g.set loop.roundSlot (.int (-1)))).2) := by
  have hstate := L.state_apart.1
  have hneg : ∀ f : Frame, ((f.set loop.roundSlot (.int (-1))) loop.roundSlot).toInt < 0 := by
    intro f
    rw [Frame.set_self]
    decide
  -- the components are what the round before left, whatever the round counter
  have hread : ∀ items : List Value, (range loop.stateCount).foldl (fun items j =>
      items.set j (f.set loop.roundSlot (.int (-1)) (stateSlots.getD j 0))) items =
      (range loop.stateCount).foldl (fun items j => items.set j (v j)) items := by
    intro items
    apply foldl_ext
    intro items j hj
    obtain ⟨input, hin, hslot⟩ := hparts j (mem_range.mp hj)
    rw [Frame.set_of_ne (L.input_seen input hin _ hslot).2.1, h.parts j (mem_range.mp hj)]
  have hf := congrArg Prod.snd (@loopEnd_stopped (loop.asComponents stateSlots) _ (hneg f))
  have hg := congrArg Prod.snd (@loopEnd_stopped loop.asTuple _ (hneg g))
  rw [hf, hg]
  refine ⟨rfl, ?_, ?_⟩
  · show (Frame.set _ loop.stateSlot (.tuple ((range loop.stateCount).foldl (fun items j =>
      items.set j (f.set loop.roundSlot (.int (-1)) (stateSlots.getD j 0))) _))) loop.stateSlot =
      g.set loop.roundSlot (.int (-1)) loop.stateSlot
    rw [Frame.set_self, hread, Frame.set_of_ne hstate, h.tuple]
    have hlen : (f.set loop.roundSlot (.int (-1)) loop.stateSlot).items.length =
        loop.stateCount := by
      rw [Frame.set_of_ne hstate, h.kept]
    rw [show (f.set loop.roundSlot (.int (-1))) (loop.asComponents stateSlots).stateSlot =
        f.set loop.roundSlot (.int (-1)) loop.stateSlot from rfl,
      foldl_range_set v (le_of_eq hlen.symm), drop_eq_nil_of_le (le_of_eq hlen),
      append_nil]
  · intro s hs
    show (Frame.set _ loop.stateSlot _) s = start s
    rw [Frame.set_of_ne fun heq => hs (.inl heq),
      Frame.set_of_ne fun heq => hs (.inr (.inl heq))]
    exact h.outside s hs

theorem Matches.seenByCond (L : Layout graph fill loop writes)
    (h : Matches loop writes stateSlots start f g v) : seenByCond loop f = seenByCond loop g := by
  unfold Loop.seenByCond portsAt
  split
  · rename_i hcond
    congr 2
    apply map_congr_left
    intro j hj
    have hport : loop.IsCondPort (loop.slotAt (loop.stateCount + j)) :=
      ⟨hcond, j, mem_range.mp hj, rfl⟩
    exact h.same _ (L.quiet_condPort hport) (L.condPort_not_bodyPort hport)
  · rfl

theorem Enters.seenByBody (L : Layout graph fill loop writes) (h : Enters loop writes start f g) :
    seenByBody loop f = seenByBody loop g := by
  unfold Loop.seenByBody portsAt
  congr 1
  · split
    · rename_i hiter
      exact congrArg some (h.same _ (L.quiet_bodyPort (.inl ⟨hiter, rfl⟩)))
    · rfl
  · apply map_congr_left
    intro j hj
    exact h.same _ (L.quiet_bodyPort (.inr ⟨j, mem_range.mp hj, rfl⟩))

section
variable (L : Layout graph fill loop writes) {topo : List Ref} {elidedTopo : Nat}
    (hplan : graph.Planned topo loop fill stateSlots elidedTopo)
    (hparts : Parts graph fill loop stateSlots) (hsep : Separate loop writes stateSlots)
    {code body : Code W} (hb : Behaves graph fill loop writes code body)
    (htemplate : (start (graph.dataIndexOf (fill.normInputs.headD 0))).items.length =
      loop.stateCount)
include L hplan hparts hsep hb htemplate

/-- A round from its test on keeps the two runs together. -/
theorem Matches.fromTest (h : Matches loop writes stateSlots start f g v)
    (hcond : loop.hasCond = true → f loop.condResultSlot = g loop.condResultSlot)
    (seen : List Seen) (w : W) :
    SameRound loop writes stateSlots start
      (fromTest graph fill (loop.asComponents stateSlots) body seen w f)
      (fromTest graph fill loop.asTuple body seen w g) := by
  unfold Loop.fromTest
  obtain ⟨hf, hg⟩ | ⟨hf, hg⟩ | ⟨f', g', hf, hg, henter⟩ := h.test L hplan.several hsep hcond
  · rw [hf, hg]
    exact ⟨rfl, .inr ⟨trivial, fun _ _ h => by cases h⟩⟩
  · rw [hf, hg]
    exact ⟨rfl, .inr ⟨h.finished L hparts w, fun _ _ h => by cases h⟩⟩
  · rw [hf, hg]
    have hseen : seenByBody (loop.asComponents stateSlots) f' = seenByBody loop.asTuple g' := by
      show seenByBody loop f' = seenByBody loop g'
      exact henter.seenByBody L
    obtain ⟨hf', hg'⟩ | ⟨w', f', g', hf', hg', v', hnext⟩ :=
      henter.body L hplan hparts hb htemplate w
    · simp only [hf', hg', hseen]
      exact ⟨rfl, .inr ⟨trivial, fun _ _ h => by cases h⟩⟩
    · simp only [hf', hg', hseen]
      exact ⟨rfl, .inl ⟨w', _, _, v', rfl, rfl, hnext⟩⟩

/-- One round keeps the two runs together. -/
theorem Matches.oneRound (h : Matches loop writes stateSlots start f g v) (w : W) :
    SameRound loop writes stateSlots start
      (oneRound graph fill (loop.asComponents stateSlots) code body w f)
      (oneRound graph fill loop.asTuple code body w g) := by
  have hseen : Loop.seenByCond (loop.asComponents stateSlots) f =
      Loop.seenByCond loop.asTuple g := by
    show Loop.seenByCond loop f = Loop.seenByCond loop g
    exact h.seenByCond L
  have hkept : (loop.asComponents stateSlots).hasCond = loop.hasCond := rfl
  have hkept' : loop.asTuple.hasCond = loop.hasCond := rfl
  unfold Loop.oneRound
  rw [hseen, hkept, hkept']
  cases hcond : loop.hasCond
  · -- no condition
    exact h.fromTest L hplan hparts hsep hb htemplate (fun h => by rw [hcond] at h; cases h) _ w
  · obtain ⟨hf, hg⟩ | ⟨w', f', g', hf, hg, hm, hr⟩ := h.cond L hparts hb hcond w
    · simp only [if_true, hf, hg]
      exact ⟨rfl, .inr ⟨trivial, fun _ _ h => by cases h⟩⟩
    · simp only [if_true, hf, hg]
      exact hm.fromTest L hplan hparts hsep hb htemplate (fun _ => hr) _ w'

/-- The two runs stay together for as many rounds as are run. -/
theorem Matches.rounds (n : Nat) (h : Matches loop writes stateSlots start f g v) (w : W) :
    (rounds graph fill (loop.asComponents stateSlots) code body n w f).1 =
      (rounds graph fill loop.asTuple code body n w g).1 ∧
    SameOutcome loop writes start
      (rounds graph fill (loop.asComponents stateSlots) code body n w f).2
      (rounds graph fill loop.asTuple code body n w g).2 := by
  induction n generalizing f g v w with
  | zero => exact ⟨rfl, rfl, h.outside⟩
  | succ n ih =>
    have hround := h.oneRound L hplan hparts hsep hb htemplate w
    unfold Loop.rounds
    generalize Loop.oneRound graph fill (loop.asComponents stateSlots) code body w f = a at hround
    generalize Loop.oneRound graph fill loop.asTuple code body w g = b at hround
    obtain ⟨seen, out⟩ := a
    obtain ⟨seen', out'⟩ := b
    obtain ⟨rfl, ⟨w', f', g', v', rfl, rfl, hnext⟩ | ⟨hsame, hstop⟩⟩ := hround
    · -- another round
      exact ⟨congrArg (seen ++ ·) (ih hnext w').1, (ih hnext w').2⟩
    · match out, out', hsame, hstop with
      | .fault, .fault, hsame, _ => exact ⟨rfl, hsame⟩
      | .finished _ _, .finished _ _, hsame, _ => exact ⟨rfl, hsame⟩
      | .running w f, _, _, hstop => exact absurd rfl (hstop w f)

end

end Runs

/-- A loop planned as its components goes through the states it goes through with its
    tuple and has the same value, if its state slots do not clash. -/
theorem planStateComponents_same {graph : Graph} {topo : List Ref} {bodyRegion : Nat}
    {loopRef : Ref} {loop : ExecLoop} {stateSlots : List Slot} {elidedTopo : Nat}
    (haccepts : graph.planStateComponents topo bodyRegion loopRef loop =
      some (stateSlots, elidedTopo)) :
    ∃ ref fill, topo[elidedTopo]? = some ref ∧ graph.node ref = some fill ∧
    ∀ writes, Layout graph fill loop writes → Separate loop writes stateSlots →
    ∀ (W : Type) (cond body : Code W), Behaves graph fill loop writes cond body →
    ∀ (n : Nat) (w : W) (start : Frame),
      (start (graph.dataIndexOf (fill.normInputs.headD 0))).items.length = loop.stateCount →
      (run graph fill (loop.asComponents stateSlots) cond body n w start).1 =
        (run graph fill loop.asTuple cond body n w start).1 ∧
      SameOutcome loop writes start
        (run graph fill (loop.asComponents stateSlots) cond body n w start).2
        (run graph fill loop.asTuple cond body n w start).2 := by
  obtain ⟨fill, hplan⟩ := Graph.planStateComponents_spec haccepts
  obtain ⟨ref, href, hnode⟩ := hplan.position
  refine ⟨ref, fill, href, hnode, ?_⟩
  intro writes L hsep W cond body hb n w start htemplate
  have hparts : Parts graph fill loop stateSlots := by
    intro j hj
    apply hplan.input
    rw [getD_eq_getElem?_getD, getElem?_eq_getElem (by rw [hplan.length]; exact hj)]
    exact getElem_mem _
  exact (matches_loopBegin L hplan.several hplan.collects hparts hsep).rounds L hplan hparts hsep
    hb htemplate n w

/-- `loop a, b from 1, 2 while a < b` over a body that computes a sum and the old `a`: the
    next state is the sum and what the second reference names. -/
def sumGraph (second : Ref) : Graph where
  nodes := [
    ⟨.data, -1, some 7, [], [], none, 0⟩, ⟨.data, -2, some 1, [], [], none, 0⟩,
    ⟨.data, -3, some 1, [], [], none, 0⟩, ⟨.port, 1, some 1, [], [], none, 0⟩,
    ⟨.port, 2, some 1, [], [], none, 0⟩, ⟨.port, 3, some 1, [], [], none, 0⟩,
    ⟨.port, 4, some 1, [], [], none, 0⟩, ⟨.oper, 5, some 2, [3, 4], [], none, 1⟩,
    ⟨.oper, 6, some 1, [5, 6], [], none, 2⟩, ⟨.copy, 10, some 1, [5], [], none, 2⟩,
    ⟨.fill, 7, some 7, [0], [8, second], some [0, 1], 2⟩, ⟨.port, 8, some 1, [], [], none, 0⟩,
    ⟨.loop, 9, some 7, [1, 2], [10, 7, 11], none, 0⟩]
  tupleTypes := [(7, [some 1, some 1])]
  regions := [(0, 2), (1, 1), (2, 2)]

def sumLoop : ExecLoop where
  iterates := false
  hasCond := true
  stateCount := 2
  collectionCount := 0
  stateSlot := 9
  roundSlot := 8
  bodyResultSlot := 7
  condResultSlot := 5
  iterableSlot := 0
  interval := none
  slots := [-2, -3, 1, 2, 3, 4]
  valueType := some 7
  stateSlots := none

def sumFrame : Frame
  | -1 => .tuple [.null, .null]
  | -2 => .int 1
  | -3 => .int 2
  | _ => .null

def sumFill (second : Ref) : Node := ⟨.fill, 7, some 7, [0], [8, second], some [0, 1], 2⟩

def sumWrites : Writes := ⟨[5], [6, 7, 10]⟩

def sumCond : Code Unit := fun w f => some (w, f.set 5 (.bool (decide ((f 1).toInt < (f 2).toInt))))

def sumBody : Code Unit := fun w f =>
  some (w, (f.set 6 (.int ((f 3).toInt + (f 4).toInt))).set 10 (f 3))

theorem sum_layout {second : Ref} (h : second = 8 ∨ second = 9) :
    Layout (sumGraph second) (sumFill second) sumLoop sumWrites where
  slots_length := rfl
  ports_nodup := by decide
  written := by
    intro s hs
    have hin : ∀ s ∈ ([5, 6, 7, 10] : List Slot),
        s ∉ sumLoop.stateSlot :: sumLoop.roundSlot :: sumLoop.slots.drop 2 := by decide
    exact hin s (by simpa [sumWrites] using hs)
  regions_apart := by decide
  first_outside := by decide
  cond_result := fun _ => .inl (by decide)
  iterable_outside := by decide
  bounds_outside := by
    intro b hb
    cases hb
  fill_result := rfl
  fill_written := show (7 : Slot) ∈ sumWrites.body by decide
  template_outside := by
    obtain rfl | rfl := h <;> decide
  input_seen := by
    rintro input hin s rfl
    obtain rfl | rfl := h <;> revert input <;> decide

theorem sum_behaves {second : Ref} (h : second = 8 ∨ second = 9) :
    Behaves (sumGraph second) (sumFill second) sumLoop sumWrites sumCond sumBody where
  cond := by
    constructor
    · rintro w f w' f' ⟨⟩ s hs
      exact Frame.set_of_ne (by simpa [sumWrites] using hs)
    · intro w f g hfg
      refine .inr ⟨_, _, _, rfl, rfl, ?_⟩
      rintro s rfl -
      rw [hfg 1 (.inl (by decide)), hfg 2 (.inl (by decide))]
      exact (Frame.set_self ..).trans (Frame.set_self ..).symm
  body := by
    constructor
    · rintro w f w' f' ⟨⟩ s hs
      have : s ≠ 6 ∧ s ≠ 7 ∧ s ≠ 10 := by simpa [sumWrites] using hs
      rw [Frame.set_of_ne this.2.2, Frame.set_of_ne this.1]
    · intro w f g hfg
      refine .inr ⟨_, _, _, rfl, rfl, ?_⟩
      rintro s ⟨input, hin, rfl⟩ -
      rw [hfg 3 (.inl (by decide)), hfg 4 (.inl (by decide))]
      have hslot : (sumGraph second).dataIndexOf input = 6 ∨
          (sumGraph second).dataIndexOf input = 10 := by
        obtain rfl | rfl := h <;> revert input <;> decide
      obtain heq | heq := hslot <;> rw [heq] <;> rfl

theorem planStateComponents_same_sum :
    (run (sumGraph 9) (sumFill 9) (sumLoop.asComponents [6, 10]) sumCond sumBody 3 () sumFrame).1 =
      (run (sumGraph 9) (sumFill 9) sumLoop.asTuple sumCond sumBody 3 () sumFrame).1 ∧
    SameOutcome sumLoop sumWrites sumFrame
      (run (sumGraph 9) (sumFill 9) (sumLoop.asComponents [6, 10]) sumCond sumBody 3 () sumFrame).2
      (run (sumGraph 9) (sumFill 9) sumLoop.asTuple sumCond sumBody 3 () sumFrame).2 := by
  obtain ⟨ref, fill, href, hnode, h⟩ := planStateComponents_same
    (show (sumGraph 9).planStateComponents [7, 8, 9, 10, 12] 2 12 sumLoop = some ([6, 10], 3) by
      decide)
  cases href
  cases hnode
  have hsep : Separate sumLoop sumWrites [6, 10] := by
    constructor <;> decide
  exact h sumWrites (sum_layout (.inr rfl)) hsep Unit sumCond sumBody
    (sum_behaves (.inr rfl)) 3 () sumFrame rfl

/-- Two parts in one slot: the condition is given the second of the first values twice. -/
theorem planStateComponents_shared :
    ¬ ∀ (graph : Graph) (topo : List Ref) (bodyRegion : Nat) (loopRef : Ref) (loop : ExecLoop)
      (stateSlots : List Slot) (elidedTopo : Nat) (ref : Ref) (fill : Node) (writes : Writes)
      (cond body : Code Unit) (n : Nat) (start : Frame),
      graph.planStateComponents topo bodyRegion loopRef loop = some (stateSlots, elidedTopo) →
      topo[elidedTopo]? = some ref → graph.node ref = some fill →
      Layout graph fill loop writes → Behaves graph fill loop writes cond body →
      (start (graph.dataIndexOf (fill.normInputs.headD 0))).items.length = loop.stateCount →
      (run graph fill (loop.asComponents stateSlots) cond body n () start).1 =
        (run graph fill loop.asTuple cond body n () start).1 := by
  intro h
  have hsame := h (sumGraph 8) [7, 8, 10, 12] 2 12 sumLoop [6, 6] 2 10 (sumFill 8) sumWrites
    sumCond sumBody 1 sumFrame (by decide) rfl rfl (sum_layout (.inl rfl))
    (sum_behaves (.inl rfl)) rfl
  have hcomponents : (run (sumGraph 8) (sumFill 8) (sumLoop.asComponents [6, 6]) sumCond sumBody 1
      () sumFrame).1 = [.cond [.int 2, .int 2]] := rfl
  have htuple : (run (sumGraph 8) (sumFill 8) sumLoop.asTuple sumCond sumBody 1 () sumFrame).1 =
      [.cond [.int 1, .int 2], .body none [.int 1, .int 2]] := rfl
  rw [hcomponents, htuple] at hsame
  cases hsame

end Camel.Loop
