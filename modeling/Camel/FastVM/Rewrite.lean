import Camel.FastVM.Shrink

/-! # Rewriting a Chunk of the Compiler's Shape

    `Shape` is what the compiler emits: JUMPs go forward to instructions, a BRCH
    has its dispatch JUMPs behind it, the test of a loop goes to the end of that
    loop and the end goes back to where its round starts.

    Three rewrites are shown to keep the shape and the behaviour: dropping an
    instruction that nothing reaches or that leads on to the one behind it,
    folding a JUMP to a JUMP, and writing the RETN a JUMP goes to over it.
-/

namespace Camel.FastVM

/-! ## The Shape -/

structure Shape (codes : Chunk) : Prop where
  sized : Sized codes
  jumpUnit : ∀ {p bc}, instrAt codes p = some bc → bc.opcode = .jump → bc.opsize = 1
  retnUnit : ∀ {p bc}, instrAt codes p = some bc → bc.opcode = .retn → bc.opsize = 1
  jumpForward : ∀ {p bc}, instrAt codes p = some bc → bc.opcode = .jump → p < bc.target
  jumpLands : ∀ {p bc}, instrAt codes p = some bc → bc.opcode = .jump →
    ∃ t, instrAt codes bc.target = some t
  dispatch : ∀ {p bc}, instrAt codes p = some bc → bc.opcode = .brch →
    ∀ k < bc.brchArmDispatchCount,
      ∃ j, instrAt codes (p + bc.opsize + k) = some j ∧ j.opcode = .jump
  loopTest : ∀ {p bc}, instrAt codes p = some bc → bc.opcode = .ltst →
    ∃ e, instrAt codes bc.target = some e ∧ e.opcode = .lend ∧ e.extra = bc.extra
  loopBack : ∀ {p bc}, instrAt codes p = some bc → bc.opcode = .lend →
    ∃ q b, instrAt codes q = some b ∧ b.opcode = .lbeg ∧ b.extra = bc.extra ∧
      bc.target = q + b.opsize ∧ ∃ t, instrAt codes bc.target = some t

variable {codes : Chunk}

theorem Shape.forward (h : Shape codes) : Forward codes :=
  ⟨h.sized, h.jumpUnit, h.retnUnit, h.jumpForward, h.jumpLands⟩

variable {bc : Bytecode} {p : Nat} {b : Bytecode}

/-- An address an instruction goes to is the address of an instruction. -/
theorem Shape.target_lands (h : Shape codes)
    (hat : instrAt codes p = some bc) (ht : hasJumpTarget bc.opcode = true) :
    ∃ t, instrAt codes bc.target = some t := by
  simp only [hasJumpTarget, Bool.or_eq_true, beq_iff_eq] at ht
  rcases ht with (hop | hop) | hop
  · exact h.jumpLands hat hop
  · obtain ⟨e, he, -⟩ := h.loopTest hat hop
    exact ⟨e, he⟩
  · obtain ⟨q, b, -, -, -, -, hlands⟩ := h.loopBack hat hop
    exact hlands

/-- Every way on leads to a boundary. -/
theorem Shape.next_boundary (h : Shape codes) {depth p : Nat} {next : Next}
    (hat : instrAt codes p = some bc) (hgo : CanGo depth bc next) :
    Boundary codes (next.pc bc p) := by
  cases next with
  | fall => exact Boundary.next h.sized hat
  | goto =>
    refine .inl (h.target_lands hat ?_)
    rcases hgo with hop | hop <;> simp [hasJumpTarget, hop]
  | arm index =>
    obtain ⟨j, hj, -⟩ := h.dispatch hat hgo.1 index hgo.2
    exact .of_instrAt hj

/-- JUMPs go forward, so following them comes to an end. -/
theorem Shape.exists_lands (h : Shape codes) (p : Nat) : ∃ a, Lands codes p a := by
  induction hn : units codes - p using Nat.strongRecOn generalizing p with
  | ind n ih =>
    by_cases hj : ∃ bc, instrAt codes p = some bc ∧ bc.opcode = .jump
    · obtain ⟨bc, hat, hop⟩ := hj
      have hfwd := h.jumpForward hat hop
      have hlt := instrAt_lt h.sized hat
      obtain ⟨a, ha⟩ := ih (units codes - bc.target) (by omega) bc.target rfl
      exact ⟨a, .jump hat hop ha⟩
    · exact ⟨p, .here fun bc hat hop => hj ⟨bc, hat, hop⟩⟩

theorem Lands.unique {p a b : Nat} (ha : Lands codes p a) (hb : Lands codes p b) : a = b := by
  induction ha with
  | here hno =>
    cases hb with
    | here _ => rfl
    | jump hat hop _ => exact absurd hop (hno _ hat)
  | jump hat hop _ ih =>
    cases hb with
    | here hno => exact absurd hop (hno _ hat)
    | jump hat' hop' hrest =>
      rw [hat] at hat'
      cases hat'
      exact ih hrest

/-- The instruction landed on is no JUMP. -/
theorem Lands.not_jump {p a : Nat} (h : Lands codes p a)
    (hat : instrAt codes a = some bc) : bc.opcode ≠ .jump := by
  induction h with
  | here hno => exact hno _ hat
  | jump _ _ _ ih => exact ih hat

theorem Lands.boundary (hs : Shape codes) {p a : Nat} (h : Lands codes p a)
    (hp : Boundary codes p) : Boundary codes a := by
  induction h with
  | here _ => exact hp
  | jump hat hop _ ih => exact ih (.inl (hs.jumpLands hat hop))

/-- The JUMP at `d`, if one is there, takes no more than the instruction behind it. -/
theorem Lands.of_jump {d a : Nat} {x : Bytecode} (h : Lands codes d a)
    (hx : instrAt codes d = some x) (hj : x.opcode = .jump) : Lands codes x.target a := by
  cases h with
  | here hno => exact absurd hj (hno _ hx)
  | jump hat _ hrest =>
    rw [hx] at hat
    cases hat
    exact hrest

/-! ## Dropping an Instruction -/

/-- No instruction goes to `d`, falls into it or starts the chunk there. -/
structure Unreached (depth : Nat) (codes : Chunk) (d : Nat) : Prop where
  notFirst : d ≠ 0
  noTarget : ∀ {p b}, instrAt codes p = some b → hasJumpTarget b.opcode = true → b.target ≠ d
  noFall : ∀ {p b}, instrAt codes p = some b → p + b.opsize = d → ¬CanGo depth b .fall

/-- The instruction at `d` is a JUMP that leads where the one behind it leads. -/
def Passes (codes : Chunk) (d : Nat) (x : Bytecode) : Prop :=
  x.opcode = .jump ∧ ∃ a, Lands codes d a ∧ Lands codes (d + x.opsize) a

section Drop

variable {depth d : Nat} {x : Bytecode}

/-- An entry of a dispatch table keeps its place in the table. -/
theorem Shape.shift_arm (h : Shape codes) (hx : instrAt codes d = some x)
    (hoff : OffTable codes d) {p k : Nat} (hb : instrAt codes p = some b)
    (hop : b.opcode = .brch) (hk : k < b.brchArmDispatchCount) (hne : p ≠ d) :
    shift d x.opsize (p + b.opsize + k) = shift d x.opsize p + b.opsize + k := by
  have hxs : 0 < x.opsize := h.sized x (instrAt_mem hx)
  rcases Boundary.outside h.sized hx (.of_instrAt hb) hne with hlt | hge
  · have hend := Boundary.end_le h.sized hb (.of_instrAt hx) hlt
    have hpast : p + b.opsize + b.brchArmDispatchCount ≤ d := by
      by_contra hno
      exact hoff hb hop ⟨hend, by omega⟩
    rw [shift_of_le (by omega), shift_of_le (by omega)]
  · rw [shift_of_lt (by omega), shift_of_lt (by omega)]
    omega

/-- A JUMP chain that does not start at `d`, or passes it, stays a JUMP chain. -/
theorem Shape.lands_dropAt (h : Shape codes) (hx : instrAt codes d = some x)
    (hd : Unreached depth codes d ∨ Passes codes d x) {p a : Nat} (hp : Boundary codes p)
    (hpd : p = d → Passes codes d x) (hl : Lands codes p a) :
    a ≠ d ∧ Lands (dropAt codes d x.opsize) (shift d x.opsize p) (shift d x.opsize a) := by
  have hxs : 0 < x.opsize := h.sized x (instrAt_mem hx)
  -- JUMPs go forward, so the induction is on what is left of the chunk.
  induction hn : units codes - p using Nat.strongRecOn generalizing p with
  | ind n ih =>
    by_cases hpeq : p = d
    · -- From the dropped JUMP the chain goes on behind it.
      subst hpeq
      obtain ⟨hj, a', ha', hnext⟩ := hpd rfl
      obtain rfl := ha'.unique hl
      have hlt := instrAt_lt h.sized hx
      have := ih (units codes - (p + x.opsize)) (by omega) (Boundary.next h.sized hx)
        (by omega) hnext rfl
      rw [shift_of_lt (by omega : p < p + x.opsize), Nat.add_sub_cancel] at this
      rw [shift_of_le (Nat.le_refl p)]
      exact this
    · have hat := instrAt_dropAt h.sized hx (Boundary.outside h.sized hx hp hpeq)
      cases hl with
      | here hno =>
        refine ⟨hpeq, .here fun b' hb' => ?_⟩
        rw [hat] at hb'
        obtain ⟨b, hb, rfl⟩ := Option.map_eq_some_iff.mp hb'
        rw [moved_opcode]
        exact hno b hb
      | jump hb hop hrest =>
        rename_i b
        have ht : hasJumpTarget b.opcode = true := by simp [hasJumpTarget, hop]
        have hfwd := h.jumpForward hb hop
        have hlt := instrAt_lt h.sized hb
        have hpass : b.target = d → Passes codes d x := by
          intro heq
          rcases hd with hun | hpass
          · exact absurd heq (hun.noTarget hb ht)
          · exact hpass
        obtain ⟨hne, hlands⟩ := ih (units codes - b.target) (by omega)
          (.inl (h.jumpLands hb hop)) hpass hrest rfl
        refine ⟨hne, .jump (by rw [hat, hb]; rfl) (by rw [moved_opcode]; exact hop) ?_⟩
        rw [moved_target ht]
        exact hlands

/-- The addresses that stand for each other when `d` is dropped. -/
def Dropped (codes : Chunk) (d : Nat) (x : Bytecode) (p q : Nat) : Prop :=
  Boundary codes p ∧ q = shift d x.opsize p ∧ (p = d → Passes codes d x)

section
variable (h : Shape codes) (hx : instrAt codes d = some x)
include h hx

theorem Shape.matching_dropAt
    (hoff : OffTable codes d) (hd : Unreached depth codes d ∨ Passes codes d x) :
    Matching depth codes (dropAt codes d x.opsize) (Dropped codes d x) := by
  rintro p q ⟨hp, rfl, hpd⟩
  obtain ⟨a, ha⟩ := h.exists_lands p
  obtain ⟨hne, hlands⟩ := h.lands_dropAt hx hd hp hpd ha
  refine ⟨a, _, ha, hlands, ?_⟩
  have hba := ha.boundary h hp
  have hat := instrAt_dropAt h.sized hx (Boundary.outside h.sized hx hba hne)
  cases hb : instrAt codes a with
  | none => exact .inl ⟨hb, by rw [hat, hb]; rfl⟩
  | some b =>
    right
    refine ⟨b, _, hb, by rw [hat, hb]; rfl, ha.not_jump hb, moved_readdressed _ _ b, ?_⟩
    intro next hgo
    refine ⟨h.next_boundary hb hgo, ?_, ?_⟩
    · cases next with
      | fall =>
        show shift d x.opsize a + (b.moved d _).opsize = _
        rw [moved_opsize]
        exact (shift_next h.sized hx hb hne).symm
      | goto =>
        refine moved_target ?_
        rcases hgo with hop | hop <;> simp [hasJumpTarget, hop]
      | arm index =>
        show shift d x.opsize a + (b.moved d _).opsize + index = _
        rw [moved_opsize]
        exact (h.shift_arm hx hoff hb hgo.1 hgo.2 hne).symm
    · intro heq
      rcases hd with hun | hpass
      · exfalso
        cases next with
        | fall => exact hun.noFall hb heq hgo
        | goto =>
          refine hun.noTarget hb ?_ heq
          rcases hgo with hop | hop <;> simp [hasJumpTarget, hop]
        | arm index =>
          have heq : a + b.opsize + index = d := heq
          have hlt : index < b.brchArmDispatchCount := hgo.2
          exact hoff hb hgo.1 ⟨by omega, by omega⟩
      · exact hpass

/-- Dropping what nothing reaches, or a JUMP that leads on to what is behind it,
    leaves a chunk that runs alike. -/
theorem Shape.runsAlike_dropAt
    (hoff : OffTable codes d) (hd : Unreached depth codes d ∨ Passes codes d x) :
    RunsAlike depth codes (dropAt codes d x.opsize) := by
  have hzero : Boundary codes 0 := by
    cases codes with
    | nil => exact .inr rfl
    | cons b rest => exact .inl ⟨b, instrAt_zero_cons b rest⟩
  refine (h.matching_dropAt hx hoff hd).runsAlike ⟨hzero, (shift_of_le (Nat.zero_le d)).symm, ?_⟩
  intro heq
  rcases hd with hun | hpass
  · exact absurd heq.symm hun.notFirst
  · exact hpass

/-- What stands where an instruction went to: the same instruction, or what was
    behind the dropped one. -/
theorem Shape.target_dropAt
    (hland : (∀ {p b}, instrAt codes p = some b → hasJumpTarget b.opcode = true → b.target ≠ d) ∨
      ∃ t, instrAt codes (d + x.opsize) = some t)
     (hb : instrAt codes p = some b)
    (ht : hasJumpTarget b.opcode = true) :
    ∃ t, instrAt (dropAt codes d x.opsize) (b.moved d (-x.opsize)).target = some t := by
  have hxs : 0 < x.opsize := h.sized x (instrAt_mem hx)
  obtain ⟨t, hat⟩ := h.target_lands hb ht
  rw [moved_target ht]
  by_cases heq : b.target = d
  · rcases hland with hno | ⟨t', ht'⟩
    · exact absurd heq (hno hb ht)
    · have := instrAt_dropAt h.sized hx (.inr (Nat.le_refl (d + x.opsize)))
      rw [shift_of_lt (by omega), Nat.add_sub_cancel, ht'] at this
      rw [heq, shift_of_le (Nat.le_refl d)]
      exact ⟨_, this⟩
  · rw [instrAt_dropAt h.sized hx (Boundary.outside h.sized hx (.of_instrAt hat) heq), hat]
    exact ⟨_, rfl⟩

end

/-- A chunk keeps its shape when an instruction that is neither a loop event nor
    in a dispatch table is dropped. -/
theorem Shape.dropAt (h : Shape codes) (hx : instrAt codes d = some x) (hoff : OffTable codes d)
    (hbeg : x.opcode ≠ .lbeg) (hend : x.opcode ≠ .lend)
    (hland : (∀ {p b}, instrAt codes p = some b → hasJumpTarget b.opcode = true → b.target ≠ d) ∨
      ∃ t, instrAt codes (d + x.opsize) = some t) :
    Shape (dropAt codes d x.opsize) := by
  have hs := h.sized
  have hxs : 0 < x.opsize := hs x (instrAt_mem hx)
  have hforward := h.forward.dropAt hx (hland.imp
    (fun hno {p b} hb hop => hno hb (by simp [hasJumpTarget, hop])) id)
  refine ⟨hforward.sized, hforward.jumpUnit, hforward.retnUnit, hforward.jumpForward,
    hforward.jumpLands, ?_, ?_, ?_⟩
  · intro q b' hb' hop k hk
    obtain ⟨p, b, hb, hout, rfl, rfl⟩ := exists_of_instrAt_dropAt hs hx hb'
    rw [moved_opcode] at hop
    rw [moved_brchArmDispatchCount hop] at hk
    rw [moved_opsize]
    have hne : p ≠ d := by omega
    obtain ⟨j, hj, hjop⟩ := h.dispatch hb hop k hk
    have hjne : p + b.opsize + k ≠ d := fun heq => hoff hb hop ⟨by omega, by omega⟩
    refine ⟨j.moved d (-x.opsize), ?_, ?_⟩
    · rw [← h.shift_arm hx hoff hb hop hk hne,
        instrAt_dropAt hs hx (Boundary.outside hs hx (.of_instrAt hj) hjne), hj]
      rfl
    · rw [moved_opcode]
      exact hjop
  · intro q b' hb' hop
    obtain ⟨p, b, hb, -, -, rfl⟩ := exists_of_instrAt_dropAt hs hx hb'
    rw [moved_opcode] at hop
    obtain ⟨e, he, heop, hextra⟩ := h.loopTest hb hop
    have hne : b.target ≠ d := by
      intro heq
      rw [heq, hx] at he
      cases he
      exact hend heop
    refine ⟨e.moved d (-x.opsize), ?_, ?_⟩
    · rw [moved_target (by simp [hasJumpTarget, hop]),
        instrAt_dropAt hs hx (Boundary.outside hs hx (.of_instrAt he) hne), he]
      rfl
    · rw [moved_opcode, moved_extra, moved_extra]
      exact ⟨heop, hextra⟩
  · intro q b' hb' hop
    obtain ⟨p, b, hb, -, -, rfl⟩ := exists_of_instrAt_dropAt hs hx hb'
    rw [moved_opcode] at hop
    have ht : hasJumpTarget b.opcode = true := by simp [hasJumpTarget, hop]
    obtain ⟨r, l, hl, hlop, hextra, htarget, -⟩ := h.loopBack hb hop
    have hne : r ≠ d := by
      rintro rfl
      rw [hx] at hl
      cases hl
      exact hbeg hlop
    refine ⟨shift d x.opsize r, l.moved d (-x.opsize), ?_, ?_, ?_, ?_, ?_⟩
    · rw [instrAt_dropAt hs hx (Boundary.outside hs hx (.of_instrAt hl) hne), hl]
      rfl
    · rw [moved_opcode]
      exact hlop
    · rw [moved_extra, moved_extra]
      exact hextra
    · rw [moved_target ht, moved_opsize, htarget]
      exact shift_next hs hx hl hne
    · exact h.target_dropAt hx hland hb ht

end Drop

/-! ## Writing Over a JUMP -/

section Overwrite

variable {c : Nat} {old new : Bytecode}

/-- An instruction with another opcode than the two keeps standing. -/
theorem Overwrites.keeps (h : Shape codes) (ho : Overwrites codes c old new)
    (hb : FastVM.instrAt codes p = some b) (hop : b.opcode ≠ .jump) :
    FastVM.instrAt (overwrite codes c new) p = some b := by
  rw [ho.instrAt h.forward]
  split
  next heq =>
    rw [heq, ho.stands] at hb
    cases hb
    exact absurd ho.isJump hop
  next => exact hb

/-- The new instruction is no loop event and no BRCH. -/
theorem Overwrites.inv_old (h : Shape codes) (ho : Overwrites codes c old new)
    (hb : FastVM.instrAt (overwrite codes c new) p = some b)
    (hj : b.opcode ≠ .jump) (hr : b.opcode ≠ .retn) : FastVM.instrAt codes p = some b := by
  rcases ho.inv h.forward hb with ⟨-, rfl⟩ | ⟨-, hold⟩
  · rcases ho.newOp with hop | ⟨hop, -⟩
    · exact absurd hop hr
    · exact absurd hop hj
  · exact hold

theorem Shape.overwrite (h : Shape codes) (ho : Overwrites codes c old new) :
    Shape (overwrite codes c new) := by
  have hforward := h.forward.overwrite ho
  refine ⟨hforward.sized, hforward.jumpUnit, hforward.retnUnit, hforward.jumpForward,
    hforward.jumpLands, ?_, ?_, ?_⟩
  · intro p b hb hop k hk
    have hold := ho.inv_old h hb (by simp [hop]) (by simp [hop])
    obtain ⟨j, hj, hjop⟩ := h.dispatch hold hop k hk
    refine ⟨j, ?_, hjop⟩
    have hne : p + b.opsize + k ≠ c := fun heq => ho.offTable hold hop ⟨by omega, by omega⟩
    rw [ho.instrAt h.forward, if_neg hne]
    exact hj
  · intro p b hb hop
    have hold := ho.inv_old h hb (by simp [hop]) (by simp [hop])
    obtain ⟨e, he, heop, hextra⟩ := h.loopTest hold hop
    exact ⟨e, ho.keeps h he (by simp [heop]), heop, hextra⟩
  · intro p b hb hop
    have hold := ho.inv_old h hb (by simp [hop]) (by simp [hop])
    obtain ⟨q, l, hl, hlop, hextra, htarget, hlands⟩ := h.loopBack hold hop
    exact ⟨q, l, ho.keeps h hl (by simp [hlop]), hlop, hextra, htarget, ho.lands h.forward hlands⟩

section
variable (h : Shape codes) (ho : Overwrites codes c old new)
include h ho

/-- The instruction at the end of a JUMP chain matches itself. -/
theorem Overwrites.matchAt_self {depth p a : Nat}
    (ha : Lands codes p a) : MatchAt depth codes (overwrite codes c new) Eq a a := by
  cases hb : FastVM.instrAt codes a with
  | none =>
    left
    refine ⟨hb, ?_⟩
    rw [ho.instrAt h.forward, if_neg, hb]
    rintro rfl
    rw [ho.stands] at hb
    cases hb
  | some b =>
    have hj := ha.not_jump hb
    exact .inr ⟨b, b, hb, ho.keeps h hb hj, hj, .inl rfl, fun _ _ => rfl⟩

/-- A JUMP to a JUMP may go where the second one goes. -/
theorem Shape.runsAlike_fold {depth : Nat} {tbc : Bytecode}
    (htbc : instrAt codes old.target = some tbc)
    (htj : tbc.opcode = .jump) (hnew : new.opcode = .jump) (hnt : new.target = tbc.target) :
    RunsAlike depth codes (FastVM.overwrite codes c new) := by
  have hlands : ∀ p a, Lands codes p a → Lands (FastVM.overwrite codes c new) p a := by
    intro p a hl
    -- The new JUMP skips a link of the chain, so the induction is on the address.
    induction hn : units codes - p using Nat.strongRecOn generalizing p with
    | ind n ih =>
      cases hl with
      | here hno =>
        refine .here fun b hb => ?_
        rcases ho.inv h.forward hb with ⟨rfl, -⟩ | ⟨-, hold⟩
        · exact absurd ho.isJump (hno _ ho.stands)
        · exact hno b hold
      | jump hb hop hrest =>
        rename_i b
        have hfwd := h.jumpForward hb hop
        have hlt := instrAt_lt h.sized hb
        by_cases hpc : p = c
        · subst hpc
          rw [ho.stands] at hb
          cases hb
          have hfwd' := h.jumpForward htbc htj
          refine .jump (by rw [ho.instrAt h.forward, if_pos rfl]) hnew ?_
          rw [hnt]
          exact ih (units codes - tbc.target) (by omega) tbc.target (hrest.of_jump htbc htj) rfl
        · refine .jump (by rw [ho.instrAt h.forward, if_neg hpc]; exact hb) hop ?_
          exact ih (units codes - b.target) (by omega) b.target hrest rfl
  apply Matching.runsAlike _ rfl
  rintro p q rfl
  obtain ⟨a, ha⟩ := h.exists_lands p
  exact ⟨a, a, ha, hlands p a ha, ho.matchAt_self h ha⟩

/-- The RETN a JUMP goes to may stand in its place. -/
theorem Shape.runsAlike_retn {depth : Nat}
    (htbc : instrAt codes old.target = some new)
    (hnew : new.opcode = .retn) : RunsAlike depth codes (FastVM.overwrite codes c new) := by
  have hat : instrAt (FastVM.overwrite codes c new) c = some new := by
    rw [ho.instrAt h.forward, if_pos rfl]
  have hlands : ∀ p a, Lands codes p a →
      Lands (FastVM.overwrite codes c new) p a ∨
        (Lands (FastVM.overwrite codes c new) p c ∧ a = old.target) := by
    intro p a hl
    induction hl with
    | @here p hno =>
      left
      refine .here fun b hb => ?_
      rcases ho.inv h.forward hb with ⟨rfl, -⟩ | ⟨-, hold⟩
      · exact absurd ho.isJump (hno _ ho.stands)
      · exact hno b hold
    | @jump p a b hb hop hrest ih =>
      by_cases hpc : p = c
      · -- The chain now ends at the RETN that was copied here.
        subst hpc
        rw [ho.stands] at hb
        cases hb
        right
        refine ⟨.here fun b' hb' => ?_, ?_⟩
        · rw [hat] at hb'
          cases hb'
          simp [hnew]
        · refine hrest.unique (.here fun b' hb' => ?_)
          rw [htbc] at hb'
          cases hb'
          simp [hnew]
      · have hb' : instrAt (FastVM.overwrite codes c new) p = some b := by
          rw [ho.instrAt h.forward, if_neg hpc]
          exact hb
        rcases ih with ih | ⟨ih, heq⟩
        · exact .inl (.jump hb' hop ih)
        · exact .inr ⟨.jump hb' hop ih, heq⟩
  apply Matching.runsAlike _ rfl
  rintro p q rfl
  obtain ⟨a, ha⟩ := h.exists_lands p
  rcases hlands p a ha with hsame | ⟨hcopy, rfl⟩
  · exact ⟨a, a, ha, hsame, ho.matchAt_self h ha⟩
  · refine ⟨_, c, ha, hcopy, .inr ⟨new, new, htbc, hat, by simp [hnew], .inl rfl, ?_⟩⟩
    -- There is no way on from a RETN.
    intro next hgo
    cases next <;> simp [CanGo, hnew] at hgo

end

end Overwrite

end Camel.FastVM
