import Camel.Jit.X64

/-! # What a Lowering Leaves in the Registers

    Each piece of the encoder leaves its value in the destination and touches no other
    register but r11, whichever of its registers are the same; the division gives rax
    and rdx back. So a whole lowering computes what the operation means.
-/

namespace Camel.Jit

open List

/-! ## Values of a Width -/

variable {v : Word} (m : Mir) (w : Width)

def Width.arith (op : Arith) (a b : Word) : Word :=
  match w with
  | .w64 => op.eval a b
  | .w32 => ofLow (op.eval (low a) (low b))

def Width.quot (a b : Word) : Word :=
  match w with
  | .w64 => quotient a b
  | .w32 => ofLow (quotient (low a) (low b))

def Width.isZero (a : Word) : Bool :=
  match w with
  | .w64 => a == 0
  | .w32 => low a == 0

/-- The smallest value divided by -1. -/
def Width.wraps (a b : Word) : Bool :=
  match w with
  | .w64 => a == BitVec.intMin 64 && b == -1
  | .w32 => low a == BitVec.intMin 32 && low b == -1

@[simp] theorem arith_cut_left (op : Arith) (a b : Word) :
    w.arith op (w.cut a) b = w.arith op a b := by
  cases w <;> simp [Width.arith, Width.cut]

theorem arith_comm {op : Arith} (h : op ≠ .sub) (a b : Word) :
    w.arith op a b = w.arith op b a := by
  cases op with
  | add => cases w <;> simp [Width.arith, Arith.eval, BitVec.add_comm]
  | sub => exact absurd rfl h
  | mul => cases w <;> simp [Width.arith, Arith.eval, BitVec.mul_comm]

/-- A difference through a negation. -/
theorem arith_neg_add (a b : Word) :
    w.arith .add (w.arith .sub 0#64 b) a = w.arith .sub a b := by
  have hzero : low 0#64 = 0 := rfl
  cases w <;> simp [Width.arith, Arith.eval, hzero, BitVec.sub_eq_add_neg, BitVec.add_comm]

theorem quotient_eq_sdiv {n : Nat} (a b : BitVec n) : quotient a b = a.sdiv b := by
  rw [← BitVec.toInt_inj, toInt_quotient, BitVec.toInt_sdiv]

/-- The quotient by -1. -/
theorem quot_neg_one {a b : Word} (h : w.cut b = w.cut (-1)) :
    w.quot a b = w.arith .sub 0#64 a := by
  cases w with
  | w64 =>
    obtain rfl : b = -1 := h
    simp [Width.quot, Width.arith, quotient, Arith.eval]
  | w32 =>
    have hlow : low b = -1 := by
      have := congrArg low h
      simp only [Width.cut, low_ofLow] at this
      exact this
    have hzero : low 0#64 = 0 := rfl
    simp only [Width.quot, Width.arith, quotient, Arith.eval, hlow, hzero, if_true]

namespace X64

variable {s s' : State} {dr lr rr : Reg} {w : Width}

/-- idiv on a dividend that rdx extends. -/
theorem divideSigned_signMask {n : Nat} {a b : BitVec n} (hzero : b ≠ 0)
    (hwrap : ¬ (a = BitVec.intMin n ∧ b = -1)) :
    ∃ rem, divideSigned (signMask a) a b = some (quotient a b, rem) := by
  have hpos : 0 < n := by
    obtain rfl | hpos := Nat.eq_zero_or_pos n
    · exact absurd (Subsingleton.elim _ _) hzero
    · exact hpos
  have hdividend : (signMask a).toInt * 2 ^ n + a.toNat = a.toInt := by
    rw [BitVec.toInt_eq_msb_cond a]
    unfold signMask
    split
    · rw [BitVec.toInt_allOnes, if_pos hpos]
      push_cast
      omega
    · simp
  have hquot : a.toInt.tdiv b.toInt = (quotient a b).toInt := by
    rw [quotient_eq_sdiv, BitVec.toInt_sdiv_of_ne_or_ne]
    by_cases h : a = BitVec.intMin n
    · exact .inr fun hb => hwrap ⟨h, hb⟩
    · exact .inl h
  refine ⟨BitVec.ofInt n (a.toInt.tmod b.toInt), ?_⟩
  unfold divideSigned
  simp only [hdividend, hquot]
  have hlow := BitVec.le_toInt (quotient a b)
  have hhigh := BitVec.toInt_lt (x := quotient a b)
  rw [if_neg (by push Not; exact ⟨hzero, by omega, by omega⟩), BitVec.ofInt_toInt]

/-! ## Pieces of the Encoder -/

/-- The destination holds the value, and nothing else has changed but r11 and the flags. -/
structure Leaves (s s' : State) (dr : Reg) (v : Word) : Prop where
  result : s'.regs dr = v
  others : ∀ r, r ≠ dr → r ≠ kRegR11 → s'.regs r = s.regs r
  stack : s'.stack = s.stack

@[simp] theorem set_regs_self (s : State) (r : Reg) : s.set r (s.regs r) = s := by
  simp [State.set]

@[simp] theorem set_set (s : State) (r : Reg) (v v' : Word) : (s.set r v).set r v' = s.set r v' := by
  simp [State.set]

theorem leaves_set (s : State) (dr : Reg) (v : Word) (f : Option Flags) :
    Leaves s ((s.set dr v).withFlags f) dr v where
  result := by simp
  others r hr _ := by simp [hr]
  stack := rfl

theorem exec_skip (k : Nat) (l l' : List Instr) (s : State) :
    exec (l.length + k) (l ++ l') s = exec k l' s := by
  induction l with
  | nil => rw [length_nil, zero_add, nil_append]
  | cons i l ih =>
    rw [length_cons, add_right_comm]
    exact ih

theorem exec_mov (s : State) (l : List Instr) :
    exec 0 (emitMov w dr lr ++ l) s = exec 0 l (s.set dr (w.cut (s.regs lr))) := by
  cases w with
  | w64 =>
    show exec 0 (emitMovRegReg dr lr ++ l) s = exec 0 l (s.set dr (s.regs lr))
    unfold emitMovRegReg
    split
    · next h => rw [h, set_regs_self]; rfl
    · rfl
  | w32 => rfl

theorem exec_alu (s : State) (op : Arith) (l : List Instr) :
    exec 0 (.alu w op dr rr :: l) s =
      exec 0 l ((s.set dr (w.arith op (s.regs dr) (s.regs rr))).withFlags none) := by
  cases w <;> rfl

theorem exec_neg (s : State) (l : List Instr) :
    exec 0 (.neg w dr :: l) s =
      exec 0 l ((s.set dr (w.arith .sub 0#64 (s.regs dr))).withFlags none) := by
  have hsub : ∀ {n : Nat} (a : BitVec n), -a = Arith.sub.eval 0 a := fun a => (BitVec.zero_sub a).symm
  cases w with
  | w64 =>
    show exec 0 l ((s.set dr (-s.regs dr)).withFlags none) = _
    rw [hsub]
    rfl
  | w32 =>
    show exec 0 l ((s.set dr (ofLow (-low (s.regs dr)))).withFlags none) = _
    rw [hsub]
    rfl

theorem exec_commutative (s : State) {op : Arith} (hop : op ≠ .sub) :
    ∃ s', exec 0 (emitCommutative w op dr lr rr) s = .done s' ∧
      Leaves s s' dr (w.arith op (s.regs lr) (s.regs rr)) := by
  unfold emitCommutative
  split
  · next h =>
    subst h
    exact ⟨_, exec_alu s op [], leaves_set s dr _ none⟩
  split
  · next h =>
    subst h
    rw [arith_comm w hop]
    exact ⟨_, exec_alu s op [], leaves_set s dr _ none⟩
  · next hl hr =>
    rw [exec_mov, exec_alu]
    refine ⟨_, rfl, ?_, ?_, rfl⟩
    · simp [Ne.symm hr]
    · intro r hrd _
      simp [hrd]

theorem exec_sub (s : State) :
    ∃ s', exec 0 (emitSub w dr lr rr) s = .done s' ∧
      Leaves s s' dr (w.arith .sub (s.regs lr) (s.regs rr)) := by
  unfold emitSub
  split
  · next h =>
    subst h
    exact ⟨_, exec_alu s .sub [], leaves_set s dr _ none⟩
  split
  · next hl hr =>
    rw [exec_mov, exec_alu]
    refine ⟨_, rfl, ?_, ?_, rfl⟩
    · simp [Ne.symm hr]
    · intro r hrd _
      simp [hrd]
  · next hl hr =>
    -- the right operand is negated in place, and the left one added
    obtain rfl := not_not.mp hr
    rw [exec_neg, exec_alu]
    refine ⟨_, rfl, ?_, ?_, rfl⟩
    · simp [Ne.symm hl, arith_neg_add]
    · intro r hrd _
      simp [hrd]

theorem exec_setcc (s : State) {f : Flags} (hf : s.flags = some f) (cc : Cc) :
    exec 0 (emitSetcc dr cc) s = .done (s.set dr (ofBool (cc.holds f))) := by
  have hbyte : ∀ (x : Word) (b : Bool), (x &&& ~~~0xFF ||| ofBool b) &&& 0xFF = ofBool b := by
    intro x b
    rw [BitVec.and_or_distrib_right, BitVec.and_assoc]
    cases b <;> simp [ofBool]
  obtain ⟨regs, flags, stack⟩ := s
  obtain rfl : flags = some f := hf
  refine congrArg Outcome.done ((set_set _ dr _ _).trans ?_)
  rw [State.regs_set, if_pos rfl, hbyte]

theorem exec_cmpSet (s : State) (c : Cond) :
    ∃ s', exec 0 (emitCmpSet w c dr lr rr) s = .done s' ∧
      Leaves s s' dr (match w with
        | .w64 => ofBool (c.holds (s.regs lr) (s.regs rr))
        | .w32 => ofBool (c.holds (low (s.regs lr)) (low (s.regs rr)))) := by
  -- the comparison only sets the flags
  have hset : ∀ {n : Nat} (a b : BitVec n), ∃ s', exec 0 (emitSetcc dr (ccOf c))
      (s.withFlags (some (flagsOfSub a b))) = .done s' ∧ Leaves s s' dr (ofBool (c.holds a b)) := by
    intro n a b
    rw [exec_setcc _ rfl, holds_ccOf]
    exact ⟨_, rfl, by simp, fun r hr _ => by simp [hr], rfl⟩
  cases w with
  | w64 => exact hset (s.regs lr) (s.regs rr)
  | w32 => exact hset (low (s.regs lr)) (low (s.regs rr))

theorem quot_cut (w : Width) (a b : Word) : w.quot (w.cut a) b = w.quot a b := by
  cases w <;> simp [Width.quot, Width.cut]

theorem wraps_cut (w : Width) (a b : Word) : w.wraps (w.cut a) b = w.wraps a b := by
  cases w <;> simp [Width.wraps, Width.cut]

/-- The dividend is in rax and the divisor in r11. -/
theorem exec_idiv (s : State) (hzero : w.isZero (s.regs kRegR11) = false)
    (hwrap : w.wraps (s.regs kRegRax) (s.regs kRegR11) = false) :
    ∃ s', (∀ l, exec 0 (.signExtend w :: .idiv w kRegR11 :: l) s = exec 0 l s') ∧
      s'.regs kRegRax = w.cut (w.quot (s.regs kRegRax) (s.regs kRegR11)) ∧
      (∀ r, r ≠ kRegRax → r ≠ kRegRdx → s'.regs r = s.regs r) ∧ s'.stack = s.stack := by
  -- rdx is written twice: the sign of the dividend, and then the remainder
  have hdone : ∀ (mask q rem : Word),
      let s' := (((s.set kRegRdx mask).set kRegRax q).set kRegRdx rem).withFlags none
      s'.regs kRegRax = q ∧ (∀ r, r ≠ kRegRax → r ≠ kRegRdx → s'.regs r = s.regs r) ∧
        s'.stack = s.stack := by
    intro mask q rem
    refine ⟨by simp [kRegRax, kRegRdx], fun r hr hr' => by simp [hr, hr'], rfl⟩
  cases w with
  | w64 =>
    obtain ⟨rem, hdiv⟩ := divideSigned_signMask (a := s.regs kRegRax) (b := s.regs kRegR11)
      (by simpa [Width.isZero] using hzero) (by simpa [Width.wraps] using hwrap)
    refine ⟨_, fun l => ?_, hdone (signMask (s.regs kRegRax)) _ rem⟩
    simp only [exec, step, State.regs_set]
    simp [kRegRdx, kRegRax, kRegR11] at hdiv ⊢
    simp [hdiv, Width.cut, Width.quot]
  | w32 =>
    obtain ⟨rem, hdiv⟩ := divideSigned_signMask (a := low (s.regs kRegRax))
      (b := low (s.regs kRegR11)) (by simpa [Width.isZero] using hzero)
      (by simpa [Width.wraps] using hwrap)
    refine ⟨_, fun l => ?_, hdone (ofLow (signMask (low (s.regs kRegRax)))) _ (ofLow rem)⟩
    simp only [exec, step, State.regs_set]
    simp [kRegRdx, kRegRax, kRegR11] at hdiv ⊢
    simp [hdiv, Width.cut, Width.quot]

theorem exec_push (s : State) (r : Reg) (l : List Instr) :
    exec 0 (.push r :: l) s = exec 0 l { s with stack := s.regs r :: s.stack } := rfl

theorem exec_pop (s : State) (r : Reg) (l : List Instr) {rest : List Word}
    (h : s.stack = v :: rest) :
    exec 0 (.pop r :: l) s = exec 0 l ({ s with stack := rest }.set r v) := by
  obtain ⟨regs, flags, stack⟩ := s
  obtain rfl : stack = v :: rest := h
  rfl

/-- The moves into rax and out of it, and the division between them. -/
theorem exec_idivMoves (s : State)
    (hzero : w.isZero (s.regs kRegR11) = false)
    (hwrap : w.wraps (s.regs lr) (s.regs kRegR11) = false) :
    ∃ s', (∀ l, exec 0 ((if lr ≠ kRegRax then emitMov w kRegRax lr else []) ++
        ([.signExtend w, .idiv w kRegR11] ++
          ((if dr ≠ kRegRax then emitMov w dr kRegRax else []) ++ l))) s = exec 0 l s') ∧
      s'.regs dr = w.cut (w.quot (s.regs lr) (s.regs kRegR11)) ∧
      (∀ r, r ≠ kRegRax → r ≠ kRegRdx → r ≠ dr → s'.regs r = s.regs r) ∧ s'.stack = s.stack := by
  -- the dividend in rax
  obtain ⟨s₁, hfirst, hrax, hothers, hstack⟩ : ∃ s₁, (∀ l, exec 0
      ((if lr ≠ kRegRax then emitMov w kRegRax lr else []) ++ l) s = exec 0 l s₁) ∧
      w.cut (s₁.regs kRegRax) = w.cut (s.regs lr) ∧ (∀ r, r ≠ kRegRax → s₁.regs r = s.regs r) ∧
      s₁.stack = s.stack := by
    by_cases h : lr = kRegRax
    · exact ⟨s, fun l => by simp [h], by rw [h], fun r _ => rfl, rfl⟩
    · refine ⟨s.set kRegRax (w.cut (s.regs lr)), fun l => ?_, ?_, fun r hr => by simp [hr], rfl⟩
      · rw [if_pos h, exec_mov]
      · cases w <;> simp [Width.cut]
  have hr11 : s₁.regs kRegR11 = s.regs kRegR11 := hothers kRegR11 (by decide)
  obtain ⟨s₂, hdiv, hquot, hkept, hstack₂⟩ := exec_idiv (w := w) s₁ (by rw [hr11]; exact hzero)
    (by rw [← wraps_cut, hrax, wraps_cut, hr11]; exact hwrap)
  rw [← quot_cut, hrax, quot_cut, hr11] at hquot
  refine ⟨if dr ≠ kRegRax then s₂.set dr (w.cut (s₂.regs kRegRax)) else s₂, fun l => ?_, ?_, ?_, ?_⟩
  · rw [hfirst]
    show exec 0 (.signExtend w :: .idiv w kRegR11 :: _) s₁ = _
    rw [hdiv]
    split
    · exact exec_mov s₂ l
    · rfl
  · split
    · rw [State.regs_set, if_pos rfl, hquot]
      cases w <;> simp [Width.cut]
    · next h =>
      rw [not_not.mp h, hquot]
  · intro r hr hr' hrd
    have hsame : s₂.regs r = s.regs r := (hkept r hr hr').trans (hothers r hr)
    split
    · rw [State.regs_set, if_neg hrd, hsame]
    · exact hsame
  · split
    · exact hstack₂.trans hstack
    · exact hstack₂.trans hstack

theorem exec_idivBody (s : State)
    (hzero : w.isZero (s.regs kRegR11) = false)
    (hwrap : w.wraps (s.regs lr) (s.regs kRegR11) = false) :
    ∃ s', exec 0 (emitIdivBody w dr lr) s = .done s' ∧
      Leaves s s' dr (w.cut (w.quot (s.regs lr) (s.regs kRegR11))) := by
  unfold emitIdivBody
  simp only [append_assoc]
  by_cases hra : dr = kRegRax
  · -- only rdx is saved
    subst hra
    obtain ⟨s', hrun, hres, hkept, hstack⟩ := @exec_idivMoves kRegRax lr w
      { s with stack := s.regs kRegRdx :: s.stack } hzero hwrap
    refine ⟨{ s' with stack := s.stack }.set kRegRdx (s.regs kRegRdx), ?_, ?_, ?_, rfl⟩
    · simp only [ne_eq, not_true_eq_false, if_false, nil_append] at hrun ⊢
      rw [if_pos (by decide), singleton_append, exec_push, hrun, if_pos (by decide),
        singleton_append, exec_pop s' kRegRdx _ hstack]
      rfl
    · exact hres
    · intro r hr _
      rw [State.regs_set]
      split
      · next h => rw [h]
      · next h => exact hkept r hr h hr
  by_cases hrd : dr = kRegRdx
  · -- only rax is saved
    subst hrd
    obtain ⟨s', hrun, hres, hkept, hstack⟩ := @exec_idivMoves kRegRdx lr w
      { s with stack := s.regs kRegRax :: s.stack } hzero hwrap
    refine ⟨{ s' with stack := s.stack }.set kRegRax (s.regs kRegRax), ?_, ?_, ?_, rfl⟩
    · simp only [ne_eq, not_true_eq_false, if_false, nil_append] at hrun ⊢
      rw [if_pos hra, singleton_append, exec_push, hrun, if_pos hra,
        exec_pop s' kRegRax _ hstack]
      rfl
    · exact hres
    · intro r hr _
      rw [State.regs_set]
      split
      · next h => rw [h]
      · next h => exact hkept r h hr hr
  · obtain ⟨s', hrun, hres, hkept, hstack⟩ := @exec_idivMoves dr lr w
      { s with stack := s.regs kRegRdx :: s.regs kRegRax :: s.stack } hzero hwrap
    refine ⟨(({ s' with stack := s.stack }.set kRegRdx (s.regs kRegRdx))).set kRegRax
      (s.regs kRegRax), ?_, ?_, ?_, rfl⟩
    · rw [if_pos hra, if_pos hrd, singleton_append, exec_push, singleton_append, exec_push]
      have hrun' := hrun ([.pop kRegRdx] ++ [.pop kRegRax])
      rw [if_pos hra] at hrun'
      simp only [if_pos hra, if_pos hrd]
      refine hrun'.trans ?_
      rw [singleton_append, exec_pop s' kRegRdx _ hstack, exec_pop _ kRegRax [] rfl]
      rfl
    · simp only [State.regs_set, if_neg hra, if_neg hrd]
      exact hres
    · intro r hr _
      simp only [State.regs_set]
      split
      · next h => rw [h]
      split
      · next h => rw [h]
      · next h h' => exact hkept r h h' hr

theorem exec_test (s : State) (r : Reg) : ∃ f : Flags, f.zf = w.isZero (s.regs r) ∧
    ∀ l, exec 0 (.test w r :: l) s = exec 0 l (s.withFlags (some f)) := by
  cases w with
  | w64 => exact ⟨flagsOfTest (s.regs r), rfl, fun l => rfl⟩
  | w32 => exact ⟨flagsOfTest (low (s.regs r)), rfl, fun l => rfl⟩

theorem exec_cmpImm (s : State) (r : Reg) (imm : Word) :
    ∃ f : Flags, (f.zf = true ↔ w.cut (s.regs r) = w.cut imm) ∧
      ∀ l, exec 0 (.cmpImm w r imm :: l) s = exec 0 l (s.withFlags (some f)) := by
  cases w with
  | w64 =>
    refine ⟨flagsOfSub (s.regs r) imm, ?_, fun l => rfl⟩
    show (s.regs r - imm == 0) = true ↔ s.regs r = imm
    rw [zero_of_sub, beq_iff_eq]
  | w32 =>
    refine ⟨flagsOfSub (low (s.regs r)) (low imm), ?_, fun l => rfl⟩
    show (low (s.regs r) - low imm == 0) = true ↔ ofLow (low (s.regs r)) = ofLow (low imm)
    rw [zero_of_sub, beq_iff_eq]
    constructor
    · intro h
      rw [h]
    · intro h
      simpa using congrArg low h

theorem exec_idivNeg (s : State) :
    ∃ s', (∀ l, exec 0 (emitIdivNeg w dr lr ++ l) s = exec 0 l s') ∧
      Leaves s s' dr (w.arith .sub 0#64 (s.regs lr)) := by
  have hneg : w.arith .sub 0#64 (w.cut (s.regs lr)) = w.arith .sub 0#64 (s.regs lr) := by
    cases w <;> simp [Width.arith, Width.cut]
  by_cases h : dr = lr
  · subst h
    refine ⟨_, fun l => ?_, leaves_set s dr _ none⟩
    have hmove : emitIdivNeg w dr dr = [.neg w dr] := by
      cases w <;> simp [emitIdivNeg, emitMovRegReg]
    rw [hmove]
    exact exec_neg s l
  · have hmove : emitIdivNeg w dr lr = emitMov w dr lr ++ [.neg w dr] := by
      cases w <;> simp [emitIdivNeg, emitMov, h]
    refine ⟨((s.set dr (w.cut (s.regs lr))).set dr (w.arith .sub 0#64 (s.regs lr))).withFlags none,
      fun l => ?_, ?_⟩
    · rw [hmove, append_assoc, exec_mov, singleton_append, exec_neg]
      simp [hneg]
    · rw [set_set]
      exact leaves_set s dr _ none

/-- Only -1 wraps. -/
theorem wraps_of_ne {a b : Word} (h : w.cut b ≠ w.cut (-1)) : w.wraps a b = false := by
  cases w with
  | w64 =>
    have hne : b ≠ -1 := h
    simp only [Width.wraps, beq_eq_false_iff_ne.mpr hne, Bool.and_false]
  | w32 =>
    have hne : low b ≠ -1 := by
      intro hb
      apply h
      show ofLow (low b) = ofLow (low (-1))
      rw [hb]
      rfl
    simp only [Width.wraps, beq_eq_false_iff_ne.mpr hne, Bool.and_false]

theorem cut_quot (w : Width) (a b : Word) : w.cut (w.quot a b) = w.quot a b := by
  cases w <;> simp [Width.cut, Width.quot]

theorem Leaves.of_r11 {v v' : Word} (h : Leaves (s.set kRegR11 v) s' dr v') : Leaves s s' dr v' where
  result := h.result
  others r hr hr' := by rw [h.others r hr hr', State.regs_set, if_neg hr']
  stack := h.stack

theorem Leaves.of_flags {f : Option Flags} (h : Leaves (s.withFlags f) s' dr v) :
    Leaves s s' dr v := ⟨h.result, h.others, h.stack⟩

/-- A divisor that is not zero; an unchecked one does not wrap either. -/
theorem exec_emitIdiv (s : State) (hl : lr ≠ kRegR11) {checked : Bool} (pc : Nat)
    (hzero : w.isZero (s.regs rr) = false)
    (hwrap : checked = false → w.wraps (s.regs lr) (s.regs rr) = false) :
    ∃ s', exec 0 (emitIdiv w dr lr rr checked pc) s = .done s' ∧
      Leaves s s' dr (w.quot (s.regs lr) (s.regs rr)) := by
  unfold emitIdiv
  simp only
  rw [exec_mov]
  have hzero₁ : w.isZero (w.cut (s.regs rr)) = false := by
    rw [← hzero]
    cases w <;> simp [Width.isZero, Width.cut]
  have hquot₁ : w.quot (s.regs lr) (w.cut (s.regs rr)) = w.quot (s.regs lr) (s.regs rr) := by
    cases w <;> simp [Width.quot, Width.cut]
  have hwrap₁ : w.wraps (s.regs lr) (w.cut (s.regs rr)) = w.wraps (s.regs lr) (s.regs rr) := by
    cases w <;> simp [Width.wraps, Width.cut]
  -- the body, on any flags
  have hbody : ∀ f, w.wraps (s.regs lr) (s.regs rr) = false →
      ∃ s', exec 0 (emitIdivBody w dr lr) ((s.set kRegR11 (w.cut (s.regs rr))).withFlags f) =
        .done s' ∧ Leaves s s' dr (w.quot (s.regs lr) (s.regs rr)) := by
    intro f hw
    obtain ⟨s', hrun, hleaves⟩ := @exec_idivBody dr lr w
      ((s.set kRegR11 (w.cut (s.regs rr))).withFlags f) (by simpa using hzero₁)
      (by simpa [hl, hwrap₁] using hw)
    simp only [State.regs_withFlags, State.regs_set, if_neg hl, if_true, hquot₁, cut_quot] at hleaves
    exact ⟨s', hrun, hleaves.of_flags.of_r11⟩
  cases checked with
  | false => exact hbody s.flags (hwrap rfl)
  | true =>
    simp only [if_true, cons_append, append_assoc, nil_append]
    obtain ⟨f, hf, htest⟩ := exec_test (w := w) (s.set kRegR11 (w.cut (s.regs rr))) kRegR11
    have hf' : f.zf = false := by rw [hf]; simpa using hzero₁
    rw [htest]
    have hfault : ∀ l, exec 0 (.jccFault .e .divisionByZero pc :: l)
        ((s.set kRegR11 (w.cut (s.regs rr))).withFlags (some f)) =
        exec 0 l ((s.set kRegR11 (w.cut (s.regs rr))).withFlags (some f)) := by
      intro l
      simp [exec, step, Cc.holds, hf']
    rw [hfault]
    obtain ⟨g, hg, hcmp⟩ := exec_cmpImm (w := w)
      ((s.set kRegR11 (w.cut (s.regs rr))).withFlags (some f)) kRegR11 (-1)
    rw [hcmp]
    have hcut : w.cut (w.cut (s.regs rr)) = w.cut (s.regs rr) := by
      cases w <;> simp [Width.cut]
    simp only [State.regs_withFlags, State.regs_set, if_true, hcut] at hg
    by_cases hone : w.cut (s.regs rr) = w.cut (-1)
    · -- x / -1, and then over the body
      obtain ⟨s', hneg, hleaves⟩ := @exec_idivNeg dr lr w
        ((s.set kRegR11 (w.cut (s.regs rr))).withFlags (some g))
      simp only [State.regs_withFlags, State.regs_set, if_neg hl] at hleaves
      refine ⟨s', ?_, ?_⟩
      · have hstay : (if Cc.ne.holds g then (emitIdivNeg w dr lr).length + 1 else 0) = 0 := by
          simp [Cc.holds, hg.mpr hone]
        show exec (if Cc.ne.holds g then (emitIdivNeg w dr lr).length + 1 else 0) _ _ = _
        rw [hstay]
        refine (hneg _).trans ?_
        have hover := exec_skip 0 (emitIdivBody w dr lr) [] s'
        rw [append_nil] at hover
        exact hover
      · rw [quot_neg_one w hone]
        exact hleaves.of_flags.of_r11
    · have hnot := wraps_of_ne (a := s.regs lr) hone
      obtain ⟨s', hrun, hleaves⟩ := hbody (some g) hnot
      refine ⟨s', ?_, hleaves⟩
      have hjump : (if Cc.ne.holds g then (emitIdivNeg w dr lr).length + 1 else 0) =
          (emitIdivNeg w dr lr).length + 1 := by
        have hz : g.zf = false := by simpa using mt hg.mp hone
        simp [Cc.holds, hz]
      show exec (if Cc.ne.holds g then (emitIdivNeg w dr lr).length + 1 else 0) _ _ = _
      rw [hjump, exec_skip]
      exact hrun

/-- A zero divisor goes to the fault stub. -/
theorem exec_emitIdiv_zero (s : State) (pc : Nat) (hzero : w.isZero (s.regs rr) = true) :
    ∃ s', exec 0 (emitIdiv w dr lr rr true pc) s = .fault .divisionByZero pc s' ∧
      (∀ r, r ≠ kRegR11 → s'.regs r = s.regs r) ∧ s'.stack = s.stack := by
  unfold emitIdiv
  simp only
  rw [exec_mov]
  simp only [if_true, cons_append]
  obtain ⟨f, hf, htest⟩ := exec_test (w := w) (s.set kRegR11 (w.cut (s.regs rr))) kRegR11
  have hf' : f.zf = true := by
    rw [hf, ← hzero]
    cases w <;> simp [Width.isZero, Width.cut]
  rw [htest]
  refine ⟨(s.set kRegR11 (w.cut (s.regs rr))).withFlags (some f), ?_, fun r hr => ?_, rfl⟩
  · simp [exec, step, Cc.holds, hf']
  · simp [hr]

/-! ## Whole Lowerings -/

/-- The registers the allocator gives out. -/
def Allocatable (r : Reg) : Prop := r < kNumAllocatableRegs ∧ r ≠ kRegRbx ∧ r ≠ kRegR11

/-- What an integer operation is to do. -/
inductive Meaning
  | writes (e : Eval)
  | compares (a b : Word)

/-- The meaning of an operation on the registers of its operands; none if it is not one on
    integers. -/
def meaning (floats : Floats) (m : Mir) (reg : VRegId → Reg) (s : State) : Option Meaning :=
  match m.op.form with
  | .constant .w32 => some (.writes (.value (ofLow (low (BitVec.ofNat 64 m.imm32)))))
  | .constant .w64 => some (.writes (.value (BitVec.ofNat 64 m.imm64)))
  | .copy => some (.writes (.value (s.regs (reg m.r1))))
  | .select zero => s.flags.map fun f =>
    .writes (.value (if f.zf = zero then s.regs (reg m.r1) else s.regs (reg m.r0)))
  | .immediate f => some (.writes (.value (m.evalImmediate f (s.regs (reg m.r1)))))
  | .binary (.float _ _) => none
  | .binary (.floatCmp _ _) => none
  | .binary f =>
    some (.writes (m.evalBinary floats f (s.regs (reg m.r1)) (s.regs (reg m.immV))))
  | .test => some (.compares (s.regs (reg m.r0)) 0)
  | .compare => some (.compares (s.regs (reg m.r0)) m.simm)
  | _ => none

/-- The run of a lowering does what the operation is to do: it leaves the value in the
    destination and every other allocatable register as it was, or goes to the fault stub, or
    leaves flags that every signed comparison reads right. -/
def Realizes (s : State) (dr : Reg) (o : Outcome) : Meaning → Prop
  | .writes (.value v) => ∃ s', o = .done s' ∧ s'.regs dr = v ∧
      (∀ r, Allocatable r → r ≠ dr → s'.regs r = s.regs r) ∧ s'.stack = s.stack
  | .writes (.fault kind pc) => ∃ s', o = .fault kind pc s' ∧
      (∀ r, Allocatable r → s'.regs r = s.regs r) ∧ s'.stack = s.stack
  | .writes .trap => False
  | .compares a b => ∃ f, o = .done (s.withFlags (some f)) ∧ ∀ c : Cond, (ccOf c).holds f = c.holds a b

/-- The lowering of a form on its registers. -/
def lower (m : Mir) (dr lr rr : Reg) : Form → Option (List Instr)
  | .constant .w32 => some [.movImm .w32 dr (BitVec.ofNat 64 m.imm32)]
  | .constant .w64 => some [.movImm .w64 dr (BitVec.ofNat 64 m.imm64)]
  | .copy => some (emitMovRegReg dr lr)
  | .select zero => some [.cmov zero dr lr]
  | .immediate .add => some (emitMovRegReg dr lr ++ [.aluImm .add dr m.simm])
  | .immediate .sub => some (emitMovRegReg dr lr ++ [.aluImm .sub dr m.simm])
  | .immediate (.cmp c) => some (.cmpImm .w64 lr m.simm :: emitSetcc dr (ccOf c))
  | .binary (.int w .sub) => some (emitSub w dr lr rr)
  | .binary (.int w op) => some (emitCommutative w op dr lr rr)
  | .binary (.div w) => some (emitIdiv w dr lr rr m.checked m.divisionPc)
  | .binary (.cmp w c) => some (emitCmpSet w c dr lr rr)
  | .test => some [.test .w64 dr]
  | .compare => some [.cmpImm .w64 dr m.simm]
  | _ => none

theorem encodeMir_eq (reg : VRegId → Reg) :
    encodeMir (fun v => some (reg v)) m =
      lower m (reg m.r0) (reg m.r1) (reg m.immV) m.op.form := by
  obtain ⟨op, r0, r1, disp, imm32, imm64, params, pc⟩ := m
  cases op <;> rfl

theorem Leaves.realizes (h : Leaves s s' dr v) :
    Realizes s dr (.done s') (.writes (.value v)) :=
  ⟨s', rfl, h.result, fun r hr hne => h.others r hne hr.2.2, h.stack⟩

/-- A division, whose divisor the caller vouches for when it is not checked. -/
theorem realizes_idiv (floats : Floats) (hl : lr ≠ kRegR11)
    (hsafe : m.checked = false →
      w.isZero (s.regs rr) = false ∧ w.wraps (s.regs lr) (s.regs rr) = false) :
    Realizes s dr (exec 0 (emitIdiv w dr lr rr m.checked m.divisionPc) s)
      (.writes (m.evalBinary floats (.div w) (s.regs lr) (s.regs rr))) := by
  have heval : m.evalBinary floats (.div w) (s.regs lr) (s.regs rr) =
      if w.isZero (s.regs rr) ∧ m.checked then .fault .divisionByZero m.divisionPc
      else .value (w.quot (s.regs lr) (s.regs rr)) := by
    cases hc : m.checked with
    | true => cases w <;> simp [Mir.evalBinary, divide, hc, Width.isZero, Width.quot]
    | false =>
      obtain ⟨hzero, hwrap⟩ := hsafe hc
      cases w <;> simp_all [Mir.evalBinary, divide, Width.isZero, Width.wraps, Width.quot]
  rw [heval]
  split
  · next h =>
    obtain ⟨hzero, hc⟩ := h
    rw [hc]
    obtain ⟨s', hrun, hkept, hstack⟩ := @exec_emitIdiv_zero dr lr _ _ s m.divisionPc hzero
    exact ⟨s', hrun, fun r hr => hkept r hr.2.2, hstack⟩
  · next h =>
    have hzero : w.isZero (s.regs rr) = false := by
      cases hc : m.checked with
      | true => simpa [hc] using h
      | false => exact (hsafe hc).1
    obtain ⟨s', hrun, hleaves⟩ := @exec_emitIdiv dr _ _ _ s hl _ m.divisionPc hzero
      fun hc => (hsafe hc).2
    rw [hrun]
    exact hleaves.realizes

/-- The immediate forms: the destination is moved into place, or the flags are set. -/
theorem realizes_immediate (f : Immediate) {code : List Instr}
    (h : lower m dr lr rr (.immediate f) = some code) :
    Realizes s dr (exec 0 code s) (.writes (.value (m.evalImmediate f (s.regs lr)))) := by
  have harith : ∀ op : Arith, ∃ s', exec 0 (emitMovRegReg dr lr ++ [.aluImm op dr m.simm]) s =
      .done s' ∧ Leaves s s' dr (op.eval (s.regs lr) m.simm) := by
    intro op
    have hmov := @exec_mov dr lr .w64 s [.aluImm op dr m.simm]
    refine ⟨_, hmov, ?_⟩
    simp only [State.regs_set, if_true, Width.cut, set_set]
    exact leaves_set s dr _ none
  cases f with
  | add =>
    obtain ⟨s', hrun, hleaves⟩ := harith .add
    cases h
    rw [hrun]
    exact hleaves.realizes
  | sub =>
    obtain ⟨s', hrun, hleaves⟩ := harith .sub
    cases h
    rw [hrun]
    exact hleaves.realizes
  | cmp c =>
    cases h
    show Realizes s dr (exec 0 (emitSetcc dr (ccOf c))
      (s.withFlags (some (flagsOfSub (s.regs lr) m.simm)))) _
    rw [exec_setcc _ rfl, holds_ccOf]
    have hleaves := leaves_set (s.withFlags (some (flagsOfSub (s.regs lr) m.simm))) dr
      (ofBool (c.holds (s.regs lr) m.simm)) (some (flagsOfSub (s.regs lr) m.simm))
    exact hleaves.of_flags.realizes

theorem holds_test (c : Cond) (a : Word) : (ccOf c).holds (flagsOfTest a) = c.holds a 0 := by
  rw [← holds_ccOf c a 0]
  have hover : a.ssubOverflow 0#64 = false := by
    have hlow := a.le_toInt
    have hhigh := a.toInt_lt
    simp only [BitVec.ssubOverflow, BitVec.toInt_zero, Int.sub_zero, Bool.or_eq_false_iff,
      decide_eq_false_iff_not]
    omega
  simp [flagsOfTest, flagsOfSub, hover]

/-- Whatever registers the allocator gives an integer operation, any of them the same, its
    lowering does what the operation is to do. An unchecked division is one whose divisor is
    a constant other than 0 and -1. -/
theorem encodeMir_integer (floats : Floats) (m : Mir) (reg : VRegId → Reg)
    (hreg : ∀ v, Allocatable (reg v)) (s : State) {e : Meaning}
    (hm : meaning floats m reg s = some e)
    (hsafe : m.checked = false → ∀ w, m.op.form = .binary (.div w) →
      w.isZero (s.regs (reg m.immV)) = false ∧
        w.wraps (s.regs (reg m.r1)) (s.regs (reg m.immV)) = false) :
    ∃ code, encodeMir (fun v => some (reg v)) m = some code ∧
      Realizes s (reg m.r0) (exec 0 code s) e := by
  have hl : reg m.r1 ≠ kRegR11 := (hreg m.r1).2.2
  rw [encodeMir_eq]
  unfold meaning at hm
  cases hform : m.op.form with
  | constant w =>
    rw [hform] at hm
    cases w <;>
    · cases hm
      refine ⟨_, rfl, ?_⟩
      exact (leaves_set s (reg m.r0) _ s.flags).realizes
  | copy =>
    rw [hform] at hm
    cases hm
    refine ⟨_, rfl, ?_⟩
    have hmov := @exec_mov (reg m.r0) (reg m.r1) .w64 s []
    rw [append_nil] at hmov
    rw [show emitMovRegReg (reg m.r0) (reg m.r1) = emitMov .w64 (reg m.r0) (reg m.r1) from rfl, hmov]
    exact (leaves_set s (reg m.r0) _ s.flags).realizes
  | select zero =>
    rw [hform] at hm
    obtain ⟨f, hf, rfl⟩ := Option.map_eq_some_iff.mp hm
    refine ⟨_, rfl, ?_⟩
    simp only [exec, step, hf]
    exact (leaves_set s (reg m.r0) _ s.flags).realizes
  | immediate f =>
    rw [hform] at hm
    cases hm
    obtain ⟨code, hcode⟩ : ∃ code, lower m (reg m.r0) (reg m.r1) (reg m.immV) (.immediate f) =
        some code := by
      cases f <;> exact ⟨_, rfl⟩
    exact ⟨code, hcode, realizes_immediate m f hcode⟩
  | binary f =>
    rw [hform] at hm
    cases f with
    | int w op =>
      cases hm
      have heval : m.evalBinary floats (.int w op) (s.regs (reg m.r1)) (s.regs (reg m.immV)) =
          .value (w.arith op (s.regs (reg m.r1)) (s.regs (reg m.immV))) := by
        cases w <;> rfl
      rw [heval]
      cases op with
      | sub =>
        obtain ⟨s', hrun, hleaves⟩ := @exec_sub (reg m.r0) (reg m.r1) (reg m.immV) w s
        exact ⟨_, rfl, by rw [hrun]; exact hleaves.realizes⟩
      | add =>
        obtain ⟨s', hrun, hleaves⟩ := @exec_commutative (reg m.r0) (reg m.r1) (reg m.immV) w s .add (by decide)
        exact ⟨_, rfl, by rw [hrun]; exact hleaves.realizes⟩
      | mul =>
        obtain ⟨s', hrun, hleaves⟩ := @exec_commutative (reg m.r0) (reg m.r1) (reg m.immV) w s .mul (by decide)
        exact ⟨_, rfl, by rw [hrun]; exact hleaves.realizes⟩
    | div w =>
      cases hm
      exact ⟨_, rfl, realizes_idiv m floats hl fun hc => hsafe hc w hform⟩
    | cmp w c =>
      cases hm
      obtain ⟨s', hrun, hleaves⟩ := @exec_cmpSet (reg m.r0) (reg m.r1) (reg m.immV) w s c
      refine ⟨_, rfl, ?_⟩
      rw [hrun]
      cases w <;> exact hleaves.realizes
    | float w op => cases hm
    | floatCmp w c => cases hm
  | test =>
    rw [hform] at hm
    cases hm
    exact ⟨_, rfl, _, rfl, fun c => holds_test c _⟩
  | compare =>
    rw [hform] at hm
    cases hm
    exact ⟨_, rfl, _, rfl, fun c => holds_ccOf c _ _⟩
  | _ =>
    rw [hform] at hm
    cases hm

/-- The smallest 32-bit value divided by -1: dividend and quotient in rdx, the divisor in rax. -/
def wrappingDivision : Mir := { op := .vIdiv32, r0 := 0, r1 := 1, imm32 := 2, imm64 := 3 }

def wrappingRegs : VRegId → Reg := fun v => if v = 2 then kRegRax else kRegRdx

def wrappingState : State :=
  ⟨fun r => if r = kRegRax then 0xFFFFFFFF else if r = kRegRdx then 0x80000000 else 5, none, []⟩

def wrappingFloats : Floats := ⟨fun _ _ a _ => a, fun _ _ _ _ => false⟩

theorem encodeMir_integer_wraps :
    ∃ code, encodeMir (fun v => some (wrappingRegs v)) wrappingDivision = some code ∧
      Realizes wrappingState kRegRdx (exec 0 code wrappingState) (.writes (.value 0x80000000)) := by
  have hregs : ∀ v, Allocatable (wrappingRegs v) := by
    intro v
    unfold wrappingRegs
    split <;> exact ⟨by decide, by decide, by decide⟩
  exact encodeMir_integer wrappingFloats wrappingDivision wrappingRegs hregs wrappingState rfl
    fun h => by cases h

end X64

end Camel.Jit
