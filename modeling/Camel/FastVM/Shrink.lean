import Camel.FastVM.Edit

/-! # The Scan Ends

    All that is asked of a chunk here is that its JUMPs go forward, each to an
    instruction. A turn of the scan that rewrites such a chunk leaves fewer units,
    or as many and less room between its JUMPs' targets and its end; any other
    turn goes on behind the instruction. So the scan comes to an end, whichever
    strategies are enabled and in whatever order they are asked.
-/

namespace Camel.FastVM

open List

/-! ## Forward JUMPs -/

/-- JUMP and RETN are one unit long, and a JUMP goes to an instruction behind it. -/
structure Forward (codes : Chunk) : Prop where
  sized : Sized codes
  jumpUnit : ∀ {p bc}, instrAt codes p = some bc → bc.opcode = .jump → bc.opsize = 1
  retnUnit : ∀ {p bc}, instrAt codes p = some bc → bc.opcode = .retn → bc.opsize = 1
  jumpForward : ∀ {p bc}, instrAt codes p = some bc → bc.opcode = .jump → p < bc.target
  jumpLands : ∀ {p bc}, instrAt codes p = some bc → bc.opcode = .jump →
    ∃ t, instrAt codes bc.target = some t

variable {codes : Chunk}

variable {p : Nat} {bc : Bytecode}

/-- A JUMP goes forward, so it is not the last instruction. -/
theorem Forward.behind_jump (h : Forward codes)
    (hat : instrAt codes p = some bc) (hop : bc.opcode = .jump) :
    ∃ t, instrAt codes (p + bc.opsize) = some t := by
  obtain ⟨t, ht⟩ := h.jumpLands hat hop
  have hfwd := h.jumpForward hat hop
  have hlt := instrAt_lt h.sized ht
  rcases Boundary.next h.sized hat with hsome | hend
  · exact hsome
  · rw [h.jumpUnit hat hop] at hend
    omega

section Drop

variable {d : Nat} {x : Bytecode}

/-- Chunks stay forward when an instruction is dropped that no JUMP goes to or that has another
    behind it. -/
theorem Forward.dropAt (h : Forward codes) (hx : instrAt codes d = some x)
    (hland : (∀ {p b}, instrAt codes p = some b → b.opcode = .jump → b.target ≠ d) ∨
      ∃ t, instrAt codes (d + x.opsize) = some t) :
    Forward (dropAt codes d x.opsize) := by
  have hs := h.sized
  have hxs : 0 < x.opsize := hs x (instrAt_mem hx)
  refine ⟨hs.dropAt hx, ?_, ?_, ?_, ?_⟩
  · intro q b' hb' hop
    obtain ⟨p, b, hb, -, -, rfl⟩ := exists_of_instrAt_dropAt hs hx hb'
    rw [moved_opcode] at hop
    rw [moved_opsize]
    exact h.jumpUnit hb hop
  · intro q b' hb' hop
    obtain ⟨p, b, hb, -, -, rfl⟩ := exists_of_instrAt_dropAt hs hx hb'
    rw [moved_opcode] at hop
    rw [moved_opsize]
    exact h.retnUnit hb hop
  · intro q b' hb' hop
    obtain ⟨p, b, hb, hout, rfl, rfl⟩ := exists_of_instrAt_dropAt hs hx hb'
    rw [moved_opcode] at hop
    rw [moved_target (by simp [hasJumpTarget, hop])]
    have hfwd := h.jumpForward hb hop
    obtain ⟨t, ht⟩ := h.jumpLands hb hop
    -- A target behind `d` is behind the whole dropped instruction.
    rcases Nat.lt_or_ge d b.target with hlt | hge
    · have := Boundary.end_le hs hx (.of_instrAt ht) hlt
      rw [shift_of_lt hlt]
      rcases hout with hlo | hhi
      · rw [shift_of_le (by omega)]
        omega
      · rw [shift_of_lt (by omega)]
        omega
    · rw [shift_of_le hge, shift_of_le (by omega)]
      exact hfwd
  · intro q b' hb' hop
    obtain ⟨p, b, hb, -, -, rfl⟩ := exists_of_instrAt_dropAt hs hx hb'
    rw [moved_opcode] at hop
    obtain ⟨t, ht⟩ := h.jumpLands hb hop
    rw [moved_target (by simp [hasJumpTarget, hop])]
    by_cases heq : b.target = d
    · rcases hland with hno | ⟨t', ht'⟩
      · exact absurd heq (hno hb hop)
      · have := instrAt_dropAt hs hx (.inr (Nat.le_refl (d + x.opsize)))
        rw [shift_of_lt (by omega), Nat.add_sub_cancel, ht'] at this
        rw [heq, shift_of_le (Nat.le_refl d)]
        exact ⟨_, this⟩
    · rw [instrAt_dropAt hs hx (Boundary.outside hs hx (.of_instrAt ht) heq), ht]
      exact ⟨_, rfl⟩

/-- The boundaries of a chunk stay boundaries. -/
theorem Boundary.dropAt {p : Nat} (hs : Sized codes) (hx : instrAt codes d = some x)
    (hp : Boundary codes p) (hne : p ≠ d) :
    Boundary (dropAt codes d x.opsize) (shift d x.opsize p) := by
  rcases hp with ⟨b, hb⟩ | rfl
  · left
    rw [instrAt_dropAt hs hx (Boundary.outside hs hx (.of_instrAt hb) hne), hb]
    exact ⟨_, rfl⟩
  · right
    have := units_dropAt hs hx
    rw [shift_of_lt (instrAt_lt hs hx)]
    omega

end Drop

/-! ## Writing Over a JUMP -/

/-- `d` is in no dispatch table. -/
def OffTable (codes : Chunk) (d : Nat) : Prop :=
  ∀ ⦃p b⦄, instrAt codes p = some b → b.opcode = .brch →
    ¬(p + b.opsize ≤ d ∧ d < p + b.opsize + b.brchArmDispatchCount)

/-- The JUMP at `c` is written over by an instruction of one unit: a JUMP further
    on or a RETN. -/
structure Overwrites (codes : Chunk) (c : Nat) (old new : Bytecode) : Prop where
  stands : instrAt codes c = some old
  isJump : old.opcode = .jump
  offTable : OffTable codes c
  unit : new.opsize = 1
  newOp : new.opcode = .retn ∨ (new.opcode = .jump ∧ c < new.target ∧
    ∃ t, instrAt codes new.target = some t)

theorem Forward.overwrites_retn {curr : Nat} {bc tbc : Bytecode} (h : Forward codes)
    (hat : instrAt codes curr = some bc) (hop : bc.opcode = .jump)
    (hnd : isBrchDispatchJump codes curr = false) (ht : instrAt codes bc.target = some tbc)
    (htop : tbc.opcode = .retn) : Overwrites codes curr bc tbc :=
  ⟨hat, hop, fun _ _ hb hbop => not_dispatch h.sized hat hop hnd hb hbop, h.retnUnit ht htop,
    .inl htop⟩

section Overwrite

variable {c : Nat} {old new : Bytecode}

theorem Overwrites.instrAt (h : Forward codes) (ho : Overwrites codes c old new) (p : Nat) :
    instrAt (overwrite codes c new) p = if p = c then some new else instrAt codes p :=
  instrAt_overwrite h.sized ho.stands (ho.unit.trans (h.jumpUnit ho.stands ho.isJump).symm) p

/-- Where an instruction stood, one stands. -/
theorem Overwrites.lands (h : Forward codes) (ho : Overwrites codes c old new) {p : Nat}
    (hp : ∃ t, FastVM.instrAt codes p = some t) :
    ∃ t, FastVM.instrAt (overwrite codes c new) p = some t := by
  rw [ho.instrAt h]
  split
  · exact ⟨new, rfl⟩
  · exact hp

/-- An instruction of the new chunk is the new one or one of the old chunk. -/
theorem Overwrites.inv (h : Forward codes) (ho : Overwrites codes c old new) {p : Nat}
    {b : Bytecode} (hb : FastVM.instrAt (overwrite codes c new) p = some b) :
    (p = c ∧ b = new) ∨ (p ≠ c ∧ FastVM.instrAt codes p = some b) := by
  rw [ho.instrAt h] at hb
  split at hb
  next heq =>
    cases hb
    exact .inl ⟨heq, rfl⟩
  next hne => exact .inr ⟨hne, hb⟩

theorem Forward.overwrite (h : Forward codes) (ho : Overwrites codes c old new) :
    Forward (overwrite codes c new) := by
  have hsize := ho.unit.trans (h.jumpUnit ho.stands ho.isJump).symm
  refine ⟨h.sized.overwrite ho.stands hsize, ?_, ?_, ?_, ?_⟩
  · intro p b hb hop
    rcases ho.inv h hb with ⟨-, rfl⟩ | ⟨-, hold⟩
    · exact ho.unit
    · exact h.jumpUnit hold hop
  · intro p b hb hop
    rcases ho.inv h hb with ⟨-, rfl⟩ | ⟨-, hold⟩
    · exact ho.unit
    · exact h.retnUnit hold hop
  · intro p b hb hop
    rcases ho.inv h hb with ⟨rfl, rfl⟩ | ⟨-, hold⟩
    · rcases ho.newOp with hop' | ⟨-, hfwd, -⟩
      · simp [hop] at hop'
      · exact hfwd
    · exact h.jumpForward hold hop
  · intro p b hb hop
    apply ho.lands h
    rcases ho.inv h hb with ⟨rfl, rfl⟩ | ⟨-, hold⟩
    · rcases ho.newOp with hop' | ⟨-, -, hlands⟩
      · simp [hop] at hop'
      · exact hlands
    · exact h.jumpLands hold hop

end Overwrite

/-! ## What the Strategies Act On -/

variable {d : Nat}

/-- The instruction in front of `d` does not hand control on to it. -/
theorem prev_of_not_fallsThrough (hs : Sized codes)
    (h : prevFallsThrough codes d = false) {b : Bytecode}
    (hb : instrAt codes p = some b) (hend : p + b.opsize = d) :
    b.opcode = .tail ∨ b.opcode = .retn ∨ b.opcode = .jump := by
  have hprev : findPrev codes d = p := by rw [← hend]; exact findPrev_of_end hs hb
  simp only [prevFallsThrough, hprev, opAt, hb, Option.map_some, Bool.or_eq_false_iff,
    Bool.not_eq_false', Bool.or_eq_true, beq_iff_eq, Option.some.injEq] at h
  tauto

variable {curr j : Nat}

/-- The JUMP `JoinCleanup` drops. -/
theorem joinVictimFrom_spec (hs : Sized codes) {pre rest : Chunk}
    (heq : codes = pre ++ rest) (h : joinVictimFrom codes curr rest (units pre) = some j) :
    ∃ x, instrAt codes j = some x ∧ x.opcode = .jump ∧ x.target = curr ∧
      (opAt codes (findPrev codes j) = some .tail ∨ opAt codes (findPrev codes j) = some .retn) := by
  induction rest generalizing pre with
  | nil => simp [joinVictimFrom] at h
  | cons nbc rest ih =>
    simp only [joinVictimFrom] at h
    split at h
    next hhit =>
      cases h
      refine ⟨nbc, ?_, hhit.1, hhit.2.1, hhit.2.2⟩
      subst heq
      exact instrAt_split nbc rest hs.append.1
    next =>
      have hunits : units pre + nbc.opsize = units (pre ++ [nbc]) := by simp
      rw [hunits] at h
      exact ih (by simp [heq]) h

theorem joinVictim_spec (hs : Sized codes) (h : joinVictim codes curr = some j) :
    ∃ x, instrAt codes j = some x ∧ x.opcode = .jump ∧ x.target = curr ∧
      (opAt codes (findPrev codes j) = some .tail ∨ opAt codes (findPrev codes j) = some .retn) :=
  joinVictimFrom_spec hs (nil_append codes).symm h

theorem foldJump_spec {folded : Chunk} (h : Forward codes)
    (hat : instrAt codes curr = some bc) (hop : bc.opcode = .jump)
    (hf : foldJump codes curr bc = some folded) :
    ∃ tbc, instrAt codes bc.target = some tbc ∧ tbc.opcode = .jump ∧
      folded = overwrite codes curr { bc with fastop0 := tbc.fastop0 } ∧
      Overwrites codes curr bc { bc with fastop0 := tbc.fastop0 } := by
  simp only [foldJump] at hf
  split at hf
  next => cases hf
  next hoff =>
    cases htat : instrAt codes bc.target with
    | none => simp [htat] at hf
    | some tbc =>
      simp only [htat] at hf
      split at hf
      next hcond =>
        cases hf
        have hfwd := h.jumpForward hat hop
        have hfwd' := h.jumpForward htat hcond.1
        have hunit : bc.opsize = 1 := h.jumpUnit hat hop
        refine ⟨tbc, rfl, hcond.1, rfl, hat, hop, ?_, hunit, .inr ⟨hop, ?_, ?_⟩⟩
        · intro p b hb hbop
          exact not_dispatch h.sized hat hop (by simpa using hoff) hb hbop
        · show curr < tbc.target
          omega
        · show ∃ t, instrAt codes tbc.target = some t
          exact h.jumpLands htat hcond.1
      next => cases hf

/-! ## The Measure -/

/-- How far the JUMPs of a chunk are from its end. -/
def slack (codes : Chunk) : Nat :=
  (codes.map fun b => if b.opcode = .jump then units codes + 1 - b.target else 0).sum

/-- The chunk has fewer units, or as many and less slack. -/
def Smaller (codes' codes : Chunk) : Prop :=
  units codes' < units codes ∨ (units codes' = units codes ∧ slack codes' < slack codes)

theorem Smaller.trans {a b c : Chunk} (hab : Smaller a b) (hbc : Smaller b c) : Smaller a c := by
  unfold Smaller at *
  omega

theorem smaller_dropAt {x : Bytecode} (hs : Sized codes)
    (hx : instrAt codes d = some x) : Smaller (dropAt codes d x.opsize) codes := by
  left
  have := units_dropAt hs hx
  have := hs x (instrAt_mem hx)
  omega

theorem smaller_overwrite {c : Nat} {old new : Bytecode} (h : Forward codes)
    (ho : Overwrites codes c old new) (hfar : new.opcode = .jump → old.target < new.target) :
    Smaller (overwrite codes c new) codes := by
  have hsize := ho.unit.trans (h.jumpUnit ho.stands ho.isJump).symm
  have hunits := units_overwrite h.sized ho.stands hsize
  refine .inr ⟨hunits, ?_⟩
  obtain ⟨t, ht⟩ := h.jumpLands ho.stands ho.isJump
  have hlt := instrAt_lt h.sized ht
  simp only [slack, hunits]
  obtain ⟨pre, post, rfl, rfl⟩ := exists_split_of_instrAt ho.stands
  rw [overwrite_split h.sized.append.1]
  simp only [map_append, map_cons, sum_append, sum_cons, ho.isJump]
  have hless : (if new.opcode = .jump then
      units (pre ++ old :: post) + 1 - new.target else 0) <
      units (pre ++ old :: post) + 1 - old.target := by
    split
    next hop =>
      have := hfar hop
      omega
    next => omega
  simp only [if_true]
  omega

/-! ## One Turn -/

/-- A turn that rewrites leads to a smaller forward chunk, at an instruction of it. -/
structure Shrinks (codes codes' : Chunk) (curr' : Nat) : Prop where
  forward : Forward codes'
  smaller : Smaller codes' codes
  boundary : Boundary codes' curr'

/-- Dropping a JUMP. -/
theorem Shrinks.dropJump {x : Bytecode} (h : Forward codes)
    (hx : instrAt codes d = some x) (hop : x.opcode = .jump) (hp : Boundary codes p)
    (hne : p ≠ d) : Shrinks codes (FastVM.dropJump codes d) (shift d 1 p) := by
  rw [dropJump_eq, ← h.jumpUnit hx hop]
  exact ⟨h.dropAt hx (.inr (h.behind_jump hx hop)), smaller_dropAt h.sized hx,
    Boundary.dropAt h.sized hx hp hne⟩

section
variable (h : Forward codes)
include h

theorem Shrinks.jumpToNext
    (hat : instrAt codes curr = some bc) (hop : bc.opcode = .jump) :
    Shrinks codes (FastVM.dropJump codes curr) curr := by
  have hunit := h.jumpUnit hat hop
  have := Shrinks.dropJump h hat hop (Boundary.next h.sized hat) (by omega)
  rwa [hunit, shift_of_lt (by omega), Nat.add_sub_cancel] at this

theorem Shrinks.jumpToRetn {tbc : Bytecode}
    (ho : Overwrites codes curr bc tbc) (htop : tbc.opcode = .retn) :
    Shrinks codes (overwrite codes curr tbc) (curr + 1) := by
  have hnew : instrAt (overwrite codes curr tbc) curr = some tbc := by
    rw [ho.instrAt h, if_pos rfl]
  refine ⟨h.overwrite ho, smaller_overwrite h ho (by simp [htop]), ?_⟩
  have := Boundary.next (h.overwrite ho).sized hnew
  rw [ho.unit] at this
  exact this

theorem Shrinks.joinVictim
    (hat : instrAt codes curr = some bc) (hj : FastVM.joinVictim codes curr = some j) :
    Shrinks codes (FastVM.dropJump codes j) (curr - 1) := by
  obtain ⟨x, hx, hxop, hxt, -⟩ := joinVictim_spec h.sized hj
  have hfwd := h.jumpForward hx hxop
  have hshift : curr - 1 = shift j 1 curr := (shift_of_lt (by omega)).symm
  rw [hshift]
  exact Shrinks.dropJump h hx hxop (.of_instrAt hat) (by omega)

theorem Shrinks.join
    (hat : instrAt codes curr = some bc) (hjt : jumpTargets codes curr = false) :
    Shrinks codes (redirect (removeop codes curr) curr (-bc.opsize)) curr := by
  have hpos : 0 < bc.opsize := h.sized bc (instrAt_mem hat)
  show Shrinks codes (dropAt codes curr bc.opsize) curr
  refine ⟨h.dropAt hat (.inl fun hb hop => jumpTargets_eq_false hjt hb hop),
    smaller_dropAt h.sized hat, ?_⟩
  have := Boundary.dropAt h.sized hat (Boundary.next h.sized hat) (by omega)
  rwa [shift_of_lt (by omega), Nat.add_sub_cancel] at this

/-- A folded JUMP goes to where the next one goes, which is further on. -/
theorem Shrinks.fold {curr : Nat} {bc : Bytecode} {folded : Chunk}
    (hat : instrAt codes curr = some bc) (hop : bc.opcode = .jump)
    (hf : foldJump codes curr bc = some folded) : Shrinks codes folded curr := by
  obtain ⟨tbc, htat, htop, rfl, ho⟩ := foldJump_spec h hat hop hf
  have hfwd := h.jumpForward htat htop
  refine ⟨h.overwrite ho, smaller_overwrite h ho fun _ => hfwd, ?_⟩
  exact .of_instrAt (by rw [ho.instrAt h, if_pos rfl])

end

section
variable (h : Forward codes) (hat : instrAt codes curr = some bc)
include h hat

/-- The middle JUMP of a folded chain. -/
theorem Shrinks.middle {folded : Chunk}
    (hop : bc.opcode = .jump)
    (hf : foldJump codes curr bc = some folded) :
    Shrinks codes (FastVM.dropJump folded bc.target) (if bc.target < curr then curr - 1 else curr) := by
  have hfold := Shrinks.fold h hat hop hf
  obtain ⟨tbc, htat, htop, hfolded, ho⟩ := foldJump_spec h hat hop hf
  have hfwd := h.jumpForward hat hop
  have hmid : instrAt folded bc.target = some tbc := by
    rw [hfolded, ho.instrAt h, if_neg (by omega)]
    exact htat
  have hdrop := Shrinks.dropJump hfold.forward hmid htop hfold.boundary (by omega)
  rw [shift_of_le (by omega)] at hdrop
  rw [if_neg (by omega)]
  exact ⟨hdrop.forward, hdrop.smaller.trans hfold.smaller, hdrop.boundary⟩

theorem Strategy.apply_shrinks {s : Strategy} {curr' : Nat} {codes' : Chunk}
    (hs : s.apply codes curr bc = some (codes', curr')) : Shrinks codes codes' curr' := by
  cases Strategy.rewrites hs with
  | middle hop hf _ => exact Shrinks.middle h hat hop hf
  | fold hop hf _ => exact Shrinks.fold h hat hop hf
  | next hop _ _ => exact Shrinks.jumpToNext h hat hop
  | retn hop hnd ht htop => exact Shrinks.jumpToRetn h (h.overwrites_retn hat hop hnd ht htop) htop
  | victim _ hj => exact Shrinks.joinVictim h hat hj
  | dead _ _ hdead => exact Shrinks.join h hat hdead.1

/-- A turn of the scan rewrites the chunk or goes on behind the instruction. -/
theorem round_shrinks {strategies : List Strategy} {curr' : Nat}
    {codes' : Chunk}
    (hr : round strategies codes curr = some (codes', curr')) :
    Shrinks codes codes' curr' ∨ (codes' = codes ∧ curr' = curr + bc.opsize) := by
  simp only [round, hat] at hr
  cases hf : strategies.findSome? fun s => s.apply codes curr bc with
  | some hit =>
    simp only [hf] at hr
    cases hr
    obtain ⟨s, -, happly⟩ := exists_of_findSome?_eq_some hf
    exact .inl (Strategy.apply_shrinks h hat happly)
  | none =>
    simp only [hf] at hr
    cases hr
    exact .inr ⟨rfl, rfl⟩

end

theorem round_exists (strategies : List Strategy)
    (hat : instrAt codes curr = some bc) :
    ∃ codes' curr', round strategies codes curr = some (codes', curr') := by
  simp only [round, hat]
  cases strategies.findSome? fun s => s.apply codes curr bc with
  | some hit => exact ⟨hit.1, hit.2, rfl⟩
  | none => exact ⟨_, _, rfl⟩

/-! ## The Scan -/

theorem optimizeFrom_mono {strategies : List Strategy} {fuel : Nat} {out : Chunk}
    (h : optimizeFrom strategies fuel codes curr = some out) (k : Nat) :
    optimizeFrom strategies (fuel + k) codes curr = some out := by
  induction fuel generalizing codes curr with
  | zero => simp [optimizeFrom] at h
  | succ fuel ih =>
    rw [Nat.succ_add]
    simp only [optimizeFrom] at h ⊢
    split at h
    next hlt =>
      rw [if_pos hlt]
      cases hr : round strategies codes curr with
      | none => simp [hr] at h
      | some r =>
        simp only [hr] at h ⊢
        exact ih h
    next hge =>
      rw [if_neg hge]
      exact h

/-- Each turn leaves fewer units, or as many and less slack, or goes on. -/
theorem exists_optimizeFrom (strategies : List Strategy) (codes : Chunk) (curr : Nat)
    (h : Forward codes) (hb : Boundary codes curr) :
    ∃ fuel out, optimizeFrom strategies fuel codes curr = some out := by
  by_cases hlt : curr < units codes
  · obtain ⟨bc, hat⟩ : ∃ bc, instrAt codes curr = some bc := by
      rcases hb with hsome | heq
      · exact hsome
      · omega
    obtain ⟨codes', curr', hr⟩ := round_exists strategies hat
    have hnext : Forward codes' ∧ Boundary codes' curr' := by
      rcases round_shrinks h hat hr with hturn | ⟨rfl, rfl⟩
      · exact ⟨hturn.forward, hturn.boundary⟩
      · exact ⟨h, Boundary.next h.sized hat⟩
    have hless : Smaller codes' codes ∨
        (codes' = codes ∧ units codes - curr' < units codes - curr) := by
      rcases round_shrinks h hat hr with hturn | ⟨rfl, rfl⟩
      · exact .inl hturn.smaller
      · right
        have := h.sized bc (instrAt_mem hat)
        exact ⟨rfl, by omega⟩
    obtain ⟨fuel, out, hout⟩ :=
      exists_optimizeFrom strategies codes' curr' hnext.1 hnext.2
    refine ⟨fuel + 1, out, ?_⟩
    simp only [optimizeFrom, if_pos hlt, hr]
    exact hout
  · exact ⟨1, codes, by simp [optimizeFrom, hlt]⟩
termination_by (units codes, slack codes, units codes - curr)
decreasing_by
  rcases hless with (hunits | ⟨hunits, hslack⟩) | ⟨rfl, hcurr⟩
  · exact Prod.Lex.left _ _ hunits
  · rw [hunits]
    exact Prod.Lex.right _ (Prod.Lex.left _ _ hslack)
  · exact Prod.Lex.right _ (Prod.Lex.right _ hcurr)

/-- The scan of a forward chunk returns, from any instruction of it, with any strategies in any
    order. -/
theorem optimizeFrom_ends (strategies : List Strategy) (start : Nat) (h : Forward codes)
    (hstart : Boundary codes start) :
    ∃ turns out, ∀ fuel, turns ≤ fuel →
      optimizeFrom strategies fuel codes start = some out := by
  obtain ⟨turns, out, hout⟩ := exists_optimizeFrom strategies codes start h hstart
  refine ⟨turns, out, fun fuel hle => ?_⟩
  obtain ⟨k, rfl⟩ := Nat.exists_eq_add_of_le hle
  exact optimizeFrom_mono hout k

/-- Two JUMPs in a row and the RETN they lead to. -/
def jumpChain : Chunk :=
  [{ opcode := .jump, fastop0 := 1 }, { opcode := .jump, fastop0 := 2 }, { opcode := .retn }]

theorem jumpChain_forward : Forward jumpChain := by
  have hsized : Sized jumpChain := by
    unfold Sized
    decide
  have hat : ∀ {p bc}, instrAt jumpChain p = some bc →
      bc.opsize = 1 ∧ (bc.opcode = .jump → p < bc.target ∧ (instrAt jumpChain bc.target).isSome) := by
    intro p bc h
    have hlt : p < 3 := instrAt_lt hsized h
    rcases (by omega : p = 0 ∨ p = 1 ∨ p = 2) with rfl | rfl | rfl <;> cases h <;> decide
  exact ⟨hsized, fun h _ => (hat h).1, fun h _ => (hat h).1, fun h hop => ((hat h).2 hop).1,
    fun h hop => Option.isSome_iff_exists.mp ((hat h).2 hop).2⟩

theorem optimizeFrom_ends_jumpChain : ∃ turns out, ∀ fuel, turns ≤ fuel →
    optimizeFrom [.jumpToRetn, .jumpToNext, .joinCleanup, .jumpToJump] fuel jumpChain 0 = some out :=
  optimizeFrom_ends _ 0 jumpChain_forward (.of_instrAt rfl)

end Camel.FastVM
