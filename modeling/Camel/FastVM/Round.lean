import Camel.FastVM.Rewrite

/-! # One Turn of the Optimizer

    Each strategy keeps the shape of the chunk and makes it smaller, so the scan
    comes to an end. Whether it keeps the behaviour is another matter: what a
    strategy drops must not be reached any more. `Strategy.careful` says when
    that is so, from the chunk before the turn alone.

    `JoinCleanup` takes a JUMP behind a TAIL or a RETN for unreachable without
    asking whether another JUMP goes to it, and all strategies take what stands
    behind a TAIL for unreachable, which it is not in the activation of the
    entry graph. Either is harmless when the instruction behind the dropped JUMP
    leads to the same place.
-/

namespace Camel.FastVM

variable {codes : Chunk}

/-! ## The Condition -/

/-- The instruction behind the one at `d` is at `t` or a JUMP to it. -/
def leadsOn (codes : Chunk) (d t : Nat) : Bool :=
  d + 1 == t ||
    match instrAt codes (d + 1) with
    | some b => b.opcode == .jump && b.target == t
    | none => false

/-- A TAIL stands in front of `d` and comes back. -/
def tailReturns (depth : Nat) (codes : Chunk) (d : Nat) : Bool :=
  depth == 0 && opAt codes (findPrev codes d) == some .tail

/-- What the strategy drops at this instruction is not reached, or it is a JUMP
    and the instruction behind it leads to the same place. -/
def Strategy.careful (depth : Nat) (codes : Chunk) (curr : Nat) (bc : Bytecode) :
    Strategy → Bool
  | .jumpToJump =>
    match foldJump codes curr bc with
    | some folded =>
      !middleGoes folded bc.target || !tailReturns depth folded bc.target ||
        match instrAt folded bc.target with
        | some tbc => leadsOn folded bc.target tbc.target
        | none => true
    | none => true
  | .jumpToNext => true
  | .jumpToRetn => true
  | .joinCleanup =>
    match joinVictim codes curr with
    | some j => (!jumpTargets codes j && !tailReturns depth codes j) || leadsOn codes j curr
    | none => !tailReturns depth codes curr || prevFallsThrough codes curr ||
        jumpTargets codes curr

/-- The strategy whose turn it is at `curr` is careful. -/
def careful (strategies : List Strategy) (depth : Nat) (codes : Chunk) (curr : Nat) : Bool :=
  match instrAt codes curr with
  | none => true
  | some bc =>
    match strategies.find? fun s => (s.apply codes curr bc).isSome with
    | some s => s.careful depth codes curr bc
    | none => true

/-! ## What Nothing Reaches -/

variable {d : Nat} {x : Bytecode}

theorem leadsOn_passes (h : Shape codes) (hx : instrAt codes d = some x)
    (hj : x.opcode = .jump) (hl : leadsOn codes d x.target = true) : Passes codes d x := by
  obtain ⟨a, ha⟩ := h.exists_lands d
  refine ⟨hj, a, ha, ?_⟩
  have hrest := ha.of_jump hx hj
  rw [h.jumpUnit hx hj]
  simp only [leadsOn, Bool.or_eq_true, beq_iff_eq] at hl
  rcases hl with heq | hjump
  · rw [heq]
    exact hrest
  · cases hb : instrAt codes (d + 1) with
    | none => simp [hb] at hjump
    | some b =>
      simp only [hb, Bool.and_eq_true, beq_iff_eq] at hjump
      refine .jump hb hjump.1 ?_
      rw [hjump.2]
      exact hrest

theorem not_first_of_not_fallsThrough (h : prevFallsThrough codes d = false) :
    d ≠ 0 := by
  rintro rfl
  have : findPrev codes 0 = 0 := by
    cases codes <;> simp [findPrev, findPrevFrom]
  simp [prevFallsThrough, this] at h

/-- No loop event goes to an instruction that is no LEND and stands behind one
    that leaves: a round starts behind its LBEG. -/
theorem Shape.noTarget (h : Shape codes)
    (hx : instrAt codes d = some x) (hop : x.opcode ≠ .lend) (hjt : jumpTargets codes d = false)
    (hprev : prevFallsThrough codes d = false) {p : Nat} {b : Bytecode}
    (hb : instrAt codes p = some b) (ht : hasJumpTarget b.opcode = true) : b.target ≠ d := by
  intro heq
  simp only [hasJumpTarget, Bool.or_eq_true, beq_iff_eq] at ht
  rcases ht with (hbop | hbop) | hbop
  · exact jumpTargets_eq_false hjt hb hbop heq
  · obtain ⟨e, he, heop, -⟩ := h.loopTest hb hbop
    rw [heq, hx] at he
    cases he
    exact hop heop
  · obtain ⟨q, l, hl, hlop, -, htarget, -⟩ := h.loopBack hb hbop
    have := prev_of_not_fallsThrough h.sized hprev hl (htarget.symm.trans heq)
    simp [hlop] at this

variable {depth : Nat}

theorem Shape.unreached (h : Shape codes)
    (hx : instrAt codes d = some x) (hop : x.opcode ≠ .lend) (hjt : jumpTargets codes d = false)
    (hprev : prevFallsThrough codes d = false) (htail : tailReturns depth codes d = false) :
    Unreached depth codes d := by
  refine ⟨not_first_of_not_fallsThrough hprev, fun hb ht => h.noTarget hx hop hjt hprev hb ht, ?_⟩
  rintro p b hb hend ⟨hretn, hjump, -, hdepth⟩
  rcases prev_of_not_fallsThrough h.sized hprev hb hend with hbop | hbop | hbop
  · have hprev : findPrev codes d = p := by rw [← hend]; exact findPrev_of_end h.sized hb
    simp [tailReturns, hdepth hbop, hprev, opAt, hb, hbop] at htail
  · exact hretn hbop
  · exact hjump hbop

/-- A JUMP behind a TAIL or a RETN is in no dispatch table. -/
theorem Shape.offTable_of_prev (h : Shape codes)
    (hprev : opAt codes (findPrev codes d) = some .tail ∨
      opAt codes (findPrev codes d) = some .retn) : OffTable codes d := by
  rintro p b hb hop ⟨hlo, hhi⟩
  obtain ⟨k, rfl⟩ := Nat.exists_eq_add_of_le hlo
  have hfront : opAt codes (findPrev codes (p + b.opsize + k)) = some .brch ∨
      opAt codes (findPrev codes (p + b.opsize + k)) = some .jump := by
    cases k with
    | zero =>
      left
      rw [add_zero, findPrev_of_end h.sized hb]
      simp [opAt, hb, hop]
    | succ k =>
      right
      obtain ⟨j, hj, hjop⟩ := h.dispatch hb hop k (by omega)
      have hunit := h.jumpUnit hj hjop
      rw [← add_assoc, ← hunit, findPrev_of_end h.sized hj]
      simp [opAt, hj, hjop]
  rcases hfront with hf | hf <;> rw [hf] at hprev <;> simp at hprev

/-- Dispatch tables hold JUMPs only. -/
theorem Shape.offTable_of_not_jump (h : Shape codes)
    (hx : instrAt codes d = some x) (hop : x.opcode ≠ .jump) : OffTable codes d := by
  rintro p b hb hbop ⟨hlo, hhi⟩
  obtain ⟨k, rfl⟩ := Nat.exists_eq_add_of_le hlo
  obtain ⟨j, hj, hjop⟩ := h.dispatch hb hbop k (by omega)
  rw [hx] at hj
  cases hj
  exact hop hjop

theorem prevFallsThrough_of_leaves
    (hne : findPrev codes d ≠ d)
    (hprev : opAt codes (findPrev codes d) = some .tail ∨
      opAt codes (findPrev codes d) = some .retn) : prevFallsThrough codes d = false := by
  simp only [prevFallsThrough, Bool.or_eq_false_iff, beq_eq_false_iff_ne]
  refine ⟨hne, ?_⟩
  rcases hprev with hp | hp <;> simp [hp]

/-! ## What a Strategy Keeps -/

/-- A turn leads to a smaller chunk of the same shape, at an instruction of it,
    and one that runs alike when the turn was careful. -/
structure Turn (depth : Nat) (codes codes' : Chunk) (curr' : Nat) (care : Prop) : Prop where
  shape : Shape codes'
  smaller : Smaller codes' codes
  boundary : Boundary codes' curr'
  alike : care → RunsAlike depth codes codes'

variable {curr : Nat} {bc : Bytecode}

theorem Turn.jumpToNext (h : Shape codes)
    (hat : instrAt codes curr = some bc) (hop : bc.opcode = .jump)
    (hoff : OffTable codes curr) (ht : bc.target = curr + 1) :
    Turn depth codes (dropJump codes curr) curr True := by
  have hunit := h.jumpUnit hat hop
  obtain ⟨t, htat⟩ := h.jumpLands hat hop
  have hpass : Passes codes curr bc :=
    leadsOn_passes h hat hop (by simp [leadsOn, ht])
  have hless := Shrinks.jumpToNext h.forward hat hop
  rw [dropJump_eq, ← hunit] at hless ⊢
  refine ⟨h.dropAt hat hoff (by simp [hop]) (by simp [hop]) (.inr ⟨t, ?_⟩), hless.smaller,
    hless.boundary, fun _ => h.runsAlike_dropAt hat hoff (.inr hpass)⟩
  rw [hunit, ← ht]
  exact htat

theorem Turn.jumpToRetn {tbc : Bytecode} (h : Shape codes)
    (hat : instrAt codes curr = some bc) (hop : bc.opcode = .jump) (hoff : OffTable codes curr)
    (htat : instrAt codes bc.target = some tbc) (htop : tbc.opcode = .retn) :
    Turn depth codes (overwrite codes curr tbc) (curr + 1) True := by
  have ho : Overwrites codes curr bc tbc :=
    ⟨hat, hop, hoff, h.retnUnit htat htop, .inl htop⟩
  have hless := Shrinks.jumpToRetn h.forward ho htop
  exact ⟨h.overwrite ho, hless.smaller, hless.boundary, fun _ => h.runsAlike_retn ho htat htop⟩

/-- Dropping a JUMP that is in no table and goes to something behind it. -/
theorem Turn.dropJump {p : Nat} {care : Prop} (h : Shape codes)
    (hx : instrAt codes d = some x) (hop : x.opcode = .jump) (hoff : OffTable codes d)
    (hp : Boundary codes p) (hne : p ≠ d)
    (hcare : care → Unreached depth codes d ∨ Passes codes d x) :
    Turn depth codes (dropJump codes d) (shift d 1 p) care := by
  have hunit := h.jumpUnit hx hop
  have hless := Shrinks.dropJump h.forward hx hop hp hne
  rw [dropJump_eq, ← hunit] at hless ⊢
  exact ⟨h.dropAt hx hoff (by simp [hop]) (by simp [hop]) (.inr (h.forward.behind_jump hx hop)),
    hless.smaller, hless.boundary, fun hc => h.runsAlike_dropAt hx hoff (hcare hc)⟩

theorem Turn.joinVictim {j : Nat} (h : Shape codes)
    (hat : instrAt codes curr = some bc)
    (hj : joinVictim codes curr = some j) :
    Turn depth codes (FastVM.dropJump codes j) (curr - 1)
      (Strategy.careful depth codes curr bc .joinCleanup = true) := by
  obtain ⟨x, hx, hxop, hxt, hprev⟩ := joinVictim_spec h.sized hj
  have hfwd := h.jumpForward hx hxop
  have hoff := h.offTable_of_prev hprev
  have hne : findPrev codes j ≠ j := by
    intro heq
    rw [heq, opAt, hx, Option.map_some, hxop] at hprev
    simp at hprev
  have hshift : curr - 1 = shift j 1 curr := (shift_of_lt (by omega)).symm
  rw [hshift]
  apply Turn.dropJump h hx hxop hoff (.of_instrAt hat) (by omega)
  intro hcare
  simp only [Strategy.careful, hj, Bool.or_eq_true, Bool.and_eq_true, Bool.not_eq_true'] at hcare
  rcases hcare with ⟨hjt, htail⟩ | hlead
  · exact .inl (h.unreached hx (by simp [hxop]) hjt (prevFallsThrough_of_leaves hne hprev) htail)
  · exact .inr (leadsOn_passes h hx hxop (by rw [hxt]; exact hlead))

theorem Turn.join (h : Shape codes)
    (hat : instrAt codes curr = some bc) (hop : bc.opcode = .join)
    (hj : FastVM.joinVictim codes curr = none) (hjt : jumpTargets codes curr = false)
    (hprev : prevFallsThrough codes curr = false) :
    Turn depth codes (redirect (removeop codes curr) curr (-bc.opsize)) curr
      (Strategy.careful depth codes curr bc .joinCleanup = true) := by
  have hoff := h.offTable_of_not_jump hat (by simp [hop])
  have hless := Shrinks.join h.forward hat hjt
  refine ⟨h.dropAt hat hoff (by simp [hop]) (by simp [hop])
      (.inl fun hb ht => h.noTarget hat (by simp [hop]) hjt hprev hb ht),
    hless.smaller, hless.boundary, fun hcare => ?_⟩
  simp only [Strategy.careful, hj, hprev, hjt, Bool.or_false, Bool.not_eq_true'] at hcare
  exact h.runsAlike_dropAt hat hoff (.inl (h.unreached hat (by simp [hop]) hjt hprev hcare))

theorem Turn.fold {depth curr : Nat} {bc : Bytecode} {folded : Chunk} (h : Shape codes)
    (hat : instrAt codes curr = some bc) (hop : bc.opcode = .jump)
    (hf : foldJump codes curr bc = some folded) : Turn depth codes folded curr True := by
  have hless := Shrinks.fold h.forward hat hop hf
  obtain ⟨tbc, htat, htop, rfl, ho⟩ := foldJump_spec h.forward hat hop hf
  exact ⟨h.overwrite ho, hless.smaller, hless.boundary,
    fun _ => h.runsAlike_fold ho htat htop hop rfl⟩

/-- The middle JUMP of a folded chain. -/
theorem Turn.middle {folded : Chunk} (h : Shape codes)
    (hat : instrAt codes curr = some bc) (hop : bc.opcode = .jump)
    (hf : foldJump codes curr bc = some folded) (hgoes : middleGoes folded bc.target = true) :
    Turn depth codes (FastVM.dropJump folded bc.target)
      (if bc.target < curr then curr - 1 else curr)
      (Strategy.careful depth codes curr bc .jumpToJump = true) := by
  have hfold : Turn depth codes folded curr True := Turn.fold h hat hop hf
  obtain ⟨tbc, htat, htop, hfolded, ho⟩ := foldJump_spec h.forward hat hop hf
  have hfwd := h.jumpForward hat hop
  have hmid : instrAt folded bc.target = some tbc := by
    rw [hfolded, ho.instrAt h.forward, if_neg (by omega)]
    exact htat
  simp only [middleGoes, Bool.and_eq_true, Bool.not_eq_true', Bool.and_eq_false_iff,
    bne_eq_false_iff_eq] at hgoes
  obtain ⟨⟨hnd, hjt⟩, hprev⟩ := hgoes
  -- The JUMP at `curr` stands in front of the middle one, so that one is not the first.
  have hprev : prevFallsThrough folded bc.target = false := by
    rcases hprev with heq | hprev
    · obtain ⟨p, b, hb, hend⟩ := exists_prev hfold.shape.sized (.of_instrAt hmid) (by omega)
      have hp : findPrev folded bc.target = p := by
        rw [← hend]
        exact findPrev_of_end hfold.shape.sized hb
      have := hfold.shape.sized b (instrAt_mem hb)
      omega
    · exact hprev
  have hoff : OffTable folded bc.target := fun _ _ hb hbop =>
    not_dispatch hfold.shape.sized hmid htop hnd hb hbop
  have hcare : Strategy.careful depth codes curr bc .jumpToJump = true →
      Unreached depth folded bc.target ∨ Passes folded bc.target tbc := by
    intro hcare
    simp only [Strategy.careful, hf, hmid, middleGoes, hnd, hjt, hprev, Bool.not_false,
      Bool.and_false, Bool.and_true, Bool.not_true, Bool.false_or, Bool.or_eq_true,
      Bool.not_eq_true'] at hcare
    rcases hcare with htail | hlead
    · exact .inl (hfold.shape.unreached hmid (by simp [htop]) hjt hprev htail)
    · exact .inr (leadsOn_passes hfold.shape hmid htop hlead)
  have hdrop := Turn.dropJump hfold.shape hmid htop hoff hfold.boundary (by omega) hcare
  rw [shift_of_le (by omega)] at hdrop
  rw [if_neg (by omega)]
  exact ⟨hdrop.shape, hdrop.smaller.trans hfold.smaller, hdrop.boundary,
    fun hc => (hfold.alike trivial).trans (hdrop.alike hc)⟩

end Camel.FastVM
