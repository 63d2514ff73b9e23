import Camel.FastVM.Round

/-! # The Whole Scan

    The scan of a chunk of the compiler's shape always comes to an end, and the
    chunk it leaves runs like the one it was given as long as every turn on the
    way was careful.
-/

namespace Camel.FastVM

open Lib List

variable {codes : Chunk}

/-! ## One Turn -/

/-- The first strategy with something to do is the one that acts. -/
theorem findSome?_eq_some_of_find? {α β : Type} {f : α → Option β} {xs : List α} {b : β}
    (h : xs.findSome? f = some b) :
    ∃ a, xs.find? (fun x => (f x).isSome) = some a ∧ f a = some b := by
  induction xs with
  | nil => simp at h
  | cons x xs ih =>
    simp only [findSome?_cons] at h
    cases hx : f x with
    | some b' =>
      simp only [hx] at h
      exact ⟨x, by simp [hx], by rw [hx]; exact h⟩
    | none =>
      simp only [hx] at h
      obtain ⟨a, ha, hfa⟩ := ih h
      exact ⟨a, by simp [hx, ha], hfa⟩

variable {curr curr' : Nat} {bc : Bytecode} {codes' : Chunk}

/-- What a strategy does when it does something. -/
theorem Strategy.apply_turn (depth : Nat) {s : Strategy}
    (h : Shape codes) (hat : instrAt codes curr = some bc)
    (hs : s.apply codes curr bc = some (codes', curr')) :
    Turn depth codes codes' curr' (s.careful depth codes curr bc = true) := by
  have hoff : isBrchDispatchJump codes curr = false → bc.opcode = .jump → OffTable codes curr :=
    fun hnd hj _ _ hb hbop => not_dispatch h.sized hat hj hnd hb hbop
  have halways : Turn depth codes codes' curr' True →
      Turn depth codes codes' curr' (s.careful depth codes curr bc = true) :=
    fun hturn => ⟨hturn.shape, hturn.smaller, hturn.boundary, fun _ => hturn.alike trivial⟩
  cases Strategy.rewrites hs with
  | middle hop hf hgoes => exact Turn.middle h hat hop hf hgoes
  | fold hop hf _ => exact halways (Turn.fold h hat hop hf)
  | next hop hnd ht => exact halways (Turn.jumpToNext h hat hop (hoff hnd hop) ht)
  | retn hop hnd ht htop => exact halways (Turn.jumpToRetn h hat hop (hoff hnd hop) ht htop)
  | victim hop hj => exact Turn.joinVictim h hat hj
  | dead hop hj hdead => exact Turn.join h hat hop hj hdead.1 hdead.2

variable {strategies : List Strategy}

/-- A turn of the scan rewrites the chunk or goes on behind the instruction. -/
theorem round_cases (depth : Nat)
    (h : Shape codes) (hat : instrAt codes curr = some bc)
    (hr : round strategies codes curr = some (codes', curr')) :
    Turn depth codes codes' curr' (careful strategies depth codes curr = true) ∨
      (codes' = codes ∧ curr' = curr + bc.opsize) := by
  simp only [round, hat] at hr
  cases hf : strategies.findSome? fun s => s.apply codes curr bc with
  | some hit =>
    simp only [hf] at hr
    cases hr
    left
    obtain ⟨s, hfind, happly⟩ := findSome?_eq_some_of_find? hf
    have hturn := Strategy.apply_turn depth h hat happly
    refine ⟨hturn.shape, hturn.smaller, hturn.boundary, fun hcare => hturn.alike ?_⟩
    simpa only [careful, hat, hfind] using hcare
  | none =>
    simp only [hf] at hr
    cases hr
    exact .inr ⟨rfl, rfl⟩

/-- The scan stays in chunks of the shape and at their instructions. -/
theorem round_shape
    (h : Shape codes) (hr : round strategies codes curr = some (codes', curr')) :
    Shape codes' ∧ Boundary codes' curr' := by
  cases hat : instrAt codes curr with
  | none => simp [round, hat] at hr
  | some bc =>
    rcases round_cases 1 h hat hr with hturn | ⟨rfl, rfl⟩
    · exact ⟨hturn.shape, hturn.boundary⟩
    · exact ⟨h, Boundary.next h.sized hat⟩

variable {depth : Nat}

theorem round_runsAlike
    (h : Shape codes) (hcare : careful strategies depth codes curr = true)
    (hr : round strategies codes curr = some (codes', curr')) : RunsAlike depth codes codes' := by
  cases hat : instrAt codes curr with
  | none => simp [round, hat] at hr
  | some bc =>
    rcases round_cases depth h hat hr with hturn | ⟨rfl, rfl⟩
    · exact hturn.alike hcare
    · exact RunsAlike.refl depth _

/-! ## The States of a Scan -/

/-- The chunk and the position after `n` turns of the scan. -/
def scanned (strategies : List Strategy) (codes : Chunk) : Nat → Option (Chunk × Nat)
  | 0 => some (codes, 0)
  | n + 1 => (scanned strategies codes n).bind fun s => round strategies s.1 s.2

/-- Every turn of the scan is careful. -/
def CarefulScan (strategies : List Strategy) (depth : Nat) (codes : Chunk) : Prop :=
  ∀ n c k, scanned strategies codes n = some (c, k) → careful strategies depth c k = true

theorem boundary_zero (codes : Chunk) : Boundary codes 0 := by
  cases codes with
  | nil => exact .inr rfl
  | cons b rest => exact .inl ⟨b, instrAt_zero_cons b rest⟩

variable {n k : Nat} {c : Chunk}

theorem scanned_shape (h : Shape codes)
    (hn : scanned strategies codes n = some (c, k)) : Shape c ∧ Boundary c k := by
  induction n generalizing c k with
  | zero =>
    simp only [scanned, Option.some.injEq, Prod.mk.injEq] at hn
    obtain ⟨rfl, rfl⟩ := hn
    exact ⟨h, boundary_zero _⟩
  | succ n ih =>
    obtain ⟨⟨c', k'⟩, hc', hr⟩ := Option.bind_eq_some_iff.mp hn
    exact round_shape (ih hc').1 hr

/-- What holds of a scan holds turn by turn. -/
theorem scanned_runsAlike (h : Shape codes)
    (hcare : CarefulScan strategies depth codes)
    (hn : scanned strategies codes n = some (c, k)) : RunsAlike depth codes c := by
  induction n generalizing c k with
  | zero =>
    simp only [scanned, Option.some.injEq, Prod.mk.injEq] at hn
    rw [← hn.1]
    exact RunsAlike.refl depth codes
  | succ n ih =>
    obtain ⟨⟨c', k'⟩, hc', hr⟩ := Option.bind_eq_some_iff.mp hn
    exact (ih hc').trans (round_runsAlike (scanned_shape h hc').1 (hcare n c' k' hc') hr)

/-- The chunk the scan returns is the one of its last state. -/
theorem scanned_of_optimizeFrom {fuel : Nat} {out : Chunk}
    (hn : scanned strategies codes n = some (c, k))
    (ho : optimizeFrom strategies fuel c k = some out) :
    ∃ m j, scanned strategies codes m = some (out, j) := by
  induction fuel generalizing n c k with
  | zero => simp [optimizeFrom] at ho
  | succ fuel ih =>
    simp only [optimizeFrom] at ho
    split at ho
    next =>
      cases hr : round strategies c k with
      | none => simp [hr] at ho
      | some r =>
        simp only [hr] at ho
        have hnext : scanned strategies codes (n + 1) = some (r.1, r.2) := by
          simp [scanned, hn, hr]
        exact ih hnext ho
    next =>
      cases ho
      exact ⟨n, k, hn⟩

/-! ## Chunks without JUMP Chains -/

/-- No JUMP goes to a JUMP: no arm of the source is without an instruction. -/
def Direct (codes : Chunk) : Prop :=
  ∀ ⦃p b t⦄, instrAt codes p = some b → b.opcode = .jump →
    instrAt codes b.target = some t → t.opcode ≠ .jump

variable {d : Nat} {x : Bytecode}

theorem Direct.not_target (h : Direct codes)
    (hx : instrAt codes d = some x) (hop : x.opcode = .jump) {p : Nat} {b : Bytecode}
    (hb : instrAt codes p = some b) (hbop : b.opcode = .jump) : b.target ≠ d := by
  rintro rfl
  exact h hb hbop hx hop

theorem Direct.dropAt (h : Direct codes) (hs : Shape codes)
    (hx : instrAt codes d = some x)
    (hd : ∀ {p b}, instrAt codes p = some b → b.opcode = .jump → b.target ≠ d) :
    Direct (dropAt codes d x.opsize) := by
  intro q b' t' hb' hop ht'
  obtain ⟨p, b, hb, -, -, rfl⟩ := exists_of_instrAt_dropAt hs.sized hx hb'
  rw [moved_opcode] at hop
  obtain ⟨t, ht⟩ := hs.jumpLands hb hop
  rw [moved_target (by simp [hasJumpTarget, hop]), instrAt_dropAt hs.sized hx
    (Boundary.outside hs.sized hx (.of_instrAt ht) (hd hb hop)), ht] at ht'
  cases ht'
  rw [moved_opcode]
  exact h hb hop ht

theorem Direct.dropJump (h : Direct codes) (hs : Shape codes)
    (hx : instrAt codes d = some x) (hop : x.opcode = .jump) : Direct (dropJump codes d) := by
  rw [dropJump_eq, ← hs.jumpUnit hx hop]
  exact h.dropAt hs hx fun hb hbop => h.not_target hx hop hb hbop

/-- There is no chain to fold. -/
theorem Direct.foldJump_eq_none (h : Direct codes)
    (hat : instrAt codes curr = some bc) (hop : bc.opcode = .jump) :
    foldJump codes curr bc = none := by
  simp only [foldJump]
  split
  · rfl
  · split
    · rfl
    next tbc ht => rw [if_neg fun hc => h hat hop ht hc.1]

theorem Direct.apply (h : Direct codes) (hs : Shape codes) {s : Strategy}
    (hat : instrAt codes curr = some bc)
    (happly : s.apply codes curr bc = some (codes', curr')) : Direct codes' := by
  cases Strategy.rewrites happly with
  | middle hop hf _ | fold hop hf _ => simp [h.foldJump_eq_none hat hop] at hf
  | next hop _ _ => exact h.dropJump hs hat hop
  | retn hop hnd ht htop =>
    have ho := hs.forward.overwrites_retn hat hop hnd ht htop
    intro p b t hb hbop htb
    rcases ho.inv hs.forward hb with ⟨-, rfl⟩ | ⟨-, hold⟩
    · simp [htop] at hbop
    · rcases ho.inv hs.forward htb with ⟨-, rfl⟩ | ⟨-, hold'⟩
      · simp [htop]
      · exact h hold hbop hold'
  | victim _ hj =>
    obtain ⟨x, hx, hxop, -⟩ := joinVictim_spec hs.sized hj
    exact h.dropJump hs hx hxop
  | dead _ _ hdead =>
    exact h.dropAt hs hat fun hb hbop => jumpTargets_eq_false hdead.1 hb hbop

/-- Outside the entry activation a turn on such a chunk is careful. -/
theorem Direct.careful (h : Direct codes) (hs : Shape codes) (hdepth : depth ≠ 0)
    (strategies : List Strategy) (curr : Nat) :
    careful strategies depth codes curr = true := by
  have htail : ∀ d, tailReturns depth codes d = false := fun d => by simp [tailReturns, hdepth]
  simp only [FastVM.careful]
  split
  · rfl
  next bc hat =>
    split
    next s hfind =>
      have happly := find?_some hfind
      cases s with
      | jumpToNext | jumpToRetn => rfl
      | jumpToJump =>
        by_cases hop : bc.opcode = .jump
        · simp [Strategy.careful, h.foldJump_eq_none hat hop]
        · simp [Strategy.apply, Strategy.triggerOp, hop] at happly
      | joinCleanup =>
        simp only [Strategy.careful]
        split
        next j hj =>
          obtain ⟨x, hx, hxop, -⟩ := joinVictim_spec hs.sized hj
          have hnt : jumpTargets codes j = false := by
            by_contra hyes
            obtain ⟨p, b, hb, hbop, heq⟩ := jumpTargets_eq_true hs.sized (by simpa using hyes)
            exact h.not_target hx hxop hb hbop heq
          simp [hnt, htail]
        next => simp [htail]
    · rfl

/-- A chunk without JUMP chains is scanned with care. -/
theorem Direct.carefulScan (h : Direct codes) (hs : Shape codes)
    (hdepth : depth ≠ 0) (strategies : List Strategy) : CarefulScan strategies depth codes := by
  have hdirect : ∀ n c k, scanned strategies codes n = some (c, k) → Direct c := by
    intro n
    induction n with
    | zero =>
      intro c k hn
      simp only [scanned, Option.some.injEq, Prod.mk.injEq] at hn
      rw [← hn.1]
      exact h
    | succ n ih =>
      intro c k hn
      obtain ⟨⟨c', k'⟩, hc', hr⟩ := Option.bind_eq_some_iff.mp hn
      have hshape := (scanned_shape hs hc').1
      have hc := ih c' k' hc'
      cases hat : instrAt c' k' with
      | none => simp [round, hat] at hr
      | some bc =>
        simp only [round, hat] at hr
        cases hf : strategies.findSome? fun s => s.apply c' k' bc with
        | none =>
          simp only [hf] at hr
          cases hr
          exact hc
        | some hit =>
          simp only [hf] at hr
          cases hr
          obtain ⟨s, -, happly⟩ := findSome?_eq_some_of_find? hf
          exact hc.apply hshape hat happly
  intro n c k hn
  exact (hdirect n c k hn).careful (scanned_shape hs hn).1 hdepth strategies k

/-! ## Checking a Chunk -/

/-- The checks of `Shape` at one instruction. -/
def shapeAt (codes : Chunk) (p : Nat) (bc : Bytecode) : Bool :=
  match bc.opcode with
  | .jump => bc.opsize == 1 && decide (p < bc.target) && (instrAt codes bc.target).isSome
  | .retn => bc.opsize == 1
  | .brch => (List.range bc.brchArmDispatchCount).all fun k =>
      opAt codes (p + bc.opsize + k) == some .jump
  | .ltst =>
    match instrAt codes bc.target with
    | some e => e.opcode == .lend && e.extra == bc.extra
    | none => false
  | .lend =>
    (instrAt codes bc.target).isSome && (List.range bc.target).any fun q =>
      match instrAt codes q with
      | some b => b.opcode == .lbeg && b.extra == bc.extra && bc.target == q + b.opsize
      | none => false
  | _ => true

def shapeOk (codes : Chunk) : Bool :=
  codes.all (fun bc => decide (0 < bc.opsize)) &&
    (List.range (units codes)).all fun p =>
      match instrAt codes p with
      | some bc => shapeAt codes p bc
      | none => true

theorem shape_of_shapeOk (h : shapeOk codes = true) : Shape codes := by
  simp only [shapeOk, Bool.and_eq_true, all_eq_true, decide_eq_true_eq, mem_range] at h
  obtain ⟨hs, hall⟩ := h
  have hat : ∀ {p bc}, instrAt codes p = some bc → shapeAt codes p bc = true := by
    intro p bc hp
    have := hall p (instrAt_lt hs hp)
    simpa [hp] using this
  refine ⟨hs, ?_, ?_, ?_, ?_, ?_, ?_, ?_⟩
  · intro p bc hp hop
    have := hat hp
    simp only [shapeAt, hop, Bool.and_eq_true, beq_iff_eq] at this
    exact this.1.1
  · intro p bc hp hop
    have := hat hp
    simpa only [shapeAt, hop, beq_iff_eq] using this
  · intro p bc hp hop
    have := hat hp
    simp only [shapeAt, hop, Bool.and_eq_true, decide_eq_true_eq] at this
    exact this.1.2
  · intro p bc hp hop
    have := hat hp
    simp only [shapeAt, hop, Bool.and_eq_true] at this
    exact Option.isSome_iff_exists.mp this.2
  · intro p bc hp hop k hk
    have := hat hp
    simp only [shapeAt, hop, all_eq_true, mem_range, beq_iff_eq] at this
    exact Option.map_eq_some_iff.mp (this k hk)
  · intro p bc hp hop
    have := hat hp
    simp only [shapeAt, hop] at this
    split at this
    next e he =>
      simp only [Bool.and_eq_true, beq_iff_eq] at this
      exact ⟨e, he, this.1, this.2⟩
    next => cases this
  · intro p bc hp hop
    have := hat hp
    simp only [shapeAt, hop, Bool.and_eq_true, any_eq_true, mem_range] at this
    obtain ⟨hlands, q, -, hq⟩ := this
    split at hq
    next b hb =>
      simp only [Bool.and_eq_true, beq_iff_eq] at hq
      exact ⟨q, b, hb, hq.1.1, hq.1.2, hq.2, Option.isSome_iff_exists.mp hlands⟩
    next => cases hq

def directOk (codes : Chunk) : Bool :=
  codes.all fun b => b.opcode != .jump || opAt codes b.target != some .jump

theorem direct_of_directOk (h : directOk codes = true) : Direct codes := by
  intro p b t hb hop ht htop
  simp only [directOk, all_eq_true] at h
  have := h b (instrAt_mem hb)
  simp [hop, opAt, ht, htop] at this

/-! ## The Result -/

/-- A branch with an arm that ends in a tail call and one that adds. -/
def tailArm : Chunk :=
  [{ opcode := .brch, opsize := 2, result := 2, fastop0 := 1, operands := [1] },
   { opcode := .jump, fastop0 := 4 },
   { opcode := .jump, fastop0 := 9 },
   { opcode := .tail, opsize := 4, result := 3, fastop0 := 1, fastop1 := 1, operands := [1, 1] },
   { opcode := .jump, fastop0 := 11 },
   { opcode := .arith .int64 .add, result := 4, fastop0 := 1, fastop1 := 1 },
   { opcode := .jump, fastop0 := 11 },
   { opcode := .join, opsize := 3, result := 5, fastop0 := 1, fastop1 := 2,
     operands := [2, 3, 4] },
   { opcode := .retn, fastop0 := 5 }]

/-- A match of three arms: the first ends in a tail call, the second hands on a
    value without an instruction of its own, the third adds. -/
def gateOnlyArm : Chunk :=
  [{ opcode := .brch, opsize := 2, result := 2, fastop0 := 1, fastop1 := 2,
     operands := [1, -1, -2] },
   { opcode := .jump, fastop0 := 5 },
   { opcode := .jump, fastop0 := 10 },
   { opcode := .jump, fastop0 := 11 },
   { opcode := .tail, opsize := 4, result := 3, fastop0 := 1, fastop1 := 1, operands := [1, 1] },
   { opcode := .jump, fastop0 := 13 },
   { opcode := .jump, fastop0 := 13 },
   { opcode := .arith .int64 .add, result := 4, fastop0 := 1, fastop1 := 1 },
   { opcode := .jump, fastop0 := 13 },
   { opcode := .join, opsize := 3, result := 5, fastop0 := 1, fastop1 := 3,
     operands := [2, 3, 1, 4] },
   { opcode := .retn, fastop0 := 5 }]

/-- The chunk after the scan: both exit JUMPs to the JOIN are gone, and the second
    entry of the table goes to the addition of the third arm. -/
def gateOnlyArmOptimized : Chunk :=
  [{ opcode := .brch, opsize := 2, result := 2, fastop0 := 1, fastop1 := 2,
     operands := [1, -1, -2] },
   { opcode := .jump, fastop0 := 5 },
   { opcode := .jump, fastop0 := 9 },
   { opcode := .jump, fastop0 := 9 },
   { opcode := .tail, opsize := 4, result := 3, fastop0 := 1, fastop1 := 1, operands := [1, 1] },
   { opcode := .arith .int64 .add, result := 4, fastop0 := 1, fastop1 := 1 },
   { opcode := .join, opsize := 3, result := 5, fastop0 := 1, fastop1 := 3,
     operands := [2, 3, 1, 4] },
   { opcode := .retn, fastop0 := 5 }]

/-- Integers for values; an addition is the only operation that is run. -/
def integerOps : Ops Int Unit where
  null := 0
  asBool v := v != 0
  asInt v := v
  ofInt v := v
  isVoid _ := false
  equals _ v w := v == w
  exec bc st := some (st.set bc.result (st.slots bc.fastop0 + st.slots bc.fastop1))
  loopBegin _ st := some st
  loopTest _ st := some (true, st)
  loopEnd _ st := some (false, st)

/-- The value of the match equals the second case. -/
def secondCase : State Int Unit where
  slots i := if i = 1 ∨ i = -2 then 20 else 0
  world := ()

end Camel.FastVM
