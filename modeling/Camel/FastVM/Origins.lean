import Camel.FastVM.Shrink
import Camel.Lib.Store

/-! # Origins of the Units

    Beside the chunk the optimizer keeps a table that maps each pc to the place of
    the source it comes from. Both are edited by code of their own: an instruction
    is taken out of each, and what stands behind it moves up in each. The table is
    shown to stay with the chunk, unit by unit, over the whole scan.
-/

namespace Camel.FastVM

open Lib Option List

/-! ## The Table -/

/-- `unordered_map<size_t, origin_id_t>`. -/
abbrev PcOrigins := AList fun _ : Nat => Nat

def shiftPcOrigins (pcOrigins : PcOrigins) (start : Nat) (step : Int) : PcOrigins :=
  if step = 0 then pcOrigins
  else rekey (fun pc => some (if start < pc then (pc + step).toNat else pc)) pcOrigins

def erasePcOrigins (pcOrigins : PcOrigins) (start len : Nat) : PcOrigins :=
  if len = 0 then pcOrigins
  else rekey (fun pc => if pc < start ∨ start + len ≤ pc then some pc else none) pcOrigins

/-- A chunk with its table. -/
structure Traced where
  codes : Chunk
  pcOrigins : PcOrigins

variable (t : Traced)

namespace Traced

def removeop (t : Traced) (index : Nat) (bc : Bytecode) : Traced :=
  ⟨FastVM.removeop t.codes index, erasePcOrigins t.pcOrigins index bc.opsize⟩

def redirect (t : Traced) (start : Nat) (step : Int) : Traced :=
  ⟨FastVM.redirect t.codes start step, shiftPcOrigins t.pcOrigins start step⟩

/-- The JUMP `bc` at `index` goes. -/
def dropJump (index : Nat) (bc : Bytecode) : Traced :=
  (t.removeop index bc).redirect index (-1)

end Traced

/-! ## The Strategies with the Table -/

namespace Traced

def applyJumpToJump (curr : Nat) (bc : Bytecode) : Option (Traced × Nat) :=
  let next := bc.target
  match foldJump t.codes curr bc with
  | none => none
  | some folded =>
    if middleGoes folded next then
      match instrAt folded next with
      | none => none
      | some tbc =>
        some (dropJump ⟨folded, t.pcOrigins⟩ next tbc, if next < curr then curr - 1 else curr)
    else some (⟨folded, t.pcOrigins⟩, curr)

def applyJumpToNext (curr : Nat) (bc : Bytecode) : Option (Traced × Nat) :=
  if isBrchDispatchJump t.codes curr then none
  else if bc.target = curr + 1 then some (t.dropJump curr bc, curr)
  else none

/-- The RETN stands where the JUMP stood, under the JUMP's origin. -/
def applyJumpToRetn (curr : Nat) (bc : Bytecode) : Option (Traced × Nat) :=
  if isBrchDispatchJump t.codes curr then none
  else
    match instrAt t.codes bc.target with
    | none => none
    | some tbc =>
      if tbc.opcode = .retn then some (⟨overwrite t.codes curr tbc, t.pcOrigins⟩, curr + 1)
      else none

def applyJoinCleanup (curr : Nat) (bc : Bytecode) : Option (Traced × Nat) :=
  match joinVictim t.codes curr with
  | some j =>
    match instrAt t.codes j with
    | none => none
    | some nbc => some (t.dropJump j nbc, curr - 1)
  | none =>
    if jumpTargets t.codes curr = false ∧ prevFallsThrough t.codes curr = false then
      some ((t.removeop curr bc).redirect curr (-bc.opsize), curr)
    else none

def apply (s : Strategy) (t : Traced) (curr : Nat) (bc : Bytecode) : Option (Traced × Nat) :=
  if bc.opcode = s.triggerOp then
    match s with
    | .jumpToJump => t.applyJumpToJump curr bc
    | .jumpToNext => t.applyJumpToNext curr bc
    | .jumpToRetn => t.applyJumpToRetn curr bc
    | .joinCleanup => t.applyJoinCleanup curr bc
  else none

def round (strategies : List Strategy) (t : Traced) (curr : Nat) : Option (Traced × Nat) :=
  match instrAt t.codes curr with
  | none => none
  | some bc =>
    match strategies.findSome? fun s => t.apply s curr bc with
    | some hit => some hit
    | none => some (t, curr + bc.opsize)

/-- `BytecodeOptimizer::optimize` with a table, for `fuel` turns at most. -/
def optimizeFrom (strategies : List Strategy) : Nat → Traced → Nat → Option Traced
  | 0, _, _ => none
  | fuel + 1, t, curr =>
    if curr < units t.codes then
      match t.round strategies curr with
      | none => none
      | some (t', curr') => optimizeFrom strategies fuel t' curr'
    else some t

end Traced

/-! ## Where an Instruction Goes -/

/-- Where the instruction at `p` stands after the strategy acted at `curr`; the instruction that
    is dropped stands nowhere, and one that is written over keeps its place. -/
def Strategy.place (codes : Chunk) (curr : Nat) (bc : Bytecode) (p : Nat) : Strategy → Option Nat
  | .jumpToJump =>
    match foldJump codes curr bc with
    | none => some p
    | some folded =>
      if middleGoes folded bc.target then
        if p = bc.target then none else some (shift bc.target 1 p)
      else some p
  | .jumpToNext => if p = curr then none else some (shift curr 1 p)
  | .jumpToRetn => some p
  | .joinCleanup =>
    match joinVictim codes curr with
    | some j => if p = j then none else some (shift j 1 p)
    | none => if p = curr then none else some (shift curr bc.opsize p)

/-- After one turn of the scan. -/
def roundPlace (strategies : List Strategy) (codes : Chunk) (curr p : Nat) : Option Nat :=
  match instrAt codes curr with
  | none => some p
  | some bc =>
    match strategies.find? fun s => (s.apply codes curr bc).isSome with
    | some s => s.place codes curr bc p
    | none => some p

/-- After the scan. -/
def placeFrom (strategies : List Strategy) : Nat → Chunk → Nat → Nat → Option Nat
  | 0, _, _, p => some p
  | fuel + 1, codes, curr, p =>
    if curr < units codes then
      match round strategies codes curr with
      | none => some p
      | some (codes', curr') =>
        (roundPlace strategies codes curr p).bind (placeFrom strategies fuel codes' curr')
    else some p

/-- Every instruction of the new chunk stood in the old one, and each unit of it has the origin it
    had there. -/
structure Follows (t t' : Traced) (place : Nat → Option Nat) : Prop where
  kept : ∀ {p b q}, instrAt t.codes p = some b → place p = some q →
    ∃ b', instrAt t'.codes q = some b' ∧ b'.opsize = b.opsize ∧
      (b'.opcode = b.opcode ∨ (b.opcode = .jump ∧ b'.opcode = .retn)) ∧
      ∀ k < b.opsize, t'.pcOrigins.lookup (q + k) = t.pcOrigins.lookup (p + k)
  came : ∀ {q b'}, instrAt t'.codes q = some b' →
    ∃ p b, instrAt t.codes p = some b ∧ place p = some q

theorem Follows.refl : Follows t t some where
  kept hp hq := by
    cases hq
    exact ⟨_, hp, rfl, .inl rfl, fun _ _ => rfl⟩
  came hq := ⟨_, _, hq, rfl⟩

variable {t : Traced}

theorem Follows.trans {u v : Traced} {f g : Nat → Option Nat} (hf : Follows t u f)
    (hg : Follows u v g) : Follows t v (fun p => (f p).bind g) where
  kept {p b q} hp hq := by
    obtain ⟨m, hm, hq⟩ := bind_eq_some_iff.mp hq
    obtain ⟨c, hc, hsize, hop, horigin⟩ := hf.kept hp hm
    obtain ⟨b', hb', hsize', hop', horigin'⟩ := hg.kept hc hq
    refine ⟨b', hb', hsize'.trans hsize, ?_, fun k hk => ?_⟩
    · rcases hop with hop | ⟨hj, hr⟩
      · rw [← hop]
        exact hop'
      · right
        refine ⟨hj, ?_⟩
        rcases hop' with hop' | ⟨hj', -⟩
        · rw [hop', hr]
        · rw [hr] at hj'
          cases hj'
    · exact (horigin' k (by omega)).trans (horigin k hk)
  came {q b'} hq := by
    obtain ⟨m, c, hm, hq⟩ := hg.came hq
    obtain ⟨p, b, hp, hm'⟩ := hf.came hm
    exact ⟨p, b, hp, by rw [hm']; exact hq⟩

/-! ## One Edit -/

variable {d : Nat}

/-- What stands before or behind the units that go keeps its origin. -/
theorem lookup_drop {o : PcOrigins} {size p : Nat} (hsize : 0 < size)
    (hp : p < d ∨ d + size ≤ p) :
    (shiftPcOrigins (erasePcOrigins o d size) d (-size)).lookup (shift d size p) = o.lookup p := by
  unfold shiftPcOrigins erasePcOrigins
  rw [if_neg (by omega), if_neg (by omega)]
  have hshift : (if d < p then ((p : Int) + -size).toNat else p) = shift d size p := by
    unfold shift
    split <;> omega
  rw [lookup_rekey (k := p) (by rw [hshift])]
  · apply lookup_rekey
    · rw [if_pos hp]
    · intro k' _ hk'
      split at hk'
      · exact some.inj hk'
      · cases hk'
  · intro k' hk' heq
    obtain ⟨k, -, hk⟩ := mem_rekey hk'
    -- no key is left inside
    have hout : k' < d ∨ d + size ≤ k' := by
      split at hk
      · next h =>
        cases hk
        exact h
      · cases hk
    have heq := some.inj heq
    unfold shift at heq
    split at heq <;> split at heq <;> omega

theorem follows_drop {x : Bytecode} (hs : Sized t.codes)
    (hx : instrAt t.codes d = some x) :
    Follows t ((t.removeop d x).redirect d (-x.opsize))
      (fun p => if p = d then none else some (shift d x.opsize p)) where
  kept {p b q} hp hq := by
    split at hq
    · cases hq
    · next hne =>
      cases hq
      have hxs := hs x (instrAt_mem hx)
      have hout := Boundary.outside hs hx (.of_instrAt hp) hne
      refine ⟨b.moved d (-x.opsize), ?_, moved_opsize _ _ _, .inl (moved_opcode _ _ _), ?_⟩
      · show instrAt (dropAt t.codes d x.opsize) _ = _
        rw [instrAt_dropAt hs hx hout, hp]
        rfl
      · intro k hk
        show (shiftPcOrigins (erasePcOrigins t.pcOrigins d x.opsize) d (-x.opsize)).lookup _ = _
        -- the whole instruction lies on one side
        have hside : p + b.opsize ≤ d ∨ d + x.opsize ≤ p := by
          rcases hout with hlt | hge
          · exact .inl (Boundary.end_le hs hp (.of_instrAt hx) hlt)
          · exact .inr hge
        have hshift : shift d x.opsize (p + k) = shift d x.opsize p + k := by
          unfold shift
          split <;> split <;> omega
        rw [← hshift]
        exact lookup_drop hxs (by omega)
  came {q b'} hq := by
    obtain ⟨p, b, hb, hout, rfl, -⟩ := exists_of_instrAt_dropAt hs hx hq
    have hxs := hs x (instrAt_mem hx)
    exact ⟨p, b, hb, if_neg (by omega)⟩

theorem follows_dropJump {x : Bytecode} (h : Forward t.codes)
    (hx : instrAt t.codes d = some x) (hop : x.opcode = .jump) :
    Follows t (t.dropJump d x) (fun p => if p = d then none else some (shift d 1 p)) := by
  have hunit := h.jumpUnit hx hop
  have := follows_drop h.sized hx
  rw [hunit] at this
  exact this

/-- Writing over a JUMP moves nothing. -/
theorem follows_overwrite {c : Nat} {old new : Bytecode} (h : Forward t.codes)
    (ho : Overwrites t.codes c old new) :
    Follows t ⟨overwrite t.codes c new, t.pcOrigins⟩ some where
  kept {p b q} hp hq := by
    cases hq
    by_cases hc : p = c
    · rw [hc, ho.stands] at hp
      cases hp
      refine ⟨new, ?_, ho.unit.trans (h.jumpUnit ho.stands ho.isJump).symm, ?_, fun _ _ => rfl⟩
      · rw [ho.instrAt h, if_pos hc]
      · rcases ho.newOp with hr | ⟨hj, -⟩
        · exact .inr ⟨ho.isJump, hr⟩
        · exact .inl (hj.trans ho.isJump.symm)
    · refine ⟨b, ?_, rfl, .inl rfl, fun _ _ => rfl⟩
      rw [ho.instrAt h, if_neg hc]
      exact hp
  came {q b'} hq := by
    rcases ho.inv h hq with ⟨rfl, -⟩ | ⟨-, hold⟩
    · exact ⟨q, old, ho.stands, rfl⟩
    · exact ⟨q, b', hold, rfl⟩

/-! ## One Turn -/

variable {curr curr' : Nat} {bc : Bytecode}

/-- With the table a strategy edits the chunk as it does without, and the table follows. -/
theorem Strategy.traced {s : Strategy}
    {codes' : Chunk} (h : Forward t.codes) (hat : instrAt t.codes curr = some bc)
    (hs : s.apply t.codes curr bc = some (codes', curr')) :
    ∃ o, t.apply s curr bc = some (⟨codes', o⟩, curr') ∧
      Follows t ⟨codes', o⟩ (fun p => s.place t.codes curr bc p) := by
  unfold Traced.apply
  cases Strategy.rewrites hs with
  | @middle folded hop hf hgoes =>
    obtain ⟨tbc, htat, htop, hfolded, ho⟩ := foldJump_spec h hat hop hf
    have hfollow := follows_overwrite h ho
    rw [← hfolded] at hfollow
    have hforward := (Shrinks.fold h hat hop hf).forward
    have hfwd := h.jumpForward hat hop
    have hmid : instrAt folded bc.target = some tbc := by
      rw [hfolded, ho.instrAt h, if_neg (by omega)]
      exact htat
    have hdrop := follows_dropJump (t := ⟨folded, t.pcOrigins⟩) hforward hmid htop
    refine ⟨(Traced.dropJump ⟨folded, t.pcOrigins⟩ bc.target tbc).pcOrigins, ?_, ?_⟩
    · rw [if_pos (show bc.opcode = Strategy.triggerOp .jumpToJump from hop)]
      simp only [Traced.applyJumpToJump, hf, hmid, if_pos hgoes]
      rfl
    · have hboth := hfollow.trans hdrop
      simp only [bind_some] at hboth
      simp only [Strategy.place, hf, if_pos hgoes]
      exact hboth
  | @fold folded hop hf hstays =>
    obtain ⟨tbc, htat, htop, hfolded, ho⟩ := foldJump_spec h hat hop hf
    have hfollow := follows_overwrite h ho
    rw [← hfolded] at hfollow
    refine ⟨t.pcOrigins, ?_, ?_⟩
    · rw [if_pos (show bc.opcode = Strategy.triggerOp .jumpToJump from hop)]
      simp only [Traced.applyJumpToJump, hf, if_neg hstays]
    · simp only [Strategy.place, hf, if_neg hstays]
      exact hfollow
  | next hop hnd ht =>
    refine ⟨(t.dropJump curr bc).pcOrigins, ?_, follows_dropJump h hat hop⟩
    rw [if_pos (show bc.opcode = Strategy.triggerOp .jumpToNext from hop)]
    simp only [Traced.applyJumpToNext, hnd, Bool.false_eq_true, if_false, if_pos ht]
    rfl
  | retn hop hnd ht htop =>
    refine ⟨t.pcOrigins, ?_, follows_overwrite h (h.overwrites_retn hat hop hnd ht htop)⟩
    rw [if_pos (show bc.opcode = Strategy.triggerOp .jumpToRetn from hop)]
    simp only [Traced.applyJumpToRetn, hnd, Bool.false_eq_true, if_false, ht, if_pos htop]
  | @victim j hop hj =>
    obtain ⟨x, hx, hxop, -⟩ := joinVictim_spec h.sized hj
    refine ⟨(t.dropJump j x).pcOrigins, ?_, ?_⟩
    · rw [if_pos (show bc.opcode = Strategy.triggerOp .joinCleanup from hop)]
      simp only [Traced.applyJoinCleanup, hj, hx]
      rfl
    · simp only [Strategy.place, hj]
      exact follows_dropJump h hx hxop
  | dead hop hj hdead =>
    refine ⟨((t.removeop curr bc).redirect curr (-bc.opsize)).pcOrigins, ?_, ?_⟩
    · rw [if_pos (show bc.opcode = Strategy.triggerOp .joinCleanup from hop)]
      simp only [Traced.applyJoinCleanup, hj, if_pos hdead]
      rfl
    · simp only [Strategy.place, hj]
      exact follows_drop h.sized hat

/-- With the table a strategy has something to do only where it has without. -/
theorem Traced.apply_codes {s : Strategy} {t' : Traced}
    (h : t.apply s curr bc = some (t', curr')) :
    s.apply t.codes curr bc = some (t'.codes, curr') := by
  unfold Traced.apply at h
  unfold Strategy.apply
  split at h
  next hop =>
    rw [if_pos hop]
    cases s with
    | jumpToJump =>
      simp only [applyJumpToJump] at h
      simp only [FastVM.applyJumpToJump]
      cases hf : foldJump t.codes curr bc with
      | none =>
        rw [hf] at h
        cases h
      | some folded =>
        rw [hf] at h
        dsimp only at h ⊢
        split at h
        next hgoes =>
          split at h
          next => cases h
          next tbc htbc =>
            cases h
            simp only [if_pos hgoes]
            rfl
        next hstays =>
          cases h
          simp only [if_neg hstays]
    | jumpToNext =>
      simp only [applyJumpToNext] at h
      simp only [FastVM.applyJumpToNext]
      split at h
      next => cases h
      next hnd =>
        split at h
        next ht =>
          cases h
          rw [if_neg hnd, if_pos ht]
          rfl
        next => cases h
    | jumpToRetn =>
      simp only [applyJumpToRetn] at h
      simp only [FastVM.applyJumpToRetn]
      split at h
      next => cases h
      next hnd =>
        rw [if_neg hnd]
        split at h
        next => cases h
        next tbc ht =>
          split at h
          next htop =>
            cases h
            simp only [ht, if_pos htop]
          next => cases h
    | joinCleanup =>
      simp only [applyJoinCleanup] at h
      simp only [FastVM.applyJoinCleanup]
      cases hj : joinVictim t.codes curr with
      | some j =>
        rw [hj] at h
        dsimp only at h ⊢
        split at h
        next => cases h
        next =>
          cases h
          rfl
      | none =>
        rw [hj] at h
        dsimp only at h ⊢
        split at h
        next hdead =>
          cases h
          rw [if_pos hdead]
          rfl
        next => cases h
  next => cases h

theorem findSome?_traced (h : Forward t.codes)
    (hat : instrAt t.codes curr = some bc) (strategies : List Strategy) :
    (∀ codes' curr', (strategies.findSome? fun s => s.apply t.codes curr bc) = some (codes', curr') →
      ∃ o, (strategies.findSome? fun s => t.apply s curr bc) = some (⟨codes', o⟩, curr') ∧
        Follows t ⟨codes', o⟩ (roundPlace strategies t.codes curr)) ∧
    ((strategies.findSome? fun s => s.apply t.codes curr bc) = none →
      (strategies.findSome? fun s => t.apply s curr bc) = none ∧
        roundPlace strategies t.codes curr = some) := by
  unfold roundPlace
  simp only [hat]
  induction strategies with
  | nil =>
    refine ⟨?_, fun _ => ⟨rfl, rfl⟩⟩
    intro codes' curr' hs
    cases hs
  | cons s strategies ih =>
    cases hs : s.apply t.codes curr bc with
    | some hit =>
      obtain ⟨o, happly, hfollow⟩ := Strategy.traced h hat
        (show s.apply t.codes curr bc = some (hit.1, hit.2) from hs)
      simp only [findSome?_cons, find?_cons, hs, happly, isSome_some]
      refine ⟨fun codes' curr' heq => ?_, fun heq => by cases heq⟩
      cases heq
      exact ⟨o, rfl, hfollow⟩
    | none =>
      have happly : t.apply s curr bc = none := by
        cases ht : t.apply s curr bc with
        | none => rfl
        | some r =>
          have := Traced.apply_codes (show t.apply s curr bc = some (r.1, r.2) from ht)
          rw [hs] at this
          cases this
      simp only [findSome?_cons, find?_cons, hs, happly, isSome_none]
      exact ih

theorem round_traced {strategies : List Strategy} {codes' : Chunk}
    (h : Forward t.codes) (hr : round strategies t.codes curr = some (codes', curr')) :
    ∃ o, t.round strategies curr = some (⟨codes', o⟩, curr') ∧
      Follows t ⟨codes', o⟩ (roundPlace strategies t.codes curr) := by
  unfold round at hr
  unfold Traced.round
  cases hat : instrAt t.codes curr with
  | none =>
    rw [hat] at hr
    cases hr
  | some bc =>
    rw [hat] at hr
    dsimp only at hr ⊢
    obtain ⟨hsome, hnone⟩ := findSome?_traced h hat strategies
    split at hr
    · next hit hhit =>
      obtain ⟨o, happly, hfollow⟩ := hsome hit.1 hit.2 hhit
      cases hr
      rw [happly]
      exact ⟨o, rfl, hfollow⟩
    · next hnohit =>
      obtain ⟨happly, hplace⟩ := hnone hnohit
      cases hr
      rw [happly, hplace]
      exact ⟨t.pcOrigins, rfl, Follows.refl t⟩

/-! ## The Scan -/

theorem optimizeFrom_traced {strategies : List Strategy} (fuel : Nat)
    {out : Chunk} (h : Forward t.codes)
    (hout : optimizeFrom strategies fuel t.codes curr = some out) :
    Forward out ∧ ∃ o, t.optimizeFrom strategies fuel curr = some ⟨out, o⟩ ∧
      Follows t ⟨out, o⟩ (placeFrom strategies fuel t.codes curr) := by
  induction fuel generalizing t curr with
  | zero => cases hout
  | succ fuel ih =>
    unfold optimizeFrom at hout
    unfold Traced.optimizeFrom
    by_cases hlt : curr < units t.codes
    · rw [if_pos hlt] at hout ⊢
      cases hr : round strategies t.codes curr with
      | none =>
        rw [hr] at hout
        cases hout
      | some r =>
        obtain ⟨codes', curr'⟩ := r
        rw [hr] at hout
        obtain ⟨o, hround, hfollow⟩ := round_traced h hr
        have hforward : Forward codes' := by
          cases hat : instrAt t.codes curr with
          | none => simp [round, hat] at hr
          | some bc =>
            rcases round_shrinks h hat hr with hturn | ⟨rfl, -⟩
            · exact hturn.forward
            · exact h
        obtain ⟨hend, o', hrest, hfollow'⟩ := ih (t := ⟨codes', o⟩) hforward hout
        rw [hround]
        refine ⟨hend, o', hrest, ?_⟩
        have hplace : placeFrom strategies (fuel + 1) t.codes curr =
            fun p => (roundPlace strategies t.codes curr p).bind
              (placeFrom strategies fuel codes' curr') := by
          funext p
          simp only [placeFrom, if_pos hlt, hr]
        rw [hplace]
        exact hfollow.trans hfollow'
    · rw [if_neg hlt] at hout ⊢
      cases hout
      refine ⟨h, t.pcOrigins, rfl, ?_⟩
      have hplace : placeFrom strategies (fuel + 1) t.codes curr = some := by
        funext p
        simp only [placeFrom, if_neg hlt]
      rw [hplace]
      exact Follows.refl t

/-- Each unit of a chunk belongs to an instruction. -/
theorem exists_instr_around {codes : Chunk} (hs : Sized codes) {w : Nat} (hw : w < units codes) :
    ∃ p b k, instrAt codes p = some b ∧ k < b.opsize ∧ w = p + k := by
  induction codes generalizing w with
  | nil => cases hw
  | cons c rest ih =>
    rw [units_cons] at hw
    by_cases hc : w < c.opsize
    · exact ⟨0, c, w, instrAt_zero_cons c rest, hc, (zero_add w).symm⟩
    · have hpos : 0 < c.opsize := hs c (by simp)
      obtain ⟨p, b, k, hp, hk, heq⟩ :=
        ih (fun b hb => hs b (mem_cons_of_mem c hb)) (w := w - c.opsize) (by omega)
      refine ⟨p + c.opsize, b, k, ?_, hk, by omega⟩
      rw [instrAt_cons, if_neg (by omega), if_neg (by omega), Nat.add_sub_cancel]
      exact hp

/-- A table has an entry for every unit of its chunk. -/
def Aligned (t : Traced) : Prop := ∀ w < units t.codes, (t.pcOrigins.lookup w).isSome

/-- The scan returns, the table it leaves has an entry for every unit of the chunk it leaves, and
    each instruction still there has at each of its units the origin it had before. -/
theorem optimize_keeps_origins (strategies : List Strategy) (t : Traced) (start : Nat)
    (h : Forward t.codes) (hstart : Boundary t.codes start) (haligned : Aligned t) :
    ∃ turns, ∀ fuel, turns ≤ fuel → ∃ t', t.optimizeFrom strategies fuel start = some t' ∧
      optimizeFrom strategies fuel t.codes start = some t'.codes ∧ Aligned t' ∧
      Follows t t' (placeFrom strategies fuel t.codes start) := by
  obtain ⟨turns, out, hout⟩ := exists_optimizeFrom strategies t.codes start h hstart
  refine ⟨turns, fun fuel hle => ?_⟩
  obtain ⟨k, rfl⟩ := Nat.exists_eq_add_of_le hle
  have hdone := optimizeFrom_mono hout k
  obtain ⟨hforward, o, htraced, hfollow⟩ := optimizeFrom_traced (turns + k) h hdone
  refine ⟨⟨out, o⟩, htraced, hdone, ?_, hfollow⟩
  intro w hw
  obtain ⟨q, b', k', hq, hk, rfl⟩ := exists_instr_around hforward.sized hw
  obtain ⟨p, b, hp, hplace⟩ := hfollow.came hq
  obtain ⟨b'', hq', hsize, -, horigin⟩ := hfollow.kept hp hplace
  rw [hq, some.injEq] at hq'
  subst hq'
  have hend := instrAt_end_le hp
  rw [horigin k' (by omega)]
  exact haligned (p + k') (by omega)

/-- An entry for each unit of `jumpChain`. -/
def chainOrigins : PcOrigins := ((AList.insert 0 10 ∅).insert 1 11).insert 2 12

theorem optimize_keeps_origins_jumpChain : ∃ turns, ∀ fuel, turns ≤ fuel →
    ∃ t', Traced.optimizeFrom [.jumpToJump, .jumpToNext] fuel ⟨jumpChain, chainOrigins⟩ 0 = some t' ∧
      Aligned t' := by
  have haligned : Aligned ⟨jumpChain, chainOrigins⟩ := by
    intro w hw
    have hlt : w < 3 := hw
    rcases (by omega : w = 0 ∨ w = 1 ∨ w = 2) with rfl | rfl | rfl <;> decide
  obtain ⟨turns, hturns⟩ := optimize_keeps_origins [.jumpToJump, .jumpToNext]
    ⟨jumpChain, chainOrigins⟩ 0 jumpChain_forward (.of_instrAt rfl) haligned
  refine ⟨turns, fun fuel hle => ?_⟩
  obtain ⟨t', ht', -, haligned', -⟩ := hturns fuel hle
  exact ⟨t', ht', haligned'⟩

end Camel.FastVM
