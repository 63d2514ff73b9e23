import Camel.FastVM.Chunk
import Camel.Lib.LinearScan

/-! # Registers for Frame Slots

    `linearScanAllocate` gives registers to the slots of a frame
    (`fastvm/jit/regalloc/regalloc.cpp`). A slot is live from its first definition
    to its last use. The intervals are taken in the order of their starts; when no
    register is free the holder that stops last gives its register up, if it stops
    after the new interval does. All registers are lost in a call, so a slot that
    lives across one is to stay in the frame.
-/

namespace Camel.Jit

open FastVM List Option
open Lib (Scan)

/-! ## Definitions and Uses -/

/-- The slots an instruction reads, in the order `collectDefUse` notes them. -/
def useSlots (bc : Bytecode) : List Int :=
  match bc.opcode with
  | .retn | .cast | .copy => [bc.fastop0]
  | .accs | .arith _ _ => [bc.fastop0, bc.fastop1]
  | .brch | .func | .tail => bc.operands.take bc.normCnt
  | .join | .fill | .call | .oper | .schd => bc.operands.take (bc.normCnt + bc.withCnt)
  | .jump | .lbeg | .ltst | .lend => []

/-- The slot an instruction writes. -/
def defSlots (bc : Bytecode) : List Int :=
  match bc.opcode with
  | .cast | .copy | .accs | .arith _ _ | .join | .fill | .call | .func | .tail | .oper | .schd =>
    [bc.result]
  | .retn | .brch | .jump | .lbeg | .ltst | .lend => []

/-- `firstDef` and `lastUse`; a slot with no definition yet has `none`. -/
structure DefUse where
  firstDef : List (Option Nat)
  lastUse : List Nat

variable (d : DefUse)

def DefUse.ensureSize (idx : Nat) : DefUse :=
  if d.firstDef.length < idx + 1 then
    { firstDef := d.firstDef ++ List.replicate (idx + 1 - d.firstDef.length) none
      lastUse := d.lastUse ++ List.replicate (idx + 1 - d.lastUse.length) 0 }
  else d

def DefUse.useSlot (pc : Nat) (idx : Int) : DefUse :=
  if 0 < idx then
    let d := d.ensureSize idx.toNat
    { d with lastUse := d.lastUse.set idx.toNat pc }
  else d

def DefUse.defSlot (pc : Nat) (idx : Int) : DefUse :=
  if 0 < idx then
    let d := d.ensureSize idx.toNat
    if d.firstDef.getD idx.toNat none = none then
      { d with firstDef := d.firstDef.set idx.toNat (some pc) }
    else d
  else d

def collectDefUse (bc : Bytecode) (pc : Nat) (d : DefUse) : DefUse :=
  let d := (useSlots bc).foldl (fun d idx => d.useSlot pc idx) d
  (defSlots bc).foldl (fun d idx => d.defSlot pc idx) d

def isCallOpcode (op : OpCode) : Bool := op == .func || op == .tail || op == .call || op == .oper

/-- The instructions from `pc` on, each with its pc. -/
def placed : Chunk → Nat → List (Nat × Bytecode)
  | [], _ => []
  | bc :: rest, pc => (pc, bc) :: placed rest (pc + bc.opsize)

/-! ## The Allocation -/

structure LiveInterval where
  slot : Nat
  start : Nat
  stop : Nat
  spansCall : Bool
deriving DecidableEq

def kNumAllocatableRegs : Nat := 8
def kSpilled : Int := -1
def kReservedRegRbx : Nat := 3

def intervalSpansCall (callPcs : List Nat) (start stop : Nat) : Bool :=
  callPcs.any fun cp => start < cp && cp < stop

def defAtCall (callPcs : List Nat) (defPc : Nat) : Bool := callPcs.any fun cp => defPc == cp

/-- The interval of a slot that is defined and used behind its definition. -/
def intervalOf (callPcs : List Nat) (slot : Nat) : Option LiveInterval :=
  match d.firstDef.getD slot none with
  | none => none
  | some start =>
    let stop := d.lastUse.getD slot 0
    if start ≤ stop then
      some ⟨slot, start, stop, intervalSpansCall callPcs start stop || defAtCall callPcs start⟩
    else none

/-- Slot 0 is never one of them. -/
def intervalsOf (callPcs : List Nat) : List LiveInterval :=
  (List.range' 1 (d.firstDef.length - 1)).filterMap (intervalOf d callPcs)

/-- `std::max_element`: the first of those that stop last. -/
def furthest : List (LiveInterval × Nat) → Option (LiveInterval × Nat)
  | [] => none
  | p :: active => some (active.foldl (fun a b => if a.1.stop < b.1.stop then b else a) p)

structure AllocState where
  scan : Scan LiveInterval
  slotToReg : List Int

def allocStep (s : AllocState) (cur : LiveInterval) : AllocState :=
  let scan := s.scan.expire LiveInterval.stop cur.start
  let taken := if cur.spansCall then none else scan.firstFree
  match taken with
  | some r => ⟨scan.take cur r, s.slotToReg.set cur.slot r⟩
  | none =>
    match furthest scan.active with
    | some spill =>
      if cur.stop < spill.1.stop then
        ⟨scan.replace spill cur, (s.slotToReg.set spill.1.slot kSpilled).set cur.slot spill.2⟩
      else ⟨scan, s.slotToReg.set cur.slot kSpilled⟩
    | none => ⟨scan, s.slotToReg.set cur.slot kSpilled⟩

/-- rbx is reserved. -/
def freeRegs : List Bool := (List.replicate kNumAllocatableRegs true).set kReservedRegRbx false

def collectAll (codes : Chunk) (entryPc : Nat) : DefUse :=
  (placed codes entryPc).foldl (fun d p => collectDefUse p.2 p.1 d) ⟨[], []⟩

def callPcsOf (codes : Chunk) (entryPc : Nat) : List Nat :=
  ((placed codes entryPc).filter fun p => isCallOpcode p.2.opcode).map Prod.fst

def sortedIntervals (codes : Chunk) (entryPc : Nat) : List LiveInterval :=
  (intervalsOf (collectAll codes entryPc) (callPcsOf codes entryPc)).mergeSort
    fun a b => a.start ≤ b.start

/-- `codes` are the instructions from `entryPc` to the end of the range. -/
def linearScanAllocate (codes : Chunk) (entryPc : Nat) : List Int :=
  let d := collectAll codes entryPc
  ((sortedIntervals codes entryPc).foldl allocStep
    ⟨⟨[], freeRegs⟩, List.replicate d.firstDef.length kSpilled⟩).slotToReg

/-- The register of a slot, or `kSpilled`. -/
def regForSlot (slotToReg : List Int) (slot : Int) : Int :=
  if slot < 0 ∨ slotToReg.length ≤ slot then kSpilled else slotToReg.getD slot.toNat kSpilled

/-! ## What the Tables Say -/

def DefUse.Even : Prop := d.firstDef.length = d.lastUse.length

theorem getD_append_replicate {α : Type} (l : List α) (n k : Nat) (x : α) :
    (l ++ replicate n x).getD k x = l.getD k x := by
  rw [getD_eq_getElem?_getD, getD_eq_getElem?_getD, getElem?_append]
  split
  · rfl
  · next h =>
    rw [getElem?_replicate, getElem?_eq_none (by omega)]
    split <;> rfl

theorem getD_set {α : Type} {l : List α} {i k : Nat} (hi : i < l.length) (v x : α) :
    (l.set i v).getD k x = if k = i then v else l.getD k x := by
  rw [getD_eq_getElem?_getD, getD_eq_getElem?_getD]
  split
  · next h => rw [h, getElem?_set_self hi]; rfl
  · next h => rw [getElem?_set_ne (Ne.symm h)]

theorem DefUse.ensureSize_spec {d : DefUse} (hd : d.Even) (idx : Nat) :
    (d.ensureSize idx).Even ∧ idx < (d.ensureSize idx).firstDef.length ∧
      (∀ k, (d.ensureSize idx).firstDef.getD k none = d.firstDef.getD k none) ∧
      ∀ k, (d.ensureSize idx).lastUse.getD k 0 = d.lastUse.getD k 0 := by
  unfold Even at *
  unfold ensureSize
  split
  · refine ⟨?_, ?_, fun k => getD_append_replicate _ _ k none,
      fun k => getD_append_replicate _ _ k 0⟩
    · simp [hd]
    · rw [length_append, length_replicate]
      omega
  · exact ⟨hd, by omega, fun _ => rfl, fun _ => rfl⟩

theorem DefUse.useSlot_spec {d : DefUse} (hd : d.Even) (pc : Nat) (idx : Int) :
    (d.useSlot pc idx).Even ∧
      (∀ k, (d.useSlot pc idx).firstDef.getD k none = d.firstDef.getD k none) ∧
      ∀ k : Nat, 0 < k →
        (d.useSlot pc idx).lastUse.getD k 0 = if (k : Int) = idx then pc else d.lastUse.getD k 0 := by
  unfold useSlot
  split
  · next hpos =>
    obtain ⟨heven, hin, hdef, huse⟩ := ensureSize_spec hd idx.toNat
    refine ⟨?_, hdef, fun k _ => ?_⟩
    · show (d.ensureSize idx.toNat).firstDef.length = ((d.ensureSize idx.toNat).lastUse.set _ _).length
      rw [length_set]
      exact heven
    · show ((d.ensureSize idx.toNat).lastUse.set idx.toNat pc).getD k 0 = _
      rw [getD_set (heven ▸ hin), huse]
      split <;> split <;> first | rfl | omega
  · next hneg =>
    refine ⟨hd, fun _ => rfl, fun k hk => ?_⟩
    rw [if_neg (by omega)]

theorem DefUse.defSlot_spec {d : DefUse} (hd : d.Even) (pc : Nat) (idx : Int) :
    (d.defSlot pc idx).Even ∧
      (∀ k, (d.defSlot pc idx).lastUse.getD k 0 = d.lastUse.getD k 0) ∧
      ∀ k : Nat, 0 < k → (d.defSlot pc idx).firstDef.getD k none =
        (d.firstDef.getD k none).or (if (k : Int) = idx then some pc else none) := by
  unfold defSlot
  split
  · next hpos =>
    obtain ⟨heven, hin, hdef, huse⟩ := ensureSize_spec hd idx.toNat
    simp only
    split
    · next hnone =>
      refine ⟨?_, huse, fun k _ => ?_⟩
      · show ((d.ensureSize idx.toNat).firstDef.set _ _).length = (d.ensureSize idx.toNat).lastUse.length
        rw [length_set]
        exact heven
      · show ((d.ensureSize idx.toNat).firstDef.set idx.toNat (some pc)).getD k none = _
        rw [getD_set hin, hdef]
        rw [hdef] at hnone
        by_cases h : (k : Int) = idx
        · rw [if_pos (by omega), if_pos h, show k = idx.toNat by omega, hnone]
          rfl
        · rw [if_neg (by omega), if_neg h, or_none]
    · next hsome =>
      refine ⟨heven, huse, fun k _ => ?_⟩
      rw [hdef] at hsome ⊢
      by_cases h : (k : Int) = idx
      · obtain ⟨start, hstart⟩ := ne_none_iff_exists'.mp hsome
        rw [show k = idx.toNat by omega, hstart]
        rfl
      · rw [if_neg h, or_none]
  · next hneg =>
    refine ⟨hd, fun _ => rfl, fun k hk => ?_⟩
    rw [if_neg (by omega), or_none]

theorem foldl_useSlot {d : DefUse} (hd : d.Even) (pc : Nat) (l : List Int) :
    (l.foldl (fun d idx => d.useSlot pc idx) d).Even ∧
      (∀ k, (l.foldl (fun d idx => d.useSlot pc idx) d).firstDef.getD k none =
        d.firstDef.getD k none) ∧
      ∀ k : Nat, 0 < k → (l.foldl (fun d idx => d.useSlot pc idx) d).lastUse.getD k 0 =
        if (k : Int) ∈ l then pc else d.lastUse.getD k 0 := by
  induction l generalizing d with
  | nil => exact ⟨hd, fun _ => rfl, fun k _ => by simp⟩
  | cons idx l ih =>
    obtain ⟨heven, hdef, huse⟩ := DefUse.useSlot_spec hd pc idx
    obtain ⟨heven', hdef', huse'⟩ := ih heven
    refine ⟨heven', fun k => (hdef' k).trans (hdef k), fun k hk => ?_⟩
    rw [foldl_cons, huse' k hk, huse k hk]
    by_cases hl : (k : Int) ∈ l
    · rw [if_pos hl, if_pos (mem_cons_of_mem idx hl)]
    · rw [if_neg hl]
      by_cases h : (k : Int) = idx
      · rw [if_pos h, if_pos (by rw [h]; exact mem_cons_self)]
      · rw [if_neg h, if_neg (by simp [h, hl])]

theorem foldl_defSlot {d : DefUse} (hd : d.Even) (pc : Nat) (l : List Int) :
    (l.foldl (fun d idx => d.defSlot pc idx) d).Even ∧
      (∀ k, (l.foldl (fun d idx => d.defSlot pc idx) d).lastUse.getD k 0 = d.lastUse.getD k 0) ∧
      ∀ k : Nat, 0 < k → (l.foldl (fun d idx => d.defSlot pc idx) d).firstDef.getD k none =
        (d.firstDef.getD k none).or (if (k : Int) ∈ l then some pc else none) := by
  induction l generalizing d with
  | nil => exact ⟨hd, fun _ => rfl, fun k _ => by simp⟩
  | cons idx l ih =>
    obtain ⟨heven, huse, hdef⟩ := DefUse.defSlot_spec hd pc idx
    obtain ⟨heven', huse', hdef'⟩ := ih heven
    refine ⟨heven', fun k => (huse' k).trans (huse k), fun k hk => ?_⟩
    rw [foldl_cons, hdef' k hk, hdef k hk, Option.or_assoc]
    congr 1
    by_cases h : (k : Int) = idx
    · simp [h]
    · simp [h]

/-- The pcs of the instructions that a predicate picks. -/
def pcsWhere (f : Bytecode → Bool) (l : List (Nat × Bytecode)) : List Nat :=
  (l.filter fun p => f p.2).map Prod.fst

/-- A slot is live from its first definition to its last use; one that is never used counts as
    used at pc 0. -/
structure Lives (codes : Chunk) (entryPc slot start stop : Nat) : Prop where
  positive : 0 < slot
  first : (pcsWhere (fun bc => (slot : Int) ∈ defSlots bc) (placed codes entryPc)).head? = some start
  last : (pcsWhere (fun bc => (slot : Int) ∈ useSlots bc) (placed codes entryPc)).getLastD 0 = stop
  ordered : start ≤ stop

theorem collect_spec {d : DefUse} (hd : d.Even) (l : List (Nat × Bytecode)) :
    (l.foldl (fun d p => collectDefUse p.2 p.1 d) d).Even ∧ ∀ k : Nat, 0 < k →
      (l.foldl (fun d p => collectDefUse p.2 p.1 d) d).firstDef.getD k none =
        (d.firstDef.getD k none).or (pcsWhere (fun bc => (k : Int) ∈ defSlots bc) l).head? ∧
      (l.foldl (fun d p => collectDefUse p.2 p.1 d) d).lastUse.getD k 0 =
        (pcsWhere (fun bc => (k : Int) ∈ useSlots bc) l).getLastD (d.lastUse.getD k 0) := by
  induction l generalizing d with
  | nil => exact ⟨hd, fun k _ => ⟨by simp [pcsWhere], rfl⟩⟩
  | cons p l ih =>
    obtain ⟨heven, hdef, huse⟩ := foldl_useSlot hd p.1 (useSlots p.2)
    obtain ⟨heven', huse', hdef'⟩ := foldl_defSlot heven p.1 (defSlots p.2)
    obtain ⟨hall, hrest⟩ := ih heven'
    refine ⟨hall, fun k hk => ?_⟩
    obtain ⟨hfirst, hlast⟩ := hrest k hk
    rw [hdef' k hk, hdef k, Option.or_assoc] at hfirst
    rw [huse' k, huse k hk] at hlast
    refine ⟨hfirst.trans ?_, hlast.trans ?_⟩
    · unfold pcsWhere
      by_cases h : (k : Int) ∈ defSlots p.2
      · rw [if_pos h, filter_cons_of_pos (by simpa using h)]
        rfl
      · rw [if_neg h, filter_cons_of_neg (by simpa using h), none_or]
    · unfold pcsWhere
      by_cases h : (k : Int) ∈ useSlots p.2
      · rw [if_pos h, filter_cons_of_pos (by simpa using h), map_cons, getLastD_cons]
      · rw [if_neg h, filter_cons_of_neg (by simpa using h)]

/-- The intervals of the scan are those of the slots. -/
theorem mem_intervalsOf {codes : Chunk} {entryPc : Nat} {i : LiveInterval}
    (hi : i ∈ intervalsOf (collectAll codes entryPc) (callPcsOf codes entryPc)) :
    Lives codes entryPc i.slot i.start i.stop ∧
      i.slot < (collectAll codes entryPc).firstDef.length ∧
      i.spansCall = (intervalSpansCall (callPcsOf codes entryPc) i.start i.stop ||
        defAtCall (callPcsOf codes entryPc) i.start) := by
  obtain ⟨slot, hslot, hof⟩ := mem_filterMap.mp hi
  obtain ⟨hlow, hhigh⟩ := mem_range'_1.mp hslot
  obtain ⟨-, htables⟩ := collect_spec (d := ⟨[], []⟩) rfl (placed codes entryPc)
  obtain ⟨hfirst, hlast⟩ := htables slot hlow
  unfold intervalOf at hof
  split at hof
  · cases hof
  · next start hstart =>
    simp only at hof
    split at hof
    · next hle =>
      cases hof
      refine ⟨⟨hlow, ?_, hlast.symm, hle⟩, by show slot < _; omega, rfl⟩
      unfold collectAll at hstart
      rw [hfirst] at hstart
      exact hstart
    · cases hof

end Camel.Jit
