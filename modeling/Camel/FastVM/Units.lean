import Camel.FastVM.Chunk

/-! # The Units of a Chunk

    An instruction is laid out in units of 16 bytes: its header, its operands, and extra words of
    8 bytes that end where the instruction ends. A chunk is kept as its 32-bit cells, four a unit;
    the first cell of a header holds its opcode and its size.
-/

namespace Camel.FastVM.Units

open List Option

/-! ## The Readers -/

inductive Cell where
  | head (opcode : OpCode) (opsize : Nat)
  | word (w : BitVec 32)

variable (m : List Cell) (pc : Nat)

def wordAt (i : Nat) : BitVec 32 :=
  match m[i]? with
  | some (.word w) => w
  | _ => 0

def wordsAt (i n : Nat) : List (BitVec 32) :=
  (List.range n).map fun k => wordAt m (i + k)

/-- The header of the instruction at `pc`. -/
def header : Option (OpCode × Nat) :=
  match m[4 * pc]? with
  | some (.head opcode opsize) => some (opcode, opsize)
  | _ => none

def result : BitVec 32 := wordAt m (4 * pc + 1)
def fastop (pc k : Nat) : BitVec 32 := wordAt m (4 * pc + 2 + k)
def normCnt : Nat := ((fastop m pc 0).signExtend 64).toNat
def withCnt : Nat := ((fastop m pc 1).signExtend 64).toNat
def nargs : List (BitVec 32) := wordsAt m (4 * (pc + 1)) (normCnt m pc)

def wargs : List (BitVec 32) :=
  wordsAt m (4 * (pc + 1) + normCnt m pc) (withCnt m pc)

def extraWordCount : OpCode → Nat
  | .cast | .join | .lbeg | .ltst | .lend | .schd => 1
  | .oper => 3
  | .fill => 2
  | .func | .tail => 4
  | _ => 0

/-- The place of the extra word `k`, in words of 8 bytes. -/
def extraIndex (opcode : OpCode) (pc opsize k : Nat) : Nat :=
  2 * (pc + opsize) - extraWordCount opcode + k

def extraWord (pc k : Nat) : BitVec 64 :=
  match header m pc with
  | none => 0
  | some (opcode, opsize) =>
    let i := extraIndex opcode pc opsize k
    wordAt m (2 * i + 1) ++ wordAt m (2 * i)

/-! ## The Writer -/

def writeWords (m : List Cell) (i : Nat) : List (BitVec 32) → List Cell
  | [] => m
  | w :: ws => writeWords (m.set i (.word w)) (i + 1) ws

def asIndex (value : Nat) : Option (BitVec 32) :=
  if 2 ^ 31 - 1 < value then none else some (.ofNat 32 value)

def roundUp16 (n : Nat) : Nat := (n + 15) / 16 * 16

def operandUnits (fastops normOperands withOperands : List (BitVec 32)) : Nat :=
  if fastops = [] then roundUp16 ((normOperands.length + withOperands.length) * 4) / 16 else 0

def extraUnits (hasExtra : Bool) (extraWords : Nat) : Nat :=
  if hasExtra then (extraWords * 8 + 15) / 16 else 0

/-- The units behind the chunk, zero at first, with the instruction written into them. -/
def writeInstruction (opcode : OpCode) (result : BitVec 32)
    (fastops normOperands withOperands : List (BitVec 32)) (normCnt withCnt : BitVec 32)
    (hasExtra : Bool) (extra : BitVec 64) (extraWords total : Nat) : List Cell :=
  let zeros := List.replicate (4 * (total - 1)) (Cell.word 0)
  let units :=
    if fastops = [] then
      writeWords (writeWords ([.head opcode total, .word result, .word normCnt, .word withCnt] ++
        zeros) 4 normOperands) (4 + normOperands.length) withOperands
    else
      [.head opcode total, .word result, .word (fastops.getD 0 0), .word (fastops.getD 1 0)] ++ zeros
  if hasExtra then
    writeWords (writeWords units (2 * extraIndex opcode 0 total 0)
      [extra.setWidth 32, (extra >>> 32).setWidth 32])
      (2 * extraIndex opcode 0 total 1) (List.replicate (2 * (extraWords - 1)) 0)
  else units

/-- `none` is the error that is thrown: a count or a size does not fit. -/
def appendBytecode (vec : List Cell) (opcode : OpCode) (result : BitVec 32)
    (fastops normOperands withOperands : List (BitVec 32)) (hasExtra : Bool) (extra : BitVec 64)
    (extraWords : Nat) : Option (List Cell) := do
  let normCnt ← asIndex normOperands.length
  let withCnt ← asIndex withOperands.length
  let total := 1 + operandUnits fastops normOperands withOperands + extraUnits hasExtra extraWords
  if 65535 < total then none
  else
    some (vec ++ writeInstruction opcode result fastops normOperands withOperands normCnt withCnt
      hasExtra extra extraWords total)

/-! ## What Is Laid Out -/

/-- An instruction as it is appended, with the extra words its opcode has. -/
structure Instruction where
  opcode : OpCode
  result : BitVec 32
  fastops : List (BitVec 32)
  normOperands : List (BitVec 32)
  withOperands : List (BitVec 32)
  extra : BitVec 64

namespace Instruction

variable (ins : Instruction)

def total : Nat :=
  1 + operandUnits ins.fastops ins.normOperands ins.withOperands +
    extraUnits (extraWordCount ins.opcode ≠ 0) (extraWordCount ins.opcode)

def append (vec : List Cell) : Option (List Cell) :=
  appendBytecode vec ins.opcode ins.result ins.fastops ins.normOperands ins.withOperands
    (extraWordCount ins.opcode ≠ 0) ins.extra (extraWordCount ins.opcode)

/-- The operands that are laid out behind the header. -/
def operands : List (BitVec 32) :=
  if ins.fastops = [] then ins.normOperands ++ ins.withOperands else []

end Instruction

/-- Every accessor reads from the instruction at `pc` what it was appended with, and its operands
    end before its extra words begin. -/
structure ReadsBack (m : List Cell) (pc : Nat) (ins : Instruction) : Prop where
  header : header m pc = some (ins.opcode, ins.total)
  result : result m pc = ins.result
  fastops : ins.fastops ≠ [] →
    fastop m pc 0 = ins.fastops.getD 0 0 ∧ fastop m pc 1 = ins.fastops.getD 1 0
  operands : ins.fastops = [] →
    normCnt m pc = ins.normOperands.length ∧ withCnt m pc = ins.withOperands.length ∧
      nargs m pc = ins.normOperands ∧ wargs m pc = ins.withOperands
  extra : ∀ k < extraWordCount ins.opcode, extraWord m pc k = if k = 0 then ins.extra else 0
  apart : 4 * (pc + 1) + ins.operands.length ≤ 2 * extraIndex ins.opcode pc ins.total 0

/-- The counts and the size fit the fields that record them. -/
structure Instruction.Fits (ins : Instruction) : Prop where
  norm : ins.normOperands.length ≤ 2 ^ 31 - 1
  withs : ins.withOperands.length ≤ 2 ^ 31 - 1
  total : ins.total ≤ 65535

def appendAll (instructions : List Instruction) : Option (List Cell) :=
  instructions.foldlM (fun m ins => ins.append m) m

/-- From `pc` on, step by step, a chunk holds the instructions and nothing behind them. -/
def Decodes (m : List Cell) (pc : Nat) : List Instruction → Prop
  | [] => m.length = 4 * pc
  | ins :: rest => ReadsBack m pc ins ∧ Decodes m (pc + ins.total) rest

/-! ## Writing and Reading -/

theorem length_writeWords (i : Nat) (ws : List (BitVec 32)) :
    (writeWords m i ws).length = m.length := by
  induction ws generalizing m i with
  | nil => rfl
  | cons w ws ih => rw [writeWords, ih, length_set]

theorem getElem?_writeWords {m : List Cell} {i : Nat} {ws : List (BitVec 32)}
    (h : i + ws.length ≤ m.length) (j : Nat) :
    (writeWords m i ws)[j]? =
      if i ≤ j ∧ j < i + ws.length then some (.word (ws.getD (j - i) 0)) else m[j]? := by
  induction ws generalizing m i with
  | nil => rw [if_neg (by simp)]; rfl
  | cons w ws ih =>
    rw [length_cons] at h
    rw [writeWords, ih (by rw [length_set]; omega), getElem?_set, length_cons]
    by_cases hj : i = j
    · subst hj
      rw [if_neg (by omega), if_pos rfl, if_pos (by omega), if_pos (by omega), Nat.sub_self]
      rfl
    · by_cases hin : i + 1 ≤ j ∧ j < i + 1 + ws.length
      · obtain ⟨k, rfl⟩ : ∃ k, j = i + 1 + k := ⟨j - (i + 1), by omega⟩
        rw [if_pos hin, if_pos (by omega), Nat.add_sub_cancel_left,
          show i + 1 + k - i = k + 1 by omega, getD_cons_succ]
      · rw [if_neg hin, if_neg hj, if_neg (by omega)]

theorem writeWords_append (i : Nat) (ws vs : List (BitVec 32)) :
    writeWords m i (ws ++ vs) = writeWords (writeWords m i ws) (i + ws.length) vs := by
  induction ws generalizing m i with
  | nil => rfl
  | cons w ws ih => rw [cons_append, writeWords, ih, writeWords, length_cons,
      add_right_comm, add_assoc]

namespace Instruction

variable (ins : Instruction)

/-- The extra words of the instruction, as cells. -/
def extraCells : List (BitVec 32) :=
  if extraWordCount ins.opcode = 0 then []
  else [ins.extra.setWidth 32, (ins.extra >>> 32).setWidth 32] ++
    List.replicate (2 * (extraWordCount ins.opcode - 1)) 0

theorem length_extraCells : ins.extraCells.length = 2 * extraWordCount ins.opcode := by
  unfold extraCells
  split
  next h => rw [h]; rfl
  next h =>
    rw [length_append, length_replicate]
    simp only [length_cons, length_nil]
    omega

/-- The operands fit between the header and the extra words. -/
theorem fits : 4 + ins.operands.length + 2 * extraWordCount ins.opcode ≤ 4 * ins.total := by
  have hoperands : ins.operands.length ≤
      4 * operandUnits ins.fastops ins.normOperands ins.withOperands := by
    unfold operands operandUnits roundUp16
    split
    · rw [length_append]
      omega
    · exact Nat.zero_le _
  have hextra : extraWordCount ins.opcode ≤
      2 * extraUnits (extraWordCount ins.opcode ≠ 0) (extraWordCount ins.opcode) := by
    rw [extraUnits]
    split
    · omega
    next h => rw [decide_eq_true_eq, not_not] at h; omega
  unfold total
  omega

def header : List Cell :=
  [.head ins.opcode ins.total, .word ins.result] ++
    if ins.fastops = [] then
      [.word (.ofNat 32 ins.normOperands.length), .word (.ofNat 32 ins.withOperands.length)]
    else [.word (ins.fastops.getD 0 0), .word (ins.fastops.getD 1 0)]

/-- The units of the instruction. -/
def units : List Cell :=
  writeInstruction ins.opcode ins.result ins.fastops ins.normOperands ins.withOperands
    (.ofNat 32 ins.normOperands.length) (.ofNat 32 ins.withOperands.length)
    (extraWordCount ins.opcode ≠ 0) ins.extra (extraWordCount ins.opcode) ins.total

theorem units_eq :
    ins.units = writeWords (writeWords (ins.header ++
      replicate (4 * (ins.total - 1)) (.word 0)) 4 ins.operands)
      (4 * ins.total - 2 * extraWordCount ins.opcode) ins.extraCells := by
  have hfits := ins.fits
  have hindex : 2 * extraIndex ins.opcode 0 ins.total 0 =
      4 * ins.total - 2 * extraWordCount ins.opcode := by
    unfold extraIndex
    omega
  have hnext : 2 * extraIndex ins.opcode 0 ins.total 1 =
      4 * ins.total - 2 * extraWordCount ins.opcode + 2 := by
    unfold extraIndex
    omega
  unfold units writeInstruction extraCells operands header
  simp only [hindex, hnext, decide_eq_true_eq]
  have hlength : ∀ (a b : BitVec 32), [a, b].length = 2 := fun _ _ => rfl
  by_cases hfast : ins.fastops = [] <;> by_cases hc : extraWordCount ins.opcode = 0
  · simp only [if_pos hfast, if_pos hc, if_neg (not_not.2 hc), ne_eq, writeWords_append]
    rfl
  · simp only [if_pos hfast, if_neg hc, if_pos hc, ne_eq, writeWords_append, hlength]
    rfl
  · simp only [if_neg hfast, if_pos hc, if_neg (not_not.2 hc), ne_eq]
    rfl
  · simp only [if_neg hfast, if_neg hc, if_pos hc, ne_eq, writeWords_append, hlength]
    rfl

theorem length_base : (ins.header ++
    replicate (4 * (ins.total - 1)) (Cell.word 0)).length = 4 * ins.total := by
  have hfits := ins.fits
  unfold header
  split <;> simp <;> omega

theorem length_units : ins.units.length = 4 * ins.total := by
  rw [units_eq, length_writeWords, length_writeWords, length_base]

/-- The cells of the instruction: its extra words at the end, its operands behind its header. -/
theorem getElem?_units (j : Nat) : ins.units[j]? =
    if 4 * ins.total - 2 * extraWordCount ins.opcode ≤ j ∧ j < 4 * ins.total then
      some (.word (ins.extraCells.getD (j - (4 * ins.total - 2 * extraWordCount ins.opcode)) 0))
    else if 4 ≤ j ∧ j < 4 + ins.operands.length then some (.word (ins.operands.getD (j - 4) 0))
    else (ins.header ++ replicate (4 * (ins.total - 1)) (.word 0))[j]? := by
  have hfits := ins.fits
  have hextra := ins.length_extraCells
  rw [units_eq, getElem?_writeWords (by rw [length_writeWords, length_base]; omega),
    getElem?_writeWords (by rw [length_base]; omega), hextra, Nat.sub_add_cancel (by omega)]

end Instruction

/-! ## Chunks -/

theorem toNat_count {n : Nat} (h : n ≤ 2 ^ 31 - 1) :
    ((BitVec.ofNat 32 n).signExtend 64).toNat = n := by
  have hmsb : (BitVec.ofNat 32 n).msb = false := by
    rw [BitVec.msb_eq_decide, BitVec.toNat_ofNat]
    simp
    omega
  rw [BitVec.signExtend_eq_setWidth_of_msb_false hmsb, BitVec.toNat_setWidth, BitVec.toNat_ofNat]
  omega

theorem wordsAt_eq {m : List Cell} {i : Nat} {ws : List (BitVec 32)}
    (h : ∀ k < ws.length, wordAt m (i + k) = ws.getD k 0) : wordsAt m i ws.length = ws := by
  refine ext_getElem (by simp [wordsAt]) fun k hk hk' => ?_
  simp only [wordsAt, getElem_map, getElem_range]
  rw [h k hk', getD_eq_getElem?_getD, getElem?_eq_getElem hk', getD_some]

/-- The two halves of an extra word. -/
theorem halves (extra : BitVec 64) :
    (extra >>> 32).setWidth 32 ++ extra.setWidth 32 = extra := by
  ext i hi
  rw [BitVec.getElem_append]
  split
  · rw [BitVec.getElem_setWidth, BitVec.getLsbD_eq_getElem hi]
  next h =>
    rw [BitVec.getElem_setWidth, BitVec.getLsbD_ushiftRight, Nat.add_sub_cancel' (by omega),
      BitVec.getLsbD_eq_getElem hi]

section Placed

variable {m : List Cell} {pc : Nat} {ins : Instruction}
  (h : ∀ j < 4 * ins.total, m[4 * pc + j]? = ins.units[j]?)

include h

/-- The four cells of the header. -/
theorem placed_header {j : Nat} (hj : j < 4) : m[4 * pc + j]? = ins.header[j]? := by
  have hfits := ins.fits
  have hlength : ins.header.length = 4 := by
    unfold Instruction.header
    split <;> rfl
  rw [h j (by omega), ins.getElem?_units, if_neg (by omega), if_neg (by omega),
    getElem?_append_left (by omega)]

theorem placed_operands (k : Nat) (hk : k < ins.operands.length) :
    wordAt m (4 * (pc + 1) + k) = ins.operands.getD k 0 := by
  have hfits := ins.fits
  have hcell := h (4 + k) (by omega)
  rw [ins.getElem?_units, if_neg (by omega), if_pos (by omega), Nat.add_sub_cancel_left,
    ← add_assoc] at hcell
  rw [wordAt, mul_add, hcell]

theorem placed_extra (k : Nat) (hk : k < 2 * extraWordCount ins.opcode) :
    wordAt m (2 * extraIndex ins.opcode pc ins.total 0 + k) = ins.extraCells.getD k 0 := by
  have hfits := ins.fits
  have hcell := h (4 * ins.total - 2 * extraWordCount ins.opcode + k) (by omega)
  rw [ins.getElem?_units, if_pos (by omega), Nat.add_sub_cancel_left] at hcell
  rw [wordAt, show 2 * extraIndex ins.opcode pc ins.total 0 + k =
    4 * pc + (4 * ins.total - 2 * extraWordCount ins.opcode + k) by unfold extraIndex; omega, hcell]

theorem readsBack_placed (hfits : ins.Fits) : ReadsBack m pc ins := by
  have hspace := ins.fits
  have hheader : header m pc = some (ins.opcode, ins.total) := by
    rw [header, show m[4 * pc]? = _ from placed_header h (j := 0) (by omega)]
    rfl
  have hfastop : ∀ k < 2, fastop m pc k = if ins.fastops = [] then
      .ofNat 32 (if k = 0 then ins.normOperands.length else ins.withOperands.length)
      else ins.fastops.getD k 0 := by
    intro k hk
    rw [fastop, wordAt, add_assoc, placed_header h (by omega), Instruction.header]
    by_cases hfast : ins.fastops = []
    · rw [if_pos hfast, if_pos hfast]
      interval_cases k <;> rfl
    · rw [if_neg hfast, if_neg hfast]
      interval_cases k <;> rfl
  have hcounts : ins.fastops = [] → normCnt m pc = ins.normOperands.length ∧
      withCnt m pc = ins.withOperands.length := by
    intro hfast
    rw [normCnt, withCnt, hfastop 0 (by omega), hfastop 1 (by omega), if_pos hfast, if_pos hfast]
    exact ⟨toNat_count hfits.norm, toNat_count hfits.withs⟩
  refine ⟨hheader, ?_, ?_, ?_, ?_, ?_⟩
  · rw [result, wordAt, placed_header h (j := 1) (by omega)]
    rfl
  · intro hfast
    rw [hfastop 0 (by omega), hfastop 1 (by omega), if_neg hfast, if_neg hfast]
    exact ⟨rfl, rfl⟩
  · intro hfast
    obtain ⟨hnorm, hwith⟩ := hcounts hfast
    have hoperands : ins.operands = ins.normOperands ++ ins.withOperands := if_pos hfast
    refine ⟨hnorm, hwith, ?_, ?_⟩
    · rw [nargs, hnorm]
      refine wordsAt_eq fun k hk => ?_
      rw [placed_operands h k (by rw [hoperands, length_append]; omega), hoperands,
        getD_append _ _ _ _ hk]
    · rw [wargs, hnorm, hwith]
      refine wordsAt_eq fun k hk => ?_
      rw [add_assoc, placed_operands h _ (by rw [hoperands, length_append]; omega),
        hoperands, getD_append_right _ _ _ _ (by omega), Nat.add_sub_cancel_left]
  · intro k hk
    have hlow := placed_extra h (2 * k) (by omega)
    have hhigh := placed_extra h (2 * k + 1) (by omega)
    have hindex : extraIndex ins.opcode pc ins.total k =
        extraIndex ins.opcode pc ins.total 0 + k := rfl
    rw [extraWord, hheader]
    simp only [hindex, mul_add, add_assoc, hlow, hhigh]
    rw [Instruction.extraCells, if_neg (by omega)]
    cases k with
    | zero => exact halves ins.extra
    | succ k =>
      have hzero : ∀ (lo hi : BitVec 32) (n i : Nat),
          ([lo, hi] ++ replicate n (0 : BitVec 32)).getD (2 * (k + 1) + i) 0 = 0 := by
        intro lo hi n i
        rw [getD_append_right _ _ _ _ (by simp; omega), getD_eq_getElem?_getD,
          getElem?_getD_replicate_default_eq]
      rw [if_neg (by omega), hzero, show 2 * (k + 1) = 2 * (k + 1) + 0 from rfl, hzero]
      rfl
  · unfold extraIndex
    omega

end Placed

theorem asIndex_eq_some {n : Nat} {w : BitVec 32} :
    asIndex n = some w ↔ n ≤ 2 ^ 31 - 1 ∧ w = .ofNat 32 n := by
  rw [asIndex, ite_none_left_eq_some, not_lt, some.injEq, eq_comm (a := w)]

/-- An instruction is appended as its units where it fits. -/
theorem append_eq_some {ins : Instruction} {vec m : List Cell} :
    ins.append vec = some m ↔ ins.Fits ∧ m = vec ++ ins.units := by
  simp only [Instruction.append, appendBytecode, bind_eq_bind, bind_eq_some_iff,
    ite_none_left_eq_some, some.injEq, asIndex_eq_some]
  constructor
  · rintro ⟨_, ⟨hnorm, rfl⟩, _, ⟨hwith, rfl⟩, htotal, rfl⟩
    exact ⟨⟨hnorm, hwith, Nat.not_lt.1 htotal⟩, rfl⟩
  · rintro ⟨hfits, rfl⟩
    exact ⟨_, ⟨hfits.norm, rfl⟩, _, ⟨hfits.withs, rfl⟩, Nat.not_lt.2 hfits.total, rfl⟩

theorem appendAll_eq_some {instructions : List Instruction} {vec m : List Cell} :
    appendAll vec instructions = some m ↔
      (∀ ins ∈ instructions, ins.Fits) ∧ m = vec ++ instructions.flatMap Instruction.units := by
  induction instructions generalizing vec with
  | nil =>
    rw [flatMap_nil, append_nil, eq_comm (a := m)]
    exact ⟨fun h => ⟨nofun, some.inj h⟩, fun h => congrArg some h.2⟩
  | cons ins rest ih =>
    have hstep : appendAll vec (ins :: rest) = ins.append vec >>= (appendAll · rest) :=
      foldlM_cons
    rw [hstep, bind_eq_bind, bind_eq_some_iff, forall_mem_cons,
      flatMap_cons]
    constructor
    · rintro ⟨middle, hins, hrest⟩
      obtain ⟨hfits, rfl⟩ := append_eq_some.1 hins
      obtain ⟨hall, rfl⟩ := ih.1 hrest
      exact ⟨⟨hfits, hall⟩, append_assoc _ _ _⟩
    · rintro ⟨⟨hfits, hall⟩, rfl⟩
      exact ⟨_, append_eq_some.2 ⟨hfits, rfl⟩, ih.2 ⟨hall, (append_assoc _ _ _).symm⟩⟩

theorem decodes_blocks (instructions : List Instruction) (hfits : ∀ ins ∈ instructions, ins.Fits)
    (pre : List Cell) (pc : Nat) (hpre : pre.length = 4 * pc) :
    Decodes (pre ++ instructions.flatMap Instruction.units) pc instructions := by
  induction instructions generalizing pre pc with
  | nil => rw [flatMap_nil, append_nil]; exact hpre
  | cons ins rest ih =>
    have hlength := ins.length_units
    rw [flatMap_cons]
    constructor
    · refine readsBack_placed (fun j hj => ?_) (hfits ins mem_cons_self)
      rw [← hpre, getElem?_append_right (by omega), Nat.add_sub_cancel_left,
        getElem?_append_left (by omega)]
    · rw [← append_assoc]
      exact ih (fun i hi => hfits i (.tail _ hi)) _ _
        (by rw [length_append, hpre, hlength]; omega)

/-- Appends are refused where an instruction does not fit, and only there. What they build decodes
    to the instructions that were appended. -/
theorem appendAll_decodes (instructions : List Instruction) :
    ((appendAll [] instructions).isSome = true ↔ ∀ ins ∈ instructions, ins.Fits) ∧
      ∀ m, appendAll [] instructions = some m → Decodes m 0 instructions := by
  constructor
  · rw [isSome_iff_exists]
    exact ⟨fun ⟨m, hm⟩ => (appendAll_eq_some.1 hm).1, fun h => ⟨_, appendAll_eq_some.2 ⟨h, rfl⟩⟩⟩
  · intro m hm
    obtain ⟨hfits, rfl⟩ := appendAll_eq_some.1 hm
    exact decodes_blocks instructions hfits [] 0 rfl

/-- A call with more arguments than its size can count is refused. -/
theorem append_refuses :
    appendAll [] [⟨.call, 0, [], List.replicate 262137 0, [], 0⟩] = none := by
  rw [← not_isSome_iff_eq_none, isSome_iff_exists]
  rintro ⟨m, hm⟩
  have hfits := ((appendAll_eq_some.1 hm).1 _ mem_cons_self).total
  have htotal : ∀ operands : List (BitVec 32), operands.length = 262137 →
      Instruction.total ⟨.call, 0, [], operands, [], 0⟩ = 65536 := by
    intro operands hlength
    simp [Instruction.total, operandUnits, roundUp16, extraUnits, extraWordCount, hlength]
  rw [htotal _ (length_replicate ..)] at hfits
  omega

end Camel.FastVM.Units
