import Mathlib

/-! # Array values and the blocks they read

    An array value (`core/rtdata/array.cpp`) keeps its elements in slots of its
    own, inline in the array object, or in a counted block that several array
    values may read.  `writableInPlace` answers whether an update may write the
    storage, and `shareForSecondName` hands a value to a second name.

    * The objects of a state are the blocks and the arrays made so far, each
      named by its position; an array whose finalizer has run is `none`.
    * Elements are values of one type; the byte sizes decide only between inline
      data and a block.  Arrays have one dimension.
    * A name holds an array; an update rebinds the name it goes through to the
      array it returns. -/

namespace Camel.ArrayStore

/-! ## Objects -/

structure Block (α : Type) where
  data : List α
  refCount : Nat
  camelOwned : Bool
deriving DecidableEq

def Block.unique {α : Type} (b : Block α) : Bool := b.refCount == 1

inductive Storage where
  | slots
  | compact
deriving DecidableEq

structure Array (α : Type) where
  storage : Storage
  /-- An array made before its type is known has no element type. -/
  hasElemType : Bool
  elementSize : Nat
  block : Option Nat
  /-- Byte offset of the first element in the block. -/
  offset : Nat
  view : Bool
  numel : Nat
  capacity : Nat
  /-- The slots, or the inline data. -/
  own : List α
deriving DecidableEq

def Array.byteSize {α : Type} (a : Array α) : Nat := a.numel * a.elementSize

structure State (α : Type) where
  blocks : List (Block α)
  arrays : List (Option (Array α))
  names : List (Option Nat)
deriving DecidableEq

def kInlineBlockBytes : Nat := 256
def kInlineSlots : Nat := 10

section ops
variable {α : Type} [Inhabited α]

def State.init : State α := { blocks := [], arrays := [], names := [] }

variable (st : State α) (x : Nat) (a : Array α)

def State.array? : Option (Array α) := (st.arrays[x]?).join

def State.setArray : State α :=
  { st with arrays := st.arrays.set x (some a) }

def State.addArray : State α × Nat :=
  ({ st with arrays := st.arrays ++ [some a] }, st.arrays.length)

/-- `Block::create`: the new block has its creator's reference. -/
def State.addBlock (data : List α) (camelOwned : Bool) : State α × Nat :=
  ({ st with blocks := st.blocks ++ [{ data := data, refCount := 1, camelOwned := camelOwned }] },
    st.blocks.length)

def State.updateBlock (b : Nat) (f : Block α → Block α) : State α :=
  { st with blocks := st.blocks.modify b f }

def State.retain (b : Nat) : State α :=
  st.updateBlock b fun blk => { blk with refCount := blk.refCount + 1 }

def State.release (b : Nat) : State α :=
  st.updateBlock b fun blk => { blk with refCount := blk.refCount - 1 }

/-- The elements an array shows. -/
def State.elements : List α :=
  match a.block with
  | none => a.own.take a.numel
  | some b => (((st.blocks[b]?).elim [] Block.data).drop (a.offset / a.elementSize)).take a.numel

/-- What a name reads. -/
def State.read (n : Nat) : Option (List α) :=
  ((st.names[n]?).join.bind st.array?).map st.elements

/-! ## Creation -/

/-- `createCompact` with no block: inline when the data fits, a fresh block
    otherwise. -/
def State.createCompact (elementSize : Nat) (data : List α) : State α × Nat :=
  if data.length * elementSize ≤ kInlineBlockBytes then
    st.addArray
      { storage := .compact, hasElemType := true, elementSize := elementSize, block := none,
        offset := 0, view := false, numel := data.length, capacity := data.length, own := data }
  else
    let (st, b) := st.addBlock data true
    st.addArray
      { storage := .compact, hasElemType := true, elementSize := elementSize, block := some b,
        offset := 0, view := false, numel := data.length, capacity := data.length, own := [] }

/-- `createCompact` over a block, which takes one more reference to it. -/
def State.createOver (elementSize numel b byteOffset : Nat) (view : Bool) :
    State α × Nat :=
  let blockElems := ((st.blocks[b]?).elim [] Block.data).length
  (st.retain b).addArray
    { storage := .compact, hasElemType := true, elementSize := elementSize, block := some b,
      offset := byteOffset, view := view, numel := numel,
      capacity := if view then numel else blockElems, own := [] }

/-- `createSlotsRank`, filled. -/
def State.createSlots (hasElemType : Bool) (data : List α) (capacity : Nat) :
    State α × Nat :=
  st.addArray
    { storage := .slots, hasElemType := hasElemType, elementSize := 8, block := none,
      offset := 0, view := false, numel := data.length, capacity := max capacity kInlineSlots,
      own := data }

def State.clone : State α × Nat :=
  match a.storage with
  | .compact => st.createCompact a.elementSize (st.elements a)
  | .slots => st.createSlots true (st.elements a) a.capacity

/-- The elements of an array in a new one with room for `extra` more: an empty
    array that is reserved the room, and so has a block, and then filled. -/
def State.copyWithRoom (extra : Nat) : State α × Nat :=
  let data := st.elements a
  match a.storage with
  | .compact =>
    let (st, b) := st.addBlock (data ++ List.replicate extra default) true
    st.addArray
      { storage := .compact, hasElemType := true, elementSize := a.elementSize, block := some b,
        offset := 0, view := false, numel := data.length, capacity := data.length + extra,
        own := [] }
  | .slots => st.createSlots true data (data.length + extra)

/-- Inline data moves into a block, which gives views a stable address. -/
def State.ensureBlock : State α × Array α :=
  if a.storage = .slots ∨ a.block.isSome then (st, a)
  else
    let (st, b) := st.addBlock (st.elements a) true
    let a := { a with block := some b, offset := 0, capacity := a.numel, own := [] }
    (st.setArray x a, a)

/-- A view of `len` elements of a compact array, from element `start` on. -/
def State.view (len start : Nat) : Option (State α × Nat) := do
  let a ← st.array? x
  if a.storage = .slots then none
  else if start > a.numel ∨ len > a.numel - start then none
  else
    let (st, a) := st.ensureBlock x a
    let b ← a.block
    some (st.createOver a.elementSize len b (a.offset + start * a.elementSize) true)

/-! ## Sharing and writing -/

/-- The storage is this value's alone. -/
def State.writableInPlace : Bool :=
  if a.view || a.offset != 0 then false
  else
    match a.storage, a.block with
    | .slots, _ => true
    | .compact, none => true
    | .compact, some b => (st.blocks[b]?).any fun blk => blk.unique && blk.camelOwned

/-- A second name for the array: the array itself, or a value of its own. -/
def State.shareForSecondName : State α × Nat :=
  if a.view || a.offset != 0 then (st, x)
  else
    match a.storage, a.block with
    | .slots, _ => if a.hasElemType then st.clone a else (st, x)
    | .compact, none => st.createCompact a.elementSize (st.elements a)
    | .compact, some b =>
      match st.blocks[b]? with
      | none => (st, x)
      | some blk =>
        if !blk.camelOwned then (st, x)
        else if !blk.unique then (st, x)
        else st.createOver a.elementSize a.numel b a.offset false

/-- The element at `i`, written into the storage the array reads. -/
def State.setSlot (i : Nat) (v : α) : State α :=
  match a.block with
  | none => st.setArray x { a with own := a.own.set i v }
  | some b => st.updateBlock b fun blk =>
      { blk with data := blk.data.set (a.offset / a.elementSize + i) v }

def State.reallocateSlots (newCapacity : Nat) :
    State α × Array α :=
  let a := { a with capacity := max newCapacity kInlineSlots }
  (st.setArray x a, a)

/-- Room for `newCapacity` elements: in the block when it is this value's alone,
    in a new one otherwise. -/
def State.growCompact (newCapacity : Nat) :
    State α × Array α :=
  let room : List α → List α := fun data =>
    data ++ List.replicate (newCapacity - data.length) default
  match a.block with
  | none =>
    let (st, b) := st.addBlock (room (st.elements a)) true
    let a := { a with block := some b, offset := 0, capacity := newCapacity, own := [] }
    (st.setArray x a, a)
  | some b =>
    if (st.blocks[b]?).any Block.unique && a.offset == 0 && !a.view then
      let a := { a with capacity := newCapacity }
      ((st.updateBlock b fun blk => { blk with data := room blk.data }).setArray x a, a)
    else
      let (st, b') := st.addBlock (room (st.elements a)) true
      let a := { a with block := some b', offset := 0, capacity := newCapacity, view := false }
      ((st.release b).setArray x a, a)

/-- The element after the last, which the array has room for. -/
def State.storeNext (v : α) : State α :=
  match a.block with
  | none => st.setArray x { a with numel := a.numel + 1, own := a.own.take a.numel ++ [v] }
  | some b =>
    (st.updateBlock b fun blk =>
      { blk with data := blk.data.set (a.offset / a.elementSize + a.numel) v }).setArray x
        { a with numel := a.numel + 1 }

def State.appendSlot (v : α) : State α :=
  if a.numel ≥ a.capacity then
    match a.storage with
    | .slots =>
      let (st, a) := st.reallocateSlots x a (a.capacity * 3 / 2 + 1)
      st.storeNext x a v
    | .compact =>
      let (st, a) := st.growCompact x a (a.capacity * 3 / 2 + 1)
      st.storeNext x a v
  else st.storeNext x a v

/-- `finalize`: the array gives up its block reference. -/
def State.finalize : State α :=
  let st := { st with arrays := st.arrays.set x none }
  match a.block with
  | none => st
  | some b => st.release b

/-! ## Operations on names -/

inductive Op (α : Type) where
  /-- A new array under a new name. -/
  | create (storage : Storage) (hasElemType : Bool) (elementSize : Nat) (data : List α)
  /-- An array over an imported block. -/
  | wrap (elementSize : Nat) (data : List α)
  | view (n len start : Nat)
  /-- A second name for what `n` names. -/
  | share (n : Nat)
  | write (n i : Nat) (v : α)
  | append (n : Nat) (v : α)
  /-- The name is gone. -/
  | drop (n : Nat)
  /-- The collector finalizes an array no name holds. -/
  | die (x : Nat)

def State.addName (r : State α × Nat) : State α :=
  { r.1 with names := r.1.names ++ [some r.2] }

def State.rebind (r : State α × Nat) (n : Nat) : State α :=
  { r.1 with names := r.1.names.set n (some r.2) }

/-- The array a name holds. -/
def State.held (n : Nat) : Option (Nat × Array α) := do
  let x ← (st.names[n]?).join
  let a ← st.array? x
  some (x, a)

/-- `:op/set_index_in_place`. -/
def State.setIndexInPlace (i : Nat) (v : α) :
    State α × Nat :=
  if st.writableInPlace a then (st.setSlot x a i v, x)
  else
    let (st', y) := st.clone a
    match st'.array? y with
    | none => (st', y)
    | some copy => (st'.setSlot y copy i v, y)

/-- The in-place form of `append`. -/
def State.appendInPlace (v : α) : State α × Nat :=
  if st.writableInPlace a then (st.appendSlot x a v, x)
  else
    let (st', y) := st.copyWithRoom a 1
    match st'.array? y with
    | none => (st', y)
    | some copy => (st'.appendSlot y copy v, y)

/-- One operation; `none` when it is not one the program can make. -/
def State.step : Op α → Option (State α)
  | .create .compact hasElemType elementSize data =>
    if hasElemType then some (State.addName (st.createCompact elementSize data)) else none
  | .create .slots hasElemType _ data =>
    some (State.addName (st.createSlots hasElemType data data.length))
  | .wrap elementSize data =>
    let (st, b) := st.addBlock data false
    -- the array retains the block, the importer gives its own reference up
    some (State.addName
      (let (st, x) := st.createOver elementSize data.length b 0 false
       (st.release b, x)))
  | .view n len start => do
    let (x, _) ← st.held n
    let r ← st.view x len start
    some (State.addName r)
  | .share n => do
    let (x, a) ← st.held n
    some (State.addName (st.shareForSecondName x a))
  | .write n i v => do
    let (x, a) ← st.held n
    if i < a.numel then some (State.rebind (st.setIndexInPlace x a i v) n) else none
  | .append n v => do
    let (x, a) ← st.held n
    some (State.rebind (st.appendInPlace x a v) n)
  | .drop n => if n < st.names.length then some { st with names := st.names.set n none } else none
  | .die x =>
    match st.array? x with
    | none => none
    | some a => if some x ∈ st.names then none else some (st.finalize x a)

end ops

end Camel.ArrayStore

/-! # The Extents of an Array

    An array is as large as the product of its extents. `checkedNumel` forms that
    product in 64 bits and refuses the extents whose product does not fit, by
    dividing each product by the extent it was just multiplied with.
-/

namespace Camel.Extents

/-- The loop of `checkedNumel`, from the product of the extents before. -/
def checkedNumelFrom (total : UInt64) : List Int64 → Except String UInt64
  | [] => .ok total
  | extent :: rest =>
    if extent < 0 then
      .error "Array shape cannot contain negative extents"
    else if extent ≠ 0 ∧ total * extent.toUInt64 / extent.toUInt64 ≠ total then
      .error "Array shape is too large"
    else
      checkedNumelFrom (total * extent.toUInt64) rest

def checkedNumel (extents : List Int64) : Except String UInt64 := checkedNumelFrom 1 extents

/-- `fillStrides`: row-major strides, in elements. -/
def fillStrides : List Int64 → List Int64
  | [] => []
  | [_] => [1]
  | _ :: e :: es => ((fillStrides (e :: es)).headD 1 * e) :: fillStrides (e :: es)

/-- The number of elements the extents ask for. -/
def numel (extents : List Int64) : Nat := (extents.map fun e => e.toInt.toNat).prod

@[simp] theorem numel_nil : numel [] = 1 := rfl

@[simp] theorem numel_cons (e : Int64) (es : List Int64) :
    numel (e :: es) = e.toInt.toNat * numel es := by
  simp [numel]

/-- No extent is below zero. -/
def NonNeg (extents : List Int64) : Prop := ∀ e ∈ extents, 0 ≤ e.toInt

/-! ## The Checked Product -/

variable {e : Int64}

theorem toNat_toUInt64 (h : ¬ e < 0) : e.toUInt64.toNat = e.toInt.toNat := by
  have hle : (0 : Int64) ≤ e := Int64.not_lt.mp h
  rw [Int64.toNat_toUInt64_of_le hle, Int64.toNat_toInt]

theorem not_lt_zero_iff : ¬ e < 0 ↔ 0 ≤ e.toInt := by
  rw [Int64.lt_iff_toInt_lt, Int64.toInt_zero]
  omega

theorem toUInt64_ne_zero (he : e ≠ 0) : e.toUInt64 ≠ 0 := by
  intro h0
  apply he
  simpa using congrArg UInt64.toInt64 h0

/-- A product that survives the division by its last factor did not wrap. -/
theorem mul_of_div_eq {t e : UInt64} (h : t * e / e = t) :
    (t * e).toNat = t.toNat * e.toNat := by
  have hdiv : (t.toNat * e.toNat) % 2 ^ 64 / e.toNat = t.toNat := by
    have h2 := congrArg UInt64.toNat h
    rwa [UInt64.toNat_div, UInt64.toNat_mul] at h2
  have hle : t.toNat * e.toNat ≤ (t.toNat * e.toNat) % 2 ^ 64 := by
    conv_lhs => rw [← hdiv]
    exact Nat.div_mul_le_self _ _
  have hlt : t.toNat * e.toNat < 2 ^ 64 := lt_of_le_of_lt hle (Nat.mod_lt _ (by norm_num))
  rw [UInt64.toNat_mul, Nat.mod_eq_of_lt hlt]

/-- An extent that is not refused is multiplied exactly. -/
theorem mul_of_accepted {total : UInt64} (hneg : ¬ e < 0)
    (h : ¬ (e ≠ 0 ∧ total * e.toUInt64 / e.toUInt64 ≠ total)) :
    (total * e.toUInt64).toNat = total.toNat * e.toInt.toNat := by
  by_cases he : e = 0
  · subst he
    have hzero : (Int64.toUInt64 0).toNat = 0 := rfl
    simp [hzero]
  · have hdiv : total * e.toUInt64 / e.toUInt64 = total := by
      by_contra hne
      exact h ⟨he, hne⟩
    rw [mul_of_div_eq hdiv, toNat_toUInt64 hneg]

variable {extents : List Int64}

theorem checkedNumelFrom_ok :
    ∀ {total n : UInt64}, checkedNumelFrom total extents = .ok n →
      NonNeg extents ∧ n.toNat = total.toNat * numel extents := by
  induction extents with
  | nil =>
    intro total n h
    cases h
    exact ⟨by simp [NonNeg], by simp⟩
  | cons e rest ih =>
    intro total n h
    unfold checkedNumelFrom at h
    by_cases hneg : e < 0
    · rw [if_pos hneg] at h
      cases h
    rw [if_neg hneg] at h
    by_cases hlarge : e ≠ 0 ∧ total * e.toUInt64 / e.toUInt64 ≠ total
    · rw [if_pos hlarge] at h
      cases h
    rw [if_neg hlarge] at h
    obtain ⟨hrest, hn⟩ := ih h
    have hmul := mul_of_accepted hneg hlarge
    refine ⟨?_, ?_⟩
    · intro x hx
      rcases List.mem_cons.mp hx with rfl | hx
      · exact not_lt_zero_iff.1 hneg
      · exact hrest x hx
    · rw [hn, hmul, numel_cons, mul_assoc]

/-- Extents that are not refused give their exact product. -/
theorem checkedNumel_ok {n : UInt64} (h : checkedNumel extents = .ok n) :
    NonNeg extents ∧ n.toNat = numel extents := by
  obtain ⟨hpos, hn⟩ := checkedNumelFrom_ok h
  exact ⟨hpos, by simpa using hn⟩

/-- One extent is refused only below zero. -/
theorem checkedNumel_single (e : Int64) :
    checkedNumel [e] =
      if e < 0 then .error "Array shape cannot contain negative extents" else .ok e.toUInt64 := by
  by_cases hneg : e < 0
  · simp [checkedNumel, checkedNumelFrom, hneg]
  · by_cases he : e = 0
    · subst he
      simp [checkedNumel, checkedNumelFrom]
    · have hdiv : e.toUInt64 / e.toUInt64 = 1 := by
        apply UInt64.toNat_inj.mp
        rw [UInt64.toNat_div]
        have hpos : 0 < e.toUInt64.toNat := by
          apply pos_of_ne_zero
          intro h0
          exact toUInt64_ne_zero he (UInt64.toNat_inj.mp (by simpa using h0))
        simpa using Nat.div_self hpos
      simp [checkedNumel, checkedNumelFrom, hneg, hdiv]

/-- Every product formed on the way fits 64 bits. -/
def Counted : Nat → List Int64 → Prop
  | _, [] => True
  | total, e :: es =>
    0 ≤ e.toInt ∧ total * e.toInt.toNat < 2 ^ 64 ∧ Counted (total * e.toInt.toNat) es

theorem checkedNumelFrom_ok_iff :
    ∀ {total : UInt64}, (∃ n, checkedNumelFrom total extents = .ok n) ↔
      Counted total.toNat extents := by
  induction extents with
  | nil =>
    intro total
    exact ⟨fun _ => trivial, fun _ => ⟨total, rfl⟩⟩
  | cons e es ih =>
    intro total
    unfold checkedNumelFrom Counted
    by_cases hneg : e < 0
    · rw [if_pos hneg]
      have hpos : ¬ 0 ≤ e.toInt := fun h => not_lt_zero_iff.2 h hneg
      exact ⟨by rintro ⟨n, ⟨⟩⟩, fun h => absurd h.1 hpos⟩
    have hnat := toNat_toUInt64 hneg
    rw [if_neg hneg]
    by_cases hlarge : e ≠ 0 ∧ total * e.toUInt64 / e.toUInt64 ≠ total
    · rw [if_pos hlarge]
      refine ⟨by rintro ⟨n, ⟨⟩⟩, ?_⟩
      rintro ⟨-, hlt, -⟩
      -- a product that fits is divided back
      exfalso
      apply hlarge.2
      apply UInt64.toNat_inj.mp
      have hpos : 0 < e.toInt.toNat := by
        rw [← hnat]
        apply pos_of_ne_zero
        intro h0
        exact toUInt64_ne_zero hlarge.1 (UInt64.toNat_inj.mp (by simpa using h0))
      rw [UInt64.toNat_div, UInt64.toNat_mul, hnat, Nat.mod_eq_of_lt hlt,
        Nat.mul_div_cancel _ hpos]
    · rw [if_neg hlarge, ih]
      have hmul := mul_of_accepted hneg hlarge
      have hlt : total.toNat * e.toInt.toNat < 2 ^ 64 := by
        rw [← hmul]
        exact (total * e.toUInt64).toNat_lt
      rw [hmul]
      exact ⟨fun h => ⟨not_lt_zero_iff.1 hneg, hlt, h⟩, fun h => h.2.2⟩

theorem checkedNumel_ok_iff :
    (∃ n, checkedNumel extents = .ok n) ↔ Counted 1 extents :=
  checkedNumelFrom_ok_iff

theorem Counted.mono {small large : Nat} (hle : small ≤ large)
    (h : Counted large extents) : Counted small extents := by
  induction extents generalizing small large with
  | nil => trivial
  | cons e es ih =>
    obtain ⟨hpos, hlt, hrest⟩ := h
    have hmul : small * e.toInt.toNat ≤ large * e.toInt.toNat := Nat.mul_le_mul_right _ hle
    exact ⟨hpos, lt_of_le_of_lt hmul hlt, ih hmul hrest⟩

/-- The extents behind a first one that is not zero are accepted with it. -/
theorem checkedNumel_tail {es : List Int64} (hpos : 0 < e.toInt)
    (h : ∃ n, checkedNumel (e :: es) = .ok n) : ∃ n, checkedNumel es = .ok n := by
  rw [checkedNumel_ok_iff] at h ⊢
  apply h.2.2.mono
  omega

/-! ## The First Stride -/

/-- The stride of the first dimension is the product of the others, in 64 bits. -/
theorem toNat_fillStrides_head (h : NonNeg extents) (e : Int64) :
    ((fillStrides (e :: extents)).headD 0).toUInt64.toNat = numel extents % 2 ^ 64 := by
  induction extents generalizing e with
  | nil => rfl
  | cons d es ih =>
    have hd : 0 ≤ d.toInt := h d List.mem_cons_self
    have hes : NonNeg es := fun x hx => h x (List.mem_cons_of_mem _ hx)
    have hne : (fillStrides (d :: es)).headD 1 = (fillStrides (d :: es)).headD 0 := by
      cases es <;> rfl
    rw [fillStrides, List.headD_cons, hne, Int64.toUInt64_mul, UInt64.toNat_mul, ih hes d,
      toNat_toUInt64 (not_lt_zero_iff.2 hd), numel_cons, Nat.mod_mul_mod, mul_comm]

end Camel.Extents
