import Camel.Array.Storage

/-! # The Storage of a Compact Array

    A compact array computes its element count, its bytes, its capacity and its strides
    from its extents. Only the count is checked. The bytes lie behind the array object
    when they are few, and in a block otherwise; a view shares the block of its source.
    What the memory spaces answer is a parameter.
-/

namespace Camel.Compact

open Extents

def kInlineBlockBytes : UInt64 := 256

def kBlockAlignment : UInt64 := 64

/-- Why an array is not created. -/
inductive Refusal where
  | invalidArgument (what : String)
  | badAlloc
  | memoryExhausted
  deriving DecidableEq

/-- What the memory spaces answer to a request. -/
structure Spaces where
  /-- the heap has room for an array object of this rank with these bytes behind it -/
  object : Nat → UInt64 → Bool
  /-- `checkBlockBytes`: a block of this many bytes keeps the limit of the heap -/
  withinLimit : UInt64 → Bool
  /-- the block space: the address of this many bytes -/
  blocks : UInt64 → Option UInt64

/-! ## Blocks -/

structure Block where
  bytes : UInt64
  /-- the bytes there are from `data()` on -/
  room : Nat

/-- `alignUp`; the mask clears the low bits. -/
def alignUp (address : UInt64) : UInt64 :=
  (address + (kBlockAlignment - 1)) / kBlockAlignment * kBlockAlignment

/-- `Block::create` -/
def Block.create (spaces : Spaces) (bytes : UInt64) : Except Refusal Block :=
  let usable := max bytes 1
  let blockLen := usable + kBlockAlignment
  if spaces.withinLimit bytes then
    match spaces.blocks blockLen with
    | none => .error .memoryExhausted
    | some address =>
      .ok { bytes := bytes, room := blockLen.toNat - (alignUp address - address).toNat }
  else .error .memoryExhausted

/-! ## Compact Arrays -/

structure Array where
  extents : List Int64
  strides : List Int64
  numel : UInt64
  /-- the size of the layout of the element type -/
  layoutSize : UInt64
  elementSize : UInt32
  capacity : UInt64
  block : Option Block
  offset : UInt64
  /-- the bytes behind the array object -/
  inlineBytes : UInt64
  view : Bool

namespace Array

/-- `createCompact`; `block`: the block it reads, none for an array of its own. -/
def createCompact (spaces : Spaces) (extents : List Int64) (elemSize : UInt64)
    (block : Option Block) (byteOffset : UInt64) (view : Bool) : Except Refusal Array :=
  match checkedNumel extents with
  | .error what => .error (.invalidArgument what)
  | .ok numel =>
    let bytes := numel * elemSize
    let inlineData := block.isNone && decide (bytes ≤ kInlineBlockBytes)
    let inlineBytes := if inlineData then bytes else 0
    let array : Array :=
      { extents := extents, strides := fillStrides extents, numel := numel,
        layoutSize := elemSize, elementSize := elemSize.toUInt32, capacity := numel,
        block := none, offset := 0, inlineBytes := inlineBytes, view := view }
    if spaces.object extents.length inlineBytes then
      match block with
      | some b =>
        .ok { array with
              block := some b
              offset := byteOffset
              capacity := if view then numel else if elemSize = 0 then 0 else b.bytes / elemSize }
      | none =>
        if inlineData then .ok array
        else do
          let created ← Block.create spaces bytes
          return { array with block := some created }
    else .error .badAlloc

def byteSize (a : Array) : UInt64 := a.numel * a.elementSize.toUInt64

/-- `ensureBlock` -/
def ensureBlock (spaces : Spaces) (a : Array) : Except Refusal (Block × UInt64) :=
  match a.block with
  | some b => .ok (b, a.offset)
  | none => do
    let created ← Block.create spaces a.byteSize
    return (created, 0)

/-- `Array::view` -/
def viewOf (spaces : Spaces) (source : Array) (extents : List Int64) (elementOffset : UInt64) :
    Except Refusal Array :=
  match checkedNumel extents with
  | .error what => .error (.invalidArgument what)
  | .ok elements =>
    if source.numel < elementOffset ∨ source.numel - elementOffset < elements then
      .error (.invalidArgument "Array view must stay within its source")
    else do
      let (block, offset) ← ensureBlock spaces source
      let byteOffset := offset + elementOffset * source.elementSize.toUInt64
      createCompact spaces extents source.layoutSize (some block) byteOffset true

/-- The bytes there are from where the storage of the array starts. -/
def storage (a : Array) : Nat :=
  match a.block with
  | some b => b.room
  | none => a.inlineBytes.toNat

/-- `elementPtr`: where an element starts in the storage. -/
def elementPtr (a : Array) (flatIndex : UInt64) : UInt64 :=
  a.offset + flatIndex * a.elementSize.toUInt64

/-- Every element below the count has its bytes inside the storage. -/
def Addressed (a : Array) : Prop :=
  ∀ i < a.numel, (a.elementPtr i).toNat + a.layoutSize.toNat ≤ a.storage

end Array

/-- The strides there should be. -/
def strideNumbers : List Int64 → List Nat
  | [] => []
  | _ :: es => numel es :: strideNumbers es

/-- The array of these extents, with all its storage. -/
structure Exact (extents : List Int64) (elemSize : UInt64) (a : Array) : Prop where
  numel_eq : a.numel.toNat = numel extents
  strides_eq : a.strides.map Int64.toInt = (strideNumbers extents).map fun n : Nat => (n : Int)
  holds : numel extents * elemSize.toNat ≤ a.storage
  addressed : a.Addressed
  views : ∀ (spaces : Spaces) (viewExtents : List Int64) (elementOffset : UInt64) (v : Array),
    a.viewOf spaces viewExtents elementOffset = .ok v → v.Addressed

/-! ## Strides -/

/-- Every stride fits 64 bits. -/
def StridesFit : List Int64 → Prop
  | [] => True
  | _ :: es => numel es < 2 ^ 63 ∧ StridesFit es

theorem toInt_of_toUInt64 {x : Int64} {n : Nat} (h : x.toUInt64.toNat = n % 2 ^ 64) :
    x.toInt = n ↔ n < 2 ^ 63 := by
  have hlt := Int64.toInt_lt x
  have hlow := Int64.le_toInt x
  constructor
  · intro hx
    omega
  · intro hn
    have hx : x.toUInt64.toNat = n := by omega
    have hval : x.toInt = Int.bmod n (2 ^ 64) := by
      rw [← hx]
      exact (BitVec.toInt_eq_toNat_bmod x.toBitVec)
    rw [hval, Int.bmod_def]
    omega

theorem strides_eq_iff {extents : List Int64} (h : NonNeg extents) :
    (fillStrides extents).map Int64.toInt =
        (strideNumbers extents).map (fun n : Nat => (n : Int)) ↔ StridesFit extents := by
  induction extents with
  | nil => exact ⟨fun _ => trivial, fun _ => rfl⟩
  | cons e es ih =>
    have hes : NonNeg es := fun x hx => h x (List.mem_cons_of_mem _ hx)
    have hhead := toNat_fillStrides_head hes e
    have hsplit : fillStrides (e :: es) = (fillStrides (e :: es)).headD 0 :: fillStrides es := by
      cases es <;> rfl
    rw [hsplit, List.map_cons, strideNumbers, List.map_cons, List.cons.injEq, ih hes, StridesFit]
    generalize (fillStrides (e :: es)).headD 0 = stride at hhead
    rw [toInt_of_toUInt64 hhead]

/-! ## What Is Allocated -/

theorem alignUp_lt (address : UInt64) : (alignUp address - address).toNat < 64 := by
  have halign : kBlockAlignment = 64 := rfl
  have h63 : ((64 : UInt64) - 1) = 63 := rfl
  have hlt := address.toNat_lt
  unfold alignUp
  rw [halign, h63, UInt64.toNat_sub, UInt64.toNat_mul, UInt64.toNat_div, UInt64.toNat_add]
  simp only [UInt64.reduceToNat]
  omega

theorem toNat_blockLen (bytes : UInt64) :
    (max bytes 1 + kBlockAlignment).toNat = (max bytes.toNat 1 + 64) % 2 ^ 64 := by
  have halign : kBlockAlignment = 64 := rfl
  have hmax : (max bytes 1).toNat = max bytes.toNat 1 := by
    show (if bytes ≤ 1 then (1 : UInt64) else bytes).toNat = max bytes.toNat 1
    by_cases h : bytes ≤ 1
    · have hnat : bytes.toNat ≤ 1 := UInt64.le_iff_toNat_le.mp h
      rw [if_pos h, max_eq_right hnat]
      rfl
    · have hnat : ¬ bytes.toNat ≤ 1 := fun hle => h (UInt64.le_iff_toNat_le.mpr hle)
      rw [if_neg h, max_eq_left (by omega)]
  rw [halign, UInt64.toNat_add, hmax]
  rfl

variable {spaces : Spaces} {bytes : UInt64} {b : Block}

/-- A block has the room it was made for, unless the length of its memory wrapped. -/
theorem Block.create_room (h : Block.create spaces bytes = .ok b) :
    (bytes.toNat < 2 ^ 64 - 64 → bytes.toNat ≤ b.room ∧ b.room ≤ bytes.toNat + 65) ∧
      (2 ^ 64 - 64 ≤ bytes.toNat → b.room < bytes.toNat) := by
  unfold Block.create at h
  by_cases hlimit : spaces.withinLimit bytes
  · simp only [if_pos hlimit] at h
    cases haddress : spaces.blocks (max bytes 1 + kBlockAlignment) with
    | none =>
      rw [haddress] at h
      cases h
    | some address =>
      rw [haddress] at h
      cases h
      have hpad := alignUp_lt address
      have hlen := toNat_blockLen bytes
      have hlt := bytes.toNat_lt
      show (bytes.toNat < 2 ^ 64 - 64 → bytes.toNat ≤
            (max bytes 1 + kBlockAlignment).toNat - (alignUp address - address).toNat ∧
          (max bytes 1 + kBlockAlignment).toNat - (alignUp address - address).toNat ≤
            bytes.toNat + 65) ∧
        (2 ^ 64 - 64 ≤ bytes.toNat →
          (max bytes 1 + kBlockAlignment).toNat - (alignUp address - address).toNat <
            bytes.toNat)
      rw [hlen]
      omega
  · simp only [if_neg hlimit] at h
    cases h

namespace Array

variable {a : Array} {extents : List Int64} {elemSize : UInt64}

/-- An array of its own, by what it was created from. -/
structure Fresh (spaces : Spaces) (extents : List Int64) (elemSize : UInt64) (a : Array) : Prop where
  counted : checkedNumel extents = .ok a.numel
  strides_eq : a.strides = fillStrides extents
  layoutSize_eq : a.layoutSize = elemSize
  elementSize_eq : a.elementSize = elemSize.toUInt32
  offset_eq : a.offset = 0
  stored : (a.block = none ∧ a.inlineBytes = a.numel * elemSize ∧
      a.numel * elemSize ≤ kInlineBlockBytes) ∨
    (∃ b, a.block = some b ∧ kInlineBlockBytes < a.numel * elemSize ∧
      Block.create spaces (a.numel * elemSize) = .ok b)

theorem fresh_of_create {view : Bool}
    (h : createCompact spaces extents elemSize none 0 view = .ok a) :
    Fresh spaces extents elemSize a := by
  unfold createCompact at h
  cases hn : checkedNumel extents with
  | error what =>
    rw [hn] at h
    cases h
  | ok n =>
    rw [hn] at h
    simp only [Option.isNone_none, Bool.true_and, decide_eq_true_eq] at h
    by_cases hobject : spaces.object extents.length
        (if n * elemSize ≤ kInlineBlockBytes then n * elemSize else 0)
    · rw [if_pos hobject] at h
      by_cases hsmall : n * elemSize ≤ kInlineBlockBytes
      · rw [if_pos hsmall] at h
        cases h
        exact ⟨hn, rfl, rfl, rfl, rfl, .inl ⟨rfl, if_pos hsmall, hsmall⟩⟩
      · rw [if_neg hsmall] at h
        cases hb : Block.create spaces (n * elemSize) with
        | error refusal =>
          rw [hb] at h
          cases h
        | ok b =>
          rw [hb] at h
          cases h
          exact ⟨hn, rfl, rfl, rfl, rfl, .inr ⟨b, rfl, UInt64.not_le.mp hsmall, hb⟩⟩
    · rw [if_neg hobject] at h
      cases h

/-- Elements that lie behind one another from the offset on. -/
theorem addressed_of_storage (hsize : a.elementSize = a.layoutSize.toUInt32)
    (h : a.offset.toNat + a.numel.toNat * a.layoutSize.toNat ≤ a.storage) : a.Addressed := by
  intro i hi
  have hlt : i.toNat + 1 ≤ a.numel.toNat := UInt64.lt_iff_toNat_lt.mp hi
  have hsmall : a.elementSize.toUInt64.toNat ≤ a.layoutSize.toNat := by
    rw [hsize, UInt32.toNat_toUInt64, UInt64.toNat_toUInt32]
    exact Nat.mod_le _ _
  have hstart : (a.elementPtr i).toNat ≤ a.offset.toNat + i.toNat * a.layoutSize.toNat := by
    unfold elementPtr
    rw [UInt64.toNat_add, UInt64.toNat_mul]
    calc (a.offset.toNat + i.toNat * a.elementSize.toUInt64.toNat % 2 ^ 64) % 2 ^ 64
        ≤ a.offset.toNat + i.toNat * a.elementSize.toUInt64.toNat % 2 ^ 64 := Nat.mod_le _ _
      _ ≤ a.offset.toNat + i.toNat * a.elementSize.toUInt64.toNat :=
        Nat.add_le_add_left (Nat.mod_le _ _) _
      _ ≤ a.offset.toNat + i.toNat * a.layoutSize.toNat :=
        Nat.add_le_add_left (Nat.mul_le_mul_left _ hsmall) _
  have hmul : (i.toNat + 1) * a.layoutSize.toNat ≤ a.numel.toNat * a.layoutSize.toNat :=
    Nat.mul_le_mul_right _ hlt
  rw [add_mul, one_mul] at hmul
  omega

/-- A view reads the block it was given. -/
theorem view_of_create {b : Block} {off : UInt64}
    (h : createCompact spaces extents elemSize (some b) off true = .ok a) :
    checkedNumel extents = .ok a.numel ∧ a.block = some b ∧ a.offset = off ∧
      a.layoutSize = elemSize ∧ a.elementSize = elemSize.toUInt32 := by
  unfold createCompact at h
  cases hn : checkedNumel extents with
  | error what =>
    rw [hn] at h
    cases h
  | ok n =>
    rw [hn] at h
    simp only [Option.isNone_some, Bool.false_and, Bool.false_eq_true, if_false] at h
    by_cases hobject : spaces.object extents.length 0
    · rw [if_pos hobject] at h
      cases h
      exact ⟨rfl, rfl, rfl, rfl, rfl⟩
    · rw [if_neg hobject] at h
      cases h

/-- The bytes fit just where the storage holds them. -/
theorem Fresh.holds_iff (h : Fresh spaces extents elemSize a) :
    Extents.numel extents * elemSize.toNat ≤ a.storage ↔
      Extents.numel extents * elemSize.toNat < 2 ^ 64 - 64 := by
  obtain ⟨-, hnumel⟩ := checkedNumel_ok h.counted
  have hbytes : (a.numel * elemSize).toNat = (Extents.numel extents * elemSize.toNat) % 2 ^ 64 := by
    rw [UInt64.toNat_mul, hnumel]
  unfold storage
  rcases h.stored with ⟨hblock, hinline, hsmall⟩ | ⟨b, hblock, hlarge, hcreate⟩
  · have hle : (a.numel * elemSize).toNat ≤ 256 := UInt64.le_iff_toNat_le.mp hsmall
    rw [hblock, hinline]
    show _ ≤ (a.numel * elemSize).toNat ↔ _
    omega
  · obtain ⟨hroom, hwrapped⟩ := Block.create_room hcreate
    rw [hblock]
    show _ ≤ b.room ↔ _
    omega

section
variable (h : Fresh spaces extents elemSize a)
  (hfits : Extents.numel extents * elemSize.toNat < 2 ^ 64 - 64)
include h hfits

theorem Fresh.addressed
    : a.Addressed := by
  obtain ⟨-, hnumel⟩ := checkedNumel_ok h.counted
  apply addressed_of_storage
  · rw [h.elementSize_eq, h.layoutSize_eq]
  · rw [h.offset_eq, hnumel, h.layoutSize_eq]
    show 0 + _ ≤ _
    rw [zero_add]
    exact h.holds_iff.mpr hfits

/-- The block a view shares has the bytes of the source. -/
theorem Fresh.ensureBlock_room {spaces' : Spaces} {b : Block} {off : UInt64}
    (hsome : 0 < Extents.numel extents)
    (hb : ensureBlock spaces' a = .ok (b, off)) :
    off = 0 ∧ Extents.numel extents * elemSize.toNat ≤ b.room := by
  obtain ⟨-, hnumel⟩ := checkedNumel_ok h.counted
  have hholds := h.holds_iff.mpr hfits
  unfold ensureBlock at hb
  rcases h.stored with ⟨hblock, hinline, hsmall⟩ | ⟨b', hblock, -, -⟩
  · rw [hblock] at hb
    have hbytes : (a.numel * elemSize).toNat = Extents.numel extents * elemSize.toNat := by
      rw [UInt64.toNat_mul, hnumel]
      omega
    have hle : (a.numel * elemSize).toNat ≤ 256 := UInt64.le_iff_toNat_le.mp hsmall
    -- few bytes: an element is smaller than the width its size is kept in
    have helem : elemSize.toNat ≤ Extents.numel extents * elemSize.toNat :=
      Nat.le_mul_of_pos_left _ hsome
    have hsize : a.byteSize.toNat = Extents.numel extents * elemSize.toNat := by
      unfold byteSize
      rw [UInt64.toNat_mul, h.elementSize_eq, UInt32.toNat_toUInt64, UInt64.toNat_toUInt32,
        hnumel]
      have hmod : elemSize.toNat % 2 ^ 32 = elemSize.toNat := Nat.mod_eq_of_lt (by omega)
      rw [hmod]
      omega
    cases hcreate : Block.create spaces' a.byteSize with
    | error refusal =>
      have hb' : (Block.create spaces' a.byteSize >>= fun created => pure (created, (0 : UInt64))) =
        Except.ok (b, off) := hb
      rw [hcreate] at hb'
      cases hb'
    | ok created =>
      have hb' : (Block.create spaces' a.byteSize >>= fun created => pure (created, (0 : UInt64))) =
        Except.ok (b, off) := hb
      rw [hcreate] at hb'
      cases hb'
      have hroom := (Block.create_room hcreate).1 (by omega)
      exact ⟨rfl, by omega⟩
  · rw [hblock] at hb
    cases hb
    unfold storage at hholds
    rw [hblock] at hholds
    exact ⟨h.offset_eq, hholds⟩

theorem Fresh.views
    (spaces' : Spaces)
    (viewExtents : List Int64) (elementOffset : UInt64) (v : Array)
    (hv : a.viewOf spaces' viewExtents elementOffset = .ok v) : v.Addressed := by
  obtain ⟨-, hnumel⟩ := checkedNumel_ok h.counted
  unfold viewOf at hv
  cases hn : checkedNumel viewExtents with
  | error what =>
    rw [hn] at hv
    cases hv
  | ok elements =>
    rw [hn] at hv
    by_cases hout : a.numel < elementOffset ∨ a.numel - elementOffset < elements
    · simp only [if_pos hout] at hv
      cases hv
    simp only [if_neg hout] at hv
    rw [not_or] at hout
    have hoff : elementOffset ≤ a.numel := UInt64.not_lt.mp hout.1
    have hin : elementOffset.toNat + elements.toNat ≤ Extents.numel extents := by
      have hle := UInt64.le_iff_toNat_le.mp (UInt64.not_lt.mp hout.2)
      have hoff' := UInt64.le_iff_toNat_le.mp hoff
      rw [UInt64.toNat_sub_of_le _ _ hoff] at hle
      omega
    cases hb : ensureBlock spaces' a with
    | error refusal =>
      rw [hb] at hv
      cases hv
    | ok held =>
      obtain ⟨b, off⟩ := held
      rw [hb] at hv
      obtain ⟨hcount, hblock, hvoff, hlayout, hsize⟩ := view_of_create hv
      have hvnumel : v.numel = elements := Except.ok.inj (hcount.symm.trans hn)
      by_cases hnone : elements.toNat = 0
      · -- a view of no elements addresses nothing
        intro i hi
        have hlt := UInt64.lt_iff_toNat_lt.mp hi
        rw [hvnumel] at hlt
        omega
      obtain ⟨rfl, hroom⟩ := h.ensureBlock_room hfits (by omega) hb
      apply addressed_of_storage
      · rw [hsize, hlayout]
      · have hstart : v.offset.toNat ≤ elementOffset.toNat * elemSize.toNat := by
          have hsmall : a.elementSize.toUInt64.toNat ≤ elemSize.toNat := by
            rw [h.elementSize_eq, UInt32.toNat_toUInt64, UInt64.toNat_toUInt32]
            exact Nat.mod_le _ _
          rw [hvoff, UInt64.zero_add, UInt64.toNat_mul]
          exact le_trans (Nat.mod_le _ _) (Nat.mul_le_mul_left _ hsmall)
        have hmul : (elementOffset.toNat + elements.toNat) * elemSize.toNat ≤
            Extents.numel extents * elemSize.toNat := Nat.mul_le_mul_right _ hin
        rw [add_mul] at hmul
        unfold storage
        rw [hvnumel, hlayout, h.layoutSize_eq, hblock]
        show _ ≤ b.room
        omega

end

/-! ## When the Storage Is Right -/

/-- The extents are refused, or the bytes and every stride fit. -/
def StorageFits (extents : List Int64) (elemSize : UInt64) : Prop :=
  (∃ what, checkedNumel extents = .error what) ∨
    (Extents.numel extents * elemSize.toNat < 2 ^ 64 - 64 ∧ StridesFit extents)

/-- Spaces that grant every request. -/
def granting : Spaces := { object := fun _ _ => true, withinLimit := fun _ => true,
                           blocks := fun _ => some 0 }

theorem create_granted (elemSize : UInt64) {n : UInt64} (hn : checkedNumel extents = .ok n) :
    ∃ a, createCompact granting extents elemSize none 0 false = .ok a := by
  unfold createCompact
  rw [hn]
  simp only [Option.isNone_none, Bool.true_and, decide_eq_true_eq]
  have hobject : granting.object extents.length
      (if n * elemSize ≤ kInlineBlockBytes then n * elemSize else 0) = true := rfl
  rw [if_pos hobject]
  by_cases hsmall : n * elemSize ≤ kInlineBlockBytes
  · rw [if_pos hsmall]
    exact ⟨_, rfl⟩
  · rw [if_neg hsmall]
    exact ⟨_, rfl⟩

/-- Creating an array is refused or gives all its storage, whatever the spaces answer, just where
    the bytes and the strides fit. -/
theorem createCompact_exact_iff (extents : List Int64) (elemSize : UInt64) :
    (∀ spaces a, createCompact spaces extents elemSize none 0 false = .ok a →
      Exact extents elemSize a) ↔ StorageFits extents elemSize := by
  constructor
  · intro h
    cases hn : checkedNumel extents with
    | error what => exact .inl ⟨what, hn⟩
    | ok n =>
      obtain ⟨a, ha⟩ := create_granted elemSize hn
      have hexact := h granting a ha
      have hfresh := fresh_of_create ha
      refine .inr ⟨hfresh.holds_iff.mp hexact.holds, ?_⟩
      rw [← strides_eq_iff (checkedNumel_ok hn).1, ← hfresh.strides_eq]
      exact hexact.strides_eq
  · rintro hfits spaces a ha
    have hfresh := fresh_of_create ha
    obtain ⟨hnonneg, hnumel⟩ := checkedNumel_ok hfresh.counted
    rcases hfits with ⟨what, hrefused⟩ | ⟨hbytes, hstrides⟩
    · cases hrefused.symm.trans hfresh.counted
    · refine ⟨hnumel, ?_, hfresh.holds_iff.mpr hbytes, hfresh.addressed hbytes,
        hfresh.views hbytes⟩
      rw [hfresh.strides_eq]
      exact (strides_eq_iff hnonneg).mpr hstrides

/-- A vector of 2^61 words is created with no byte behind it. -/
theorem createCompact_wraps : ¬ ∀ (extents : List Int64) (elemSize : UInt64) (spaces : Spaces)
    (a : Array), createCompact spaces extents elemSize none 0 false = .ok a →
      Exact extents elemSize a := by
  intro h
  have hn : checkedNumel [2305843009213693952] = .ok 2305843009213693952 := by decide
  obtain ⟨a, ha⟩ := create_granted 8 hn
  have hholds := (fresh_of_create ha).holds_iff.mp (h _ _ _ _ ha).holds
  revert hholds
  decide

end Array

end Camel.Compact
