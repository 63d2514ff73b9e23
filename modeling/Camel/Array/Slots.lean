import Camel.Lib.Radix

/-! # Slots of Primitive Values

    A primitive value narrower than a slot lies in its low bytes. Three producers make
    such slots: the conversion of a compile-time constant, `toSlot`, and the read of a
    compact array. Consumers compare whole slots.
-/

namespace Camel.Slots

open Lib

/-- A slot. -/
abbrev Word := UInt64

/-- The primitive types that have values. -/
inductive TypeCode where
  | int32
  | int64
  | float32
  | float64
  | bfloat16
  | float16
  | bool
  deriving DecidableEq

/-- A primitive constant; a float is given by its pattern. -/
inductive Primitive where
  | int32 (value : Int32)
  | int64 (value : Int64)
  | float32 (bits : UInt32)
  | float64 (bits : UInt64)
  | bfloat16 (bits : UInt16)
  | float16 (bits : UInt16)
  | bool (value : Bool)
  deriving DecidableEq

namespace Primitive

def code : Primitive → TypeCode
  | int32 _ => .int32
  | int64 _ => .int64
  | float32 _ => .float32
  | float64 _ => .float64
  | bfloat16 _ => .bfloat16
  | float16 _ => .float16
  | bool _ => .bool

/-- The bytes of the value in memory, as a number. -/
def pattern : Primitive → Nat
  | int32 value => value.toUInt32.toNat
  | int64 value => value.toUInt64.toNat
  | float32 bits => bits.toNat
  | float64 bits => bits.toNat
  | bfloat16 bits => bits.toNat
  | float16 bits => bits.toNat
  | bool value => value.toNat

end Primitive

namespace TypeCode

/-- The size of a value. -/
def size : TypeCode → Nat
  | int32 => 4
  | int64 => 8
  | float32 => 4
  | float64 => 8
  | bfloat16 => 2
  | float16 => 2
  | bool => 1

def isFloat : TypeCode → Bool
  | float32 | float64 | bfloat16 | float16 => true
  | int32 | int64 | bool => false

theorem size_le (code : TypeCode) : code.size ≤ 8 := by
  cases code <;> decide

end TypeCode

/-! ## The Producers -/

/-- `memcpy` of the bytes of a value into a slot of zeros. -/
def slotOfBytes (size pattern : Nat) : Word :=
  UInt64.ofNat (wordOf (bytesOf size pattern ++ List.replicate (8 - size) 0))

/-- `toSlot` -/
def toSlot (data : Primitive) : Word := slotOfBytes data.code.size data.pattern

/-- `halfSlotOfBits` -/
def halfSlotOfBits (bits : UInt16) : Word := slotOfBytes 2 bits.toNat

/-- `makeSlotFromPrimitiveData`; an integer is converted, which extends its sign. -/
def makeSlotFromPrimitiveData : Primitive → Word
  | .int32 value => value.toInt64.toUInt64
  | .int64 value => value.toUInt64
  | .float32 bits => slotOfBytes 4 bits.toNat
  | .float64 bits => slotOfBytes 8 bits.toNat
  | .bfloat16 bits => halfSlotOfBits bits
  | .float16 bits => halfSlotOfBits bits
  | .bool value => if value then 1 else 0

/-- A compact array of primitive elements, by its bytes. -/
structure CompactArray where
  elemTypeCode : TypeCode
  numel : Nat
  bytes : List UInt8
  held : numel * elemTypeCode.size ≤ bytes.length

namespace CompactArray

/-- The bytes `setSlot` stores of a slot. -/
def stored (code : TypeCode) (value : Word) : List UInt8 :=
  match code with
  | .bool => bytesOf 1 (if value ≠ 0 then 1 else 0)
  | _ => bytesOf code.size value.toNat

theorem length_stored (code : TypeCode) (value : Word) : (stored code value).length = code.size := by
  cases code <;> simp [stored, TypeCode.size]

theorem place_le {a : CompactArray} {i : Nat} (hi : i < a.numel) :
    i * a.elemTypeCode.size + a.elemTypeCode.size ≤ a.bytes.length := by
  have hmul : (i + 1) * a.elemTypeCode.size ≤ a.numel * a.elemTypeCode.size :=
    Nat.mul_le_mul_right _ hi
  have hheld := a.held
  rw [add_mul, one_mul] at hmul
  omega

/-- `setSlot` -/
def setSlot (a : CompactArray) (i : Nat) (hi : i < a.numel) (value : Word) : CompactArray :=
  { a with
    bytes := storeBytes a.bytes (i * a.elemTypeCode.size) (stored a.elemTypeCode value)
    held := by
      rw [length_storeBytes]
      · exact a.held
      · rw [length_stored]
        exact place_le hi }

/-- `getSlot` -/
def getSlot (a : CompactArray) (i : Nat) : Word :=
  UInt64.ofNat (wordOf (loadBytes a.bytes (i * a.elemTypeCode.size) a.elemTypeCode.size))

end CompactArray

/-- The slots that stand for a constant: as it was converted, as it was stored, and as it is read
    where one of these was written to an array. -/
inductive IsSlotOf (data : Primitive) : Word → Prop where
  | constant : IsSlotOf data (makeSlotFromPrimitiveData data)
  | value : IsSlotOf data (toSlot data)
  | read (a : CompactArray) (i : Nat) (hi : i < a.numel) (slot : Word)
      (hcode : a.elemTypeCode = data.code) (h : IsSlotOf data slot) :
      IsSlotOf data ((a.setSlot i hi slot).getSlot i)

/-! ## What a Slot Holds -/

theorem toNat_slotOfBytes {size pattern : Nat} (hsize : size ≤ 8) (h : pattern < 256 ^ size) :
    (slotOfBytes size pattern).toNat = pattern := by
  have hlarge : 256 ^ size ≤ 256 ^ 8 := Nat.pow_le_pow_right (by decide) hsize
  have hsmall : pattern < 2 ^ 64 := Nat.lt_of_lt_of_le h (Nat.le_trans hlarge (by decide))
  unfold slotOfBytes
  rw [wordOf_append_zeros, wordOf_bytesOf, Nat.mod_eq_of_lt h, UInt64.toNat_ofNat',
    Nat.mod_eq_of_lt hsmall]

theorem pattern_lt (data : Primitive) : data.pattern < 256 ^ data.code.size := by
  cases data with
  | int32 value => exact value.toUInt32.toNat_lt
  | int64 value => exact value.toUInt64.toNat_lt
  | float32 bits => exact bits.toNat_lt
  | float64 bits => exact bits.toNat_lt
  | bfloat16 bits => exact bits.toNat_lt
  | float16 bits => exact bits.toNat_lt
  | bool value => cases value <;> decide

theorem toNat_toSlot (data : Primitive) : (toSlot data).toNat = data.pattern :=
  toNat_slotOfBytes (TypeCode.size_le _) (pattern_lt data)

/-- The pattern tells values of one type apart. -/
theorem pattern_inj {c d : Primitive} (hcode : c.code = d.code) (h : c.pattern = d.pattern) :
    c = d := by
  cases c <;> cases d <;> cases hcode
  · rename_i v w
    have hword : v.toUInt32 = w.toUInt32 := UInt32.toNat_inj.mp h
    have hvalue : v = w := by simpa using congrArg UInt32.toInt32 hword
    rw [hvalue]
  · rename_i v w
    have hword : v.toUInt64 = w.toUInt64 := UInt64.toNat_inj.mp h
    have hvalue : v = w := by simpa using congrArg UInt64.toInt64 hword
    rw [hvalue]
  · rename_i v w
    rw [UInt32.toNat_inj.mp h]
  · rename_i v w
    rw [UInt64.toNat_inj.mp h]
  · rename_i v w
    rw [UInt16.toNat_inj.mp h]
  · rename_i v w
    rw [UInt16.toNat_inj.mp h]
  · rename_i v w
    revert h
    cases v <;> cases w <;> decide

/-- What an array stores of the slot is the value. -/
def Holds (data : Primitive) (slot : Word) : Prop :=
  wordOf (CompactArray.stored data.code slot) = data.pattern

variable {data : Primitive} {slot : Word}

/-- A slot that holds the value is read back as `toSlot` makes it. -/
theorem getSlot_setSlot (a : CompactArray) (i : Nat)
    (hi : i < a.numel) (hcode : a.elemTypeCode = data.code) (h : Holds data slot) :
    (a.setSlot i hi slot).getSlot i = toSlot data := by
  have hplace := CompactArray.place_le hi
  have hload : loadBytes (a.setSlot i hi slot).bytes (i * a.elemTypeCode.size)
      a.elemTypeCode.size = CompactArray.stored a.elemTypeCode slot := by
    have hstored := @loadBytes_storeBytes a.bytes (CompactArray.stored a.elemTypeCode slot)
      (i * a.elemTypeCode.size) (by rwa [CompactArray.length_stored])
    rwa [CompactArray.length_stored] at hstored
  apply UInt64.toNat_inj.mp
  have hsmall : data.pattern < 2 ^ 64 := by
    rw [← toNat_toSlot]
    exact (toSlot data).toNat_lt
  show (UInt64.ofNat (wordOf (loadBytes (a.setSlot i hi slot).bytes (i * a.elemTypeCode.size)
    a.elemTypeCode.size))).toNat = _
  rw [hload, hcode, h, UInt64.toNat_ofNat', Nat.mod_eq_of_lt hsmall, toNat_toSlot]

/-- A slot whose low bytes are the value's. -/
theorem holds_of_low
    (hlow : slot.toNat % 256 ^ data.code.size = data.pattern)
    (hbool : data.code = .bool → slot.toNat = data.pattern) : Holds data slot := by
  unfold Holds
  by_cases hcode : data.code = .bool
  · obtain ⟨value, rfl⟩ : ∃ value, data = .bool value := by
      cases data with
      | bool value => exact ⟨value, rfl⟩
      | _ => cases hcode
    have hslot := hbool rfl
    cases value with
    | false =>
      have hzero : slot = 0 := UInt64.toNat_inj.mp hslot
      rw [hzero]
      rfl
    | true =>
      have hone : slot = 1 := UInt64.toNat_inj.mp hslot
      rw [hone]
      rfl
  · have hstored : CompactArray.stored data.code slot = bytesOf data.code.size slot.toNat := by
      cases data <;> first | rfl | exact absurd rfl hcode
    rw [hstored, wordOf_bytesOf, hlow]

theorem holds_toSlot (data : Primitive) : Holds data (toSlot data) := by
  apply holds_of_low
  · rw [toNat_toSlot, Nat.mod_eq_of_lt (pattern_lt data)]
  · intro _
    exact toNat_toSlot data

/-- A converted `i32` is its pattern with the sign in the upper half. -/
theorem toNat_signExtended (value : Int32) :
    value.toInt64.toUInt64.toNat =
      value.toUInt32.toNat + if 0 ≤ value.toInt then 0 else 2 ^ 64 - 2 ^ 32 := by
  have hsame : value.toInt64.toInt = value.toInt := Int32.toInt_toInt64 value
  have hwide : value.toInt64.toInt = Int.bmod value.toInt64.toUInt64.toNat (2 ^ 64) :=
    BitVec.toInt_eq_toNat_bmod value.toInt64.toBitVec
  have hnarrow : value.toInt = Int.bmod value.toUInt32.toNat (2 ^ 32) :=
    BitVec.toInt_eq_toNat_bmod value.toBitVec
  have hlt := value.toInt64.toUInt64.toNat_lt
  have hlt' := value.toUInt32.toNat_lt
  rw [Int.bmod_def] at hwide hnarrow
  by_cases hneg : 0 ≤ value.toInt
  · rw [if_pos hneg]
    omega
  · rw [if_neg hneg]
    omega

/-- Only a negative `i32` is converted to another slot than `toSlot` makes. -/
theorem makeSlotFromPrimitiveData_eq_iff (data : Primitive) :
    makeSlotFromPrimitiveData data = toSlot data ↔
      ∀ value, data = .int32 value → 0 ≤ value.toInt := by
  cases data with
  | int32 value =>
    have hwide := toNat_signExtended value
    have hslot : (toSlot (.int32 value)).toNat = value.toUInt32.toNat := toNat_toSlot _
    constructor
    · rintro heq v ⟨⟩
      have hnat : value.toInt64.toUInt64.toNat = value.toUInt32.toNat := by
        rw [← hslot, ← heq]
        rfl
      by_contra hneg
      rw [hwide, if_neg hneg] at hnat
      omega
    · intro hpos
      apply UInt64.toNat_inj.mp
      rw [if_pos (hpos value rfl), add_zero] at hwide
      rw [hslot, ← hwide]
      rfl
  | int64 value =>
    refine ⟨fun _ v h => (by cases h), fun _ => ?_⟩
    apply UInt64.toNat_inj.mp
    exact (toNat_toSlot (.int64 value)).symm
  | bool value =>
    refine ⟨fun _ v h => (by cases h), fun _ => ?_⟩
    cases value <;> rfl
  | float32 bits => exact ⟨fun _ v h => (by cases h), fun _ => rfl⟩
  | float64 bits => exact ⟨fun _ v h => (by cases h), fun _ => rfl⟩
  | bfloat16 bits => exact ⟨fun _ v h => (by cases h), fun _ => rfl⟩
  | float16 bits => exact ⟨fun _ v h => (by cases h), fun _ => rfl⟩

theorem holds_constant (data : Primitive) : Holds data (makeSlotFromPrimitiveData data) := by
  by_cases heq : makeSlotFromPrimitiveData data = toSlot data
  · rw [heq]
    exact holds_toSlot data
  · rw [makeSlotFromPrimitiveData_eq_iff] at heq
    obtain ⟨value, rfl⟩ : ∃ value, data = .int32 value := by
      by_contra hnone
      exact heq fun value h => absurd ⟨value, h⟩ hnone
    apply holds_of_low
    · show value.toInt64.toUInt64.toNat % 2 ^ 32 = value.toUInt32.toNat
      have hwide := toNat_signExtended value
      have hlt := value.toUInt32.toNat_lt
      by_cases hneg : 0 ≤ value.toInt
      · rw [if_pos hneg] at hwide
        omega
      · rw [if_neg hneg] at hwide
        omega
    · intro hbool
      cases hbool

/-! ## Canonical Slots -/

/-- Every slot of a constant holds it, and all but the converted one are what `toSlot` makes. -/
theorem slotOf_cases (h : IsSlotOf data slot) :
    Holds data slot ∧ (slot = toSlot data ∨ slot = makeSlotFromPrimitiveData data) := by
  induction h with
  | constant => exact ⟨holds_constant data, .inr rfl⟩
  | value => exact ⟨holds_toSlot data, .inl rfl⟩
  | read a i hi slot hcode _ ih =>
    rw [getSlot_setSlot a i hi hcode ih.1]
    exact ⟨holds_toSlot data, .inl rfl⟩

/-- One slot holds one value of a type. -/
theorem holds_inj {c d : Primitive} (hcode : c.code = d.code) (hc : Holds c slot)
    (hd : Holds d slot) : c = d := by
  apply pattern_inj hcode
  rw [← hc, ← hd, hcode]

/-- There is one slot for the constant, and words tell the values of its type apart. -/
structure Canonical (data : Primitive) : Prop where
  one : ∀ slot, IsSlotOf data slot → slot = toSlot data
  compared : data.code.isFloat = false → ∀ other : Primitive, other.code = data.code →
    ∀ s t, IsSlotOf data s → IsSlotOf other t → (s = t ↔ data = other)

/-- The slots of a constant are canonical unless it is a negative `i32`. -/
theorem canonical_iff (data : Primitive) :
    Canonical data ↔ ∀ value, data = .int32 value → 0 ≤ value.toInt := by
  rw [← makeSlotFromPrimitiveData_eq_iff]
  constructor
  · intro h
    exact h.one _ .constant
  · intro heq
    have hone : ∀ slot, IsSlotOf data slot → slot = toSlot data := by
      intro slot h
      rcases (slotOf_cases h).2 with hslot | hslot
      · exact hslot
      · rw [hslot, heq]
    refine ⟨hone, ?_⟩
    intro _ other hcode s t hs ht
    constructor
    · intro hst
      have hheld := (slotOf_cases ht).1
      rw [← hst] at hheld
      exact holds_inj hcode.symm (slotOf_cases hs).1 hheld
    · rintro rfl
      rw [hone s hs, hone t ht]

/-- The slot of the constant -1 is not the slot of the value -1. -/
theorem minusOne_not_canonical : ¬ ∀ data : Primitive, Canonical data := by
  intro h
  have hone := (h (.int32 (-1))).one _ .constant
  revert hone
  decide

end Camel.Slots
