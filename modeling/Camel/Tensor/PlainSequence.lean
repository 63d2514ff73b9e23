import Camel.Array.Storage
import Camel.Lib.Memory
import Camel.Types.Pure

/-! # Sequences of Pure Data as Bytes

    A sequence whose element type is an aggregate of pure data is written as the little-endian
    bytes of its leaves, each at the offset the element's layout gives it.
-/

namespace Camel.Tensor

open Lib Extents Types.Pure List

/-! ## Arrays -/

/-- A compact array of pure data; its header keeps the size of an element in 32 bits. -/
structure PlainArray where
  elemType : PureType
  extents : List Int64
  numel : UInt64
  bytes : List UInt8
  counted : checkedNumel extents = .ok numel
  held : bytes.length = numel.toNat * (pureDataLayout elemType).size
  room : bytes.length < 2 ^ 64

inductive SequenceFailure where
  | notPureData
  | scalarSequence
  | shape (what : String)
  | outside
  deriving DecidableEq

namespace PlainArray

def elementSize (a : PlainArray) : Nat := (pureDataLayout a.elemType).size % 2 ^ 32

def read (a : PlainArray) (i : Nat) : UInt8 := a.bytes.getD i 0

/-- The bytes of one leaf of one element. -/
def leaf (a : PlainArray) (element : Nat) (range : Nat × Nat) : List UInt8 :=
  (List.range range.2).map fun k => a.read (element * a.elementSize + range.1 + k)

end PlainArray

/-- What the memory holds after the stores, none of which may lie outside. -/
def storedRun (length : Nat) (stores : List (Nat × UInt8)) : Option (List UInt8) :=
  if stores.all fun s => s.1 < length then
    some ((List.range length).map (storeAll (fun _ => 0) stores))
  else none

/-! ## Elements -/

section Element

variable (bigEndian : Bool) (read : Nat → UInt8)

/-- The stores that put the leaf at `leaf` to `out`: reversed on a big-endian host. -/
def leafToLittleEndian (out leaf width : Nat) : List (Nat × UInt8) :=
  (List.range width).map fun k => (out + k, read (leaf + if bigEndian then width - 1 - k else k))

mutual

def elementToLittleEndian : PureType → Nat → Nat → List (Nat × UInt8)
  | .scalar code, out, element =>
    leafToLittleEndian bigEndian read out element (scalarDataLayout code).size
  | .aggregate fields, out, element =>
    fieldsToLittleEndian fields (pureDataLayout (.aggregate fields)).fieldOffsets out element

def fieldsToLittleEndian : List PureType → List Nat → Nat → Nat → List (Nat × UInt8)
  | [], _, _, _ => []
  | _ :: _, [], _, _ => []
  | field :: fields, offset :: offsets, out, element =>
    elementToLittleEndian field (out + offset) (element + offset) ++
      fieldsToLittleEndian fields offsets out element

end

/-- The read side walks the layout in the same way. -/
def elementFromLittleEndian : PureType → Nat → Nat → List (Nat × UInt8) :=
  elementToLittleEndian bigEndian read

end Element

/-! ## Sequences -/

variable {t : PureType} (bigEndian : Bool)

def plainSequenceToLittleEndian (array : PlainArray) : Option (List UInt8) :=
  let width := array.elementSize
  storedRun (array.numel.toNat * width) <|
    (List.range array.numel.toNat).flatMap fun element =>
      elementToLittleEndian bigEndian array.read array.elemType (element * width)
        (element * array.elementSize)

/-- `numelOf`: the product in 64 bits. -/
def numelOfFrom (total : UInt64) : List Int64 → Except SequenceFailure UInt64
  | [] => .ok total
  | extent :: rest =>
    if extent < 0 then .error (.shape "Tensor shape cannot contain negative extents")
    else numelOfFrom (total * extent.toUInt64) rest

/-- `Array::create` and the loop that fills it. A count whose bytes wrap around gets a run that
    is too short for its elements. -/
def filledArray (elemType : PureType) (extents : List Int64) (stores : List (Nat × UInt8)) :
    Except SequenceFailure PlainArray :=
  match hcounted : checkedNumel extents with
  | .error what => .error (.shape what)
  | .ok numel =>
    match hrun : storedRun (numel.toNat * (pureDataLayout elemType).size) stores with
    | none => .error .outside
    | some bytes =>
      if hroom : bytes.length < 2 ^ 64 then
        .ok
          { elemType, extents, numel, bytes
            counted := hcounted
            held := by
              unfold storedRun at hrun
              split at hrun
              · rw [← Option.some.inj hrun, length_map, length_range]
              · cases hrun
            room := hroom }
      else .error .outside

def plainSequenceFromLittleEndian (input : List UInt8) (elemType : PureType)
    (extents : List Int64) : Except SequenceFailure PlainArray :=
  let layout := pureDataLayout elemType
  if layout.size = 0 then .error .notPureData
  else if layout.aggregate = false then .error .scalarSequence
  else do
    let count ← numelOfFrom 1 extents
    if input.length ≠ count.toNat * layout.size % 2 ^ 64 then
      .error (.shape "binary tensor payload")
    else
      filledArray elemType extents <|
        (List.range count.toNat).flatMap fun element =>
          elementFromLittleEndian bigEndian (fun i => input.getD i 0) elemType
            (element * (layout.size % 2 ^ 32)) (element * layout.size)

/-! ## Stores by Leaves -/

/-- An element's stores are its leaves' stores. -/
theorem elementToLittleEndian_eq (read : Nat → UInt8) (t : PureType)
    (out element start : Nat) :
    elementToLittleEndian bigEndian read t (out + start) (element + start) =
      (leavesAt t start).flatMap fun leaf =>
        leafToLittleEndian bigEndian read (out + leaf.1) (element + leaf.1) leaf.2 := by
  induction t using PureType.induct generalizing start with
  | scalar code => simp [elementToLittleEndian, leavesAt]
  | aggregate fields ih =>
    rw [elementToLittleEndian, leavesAt]
    generalize (pureDataLayout (.aggregate fields)).fieldOffsets = offsets
    induction fields generalizing offsets with
    | nil => simp [fieldsToLittleEndian, fieldLeavesAt]
    | cons field fields hrest =>
      cases offsets with
      | nil => rfl
      | cons offset offsets =>
        rw [fieldsToLittleEndian, fieldLeavesAt, flatMap_append,
          hrest (fun t ht => ih t (.tail _ ht)),
          ← ih field mem_cons_self, add_assoc, add_assoc]

/-- The place of a leaf's byte on the other side. -/
def byteAt (width k : Nat) : Nat := if bigEndian then width - 1 - k else k

theorem byteAt_lt {bigEndian : Bool} {width k : Nat} (h : k < width) :
    byteAt bigEndian width k < width := by
  unfold byteAt
  split <;> omega

/-- A reversal undoes itself. -/
theorem byteAt_byteAt {bigEndian : Bool} {width k : Nat} (h : k < width) :
    byteAt bigEndian width (byteAt bigEndian width k) = k := by
  unfold byteAt
  split
  · omega
  · rfl

/-- The stores of all elements, one after another. -/
def sequenceStores (read : Nat → UInt8) (t : PureType) (count : Nat) :
    List (Nat × UInt8) :=
  (List.range count).flatMap fun element =>
    elementToLittleEndian bigEndian read t (element * (pureDataLayout t).size)
      (element * (pureDataLayout t).size)

theorem mem_sequenceStores {bigEndian : Bool} {read : Nat → UInt8} {count : Nat}
    {s : Nat × UInt8} :
    s ∈ sequenceStores bigEndian read t count ↔
      ∃ e < count, ∃ leaf ∈ leavesAt t 0, ∃ k < leaf.2,
        s = (e * (pureDataLayout t).size + leaf.1 + k,
          read (e * (pureDataLayout t).size + leaf.1 + byteAt bigEndian leaf.2 k)) := by
  unfold sequenceStores
  simp only [mem_flatMap, mem_range]
  apply exists_congr
  intro e
  apply and_congr_right
  intro _
  have hleaves := elementToLittleEndian_eq bigEndian read t (e * (pureDataLayout t).size)
    (e * (pureDataLayout t).size) 0
  rw [add_zero] at hleaves
  rw [hleaves]
  simp only [mem_flatMap, leafToLittleEndian, mem_map, mem_range, byteAt]
  apply exists_congr
  intro leaf
  apply and_congr_right
  intro _
  apply exists_congr
  intro k
  rw [eq_comm]

/-- Two bytes at one place are one byte of one leaf of one element. -/
theorem place_unique (hfits : Fits t) {e e' : Nat} {leaf leaf' : Nat × Nat}
    {k k' : Nat} (hleaf : leaf ∈ leavesAt t 0) (hleaf' : leaf' ∈ leavesAt t 0) (hk : k < leaf.2)
    (hk' : k' < leaf'.2)
    (h : e * (pureDataLayout t).size + leaf.1 + k = e' * (pureDataLayout t).size + leaf'.1 + k') :
    e = e' ∧ leaf = leaf' ∧ k = k' := by
  have hlaid := laidOut hfits
  have hin := hlaid.inside leaf hleaf
  have hin' := hlaid.inside leaf' hleaf'
  have hpos : 0 < (pureDataLayout t).size := by omega
  have he : e = e' := by
    have hdiv : ∀ a b, b < (pureDataLayout t).size →
        (a * (pureDataLayout t).size + b) / (pureDataLayout t).size = a := by
      intro a b hb
      rw [mul_comm, Nat.mul_add_div hpos, Nat.div_eq_of_lt hb, add_zero]
    rw [← hdiv e (leaf.1 + k) (by omega), ← hdiv e' (leaf'.1 + k') (by omega), ← add_assoc, h,
      add_assoc]
  subst he
  have hleaves : leaf = leaf' := by
    by_contra hne
    have happart : ∀ a ∈ leavesAt t 0, ∀ b ∈ leavesAt t 0, a ≠ b →
        a.1 + a.2 ≤ b.1 ∨ b.1 + b.2 ≤ a.1 := by
      have hsymm := hlaid.apart.imp
        (S := fun a b : Nat × Nat => a.1 + a.2 ≤ b.1 ∨ b.1 + b.2 ≤ a.1) fun hle => .inl hle
      have hboth : Std.Symm fun a b : Nat × Nat => a.1 + a.2 ≤ b.1 ∨ b.1 + b.2 ≤ a.1 :=
        ⟨fun _ _ hor => hor.symm⟩
      intro a ha b hb hab
      exact hsymm.forall ha hb hab
    rcases happart leaf hleaf leaf' hleaf' hne with hle | hle
    · omega
    · omega
  subst hleaves
  exact ⟨rfl, rfl, by omega⟩

theorem storedRun_sequence (hfits : Fits t) (bigEndian : Bool) (read : Nat → UInt8)
    (count : Nat) :
    ∃ run, storedRun (count * (pureDataLayout t).size) (sequenceStores bigEndian read t count) =
        some run ∧ run.length = count * (pureDataLayout t).size ∧
      ∀ e < count, ∀ leaf ∈ leavesAt t 0, ∀ k < leaf.2,
        run.getD (e * (pureDataLayout t).size + leaf.1 + k) 0 =
          read (e * (pureDataLayout t).size + leaf.1 + byteAt bigEndian leaf.2 k) := by
  have hinside : ∀ e < count, ∀ leaf ∈ leavesAt t 0, ∀ k < leaf.2,
      e * (pureDataLayout t).size + leaf.1 + k < count * (pureDataLayout t).size := by
    intro e he leaf hleaf k hk
    have hin := (laidOut hfits).inside leaf hleaf
    have hmul : (e + 1) * (pureDataLayout t).size ≤ count * (pureDataLayout t).size :=
      Nat.mul_le_mul_right _ he
    rw [Nat.succ_mul] at hmul
    omega
  have hall : (sequenceStores bigEndian read t count).all
      (fun s => s.1 < count * (pureDataLayout t).size) = true := by
    rw [all_eq_true]
    intro s hs
    obtain ⟨e, he, leaf, hleaf, k, hk, rfl⟩ := mem_sequenceStores.1 hs
    exact decide_eq_true (hinside e he leaf hleaf k hk)
  refine ⟨_, if_pos hall, by rw [length_map, length_range], ?_⟩
  intro e he leaf hleaf k hk
  rw [getD_eq_getElem?_getD, getElem?_map,
    getElem?_range (hinside e he leaf hleaf k hk)]
  show storeAll (fun _ => 0) (sequenceStores bigEndian read t count) _ = _
  apply storeAll_of_mem
  · exact mem_sequenceStores.2 ⟨e, he, leaf, hleaf, k, hk, rfl⟩
  · intro s hs hplace
    obtain ⟨e', -, leaf', hleaf', k', hk', rfl⟩ := mem_sequenceStores.1 hs
    obtain ⟨rfl, rfl, rfl⟩ := place_unique hfits hleaf' hleaf hk' hk hplace
    rfl

/-! ## The Round Trip -/

theorem numelOfFrom_of_checked {extents : List Int64} {total n : UInt64}
    (h : checkedNumelFrom total extents = .ok n) : numelOfFrom total extents = .ok n := by
  induction extents generalizing total with
  | nil =>
    cases h
    rfl
  | cons extent rest ih =>
    unfold checkedNumelFrom at h
    unfold numelOfFrom
    split at h
    · cases h
    · rename_i hneg
      split at h
      · cases h
      · rw [if_neg hneg]
        exact ih h

theorem filledArray_ok {elemType : PureType} {extents : List Int64} {numel : UInt64}
    {stores : List (Nat × UInt8)} {run : List UInt8} (hcounted : checkedNumel extents = .ok numel)
    (hrun : storedRun (numel.toNat * (pureDataLayout elemType).size) stores = some run)
    (hroom : run.length < 2 ^ 64) :
    ∃ result, filledArray elemType extents stores = .ok result ∧ result.elemType = elemType ∧
      result.extents = extents ∧ result.bytes = run := by
  unfold filledArray
  split
  · rename_i what herror
    rw [hcounted] at herror
    cases herror
  · rename_i n hn
    obtain rfl : numel = n := Except.ok.inj (hcounted.symm.trans hn)
    split
    · rename_i hnone
      rw [hrun] at hnone
      cases hnone
    · rename_i bytes hbytes
      obtain rfl : run = bytes := Option.some.inj (hrun.symm.trans hbytes)
      rw [dif_pos hroom]
      exact ⟨_, rfl, rfl, rfl, rfl⟩

/-- What is written is read back, leaf by leaf. -/
theorem plainSequence_roundTrip {array : PlainArray}
    (haggregate : (pureDataLayout array.elemType).aggregate = true)
    (hpos : 0 < (pureDataLayout array.elemType).size)
    (hsmall : (pureDataLayout array.elemType).size < 2 ^ 32) (hfits : Fits array.elemType) :
    ∃ payload result, plainSequenceToLittleEndian bigEndian array = some payload ∧
      plainSequenceFromLittleEndian bigEndian payload array.elemType array.extents = .ok result ∧
      result.elemType = array.elemType ∧ result.extents = array.extents ∧
      ∀ e < array.numel.toNat, ∀ leaf ∈ leavesAt array.elemType 0,
        result.leaf e leaf = array.leaf e leaf := by
  have hsize : array.elementSize = (pureDataLayout array.elemType).size := Nat.mod_eq_of_lt hsmall
  obtain ⟨payload, hto, hlength, hbytes⟩ :=
    storedRun_sequence hfits bigEndian array.read array.numel.toNat
  obtain ⟨run, hfrom, hrunLength, hrun⟩ :=
    storedRun_sequence hfits bigEndian (fun i => payload.getD i 0) array.numel.toNat
  have hroom : run.length < 2 ^ 64 := by
    rw [hrunLength, ← array.held]
    exact array.room
  obtain ⟨result, hresult, helem, hextents, hresultBytes⟩ :=
    filledArray_ok array.counted hfrom hroom
  refine ⟨payload, result, ?_, ?_, helem, hextents, ?_⟩
  · unfold plainSequenceToLittleEndian
    rw [hsize]
    exact hto
  · unfold plainSequenceFromLittleEndian
    have hcount : numelOfFrom 1 array.extents = .ok array.numel :=
      numelOfFrom_of_checked array.counted
    have hinput : payload.length =
        array.numel.toNat * (pureDataLayout array.elemType).size % 2 ^ 64 := by
      rw [Nat.mod_eq_of_lt (array.held ▸ array.room), hlength]
    simp only [if_neg (Nat.pos_iff_ne_zero.1 hpos), haggregate, Bool.true_eq_false, if_false, hcount,
      Nat.mod_eq_of_lt hsmall]
    show (if _ then _ else _) = _
    rw [if_neg (not_not.2 hinput)]
    exact hresult
  · intro e he leaf hleaf
    unfold PlainArray.leaf PlainArray.read
    have hresultSize : result.elementSize = (pureDataLayout array.elemType).size := by
      unfold PlainArray.elementSize
      rw [helem]
      exact Nat.mod_eq_of_lt hsmall
    apply map_congr_left
    intro k hk
    have hk' : k < leaf.2 := mem_range.1 hk
    rw [hresultSize, hsize, hresultBytes, hrun e he leaf hleaf k hk',
      hbytes e he leaf hleaf _ (byteAt_lt hk'), byteAt_byteAt hk']
    rfl

/-- Every pure-data type whose element an address space has room for is laid out soundly, and a
    sequence of an aggregate that is not empty and below 4 GiB is read back as it was written. -/
theorem pureData_laidOut_and_readBack (t : PureType) (hfits : Fits t) :
    LaidOut t ∧
      ∀ (bigEndian : Bool) (array : PlainArray), array.elemType = t →
        (pureDataLayout t).aggregate = true → 0 < (pureDataLayout t).size →
        (pureDataLayout t).size < 2 ^ 32 →
        ∃ payload result, plainSequenceToLittleEndian bigEndian array = some payload ∧
          plainSequenceFromLittleEndian bigEndian payload t array.extents = .ok result ∧
          result.elemType = t ∧ result.extents = array.extents ∧
          ∀ e < array.numel.toNat, ∀ leaf ∈ leavesAt t 0,
            result.leaf e leaf = array.leaf e leaf := by
  refine ⟨laidOut hfits, ?_⟩
  rintro bigEndian array rfl haggregate hpos hsmall
  exact plainSequence_roundTrip bigEndian haggregate hpos hsmall hfits

/-- `{bool, {bf16, f64}, i32}` -/
theorem pureData_laidOut_and_readBack_nested :
    LaidOut (.aggregate [.scalar .bool, .aggregate [.scalar .bfloat16, .scalar .float64],
        .scalar .int32]) ∧
      ∃ payload result,
        plainSequenceToLittleEndian true
          ⟨.aggregate [.scalar .bool, .aggregate [.scalar .bfloat16, .scalar .float64],
            .scalar .int32], [1], 1, List.replicate 32 7, by decide, by decide, by decide⟩ =
              some payload ∧
        plainSequenceFromLittleEndian true payload
          (.aggregate [.scalar .bool, .aggregate [.scalar .bfloat16, .scalar .float64],
            .scalar .int32]) [1] = .ok result := by
  have h := pureData_laidOut_and_readBack (.aggregate [.scalar .bool,
    .aggregate [.scalar .bfloat16, .scalar .float64], .scalar .int32])
    (by unfold Types.Pure.Fits; decide)
  obtain ⟨payload, result, hto, hfrom, -⟩ := h.2 true
    ⟨_, [1], 1, List.replicate 32 7, by decide, by decide, by decide⟩ rfl (by decide) (by decide)
    (by decide)
  exact ⟨h.1, payload, result, hto, hfrom⟩

/-! ## What Is Left Out -/

/-- Two of a type, in two of it, and so on. -/
def doubled : Nat → PureType
  | 0 => .scalar .int64
  | n + 1 => .aggregate [doubled n, doubled n]

theorem layout_doubled (n : Nat) :
    (pureDataLayout (doubled n)).size = 8 * 2 ^ n % 2 ^ 64 ∧
      (pureDataLayout (doubled n)).alignment = 8 := by
  induction n with
  | zero => decide
  | succ n ih =>
    obtain ⟨hsize, halign⟩ := ih
    rw [doubled, pureDataLayout_aggregate]
    have hdouble : 8 * 2 ^ (n + 1) = 2 * (8 * 2 ^ n) := by
      rw [pow_succ]
      omega
    rw [hdouble]
    have hmultiple : 8 ∣ 8 * 2 ^ n := Nat.dvd_mul_right 8 _
    generalize 8 * 2 ^ n = s at hsize hmultiple
    have hmax : max (max 1 8) 8 = 8 := rfl
    simp only [computeLayout, walkFields, FieldWalk.step, alignUp, sizeWord, map_cons,
      map_nil, foldl_cons, foldl_nil, hsize, halign, hmax, and_true]
    omega

theorem leaf_doubled (n : Nat) (start : Nat) : ∃ leaf ∈ leavesAt (doubled n) start, leaf.2 = 8 := by
  induction n generalizing start with
  | zero => exact ⟨(start, 8), mem_singleton.2 rfl, rfl⟩
  | succ n ih =>
    have hoffsets : ∃ offset rest,
        (pureDataLayout (doubled (n + 1))).fieldOffsets = offset :: rest := by
      rw [doubled, pureDataLayout_aggregate]
      exact ⟨_, _, rfl⟩
    obtain ⟨offset, rest, hoffsets⟩ := hoffsets
    obtain ⟨leaf, hleaf, hwidth⟩ := ih (start + offset)
    refine ⟨leaf, ?_, hwidth⟩
    rw [doubled] at hoffsets ⊢
    rw [leavesAt, hoffsets, fieldLeavesAt]
    exact mem_append_left _ hleaf

/-- A sequence of numbers is not read back, and a type of 2 ^ 64 bytes has a layout of none. -/
theorem pureData_not_read_back :
    (plainSequenceToLittleEndian false
        ⟨.scalar .float32, [1], 1, [1, 2, 3, 4], by decide, by decide, by decide⟩ =
          some [1, 2, 3, 4] ∧
      plainSequenceFromLittleEndian false [1, 2, 3, 4] (.scalar .float32) [1] =
        .error .scalarSequence) ∧
    ¬LaidOut (doubled 61) := by
  refine ⟨⟨by decide, rfl⟩, fun h => ?_⟩
  obtain ⟨leaf, hleaf, hwidth⟩ := leaf_doubled 61 0
  have hin := h.inside leaf hleaf
  rw [(layout_doubled 61).1, hwidth] at hin
  omega

end Camel.Tensor
