import Mathlib

/-! # Arrays of References

    An array of references keeps its elements in slots: ten in the object itself, or a
    `FixedArray` when there are more. It states the first extent (`size`) and the number
    of elements (`numel`), and each operation on the slots has a loop of its own. A slot
    holds an address, or null.
-/

namespace Camel.Refs

open List Option

abbrev Slot := Option Nat

def kInlineSlots : Nat := 10

structure SlotArray where
  extents : List Nat
  /-- the first extent; of an array without dimensions, the one element -/
  size : Nat
  numel : Nat
  capacity : Nat
  inlineData : List Slot
  fixedArray : Option (List Slot)

/-! ## Loops over Slots -/

/-- The first `n` slots of `src` copied over those of `dst`; none where one of them ends before. -/
def copyFirst (n : Nat) (src dst : List Slot) : Option (List Slot) :=
  if n ≤ src.length ∧ n ≤ dst.length then some (src.take n ++ dst.drop n) else none

/-- The first `n` slots changed by `f`, but for the null ones; none where the slots end before. -/
def changeFirst (f : Nat → Nat) (n : Nat) (slots : List Slot) : Option (List Slot) :=
  if n ≤ slots.length then some ((slots.take n).map (Option.map f) ++ slots.drop n) else none

/-- The slots from `start` to before `stop` made null; none where the slots end before. -/
def fillNull (start stop : Nat) (slots : List Slot) : Option (List Slot) :=
  if stop ≤ slots.length then
    some (slots.take start ++ (List.replicate (stop - start) none ++ slots.drop stop))
  else none

/-! ## The Operations -/

namespace SlotArray

/-- The slots the array reads and writes. -/
def data (a : SlotArray) : List Slot := a.fixedArray.getD a.inlineData

/-- `getSlot` -/
def getSlot (a : SlotArray) (i : Nat) : Option Slot := a.data[i]?

/-- `createSlotsRank` -/
def createSlotsRank (extents : List Nat) (capacity : Nat) : SlotArray :=
  { extents := extents
    size := extents.headD extents.prod
    numel := extents.prod
    capacity := max capacity kInlineSlots
    inlineData := List.replicate kInlineSlots none
    fixedArray :=
      if kInlineSlots < max capacity kInlineSlots then
        some (List.replicate (max capacity kInlineSlots) none)
      else none }

/-- `updateRefs`. A `FixedArray` is moved as a whole, and its own `updateRefs` changes every slot
    it has. -/
def updateRefs (relocate : Nat → Nat) (a : SlotArray) : Option SlotArray :=
  match a.fixedArray with
  | some slots => some { a with fixedArray := some (slots.map (Option.map relocate)) }
  | none => do return { a with inlineData := ← changeFirst relocate a.size a.inlineData }

/-- `reallocateSlots` -/
def reallocateSlots (newCapacity : Nat) (a : SlotArray) : Option SlotArray :=
  if newCapacity ≤ kInlineSlots then do
    let inlineData ←
      match a.fixedArray with
      | some slots => copyFirst a.size slots a.inlineData
      | none => some a.inlineData
    return { a with inlineData := inlineData, fixedArray := none, capacity := kInlineSlots }
  else do
    let slots ← copyFirst a.size a.data (List.replicate newCapacity none)
    return { a with fixedArray := some slots, capacity := newCapacity }

def reserve (newCapacity : Nat) (a : SlotArray) : Option SlotArray :=
  if a.capacity < newCapacity then a.reallocateSlots newCapacity else some a

/-- The slots changed where they are. -/
def setData (a : SlotArray) (slots : List Slot) : SlotArray :=
  match a.fixedArray with
  | some _ => { a with fixedArray := some slots }
  | none => { a with inlineData := slots }

def resize (newSize : Nat) (a : SlotArray) : Option SlotArray := do
  let a ← a.reserve newSize
  let slots ← if a.size < newSize then fillNull a.size newSize a.data else some a.data
  return { a.setData slots with
           size := newSize, numel := newSize, extents := a.extents.set 0 newSize }

/-- `clone`; `copy` is the copy of an element: the same for a shallow one. -/
def clone (copy : Nat → Nat) (a : SlotArray) : Option SlotArray :=
  let created := createSlotsRank a.extents a.capacity
  match a.fixedArray with
  | some slots => some { created with fixedArray := some (slots.map (Option.map copy)) }
  | none => do
    let slots ← changeFirst copy a.numel a.inlineData
    let inlineData ← copyFirst a.numel slots created.inlineData
    return { created with inlineData := inlineData }

/-- What every array of references keeps: its shape, and slots for its elements. -/
structure Wf (a : SlotArray) : Prop where
  size_eq : a.size = a.extents.headD a.extents.prod
  numel_eq : a.numel = a.extents.prod
  numel_le : a.numel ≤ a.capacity
  inline_length : a.inlineData.length = kInlineSlots
  stored : (a.fixedArray = none ∧ a.capacity = kInlineSlots) ∨
    (∃ slots, a.fixedArray = some slots ∧ slots.length = a.capacity ∧ kInlineSlots < a.capacity)

theorem Wf.data_length {a : SlotArray} (h : a.Wf) : a.data.length = a.capacity := by
  unfold data
  rcases h.stored with ⟨hfixed, hcap⟩ | ⟨slots, hfixed, hlen, -⟩
  · rw [hfixed, hcap]
    exact h.inline_length
  · rw [hfixed]
    exact hlen

end SlotArray

/-! ## What the Loops Leave -/

variable {n i : Nat} {src dst slots result : List Slot}

theorem getElem?_take_append_drop (hsrc : n ≤ src.length) :
    (src.take n ++ dst.drop n)[i]? = if i < n then src[i]? else dst[i]? := by
  have hlen : (src.take n).length = n := by
    rw [length_take, Nat.min_eq_left hsrc]
  by_cases h : i < n
  · rw [if_pos h, getElem?_append_left (by omega), getElem?_take_of_lt h]
  · rw [if_neg h, getElem?_append_right (by omega), getElem?_drop, hlen]
    congr 1
    omega

theorem copyFirst_some (h : copyFirst n src dst = some result) :
    n ≤ src.length ∧ n ≤ dst.length ∧ result.length = dst.length ∧
      ∀ i, result[i]? = if i < n then src[i]? else dst[i]? := by
  unfold copyFirst at h
  by_cases hn : n ≤ src.length ∧ n ≤ dst.length
  · rw [if_pos hn] at h
    cases h
    refine ⟨hn.1, hn.2, ?_, fun i => getElem?_take_append_drop hn.1⟩
    rw [length_append, length_take, length_drop]
    omega
  · rw [if_neg hn] at h
    cases h

theorem changeFirst_some {f : Nat → Nat} (h : changeFirst f n slots = some result) :
    n ≤ slots.length ∧ result.length = slots.length ∧
      ∀ i, result[i]? = if i < n then slots[i]?.map (Option.map f) else slots[i]? := by
  unfold changeFirst at h
  by_cases hn : n ≤ slots.length
  · rw [if_pos hn] at h
    cases h
    refine ⟨hn, ?_, ?_⟩
    · rw [length_append, length_map, length_take, length_drop]
      omega
    · intro i
      have hmap : (slots.take n).map (Option.map f) = (slots.map (Option.map f)).take n :=
        map_take
      have hlen : n ≤ (slots.map (Option.map f)).length := by
        rwa [length_map]
      rw [hmap, getElem?_take_append_drop hlen, getElem?_map]
  · rw [if_neg hn] at h
    cases h

theorem copyFirst_accepted (hsrc : n ≤ src.length) (hdst : n ≤ dst.length) :
    ∃ result, copyFirst n src dst = some result := ⟨_, if_pos ⟨hsrc, hdst⟩⟩

theorem changeFirst_accepted (f : Nat → Nat) (h : n ≤ slots.length) :
    ∃ result, changeFirst f n slots = some result := ⟨_, if_pos h⟩

theorem fillNull_some {start stop : Nat} (hle : start ≤ stop)
    (h : fillNull start stop slots = some result) :
    stop ≤ slots.length ∧
      ∀ i, result[i]? = if start ≤ i ∧ i < stop then some none else slots[i]? := by
  unfold fillNull at h
  by_cases hn : stop ≤ slots.length
  · rw [if_pos hn] at h
    cases h
    refine ⟨hn, ?_⟩
    intro i
    have hlen : (slots.take start).length = start := by
      rw [length_take]
      omega
    by_cases hbefore : i < start
    · rw [if_neg (by omega), getElem?_append_left (by omega), getElem?_take_of_lt hbefore]
    · rw [getElem?_append_right (by omega), hlen]
      by_cases hin : i < stop
      · rw [if_pos ⟨by omega, hin⟩, getElem?_append_left (by simp; omega),
          getElem?_replicate, if_pos (by omega)]
      · rw [if_neg (by omega), getElem?_append_right (by simp; omega), length_replicate,
          getElem?_drop]
        congr 1
        omega
  · rw [if_neg hn] at h
    cases h

/-! ## Keeping Every Element -/

namespace SlotArray

variable {a b : SlotArray}

/-- Every element of `a` is in `b` as `f` has it. -/
def Carries (a b : SlotArray) (f : Nat → Nat) (count : Nat) : Prop :=
  ∀ i < count, b.getSlot i = (a.getSlot i).map (Option.map f)

/-- `updateRefs` relocates every element. -/
def Relocates (a : SlotArray) : Prop :=
  ∀ relocate : Nat → Nat, ∃ b, a.updateRefs relocate = some b ∧ b.numel = a.numel ∧
    Carries a b relocate a.numel

/-- Every operation relocates or keeps every element there is room for. -/
structure KeepsAll (a : SlotArray) : Prop where
  updateRefs : Relocates a
  clone : ∀ copy : Nat → Nat, ∃ b, a.clone copy = some b ∧ b.extents = a.extents ∧
    b.numel = a.numel ∧ Carries a b copy a.numel
  reserve : ∀ n, ∃ b, a.reserve n = some b ∧ b.numel = a.numel ∧ Carries a b id a.numel
  resize : ∀ n, ∃ b, a.resize n = some b ∧ Carries a b id (min a.numel n)
  reallocate : ∀ n, a.size ≤ n → a.numel ≤ n → ∃ b, a.reallocateSlots n = some b ∧
    b.numel = a.numel ∧ Carries a b id a.numel

/-- The elements from the first extent on are null. -/
def NullBeyond (a : SlotArray) : Prop := ∀ i, a.size ≤ i → i < a.numel → a.getSlot i = some none

/-- The same of the slots in the object, where they could hold the elements again. -/
def InlineNullBeyond (a : SlotArray) : Prop :=
  a.fixedArray ≠ none → a.numel ≤ kInlineSlots →
    ∀ i, a.size ≤ i → i < a.numel → a.inlineData[i]? = some none

theorem getSlot_of_lt (h : a.Wf) {i : Nat} (hi : i < a.capacity) : ∃ slot, a.getSlot i = some slot := by
  have hlt : i < a.data.length := by rwa [h.data_length]
  exact ⟨a.data[i], getElem?_eq_getElem hlt⟩

/-- A relocation reaches every element just where nothing lies beyond the first extent. -/
theorem relocates_iff (h : a.Wf) :
    Relocates a ↔ a.fixedArray ≠ none ∨ (a.size ≤ kInlineSlots ∧ NullBeyond a) := by
  rcases h.stored with ⟨hfixed, hcap⟩ | ⟨slots, hfixed, hlen, hlarge⟩
  · have hdata : a.data = a.inlineData := by
      unfold data
      rw [hfixed]
      rfl
    have hupdate : ∀ f, a.updateRefs f =
        (changeFirst f a.size a.inlineData).map fun slots => { a with inlineData := slots } := by
      intro f
      unfold SlotArray.updateRefs
      rw [hfixed]
      cases changeFirst f a.size a.inlineData <;> rfl
    have hnew : ∀ slots i, getSlot { a with inlineData := slots } i = slots[i]? := by
      intro slots i
      unfold getSlot data
      rw [hfixed]
      rfl
    have hold : ∀ i, a.getSlot i = a.inlineData[i]? := by
      intro i
      unfold getSlot
      rw [hdata]
    rw [hfixed]
    simp only [ne_eq, not_true_eq_false, false_or]
    constructor
    · intro hall
      -- a relocator that moves every object
      obtain ⟨b, hb, -, hcarries⟩ := hall (· + 1)
      rw [hupdate] at hb
      cases hc : changeFirst (· + 1) a.size a.inlineData with
      | none =>
        rw [hc] at hb
        cases hb
      | some slots =>
        rw [hc] at hb
        cases hb
        obtain ⟨hsize, -, hget⟩ := changeFirst_some hc
        rw [h.inline_length] at hsize
        refine ⟨hsize, ?_⟩
        intro i hbeyond hi
        have hslot := hcarries i hi
        obtain ⟨slot, hs⟩ := getSlot_of_lt h (Nat.lt_of_lt_of_le hi h.numel_le)
        rw [hnew, hget i, if_neg (by omega), ← hold, hs] at hslot
        rw [hs]
        cases slot with
        | none => rfl
        | some address =>
          have hmoved := some.inj (some.inj hslot)
          exact absurd hmoved.symm (Nat.succ_ne_self address)
    · rintro ⟨hsize, hnull⟩ f
      have hlen : a.size ≤ a.inlineData.length := by rwa [h.inline_length]
      obtain ⟨slots, hc⟩ := changeFirst_accepted f hlen
      refine ⟨{ a with inlineData := slots }, by rw [hupdate, hc]; rfl, rfl, ?_⟩
      obtain ⟨-, -, hget⟩ := changeFirst_some hc
      intro i hi
      rw [hnew, hget i, hold]
      by_cases hin : i < a.size
      · rw [if_pos hin]
      · have hslot := hnull i (by omega) hi
        rw [hold] at hslot
        rw [if_neg hin, hslot]
        rfl
  · rw [hfixed]
    refine ⟨fun _ => .inl (by simp), fun _ f => ?_⟩
    refine ⟨{ a with fixedArray := some (slots.map (Option.map f)) }, ?_, rfl, ?_⟩
    · unfold SlotArray.updateRefs
      rw [hfixed]
    · intro i _
      unfold getSlot data
      rw [hfixed]
      simp

/-- A copy has every element. -/
theorem clone_carries (h : a.Wf) (copy : Nat → Nat) :
    ∃ b, a.clone copy = some b ∧ b.extents = a.extents ∧ b.numel = a.numel ∧
      Carries a b copy a.numel := by
  unfold SlotArray.clone
  rcases h.stored with ⟨hfixed, hcap⟩ | ⟨slots, hfixed, hlen, hlarge⟩
  · have hle : a.numel ≤ a.inlineData.length := by
      rw [h.inline_length, ← hcap]
      exact h.numel_le
    obtain ⟨slots, hc⟩ := changeFirst_accepted copy hle
    obtain ⟨-, hclen, hget⟩ := changeFirst_some hc
    have hroom : a.numel ≤ (createSlotsRank a.extents a.capacity).inlineData.length := by
      show _ ≤ (replicate kInlineSlots none).length
      rw [length_replicate, ← hcap]
      exact h.numel_le
    obtain ⟨inlineData, hcopy⟩ := copyFirst_accepted (hclen.symm ▸ hle) hroom
    obtain ⟨-, -, -, hcget⟩ := copyFirst_some hcopy
    have hinline : (createSlotsRank a.extents a.capacity).fixedArray = none := by
      show (if _ then _ else _) = _
      rw [hcap]
      rfl
    rw [hfixed]
    simp only [hc, hcopy, bind_eq_bind, bind_some]
    refine ⟨_, rfl, rfl, h.numel_eq.symm, ?_⟩
    intro i hi
    unfold getSlot data
    simp only [hinline, hfixed, getD_none]
    rw [hcget i, if_pos hi, hget i, if_pos hi]
  · rw [hfixed]
    refine ⟨_, rfl, rfl, h.numel_eq.symm, ?_⟩
    intro i _
    unfold getSlot data
    rw [hfixed]
    simp

/-- What of an array the growth of its storage keeps: the slots below the first extent, and null
    from there on. -/
structure Grown (a b : SlotArray) (capacity : Nat) : Prop where
  size_eq : b.size = a.size
  numel_eq : b.numel = a.numel
  data_length : b.data.length = capacity
  size_le : a.size ≤ a.data.length
  getSlot_eq : ∀ i < capacity, b.getSlot i = if i < a.size then a.getSlot i else some none

theorem reallocateSlots_large {n : Nat} (hn : kInlineSlots < n)
    (hb : a.reallocateSlots n = some b) : Grown a b n := by
  unfold SlotArray.reallocateSlots at hb
  rw [if_neg (Nat.not_le.mpr hn)] at hb
  cases hc : copyFirst a.size a.data (replicate n none) with
  | none =>
    rw [hc] at hb
    cases hb
  | some slots =>
    rw [hc] at hb
    cases hb
    obtain ⟨hsrc, -, hlen, hget⟩ := copyFirst_some hc
    refine ⟨rfl, rfl, hlen.trans length_replicate, hsrc, ?_⟩
    intro i hi
    show slots[i]? = _
    rw [hget i, getElem?_replicate, if_pos hi]
    rfl

theorem reallocateSlots_large_accepted {n : Nat} (hn : kInlineSlots < n)
    (hsize : a.size ≤ a.data.length) (hroom : a.size ≤ n) :
    ∃ b, a.reallocateSlots n = some b := by
  have hdst : a.size ≤ (replicate n (none : Slot)).length := by
    rwa [length_replicate]
  obtain ⟨slots, hc⟩ := copyFirst_accepted hsize hdst
  unfold SlotArray.reallocateSlots
  rw [if_neg (Nat.not_le.mpr hn), hc]
  exact ⟨_, rfl⟩

theorem map_id_slot (slot : Option Slot) : slot.map (Option.map id) = slot := by
  cases slot with
  | none => rfl
  | some value => cases value <;> rfl

theorem Grown.carries {n : Nat} (h : Grown a b n) (hnull : NullBeyond a) (hn : a.numel ≤ n) :
    Carries a b id a.numel := by
  intro i hi
  rw [h.getSlot_eq i (by omega), map_id_slot]
  by_cases hin : i < a.size
  · rw [if_pos hin]
  · rw [if_neg hin, hnull i (by omega) hi]

/-- Where the growth keeps every element, nothing lay beyond the first extent. -/
theorem Grown.nullBeyond {n : Nat} (h : Grown a b n) (hn : a.numel ≤ n)
    (hcarries : Carries a b id a.numel) : NullBeyond a := by
  intro i hbeyond hi
  have hslot := hcarries i hi
  rw [h.getSlot_eq i (by omega), map_id_slot, if_neg (by omega)] at hslot
  exact hslot.symm

theorem kInlineSlots_le (h : a.Wf) : kInlineSlots ≤ a.capacity := by
  rcases h.stored with ⟨-, hcap⟩ | ⟨slots, -, -, hlarge⟩
  · exact Nat.le_of_eq hcap.symm
  · exact Nat.le_of_lt hlarge

theorem reserve_keeps (h : a.Wf) (hsize : a.size ≤ a.capacity) (hnull : NullBeyond a) (n : Nat) :
    ∃ b, a.reserve n = some b ∧ b.size = a.size ∧ b.numel = a.numel ∧ n ≤ b.data.length ∧
      Carries a b id a.numel := by
  unfold SlotArray.reserve
  by_cases hgrow : a.capacity < n
  · have hlarge : kInlineSlots < n := Nat.lt_of_le_of_lt (kInlineSlots_le h) hgrow
    have hlen : a.size ≤ a.data.length := by rwa [h.data_length]
    obtain ⟨b, hb⟩ := reallocateSlots_large_accepted hlarge hlen (by omega)
    have hgrown := reallocateSlots_large hlarge hb
    rw [if_pos hgrow]
    refine ⟨b, hb, hgrown.size_eq, hgrown.numel_eq, Nat.le_of_eq hgrown.data_length.symm, ?_⟩
    have hle := h.numel_le
    exact hgrown.carries hnull (by omega)
  · rw [if_neg hgrow]
    refine ⟨a, rfl, rfl, rfl, ?_, fun i _ => (map_id_slot _).symm⟩
    rw [h.data_length]
    omega

theorem data_setData (a : SlotArray) (slots : List Slot) : (a.setData slots).data = slots := by
  unfold setData data
  cases a.fixedArray <;> rfl

theorem resize_keeps (h : a.Wf) (hsize : a.size ≤ a.capacity) (hnull : NullBeyond a) (n : Nat) :
    ∃ b, a.resize n = some b ∧ Carries a b id (min a.numel n) := by
  obtain ⟨r, hr, hrsize, -, hrlen, hcarries⟩ := reserve_keeps h hsize hnull n
  unfold SlotArray.resize
  rw [hr, bind_eq_bind, bind_some]
  by_cases hgrow : r.size < n
  · obtain ⟨slots, hf⟩ : ∃ slots, fillNull r.size n r.data = some slots := ⟨_, if_pos hrlen⟩
    rw [if_pos hgrow, hf]
    refine ⟨_, rfl, ?_⟩
    intro i hi
    obtain ⟨-, hget⟩ := fillNull_some (Nat.le_of_lt hgrow) hf
    have hslot := hcarries i (by omega)
    show (r.setData slots).data[i]? = _
    rw [data_setData, hget i]
    by_cases hin : r.size ≤ i ∧ i < n
    · -- the slots filled with null were null
      rw [if_pos hin, map_id_slot, hnull i (by omega) (by omega)]
    · rw [if_neg hin]
      exact hslot
  · rw [if_neg hgrow]
    refine ⟨_, rfl, ?_⟩
    intro i hi
    show (r.setData r.data).data[i]? = _
    rw [data_setData]
    exact hcarries i (by omega)

/-- Shrinking into the object. -/
theorem reallocateSlots_small {n : Nat} (hn : n ≤ kInlineSlots) (h : a.Wf) (hsize : a.size ≤ n) :
    (∃ b, a.reallocateSlots n = some b) ∧ ∀ b, a.reallocateSlots n = some b →
      b.numel = a.numel ∧ (∀ i < a.capacity, b.getSlot i =
        if a.fixedArray = none ∨ i < a.size then a.getSlot i else a.inlineData[i]?) := by
  unfold SlotArray.reallocateSlots
  rw [if_pos hn]
  rcases h.stored with ⟨hfixed, hcap⟩ | ⟨slots, hfixed, hlen, hlarge⟩
  · rw [hfixed]
    refine ⟨⟨_, rfl⟩, ?_⟩
    rintro b ⟨⟩
    refine ⟨rfl, ?_⟩
    intro i _
    rw [if_pos (.inl rfl)]
    unfold getSlot data
    rw [hfixed]
  · have hsrc : a.size ≤ slots.length := by omega
    have hdst : a.size ≤ a.inlineData.length := by
      rw [h.inline_length]
      omega
    obtain ⟨inlineData, hc⟩ := copyFirst_accepted hsrc hdst
    obtain ⟨-, -, -, hget⟩ := copyFirst_some hc
    rw [hfixed]
    simp only [hc, bind_eq_bind, bind_some]
    refine ⟨⟨_, rfl⟩, ?_⟩
    rintro b ⟨⟩
    refine ⟨rfl, ?_⟩
    intro i _
    show inlineData[i]? = _
    rw [hget i]
    unfold getSlot data
    rw [hfixed]
    simp

/-- The elements lie below the first extent, where every loop reaches them, or are null. -/
structure FirstExtentOnly (a : SlotArray) : Prop where
  size_le : a.size ≤ a.capacity
  null : NullBeyond a
  inlineNull : InlineNullBeyond a

/-- Every operation keeps every element just where the elements from the first extent on are null
    and the first extent is within the capacity; `updateRefs` alone also of a `FixedArray`. -/
theorem keepsAll_iff (a : SlotArray) (h : a.Wf) :
    (Relocates a ↔ a.fixedArray ≠ none ∨ (a.size ≤ kInlineSlots ∧ NullBeyond a)) ∧
      (KeepsAll a ↔ FirstExtentOnly a) := by
  refine ⟨relocates_iff h, ?_, ?_⟩
  · intro hall
    have hlarge : kInlineSlots < a.capacity + 1 := Nat.lt_succ_of_le (kInlineSlots_le h)
    obtain ⟨b, hb, -, hcarries⟩ := hall.reserve (a.capacity + 1)
    unfold SlotArray.reserve at hb
    rw [if_pos (Nat.lt_succ_self _)] at hb
    have hgrown := reallocateSlots_large hlarge hb
    have hle := h.numel_le
    have hnull := hgrown.nullBeyond (by omega) hcarries
    refine ⟨?_, hnull, ?_⟩
    · rw [← h.data_length]
      exact hgrown.size_le
    · intro hfixed hten i hbeyond hi
      obtain ⟨c, hc, -, hkept⟩ := hall.reallocate kInlineSlots (by omega) hten
      have hsmall := (reallocateSlots_small (Nat.le_refl _) h (by omega)).2 c hc
      have hslot := hkept i hi
      rw [hsmall.2 i (by omega), if_neg (by simp [hfixed]; omega), map_id_slot,
        hnull i hbeyond hi] at hslot
      exact hslot
  · rintro ⟨hsize, hnull, hinline⟩
    refine ⟨?_, clone_carries h, ?_, resize_keeps h hsize hnull, ?_⟩
    · rw [relocates_iff h]
      rcases h.stored with ⟨-, hcap⟩ | ⟨slots, hfixed, -⟩
      · exact .inr ⟨by rwa [← hcap], hnull⟩
      · left
        rw [hfixed]
        simp
    · intro n
      obtain ⟨b, hb, -, hnumel, -, hcarries⟩ := reserve_keeps h hsize hnull n
      exact ⟨b, hb, hnumel, hcarries⟩
    · intro n hroom hn
      by_cases hsmall : n ≤ kInlineSlots
      · obtain ⟨⟨b, hb⟩, hall⟩ := reallocateSlots_small hsmall h hroom
        obtain ⟨hnumel, hget⟩ := hall b hb
        refine ⟨b, hb, hnumel, ?_⟩
        intro i hi
        have hle := h.numel_le
        rw [hget i (by omega), map_id_slot]
        by_cases hin : a.fixedArray = none ∨ i < a.size
        · rw [if_pos hin]
        · rw [not_or] at hin
          rw [if_neg (not_or.mpr hin), hinline hin.1 (by omega) i (by omega) hi,
            hnull i (by omega) hi]
      · have hlarge : kInlineSlots < n := Nat.lt_of_not_le hsmall
        have hlen : a.size ≤ a.data.length := by rwa [h.data_length]
        obtain ⟨b, hb⟩ := reallocateSlots_large_accepted hlarge hlen hroom
        have hgrown := reallocateSlots_large hlarge hb
        exact ⟨b, hb, hgrown.numel_eq, hgrown.carries hnull hn⟩

/-- Two rows of three references, in the object. -/
def twoRows : SlotArray :=
  { createSlotsRank [2, 3] 6 with
    inlineData := [some 1, some 2, some 3, some 4, some 5, some 6, none, none, none, none] }

theorem twoRows_wf : twoRows.Wf :=
  ⟨rfl, rfl, by decide, rfl, .inl ⟨rfl, rfl⟩⟩

/-- Of two rows of three references a relocation reaches two elements. -/
theorem twoRows_not_kept : ¬ ∀ a : SlotArray, a.Wf → KeepsAll a := by
  intro h
  obtain ⟨b, hb, -, hcarries⟩ := (h twoRows twoRows_wf).updateRefs (· + 100)
  have hslot := hcarries 2 (by decide)
  cases hb
  revert hslot
  decide

/-- Rows of one reference each are kept. -/
theorem keepsAll_iff_column :
    KeepsAll { createSlotsRank [3, 1] 3 with
      inlineData := [some 1, some 2, some 3, none, none, none, none, none, none, none] } := by
  apply (keepsAll_iff _ ⟨rfl, rfl, by decide, rfl, .inl ⟨rfl, rfl⟩⟩).2.mpr
  refine ⟨by decide, ?_, ?_⟩
  · intro i hbeyond hi
    have hsize : 3 ≤ i := hbeyond
    have hnumel : i < 3 := hi
    omega
  · intro hfixed
    exact absurd rfl hfixed

end SlotArray

end Camel.Refs
