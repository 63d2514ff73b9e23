import Camel.Lib.Placement

/-! # Pure Data

    A pure-data type is a number or a boolean, or a struct or tuple whose fields are pure data.
    An array of such a type holds compact elements, laid out as its `DataLayout` says.
-/

namespace Camel.Types.Pure

open Lib List

inductive ScalarCode where
  | int32 | int64 | float32 | float64 | bool | bfloat16 | float16 | complex64 | complex128
  deriving DecidableEq

/-- Structs and tuples are laid out alike; a declared struct stands for its fields. -/
inductive PureType where
  | scalar (code : ScalarCode)
  | aggregate (fields : List PureType)

/-- The compact byte layout of a pure-data type; `scalar` is none for an aggregate. -/
structure DataLayout where
  size : Nat
  alignment : Nat
  aggregate : Bool
  scalar : Option ScalarCode
  fieldOffsets : List Nat
  slotResident : Bool
  slotShaped : Bool

/-! ## Layouts -/

def scalarDataLayout : ScalarCode → DataLayout
  | .int32 => ⟨4, 4, false, some .int32, [], true, false⟩
  | .int64 => ⟨8, 8, false, some .int64, [], true, false⟩
  | .float32 => ⟨4, 4, false, some .float32, [], true, false⟩
  | .float64 => ⟨8, 8, false, some .float64, [], true, false⟩
  | .bool => ⟨1, 1, false, some .bool, [], true, false⟩
  | .bfloat16 => ⟨2, 2, false, some .bfloat16, [], true, false⟩
  | .float16 => ⟨2, 2, false, some .float16, [], true, false⟩
  | .complex64 => ⟨8, 4, false, some .complex64, [], false, false⟩
  | .complex128 => ⟨16, 8, false, some .complex128, [], false, false⟩

/-- What a sum comes to in a machine word. -/
def sizeWord (n : Nat) : Nat := n % 2 ^ 64

/-! `word` is what an addition does to its sum: `sizeWord` in the source, nothing where the
    numbers themselves are meant. -/

section Layout

variable (word : Nat → Nat)

def alignUp (value alignment : Nat) : Nat := word (value + alignment - 1) / alignment * alignment

/-- The walk over the fields so far. -/
structure FieldWalk where
  offset : Nat
  alignment : Nat
  fieldOffsets : List Nat
  slotShaped : Bool

def FieldWalk.step (walk : FieldWalk) (field : DataLayout) : FieldWalk :=
  let slotShaped := walk.slotShaped && field.slotResident && !field.aggregate &&
    field.size = 8 && walk.offset = 8 * walk.fieldOffsets.length
  let offset := alignUp word walk.offset field.alignment
  { offset := word (offset + field.size)
    alignment := max walk.alignment field.alignment
    fieldOffsets := walk.fieldOffsets ++ [offset]
    slotShaped := slotShaped }

def walkFields (fields : List DataLayout) : FieldWalk :=
  fields.foldl (FieldWalk.step word)
    { offset := 0, alignment := 1, fieldOffsets := [], slotShaped := fields ≠ [] }

def computeLayout (fields : List DataLayout) : DataLayout :=
  let walk := walkFields word fields
  { size := alignUp word walk.offset walk.alignment
    alignment := walk.alignment
    aggregate := true
    scalar := none
    fieldOffsets := walk.fieldOffsets
    slotResident := false
    slotShaped := walk.slotShaped }

mutual

def layoutIn : PureType → DataLayout
  | .scalar code => scalarDataLayout code
  | .aggregate fields => computeLayout word (layoutsIn fields)

def layoutsIn : List PureType → List DataLayout
  | [] => []
  | t :: ts => layoutIn t :: layoutsIn ts

end

end Layout

def pureDataLayout : PureType → DataLayout := layoutIn sizeWord

/-- The layout as it is in numbers without a bound. -/
def exactLayout : PureType → DataLayout := layoutIn id

theorem layoutsIn_eq (word : Nat → Nat) (ts : List PureType) :
    layoutsIn word ts = ts.map (layoutIn word) := by
  induction ts with
  | nil => rfl
  | cons t ts ih => rw [layoutsIn, ih, map_cons]

theorem pureDataLayout_aggregate (fields : List PureType) :
    pureDataLayout (.aggregate fields) = computeLayout sizeWord (fields.map pureDataLayout) := by
  rw [pureDataLayout, layoutIn, layoutsIn_eq]

theorem exactLayout_aggregate (fields : List PureType) :
    exactLayout (.aggregate fields) = computeLayout id (fields.map exactLayout) := by
  rw [exactLayout, layoutIn, layoutsIn_eq]

/-- What holds of an aggregate once it holds of its fields holds of every pure-data type. -/
theorem PureType.induct {motive : PureType → Prop} (scalar : ∀ code, motive (.scalar code))
    (aggregate : ∀ fields, (∀ t ∈ fields, motive t) → motive (.aggregate fields)) (t : PureType) :
    motive t := by
  cases t with
  | scalar code => exact scalar code
  | aggregate fields =>
    exact aggregate fields fun t _ => PureType.induct scalar aggregate t
termination_by sizeOf t
decreasing_by
  have hlt := sizeOf_lt_of_mem ‹_›
  simp only [PureType.aggregate.sizeOf_spec]
  omega

/-! ## The Walk over the Fields -/

/-- What every field's layout keeps: an alignment that divides a slot and the size. -/
structure WellAligned (layout : DataLayout) : Prop where
  slot : layout.alignment ∣ 8
  size : layout.alignment ∣ layout.size

theorem WellAligned.pos {layout : DataLayout} (h : WellAligned layout) : 0 < layout.alignment :=
  Nat.pos_of_dvd_of_pos h.slot (by decide)

def blockOf (layout : DataLayout) : LayoutBlock := ⟨layout.alignment, layout.size⟩

theorem max_dvd_eight {a b : Nat} (ha : a ∣ 8) (hb : b ∣ 8) : max a b ∣ 8 := by
  rcases max_choice a b with h | h <;> rw [h] <;> assumption

theorem dvd_max {a b : Nat} (ha : a ∣ 8) (hb : b ∣ 8) : a ∣ max a b ∧ b ∣ max a b := by
  have hcases : ∀ c, c ∣ 8 → c = 1 ∨ c = 2 ∨ c = 4 ∨ c = 8 := by
    intro c hc
    have hle := Nat.le_of_dvd (by decide) hc
    interval_cases c <;> simp_all
  rcases hcases a ha with rfl | rfl | rfl | rfl <;>
    rcases hcases b hb with rfl | rfl | rfl | rfl <;> decide

/-- Without a bound the walk places the fields' blocks. -/
theorem foldl_step_id (fields : List DataLayout) (walk : FieldWalk) :
    (fields.foldl (FieldWalk.step id) walk).offset =
        (place walk.offset (fields.map blockOf)).2 ∧
      (fields.foldl (FieldWalk.step id) walk).fieldOffsets =
        walk.fieldOffsets ++ (place walk.offset (fields.map blockOf)).1 := by
  induction fields generalizing walk with
  | nil => exact ⟨rfl, (append_nil _).symm⟩
  | cons field fields ih =>
    obtain ⟨hoffset, hoffsets⟩ := ih (walk.step id field)
    rw [foldl_cons, hoffset, hoffsets]
    refine ⟨rfl, ?_⟩
    show (walk.fieldOffsets ++ [_]) ++ _ = _
    rw [append_assoc]
    rfl

variable {walk : FieldWalk} {t : PureType}

/-- The walk's alignment serves every field. -/
theorem foldl_step_alignment (word : Nat → Nat) {fields : List DataLayout}
    (hfields : ∀ l ∈ fields, l.alignment ∣ 8) (hwalk : walk.alignment ∣ 8) :
    (fields.foldl (FieldWalk.step word) walk).alignment ∣ 8 ∧
      walk.alignment ∣ (fields.foldl (FieldWalk.step word) walk).alignment ∧
      ∀ l ∈ fields, l.alignment ∣ (fields.foldl (FieldWalk.step word) walk).alignment := by
  induction fields generalizing walk with
  | nil => exact ⟨hwalk, Nat.dvd_refl _, fun l hl => nomatch hl⟩
  | cons field fields ih =>
    have hfield : field.alignment ∣ 8 := hfields field mem_cons_self
    have hmax : (walk.step word field).alignment ∣ 8 := max_dvd_eight hwalk hfield
    obtain ⟨height, hstart, hall⟩ :=
      @ih (walk.step word field) (fun l hl => hfields l (.tail _ hl)) hmax
    have hdvd := dvd_max hwalk hfield
    rw [foldl_cons]
    refine ⟨height, hdvd.1.trans hstart, fun l hl => ?_⟩
    rcases mem_cons.1 hl with rfl | hl
    · exact hdvd.2.trans hstart
    · exact hall l hl

theorem exactLayout_wellAligned (t : PureType) : WellAligned (exactLayout t) := by
  induction t using PureType.induct with
  | scalar code => cases code <;> exact ⟨by decide, by decide⟩
  | aggregate fields ih =>
    rw [exactLayout_aggregate]
    constructor
    · apply (foldl_step_alignment id _ (Nat.one_dvd 8)).1
      intro l hl
      obtain ⟨t, ht, rfl⟩ := mem_map.1 hl
      exact (ih t ht).slot
    · exact dvd_roundUp _ _

/-! ## Machine Words -/

/-- An aligned offset that fits a word is found in words. -/
theorem alignUp_sizeWord {value alignment : Nat} (hdvd : alignment ∣ 8)
    (h : alignUp id value alignment < 2 ^ 64) :
    alignUp sizeWord value alignment = alignUp id value alignment := by
  have hpos : 0 < alignment := Nat.pos_of_dvd_of_pos hdvd (by decide)
  have hword : alignment ∣ 2 ^ 64 := hdvd.trans (by decide)
  have hlt : value + alignment - 1 < 2 ^ 64 := by
    -- a multiple of the alignment below 2 ^ 64 leaves room for the alignment
    obtain ⟨k, hk⟩ := hword
    obtain ⟨j, hj⟩ : alignment ∣ alignUp id value alignment := dvd_roundUp value alignment
    have hjk : j + 1 ≤ k := by
      apply Nat.lt_of_mul_lt_mul_left (a := alignment)
      rw [← hj, ← hk]
      exact h
    have hroom : alignment * (j + 1) ≤ alignment * k := Nat.mul_le_mul_left _ hjk
    have hge : value ≤ alignUp id value alignment := le_roundUp hpos
    rw [Nat.mul_succ, ← hj, ← hk] at hroom
    omega
  unfold alignUp sizeWord
  rw [Nat.mod_eq_of_lt hlt]
  rfl

theorem step_sizeWord {field : DataLayout} (hdvd : field.alignment ∣ 8)
    (h : (walk.step id field).offset < 2 ^ 64) : walk.step sizeWord field = walk.step id field := by
  have hle : alignUp id walk.offset field.alignment < 2 ^ 64 :=
    lt_of_le_of_lt (Nat.le_add_right _ field.size) h
  unfold FieldWalk.step
  rw [alignUp_sizeWord hdvd hle]
  have hsum : sizeWord (alignUp id walk.offset field.alignment + field.size) =
      alignUp id walk.offset field.alignment + field.size := Nat.mod_eq_of_lt h
  simp only [hsum, id]

theorem le_foldl_step {fields : List DataLayout}
    (hfields : ∀ l ∈ fields, l.alignment ∣ 8) :
    walk.offset ≤ (fields.foldl (FieldWalk.step id) walk).offset := by
  rw [(foldl_step_id fields walk).1]
  apply (place_placed _ walk.offset).le
  intro b hb
  obtain ⟨l, hl, rfl⟩ := mem_map.1 hb
  exact Nat.pos_of_dvd_of_pos (hfields l hl) (by decide)

theorem foldl_step_sizeWord {fields : List DataLayout}
    (hfields : ∀ l ∈ fields, l.alignment ∣ 8)
    (h : (fields.foldl (FieldWalk.step id) walk).offset < 2 ^ 64) :
    fields.foldl (FieldWalk.step sizeWord) walk = fields.foldl (FieldWalk.step id) walk := by
  induction fields generalizing walk with
  | nil => rfl
  | cons field fields ih =>
    have htail : ∀ l ∈ fields, l.alignment ∣ 8 := fun l hl => hfields l (.tail _ hl)
    have hstep : (walk.step id field).offset < 2 ^ 64 :=
      lt_of_le_of_lt (le_foldl_step htail) h
    rw [foldl_cons, foldl_cons, step_sizeWord (hfields field mem_cons_self) hstep]
    exact ih htail h

/-- An element of the type has an address space's room. -/
def Fits (t : PureType) : Prop := (exactLayout t).size < 2 ^ 64

def PureType.fields : PureType → List PureType
  | .scalar _ => []
  | .aggregate fields => fields

/-- Where the walk over an aggregate's fields ends, before the size is rounded up. -/
theorem exactLayout_placed (fields : List PureType) :
    ∃ stop, Placed 0 (fields.map fun t => blockOf (exactLayout t))
        (exactLayout (.aggregate fields)).fieldOffsets stop ∧
      stop ≤ (exactLayout (.aggregate fields)).size ∧
      stop = (walkFields id (fields.map exactLayout)).offset := by
  have hpos : ∀ b ∈ (fields.map exactLayout).map blockOf, 0 < b.alignment := by
    intro b hb
    obtain ⟨l, hl, rfl⟩ := mem_map.1 hb
    obtain ⟨t, -, rfl⟩ := mem_map.1 hl
    exact (exactLayout_wellAligned t).pos
  have hplaced := place_placed hpos 0
  obtain ⟨hoffset, hoffsets⟩ := foldl_step_id (fields.map exactLayout)
    ⟨0, 1, [], fields.map exactLayout ≠ []⟩
  have hround := exactLayout_wellAligned (.aggregate fields)
  rw [exactLayout_aggregate] at hround ⊢
  refine ⟨_, ?_, ?_, rfl⟩
  · have hblocks : (fields.map fun t => blockOf (exactLayout t)) =
        (fields.map exactLayout).map blockOf := by
      rw [map_map]
      rfl
    show Placed 0 _ (walkFields id (fields.map exactLayout)).fieldOffsets _
    unfold walkFields
    rw [hblocks, hoffset, hoffsets, nil_append]
    exact hplaced
  · exact le_roundUp hround.pos

theorem exactLayout_size_le {fields : List PureType} (h : t ∈ fields) :
    (exactLayout t).size ≤ (exactLayout (.aggregate fields)).size := by
  obtain ⟨stop, hplaced, hstop, -⟩ := exactLayout_placed fields
  have hmem : blockOf (exactLayout t) ∈ fields.map fun t => blockOf (exactLayout t) :=
    mem_map_of_mem h
  obtain ⟨i, hi, hget⟩ := getElem_of_mem hmem
  have hlen := hplaced.length_eq
  have hzip : (blockOf (exactLayout t), (exactLayout (.aggregate fields)).fieldOffsets[i]) ∈
      (fields.map fun t => blockOf (exactLayout t)).zip
        (exactLayout (.aggregate fields)).fieldOffsets := by
    rw [mem_iff_getElem]
    refine ⟨i, by simp only [length_zip]; omega, ?_⟩
    rw [getElem_zip, hget]
  have hend := (hplaced.mem_zip hzip).2.2
  show (blockOf (exactLayout t)).size ≤ _
  omega

theorem Fits.field {fields : List PureType} (h : Fits (.aggregate fields))
    (ht : t ∈ fields) : Fits t :=
  lt_of_le_of_lt (exactLayout_size_le ht) h

/-- A type whose element fits is laid out as in numbers without a bound. -/
theorem pureDataLayout_eq (h : Fits t) : pureDataLayout t = exactLayout t := by
  induction t using PureType.induct with
  | scalar code => rfl
  | aggregate fields ih =>
    have hfields : fields.map pureDataLayout = fields.map exactLayout :=
      map_congr_left fun t ht => ih t ht (h.field ht)
    have hslot : ∀ l ∈ fields.map exactLayout, l.alignment ∣ 8 := by
      intro l hl
      obtain ⟨t, -, rfl⟩ := mem_map.1 hl
      exact (exactLayout_wellAligned t).slot
    obtain ⟨stop, -, hstop, hwalk⟩ := exactLayout_placed fields
    have hoffset : stop < 2 ^ 64 := lt_of_le_of_lt hstop h
    rw [hwalk] at hoffset
    have hsame : walkFields sizeWord (fields.map exactLayout) =
        walkFields id (fields.map exactLayout) := foldl_step_sizeWord hslot hoffset
    have hend := exactLayout_wellAligned (.aggregate fields)
    unfold Fits at h
    rw [exactLayout_aggregate] at h hend
    rw [pureDataLayout_aggregate, exactLayout_aggregate, hfields]
    have hsize : alignUp sizeWord (walkFields id (fields.map exactLayout)).offset
          (walkFields id (fields.map exactLayout)).alignment =
        alignUp id (walkFields id (fields.map exactLayout)).offset
          (walkFields id (fields.map exactLayout)).alignment := alignUp_sizeWord hend.slot h
    unfold computeLayout
    simp only [hsame, hsize]

/-! ## Leaves -/

mutual

/-- The byte ranges of the numbers in an element that starts at `start`: offsets and widths. -/
def leavesAt : PureType → Nat → List (Nat × Nat)
  | .scalar code, start => [(start, (scalarDataLayout code).size)]
  | .aggregate fields, start =>
    fieldLeavesAt fields (pureDataLayout (.aggregate fields)).fieldOffsets start

def fieldLeavesAt : List PureType → List Nat → Nat → List (Nat × Nat)
  | [], _, _ => []
  | _ :: _, [], _ => []
  | t :: ts, offset :: offsets, start =>
    leavesAt t (start + offset) ++ fieldLeavesAt ts offsets start

end

/-- The ranges are apart from each other, in order, between `start` and `stop`. -/
def Apart (start stop : Nat) (ranges : List (Nat × Nat)) : Prop :=
  ranges.Pairwise (fun a b => a.1 + a.2 ≤ b.1) ∧
    ∀ r ∈ ranges, start ≤ r.1 ∧ r.1 + r.2 ≤ stop

theorem Apart.append {start mid stop : Nat} {as bs : List (Nat × Nat)} (ha : Apart start mid as)
    (hb : Apart mid stop bs) (hmid : start ≤ mid) (hstop : mid ≤ stop) :
    Apart start stop (as ++ bs) := by
  constructor
  · rw [pairwise_append]
    refine ⟨ha.1, hb.1, fun a hma b hmb => ?_⟩
    exact (ha.2 a hma).2.trans (hb.2 b hmb).1
  · intro r hr
    rcases mem_append.1 hr with hr | hr
    · exact ⟨(ha.2 r hr).1, (ha.2 r hr).2.trans hstop⟩
    · exact ⟨hmid.trans (hb.2 r hr).1, (hb.2 r hr).2⟩

theorem Apart.widen {start start' stop stop' : Nat} {ranges : List (Nat × Nat)}
    (h : Apart start' stop' ranges) (hstart : start ≤ start') (hstop : stop' ≤ stop) :
    Apart start stop ranges :=
  ⟨h.1, fun r hr => ⟨hstart.trans (h.2 r hr).1, (h.2 r hr).2.trans hstop⟩⟩

/-- The fields' leaves are apart once each field's are. -/
theorem fieldLeavesAt_apart {ts : List PureType} {offsets : List Nat} {start from' stop : Nat}
    (hplaced : Placed from' (ts.map fun t => blockOf (pureDataLayout t)) offsets stop)
    (hts : ∀ t ∈ ts, ∀ start, Apart start (start + (pureDataLayout t).size) (leavesAt t start)) :
    Apart (start + from') (start + stop) (fieldLeavesAt ts offsets start) := by
  induction ts generalizing offsets from' with
  | nil =>
    rw [fieldLeavesAt]
    exact ⟨Pairwise.nil, fun r hr => nomatch hr⟩
  | cons t ts ih =>
    obtain ⟨offset, rest, rfl, hle, -, hrest⟩ := hplaced
    have hhead := hts t mem_cons_self (start + offset)
    have htail := ih hrest fun t ht => hts t (.tail _ ht)
    have hend : offset + (pureDataLayout t).size ≤ stop := hrest.le
    rw [fieldLeavesAt]
    apply @Apart.append _ (start + (offset + (pureDataLayout t).size))
    · exact hhead.widen (by omega) (by omega)
    · exact htail
    · omega
    · omega

theorem leavesAt_apart (h : Fits t) (start : Nat) :
    Apart start (start + (pureDataLayout t).size) (leavesAt t start) := by
  induction t using PureType.induct generalizing start with
  | scalar code =>
    rw [leavesAt]
    refine ⟨pairwise_singleton _ _, fun r hr => ?_⟩
    rw [mem_singleton.1 hr]
    exact ⟨le_rfl, le_rfl⟩
  | aggregate fields ih =>
    obtain ⟨stop, hplaced, hstop, -⟩ := exactLayout_placed fields
    have hfields : (fields.map fun t => blockOf (exactLayout t)) =
        fields.map fun t => blockOf (pureDataLayout t) := by
      apply map_congr_left
      intro t ht
      rw [pureDataLayout_eq (h.field ht)]
    rw [hfields, ← pureDataLayout_eq h] at hplaced
    rw [← pureDataLayout_eq h] at hstop
    rw [leavesAt]
    exact (fieldLeavesAt_apart hplaced fun t ht => ih t ht (h.field ht)).widen
      (Nat.le_add_right _ _) (Nat.add_le_add_left hstop _)

/-! ## Slot-Shaped Aggregates -/

theorem alignUp_id_of_dvd {value alignment : Nat} (ha : alignment ∣ 8) (hvalue : 8 ∣ value) :
    alignUp id value alignment = value :=
  roundUp_of_dvd (Nat.pos_of_dvd_of_pos ha (by decide)) (ha.trans hvalue)

/-- A walk that ends slot-shaped has put one slot-resident field after the other, a slot each. -/
theorem foldl_step_slotShaped {fields : List DataLayout}
    (hfields : ∀ l ∈ fields, l.alignment ∣ 8)
    (hstart : walk.slotShaped = true → walk.offset = 8 * walk.fieldOffsets.length)
    (h : (fields.foldl (FieldWalk.step id) walk).slotShaped = true) :
    (∀ l ∈ fields, l.slotResident = true ∧ l.aggregate = false ∧ l.size = 8) ∧
      walk.slotShaped = true ∧
      (fields.foldl (FieldWalk.step id) walk).offset = walk.offset + 8 * fields.length ∧
      (fields.foldl (FieldWalk.step id) walk).fieldOffsets =
        walk.fieldOffsets ++ (range fields.length).map fun i => walk.offset + 8 * i := by
  induction fields generalizing walk with
  | nil => exact ⟨(fun l hl => nomatch hl), h, rfl, (append_nil _).symm⟩
  | cons field fields ih =>
    rw [foldl_cons] at h ⊢
    have hfield : field.alignment ∣ 8 := hfields field mem_cons_self
    -- one step that stays slot-shaped moves on by one slot
    have hstep : (walk.step id field).slotShaped = true →
        (walk.slotShaped = true ∧ field.slotResident = true ∧ field.aggregate = false ∧
          field.size = 8 ∧ walk.offset = 8 * walk.fieldOffsets.length) ∧
        (walk.step id field).offset = walk.offset + 8 ∧
        (walk.step id field).fieldOffsets = walk.fieldOffsets ++ [walk.offset] := by
      intro hs
      simp only [FieldWalk.step, Bool.and_eq_true, Bool.not_eq_true', decide_eq_true_eq] at hs
      obtain ⟨⟨⟨⟨hshaped, hresident⟩, haggregate⟩, hsize⟩, hoffset⟩ := hs
      have halign : alignUp id walk.offset field.alignment = walk.offset :=
        alignUp_id_of_dvd hfield ⟨_, hoffset⟩
      refine ⟨⟨hshaped, hresident, haggregate, hsize, hoffset⟩, ?_, ?_⟩
      · simp only [FieldWalk.step, halign, hsize, id]
      · simp only [FieldWalk.step, halign]
    have hnext : (walk.step id field).slotShaped = true →
        (walk.step id field).offset = 8 * (walk.step id field).fieldOffsets.length := by
      intro hs
      obtain ⟨⟨-, -, -, -, hoffset⟩, hmoved, hoffsets⟩ := hstep hs
      rw [hmoved, hoffsets, length_append, length_singleton, hoffset]
      omega
    obtain ⟨hall, hshaped, hend, hoffsets⟩ :=
      ih (fun l hl => hfields l (.tail _ hl)) hnext h
    obtain ⟨⟨hwalk, hresident, haggregate, hsize, -⟩, hmoved, hone⟩ := hstep hshaped
    refine ⟨fun l hl => ?_, hwalk, ?_, ?_⟩
    · rcases mem_cons.1 hl with rfl | hl
      · exact ⟨hresident, haggregate, hsize⟩
      · exact hall l hl
    · rw [hend, hmoved, length_cons]
      omega
    · rw [hoffsets, hone, hmoved, length_cons, range_succ_eq_map, append_assoc]
      simp only [map_cons, map_map, singleton_append, mul_zero, add_zero]
      congr 2
      apply map_congr_left
      intro i _
      simp only [Function.comp_apply]
      omega

theorem exists_scalar (h : (pureDataLayout t).aggregate = false) :
    ∃ code, t = .scalar code := by
  cases t with
  | scalar code => exact ⟨code, rfl⟩
  | aggregate fields =>
    rw [pureDataLayout_aggregate] at h
    cases h

theorem exists_scalars {ts : List PureType}
    (h : ∀ t ∈ ts, (pureDataLayout t).aggregate = false) :
    ∃ codes : List ScalarCode, ts = codes.map .scalar := by
  induction ts with
  | nil => exact ⟨[], rfl⟩
  | cons t ts ih =>
    obtain ⟨code, rfl⟩ := exists_scalar (h t mem_cons_self)
    obtain ⟨codes, rfl⟩ := ih fun t ht => h t (.tail _ ht)
    exact ⟨code :: codes, rfl⟩

/-- Slot-sized numbers at the offsets a slot apart are the leaves. -/
theorem fieldLeavesAt_scalars {codes : List ScalarCode}
    (h : ∀ c ∈ codes, (scalarDataLayout c).size = 8) (offset : Nat) :
    fieldLeavesAt (codes.map .scalar) ((range codes.length).map fun i => offset + 8 * i) 0 =
      (range codes.length).map fun i => (offset + 8 * i, 8) := by
  induction codes generalizing offset with
  | nil => rfl
  | cons code codes ih =>
    have hcode : (scalarDataLayout code).size = 8 := h code mem_cons_self
    have htail := ih (fun c hc => h c (.tail _ hc)) (offset + 8)
    have hshift : ∀ i, offset + 8 * (i + 1) = offset + 8 + 8 * i := by
      intro i
      omega
    rw [length_cons, range_succ_eq_map]
    simp only [map_cons, map_map, Function.comp_def, mul_zero, add_zero,
      Nat.succ_eq_add_one, hshift, fieldLeavesAt, leavesAt, hcode, zero_add, htail,
      singleton_append]

/-! ## Every Layout -/

/-- What a layout promises of the fields, the leaves, the size and the bulk-copy flag. -/
structure LaidOut (t : PureType) : Prop where
  aligned : ∀ p ∈ t.fields.zip (pureDataLayout t).fieldOffsets, (pureDataLayout p.1).alignment ∣ p.2
  placed : (pureDataLayout t).fieldOffsets.length = t.fields.length
  apart : (leavesAt t 0).Pairwise fun a b => a.1 + a.2 ≤ b.1
  inside : ∀ leaf ∈ leavesAt t 0, leaf.1 + leaf.2 ≤ (pureDataLayout t).size
  rounded : (pureDataLayout t).alignment ∣ (pureDataLayout t).size
  least : ∀ fields offsets stop size, t = .aggregate fields →
    Placed 0 (fields.map fun f => blockOf (pureDataLayout f)) offsets stop → stop ≤ size →
    (∀ f ∈ fields, (pureDataLayout f).alignment ∣ size) → (pureDataLayout t).size ≤ size
  slots : (pureDataLayout t).slotShaped = true →
    ∃ codes : List ScalarCode, t = .aggregate (codes.map .scalar) ∧
      (∀ c ∈ codes, (scalarDataLayout c).slotResident = true ∧ (scalarDataLayout c).size = 8) ∧
      (pureDataLayout t).size = 8 * codes.length ∧
      leavesAt t 0 = (List.range codes.length).map fun i => (8 * i, 8)

/-- An aggregate's fields placed by its layout: where they end, and that nothing ends earlier. -/
theorem pureDataLayout_placed {fields : List PureType} (h : Fits (.aggregate fields)) :
    ∃ stop, Placed 0 (fields.map fun t => blockOf (pureDataLayout t))
        (pureDataLayout (.aggregate fields)).fieldOffsets stop ∧
      (pureDataLayout (.aggregate fields)).size =
        roundUp stop (pureDataLayout (.aggregate fields)).alignment ∧
      ∀ offsets stop', Placed 0 (fields.map fun t => blockOf (pureDataLayout t)) offsets stop' →
        stop ≤ stop' := by
  have hfields : (fields.map fun t => blockOf (pureDataLayout t)) =
      fields.map fun t => blockOf (exactLayout t) := by
    apply map_congr_left
    intro t ht
    rw [pureDataLayout_eq (h.field ht)]
  obtain ⟨stop, hplaced, -, hstop⟩ := exactLayout_placed fields
  rw [hfields, pureDataLayout_eq h]
  refine ⟨stop, hplaced, ?_, fun offsets stop' hother => ?_⟩
  · rw [hstop, exactLayout_aggregate]
    rfl
  · have hpos : ∀ b ∈ fields.map fun t => blockOf (exactLayout t), 0 < b.alignment := by
      intro b hb
      obtain ⟨t, -, rfl⟩ := mem_map.1 hb
      exact (exactLayout_wellAligned t).pos
    have hwalk := (foldl_step_id (fields.map exactLayout)
      ⟨0, 1, [], fields.map exactLayout ≠ []⟩).1
    have hleast := place_le hpos (le_refl 0) hother
    rw [map_map] at hwalk
    rw [hstop]
    unfold walkFields
    rw [hwalk]
    exact hleast

theorem wellAligned (h : Fits t) : WellAligned (pureDataLayout t) := by
  rw [pureDataLayout_eq h]
  exact exactLayout_wellAligned t

/-- The alignment of an aggregate is one, or one of its fields'. -/
theorem alignment_dvd {fields : List DataLayout} {size : Nat}
    (hwalk : walk.alignment ∣ size) (hfields : ∀ l ∈ fields, l.alignment ∣ size)
    (word : Nat → Nat) : (fields.foldl (FieldWalk.step word) walk).alignment ∣ size := by
  induction fields generalizing walk with
  | nil => exact hwalk
  | cons field fields ih =>
    apply ih
    · show max walk.alignment field.alignment ∣ size
      rcases max_choice walk.alignment field.alignment with hmax | hmax
      · rw [hmax]
        exact hwalk
      · rw [hmax]
        exact hfields field mem_cons_self
    · exact fun l hl => hfields l (.tail _ hl)

theorem slotShaped_scalars (h : Fits t) (hshaped : (pureDataLayout t).slotShaped = true) :
    ∃ codes : List ScalarCode, t = .aggregate (codes.map .scalar) ∧
      (∀ c ∈ codes, (scalarDataLayout c).slotResident = true ∧ (scalarDataLayout c).size = 8) ∧
      (pureDataLayout t).size = 8 * codes.length ∧
      leavesAt t 0 = (range codes.length).map fun i => (8 * i, 8) := by
  cases t with
  | scalar code => cases code <;> cases hshaped
  | aggregate fields =>
    have hslot : ∀ l ∈ fields.map exactLayout, l.alignment ∣ 8 := by
      intro l hl
      obtain ⟨t, -, rfl⟩ := mem_map.1 hl
      exact (exactLayout_wellAligned t).slot
    have halign := wellAligned h
    rw [pureDataLayout_eq h, exactLayout_aggregate] at hshaped halign
    obtain ⟨hall, -, hoffset, hoffsets⟩ :=
      foldl_step_slotShaped hslot (fun _ => rfl) hshaped
    have hlayout : ∀ t ∈ fields, (pureDataLayout t).slotResident = true ∧
        (pureDataLayout t).aggregate = false ∧ (pureDataLayout t).size = 8 := by
      intro t ht
      rw [pureDataLayout_eq (h.field ht)]
      exact hall _ (mem_map_of_mem ht)
    obtain ⟨codes, rfl⟩ := exists_scalars fun t ht => (hlayout t ht).2.1
    have hcodes : ∀ c ∈ codes, (scalarDataLayout c).slotResident = true ∧
        (scalarDataLayout c).size = 8 := by
      intro c hc
      obtain ⟨hresident, -, hsize⟩ := hlayout _ (mem_map_of_mem hc)
      exact ⟨hresident, hsize⟩
    rw [length_map, length_map, zero_add] at hoffset
    rw [length_map, length_map, nil_append] at hoffsets
    refine ⟨codes, rfl, hcodes, ?_, ?_⟩
    · rw [pureDataLayout_eq h, exactLayout_aggregate]
      show alignUp id (FieldWalk.offset _) _ = _
      unfold walkFields
      rw [hoffset]
      exact alignUp_id_of_dvd halign.slot (Nat.dvd_mul_right 8 _)
    · rw [leavesAt, pureDataLayout_eq h, exactLayout_aggregate]
      show fieldLeavesAt _ (FieldWalk.fieldOffsets _) 0 = _
      unfold walkFields
      rw [hoffsets]
      simpa using fieldLeavesAt_scalars (fun c hc => (hcodes c hc).2) 0

theorem laidOut (h : Fits t) : LaidOut t := by
  have hapart := leavesAt_apart h 0
  have halign := wellAligned h
  refine ⟨?_, ?_, hapart.1, ?_, halign.size, ?_, slotShaped_scalars h⟩
  · intro p hp
    cases t with
    | scalar code => cases hp
    | aggregate fields =>
      obtain ⟨stop, hplaced, -⟩ := pureDataLayout_placed h
      have hzip : (blockOf (pureDataLayout p.1), p.2) ∈
          (fields.map fun t => blockOf (pureDataLayout t)).zip
            (pureDataLayout (.aggregate fields)).fieldOffsets := by
        rw [zip_map_left]
        exact mem_map_of_mem hp
      exact (hplaced.mem_zip hzip).1
  · cases t with
    | scalar code => cases code <;> rfl
    | aggregate fields =>
      obtain ⟨stop, hplaced, -⟩ := pureDataLayout_placed h
      rw [hplaced.length_eq, length_map]
      rfl
  · intro leaf hleaf
    have hend := (hapart.2 leaf hleaf).2
    rwa [zero_add] at hend
  · rintro fields offsets stop size rfl hplaced hstop hsize
    obtain ⟨end', -, hround, hleast⟩ := pureDataLayout_placed h
    rw [hround]
    apply roundUp_le halign.pos ((hleast offsets stop hplaced).trans hstop)
    rw [pureDataLayout_aggregate]
    apply alignment_dvd (Nat.one_dvd size)
    intro l hl
    obtain ⟨f, hf, rfl⟩ := mem_map.1 hl
    exact hsize f hf

end Camel.Types.Pure
