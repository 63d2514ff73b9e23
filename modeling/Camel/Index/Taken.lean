import Camel.Index.Take
import Camel.Lib.Upholds
import Mathlib

/-! # What a Selection Holds

    A slice, an index and an index list hold the elements of their parent at the moved
    coordinates: the one on the axis is the position selected there, every other stays.
    The positions lie inside the axis, also where the count of a slice wraps in 64 bits,
    because a wrapped count only gets smaller.
-/

namespace Camel.Index

open Lib Extents List

/-! ## The Positions of an Accepted Slice -/

/-- A number that is some turns away from one that fits. -/
theorem bmod_of_turns {x y : Int} (k : Int) (h : x = y + 2 ^ 64 * k) (hy : Fits y) :
    Int.bmod x (2 ^ 64) = y := by
  rw [h]
  exact (Int.add_mul_bmod_self_left y (2 ^ 64) k).trans (bmod_of_fits hy)

/-- A quotient rounded up whose sum does not fit is not too large. -/
theorem ceil_le {a s : Int64} {d t : Nat} (ha : a.toInt = d)
    (hs : s.toInt = t ∨ (t = 2 ^ 63 ∧ s.toInt = -2 ^ 63)) (hd : 0 < d) (ht : 0 < t)
    (hover : 2 ^ 63 ≤ d + t) :
    ((a + s - 1) / s).toInt ≤ ((d + t - 1) / t : Nat) := by
  have hdlt : d < 2 ^ 63 := by
    have hmax := Int64.toInt_lt a
    omega
  have htle : t ≤ 2 ^ 63 := by
    have hmax := Int64.toInt_lt s
    omega
  have hsum : (a + s).toInt = d + t - 2 ^ 64 := by
    rw [Int64.toInt_add, ha]
    rcases hs with hs | ⟨rfl, hs⟩
    · rw [hs]
      exact bmod_of_turns 1 (by omega) ⟨by omega, by omega⟩
    · rw [hs, bmod_of_fits ⟨by omega, by omega⟩]
      omega
  rw [Int64.toInt_div, Int64.toInt_sub, hsum, Int64.toInt_one]
  by_cases hedge : d + t = 2 ^ 63
  · -- the sum comes back to the largest number when one is taken off
    have hback : Int.bmod ((d : Int) + t - 2 ^ 64 - 1) (2 ^ 64) = (d + t - 1 : Nat) :=
      bmod_of_turns (-1) (by omega) ⟨by omega, by omega⟩
    have hsmall : s.toInt = t := by omega
    have hle : (d + t - 1) / t ≤ d + t - 1 := Nat.div_le_self _ _
    rw [hback, hsmall, ← Int.ofNat_tdiv]
    generalize (d + t - 1) / t = q at hle ⊢
    rw [bmod_of_fits ⟨by omega, by omega⟩]
  have hone : 1 ≤ (d + t - 1) / t := by
    rw [Nat.le_div_iff_mul_le ht]
    omega
  generalize (d + t - 1) / t = r at hone ⊢
  have hback : Int.bmod ((d : Int) + t - 2 ^ 64 - 1) (2 ^ 64) = -(2 ^ 64 + 1 - d - t : Nat) := by
    rw [bmod_of_fits ⟨by omega, by omega⟩]
    omega
  have hle : (2 ^ 64 + 1 - d - t) / t ≤ 2 ^ 64 + 1 - d - t := Nat.div_le_self _ _
  rw [hback, Int.neg_tdiv]
  rcases hs with hs | ⟨rfl, hs⟩
  · rw [hs, ← Int.ofNat_tdiv]
    generalize (2 ^ 64 + 1 - d - t) / t = q at hle ⊢
    rw [bmod_of_fits ⟨by omega, by omega⟩]
    omega
  · have hquot : (2 ^ 64 + 1 - d - 2 ^ 63) / 2 ^ 63 ≤ 1 := by omega
    rw [hs, Int.tdiv_neg, neg_neg]
    show Int.bmod (Int.tdiv (2 ^ 64 + 1 - d - 2 ^ 63 : Nat) (2 ^ 63 : Nat)) (2 ^ 64) ≤ r
    rw [← Int.ofNat_tdiv]
    generalize (2 ^ 64 + 1 - d - 2 ^ 63) / 2 ^ 63 = q at hquot ⊢
    rw [bmod_of_fits ⟨by omega, by omega⟩]
    omega

variable {start stop step : Int64}

/-- The count never exceeds the number of positions before the end. -/
theorem sliceCount_le (h : step ≠ 0) (hfar : ahead start.toInt stop.toInt step.toInt < 2 ^ 63) :
    (sliceCount start stop step).value.toInt ≤ steps start.toInt stop.toInt step.toInt := by
  have hstep := toInt_ne_zero h
  have hspec := sliceCount_spec start stop h
  by_cases hfits : SliceFits start.toInt stop.toInt step.toInt
  · exact le_of_eq (hspec.2 hfits)
  have hover : ahead start.toInt stop.toInt step.toInt ≠ 0 ∧
      2 ^ 63 ≤ ahead start.toInt stop.toInt step.toInt + step.toInt.natAbs := by
    unfold SliceFits at hfits
    omega
  rw [steps_eq_div]
  rcases Int.lt_or_gt_of_ne hstep with hneg | hfwd
  · have hd : ahead start.toInt stop.toInt step.toInt = _ := ahead_neg hneg
    have hlow := Int64.le_toInt step
    rw [sliceCount_backward hneg (by omega)]
    apply ceil_le (a := start - stop) (s := -step) _ _ (by omega) (by omega) hover.2
    · rw [Int64.toInt_sub, bmod_of_fits ⟨by omega, by omega⟩]
      omega
    · by_cases hmin : step.toInt = -2 ^ 63
      · right
        rw [Int64.toInt_neg, hmin]
        exact ⟨rfl, rfl⟩
      · left
        rw [Int64.toInt_neg, bmod_of_fits ⟨by omega, by omega⟩]
        omega
  · have hd : ahead start.toInt stop.toInt step.toInt = _ := ahead_pos hfwd
    rw [sliceCount_forward hfwd (by omega)]
    apply ceil_le (a := stop - start) (s := step) _ _ (by omega) (by omega) hover.2
    · rw [Int64.toInt_sub, bmod_of_fits ⟨by omega, by omega⟩]
      omega
    · left
      omega

variable {extent startRaw endRaw written : Int64} {what : String} {range : SliceRange}

/-- The positions of an accepted slice lie inside the axis. -/
theorem positions_inside (hn : 0 ≤ extent.toInt)
    (h : sliceRange extent startRaw endRaw step written what = .ok range) :
    range.step = step ∧ step ≠ 0 ∧ ∀ p ∈ range.positions, 0 ≤ p ∧ p < extent.toInt := by
  by_cases h0 : step = 0
  · unfold sliceRange at h
    rw [if_pos h0] at h
    cases h
  rw [sliceRange_eq hn h0] at h
  by_cases hout : WrittenOutside extent startRaw endRaw step written
  · rw [if_pos hout] at h
    cases h
  rw [if_neg hout] at h
  cases h
  have hmax := Int64.toInt_lt extent
  obtain ⟨hpos, hneg⟩ := bounds_inside h0 hout
  have hfar : ahead (sliceStart extent startRaw step written).toInt
      (sliceEnd extent endRaw step written).toInt step.toInt < 2 ^ 63 := by
    rw [toInt_sliceStart hn, toInt_sliceEnd]
    rcases Int.lt_or_gt_of_ne (toInt_ne_zero h0) with hs | hs
    · have hb := hneg hs
      rw [ahead_neg hs]
      omega
    · have hb := hpos hs
      rw [ahead_pos hs]
      omega
  have hcount := sliceCount_le h0 hfar
  rw [toInt_sliceStart hn, toInt_sliceEnd] at hcount
  refine ⟨rfl, h0, ?_⟩
  intro p hp
  unfold SliceRange.positions walk at hp
  obtain ⟨k, hk, rfl⟩ := mem_map.mp hp
  rw [toInt_sliceStart hn]
  apply inside_of_lt_steps h0 hout
  exact lt_of_lt_of_le (mem_range.mp hk) (Int.toNat_le.mpr hcount)

/-! ## Places in the Parent -/

/-- The coordinates with the one on the axis replaced by the position it selects. -/
def moveTo (axis : Nat) (positions : List Int) (cs : List Nat) : List Nat :=
  moveAxis axis (fun c => (positions.getD c 0).toNat) cs

/-- The flat index in the parent of the element a selection holds at flat index `i`. -/
def placeOf (dims : List Nat) (axis : Nat) (positions : List Int) (i : Nat) : Nat :=
  flatOf dims (moveTo axis positions (coordsOf (dims.set axis positions.length) i))

/-- The positions lie on an axis there is. -/
def OnAxis (dims : List Nat) (axis : Nat) (positions : List Int) : Prop :=
  axis < dims.length ∧ ∀ p ∈ positions, 0 ≤ p ∧ p < dims.getD axis 0

variable {dims cs : List Nat} {axis : Nat} {positions : List Int}

theorem getD_set_self {n : Nat} (h : axis < dims.length) : (dims.set axis n).getD axis 0 = n := by
  rw [getD_eq_getElem _ _ (by simpa using h), getElem_set_self]

/-- A coordinate on the axis names one of the positions, which is not negative. -/
theorem coord_lt (h : OnAxis dims axis positions)
    (hcs : Inside cs (dims.set axis positions.length)) :
    cs.getD axis 0 < positions.length ∧
      positions.getD (cs.getD axis 0) 0 ∈ positions := by
  have hlt := hcs.getD_lt (k := axis) (by simpa using h.1)
  rw [getD_set_self h.1] at hlt
  refine ⟨hlt, ?_⟩
  rw [getD_eq_getElem _ _ hlt]
  exact getElem_mem hlt

theorem moveTo_inside (h : OnAxis dims axis positions)
    (hcs : Inside cs (dims.set axis positions.length)) :
    Inside (moveTo axis positions cs) dims := by
  obtain ⟨h0, hlt⟩ := h.2 _ (coord_lt h hcs).2
  have hset := hcs.set (k := axis) (c := (positions.getD (cs.getD axis 0) 0).toNat)
    (e := dims.getD axis 0) (by omega)
  rw [List.set_set, getD_eq_getElem _ _ h.1, set_getElem_self] at hset
  exact hset

variable {i : Nat}

section
variable (h : OnAxis dims axis positions)
include h

theorem placeOf_lt
    (hi : i < (dims.set axis positions.length).prod) : placeOf dims axis positions i < dims.prod :=
  flatOf_lt (moveTo_inside h (inside_coordsOf hi))

/-- Coordinates moved to different positions stay different. -/
theorem moveTo_inj (hnodup : positions.Nodup) {ds : List Nat}
    (hcs : Inside cs (dims.set axis positions.length))
    (hds : Inside ds (dims.set axis positions.length))
    (heq : moveTo axis positions cs = moveTo axis positions ds) : cs = ds := by
  have hlen : ∀ es, Inside es (dims.set axis positions.length) → es.length = dims.length := by
    intro es hes
    rw [hes.length, length_set]
  obtain ⟨hc, hcmem⟩ := coord_lt h hcs
  obtain ⟨hd, hdmem⟩ := coord_lt h hds
  have hc0 := (h.2 _ hcmem).1
  have hd0 := (h.2 _ hdmem).1
  have haxis : cs.getD axis 0 = ds.getD axis 0 := by
    have hget := congrArg (fun l => l.getD axis 0) heq
    unfold moveTo moveAxis at hget
    have hlc : axis < cs.length := by rw [hlen cs hcs]; exact h.1
    have hld : axis < ds.length := by rw [hlen ds hds]; exact h.1
    simp only [getD_eq_getElem?_getD, getElem?_set_self hlc,
      getElem?_set_self hld, Option.getD_some] at hget
    simp only [← getD_eq_getElem?_getD] at hget
    have hpos : positions.getD (cs.getD axis 0) 0 = positions.getD (ds.getD axis 0) 0 := by omega
    rw [getD_eq_getElem _ _ hc, getD_eq_getElem _ _ hd] at hpos
    exact (Nodup.getElem_inj_iff hnodup).mp hpos
  apply ext_getElem?
  intro k
  by_cases hk : axis = k
  · subst hk
    have hlc : axis < cs.length := by rw [hlen cs hcs]; exact h.1
    have hld : axis < ds.length := by rw [hlen ds hds]; exact h.1
    rw [getD_eq_getElem _ _ hlc, getD_eq_getElem _ _ hld] at haxis
    rw [getElem?_eq_getElem hlc, getElem?_eq_getElem hld, haxis]
  · have hget := congrArg (fun l => l[k]?) heq
    unfold moveTo moveAxis at hget
    simpa [getElem?_set_ne hk] using hget

theorem placeOf_inj (hnodup : positions.Nodup) {j : Nat}
    (hi : i < (dims.set axis positions.length).prod)
    (hj : j < (dims.set axis positions.length).prod)
    (heq : placeOf dims axis positions i = placeOf dims axis positions j) : i = j := by
  have hmoved := congrArg (coordsOf dims) heq
  unfold placeOf at hmoved
  rw [coordsOf_flatOf (moveTo_inside h (inside_coordsOf hi)),
    coordsOf_flatOf (moveTo_inside h (inside_coordsOf hj))] at hmoved
  have hcoords := moveTo_inj h hnodup (inside_coordsOf hi) (inside_coordsOf hj) hmoved
  rw [← flatOf_coordsOf hi, hcoords, flatOf_coordsOf hj]

/-- The loop over the dimensions computes the place. -/
theorem parentIndexFrom_place {position : Nat → Int}
    (hposition : ∀ c < positions.length, position c = positions.getD c 0)
    (hi : i < (dims.set axis positions.length).prod) :
    (parentIndexFrom axis position i 0 (dims.set axis positions.length)
      (rowMajorStrides dims)).2.toNat = placeOf dims axis positions i := by
  have hes : ∀ e ∈ dims.set axis positions.length, 0 < e := by
    intro e he
    apply pos_of_ne_zero
    rintro rfl
    rw [prod_eq_zero he] at hi
    omega
  have hmoved : 0 ≤ axis → ∀ c < (dims.set axis positions.length).getD (axis - 0) 0,
      position c = ((positions.getD c 0).toNat : Nat) := by
    intro _ c hc
    have hlt : c < positions.length := by
      rwa [Nat.sub_zero, getD_set_self h.1] at hc
    have hmem : positions.getD c 0 ∈ positions := by
      rw [getD_eq_getElem _ _ hlt]
      exact getElem_mem hlt
    rw [hposition c hlt, Int.toNat_of_nonneg (h.2 _ hmem).1]
  rw [@parentIndexFrom_eq axis i position (fun c => (positions.getD c 0).toNat) _ dims hes
    (by simp) 0 hmoved]
  rfl

end

/-! ## Arrays That Hold a Selection -/

variable {α : Type} [Inhabited α]

namespace Arr

variable {a res : Arr α} {extents : List Int64}

/-- The shape and the elements, whatever the storage. -/
def contents (a : Arr α) : List Int64 × List α := (a.extents, a.elements)

variable {compact : Bool} {value : Nat → α}

theorem tabulate_ok
    (h : tabulate compact extents value = .ok res) :
    NonNeg extents ∧ res.extents = extents ∧ res.offset = 0 ∧
      res.block = (List.range (Extents.numel extents)).map value := by
  unfold tabulate at h
  split at h
  · cases h
  · rename_i n hn
    cases h
    exact ⟨(checkedNumel_ok hn).1, rfl, rfl, rfl⟩

theorem get_tabulate
    (h : tabulate compact extents value = .ok res) {i : Nat} (hi : i < Extents.numel extents) :
    res.get i = value i := by
  obtain ⟨-, -, hoffset, hblock⟩ := tabulate_ok h
  unfold get
  rw [hoffset, hblock, zero_add, getD_eq_getElem _ _ (by simpa using hi)]
  simp

variable {off : Nat}

theorem view_ok (h : a.view extents off = .ok res) :
    NonNeg extents ∧ res.extents = extents ∧ off + Extents.numel extents ≤ a.numel ∧
      ∀ i, res.get i = a.get (off + i) := by
  unfold view at h
  split at h
  · cases h
  · rename_i n hn
    obtain ⟨hpos, hnumel⟩ := checkedNumel_ok hn
    split at h
    · rename_i hin
      cases h
      refine ⟨hpos, rfl, by omega, ?_⟩
      intro i
      show a.block.getD (a.offset + off + i) default = a.block.getD (a.offset + (off + i)) default
      rw [add_assoc]
    · cases h

theorem view_refused {what : String} (hn : checkedNumel extents = .error what) :
    a.view extents off = .error (.refused what) := by
  unfold view
  split
  · rename_i w hw
    cases hn.symm.trans hw
    rfl
  · rename_i n hw
    cases hn.symm.trans hw

theorem view_accepted {n : UInt64} (hn : checkedNumel extents = .ok n)
    (hin : off + n.toNat ≤ a.numel) : ∃ v, a.view extents off = .ok v := by
  unfold view
  split
  · rename_i w hw
    cases hn.symm.trans hw
  · rename_i m hw
    cases hn.symm.trans hw
    rw [dif_pos ⟨by omega, by omega⟩]
    exact ⟨_, rfl⟩

theorem tabulate_refused {what : String} (hn : checkedNumel extents = .error what) (compact : Bool)
    (value : Nat → α) : tabulate compact extents value = .error (.refused what) := by
  unfold tabulate
  split
  · rename_i w hw
    cases hn.symm.trans hw
    rfl
  · rename_i n hw
    cases hn.symm.trans hw

theorem tabulate_accepted {n : UInt64} (hn : checkedNumel extents = .ok n) (compact : Bool)
    (value : Nat → α) : ∃ t, tabulate compact extents value = .ok t := by
  unfold tabulate
  split
  · rename_i w hw
    cases hn.symm.trans hw
  · exact ⟨_, rfl⟩

/-- A view inside its source and a copy of the same elements are accepted alike and have the same
    contents. -/
theorem view_contents
    (h : off + Extents.numel extents ≤ a.numel ∧
      ∀ i < Extents.numel extents, a.get (off + i) = value i) :
    (a.view extents off).map contents = (tabulate compact extents value).map contents := by
  cases hn : checkedNumel extents with
  | error what =>
    rw [view_refused hn, tabulate_refused hn]
  | ok n =>
    obtain ⟨-, hnumel⟩ := checkedNumel_ok hn
    obtain ⟨hin, hvalue⟩ := h
    obtain ⟨v, hv⟩ := view_accepted (a := a) (n := n) hn (by omega : off + n.toNat ≤ a.numel)
    obtain ⟨t, ht⟩ := tabulate_accepted hn compact value
    obtain ⟨-, hve, -, hvget⟩ := view_ok hv
    obtain ⟨-, hte, -, -⟩ := tabulate_ok ht
    rw [hv, ht]
    show Except.ok (contents v) = Except.ok (contents t)
    unfold contents elements numel
    rw [hve, hte]
    congr 2
    apply map_congr_left
    intro i hi
    rw [mem_range] at hi
    rw [hvget, hvalue i hi, get_tabulate ht hi]

theorem contents_eq_iff {b : Arr α} : a.contents = b.contents ↔
    a.extents = b.extents ∧ ∀ i < a.numel, a.get i = b.get i := by
  unfold contents elements numel
  rw [Prod.mk.injEq]
  constructor
  · rintro ⟨he, hl⟩
    rw [he] at hl ⊢
    refine ⟨rfl, fun i hi => ?_⟩
    rw [map_inj_left] at hl
    exact hl i (mem_range.mpr hi)
  · rintro ⟨he, hl⟩
    rw [he] at hl ⊢
    refine ⟨rfl, ?_⟩
    apply map_congr_left
    intro i hi
    exact hl i (mem_range.mp hi)

omit [Inhabited α] in
theorem dim_nonneg (a : Arr α) (axis : Nat) : 0 ≤ (a.dim axis).toInt := by
  unfold dim
  by_cases h : axis < a.extents.length
  · rw [getD_eq_getElem _ _ h]
    exact a.nonneg _ (getElem_mem h)
  · rw [getD_eq_default _ _ (by omega)]
    exact le_refl 0

omit [Inhabited α] in
theorem getD_dims (a : Arr α) (axis : Nat) :
    ((a.dims.getD axis 0 : Nat) : Int) = (a.dim axis).toInt := by
  have hmap : a.dims.getD axis 0 = (a.dim axis).toInt.toNat := by
    unfold dims dimsOf dim
    rw [getD_eq_getElem?_getD, getElem?_map, getD_eq_getElem?_getD]
    cases a.extents[axis]? <;> rfl
  rw [hmap, Int.toNat_of_nonneg (a.dim_nonneg axis)]

omit [Inhabited α] in
@[simp] theorem length_dims (a : Arr α) : a.dims.length = a.rank := by
  simp [dims, dimsOf, rank]

end Arr

/-- `res` holds the elements of `a` at these positions of the axis. -/
structure Takes (a res : Arr α) (axis : Nat) (positions : List Int) : Prop where
  on_axis : OnAxis a.dims axis positions
  dims_eq : res.dims = a.dims.set axis positions.length
  element : ∀ cs, Inside cs res.dims →
    Inside (moveTo axis positions cs) a.dims ∧ res.at' cs = a.at' (moveTo axis positions cs)

variable {a res : Arr α}

theorem takes_of_get (h : OnAxis a.dims axis positions)
    (hdims : res.dims = a.dims.set axis positions.length)
    (hget : ∀ i < res.numel, res.get i = a.get (placeOf a.dims axis positions i)) :
    Takes a res axis positions := by
  refine ⟨h, hdims, ?_⟩
  intro cs hcs
  have hi : flatOf res.dims cs < res.numel := flatOf_lt hcs
  refine ⟨moveTo_inside h (by rwa [← hdims]), ?_⟩
  unfold Arr.at'
  rw [hget _ hi]
  unfold placeOf
  rw [← hdims, coordsOf_flatOf hcs]

theorem Takes.get (h : Takes a res axis positions) (hi : i < res.numel) :
    res.get i = a.get (placeOf a.dims axis positions i) := by
  have hi' : i < res.dims.prod := hi
  have helem := (h.element _ (inside_coordsOf hi')).2
  unfold Arr.at' at helem
  rw [flatOf_coordsOf hi'] at helem
  rw [helem, placeOf, h.dims_eq]

/-- Only the contents matter. -/
theorem Takes.congr {res' : Arr α} (h : Takes a res axis positions)
    (heq : res.contents = res'.contents) : Takes a res' axis positions := by
  obtain ⟨hextents, hget⟩ := Arr.contents_eq_iff.1 heq
  have hdims : res'.dims = res.dims := by
    unfold Arr.dims
    rw [hextents]
  have hnumel : res'.numel = res.numel := by
    unfold Arr.numel
    rw [hextents]
  apply takes_of_get h.on_axis (hdims.trans h.dims_eq)
  intro i hi
  rw [hnumel] at hi
  rw [← hget i hi, h.get hi]

/-! ## Slices -/

theorem dimsOf_set (extents : List Int64) (axis : Nat) (e : Int64) :
    dimsOf (extents.set axis e) = (dimsOf extents).set axis e.toInt.toNat :=
  map_set

/-- A slice by one starts inside its axis or just behind it. -/
theorem start_inside (h : sliceRange extent startRaw endRaw 1 written what = .ok range) :
    0 ≤ range.start.toInt ∧ range.start.toInt ≤ extent.toInt := by
  have hne : ¬ (1 : Int64) = 0 := by decide
  have hpos : (0 : Int64).toInt < (1 : Int64).toInt := by decide
  unfold sliceRange at h
  simp only [if_neg hne, Int64.lt_iff_toInt_lt, Int64.toInt_zero] at h
  by_cases hout : (sliceStart extent startRaw 1 written).toInt < 0 ∨
      extent.toInt < (sliceStart extent startRaw 1 written).toInt ∨
      (sliceEnd extent endRaw 1 written).toInt < 0 ∨
      extent.toInt < (sliceEnd extent endRaw 1 written).toInt
  · rw [if_pos hout] at h
    cases h
  · rw [if_neg hout] at h
    cases h
    show 0 ≤ (sliceStart extent startRaw 1 written).toInt ∧
      (sliceStart extent startRaw 1 written).toInt ≤ extent.toInt
    omega

theorem length_positions (r : SliceRange) : r.positions.length = r.count.toInt.toNat := by
  simp [SliceRange.positions]

theorem parentIndexOfSlice_eq (h : OnAxis dims axis range.positions)
    (hi : i < (dims.set axis range.positions.length).prod) :
    parentIndexOfSlice i (dims.set axis range.positions.length) (rowMajorStrides dims) axis range =
      placeOf dims axis range.positions i := by
  apply parentIndexFrom_place h _ hi
  intro c hc
  rw [length_positions] at hc
  exact (getD_walk hc).symm

/-- A slice of the first axis by one is a run. -/
theorem placeOf_unit {d : Nat} {ds : List Nat} {start : Int} {count : Nat} (hstart : 0 ≤ start)
    (hi : i < count * ds.prod) :
    placeOf (d :: ds) 0 (walk start 1 count) i = start.toNat * ds.prod + i := by
  have hquot : i / ds.prod < count := by
    apply Nat.div_lt_of_lt_mul
    rwa [mul_comm]
  have hmod := Nat.div_add_mod i ds.prod
  rw [mul_comm] at hmod
  unfold placeOf
  rw [length_walk, set_cons_zero, coordsOf, moveTo, moveAxis_zero, flatOf,
    Nat.mod_eq_of_lt hquot, getD_walk hquot, flatOf_coordsOf_mod]
  have hnat : (start + (i / ds.prod : Nat) * 1).toNat = start.toNat + i / ds.prod := by
    generalize i / ds.prod = q
    omega
  rw [hnat, add_mul]
  omega

variable {axisArg : Int64} {step? written? : Option Int64}

omit [Inhabited α] in
/-- The range a slice takes is on its axis. -/
theorem onAxis_of_sliceRange {axisName : String} (hax : readAxis axisName a.rank axisArg = .ok axis)
    (h : sliceRange (a.dim axis) startRaw endRaw step written what = .ok range) :
    OnAxis a.dims axis range.positions := by
  refine ⟨by simpa using readAxis_lt hax, ?_⟩
  intro p hp
  rw [Arr.getD_dims]
  exact (positions_inside (a.dim_nonneg axis) h).2.2 p hp

omit [Inhabited α] in
theorem dims_sliced (a : Arr α) (axis : Nat) (range : SliceRange) :
    dimsOf (slicedExtents a axis range) = a.dims.set axis range.positions.length := by
  rw [slicedExtents, dimsOf_set, length_positions]
  rfl

/-- The elements a slice copies. -/
def sliceValue (a : Arr α) (axis : Nat) (range : SliceRange) (i : Nat) : α :=
  a.get (parentIndexOfSlice i (dimsOf (slicedExtents a axis range)) (rowMajorStrides a.dims) axis
    range)

theorem sliceValue_eq (h : OnAxis a.dims axis range.positions)
    (hi : i < Extents.numel (slicedExtents a axis range)) :
    sliceValue a axis range i = a.get (placeOf a.dims axis range.positions i) := by
  rw [← prod_dimsOf, dims_sliced] at hi
  unfold sliceValue
  rw [dims_sliced, parentIndexOfSlice_eq h hi]

/-- The view of a slice by one along the first axis: it stays inside, and its elements are those
    the copy would have. -/
theorem view_slice (hrank : 0 < a.rank)
    (h : sliceRange (a.dim 0) startRaw endRaw 1 written what = .ok range)
    :
    (range.start * (fillStrides a.extents).headD 0).toUInt64.toNat +
        Extents.numel (slicedExtents a 0 range) ≤ a.numel ∧
      ∀ i < Extents.numel (slicedExtents a 0 range),
        a.get ((range.start * (fillStrides a.extents).headD 0).toUInt64.toNat + i) =
          sliceValue a 0 range i := by
  obtain ⟨hstep, hne, hinside⟩ := positions_inside (a.dim_nonneg 0) h
  obtain ⟨h0, hle⟩ := start_inside h
  have haxis : OnAxis a.dims 0 range.positions := by
    refine ⟨by simpa using hrank, ?_⟩
    intro p hp
    rw [Arr.getD_dims]
    exact hinside p hp
  obtain ⟨e, es, hes⟩ : ∃ e es, a.extents = e :: es := by
    cases hcases : a.extents with
    | nil =>
      unfold Arr.rank at hrank
      rw [hcases] at hrank
      cases hrank
    | cons e es => exact ⟨e, es, rfl⟩
  have hdim : a.dim 0 = e := by
    unfold Arr.dim
    rw [hes]
    rfl
  have hdims : a.dims = e.toInt.toNat :: dimsOf es := by
    unfold Arr.dims
    rw [hes]
    rfl
  have hnumel : a.numel = e.toInt.toNat * Extents.numel es := by
    unfold Arr.numel
    rw [hes, numel_cons]
  have hpositions : range.positions = walk range.start.toInt 1 range.count.toInt.toNat := by
    unfold SliceRange.positions
    rw [hstep]
    rfl
  have hsliced : Extents.numel (slicedExtents a 0 range) =
      range.count.toInt.toNat * Extents.numel es := by
    unfold slicedExtents
    rw [hes, set_cons_zero, numel_cons]
  -- the last position lies inside the axis
  have hfar : range.start.toInt.toNat + range.count.toInt.toNat ≤ e.toInt.toNat := by
    rw [hdim] at hle hinside
    by_cases hcount : range.count.toInt.toNat = 0
    · omega
    · have hlast : range.start.toInt + (range.count.toInt.toNat - 1 : Nat) * 1 ∈
          range.positions := by
        rw [hpositions]
        exact mem_map.mpr ⟨_, mem_range.mpr (by omega), rfl⟩
      have hin := hinside _ hlast
      omega
  have hmul : (range.start.toInt.toNat + range.count.toInt.toNat) * Extents.numel es ≤
      a.numel := by
    rw [hnumel]
    exact Nat.mul_le_mul_right _ hfar
  rw [add_mul] at hmul
  have hsmall := a.small
  have hes' : NonNeg es := fun x hx => a.nonneg x (by rw [hes]; exact .tail _ hx)
  have hoff : (range.start * (fillStrides a.extents).headD 0).toUInt64.toNat =
      range.start.toInt.toNat * Extents.numel es := by
    have hlt : range.start.toInt.toNat * Extents.numel es < 2 ^ 64 := by omega
    rw [hes, Int64.toUInt64_mul, UInt64.toNat_mul, toNat_fillStrides_head hes',
      toNat_toUInt64 (not_lt_zero_iff.2 h0), Nat.mul_mod_mod, Nat.mod_eq_of_lt hlt]
  rw [hoff, hsliced]
  refine ⟨hmul, ?_⟩
  intro i hi
  have hi' : i < Extents.numel (slicedExtents a 0 range) := by rwa [hsliced]
  have hplace : placeOf (e.toInt.toNat :: dimsOf es) 0
      (walk range.start.toInt 1 range.count.toInt.toNat) i =
        range.start.toInt.toNat * Extents.numel es + i := placeOf_unit h0 hi
  rw [sliceValue_eq haxis hi', hdims, hpositions, hplace]

/-- A slice of an array that is not compact is copied. -/
def uncompact (a : Arr α) : Arr α := { a with compact := false }

theorem sliceSub_eq (hax : sliceAxis a axisArg = .ok axis)
    (h : sliceRange (a.dim axis) startRaw endRaw (step?.getD 1) (written?.getD 3) "an array" =
      .ok range) :
    (sliceSub a axisArg startRaw endRaw step? written?).map Arr.contents =
      (Arr.tabulate a.compact (slicedExtents a axis range) (sliceValue a axis range)).map
        Arr.contents := by
  have hsub : sliceSub a axisArg startRaw endRaw step? written? =
      if axis = 0 ∧ range.step = 1 ∧ a.compact then
        a.view (slicedExtents a axis range)
          (range.start * (fillStrides a.extents).headD 0).toUInt64.toNat
      else Arr.tabulate a.compact (slicedExtents a axis range) (sliceValue a axis range) := by
    unfold sliceSub
    rw [hax]
    show (sliceRange (a.dim axis) startRaw endRaw (step?.getD 1) (written?.getD 3) "an array" >>=
      fun range => _) = _
    rw [h]
    rfl
  rw [hsub]
  by_cases hfast : axis = 0 ∧ range.step = 1 ∧ a.compact
  · rw [if_pos hfast]
    obtain ⟨rfl, hone, -⟩ := hfast
    have hstep := (positions_inside (a.dim_nonneg 0) h).1
    rw [hone] at hstep
    rw [← hstep] at h
    exact Arr.view_contents (view_slice (Nat.zero_lt_of_lt (readAxis_lt hax)) h)
  · rw [if_neg hfast]

/-- What an accepted slice holds. -/
theorem sliceSub_takes
    (h : sliceSub a axisArg startRaw endRaw step? written? = .ok res) :
    ∃ axis range, sliceAxis a axisArg = .ok axis ∧
      sliceRange (a.dim axis) startRaw endRaw (step?.getD 1) (written?.getD 3) "an array" =
        .ok range ∧
      res.extents = slicedExtents a axis range ∧ Takes a res axis range.positions := by
  cases hax : sliceAxis a axisArg with
  | error fault =>
    unfold sliceSub at h
    rw [hax] at h
    cases h
  | ok axis =>
    cases hr : sliceRange (a.dim axis) startRaw endRaw (step?.getD 1) (written?.getD 3)
        "an array" with
    | error fault =>
      unfold sliceSub at h
      rw [hax] at h
      have h' : (sliceRange (a.dim axis) startRaw endRaw (step?.getD 1) (written?.getD 3)
          "an array" >>= fun range => _) = Except.ok res := h
      rw [hr] at h'
      cases h'
    | ok range =>
      refine ⟨axis, range, rfl, hr, ?_⟩
      have heq := sliceSub_eq hax hr
      rw [h] at heq
      cases ht : Arr.tabulate a.compact (slicedExtents a axis range)
          (sliceValue a axis range) with
      | error fault =>
        rw [ht] at heq
        cases heq
      | ok t =>
        rw [ht] at heq
        have hsame : res.contents = t.contents := Except.ok.inj heq
        have haxis := onAxis_of_sliceRange hax hr
        obtain ⟨-, hextents, -, -⟩ := Arr.tabulate_ok ht
        have htaken : Takes a t axis range.positions := by
          apply takes_of_get haxis
          · unfold Arr.dims
            rw [hextents, dims_sliced]
            rfl
          · intro i hi
            unfold Arr.numel at hi
            rw [hextents] at hi
            rw [Arr.get_tabulate ht hi, sliceValue_eq haxis hi]
        have hshape : res.extents = t.extents := congrArg Prod.fst hsame
        exact ⟨hshape.trans hextents, htaken.congr hsame.symm⟩

theorem Arr.tabulate_contents (extents : List Int64) (value : Nat → α) (c d : Bool) :
    (Arr.tabulate c extents value).map Arr.contents =
      (Arr.tabulate d extents value).map Arr.contents := by
  cases hn : checkedNumel extents with
  | error what => rw [Arr.tabulate_refused hn, Arr.tabulate_refused hn]
  | ok n =>
    obtain ⟨s, hs⟩ := Arr.tabulate_accepted hn c value
    obtain ⟨t, ht⟩ := Arr.tabulate_accepted hn d value
    obtain ⟨-, hse, -, -⟩ := Arr.tabulate_ok hs
    obtain ⟨-, hte, -, -⟩ := Arr.tabulate_ok ht
    rw [hs, ht]
    apply congrArg Except.ok
    rw [Arr.contents_eq_iff]
    refine ⟨hse.trans hte.symm, ?_⟩
    intro i hi
    unfold Arr.numel at hi
    rw [hse] at hi
    rw [Arr.get_tabulate hs hi, Arr.get_tabulate ht hi]

/-- Shared or copied, a slice is accepted alike and has the same contents. -/
theorem sliceSub_shared (a : Arr α) (axisArg startRaw endRaw : Int64)
    (step? written? : Option Int64) :
    (sliceSub a axisArg startRaw endRaw step? written?).map Arr.contents =
      (sliceSub (uncompact a) axisArg startRaw endRaw step? written?).map Arr.contents := by
  cases hax : sliceAxis a axisArg with
  | error fault =>
    have hax' : sliceAxis (uncompact a) axisArg = .error fault := hax
    unfold sliceSub
    rw [hax, hax']
    rfl
  | ok axis =>
    have hax' : sliceAxis (uncompact a) axisArg = .ok axis := hax
    cases hr : sliceRange (a.dim axis) startRaw endRaw (step?.getD 1) (written?.getD 3)
        "an array" with
    | error fault =>
      have hr' : sliceRange ((uncompact a).dim axis) startRaw endRaw (step?.getD 1)
          (written?.getD 3) "an array" = .error fault := hr
      unfold sliceSub
      rw [hax, hax']
      show ((sliceRange _ _ _ _ _ _ >>= fun range => _).map _ : Except Fault _) =
        (sliceRange _ _ _ _ _ _ >>= fun range => _).map _
      rw [hr, hr']
      rfl
    | ok range =>
      have hr' : sliceRange ((uncompact a).dim axis) startRaw endRaw (step?.getD 1)
          (written?.getD 3) "an array" = .ok range := hr
      rw [sliceSub_eq hax hr, sliceSub_eq hax' hr']
      exact Arr.tabulate_contents _ _ _ _

/-! ## Indices -/

/-- `res` holds the elements of `a` at one position of the axis, which it does not have. -/
structure TakesOne (a res : Arr α) (axis position : Nat) : Prop where
  axis_lt : axis < a.rank
  position_lt : position < a.dims.getD axis 0
  dims_eq : res.dims = a.dims.eraseIdx axis
  element : ∀ cs, Inside cs res.dims →
    Inside (cs.insertIdx axis position) a.dims ∧
      res.at' cs = a.at' (cs.insertIdx axis position)

variable {position : Nat}

theorem moveTo_insertIdx {axis : Nat} (h : axis ≤ cs.length) :
    moveTo axis [(position : Int)] (cs.insertIdx axis 0) = cs.insertIdx axis position := by
  have hget : (cs.insertIdx axis 0).getD axis 0 = 0 := by
    rw [getD_eq_getElem?_getD, getElem?_insertIdx_self, if_pos h]
    rfl
  unfold moveTo moveAxis
  rw [hget]
  show (cs.insertIdx axis 0).set axis position = cs.insertIdx axis position
  induction cs generalizing axis with
  | nil =>
    cases axis with
    | zero => rfl
    | succ axis => cases h
  | cons c cs ih =>
    cases axis with
    | zero => rfl
    | succ axis =>
      simp only [insertIdx_succ_cons, set_cons_succ]
      congr 1
      apply ih (Nat.le_of_succ_le_succ h)
      simpa using hget

theorem placeOf_single (hk : axis < dims.length)
    (hcs : Inside cs (dims.eraseIdx axis)) :
    placeOf dims axis [(position : Int)] (flatOf (dims.eraseIdx axis) cs) =
      flatOf dims (cs.insertIdx axis position) := by
  have hlen : axis ≤ cs.length := by
    rw [hcs.length, length_eraseIdx_of_lt hk]
    omega
  have hone : (dims.set axis 1).getD axis 0 = 1 := getD_set_self hk
  have herase : (dims.set axis 1).eraseIdx axis = dims.eraseIdx axis := by
    rw [eraseIdx_set_eq]
  have hinside : Inside (cs.insertIdx axis 0) (dims.set axis 1) := by
    apply Inside.insertIdx (by simpa using hk)
    · rw [herase]
      exact hcs
    · rw [hone]
      exact one_pos
  unfold placeOf
  rw [length_singleton, ← flatOf_insertIdx hk hcs, coordsOf_flatOf hinside,
    moveTo_insertIdx hlen]

theorem takesOne_of_get (hk : axis < a.rank)
    (hposition : position < a.dims.getD axis 0) (hdims : res.dims = a.dims.eraseIdx axis)
    (hget : ∀ i < res.numel, res.get i = a.get (placeOf a.dims axis [(position : Int)] i)) :
    TakesOne a res axis position := by
  have hk' : axis < a.dims.length := by simpa using hk
  refine ⟨hk, hposition, hdims, ?_⟩
  intro cs hcs
  have hi : flatOf res.dims cs < res.numel := flatOf_lt hcs
  rw [hdims] at hcs
  refine ⟨hcs.insertIdx hk' hposition, ?_⟩
  unfold Arr.at'
  rw [hget _ hi, hdims, placeOf_single hk' hcs]

theorem TakesOne.get (h : TakesOne a res axis position)
    (hi : i < res.numel) : res.get i = a.get (placeOf a.dims axis [(position : Int)] i) := by
  have hi' : i < res.dims.prod := hi
  have hk : axis < a.dims.length := by simpa using h.axis_lt
  have hin : Inside (coordsOf res.dims i) (a.dims.eraseIdx axis) := by
    rw [← h.dims_eq]
    exact inside_coordsOf hi'
  have hflat : flatOf (a.dims.eraseIdx axis) (coordsOf res.dims i) = i := by
    rw [← h.dims_eq]
    exact flatOf_coordsOf hi'
  have helem := (h.element _ (inside_coordsOf hi')).2
  unfold Arr.at' at helem
  rw [flatOf_coordsOf hi', ← placeOf_single hk hin, hflat] at helem
  exact helem

/-- The row of the first dimension: its place is the run the row starts. -/
theorem firstDimensionElement_takes (hrank : 0 < a.rank)
    (h : a.firstDimensionElement position = .ok res) : TakesOne a res 0 position := by
  unfold Arr.firstDimensionElement at h
  by_cases hbad : a.dims.headD 0 ≤ position
  · rw [dif_pos hbad] at h
    cases h
  rw [dif_neg hbad] at h
  have hlt : position < a.dims.headD 0 := by omega
  have hrow := Arr.numel_tail (a := a) (by omega)
  have hread : res.extents = a.extents.tail ∧ ∀ i < res.numel,
      res.get i = a.get (position * Extents.numel a.extents.tail + i) := by
    by_cases hc : a.compact
    · simp only [if_pos hc] at h
      obtain ⟨-, hextents, -, hget⟩ := Arr.view_ok h
      refine ⟨hextents, fun i _ => ?_⟩
      rw [hget, hrow]
    · simp only [if_neg hc] at h
      cases h
      refine ⟨rfl, fun i hi => ?_⟩
      -- a copy, whose block holds the run alone
      have hi' : i < a.numel / a.dims.headD 0 := by
        rw [hrow]
        exact hi
      unfold Arr.get
      rw [← hrow, getD_eq_getElem _ _ (by simpa using hi')]
      simp
  obtain ⟨d, ds, hds⟩ : ∃ d ds, a.dims = d :: ds := by
    cases hcases : a.dims with
    | nil =>
      rw [hcases] at hlt
      cases hlt
    | cons d ds => exact ⟨d, ds, rfl⟩
  have htail : dimsOf a.extents.tail = ds := by
    have hmap := congrArg List.tail hds
    unfold Arr.dims dimsOf at hmap
    rwa [← map_tail] at hmap
  have hdims : res.dims = ds := by
    unfold Arr.dims
    rw [hread.1, htail]
  apply takesOne_of_get hrank
  · rw [hds] at hlt ⊢
    exact hlt
  · rw [hdims, hds]
    rfl
  · intro i hi
    have hprod : Extents.numel a.extents.tail = ds.prod := by
      rw [← prod_dimsOf, htail]
    have hi' : i < 1 * ds.prod := by
      rw [one_mul, ← hdims]
      exact hi
    have hwalk : walk (position : Int) 1 1 = [(position : Int)] := by
      simp [walk]
    have hplace := placeOf_unit (d := d) (Int.natCast_nonneg position) hi'
    rw [hwalk, Int.toNat_natCast] at hplace
    rw [hread.2 i hi, hds, hplace, hprod]

theorem parentIndexOfTake_eq {positions : List Int64}
    (h : OnAxis dims axis (positions.map Int64.toInt)) {i : Nat}
    (hi : i < (dims.set axis positions.length).prod) :
    parentIndexOfTake i (dims.set axis positions.length) (rowMajorStrides dims) axis positions =
      placeOf dims axis (positions.map Int64.toInt) i := by
  have hlen : (positions.map Int64.toInt).length = positions.length := length_map _
  unfold parentIndexOfTake
  rw [← hlen] at hi ⊢
  apply parentIndexFrom_place h _ hi
  intro c hc
  rw [getD_eq_getElem _ _ hc, getElem_map, getD_eq_getElem]

/-- A copy of the elements at one position. -/
theorem copied_takesOne {raw : Int64} (hk : axis < a.rank) (h0 : 0 ≤ raw.toInt)
    (hlt : raw.toInt.toNat < a.dims.getD axis 0)
    (h : Arr.tabulate a.compact (a.extents.eraseIdx axis) (fun i =>
      a.get (parentIndexOfTake i (dimsOf (a.extents.set axis 1)) (rowMajorStrides a.dims) axis
        [raw])) = .ok res) : TakesOne a res axis raw.toInt.toNat := by
  obtain ⟨-, hextents, -, -⟩ := Arr.tabulate_ok h
  have hdims : res.dims = a.dims.eraseIdx axis := by
    unfold Arr.dims dimsOf
    rw [hextents, eraseIdx_map]
  have hone : dimsOf (a.extents.set axis 1) = a.dims.set axis 1 := dimsOf_set _ _ _
  have hraw : [raw].map Int64.toInt = [(raw.toInt.toNat : Int)] := by
    rw [map_singleton, Int.toNat_of_nonneg h0]
  have haxis : OnAxis a.dims axis ([raw].map Int64.toInt) := by
    rw [hraw]
    refine ⟨by simpa using hk, ?_⟩
    intro p hp
    rw [mem_singleton] at hp
    omega
  apply takesOne_of_get hk hlt hdims
  intro i hi
  have hi' : i < (a.dims.set axis 1).prod := by
    rw [prod_set_one, ← hdims]
    exact hi
  have hi'' : i < Extents.numel (a.extents.eraseIdx axis) := by
    rw [← hextents]
    exact hi
  have htake := @parentIndexOfTake_eq a.dims axis [raw] haxis i hi'
  rw [length_singleton, hraw] at htake
  rw [Arr.get_tabulate h hi'', hone, htake]

/-- What an accepted index reads. -/
inductive Reads (a : Arr α) (raw axisArg : Int64) (readsElement : Bool) : Read α → Prop where
  /-- the element of a rank-one array -/
  | element (hone : a.rank = 1) (haxis : indexAxis a axisArg = .ok 0)
      (hlt : raw.toInt.toNat < a.dims.getD 0 0) :
      Reads a raw axisArg readsElement (.slot (a.at' [raw.toInt.toNat]))
  /-- the flat element of a higher rank -/
  | flat (hmany : 1 < a.rank) (haxis : indexAxis a axisArg = .ok 0) (hread : readsElement = true)
      (hext : raw < Int64.ofNat a.numel) (hlt : raw.toInt.toNat < a.numel) :
      Reads a raw axisArg readsElement (.slot (a.at' (coordsOf a.dims raw.toInt.toNat)))
  /-- the elements at one position of an axis -/
  | slab (hmany : 1 < a.rank) (res : Arr α) (axis : Nat) (haxis : indexAxis a axisArg = .ok axis)
      (htakes : TakesOne a res axis raw.toInt.toNat) :
      Reads a raw axisArg readsElement (.array res)

theorem indexArr_reads {raw : Int64} {axisArg? : Option Int64} {readsElement : Bool} {r : Read α}
    (h : indexArr a raw axisArg? readsElement = .ok r) :
    0 ≤ raw.toInt ∧ Reads a raw (axisArg?.getD 0) readsElement r := by
  unfold indexArr at h
  by_cases hrank : a.rank = 0
  · rw [if_pos hrank] at h
    cases h
  rw [if_neg hrank] at h
  obtain ⟨axis, hax, h⟩ := ok_of_bind h
  have hlt := readAxis_lt hax
  replace h : (if raw < 0 ∨ (if (decide (axis = 0 ∧ 1 < a.rank) && readsElement) = true then
        Int64.ofNat a.numel else a.dim axis) ≤ raw then _ else _) = Except.ok r := h
  by_cases hout : raw < 0 ∨ (if (decide (axis = 0 ∧ 1 < a.rank) && readsElement) = true then
        Int64.ofNat a.numel else a.dim axis) ≤ raw
  · rw [if_pos hout] at h
    cases h
  rw [if_neg hout] at h
  rw [not_or] at hout
  obtain ⟨hneg, hext⟩ := hout
  have h0 := not_lt_zero_iff.1 hneg
  refine ⟨h0, ?_⟩
  have hdim : ∀ k, ¬ a.dim k ≤ raw → raw.toInt.toNat < a.dims.getD k 0 := by
    intro k hk
    have hcast := a.getD_dims k
    rw [Int64.le_iff_toInt_le] at hk
    omega
  by_cases hone : a.rank ≤ 1
  · rw [if_pos hone] at h
    cases h
    have hrank1 : a.rank = 1 := by omega
    obtain rfl : axis = 0 := by omega
    have hread : (decide ((0 : Nat) = 0 ∧ 1 < a.rank) && readsElement) = false := by
      simp [hrank1]
    rw [hread] at hext
    have hflat : a.at' [raw.toInt.toNat] = a.get raw.toInt.toNat := by
      obtain ⟨d, hd⟩ := List.length_eq_one_iff.mp ((Arr.length_dims a).trans hrank1)
      unfold Arr.at'
      rw [hd]
      simp [flatOf]
    rw [← hflat]
    exact .element hrank1 hax (hdim 0 hext)
  rw [if_neg hone] at h
  have hmany : 1 < a.rank := by omega
  by_cases hzero : axis = 0
  · subst hzero
    rw [if_pos rfl] at h
    cases readsElement with
    | true =>
      have hread : (decide ((0 : Nat) = 0 ∧ 1 < a.rank) && true) = true := by simp [hmany]
      rw [hread] at h hext
      rw [if_pos rfl] at h
      cases h
      have hlt : raw.toInt.toNat < a.numel := by
        have hle := toInt_ofNat_le a.numel
        have hext' : ¬ Int64.ofNat a.numel ≤ raw := hext
        rw [Int64.le_iff_toInt_le] at hext'
        omega
      have hflat : a.at' (coordsOf a.dims raw.toInt.toNat) = a.get raw.toInt.toNat := by
        have hlt' : raw.toInt.toNat < a.dims.prod := hlt
        unfold Arr.at'
        rw [flatOf_coordsOf hlt']
      rw [← hflat]
      exact .flat hmany hax rfl (Int64.not_le.mp hext) hlt
    | false =>
      rw [Bool.and_false] at h hext
      obtain ⟨row, hrow, hr⟩ := ok_of_bind h
      cases hr
      exact .slab hmany row 0 hax (firstDimensionElement_takes (by omega) hrow)
  · rw [if_neg hzero] at h
    have hread : (decide (axis = 0 ∧ 1 < a.rank) && readsElement) = false := by simp [hzero]
    rw [hread] at hext
    have h' : (Arr.tabulate a.compact (a.extents.eraseIdx axis) (fun i =>
      a.get (parentIndexOfTake i (dimsOf (a.extents.set axis 1)) (rowMajorStrides a.dims) axis
        [raw])) >>= fun res => pure (Read.array res)) = Except.ok r := h
    obtain ⟨res, hcopy, hres⟩ := ok_of_bind h'
    cases hres
    exact .slab hmany res axis hax (copied_takesOne hlt h0 (hdim axis hext) hcopy)

/-! ## Index Lists -/

theorem readPositions_ok {rank : Nat} {indices read : List Int64}
    (h : readPositions axis rank extent indices = .ok read) :
    read = indices ∧ ∀ raw ∈ indices, 0 ≤ raw.toInt ∧ raw.toInt < extent.toInt := by
  induction indices generalizing read with
  | nil =>
    cases h
    exact ⟨rfl, by simp⟩
  | cons raw indices ih =>
    unfold readPositions at h
    by_cases hout : raw < 0 ∨ extent ≤ raw
    · rw [if_pos hout] at h
      cases h
    rw [if_neg hout] at h
    obtain ⟨rest, hrest, h⟩ := ok_of_bind h
    cases h
    obtain ⟨rfl, hin⟩ := ih hrest
    refine ⟨rfl, ?_⟩
    intro x hx
    rcases mem_cons.mp hx with rfl | hx
    · rw [Int64.lt_iff_toInt_lt, Int64.le_iff_toInt_le, Int64.toInt_zero] at hout
      omega
    · exact hin x hx

omit [Inhabited α] in
/-- A count of elements that is a length stays what it is. -/
theorem toInt_numel (a : Arr α) (h : 0 ≤ (Int64.ofNat a.numel).toInt) :
    (Int64.ofNat a.numel).toInt = a.numel := by
  have hsmall : a.numel < 2 ^ 64 := a.small
  have hsize : Int64.size = 2 ^ 64 := rfl
  rw [Int64.toInt_ofNat', Int.bmod_def, hsize] at h ⊢
  omega

/-- The places an index list names. -/
def positionsOf (idx : Arr Int64) : List Int := idx.elements.map Int64.toInt

@[simp] theorem length_positionsOf (idx : Arr Int64) : (positionsOf idx).length = idx.numel := by
  simp [positionsOf, Arr.elements]

theorem dims_taken {idx : Arr Int64} (hlt : axis < a.rank)
    (h : NonNeg (a.extents.set axis (Int64.ofNat idx.numel))) :
    dimsOf (a.extents.set axis (Int64.ofNat idx.numel)) =
      a.dims.set axis (positionsOf idx).length := by
  have hcount : (Int64.ofNat idx.numel).toInt = idx.numel := by
    apply toInt_numel
    exact h _ (mem_set hlt _)
  rw [dimsOf_set, hcount, length_positionsOf]
  rfl

theorem idxTakeArr_takes {idx : Arr Int64} {axisArg? : Option Int64}
    (h : idxTakeArr a idx axisArg? = .ok res) :
    ∃ axis, indexAxis a (axisArg?.getD 0) = .ok axis ∧
      readPositions axis a.rank (a.dim axis) idx.elements = .ok idx.elements ∧
      res.extents = a.extents.set axis (Int64.ofNat idx.numel) ∧
      Takes a res axis (positionsOf idx) := by
  unfold idxTakeArr at h
  by_cases hrank : a.rank < 1
  · rw [if_pos hrank] at h
    cases h
  rw [if_neg hrank] at h
  obtain ⟨axis, hax, h⟩ := ok_of_bind h
  obtain ⟨positions, hread, h⟩ := ok_of_bind h
  obtain ⟨rfl, hin⟩ := readPositions_ok hread
  have hlt := readAxis_lt hax
  obtain ⟨hnonneg, hextents, -, -⟩ := Arr.tabulate_ok h
  have hdims := dims_taken hlt hnonneg
  have haxis : OnAxis a.dims axis (positionsOf idx) := by
    refine ⟨by simpa using hlt, ?_⟩
    intro p hp
    obtain ⟨raw, hraw, rfl⟩ := mem_map.mp hp
    rw [Arr.getD_dims]
    exact hin raw hraw
  refine ⟨axis, hax, hread, hextents, ?_⟩
  apply takes_of_get haxis
  · unfold Arr.dims
    rw [hextents, hdims]
    rfl
  · intro i hi
    unfold Arr.numel at hi
    rw [hextents] at hi
    have hi' : i < (a.dims.set axis (positionsOf idx).length).prod := by
      rw [← hdims]
      exact hi
    have hlen : (positionsOf idx).length = idx.elements.length := length_map _
    rw [Arr.get_tabulate h hi, hdims, hlen, parentIndexOfTake_eq haxis (hlen ▸ hi')]
    rfl

end Camel.Index
