import Camel.Index.Taken
import Camel.Lib.Scatter

/-! # Scattering a Gradient Back

    The gradient of what a slice, an index or an index list took goes back to the places
    it was taken from. A slice takes a place at most once, so its gradient is written;
    the others add. The elements are those of a commutative ring: the zero tangent of an
    element is the ring's zero, the sum of two tangents the ring's sum.
-/

namespace Camel.Index

open Lib Extents List

/-! ## The Kernels -/

/-- `numelOf` -/
def numelOf (extents : List Int64) : UInt64 :=
  extents.foldl (fun total extent => total * extent.toUInt64) 1

namespace Arr

variable {α : Type}

def setSlot (a : Arr α) (i : Nat) (value : α) : Arr α :=
  { a with
    block := a.block.set (a.offset + i) value
    held := by
      rw [length_set]
      exact a.held }

end Arr

variable {R : Type} [Inhabited R]

/-- `scatterSliceGradient` -/
def scatterSliceGradient (result dx : Arr R) (sliceExtents : List Int64) (parentDims : List Nat)
    (axis : Nat) (range : SliceRange) : Arr R :=
  (List.range (numelOf sliceExtents).toNat).foldl
    (fun result i =>
      result.setSlot
        (parentIndexOfSlice i (dimsOf sliceExtents) (rowMajorStrides parentDims) axis range)
        (dx.get i))
    result

/-- `__tangent_scatter_slice_arr__` of an array whose type has a tangent; `compact`: that type is
    stored compactly. -/
def tangentScatterSlice [Zero R] (compact : Bool) (dx like : Arr R)
    (axisArg startRaw endRaw step written : Int64) : Except Fault (Arr R) := do
  let axis ← sliceAxis like axisArg
  let range ← sliceRange (like.dim axis) startRaw endRaw step written "an array"
  let sliceExtents := slicedExtents like axis range
  let taken := numelOf sliceExtents
  let given := dx.numel
  let givenRank := dx.rank
  let rank := like.rank
  if UInt64.ofNat given ≠ taken ∨ givenRank ≠ rank then
    .error (.runtimeError
      (s!"autodiff: the gradient of a slice has {given} elements of rank {givenRank}, the slice takes "
        ++ s!"{taken} elements of rank {rank}"))
  else
    let zeros ← Arr.tabulate compact like.extents fun _ => 0
    return scatterSliceGradient zeros dx sliceExtents like.dims axis range

/-- The loop that adds the elements of the gradient at their places. -/
def addAt [Add R] (result delta : Arr R) (place : Nat → Nat) : Arr R :=
  (List.range delta.numel).foldl
    (fun result i => result.setSlot (place i) (result.get (place i) + delta.get i)) result

/-- `__tangent_scatter_add_arr__`. The word of the gradient is given as the slot and as the array it
    may be; `isArray`: its type is an array. -/
def tangentScatterAdd [Add R] (compact : Bool) (base : Arr R) (index : Int64) (isArray : Bool)
    (slot : R) (delta : Arr R) (axisArg : Option Int64) : Except Fault (Arr R) := do
  let axis ← indexAxis base (axisArg.getD 0)
  let elementRead := decide (axis = 0 ∧ 1 < base.rank) && !isArray
  let extent := if elementRead then Int64.ofNat base.numel else base.dim axis
  if index < 0 ∨ extent ≤ index then
    .error (.indexOutOfRange index
      (if elementRead then "the elements" else indexDimensionName axis base.rank) extent)
  else
    let result ← Arr.tabulate compact base.extents base.get
    if elementRead || decide (base.rank ≤ 1) then
      let at' := index.toInt.toNat
      return result.setSlot at' (base.get at' + slot)
    else
      let extents := base.extents.set axis 1
      let taken := numelOf extents
      let given := delta.numel
      if UInt64.ofNat given ≠ taken then
        .error (.runtimeError
          (s!"autodiff: the gradient of a position on one dimension has {given} elements, the "
            ++ s!"position takes {taken}"))
      else
        return addAt result delta fun i =>
          parentIndexOfTake i (dimsOf extents) (rowMajorStrides base.dims) axis [index]

/-- `__tangent_scatter_take_arr__` -/
def tangentScatterTake [Add R] (compact : Bool) (base : Arr R) (indices : Arr Int64)
    (delta : Arr R) (axisArg : Option Int64) : Except Fault (Arr R) :=
  if base.rank < 1 then
    .error (.runtimeError "autodiff: the gradient of a take needs an array of rank at least one")
  else do
    let axis ← indexAxis base (axisArg.getD 0)
    let extents := base.extents.set axis (Int64.ofNat indices.numel)
    let taken := numelOf extents
    let given := delta.numel
    if UInt64.ofNat given ≠ taken then
      .error (.runtimeError
        s!"autodiff: the gradient of a take has {given} elements, the take result has {taken}")
    else
      let result ← Arr.tabulate compact base.extents base.get
      let positions ← readPositions axis base.rank (base.dim axis) indices.elements
      return addAt result delta fun i =>
        parentIndexOfTake i (dimsOf extents) (rowMajorStrides base.dims) axis positions

/-! ## The Loops -/

variable {extents : List Int64}

theorem toNat_numelOf (h : NonNeg extents) :
    (numelOf extents).toNat = Extents.numel extents % 2 ^ 64 := by
  have hfold : ∀ (es : List Int64) (total : UInt64), NonNeg es →
      (es.foldl (fun total extent => total * extent.toUInt64) total).toNat =
        (total.toNat * Extents.numel es) % 2 ^ 64 := by
    intro es
    induction es with
    | nil =>
      intro total _
      rw [numel_nil, mul_one, Nat.mod_eq_of_lt total.toNat_lt]
      rfl
    | cons e es ih =>
      intro total hes
      have he : 0 ≤ e.toInt := hes e mem_cons_self
      rw [foldl_cons, ih _ fun x hx => hes x (.tail _ hx),
        UInt64.toNat_mul, toNat_toUInt64 (not_lt_zero_iff.2 he), numel_cons, Nat.mod_mul_mod,
        mul_assoc]
  unfold numelOf
  rw [hfold extents 1 h, UInt64.toNat_one, one_mul]

theorem toNat_numelOf_extents {α : Type} (a : Arr α) : (numelOf a.extents).toNat = a.numel := by
  rw [toNat_numelOf a.nonneg]
  exact Nat.mod_eq_of_lt a.small

/-- The count of a gradient is compared with that of the selection. -/
theorem ofNat_numel_eq {α β : Type} {a : Arr α} {s : Arr β} (h : a.numel = s.numel) :
    UInt64.ofNat a.numel = numelOf s.extents := by
  apply UInt64.toNat_inj.mp
  rw [toNat_numelOf_extents, UInt64.toNat_ofNat', Nat.mod_eq_of_lt a.small, h]

/-- A new array: the block holds its elements and nothing else. -/
structure Fresh {α : Type} (a : Arr α) : Prop where
  offset_eq : a.offset = 0
  length_eq : a.block.length = a.numel

variable {compact : Bool} {a : Arr R}

theorem fresh_tabulate {value : Nat → R}
    (h : Arr.tabulate compact extents value = .ok a) : Fresh a := by
  obtain ⟨-, hextents, hoffset, hblock⟩ := Arr.tabulate_ok h
  refine ⟨hoffset, ?_⟩
  rw [hblock]
  unfold Arr.numel
  rw [hextents]
  simp

/-- One array has another's shape and its own block. -/
structure Holds {α : Type} (a : Arr α) (extents : List Int64) (block : List α) : Prop where
  extents_eq : a.extents = extents
  offset_eq : a.offset = 0
  block_eq : a.block = block

theorem holds_setLoop (h : a.offset = 0) (place : Nat → Nat) (value : Nat → R) (n : Nat) :
    Holds ((List.range n).foldl (fun a i => a.setSlot (place i) (value i)) a) a.extents
      (scatterSet place value n a.block) := by
  induction n with
  | zero => exact ⟨rfl, h, rfl⟩
  | succ n ih =>
    rw [range_succ, foldl_append, scatterSet_succ]
    refine ⟨ih.extents_eq, ih.offset_eq, ?_⟩
    show List.set _ _ _ = _
    rw [ih.offset_eq, ih.block_eq, zero_add]

variable [CommRing R]

variable {delta : Arr R}

theorem holds_addLoop (h : a.offset = 0) {place : Nat → Nat}
    (hplace : ∀ i < delta.numel, place i < a.block.length) :
    Holds (addAt a delta place) a.extents (scatterAdd place delta.get delta.numel a.block) := by
  have hloop : ∀ n ≤ delta.numel, Holds ((List.range n).foldl
      (fun a i => a.setSlot (place i) (a.get (place i) + delta.get i)) a) a.extents
      (scatterAdd place delta.get n a.block) := by
    intro n
    induction n with
    | zero =>
      intro _
      exact ⟨rfl, h, rfl⟩
    | succ n ih =>
      intro hn
      have hstep := ih (by omega)
      rw [range_succ, foldl_append, scatterAdd_succ]
      generalize (List.range n).foldl _ a = held at hstep ⊢
      refine ⟨hstep.extents_eq, hstep.offset_eq, ?_⟩
      have hlt : place n < (scatterAdd place delta.get n a.block).length := by
        rw [length_scatterAdd]
        exact hplace n (by omega)
      have hget : held.get (place n) = (scatterAdd place delta.get n a.block).getD (place n) 0 := by
        show held.block.getD (held.offset + place n) default = _
        rw [hstep.offset_eq, hstep.block_eq, zero_add, getD_eq_getElem _ _ hlt,
          getD_eq_getElem _ _ hlt]
      show held.block.set (held.offset + place n) (held.get (place n) + delta.get n) = _
      rw [hget, hstep.offset_eq, hstep.block_eq, zero_add]
  exact hloop delta.numel le_rfl

/-! ## The Adjoint -/

/-- The inner product of two arrays of one shape. -/
def inner (x y : Arr R) : R := ∑ i ∈ Finset.range x.numel, x.get i * y.get i

/-- A gradient: what was there and what the values add at their places. -/
structure Gathers (g base : Arr R) (place : Nat → Nat) (value : Nat → R) (n : Nat) : Prop where
  extents_eq : g.extents = base.extents
  get_eq : ∀ j < base.numel,
    g.get j = base.get j + ∑ i ∈ Finset.range n, if place i = j then value i else 0

variable {g base x : Arr R} {place : Nat → Nat} {value : Nat → R} {n : Nat}

/-- Scattering is the adjoint of reading at the places. -/
theorem inner_gathers (hg : Gathers g base place value n)
    (hplace : ∀ i < n, place i < base.numel) :
    inner g x = inner base x + ∑ i ∈ Finset.range n, value i * x.get (place i) := by
  have hnumel : g.numel = base.numel := by
    unfold Arr.numel
    rw [hg.extents_eq]
  unfold inner
  rw [← inner_scatter x.get hplace, hnumel, ← Finset.sum_add_distrib]
  apply Finset.sum_congr rfl
  intro j hj
  rw [hg.get_eq j (Finset.mem_range.mp hj), add_mul]

theorem get_of_holds {block : List R} (h : Holds g base.extents block)
    (hlen : block.length = base.numel) {j : Nat} (hj : j < base.numel) :
    g.get j = block.getD j 0 := by
  unfold Arr.get
  rw [h.offset_eq, h.block_eq, zero_add, getD_eq_getElem _ _ (by omega),
    getD_eq_getElem _ _ (by omega)]

variable {copy : Arr R}

/-- The loop that adds, on a copy of the base. -/
theorem gathers_addAt
    (hcopy : Arr.tabulate compact base.extents base.get = .ok copy)
    (hplace : ∀ i < delta.numel, place i < base.numel) :
    Gathers (addAt copy delta place) base place delta.get delta.numel := by
  have hfresh := fresh_tabulate hcopy
  obtain ⟨-, hextents, -, -⟩ := Arr.tabulate_ok hcopy
  have hnumel : copy.numel = base.numel := by
    unfold Arr.numel
    rw [hextents]
  have hlen : copy.block.length = base.numel := hfresh.length_eq.trans hnumel
  have hin : ∀ i < delta.numel, place i < copy.block.length := by
    rw [hlen]
    exact hplace
  have hholds := holds_addLoop hfresh.offset_eq hin
  rw [hextents] at hholds
  refine ⟨hholds.extents_eq, ?_⟩
  intro j hj
  have hbase : copy.block.getD j 0 = base.get j := by
    have hget := Arr.get_tabulate hcopy hj
    unfold Arr.get at hget
    rw [hfresh.offset_eq, zero_add, getD_eq_getElem _ _ (by omega)] at hget
    rw [getD_eq_getElem _ _ (by omega), hget]
    rfl
  rw [get_of_holds hholds (by rw [length_scatterAdd, hlen]) hj, getD_scatterAdd hin, hbase]

/-- The loop of a slice, on zeros: its places are all different. -/
theorem gathers_setLoop {zeros dx : Arr R}
    (hzeros : Arr.tabulate compact extents (fun _ => (0 : R)) = .ok zeros)
    (hplace : ∀ i < n, place i < zeros.numel)
    (hinj : ∀ i j, i < n → j < n → place i = place j → i = j) :
    Gathers ((List.range n).foldl (fun a i => a.setSlot (place i) (dx.get i)) zeros) zeros place
      dx.get n := by
  have hfresh := fresh_tabulate hzeros
  have hholds := holds_setLoop hfresh.offset_eq place dx.get n
  refine ⟨hholds.extents_eq, ?_⟩
  have hzero : ∀ k, zeros.block.getD k 0 = 0 := by
    intro k
    obtain ⟨-, -, -, hblock⟩ := Arr.tabulate_ok hzeros
    rw [hblock, getD_eq_getElem?_getD, getElem?_map]
    cases (List.range (Extents.numel extents))[k]? <;> rfl
  intro j hj
  have hj' : j < zeros.block.length := by
    rw [hfresh.length_eq]
    exact hj
  have hbase : zeros.get j = 0 := by
    have hat := hzero j
    rw [getD_eq_getElem _ _ hj'] at hat
    unfold Arr.get
    rw [hfresh.offset_eq, zero_add, getD_eq_getElem _ _ hj', hat]
  have hin : ∀ i < n, place i < zeros.block.length := by
    rw [hfresh.length_eq]
    exact hplace
  rw [get_of_holds hholds (by rw [length_scatterSet, hfresh.length_eq]) hj,
    getD_scatterSet hin hinj j hzero, hbase, zero_add]

/-- An array of zeros has no part in an inner product. -/
theorem inner_zero (h : ∀ i < base.numel, base.get i = 0) : inner base x = 0 := by
  unfold inner
  apply Finset.sum_eq_zero
  intro i hi
  rw [h i (Finset.mem_range.mp hi), zero_mul]

variable {dy s : Arr R}

/-- What a selection reads at its places is what the sum at the places needs. -/
theorem sum_places (hget : ∀ i < dy.numel, s.get i = x.get (place i)) :
    ∑ i ∈ Finset.range dy.numel, dy.get i * x.get (place i) = inner dy s := by
  apply Finset.sum_congr rfl
  intro i hi
  rw [hget i (Finset.mem_range.mp hi)]

/-- A loop that adds, for a selection whose places it computes. -/
theorem inner_addAt {positions : List Int} {axis : Nat}
    (hx : x.extents = base.extents) (hon : OnAxis x.dims axis positions)
    (hcopy : Arr.tabulate compact base.extents base.get = .ok copy)
    (hdy : dy.numel = (x.dims.set axis positions.length).prod)
    (hget : ∀ i < dy.numel, s.get i = x.get (placeOf x.dims axis positions i))
    (hplace : ∀ i < dy.numel, place i = placeOf x.dims axis positions i) :
    (addAt copy dy place).extents = base.extents ∧
      inner (addAt copy dy place) x = inner base x + inner dy s := by
  have hin : ∀ i < dy.numel, place i < base.numel := by
    intro i hi
    have hbase : base.numel = x.dims.prod := by
      unfold Arr.numel Arr.dims
      rw [← hx]
      rfl
    rw [hplace i hi, hbase]
    exact placeOf_lt hon (by rwa [← hdy])
  have hg := gathers_addAt hcopy hin
  refine ⟨hg.extents_eq, ?_⟩
  rw [inner_gathers hg hin]
  congr 1
  apply sum_places
  intro i hi
  rw [hget i hi, hplace i hi]

theorem copy_accepted (compact : Bool) (base : Arr R) :
    ∃ copy, Arr.tabulate compact base.extents base.get = .ok copy := by
  obtain ⟨n, hn⟩ := base.counted
  exact Arr.tabulate_accepted hn compact base.get

theorem scatterSlice_adjoint {like : Arr R} {axisArg startRaw endRaw : Int64}
    {step? written? : Option Int64} (compact : Bool)
    (hs : sliceSub x axisArg startRaw endRaw step? written? = .ok s)
    (hlike : like.extents = x.extents) (hnumel : dy.numel = s.numel) (hrank : dy.rank = s.rank) :
    ∃ g, tangentScatterSlice compact dy like axisArg startRaw endRaw (step?.getD 1)
        (written?.getD 3) = .ok g ∧
      g.extents = x.extents ∧ inner g x = inner dy s := by
  obtain ⟨axis, range, hax, hr, hextents, ht⟩ := sliceSub_takes hs
  have hstep := positions_inside (x.dim_nonneg axis) hr
  have hlax : sliceAxis like axisArg = .ok axis := by
    unfold sliceAxis Arr.rank at hax ⊢
    rw [hlike]
    exact hax
  have hldim : like.dim axis = x.dim axis := by rw [Arr.dim, hlike, Arr.dim]
  have hlsliced : slicedExtents like axis range = s.extents := by
    rw [hextents]
    unfold slicedExtents
    rw [hlike]
  have hldims : like.dims = x.dims := congrArg dimsOf hlike
  have hgiven := ofNat_numel_eq hnumel
  have hrank' : dy.rank = like.rank := by
    rw [hrank]
    unfold Arr.rank
    rw [hlike, hextents, slicedExtents, length_set]
  obtain ⟨n, hn⟩ := like.counted
  obtain ⟨zeros, hzeros⟩ := Arr.tabulate_accepted hn compact fun _ => (0 : R)
  obtain ⟨-, hzextents, -, -⟩ := Arr.tabulate_ok hzeros
  refine ⟨scatterSliceGradient zeros dy s.extents x.dims axis range, ?_, ?_⟩
  · unfold tangentScatterSlice
    rw [hlax]
    show (sliceRange (like.dim axis) startRaw endRaw (step?.getD 1) (written?.getD 3)
      "an array" >>= fun range => _) = _
    rw [hldim, hr]
    show (if UInt64.ofNat dy.numel ≠ numelOf (slicedExtents like axis range) ∨
      dy.rank ≠ like.rank then _ else _) = _
    have hsame : ¬ (UInt64.ofNat dy.numel ≠ numelOf (slicedExtents like axis range) ∨
        dy.rank ≠ like.rank) := by
      rw [hlsliced]
      rintro (hbad | hbad)
      · exact hbad hgiven
      · exact hbad hrank'
    rw [if_neg hsame, hzeros, hlsliced, hldims]
    rfl
  · have hdims : dimsOf s.extents = x.dims.set axis range.positions.length := by
      rw [hextents, dims_sliced]
    have hprod : s.numel = (x.dims.set axis range.positions.length).prod := by
      rw [← hdims]
      rfl
    have hzdims : zeros.numel = x.dims.prod := by
      unfold Arr.numel
      rw [hzextents, hlike]
      rfl
    have hplace : ∀ i < s.numel,
        parentIndexOfSlice i (dimsOf s.extents) (rowMajorStrides x.dims) axis range =
          placeOf x.dims axis range.positions i := by
      intro i hi
      rw [hdims]
      exact parentIndexOfSlice_eq ht.on_axis (by rwa [← hprod])
    have hlt : ∀ i < s.numel,
        parentIndexOfSlice i (dimsOf s.extents) (rowMajorStrides x.dims) axis range <
          zeros.numel := by
      intro i hi
      rw [hplace i hi, hzdims]
      exact placeOf_lt ht.on_axis (by rwa [← hprod])
    have hnodup : range.positions.Nodup := by
      apply nodup_walk
      rw [hstep.1]
      exact toInt_ne_zero hstep.2.1
    have hinj : ∀ i j, i < s.numel → j < s.numel →
        parentIndexOfSlice i (dimsOf s.extents) (rowMajorStrides x.dims) axis range =
          parentIndexOfSlice j (dimsOf s.extents) (rowMajorStrides x.dims) axis range →
        i = j := by
      intro i j hi hj heq
      rw [hplace i hi, hplace j hj] at heq
      rw [hprod] at hi hj
      exact placeOf_inj ht.on_axis hnodup hi hj heq
    have hg : Gathers ((List.range s.numel).foldl (fun a i => a.setSlot
        (parentIndexOfSlice i (dimsOf s.extents) (rowMajorStrides x.dims) axis range)
        (dy.get i)) zeros) zeros _ dy.get s.numel := gathers_setLoop hzeros hlt hinj
    have hloop : scatterSliceGradient zeros dy s.extents x.dims axis range =
        (List.range s.numel).foldl (fun a i => a.setSlot
          (parentIndexOfSlice i (dimsOf s.extents) (rowMajorStrides x.dims) axis range)
          (dy.get i)) zeros := by
      unfold scatterSliceGradient
      rw [toNat_numelOf_extents]
    have hxz : x.extents = zeros.extents := by rw [hzextents, hlike]
    rw [hloop]
    refine ⟨hg.extents_eq.trans hxz.symm, ?_⟩
    rw [inner_gathers hg hlt]
    have hzero : inner zeros x = 0 := by
      apply inner_zero
      intro i hi
      unfold Arr.numel at hi
      rw [hzextents] at hi
      exact Arr.get_tabulate hzeros hi
    rw [hzero, zero_add, ← hnumel]
    apply sum_places
    intro i hi
    rw [hnumel] at hi
    rw [hplace i hi, ht.get hi]

variable {axisArg? : Option Int64}

theorem scatterTake_adjoint {idx : Arr Int64}
    (compact : Bool) (hs : idxTakeArr x idx axisArg? = .ok s) (hbase : base.extents = x.extents)
    (hnumel : dy.numel = s.numel) :
    ∃ g, tangentScatterTake compact base idx dy axisArg? = .ok g ∧
      g.extents = x.extents ∧ inner g x = inner base x + inner dy s := by
  obtain ⟨axis, hax, hread, hextents, ht⟩ := idxTakeArr_takes hs
  have hlt := ht.on_axis.1
  rw [Arr.length_dims] at hlt
  have hbrank : base.rank = x.rank := congrArg length hbase
  have hbax : indexAxis base (axisArg?.getD 0) = .ok axis := by
    rwa [indexAxis, hbrank]
  have hbdim : base.dim axis = x.dim axis := by rw [Arr.dim, hbase, Arr.dim]
  have hbdims : base.dims = x.dims := congrArg dimsOf hbase
  have hdims : dimsOf s.extents = x.dims.set axis (positionsOf idx).length := by
    rw [hextents]
    apply dims_taken hlt
    rw [← hextents]
    exact s.nonneg
  obtain ⟨copy, hcopy⟩ := copy_accepted compact base
  refine ⟨addAt copy dy fun i =>
    parentIndexOfTake i (dimsOf s.extents) (rowMajorStrides x.dims) axis idx.elements, ?_, ?_⟩
  · have hrank : ¬ base.rank < 1 := by omega
    unfold tangentScatterTake
    rw [if_neg hrank, hbax]
    show (if UInt64.ofNat dy.numel ≠ numelOf (base.extents.set axis (Int64.ofNat idx.numel)) then
      _ else _) = _
    rw [hbase, ← hextents, if_neg (not_not_intro (ofNat_numel_eq hnumel)), ← hbase, hcopy]
    show (readPositions axis base.rank (base.dim axis) idx.elements >>= fun positions => _) = _
    rw [hbrank, hbdim, hread, hbdims]
    rfl
  · have hprod : dy.numel = (x.dims.set axis (positionsOf idx).length).prod := by
      rw [hnumel, ← hdims]
      rfl
    have hlen : (positionsOf idx).length = idx.elements.length := length_map _
    have hget : ∀ i < dy.numel, s.get i = x.get (placeOf x.dims axis (positionsOf idx) i) :=
      fun i hi => ht.get (by rwa [← hnumel])
    have hplace : ∀ i < dy.numel,
        parentIndexOfTake i (dimsOf s.extents) (rowMajorStrides x.dims) axis idx.elements =
          placeOf x.dims axis (positionsOf idx) i := by
      intro i hi
      rw [hdims, hlen]
      apply parentIndexOfTake_eq ht.on_axis
      rwa [← hlen, ← hprod]
    have hadd := inner_addAt hbase.symm ht.on_axis hcopy hprod hget hplace
    exact ⟨hadd.1.trans hbase, hadd.2⟩

/-- The gradient of one element: it is added where the element was read. -/
theorem gathers_setSlot {k : Nat} (d : R)
    (hcopy : Arr.tabulate compact base.extents base.get = .ok copy) (hk : k < base.numel) :
    Gathers (copy.setSlot k (base.get k + d)) base (fun _ => k) (fun _ => d) 1 := by
  obtain ⟨-, hextents, hoffset, hblock⟩ := Arr.tabulate_ok hcopy
  refine ⟨hextents, ?_⟩
  intro j hj
  have hget := Arr.get_tabulate hcopy hj
  rw [Finset.sum_range_one]
  show (copy.block.set (copy.offset + k) (base.get k + d)).getD (copy.offset + j) default = _
  unfold Arr.get at hget
  rw [getD_eq_getElem?_getD] at hget ⊢
  by_cases hkj : k = j
  · subst hkj
    have hlen : copy.offset + k < copy.block.length := by
      rw [hoffset, hblock, zero_add, length_map, length_range]
      exact hk
    rw [if_pos rfl, getElem?_set_self hlen]
    rfl
  · rw [if_neg hkj, add_zero, getElem?_set_ne (by omega), hget]
    rfl

theorem inner_setSlot {k : Nat} (d : R)
    (hcopy : Arr.tabulate compact base.extents base.get = .ok copy) (hk : k < base.numel) :
    inner (copy.setSlot k (base.get k + d)) x = inner base x + d * x.get k := by
  rw [inner_gathers (gathers_setSlot d hcopy hk) fun _ _ => hk, Finset.sum_range_one]

theorem scatterAdd_slot {v : R} {raw : Int64} {readsElement isArray : Bool}
    (compact : Bool) (hs : indexArr x raw axisArg? readsElement = .ok (.slot v))
    (hbase : base.extents = x.extents) (hkind : 1 < x.rank → isArray = false) (d : R)
    (delta : Arr R) :
    ∃ g, tangentScatterAdd compact base raw isArray d delta axisArg? = .ok g ∧
      g.extents = x.extents ∧ inner g x = inner base x + d * v := by
  obtain ⟨h0, hreads⟩ := indexArr_reads hs
  have hbrank : base.rank = x.rank := congrArg length hbase
  have hbax : indexAxis x (axisArg?.getD 0) = .ok 0 → indexAxis base (axisArg?.getD 0) = .ok 0 := by
    intro hax
    unfold indexAxis at hax ⊢
    rw [hbrank]
    exact hax
  have hbdim : base.dim 0 = x.dim 0 := by rw [Arr.dim, hbase, Arr.dim]
  have hbnumel : base.numel = x.numel := congrArg numel hbase
  have hneg : ¬ raw < 0 := not_lt_zero_iff.2 h0
  obtain ⟨copy, hcopy⟩ := copy_accepted compact base
  cases hreads with
  | element hone haxis hlt =>
    have hread : (decide ((0 : Nat) = 0 ∧ 1 < base.rank) && !isArray) = false := by
      simp [hbrank, hone]
    have hext : ¬ base.dim 0 ≤ raw := by
      have hcast := x.getD_dims 0
      rw [hbdim, Int64.le_iff_toInt_le]
      omega
    have hle : decide (base.rank ≤ 1) = true := by
      simp [hbrank, hone]
    obtain ⟨e, he⟩ := List.length_eq_one_iff.mp ((Arr.length_dims x).trans hone)
    have hk : raw.toInt.toNat < base.numel := by
      rw [hbnumel]
      show _ < x.dims.prod
      rw [he] at hlt ⊢
      simpa using hlt
    refine ⟨copy.setSlot raw.toInt.toNat (base.get raw.toInt.toNat + d), ?_, ?_, ?_⟩
    · unfold tangentScatterAdd
      rw [hbax haxis]
      show (if raw < 0 ∨ (if (decide ((0 : Nat) = 0 ∧ 1 < base.rank) && !isArray) = true then
        Int64.ofNat base.numel else base.dim 0) ≤ raw then _ else _) = _
      rw [hread]
      have hin : ¬ (raw < 0 ∨ (if (false : Bool) = true then
        Int64.ofNat base.numel else base.dim 0) ≤ raw) := not_or.mpr ⟨hneg, hext⟩
      rw [if_neg hin, hcopy]
      show (if (false || decide (base.rank ≤ 1)) = true then _ else _) = _
      rw [hle]
      rfl
    · exact (Arr.tabulate_ok hcopy).2.1.trans hbase
    · have hat : x.at' [raw.toInt.toNat] = x.get raw.toInt.toNat := by
        unfold Arr.at'
        rw [he]
        simp [flatOf]
      rw [hat]
      exact inner_setSlot d hcopy hk
  | flat hmany haxis hread hext hlt =>
    have hread : (decide ((0 : Nat) = 0 ∧ 1 < base.rank) && !isArray) = true := by
      rw [hkind hmany]
      simp [hbrank, hmany]
    have hk : raw.toInt.toNat < base.numel := by rwa [hbnumel]
    refine ⟨copy.setSlot raw.toInt.toNat (base.get raw.toInt.toNat + d), ?_, ?_, ?_⟩
    · unfold tangentScatterAdd
      rw [hbax haxis]
      show (if raw < 0 ∨ (if (decide ((0 : Nat) = 0 ∧ 1 < base.rank) && !isArray) = true then
        Int64.ofNat base.numel else base.dim 0) ≤ raw then _ else _) = _
      rw [hread]
      have hin : ¬ (raw < 0 ∨ (if (true : Bool) = true then
        Int64.ofNat base.numel else base.dim 0) ≤ raw) := by
        rw [if_pos rfl, hbnumel]
        exact not_or.mpr ⟨hneg, Int64.not_le.mpr hext⟩
      rw [if_neg hin, hcopy]
      rfl
    · exact (Arr.tabulate_ok hcopy).2.1.trans hbase
    · have hat : x.at' (coordsOf x.dims raw.toInt.toNat) = x.get raw.toInt.toNat := by
        have hlt' : raw.toInt.toNat < x.dims.prod := hlt
        unfold Arr.at'
        rw [flatOf_coordsOf hlt']
      rw [hat]
      exact inner_setSlot d hcopy hk

theorem scatterAdd_slab {raw : Int64}
    {readsElement : Bool} (compact : Bool)
    (hs : indexArr x raw axisArg? readsElement = .ok (.array s))
    (hbase : base.extents = x.extents) (hnumel : delta.numel = s.numel) (d : R) :
    ∃ g, tangentScatterAdd compact base raw true d delta axisArg? = .ok g ∧
      g.extents = x.extents ∧ inner g x = inner base x + inner delta s := by
  obtain ⟨h0, hreads⟩ := indexArr_reads hs
  cases hreads with
  | slab hmany res axis hax ht =>
    have hbrank : base.rank = x.rank := congrArg length hbase
    have hbax : indexAxis base (axisArg?.getD 0) = .ok axis := by
      rwa [indexAxis, hbrank]
    have hbdim : base.dim axis = x.dim axis := by rw [Arr.dim, hbase, Arr.dim]
    have hbdims : base.dims = x.dims := congrArg dimsOf hbase
    obtain ⟨copy, hcopy⟩ := copy_accepted compact base
    have hext : ¬ base.dim axis ≤ raw := by
      have hcast := x.getD_dims axis
      have hlt := ht.position_lt
      rw [hbdim, Int64.le_iff_toInt_le]
      omega
    have hneg : ¬ raw < 0 := not_lt_zero_iff.2 h0
    have hones : dimsOf (base.extents.set axis 1) = x.dims.set axis 1 := by
      rw [hbase]
      exact dimsOf_set _ _ _
    have hprod : delta.numel = (x.dims.set axis 1).prod := by
      rw [hnumel, prod_set_one, ← ht.dims_eq]
      rfl
    have htaken : UInt64.ofNat delta.numel = numelOf (base.extents.set axis 1) := by
      have hnonneg : NonNeg (base.extents.set axis 1) := by
        intro e he
        rcases mem_or_eq_of_mem_set he with he | rfl
        · exact base.nonneg e he
        · decide
      apply UInt64.toNat_inj.mp
      rw [toNat_numelOf hnonneg, ← prod_dimsOf, hones, ← hprod, UInt64.toNat_ofNat']
    have hraw : [raw].map Int64.toInt = [(raw.toInt.toNat : Int)] := by
      rw [map_singleton, Int.toNat_of_nonneg h0]
    have hon : OnAxis x.dims axis [(raw.toInt.toNat : Int)] := by
      refine ⟨by simpa using ht.axis_lt, ?_⟩
      intro p hp
      have hlt := ht.position_lt
      rw [mem_singleton] at hp
      omega
    refine ⟨addAt copy delta fun i =>
      parentIndexOfTake i (dimsOf (base.extents.set axis 1)) (rowMajorStrides base.dims) axis
        [raw], ?_, ?_⟩
    · have hmany' : ¬ base.rank ≤ 1 := by omega
      unfold tangentScatterAdd
      rw [hbax]
      show (if raw < 0 ∨ (if (decide (axis = 0 ∧ 1 < base.rank) && !true) = true then
        Int64.ofNat base.numel else base.dim axis) ≤ raw then _ else _) = _
      rw [Bool.not_true, Bool.and_false]
      have hin : ¬ (raw < 0 ∨ (if (false : Bool) = true then
        Int64.ofNat base.numel else base.dim axis) ≤ raw) := not_or.mpr ⟨hneg, hext⟩
      rw [if_neg hin, hcopy]
      show (if (false || decide (base.rank ≤ 1)) = true then _ else
        (if UInt64.ofNat delta.numel ≠ numelOf (base.extents.set axis 1) then _ else _)) = _
      rw [decide_eq_false hmany', Bool.false_or, if_neg Bool.false_ne_true,
        if_neg (not_not_intro htaken)]
      rfl
    · have hget : ∀ i < delta.numel,
          s.get i = x.get (placeOf x.dims axis [(raw.toInt.toNat : Int)] i) :=
        fun i hi => ht.get (by rwa [← hnumel])
      have hplace : ∀ i < delta.numel,
          parentIndexOfTake i (dimsOf (base.extents.set axis 1)) (rowMajorStrides base.dims) axis
            [raw] = placeOf x.dims axis [(raw.toInt.toNat : Int)] i := by
        intro i hi
        rw [hprod] at hi
        have htake := @parentIndexOfTake_eq x.dims axis [raw] (hraw ▸ hon) i hi
        rw [hones, hbdims, ← hraw]
        exact htake
      have hadd := inner_addAt hbase.symm hon hcopy hprod hget hplace
      exact ⟨hadd.1.trans hbase, hadd.2⟩

/-! ## Selections and Their Adjoints -/

/-- What a slice, an index and an index list hold, for every array of elements of `α`. -/
structure Selections (α : Type) [Inhabited α] : Prop where
  slice : ∀ (a res : Arr α) (axisArg startRaw endRaw : Int64) (step? written? : Option Int64),
    sliceSub a axisArg startRaw endRaw step? written? = .ok res →
      ∃ axis range, sliceAxis a axisArg = .ok axis ∧
        sliceRange (a.dim axis) startRaw endRaw (step?.getD 1) (written?.getD 3) "an array" =
          .ok range ∧
        Takes a res axis range.positions
  /-- the view of a unit-step slice of the first axis and the copy have equal elements -/
  shared : ∀ (a : Arr α) (axisArg startRaw endRaw : Int64) (step? written? : Option Int64),
    (sliceSub a axisArg startRaw endRaw step? written?).map Arr.contents =
      (sliceSub (uncompact a) axisArg startRaw endRaw step? written?).map Arr.contents
  index : ∀ (a : Arr α) (raw : Int64) (axisArg? : Option Int64) (readsElement : Bool) (r : Read α),
    indexArr a raw axisArg? readsElement = .ok r →
      0 ≤ raw.toInt ∧ Reads a raw (axisArg?.getD 0) readsElement r
  take : ∀ (a res : Arr α) (idx : Arr Int64) (axisArg? : Option Int64),
    idxTakeArr a idx axisArg? = .ok res →
      ∃ axis, indexAxis a (axisArg?.getD 0) = .ok axis ∧ Takes a res axis (positionsOf idx)

/-- The scatters of a gradient are the adjoints of the selections, over the ring `R`: `x` is the
    array a selection was taken from, `base` zeros of its shape. -/
structure Adjoints (R : Type) [CommRing R] [Inhabited R] : Prop where
  slice : ∀ (x s dy like : Arr R) (axisArg startRaw endRaw : Int64) (step? written? : Option Int64)
    (compact : Bool), sliceSub x axisArg startRaw endRaw step? written? = .ok s →
      like.extents = x.extents → dy.numel = s.numel → dy.rank = s.rank →
      ∃ g, tangentScatterSlice compact dy like axisArg startRaw endRaw (step?.getD 1)
          (written?.getD 3) = .ok g ∧
        g.extents = x.extents ∧ inner g x = inner dy s
  element : ∀ (x base delta : Arr R) (v d : R) (raw : Int64) (axisArg? : Option Int64)
    (readsElement isArray compact : Bool),
    indexArr x raw axisArg? readsElement = .ok (.slot v) →
      base.extents = x.extents → (∀ i < base.numel, base.get i = 0) →
      (1 < x.rank → isArray = false) →
      ∃ g, tangentScatterAdd compact base raw isArray d delta axisArg? = .ok g ∧
        g.extents = x.extents ∧ inner g x = d * v
  slab : ∀ (x base s dy : Arr R) (d : R) (raw : Int64) (axisArg? : Option Int64)
    (readsElement compact : Bool), indexArr x raw axisArg? readsElement = .ok (.array s) →
      base.extents = x.extents → (∀ i < base.numel, base.get i = 0) → dy.numel = s.numel →
      ∃ g, tangentScatterAdd compact base raw true d dy axisArg? = .ok g ∧
        g.extents = x.extents ∧ inner g x = inner dy s
  take : ∀ (x base s dy : Arr R) (idx : Arr Int64) (axisArg? : Option Int64) (compact : Bool),
    idxTakeArr x idx axisArg? = .ok s →
      base.extents = x.extents → (∀ i < base.numel, base.get i = 0) → dy.numel = s.numel →
      ∃ g, tangentScatterTake compact base idx dy axisArg? = .ok g ∧
        g.extents = x.extents ∧ inner g x = inner dy s

/-- Every selection holds the elements of its parent at the moved coordinates, and every scatter
    is its adjoint. -/
theorem selections_and_adjoints (α : Type) [Inhabited α] (R : Type) [CommRing R] [Inhabited R] :
    Selections α ∧ Adjoints R := by
  constructor
  · constructor
    · intro a res axisArg startRaw endRaw step? written? h
      obtain ⟨axis, range, hax, hr, -, ht⟩ := sliceSub_takes h
      exact ⟨axis, range, hax, hr, ht⟩
    · exact sliceSub_shared
    · intro a raw axisArg? readsElement r h
      exact indexArr_reads h
    · intro a res idx axisArg? h
      obtain ⟨axis, hax, -, -, ht⟩ := idxTakeArr_takes h
      exact ⟨axis, hax, ht⟩
  · constructor
    · intro x s dy like axisArg startRaw endRaw step? written? compact h hlike hnumel hrank
      exact scatterSlice_adjoint compact h hlike hnumel hrank
    · intro x base delta v d raw axisArg? readsElement isArray compact h hbase hzero hkind
      obtain ⟨g, hg, hshape, hinner⟩ := scatterAdd_slot compact h hbase hkind d delta
      exact ⟨g, hg, hshape, by rw [hinner, inner_zero hzero, zero_add]⟩
    · intro x base s dy d raw axisArg? readsElement compact h hbase hzero hnumel
      obtain ⟨g, hg, hshape, hinner⟩ := scatterAdd_slab compact h hbase hnumel d
      exact ⟨g, hg, hshape, by rw [hinner, inner_zero hzero, zero_add]⟩
    · intro x base s dy idx axisArg? compact h hbase hzero hnumel
      obtain ⟨g, hg, hshape, hinner⟩ := scatterTake_adjoint compact h hbase hnumel
      exact ⟨g, hg, hshape, by rw [hinner, inner_zero hzero, zero_add]⟩

/-- A repeated index adds twice. -/
example :
    ((Arr.tabulate true [2, 3] fun _ => (0 : Int)).bind fun base =>
      (Arr.tabulate true [3] fun i => [(1 : Int64), 0, 1].getD i 0).bind fun idx =>
      (Arr.tabulate true [2, 3] fun i => (i : Int)).bind fun dy =>
      (tangentScatterTake true base idx dy (some 1)).map Arr.contents) =
    .ok ([2, 3], [1, 2, 0, 4, 8, 0]) := by
  rfl

end Camel.Index
