import Camel.Tensor.TakeRows

/-! # The Gradient of Taken Rows

    Each row of the gradient is added to the row its index names. The row width is that of
    the input; a gradient of narrower rows is read behind its end, and one of wider rows is
    cut elsewhere than between its rows.
-/

namespace Camel.Tensor

open Lib Extents Finset

variable {R : Type} [AddCommMonoid R]

/-! ## One Row -/

variable {data : List R}

theorem length_addAt {part : List R} {base : Nat} (h : base + part.length ≤ data.length) :
    (addAt data base part).length = data.length := by
  unfold addAt
  rw [List.length_append, List.length_append, List.length_take, List.length_zipWith,
    List.length_drop, List.length_drop]
  omega

/-- Adding a row changes the places of the row. -/
theorem getD_addAt {part : List R} {base : Nat} (h : base + part.length ≤ data.length)
    (p : Nat) : (addAt data base part).getD p 0 = data.getD p 0 +
      if base ≤ p ∧ p < base + part.length then part.getD (p - base) 0 else 0 := by
  have hfront : (data.take base).length = base := by
    rw [List.length_take]
    omega
  have hmid : (List.zipWith (· + ·) (data.drop base) part).length = part.length := by
    rw [List.length_zipWith, List.length_drop]
    omega
  unfold addAt
  rw [List.append_assoc]
  simp only [List.getD_eq_getElem?_getD]
  rw [List.getElem?_append, hfront]
  by_cases hlow : p < base
  · rw [if_pos hlow, if_neg (by omega), List.getElem?_take, if_pos hlow, add_zero]
  rw [if_neg hlow, List.getElem?_append, hmid]
  by_cases hin : p - base < part.length
  · have hd : p - base < (data.drop base).length := by
      rw [List.length_drop]
      omega
    have hp : p < data.length := by omega
    have hsame : base + (p - base) = p := by omega
    rw [if_pos hin, if_pos (by omega), List.getElem?_zipWith, List.getElem?_drop, hsame,
      List.getElem?_eq_getElem hp, List.getElem?_eq_getElem hin]
    rfl
  · have hsame : base + part.length + (p - base - part.length) = p := by omega
    rw [if_neg hin, if_neg (by omega), List.getElem?_drop, hsame, add_zero]

variable {width : Nat}

/-- A place in a row of `width` places belongs to one row. -/
theorem mem_row_iff {r s k : Nat} (hk : k < width) :
    s * width ≤ r * width + k ∧ r * width + k < s * width + width ↔ s = r := by
  constructor
  · rintro ⟨hle, hlt⟩
    apply le_antisymm
    · by_contra hnot
      have hmul : (r + 1) * width ≤ s * width := Nat.mul_le_mul_right _ (by omega)
      rw [add_mul, one_mul] at hmul
      omega
    · by_contra hnot
      have hmul : (s + 1) * width ≤ r * width := Nat.mul_le_mul_right _ (by omega)
      rw [add_mul, one_mul] at hmul
      omega
  · rintro rfl
    omega

/-! ## All Rows -/

variable {dy out : List R} {extent : Int64} {indices : List Int64} {i : Nat}

/-- Rows that exist are all added, each where its index says. -/
theorem takeGradLoop_ok
    (hin : ∀ index ∈ indices, InRange extent index)
    (hdy : (i + indices.length) * width ≤ dy.length)
    (hout : out.length = extent.toInt.toNat * width) :
    ∃ result, takeGradLoop dy extent width indices i out = .ok result ∧
      result.length = out.length ∧
      ∀ r k, k < width → result.getD (r * width + k) 0 = out.getD (r * width + k) 0 +
        ∑ j ∈ range indices.length,
          if (indices.getD j 0).toInt.toNat = r then dy.getD ((i + j) * width + k) 0 else 0 := by
  induction indices generalizing i out with
  | nil => exact ⟨out, rfl, rfl, by simp⟩
  | cons index rest ih =>
    have hindex := hin index List.mem_cons_self
    have hlt := hindex.lt
    have hrow : i * width + width ≤ dy.length := by
      have hmul : (i + 1) * width ≤ (i + (index :: rest).length) * width :=
        Nat.mul_le_mul_right _ (by simp)
      rw [add_mul, one_mul] at hmul
      omega
    have hplace : index.toInt.toNat * width + width ≤ out.length := by
      have hmul : (index.toInt.toNat + 1) * width ≤ extent.toInt.toNat * width :=
        Nat.mul_le_mul_right _ hlt
      rw [add_mul, one_mul] at hmul
      omega
    generalize hpart : (dy.drop (i * width)).take width = part
    have hpartLen : part.length = width := by
      rw [← hpart, List.length_take, List.length_drop]
      omega
    have hfits : index.toInt.toNat * width + part.length ≤ out.length := by
      rw [hpartLen]
      exact hplace
    have hdy' : (i + 1 + rest.length) * width ≤ dy.length := by
      rw [List.length_cons] at hdy
      rwa [add_right_comm, add_assoc]
    have hout' : (addAt out (index.toInt.toNat * width) part).length = extent.toInt.toNat * width := by
      rw [length_addAt hfits, hout]
    obtain ⟨result, hresult, hlen, hsum⟩ := ih
      (fun x hx => hin x (List.mem_cons_of_mem _ hx)) hdy' hout'
    refine ⟨result, ?_, by rw [hlen, length_addAt hfits], ?_⟩
    · rw [takeGradLoop, if_neg (not_outOfRange_iff.2 hindex), if_neg (by omega), hpart, hresult]
    · intro r k hk
      have hread : part.getD (r * width + k - index.toInt.toNat * width) 0 =
          dy.getD (i * width + (r * width + k - index.toInt.toNat * width)) 0 ∨
          ¬ index.toInt.toNat = r := by
        by_cases hr : index.toInt.toNat = r
        · left
          have hkk : r * width + k - index.toInt.toNat * width = k := by
            rw [hr]
            omega
          rw [hkk, ← hpart]
          simp [List.getD_eq_getElem?_getD, hk]
        · exact .inr hr
      rw [hsum r k hk, getD_addAt hfits, hpartLen, List.length_cons, sum_range_succ', add_assoc]
      congr 1
      rw [add_comm]
      congr 1
      · apply sum_congr rfl
        intro j _
        rw [List.getD_cons_succ, show i + 1 + j = i + (j + 1) by omega]
      · simp only [mem_row_iff hk, List.getD_cons_zero, add_zero]
        by_cases hr : index.toInt.toNat = r
        · have hkk : r * width + k - index.toInt.toNat * width = k := by
            rw [hr]
            omega
          rw [if_pos hr, if_pos hr]
          rcases hread with hread | hread
          · rw [hread, hkk]
          · exact absurd hr hread
        · rw [if_neg hr, if_neg hr]

/-- A read behind the gradient happens at a row before the first index that names none. -/
theorem takeGradLoop_outside_iff
    (out : List R) :
    takeGradLoop dy extent width indices i out = .error .outside ↔
      ∃ j < indices.length, (∀ index ∈ indices.take (j + 1), InRange extent index) ∧
        dy.length < (i + j) * width + width := by
  induction indices generalizing i out with
  | nil =>
    simp only [takeGradLoop, reduceCtorEq, false_iff]
    rintro ⟨j, hj, -⟩
    exact absurd hj (Nat.not_lt_zero j)
  | cons index rest ih =>
    rw [takeGradLoop]
    by_cases hindex : InRange extent index
    · rw [if_neg (not_outOfRange_iff.2 hindex)]
      by_cases hshort : dy.length < i * width + width
      · rw [if_pos hshort]
        simp only [true_iff]
        exact ⟨0, by simp, by simpa using hindex, by simpa using hshort⟩
      · rw [if_neg hshort, ih]
        constructor
        · rintro ⟨j, hj, hall, hlt⟩
          refine ⟨j + 1, by simpa using hj, ?_, by rwa [add_right_comm, add_assoc] at hlt⟩
          intro x hx
          rw [List.take_succ_cons, List.mem_cons] at hx
          rcases hx with rfl | hx
          · exact hindex
          · exact hall x hx
        · rintro ⟨j, hj, hall, hlt⟩
          cases j with
          | zero => exact absurd (by simpa using hlt) hshort
          | succ j =>
            refine ⟨j, by simpa using hj, ?_, by rwa [add_right_comm, add_assoc]⟩
            intro x hx
            apply hall
            rw [List.take_succ_cons]
            exact List.mem_cons_of_mem _ hx
    · rw [if_pos (by by_contra hnot; exact hindex (not_outOfRange_iff.1 hnot))]
      simp only [Except.error.injEq, reduceCtorEq, false_iff]
      rintro ⟨j, -, hall, -⟩
      exact hindex (hall index (by simp))

/-- A loop that returns met only indices that name rows. -/
theorem takeGradLoop_inRange
    {result : List R}
    (h : takeGradLoop dy extent width indices i out = .ok result) :
    ∀ index ∈ indices, InRange extent index := by
  induction indices generalizing i out with
  | nil => simp
  | cons index rest ih =>
    rw [takeGradLoop] at h
    split at h
    · cases h
    next hindex =>
      split at h
      · cases h
      · intro x hx
        rcases List.mem_cons.1 hx with rfl | hx
        · exact not_outOfRange_iff.1 hindex
        · exact ih h x hx

/-- A loop that reports an index stopped at the first one that names no row, and had read
    only rows of the gradient. -/
theorem takeGradLoop_stops
    {fault : Fault} (hi : i * width ≤ dy.length)
    (h : takeGradLoop dy extent width indices i out = .error fault) (hne : fault ≠ .outside) :
    fault ≠ .divisionByZero ∧
      ∃ j < indices.length, (∀ index ∈ indices.take j, InRange extent index) ∧
        ¬ InRange extent (indices.getD j 0) ∧ (i + j) * width ≤ dy.length := by
  induction indices generalizing i out with
  | nil => cases h
  | cons index rest ih =>
    rw [takeGradLoop] at h
    by_cases hindex : InRange extent index
    · rw [if_neg (not_outOfRange_iff.2 hindex)] at h
      by_cases hshort : dy.length < i * width + width
      · rw [if_pos hshort] at h
        cases h
        exact absurd rfl hne
      rw [if_neg hshort] at h
      have hnext : (i + 1) * width ≤ dy.length := by
        rw [add_mul, one_mul]
        omega
      obtain ⟨hdiv, j, hj, hall, hbad, hle⟩ := ih hnext h
      refine ⟨hdiv, j + 1, by simpa using hj, ?_, hbad, by rwa [add_right_comm, add_assoc] at hle⟩
      intro x hx
      rw [List.take_succ_cons, List.mem_cons] at hx
      rcases hx with rfl | hx
      · exact hindex
      · exact hall x hx
    · rw [if_pos (by by_contra hnot; exact hindex (not_outOfRange_iff.1 hnot))] at h
      cases h
      exact ⟨by simp, 0, by simp, by simp, hindex, hi⟩

/-! ## The Kernel -/

variable (input : Tensor R)

/-- The gradient has the rank of the input and a row for every index. -/
def Accepted (indices : List Int64) (dy : Tensor R) : Prop :=
  dy.rank = input.rank ∧ dy.extent = Int64.ofNat indices.length

/-- Every row of the result is the sum of the rows of the gradient whose index names it. -/
def SumsRows (indices : List Int64) (dy out : Tensor R) : Prop :=
  out.shape = input.shape ∧ (indices ≠ [] → dy.rowWidth = input.rowWidth) ∧
    ∀ r < input.extent.toInt.toNat, ∀ k < input.rowWidth,
      (out.row r).getD k 0 = ∑ j ∈ range indices.length,
        if (indices.getD j 0).toInt.toNat = r then (dy.row j).getD k 0 else 0

/-- What `takeGrad` is for: the sums of rows, from reads of the gradient only. -/
def AddsBack (indices : List Int64) (dy : Tensor R) : Prop :=
  (∀ out, takeGrad input indices dy = .ok out → SumsRows input indices dy out) ∧
    takeGrad input indices dy ≠ .error .divisionByZero ∧
    takeGrad input indices dy ≠ .error .outside

/-- An index names no row before any row is read behind the gradient. -/
def StopsInside (indices : List Int64) (dy : Tensor R) : Prop :=
  ∃ j < indices.length, (∀ index ∈ indices.take j, InRange input.extent index) ∧
    ¬ InRange input.extent (indices.getD j 0) ∧ j * input.rowWidth ≤ dy.numel

/-- Zeros of a shape that was accepted once. -/
theorem zeros_of_shape : ∃ zeros, createTensor input.shape (0 : R) = .ok zeros ∧
    zeros.shape = input.shape ∧ zeros.data = List.replicate input.numel 0 := by
  obtain ⟨zeros, h⟩ := (createTensor_ok_iff _ (0 : R)).2 input.counted
  exact ⟨zeros, h, createTensor_ok h⟩

variable {input : Tensor R}

theorem takeGrad_eq (h : 1 ≤ input.rank) {dy : Tensor R}
    (haccept : Accepted input indices dy) {zeros : Tensor R}
    (hzeros : createTensor input.shape (0 : R) = .ok zeros) :
    takeGrad input indices dy =
      if indices = [] then .ok zeros
      else if input.extent = 0 then .error .divisionByZero
      else (do
        let data ← takeGradLoop dy.data input.extent input.rowWidth indices 0 zeros.data
        .ok (zeros.fill ((List.range zeros.numel).map fun p => (p, data.getD p 0)))) := by
  obtain ⟨hrank, hextent⟩ := haccept
  unfold takeGrad
  rw [if_neg (by omega), if_neg (by rw [hrank, hextent]; simp), hzeros]
  simp only [liftRefusal, bind, Except.bind]
  split
  · rfl
  · by_cases hzero : input.extent = 0
    · rw [if_pos hzero, if_pos hzero]
    · rw [if_neg hzero, if_neg hzero, Tensor.width_eq h hzero]

/-- The `k`-th element of a row. -/
theorem Tensor.getD_row (t : Tensor R) (i : Nat) {k : Nat} (hk : k < t.rowWidth) :
    (t.row i).getD k 0 = t.data.getD (i * t.rowWidth + k) 0 := by
  unfold Tensor.row
  rw [List.getD_eq_getElem?_getD, List.getElem?_take, if_pos hk, List.getElem?_drop,
    List.getD_eq_getElem?_getD]

omit [AddCommMonoid R] in
theorem Accepted.numel (h : 1 ≤ input.rank)
    (hlen : indices.length < 2 ^ 60) {dy : Tensor R} (haccept : Accepted input indices dy) :
    dy.data.length = indices.length * dy.rowWidth := by
  have hrows := (Tensor.numel_eq (t := dy) (haccept.1 ▸ h)).2
  rw [haccept.2, Int64.toInt_ofNat_of_lt (by omega), Int.toNat_natCast] at hrows
  exact dy.held.trans hrows

/-- A walk over all indices that does not read behind the gradient sums its rows. -/
theorem sumsRows_of_ok (h : 1 ≤ input.rank)
    (hlen : indices.length < 2 ^ 60) {dy zeros : Tensor R} (haccept : Accepted input indices dy)
    (hzeros : createTensor input.shape (0 : R) = .ok zeros) (hwidth : dy.rowWidth = input.rowWidth)
    (hdata : takeGradLoop dy.data input.extent input.rowWidth indices 0 zeros.data = .ok data) :
    SumsRows input indices dy
      (zeros.fill ((List.range zeros.numel).map fun p => (p, data.getD p 0))) := by
  obtain ⟨hshape, hblank⟩ := createTensor_ok hzeros
  have hnumel : dy.data.length = indices.length * input.rowWidth := by
    rw [Accepted.numel h hlen haccept, hwidth]
  have hinput := (Tensor.numel_eq h).2
  have hsame : zeros.numel = input.numel := by
    unfold Tensor.numel
    rw [hshape]
  have hzlen : zeros.data.length = input.extent.toInt.toNat * input.rowWidth := by
    rw [← hinput, ← hsame]
    exact zeros.held
  obtain ⟨result, hresult, -, hsum⟩ := takeGradLoop_ok (takeGradLoop_inRange hdata)
    (by rw [zero_add, hnumel]) hzlen
  rw [hdata] at hresult
  injection hresult with hresult
  refine ⟨hshape, fun _ => hwidth, ?_⟩
  intro r hr k hk
  have hzw : zeros.rowWidth = input.rowWidth := by
    unfold Tensor.rowWidth
    rw [hshape]
  have hplace : r * input.rowWidth + k < zeros.numel := by
    rw [hsame, hinput]
    have hmul : (r + 1) * input.rowWidth ≤ input.extent.toInt.toNat * input.rowWidth :=
      Nat.mul_le_mul_right _ hr
    rw [add_mul, one_mul] at hmul
    omega
  have hget : ((zeros.fill ((List.range zeros.numel).map fun p => (p, data.getD p 0))).row r).getD k 0 =
      data.getD (r * input.rowWidth + k) 0 := by
    rw [Tensor.getD_row _ _ (by show k < zeros.rowWidth; omega), Tensor.fill_range]
    show ((List.range zeros.numel).map _).getD (r * zeros.rowWidth + k) 0 = _
    rw [hzw, List.getD_eq_getElem?_getD, List.getElem?_map, List.getElem?_range hplace]
    rfl
  rw [hget, hresult, hsum r k hk, hblank]
  have hempty : (List.replicate (Extents.numel input.shape) (0 : R)).getD (r * input.rowWidth + k) 0 =
      0 := by
    rw [List.getD_eq_getElem?_getD, List.getElem?_replicate]
    split <;> rfl
  rw [hempty, zero_add]
  apply sum_congr rfl
  intro j _
  rw [Tensor.getD_row _ _ (by omega), zero_add, hwidth]

omit [AddCommMonoid R] in
/-- Rows as wide as those of the input, or an index that stops the walk, keep every read inside
    the gradient. -/
theorem not_behind (h : 1 ≤ input.rank)
    (hlen : indices.length < 2 ^ 60) {dy : Tensor R} (haccept : Accepted input indices dy)
    (hcond : dy.rowWidth = input.rowWidth ∨ StopsInside input indices dy)
    (hi : i < indices.length) (hall : ∀ index ∈ indices.take (i + 1), InRange input.extent index) :
    ¬ dy.data.length < i * input.rowWidth + input.rowWidth := by
  intro hlt
  rcases hcond with hwidth | ⟨j, hj, -, hbad, hle⟩
  · have hmul : (i + 1) * input.rowWidth ≤ indices.length * input.rowWidth :=
      Nat.mul_le_mul_right _ hi
    have hnumel := Accepted.numel h hlen haccept
    rw [hwidth] at hnumel
    rw [add_mul, one_mul] at hmul
    omega
  · by_cases hbefore : i < j
    · have hmul : (i + 1) * input.rowWidth ≤ j * input.rowWidth := Nat.mul_le_mul_right _ hbefore
      have hdy : dy.data.length = dy.numel := dy.held
      rw [add_mul, one_mul] at hmul
      omega
    · apply hbad
      apply hall
      rw [List.getD_eq_getElem?_getD, List.getElem?_eq_getElem hj, Option.getD_some,
        List.mem_iff_getElem]
      exact ⟨j, by rw [List.length_take]; omega, by rw [List.getElem_take]⟩

/-- The gradient is added back as it should be exactly where it is not accepted, no index is
    given, or the tensor has rows and the gradient's are as wide (or an index is reported
    before it matters). -/
theorem addsBack_iff (h : 1 ≤ input.rank)
    (hlen : indices.length < 2 ^ 60) (dy : Tensor R) :
    AddsBack input indices dy ↔ ¬ Accepted input indices dy ∨ indices = [] ∨
      (input.extent ≠ 0 ∧ (dy.rowWidth = input.rowWidth ∨ StopsInside input indices dy)) := by
  obtain ⟨zeros, hzeros, hshape, hblank⟩ := zeros_of_shape input
  by_cases haccept : Accepted input indices dy
  swap
  · simp only [haccept, not_false_eq_true, true_or, iff_true]
    have hrefused : takeGrad input indices dy = .error (.refused
        (.shape "take_grad expects a gradient shaped like the take result")) := by
      unfold takeGrad
      rw [if_neg (by omega), if_pos]
      by_contra hnot
      push Not at hnot
      exact haccept hnot
    unfold AddsBack
    rw [hrefused]
    exact ⟨by simp, by simp, by simp⟩
  simp only [haccept, not_true_eq_false, false_or]
  unfold AddsBack
  rw [takeGrad_eq h haccept hzeros]
  by_cases hnil : indices = []
  · simp only [hnil, true_or, iff_true]
    refine ⟨?_, by simp, by simp⟩
    intro out hout
    injection hout with hout
    subst hout
    refine ⟨hshape, fun hne => absurd rfl hne, ?_⟩
    intro r _ k hk
    have hzw : zeros.rowWidth = input.rowWidth := by
      unfold Tensor.rowWidth
      rw [hshape]
    rw [Tensor.getD_row _ _ (by omega), hblank, List.getD_eq_getElem?_getD, List.getElem?_replicate]
    split <;> rfl
  rw [if_neg hnil]
  simp only [hnil, false_or]
  by_cases hzero : input.extent = 0
  · simp [hzero]
  rw [if_neg hzero]
  simp only [ne_eq, hzero, not_false_eq_true, true_and]
  cases hloop : takeGradLoop dy.data input.extent input.rowWidth indices 0 zeros.data with
  | ok data =>
    have hall := takeGradLoop_inRange hloop
    simp only [bind, Except.bind, reduceCtorEq, not_false_eq_true, and_true]
    constructor
    · intro hgood
      exact .inl ((hgood _ rfl).2.1 hnil)
    · rintro (hwidth | ⟨j, hj, -, hbad, -⟩)
      · intro out hout
        injection hout with hout
        subst hout
        exact sumsRows_of_ok h hlen haccept hzeros hwidth hloop
      · -- every index named a row
        exfalso
        apply hbad
        apply hall
        rw [List.getD_eq_getElem?_getD, List.getElem?_eq_getElem hj]
        exact List.getElem_mem hj
  | error fault =>
    simp only [bind, Except.bind, reduceCtorEq, false_implies, implies_true, true_and,
      Except.error.injEq]
    constructor
    · rintro ⟨-, hnever⟩
      have hstart : 0 * input.rowWidth ≤ dy.data.length := by
        rw [Nat.zero_mul]
        exact Nat.zero_le _
      obtain ⟨-, j, hj, hbefore, hbad, hle⟩ := takeGradLoop_stops hstart hloop hnever
      exact .inr ⟨j, hj, hbefore, hbad, by rwa [Nat.zero_add, dy.held] at hle⟩
    · intro hcond
      have hnever : fault ≠ .outside := by
        rintro rfl
        obtain ⟨i, hi, hall, hlt⟩ := takeGradLoop_outside_iff zeros.data |>.1 hloop
        rw [zero_add] at hlt
        exact not_behind h hlen haccept hcond hi hall hlt
      have hstart : 0 * input.rowWidth ≤ dy.data.length := by
        rw [Nat.zero_mul]
        exact Nat.zero_le _
      exact ⟨(takeGradLoop_stops hstart hloop hnever).1, hnever⟩

/-- Taking rows and its gradient do what they are for exactly under the two conditions. -/
theorem take_correct_iff (input : Tensor R) (indices : List Int64) (h : 1 ≤ input.rank)
    (hlen : indices.length < 2 ^ 60) :
    (∀ blank, TakesRows input indices blank ↔ indices = [] ∨
      (input.extent ≠ 0 ∧ ∃ n, checkedNumel (takenShape input indices.length) = .ok n)) ∧
    (∀ dy, AddsBack input indices dy ↔ ¬ Accepted input indices dy ∨ indices = [] ∨
      (input.extent ≠ 0 ∧ (dy.rowWidth = input.rowWidth ∨ StopsInside input indices dy))) :=
  ⟨takesRows_iff h hlen, addsBack_iff h hlen⟩

/-- The second row twice, and its gradient. -/
theorem take_correct_iff_twice :
    TakesRows twoByThree [1, 1] 0 ∧ AddsBack twoByThree [1, 1] twoByThree := by
  have hboth := take_correct_iff twoByThree [1, 1] (by decide) (by decide)
  refine ⟨(hboth.1 0).2 (.inr ⟨by decide, 6, rfl⟩), (hboth.2 twoByThree).2 ?_⟩
  exact .inr (.inr ⟨by decide, .inl rfl⟩)

/-- No rows of three elements. -/
def noRows : Tensor Nat where
  shape := [0, 3]
  data := []
  counted := ⟨0, rfl⟩
  held := by decide

/-- Two rows of one element. -/
def narrow : Tensor Nat where
  shape := [2, 1]
  data := [5, 6]
  counted := ⟨2, rfl⟩
  held := rfl

/-- A row of no rows divides by zero, and a narrow gradient is read behind its end. -/
theorem take_divides_and_reads :
    (take noRows [0] 0 = .error .divisionByZero ∧ ¬ TakesRows noRows [0] 0) ∧
      takeGrad twoByThree [0, 1] narrow = .error .outside ∧
      ¬ AddsBack twoByThree [0, 1] narrow := by
  have htake : take noRows [0] 0 = .error .divisionByZero := rfl
  have hgrad : takeGrad twoByThree [0, 1] narrow = .error .outside := rfl
  refine ⟨⟨htake, ?_⟩, hgrad, fun h => h.2.2 hgrad⟩
  rintro ⟨-, hbad⟩
  obtain ⟨text, htext⟩ := hbad ⟨0, List.mem_cons_self, by decide⟩
  rw [htake] at htext
  cases htext

end Camel.Tensor
