import Camel.Tensor.Reshape

/-! # Taking Rows

    A tensor's rows along its first axis are copied in the order of an index list, and the
    gradient of that adds the rows of a gradient back to the rows they came from. Rows are
    found by their width, which is the element count divided by the first extent.
-/

namespace Camel.Tensor

open Lib Extents

/-! ## Kernels -/

/-- How a kernel can fail; the last two are no errors a kernel raises. -/
inductive Fault where
  | refused (refusal : Refusal)
  | outOfRange (text : String)
  | divisionByZero
  /-- A read behind the elements of a tensor. -/
  | outside
  deriving DecidableEq

variable {α : Type}

/-- The first extent. -/
def Tensor.extent (t : Tensor α) : Int64 := t.shape.headD 0

/-- The elements of a row, as the shape has it. -/
def Tensor.rowWidth (t : Tensor α) : Nat := (dimsOf t.shape.tail).prod

/-- The shape of rows taken by `count` indices. -/
def takenShape (input : Tensor α) (count : Nat) : List Int64 :=
  Int64.ofNat count :: input.shape.tail

/-- The loop of `take`: the rows copied, each of `width` elements. -/
def takeLoop (data : List α) (extent : Int64) (width : Nat) : List Int64 → Except Fault (List (List α))
  | [] => .ok []
  | index :: rest =>
    if index < 0 ∨ extent ≤ index then .error (.outOfRange "take index out of range")
    else if data.length < index.toInt.toNat * width + width then .error .outside
    else do
      let rows ← takeLoop data extent width rest
      .ok ((data.drop (index.toInt.toNat * width)).take width :: rows)

/-- The stores of rows copied one behind the other. -/
def rowStores (width : Nat) (rows : List (List α)) (blank : α) : List (Nat × α) :=
  (List.range rows.length).flatMap fun i =>
    (List.range width).map fun k => (i * width + k, (rows.getD i []).getD k blank)

def liftRefusal {β : Type} : Except String β → Except Fault β
  | .ok b => .ok b
  | .error text => .error (.refused (.argument text))

def take (input : Tensor α) (indices : List Int64) (blank : α) : Except Fault (Tensor α) :=
  if input.rank < 1 then
    .error (.refused (.argument "take expects a tensor with at least one dimension"))
  else do
    let out ← liftRefusal (createTensor (takenShape input indices.length) blank)
    if indices = [] then .ok out
    else if input.extent = 0 then .error .divisionByZero
    else
      let width := input.numel / input.extent.toInt.toNat
      let rows ← takeLoop input.data input.extent width indices
      .ok (out.fill (rowStores width rows blank))

section Gradient

variable {R : Type} [AddCommMonoid R]

/-- The elements of `part` added to those from `base` on. -/
def addAt (data : List R) (base : Nat) (part : List R) : List R :=
  data.take base ++ List.zipWith (· + ·) (data.drop base) part ++ data.drop (base + part.length)

/-- The loop of `takeGrad`, from the `i`-th index on. -/
def takeGradLoop (dy : List R) (extent : Int64) (width : Nat) :
    List Int64 → Nat → List R → Except Fault (List R)
  | [], _, out => .ok out
  | index :: rest, i, out =>
    if index < 0 ∨ extent ≤ index then .error (.outOfRange "take_grad index out of range")
    else if dy.length < i * width + width then .error .outside
    else takeGradLoop dy extent width rest (i + 1)
      (addAt out (index.toInt.toNat * width) ((dy.drop (i * width)).take width))

def takeGrad (input : Tensor R) (indices : List Int64) (dy : Tensor R) : Except Fault (Tensor R) :=
  if input.rank < 1 then
    .error (.refused (.argument "take_grad expects a tensor with at least one dimension"))
  else if dy.rank ≠ input.rank ∨ dy.extent ≠ Int64.ofNat indices.length then
    .error (.refused (.shape "take_grad expects a gradient shaped like the take result"))
  else do
    let out ← liftRefusal (createTensor input.shape (0 : R))
    if indices = [] then .ok out
    else if input.extent = 0 then .error .divisionByZero
    else
      let width := input.numel / input.extent.toInt.toNat
      let data ← takeGradLoop dy.data input.extent width indices 0 out.data
      .ok (out.fill ((List.range out.numel).map fun p => (p, data.getD p 0)))

end Gradient

/-! ## Rows -/

/-- The index names a row. -/
def InRange (extent index : Int64) : Prop := 0 ≤ index.toInt ∧ index.toInt < extent.toInt

variable {index : Int64}

theorem not_outOfRange_iff {extent : Int64} :
    ¬ (index < 0 ∨ extent ≤ index) ↔ InRange extent index := by
  unfold InRange
  rw [not_or, not_lt_zero_iff, Int64.not_le, Int64.lt_iff_toInt_lt]

instance (extent index : Int64) : Decidable (InRange extent index) :=
  inferInstanceAs (Decidable (_ ∧ _))

theorem InRange.lt {extent : Int64} (h : InRange extent index) :
    index.toInt.toNat < extent.toInt.toNat := by
  unfold InRange at h
  omega

variable {t : Tensor α}

/-- A tensor with an axis is its first extent times its rows. -/
theorem Tensor.numel_eq (h : 1 ≤ t.rank) :
    t.dims = t.extent.toInt.toNat :: dimsOf t.shape.tail ∧
      t.numel = t.extent.toInt.toNat * t.rowWidth := by
  unfold Tensor.dims Tensor.numel Tensor.extent Tensor.rowWidth
  cases hshape : t.shape with
  | nil =>
    unfold Tensor.rank at h
    rw [hshape] at h
    cases h
  | cons e rest => exact ⟨rfl, numel_cons e rest⟩

theorem Tensor.extent_nonneg (t : Tensor α) : 0 ≤ t.extent.toInt := by
  unfold Tensor.extent
  cases hshape : t.shape with
  | nil => decide
  | cons e rest => exact t.nonneg e (by rw [hshape]; exact List.mem_cons_self)

theorem Tensor.extent_eq_zero_iff : t.extent = 0 ↔ t.extent.toInt.toNat = 0 := by
  have hpos := t.extent_nonneg
  constructor
  · intro h
    rw [h]
    rfl
  · intro h
    rw [← Int64.toInt_inj]
    show t.extent.toInt = 0
    omega

/-- The division gives the width of a row. -/
theorem Tensor.width_eq (h : 1 ≤ t.rank) (hne : t.extent ≠ 0) :
    t.numel / t.extent.toInt.toNat = t.rowWidth := by
  have hpos : 0 < t.extent.toInt.toNat :=
    Nat.pos_of_ne_zero fun h0 => hne (Tensor.extent_eq_zero_iff.2 h0)
  rw [(Tensor.numel_eq h).2, Nat.mul_div_cancel_left _ hpos]

/-- A row that an index names lies among the elements. -/
theorem Tensor.row_inside (h : 1 ≤ t.rank)
    (hin : InRange t.extent index) :
    index.toInt.toNat * t.rowWidth + t.rowWidth ≤ t.data.length := by
  have hlt := hin.lt
  have hlen : t.data.length = t.extent.toInt.toNat * t.rowWidth :=
    t.held.trans (Tensor.numel_eq h).2
  have hmul : (index.toInt.toNat + 1) * t.rowWidth ≤ t.extent.toInt.toNat * t.rowWidth :=
    Nat.mul_le_mul_right _ hlt
  rw [add_mul, one_mul] at hmul
  omega

/-- The elements of a row. -/
def Tensor.row (t : Tensor α) (i : Nat) : List α := (t.data.drop (i * t.rowWidth)).take t.rowWidth

end Camel.Tensor

/-! # The Rows Taken

    Rows are taken as the indices say wherever the first extent is not zero, since only
    then the width of a row is known. The gradient trusts the row width of what it is
    handed, and reads elsewhere when that width differs.
-/

namespace Camel.Tensor

open Lib Extents List

variable {α : Type}

/-! ## Rows Copied -/

variable {input : Tensor α} {indices : List Int64}

theorem takeLoop_ok (h : 1 ≤ input.rank)
    (hin : ∀ index ∈ indices, InRange input.extent index) :
    takeLoop input.data input.extent input.rowWidth indices =
      .ok (indices.map fun index => input.row index.toInt.toNat) := by
  induction indices with
  | nil => rfl
  | cons index rest ih =>
    have hindex := hin index mem_cons_self
    have hinside := Tensor.row_inside h hindex
    rw [takeLoop, if_neg (not_outOfRange_iff.2 hindex), if_neg (by omega),
      ih fun x hx => hin x (.tail _ hx)]
    rfl

/-- The first index out of range is reported. -/
theorem takeLoop_error (h : 1 ≤ input.rank)
    (hbad : ∃ index ∈ indices, ¬ InRange input.extent index) :
    takeLoop input.data input.extent input.rowWidth indices =
      .error (.outOfRange "take index out of range") := by
  induction indices with
  | nil =>
    obtain ⟨index, hmem, -⟩ := hbad
    cases hmem
  | cons index rest ih =>
    rw [takeLoop]
    by_cases hindex : InRange input.extent index
    · have hinside := Tensor.row_inside h hindex
      have hrest : ∃ x ∈ rest, ¬ InRange input.extent x := by
        obtain ⟨x, hx, hnot⟩ := hbad
        rcases mem_cons.1 hx with rfl | hx
        · exact absurd hindex hnot
        · exact ⟨x, hx, hnot⟩
      rw [if_neg (not_outOfRange_iff.2 hindex), if_neg (by omega), ih hrest]
      rfl
    · rw [if_pos]
      by_contra hnot
      exact hindex (not_outOfRange_iff.1 hnot)

/-- Rows of one width stored one behind the other are the rows of the result. -/
theorem fill_rowStores {t : Tensor α} {rows : List (List α)} (blank : α)
    (hcount : t.numel = rows.length * t.rowWidth) (hrow : ∀ row ∈ rows, row.length = t.rowWidth)
    {i : Nat} (hi : i < rows.length) :
    ((t.fill (rowStores t.rowWidth rows blank)).row i) = rows.getD i [] := by
  have hstores : rowStores t.rowWidth rows blank = (List.range t.numel).map fun p =>
      (p, (rows.getD (p / t.rowWidth) []).getD (p % t.rowWidth) blank) := by
    have hall := flatMap_rows (fun p =>
      (p, (rows.getD (p / t.rowWidth) []).getD (p % t.rowWidth) blank)) t.rowWidth 0 rows.length
    rw [zero_mul, ← range_eq_range', ← range_eq_range', ← hcount] at hall
    rw [← hall]
    unfold rowStores
    apply flatMap_congr
    intro j _
    apply map_congr_left
    intro k hk
    obtain ⟨hdiv, hmod⟩ := div_mod_place (r := j) (mem_range.1 hk)
    rw [hdiv, hmod]
  have hlen : (rows.getD i []).length = t.rowWidth := by
    rw [getD_eq_getElem?_getD, getElem?_eq_getElem hi, Option.getD_some]
    exact hrow _ (getElem_mem hi)
  have hend : (i + 1) * t.rowWidth ≤ t.numel := by
    rw [hcount]
    exact Nat.mul_le_mul_right _ hi
  rw [add_mul, one_mul] at hend
  unfold Tensor.row
  show ((t.fill _).data.drop (i * t.rowWidth)).take t.rowWidth = _
  rw [hstores, Tensor.fill_range]
  apply ext_getElem
  · rw [length_take, length_drop, length_map, length_range, hlen]
    omega
  · intro k h1 h2
    have hk : k < t.rowWidth := by omega
    obtain ⟨hdiv, hmod⟩ := div_mod_place (r := i) hk
    rw [getElem_take, getElem_drop, getElem_map, getElem_range, hdiv, hmod,
      getD_eq_getElem?_getD (l := rows.getD i []), getElem?_eq_getElem h2,
      Option.getD_some]

/-- What `take` is for: the rows the indices name, or a report of one that names none. -/
def TakesRows (input : Tensor α) (indices : List Int64) (blank : α) : Prop :=
  ((∀ index ∈ indices, InRange input.extent index) →
    ∃ out, take input indices blank = .ok out ∧
      out.shape = Int64.ofNat indices.length :: input.shape.tail ∧
      ∀ i (hi : i < indices.length), out.row i = input.row (indices[i]).toInt.toNat) ∧
  ((∃ index ∈ indices, ¬ InRange input.extent index) →
    ∃ text, take input indices blank = .error (.outOfRange text))

theorem counted_zero_cons {e : Int64} {rest : List Int64} (h : ∃ n, checkedNumel (e :: rest) = .ok n) :
    ∃ n, checkedNumel (0 :: rest) = .ok n := by
  rw [checkedNumel_ok_iff] at h ⊢
  refine ⟨by decide, by decide, ?_⟩
  exact h.2.2.mono (by simp)

/-- No memory is refused for no rows. -/
theorem counted_no_rows (h : 1 ≤ input.rank) :
    ∃ n, checkedNumel (takenShape input 0) = .ok n := by
  have hcounted := input.counted
  unfold takenShape
  unfold Tensor.rank at h
  cases hshape : input.shape with
  | nil =>
    rw [hshape] at h
    cases h
  | cons e rest =>
    rw [hshape] at hcounted
    exact counted_zero_cons hcounted

theorem take_of_error (h : 1 ≤ input.rank) (blank : α)
    (hne : ¬ ∃ n, checkedNumel (takenShape input indices.length) = .ok n) :
    ∃ text, take input indices blank = .error (.refused (.argument text)) := by
  unfold take
  rw [if_neg (by omega)]
  cases ht : createTensor (takenShape input indices.length) blank with
  | error text => exact ⟨text, rfl⟩
  | ok t => exact absurd ((createTensor_ok_iff _ _).1 ⟨t, ht⟩) hne

/-- Rows are taken as they should be exactly where no index is given, or the tensor has rows
    and memory can be asked for. -/
theorem takesRows_iff (h : 1 ≤ input.rank)
    (hlen : indices.length < 2 ^ 60) (blank : α) :
    TakesRows input indices blank ↔ indices = [] ∨
      (input.extent ≠ 0 ∧ ∃ n, checkedNumel (takenShape input indices.length) = .ok n) := by
  have hcount : (Int64.ofNat indices.length).toInt.toNat = indices.length := by
    rw [Int64.toInt_ofNat_of_lt (by omega), Int.toNat_natCast]
  constructor
  · rintro ⟨hgood, hbad⟩
    by_cases hnil : indices = []
    · exact .inl hnil
    right
    have hcounted : ∃ n, checkedNumel (takenShape input indices.length) = .ok n := by
      by_contra hne
      obtain ⟨text, htext⟩ := take_of_error h blank hne
      by_cases hall : ∀ index ∈ indices, InRange input.extent index
      · obtain ⟨out, hout, -⟩ := hgood hall
        rw [htext] at hout
        cases hout
      · push Not at hall
        obtain ⟨what, hwhat⟩ := hbad hall
        rw [htext] at hwhat
        cases hwhat
    refine ⟨?_, hcounted⟩
    intro hzero
    -- no index names a row of none
    obtain ⟨index, hmem⟩ := exists_mem_of_ne_nil _ hnil
    have hnone : ¬ InRange input.extent index := by
      unfold InRange
      have h0 : input.extent.toInt = 0 := by
        rw [hzero]
        rfl
      omega
    obtain ⟨text, htext⟩ := hbad ⟨index, hmem, hnone⟩
    obtain ⟨t, ht⟩ := (createTensor_ok_iff _ blank).2 hcounted
    unfold take at htext
    rw [if_neg (by omega), ht] at htext
    simp only [liftRefusal, bind, Except.bind, if_neg hnil, if_pos hzero] at htext
    cases htext
  · rintro (rfl | ⟨hzero, hcounted⟩)
    · obtain ⟨t, ht⟩ := (createTensor_ok_iff _ blank).2 (counted_no_rows h)
      constructor
      · intro _
        refine ⟨t, ?_, (createTensor_ok ht).1, fun i hi => absurd hi (Nat.not_lt_zero i)⟩
        unfold take
        rw [if_neg (by omega), length_nil, ht]
        rfl
      · rintro ⟨index, hmem, -⟩
        cases hmem
    · obtain ⟨t, ht⟩ := (createTensor_ok_iff _ blank).2 hcounted
      have hshape := (createTensor_ok ht).1
      by_cases hnil : indices = []
      · constructor
        · intro _
          refine ⟨t, ?_, hshape, fun i hi => ?_⟩
          · unfold take
            rw [if_neg (by omega), ht]
            simp only [liftRefusal, bind, Except.bind, if_pos hnil]
          · rw [hnil] at hi
            exact absurd hi (Nat.not_lt_zero i)
        · rintro ⟨index, hmem, -⟩
          rw [hnil] at hmem
          cases hmem
      have htake : take input indices blank = (do
          let rows ← takeLoop input.data input.extent input.rowWidth indices
          .ok (t.fill (rowStores input.rowWidth rows blank))) := by
        unfold take
        rw [if_neg (by omega), ht]
        simp only [liftRefusal, bind, Except.bind, if_neg hnil, if_neg hzero,
          Tensor.width_eq h hzero]
      have hwidth : t.rowWidth = input.rowWidth := by
        unfold Tensor.rowWidth
        rw [hshape]
        rfl
      constructor
      · intro hall
        rw [htake, takeLoop_ok h hall]
        refine ⟨_, rfl, hshape, fun i hi => ?_⟩
        have hnumel : t.numel =
            (indices.map fun index => input.row index.toInt.toNat).length * t.rowWidth := by
          rw [length_map, hwidth]
          unfold Tensor.numel
          rw [hshape, takenShape, numel_cons, hcount]
          rfl
        have hrows : ∀ row ∈ indices.map (fun index => input.row index.toInt.toNat),
            row.length = t.rowWidth := by
          intro row hrow
          obtain ⟨index, hmem, rfl⟩ := mem_map.1 hrow
          have hinside := Tensor.row_inside h (hall index hmem)
          rw [Tensor.row, length_take, length_drop, hwidth]
          omega
        have hfill := fill_rowStores blank hnumel hrows (i := i) (by simpa using hi)
        rw [hwidth] at hfill
        rw [hfill]
        simp [getD_eq_getElem?_getD, hi]
      · intro hbad
        exact ⟨_, by rw [htake, takeLoop_error h hbad]; rfl⟩

end Camel.Tensor
