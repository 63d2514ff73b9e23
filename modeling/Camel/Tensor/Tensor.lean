import Camel.Array.Storage
import Camel.Lib.RowMajor

/-! # Tensors

    A tensor is a shape and its elements in row-major order. A kernel allocates its
    result, which holds whatever the memory held, and stores the elements one by one.
-/

namespace Camel.Tensor

open Camel.Lib Camel.Extents List

/-! ## Shapes -/

variable (shape : List Int64)

/-- A shape's extents as numbers. -/
def dimsOf : List Nat := shape.map fun e => e.toInt.toNat

theorem prod_dimsOf : (dimsOf shape).prod = numel shape := rfl

@[simp] theorem length_dimsOf : (dimsOf shape).length = shape.length :=
  length_map ..

theorem getD_dimsOf (d : Nat) :
    (dimsOf shape).getD d 0 = (shape.getD d 0).toInt.toNat := by
  rw [dimsOf, getD_eq_getElem?_getD, getD_eq_getElem?_getD, getElem?_map]
  cases shape[d]? with
  | none => rfl
  | some e => rfl

/-- Row-major strides, in elements. -/
def contiguousStrides : List Nat → List Int
  | [] => []
  | _ :: shape => (shape.prod : Int) :: contiguousStrides shape

@[simp] theorem length_contiguousStrides (shape : List Nat) :
    (contiguousStrides shape).length = shape.length := by
  induction shape with
  | nil => rfl
  | cons e shape ih => simp [contiguousStrides, ih]

/-- Coordinates weighed with the strides give the place of the element. -/
theorem dot_contiguousStrides (shape cs : List Nat) :
    dot (contiguousStrides shape) cs = (flatOf shape cs : Int) := by
  induction shape generalizing cs with
  | nil => simp [contiguousStrides]
  | cons e shape ih =>
    cases cs with
    | nil => rfl
    | cons c cs =>
      rw [contiguousStrides, dot_cons, ih, flatOf]
      push_cast
      rw [nsmul_eq_mul]

/-- A shape with elements is accepted when their number fits 64 bits, in any order of the
    extents. -/
theorem counted_of_pos {shape : List Int64} (hpos : NonNeg shape) (hne : numel shape ≠ 0)
    (hfits : numel shape < 2 ^ 64) : ∃ n, checkedNumel shape = .ok n := by
  rw [checkedNumel_ok_iff]
  have hmain : ∀ (rest : List Int64) (total : Nat), NonNeg rest → numel rest ≠ 0 →
      total * numel rest < 2 ^ 64 → Counted total rest := by
    intro rest
    induction rest with
    | nil => intro total _ _ _; trivial
    | cons e rest ih =>
      intro total hnonneg hzero hlt
      rw [numel_cons] at hzero hlt
      have hrest : numel rest ≠ 0 := fun h0 => hzero (by rw [h0, mul_zero])
      rw [← mul_assoc] at hlt
      refine ⟨hnonneg e mem_cons_self, ?_, ih _ (fun x hx => hnonneg x
        (.tail _ hx)) hrest hlt⟩
      exact lt_of_le_of_lt (Nat.le_mul_of_pos_right _ (pos_of_ne_zero hrest)) hlt
  exact hmain shape 1 hpos hne (by rwa [one_mul])

/-! ## Tensors -/

/-- A tensor; its shape passed `checkedNumel`. -/
structure Tensor (α : Type) where
  shape : List Int64
  data : List α
  counted : ∃ n, checkedNumel shape = .ok n
  held : data.length = numel shape

namespace Tensor

variable {α : Type}

variable (t : Tensor α)

def dims : List Nat := dimsOf t.shape

def rank : Nat := t.shape.length

def numel (t : Tensor α) : Nat := Extents.numel t.shape

theorem prod_dims : t.dims.prod = t.numel := rfl

@[simp] theorem length_dims : t.dims.length = t.rank := length_dimsOf _

theorem nonneg : NonNeg t.shape := by
  obtain ⟨n, hn⟩ := t.counted
  exact (checkedNumel_ok hn).1

theorem small : t.numel < 2 ^ 64 := by
  obtain ⟨n, hn⟩ := t.counted
  unfold numel
  rw [← (checkedNumel_ok hn).2]
  exact n.toNat_lt

/-- The element at coordinates. -/
def get? (cs : List Nat) : Option α := t.data[flatOf t.dims cs]?

theorem get?_isSome {t : Tensor α} {cs : List Nat} (h : Inside cs t.dims) :
    ∃ x, t.get? cs = some x := by
  have hlt : flatOf t.dims cs < t.data.length := by
    rw [t.held]
    exact flatOf_lt h
  exact ⟨_, getElem?_eq_getElem hlt⟩

/-- Tensors of one shape with the same elements are the same. -/
theorem ext_get? {t u : Tensor α} (hshape : t.shape = u.shape)
    (h : ∀ cs, Inside cs t.dims → t.get? cs = u.get? cs) : t = u := by
  have hdata : t.data = u.data := by
    apply ext_getElem?
    intro p
    by_cases hp : p < t.dims.prod
    · have hget := h (coordsOf t.dims p) (inside_coordsOf hp)
      have hdims : u.dims = t.dims := by
        unfold dims
        rw [hshape]
      unfold get? at hget
      rwa [hdims, flatOf_coordsOf hp] at hget
    · have hlen : u.data.length = t.data.length := by
        rw [t.held, u.held, hshape]
      rw [getElem?_eq_none, getElem?_eq_none]
      · rw [hlen, t.held]
        exact le_of_not_gt hp
      · rw [t.held]
        exact le_of_not_gt hp
  cases t
  cases u
  simp only at hshape hdata
  subst hshape hdata
  rfl

/-- Stores one after another. -/
def fill (stores : List (Nat × α)) : Tensor α where
  shape := t.shape
  data := stores.foldl (fun data store => data.set store.1 store.2) t.data
  counted := t.counted
  held := by
    have hlen : ∀ (stores : List (Nat × α)) (data : List α),
        (stores.foldl (fun data store => data.set store.1 store.2) data).length = data.length := by
      intro stores
      induction stores with
      | nil => intro data; rfl
      | cons store stores ih => intro data; rw [foldl_cons, ih, length_set]
    rw [hlen, t.held]

@[simp] theorem fill_shape (stores : List (Nat × α)) :
    (t.fill stores).shape = t.shape := rfl

end Tensor

variable {α : Type}

theorem counted_of {shape : List Int64} {n : UInt64} (h : checkedNumel shape = .ok n) :
    ∃ n, checkedNumel shape = .ok n :=
  ⟨n, h⟩

/-- `createTensor`, in memory that holds `blank`. -/
def createTensor (blank : α) : Except String (Tensor α) :=
  match h : checkedNumel shape with
  | .error text => .error text
  | .ok n => .ok ⟨shape, List.replicate (numel shape) blank, counted_of h, length_replicate⟩

theorem createTensor_ok {shape : List Int64} {blank : α} {t : Tensor α}
    (h : createTensor shape blank = .ok t) :
    t.shape = shape ∧ t.data = replicate (numel shape) blank := by
  unfold createTensor at h
  split at h
  · cases h
  · cases h
    exact ⟨rfl, rfl⟩

theorem createTensor_ok_iff (blank : α) :
    (∃ t, createTensor shape blank = .ok t) ↔ ∃ n, checkedNumel shape = .ok n := by
  constructor
  · rintro ⟨t, ht⟩
    rw [← (createTensor_ok ht).1]
    exact t.counted
  · rintro ⟨n, hn⟩
    unfold createTensor
    split
    · next text htext => rw [hn] at htext; cases htext
    · exact ⟨_, rfl⟩

theorem createTensor_error_iff {shape : List Int64} {blank : α} {text : String} :
    createTensor shape blank = .error text ↔ checkedNumel shape = .error text := by
  unfold createTensor
  split
  · next what hwhat => rw [hwhat]; simp
  · next n hn =>
    constructor
    · intro h
      cases h
    · intro h
      rw [hn] at h
      cases h

/-- Elements stored in order fill the memory up. -/
theorem foldl_set_range (f : Nat → α) (n : Nat) (data : List α) (h : n ≤ data.length) :
    ((range n).map fun p => (p, f p)).foldl (fun data store => data.set store.1 store.2) data =
      (range n).map f ++ data.drop n := by
  induction n with
  | zero => rfl
  | succ n ih =>
    have hdrop : data.drop n = data[n] :: data.drop (n + 1) := drop_eq_getElem_cons h
    have hlen : ((range n).map f).length = n := by
      simp
    rw [range_succ, map_append, foldl_append, ih (by omega), map_append, hdrop]
    simp only [map_cons, map_nil, foldl_cons, foldl_nil, append_assoc,
      singleton_append]
    rw [set_append_right _ _ (by omega), hlen, Nat.sub_self, set_cons_zero]

theorem Tensor.fill_range {t : Tensor α} (f : Nat → α) :
    (t.fill ((range t.numel).map fun p => (p, f p))).data = (range t.numel).map f := by
  have hlen : t.data.length = t.numel := t.held
  unfold Tensor.fill
  show ((range t.numel).map fun p => (p, f p)).foldl _ t.data = _
  rw [foldl_set_range f t.numel t.data (by omega), drop_of_length_le (by omega),
    append_nil]

/-- Two rows of three elements. -/
def twoByThree : Tensor Nat where
  shape := [2, 3]
  data := [0, 1, 2, 3, 4, 5]
  counted := ⟨6, rfl⟩
  held := rfl

end Camel.Tensor
