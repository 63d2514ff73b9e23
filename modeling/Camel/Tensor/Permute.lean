import Camel.Lib.Memory
import Camel.Tensor.Tensor

/-! # Permuting Axes

    The rows of the result are gathered from the input, whose strides are permuted. The
    place of a row in the input is carried from row to row by counters; it is decoded at
    the first row of a chunk.
-/

namespace Camel.Tensor

open Lib Extents List

/-! ## Shapes -/

def shapeText (shape : List Int) : String := "[" ++ ", ".intercalate (shape.map toString) ++ "]"

/-- An axis counted from either end. -/
def axisOf (rank : Nat) (p : Int) : Int := if p < 0 then p + rank else p

/-- The loop of `permuteShape`, with the axes seen so far. -/
def permuteFrom (input : List Int64) (text : String) :
    List Int → List Bool → Except String (List Int64)
  | [], _ => .ok []
  | p :: perm, seen =>
    let axis := axisOf input.length p
    if axis < 0 ∨ (input.length : Int) ≤ axis ∨ seen.getD axis.toNat false = true then
      .error ("permute: invalid permutation " ++ text)
    else do
      let rest ← permuteFrom input text perm (seen.set axis.toNat true)
      .ok (input.getD axis.toNat 0 :: rest)

def permuteShape (input : List Int64) (perm : List Int) : Except String (List Int64) :=
  if perm.length ≠ input.length then
    .error "permute: permutation length must equal the tensor rank"
  else permuteFrom input (shapeText perm) perm (List.replicate input.length false)

/-! ## Rows -/

/-- One step of the counters, the last axis first; whether every axis has wrapped. -/
def carryBase : List Nat → List Int → Position Int → Position Int × Bool
  | e :: es, s :: ss, ⟨i :: is, base⟩ =>
    let (rest, wrapped) := carryBase es ss ⟨is, base⟩
    if wrapped then
      if i + 1 < e then (⟨(i + 1) :: rest.index, rest.offset + s⟩, false)
      else (⟨0 :: rest.index, rest.offset - s * (e - 1)⟩, true)
    else (⟨i :: rest.index, rest.offset⟩, false)
  | _, _, p => (⟨[], p.offset⟩, true)

/-- The places of `count` rows from a position on. -/
def carryBases (es : List Nat) (ss : List Int) : Nat → Position Int → List Int
  | 0, _ => []
  | count + 1, p => p.offset :: carryBases es ss count (carryBase es ss p).1

/-- The place of a row, decoded. -/
def decodeBase (es : List Nat) (ss : List Int) (row : Nat) : Int := dot ss (decode es row).1

/-- The places of the rows of a chunk; without an outer axis each row is decoded. -/
def rowBases (es : List Nat) (ss : List Int) (start stop : Nat) : List Int :=
  if es = [] then (List.range' start (stop - start)).map (decodeBase es ss)
  else
    let index := (decode es start).1
    carryBases es ss (stop - start) ⟨index, dot ss index⟩

variable {α : Type}

/-- A row of the result, copied from `base` on in steps of `stride`. -/
def copyRow (data : List α) (blank : α) (inner : Nat) (stride : Int) (row : Nat) (base : Int) :
    List (Nat × α) :=
  (List.range inner).map fun i => (row * inner + i, data.getD (base + i * stride).toNat blank)

def permuteChunk (data : List α) (blank : α) (outDims : List Nat) (src : List Int)
    (chunk : Nat × Nat) : List (Nat × α) :=
  (List.zipWith (copyRow data blank (outDims.getLastD 0) (src.getLastD 0))
    (List.range' chunk.1 (chunk.2 - chunk.1))
    (rowBases outDims.dropLast src.dropLast chunk.1 chunk.2)).flatten

/-- The rows of a result. -/
def rowsOf (outDims : List Nat) : Nat := outDims.prod / max (outDims.getLastD 0) 1

/-- The axes of a permutation. -/
def axesOf (rank : Nat) (perm : List Int) : List Nat := perm.map fun p => (axisOf rank p).toNat

/-- `permute`, with the rows split into `chunks`. -/
def permute (input : Tensor α) (perm : List Int) (blank : α) (chunks : List (Nat × Nat)) :
    Except String (Tensor α) := do
  let outShape ← permuteShape input.shape perm
  let out ← createTensor outShape blank
  if out.numel = 0 then .ok out
  else if outShape.length = 0 then
    .ok (out.fill ((List.range out.numel).map fun p => (p, input.data.getD p blank)))
  else
    let inStrides := contiguousStrides input.dims
    let src := (axesOf outShape.length perm).map fun axis => inStrides.getD axis 0
    .ok (out.fill (chunks.flatMap (permuteChunk input.data blank out.dims src)))

/-- The permutation that swaps the last two axes. -/
def lastTwoSwapped (rank : Nat) : List Int :=
  (List.range (rank - 2)).map Int.ofNat ++ [(rank : Int) - 1, (rank : Int) - 2]

def transposeLast2 (input : Tensor α) (blank : α) (chunks : List (Nat × Nat)) :
    Except String (Tensor α) :=
  if input.rank < 2 then .error "transpose requires a tensor of rank >= 2"
  else permute input (lastTwoSwapped input.rank) blank chunks

/-! ## The Walk of the Rows -/

variable {es : List Nat} {ss : List Int}

section
variable (hlen : ss.length = es.length) (hpos : ∀ e ∈ es, 0 < e)
include hlen hpos

/-- The counters step as those of an odometer do. -/
theorem carryBase_eq
    (row : Nat) (base : Int) :
    carryBase es ss ⟨coordsOf es row, base⟩ = advance es ss ⟨coordsOf es row, base⟩ := by
  induction es generalizing ss with
  | nil =>
    cases ss with
    | nil => rfl
    | cons s ss => cases hlen
  | cons e es ih =>
    cases ss with
    | nil => cases hlen
    | cons s ss =>
      have he : 0 < e := hpos e mem_cons_self
      have hrest : carryBase es ss ⟨coordsOf es row, base⟩ = advance es ss ⟨coordsOf es row, base⟩ :=
        ih (by simpa using hlen) fun x hx => hpos x (.tail _ hx)
      have hlt : row / es.prod % e < e := Nat.mod_lt _ he
      rw [coordsOf, carryBase, advance, hrest]
      generalize row / es.prod % e = i at hlt
      generalize advance es ss ⟨coordsOf es row, base⟩ = next
      obtain ⟨rest, wrapped⟩ := next
      cases wrapped with
      | false => rfl
      | true =>
        simp only [if_true]
        by_cases hnext : i + 1 < e
        · rw [if_pos hnext, if_pos hnext]
        · -- the counter stands at its last value
          have hlast : e = i + 1 := by omega
          rw [if_neg hnext, if_neg hnext, hlast]
          simp only [Prod.mk.injEq, Position.mk.injEq, and_true, true_and]
          push_cast
          rw [nsmul_eq_mul]
          push_cast
          ring

theorem carryBases_eq
    (count row : Nat) :
    carryBases es ss count ⟨coordsOf es row, dot ss (coordsOf es row)⟩ =
      (range' row count).map fun r => dot ss (coordsOf es r) := by
  induction count generalizing row with
  | zero => rfl
  | succ count ih =>
    have hstep := advance_spec hlen hpos row 0
    simp only [zero_add] at hstep
    rw [carryBases, carryBase_eq hlen hpos, hstep, ih (row + 1)]
    rfl

/-- Carried or decoded, every row has the place its counters name. -/
theorem rowBases_eq
    (start stop : Nat) :
    rowBases es ss start stop =
      (range' start (stop - start)).map fun r => dot ss (coordsOf es r) := by
  unfold rowBases
  split
  · apply map_congr_left
    intro row _
    rw [decodeBase, decode_eq]
  · rw [decode_eq]
    exact carryBases_eq hlen hpos _ _

end

/-- The chunks of the rows store the elements of the result in order. -/
theorem flatMap_permuteChunk (data : List α) (blank : α)
    (inner : Nat) (stride : Int) (hlen : ss.length = es.length) (hpos : ∀ e ∈ es, 0 < e)
    {chunks : List (Nat × Nat)} (hsplit : Splits 0 es.prod chunks) :
    chunks.flatMap (permuteChunk data blank (es ++ [inner]) (ss ++ [stride])) =
      (range (es.prod * inner)).map fun p =>
        (p, data.getD (dot (ss ++ [stride]) (coordsOf (es ++ [inner]) p)).toNat blank) := by
  have hrow : ∀ row i, i < inner →
      dot (ss ++ [stride]) (coordsOf (es ++ [inner]) (row * inner + i)) =
        dot ss (coordsOf es row) + i * stride := by
    intro row i hi
    obtain ⟨hdiv, hmod⟩ := div_mod_place (r := row) hi
    rw [coordsOf_append, dot_append (by simp [hlen])]
    simp [coordsOf, hdiv, hmod]
  have hall := flatMap_chunks (fun p => (p, data.getD
    (dot (ss ++ [stride]) (coordsOf (es ++ [inner]) p)).toNat blank)) inner hsplit
  rw [zero_mul, Nat.sub_zero, ← range_eq_range'] at hall
  rw [← hall]
  apply flatMap_congr
  intro chunk _
  unfold permuteChunk
  rw [← flatMap_rows]
  simp only [getLastD_concat, dropLast_concat]
  rw [rowBases_eq hlen hpos, zipWith_map_right, zipWith_self, ← flatMap_def]
  apply flatMap_congr
  intro row _
  apply map_congr_left
  intro i hi
  rw [hrow row i (mem_range.1 hi)]

end Camel.Tensor

/-! # What a Permutation Gathers

    The element of the result at permuted coordinates is the element of the input at the
    coordinates themselves, however the rows are split.
-/

namespace Camel.Tensor

open Lib Extents List

variable {α : Type}

/-! ## Permutations -/

/-- The entries name every axis once, from either end. -/
def IsPermutation (rank : Nat) (perm : List Int) : Prop :=
  (∀ p ∈ perm, 0 ≤ axisOf rank p ∧ axisOf rank p < rank) ∧
    (axesOf rank perm).Perm (List.range rank)

theorem getD_set_true {seen : List Bool} {a b : Nat} (h : a < seen.length) :
    (seen.set a true).getD b false = false ↔ b ≠ a ∧ seen.getD b false = false := by
  rw [getD_eq_getElem?_getD, getElem?_set, getD_eq_getElem?_getD]
  by_cases hab : a = b
  · simp [hab, hab ▸ h]
  · rw [if_neg hab]
    exact ⟨fun hb => ⟨Ne.symm hab, hb⟩, fun hb => hb.2⟩

variable {perm : List Int}

/-- The loop accepts axes that are in range, not seen before and all different. -/
theorem permuteFrom_ok_iff {input : List Int64} {text : String}
    {seen : List Bool} {out : List Int64} (hseen : seen.length = input.length) :
    permuteFrom input text perm seen = .ok out ↔
      (∀ p ∈ perm, (0 ≤ axisOf input.length p ∧ axisOf input.length p < input.length) ∧
        seen.getD (axisOf input.length p).toNat false = false) ∧
      (axesOf input.length perm).Nodup ∧
      out = (axesOf input.length perm).map fun axis => input.getD axis 0 := by
  induction perm generalizing seen out with
  | nil =>
    constructor
    · intro h
      cases h
      exact ⟨by simp, nodup_nil, rfl⟩
    · rintro ⟨-, -, rfl⟩
      rfl
  | cons p perm ih =>
    rw [permuteFrom]
    generalize ha : axisOf input.length p = axis
    by_cases hbad : axis < 0 ∨ (input.length : Int) ≤ axis ∨ seen.getD axis.toNat false = true
    · simp only [if_pos hbad, reduceCtorEq, false_iff]
      rintro ⟨hall, -, -⟩
      have hp := hall p mem_cons_self
      rw [ha] at hp
      obtain ⟨⟨hpos, hlt⟩, hfree⟩ := hp
      rw [hfree] at hbad
      simp only [Bool.false_eq_true, or_false] at hbad
      omega
    · simp only [if_neg hbad]
      have hfree : seen.getD axis.toNat false = false := by
        by_contra hne
        exact hbad (.inr (.inr (by simpa using hne)))
      have hpos : 0 ≤ axis ∧ axis < input.length := by omega
      have hlt : axis.toNat < seen.length := by omega
      have hmarked : ∀ q, (seen.set axis.toNat true).getD (axisOf input.length q).toNat false = false ↔
          (axisOf input.length q).toNat ≠ axis.toNat ∧
            seen.getD (axisOf input.length q).toNat false = false :=
        fun q => getD_set_true hlt
      have hcons : axesOf input.length (p :: perm) = axis.toNat :: axesOf input.length perm := by
        rw [← ha]
        rfl
      have hmem : axis.toNat ∈ axesOf input.length perm ↔
          ∃ q ∈ perm, (axisOf input.length q).toNat = axis.toNat := mem_map
      rw [hcons, nodup_cons, hmem, map_cons]
      constructor
      · intro h
        simp only [bind, Except.bind] at h
        split at h
        · cases h
        next rest hrest =>
          cases h
          obtain ⟨hall, hnodup, hout⟩ := (ih (by rw [length_set, hseen])).1 hrest
          refine ⟨?_, ⟨?_, hnodup⟩, by rw [hout]⟩
          · intro q hq
            rcases mem_cons.1 hq with rfl | hq
            · rw [ha]
              exact ⟨hpos, hfree⟩
            · exact ⟨(hall q hq).1, ((hmarked q).1 (hall q hq).2).2⟩
          · rintro ⟨q, hq, hsame⟩
            exact ((hmarked q).1 (hall q hq).2).1 hsame
      · rintro ⟨hall, ⟨hnew, hnodup⟩, rfl⟩
        have hrest : permuteFrom input text perm (seen.set axis.toNat true) =
            .ok ((axesOf input.length perm).map fun axis => input.getD axis 0) := by
          apply (ih (by rw [length_set, hseen])).2
          refine ⟨?_, hnodup, rfl⟩
          intro q hq
          obtain ⟨hrange, hunseen⟩ := hall q (.tail _ hq)
          exact ⟨hrange, (hmarked q).2 ⟨fun hsame => hnew ⟨q, hq, hsame⟩, hunseen⟩⟩
        simp only [bind, Except.bind, hrest]

/-- `permuteShape` accepts exactly the permutations. -/
theorem permuteShape_ok_iff {input : List Int64} {out : List Int64} :
    permuteShape input perm = .ok out ↔ IsPermutation input.length perm ∧
      out = (axesOf input.length perm).map fun axis => input.getD axis 0 := by
  have hunseen : ∀ i, (replicate input.length false).getD i false = false := by
    intro i
    rw [getD_eq_getElem?_getD, getElem?_replicate]
    split <;> rfl
  have haxes : ∀ a, a ∈ axesOf input.length perm → ∃ p ∈ perm, (axisOf input.length p).toNat = a :=
    fun a ha => mem_map.1 ha
  have hlen : (axesOf input.length perm).length = perm.length := length_map ..
  unfold permuteShape IsPermutation
  by_cases hrank : perm.length = input.length
  · rw [if_neg (not_not.2 hrank), permuteFrom_ok_iff (by simp)]
    constructor
    · rintro ⟨hall, hnodup, hout⟩
      refine ⟨⟨fun p hp => (hall p hp).1, ?_⟩, hout⟩
      have hsub : axesOf input.length perm ⊆ range input.length := by
        intro a ha
        obtain ⟨p, hp, rfl⟩ := haxes a ha
        have hrange := (hall p hp).1
        rw [mem_range]
        omega
      apply (subperm_of_subset hnodup hsub).perm_of_length_le
      rw [length_range, hlen, hrank]
    · rintro ⟨⟨hall, hperm⟩, hout⟩
      refine ⟨fun p hp => ⟨hall p hp, hunseen _⟩, ?_, hout⟩
      exact hperm.nodup_iff.2 nodup_range
  · rw [if_pos hrank]
    simp only [reduceCtorEq, false_iff]
    rintro ⟨⟨-, hperm⟩, -⟩
    have hsame := hperm.length_eq
    rw [hlen, length_range] at hsame
    exact hrank hsame

/-! ## Places -/

theorem map_getD_range {β : Type} (l : List β) (d : β) :
    (range l.length).map (fun i => l.getD i d) = l := by
  apply ext_getElem
  · simp
  · intro i h1 h2
    simp [getD_eq_getElem?_getD, h2]

variable {axes : List Nat}

/-- Coordinates and strides in another order weigh the same. -/
theorem dot_perm {axes' : List Nat} (h : axes.Perm axes') (f : Nat → Int) (g : Nat → Nat) :
    dot (axes.map f) (axes.map g) = dot (axes'.map f) (axes'.map g) := by
  unfold dot
  rw [zipWith_map, zipWith_self, zipWith_map, zipWith_self]
  exact (h.map _).sum_eq

variable {dims cs : List Nat}

/-- The permuted strides lead to the element of the input. -/
theorem dot_gathered (h : axes.Perm (range dims.length))
    (hcs : cs.length = dims.length) :
    dot (axes.map fun axis => (contiguousStrides dims).getD axis 0)
      (axes.map fun axis => cs.getD axis 0) = (flatOf dims cs : Int) := by
  have hstrides : (range dims.length).map (fun axis => (contiguousStrides dims).getD axis 0) =
      contiguousStrides dims := by
    conv_lhs => rw [← length_contiguousStrides dims]
    exact map_getD_range _ _
  have hcoords : (range dims.length).map (fun axis => cs.getD axis 0) = cs := by
    rw [← hcs]
    exact map_getD_range cs 0
  rw [dot_perm h, hstrides, hcoords, dot_contiguousStrides]

/-- Permuted coordinates lie in the permuted box. -/
theorem inside_permuted (h : Inside cs dims)
    (haxes : ∀ a ∈ axes, a < dims.length) :
    Inside (axes.map fun axis => cs.getD axis 0) (axes.map fun axis => dims.getD axis 0) := by
  induction axes with
  | nil => exact Forall₂.nil
  | cons a axes ih =>
    apply Forall₂.cons
    · exact h.getD_lt (haxes a mem_cons_self)
    · exact ih fun b hb => haxes b (.tail _ hb)

theorem dims_permuted (shape : List Int64) (axes : List Nat) :
    dimsOf (axes.map fun axis => shape.getD axis 0) = axes.map fun axis => (dimsOf shape).getD axis 0 := by
  unfold dimsOf
  rw [map_map]
  apply map_congr_left
  intro a _
  exact (getD_dimsOf shape a).symm

theorem prod_permuted (h : axes.Perm (range dims.length)) :
    (axes.map fun axis => dims.getD axis 0).prod = dims.prod := by
  rw [(h.map _).prod_eq, map_getD_range]

/-! ## Elements -/

/-- The strides of the input in the order of the result's axes. -/
def sourceStrides (input : Tensor α) (perm : List Int) : List Int :=
  (axesOf input.rank perm).map fun axis => (contiguousStrides input.dims).getD axis 0

variable {input out : Tensor α} {blank : α} {chunks : List (Nat × Nat)}

/-- What a permutation that returns has stored. -/
theorem permute_cases
    (h : permute input perm blank chunks = .ok out) :
    IsPermutation input.rank perm ∧ ∃ t : Tensor α,
      t.shape = (axesOf input.rank perm).map (fun axis => input.shape.getD axis 0) ∧
      (t.numel = 0 ∧ out = t ∨
        input.rank = 0 ∧
          out = t.fill ((range t.numel).map fun p => (p, input.data.getD p blank)) ∨
        input.rank ≠ 0 ∧ out = t.fill (chunks.flatMap
          (permuteChunk input.data blank t.dims (sourceStrides input perm)))) := by
  simp only [permute, bind, Except.bind] at h
  split at h
  · cases h
  next outShape hshape =>
    obtain ⟨hperm, hout⟩ := permuteShape_ok_iff.1 hshape
    have hrank : outShape.length = input.rank := by
      rw [hout, length_map, hperm.2.length_eq, length_range]
      rfl
    split at h
    · cases h
    next t ht =>
      refine ⟨hperm, t, (createTensor_ok ht).1.trans hout, ?_⟩
      by_cases hzero : t.numel = 0
      · rw [if_pos hzero] at h
        injection h with h
        exact .inl ⟨hzero, h.symm⟩
      · rw [if_neg hzero, hrank] at h
        by_cases hscalar : input.rank = 0
        · rw [if_pos hscalar] at h
          injection h with h
          exact .inr (.inl ⟨hscalar, h.symm⟩)
        · rw [if_neg hscalar] at h
          injection h with h
          exact .inr (.inr ⟨hscalar, h.symm⟩)

theorem permute_shape
    (h : permute input perm blank chunks = .ok out) :
    IsPermutation input.rank perm ∧
      out.shape = (axesOf input.rank perm).map fun axis => input.shape.getD axis 0 := by
  obtain ⟨hperm, t, ht, hcases⟩ := permute_cases h
  refine ⟨hperm, ?_⟩
  rcases hcases with ⟨-, rfl⟩ | ⟨-, rfl⟩ | ⟨-, rfl⟩
  · exact ht
  · exact ht
  · exact ht

/-- The rows of a tensor with elements and an axis, its innermost axis apart. -/
theorem innermost {t : Tensor α} (hrank : t.rank ≠ 0) (hne : t.numel ≠ 0) :
    ∃ es inner, t.dims = es ++ [inner] ∧ (∀ e ∈ es, 0 < e) ∧ t.numel = es.prod * inner ∧
      rowsOf t.dims = es.prod := by
  have hdims : t.dims ≠ [] := by
    intro hnil
    have hlen := t.length_dims
    rw [hnil] at hlen
    exact hrank hlen.symm
  obtain ⟨es, inner, hes⟩ : ∃ es inner, t.dims = es ++ [inner] :=
    ⟨_, _, (dropLast_append_getLast hdims).symm⟩
  have hprod : t.numel = es.prod * inner := by
    rw [← Tensor.prod_dims, hes]
    simp
  have hinner : 0 < inner := by
    apply pos_of_ne_zero
    rintro rfl
    exact hne hprod
  refine ⟨es, inner, hes, ?_, hprod, ?_⟩
  · intro e he
    apply pos_of_ne_zero
    rintro rfl
    exact hne (by rw [hprod, prod_eq_zero he, zero_mul])
  · unfold rowsOf
    rw [Tensor.prod_dims, hprod, hes, getLastD_concat, max_eq_left hinner,
      Nat.mul_div_cancel _ hinner]

/-- The elements of a result that has any, gathered one by one. -/
theorem permute_data
    (h : permute input perm blank chunks = .ok out)
    (hne : out.numel ≠ 0) (hsplit : Splits 0 (rowsOf out.dims) chunks) :
    out.data = (range out.numel).map fun p =>
      input.data.getD (dot (sourceStrides input perm) (coordsOf out.dims p)).toNat blank := by
  obtain ⟨hperm, t, ht, hcases⟩ := permute_cases h
  have hlen : (axesOf input.rank perm).length = input.rank := by
    rw [hperm.2.length_eq, length_range]
  have hrank : t.rank = input.rank := by
    unfold Tensor.rank
    rw [ht, length_map, hlen]
    rfl
  rcases hcases with ⟨hzero, rfl⟩ | ⟨hscalar, rfl⟩ | ⟨hsome, rfl⟩
  · exact absurd hzero hne
  · -- without an axis the one element is copied
    have haxes : axesOf input.rank perm = [] := by
      apply length_eq_zero_iff.1
      rw [hlen, hscalar]
    have hone : t.numel = 1 := by
      unfold Tensor.numel
      rw [ht, haxes]
      rfl
    show (t.fill _).data = (range t.numel).map _
    rw [Tensor.fill_range, hone, sourceStrides, haxes]
    rfl
  · obtain ⟨es, inner, hes, hpos, hprod, hrows⟩ := innermost (hrank.trans_ne hsome) hne
    have hlens : (sourceStrides input perm).length = (es ++ [inner]).length := by
      rw [← hes, Tensor.length_dims, hrank, sourceStrides, length_map, hlen]
    have hsrc : sourceStrides input perm ≠ [] := by
      intro hnil
      rw [hnil] at hlens
      simp at hlens
    obtain ⟨ss, stride, hss⟩ : ∃ ss stride, sourceStrides input perm = ss ++ [stride] :=
      ⟨_, _, (dropLast_append_getLast hsrc).symm⟩
    rw [hss] at hlens
    have hstores := flatMap_permuteChunk input.data blank inner stride (by simpa using hlens) hpos (hrows ▸ hsplit)
    have hdims : (t.fill (chunks.flatMap
        (permuteChunk input.data blank t.dims (sourceStrides input perm)))).dims = t.dims := rfl
    show (t.fill _).data = (range t.numel).map _
    rw [hdims, hes, hss, hstores, ← hprod, Tensor.fill_range]

/-- The element at permuted coordinates is the element of the input at the coordinates. -/
theorem permute_get
    (h : permute input perm blank chunks = .ok out)
    (hsplit : Splits 0 (rowsOf out.dims) chunks) (hcs : Inside cs input.dims) :
    out.get? ((axesOf input.rank perm).map fun axis => cs.getD axis 0) = input.get? cs := by
  obtain ⟨hperm, hshape⟩ := permute_shape h
  have hperm' : (axesOf input.rank perm).Perm (range input.dims.length) := by
    rw [Tensor.length_dims]
    exact hperm.2
  have hdims : out.dims = (axesOf input.rank perm).map fun axis => input.dims.getD axis 0 := by
    unfold Tensor.dims
    rw [hshape, dims_permuted]
  have hinside : Inside ((axesOf input.rank perm).map fun axis => cs.getD axis 0) out.dims := by
    rw [hdims]
    apply inside_permuted hcs
    intro a ha
    exact mem_range.1 (hperm'.mem_iff.1 ha)
  have hlt := flatOf_lt hinside
  rw [Tensor.prod_dims] at hlt
  have hread : flatOf input.dims cs < input.data.length := by
    rw [input.held]
    exact flatOf_lt hcs
  unfold Tensor.get?
  rw [permute_data h (by omega) hsplit, getElem?_map, getElem?_range hlt, Option.map_some,
    coordsOf_flatOf hinside, sourceStrides, dot_gathered hperm' hcs.length, Int.toNat_natCast,
    getD_eq_getElem?_getD, getElem?_eq_getElem hread, Option.getD_some]

end Camel.Tensor
