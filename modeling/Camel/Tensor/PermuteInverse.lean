import Camel.Tensor.Permute

/-! # Permuting There and Back

    A permutation gathers every element of its input, and the inverse permutation puts
    every element back. Memory is asked for with the permuted extents, and an empty
    tensor's may be refused in one order of its extents though not in another.
-/

namespace Camel.Tensor

open Lib Extents List

variable {α : Type}

/-! ## Coordinates -/

variable {β : Type}

theorem getD_map_range (f : Nat → β) {n a : Nat} (d : β) (h : a < n) :
    ((range n).map f).getD a d = f a := by
  simp [getD_eq_getElem?_getD, h]

theorem getD_map_axes (f : Nat → β) {axes : List Nat} {j : Nat} (d : β)
    (h : j < axes.length) : (axes.map f).getD j d = f (axes.getD j 0) := by
  simp [getD_eq_getElem?_getD, h]

/-- Coordinates of the result come from coordinates of the input. -/
theorem exists_coords {axes dims cs' : List Nat} (h : axes.Perm (range dims.length))
    (hcs' : Inside cs' (axes.map fun axis => dims.getD axis 0)) :
    ∃ cs, Inside cs dims ∧ cs' = axes.map fun axis => cs.getD axis 0 := by
  have hlen : axes.length = dims.length := by
    rw [h.length_eq, length_range]
  have hlen' : cs'.length = axes.length := by
    rw [hcs'.length, length_map]
  have hnodup : axes.Nodup := h.nodup_iff.2 nodup_range
  -- the coordinate on an axis is the one at the axis's place in the permutation
  have hplace : ∀ a < dims.length, axes.idxOf a < axes.length ∧ axes.getD (axes.idxOf a) 0 = a := by
    intro a ha
    have hmem : a ∈ axes := h.mem_iff.2 (mem_range.2 ha)
    have hlt := idxOf_lt_length_iff.2 hmem
    exact ⟨hlt, by simp [getD_eq_getElem?_getD, hlt]⟩
  refine ⟨(range dims.length).map fun a => cs'.getD (axes.idxOf a) 0, ?_, ?_⟩
  · have hdims : dims = (range dims.length).map fun a => dims.getD a 0 :=
      (map_getD_range dims 0).symm
    conv_rhs => rw [hdims]
    show Forall₂ _ _ _
    rw [forall₂_map_left_iff, forall₂_map_right_iff, forall₂_same]
    intro a ha
    obtain ⟨hlt, hat⟩ := hplace a (mem_range.1 ha)
    have hinside := hcs'.getD_lt (k := axes.idxOf a) (by rwa [length_map])
    rwa [getD_map_axes _ _ hlt, hat] at hinside
  · apply ext_getElem
    · rw [length_map, hlen']
    · intro j h1 h2
      have hj : j < axes.length := by omega
      have hmem : axes[j] < dims.length := mem_range.1 (h.mem_iff.1 (getElem_mem hj))
      rw [getElem_map, getD_map_range _ _ hmem, hnodup.idxOf_getElem j hj]
      simp [getD_eq_getElem?_getD, h1]

/-! ## Memory -/

/-- The shape a permutation asks memory for. -/
def permutedShape (input : Tensor α) (perm : List Int) : List Int64 :=
  (axesOf input.rank perm).map fun axis => input.shape.getD axis 0

variable {input : Tensor α} {perm : List Int}

section
variable (hperm : IsPermutation input.rank perm)
include hperm

theorem permute_of_counted
    (blank : α) (chunks : List (Nat × Nat)) (h : ∃ n, checkedNumel (permutedShape input perm) = .ok n) :
    ∃ out, permute input perm blank chunks = .ok out := by
  obtain ⟨t, ht⟩ := (createTensor_ok_iff _ blank).2 h
  have hshape : permuteShape input.shape perm = .ok (permutedShape input perm) :=
    permuteShape_ok_iff.2 ⟨hperm, rfl⟩
  unfold permute
  simp only [hshape, bind, Except.bind, ht]
  split
  · exact ⟨_, rfl⟩
  · split
    · exact ⟨_, rfl⟩
    · exact ⟨_, rfl⟩

/-- A permutation returns exactly when the permuted extents are not too large. -/
theorem permute_ok_iff
    (blank : α) (chunks : List (Nat × Nat)) :
    (∃ out, permute input perm blank chunks = .ok out) ↔
      ∃ n, checkedNumel (permutedShape input perm) = .ok n := by
  constructor
  · rintro ⟨out, hout⟩
    have hshape := (permute_shape hout).2
    have hcounted := out.counted
    rwa [hshape] at hcounted
  · exact permute_of_counted hperm blank chunks

/-- A tensor with elements is never refused. -/
theorem counted_permutedShape
    (hne : input.numel ≠ 0) :
    ∃ n, checkedNumel (permutedShape input perm) = .ok n := by
  have hnumel : numel (permutedShape input perm) = input.numel := by
    rw [← prod_dimsOf, permutedShape, dims_permuted, prod_permuted]
    · rfl
    · rw [length_dimsOf]
      exact hperm.2
  apply counted_of_pos
  · intro e he
    obtain ⟨a, ha, rfl⟩ := mem_map.1 he
    have hlt : a < input.shape.length := mem_range.1 (hperm.2.mem_iff.1 ha)
    apply input.nonneg
    rw [getD_eq_getElem?_getD, getElem?_eq_getElem hlt]
    exact getElem_mem hlt
  · rwa [hnumel]
  · rw [hnumel]
    exact input.small

end

/-! ## Inverses -/

/-- The second permutation leads every axis back. -/
def Undoes (rank : Nat) (q p : List Int) : Prop :=
  IsPermutation rank q ∧
    ∀ j < rank, (axesOf rank p).getD ((axesOf rank q).getD j 0) 0 = j

variable {rank : Nat}

theorem map_undone {p q : List Int} (hp : IsPermutation rank p)
    (hq : Undoes rank q p) (l : List β) (d : β) (hl : l.length = rank) :
    (axesOf rank q).map (fun axis => ((axesOf rank p).map fun axis => l.getD axis d).getD axis d) =
      l := by
  have hplen : (axesOf rank p).length = rank := by
    rw [hp.2.length_eq, length_range]
  have hqlen : (axesOf rank q).length = rank := by
    rw [hq.1.2.length_eq, length_range]
  apply ext_getElem
  · rw [length_map, hqlen, hl]
  · intro j h1 h2
    have hj : j < (axesOf rank q).length := by omega
    have hback := hq.2 j (by omega)
    have hat : (axesOf rank q).getD j 0 = (axesOf rank q)[j] := by
      simp [getD_eq_getElem?_getD, hj]
    have hmem : (axesOf rank q)[j] < rank := mem_range.1 (hq.1.2.mem_iff.1 (getElem_mem hj))
    rw [getElem_map, getD_map_axes _ _ (by omega), ← hat, hback]
    simp [getD_eq_getElem?_getD, h2]

/-- A permutation and then its inverse give back the input. -/
theorem permute_undo {out : Tensor α} {p q : List Int} {blank : α}
    {chunks chunks' : List (Nat × Nat)} (h : permute input p blank chunks = .ok out)
    (hq : Undoes input.rank q p) (hsplit : Splits 0 (rowsOf out.dims) chunks)
    (hsplit' : Splits 0 (rowsOf input.dims) chunks') : permute out q blank chunks' = .ok input := by
  obtain ⟨hp, hshape⟩ := permute_shape h
  have hrank : out.rank = input.rank := by
    unfold Tensor.rank
    rw [hshape, length_map, hp.2.length_eq, length_range]
    rfl
  have hback : permutedShape out q = input.shape := by
    unfold permutedShape
    rw [hrank, hshape]
    exact map_undone hp hq input.shape 0 rfl
  have hq' : IsPermutation out.rank q := by
    rw [hrank]
    exact hq.1
  obtain ⟨again, hagain⟩ := permute_of_counted hq' blank chunks' (hback ▸ input.counted)
  have hagainShape : again.shape = input.shape := (permute_shape hagain).2.trans hback
  have hdims : again.dims = input.dims := by
    unfold Tensor.dims
    rw [hagainShape]
  have hsame : again = input := by
    apply Tensor.ext_get? hagainShape
    intro cs hcs
    rw [hdims] at hcs
    have hinside : Inside ((axesOf input.rank p).map fun axis => cs.getD axis 0) out.dims := by
      unfold Tensor.dims
      rw [hshape, dims_permuted]
      apply inside_permuted hcs
      intro a ha
      rw [Tensor.length_dims]
      exact mem_range.1 (hp.2.mem_iff.1 ha)
    have hget := permute_get hagain (hdims ▸ hsplit') hinside
    have hlen : cs.length = input.rank := by
      rw [hcs.length, Tensor.length_dims]
    rw [hrank, map_undone hp hq cs 0 hlen] at hget
    rw [hget, permute_get h hsplit hcs]
  rw [hagain, hsame]

theorem axesOf_lastTwoSwapped (h : 2 ≤ rank) :
    axesOf rank (lastTwoSwapped rank) = range (rank - 2) ++ [rank - 1, rank - 2] := by
  unfold axesOf lastTwoSwapped axisOf
  rw [map_append, map_map]
  congr 1
  · have hid : ∀ a : Nat, ((fun p : Int => (if p < 0 then p + rank else p).toNat) ∘ Int.ofNat) a = a := by
      intro a
      have hpos : ¬ ((a : Int) < 0) := by omega
      show (if (a : Int) < 0 then (a : Int) + rank else a).toNat = a
      rw [if_neg hpos, Int.toNat_natCast]
    rw [map_congr_left fun a _ => hid a, map_id']
  · have h1 : ¬ ((rank : Int) - 1 < 0) := by omega
    have h2 : ¬ ((rank : Int) - 2 < 0) := by omega
    simp only [map_cons, map_nil, if_neg h1, if_neg h2]
    rw [show ((rank : Int) - 1).toNat = rank - 1 by omega,
      show ((rank : Int) - 2).toNat = rank - 2 by omega]

/-- Swapping the last two axes undoes itself. -/
theorem undoes_lastTwoSwapped (h : 2 ≤ rank) :
    Undoes rank (lastTwoSwapped rank) (lastTwoSwapped rank) := by
  have hrange : range rank = range (rank - 2) ++ [rank - 2, rank - 1] := by
    have hr : rank = rank - 2 + 1 + 1 := by omega
    conv_lhs => rw [hr, range_succ, range_succ]
    rw [append_assoc, show rank - 2 + 1 = rank - 1 by omega]
    rfl
  refine ⟨⟨?_, ?_⟩, ?_⟩
  · intro p hp
    unfold lastTwoSwapped at hp
    rw [mem_append, mem_map] at hp
    rcases hp with ⟨a, ha, rfl⟩ | hp
    · rw [mem_range] at ha
      have hpos : ¬ (Int.ofNat a < 0) := by simp
      unfold axisOf
      rw [if_neg hpos]
      show 0 ≤ (a : Int) ∧ (a : Int) < rank
      omega
    · simp only [mem_cons, not_mem_nil, or_false] at hp
      unfold axisOf
      split <;> omega
  · rw [axesOf_lastTwoSwapped h, hrange]
    exact (Perm.swap _ _ _).append_left _
  · intro j hj
    rw [axesOf_lastTwoSwapped h]
    have hat : ∀ i < rank, (range (rank - 2) ++ [rank - 1, rank - 2]).getD i 0 =
        if i = rank - 1 then rank - 2 else if i = rank - 2 then rank - 1 else i := by
      intro i hi
      rw [getD_eq_getElem?_getD, getElem?_append]
      by_cases hlow : i < rank - 2
      · rw [if_pos (by simpa using hlow), getElem?_range hlow, if_neg (by omega),
          if_neg (by omega)]
        rfl
      · rw [if_neg (by simpa using hlow), length_range]
        by_cases hlast : i = rank - 1
        · rw [if_pos hlast, show i - (rank - 2) = 1 by omega]
          rfl
        · rw [if_neg hlast, if_pos (by omega), show i - (rank - 2) = 0 by omega]
          rfl
    rw [hat j hj]
    by_cases hlast : j = rank - 1
    · rw [if_pos hlast, hat _ (by omega), if_neg (by omega), if_pos rfl, hlast]
    · rw [if_neg hlast]
      by_cases hnext : j = rank - 2
      · rw [if_pos hnext, hat _ (by omega), if_pos rfl, hnext]
      · rw [if_neg hnext, hat j hj, if_neg hlast, if_neg hnext]

theorem transposeLast2_eq (h : 2 ≤ input.rank) (blank : α)
    (chunks : List (Nat × Nat)) : transposeLast2 input blank chunks =
      permute input (lastTwoSwapped input.rank) blank chunks :=
  if_neg (Nat.not_lt.2 h)

/-- The last two axes swapped twice are as before. -/
theorem transposeLast2_twice {out : Tensor α} {blank : α} {chunks chunks' : List (Nat × Nat)}
    (h : transposeLast2 input blank chunks = .ok out) (hsplit : Splits 0 (rowsOf out.dims) chunks)
    (hsplit' : Splits 0 (rowsOf input.dims) chunks') :
    transposeLast2 out blank chunks' = .ok input := by
  by_cases hrank : input.rank < 2
  · rw [transposeLast2, if_pos hrank] at h
    cases h
  have hle : 2 ≤ input.rank := by omega
  rw [transposeLast2_eq hle] at h
  obtain ⟨hp, hshape⟩ := permute_shape h
  have hout : out.rank = input.rank := by
    unfold Tensor.rank
    rw [hshape, length_map, hp.2.length_eq, length_range]
    rfl
  rw [transposeLast2_eq (by omega), hout]
  exact permute_undo h (undoes_lastTwoSwapped hle) hsplit hsplit'

/-! ## Permutations of Every Tensor -/

/-- A permutation is refused only where the permuted extents are too large, which no tensor
    with elements has; otherwise the result gathers the input, and the inverse permutation
    gives the input back. -/
theorem permute_correct (input : Tensor α) (blank : α) :
    (∀ perm chunks, IsPermutation input.rank perm →
      ((∃ out, permute input perm blank chunks = .ok out) ↔
        ∃ n, checkedNumel (permutedShape input perm) = .ok n) ∧
      (input.numel ≠ 0 → ∃ out, permute input perm blank chunks = .ok out)) ∧
    (∀ perm chunks out, permute input perm blank chunks = .ok out →
      Splits 0 (rowsOf out.dims) chunks →
      out.dims = (axesOf input.rank perm).map (fun axis => input.dims.getD axis 0) ∧
      (∀ cs', Inside cs' out.dims → ∃ cs, Inside cs input.dims ∧
        cs' = (axesOf input.rank perm).map (fun axis => cs.getD axis 0) ∧
        out.get? cs' = input.get? cs) ∧
      ∀ q chunks', Undoes input.rank q perm → Splits 0 (rowsOf input.dims) chunks' →
        permute out q blank chunks' = .ok input) ∧
    (∀ chunks chunks' out, transposeLast2 input blank chunks = .ok out →
      Splits 0 (rowsOf out.dims) chunks → Splits 0 (rowsOf input.dims) chunks' →
      transposeLast2 out blank chunks' = .ok input) := by
  constructor
  · intro perm chunks hperm
    refine ⟨permute_ok_iff hperm blank chunks, fun hne => ?_⟩
    exact permute_of_counted hperm blank chunks (counted_permutedShape hperm hne)
  constructor
  · intro perm chunks out h hsplit
    obtain ⟨hperm, hshape⟩ := permute_shape h
    have hdims : out.dims = (axesOf input.rank perm).map fun axis => input.dims.getD axis 0 := by
      unfold Tensor.dims
      rw [hshape, dims_permuted]
    refine ⟨hdims, ?_, fun q chunks' hq hsplit' => permute_undo h hq hsplit hsplit'⟩
    intro cs' hcs'
    have hperm' : (axesOf input.rank perm).Perm (List.range input.dims.length) := by
      rw [Tensor.length_dims]
      exact hperm.2
    obtain ⟨cs, hcs, rfl⟩ := exists_coords hperm' (hdims ▸ hcs')
    exact ⟨cs, hcs, rfl, permute_get h hsplit hcs⟩
  · intro chunks chunks' out h hsplit hsplit'
    exact transposeLast2_twice h hsplit hsplit'

/-- A matrix transposed in three chunks of one row, and back in one chunk. -/
theorem permute_correct_matrix :
    (∃ out, transposeLast2 twoByThree 7 [(0, 1), (1, 2), (2, 3)] = .ok out ∧
      out.data = [0, 3, 1, 4, 2, 5] ∧ transposeLast2 out 7 [(0, 2)] = .ok twoByThree) := by
  have hout : ∃ out, transposeLast2 twoByThree 7 [(0, 1), (1, 2), (2, 3)] = .ok out ∧
      out.data = [0, 3, 1, 4, 2, 5] ∧ rowsOf out.dims = 3 := ⟨_, rfl, rfl, rfl⟩
  obtain ⟨out, h, hdata, hrows⟩ := hout
  refine ⟨out, h, hdata, (permute_correct twoByThree 7).2.2 _ [(0, 2)] out h ?_ ?_⟩
  · rw [hrows]
    exact ⟨rfl, by decide, rfl, by decide, rfl, by decide, rfl⟩
  · exact ⟨rfl, by decide, rfl⟩

/-- An empty tensor of large extents. -/
def wideEmpty : Tensor Nat where
  shape := [1099511627776, 0, 1099511627776]
  data := []
  counted := ⟨0, rfl⟩
  held := rfl

/-- An empty tensor whose last two axes cannot be swapped. -/
theorem transposeLast2_refuses : ¬ ∀ (input : Tensor Nat) (blank : Nat) (chunks chunks'),
    2 ≤ input.rank →
    Splits 0 (rowsOf (dimsOf (permutedShape input (lastTwoSwapped input.rank)))) chunks →
    Splits 0 (rowsOf input.dims) chunks' →
    ∃ out, transposeLast2 input blank chunks = .ok out ∧
      transposeLast2 out blank chunks' = .ok input := by
  intro h
  obtain ⟨out, hout, -⟩ := h wideEmpty 0 [] [] (by decide) rfl rfl
  have hrefused : transposeLast2 wideEmpty 0 [] = .error "Array shape is too large" := rfl
  rw [hrefused] at hout
  cases hout

end Camel.Tensor
