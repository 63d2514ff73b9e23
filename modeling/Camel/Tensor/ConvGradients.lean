import Camel.Tensor.ConvImages

/-! # Convolution and Its Transposes

    The convolution is the sum over channels and places of the kernel, of weight times the
    pixel under it. The two gradient kernels are the transposes of it in each argument.
-/

namespace Camel.Tensor

open Lib Extents Finset Option

variable {R : Type} [CommRing R]

/-! ## Shapes -/

variable {stride pad : Int64} {g : ConvGeometry}

/-- The extents a geometry that was accepted holds. -/
theorem geometry_ok {input kernel : List Int64}
    (h : geometry input kernel stride pad = .ok g) :
    dimsOf input = [g.N, g.C, g.H, g.W] ∧ dimsOf kernel = [g.O, g.C, g.KH, g.KW] ∧
      g.stride = stride.toInt ∧ g.pad = pad.toInt ∧
      ∃ shape, conv2dShape input kernel stride pad = .ok shape ∧
        dimsOf shape = [g.N, g.O, g.OH, g.OW] := by
  have hwhole := h
  unfold geometry at h
  split at h
  · next n c hh w o kc kh kw =>
    split at h
    · cases h
    split at h
    · cases h
    next hchannels =>
      split at h
      · cases h
      · injection h with h
        subst h
        rw [not_not] at hchannels
        refine ⟨rfl, by rw [hchannels]; rfl, rfl, rfl, ?_⟩
        unfold conv2dShape
        rw [hwhole]
        exact ⟨_, rfl, rfl⟩
  · cases h

/-- The elements of a tensor weighed with those of another. -/
def Tensor.inner (t u : Tensor R) : R := ∑ p ∈ range t.numel, t.pointer 0 p * u.pointer 0 p

variable {t : Tensor R}

/-- A sum over a tensor of rank four, image by image. -/
theorem inner_images {u : Tensor R} {count width : Nat} (h : t.numel = count * width) :
    t.inner u = ∑ n ∈ range count, ∑ i ∈ range width,
      t.pointer (n * width) i * u.pointer (n * width) i := by
  unfold Tensor.inner
  rw [h, sum_range_mul]
  apply sum_congr rfl
  intro n _
  apply sum_congr rfl
  intro i _
  unfold Tensor.pointer
  rw [zero_add]

theorem numel_of_dims {a b c d : Nat} (h : t.dims = [a, b, c, d]) :
    t.numel = a * (b * (c * d)) := by
  rw [← Tensor.prod_dims, h]
  simp

/-! ## The Convolution -/

/-- The element of a tensor at coordinates, zero where there is none. -/
def Tensor.at (t : Tensor R) (cs : List Nat) : R := (t.get? cs).getD 0

/-- The direct definition: weights times the input at the shifted position, zero outside. -/
def directConv (g : ConvGeometry) (input kernel : Tensor R) (n o oh ow : Nat) : R :=
  ∑ c ∈ range g.C, ∑ kh ∈ range g.KH, ∑ kw ∈ range g.KW,
    kernel.at [o, c, kh, kw] *
      if OnImage g kh kw oh ow then
        input.at [n, c, (oh * g.stride - g.pad + kh).toNat, (ow * g.stride - g.pad + kw).toNat]
      else 0

theorem at_eq_pointer {a b c d : Nat} (h : t.dims = [a, b, c, d]) (i j k l : Nat) :
    t.at [i, j, k, l] = t.pointer (i * (b * c * d)) ((j * c + k) * d + l) := by
  unfold Tensor.at Tensor.get? Tensor.pointer
  rw [h, List.getD_eq_getElem?_getD]
  congr 2
  simp [flatOf]
  ring

variable {input kernel : Tensor R}

/-- A product with the columns is a sum over channels and places of the kernel. -/
theorem convRegion_at (hi : input.dims = [g.N, g.C, g.H, g.W])
    (hk : kernel.dims = [g.O, g.C, g.KH, g.KW]) (bias : Option (Nat → R)) {n o oh ow : Nat}
    (ho : o < g.O) (hoh : oh < g.OH) (how : ow < g.OW) :
    convRegion g input (kernel.pointer 0) bias n (o * g.spatial + (oh * g.OW + ow)) =
      biasAt bias o + directConv g input kernel n o oh ow := by
  have hs : oh * g.OW + ow < g.spatial := by
    unfold ConvGeometry.spatial
    exact place_lt hoh how
  unfold convRegion
  rw [convImage_at g _ _ _ _ ho hs]
  congr 1
  unfold directConv
  have hckk : g.ckk = g.C * g.KH * g.KW := rfl
  rw [hckk, sum_range_mul, sum_range_mul]
  apply sum_congr rfl
  intro c hc
  apply sum_congr rfl
  intro kh hkh
  apply sum_congr rfl
  intro kw hkw
  rw [mem_range] at hc hkh hkw
  have hin : Inside [c, kh, kw, oh, ow] [g.C, g.KH, g.KW, g.OH, g.OW] :=
    .cons hc (.cons hkh (.cons hkw (.cons hoh (.cons how .nil))))
  have hplace : ((c * g.KH + kh) * g.KW + kw) * g.spatial + (oh * g.OW + ow) =
      columnAt g c kh kw oh ow := rfl
  rw [hplace, im2col_columnAt g _ _ hin, at_eq_pointer hk]
  congr 1
  · unfold Tensor.pointer
    congr 1
    ring
  · unfold pixel
    by_cases hon : OnImage g kh kw oh ow
    · rw [if_pos hon, if_pos hon, at_eq_pointer hi]
      rfl
    · rw [if_neg hon, if_neg hon]

variable {out : Tensor R} {bias : Option (Tensor R)} {blank : R} {chunks : List (Nat × Nat)}

/-- What a convolution that returns has stored. -/
theorem conv2d_ok
    (h : conv2d input kernel bias stride pad blank chunks = .ok out) :
    ∃ (g : ConvGeometry) (t : Tensor R), geometry input.shape kernel.shape stride pad = .ok g ∧
      requireBias g bias = .ok () ∧ conv2dShape input.shape kernel.shape stride pad = .ok t.shape ∧
      out = t.fill (chunks.flatMap fun chunk => regions (g.O * g.spatial)
        (convRegion g input (kernel.pointer 0) (bias.map fun b => b.pointer 0))
        (List.range' chunk.1 (chunk.2 - chunk.1))) := by
  obtain ⟨g, hg, h⟩ := ok_of_bind h
  obtain ⟨⟨⟩, hbias, h⟩ := ok_of_bind h
  obtain ⟨shape, hshape, h⟩ := ok_of_bind h
  obtain ⟨t, ht, h⟩ := ok_of_bind h
  injection h with h
  refine ⟨g, t, hg, hbias, ?_, ?_⟩
  · rw [(createTensor_ok (allocate_ok_iff.1 ht)).1]
    exact hshape
  · rw [← h]
    congr 1
    apply List.flatMap_congr
    intro chunk _
    exact convImages_eq g input _ _ blank _ _

/-- The elements of a convolution. -/
theorem conv2d_region
    (h : conv2d input kernel bias stride pad blank chunks = .ok out)
    (hg : geometry input.shape kernel.shape stride pad = .ok g) (hsplit : Splits 0 g.N chunks) :
    out.dims = [g.N, g.O, g.OH, g.OW] ∧
      ∀ n < g.N, ∀ i < g.O * g.spatial, out.data[n * (g.O * g.spatial) + i]? =
        some (convRegion g input (kernel.pointer 0) (bias.map fun b => b.pointer 0) n i) := by
  obtain ⟨g', t, hg', -, hshape, rfl⟩ := conv2d_ok h
  rw [hg] at hg'
  injection hg' with hg'
  subst hg'
  obtain ⟨-, -, -, -, shape, hconv, hdims⟩ := geometry_ok hg
  rw [hconv] at hshape
  injection hshape with hshape
  have htdims : t.dims = [g.N, g.O, g.OH, g.OW] := by
    unfold Tensor.dims
    rw [← hshape, hdims]
  refine ⟨htdims, ?_⟩
  intro n hn i hi
  exact getElem?_fill_regions _ hsplit (numel_of_dims htdims) hn hi

/-- The bias of a channel, zero where there is none. -/
def biasOf (bias : Option (Tensor R)) (o : Nat) : R :=
  match bias with
  | none => 0
  | some b => b.at [o]

/-- A convolution that returns holds the direct definition at every place. -/
theorem conv2d_get
    (h : conv2d input kernel bias stride pad blank chunks = .ok out)
    (hg : geometry input.shape kernel.shape stride pad = .ok g) (hsplit : Splits 0 g.N chunks)
    {n o oh ow : Nat} (hn : n < g.N) (ho : o < g.O) (hoh : oh < g.OH) (how : ow < g.OW) :
    out.get? [n, o, oh, ow] = some (biasOf bias o + directConv g input kernel n o oh ow) := by
  obtain ⟨hdims, hregion⟩ := conv2d_region h hg hsplit
  obtain ⟨hinput, hkernel, -⟩ := geometry_ok hg
  have hplace : flatOf out.dims [n, o, oh, ow] =
      n * (g.O * g.spatial) + (o * g.spatial + (oh * g.OW + ow)) := by
    rw [hdims]
    simp [flatOf, ConvGeometry.spatial]
  have hlt : o * g.spatial + (oh * g.OW + ow) < g.O * g.spatial := by
    have hin := flatOf_lt (.cons ho (.cons hoh (.cons how .nil)) : Inside [o, oh, ow] [g.O, g.OH, g.OW])
    simpa [flatOf, ConvGeometry.spatial] using hin
  have hbias : biasAt (bias.map fun b => b.pointer 0) o = biasOf bias o := by
    obtain ⟨g', _, hg', hrequired, _⟩ := conv2d_ok h
    rw [hg] at hg'
    injection hg' with hg'
    subst hg'
    cases bias with
    | none => rfl
    | some b =>
      have hdimsb : b.dims = [g.O] := by
        by_contra hne
        simp [requireBias, hne] at hrequired
      show b.pointer 0 o = b.at [o]
      unfold Tensor.at Tensor.get? Tensor.pointer
      rw [hdimsb, List.getD_eq_getElem?_getD]
      simp [flatOf]
  unfold Tensor.get?
  rw [hplace, hregion n hn _ hlt, convRegion_at hinput hkernel _ ho hoh how, hbias]

/-! ## The Gradients -/

variable {dy : Tensor R}

theorem requireDy_ok {shape : List Int64} (h : dy.shape = shape) :
    requireDy shape dy = .ok () := by
  unfold requireDy
  rw [if_neg (not_not.2 h)]

/-- The gradient of the input is returned for every gradient of the result's shape. -/
theorem conv2dInputGrad_ok
    (hg : geometry input.shape kernel.shape stride pad = .ok g)
    (hdy : conv2dShape input.shape kernel.shape stride pad = .ok dy.shape)
    (hsplit : Splits 0 g.N chunks) :
    ∃ dx, conv2dInputGrad input kernel dy stride pad chunks = .ok dx ∧ dx.shape = input.shape ∧
      ∀ n < g.N, ∀ i < g.C * g.H * g.W, dx.data[n * (g.C * g.H * g.W) + i]? =
        some (inputGradRegion g (kernel.pointer 0) dy n i) := by
  obtain ⟨zeros, hcreated⟩ := (createTensor_ok_iff input.shape (0 : R)).2 input.counted
  obtain ⟨hshape, -⟩ := createTensor_ok hcreated
  have hzeros := allocate_ok_iff.2 hcreated
  have hzdims : zeros.dims = [g.N, g.C, g.H, g.W] := by
    unfold Tensor.dims
    rw [hshape, (geometry_ok hg).1]
  have hrun : conv2dInputGrad input kernel dy stride pad chunks =
      .ok (zeros.fill (chunks.flatMap fun chunk => regions (g.C * g.H * g.W)
        (inputGradRegion g (kernel.pointer 0) dy) (List.range' chunk.1 (chunk.2 - chunk.1)))) := by
    simp only [conv2dInputGrad, bind, Except.bind, hg, hdy, requireDy_ok rfl, hzeros,
      inputGradImages_eq]
  have hnumel : zeros.numel = g.N * (g.C * g.H * g.W) := by
    rw [numel_of_dims hzdims]
    ring
  exact ⟨_, hrun, hshape, fun n hn i hi => getElem?_fill_regions _ hsplit hnumel hn hi⟩

theorem conv2dKernelGrad_ok
    (hg : geometry input.shape kernel.shape stride pad = .ok g)
    (hdy : conv2dShape input.shape kernel.shape stride pad = .ok dy.shape) :
    ∃ dw, conv2dKernelGrad input kernel dy stride pad = .ok dw ∧ dw.shape = kernel.shape ∧
      ∀ o < g.O, ∀ k < g.ckk, dw.data[o * g.ckk + k]? =
        some (∑ n ∈ range g.N, ∑ s ∈ range g.spatial,
          dy.pointer (n * (g.O * g.spatial)) (o * g.spatial + s) *
            im2col g (input.pointer (n * (g.C * g.H * g.W))) (fun _ => 0) (k * g.spatial + s)) := by
  obtain ⟨zeros, hcreated⟩ := (createTensor_ok_iff kernel.shape (0 : R)).2 kernel.counted
  obtain ⟨hshape, hdata⟩ := createTensor_ok hcreated
  have hzeros := allocate_ok_iff.2 hcreated
  have hzdims : zeros.dims = [g.O, g.C, g.KH, g.KW] := by
    unfold Tensor.dims
    rw [hshape, (geometry_ok hg).2.1]
  have hrun : conv2dKernelGrad input kernel dy stride pad =
      .ok (zeros.fill ((List.range zeros.numel).map fun i =>
        (i, kernelGradImages g input dy (List.range g.N) (fun _ => 0) (zeros.pointer 0) i))) := by
    simp only [conv2dKernelGrad, bind, Except.bind, hg, hdy, requireDy_ok rfl, hzeros]
  refine ⟨_, hrun, hshape, ?_⟩
  · intro o ho k hk
    have hlt : o * g.ckk + k < zeros.numel := by
      rw [numel_of_dims hzdims]
      have hckk : g.O * (g.C * (g.KH * g.KW)) = g.O * g.ckk := by
        unfold ConvGeometry.ckk
        ring
      rw [hckk]
      exact place_lt ho hk
    have hzero : zeros.pointer 0 (o * g.ckk + k) = 0 := by
      unfold Tensor.pointer
      rw [hdata, List.getD_eq_getElem?_getD, List.getElem?_replicate]
      split <;> rfl
    have hsum : ∀ f : Nat → R, ((List.range g.N).map f).sum = ∑ n ∈ range g.N, f n := fun f => rfl
    rw [Tensor.fill_range, List.getElem?_map, List.getElem?_range hlt, map_some,
      kernelGradImages_at g _ _ _ _ _ ho hk, hzero, zero_add, hsum]

/-! ## Transposes -/

/-- The columns of an image, without what they held before. -/
def columnsOf (g : ConvGeometry) (input : Tensor R) (n : Nat) : Nat → R :=
  im2col g (input.pointer (n * (g.C * g.H * g.W))) fun _ => 0

theorem pointer_of_getElem? {base i : Nat} {v : R} (h : t.data[base + i]? = some v) :
    t.pointer base i = v := by
  unfold Tensor.pointer
  rw [List.getD_eq_getElem?_getD, h, getD_some]

section
variable (h : conv2d input kernel none stride pad blank chunks = .ok out)
  (hg : geometry input.shape kernel.shape stride pad = .ok g) (hsplit : Splits 0 g.N chunks)
include h hg hsplit

/-- A convolution without bias, weighed with a gradient. -/
theorem inner_conv2d
     :
    out.inner dy = ∑ n ∈ range g.N, ∑ o ∈ range g.O, ∑ s ∈ range g.spatial,
      (∑ k ∈ range g.ckk, kernel.pointer 0 (o * g.ckk + k) *
        columnsOf g input n (k * g.spatial + s)) *
        dy.pointer (n * (g.O * g.spatial)) (o * g.spatial + s) := by
  obtain ⟨hdims, hregion⟩ := conv2d_region h hg hsplit
  have hnumel : out.numel = g.N * (g.O * g.spatial) := numel_of_dims hdims
  rw [inner_images hnumel]
  apply sum_congr rfl
  intro n hn
  rw [mem_range] at hn
  rw [sum_range_mul]
  apply sum_congr rfl
  intro o ho
  apply sum_congr rfl
  intro s hs
  rw [mem_range] at ho hs
  have hplace := place_lt ho hs
  rw [pointer_of_getElem? (hregion n hn _ hplace), convRegion, map_none,
    convImage_at g _ _ _ _ ho hs, biasAt, zero_add]
  rfl

/-- The gradient of the input is the transpose of the convolution in its input. -/
theorem inner_inputGrad {dx : Tensor R}
    
    (hdx : ∀ n < g.N, ∀ i < g.C * g.H * g.W, dx.data[n * (g.C * g.H * g.W) + i]? =
      some (inputGradRegion g (kernel.pointer 0) dy n i)) : out.inner dy = input.inner dx := by
  have hinput : input.numel = g.N * (g.C * g.H * g.W) := by
    rw [numel_of_dims (geometry_ok hg).1]
    ring
  rw [inner_conv2d h hg hsplit, inner_images hinput]
  apply sum_congr rfl
  intro n hn
  rw [mem_range] at hn
  have hfold : ∑ i ∈ range (g.C * g.H * g.W), input.pointer (n * (g.C * g.H * g.W)) i *
      dx.pointer (n * (g.C * g.H * g.W)) i =
      ∑ p ∈ range (g.ckk * g.spatial), columnsOf g input n p *
        inputGradColumns g (kernel.pointer 0) (dy.pointer (n * (g.O * g.spatial))) (fun _ => 0) p := by
    unfold columnsOf
    rw [inner_im2col]
    apply sum_congr rfl
    intro i hi
    rw [pointer_of_getElem? (hdx n hn i (mem_range.1 hi))]
    rfl
  rw [hfold, sum_range_mul]
  -- the sum over channels of the result moves inside
  have hterm : ∀ k ∈ range g.ckk, ∀ s ∈ range g.spatial,
      columnsOf g input n (k * g.spatial + s) *
        inputGradColumns g (kernel.pointer 0) (dy.pointer (n * (g.O * g.spatial))) (fun _ => 0)
          (k * g.spatial + s) =
      ∑ o ∈ range g.O, kernel.pointer 0 (o * g.ckk + k) *
        columnsOf g input n (k * g.spatial + s) *
          dy.pointer (n * (g.O * g.spatial)) (o * g.spatial + s) := by
    intro k hk s hs
    rw [inputGradColumns_at g _ _ _ (mem_range.1 hk) (mem_range.1 hs), mul_sum]
    apply sum_congr rfl
    intro o _
    ring
  calc ∑ o ∈ range g.O, ∑ s ∈ range g.spatial,
        (∑ k ∈ range g.ckk, kernel.pointer 0 (o * g.ckk + k) *
          columnsOf g input n (k * g.spatial + s)) *
          dy.pointer (n * (g.O * g.spatial)) (o * g.spatial + s)
      = ∑ o ∈ range g.O, ∑ s ∈ range g.spatial, ∑ k ∈ range g.ckk,
          kernel.pointer 0 (o * g.ckk + k) * columnsOf g input n (k * g.spatial + s) *
            dy.pointer (n * (g.O * g.spatial)) (o * g.spatial + s) := by
        simp only [sum_mul]
    _ = ∑ s ∈ range g.spatial, ∑ k ∈ range g.ckk, ∑ o ∈ range g.O,
          kernel.pointer 0 (o * g.ckk + k) * columnsOf g input n (k * g.spatial + s) *
            dy.pointer (n * (g.O * g.spatial)) (o * g.spatial + s) := by
        rw [sum_comm]
        apply sum_congr rfl
        intro s _
        rw [sum_comm]
    _ = ∑ k ∈ range g.ckk, ∑ s ∈ range g.spatial, ∑ o ∈ range g.O,
          kernel.pointer 0 (o * g.ckk + k) * columnsOf g input n (k * g.spatial + s) *
            dy.pointer (n * (g.O * g.spatial)) (o * g.spatial + s) := sum_comm
    _ = _ := sum_congr rfl fun k hk => sum_congr rfl fun s hs => (hterm k hk s hs).symm

/-- The gradient of the kernel is the transpose of the convolution in its kernel. -/
theorem inner_kernelGrad {dw : Tensor R}
    
    (hdw : ∀ o < g.O, ∀ k < g.ckk, dw.data[o * g.ckk + k]? =
      some (∑ n ∈ range g.N, ∑ s ∈ range g.spatial,
        dy.pointer (n * (g.O * g.spatial)) (o * g.spatial + s) *
          im2col g (input.pointer (n * (g.C * g.H * g.W))) (fun _ => 0) (k * g.spatial + s))) :
    out.inner dy = kernel.inner dw := by
  have hkernel : kernel.numel = g.O * g.ckk := by
    rw [numel_of_dims (geometry_ok hg).2.1, ConvGeometry.ckk]
    ring
  have hentry : ∀ o ∈ range g.O, ∀ k ∈ range g.ckk,
      kernel.pointer 0 (o * g.ckk + k) * dw.pointer 0 (o * g.ckk + k) =
        ∑ n ∈ range g.N, ∑ s ∈ range g.spatial, kernel.pointer 0 (o * g.ckk + k) *
          columnsOf g input n (k * g.spatial + s) *
            dy.pointer (n * (g.O * g.spatial)) (o * g.spatial + s) := by
    intro o ho k hk
    have hget := hdw o (mem_range.1 ho) k (mem_range.1 hk)
    rw [← zero_add (o * g.ckk + k)] at hget
    rw [pointer_of_getElem? hget, mul_sum]
    apply sum_congr rfl
    intro n _
    rw [mul_sum]
    apply sum_congr rfl
    intro s _
    unfold columnsOf
    ring
  have hright : kernel.inner dw = ∑ o ∈ range g.O, ∑ k ∈ range g.ckk, ∑ n ∈ range g.N,
      ∑ s ∈ range g.spatial, kernel.pointer 0 (o * g.ckk + k) *
        columnsOf g input n (k * g.spatial + s) *
          dy.pointer (n * (g.O * g.spatial)) (o * g.spatial + s) := by
    unfold Tensor.inner
    rw [hkernel, sum_range_mul]
    exact sum_congr rfl fun o ho => sum_congr rfl fun k hk => hentry o ho k hk
  rw [inner_conv2d h hg hsplit, hright, sum_comm]
  apply sum_congr rfl
  intro o _
  rw [sum_comm (s := range g.ckk)]
  apply sum_congr rfl
  intro n _
  rw [sum_comm]
  apply sum_congr rfl
  intro s _
  rw [sum_mul]

end

/-- Unfolding and folding back are adjoint; a convolution is the direct definition; and the two
    gradients are its transposes, whatever the elements of the tensors they take for their
    shapes only. -/
theorem conv2d_correct (R : Type) [CommRing R] :
    (∀ (g : ConvGeometry) (x cols cv : Nat → R),
      ∑ p ∈ range (g.ckk * g.spatial), im2col g x cols p * cv p =
        ∑ a ∈ range (g.C * g.H * g.W), x a * col2im g cv (fun _ => 0) a) ∧
    (∀ (input kernel out : Tensor R) bias stride pad blank chunks g,
      conv2d input kernel bias stride pad blank chunks = .ok out →
      geometry input.shape kernel.shape stride pad = .ok g → Splits 0 g.N chunks →
      out.dims = [g.N, g.O, g.OH, g.OW] ∧
      ∀ n < g.N, ∀ o < g.O, ∀ oh < g.OH, ∀ ow < g.OW, out.get? [n, o, oh, ow] =
        some (biasOf bias o + directConv g input kernel n o oh ow)) ∧
    (∀ (input kernel out dy : Tensor R) stride pad blank chunks chunks' g,
      conv2d input kernel none stride pad blank chunks = .ok out →
      geometry input.shape kernel.shape stride pad = .ok g → Splits 0 g.N chunks →
      Splits 0 g.N chunks' → dy.shape = out.shape →
      (∀ like : Tensor R, like.shape = input.shape → ∃ dx,
        conv2dInputGrad like kernel dy stride pad chunks' = .ok dx ∧ dx.shape = input.shape ∧
          out.inner dy = input.inner dx) ∧
      (∀ like : Tensor R, like.shape = kernel.shape → ∃ dw,
        conv2dKernelGrad input like dy stride pad = .ok dw ∧ dw.shape = kernel.shape ∧
          out.inner dy = kernel.inner dw)) := by
  refine ⟨fun g x cols cv => inner_im2col g x cols cv, ?_, ?_⟩
  · intro input kernel out bias stride pad blank chunks g h hg hsplit
    refine ⟨(conv2d_region h hg hsplit).1, ?_⟩
    intro n hn o ho oh hoh ow how
    exact conv2d_get h hg hsplit hn ho hoh how
  · intro input kernel out dy stride pad blank chunks chunks' g h hg hsplit hsplit' hdy
    have hshape : conv2dShape input.shape kernel.shape stride pad = .ok dy.shape := by
      obtain ⟨_, t, _, _, hshape, rfl⟩ := conv2d_ok h
      rw [hdy]
      exact hshape
    constructor
    · intro like hlike
      rw [← hlike] at hg hshape
      obtain ⟨dx, hdx, hdxShape, hregion⟩ := conv2dInputGrad_ok hg hshape hsplit'
      rw [hlike] at hg hdxShape
      exact ⟨dx, hdx, hdxShape, inner_inputGrad h hg hsplit hregion⟩
    · intro like hlike
      rw [← hlike] at hg hshape
      obtain ⟨dw, hdw, hdwShape, hentries⟩ := conv2dKernelGrad_ok hg hshape
      rw [hlike] at hg hdwShape
      exact ⟨dw, hdw, hdwShape, inner_kernelGrad h hg hsplit hentries⟩

/-- An image of two by two. -/
def smallImage : Tensor Int where
  shape := [1, 1, 2, 2]
  data := [1, 2, 3, 4]
  counted := ⟨4, rfl⟩
  held := rfl

/-- A kernel of one by two. -/
def smallKernel : Tensor Int where
  shape := [1, 1, 1, 2]
  data := [5, 7]
  counted := ⟨2, rfl⟩
  held := rfl

/-- A small convolution over the border, stride two and padding one. -/
theorem conv2d_correct_small : ∃ out dx dw,
    conv2d smallImage smallKernel none 2 1 0 [(0, 1)] = .ok out ∧
      out.get? [0, 0, 1, 1] = some 20 ∧
      conv2dInputGrad smallImage smallKernel out 2 1 [(0, 1)] = .ok dx ∧
      conv2dKernelGrad smallImage smallKernel out 2 1 = .ok dw ∧
      out.inner out = smallImage.inner dx ∧ out.inner out = smallKernel.inner dw := by
  have hout : ∃ out, conv2d smallImage smallKernel none 2 1 0 [(0, 1)] = .ok out ∧
      out.get? [0, 0, 1, 1] = some 20 := ⟨_, rfl, by decide⟩
  have hgeometry : ∃ g, geometry smallImage.shape smallKernel.shape 2 1 = .ok g ∧ g.N = 1 :=
    ⟨_, rfl, rfl⟩
  obtain ⟨out, h, hget⟩ := hout
  obtain ⟨g, hg, hN⟩ := hgeometry
  have hsplit : Splits 0 g.N [(0, 1)] := by
    rw [hN]
    exact ⟨rfl, by decide, rfl⟩
  have hboth := (conv2d_correct Int).2.2 smallImage smallKernel out out 2 1 0 _ [(0, 1)] g h hg
    hsplit hsplit rfl
  obtain ⟨dx, hdx, -, hinput⟩ := hboth.1 smallImage rfl
  obtain ⟨dw, hdw, -, hkernel⟩ := hboth.2 smallKernel rfl
  exact ⟨out, dx, dw, h, hget, hdx, hdw, hinput, hkernel⟩

end Camel.Tensor
