import Camel.Tensor.Conv

/-! # Columns of an Image

    A place of the columns holds the pixel under the kernel at its five coordinates, or
    zero where the kernel hangs over the border. Unfolding an image and folding columns
    back are adjoint.
-/

namespace Camel.Tensor

open Lib Extents Finset

variable (g : ConvGeometry) {R : Type} [CommRing R]

/-! ## Pixels -/

/-- The kernel's place lies on the image. -/
def OnImage (kh kw oh ow : Nat) : Prop :=
  0 ≤ rowUnder g oh kh ∧ rowUnder g oh kh < g.H ∧ 0 ≤ columnUnder g ow kw ∧ columnUnder g ow kw < g.W

instance (kh kw oh ow : Nat) : Decidable (OnImage g kh kw oh ow) :=
  inferInstanceAs (Decidable (_ ∧ _))

/-- The place of a pixel in the image. -/
def pixelAt (c kh kw oh ow : Nat) : Nat :=
  (c * g.H + (rowUnder g oh kh).toNat) * g.W + (columnUnder g ow kw).toNat

/-- The pixel under the kernel; zero outside of the image. -/
def pixel (image : Nat → R) (c kh kw oh ow : Nat) : R :=
  if OnImage g kh kw oh ow then image (pixelAt g c kh kw oh ow) else 0

/-- The place of a pixel in the columns. -/
def columnAt (c kh kw oh ow : Nat) : Nat := columnsRow g c kh kw + (oh * g.OW + ow)

theorem pixelAt_lt {c kh kw oh ow : Nat} (hc : c < g.C) (h : OnImage g kh kw oh ow) :
    pixelAt g c kh kw oh ow < g.C * g.H * g.W := by
  obtain ⟨hlo, hhi, hlo', hhi'⟩ := h
  have hin : Inside [c, (rowUnder g oh kh).toNat, (columnUnder g ow kw).toNat] [g.C, g.H, g.W] :=
    .cons hc (.cons (by omega) (.cons (by omega) .nil))
  have hlt := flatOf_lt hin
  have hplace : flatOf [g.C, g.H, g.W] [c, (rowUnder g oh kh).toNat, (columnUnder g ow kw).toNat] =
      pixelAt g c kh kw oh ow := by
    simp [flatOf, pixelAt]
    ring
  rw [← hplace]
  simpa [mul_assoc] using hlt

theorem columnAt_eq_flatOf (c kh kw oh ow : Nat) :
    columnAt g c kh kw oh ow = flatOf [g.C, g.KH, g.KW, g.OH, g.OW] [c, kh, kw, oh, ow] := by
  simp [columnAt, columnsRow, ConvGeometry.spatial, flatOf]
  ring

/-- Places of the columns do not meet. -/
theorem columnAt_inj {c kh kw oh ow c' kh' kw' oh' ow' : Nat}
    (h : Inside [c, kh, kw, oh, ow] [g.C, g.KH, g.KW, g.OH, g.OW])
    (h' : Inside [c', kh', kw', oh', ow'] [g.C, g.KH, g.KW, g.OH, g.OW])
    (heq : columnAt g c kh kw oh ow = columnAt g c' kh' kw' oh' ow') :
    [c, kh, kw, oh, ow] = [c', kh', kw', oh', ow'] := by
  rw [columnAt_eq_flatOf, columnAt_eq_flatOf] at heq
  rw [← coordsOf_flatOf h, ← coordsOf_flatOf h', heq]

/-! ## Unfolding -/

theorem im2colRow_eq (image : Nat → R) (c kh kw oh : Nat) :
    im2colRow g image c kh kw oh = (List.range g.OW).map fun ow =>
      (columnAt g c kh kw oh ow, pixel g image c kh kw oh ow) := by
  unfold im2colRow
  by_cases hrow : rowUnder g oh kh < 0 ∨ (g.H : Int) ≤ rowUnder g oh kh
  · simp only [if_pos hrow]
    apply List.map_congr_left
    intro ow _
    have hoff : ¬ OnImage g kh kw oh ow := by
      rintro ⟨hlo, hhi, -, -⟩
      omega
    rw [pixel, if_neg hoff, columnAt, add_assoc]
  · simp only [if_neg hrow]
    apply List.map_congr_left
    intro ow _
    have hon : OnImage g kh kw oh ow ↔ 0 ≤ columnUnder g ow kw ∧ columnUnder g ow kw < g.W := by
      constructor
      · exact fun h => h.2.2
      · intro h
        exact ⟨by omega, by omega, h⟩
    rw [pixel, columnAt, add_assoc]
    simp only [hon]
    rfl

theorem mem_im2colStores {image : Nat → R} {w : Nat × R} :
    w ∈ im2colStores g image ↔ ∃ c < g.C, ∃ kh < g.KH, ∃ kw < g.KW, ∃ oh < g.OH, ∃ ow < g.OW,
      w = (columnAt g c kh kw oh ow, pixel g image c kh kw oh ow) := by
  simp only [im2colStores, im2colRow_eq, List.mem_flatMap, List.mem_map, List.mem_range,
    eq_comm (a := w)]

/-- A place of the columns holds the pixel under the kernel there. -/
theorem im2col_columnAt (image cols : Nat → R) {c kh kw oh ow : Nat}
    (h : Inside [c, kh, kw, oh, ow] [g.C, g.KH, g.KW, g.OH, g.OW]) :
    im2col g image cols (columnAt g c kh kw oh ow) = pixel g image c kh kw oh ow := by
  apply storeAll_of_mem
  · rw [mem_im2colStores]
    cases h with
    | cons hc h =>
      cases h with
      | cons hkh h =>
        cases h with
        | cons hkw h =>
          cases h with
          | cons hoh h =>
            cases h with
            | cons how _ => exact ⟨c, hc, kh, hkh, kw, hkw, oh, hoh, ow, how, rfl⟩
  · intro w hw hplace
    obtain ⟨c', hc, kh', hkh, kw', hkw, oh', hoh, ow', how, rfl⟩ := (mem_im2colStores g).1 hw
    have hsame := columnAt_inj g (.cons hc (.cons hkh (.cons hkw (.cons hoh (.cons how .nil))))) h
      hplace
    cases hsame
    rfl

/-! ## Adjoints -/

/-- A sum over the columns, loop by loop. -/
theorem sum_columns (f : Nat → R) : ∑ p ∈ range (g.ckk * g.spatial), f p =
    ∑ c ∈ range g.C, ∑ kh ∈ range g.KH, ∑ kw ∈ range g.KW, ∑ oh ∈ range g.OH, ∑ ow ∈ range g.OW,
      f (columnAt g c kh kw oh ow) := by
  unfold ConvGeometry.ckk
  rw [sum_range_mul, sum_range_mul, sum_range_mul]
  apply sum_congr rfl
  intro c _
  apply sum_congr rfl
  intro kh _
  apply sum_congr rfl
  intro kw _
  exact sum_range_mul g.OH g.OW fun s => f (columnsRow g c kh kw + s)

theorem col2imRow_lt {cols : Nat → R} {c kh kw oh : Nat} (hc : c < g.C) :
    ∀ w ∈ col2imRow g cols c kh kw oh, w.1 < g.C * g.H * g.W := by
  intro w hw
  unfold col2imRow at hw
  simp only at hw
  split at hw
  · cases hw
  next hrow =>
    rw [List.mem_flatMap] at hw
    obtain ⟨ow, -, hw⟩ := hw
    split at hw
    · next hcol =>
      rw [List.mem_singleton] at hw
      rw [hw]
      exact pixelAt_lt g hc ⟨by omega, by omega, hcol⟩
    · cases hw

/-- What a row of columns adds, weighed with an image. -/
theorem sum_col2imRow (x cols : Nat → R) (c kh kw oh : Nat) :
    ((col2imRow g cols c kh kw oh).map fun w => x w.1 * w.2).sum =
      ∑ ow ∈ range g.OW, pixel g x c kh kw oh ow * cols (columnAt g c kh kw oh ow) := by
  unfold col2imRow
  by_cases hrow : rowUnder g oh kh < 0 ∨ (g.H : Int) ≤ rowUnder g oh kh
  · simp only [if_pos hrow]
    symm
    apply sum_eq_zero
    intro ow _
    have hoff : ¬ OnImage g kh kw oh ow := by
      rintro ⟨hlo, hhi, -, -⟩
      omega
    rw [pixel, if_neg hoff, zero_mul]
  · simp only [if_neg hrow]
    rw [sum_map_flatMap_range]
    apply sum_congr rfl
    intro ow _
    by_cases hcol : 0 ≤ columnUnder g ow kw ∧ columnUnder g ow kw < g.W
    · have hon : OnImage g kh kw oh ow := ⟨by omega, by omega, hcol⟩
      rw [if_pos hcol, pixel, if_pos hon]
      simp only [List.map_cons, List.map_nil, List.sum_cons, List.sum_nil, add_zero]
      rfl
    · have hoff : ¬ OnImage g kh kw oh ow := fun h => hcol h.2.2
      rw [if_neg hcol, pixel, if_neg hoff, zero_mul]
      rfl

/-- Folding columns back, weighed with an image, is weighing them with its pixels. -/
theorem inner_col2im (x cols : Nat → R) :
    ∑ a ∈ range (g.C * g.H * g.W), x a * col2im g cols (fun _ => 0) a =
      ∑ c ∈ range g.C, ∑ kh ∈ range g.KH, ∑ kw ∈ range g.KW, ∑ oh ∈ range g.OH, ∑ ow ∈ range g.OW,
        pixel g x c kh kw oh ow * cols (columnAt g c kh kw oh ow) := by
  have hbound : ∀ w ∈ col2imAdds g cols, w.1 < g.C * g.H * g.W := by
    intro w hw
    unfold col2imAdds at hw
    simp only [List.mem_flatMap, List.mem_range] at hw
    obtain ⟨c, hc, kh, -, kw, -, oh, -, hw⟩ := hw
    exact col2imRow_lt g hc w hw
  unfold col2im
  rw [inner_addAll x _ hbound]
  simp only [mul_zero, sum_const_zero, zero_add]
  unfold col2imAdds
  rw [sum_map_flatMap_range]
  apply sum_congr rfl
  intro c _
  rw [sum_map_flatMap_range]
  apply sum_congr rfl
  intro kh _
  rw [sum_map_flatMap_range]
  apply sum_congr rfl
  intro kw _
  rw [sum_map_flatMap_range]
  apply sum_congr rfl
  intro oh _
  exact sum_col2imRow g x cols c kh kw oh

/-- Unfolding and folding back are adjoint. -/
theorem inner_im2col (x cols cv : Nat → R) :
    ∑ p ∈ range (g.ckk * g.spatial), im2col g x cols p * cv p =
      ∑ a ∈ range (g.C * g.H * g.W), x a * col2im g cv (fun _ => 0) a := by
  rw [sum_columns, inner_col2im]
  apply sum_congr rfl
  intro c hc
  apply sum_congr rfl
  intro kh hkh
  apply sum_congr rfl
  intro kw hkw
  apply sum_congr rfl
  intro oh hoh
  apply sum_congr rfl
  intro ow how
  rw [mem_range] at hc hkh hkw hoh how
  rw [im2col_columnAt g x cols (.cons hc (.cons hkh (.cons hkw (.cons hoh (.cons how .nil)))))]

end Camel.Tensor

/-! # Images of a Convolution

    Each image of the batch has a region of the result, computed from columns that were
    filled anew, so no image sees what another one left behind.
-/

namespace Camel.Tensor

open Lib Extents Finset

variable (g : ConvGeometry) {R : Type} [CommRing R]

/-! ## Products -/

/-- An element of an exact product. -/
theorem ringGemm_at (p : Product R) (result : Nat → R) {i j : Nat} (hldc : p.N ≤ p.ldc)
    (hi : i < p.M) (hj : j < p.N) :
    ringGemm p result (i * p.ldc + j) =
      p.alpha * (∑ k ∈ range p.K, elemA p i k * elemB p k j) + p.beta * result (i * p.ldc + j) := by
  apply storeAll_of_mem
  · rw [List.mem_flatMap]
    exact ⟨i, List.mem_range.2 hi, List.mem_map.2 ⟨j, List.mem_range.2 hj, rfl⟩⟩
  · intro w hw hplace
    rw [List.mem_flatMap] at hw
    obtain ⟨i', -, hw⟩ := hw
    obtain ⟨j', hj', rfl⟩ := List.mem_map.1 hw
    have hlt := List.mem_range.1 hj'
    obtain ⟨rfl, rfl⟩ := place_inj (by omega) (by omega) hplace
    rfl

/-- The bias of a channel. -/
def biasAt (bias : Option (Nat → R)) (o : Nat) : R :=
  match bias with
  | none => 0
  | some b => b o

theorem convImage_at (kernel cols y : Nat → R) (bias : Option (Nat → R)) {o s : Nat} (ho : o < g.O)
    (hs : s < g.spatial) :
    convImage g kernel bias cols y (o * g.spatial + s) =
      biasAt bias o + ∑ k ∈ range g.ckk, kernel (o * g.ckk + k) * cols (k * g.spatial + s) := by
  unfold convImage
  rw [ringGemm_at _ _ (le_refl g.spatial) ho hs]
  simp only [elemA, elemB, Bool.false_eq_true, if_false]
  cases bias with
  | none => simp [biasAt]
  | some b =>
    have hfilled : storeAll y ((List.range g.O).flatMap fun o => (List.range g.spatial).map fun s =>
        (o * g.spatial + s, b o)) (o * g.spatial + s) = b o := by
      apply storeAll_of_mem
      · rw [List.mem_flatMap]
        exact ⟨o, List.mem_range.2 ho, List.mem_map.2 ⟨s, List.mem_range.2 hs, rfl⟩⟩
      · intro w hw hplace
        rw [List.mem_flatMap] at hw
        obtain ⟨o', -, hw⟩ := hw
        obtain ⟨s', hs', rfl⟩ := List.mem_map.1 hw
        obtain ⟨rfl, -⟩ := place_inj (List.mem_range.1 hs') hs hplace
        rfl
    simp only [Option.isSome_some, if_true, hfilled, biasAt]
    ring

theorem inputGradColumns_at (kernel dy cols : Nat → R) {k s : Nat} (hk : k < g.ckk)
    (hs : s < g.spatial) :
    inputGradColumns g kernel dy cols (k * g.spatial + s) =
      ∑ o ∈ range g.O, kernel (o * g.ckk + k) * dy (o * g.spatial + s) := by
  unfold inputGradColumns
  rw [ringGemm_at _ _ (le_refl g.spatial) hk hs]
  simp [elemA, elemB]

theorem kernelGradImage_at (dy cols dw : Nat → R) {o k : Nat} (ho : o < g.O) (hk : k < g.ckk) :
    kernelGradImage g dy cols dw (o * g.ckk + k) =
      dw (o * g.ckk + k) + ∑ s ∈ range g.spatial, dy (o * g.spatial + s) * cols (k * g.spatial + s) := by
  unfold kernelGradImage
  rw [ringGemm_at _ _ (le_refl g.ckk) ho hk]
  simp [elemA, elemB, add_comm]

/-! ## Columns Filled Anew -/

/-- Every place of the columns is that of a pixel. -/
theorem exists_columnAt {p : Nat} (h : p < g.ckk * g.spatial) :
    ∃ c kh kw oh ow, Inside [c, kh, kw, oh, ow] [g.C, g.KH, g.KW, g.OH, g.OW] ∧
      p = columnAt g c kh kw oh ow := by
  have hprod : [g.C, g.KH, g.KW, g.OH, g.OW].prod = g.ckk * g.spatial := by
    simp [ConvGeometry.ckk, ConvGeometry.spatial]
    ring
  rw [← hprod] at h
  refine ⟨_, _, _, _, _, inside_coordsOf h, ?_⟩
  rw [columnAt_eq_flatOf]
  exact (flatOf_coordsOf h).symm

/-- Unfolding leaves nothing of what the columns held. -/
theorem im2col_fresh (image cols cols' : Nat → R) {p : Nat} (h : p < g.ckk * g.spatial) :
    im2col g image cols p = im2col g image cols' p := by
  obtain ⟨c, kh, kw, oh, ow, hin, rfl⟩ := exists_columnAt g h
  rw [im2col_columnAt g image cols hin, im2col_columnAt g image cols' hin]

theorem columnAt_lt {c kh kw oh ow : Nat}
    (h : Inside [c, kh, kw, oh, ow] [g.C, g.KH, g.KW, g.OH, g.OW]) :
    columnAt g c kh kw oh ow < g.ckk * g.spatial := by
  have hprod : [g.C, g.KH, g.KW, g.OH, g.OW].prod = g.ckk * g.spatial := by
    simp [ConvGeometry.ckk, ConvGeometry.spatial]
    ring
  rw [columnAt_eq_flatOf, ← hprod]
  exact flatOf_lt h

/-- Folding back reads only places of the columns. -/
theorem col2im_congr {cols cols' image : Nat → R}
    (h : ∀ p < g.ckk * g.spatial, cols p = cols' p) :
    col2im g cols image = col2im g cols' image := by
  have hadds : col2imAdds g cols = col2imAdds g cols' := by
    unfold col2imAdds
    apply List.flatMap_congr
    intro c hc
    apply List.flatMap_congr
    intro kh hkh
    apply List.flatMap_congr
    intro kw hkw
    apply List.flatMap_congr
    intro oh hoh
    unfold col2imRow
    simp only
    split
    · rfl
    · apply List.flatMap_congr
      intro ow how
      rw [List.mem_range] at hc hkh hkw hoh how
      have hplace := h _ (columnAt_lt g
        (.cons hc (.cons hkh (.cons hkw (.cons hoh (.cons how .nil))))))
      unfold columnAt at hplace
      rw [hplace]
  unfold col2im
  rw [hadds]

/-! ## Batches -/

/-- The region of an image of the result. -/
def convRegion (input : Tensor R) (kernel : Nat → R) (bias : Option (Nat → R)) (n i : Nat) : R :=
  convImage g kernel bias (im2col g (input.pointer (n * (g.C * g.H * g.W))) fun _ => 0) (fun _ => 0) i

theorem convImages_eq (input : Tensor R) (kernel : Nat → R) (bias : Option (Nat → R)) (blank : R)
    (ns : List Nat) (cols : Nat → R) :
    convImages g input kernel bias blank ns cols =
      regions (g.O * g.spatial) (convRegion g input kernel bias) ns := by
  induction ns generalizing cols with
  | nil => rfl
  | cons n ns ih =>
    unfold convImages regions
    simp only
    rw [List.flatMap_cons]
    congr 1
    · apply List.map_congr_left
      intro i hi
      obtain ⟨o, s, ho, hs, rfl⟩ := split_place (List.mem_range.1 hi)
      rw [convRegion, convImage_at g _ _ _ _ ho hs, convImage_at g _ _ _ _ ho hs, Prod.mk.injEq]
      refine ⟨rfl, ?_⟩
      congr 1
      apply sum_congr rfl
      intro k hk
      rw [im2col_fresh g _ cols fun _ => 0]
      exact place_lt (mem_range.1 hk) hs
    · exact ih _

/-- The region of an image of the input's gradient. -/
def inputGradRegion (kernel : Nat → R) (dy : Tensor R) (n i : Nat) : R :=
  col2im g (inputGradColumns g kernel (dy.pointer (n * (g.O * g.spatial))) fun _ => 0) (fun _ => 0) i

theorem inputGradImages_eq (kernel : Nat → R) (dy : Tensor R) (ns : List Nat) (cols : Nat → R) :
    inputGradImages g kernel dy ns cols =
      regions (g.C * g.H * g.W) (inputGradRegion g kernel dy) ns := by
  induction ns generalizing cols with
  | nil => rfl
  | cons n ns ih =>
    unfold inputGradImages regions
    simp only
    rw [List.flatMap_cons]
    congr 1
    · have hcols : ∀ p < g.ckk * g.spatial,
          inputGradColumns g kernel (dy.pointer (n * (g.O * g.spatial))) cols p =
            inputGradColumns g kernel (dy.pointer (n * (g.O * g.spatial))) (fun _ => 0) p := by
        intro p hp
        obtain ⟨k, s, hk, hs, rfl⟩ := split_place hp
        rw [inputGradColumns_at g _ _ _ hk hs, inputGradColumns_at g _ _ _ hk hs]
      rw [col2im_congr g hcols]
      rfl
    · exact ih _

/-- The gradient of the kernel gathers what every image adds. -/
theorem kernelGradImages_at (input dy : Tensor R) (ns : List Nat) (cols dw : Nat → R) {o k : Nat}
    (ho : o < g.O) (hk : k < g.ckk) :
    kernelGradImages g input dy ns cols dw (o * g.ckk + k) = dw (o * g.ckk + k) +
      (ns.map fun n => ∑ s ∈ range g.spatial, dy.pointer (n * (g.O * g.spatial)) (o * g.spatial + s) *
        im2col g (input.pointer (n * (g.C * g.H * g.W))) (fun _ => 0) (k * g.spatial + s)).sum := by
  induction ns generalizing cols dw with
  | nil => simp [kernelGradImages]
  | cons n ns ih =>
    unfold kernelGradImages
    simp only
    rw [ih, kernelGradImage_at g _ _ _ ho hk, List.map_cons, List.sum_cons, add_assoc]
    congr 2
    apply sum_congr rfl
    intro s hs
    rw [im2col_fresh g _ cols fun _ => 0]
    exact place_lt hk (mem_range.1 hs)

end Camel.Tensor
