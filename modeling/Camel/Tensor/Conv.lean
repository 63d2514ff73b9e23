import Camel.Tensor.Regions

/-! # Convolution

    An image is unfolded into a matrix with a column for each place of the result, and the
    convolution is the product of the kernel with it. The gradients multiply with the
    transposed operands and fold the columns back. The elements are those of a commutative
    ring, and the product of two matrices is exact.
-/

namespace Camel.Tensor

open Lib Extents Finset

/-! ## Geometry -/

/-- The extents of input, kernel and result, with a symmetric stride and padding. -/
structure ConvGeometry where
  N : Nat
  C : Nat
  H : Nat
  W : Nat
  O : Nat
  KH : Nat
  KW : Nat
  OH : Nat
  OW : Nat
  stride : Int
  pad : Int

def ConvGeometry.ckk (g : ConvGeometry) : Nat := g.C * g.KH * g.KW

def ConvGeometry.spatial (g : ConvGeometry) : Nat := g.OH * g.OW

/-- An extent of the result. -/
def outExtent (size pad kernel stride : Int64) : Int64 := (size + 2 * pad - kernel) / stride + 1

/-- `geometry`; a wrong operand is named by its shape. -/
def geometry (input kernel : List Int64) (stride pad : Int64) : Except Refusal ConvGeometry :=
  match input, kernel with
  | [n, c, h, w], [o, kc, kh, kw] =>
    if stride ≤ 0 ∨ pad < 0 then
      .error (.argument "conv2d requires stride > 0 and padding >= 0")
    else if kc ≠ c then
      .error (.shape ("conv2d input channels " ++ toString c.toInt ++
        " do not match kernel channels " ++ toString kc.toInt))
    else if h + 2 * pad < kh ∨ w + 2 * pad < kw then
      .error (.shape ("conv2d kernel " ++ extentsText kernel ++ " does not fit input " ++
        extentsText input))
    else .ok {
      N := n.toInt.toNat
      C := c.toInt.toNat
      H := h.toInt.toNat
      W := w.toInt.toNat
      O := o.toInt.toNat
      KH := kh.toInt.toNat
      KW := kw.toInt.toNat
      OH := (outExtent h pad kh stride).toInt.toNat
      OW := (outExtent w pad kw stride).toInt.toNat
      stride := stride.toInt
      pad := pad.toInt }
  | _, _ =>
    .error (.shape ("conv2d expects NCHW input and [O, C, KH, KW] kernel, got " ++
      extentsText input ++ " and " ++ extentsText kernel))

/-- `conv2dShape` -/
def conv2dShape (input kernel : List Int64) (stride pad : Int64) : Except Refusal (List Int64) := do
  let _ ← geometry input kernel stride pad
  .ok [input.getD 0 0, kernel.getD 0 0,
    outExtent (input.getD 2 0) pad (kernel.getD 2 0) stride,
    outExtent (input.getD 3 0) pad (kernel.getD 3 0) stride]

variable (g : ConvGeometry)

/-- The row of the image under row `kh` of the kernel for row `oh` of the result. -/
def rowUnder (oh kh : Nat) : Int := oh * g.stride - g.pad + kh

def columnUnder (ow kw : Nat) : Int := ow * g.stride - g.pad + kw

/-- The first place of a row of the columns. -/
def columnsRow (c kh kw : Nat) : Nat := ((c * g.KH + kh) * g.KW + kw) * g.spatial

/-! ## Columns -/

variable {R : Type} [CommRing R]

/-- The loop over a row of the result, in a row of the columns. -/
def im2colRow (image : Nat → R) (c kh kw oh : Nat) : List (Nat × R) :=
  let dst := columnsRow g c kh kw + oh * g.OW
  let ih := rowUnder g oh kh
  if ih < 0 ∨ (g.H : Int) ≤ ih then (List.range g.OW).map fun ow => (dst + ow, 0)
  else
    let src := (c * g.H + ih.toNat) * g.W
    (List.range g.OW).map fun ow =>
      let iw := columnUnder g ow kw
      (dst + ow, if 0 ≤ iw ∧ iw < g.W then image (src + iw.toNat) else 0)

/-- The stores of `im2col`. -/
def im2colStores (image : Nat → R) : List (Nat × R) :=
  (List.range g.C).flatMap fun c => (List.range g.KH).flatMap fun kh =>
    (List.range g.KW).flatMap fun kw => (List.range g.OH).flatMap fun oh =>
      im2colRow g image c kh kw oh

/-- `im2col`: one image unfolded into columns. -/
def im2col (image cols : Nat → R) : Nat → R := storeAll cols (im2colStores g image)

def col2imRow (cols : Nat → R) (c kh kw oh : Nat) : List (Nat × R) :=
  let row := columnsRow g c kh kw
  let ih := rowUnder g oh kh
  if ih < 0 ∨ (g.H : Int) ≤ ih then []
  else
    let dst := (c * g.H + ih.toNat) * g.W
    (List.range g.OW).flatMap fun ow =>
      let iw := columnUnder g ow kw
      if 0 ≤ iw ∧ iw < g.W then [(dst + iw.toNat, cols (row + (oh * g.OW + ow)))] else []

/-- The additions of `col2im`. -/
def col2imAdds (cols : Nat → R) : List (Nat × R) :=
  (List.range g.C).flatMap fun c => (List.range g.KH).flatMap fun kh =>
    (List.range g.KW).flatMap fun kw => (List.range g.OH).flatMap fun oh =>
      col2imRow g cols c kh kw oh

/-- `col2im`: columns added back into one image. -/
def col2im (cols image : Nat → R) : Nat → R := addAll image (col2imAdds g cols)

/-! ## Kernels -/

/-- The exact product: the stores of `sgemm` over the elements of a ring. -/
def ringGemm (p : Product R) (result : Nat → R) : Nat → R :=
  storeAll result ((List.range p.M).flatMap fun i => (List.range p.N).map fun j =>
    (i * p.ldc + j, p.alpha * (∑ k ∈ range p.K, elemA p i k * elemB p k j) +
      p.beta * result (i * p.ldc + j)))

/-- A pointer into the elements of a tensor. -/
def Tensor.pointer (t : Tensor R) (base : Nat) : Nat → R := fun i => t.data.getD (base + i) 0

/-- One image of `conv2d`: the bias filled in where there is one, and the product on it. -/
def convImage (kernel : Nat → R) (bias : Option (Nat → R)) (cols y : Nat → R) : Nat → R :=
  let filled := match bias with
    | none => y
    | some b => storeAll y ((List.range g.O).flatMap fun o => (List.range g.spatial).map fun s =>
        (o * g.spatial + s, b o))
  ringGemm {
    transA := false
    transB := false
    M := g.O
    N := g.spatial
    K := g.ckk
    alpha := 1
    A := kernel
    lda := g.ckk
    B := cols
    ldb := g.spatial
    beta := if bias.isSome then 1 else 0
    ldc := g.spatial } filled

/-- The images of a chunk, unfolded into the same columns one after the other. -/
def convImages (input : Tensor R) (kernel : Nat → R) (bias : Option (Nat → R)) (blank : R) :
    List Nat → (Nat → R) → List (Nat × R)
  | [], _ => []
  | n :: ns, cols =>
    let cols := im2col g (input.pointer (n * (g.C * g.H * g.W))) cols
    let y := convImage g kernel bias cols fun _ => blank
    ((List.range (g.O * g.spatial)).map fun i => (n * (g.O * g.spatial) + i, y i)) ++
      convImages input kernel bias blank ns cols

/-- A bias has an element for each channel of the result. -/
def requireBias (bias : Option (Tensor R)) : Except Refusal Unit :=
  match bias with
  | none => .ok ()
  | some b =>
    if b.dims ≠ [g.O] then
      .error (.shape ("conv2d bias must have shape [" ++ toString g.O ++ "], got " ++
        extentsText b.shape))
    else .ok ()

/-- `conv2d`, with the images split into `chunks`. -/
def conv2d (input kernel : Tensor R) (bias : Option (Tensor R)) (stride pad : Int64) (blank : R)
    (chunks : List (Nat × Nat)) : Except Refusal (Tensor R) := do
  let g ← geometry input.shape kernel.shape stride pad
  requireBias g bias
  let shape ← conv2dShape input.shape kernel.shape stride pad
  let out ← allocate shape blank
  .ok (out.fill (chunks.flatMap fun chunk =>
    convImages g input (kernel.pointer 0) (bias.map fun b => b.pointer 0) blank
      (List.range' chunk.1 (chunk.2 - chunk.1)) fun _ => 0))

/-- `requireDy` -/
def requireDy (shape : List Int64) (dy : Tensor R) : Except Refusal Unit :=
  if dy.shape ≠ shape then
    .error (.shape ("conv2d gradient expects dy of shape " ++ extentsText shape ++ ", got " ++
      extentsText dy.shape))
  else .ok ()

/-- One image of `conv2dInputGrad`: the columns of its gradient, folded back. -/
def inputGradColumns (kernel dy cols : Nat → R) : Nat → R :=
  ringGemm {
    transA := true
    transB := false
    M := g.ckk
    N := g.spatial
    K := g.O
    alpha := 1
    A := kernel
    lda := g.ckk
    B := dy
    ldb := g.spatial
    beta := 0
    ldc := g.spatial } cols

def inputGradImages (kernel : Nat → R) (dy : Tensor R) : List Nat → (Nat → R) → List (Nat × R)
  | [], _ => []
  | n :: ns, cols =>
    let cols := inputGradColumns g kernel (dy.pointer (n * (g.O * g.spatial))) cols
    let dx := col2im g cols fun _ => 0
    ((List.range (g.C * g.H * g.W)).map fun i => (n * (g.C * g.H * g.W) + i, dx i)) ++
      inputGradImages kernel dy ns cols

/-- `conv2dInputGrad`; the result is allocated as zeros. -/
def conv2dInputGrad (input kernel dy : Tensor R) (stride pad : Int64) (chunks : List (Nat × Nat)) :
    Except Refusal (Tensor R) := do
  let g ← geometry input.shape kernel.shape stride pad
  let shape ← conv2dShape input.shape kernel.shape stride pad
  requireDy shape dy
  let dx ← allocate input.shape (0 : R)
  .ok (dx.fill (chunks.flatMap fun chunk =>
    inputGradImages g (kernel.pointer 0) dy (List.range' chunk.1 (chunk.2 - chunk.1)) fun _ => 0))

/-- The gradient of one image added to that of the kernel. -/
def kernelGradImage (dy cols dw : Nat → R) : Nat → R :=
  ringGemm {
    transA := false
    transB := true
    M := g.O
    N := g.ckk
    K := g.spatial
    alpha := 1
    A := dy
    lda := g.spatial
    B := cols
    ldb := g.spatial
    beta := 1
    ldc := g.ckk } dw

def kernelGradImages (input dy : Tensor R) : List Nat → (Nat → R) → (Nat → R) → (Nat → R)
  | [], _, dw => dw
  | n :: ns, cols, dw =>
    let cols := im2col g (input.pointer (n * (g.C * g.H * g.W))) cols
    kernelGradImages input dy ns cols
      (kernelGradImage g (dy.pointer (n * (g.O * g.spatial))) cols dw)

/-- `conv2dKernelGrad` -/
def conv2dKernelGrad (input kernel dy : Tensor R) (stride pad : Int64) :
    Except Refusal (Tensor R) := do
  let g ← geometry input.shape kernel.shape stride pad
  let shape ← conv2dShape input.shape kernel.shape stride pad
  requireDy shape dy
  let dw ← allocate kernel.shape (0 : R)
  let result := kernelGradImages g input dy (List.range g.N) (fun _ => 0) (dw.pointer 0)
  .ok (dw.fill ((List.range dw.numel).map fun i => (i, result i)))

end Camel.Tensor
