import Camel.Tensor.Regions

/-! # Max Pooling

    A window moves over each plane of the input. Pooling takes the maximum of the elements
    inside the window from the least element on; its gradient looks for the first element
    above all before it, from the least element on too, and hands it what the output got.
-/

namespace Camel.Tensor

open Lib Extents List

/-! ## Windows -/

structure Window2d where
  kernelH : Int64
  kernelW : Int64
  strideH : Int64
  strideW : Int64
  padH : Int64
  padW : Int64

def Window2d.outH (window : Window2d) (size : Int64) : Int64 :=
  (size + 2 * window.padH - window.kernelH) / window.strideH + 1

def Window2d.outW (window : Window2d) (size : Int64) : Int64 :=
  (size + 2 * window.padW - window.kernelW) / window.strideW + 1

def pool2dShape (input : List Int64) (window : Window2d) : Except Refusal (List Int64) :=
  match input with
  | [n, c, h, w] =>
    if window.kernelH ≤ 0 ∨ window.kernelW ≤ 0 ∨ window.strideH ≤ 0 ∨ window.strideW ≤ 0 ∨
        window.padH < 0 ∨ window.padW < 0 then
      .error (.argument "pool2d requires positive kernel/stride and non-negative padding")
    else if h + 2 * window.padH < window.kernelH ∨ w + 2 * window.padW < window.kernelW then
      .error (.shape ("pool2d window does not fit input " ++ extentsText input))
    else .ok [n, c, window.outH h, window.outW w]
  | _ => .error (.shape ("pool2d expects NCHW input, got " ++ extentsText input))

/-- The extents the loops run over. -/
structure PoolGeometry where
  planes : Nat
  H : Nat
  W : Nat
  OH : Nat
  OW : Nat
  KH : Nat
  KW : Nat
  strideH : Int
  strideW : Int
  padH : Int
  padW : Int

def poolGeometry (input outShape : List Int64) (window : Window2d) : PoolGeometry where
  planes := (dimsOf outShape).getD 0 0 * (dimsOf outShape).getD 1 0
  H := (dimsOf input).getD 2 0
  W := (dimsOf input).getD 3 0
  OH := (dimsOf outShape).getD 2 0
  OW := (dimsOf outShape).getD 3 0
  KH := window.kernelH.toInt.toNat
  KW := window.kernelW.toInt.toNat
  strideH := window.strideH.toInt
  strideW := window.strideW.toInt
  padH := window.padH.toInt
  padW := window.padW.toInt

variable (g : PoolGeometry)

/-- The row of the plane under row `kh` of the window. -/
def windowRow (oh kh : Nat) : Int := oh * g.strideH - g.padH + kh

def windowColumn (ow kw : Nat) : Int := ow * g.strideW - g.padW + kw

/-- The place of the window lies on the plane. -/
def OnPlane (oh ow kh kw : Nat) : Prop :=
  0 ≤ windowRow g oh kh ∧ windowRow g oh kh < g.H ∧ 0 ≤ windowColumn g ow kw ∧
    windowColumn g ow kw < g.W

instance (oh ow kh kw : Nat) : Decidable (OnPlane g oh ow kh kw) :=
  inferInstanceAs (Decidable (_ ∧ _))

/-- A place of the window in the plane. -/
def planeAt (oh ow kh kw : Nat) : Nat :=
  (windowRow g oh kh).toNat * g.W + (windowColumn g ow kw).toNat

/-! ## Kernels -/

section Forward

variable {E : Type} [LinearOrder E] [OrderBot E]

/-- The elements of a plane. -/
def Tensor.plane (t : Tensor E) (size p : Nat) : Nat → E := fun a => t.data.getD (p * size + a) ⊥

/-- The loops over a window: the maximum from the least element on. -/
def windowMax (src : Nat → E) (oh ow : Nat) : E :=
  (List.range g.KH).foldl (fun best kh => (List.range g.KW).foldl (fun best kw =>
    if OnPlane g oh ow kh kw then max best (src (planeAt g oh ow kh kw)) else best) best) ⊥

/-- The stores of `pool2d` for a plane. -/
def poolPlane (input : Tensor E) (p : Nat) : List (Nat × E) :=
  (List.range g.OH).flatMap fun oh => (List.range g.OW).map fun ow =>
    (p * (g.OH * g.OW) + (oh * g.OW + ow), windowMax g (input.plane (g.H * g.W) p) oh ow)

/-- `pool2d` for the maximum, with the planes split into `chunks`. -/
def pool2d (input : Tensor E) (window : Window2d) (blank : E) (chunks : List (Nat × Nat)) :
    Except Refusal (Tensor E) := do
  let outShape ← pool2dShape input.shape window
  let out ← allocate outShape blank
  let g := poolGeometry input.shape outShape window
  .ok (out.fill (chunks.flatMap fun chunk =>
    (List.range' chunk.1 (chunk.2 - chunk.1)).flatMap (poolPlane g input)))

/-- The loops over a window in the gradient: the largest element so far and its place. -/
def bestPlace (src : Nat → E) (oh ow : Nat) : E × Option Nat :=
  (List.range g.KH).foldl (fun best kh => (List.range g.KW).foldl (fun best kw =>
    if OnPlane g oh ow kh kw then
      if best.1 < src (planeAt g oh ow kh kw) then
        (src (planeAt g oh ow kh kw), some (planeAt g oh ow kh kw))
      else best
    else best) best) (⊥, none)

variable {G : Type} [AddCommMonoid G]

/-- The gradient of an output. -/
def gradAt (dy : Tensor G) (p oh ow : Nat) : G :=
  dy.data.getD (p * (g.OH * g.OW) + (oh * g.OW + ow)) 0

/-- The additions of `pool2dGrad` for a plane. -/
def poolGradPlane (input : Tensor E) (dy : Tensor G) (p : Nat) : List (Nat × G) :=
  (List.range g.OH).flatMap fun oh => (List.range g.OW).flatMap fun ow =>
    match (bestPlace g (input.plane (g.H * g.W) p) oh ow).2 with
    | some place => [(place, gradAt g dy p oh ow)]
    | none => []

/-- `pool2dGrad` for the maximum; the result is allocated as zeros. -/
def pool2dGrad (input : Tensor E) (dy : Tensor G) (window : Window2d) (chunks : List (Nat × Nat)) :
    Except Refusal (Tensor G) := do
  let outShape ← pool2dShape input.shape window
  if dy.shape ≠ outShape then
    .error (.shape ("pool2d gradient expects dy of shape " ++ extentsText outShape ++ ", got " ++
      extentsText dy.shape))
  else
    let dx ← allocate input.shape (0 : G)
    let g := poolGeometry input.shape outShape window
    .ok (dx.fill (chunks.flatMap fun chunk => regions (g.H * g.W)
      (fun p => addAll (fun _ => 0) (poolGradPlane g input dy p))
      (List.range' chunk.1 (chunk.2 - chunk.1))))

end Forward

/-! ## Two Folds -/

section Folds

variable {E : Type} [LinearOrder E] [OrderBot E]

/-- The places of a window that lie on the plane, in the order of the loops. -/
def windowPlaces (oh ow : Nat) : List Nat :=
  (List.range g.KH).flatMap fun kh => (List.range g.KW).flatMap fun kw =>
    if OnPlane g oh ow kh kw then [planeAt g oh ow kh kw] else []

/-- Loops over a window fold over its places. -/
theorem foldl_window {σ : Type} (f : σ → Nat → σ) (s : σ) (oh ow : Nat) :
    ((range g.KH).foldl (fun s kh => (range g.KW).foldl (fun s kw =>
      if OnPlane g oh ow kh kw then f s (planeAt g oh ow kh kw) else s) s) s) =
      (windowPlaces g oh ow).foldl f s := by
  unfold windowPlaces
  rw [foldl_flatMap]
  congr 1
  funext s kh
  rw [foldl_flatMap]
  congr 1
  funext s kw
  split
  · rfl
  · rfl

variable (src : Nat → E)

theorem windowMax_eq (oh ow : Nat) :
    windowMax g src oh ow = (windowPlaces g oh ow).foldl (fun best a => max best (src a)) ⊥ :=
  foldl_window g (fun best a => max best (src a)) ⊥ oh ow

theorem bestPlace_eq (oh ow : Nat) :
    bestPlace g src oh ow = (windowPlaces g oh ow).foldl
      (fun best a => if best.1 < src a then (src a, some a) else best) (⊥, none) :=
  foldl_window g (fun (best : E × Option Nat) a => if best.1 < src a then (src a, some a) else best)
    (⊥, none) oh ow

omit [OrderBot E] in
/-- The fold with places carries the maximum, and the place of an element that raised it. -/
theorem foldl_place (places : List Nat) (best : E × Option Nat) :
    (places.foldl (fun best a => if best.1 < src a then (src a, some a) else best) best).1 =
        places.foldl (fun best a => max best (src a)) best.1 ∧
      (places.foldl (fun best a => if best.1 < src a then (src a, some a) else best) best = best ∨
        ∃ a ∈ places, src a = places.foldl (fun best a => max best (src a)) best.1 ∧
          (places.foldl (fun best a => if best.1 < src a then (src a, some a) else best) best).2 =
            some a) := by
  induction places generalizing best with
  | nil => exact ⟨rfl, .inl rfl⟩
  | cons x places ih =>
    simp only [foldl_cons]
    by_cases hraise : best.1 < src x
    · rw [if_pos hraise, max_eq_right hraise.le]
      obtain ⟨hmax, hplace⟩ := ih (src x, some x)
      refine ⟨hmax, .inr ?_⟩
      rcases hplace with hsame | ⟨a, ha, hvalue, hidx⟩
      · refine ⟨x, mem_cons_self, ?_, by rw [hsame]⟩
        rw [← hmax, hsame]
      · exact ⟨a, .tail _ ha, hvalue, hidx⟩
    · rw [if_neg hraise, max_eq_left (not_lt.1 hraise)]
      obtain ⟨hmax, hplace⟩ := ih best
      refine ⟨hmax, ?_⟩
      rcases hplace with hsame | ⟨a, ha, hvalue, hidx⟩
      · exact .inl hsame
      · exact .inr ⟨a, .tail _ ha, hvalue, hidx⟩

omit [OrderBot E] in
theorem le_foldl_max_of_mem {places : List Nat} {a : Nat} (h : a ∈ places) (b : E) :
    src a ≤ places.foldl (fun best a => max best (src a)) b := by
  have hmono : ∀ (l : List Nat) (b : E), b ≤ l.foldl (fun best a => max best (src a)) b := by
    intro l
    induction l with
    | nil => intro b; exact le_refl b
    | cons y l ih => intro b; exact le_trans (le_max_left _ _) (ih _)
  induction places generalizing b with
  | nil => cases h
  | cons x places ih =>
    rw [foldl_cons]
    rcases mem_cons.1 h with rfl | h
    · exact le_trans (le_max_right _ _) (hmono _ _)
    · exact ih h _

/-- An element above the least gives the gradient a place with the maximum. -/
theorem bestPlace_of_above {src : Nat → E} {oh ow a : Nat} (ha : a ∈ windowPlaces g oh ow)
    (habove : ⊥ < src a) :
    ∃ place ∈ windowPlaces g oh ow, (bestPlace g src oh ow).2 = some place ∧
      src place = windowMax g src oh ow := by
  obtain ⟨hmax, hplace⟩ := foldl_place src (windowPlaces g oh ow) (⊥, none)
  rw [bestPlace_eq, windowMax_eq]
  rcases hplace with hsame | ⟨place, hmem, hvalue, hidx⟩
  · -- the maximum is at least the element
    have hle := le_foldl_max_of_mem src ha ⊥
    rw [← hmax, hsame] at hle
    exact absurd (lt_of_lt_of_le habove hle) (lt_irrefl _)
  · exact ⟨place, hmem, hidx, hvalue⟩

/-- Without such an element the gradient finds no place. -/
theorem bestPlace_of_least {src : Nat → E} {oh ow : Nat}
    (h : ∀ a ∈ windowPlaces g oh ow, src a = ⊥) : (bestPlace g src oh ow).2 = none := by
  rw [bestPlace_eq]
  generalize windowPlaces g oh ow = places at h
  induction places with
  | nil => rfl
  | cons x places ih =>
    have hx : ¬ (⊥ : E) < src x := by
      rw [h x mem_cons_self]
      exact lt_irrefl _
    rw [foldl_cons, if_neg hx]
    exact ih fun a ha => h a (.tail _ ha)

omit [LinearOrder E] [OrderBot E] in
theorem windowPlaces_lt {oh ow a : Nat} (h : a ∈ windowPlaces g oh ow) : a < g.H * g.W := by
  unfold windowPlaces at h
  simp only [mem_flatMap, mem_range] at h
  obtain ⟨kh, -, kw, -, h⟩ := h
  split at h
  · next hon =>
    rw [mem_singleton] at h
    obtain ⟨hlo, hhi, hlo', hhi'⟩ := hon
    have hrow : (windowRow g oh kh).toNat < g.H := by omega
    have hcol : (windowColumn g ow kw).toNat < g.W := by omega
    have hmul : ((windowRow g oh kh).toNat + 1) * g.W ≤ g.H * g.W := Nat.mul_le_mul_right _ hrow
    rw [add_mul, one_mul] at hmul
    rw [h, planeAt]
    omega
  · cases h

end Folds

end Camel.Tensor
