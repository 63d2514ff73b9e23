import Camel.Tensor.Pool

/-! # The Gradient of Max Pooling

    An output's gradient goes to the place of its maximum where an element of the window is
    above the least one. A window of least elements only has a maximum, but its gradient
    goes nowhere.
-/

namespace Camel.Tensor

open Lib Extents Finset Option

variable {E : Type} [LinearOrder E] [OrderBot E]

/-! ## What the Kernels Store -/

/-- A place lies in the window of an output. -/
def InWindow (g : PoolGeometry) (oh ow a : Nat) : Prop :=
  ∃ kh < g.KH, ∃ kw < g.KW, OnPlane g oh ow kh kw ∧ a = planeAt g oh ow kh kw

/-- The window of an output contains an input element. -/
def Covers (g : PoolGeometry) (oh ow : Nat) : Prop := ∃ a, InWindow g oh ow a

variable {g : PoolGeometry} {oh ow a : Nat}

omit [LinearOrder E] [OrderBot E] in
theorem mem_windowPlaces :
    a ∈ windowPlaces g oh ow ↔ InWindow g oh ow a := by
  unfold windowPlaces InWindow
  simp only [List.mem_flatMap, List.mem_range]
  constructor
  · rintro ⟨kh, hkh, kw, hkw, h⟩
    split at h
    · next hon =>
      rw [List.mem_singleton] at h
      exact ⟨kh, hkh, kw, hkw, hon, h⟩
    · cases h
  · rintro ⟨kh, hkh, kw, hkw, hon, rfl⟩
    refine ⟨kh, hkh, kw, hkw, ?_⟩
    rw [if_pos hon]
    exact List.mem_singleton.2 rfl

variable {outShape : List Int64} {window : Window2d}

omit [LinearOrder E] [OrderBot E] in
/-- The extents of input and result of an accepted window. -/
theorem pool2dShape_ok {input : List Int64}
    (h : pool2dShape input window = .ok outShape) :
    ∃ n c, dimsOf input = [n, c, (poolGeometry input outShape window).H,
        (poolGeometry input outShape window).W] ∧
      dimsOf outShape = [n, c, (poolGeometry input outShape window).OH,
        (poolGeometry input outShape window).OW] ∧
      (poolGeometry input outShape window).planes = n * c := by
  unfold pool2dShape at h
  split at h
  · split at h
    · cases h
    · split at h
      · cases h
      · injection h with h
        subst h
        exact ⟨_, _, rfl, rfl, rfl⟩
  · cases h

omit [LinearOrder E] [OrderBot E] in
/-- Input and result hold as many planes. -/
theorem pool2dShape_numel {input : List Int64}
    (h : pool2dShape input window = .ok outShape) :
    let g := poolGeometry input outShape window
    numel input = g.planes * (g.H * g.W) ∧ numel outShape = g.planes * (g.OH * g.OW) := by
  intro g
  obtain ⟨n, c, hin, hout, hplanes⟩ := pool2dShape_ok h
  rw [← prod_dimsOf, ← prod_dimsOf, hin, hout, show g.planes = n * c from hplanes]
  show [n, c, g.H, g.W].prod = _ ∧ [n, c, g.OH, g.OW].prod = _
  simp [mul_assoc]

variable {input : Tensor E} {chunks : List (Nat × Nat)} {p : Nat}

/-- An output of pooling is the maximum of its window. -/
theorem pool2d_get {out : Tensor E} {blank : E}
    (h : pool2d input window blank chunks = .ok out)
    (hshape : pool2dShape input.shape window = .ok outShape)
    (hsplit : Splits 0 (poolGeometry input.shape outShape window).planes chunks)
    (hp : p < (poolGeometry input.shape outShape window).planes)
    (hoh : oh < (poolGeometry input.shape outShape window).OH)
    (how : ow < (poolGeometry input.shape outShape window).OW) :
    let g := poolGeometry input.shape outShape window
    out.data[p * (g.OH * g.OW) + (oh * g.OW + ow)]? =
      some (windowMax g (input.plane (g.H * g.W) p) oh ow) := by
  intro g
  obtain ⟨shape, hshape', h⟩ := ok_of_bind h
  rw [hshape] at hshape'
  injection hshape' with hshape'
  subst hshape'
  obtain ⟨t, ht, h⟩ := ok_of_bind h
  injection h with h
  have hnumel : t.numel = g.planes * (g.OH * g.OW) := by
    unfold Tensor.numel
    rw [(createTensor_ok (allocate_ok_iff.1 ht)).1]
    exact (pool2dShape_numel hshape).2
  have hregions : ∀ ns : List Nat, ns.flatMap (poolPlane g input) = regions (g.OH * g.OW)
      (fun p i => windowMax g (input.plane (g.H * g.W) p) (i / g.OW) (i % g.OW)) ns := by
    intro ns
    apply List.flatMap_congr
    intro q _
    exact region_rows q g.OH g.OW (windowMax g (input.plane (g.H * g.W) q))
  obtain ⟨hdiv, hmod⟩ := div_mod_place (r := oh) how
  rw [← h]
  show (t.fill (chunks.flatMap fun chunk =>
    (List.range' chunk.1 (chunk.2 - chunk.1)).flatMap (poolPlane g input))).data[_]? = _
  simp only [hregions]
  rw [getElem?_fill_regions _ hsplit hnumel hp (place_lt hoh how), hdiv, hmod]

variable {G : Type} [AddCommMonoid G]

/-- A place of the gradient gathers the outputs that found it. -/
theorem addAll_poolGradPlane (g : PoolGeometry) (input : Tensor E) (dy : Tensor G) (p a : Nat) :
    addAll (fun _ => 0) (poolGradPlane g input dy p) a = ∑ oh ∈ range g.OH, ∑ ow ∈ range g.OW,
      if (bestPlace g (input.plane (g.H * g.W) p) oh ow).2 = some a then gradAt g dy p oh ow else 0 := by
  rw [addAll_apply, zero_add]
  unfold poolGradPlane
  rw [sum_map_flatMap_range]
  apply sum_congr rfl
  intro oh _
  rw [sum_map_flatMap_range]
  apply sum_congr rfl
  intro ow _
  cases (bestPlace g (input.plane (g.H * g.W) p) oh ow).2 with
  | none => simp
  | some place => simp

theorem pool2dGrad_ok {dy : Tensor G}
    (hshape : pool2dShape input.shape window = .ok dy.shape)
    (hsplit : Splits 0 (poolGeometry input.shape dy.shape window).planes chunks) :
    let g := poolGeometry input.shape dy.shape window
    ∃ dx, pool2dGrad input dy window chunks = .ok dx ∧ dx.shape = input.shape ∧
      ∀ p < g.planes, ∀ a < g.H * g.W, dx.data[p * (g.H * g.W) + a]? =
        some (∑ oh ∈ range g.OH, ∑ ow ∈ range g.OW,
          if (bestPlace g (input.plane (g.H * g.W) p) oh ow).2 = some a then gradAt g dy p oh ow
          else 0) := by
  intro g
  obtain ⟨zeros, hcreated⟩ := (createTensor_ok_iff input.shape (0 : G)).2 input.counted
  have hzshape := (createTensor_ok hcreated).1
  have hnumel : zeros.numel = g.planes * (g.H * g.W) := by
    unfold Tensor.numel
    rw [hzshape]
    exact (pool2dShape_numel hshape).1
  have hrun : pool2dGrad input dy window chunks = .ok (zeros.fill (chunks.flatMap fun chunk =>
      regions (g.H * g.W) (fun p => addAll (fun _ => 0) (poolGradPlane g input dy p))
        (List.range' chunk.1 (chunk.2 - chunk.1)))) := by
    simp only [pool2dGrad, bind, Except.bind, hshape, allocate_ok_iff.2 hcreated, ne_eq,
      not_true_eq_false, if_false]
    rfl
  refine ⟨_, hrun, hzshape, ?_⟩
  intro p hp a ha
  rw [getElem?_fill_regions _ hsplit hnumel hp ha, addAll_poolGradPlane]

/-! ## Where Gradients Go -/

omit [LinearOrder E] [OrderBot E] in
theorem covers_iff :
    Covers g oh ow ↔ windowPlaces g oh ow ≠ [] := by
  unfold Covers
  simp only [← mem_windowPlaces]
  constructor
  · intro ⟨a, ha⟩
    exact List.ne_nil_of_mem ha
  · exact List.exists_mem_of_ne_nil _

instance (g : PoolGeometry) (oh ow : Nat) : Decidable (Covers g oh ow) :=
  decidable_of_iff _ covers_iff.symm

/-- The place the gradient of an output goes to. -/
def placeOf (g : PoolGeometry) (input : Tensor E) (p oh ow : Nat) : Nat :=
  (bestPlace g (input.plane (g.H * g.W) p) oh ow).2.getD ((windowPlaces g oh ow).headD 0)

/-- The gradients of the outputs that cover an element and are routed to `place`. -/
def routed (g : PoolGeometry) (place : Nat → Nat → Nat → Nat) (dy : Tensor G) (p a : Nat) : G :=
  ∑ oh ∈ range g.OH, ∑ ow ∈ range g.OW,
    if Covers g oh ow ∧ place p oh ow = a then gradAt g dy p oh ow else 0

/-- The gradients of the outputs that cover an element. -/
def covered (g : PoolGeometry) (dy : Tensor G) (p : Nat) : G :=
  ∑ oh ∈ range g.OH, ∑ ow ∈ range g.OW, if Covers g oh ow then gradAt g dy p oh ow else 0

/-- Each output's gradient goes to one place of its window, which holds the output; and no
    gradient is lost. -/
def RoutesGradients (input : Tensor E) (window : Window2d) (G : Type) [AddCommMonoid G] : Prop :=
  ∀ outShape, pool2dShape input.shape window = .ok outShape →
    let g := poolGeometry input.shape outShape window
    ∃ place : Nat → Nat → Nat → Nat,
      (∀ p < g.planes, ∀ oh < g.OH, ∀ ow < g.OW, Covers g oh ow →
        InWindow g oh ow (place p oh ow) ∧
        ∀ blank chunks out, pool2d input window blank chunks = .ok out →
          Splits 0 g.planes chunks →
          out.data[p * (g.OH * g.OW) + (oh * g.OW + ow)]? =
            input.data[p * (g.H * g.W) + place p oh ow]?) ∧
      ∀ (dy : Tensor G) chunks, dy.shape = outShape → Splits 0 g.planes chunks →
        ∃ dx, pool2dGrad input dy window chunks = .ok dx ∧ dx.shape = input.shape ∧
          (∀ p < g.planes, ∀ a < g.H * g.W,
            dx.data[p * (g.H * g.W) + a]? = some (routed g place dy p a)) ∧
          dx.data.sum = ∑ p ∈ range g.planes, covered g dy p

/-- Every window over elements has one above the least, if the outputs can be counted. -/
def AboveLeast (input : Tensor E) (window : Window2d) : Prop :=
  ∀ outShape, pool2dShape input.shape window = .ok outShape →
    (∃ n, checkedNumel outShape = .ok n) →
    let g := poolGeometry input.shape outShape window
    ∀ p < g.planes, ∀ oh < g.OH, ∀ ow < g.OW, Covers g oh ow →
      ∃ a, InWindow g oh ow a ∧ ⊥ < input.plane (g.H * g.W) p a

/-! ## Where They Arrive -/

theorem placeOf_of_above
    (ha : InWindow g oh ow a) (habove : ⊥ < input.plane (g.H * g.W) p a) :
    (bestPlace g (input.plane (g.H * g.W) p) oh ow).2 = some (placeOf g input p oh ow) ∧
      InWindow g oh ow (placeOf g input p oh ow) ∧
      input.plane (g.H * g.W) p (placeOf g input p oh ow) =
        windowMax g (input.plane (g.H * g.W) p) oh ow := by
  obtain ⟨place, hmem, hbest, hmax⟩ := bestPlace_of_above g (mem_windowPlaces.2 ha) habove
  have hplace : placeOf g input p oh ow = place := by
    unfold placeOf
    rw [hbest]
    rfl
  rw [hplace]
  exact ⟨hbest, mem_windowPlaces.1 hmem, hmax⟩

theorem placeOf_inWindow
    (h : Covers g oh ow) : InWindow g oh ow (placeOf g input p oh ow) := by
  by_cases habove : ∃ a, InWindow g oh ow a ∧ ⊥ < input.plane (g.H * g.W) p a
  · obtain ⟨a, ha, habove⟩ := habove
    exact (placeOf_of_above ha habove).2.1
  · have hnone : (bestPlace g (input.plane (g.H * g.W) p) oh ow).2 = none := by
      apply bestPlace_of_least
      intro a ha
      by_contra hne
      exact habove ⟨a, mem_windowPlaces.1 ha, bot_lt_iff_ne_bot.2 hne⟩
    have hne := covers_iff.1 h
    unfold placeOf
    rw [hnone, ← mem_windowPlaces, getD_none, List.headD_eq_head?_getD,
      List.head?_eq_some_head hne]
    exact List.head_mem hne

omit [LinearOrder E] [OrderBot E] in
/-- A window that covers no element finds no place. -/
theorem routed_eq {place : Nat → Nat → Nat → Nat} {dy : Tensor G}
    (hplace : ∀ oh < g.OH, ∀ ow < g.OW, Covers g oh ow → place p oh ow < g.H * g.W) :
    ∑ a ∈ range (g.H * g.W), routed g place dy p a = covered g dy p := by
  unfold routed covered
  rw [sum_comm]
  apply sum_congr rfl
  intro oh hoh
  rw [sum_comm]
  apply sum_congr rfl
  intro ow how
  by_cases hcovers : Covers g oh ow
  · have hlt := hplace oh (mem_range.1 hoh) ow (mem_range.1 how) hcovers
    simp [hcovers, hlt]
  · simp [hcovers]

/-- The input's plane is read where the input holds it. -/
theorem plane_getElem? {planes size : Nat}
    (hnumel : input.numel = planes * size) (hp : p < planes) (ha : a < size) :
    input.data[p * size + a]? = some (input.plane size p a) := by
  have hlt : p * size + a < input.data.length := by
    rw [input.held, show numel input.shape = planes * size from hnumel]
    exact place_lt hp ha
  unfold Tensor.plane
  rw [List.getD_eq_getElem?_getD, List.getElem?_eq_getElem hlt, getD_some]

omit [AddCommMonoid G] in
/-- Pooling refuses outputs that cannot be counted. -/
theorem pool2d_counted {out : Tensor E} {blank : E}
    (h : pool2d input window blank chunks = .ok out)
    (hshape : pool2dShape input.shape window = .ok outShape) :
    ∃ n, checkedNumel outShape = .ok n := by
  obtain ⟨shape, hshape', h⟩ := ok_of_bind h
  rw [hshape] at hshape'
  injection hshape' with hshape'
  subst hshape'
  obtain ⟨t, ht, -⟩ := ok_of_bind h
  exact (createTensor_ok_iff outShape blank).1 ⟨t, allocate_ok_iff.1 ht⟩

/-- Above the least element both folds agree on the place, so gradients are routed. -/
theorem routesGradients_of_above
    (h : AboveLeast input window) : RoutesGradients input window G := by
  intro outShape hshape g
  have hsize : input.numel = g.planes * (g.H * g.W) := (pool2dShape_numel hshape).1
  refine ⟨placeOf g input, ?_, ?_⟩
  · intro p hp oh hoh ow how hcovers
    refine ⟨placeOf_inWindow hcovers, ?_⟩
    intro blank chunks out hrun hsplit
    obtain ⟨a, ha, habove⟩ :=
      h outShape hshape (pool2d_counted hrun hshape) p hp oh hoh ow how hcovers
    obtain ⟨-, hin, hmax⟩ := placeOf_of_above ha habove
    have hlt := windowPlaces_lt g (mem_windowPlaces.2 hin)
    rw [pool2d_get hrun hshape hsplit hp hoh how, plane_getElem? hsize hp hlt, hmax]
  · intro dy chunks hdy hsplit
    subst hdy
    obtain ⟨dx, hdx, hdxShape, hentries⟩ := pool2dGrad_ok (G := G) hshape hsplit
    have hrouted : ∀ p < g.planes, ∀ a < g.H * g.W,
        dx.data[p * (g.H * g.W) + a]? = some (routed g (placeOf g input) dy p a) := by
      intro p hp a ha
      rw [hentries p hp a ha]
      congr 1
      apply sum_congr rfl
      intro oh hoh
      apply sum_congr rfl
      intro ow how
      by_cases hcovers : Covers g oh ow
      · obtain ⟨b, hb, habove⟩ := h dy.shape hshape dy.counted p hp oh (mem_range.1 hoh) ow
          (mem_range.1 how) hcovers
        show (if (bestPlace g (input.plane (g.H * g.W) p) oh ow).2 = some a then _ else _) = _
        rw [(placeOf_of_above hb habove).1]
        simp only [some.injEq, hcovers, true_and]
        rfl
      · -- no place to look at
        have hempty : windowPlaces g oh ow = [] := by
          by_contra hne
          exact hcovers (covers_iff.2 hne)
        have hnone : (bestPlace g (input.plane (g.H * g.W) p) oh ow).2 = none :=
          bestPlace_of_least g (by simp [hempty])
        show (if (bestPlace g (input.plane (g.H * g.W) p) oh ow).2 = some a then _ else _) = _
        rw [hnone]
        simp [hcovers]
    refine ⟨dx, hdx, hdxShape, hrouted, ?_⟩
    have hlen : dx.data.length = g.planes * (g.H * g.W) := by
      rw [dx.held, hdxShape]
      exact hsize
    have hsum : dx.data.sum = ∑ k ∈ range (g.planes * (g.H * g.W)), dx.data.getD k 0 := by
      apply sum_of_getElem? hlen
      intro k hk
      rw [List.getD_eq_getElem?_getD, List.getElem?_eq_getElem (hlen ▸ hk), getD_some]
    rw [hsum, sum_range_mul]
    apply sum_congr rfl
    intro p hp
    have hplaces : ∀ oh < g.OH, ∀ ow < g.OW, Covers g oh ow →
        placeOf g input p oh ow < g.H * g.W := fun oh _ ow _ hcovers =>
      windowPlaces_lt g (mem_windowPlaces.2 (placeOf_inWindow hcovers))
    rw [← routed_eq hplaces]
    apply sum_congr rfl
    intro a ha
    rw [List.getD_eq_getElem?_getD, hrouted p (mem_range.1 hp) a (mem_range.1 ha), getD_some]

/-! ## A Gradient That Gets Lost -/

/-- A gradient that is `x` at one output and zero at all others. -/
def spike (shape : List Int64) (counted : ∃ n, checkedNumel shape = .ok n) (k : Nat) (x : G) :
    Tensor G where
  shape := shape
  data := (List.range (numel shape)).map fun i => if i = k then x else 0
  counted := counted
  held := by rw [List.length_map, List.length_range]

omit [LinearOrder E] [OrderBot E] in
/-- A sum over the outputs of a plane sees the spike or nothing. -/
theorem sum_spike {shape : List Int64}
    (counted : ∃ n, checkedNumel shape = .ok n) (hnumel : numel shape = g.planes * (g.OH * g.OW))
    (hp : p < g.planes) (hoh : oh < g.OH) (how : ow < g.OW) (x : G)
    (P : Nat → Nat → Prop) [∀ i j, Decidable (P i j)] :
    (∑ i ∈ range g.OH, ∑ j ∈ range g.OW, if P i j then
      gradAt g (spike shape counted (p * (g.OH * g.OW) + (oh * g.OW + ow)) x) p i j else 0) =
      if P oh ow then x else 0 := by
  have hat : ∀ i < g.OH, ∀ j < g.OW,
      gradAt g (spike shape counted (p * (g.OH * g.OW) + (oh * g.OW + ow)) x) p i j =
        if i = oh ∧ j = ow then x else 0 := by
    intro i hi j hj
    have hlt : p * (g.OH * g.OW) + (i * g.OW + j) < numel shape := by
      rw [hnumel]
      exact place_lt hp (place_lt hi hj)
    have hsame : p * (g.OH * g.OW) + (i * g.OW + j) = p * (g.OH * g.OW) + (oh * g.OW + ow) ↔
        i = oh ∧ j = ow := by
      obtain ⟨hdiv, hmod⟩ := div_mod_place (r := i) hj
      obtain ⟨hdiv', hmod'⟩ := div_mod_place (r := oh) how
      constructor
      · intro heq
        have heq : i * g.OW + j = oh * g.OW + ow := by omega
        rw [heq] at hdiv hmod
        exact ⟨hdiv.symm.trans hdiv', hmod.symm.trans hmod'⟩
      · intro ⟨hi, hj⟩
        rw [hi, hj]
    unfold gradAt spike
    rw [List.getD_eq_getElem?_getD, List.getElem?_map, List.getElem?_range hlt, map_some,
      getD_some]
    exact if_congr hsame rfl rfl
  rw [sum_eq_single oh, sum_eq_single ow]
  · rw [hat oh hoh ow how]
    simp
  · intro j hj hne
    rw [hat oh hoh j (mem_range.1 hj)]
    simp [hne]
  · intro hout
    exact absurd (mem_range.2 how) hout
  · intro i hi hne
    apply sum_eq_zero
    intro j hj
    rw [hat i (mem_range.1 hi) j (mem_range.1 hj)]
    simp [hne]
  · intro hout
    exact absurd (mem_range.2 hoh) hout

/-- A window of least elements loses what its output got. -/
theorem above_of_routesGradients [Nontrivial G]
    (h : RoutesGradients input window G) : AboveLeast input window := by
  intro outShape hshape counted g p hp oh hoh ow how hcovers
  by_contra hnone
  have hleast : (bestPlace g (input.plane (g.H * g.W) p) oh ow).2 = none := by
    apply bestPlace_of_least
    intro a ha
    by_contra hne
    exact hnone ⟨a, mem_windowPlaces.1 ha, bot_lt_iff_ne_bot.2 hne⟩
  obtain ⟨x, hx⟩ := exists_ne (0 : G)
  obtain ⟨place, hplace, hgrad⟩ := h outShape hshape
  have hin := (hplace p hp oh hoh ow how hcovers).1
  have hlt := windowPlaces_lt g (mem_windowPlaces.2 hin)
  have hnumel := (pool2dShape_numel hshape).2
  have hsplit : Splits 0 g.planes [(0, g.planes)] := ⟨rfl, Nat.zero_le _, rfl⟩
  obtain ⟨dx, hdx, -, hrouted, -⟩ :=
    hgrad (spike outShape counted (p * (g.OH * g.OW) + (oh * g.OW + ow)) x) _ rfl hsplit
  -- one reading of the place gives the spike, the other nothing
  have hgot := hrouted p hp (place p oh ow) hlt
  unfold routed at hgot
  rw [sum_spike counted hnumel hp hoh how x fun i j => Covers g i j ∧ place p i j = place p oh ow,
    if_pos ⟨hcovers, rfl⟩] at hgot
  have hspiked : pool2dShape input.shape window =
      .ok (spike outShape counted (p * (g.OH * g.OW) + (oh * g.OW + ow)) x).shape := hshape
  obtain ⟨dx', hdx', -, hentries⟩ := pool2dGrad_ok hspiked hsplit
  have hlost := hentries p hp (place p oh ow) hlt
  rw [hdx] at hdx'
  injection hdx' with hdx'
  rw [← hdx'] at hlost
  have hzero : x = 0 := by
    have hsum := sum_spike counted hnumel hp hoh how x fun i j =>
      (bestPlace g (input.plane (g.H * g.W) p) i j).2 = some (place p oh ow)
    rw [hleast] at hsum
    have heq := hgot.symm.trans hlost
    injection heq with heq
    exact heq.trans (hsum.trans (if_neg (by simp)))
  exact hx hzero

/-- Max pooling hands every gradient on exactly if each window over elements has one above the
    least. -/
theorem routesGradients_iff (E G : Type) [LinearOrder E] [OrderBot E] [AddCommMonoid G]
    [Nontrivial G] (input : Tensor E) (window : Window2d) :
    RoutesGradients input window G ↔ AboveLeast input window :=
  ⟨above_of_routesGradients, routesGradients_of_above⟩

/-- One element, the least one. -/
def leastPixel : Tensor Nat where
  shape := [1, 1, 1, 1]
  data := [0]
  counted := ⟨1, rfl⟩
  held := rfl

/-- The gradient of the only output. -/
def pixelGrad : Tensor Int where
  shape := [1, 1, 1, 1]
  data := [5]
  counted := ⟨1, rfl⟩
  held := rfl

def pixelWindow : Window2d := ⟨1, 1, 1, 1, 0, 0⟩

/-- One element above the least. -/
def brightPixel : Tensor Nat where
  shape := [1, 1, 1, 1]
  data := [3]
  counted := ⟨1, rfl⟩
  held := rfl

theorem routesGradients_iff_bright : RoutesGradients brightPixel pixelWindow Int := by
  apply (routesGradients_iff Nat Int brightPixel pixelWindow).2
  intro outShape hshape _
  have heq : [1, 1, 1, 1] = outShape := Except.ok.inj (Eq.trans (by decide) hshape)
  subst heq
  intro g p hp oh _ ow _ hcovers
  obtain ⟨a, hin⟩ := hcovers
  have ha : a = 0 := Nat.lt_one_iff.1 (windowPlaces_lt _ (mem_windowPlaces.2 hin))
  have hp0 : p = 0 := Nat.lt_one_iff.1 hp
  rw [ha] at hin
  rw [hp0]
  exact ⟨0, hin, by decide⟩

/-- The gradient of a window over the least element only is dropped. -/
theorem pool2dGrad_drops :
    (∃ dx, pool2dGrad leastPixel pixelGrad pixelWindow [(0, 1)] = .ok dx ∧ dx.data = [0]) ∧
      ¬ RoutesGradients leastPixel pixelWindow Int := by
  refine ⟨⟨_, rfl, by decide⟩, ?_⟩
  intro h
  obtain ⟨a, hin, habove⟩ := above_of_routesGradients h [1, 1, 1, 1] rfl ⟨1, rfl⟩ 0 (by decide) 0
    (by decide) 0 (by decide) (by decide)
  have hlt := windowPlaces_lt _ (mem_windowPlaces.2 hin)
  have ha : a = 0 := Nat.lt_one_iff.1 hlt
  rw [ha] at habove
  exact absurd habove (by decide)

end Camel.Tensor
