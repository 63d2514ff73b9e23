import Camel.Tensor.Broadcast
import Mathlib

/-! # The Shapes of a Plan

    Shapes are aligned at their last axes, and the ones that are shorter are taken to
    begin with axes of extent one. They go together when the extents of an axis other than
    one are all the same; such an extent is that of the result, and an operand without it
    is read at place 0 of the axis.
-/

namespace Camel.Tensor.Broadcast

open Lib List

variable {n : Nat}

/-! ## Extents -/

/-- The extent of the axis `k` places before the last one. -/
def extentFromEnd (shape : List Nat) (k : Nat) : Nat := shape.reverse.getD k 1

/-- The shapes go together. -/
def Broadcastable (shapes : Fin n → List Nat) : Prop :=
  ∀ k op op', extentFromEnd (shapes op) k = 1 ∨ extentFromEnd (shapes op') k = 1 ∨
    extentFromEnd (shapes op) k = extentFromEnd (shapes op') k

/-- The extent of an axis on which the extents `cands` meet. -/
def Joined (cands : List Nat) (out : Nat) : Prop :=
  (∀ c ∈ cands, c = 1 ∨ c = out) ∧ (out = 1 ∨ out ∈ cands)

/-- The shape of the result. -/
def IsBroadcast (shapes : Fin n → List Nat) (out : List Nat) : Prop :=
  out.length = rankOf shapes ∧
    ∀ k, Joined (List.ofFn fun op => extentFromEnd (shapes op) k) (extentFromEnd out k)

theorem le_foldl_max (shapes : List (List Nat)) (rank : Nat) :
    rank ≤ shapes.foldl (fun rank shape => max rank shape.length) rank ∧
      ∀ shape ∈ shapes,
        shape.length ≤ shapes.foldl (fun rank shape => max rank shape.length) rank := by
  induction shapes generalizing rank with
  | nil => simp
  | cons shape shapes ih =>
    obtain ⟨hrank, hmem⟩ := ih (max rank shape.length)
    rw [foldl_cons]
    constructor
    · omega
    · intro s hs
      rcases mem_cons.1 hs with rfl | hs
      · omega
      · exact hmem s hs

theorem length_le_rankOf (shapes : Fin n → List Nat) (op : Fin n) :
    (shapes op).length ≤ rankOf shapes := by
  apply (le_foldl_max (ofFn shapes) 0).2
  rw [mem_ofFn]
  exact ⟨op, rfl⟩

variable {shape : List Nat}

theorem length_padded {rank : Nat} (h : shape.length ≤ rank) :
    (padded rank shape).length = rank := by
  simp [padded, h]

theorem getD_of_length_le {l : List Nat} {d : Nat} (h : l.length ≤ d) : l.getD d 1 = 1 := by
  rw [getD_eq_getElem?_getD, getElem?_eq_none h, Option.getD_none]

theorem extentFromEnd_of_le {k : Nat} (h : shape.length ≤ k) :
    extentFromEnd shape k = 1 := getD_of_length_le (by rwa [length_reverse])

theorem extentFromEnd_padded (rank : Nat) (shape : List Nat) (k : Nat) :
    extentFromEnd (padded rank shape) k = extentFromEnd shape k := by
  unfold extentFromEnd padded
  rw [reverse_append, reverse_replicate, getD_eq_getElem?_getD,
    getD_eq_getElem?_getD]
  by_cases hk : k < shape.reverse.length
  · rw [getElem?_append_left hk]
  · rw [getElem?_append_right (by omega), getElem?_eq_none (l := shape.reverse) (by omega),
      getElem?_replicate]
    split <;> rfl

theorem getD_eq_extentFromEnd {d : Nat} (h : d < shape.length) :
    shape.getD d 1 = extentFromEnd shape (shape.length - 1 - d) := by
  have hr : shape.length - 1 - d < shape.length := by omega
  have hd : shape.length - 1 - (shape.length - 1 - d) = d := by omega
  simp [extentFromEnd, getD_eq_getElem?_getD, getElem?_reverse hr, hd]

/-! ## One Axis -/

variable {out : Nat}

theorem joinExtent_eq_some {cand r : Nat} :
    joinExtent out cand = some r ↔ (out = 1 ∨ out = r) ∧ (cand = 1 ∨ cand = r) ∧
      (r = out ∨ r = cand) := by
  unfold joinExtent
  split
  · rw [Option.some_inj]
    omega
  · split
    · simp only [reduceCtorEq, false_iff]
      omega
    · rw [Option.some_inj]
      omega

variable {cands : List Nat}

theorem joinExtent_foldlM {r : Nat} :
    cands.foldlM joinExtent out = some r ↔ Joined (out :: cands) r := by
  induction cands generalizing out with
  | nil =>
    simp only [foldlM_nil, Joined, mem_singleton, forall_eq]
    show some out = some r ↔ _
    rw [Option.some_inj]
    omega
  | cons cand cands ih =>
    rw [foldlM_cons]
    simp only [Option.bind_eq_bind, Option.bind_eq_some_iff, joinExtent_eq_some]
    constructor
    · rintro ⟨mid, ⟨hout, hcand, hmid⟩, hrest⟩
      obtain ⟨hall, hr⟩ := ih.1 hrest
      have hm := hall mid mem_cons_self
      constructor
      · intro c hc
        rcases mem_cons.1 hc with rfl | hc
        · omega
        rcases mem_cons.1 hc with rfl | hc
        · omega
        · exact hall c (.tail _ hc)
      · simp only [mem_cons] at hr ⊢
        rcases hr with hr | hr | hr
        · exact .inl hr
        · rcases hmid with h | h
          · exact .inr (.inl (hr.trans h))
          · exact .inr (.inr (.inl (hr.trans h)))
        · exact .inr (.inr (.inr hr))
    · rintro ⟨hall, hr⟩
      have hout := hall out mem_cons_self
      have hcand := hall cand (.tail _ mem_cons_self)
      have hrest : ∀ c ∈ cands, c = 1 ∨ c = r :=
        fun c hc => hall c (.tail _ (.tail _ hc))
      simp only [mem_cons] at hr
      -- the extent so far is the one of the two that is not one
      by_cases h : out = 1
      · refine ⟨cand, ⟨.inl h, by omega, .inr rfl⟩, ih.2 ⟨?_, ?_⟩⟩
        · intro c hc
          rcases mem_cons.1 hc with rfl | hc
          · exact hcand
          · exact hrest c hc
        · rw [mem_cons]
          rcases hr with hr | hr | hr
          · exact .inl hr
          · exact .inl (hr.trans h)
          · exact .inr hr
      · refine ⟨out, ⟨.inr rfl, by omega, .inl rfl⟩, ih.2 ⟨?_, ?_⟩⟩
        · intro c hc
          rcases mem_cons.1 hc with rfl | hc
          · exact hout
          · exact hrest c hc
        · have hr' : r = out := (hout.resolve_left h).symm
          exact .inr (hr' ▸ mem_cons_self)

/-- Extents meet in one exactly when no two of them differ. -/
theorem exists_joined_iff :
    (∃ out, Joined cands out) ↔ ∀ c ∈ cands, ∀ c' ∈ cands, c = 1 ∨ c' = 1 ∨ c = c' := by
  constructor
  · rintro ⟨out, hall, -⟩ c hc c' hc'
    have h := hall c hc
    have h' := hall c' hc'
    omega
  · intro h
    by_cases hone : ∀ c ∈ cands, c = 1
    · exact ⟨1, fun c hc => .inl (hone c hc), .inl rfl⟩
    · push Not at hone
      obtain ⟨out, hout, hne⟩ := hone
      refine ⟨out, ?_, .inr hout⟩
      intro c hc
      have hpair := h c hc out hout
      omega

theorem Joined.cons_one :
    Joined (1 :: cands) out ↔ Joined cands out := by
  unfold Joined
  simp only [mem_cons, forall_eq_or_imp]
  constructor
  · rintro ⟨⟨-, hall⟩, hout⟩
    exact ⟨hall, by tauto⟩
  · rintro ⟨hall, hout⟩
    exact ⟨⟨.inl trivial, hall⟩, by tauto⟩

/-! ## All Axes -/

variable {outs : List Nat}

theorem joinShape_eq_some {r : List Nat} (h : outs.length = cands.length) :
    joinShape outs cands = some r ↔ r.length = outs.length ∧
      ∀ d, joinExtent (outs.getD d 1) (cands.getD d 1) = some (r.getD d 1) := by
  induction outs generalizing cands r with
  | nil =>
    cases cands with
    | cons cand cands => cases h
    | nil =>
      constructor
      · intro hr
        cases hr
        exact ⟨rfl, fun d => rfl⟩
      · rintro ⟨hr, -⟩
        rw [length_eq_zero_iff.1 hr]
        rfl
  | cons out outs ih =>
    cases cands with
    | nil => cases h
    | cons cand cands =>
      simp only [joinShape, Option.bind_eq_bind, Option.bind_eq_some_iff, Option.some_inj]
      constructor
      · rintro ⟨head, hhead, tail, htail, rfl⟩
        obtain ⟨hlen, hd⟩ := (ih (by simpa using h)).1 htail
        refine ⟨by simp [hlen], ?_⟩
        intro d
        cases d with
        | zero => exact hhead
        | succ d => exact hd d
      · rintro ⟨hlen, hd⟩
        cases r with
        | nil => cases hlen
        | cons head tail =>
          refine ⟨head, hd 0, tail, (ih (by simpa using h)).2 ⟨by simpa using hlen, ?_⟩, rfl⟩
          intro d
          exact hd (d + 1)

theorem joinShape_isSome (h : outs.length = cands.length)
    (hall : ∀ d, (joinExtent (outs.getD d 1) (cands.getD d 1)).isSome) :
    ∃ r, joinShape outs cands = some r := by
  induction outs generalizing cands with
  | nil => exact ⟨[], by cases cands <;> rfl⟩
  | cons out outs ih =>
    cases cands with
    | nil => cases h
    | cons cand cands =>
      obtain ⟨head, hhead⟩ := Option.isSome_iff_exists.1 (hall 0)
      obtain ⟨tail, htail⟩ := ih (by simpa using h) fun d => hall (d + 1)
      have hjoin : joinExtent out cand = some head := hhead
      exact ⟨head :: tail, by simp [joinShape, hjoin, htail]⟩

/-- Joining shapes one after another joins the extents of each axis. -/
theorem joinShape_foldlM {shapes : List (List Nat)} {r : List Nat}
    (h : ∀ shape ∈ shapes, shape.length = outs.length) :
    shapes.foldlM joinShape outs = some r ↔ r.length = outs.length ∧
      ∀ d, (shapes.map fun shape => shape.getD d 1).foldlM joinExtent (outs.getD d 1) =
        some (r.getD d 1) := by
  induction shapes generalizing outs with
  | nil =>
    simp only [foldlM_nil, map_nil]
    show some outs = some r ↔ r.length = outs.length ∧ ∀ d, some (outs.getD d 1) = some (r.getD d 1)
    simp only [Option.some_inj]
    constructor
    · rintro rfl
      exact ⟨rfl, fun _ => rfl⟩
    · rintro ⟨hlen, hd⟩
      apply ext_getElem hlen.symm
      intro d hd1 hd2
      simpa [getD_eq_getElem?_getD, hd1, hd2] using hd d
  | cons shape shapes ih =>
    have hshape := h shape mem_cons_self
    have hrest : ∀ s ∈ shapes, s.length = outs.length :=
      fun s hs => h s (.tail _ hs)
    simp only [foldlM_cons, map_cons, Option.bind_eq_bind, Option.bind_eq_some_iff]
    constructor
    · rintro ⟨mid, hmid, htail⟩
      obtain ⟨hlen, hd⟩ := (joinShape_eq_some hshape.symm).1 hmid
      obtain ⟨hlen', hd'⟩ := (ih fun s hs => (hrest s hs).trans hlen.symm).1 htail
      exact ⟨hlen'.trans hlen, fun d => ⟨mid.getD d 1, hd d, hd' d⟩⟩
    · rintro ⟨hlen, hd⟩
      -- every axis joins, so there is a shape in between
      obtain ⟨mid, hmid⟩ := joinShape_isSome hshape.symm fun d => by
        obtain ⟨e, he, -⟩ := hd d
        exact Option.isSome_iff_exists.2 ⟨e, he⟩
      obtain ⟨hlen', hd'⟩ := (joinShape_eq_some hshape.symm).1 hmid
      refine ⟨mid, hmid, (ih fun s hs => (hrest s hs).trans hlen'.symm).2
        ⟨hlen.trans hlen'.symm, fun d => ?_⟩⟩
      obtain ⟨e, he, htail⟩ := hd d
      rw [hd' d, Option.some_inj] at he
      rw [he]
      exact htail

theorem joined_ones (h : ∀ c ∈ cands, c = 1) : Joined cands 1 :=
  ⟨fun c hc => .inl (h c hc), .inl rfl⟩

variable {shapes : Fin n → List Nat}

/-- The axes of shapes of one length, counted from either end. -/
theorem joined_fromEnd {out : List Nat}
    (hlen : ∀ op, (shapes op).length = out.length) :
    (∀ d, Joined (ofFn fun op => (shapes op).getD d 1) (out.getD d 1)) ↔
      ∀ k, Joined (ofFn fun op => extentFromEnd (shapes op) k) (extentFromEnd out k) := by
  constructor
  · intro h k
    by_cases hk : k < out.length
    · have hd : out.length - 1 - (out.length - 1 - k) = k := by omega
      have haxis := h (out.length - 1 - k)
      rw [getD_eq_extentFromEnd (by omega), hd] at haxis
      have hcands : ∀ op, (shapes op).getD (out.length - 1 - k) 1 = extentFromEnd (shapes op) k := by
        intro op
        rw [getD_eq_extentFromEnd (by rw [hlen]; omega), hlen, hd]
      simpa only [hcands] using haxis
    · rw [extentFromEnd_of_le (le_of_not_gt hk)]
      apply joined_ones
      intro c hc
      rw [mem_ofFn] at hc
      obtain ⟨op, rfl⟩ := hc
      exact extentFromEnd_of_le (by rw [hlen]; exact le_of_not_gt hk)
  · intro h d
    by_cases hd : d < out.length
    · have haxis := h (out.length - 1 - d)
      rw [← getD_eq_extentFromEnd hd] at haxis
      have hcands : ∀ op, extentFromEnd (shapes op) (out.length - 1 - d) = (shapes op).getD d 1 := by
        intro op
        rw [getD_eq_extentFromEnd (by rw [hlen]; omega), hlen]
      simpa only [hcands] using haxis
    · rw [getD_of_length_le (le_of_not_gt hd)]
      apply joined_ones
      intro c hc
      rw [mem_ofFn] at hc
      obtain ⟨op, rfl⟩ := hc
      exact getD_of_length_le (by rw [hlen]; exact le_of_not_gt hd)

theorem outShapeOf_eq_some {out : List Nat} :
    outShapeOf shapes = some out ↔ IsBroadcast shapes out := by
  have hlen : ∀ shape ∈ (ofFn shapes).map (padded (rankOf shapes)),
      shape.length = (replicate (rankOf shapes) 1).length := by
    intro shape hshape
    rw [mem_map] at hshape
    obtain ⟨s, hs, rfl⟩ := hshape
    rw [mem_ofFn] at hs
    obtain ⟨op, rfl⟩ := hs
    rw [length_padded (length_le_rankOf shapes op), length_replicate]
  have hone : ∀ d, (replicate (rankOf shapes) 1).getD d 1 = 1 := by
    intro d
    rw [getD_eq_getElem?_getD, getElem?_replicate]
    split <;> rfl
  have hcands : ∀ d, ((ofFn shapes).map (padded (rankOf shapes))).map
      (fun shape => shape.getD d 1) =
        ofFn fun op => (padded (rankOf shapes) (shapes op)).getD d 1 := by
    intro d
    rw [map_map, map_ofFn]
    rfl
  have hfold : outShapeOf shapes =
      ((ofFn shapes).map (padded (rankOf shapes))).foldlM joinShape
        (replicate (rankOf shapes) 1) := by
    rw [outShapeOf, foldlM_map]
  rw [hfold, joinShape_foldlM hlen, length_replicate, IsBroadcast]
  apply and_congr_right
  intro hout
  simp only [hone, hcands, joinExtent_foldlM, Joined.cons_one]
  rw [joined_fromEnd fun op => (length_padded (length_le_rankOf shapes op)).trans hout.symm]
  simp only [extentFromEnd_padded]

theorem broadcastable_iff :
    Broadcastable shapes ↔
      ∀ k, ∃ out, Joined (ofFn fun op => extentFromEnd (shapes op) k) out := by
  apply forall_congr'
  intro k
  rw [exists_joined_iff]
  simp only [mem_ofFn, forall_exists_index, forall_apply_eq_imp_iff]

/-- Shapes have a result exactly when they go together. -/
theorem exists_outShapeOf_iff :
    (∃ out, outShapeOf shapes = some out) ↔ Broadcastable shapes := by
  rw [broadcastable_iff]
  constructor
  · rintro ⟨out, hout⟩ k
    exact ⟨extentFromEnd out k, (outShapeOf_eq_some.1 hout).2 k⟩
  · intro h
    choose out hout using h
    refine ⟨((range (rankOf shapes)).map out).reverse,
      outShapeOf_eq_some.2 ⟨by simp, fun k => ?_⟩⟩
    by_cases hk : k < rankOf shapes
    · have hat : extentFromEnd ((range (rankOf shapes)).map out).reverse k = out k := by
        simp [extentFromEnd, getD_eq_getElem?_getD, hk]
      rw [hat]
      exact hout k
    · -- before the first axis every extent is one
      rw [extentFromEnd_of_le (by simpa using hk)]
      apply joined_ones
      intro c hc
      rw [mem_ofFn] at hc
      obtain ⟨op, rfl⟩ := hc
      have hop := length_le_rankOf shapes op
      exact extentFromEnd_of_le (by omega)

end Camel.Tensor.Broadcast

/-! # What a Plan Visits

    An operand is read at the coordinates of the result, less the leading axes it does not
    have and at place 0 of the axes on which its extent is one. The static shapes that
    inference computes allow every result of the kernels.
-/

namespace Camel.Tensor.Broadcast

open Lib Tensor List

variable {n : Nat}

/-! ## Offsets -/

/-- The coordinates at which an operand is read for those of the result. -/
def clipped (shape cs : List Nat) : List Nat :=
  List.zipWith (fun extent c => if extent = 1 then 0 else c) shape
    (cs.drop (cs.length - shape.length))

/-- The place of the element an operand is read at. -/
def readAt (shape cs : List Nat) : Nat := flatOf shape (clipped shape cs)

theorem length_operandStrides (shape : List Nat) : (operandStrides shape).length = shape.length := by
  induction shape with
  | nil => rfl
  | cons extent shape ih => simp [operandStrides, ih]

variable {shape cs : List Nat}

theorem dot_operandStrides (h : shape.length = cs.length) :
    dot (operandStrides shape) cs =
      (flatOf shape (zipWith (fun extent c => if extent = 1 then 0 else c) shape cs) : Int) := by
  induction shape generalizing cs with
  | nil => simp [operandStrides]
  | cons extent shape ih =>
    cases cs with
    | nil => cases h
    | cons c cs =>
      rw [operandStrides, dot_cons, ih (by simpa using h), zipWith_cons_cons, flatOf]
      by_cases hone : extent = 1
      · simp [hone]
      · simp [hone]

theorem flatOf_replicate_one (k : Nat) (shape : List Nat) (front cs : List Nat)
    (h : front.length = k) (hzero : ∀ c ∈ front, c = 0) :
    flatOf (replicate k 1 ++ shape) (front ++ cs) = flatOf shape cs := by
  induction k generalizing front with
  | zero =>
    rw [length_eq_zero_iff.1 h]
    rfl
  | succ k ih =>
    cases front with
    | nil => cases h
    | cons c front =>
      have hc : c = 0 := hzero c mem_cons_self
      show flatOf (1 :: (replicate k 1 ++ shape)) (c :: (front ++ cs)) = _
      rw [flatOf, hc, zero_mul, zero_add]
      exact ih front (by simpa using h) fun c hc => hzero c (.tail _ hc)

/-- The leading axes of extent one of a padded shape are not read. -/
theorem readAt_padded (h : shape.length ≤ cs.length) :
    readAt (padded cs.length shape) cs = readAt shape cs := by
  have hlen : (padded cs.length shape).length = cs.length := length_padded h
  unfold readAt clipped
  rw [hlen, Nat.sub_self, drop_zero]
  generalize hk : cs.length - shape.length = k
  have hcs : cs = cs.take k ++ cs.drop k := (take_append_drop k cs).symm
  have htake : (replicate k 1).length = (cs.take k).length := by
    simp
    omega
  unfold padded
  rw [hk]
  conv_lhs => rw [hcs]
  rw [zipWith_append htake]
  apply flatOf_replicate_one
  · simp
    omega
  · intro c hc
    rw [mem_iff_getElem] at hc
    obtain ⟨i, hi, rfl⟩ := hc
    simp

/-- An operand of a broadcast is read inside its shape. -/
theorem readAt_lt (hlen : shape.length ≤ cs.length)
    (h : ∀ d < shape.length, shape.getD d 1 = 1 ∨
      (cs.drop (cs.length - shape.length)).getD d 0 < shape.getD d 1) :
    readAt shape cs < shape.prod := by
  apply flatOf_lt
  unfold clipped
  generalize hrest : cs.drop (cs.length - shape.length) = rest at h ⊢
  have hl : rest.length = shape.length := by
    rw [← hrest, length_drop]
    omega
  clear hrest hlen
  induction shape generalizing rest with
  | nil => exact Forall₂.nil
  | cons extent shape ih =>
    cases rest with
    | nil => cases hl
    | cons c rest =>
      rw [zipWith_cons_cons]
      apply Forall₂.cons
      · have hd := h 0 (by simp)
        simp only [getD_cons_zero] at hd
        split <;> omega
      · exact ih rest (fun d hd => h (d + 1) (by simpa using hd)) (by simpa using hl)

theorem dot_apply (strides : List (Fin n → Int)) (cs : List Nat) (op : Fin n) :
    dot strides cs op = dot (strides.map fun s => s op) cs := by
  induction strides generalizing cs with
  | nil => simp
  | cons s strides ih =>
    cases cs with
    | nil => simp [dot]
    | cons c cs =>
      rw [map_cons, dot_cons, dot_cons, ← ih]
      rfl

theorem map_axesOf_extents (shapes : Fin n → List Nat) (outShape : List Nat) :
    (axesOf shapes outShape).map (·.1) = outShape := by
  unfold axesOf
  rw [map_map]
  apply ext_getElem
  · simp
  · intro d h1 h2
    simp [getD_eq_getElem?_getD, h2]

variable {shapes : Fin n → List Nat}

theorem map_axesOf_strides {outShape : List Nat} {op : Fin n}
    (h : (shapes op).length ≤ outShape.length) :
    (axesOf shapes outShape).map (fun axis => axis.2 op) =
      operandStrides (padded outShape.length (shapes op)) := by
  have hlen : (operandStrides (padded outShape.length (shapes op))).length = outShape.length := by
    rw [length_operandStrides, length_padded h]
  unfold axesOf
  rw [map_map]
  apply ext_getElem
  · simp [hlen]
  · intro d h1 h2
    simp [getD_eq_getElem?_getD, h2]

/-- The offset of an operand at a point of the result. -/
theorem offsetAt_axesOf {outShape : List Nat} {op : Fin n}
    (h : (shapes op).length ≤ outShape.length) (p : Nat) :
    offsetAt (axesOf shapes outShape) p op = (readAt (shapes op) (coordsOf outShape p) : Int) := by
  have hlen : (padded outShape.length (shapes op)).length = (coordsOf outShape p).length := by
    rw [length_padded h, length_coordsOf]
  have hstrides : ((axesOf shapes outShape).map (·.2)).map (fun s => s op) =
      operandStrides (padded outShape.length (shapes op)) := by
    rw [map_map]
    exact map_axesOf_strides h
  have hread : readAt (padded (coordsOf outShape p).length (shapes op)) (coordsOf outShape p) =
      readAt (shapes op) (coordsOf outShape p) :=
    readAt_padded (by rw [length_coordsOf]; exact h)
  unfold offsetAt
  rw [dot_apply, hstrides, map_axesOf_extents, dot_operandStrides hlen, ← hread]
  unfold readAt clipped
  rw [length_coordsOf, length_padded h, Nat.sub_self, drop_zero]

/-! ## Plans -/

theorem makePlan_eq_ok {plan : BroadcastPlan n}
    (h : makePlan shapes = .ok plan) :
    IsBroadcast shapes plan.outShape ∧
      plan.axes = (axesOf shapes plan.outShape).foldl mergeAxis [] := by
  unfold makePlan at h
  cases hout : outShapeOf shapes with
  | none =>
    rw [hout] at h
    cases h
  | some outShape =>
    rw [hout] at h
    cases h
    exact ⟨outShapeOf_eq_some.1 hout, rfl⟩

/-- A plan is refused exactly when the shapes do not go together. -/
theorem makePlan_error_iff (shapes : Fin n → List Nat) :
    (∃ text, makePlan shapes = .error text) ↔ ¬ Broadcastable shapes := by
  rw [← exists_outShapeOf_iff]
  unfold makePlan
  cases outShapeOf shapes with
  | none => simp
  | some outShape => simp

/-- The points of a plan and the offsets handed out at them. -/
theorem plan_points {plan : BroadcastPlan n}
    (h : makePlan shapes = .ok plan) :
    (plan.axes.map (·.1)).prod = plan.outShape.prod ∧
      ∀ p op, offsetAt plan.axes p op = (readAt (shapes op) (coordsOf plan.outShape p) : Int) := by
  obtain ⟨hout, haxes⟩ := makePlan_eq_ok h
  obtain ⟨hoffset, hprod⟩ := merged_spec (axesOf shapes plan.outShape) []
  rw [haxes]
  constructor
  · rw [hprod, map_axesOf_extents, map_nil, prod_nil, one_mul]
  · intro p op
    rw [hoffset, nil_append]
    apply offsetAt_axesOf
    rw [hout.1]
    exact length_le_rankOf shapes op

/-- Where an operand has more than one place along an axis the result has as many. -/
theorem IsBroadcast.extent {out : List Nat} (h : IsBroadcast shapes out)
    (op : Fin n) {d : Nat} (hd : d < (shapes op).length) :
    (shapes op).getD d 1 = 1 ∨
      (shapes op).getD d 1 = out.getD (out.length - (shapes op).length + d) 1 := by
  have hle := length_le_rankOf shapes op
  have hrank := h.1
  have hmem := (h.2 ((shapes op).length - 1 - d)).1 (extentFromEnd (shapes op) ((shapes op).length - 1 - d))
    (mem_ofFn.2 ⟨op, rfl⟩)
  have hat : out.length - 1 - (out.length - (shapes op).length + d) = (shapes op).length - 1 - d := by
    omega
  have hout : out.getD (out.length - (shapes op).length + d) 1 =
      extentFromEnd out (out.length - 1 - (out.length - (shapes op).length + d)) :=
    getD_eq_extentFromEnd (by omega)
  rw [getD_eq_extentFromEnd hd, hout, hat]
  exact hmem

/-- Every operand is read inside its shape at every point of the result. -/
theorem IsBroadcast.readAt_lt {out : List Nat} (h : IsBroadcast shapes out)
    (op : Fin n) {p : Nat} (hp : p < out.prod) :
    readAt (shapes op) (coordsOf out p) < (shapes op).prod := by
  have hle := length_le_rankOf shapes op
  have hrank := h.1
  have hinside := inside_coordsOf hp
  apply Broadcast.readAt_lt
  · rw [length_coordsOf]
    omega
  · intro d hd
    apply (h.extent op hd).imp_right
    intro hextent
    have hlt := hinside.getD_lt (k := out.length - (shapes op).length + d) (by omega)
    rw [length_coordsOf, hextent]
    have hk : out.length - (shapes op).length + d < out.length := by omega
    have hdefault : out.getD (out.length - (shapes op).length + d) 0 =
        out.getD (out.length - (shapes op).length + d) 1 := by
      simp [getD_eq_getElem?_getD, hk]
    rw [← hdefault]
    simpa [getD_eq_getElem?_getD, getElem?_drop] using hlt

end Camel.Tensor.Broadcast
