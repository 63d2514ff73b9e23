import Camel.Tensor.BroadcastShape

/-! # Broadcasting of Static Shapes

    Inference knows some extents of some operands. The shape it computes for the result
    holds for every run, and where it refuses every run is refused.
-/

namespace Camel.Tensor.Broadcast

open Lib Tensor List

variable {n : Nat}

/-! ## Inference -/

/-- A shape of which some extents are known. -/
abbrev StaticShape := List (Option Nat)

def StaticShape.padded (rank : Nat) (shape : StaticShape) : StaticShape :=
  List.replicate (rank - shape.length) (some 1) ++ shape

/-- An extent of the result. -/
def broadcastExtent (a b : Option Nat) : Except String (Option Nat) :=
  if a = b then .ok a
  else if a = some 1 then .ok b
  else if b = some 1 then .ok a
  else
    match a, b with
    -- One side unknown, the other known and not one: the result must be the known extent.
    | none, b => .ok b
    | a, none => .ok a
    | some a, some b =>
      .error ("cannot broadcast extents " ++ toString a ++ " and " ++ toString b)

def broadcastExtents : StaticShape → StaticShape → Except String StaticShape
  | a :: lhs, b :: rhs => do
    let head ← broadcastExtent a b
    let tail ← broadcastExtents lhs rhs
    .ok (head :: tail)
  | _, _ => .ok []

/-- `broadcast`; the rank of an operand may be unknown too. -/
def broadcast : Option StaticShape → Option StaticShape → Except String (Option StaticShape)
  | some lhs, some rhs => do
    let rank := max lhs.length rhs.length
    let out ← broadcastExtents (lhs.padded rank) (rhs.padded rank)
    .ok (some out)
  | _, _ => .ok none

/-- The inference of `where`: the branches first, then the condition. -/
def inferWhere (c a b : Option StaticShape) : Except String (Option StaticShape) := do
  let branches ← broadcast a b
  broadcast c branches

/-! ## One Axis -/

/-- The extent is the known one. -/
def Allows (extent : Nat) (known : Option Nat) : Prop := ∀ k, known = some k → extent = k

/-- The shape has every known extent. -/
def Refines (shape : List Nat) (known : Option StaticShape) : Prop :=
  ∀ s, known = some s → Forall₂ Allows shape s

theorem allows_some {e k : Nat} : Allows e (some k) ↔ e = k := by
  simp [Allows]

variable {r : Nat}

theorem broadcastExtent_ok {a b o : Option Nat} {x y : Nat} (h : broadcastExtent a b = .ok o)
    (ha : Allows x a) (hb : Allows y b) (hr : Joined [x, y] r) : Allows r o := by
  obtain ⟨hall, hmem⟩ := hr
  have hx := hall x (by simp)
  have hy := hall y (by simp)
  simp only [mem_cons, not_mem_nil, or_false] at hmem
  unfold broadcastExtent at h
  split at h
  · next hab =>
    cases h
    intro k hk
    have hxk := ha k hk
    have hyk := hb k (hab ▸ hk)
    omega
  split at h
  · next hone =>
    cases h
    intro k hk
    have hx1 := ha 1 hone
    have hyk := hb k hk
    omega
  split at h
  · next hone =>
    cases h
    intro k hk
    have hy1 := hb 1 hone
    have hxk := ha k hk
    omega
  -- an unknown extent is one or the known one, which is not one
  next hne ha1 hb1 =>
    cases a with
    | none =>
      cases h
      intro k hk
      have hyk := hb k hk
      have hk1 : k ≠ 1 := by
        rintro rfl
        exact hb1 hk
      omega
    | some a =>
      cases b with
      | none =>
        cases h
        intro k hk
        have hxk := ha k hk
        have hk1 : k ≠ 1 := by
          rintro rfl
          exact ha1 hk
        omega
      | some b => cases h

variable {text : String}

theorem broadcastExtent_error {a b : Option Nat} {x y : Nat}
    (h : broadcastExtent a b = .error text) (ha : Allows x a) (hb : Allows y b) :
    ¬ Joined [x, y] r := by
  unfold broadcastExtent at h
  split at h
  · cases h
  split at h
  · cases h
  split at h
  · cases h
  next hne ha1 hb1 =>
    cases a with
    | none => cases h
    | some a =>
      cases b with
      | none => cases h
      | some b =>
        rintro ⟨hall, -⟩
        have hx := hall x (by simp)
        have hy := hall y (by simp)
        have hxa := allows_some.1 ha
        have hyb := allows_some.1 hb
        simp only [Option.some_inj] at hne ha1 hb1
        omega

/-! ## All Axes -/

theorem broadcastExtents_ok {a b o : StaticShape} {x y r : List Nat}
    (h : broadcastExtents a b = .ok o) (ha : Forall₂ Allows x a) (hb : Forall₂ Allows y b)
    (hx : r.length = x.length) (hy : r.length = y.length)
    (hr : ∀ d, Joined [x.getD d 1, y.getD d 1] (r.getD d 1)) : Forall₂ Allows r o := by
  induction r generalizing a b o x y with
  | nil =>
    have hnil : x = [] := length_eq_zero_iff.1 hx.symm
    subst hnil
    cases ha
    cases h
    exact Forall₂.nil
  | cons e r ih =>
    cases ha with
    | nil => cases hx
    | cons hxa ha =>
      cases hb with
      | nil => cases hy
      | cons hyb hb =>
        simp only [broadcastExtents, bind, Except.bind] at h
        split at h
        · cases h
        next head hhead =>
          split at h
          · cases h
          next tail htail =>
            cases h
            apply Forall₂.cons
            · exact broadcastExtent_ok hhead hxa hyb (hr 0)
            · exact ih htail ha hb (by simpa using hx) (by simpa using hy) fun d => hr (d + 1)

theorem broadcastExtents_error {a b : StaticShape} {x y r : List Nat}
    (h : broadcastExtents a b = .error text) (ha : Forall₂ Allows x a)
    (hb : Forall₂ Allows y b) : ¬ ∀ d, Joined [x.getD d 1, y.getD d 1] (r.getD d 1) := by
  induction ha generalizing b y r text with
  | nil => cases h
  | cons hxa ha ih =>
    cases hb with
    | nil => cases h
    | cons hyb hb =>
      simp only [broadcastExtents, bind, Except.bind] at h
      intro hr
      split at h
      · next hhead => exact broadcastExtent_error hhead hxa hyb (hr 0)
      · split at h
        · next htail =>
          have hrest : ∀ d, r.tail.getD d 1 = r.getD (d + 1) 1 := by
            intro d
            cases r <;> rfl
          exact ih htail hb (r := r.tail) fun d => by rw [hrest]; exact hr (d + 1)
        · cases h

theorem Allows.padded {shape : List Nat} {known : StaticShape} (rank : Nat)
    (h : Forall₂ Allows shape known) :
    Forall₂ Allows (Broadcast.padded rank shape) (known.padded rank) := by
  unfold Broadcast.padded StaticShape.padded
  rw [h.length_eq]
  apply rel_append _ h
  generalize rank - known.length = k
  induction k with
  | zero => exact Forall₂.nil
  | succ k ih => exact Forall₂.cons (allows_some.2 rfl) ih

theorem rankOf_two (a b : List Nat) : rankOf ![a, b] = max a.length b.length := by
  simp [rankOf, ofFn_succ]

variable {a b out : List Nat}

theorem isBroadcast_two :
    IsBroadcast ![a, b] out ↔ out.length = max a.length b.length ∧
      ∀ k, Joined [extentFromEnd a k, extentFromEnd b k] (extentFromEnd out k) := by
  unfold IsBroadcast
  rw [rankOf_two]
  simp [ofFn_succ]

/-- The extents of two shapes and their result along the axes of the result. -/
theorem IsBroadcast.axes (h : IsBroadcast ![a, b] out) :
    ∀ d, Joined [(padded out.length a).getD d 1, (padded out.length b).getD d 1] (out.getD d 1) := by
  obtain ⟨hlen, hk⟩ := isBroadcast_two.1 h
  have hpair : ∀ op : Fin 2, (![padded out.length a, padded out.length b] op).length = out.length := by
    intro op
    fin_cases op
    · exact length_padded (by omega)
    · exact length_padded (by omega)
  have haxes : ∀ d, Joined (List.ofFn fun op =>
      (![padded out.length a, padded out.length b] op).getD d 1) (out.getD d 1) :=
    (joined_fromEnd hpair).2 (by
    intro k
    simpa [ofFn_succ, extentFromEnd_padded] using hk k)
  intro d
  simpa [ofFn_succ] using haxes d

theorem rank_known {lhs rhs : StaticShape} (ha : Refines a (some lhs))
    (hb : Refines b (some rhs)) (hout : IsBroadcast ![a, b] out) :
    max lhs.length rhs.length = out.length := by
  rw [(isBroadcast_two.1 hout).1, (ha lhs rfl).length_eq, (hb rhs rfl).length_eq]

/-- Inference on two shapes allows what the kernels compute. -/
theorem broadcast_ok {lhs rhs o : Option StaticShape}
    (h : broadcast lhs rhs = .ok o) (ha : Refines a lhs) (hb : Refines b rhs)
    (hout : IsBroadcast ![a, b] out) : Refines out o := by
  cases lhs with
  | none =>
    cases h
    intro s hs
    cases hs
  | some lhs =>
    cases rhs with
    | none =>
      cases h
      intro s hs
      cases hs
    | some rhs =>
      obtain ⟨hlen, -⟩ := isBroadcast_two.1 hout
      simp only [broadcast, bind, Except.bind, rank_known ha hb hout] at h
      split at h
      · cases h
      next exts hexts =>
        cases h
        intro s hs
        cases hs
        exact broadcastExtents_ok hexts (Allows.padded _ (ha lhs rfl)) (Allows.padded _ (hb rhs rfl))
          (length_padded (by omega)).symm (length_padded (by omega)).symm hout.axes

theorem broadcast_error {lhs rhs : Option StaticShape}
    (h : broadcast lhs rhs = .error text) (ha : Refines a lhs) (hb : Refines b rhs) :
    ¬ IsBroadcast ![a, b] out := by
  intro hout
  cases lhs with
  | none => cases h
  | some lhs =>
    cases rhs with
    | none => cases h
    | some rhs =>
      simp only [broadcast, bind, Except.bind, rank_known ha hb hout] at h
      split at h
      · next hexts =>
        exact broadcastExtents_error hexts (Allows.padded _ (ha lhs rfl)) (Allows.padded _ (hb rhs rfl)) hout.axes
      · cases h

/-! ## Three Shapes -/

/-- Extents that meet with more of them meet. -/
theorem Joined.left {cands rest : List Nat} (h : Joined (cands ++ rest) r) :
    ∃ m, Joined cands m := by
  by_cases hr : r ∈ cands
  · exact ⟨r, fun c hc => h.1 c (mem_append_left _ hc), .inr hr⟩
  · refine ⟨1, fun c hc => ?_, .inl rfl⟩
    rcases h.1 c (mem_append_left _ hc) with h1 | rfl
    · exact .inl h1
    · exact absurd hc hr

/-- The last extent meets with what the others meet in. -/
theorem Joined.last {cands : List Nat} {c m : Nat} (h : Joined (cands ++ [c]) r)
    (hm : Joined cands m) : Joined [c, m] r := by
  constructor
  · rw [forall_mem_cons, forall_mem_singleton]
    refine ⟨h.1 c (by simp), ?_⟩
    rcases hm.2 with h1 | hmem
    · exact .inl h1
    · exact h.1 m (mem_append_left _ hmem)
  · rcases h.2 with h1 | hmem
    · exact .inl h1
    rcases mem_append.1 hmem with hmem | hmem
    · rcases hm.1 r hmem with h1 | rfl
      · exact .inl h1
      · exact .inr (by simp)
    · rw [mem_singleton.1 hmem]
      exact .inr (by simp)

variable {c : List Nat}

theorem isBroadcast_three (h : IsBroadcast ![a, b, c] out) :
    ∃ mid, IsBroadcast ![a, b] mid ∧ IsBroadcast ![c, mid] out := by
  have hlen : out.length = max (max a.length b.length) c.length := by
    rw [h.1]
    simp [rankOf, ofFn_succ]
  have hk : ∀ k, Joined [extentFromEnd a k, extentFromEnd b k, extentFromEnd c k]
      (extentFromEnd out k) := by
    intro k
    simpa [ofFn_succ] using h.2 k
  obtain ⟨mid, hmid⟩ := exists_outShapeOf_iff.2 (broadcastable_iff.2 fun k => by
    have hab : Joined ([_, _] ++ [_]) _ := hk k
    obtain ⟨m, hm⟩ := hab.left
    exact ⟨m, by simpa [ofFn_succ] using hm⟩ : Broadcastable ![a, b])
  have hmid' := outShapeOf_eq_some.1 hmid
  obtain ⟨hmlen, hmk⟩ := isBroadcast_two.1 hmid'
  refine ⟨mid, hmid', isBroadcast_two.2 ⟨?_, fun k => (hk k).last (hmk k)⟩⟩
  rw [hlen, hmlen, max_comm]

theorem inferWhere_ok {sc sa sb o : Option StaticShape}
    (h : inferWhere sc sa sb = .ok o) (hc : Refines c sc) (ha : Refines a sa) (hb : Refines b sb)
    (hout : IsBroadcast ![a, b, c] out) : Refines out o := by
  obtain ⟨mid, hmid, hall⟩ := isBroadcast_three hout
  simp only [inferWhere, bind, Except.bind] at h
  split at h
  · cases h
  next branches hbranches => exact broadcast_ok h hc (broadcast_ok hbranches ha hb hmid) hall

theorem inferWhere_error {sc sa sb : Option StaticShape}
    (h : inferWhere sc sa sb = .error text) (hc : Refines c sc) (ha : Refines a sa)
    (hb : Refines b sb) : ¬ IsBroadcast ![a, b, c] out := by
  intro hout
  obtain ⟨mid, hmid, hall⟩ := isBroadcast_three hout
  simp only [inferWhere, bind, Except.bind] at h
  split at h
  · next hbranches => exact broadcast_error hbranches ha hb hmid
  · next branches hbranches =>
    exact broadcast_error h hc (broadcast_ok hbranches ha hb hmid) hall

/-! ## The Kernel and Its Inference -/

/-- Plans are refused where the shapes do not go together; the rows of a plan, in every
    split into chunks, pass over the result once and read each operand where it is due; and
    inference allows every result and refuses only what is refused. -/
theorem broadcast_correct :
    (∀ (n : Nat) (shapes : Fin n → List Nat),
      ((∃ text, makePlan shapes = .error text) ↔ ¬ Broadcastable shapes) ∧
      ∀ plan, makePlan shapes = .ok plan → IsBroadcast shapes plan.outShape ∧
        ∀ chunks, Splits 0 plan.outerCount chunks →
          (forChunks plan chunks).flatMap Row.elements =
              (List.range plan.outShape.prod).map (fun p =>
                (p, fun op => (readAt (shapes op) (coordsOf plan.outShape p) : Int))) ∧
            ∀ p < plan.outShape.prod, ∀ op,
              readAt (shapes op) (coordsOf plan.outShape p) < (shapes op).prod) ∧
    (∀ (lhs rhs : Option StaticShape) (a b : List Nat), Refines a lhs → Refines b rhs →
      (∀ o plan, broadcast lhs rhs = .ok o → makePlan ![a, b] = .ok plan →
        Refines plan.outShape o) ∧
      ((∃ text, broadcast lhs rhs = .error text) → ∃ text, makePlan ![a, b] = .error text)) ∧
    (∀ (sc sa sb : Option StaticShape) (c a b : List Nat),
      Refines c sc → Refines a sa → Refines b sb →
      (∀ o plan, inferWhere sc sa sb = .ok o → makePlan ![a, b, c] = .ok plan →
        Refines plan.outShape o) ∧
      ((∃ text, inferWhere sc sa sb = .error text) →
        ∃ text, makePlan ![a, b, c] = .error text)) := by
  refine ⟨fun n shapes => ⟨makePlan_error_iff shapes, fun plan hplan => ⟨(makePlan_eq_ok hplan).1, ?_⟩⟩,
    fun lhs rhs a b ha hb => ⟨?_, ?_⟩, fun sc sa sb c a b hc ha hb => ⟨?_, ?_⟩⟩
  · intro chunks hchunks
    obtain ⟨hprod, hoffset⟩ := plan_points hplan
    constructor
    · rw [elements_forChunks plan hchunks, hprod]
      apply map_congr_left
      intro p _
      rw [Prod.mk.injEq]
      exact ⟨rfl, funext (hoffset p)⟩
    · intro p hp op
      exact (makePlan_eq_ok hplan).1.readAt_lt op hp
  · intro o plan hinfer hplan
    exact broadcast_ok hinfer ha hb (makePlan_eq_ok hplan).1
  · rintro ⟨text, hinfer⟩
    rw [makePlan_error_iff, ← exists_outShapeOf_iff]
    rintro ⟨out, hout⟩
    exact broadcast_error hinfer ha hb (outShapeOf_eq_some.1 hout)
  · intro o plan hinfer hplan
    exact inferWhere_ok hinfer hc ha hb (makePlan_eq_ok hplan).1
  · rintro ⟨text, hinfer⟩
    rw [makePlan_error_iff, ← exists_outShapeOf_iff]
    rintro ⟨out, hout⟩
    exact inferWhere_error hinfer hc ha hb (outShapeOf_eq_some.1 hout)

/-- A column and a row, in two chunks, with inference that knows the column only. -/
theorem broadcast_correct_outer :
    ∃ plan, makePlan ![[2, 1], [3]] = .ok plan ∧
      (forChunks plan [(0, 1), (1, 2)]).flatMap Row.elements =
        (List.range plan.outShape.prod).map (fun p =>
          (p, fun op => (readAt (![[2, 1], [3]] op) (coordsOf plan.outShape p) : Int))) ∧
      Refines plan.outShape (some [some 2, none]) := by
  have hplan : ∃ plan, makePlan ![[2, 1], [3]] = .ok plan ∧ plan.outerCount = 2 := ⟨_, rfl, rfl⟩
  obtain ⟨plan, hok, hrows⟩ := hplan
  have hsplit : Splits 0 plan.outerCount [(0, 1), (1, 2)] := by
    rw [hrows]
    exact ⟨rfl, by decide, rfl, by decide, rfl⟩
  have ha : Refines [2, 1] (some [some 2, some 1]) := by
    intro s hs
    cases hs
    exact .cons (allows_some.2 rfl) (.cons (allows_some.2 rfl) .nil)
  have hb : Refines [3] (some [none]) := by
    intro s hs
    cases hs
    exact .cons (fun k hk => by cases hk) .nil
  exact ⟨plan, hok, (((broadcast_correct.1 2 ![[2, 1], [3]]).2 plan hok).2 _ hsplit).1,
    (broadcast_correct.2.1 _ _ [2, 1] [3] ha hb).1 _ plan rfl hok⟩

end Camel.Tensor.Broadcast
