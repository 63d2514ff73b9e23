import Camel.Index.Instance
import Camel.Lib.SplitPoints

/-! # Splitting the Dims of an Instance

    A split replaces a dim by an outer and an inner one, and every expression by the one
    that reads `f * outer + inner` in its place. A tail that is not whole leaves points
    of the new box behind the old bound; the guard excludes them. The points that exist
    are those of the original domain, in the same order.
-/

namespace Camel.Index

open List

structure DimSplit where
  dim : Nat
  factor : Int64

/-! ## The Rewriter -/

/-- `Rewriter::operator()`: every dim is replaced by the expression of its position. A dim the
    domain does not have is not in a validated instance. -/
def rewrite (image : List Expr) : Expr → Except BuildError Expr
  | .const v => .ok (.const v)
  | .dim d =>
    match image[d]? with
    | some e => .ok e
    | none => .error (.invalid "a dim that is not in the domain")
  | .param p => .ok (.param p)
  | .add l r => do Expr.mkAdd (← rewrite image l) (← rewrite image r)
  | .mul l r => do Expr.mkMul (← rewrite image l) (← rewrite image r)
  | .floorDiv l r => do Expr.mkFloorDiv (← rewrite image l) (← rewrite image r)
  | .mod l r => do Expr.mkMod (← rewrite image l) (← rewrite image r)

variable (image : List Expr)

/-- `kNoExpr` stays what it is. -/
def rewriteOption : Option Expr → Except BuildError (Option Expr)
  | none => .ok none
  | some e => do return some (← rewrite image e)

def rewriteConstraint (c : Constraint) : Except BuildError Constraint := do
  return ⟨← rewrite image c.lhs, c.rel, ← rewrite image c.rhs⟩

/-- A computation on each of a list, in order. -/
def traverse {α β : Type} (f : α → Except BuildError β) : List α → Except BuildError (List β)
  | [] => .ok []
  | a :: as => do return (← f a) :: (← traverse f as)

def rewriteIndirect (i : Indirect) : Except BuildError Indirect := do
  return { i with indexCoords := ← traverse (rewriteOption image) i.indexCoords }

def rewriteIndirect? : Option Indirect → Except BuildError (Option Indirect)
  | none => .ok none
  | some i => do return some (← rewriteIndirect image i)

def rewriteAccess (a : Access) : Except BuildError Access := do
  return { a with
    coords := ← traverse (rewriteOption image) a.coords
    valid := ← traverse (rewriteConstraint image) a.valid
    indirect := ← rewriteIndirect? image a.indirect }

def rewriteWrite (w : Write) : Except BuildError Write := do
  return { w with
    coords := ← traverse (rewriteOption image) w.coords
    valid := ← traverse (rewriteConstraint image) w.valid
    indirect := ← rewriteIndirect? image w.indirect }

def rewriteParam (p : Param) : Except BuildError Param := do
  return { p with definition := ← rewriteOption image p.definition }

/-! ## The Split -/

/-- The factor of every dim, 0 where it is not split; the last split of a dim counts. -/
def splitFactors (factors : List Int64) : List DimSplit → Except BuildError (List Int64)
  | [] => .ok factors
  | s :: splits =>
    if factors.length ≤ s.dim ∨ s.factor < 1 then
      .error (.invalid "splitDims: a dim out of range or a factor below 1")
    else splitFactors (factors.set s.dim s.factor) splits

/-- What every old dim becomes, the new dims numbered from `next` on. -/
def splitImages (next : Nat) : List Int64 → Except BuildError (List Expr)
  | [] => .ok []
  | f :: factors =>
    if f = 0 then do
      return .dim next :: (← splitImages (next + 1) factors)
    else do
      let scaled ← Expr.mkScale f (.dim next)
      let image ← Expr.mkAdd scaled (.dim (next + 1))
      return image :: (← splitImages (next + 2) factors)

/-- The new dims in place of the old ones. -/
def splitDimList (image : List Expr) : List Int64 → List Dim → Except BuildError (List Dim)
  | f :: factors, old :: dims => do
    let extent ← rewrite image old.extent
    if f = 0 then
      return { name := old.name, extent := extent, role := old.role } ::
        (← splitDimList image factors dims)
    else
      let whole ← Expr.mkAdd extent (.const (f - 1))
      let outer ← Expr.mkFloorDiv whole (.const f)
      return { name := old.name ++ "_o", extent := outer, role := old.role } ::
        { name := old.name ++ "_i", extent := .const f, role := old.role } ::
        (← splitDimList image factors dims)
  | _, _ => .ok []

/-- The original bound of every split dim, for the guard. `images` are those of the dims from
    here on, `image` all of them. -/
def splitBounds (image : List Expr) :
    List Expr → List Int64 → List Dim → Except BuildError Predicate
  | e :: images, f :: factors, old :: dims =>
    if f = 0 then splitBounds image images factors dims
    else do
      let extent ← rewrite image old.extent
      return ⟨e, .lt, extent⟩ :: (← splitBounds image images factors dims)
  | _, _, _ => .ok []

def splitDims (instance' : IndexedInstance) (splits : List DimSplit) :
    Except BuildError IndexedInstance := do
  let old := instance'.domain
  let factors ← splitFactors (List.replicate old.dims.length 0) splits
  let image ← splitImages 0 factors
  let dims ← splitDimList image factors old.dims
  let params ← traverse (rewriteParam image) old.params
  let constraints ← traverse (rewriteConstraint image) old.constraints
  let guard ← traverse (rewriteConstraint image) old.guard
  let bounds ← splitBounds image image factors old.dims
  let norm ← traverse (rewriteAccess image) instance'.norm
  let withs ← traverse (rewriteAccess image) instance'.withs
  let output ← rewriteWrite image instance'.output
  -- the checks on entry are not carried over
  return { domain := { dims, params, constraints, guard := guard ++ bounds },
           norm, withs, output, checks := [], law := instance'.law }

/-! ## Rewritten Expressions -/

open Lib

/-- The dims at a point. -/
def pt (p : List Int) : Nat → Int := fun i => p.getD i 0

variable {image : List Expr} {p q : List Int} {params : Nat → Int}

/-- The images read the point `q` at the point `p`. -/
def ReadsAt (image : List Expr) (params : Nat → Int) (p q : List Int) : Prop :=
  image.map (Expr.eval (pt p) params) = q

/-- A rewritten expression has at the new point the value of the old one at the old point. -/
theorem rewrite_eval (hq : ReadsAt image params p q) :
    ∀ {e e' : Expr}, rewrite image e = .ok e' → e'.eval (pt p) params = e.eval (pt q) params := by
  intro e
  induction e with
  | const v =>
    intro e' h
    cases h
    rfl
  | param i =>
    intro e' h
    cases h
    rfl
  | dim d =>
    intro e' h
    unfold rewrite at h
    cases hd : image[d]? with
    | none =>
      rw [hd] at h
      cases h
    | some e =>
      rw [hd] at h
      cases h
      have hread : q[d]? = some (e'.eval (pt p) params) := by
        rw [← hq, getElem?_map, hd]
        rfl
      rw [Expr.eval_dim, pt, getD_eq_getElem?_getD, hread]
      rfl
  | add l r ihl ihr =>
    intro e' h
    obtain ⟨l', hl, h⟩ := bind_ok h
    obtain ⟨r', hr, h⟩ := bind_ok h
    rw [Expr.eval_mkAdd h, ihl hl, ihr hr, Expr.eval_add]
  | mul l r ihl ihr =>
    intro e' h
    obtain ⟨l', hl, h⟩ := bind_ok h
    obtain ⟨r', hr, h⟩ := bind_ok h
    rw [Expr.eval_mkMul h, ihl hl, ihr hr, Expr.eval_mul]
  | floorDiv l r ihl ihr =>
    intro e' h
    obtain ⟨l', hl, h⟩ := bind_ok h
    obtain ⟨r', hr, h⟩ := bind_ok h
    rw [Expr.eval_mkFloorDiv h, ihl hl, ihr hr, Expr.eval_floorDiv]
  | mod l r ihl ihr =>
    intro e' h
    obtain ⟨l', hl, h⟩ := bind_ok h
    obtain ⟨r', hr, h⟩ := bind_ok h
    rw [Expr.eval_mkMod h, ihl hl, ihr hr, Expr.eval_mod]

variable {α β : Type} {f : α → Except BuildError β} {as : List α}

theorem traverse_ok {bs : List β}
    (h : traverse f as = .ok bs) : Forall₂ (fun a b => f a = .ok b) as bs := by
  induction as generalizing bs with
  | nil =>
    cases h
    exact Forall₂.nil
  | cons a as ih =>
    obtain ⟨b, hb, h⟩ := bind_ok h
    obtain ⟨bs', hbs, h⟩ := bind_ok h
    cases h
    exact Forall₂.cons hb (ih hbs)

/-- What each element gives reads the same, so the lists do. -/
theorem map_eq_of_traverse {γ : Type} {g : α → γ} {g' : β → γ}
    {bs : List β} (hf : ∀ a b, f a = .ok b → g' b = g a)
    (h : traverse f as = .ok bs) : bs.map g' = as.map g := by
  have hall := traverse_ok h
  clear h
  induction hall with
  | nil => rfl
  | cons hab _ ih => rw [map_cons, map_cons, hf _ _ hab, ih]

/-- The values of coordinates, where there are any. -/
def values (dims params : Nat → Int) (coords : List (Option Expr)) : List (Option Int) :=
  coords.map (Option.map (Expr.eval dims params))

/-- Where an indirect access reads its index. -/
def Indirect.read (dims params : Nat → Int) (i : Indirect) : Nat × List (Option Int) × Nat :=
  (i.indexOperand, values dims params i.indexCoords, i.axis)

/-- The access `a'` at the point `p` is the access `a` at the point `q`. -/
structure AccessAgrees (params : Nat → Int) (p q : List Int) (a a' : Access) : Prop where
  kind : a'.kind = a.kind
  onInvalid : a'.onInvalid = a.onInvalid
  padding : a'.padding = a.padding
  coords : values (pt p) params a'.coords = values (pt q) params a.coords
  valid : Predicate.Holds (pt p) params a'.valid ↔ Predicate.Holds (pt q) params a.valid
  indirect : a'.indirect.map (Indirect.read (pt p) params) =
    a.indirect.map (Indirect.read (pt q) params)

structure WriteAgrees (params : Nat → Int) (p q : List Int) (w w' : Write) : Prop where
  mode : w'.mode = w.mode
  coords : values (pt p) params w'.coords = values (pt q) params w.coords
  valid : Predicate.Holds (pt p) params w'.valid ↔ Predicate.Holds (pt q) params w.valid
  indirect : w'.indirect.map (Indirect.read (pt p) params) =
    w.indirect.map (Indirect.read (pt q) params)

section
variable (hq : ReadsAt image params p q)
include hq

theorem rewriteOption_eval (e e' : Option Expr)
    (h : rewriteOption image e = .ok e') :
    e'.map (Expr.eval (pt p) params) = e.map (Expr.eval (pt q) params) := by
  cases e with
  | none =>
    cases h
    rfl
  | some e =>
    obtain ⟨e1, he, h⟩ := bind_ok h
    cases h
    rw [Option.map_some, Option.map_some, rewrite_eval hq he]

theorem values_rewrite {cs cs' : List (Option Expr)}
    (h : traverse (rewriteOption image) cs = .ok cs') :
    values (pt p) params cs' = values (pt q) params cs :=
  map_eq_of_traverse (rewriteOption_eval hq) h

theorem rewriteConstraint_holds (c c' : Constraint)
    (h : rewriteConstraint image c = .ok c') :
    c'.Holds (pt p) params = c.Holds (pt q) params := by
  obtain ⟨l, hl, h⟩ := bind_ok h
  obtain ⟨r, hr, h⟩ := bind_ok h
  cases h
  unfold Constraint.Holds
  rw [rewrite_eval hq hl, rewrite_eval hq hr]

end

variable {P : Predicate}

theorem predicate_holds_iff_map {dims : Nat → Int} :
    Predicate.Holds dims params P ↔ ∀ b ∈ P.map (Constraint.Holds dims params), b := by
  rw [forall_mem_map]
  rfl

section
variable (hq : ReadsAt image params p q)
include hq

theorem predicate_rewrite {P' : Predicate}
    (h : traverse (rewriteConstraint image) P = .ok P') :
    Predicate.Holds (pt p) params P' ↔ Predicate.Holds (pt q) params P := by
  rw [predicate_holds_iff_map, predicate_holds_iff_map,
    map_eq_of_traverse (rewriteConstraint_holds hq) h]

theorem indirect_rewrite {i i' : Option Indirect}
    (h : rewriteIndirect? image i = .ok i') :
    i'.map (Indirect.read (pt p) params) = i.map (Indirect.read (pt q) params) := by
  cases i with
  | none =>
    cases h
    rfl
  | some i =>
    obtain ⟨i1, hi, h⟩ := bind_ok h
    cases h
    obtain ⟨cs, hcs, hi⟩ := bind_ok hi
    cases hi
    rw [Option.map_some, Option.map_some, Indirect.read, Indirect.read, values_rewrite hq hcs]

theorem access_rewrite (a a' : Access)
    (h : rewriteAccess image a = .ok a') : AccessAgrees params p q a a' := by
  obtain ⟨cs, hcs, h⟩ := bind_ok h
  obtain ⟨valid, hvalid, h⟩ := bind_ok h
  obtain ⟨ind, hind, h⟩ := bind_ok h
  cases h
  exact ⟨rfl, rfl, rfl, values_rewrite hq hcs, predicate_rewrite hq hvalid,
    indirect_rewrite hq hind⟩

theorem write_rewrite (w w' : Write)
    (h : rewriteWrite image w = .ok w') : WriteAgrees params p q w w' := by
  obtain ⟨cs, hcs, h⟩ := bind_ok h
  obtain ⟨valid, hvalid, h⟩ := bind_ok h
  obtain ⟨ind, hind, h⟩ := bind_ok h
  cases h
  exact ⟨rfl, values_rewrite hq hcs, predicate_rewrite hq hvalid, indirect_rewrite hq hind⟩

end

/-! ## The New Dims -/

variable {factors : List Int64} {splits : List DimSplit}

theorem splitFactors_ok {factors' : List Int64}
    (h : splitFactors factors splits = .ok factors') (hf : ∀ f ∈ factors, 0 ≤ f.toInt) :
    factors'.length = factors.length ∧ ∀ f ∈ factors', 0 ≤ f.toInt := by
  induction splits generalizing factors with
  | nil =>
    cases h
    exact ⟨rfl, hf⟩
  | cons s splits ih =>
    unfold splitFactors at h
    by_cases hbad : factors.length ≤ s.dim ∨ s.factor < 1
    · rw [if_pos hbad] at h
      cases h
    · rw [if_neg hbad] at h
      have hset : ∀ f ∈ factors.set s.dim s.factor, 0 ≤ f.toInt := by
        intro f hmem
        rcases mem_or_eq_of_mem_set hmem with hmem | rfl
        · exact hf f hmem
        · rw [not_or, Int64.lt_iff_toInt_lt, Int64.toInt_one] at hbad
          omega
      obtain ⟨hlen, hall⟩ := ih h hset
      exact ⟨by rw [hlen, length_set], hall⟩

theorem toInt_eq_zero_iff (f : Int64) : f.toInt = 0 ↔ f = 0 := by
  rw [← Int64.toInt_zero, Int64.toInt_inj]

variable {images : List Expr}

/-- The images read the joined point, wherever the new dims begin. -/
theorem splitImages_eval {es : List Int} :
    ∀ {next : Nat}, splitImages next factors = .ok images → factors.length = es.length →
      ∀ (before : List Int) {p : List Int}, before.length = next →
        InBox p (cutExtents (factors.map Int64.toInt) es) →
        images.map (Expr.eval (pt (before ++ p)) params) = join (factors.map Int64.toInt) p := by
  induction factors generalizing images es with
  | nil =>
    intro next h _ before p _ _
    cases h
    rfl
  | cons f factors ih =>
    intro next h hlen before p hbefore hp
    cases es with
    | nil => cases hlen
    | cons e es =>
      unfold splitImages at h
      rw [map_cons] at hp ⊢
      by_cases h0 : f = 0
      · rw [if_pos h0] at h
        rw [cutExtents_whole ((toInt_eq_zero_iff f).mpr h0)] at hp
        obtain ⟨rest, hrest, h⟩ := bind_ok h
        cases h
        cases hp with
        | cons hx hp =>
          rename_i x p
          rw [join_whole ((toInt_eq_zero_iff f).mpr h0), map_cons, Expr.eval_dim]
          have hhere : pt (before ++ x :: p) next = x := by
            rw [pt, ← hbefore, getD_eq_getElem?_getD, getElem?_append_right (by omega),
              Nat.sub_self]
            rfl
          have hsplit : before ++ x :: p = (before ++ [x]) ++ p := by simp
          rw [hhere, hsplit]
          congr 1
          exact ih hrest (Nat.succ.inj hlen) _ (by simp [hbefore]) hp
      · have hne : f.toInt ≠ 0 := fun h => h0 ((toInt_eq_zero_iff f).mp h)
        rw [if_neg h0] at h
        rw [cutExtents_pair hne] at hp
        obtain ⟨scaled, hscaled, h⟩ := bind_ok h
        obtain ⟨here, hadd, h⟩ := bind_ok h
        obtain ⟨rest, hrest, h⟩ := bind_ok h
        cases h
        cases hp with
        | cons hx hp =>
          cases hp with
          | cons hy hp =>
            rename_i x y p
            rw [join_pair hne, map_cons, Expr.eval_mkAdd hadd, Expr.eval_mkScale hscaled,
              Expr.eval_dim, Expr.eval_dim]
            have hfirst : pt (before ++ x :: y :: p) next = x := by
              rw [pt, ← hbefore, getD_eq_getElem?_getD,
                getElem?_append_right (by omega), Nat.sub_self]
              rfl
            have hsecond : pt (before ++ x :: y :: p) (next + 1) = y := by
              rw [pt, ← hbefore, getD_eq_getElem?_getD,
                getElem?_append_right (by omega), Nat.add_sub_cancel_left]
              rfl
            have hsplit : before ++ x :: y :: p = (before ++ [x, y]) ++ p := by simp
            rw [hfirst, hsecond, hsplit]
            congr 1
            exact ih hrest (Nat.succ.inj hlen) _ (by simp [hbefore]) hp

/-- The extents of dims at a point. -/
def extentsAt (dims : List Dim) (p : List Int) (params : Nat → Int) : List Int :=
  dims.map fun d => d.extent.eval (pt p) params

/-- The role of every new dim: a split dim gives its own to both. -/
def splitRoles : List Int64 → List DimRole → List DimRole
  | f :: factors, r :: roles =>
    if f = 0 then r :: splitRoles factors roles else r :: r :: splitRoles factors roles
  | _, _ => []

variable {dims : List Dim}

theorem splitDimList_ok (hq : ReadsAt image params p q)
    {dims' : List Dim} (hf : ∀ f ∈ factors, 0 ≤ f.toInt)
    (hlen : factors.length = dims.length) (h : splitDimList image factors dims = .ok dims') :
    extentsAt dims' p params =
        cutExtents (factors.map Int64.toInt) (extentsAt dims q params) ∧
      dims'.map Dim.role = splitRoles factors (dims.map Dim.role) := by
  induction factors generalizing dims dims' with
  | nil =>
    cases dims with
    | nil =>
      cases h
      exact ⟨rfl, rfl⟩
    | cons d dims => cases hlen
  | cons f factors ih =>
    cases dims with
    | nil => cases hlen
    | cons d dims =>
      have hf' : ∀ g ∈ factors, 0 ≤ g.toInt := fun g hg => hf g (.tail _ hg)
      unfold splitDimList at h
      obtain ⟨extent, hext, h⟩ := bind_ok h
      have hE := rewrite_eval hq hext
      by_cases h0 : f = 0
      · rw [if_pos h0] at h
        obtain ⟨rest, hrest, h⟩ := bind_ok h
        cases h
        obtain ⟨hexts, hroles⟩ := ih hf' (Nat.succ.inj hlen) hrest
        constructor
        · rw [map_cons, extentsAt, extentsAt, map_cons, map_cons,
            cutExtents_whole ((toInt_eq_zero_iff f).mpr h0), hE]
          congr 1
        · rw [map_cons, map_cons, splitRoles, if_pos h0, hroles]
      · have hne : f.toInt ≠ 0 := fun hz => h0 ((toInt_eq_zero_iff f).mp hz)
        rw [if_neg h0] at h
        obtain ⟨whole, hwhole, h⟩ := bind_ok h
        obtain ⟨outer, houter, h⟩ := bind_ok h
        obtain ⟨rest, hrest, h⟩ := bind_ok h
        cases h
        obtain ⟨hexts, hroles⟩ := ih hf' (Nat.succ.inj hlen) hrest
        have hpred : (f - 1).toInt = f.toInt - 1 := by
          have hmax := Int64.toInt_lt f
          have hpos := hf f mem_cons_self
          rw [Int64.toInt_sub, Int64.toInt_one, bmod_of_fits ⟨by omega, by omega⟩]
        have hO : outer.eval (pt p) params =
            (d.extent.eval (pt q) params + (f.toInt - 1)) / f.toInt := by
          rw [Expr.eval_mkFloorDiv houter, Expr.eval_mkAdd hwhole, hE, Expr.eval_const,
            Expr.eval_const, hpred]
        constructor
        · rw [map_cons, extentsAt, extentsAt, map_cons, map_cons, map_cons,
            cutExtents_pair hne, hO, Expr.eval_const]
          congr 2
        · rw [map_cons, map_cons, map_cons, splitRoles, if_neg h0, hroles]

/-- The bounds added to the guard hold where every split coordinate is below its old extent. -/
theorem splitBounds_holds (hq : ReadsAt image params p q)
    {bounds : Predicate} :
    splitBounds image images factors dims = .ok bounds →
      (Predicate.Holds (pt p) params bounds ↔
        BelowSplit (factors.map Int64.toInt) (images.map (Expr.eval (pt p) params))
          (extentsAt dims q params)) := by
  induction images generalizing factors dims bounds with
  | nil =>
    intro h
    unfold splitBounds at h
    cases h
    cases factors <;> simp [BelowSplit, Predicate.Holds]
  | cons e images ih =>
    intro h
    cases factors with
    | nil =>
      unfold splitBounds at h
      cases h
      simp [BelowSplit, Predicate.Holds]
    | cons f factors =>
      cases dims with
      | nil =>
        unfold splitBounds at h
        cases h
        simp [BelowSplit, Predicate.Holds, extentsAt]
      | cons d dims =>
        rw [map_cons, map_cons, extentsAt, map_cons, BelowSplit, Ne,
          toInt_eq_zero_iff]
        unfold splitBounds at h
        by_cases h0 : f = 0
        · rw [if_pos h0] at h
          rw [ih h]
          simp [h0, extentsAt]
        · rw [if_neg h0] at h
          obtain ⟨extent, hext, h⟩ := bind_ok h
          obtain ⟨rest, hrest, h⟩ := bind_ok h
          cases h
          have hcons : Predicate.Holds (pt p) params (⟨e, .lt, extent⟩ :: rest) ↔
              e.eval (pt p) params < extent.eval (pt p) params ∧
                Predicate.Holds (pt p) params rest := by
            unfold Predicate.Holds
            rw [forall_mem_cons]
            rfl
          rw [hcons, ih hrest, rewrite_eval hq hext]
          simp [h0, extentsAt]

/-! ## The Points That Exist -/

/-- A point of the domain: inside the box, and the guard holds there. -/
structure InDomain (d : Domain) (params : Nat → Int) (p : List Int) : Prop where
  box : InBox p (extentsAt d.dims p params)
  guard : Predicate.Holds (pt p) params d.guard

/-- The original point of a point of the split domain. -/
def unsplit (factors : List Int64) (p : List Int) : List Int :=
  join (factors.map Int64.toInt) p

/-- At corresponding points, the two instances compute the same. -/
structure SameAt (params : Nat → Int) (inst out : IndexedInstance) (p q : List Int) : Prop where
  norm : Forall₂ (AccessAgrees params p q) inst.norm out.norm
  withs : Forall₂ (AccessAgrees params p q) inst.withs out.withs
  output : WriteAgrees params p q inst.output out.output

/-- What a split keeps: the points that exist, in their order, what is read and written at
    each, and the role of every dim. -/
structure SplitKeeps (params : Nat → Int) (factors : List Int64)
    (inst out : IndexedInstance) : Prop where
  points : Set.BijOn (unsplit factors) {p | InDomain out.domain params p}
    {q | InDomain inst.domain params q}
  order : ∀ p p', InDomain out.domain params p → InDomain out.domain params p' →
    (p < p' ↔ unsplit factors p < unsplit factors p')
  same : ∀ p, InDomain out.domain params p → SameAt params inst out p (unsplit factors p)
  roles : out.domain.dims.map Dim.role = splitRoles factors (inst.domain.dims.map Dim.role)
  law : out.law = inst.law

theorem accesses_rewrite (hq : ReadsAt image params p q) {as as' : List Access}
    (h : traverse (rewriteAccess image) as = .ok as') :
    Forall₂ (AccessAgrees params p q) as as' := by
  apply Forall₂.imp _ (traverse_ok h)
  intro a a' ha
  exact access_rewrite hq a a' ha

theorem predicate_holds_append {dims : Nat → Int} {P' : Predicate} :
    Predicate.Holds dims params (P ++ P') ↔
      Predicate.Holds dims params P ∧ Predicate.Holds dims params P' := by
  unfold Predicate.Holds
  rw [forall_mem_append]

/-- A point of the new box, read back through the images, is the joined point. -/
theorem reads_unsplit {dims' : List Dim}
    (himage : splitImages 0 factors = .ok image) (hf : ∀ f ∈ factors, 0 ≤ f.toInt)
    (hlen : factors.length = dims.length) (hdims : splitDimList image factors dims = .ok dims')
    (hp : InBox p (extentsAt dims' p params)) :
    ReadsAt image params p (unsplit factors p) ∧
      InBox p (cutExtents (factors.map Int64.toInt)
        (extentsAt dims (unsplit factors p) params)) := by
  have hread : ReadsAt image params p (image.map (Expr.eval (pt p) params)) := rfl
  rw [(splitDimList_ok hread hf hlen hdims).1] at hp
  have hlen' : factors.length =
      (extentsAt dims (image.map (Expr.eval (pt p) params)) params).length := by
    rw [extentsAt, length_map, hlen]
  have hjoin : image.map (Expr.eval (pt p) params) = unsplit factors p :=
    splitImages_eval himage hlen' [] rfl hp
  rw [← hjoin]
  exact ⟨rfl, hp⟩

/-- A point cut by the factors is read back as it was. -/
theorem reads_cut
    (himage : splitImages 0 factors = .ok image) (hf : ∀ f ∈ factors, 0 ≤ f.toInt)
    (hlen : factors.length = dims.length) (hq : InBox q (extentsAt dims q params)) :
    ReadsAt image params (cut (factors.map Int64.toInt) q) q := by
  have hlen' : (factors.map Int64.toInt).length = (extentsAt dims q params).length := by
    rw [extentsAt, length_map, length_map, hlen]
  have hf' : ∀ f ∈ factors.map Int64.toInt, 0 ≤ f := by
    intro f hmem
    obtain ⟨g, hg, rfl⟩ := mem_map.mp hmem
    exact hf g hg
  obtain ⟨hbox, hjoin, -⟩ := inBox_cut hf' hlen' hq
  rw [length_map] at hlen'
  have hread : ReadsAt image params (cut (factors.map Int64.toInt) q) _ :=
    splitImages_eval himage hlen' [] rfl hbox
  rw [hjoin] at hread
  exact hread

/-- The split instance has the original's points in the original's order, and computes the same
    at each. -/
theorem splitDims_keeps {inst out : IndexedInstance}
    (params : Nat → Int) (h : splitDims inst splits = .ok out) :
    ∃ factors, splitFactors (replicate inst.domain.dims.length 0) splits = .ok factors ∧
      SplitKeeps params factors inst out := by
  obtain ⟨factors, hfactors, h⟩ := bind_ok h
  obtain ⟨image, himage, h⟩ := bind_ok h
  obtain ⟨dims, hdims, h⟩ := bind_ok h
  obtain ⟨ps, -, h⟩ := bind_ok h
  obtain ⟨constraints, -, h⟩ := bind_ok h
  obtain ⟨guard, hguard, h⟩ := bind_ok h
  obtain ⟨bounds, hbounds, h⟩ := bind_ok h
  obtain ⟨norm, hnorm, h⟩ := bind_ok h
  obtain ⟨withs, hwiths, h⟩ := bind_ok h
  obtain ⟨output, houtput, h⟩ := bind_ok h
  cases h
  have hzero : ∀ f ∈ replicate inst.domain.dims.length (0 : Int64), 0 ≤ f.toInt := by
    intro f hf
    rw [eq_of_mem_replicate hf]
    decide
  obtain ⟨hlen, hf⟩ := splitFactors_ok hfactors hzero
  rw [length_replicate] at hlen
  have hf' : ∀ f ∈ factors.map Int64.toInt, 0 ≤ f := by
    intro f hmem
    obtain ⟨g, hg, rfl⟩ := mem_map.mp hmem
    exact hf g hg
  have hlen' : ∀ q : List Int,
      (factors.map Int64.toInt).length = (extentsAt inst.domain.dims q params).length := by
    intro q
    rw [extentsAt, length_map, length_map, hlen]
  -- the new guard at a point is the old one at the original point, and the old bounds
  have hguardAt : ∀ p q : List Int, ReadsAt image params p q →
      (Predicate.Holds (pt p) params (guard ++ bounds) ↔
        Predicate.Holds (pt q) params inst.domain.guard ∧
          BelowSplit (factors.map Int64.toInt) q (extentsAt inst.domain.dims q params)) := by
    intro p q hq
    rw [predicate_holds_append, predicate_rewrite hq hguard, splitBounds_holds hq hbounds]
    rw [show image.map (Expr.eval (pt p) params) = q from hq]
  refine ⟨factors, hfactors, ⟨⟨?_, ?_, ?_⟩, ?_, ?_, ?_, rfl⟩⟩
  · -- into the original domain
    intro p hp
    obtain ⟨hread, hbox⟩ := reads_unsplit himage hf hlen hdims hp.box
    obtain ⟨hg, hbelow⟩ := (hguardAt p _ hread).mp hp.guard
    exact ⟨(inBox_join hf' (hlen' _) hbox).2 hbelow, hg⟩
  · -- one-to-one
    intro p hp p' hp' heq
    obtain ⟨-, hbox⟩ := reads_unsplit himage hf hlen hdims hp.box
    obtain ⟨-, hbox'⟩ := reads_unsplit himage hf hlen hdims hp'.box
    have hback := (inBox_join hf' (hlen' _) hbox).1
    have hback' := (inBox_join hf' (hlen' _) hbox').1
    have heq' : join (factors.map Int64.toInt) p = join (factors.map Int64.toInt) p' := heq
    rw [← hback, ← hback', heq']
  · -- onto it: the point is cut
    intro q hq
    obtain ⟨hbox, hjoin, hbelow⟩ := inBox_cut hf' (hlen' q) hq.box
    have hread := reads_cut himage hf hlen hq.box
    refine ⟨cut (factors.map Int64.toInt) q, ⟨?_, ?_⟩, hjoin⟩
    · show InBox _ (extentsAt dims _ params)
      rw [(splitDimList_ok hread hf hlen hdims).1]
      exact hbox
    · exact (hguardAt _ q hread).mpr ⟨hq.guard, hbelow⟩
  · intro p p' hp hp'
    obtain ⟨-, hbox⟩ := reads_unsplit himage hf hlen hdims hp.box
    obtain ⟨-, hbox'⟩ := reads_unsplit himage hf hlen hdims hp'.box
    exact join_lt_iff (hlen' _) (hlen' _) hbox hbox'
  · intro p hp
    obtain ⟨hread, -⟩ := reads_unsplit himage hf hlen hdims hp.box
    exact ⟨accesses_rewrite hread hnorm, accesses_rewrite hread hwiths,
      write_rewrite hread _ _ houtput⟩
  · have hread : ReadsAt image params [] (image.map (Expr.eval (pt []) params)) := rfl
    exact (splitDimList_ok hread hf hlen hdims).2

/-! ## What a Split Can Fail On -/

namespace Expr

/-- What the first operand of a product can be. -/
def IsFactor : Expr → Prop
  | const _ | param _ => True
  | _ => False

def IsDivisor : Expr → Prop
  | const d => 0 < d.toInt
  | param _ => True
  | _ => False

/-- An expression a pool can hold, over `n` dims. -/
def Formed (n : Nat) : Expr → Prop
  | const _ | param _ => True
  | dim d => d < n
  | add l r => l.Formed n ∧ r.Formed n
  | mul l r => l.IsFactor ∧ l.Formed n ∧ r.Formed n
  | floorDiv l r => r.IsDivisor ∧ l.Formed n ∧ r.Formed n
  | mod l r => r.IsDivisor ∧ l.Formed n ∧ r.Formed n

end Expr

/-- The computation fails only where a constant does not fit 64 bits. -/
def OnlyOverflows {α : Type} (x : Except BuildError α) : Prop :=
  ∀ e, x = .error e → e = overflows

theorem OnlyOverflows.ok (a : α) : OnlyOverflows (.ok a) := by
  intro e h
  cases h

theorem OnlyOverflows.bind {α β : Type} {x : Except BuildError α} {f : α → Except BuildError β}
    (hx : OnlyOverflows x) (hf : ∀ a, x = .ok a → OnlyOverflows (f a)) :
    OnlyOverflows (x >>= f) := by
  cases x with
  | error e =>
    intro e' h
    cases h
    exact hx e rfl
  | ok a => exact hf a rfl

theorem onlyOverflows_checkedAdd (a b : Int64) : OnlyOverflows (checkedAdd a b) := by
  unfold checkedAdd
  by_cases hfit : Fits (a.toInt + b.toInt)
  · rw [if_pos hfit]
    exact OnlyOverflows.ok _
  · rw [if_neg hfit]
    intro e h
    cases h
    rfl

theorem onlyOverflows_checkedMul (a b : Int64) : OnlyOverflows (checkedMul a b) := by
  unfold checkedMul
  by_cases hfit : Fits (a.toInt * b.toInt)
  · rw [if_pos hfit]
    exact OnlyOverflows.ok _
  · rw [if_neg hfit]
    intro e h
    cases h
    rfl

theorem onlyOverflows_addConst (c : Int64) (e : Expr) : OnlyOverflows (Expr.addConst c e) := by
  fun_induction Expr.addConst c e with
  | case1 c v => exact (onlyOverflows_checkedAdd v c).bind fun _ _ => OnlyOverflows.ok _
  | case2 x c1 => exact OnlyOverflows.ok _
  | case3 c x c1 hc ih => exact (onlyOverflows_checkedAdd c1 c).bind fun a _ => ih a
  | case4 e h1 h2 => exact OnlyOverflows.ok _
  | case5 c e h1 h2 hc => exact OnlyOverflows.ok _

theorem onlyOverflows_mkAdd (l e : Expr) : OnlyOverflows (Expr.mkAdd l e) := by
  fun_cases Expr.mkAdd l e with
  | case1 a b => exact (onlyOverflows_checkedAdd a b).bind fun _ _ => OnlyOverflows.ok _
  | case2 e hne => exact OnlyOverflows.ok _
  | case3 a e hne ha => exact onlyOverflows_addConst _ _
  | case4 e b hne => exact onlyOverflows_addConst _ _
  | case5 l e h1 h2 h3 => exact OnlyOverflows.ok _

theorem onlyOverflows_mkScale (c : Int64) (e : Expr) : OnlyOverflows (Expr.mkScale c e) := by
  fun_induction Expr.mkScale c e with
  | case1 c v => exact (onlyOverflows_checkedMul c v).bind fun _ _ => OnlyOverflows.ok _
  | case2 c2 x => exact OnlyOverflows.ok _
  | case3 c2 x => exact OnlyOverflows.ok _
  | case4 c c2 x h0 h1 ih => exact (onlyOverflows_checkedMul c c2).bind fun a _ => ih a
  | case5 e h1 h2 => exact OnlyOverflows.ok _
  | case6 e h1 h2 => exact OnlyOverflows.ok _
  | case7 c e h1 h2 h3 h4 => exact OnlyOverflows.ok _

theorem onlyOverflows_mkMul {l : Expr} (hl : l.IsFactor) (e : Expr) :
    OnlyOverflows (Expr.mkMul l e) := by
  cases l with
  | const c => exact onlyOverflows_mkScale c e
  | param p =>
    show OnlyOverflows (Expr.scaleByParam p e)
    fun_cases Expr.scaleByParam p e with
    | case1 => exact OnlyOverflows.ok _
    | case2 v hv => exact onlyOverflows_mkScale v _
    | case3 e hne => exact OnlyOverflows.ok _
  | dim _ | add _ _ | mul _ _ | floorDiv _ _ | mod _ _ => cases hl

variable {e : Expr}

theorem requireDivisor_of_isDivisor (h : e.IsDivisor) :
    Expr.requireDivisor e = .ok () := by
  cases e with
  | const d =>
    have hpos : 0 < d.toInt := h
    have hnot : ¬ d ≤ 0 := by
      rw [Int64.le_iff_toInt_le, Int64.toInt_zero]
      omega
    simp [Expr.requireDivisor, hnot]
  | param p => rfl
  | dim _ | add _ _ | mul _ _ | floorDiv _ _ | mod _ _ => cases h

theorem onlyOverflows_mkFloorDiv (l : Expr) (h : e.IsDivisor) :
    OnlyOverflows (Expr.mkFloorDiv l e) := by
  rw [Expr.mkFloorDiv_eq, requireDivisor_of_isDivisor h]
  exact OnlyOverflows.ok _

theorem onlyOverflows_mkMod (l : Expr) (h : e.IsDivisor) :
    OnlyOverflows (Expr.mkMod l e) := by
  rw [Expr.mkMod_eq, requireDivisor_of_isDivisor h]
  exact OnlyOverflows.ok _

theorem rewrite_of_isFactor {e' : Expr} (h : e.IsFactor) (hr : rewrite image e = .ok e') :
    e' = e := by
  cases e with
  | const c =>
    cases hr
    rfl
  | param p =>
    cases hr
    rfl
  | dim _ | add _ _ | mul _ _ | floorDiv _ _ | mod _ _ => cases h

theorem Expr.IsDivisor.isFactor (h : e.IsDivisor) : e.IsFactor := by
  cases e with
  | const _ | param _ => trivial
  | dim _ | add _ _ | mul _ _ | floorDiv _ _ | mod _ _ => cases h

theorem onlyOverflows_rewrite (h : e.Formed image.length) :
    OnlyOverflows (rewrite image e) := by
  induction e with
  | const c => exact OnlyOverflows.ok _
  | param p => exact OnlyOverflows.ok _
  | dim d =>
    have hd : image[d]? = some image[d] := getElem?_eq_getElem h
    unfold rewrite
    rw [hd]
    exact OnlyOverflows.ok _
  | add l r ihl ihr =>
    exact (ihl h.1).bind fun l' _ => (ihr h.2).bind fun r' _ => onlyOverflows_mkAdd l' r'
  | mul l r ihl ihr =>
    apply (ihl h.2.1).bind
    intro l' hl
    apply (ihr h.2.2).bind
    intro r' _
    rw [rewrite_of_isFactor h.1 hl]
    exact onlyOverflows_mkMul h.1 r'
  | floorDiv l r ihl ihr =>
    apply (ihl h.2.1).bind
    intro l' _
    apply (ihr h.2.2).bind
    intro r' hr
    rw [rewrite_of_isFactor h.1.isFactor hr]
    exact onlyOverflows_mkFloorDiv l' h.1
  | mod l r ihl ihr =>
    apply (ihl h.2.1).bind
    intro l' _
    apply (ihr h.2.2).bind
    intro r' hr
    rw [rewrite_of_isFactor h.1.isFactor hr]
    exact onlyOverflows_mkMod l' h.1

theorem onlyOverflows_traverse
    (h : ∀ a ∈ as, OnlyOverflows (f a)) : OnlyOverflows (traverse f as) := by
  induction as with
  | nil => exact OnlyOverflows.ok _
  | cons a as ih =>
    apply (h a mem_cons_self).bind
    intro b _
    apply (ih fun a ha => h a (.tail _ ha)).bind
    intro bs _
    exact OnlyOverflows.ok _

def CoordsFormed (n : Nat) (coords : List (Option Expr)) : Prop :=
  ∀ c ∈ coords, ∀ e, c = some e → e.Formed n

def Predicate.Formed (n : Nat) (P : Predicate) : Prop :=
  ∀ c ∈ P, c.lhs.Formed n ∧ c.rhs.Formed n

def IndirectFormed (n : Nat) (indirect : Option Indirect) : Prop :=
  ∀ i, indirect = some i → CoordsFormed n i.indexCoords

/-- The expressions of the instance are formed over `n` dims. -/
structure IndexedInstance.Formed (n : Nat) (inst : IndexedInstance) : Prop where
  dims : ∀ d ∈ inst.domain.dims, d.extent.Formed n
  params : ∀ p ∈ inst.domain.params, ∀ e, p.definition = some e → e.Formed n
  constraints : inst.domain.constraints.Formed n
  guard : inst.domain.guard.Formed n
  accesses : ∀ a, a ∈ inst.norm ∨ a ∈ inst.withs →
    CoordsFormed n a.coords ∧ a.valid.Formed n ∧ IndirectFormed n a.indirect
  output : CoordsFormed n inst.output.coords ∧ inst.output.valid.Formed n ∧
    IndirectFormed n inst.output.indirect

/-- What `validate` asks of the expressions: every dim is one of the domain's, and every divisor
    a positive constant or a parameter. The pool builds no product without a factor. -/
def IndexedInstance.Validated (inst : IndexedInstance) : Prop :=
  inst.Formed inst.domain.dims.length

theorem onlyOverflows_rewriteOption {e : Option Expr}
    (h : ∀ x, e = some x → x.Formed image.length) : OnlyOverflows (rewriteOption image e) := by
  cases e with
  | none => exact OnlyOverflows.ok _
  | some e => exact (onlyOverflows_rewrite (h e rfl)).bind fun _ _ => OnlyOverflows.ok _

theorem onlyOverflows_coords {cs : List (Option Expr)} (h : CoordsFormed image.length cs) :
    OnlyOverflows (traverse (rewriteOption image) cs) :=
  onlyOverflows_traverse fun c hc => onlyOverflows_rewriteOption (h c hc)

theorem onlyOverflows_predicate (h : P.Formed image.length) :
    OnlyOverflows (traverse (rewriteConstraint image) P) := by
  apply onlyOverflows_traverse
  intro c hc
  exact (onlyOverflows_rewrite (h c hc).1).bind fun _ _ =>
    (onlyOverflows_rewrite (h c hc).2).bind fun _ _ => OnlyOverflows.ok _

theorem onlyOverflows_indirect {i : Option Indirect} (h : IndirectFormed image.length i) :
    OnlyOverflows (rewriteIndirect? image i) := by
  cases i with
  | none => exact OnlyOverflows.ok _
  | some i =>
    apply OnlyOverflows.bind _ fun _ _ => OnlyOverflows.ok _
    exact (onlyOverflows_coords (h i rfl)).bind fun _ _ => OnlyOverflows.ok _

theorem onlyOverflows_access {a : Access} (hc : CoordsFormed image.length a.coords)
    (hv : a.valid.Formed image.length) (hi : IndirectFormed image.length a.indirect) :
    OnlyOverflows (rewriteAccess image a) :=
  (onlyOverflows_coords hc).bind fun _ _ => (onlyOverflows_predicate hv).bind fun _ _ =>
    (onlyOverflows_indirect hi).bind fun _ _ => OnlyOverflows.ok _

theorem onlyOverflows_write {w : Write} (hc : CoordsFormed image.length w.coords)
    (hv : w.valid.Formed image.length) (hi : IndirectFormed image.length w.indirect) :
    OnlyOverflows (rewriteWrite image w) :=
  (onlyOverflows_coords hc).bind fun _ _ => (onlyOverflows_predicate hv).bind fun _ _ =>
    (onlyOverflows_indirect hi).bind fun _ _ => OnlyOverflows.ok _

theorem onlyOverflows_splitImages :
    ∀ next : Nat, OnlyOverflows (splitImages next factors) := by
  induction factors with
  | nil => exact fun _ => OnlyOverflows.ok _
  | cons f factors ih =>
    intro next
    unfold splitImages
    by_cases h0 : f = 0
    · rw [if_pos h0]
      exact (ih (next + 1)).bind fun _ _ => OnlyOverflows.ok _
    · rw [if_neg h0]
      exact (onlyOverflows_mkScale f _).bind fun _ _ => (onlyOverflows_mkAdd _ _).bind fun _ _ =>
        (ih (next + 2)).bind fun _ _ => OnlyOverflows.ok _

theorem length_splitImages :
    ∀ {next : Nat}, splitImages next factors = .ok images → images.length = factors.length := by
  induction factors generalizing images with
  | nil =>
    intro next h
    cases h
    rfl
  | cons f factors ih =>
    intro next h
    unfold splitImages at h
    by_cases h0 : f = 0
    · rw [if_pos h0] at h
      obtain ⟨rest, hrest, h⟩ := bind_ok h
      cases h
      rw [length_cons, length_cons, ih hrest]
    · rw [if_neg h0] at h
      obtain ⟨scaled, -, h⟩ := bind_ok h
      obtain ⟨here, -, h⟩ := bind_ok h
      obtain ⟨rest, hrest, h⟩ := bind_ok h
      cases h
      rw [length_cons, length_cons, ih hrest]

theorem onlyOverflows_splitDimList
    (hf : ∀ f ∈ factors, 0 ≤ f.toInt) (h : ∀ d ∈ dims, d.extent.Formed image.length) :
    OnlyOverflows (splitDimList image factors dims) := by
  induction factors generalizing dims with
  | nil =>
    unfold splitDimList
    exact OnlyOverflows.ok _
  | cons f factors ih =>
    cases dims with
    | nil =>
      unfold splitDimList
      exact OnlyOverflows.ok _
    | cons d dims =>
      have hrest := ih (fun g hg => hf g (.tail _ hg))
        (fun d hd => h d (.tail _ hd))
      unfold splitDimList
      apply (onlyOverflows_rewrite (h d mem_cons_self)).bind
      intro extent _
      by_cases h0 : f = 0
      · rw [if_pos h0]
        exact hrest.bind fun _ _ => OnlyOverflows.ok _
      · have hdiv : (Expr.const f).IsDivisor := by
          have hpos := hf f mem_cons_self
          have hne : f.toInt ≠ 0 := fun hz => h0 ((toInt_eq_zero_iff f).mp hz)
          show 0 < f.toInt
          omega
        rw [if_neg h0]
        exact (onlyOverflows_mkAdd _ _).bind fun _ _ => (onlyOverflows_mkFloorDiv _ hdiv).bind
          fun _ _ => hrest.bind fun _ _ => OnlyOverflows.ok _

theorem onlyOverflows_splitBounds
    (h : ∀ d ∈ dims, d.extent.Formed image.length) :
    OnlyOverflows (splitBounds image images factors dims) := by
  induction images generalizing factors dims with
  | nil =>
    unfold splitBounds
    exact OnlyOverflows.ok _
  | cons e images ih =>
    cases factors with
    | nil =>
      unfold splitBounds
      exact OnlyOverflows.ok _
    | cons f factors =>
      cases dims with
      | nil =>
        unfold splitBounds
        exact OnlyOverflows.ok _
      | cons d dims =>
        have hrest : OnlyOverflows (splitBounds image images factors dims) :=
          ih fun d hd => h d (.tail _ hd)
        unfold splitBounds
        by_cases h0 : f = 0
        · rw [if_pos h0]
          exact hrest
        · rw [if_neg h0]
          exact (onlyOverflows_rewrite (h d mem_cons_self)).bind fun _ _ =>
            hrest.bind fun _ _ => OnlyOverflows.ok _

/-- Splits of dims the domain has, by factors from 1 on. -/
def SplitsInRange (n : Nat) (splits : List DimSplit) : Prop :=
  ∀ s ∈ splits, s.dim < n ∧ 1 ≤ s.factor.toInt

theorem splitFactors_of_inRange :
    ∀ {factors : List Int64}, SplitsInRange factors.length splits →
      ∃ factors', splitFactors factors splits = .ok factors' := by
  induction splits with
  | nil => exact fun {factors} _ => ⟨factors, rfl⟩
  | cons s splits ih =>
    intro factors h
    obtain ⟨hdim, hfactor⟩ := h s mem_cons_self
    have hgood : ¬ (factors.length ≤ s.dim ∨ s.factor < 1) := by
      rw [Int64.lt_iff_toInt_lt, Int64.toInt_one]
      omega
    unfold splitFactors
    rw [if_neg hgood]
    apply ih
    rw [length_set]
    exact fun t ht => h t (.tail _ ht)

/-- A split of a validated instance fails only where a constant does not fit 64 bits. -/
theorem onlyOverflows_splitDims {inst : IndexedInstance}
    (hv : inst.Validated) (hs : SplitsInRange inst.domain.dims.length splits) :
    OnlyOverflows (splitDims inst splits) := by
  have hs' : SplitsInRange (replicate inst.domain.dims.length (0 : Int64)).length splits := by
    rw [length_replicate]
    exact hs
  have hzero : ∀ f ∈ replicate inst.domain.dims.length (0 : Int64), 0 ≤ f.toInt := by
    intro f hf
    rw [eq_of_mem_replicate hf]
    decide
  have hfactors : OnlyOverflows
      (splitFactors (replicate inst.domain.dims.length (0 : Int64)) splits) := by
    obtain ⟨factors, h⟩ := splitFactors_of_inRange hs'
    rw [h]
    exact OnlyOverflows.ok _
  apply hfactors.bind
  intro factors hok
  obtain ⟨hlen, hf⟩ := splitFactors_ok hok hzero
  rw [length_replicate] at hlen
  apply (onlyOverflows_splitImages 0).bind
  intro image himage
  have hn : inst.domain.dims.length = image.length := by
    rw [length_splitImages himage, hlen]
  unfold IndexedInstance.Validated at hv
  rw [hn] at hv
  apply (onlyOverflows_splitDimList hf hv.dims).bind
  intro dims _
  apply OnlyOverflows.bind
  · apply onlyOverflows_traverse
    intro p hp
    exact (onlyOverflows_rewriteOption (hv.params p hp)).bind fun _ _ => OnlyOverflows.ok _
  intro params _
  apply (onlyOverflows_predicate hv.constraints).bind
  intro constraints _
  apply (onlyOverflows_predicate hv.guard).bind
  intro guard _
  apply (onlyOverflows_splitBounds hv.dims).bind
  intro bounds _
  have haccess : ∀ a, a ∈ inst.norm ∨ a ∈ inst.withs → OnlyOverflows (rewriteAccess image a) := by
    intro a ha
    obtain ⟨hc, hvalid, hi⟩ := hv.accesses a ha
    exact onlyOverflows_access hc hvalid hi
  apply (onlyOverflows_traverse fun a ha => haccess a (.inl ha)).bind
  intro norm _
  apply (onlyOverflows_traverse fun a ha => haccess a (.inr ha)).bind
  intro withs _
  apply (onlyOverflows_write hv.output.1 hv.output.2.1 hv.output.2.2).bind
  intro output _
  exact OnlyOverflows.ok _

/-! ## Every Split -/

/-- A row of ten elements, each read where it is written. -/
def tenWide : IndexedInstance :=
  { domain := { dims := [{ name := "d0", extent := .const 10 }] },
    norm := [affine [.dim 0]],
    output := { coords := [some (.dim 0)] } }

theorem tenWide_validated : tenWide.Validated := by
  constructor <;> simp [tenWide, affine, Expr.Formed, Predicate.Formed, CoordsFormed,
    IndirectFormed]

end Camel.Index
