import Camel.Index.PoolClient
import Camel.Lib.AffineForms

/-! # Affine Coordinates

    `affine` reads an expression as a constant and a coefficient for each dim, the parameters
    replaced by their values, and gives up where it is none; `rowMajorView` puts the forms of an
    access together to an offset and strides. What they accept is what evaluation gives.
-/

namespace Camel.Index

open Lib List

/-- constant + sum of coeffs[d] * dim d. -/
structure AffineForm where
  constant : Int64 := 0
  coeffs : List Int64

/-- The offset and the strides of an access to a row-major operand. -/
structure StridedView where
  offset : Int64 := 0
  strides : List Int64

/-! ## The Forms -/

variable (pool : ExprPool) (dimCount : Nat)

/-- The form of a value that depends on no dim. -/
def fixedForm (value : Int64) : AffineForm := ⟨value, List.replicate dimCount 0⟩

/-- The coefficients of a sum. -/
def addCoeffs : List Int64 → List Int64 → Except EvalFault (List Int64)
  | a :: as, b :: bs => do
    let sum ← inEvaluation (checkedAdd a b)
    let rest ← addCoeffs as bs
    return sum :: rest
  | _, _ => .ok []

/-- The coefficients of a multiple. -/
def scaleCoeffs (factor : Int64) : List Int64 → Except EvalFault (List Int64)
  | a :: as => do
    let product ← inEvaluation (checkedMul factor a)
    let rest ← scaleCoeffs factor as
    return product :: rest
  | [] => .ok []

def addForms (a b : AffineForm) : Except EvalFault (Option AffineForm) := do
  let constant ← inEvaluation (checkedAdd a.constant b.constant)
  let coeffs ← addCoeffs a.coeffs b.coeffs
  return some ⟨constant, coeffs⟩

def scaleForm (factor : Int64) (b : AffineForm) : Except EvalFault (Option AffineForm) := do
  let constant ← inEvaluation (checkedMul factor b.constant)
  let coeffs ← scaleCoeffs factor b.coeffs
  return some ⟨constant, coeffs⟩

def dimForm (dimCount position : Nat) : Except EvalFault (Option AffineForm) :=
  if position < dimCount then .ok (some ⟨0, (List.replicate dimCount 0).set position 1⟩)
  else .error .dimOutside

def paramForm (params : List (Option Int64)) (position : Nat) :
    Except EvalFault (Option AffineForm) :=
  match params[position]? with
  | some (some v) => .ok (some (fixedForm dimCount v))
  | some none => .ok none
  | none => .error .paramOutside

/-- The form of a quotient or remainder that depends on no dim; what makes an argument invalid
    is caught. -/
def valueForm : Except EvalFault Int64 → Except EvalFault (Option AffineForm)
  | .ok v => .ok (some (fixedForm dimCount v))
  | .error (.unknownParam _) => .ok none
  | .error .notPositive => .ok none
  | .error fault => .error fault

/-- Two forms put together, where there are both. -/
def bothForms (a b : Option AffineForm)
    (f : AffineForm → AffineForm → Except EvalFault (Option AffineForm)) :
    Except EvalFault (Option AffineForm) :=
  match a, b with
  | some a, some b => f a b
  | _, _ => .ok none

namespace ExprPool

def mentionsDimWithin (pool : ExprPool) : Nat → ExprId → Bool
  | 0, _ => false
  | fuel + 1, id =>
    match pool.exprs[id]? with
    | none => false
    | some e =>
      match e.op with
      | .dim => true
      | .const | .param => false
      | .add | .mul | .floorDiv | .mod =>
        pool.mentionsDimWithin fuel e.lhs || pool.mentionsDimWithin fuel e.rhs

def mentionsDim (id : ExprId) : Bool := pool.mentionsDimWithin (id + 1) id

def affineWithin (pool : ExprPool) (dimCount : Nat) (params : List (Option Int64)) :
    Nat → ExprId → Except EvalFault (Option AffineForm)
  | 0, _ => .error .exprOutside
  | fuel + 1, id =>
    match pool.exprs[id]? with
    | none => .error .exprOutside
    | some e =>
      match e.op with
      | .const => .ok (some (fixedForm dimCount e.value))
      | .dim => dimForm dimCount e.value.toUInt64.toNat
      | .param => paramForm dimCount params e.value.toUInt64.toNat
      | .add => do
        let a ← pool.affineWithin dimCount params fuel e.lhs
        let b ← pool.affineWithin dimCount params fuel e.rhs
        bothForms a b addForms
      | .mul => do
        -- a constant once the parameters are known
        let factor ← pool.affineWithin dimCount params fuel e.lhs
        let b ← pool.affineWithin dimCount params fuel e.rhs
        bothForms factor b fun factor b => scaleForm factor.constant b
      | .floorDiv | .mod =>
        -- affine only when nothing under it depends on a dim
        if pool.mentionsDimWithin fuel e.lhs then .ok none
        else valueForm dimCount (pool.evaluateWithin [] params (fuel + 1) id)

def affine (params : List (Option Int64)) (id : ExprId) :
    Except EvalFault (Option AffineForm) :=
  pool.affineWithin dimCount params (id + 1) id

/-- The form of what a slot names. -/
def affineSlot (params : List (Option Int64)) :
    Option ExprId → Except EvalFault (Option AffineForm)
  | some id => pool.affine dimCount params id
  | none => .error .exprOutside

/-- The value of what a slot names. -/
def evaluateSlot (point : List Int64) (params : List (Option Int64)) :
    Option ExprId → Except EvalFault Int64
  | some id => pool.evaluate point params id
  | none => .error .exprOutside

/-- The tree of what a slot names. -/
def SlotDenotes (slot : Option ExprId) (e : Expr) : Prop :=
  ∃ id, slot = some id ∧ pool.Denotes id e

end ExprPool

/-- One turn of the loop of `rowMajorView`, at an axis of this form and extent. -/
def viewStep (form : AffineForm) (extent : Int64) (view : StridedView) (stride : Int64) :
    Except EvalFault (StridedView × Int64) := do
  let scaled ← inEvaluation (checkedMul stride form.constant)
  let offset ← inEvaluation (checkedAdd view.offset scaled)
  let steps ← scaleCoeffs stride form.coeffs
  let strides ← addCoeffs view.strides steps
  let next ← inEvaluation (checkedMul stride extent)
  return (⟨offset, strides⟩, next)

/-- The loop of `rowMajorView`, from the last axis to the first: the view so far and the stride
    of the next axis. -/
def viewOf (affine : Option ExprId → Except EvalFault (Option AffineForm)) (dimCount : Nat) :
    List (Option ExprId) → List Int64 → Except EvalFault (Option (StridedView × Int64))
  | c :: coords, extent :: shape => do
    match ← viewOf affine dimCount coords shape with
    | none => return none
    | some (view, stride) =>
      match ← affine c with
      | none => return none
      | some form => return some (← viewStep form extent view stride)
  | _, _ => .ok (some (⟨0, List.replicate dimCount 0⟩, 1))

/-- An overflow on the way is no view. -/
def rowMajorView (inst : Pooled.IndexedInstance) (access : Pooled.Access) (shape : List Int64) :
    Except EvalFault (Option StridedView) :=
  if access.kind ≠ .affine ∨ access.coords.length ≠ shape.length then .ok none
  else
    match viewOf (inst.exprs.affineSlot inst.domain.dims.length inst.paramValues)
        inst.domain.dims.length access.coords shape with
    | .ok found => .ok (found.map (·.1))
    | .error .overflow => .ok none
    | .error fault => .error fault

/-! ## Evaluation on the Integers -/

/-- The coordinates of a point. -/
def coordAt (point : List Int64) : Nat → Int := fun d => (point.getD d 0).toInt

/-- The values of the parameters that are known. -/
def knownAt (params : List (Option Int64)) : Nat → Int := fun p => ((params.getD p none).getD 0).toInt

variable {e : Expr} {form : AffineForm} {coords : List (Option ExprId)} {dimCount : Nat}
  {params : List (Option Int64)}

namespace Expr

variable {dims : List Int64} {params : List (Option Int64)} {v : Int64}

theorem toInt_floorDivide_pos {a d : Int64} (hd : 0 < d.toInt) :
    (floorDivide a d).toInt = a.toInt / d.toInt := by
  by_cases hone : d = 1
  · rw [hone, floorDivide_one, Int64.toInt_one, Int.ediv_one]
  · have hne : d.toInt ≠ 1 := fun h => hone (Int64.toInt_inj.1 (h.trans Int64.toInt_one.symm))
    exact toInt_floorDivide (by omega)

/-- What an evaluation gives is the value on the integers. -/
theorem evaluate_toInt (h : e.evaluate dims params = .ok v) :
    v.toInt = e.eval (coordAt dims) (knownAt params) := by
  induction e generalizing v with
  | const c =>
    rw [← evaluate_const.1 h]
    rfl
  | dim d =>
    unfold evaluate dimValue at h
    split at h
    · next found =>
      cases h
      rw [eval_dim, coordAt, getD_eq_getElem?_getD, found]
      rfl
    · cases h
  | param p =>
    unfold evaluate paramValue at h
    split at h
    · next found =>
      cases h
      rw [eval_param, knownAt, getD_eq_getElem?_getD, found]
      rfl
    · cases h
    · cases h
  | add l r ihl ihr =>
    obtain ⟨a, b, ha, hb, hv⟩ := evaluate_add.1 h
    rw [hv, ihl ha, ihr hb, eval_add]
  | mul l r ihl ihr =>
    obtain ⟨a, b, ha, hb, hv⟩ := evaluate_mul.1 h
    rw [hv, ihl ha, ihr hb, eval_mul]
  | floorDiv l r ihl ihr =>
    obtain ⟨a, d, ha, hd, hpos, rfl⟩ := evaluate_floorDiv.1 h
    rw [toInt_floorDivide_pos hpos, ihl ha, ihr hd, eval_floorDiv]
  | mod l r ihl ihr =>
    obtain ⟨a, d, ha, hd, hpos, rfl⟩ := evaluate_mod.1 h
    rw [toInt_floorModulo hpos, ihl ha, ihr hd, eval_mod]

/-- What mentions no dim evaluates the same at every point. -/
theorem evaluate_of_not_mentionsDim (h : e.mentionsDim = false) (dims' : List Int64) :
    e.evaluate dims params = e.evaluate dims' params := by
  induction e with
  | const v => rfl
  | param p => rfl
  | dim d => cases h
  | add l r ihl ihr | mul l r ihl ihr | floorDiv l r ihl ihr | mod l r ihl ihr =>
    simp only [mentionsDim, Bool.or_eq_false_iff] at h
    simp only [evaluate]
    rw [ihl h.1, ihr h.2]

end Expr

/-- The evaluation can only overflow. -/
def OnlyOverflow {α : Type} (x : Except EvalFault α) : Prop := ∀ fault, x = .error fault → fault = .overflow

theorem OnlyOverflow.ok {α : Type} (a : α) : OnlyOverflow (.ok a) := nofun

theorem onlyOverflow_inEvaluation {α : Type} (x : Except BuildError α) :
    OnlyOverflow (inEvaluation x) := by
  intro fault h
  cases x with
  | ok a => cases h
  | error err =>
    cases h
    rfl

theorem OnlyOverflow.bind {α β : Type} {x : Except EvalFault α} {f : α → Except EvalFault β}
    (h : OnlyOverflow x) (hf : ∀ a, x = .ok a → OnlyOverflow (f a)) : OnlyOverflow (x >>= f) := by
  cases x with
  | ok a => exact hf a rfl
  | error err =>
    intro fault hfault
    cases hfault
    exact h err rfl

/-! ## A Form Gives the Value -/

theorem addCoeffs_ok {as bs cs : List Int64} (h : addCoeffs as bs = .ok cs) :
    cs.map Int64.toInt = zipWith (· + ·) (as.map Int64.toInt) (bs.map Int64.toInt) := by
  induction as generalizing bs cs with
  | nil =>
    cases h
    rfl
  | cons a as ih =>
    cases bs with
    | nil =>
      cases h
      rfl
    | cons b bs =>
      rw [addCoeffs, eval_bind_ok] at h
      obtain ⟨sum, hsum, h⟩ := h
      obtain ⟨rest, hrest, h⟩ := eval_bind_ok.1 h
      cases h
      rw [map_cons, map_cons, map_cons, zipWith_cons_cons, ih hrest,
        checkedAdd_ok (inEvaluation_ok.1 hsum)]

theorem scaleCoeffs_ok {factor : Int64} {as cs : List Int64} (h : scaleCoeffs factor as = .ok cs) :
    cs.map Int64.toInt = (as.map Int64.toInt).map (factor.toInt * ·) := by
  induction as generalizing cs with
  | nil =>
    cases h
    rfl
  | cons a as ih =>
    rw [scaleCoeffs, eval_bind_ok] at h
    obtain ⟨product, hproduct, h⟩ := h
    obtain ⟨rest, hrest, h⟩ := eval_bind_ok.1 h
    cases h
    rw [map_cons, map_cons, map_cons, ih hrest,
      checkedMul_ok (inEvaluation_ok.1 hproduct)]

/-- The value of a form at a point. -/
def AffineForm.at (form : AffineForm) (point : List Int64) : Int :=
  form.constant.toInt + weighted (form.coeffs.map Int64.toInt) (point.map Int64.toInt)

/-- The form is that of the expression, over this many dims: it has the expression's value at each
    point, and evaluation there can only overflow. -/
structure FormOf (dimCount : Nat) (params : List (Option Int64)) (e : Expr) (form : AffineForm) :
    Prop where
  length : form.coeffs.length = dimCount
  value : ∀ point : List Int64, point.length = dimCount →
    e.eval (coordAt point) (knownAt params) = form.at point
  evaluates : ∀ point : List Int64, point.length = dimCount → OnlyOverflow (e.evaluate point params)

section Forms

variable {dimCount : Nat} {params : List (Option Int64)} {e l r : Expr} {form a b : AffineForm}

theorem fixedForm_at (v : Int64) (point : List Int64) :
    (fixedForm dimCount v).at point = v.toInt := by
  unfold AffineForm.at fixedForm
  rw [map_replicate, Int64.toInt_zero, weighted_zeros, add_zero]

/-- What has one value at every point has the fixed form of it. -/
theorem formOf_fixed {v : Int64}
    (h : ∀ point : List Int64, point.length = dimCount → e.evaluate point params = .ok v) :
    FormOf dimCount params e (fixedForm dimCount v) := by
  constructor
  · exact length_replicate
  · intro point hpoint
    rw [fixedForm_at, Expr.evaluate_toInt (h point hpoint)]
  · intro point hpoint
    rw [h point hpoint]
    exact OnlyOverflow.ok v

theorem formOf_dim {d : Nat} (h : dimForm dimCount d = .ok (some form)) :
    FormOf dimCount params (.dim d) form := by
  unfold dimForm at h
  split at h
  · next hd =>
    cases h
    constructor
    · rw [length_set, length_replicate]
    · intro point hpoint
      have hget : (point.map Int64.toInt)[d]? = some (coordAt point d) := by
        rw [getElem?_map, coordAt, getD_eq_getElem?_getD,
          getElem?_eq_getElem (by omega : d < point.length)]
        rfl
      unfold AffineForm.at
      rw [map_set, map_replicate, Int64.toInt_zero, Int64.toInt_one,
        weighted_one hd hget, zero_add, Expr.eval_dim]
    · intro point hpoint
      have hd' : d < point.length := by omega
      have hget : point[d]? = some point[d] := getElem?_eq_getElem hd'
      unfold Expr.evaluate dimValue
      rw [hget]
      exact OnlyOverflow.ok _
  · cases h

theorem formOf_param {p : Nat} (h : paramForm dimCount params p = .ok (some form)) :
    FormOf dimCount params (.param p) form := by
  unfold paramForm at h
  split at h
  · next v found =>
    cases h
    apply formOf_fixed
    intro point hpoint
    unfold Expr.evaluate paramValue
    rw [found]
  · cases h
  · cases h

theorem formOf_add (hl : FormOf dimCount params l a) (hr : FormOf dimCount params r b)
    (h : addForms a b = .ok (some form)) : FormOf dimCount params (.add l r) form := by
  obtain ⟨constant, hconstant, h⟩ := eval_bind_ok.1 h
  obtain ⟨coeffs, hcoeffs, h⟩ := eval_bind_ok.1 h
  cases h
  have hmap := addCoeffs_ok hcoeffs
  constructor
  · have hlength := congrArg length hmap
    rw [length_map, length_zipWith, length_map, length_map, hl.length,
      hr.length, Nat.min_self] at hlength
    exact hlength
  · intro point hpoint
    have hsame : (a.coeffs.map Int64.toInt).length = (b.coeffs.map Int64.toInt).length := by
      rw [length_map, length_map, hl.length, hr.length]
    rw [Expr.eval_add, hl.value point hpoint, hr.value point hpoint]
    unfold AffineForm.at
    rw [hmap, weighted_add hsame, checkedAdd_ok (inEvaluation_ok.1 hconstant)]
    ring
  · intro point hpoint
    unfold Expr.evaluate
    apply (hl.evaluates point hpoint).bind
    intro x _
    apply (hr.evaluates point hpoint).bind
    exact fun y _ => onlyOverflow_inEvaluation _

/-- A factor that is one value at every point multiplies the form. -/
theorem formOf_mul {factor : Int64} (hl : ∀ point : List Int64, l.evaluate point params = .ok factor)
    (hr : FormOf dimCount params r b) (h : scaleForm factor b = .ok (some form)) :
    FormOf dimCount params (.mul l r) form := by
  obtain ⟨constant, hconstant, h⟩ := eval_bind_ok.1 h
  obtain ⟨coeffs, hcoeffs, h⟩ := eval_bind_ok.1 h
  cases h
  have hmap := scaleCoeffs_ok hcoeffs
  constructor
  · have hlength := congrArg length hmap
    rw [length_map, length_map, length_map, hr.length] at hlength
    exact hlength
  · intro point hpoint
    rw [Expr.eval_mul, ← Expr.evaluate_toInt (hl point), hr.value point hpoint]
    unfold AffineForm.at
    rw [hmap, weighted_scale, checkedMul_ok (inEvaluation_ok.1 hconstant)]
    ring
  · intro point hpoint
    unfold Expr.evaluate
    rw [hl point]
    apply OnlyOverflow.bind (OnlyOverflow.ok factor)
    intro x _
    apply (hr.evaluates point hpoint).bind
    exact fun y _ => onlyOverflow_inEvaluation _

end Forms

namespace ExprPool

variable {pool : ExprPool} {id : Nat} {e : Expr}

variable {fuel : Nat}

theorem mentionsDimWithin_denotes (h : pool.Denotes id e) (hfuel : height e < fuel) :
    pool.mentionsDimWithin fuel id = e.mentionsDim := by
  induction e generalizing fuel id with
  | const _ | dim _ | param _ =>
    obtain ⟨n, hn, hop, -⟩ := h
    cases fuel with
    | zero => cases hfuel
    | succ fuel => simp only [mentionsDimWithin, hn, hop, Expr.mentionsDim]
  | add l r ihl ihr | mul l r ihl ihr | floorDiv l r ihl ihr | mod l r ihl ihr =>
    obtain ⟨n, hn, hop, hl, hr⟩ := h
    cases fuel with
    | zero => cases hfuel
    | succ fuel =>
      unfold height at hfuel
      simp only [mentionsDimWithin, hn, hop, Expr.mentionsDim]
      rw [ihl hl (by omega), ihr hr (by omega)]

variable {form : AffineForm}

/-- What is made of a constant or a parameter is its value. -/
theorem evaluate_factor
    (h : pool.Denotes id e) (hfactor : Factor e)
    (hform : pool.affineWithin dimCount params fuel id = .ok (some form)) (point : List Int64) :
    e.evaluate point params = .ok form.constant := by
  cases fuel with
  | zero => cases hform
  | succ fuel =>
    cases e with
    | const v =>
      obtain ⟨n, hn, hop, rfl⟩ := h
      simp only [affineWithin, hn, hop] at hform
      cases hform
      rfl
    | param p =>
      obtain ⟨n, hn, hop, rfl⟩ := h
      simp only [affineWithin, hn, hop] at hform
      unfold paramForm at hform
      split at hform
      · next v found =>
        cases hform
        unfold Expr.evaluate paramValue
        rw [found]
        rfl
      · cases hform
      · cases hform
    | _ => cases hfactor

theorem bothForms_ok {a b : Option AffineForm}
    {f : AffineForm → AffineForm → Except EvalFault (Option AffineForm)}
    (h : bothForms a b f = .ok (some form)) :
    ∃ a' b', a = some a' ∧ b = some b' ∧ f a' b' = .ok (some form) := by
  cases a with
  | none => cases h
  | some a =>
    cases b with
    | none => cases h
    | some b => exact ⟨a, b, rfl, rfl, h⟩

/-- A quotient or remainder over no dim has the form of its value. -/
theorem formOf_value
    (h : pool.Denotes id e) (hfuel : height e < fuel) (hmentions : e.mentionsDim = false)
    (hform : valueForm dimCount (pool.evaluateWithin [] params fuel id) = .ok (some form)) :
    FormOf dimCount params e form := by
  rw [evaluateWithin_denotes [] params h hfuel] at hform
  cases hvalue : e.evaluate [] params with
  | ok v =>
    rw [hvalue] at hform
    cases hform
    apply formOf_fixed
    intro point _
    rw [Expr.evaluate_of_not_mentionsDim hmentions [], hvalue]
  | error fault =>
    rw [hvalue] at hform
    cases fault <;> cases hform

theorem not_mentionsDim_divisor (hwf : pool.WellFormed) {n : Node} {r : Expr}
    (hn : pool.exprs[id]? = some n) (hop : n.op = .floorDiv ∨ n.op = .mod)
    (hr : pool.Denotes n.rhs r) : r.mentionsDim = false := by
  obtain ⟨d, hd, hkind⟩ := hwf.divisor id n hn hop
  have hfactor : Factor r := (hr.factor hd).2 (hkind.imp And.left fun h => h)
  cases r with
  | const v => rfl
  | param p => rfl
  | _ => cases hfactor

/-- The form that `affine` gives is that of the tree. -/
theorem affineWithin_formOf
    (hwf : pool.WellFormed) (h : pool.Denotes id e) (hfuel : height e < fuel)
    (hform : pool.affineWithin dimCount params fuel id = .ok (some form)) :
    FormOf dimCount params e form := by
  induction e generalizing fuel id form with
  | const v =>
    obtain ⟨n, hn, hop, rfl⟩ := h
    cases fuel with
    | zero => cases hfuel
    | succ fuel =>
      simp only [affineWithin, hn, hop] at hform
      cases hform
      exact formOf_fixed fun _ _ => rfl
  | dim d =>
    obtain ⟨n, hn, hop, rfl⟩ := h
    cases fuel with
    | zero => cases hfuel
    | succ fuel =>
      simp only [affineWithin, hn, hop] at hform
      exact formOf_dim hform
  | param p =>
    obtain ⟨n, hn, hop, rfl⟩ := h
    cases fuel with
    | zero => cases hfuel
    | succ fuel =>
      simp only [affineWithin, hn, hop] at hform
      exact formOf_param hform
  | add l r ihl ihr =>
    obtain ⟨n, hn, hop, hl, hr⟩ := h
    cases fuel with
    | zero => cases hfuel
    | succ fuel =>
      unfold height at hfuel
      simp only [affineWithin, hn, hop] at hform
      obtain ⟨a, ha, hform⟩ := eval_bind_ok.1 hform
      obtain ⟨b, hb, hform⟩ := eval_bind_ok.1 hform
      obtain ⟨a, b, rfl, rfl, hform⟩ := bothForms_ok hform
      exact formOf_add (ihl hl (by omega) ha) (ihr hr (by omega) hb) hform
  | mul l r ihl ihr =>
    obtain ⟨n, hn, hop, hl, hr⟩ := h
    cases fuel with
    | zero => cases hfuel
    | succ fuel =>
      unfold height at hfuel
      simp only [affineWithin, hn, hop] at hform
      obtain ⟨a, ha, hform⟩ := eval_bind_ok.1 hform
      obtain ⟨b, hb, hform⟩ := eval_bind_ok.1 hform
      obtain ⟨a, b, rfl, rfl, hform⟩ := bothForms_ok hform
      -- the left of a product is a constant or a parameter
      obtain ⟨f, hf, hkind⟩ := hwf.factor id n hn hop
      have hfactor : Factor l := (hl.factor hf).2 hkind
      exact formOf_mul (evaluate_factor hl hfactor ha) (ihr hr (by omega) hb) hform
  | floorDiv l r ihl ihr | mod l r ihl ihr =>
    have hden := h
    obtain ⟨n, hn, hop, hl, hr⟩ := h
    cases fuel with
    | zero => cases hfuel
    | succ fuel =>
      have hlower := hfuel
      unfold height at hlower
      simp only [affineWithin, hn, hop] at hform
      split at hform
      · cases hform
      · next hmentions =>
        rw [mentionsDimWithin_denotes hl (by omega), Bool.not_eq_true] at hmentions
        have hright : r.mentionsDim = false :=
          not_mentionsDim_divisor hwf hn (by simp [hop]) hr
        exact formOf_value hden hfuel (by rw [Expr.mentionsDim, hmentions, hright]; rfl) hform

theorem affine_formOf
    (hwf : pool.WellFormed) (h : pool.Denotes id e)
    (hform : pool.affine dimCount params id = .ok (some form)) : FormOf dimCount params e form :=
  affineWithin_formOf hwf h (Nat.lt_succ_of_le (h.height_le hwf)) hform

end ExprPool

/-! ## Row-Major Views -/

/-- The place of the element that is read at a point. -/
def StridedView.at (view : StridedView) (point : List Int64) : Int :=
  view.offset.toInt + weighted (view.strides.map Int64.toInt) (point.map Int64.toInt)

section Views

variable {affine : Option ExprId → Except EvalFault (Option AffineForm)} {dimCount : Nat}

/-- One axis more: its form counts with the stride so far, which grows by the axis' extent. -/
theorem viewStep_ok {extent stride next : Int64} {view view' : StridedView}
    (hform : form.coeffs.length = dimCount) (hview : view.strides.length = dimCount)
    (h : viewStep form extent view stride = .ok (view', next)) :
    view'.strides.length = dimCount ∧ next.toInt = stride.toInt * extent.toInt ∧
      ∀ point, view'.at point = view.at point + stride.toInt * form.at point := by
  obtain ⟨scaled, hscaled, h⟩ := eval_bind_ok.1 h
  obtain ⟨offset, hoffset, h⟩ := eval_bind_ok.1 h
  obtain ⟨steps, hsteps, h⟩ := eval_bind_ok.1 h
  obtain ⟨strides, hstrides, h⟩ := eval_bind_ok.1 h
  obtain ⟨product, hproduct, h⟩ := eval_bind_ok.1 h
  cases h
  have hmap := addCoeffs_ok hstrides
  have hscale := scaleCoeffs_ok hsteps
  have hstepsLength : steps.length = dimCount := by
    have hlength := congrArg length hscale
    rw [length_map, length_map, length_map, hform] at hlength
    exact hlength
  refine ⟨?_, checkedMul_ok (inEvaluation_ok.1 hproduct), fun point => ?_⟩
  · have hlength := congrArg length hmap
    rw [length_map, length_zipWith, length_map, length_map, hview,
      hstepsLength, Nat.min_self] at hlength
    exact hlength
  · have hsame : (view.strides.map Int64.toInt).length = (steps.map Int64.toInt).length := by
      rw [length_map, length_map, hview, hstepsLength]
    unfold StridedView.at AffineForm.at
    rw [hmap, weighted_add hsame, hscale, weighted_scale, checkedAdd_ok (inEvaluation_ok.1 hoffset),
      checkedMul_ok (inEvaluation_ok.1 hscaled)]
    ring

/-- The view of the axes so far gives the row-major place of their forms' values. -/
theorem viewOf_ok (haffine : ∀ c form, affine c = .ok (some form) → form.coeffs.length = dimCount)
    {shape : List Int64} {view : StridedView} {stride : Int64}
    (hlength : coords.length = shape.length)
    (h : viewOf affine dimCount coords shape = .ok (some (view, stride))) :
    view.strides.length = dimCount ∧ stride.toInt = (shape.map Int64.toInt).prod ∧
      ∃ forms, Forall₂ (fun c form => affine c = .ok (some form)) coords forms ∧
        ∀ point, view.at point =
          rowMajorPlace (shape.map Int64.toInt) (forms.map fun form => form.at point) := by
  induction coords generalizing shape view stride with
  | nil =>
    cases shape with
    | cons extent shape => cases hlength
    | nil =>
      cases h
      refine ⟨length_replicate, rfl, [], .nil, fun point => ?_⟩
      unfold StridedView.at
      rw [map_replicate, Int64.toInt_zero, weighted_zeros]
      rfl
  | cons c coords ih =>
    cases shape with
    | nil => cases hlength
    | cons extent shape =>
      rw [viewOf, eval_bind_ok] at h
      obtain ⟨found, hrest, h⟩ := h
      cases found with
      | none => cases h
      | some found =>
        obtain ⟨before, stride'⟩ := found
        obtain ⟨found, hform, h⟩ := eval_bind_ok.1 h
        cases found with
        | none => cases h
        | some form =>
          obtain ⟨⟨view', next⟩, hstep, h⟩ := eval_bind_ok.1 h
          cases h
          obtain ⟨hbefore, hstride, forms, hforms, hplace⟩ := ih (Nat.succ.inj hlength) hrest
          obtain ⟨hview, hnext, hat⟩ := viewStep_ok (haffine c form hform) hbefore hstep
          refine ⟨hview, ?_, form :: forms, .cons hform hforms, fun point => ?_⟩
          · rw [hnext, hstride, map_cons, prod_cons, mul_comm]
          · rw [hat, hplace, hstride, map_cons, map_cons, rowMajorPlace]
            ring

end Views

/-! ## Every Access -/

/-- The table that these calls of the builders lead to. -/
def ExprPool.builtBy (calls : List ExprPool.Call) : ExprPool := (ExprPool.Client.run {} calls).pool

theorem ExprPool.wellFormed_builtBy (calls : List ExprPool.Call) :
    (ExprPool.builtBy calls).WellFormed :=
  (ExprPool.sound_start.run calls).1.pool

variable {pool : ExprPool} {dimCount : Nat} {params : List (Option Int64)}

section
variable (hwf : pool.WellFormed)
include hwf

/-- What has a form stands for a tree, and the form is the tree's. -/
theorem ExprPool.exists_formOf {id : Nat}
    (hform : pool.affine dimCount params id = .ok (some form)) :
    ∃ e, pool.Denotes id e ∧ FormOf dimCount params e form := by
  have hid : id < pool.exprs.length := by
    by_contra hge
    have hnone : pool.exprs[id]? = none := getElem?_eq_none (Nat.not_lt.1 hge)
    unfold affine affineWithin at hform
    rw [hnone] at hform
    cases hform
  obtain ⟨e, he⟩ := exists_denotes hwf hid
  exact ⟨e, he, affine_formOf hwf he hform⟩

theorem ExprPool.exists_formOfSlot
    {slot : Option ExprId}
    (hform : pool.affineSlot dimCount params slot = .ok (some form)) :
    ∃ e, pool.SlotDenotes slot e ∧ FormOf dimCount params e form := by
  cases slot with
  | none => cases hform
  | some id =>
    obtain ⟨e, he, hformOf⟩ := exists_formOf hwf hform
    exact ⟨e, ⟨id, rfl, he⟩, hformOf⟩

theorem ExprPool.evaluateSlot_denotes
    {slot : Option ExprId} (h : pool.SlotDenotes slot e) (point : List Int64)
    (params : List (Option Int64)) :
    pool.evaluateSlot point params slot = e.evaluate point params := by
  obtain ⟨id, rfl, he⟩ := h
  exact evaluate_denotes hwf he point params

/-- Where every coordinate has a form, the trees of the coordinates have these values. -/
theorem exists_trees
    {forms : List AffineForm}
    (h : Forall₂ (fun c form => pool.affineSlot dimCount params c = .ok (some form)) coords
      forms) :
    ∃ es, Forall₂ pool.SlotDenotes coords es ∧
      Forall₂ (FormOf dimCount params) es forms := by
  induction h with
  | nil => exact ⟨[], .nil, .nil⟩
  | cons hc _ ih =>
    obtain ⟨e, he, hform⟩ := ExprPool.exists_formOfSlot hwf hc
    obtain ⟨es, hes, hforms⟩ := ih
    exact ⟨e :: es, .cons he hes, .cons hform hforms⟩

end

theorem map_eval_eq {es : List Expr}
    {forms : List AffineForm} (h : Forall₂ (FormOf dimCount params) es forms)
    {point : List Int64} (hpoint : point.length = dimCount) :
    es.map (·.eval (coordAt point) (knownAt params)) = forms.map fun form => form.at point := by
  induction h with
  | nil => rfl
  | cons hform _ ih => rw [map_cons, map_cons, hform.value point hpoint, ih]

theorem map_toInt_eq (hwf : pool.WellFormed)
    {point : List Int64} {es : List Expr} {vs : List Int64}
    (hes : Forall₂ pool.SlotDenotes coords es)
    (hvs : Forall₂ (fun c v => pool.evaluateSlot point params c = .ok v) coords vs) :
    vs.map Int64.toInt = es.map (·.eval (coordAt point) (knownAt params)) := by
  induction hes generalizing vs with
  | nil =>
    cases hvs
    rfl
  | @cons c e coords es he _ ih =>
    cases hvs with
    | cons hv hvs =>
      rw [ExprPool.evaluateSlot_denotes hwf he] at hv
      rw [map_cons, map_cons, Expr.evaluate_toInt hv, ih hvs]

theorem rowMajorView_ok {inst : Pooled.IndexedInstance} (hwf : inst.exprs.WellFormed)
    {access : Pooled.Access} {shape : List Int64} {view : StridedView}
    (h : rowMajorView inst access shape = .ok (some view)) :
    ∃ es forms, Forall₂ inst.exprs.SlotDenotes access.coords es ∧
      Forall₂ (FormOf inst.domain.dims.length inst.paramValues) es forms ∧
      ∀ point, view.at point =
        rowMajorPlace (shape.map Int64.toInt) (forms.map fun form => form.at point) := by
  unfold rowMajorView at h
  split at h
  · cases h
  · next hright =>
    rw [not_or, not_not, not_not] at hright
    split at h
    · next found hfound =>
      cases found with
      | none => cases h
      | some found =>
        obtain ⟨view', stride⟩ := found
        cases h
        obtain ⟨-, -, forms, hforms, hplace⟩ := viewOf_ok (fun c form hform => by
          obtain ⟨e, -, hformOf⟩ := ExprPool.exists_formOfSlot hwf hform
          exact hformOf.length) hright.2 hfound
        obtain ⟨es, hes, hformsOf⟩ := exists_trees hwf hforms
        exact ⟨es, forms, hes, hformsOf, hplace⟩
    · cases h
    · cases h

/-- Where `affine` accepts an expression of a built table, its form has the expression's value at
    every point, and evaluation gives that value unless it overflows. Where `rowMajorView` accepts
    an access, for any extents, the offset and strides give the row-major place of the values of
    its coordinates. -/
theorem affine_views_right (calls : List ExprPool.Call) (inst : Pooled.IndexedInstance) :
    (∀ dimCount params id form,
      (ExprPool.builtBy calls).affine dimCount params id = .ok (some form) →
        ∀ point : List Int64, point.length = dimCount →
          (∃ e, (ExprPool.builtBy calls).Denotes id e ∧
            e.eval (coordAt point) (knownAt params) = form.at point) ∧
          OnlyOverflow ((ExprPool.builtBy calls).evaluate point params id) ∧
          ∀ v, (ExprPool.builtBy calls).evaluate point params id = .ok v →
            v.toInt = form.at point) ∧
      ∀ access shape view,
        rowMajorView { inst with exprs := ExprPool.builtBy calls } access shape = .ok (some view) →
        ∀ point : List Int64, point.length = inst.domain.dims.length →
          (∃ es, Forall₂ (ExprPool.builtBy calls).SlotDenotes access.coords es ∧
            view.at point = rowMajorPlace (shape.map Int64.toInt)
              (es.map (·.eval (coordAt point) (knownAt inst.paramValues)))) ∧
          (∀ c ∈ access.coords,
            OnlyOverflow ((ExprPool.builtBy calls).evaluateSlot point inst.paramValues c)) ∧
          ∀ vs, Forall₂
              (fun c v => (ExprPool.builtBy calls).evaluateSlot point inst.paramValues c = .ok v)
              access.coords vs →
            view.at point = rowMajorPlace (shape.map Int64.toInt) (vs.map Int64.toInt) := by
  have hwf := ExprPool.wellFormed_builtBy calls
  constructor
  · intro dimCount params id form hform point hpoint
    obtain ⟨e, he, hformOf⟩ := ExprPool.exists_formOf hwf hform
    have hevaluate := ExprPool.evaluate_denotes hwf he point params
    refine ⟨⟨e, he, hformOf.value point hpoint⟩, ?_, fun v hv => ?_⟩
    · rw [hevaluate]
      exact hformOf.evaluates point hpoint
    · rw [hevaluate] at hv
      rw [Expr.evaluate_toInt hv, hformOf.value point hpoint]
  · intro access shape view hview point hpoint
    obtain ⟨es, forms, hes, hforms, hplace⟩ := rowMajorView_ok
      (show ({ inst with exprs := ExprPool.builtBy calls } :
        Pooled.IndexedInstance).exprs.WellFormed from hwf) hview
    have hvalues : view.at point = rowMajorPlace (shape.map Int64.toInt)
        (es.map (·.eval (coordAt point) (knownAt inst.paramValues))) := by
      have hmap : es.map (·.eval (coordAt point) (knownAt inst.paramValues)) =
          forms.map fun form => form.at point := map_eval_eq hforms hpoint
      rw [hplace, hmap]
    refine ⟨⟨es, hes, hvalues⟩, fun c hc => ?_, fun vs hvs => ?_⟩
    · obtain ⟨i, hi, rfl⟩ := mem_iff_getElem.1 hc
      have he := hes.get (by omega : i < access.coords.length) (hes.length_eq ▸ hi)
      have hform := hforms.get (hes.length_eq ▸ hi) (hforms.length_eq ▸ hes.length_eq ▸ hi)
      have hevaluate : (ExprPool.builtBy calls).evaluateSlot point inst.paramValues access.coords[i] =
          (es.get ⟨i, hes.length_eq ▸ hi⟩).evaluate point inst.paramValues :=
        ExprPool.evaluateSlot_denotes hwf he point inst.paramValues
      rw [hevaluate]
      exact hform.evaluates point hpoint
    · rw [hvalues, map_toInt_eq hwf hes hvs]

end Camel.Index
