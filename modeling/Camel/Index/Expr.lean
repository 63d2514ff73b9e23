import Camel.Lib.Checked
import Mathlib

/-! # Quasi-Affine Expressions

    The expressions of an index instance: constants, dims, parameters, sums, products
    with a constant or a parameter, and the floor quotient and remainder by a positive
    constant or a parameter. The builders simplify as they go, in 64 bits, and refuse
    what overflows or is not quasi-affine. The pool they intern into shares equal
    expressions; here an expression is its tree, and two are the same id when they are
    the same tree.
-/

namespace Camel.Index

open Lib

inductive Expr where
  | const (value : Int64)
  | dim (position : Nat)
  | param (position : Nat)
  | add (lhs rhs : Expr)
  | mul (lhs rhs : Expr)
  | floorDiv (lhs rhs : Expr)
  | mod (lhs rhs : Expr)
  deriving DecidableEq

inductive BuildError where
  | overflow (what : String)
  | invalid (what : String)
  deriving DecidableEq

def overflows : BuildError := .overflow "index arithmetic overflows 64 bits"

def checkedAdd (a b : Int64) : Except BuildError Int64 :=
  if Fits (a.toInt + b.toInt) then .ok (a + b) else .error overflows

def checkedMul (a b : Int64) : Except BuildError Int64 :=
  if Fits (a.toInt * b.toInt) then .ok (a * b) else .error overflows

def floorDivide (a b : Int64) : Int64 :=
  let q := a / b
  if a % b ≠ 0 ∧ a < 0 then q - 1 else q

def floorModulo (a b : Int64) : Int64 :=
  let r := a % b
  if r < 0 then r + b else r

variable (dims params : Nat → Int) (l r : Expr)

namespace Expr

/-! ## The Builders -/

/-- `add` of an expression and the constant `c`, which goes to the right. -/
def addConst (c : Int64) : Expr → Except BuildError Expr
  | const v => return const (← checkedAdd v c)
  | add x (const c1) =>
    if c = 0 then .ok (add x (const c1))
    else do
      -- (x + c1) + c2 = x + (c1 + c2)
      let sum ← checkedAdd c1 c
      addConst sum x
  | e => if c = 0 then .ok e else .ok (add e (const c))

/-- `ExprPool::add` -/
def mkAdd : Expr → Expr → Except BuildError Expr
  | const a, const b => return const (← checkedAdd a b)
  | const a, e => if a = 0 then .ok e else addConst a e
  | e, const b => addConst b e
  | e, e' => .ok (add e e')

/-- `mul` with the constant factor `c`. -/
def mkScale (c : Int64) : Expr → Except BuildError Expr
  | const v => return const (← checkedMul c v)
  | mul (const c2) x =>
    if c = 0 then .ok (const 0)
    else if c = 1 then .ok (mul (const c2) x)
    else do
      -- c1 * (c2 * x) = (c1 * c2) * x
      let product ← checkedMul c c2
      mkScale product x
  | e =>
    if c = 0 then .ok (const 0)
    else if c = 1 then .ok e
    else .ok (mul (const c) e)

/-- `mul` with a parameter as the factor; a constant takes its place. -/
def scaleByParam (p : Nat) : Expr → Except BuildError Expr
  | const v => if v = 0 then .ok (const 0) else mkScale v (param p)
  | e => .ok (mul (param p) e)

/-- `ExprPool::mul` -/
def mkMul : Expr → Expr → Except BuildError Expr
  | const c, e => mkScale c e
  | param p, e => scaleByParam p e
  | factor, const v => mkScale v factor
  | factor, param p => scaleByParam p factor
  | _, _ => .error (.invalid
      "a product of two expressions that are not constants or parameters is not quasi-affine")

/-- `ExprPool::sub` -/
def mkSub (lhs rhs : Expr) : Except BuildError Expr := do
  let negated ← mkScale (-1) rhs
  mkAdd lhs negated

def requireDivisor : Expr → Except BuildError Unit
  | const d =>
    if d ≤ 0 then
      .error (.invalid "a floordiv or mod divides by a positive constant or by a parameter")
    else .ok ()
  | param _ => .ok ()
  | _ => .error (.invalid "a floordiv or mod divides by a positive constant or by a parameter")

/-- `ExprPool::floorDiv` -/
def mkFloorDiv (lhs divisor : Expr) : Except BuildError Expr := do
  requireDivisor divisor
  match lhs, divisor with
  | lhs, const d =>
    if d = 1 then return lhs
    else match lhs with
      | const a => return const (floorDivide a d)
      | lhs => return floorDiv lhs (const d)
  | lhs, divisor => return floorDiv lhs divisor

/-- `ExprPool::mod` -/
def mkMod (lhs divisor : Expr) : Except BuildError Expr := do
  requireDivisor divisor
  match lhs, divisor with
  | lhs, const d =>
    if d = 1 then return const 0
    else match lhs with
      | const a => return const (floorModulo a d)
      | lhs => return mod lhs (const d)
  | lhs, divisor => return mod lhs divisor

/-! ## The Value of an Expression -/

/-- The value at a point, on mathematical integers. -/
def eval (dims params : Nat → Int) : Expr → Int
  | const v => v.toInt
  | dim d => dims d
  | param p => params p
  | add l r => l.eval dims params + r.eval dims params
  | mul l r => l.eval dims params * r.eval dims params
  | floorDiv l r => l.eval dims params / r.eval dims params
  | mod l r => l.eval dims params % r.eval dims params

def mentionsDim : Expr → Bool
  | dim _ => true
  | const _ | param _ => false
  | add l r | mul l r | floorDiv l r | mod l r => l.mentionsDim || r.mentionsDim

@[simp] theorem eval_const (v : Int64) :
    (const v).eval dims params = v.toInt := rfl
@[simp] theorem eval_dim (d : Nat) :
    (dim d).eval dims params = dims d := rfl
@[simp] theorem eval_param (p : Nat) :
    (param p).eval dims params = params p := rfl
@[simp] theorem eval_add :
    (add l r).eval dims params = l.eval dims params + r.eval dims params := rfl
@[simp] theorem eval_mul :
    (mul l r).eval dims params = l.eval dims params * r.eval dims params := rfl
@[simp] theorem eval_floorDiv :
    (floorDiv l r).eval dims params = l.eval dims params / r.eval dims params := rfl
@[simp] theorem eval_mod :
    (mod l r).eval dims params = l.eval dims params % r.eval dims params := rfl

end Expr

/-! ## What the Builders Give Keeps the Value -/

theorem checkedAdd_ok {a b c : Int64} (h : checkedAdd a b = .ok c) :
    c.toInt = a.toInt + b.toInt := by
  unfold checkedAdd at h
  by_cases hfit : Fits (a.toInt + b.toInt)
  · rw [if_pos hfit] at h
    cases h
    rw [Int64.toInt_add, bmod_of_fits hfit]
  · rw [if_neg hfit] at h
    cases h

theorem checkedMul_ok {a b c : Int64} (h : checkedMul a b = .ok c) :
    c.toInt = a.toInt * b.toInt := by
  unfold checkedMul at h
  by_cases hfit : Fits (a.toInt * b.toInt)
  · rw [if_pos hfit] at h
    cases h
    rw [Int64.toInt_mul, bmod_of_fits hfit]
  · rw [if_neg hfit] at h
    cases h

/-- The first part of a computation that succeeds has succeeded. -/
theorem bind_ok {α β : Type} {x : Except BuildError α} {f : α → Except BuildError β} {r : β}
    (h : (x >>= f) = .ok r) : ∃ a, x = .ok a ∧ f a = .ok r := by
  cases x with
  | error e => cases h
  | ok a => exact ⟨a, rfl, h⟩

namespace Expr

variable {dims params : Nat → Int}

variable {e r : Expr}

theorem eval_addConst {c : Int64} (h : addConst c e = .ok r) :
    r.eval dims params = e.eval dims params + c.toInt := by
  fun_induction addConst c e with
  | case1 v =>
    obtain ⟨s, hs, hr⟩ := bind_ok h
    cases hr
    simp [checkedAdd_ok hs]
  | case2 x c1 =>
    cases h
    simp
  | case3 c x c1 hc ih =>
    obtain ⟨s, hs, hr⟩ := bind_ok h
    rw [ih s hr, checkedAdd_ok hs]
    simp only [eval_add, eval_const]
    ring
  | case4 e h1 h2 =>
    cases h
    simp
  | case5 c e h1 h2 hc =>
    cases h
    simp

variable {l : Expr}

theorem eval_mkAdd (h : mkAdd l e = .ok r) :
    r.eval dims params = l.eval dims params + e.eval dims params := by
  revert h
  fun_cases mkAdd l e with
  | case1 a b =>
    intro h
    obtain ⟨s, hs, hr⟩ := bind_ok h
    cases hr
    simp [checkedAdd_ok hs]
  | case2 e hne =>
    intro h
    cases h
    simp
  | case3 a e hne ha =>
    intro h
    rw [eval_addConst h, eval_const]
    ring
  | case4 e b hne =>
    intro h
    rw [eval_addConst h, eval_const]
  | case5 l e h1 h2 h3 =>
    intro h
    cases h
    rfl

theorem eval_mkScale {c : Int64} (h : mkScale c e = .ok r) :
    r.eval dims params = c.toInt * e.eval dims params := by
  fun_induction mkScale c e with
  | case1 c v =>
    obtain ⟨s, hs, hr⟩ := bind_ok h
    cases hr
    simp [checkedMul_ok hs]
  | case2 c2 x =>
    cases h
    simp
  | case3 c2 x =>
    cases h
    simp
  | case4 c c2 x h0 h1 ih =>
    obtain ⟨s, hs, hr⟩ := bind_ok h
    rw [ih s hr, checkedMul_ok hs]
    simp only [eval_mul, eval_const]
    ring
  | case5 e h1 h2 =>
    cases h
    simp
  | case6 e h1 h2 =>
    cases h
    simp
  | case7 c e h1 h2 h3 h4 =>
    cases h
    rfl

theorem eval_scaleByParam {p : Nat} (h : scaleByParam p e = .ok r) :
    r.eval dims params = params p * e.eval dims params := by
  revert h
  fun_cases scaleByParam p e with
  | case1 =>
    intro h
    cases h
    simp
  | case2 v hv =>
    intro h
    rw [eval_mkScale h, eval_const, eval_param]
    ring
  | case3 e hne =>
    intro h
    cases h
    rfl

theorem eval_mkMul (h : mkMul l e = .ok r) :
    r.eval dims params = l.eval dims params * e.eval dims params := by
  revert h
  fun_cases mkMul l e with
  | case1 c e =>
    intro h
    rw [eval_mkScale h, eval_const]
  | case2 p e =>
    intro h
    rw [eval_scaleByParam h, eval_param]
  | case3 l v h1 h2 =>
    intro h
    rw [eval_mkScale h, eval_const]
    ring
  | case4 l p h1 h2 =>
    intro h
    rw [eval_scaleByParam h, eval_param]
    ring
  | case5 =>
    intro h
    cases h

theorem eval_mkSub (h : mkSub l e = .ok r) :
    r.eval dims params = l.eval dims params - e.eval dims params := by
  obtain ⟨negated, hneg, hr⟩ := bind_ok h
  have hone : Int64.toInt (-1) = -1 := rfl
  rw [eval_mkAdd hr, eval_mkScale hneg, hone]
  ring

/-! A positive divisor rounds towards negative infinity. -/

theorem toInt_floorDivide {a b : Int64} (hb : 1 < b.toInt) :
    (floorDivide a b).toInt = a.toInt / b.toInt := by
  have hne : b ≠ -1 := by
    rintro rfl
    exact absurd hb (by decide)
  have hdiv := Int64.toInt_div_of_ne_right a b hne
  have hzero : a % b ≠ 0 ↔ ¬ b.toInt ∣ a.toInt := by
    rw [Int.dvd_iff_tmod_eq_zero, ← Int64.toInt_mod, ← Int64.toInt_zero, Int64.toInt_inj]
  unfold floorDivide
  simp only [hzero, Int64.lt_iff_toInt_lt, Int64.toInt_zero]
  by_cases hcond : ¬ b.toInt ∣ a.toInt ∧ a.toInt < 0
  · -- rounded towards zero, the quotient is one too large
    have hor : ¬ (0 ≤ a.toInt ∨ b.toInt ∣ a.toInt) := by
      rintro (h | h)
      · omega
      · exact hcond.1 h
    have hsign : b.toInt.sign = 1 := Int.sign_eq_one_of_pos (by omega)
    have hlow : -2 ^ 63 ≤ a.toInt / b.toInt := by
      apply Int.le_ediv_of_mul_le (by omega)
      have hmin := Int64.le_toInt a
      omega
    have hhigh : a.toInt / b.toInt < 0 := Int.ediv_neg_of_neg_of_pos hcond.2 (by omega)
    have hround : a.toInt / b.toInt + 1 - 1 = a.toInt / b.toInt := by omega
    rw [if_pos hcond, Int64.toInt_sub, Int64.toInt_one, hdiv, Int.tdiv_eq_ediv, if_neg hor, hsign,
      hround]
    exact bmod_of_fits ⟨hlow, by omega⟩
  · have hor : 0 ≤ a.toInt ∨ b.toInt ∣ a.toInt := by
      by_contra h
      rw [not_or] at h
      exact hcond ⟨h.2, by omega⟩
    rw [if_neg hcond, hdiv, Int.tdiv_eq_ediv, if_pos hor, add_zero]

theorem toInt_floorModulo {a b : Int64} (hb : 0 < b.toInt) :
    (floorModulo a b).toInt = a.toInt % b.toInt := by
  have hmod := Int64.toInt_mod a b
  have hround := Int.tmod_eq_emod (a := a.toInt) (b := b.toInt)
  have hpos := Int.emod_nonneg a.toInt (b := b.toInt) (by omega)
  have hlt := Int.emod_lt_of_pos a.toInt hb
  have hmax := Int64.toInt_lt b
  unfold floorModulo
  simp only [Int64.lt_iff_toInt_lt, Int64.toInt_zero]
  by_cases hor : 0 ≤ a.toInt ∨ b.toInt ∣ a.toInt
  · rw [if_pos hor] at hround
    have hnot : ¬ (a % b).toInt < 0 := by omega
    rw [if_neg hnot]
    omega
  · rw [if_neg hor] at hround
    have hneg : (a % b).toInt < 0 := by omega
    have hback : (a % b).toInt + b.toInt = a.toInt % b.toInt := by omega
    rw [if_pos hneg, Int64.toInt_add, hback]
    exact bmod_of_fits ⟨by omega, by omega⟩

theorem requireDivisor_ok (h : requireDivisor e = .ok ()) :
    (∃ d : Int64, e = const d ∧ 0 < d.toInt) ∨ ∃ p, e = param p := by
  cases e with
  | const d =>
    left
    simp only [requireDivisor] at h
    by_cases hd : d ≤ 0
    · rw [if_pos hd] at h
      cases h
    · rw [Int64.le_iff_toInt_le, Int64.toInt_zero] at hd
      exact ⟨d, rfl, by omega⟩
  | param p => exact .inr ⟨p, rfl⟩
  | dim d => cases h
  | add l r => cases h
  | mul l r => cases h
  | floorDiv l r => cases h
  | mod l r => cases h

/-- What the two builders that divide have in common: what a division by one is, what two
    constants fold to, and the node. -/
def divideExpr (byOne : Expr) (fold : Int64 → Int64 → Int64) (node : Expr → Expr → Expr)
    (lhs divisor : Expr) : Expr :=
  if divisor = const 1 then byOne
  else match lhs, divisor with
    | const a, const d => const (fold a d)
    | _, _ => node lhs divisor

theorem mkFloorDiv_eq :
    mkFloorDiv l e = (requireDivisor e).map fun _ => divideExpr l floorDivide floorDiv l e := by
  unfold mkFloorDiv divideExpr
  cases requireDivisor e with
  | error err => rfl
  | ok _ =>
    cases e with
    | const d =>
      by_cases hd : d = 1 <;> cases l <;> simp [bind, Except.bind, Except.map, pure, Except.pure, hd]
    | _ => cases l <;> rfl

theorem mkMod_eq :
    mkMod l e = (requireDivisor e).map fun _ => divideExpr (const 0) floorModulo mod l e := by
  unfold mkMod divideExpr
  cases requireDivisor e with
  | error err => rfl
  | ok _ =>
    cases e with
    | const d =>
      by_cases hd : d = 1 <;> cases l <;> simp [bind, Except.bind, Except.map, pure, Except.pure, hd]
    | _ => cases l <;> rfl

theorem divideExpr_ok {byOne : Expr} {fold : Int64 → Int64 → Int64} {node : Expr → Expr → Expr}
    (h : ((requireDivisor e).map fun _ => divideExpr byOne fold node l e) = .ok r) :
    (e = const 1 ∧ r = byOne) ∨
      (∃ a d, l = const a ∧ e = const d ∧ 1 < d.toInt ∧ r = const (fold a d)) ∨ r = node l e := by
  cases hdiv : requireDivisor e with
  | error err =>
    rw [hdiv] at h
    cases h
  | ok _ =>
    rw [hdiv] at h
    obtain rfl := Except.ok.inj h
    unfold divideExpr
    split
    · next hone => exact .inl ⟨hone, rfl⟩
    · next hone =>
      split
      · next a d =>
        rcases requireDivisor_ok hdiv with ⟨d', heq, hpos⟩ | ⟨p, heq⟩ <;> cases heq
        have hne : d.toInt ≠ 1 := fun h1 => hone (congrArg const (Int64.toInt_inj.mp h1))
        exact .inr (.inl ⟨a, d, rfl, rfl, by omega, rfl⟩)
      · exact .inr (.inr rfl)

theorem eval_mkFloorDiv (h : mkFloorDiv l e = .ok r) :
    r.eval dims params = l.eval dims params / e.eval dims params := by
  rcases divideExpr_ok (mkFloorDiv_eq ▸ h) with ⟨rfl, rfl⟩ | ⟨a, d, rfl, rfl, hd, rfl⟩ | rfl
  · rw [eval_const, Int64.toInt_one, Int.ediv_one]
  · exact toInt_floorDivide hd
  · rfl

theorem eval_mkMod (h : mkMod l e = .ok r) :
    r.eval dims params = l.eval dims params % e.eval dims params := by
  rcases divideExpr_ok (mkMod_eq ▸ h) with ⟨rfl, rfl⟩ | ⟨a, d, rfl, rfl, hd, rfl⟩ | rfl
  · rw [eval_const, eval_const, Int64.toInt_one, Int.emod_one, Int64.toInt_zero]
  · exact toInt_floorModulo (by omega)
  · rfl

end Expr

end Camel.Index
