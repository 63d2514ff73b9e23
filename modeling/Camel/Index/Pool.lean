import Camel.Index.Evaluate
import Camel.Index.Instance

/-! # The Expression Pool

    An instance keeps its expressions in a table, where each names its operands by their places.
    The builders read the table, intern what they make, and leave it behind also when they throw.
    What they make of ids is what the builders of trees make of the trees these stand for.
-/

namespace Camel.Index

inductive ExprOp where
  | const | dim | param | add | mul | floorDiv | mod
  deriving DecidableEq

/-- An entry that has operands. -/
def ExprOp.isBinary : ExprOp → Bool
  | .const | .dim | .param => false
  | .add | .mul | .floorDiv | .mod => true

/-- A place in the table. -/
abbrev ExprId := Nat

def kNoExpr : ExprId := 0xFFFFFFFF

/-- An entry of the table, `Expr` in the source. -/
structure Node where
  op : ExprOp := .const
  /-- The constant, or the position of the dim or parameter. -/
  value : Int64 := 0
  lhs : Nat := kNoExpr
  rhs : Nat := kNoExpr
  deriving DecidableEq

structure ExprPool where
  exprs : List Node := []
  interned : List (Node × ExprId) := []

/-- A builder throws with the table as it is by then. -/
abbrev PoolM := EStateM BuildError ExprPool

namespace ExprPool

/-! ## The Builders -/

def intern (expr : Node) : PoolM ExprId := do
  let pool ← get
  match pool.interned.lookup expr with
  | some id => pure id
  | none =>
    set { pool with
      exprs := pool.exprs ++ [expr]
      interned := (expr, pool.exprs.length) :: pool.interned }
    pure pool.exprs.length

def constant (value : Int64) : PoolM ExprId := intern { op := .const, value := value }

def dim (position : UInt32) : PoolM ExprId :=
  intern { op := .dim, value := .ofNat position.toNat }

def param (position : UInt32) : PoolM ExprId :=
  intern { op := .param, value := .ofNat position.toNat }

/-- `exprs_[id]`, which no builder is given an id outside the table for. -/
def node (id : ExprId) : PoolM Node := do
  let pool ← get
  match pool.exprs[id]? with
  | some n => pure n
  | none => throw (.invalid "an id outside the pool")

def constantValue (id : ExprId) : PoolM (Option Int64) := do
  let n ← node id
  pure (if n.op = .const then some n.value else none)

def checked (x : Except BuildError Int64) : PoolM Int64 := MonadExcept.ofExcept x

/-- The constant that a sum has on the right. -/
def addend (n : Node) : PoolM (Option Int64) :=
  if n.op = .add then constantValue n.rhs else pure none

/-- The constant that a product has on the left. -/
def coefficient (n : Node) : PoolM (Option Int64) :=
  if n.op = .mul then constantValue n.lhs else pure none

/-- The end of `add`, where `c2` is the constant that stands on the right. -/
def joinConstant (again : ExprId → ExprId → PoolM ExprId) (lhs rhs : ExprId) (c2 : Int64) :
    PoolM ExprId := do
  let n ← node lhs
  let c1 ← addend n
  match c1 with
  | some c1 => do
    -- (x + c1) + c2 = x + (c1 + c2)
    let sum ← checked (checkedAdd c1 c2)
    let right ← constant sum
    again n.lhs right
  | none => intern { op := .add, lhs := lhs, rhs := rhs }

/-- `add`, within a number of calls. -/
def addWithin : Nat → ExprId → ExprId → PoolM ExprId
  | 0, _, _ => throw (.invalid "out of calls")
  | fuel + 1, lhs, rhs => do
    let a ← constantValue lhs
    let b ← constantValue rhs
    match a, b with
    | some a, some b => do
      let sum ← checked (checkedAdd a b)
      constant sum
    | some a, none =>
      -- the constant term goes to the right
      if a = 0 then pure rhs else joinConstant (addWithin fuel) rhs lhs a
    | none, some b => if b = 0 then pure lhs else joinConstant (addWithin fuel) lhs rhs b
    | none, none => intern { op := .add, lhs := lhs, rhs := rhs }

/-- As many calls as the table has places are enough. -/
def add (lhs rhs : ExprId) : PoolM ExprId := do
  let pool ← get
  addWithin (pool.exprs.length + 1) lhs rhs

/-- The end of `mul`, where `c` is the constant factor and neither 0 nor 1. -/
def joinFactor (again : ExprId → ExprId → PoolM ExprId) (factor e : ExprId) (c : Int64) :
    PoolM ExprId := do
  let inner ← node e
  let c2 ← coefficient inner
  match c2 with
  | some c2 => do
    -- c1 * (c2 * x) = (c1 * c2) * x
    let product ← checked (checkedMul c c2)
    let left ← constant product
    again left inner.rhs
  | none => intern { op := .mul, lhs := factor, rhs := e }

/-- `mul`, within a number of calls. -/
def mulWithin : Nat → ExprId → ExprId → PoolM ExprId
  | 0, _, _ => throw (.invalid "out of calls")
  | fuel + 1, factor, e => do
    let f ← node factor
    if f.op ≠ .const ∧ f.op ≠ .param then do
      let n ← node e
      if n.op = .const ∨ n.op = .param then mulWithin fuel e factor
      else throw (.invalid
        "a product of two expressions that are not constants or parameters is not quasi-affine")
    else do
      let c ← constantValue factor
      let v ← constantValue e
      match c, v with
      | some c, some v => do
        let product ← checked (checkedMul c v)
        constant product
      | some c, none =>
        if c = 0 then constant 0
        else if c = 1 then pure e
        else joinFactor (mulWithin fuel) factor e c
      | none, some v =>
        -- the constant is the factor: 2 * p, not p * 2
        if v = 0 then constant 0 else mulWithin fuel e factor
      | none, none => intern { op := .mul, lhs := factor, rhs := e }

def mul (factor e : ExprId) : PoolM ExprId := do
  let pool ← get
  mulWithin (pool.exprs.length + 3) factor e

def scale (c : Int64) (e : ExprId) : PoolM ExprId := do
  let factor ← constant c
  mul factor e

def sub (lhs rhs : ExprId) : PoolM ExprId := do
  let negated ← scale (-1) rhs
  add lhs negated

def requireDivisor (divisor : ExprId) : PoolM PUnit := do
  let d ← node divisor
  if d.op = .const ∧ d.value ≤ 0 ∨ d.op ≠ .const ∧ d.op ≠ .param then
    throw (.invalid "a floordiv or mod divides by a positive constant or by a parameter")
  else pure ⟨⟩

/-- `floorDiv` and `mod`: what dividing by one gives, and by a constant a constant. -/
def divide (op : ExprOp) (byOne : ExprId → PoolM ExprId) (fold : Int64 → Int64 → Int64)
    (lhs divisor : ExprId) : PoolM ExprId := do
  requireDivisor divisor
  let a ← constantValue lhs
  let d ← constantValue divisor
  if d = some 1 then byOne lhs
  else match a, d with
    | some a, some d => constant (fold a d)
    | _, _ => intern { op := op, lhs := lhs, rhs := divisor }

def floorDiv (lhs divisor : ExprId) : PoolM ExprId :=
  divide .floorDiv (fun lhs => pure lhs) floorDivide lhs divisor

def mod (lhs divisor : ExprId) : PoolM ExprId :=
  divide .mod (fun _ => constant 0) floorModulo lhs divisor

/-- `evaluate`, within a number of calls. -/
def evaluateWithin (pool : ExprPool) (dims : List Int64) (params : List (Option Int64)) :
    Nat → ExprId → Except EvalFault Int64
  | 0, _ => .error .exprOutside
  | fuel + 1, id =>
    match pool.exprs[id]? with
    | none => .error .exprOutside
    | some e =>
      match e.op with
      | .const => .ok e.value
      | .dim => dimValue dims e.value.toUInt64.toNat
      | .param => paramValue params e.value.toUInt64.toNat
      | .add => do
        let a ← pool.evaluateWithin dims params fuel e.lhs
        let b ← pool.evaluateWithin dims params fuel e.rhs
        inEvaluation (checkedAdd a b)
      | .mul => do
        let a ← pool.evaluateWithin dims params fuel e.lhs
        let b ← pool.evaluateWithin dims params fuel e.rhs
        inEvaluation (checkedMul a b)
      | .floorDiv => do
        let a ← pool.evaluateWithin dims params fuel e.lhs
        let d ← pool.evaluateWithin dims params fuel e.rhs
        divided floorDivide a d
      | .mod => do
        let a ← pool.evaluateWithin dims params fuel e.lhs
        let d ← pool.evaluateWithin dims params fuel e.rhs
        divided floorModulo a d

/-- Operands stand before what they are operands of, so an id's place is enough calls. -/
def evaluate (pool : ExprPool) (dims : List Int64) (params : List (Option Int64)) (id : ExprId) :
    Except EvalFault Int64 :=
  pool.evaluateWithin dims params (id + 1) id

/-! ## What an Id Stands For -/

/-- The tree of an id. -/
def Denotes (pool : ExprPool) (id : Nat) : Expr → Prop
  | .const v => ∃ n, pool.exprs[id]? = some n ∧ n.op = .const ∧ n.value = v
  | .dim p => ∃ n, pool.exprs[id]? = some n ∧ n.op = .dim ∧ n.value.toUInt64.toNat = p
  | .param p => ∃ n, pool.exprs[id]? = some n ∧ n.op = .param ∧ n.value.toUInt64.toNat = p
  | .add l r => ∃ n, pool.exprs[id]? = some n ∧ n.op = .add ∧
      pool.Denotes n.lhs l ∧ pool.Denotes n.rhs r
  | .mul l r => ∃ n, pool.exprs[id]? = some n ∧ n.op = .mul ∧
      pool.Denotes n.lhs l ∧ pool.Denotes n.rhs r
  | .floorDiv l r => ∃ n, pool.exprs[id]? = some n ∧ n.op = .floorDiv ∧
      pool.Denotes n.lhs l ∧ pool.Denotes n.rhs r
  | .mod l r => ∃ n, pool.exprs[id]? = some n ∧ n.op = .mod ∧
      pool.Denotes n.lhs l ∧ pool.Denotes n.rhs r

/-- A table the builders can have made: operands stand before what they are operands of, a product
    has a constant or parameter on the left, a quotient or remainder a positive constant or a
    parameter on the right, and what is interned is where it is said to be. -/
structure WellFormed (pool : ExprPool) : Prop where
  before : ∀ (id : Nat) (n : Node), pool.exprs[id]? = some n → n.op.isBinary = true → n.lhs < id ∧ n.rhs < id
  factor : ∀ (id : Nat) (n : Node), pool.exprs[id]? = some n → n.op = .mul →
    ∃ f, pool.exprs[n.lhs]? = some f ∧ (f.op = .const ∨ f.op = .param)
  divisor : ∀ (id : Nat) (n : Node), pool.exprs[id]? = some n → n.op = .floorDiv ∨ n.op = .mod →
    ∃ d, pool.exprs[n.rhs]? = some d ∧ (d.op = .const ∧ 0 < d.value.toInt ∨ d.op = .param)
  interned : ∀ (n : Node) (id : Nat), pool.interned.lookup n = some id → pool.exprs[id]? = some n

/-- The later table has the earlier one's entries at their places. -/
def Extends (pool pool' : ExprPool) : Prop :=
  ∀ (id : Nat) (n : Node), pool.exprs[id]? = some n → pool'.exprs[id]? = some n

theorem wellFormed_empty : WellFormed {} := by
  constructor <;> intros <;> simp_all

theorem Extends.refl (pool : ExprPool) : pool.Extends pool := fun _ _ h => h

theorem Extends.trans {pool pool' pool'' : ExprPool} (h : pool.Extends pool')
    (h' : pool'.Extends pool'') : pool.Extends pool'' :=
  fun id n hn => h' id n (h id n hn)

theorem Denotes.mono {pool pool' : ExprPool} (hext : pool.Extends pool') {id : Nat} {e : Expr}
    (h : pool.Denotes id e) : pool'.Denotes id e := by
  induction e generalizing id with
  | const _ | dim _ | param _ =>
    obtain ⟨n, hn, hop, hvalue⟩ := h
    exact ⟨n, hext id n hn, hop, hvalue⟩
  | add l r ihl ihr | mul l r ihl ihr | floorDiv l r ihl ihr | mod l r ihl ihr =>
    obtain ⟨n, hn, hop, hl, hr⟩ := h
    exact ⟨n, hext id n hn, hop, ihl hl, ihr hr⟩

theorem Denotes.node {pool : ExprPool} {id : Nat} {e : Expr} (h : pool.Denotes id e) :
    ∃ n, pool.exprs[id]? = some n := by
  cases e <;> exact ⟨_, h.choose_spec.1⟩

/-- What an id stands for, by the operation of its node. -/
theorem Denotes.shape {pool : ExprPool} {id : Nat} {e : Expr} {n : Node} (h : pool.Denotes id e)
    (hn : pool.exprs[id]? = some n) :
    match n.op with
    | .const => e = .const n.value
    | .dim => e = .dim n.value.toUInt64.toNat
    | .param => e = .param n.value.toUInt64.toNat
    | .add => ∃ l r, e = .add l r ∧ pool.Denotes n.lhs l ∧ pool.Denotes n.rhs r
    | .mul => ∃ l r, e = .mul l r ∧ pool.Denotes n.lhs l ∧ pool.Denotes n.rhs r
    | .floorDiv => ∃ l r, e = .floorDiv l r ∧ pool.Denotes n.lhs l ∧ pool.Denotes n.rhs r
    | .mod => ∃ l r, e = .mod l r ∧ pool.Denotes n.lhs l ∧ pool.Denotes n.rhs r := by
  cases e with
  | const _ | dim _ | param _ =>
    obtain ⟨n', hn', hop, rfl⟩ := h
    obtain rfl := Option.some.inj (hn.symm.trans hn')
    rw [hop]
  | add l r | mul l r | floorDiv l r | mod l r =>
    obtain ⟨n', hn', hop, hl, hr⟩ := h
    obtain rfl := Option.some.inj (hn.symm.trans hn')
    rw [hop]
    exact ⟨l, r, rfl, hl, hr⟩

/-- An id stands for one tree only. -/
theorem Denotes.unique {pool : ExprPool} {id : Nat} {e e' : Expr} (h : pool.Denotes id e)
    (h' : pool.Denotes id e') : e = e' := by
  induction e generalizing id e' with
  | const _ | dim _ | param _ =>
    obtain ⟨n, hn, hop, rfl⟩ := h
    have hshape := h'.shape hn
    rw [hop] at hshape
    exact hshape.symm
  | add l r ihl ihr | mul l r ihl ihr | floorDiv l r ihl ihr | mod l r ihl ihr =>
    obtain ⟨n, hn, hop, hl, hr⟩ := h
    have hshape := h'.shape hn
    rw [hop] at hshape
    obtain ⟨l', r', rfl, hl', hr'⟩ := hshape
    rw [ihl hl hl', ihr hr hr']

end ExprPool

end Camel.Index

/-! # Instances as They Are Stored

    The parts of an instance name their expressions by ids of its own pool. These are the parts
    as the source has them, `none` where it has `kNoExpr`; the trees of `Instance` are what the
    ids stand for.
-/

namespace Camel.Index.Pooled

structure Param where
  name : String
  source : ParamSource := .extent
  operand : Nat := 0xFF
  axis : Nat := 0xFF
  value : Option Int64 := none
  definition : Option ExprId := none

structure Constraint where
  lhs : Option ExprId := none
  rel : Rel := .le
  rhs : Option ExprId := none

/-- A conjunction; empty means always. -/
abbrev Predicate := List Constraint

structure Dim where
  name : String
  extent : Option ExprId := none
  role : DimRole := .parallel

structure Domain where
  dims : List Dim := []
  params : List Param := []
  constraints : Predicate := []
  guard : Predicate := []

structure Indirect where
  indexOperand : Nat := 0xFF
  indexCoords : List (Option ExprId) := []
  axis : Nat := 0

structure Access where
  kind : AccessKind := .whole
  coords : List (Option ExprId) := []
  valid : Predicate := []
  onInvalid : OnInvalid := .unreachable
  padding : UInt64 := 0
  indirect : Option Indirect := none

structure Write where
  coords : List (Option ExprId) := []
  valid : Predicate := []
  mode : WriteMode := .unique
  indirect : Option Indirect := none

structure OperandCheck where
  operand : Nat := 0xFF
  param : Nat := 0xFF
  lower : Option ExprId := none
  upper : Option ExprId := none
  onInvalid : OnInvalid := .fault

structure IndexedInstance where
  exprs : ExprPool := {}
  domain : Domain := {}
  norm : List Access := []
  withs : List Access := []
  output : Write := {}
  checks : List OperandCheck := []
  law : Nat := kNoLaw

def Domain.paramValues (d : Domain) : List (Option Int64) := d.params.map (·.value)

def IndexedInstance.paramValues (inst : IndexedInstance) : List (Option Int64) :=
  inst.domain.paramValues

end Camel.Index.Pooled
