import Camel.Index.Expr

/-! # Index Instances

    The index semantics of one call as data: the domain with its dims, parameters,
    constraints and guard, an access for each operand, the write, and the checks on
    entry. The meaning of each part is stated on mathematical integers, at a point of
    the domain and for values of the parameters.
-/

namespace Camel.Index

/-! ## Domains, Accesses and Writes -/

inductive DimRole where
  | parallel | reduction | sequential
  deriving DecidableEq

inductive ParamSource where
  | extent | static | runtime | derived
  deriving DecidableEq

structure Param where
  name : String
  source : ParamSource := .extent
  operand : Nat := 0xFF
  axis : Nat := 0xFF
  value : Option Int64 := none
  /-- `none` where the source has `kNoExpr`. -/
  definition : Option Expr := none

inductive Rel where
  | eq | le | lt
  deriving DecidableEq

structure Constraint where
  lhs : Expr
  rel : Rel
  rhs : Expr

/-- A conjunction; empty means always. -/
abbrev Predicate := List Constraint

structure Dim where
  name : String
  extent : Expr
  role : DimRole := .parallel

structure Domain where
  dims : List Dim := []
  params : List Param := []
  constraints : Predicate := []
  guard : Predicate := []

inductive OnInvalid where
  | unreachable | fault | excluded | padding
  deriving DecidableEq

structure Indirect where
  indexOperand : Nat := 0xFF
  indexCoords : List (Option Expr) := []
  axis : Nat := 0

inductive AccessKind where
  | affine | indirect | whole | none
  deriving DecidableEq

structure Access where
  kind : AccessKind := .whole
  coords : List (Option Expr) := []
  valid : Predicate := []
  onInvalid : OnInvalid := .unreachable
  padding : UInt64 := 0
  indirect : Option Indirect := none

inductive WriteMode where
  | unique | combine | orderedOverwrite
  deriving DecidableEq

structure Write where
  coords : List (Option Expr) := []
  valid : Predicate := []
  mode : WriteMode := .unique
  indirect : Option Indirect := none

structure OperandCheck where
  operand : Nat := 0xFF
  param : Nat := 0xFF
  lower : Option Expr := none
  upper : Option Expr := none
  onInvalid : OnInvalid := .fault

def kNoLaw : Nat := 0xFF

structure IndexedInstance where
  domain : Domain := {}
  norm : List Access := []
  withs : List Access := []
  output : Write := {}
  checks : List OperandCheck := []
  law : Nat := kNoLaw

/-! ## What the Parts Mean -/

def Constraint.Holds (dims params : Nat → Int) (c : Constraint) : Prop :=
  match c.rel with
  | .eq => c.lhs.eval dims params = c.rhs.eval dims params
  | .le => c.lhs.eval dims params ≤ c.rhs.eval dims params
  | .lt => c.lhs.eval dims params < c.rhs.eval dims params

def Predicate.Holds (dims params : Nat → Int) (p : Predicate) : Prop :=
  ∀ c ∈ p, c.Holds dims params

/-- The values of the parameters agree with those the instance knows. -/
def Domain.Known (d : Domain) (params : Nat → Int) : Prop :=
  ∀ (i : Nat) (p : Param) (v : Int64), d.params[i]? = some p → p.value = some v →
    params i = v.toInt

/-! ## The Builder -/

namespace IndexedInstance

variable (b : IndexedInstance)

def pushParam (p : Param) : IndexedInstance :=
  { b with domain := { b.domain with params := b.domain.params ++ [p] } }

/-- The parameter added last. -/
def lastParam : Expr := .param (b.domain.params.length - 1)

/-- `IndexBuilder::extent`: asking twice gives the same parameter. Operand and axis are kept in
    eight bits. -/
def extent (b : IndexedInstance) (operand axis : Nat) (known : Option Int64) :
    Expr × IndexedInstance :=
  match b.domain.params.findIdx? fun p =>
      decide (p.source = .extent) && p.operand == operand && p.axis == axis with
  | some i => (.param i, b)
  | none =>
    let b' := b.pushParam
      { name := s!"s{operand}_{axis}", source := .extent, operand := operand % 256,
        axis := axis % 256, value := known }
    (b'.lastParam, b')

/-- `IndexBuilder::constant` of a scalar operand -/
def constant (name : String) (operand : Nat) (value : Int64) :
    Expr × IndexedInstance :=
  let b' := b.pushParam
    { name := name, source := .static, operand := operand % 256, value := some value }
  (b'.lastParam, b')

/-- `IndexBuilder::runtime` -/
def runtime (b : IndexedInstance) (name : String) (operand : Nat) : Expr × IndexedInstance :=
  let b' := b.pushParam { name := name, source := .runtime, operand := operand % 256 }
  (b'.lastParam, b')

/-- `IndexBuilder::derived` -/
def derived (b : IndexedInstance) (name : String) (value : Option Int64)
    (definition : Option Expr) : Expr × IndexedInstance :=
  let b' := b.pushParam
    { name := name, source := .derived, value := value, definition := definition }
  (b'.lastParam, b')

/-- `IndexBuilder::check` -/
def check (operand : Nat) (param lower upper : Expr) : IndexedInstance :=
  let position := match param with
    | .param p => p % 256
    | _ => 0xFF
  { b with checks := b.checks ++
      [{ operand := operand % 256, param := position, lower := some lower,
         upper := some upper }] }

/-- `IndexBuilder::dim` -/
def dim (b : IndexedInstance) (extent : Expr) (role : DimRole) : Expr × IndexedInstance :=
  let dims := b.domain.dims ++ [{ name := s!"d{b.domain.dims.length}", extent, role }]
  (.dim b.domain.dims.length, { b with domain := { b.domain with dims } })

/-- `IndexBuilder::require` -/
def require (lhs : Expr) (rel : Rel) (rhs : Expr) : IndexedInstance :=
  { b with domain := { b.domain with
      constraints := b.domain.constraints ++ [⟨lhs, rel, rhs⟩] } }

/-- `IndexBuilder::finish` -/
def finish (coords : List Expr) (mode : WriteMode) (law : Nat) :
    IndexedInstance :=
  { b with output := { coords := coords.map some, mode := mode }, law := law }

/-- `allDims`: the dims appended so far, in order. -/
def allDims : List Expr :=
  (List.range b.domain.dims.length).map .dim

end IndexedInstance

/-- `IndexBuilder::affine` -/
def affine (coords : List Expr) : Access := { kind := .affine, coords := coords.map some }

/-- `IndexBuilder::none` -/
def noAccess : Access := { kind := .none }

end Camel.Index
