import Mathlib

/-! # Extents Written in Types

    An extent is unknown, a constant, or stands for a number over names: a linear form, or
    an integer expression that the names are put into once they are all bound.
-/

namespace Camel.Types

inductive ExtentOp where
  | add | sub | mul | div | mod
  deriving DecidableEq

/-- An integer expression over names; a call is the compiler's own tree of it and the names
    it reads. -/
inductive ExtentExpr where
  | constant (value : Int64)
  | name (name : String)
  | neg (inner : ExtentExpr)
  | binary (op : ExtentOp) (lhs rhs : ExtentExpr)
  | call (tree : Nat) (names : List String)
  deriving DecidableEq

/-- A constant extent is a count: no type is made with a negative one. -/
inductive ExtentForm where
  | unknown
  | constant (count : Nat)
  | linear (constant : Int64) (terms : List (String × Int64))
  | computed (expr : ExtentExpr)
  deriving DecidableEq

abbrev ExtentValues : Type := List (String × Int64)

/-- The dimensions a pack name stands for. -/
abbrev ExtentPacks : Type := List (String × List ExtentForm)

/-- What evaluates a call written in an extent. -/
abbrev Evaluator : Type := Nat → ExtentValues → Option Int64

def ExtentOp.apply : ExtentOp → Int64 → Int64 → Option Int64
  | .add, a, b => some (a + b)
  | .sub, a, b => some (a - b)
  | .mul, a, b => some (a * b)
  | .div, a, b => if b = 0 then none else some (a / b)
  | .mod, a, b => if b = 0 then none else some (a % b)

def ExtentExpr.collectNames : ExtentExpr → List String
  | .constant _ => []
  | .name n => [n]
  | .neg inner => inner.collectNames
  | .binary _ lhs rhs => lhs.collectNames ++ rhs.collectNames
  | .call _ names => names

/-- Whether the extent uses a name. -/
def ExtentForm.hasNames : ExtentForm → Bool
  | .unknown => false
  | .constant _ => false
  | .linear _ terms => terms ≠ []
  | .computed expr => expr.collectNames ≠ []

section Evaluate

variable (evaluator : Evaluator) (values : ExtentValues)

def ExtentExpr.evaluate : ExtentExpr → Option Int64
  | .constant value => some value
  | .name n => values.lookup n
  | .neg inner => (ExtentExpr.evaluate inner).map fun v => -v
  | .binary op lhs rhs => do
    let a ← ExtentExpr.evaluate lhs
    let b ← ExtentExpr.evaluate rhs
    op.apply a b
  | .call tree names =>
    if names.all fun n => (values.lookup n).isSome then evaluator tree values else none

/-- The value of the extent once every name it uses is bound. -/
def ExtentForm.evaluate : ExtentForm → Option Int64
  | .unknown => none
  | .constant count => some (.ofNat count)
  | .linear offset terms =>
    terms.foldlM (fun acc term => (values.lookup term.1).map fun v => acc + term.2 * v) offset
  | .computed expr => expr.evaluate evaluator values

end Evaluate

end Camel.Types

/-! # Types

    The types of a program, with the type variables, packs and computed types that a generic
    signature writes. A pack of types, an expansion `..E` and a call of a type function are
    applications of reserved names, told apart by `name`.
-/

namespace Camel.Types

inductive TypeCode where
  | void | int32 | int64 | float32 | float64 | bool | bfloat16 | float16 | complex64 | complex128
  | string
  | other (id : Nat)
  deriving DecidableEq

inductive TaggedKind where
  | nullable | fallible | cell
  deriving DecidableEq

/-- How many dimensions an array has: those written, or any number more, under a name when the
    signature gives one. -/
inductive Rank where
  | fixed
  | openAt (pack : String)
  deriving DecidableEq

/-- What stands at a parameter: one that a call passes, a compile-time value, or the pack of the
    arguments left over. -/
inductive Role where
  | plain (isVar needsValue : Bool)
  | constas
  | rest
  deriving DecidableEq

/-- What a function type holds beside the types of its parameters and its result; `resources`
    is none when the clause is not written. -/
structure Signature where
  withNames : List String
  withRoles : List Role
  normNames : List String
  normRoles : List Role
  hasNames : Bool
  resources : Option Nat
  deriving DecidableEq

mutual

inductive Ty where
  | leaf (code : TypeCode)
  | var (name : String) (binder : Bool)
  | array (elem : Ty) (extents : List ExtentForm) (rank : Rank)
  | stream (elem : Ty)
  | tuple (members : List Ty)
  | tagged (kind : TaggedKind) (payload : Ty)
  | named (decl : Nat) (args : List Ty)
  | record (names : List String) (fields : List Ty)
  | func (signature : Signature) (withTypes normTypes : List Ty) (exit : Option Ty)
  | app (code : Nat) (params : List Ty)
  | call (name : String) (params : List Ty)
  | matchType (subject : Ty) (arms : List MatchArm)

/-- A case of a `match type`: the shapes and the types it names, the patterns that take a pack
    apart, and the type it gives. -/
inductive MatchArm where
  | mk (shapes : Nat) (identities packPatterns : List Ty) (result : Ty)

end

/-! ## Equality -/

mutual

def Ty.beq : Ty → Ty → Bool
  | .leaf a, .leaf b => a = b
  | .var n b, .var n' b' => n = n' && b = b'
  | .array e x r, .array e' x' r' => Ty.beq e e' && x = x' && r = r'
  | .stream e, .stream e' => Ty.beq e e'
  | .tuple ms, .tuple ms' => beqAll ms ms'
  | .tagged k t, .tagged k' t' => k = k' && Ty.beq t t'
  | .named d ts, .named d' ts' => d = d' && beqAll ts ts'
  | .record ns ts, .record ns' ts' => ns = ns' && beqAll ts ts'
  | .func s w n x, .func s' w' n' x' => s = s' && beqAll w w' && beqAll n n' && beqOption x x'
  | .app c ts, .app c' ts' => c = c' && beqAll ts ts'
  | .call f ts, .call f' ts' => f = f' && beqAll ts ts'
  | .matchType t as, .matchType t' as' => Ty.beq t t' && beqArms as as'
  | _, _ => false

def beqAll : List Ty → List Ty → Bool
  | [], [] => true
  | t :: ts, t' :: ts' => Ty.beq t t' && beqAll ts ts'
  | _, _ => false

def beqOption : Option Ty → Option Ty → Bool
  | none, none => true
  | some t, some t' => Ty.beq t t'
  | _, _ => false

def MatchArm.beq : MatchArm → MatchArm → Bool
  | .mk s is ps r, .mk s' is' ps' r' =>
    s = s' && beqAll is is' && beqAll ps ps' && Ty.beq r r'

def beqArms : List MatchArm → List MatchArm → Bool
  | [], [] => true
  | a :: as, a' :: as' => MatchArm.beq a a' && beqArms as as'
  | _, _ => false

end

mutual

theorem Ty.beq_iff : ∀ t t' : Ty, Ty.beq t t' = true ↔ t = t'
  | .leaf a, t' => by cases t' <;> simp [Ty.beq]
  | .var n b, t' => by cases t' <;> simp [Ty.beq]
  | .array e x r, t' => by cases t' <;> simp [Ty.beq, Ty.beq_iff e, and_assoc]
  | .stream e, t' => by cases t' <;> simp [Ty.beq, Ty.beq_iff e]
  | .tuple ms, t' => by cases t' <;> simp [Ty.beq, beqAll_iff ms]
  | .tagged k t, t' => by cases t' <;> simp [Ty.beq, Ty.beq_iff t]
  | .named d ts, t' => by cases t' <;> simp [Ty.beq, beqAll_iff ts]
  | .record ns ts, t' => by cases t' <;> simp [Ty.beq, beqAll_iff ts]
  | .func s w n x, t' => by
    cases t' <;> simp [Ty.beq, beqAll_iff w, beqAll_iff n, beqOption_iff x, and_assoc]
  | .app c ts, t' => by cases t' <;> simp [Ty.beq, beqAll_iff ts]
  | .call f ts, t' => by cases t' <;> simp [Ty.beq, beqAll_iff ts]
  | .matchType t as, t' => by cases t' <;> simp [Ty.beq, Ty.beq_iff t, beqArms_iff as]

theorem beqAll_iff : ∀ ts ts' : List Ty, beqAll ts ts' = true ↔ ts = ts'
  | [], ts' => by cases ts' <;> simp [beqAll]
  | t :: ts, ts' => by cases ts' <;> simp [beqAll, Ty.beq_iff t, beqAll_iff ts]

theorem beqOption_iff : ∀ x x' : Option Ty, beqOption x x' = true ↔ x = x'
  | none, x' => by cases x' <;> simp [beqOption]
  | some t, x' => by cases x' <;> simp [beqOption, Ty.beq_iff t]

theorem MatchArm.beq_iff : ∀ a a' : MatchArm, MatchArm.beq a a' = true ↔ a = a'
  | .mk s is ps r, .mk s' is' ps' r' => by
    simp [MatchArm.beq, beqAll_iff is, beqAll_iff ps, Ty.beq_iff r, and_assoc]

theorem beqArms_iff : ∀ as as' : List MatchArm, beqArms as as' = true ↔ as = as'
  | [], as' => by cases as' <;> simp [beqArms]
  | a :: as, as' => by cases as' <;> simp [beqArms, MatchArm.beq_iff a, beqArms_iff as]

end

instance : DecidableEq Ty := fun t t' => decidable_of_iff _ (Ty.beq_iff t t')

/-! ## Parts -/

/-- The types a type is built from, as far as extents and variables in them are its own. -/
def Ty.parts : Ty → List Ty
  | .leaf _ => []
  | .var _ _ => []
  | .array elem _ _ => [elem]
  | .stream elem => [elem]
  | .tuple members => members
  | .tagged _ payload => [payload]
  | .named _ args => args
  | .record _ fields => fields
  | .func _ withTypes normTypes exit => withTypes ++ normTypes ++ exit.toList
  | .app _ _ => []
  | .call _ _ => []
  | .matchType _ _ => []

theorem Ty.sizeOf_part {q t : Ty} (h : q ∈ t.parts) : sizeOf q < sizeOf t := by
  cases t with
  | leaf code => cases h
  | var name binder => cases h
  | array elem extents rank =>
    obtain rfl := List.mem_singleton.1 h
    simp only [Ty.array.sizeOf_spec]
    omega
  | stream elem =>
    obtain rfl := List.mem_singleton.1 h
    simp only [Ty.stream.sizeOf_spec]
    omega
  | tuple members =>
    have hlt := List.sizeOf_lt_of_mem (show q ∈ members from h)
    simp only [Ty.tuple.sizeOf_spec]
    omega
  | tagged kind payload =>
    obtain rfl := List.mem_singleton.1 h
    simp only [Ty.tagged.sizeOf_spec]
    omega
  | named decl args =>
    have hlt := List.sizeOf_lt_of_mem (show q ∈ args from h)
    simp only [Ty.named.sizeOf_spec]
    omega
  | record names fields =>
    have hlt := List.sizeOf_lt_of_mem (show q ∈ fields from h)
    simp only [Ty.record.sizeOf_spec]
    omega
  | func signature withTypes normTypes exit =>
    simp only [Ty.func.sizeOf_spec]
    rcases List.mem_append.1 h with h | h
    · rcases List.mem_append.1 h with h | h
      · have hlt := List.sizeOf_lt_of_mem h
        omega
      · have hlt := List.sizeOf_lt_of_mem h
        omega
    · have hexit := Option.mem_toList.1 h
      rw [hexit, Option.some.sizeOf_spec]
      omega
  | app code params => cases h
  | call name params => cases h
  | matchType subject arms => cases h

/-- What holds of a type once it holds of its parts holds of every type. -/
theorem Ty.induct {motive : Ty → Prop} (h : ∀ t : Ty, (∀ q ∈ t.parts, motive q) → motive t) (t : Ty) :
    motive t :=
  h t fun q _ => Ty.induct h q
termination_by sizeOf t
decreasing_by exact Ty.sizeOf_part ‹_›

/-- The type with `f` of each part in place of the part. -/
def Ty.mapParts (f : Ty → Ty) : Ty → Ty
  | .array elem extents rank => .array (f elem) extents rank
  | .stream elem => .stream (f elem)
  | .tuple members => .tuple (members.map f)
  | .tagged kind payload => .tagged kind (f payload)
  | .named decl args => .named decl (args.map f)
  | .record names fields => .record names (fields.map f)
  | .func signature withTypes normTypes exit =>
    .func signature (withTypes.map f) (normTypes.map f) (exit.map f)
  | t => t

theorem map_eq_map_iff {α β : Type} {f g : α → β} {ts : List α} :
    ts.map f = ts.map g ↔ ∀ t ∈ ts, f t = g t := by
  induction ts with
  | nil => simp
  | cons t ts ih => simp [ih]

theorem map_eq_self_iff {α : Type} {f : α → α} {ts : List α} :
    ts.map f = ts ↔ ∀ t ∈ ts, f t = t := by
  conv_lhs => rhs; rw [← List.map_id ts]
  exact map_eq_map_iff

theorem optionMap_eq_map_iff {α β : Type} {f g : α → β} {x : Option α} :
    x.map f = x.map g ↔ ∀ t ∈ x, f t = g t := by
  cases x <;> simp

theorem Ty.mapParts_eq_iff {f g : Ty → Ty} {t : Ty} :
    t.mapParts f = t.mapParts g ↔ ∀ q ∈ t.parts, f q = g q := by
  cases t with
  | func signature withTypes normTypes exit =>
    simp only [Ty.mapParts, Ty.func.injEq, true_and, map_eq_map_iff, optionMap_eq_map_iff, Ty.parts,
      List.mem_append, Option.mem_toList]
    constructor
    · rintro ⟨hw, hn, hx⟩ q ((hq | hq) | hq)
      · exact hw q hq
      · exact hn q hq
      · exact hx q hq
    · intro h
      exact ⟨fun q hq => h q (.inl (.inl hq)), fun q hq => h q (.inl (.inr hq)),
        fun q hq => h q (.inr hq)⟩
  | _ => simp [Ty.mapParts, Ty.parts]

theorem Ty.mapParts_id (t : Ty) : t.mapParts (fun q => q) = t := by
  cases t <;> simp [Ty.mapParts]

theorem Ty.mapParts_eq_self_iff {f : Ty → Ty} {t : Ty} :
    t.mapParts f = t ↔ ∀ q ∈ t.parts, f q = q := by
  calc t.mapParts f = t ↔ t.mapParts f = t.mapParts (fun q => q) := by rw [Ty.mapParts_id]
    _ ↔ ∀ q ∈ t.parts, f q = q := Ty.mapParts_eq_iff

end Camel.Types
