import Camel.Types.Ty

/-! # Type Variables Replaced

    `substituteTypeVars` puts the types that a table binds in place of the type variables of a type.
    An expansion `..E` becomes one member for each element of the packs `E` uses, and a `match type`
    the type of the case that selects its subject.
-/

namespace Camel.Types

/-- The variables bound so far and their types, in binding order. -/
abbrev TypeBindings : Type := List (String × Ty)

/-- What the registered types answer: the type a type function computes, the text of a type, whether
    a type with arguments is a collection and then a map, and a shape with its names numbered. -/
structure TypeTable where
  evaluate : String → List Ty → Option Ty
  toString : Ty → String
  asCollectionType : Nat → Option Bool
  canonicalShape : List ExtentForm → List ExtentForm

/-! ## Packs -/

def kPackName : String := "$pack"

def kExpandName : String := "$expand"

def kLengthsTag : String := "$lengths:"

def makePack (members : List Ty) : Ty := .call kPackName members

def makeExpand (pattern : Ty) : Ty := .call kExpandName [pattern]

def makeLengthMismatch (description : String) : Ty := .call (kLengthsTag ++ description) []

/-- The members of a pack; none for every other type. -/
def packMembers : Ty → Option (List Ty)
  | .call name params => if name = kPackName then some params else none
  | _ => none

/-- What an expansion writes after its dots; none for every other type. -/
def expandPattern : Ty → Option Ty
  | .call name params => if name = kExpandName then params.head? else none
  | _ => none

/-- The expansion that is being read: its packs report their lengths and stand for their first
    member, or stand for the member at the index. -/
structure PackScope where
  measure : Bool
  index : Nat
  seen : List (String × Nat)
  deriving DecidableEq

/-- A walk over a type under the expansion that is being read. It has no result where the source
    has none. -/
abbrev SubstM : Type → Type := StateT (Option PackScope) Option

def PackScope.know (scope : PackScope) (name : String) (length : Nat) : PackScope :=
  if scope.seen.any fun entry => entry.1 = name then scope
  else { scope with seen := scope.seen ++ [(name, length)] }

def PackScope.member (scope : PackScope) (members : List Ty) : Ty :=
  if scope.measure then members.headD (.leaf .void) else members.getD scope.index (.leaf .void)

/-- The type itself, or the member that the pack stands for in the expansion that is being read. -/
def packMemberFor (name : String) (type : Ty) : SubstM Ty := fun scope =>
  match scope, packMembers type with
  | some scope, some members =>
    some (scope.member members, some (scope.know name members.length))
  | scope, _ => some (type, scope)

/-- The walk in an expansion of its own, and what it saw there. -/
def PackScope.run (scope : PackScope) {α : Type} (walk : SubstM α) :
    SubstM (α × List (String × Nat)) := fun outer =>
  match walk (some scope) with
  | some (a, some inner) => some ((a, inner.seen), outer)
  | some (a, none) => some ((a, []), outer)
  | none => none

/-- What stands at a place of a type: one type, or the members that an expansion makes. -/
inductive Members where
  | one (type : Ty)
  | many (types : List Ty)

def Members.list : Members → List Ty
  | .one type => [type]
  | .many types => types

/-- The members of an expansion where a whole type stands are the tuple they make. -/
def Members.whole : Members → Ty
  | .one type => type
  | .many types => .tuple types

/-! ## Variables -/

mutual

def containsTypeVar : Ty → Bool
  | .leaf _ => false
  | .var _ _ => true
  | .array elem _ _ => containsTypeVar elem
  | .stream elem => containsTypeVar elem
  | .tuple members => anyContainsTypeVar members
  | .tagged _ payload => containsTypeVar payload
  | .named _ args => anyContainsTypeVar args
  | .record _ fields => anyContainsTypeVar fields
  | .func _ withTypes normTypes exit =>
    anyContainsTypeVar withTypes || anyContainsTypeVar normTypes || exitContainsTypeVar exit
  | .app _ params => anyContainsTypeVar params
  | .call _ params => anyContainsTypeVar params
  | .matchType subject arms => containsTypeVar subject || armsContainTypeVar arms

def anyContainsTypeVar : List Ty → Bool
  | [] => false
  | t :: ts => containsTypeVar t || anyContainsTypeVar ts

def exitContainsTypeVar : Option Ty → Bool
  | none => false
  | some t => containsTypeVar t

def armsContainTypeVar : List MatchArm → Bool
  | [] => false
  | .mk _ identities packPatterns result :: arms =>
    anyContainsTypeVar identities || anyContainsTypeVar packPatterns || containsTypeVar result ||
      armsContainTypeVar arms

end

/-! ## Equality of Types -/

/-- The marks of a signature without its parameter names. -/
def Signature.nameless (signature : Signature) : Signature :=
  { signature with withNames := [], normNames := [], hasNames := false }

def Rank.nameless : Rank → Rank
  | .fixed => .fixed
  | .openAt _ => .openAt ""

mutual

/-- The type without what does not tell types apart: names of parameters and of dimensions, and
    whether an occurrence of a variable binds it. -/
def Ty.nameless (shape : List ExtentForm → List ExtentForm) : Ty → Ty
  | .leaf code => .leaf code
  | .var name _ => .var name false
  | .array elem extents rank => .array (Ty.nameless shape elem) (shape extents) rank.nameless
  | .stream elem => .stream (Ty.nameless shape elem)
  | .tuple members => .tuple (namelessAll shape members)
  | .tagged kind payload => .tagged kind (Ty.nameless shape payload)
  | .named decl args => .named decl (namelessAll shape args)
  | .record names fields => .record names (namelessAll shape fields)
  | .func signature withTypes normTypes exit =>
    .func signature.nameless (namelessAll shape withTypes) (namelessAll shape normTypes)
      (namelessExit shape exit)
  | .app code params => .app code (namelessAll shape params)
  | .call name params => .call name (namelessAll shape params)
  | .matchType subject arms => .matchType (Ty.nameless shape subject) (namelessArms shape arms)

def namelessAll (shape : List ExtentForm → List ExtentForm) : List Ty → List Ty
  | [] => []
  | t :: ts => Ty.nameless shape t :: namelessAll shape ts

def namelessExit (shape : List ExtentForm → List ExtentForm) : Option Ty → Option Ty
  | none => none
  | some t => some (Ty.nameless shape t)

def namelessArms (shape : List ExtentForm → List ExtentForm) : List MatchArm → List MatchArm
  | [] => []
  | .mk shapes identities packPatterns result :: arms =>
    .mk shapes (namelessAll shape identities) (namelessAll shape packPatterns)
      (Ty.nameless shape result) :: namelessArms shape arms

end

variable (table : TypeTable)

/-- Structural equality of two types. -/
def typeEquals (a b : Ty) : Bool := a.nameless table.canonicalShape = b.nameless table.canonicalShape

theorem typeEquals_iff {a b : Ty} :
    typeEquals table a b = true ↔
      a.nameless table.canonicalShape = b.nameless table.canonicalShape := by
  simp [typeEquals]

/-! ## Shapes -/

def shapeBit (shape : Nat) : Nat := 2 ^ shape

/-- The shapes a type has, as bits: a struct or a tuple or a leaf, the wildcard, and the others. -/
def typeShapeBits : Ty → Nat
  | .record _ _ | .named _ _ => shapeBit 3 ||| shapeBit 0
  | .tuple _ => shapeBit 3 ||| shapeBit 1
  | .tagged .nullable _ => shapeBit 3 ||| shapeBit 7 ||| shapeBit 2
  | .tagged .fallible _ => shapeBit 3 ||| shapeBit 8 ||| shapeBit 2
  | .array _ _ _ => shapeBit 3 ||| shapeBit 6 ||| shapeBit 2
  | .func _ _ _ _ => shapeBit 3 ||| shapeBit 4 ||| shapeBit 2
  | .app code _ =>
    match table.asCollectionType code with
    | some true => shapeBit 3 ||| shapeBit 9 ||| shapeBit 2
    | some false => shapeBit 3 ||| shapeBit 10 ||| shapeBit 2
    | none => shapeBit 3 ||| shapeBit 2
  | _ => shapeBit 3 ||| shapeBit 2

/-! ## Expansions -/

inductive Expansion where
  | done (members : List Ty)
  | keep
  | mismatch (type : Ty)

def lengthsText (seen : List (String × Nat)) : String :=
  ", ".intercalate (seen.map fun entry => entry.1 ++ " has " ++ toString entry.2 ++ " member(s)")

/-- The members that `..pattern` stands for, with `walk` the walk over the pattern. -/
def expandPack (walk : SubstM Ty) (pattern : Ty) : SubstM Expansion := do
  let (_, seen) ← PackScope.run { measure := true, index := 0, seen := [] } walk
  match seen with
  | [] => pure .keep
  | (_, length) :: _ =>
    if seen.all fun entry => entry.2 = length then do
      let members ← (List.range length).mapM fun i => do
        let (member, _) ← PackScope.run { measure := false, index := i, seen := [] } walk
        pure member
      pure (.done members)
    else
      pure (.mismatch
        (makeLengthMismatch ("..." ++ table.toString pattern ++ "|" ++ lengthsText seen)))

/-! ## Patterns of Packs -/

/-- The types of a tuple, with or without a tag. -/
def tupleTypes : Ty → Option (List Ty)
  | .tuple members => some members
  | .tagged _ payload => some [payload]
  | _ => none

/-- The types a pattern writes before its rest, and what the rest is when the last one is one. -/
def splitRest (written : List Ty) : List Ty × Option Ty :=
  match written.getLast?.bind expandPattern with
  | some rest => (written.dropLast, some rest)
  | none => (written, none)

section Patterns

-- the substitution of a type that a substitution made
variable (again : Ty → TypeBindings → SubstM Ty)

/-- The types that the pattern writes against the first members, bound one after another. -/
def takeFixed : List Ty → List Ty → TypeBindings → SubstM (Option TypeBindings)
  | [], _, bound => pure (some bound)
  | _ :: _, [], _ => pure none
  | written :: ws, member :: ms, bound => do
    let entry ← again written bound
    match entry with
    -- a name the pattern writes binds this member
    | .var name _ => takeFixed ws ms (bound ++ [(name, member)])
    | entry =>
      if containsTypeVar entry || !typeEquals table entry member then pure none
      else takeFixed ws ms bound

/-- The pattern with the bindings in it, against the members of a pack. -/
def takeShape (shape : Ty) (members : List Ty) (bindings : TypeBindings) :
    SubstM (Option TypeBindings) :=
  match tupleTypes shape with
  | none => pure none
  | some written =>
    let (fixed, rest) := splitRest written
    if members.length < fixed.length then pure none
    else do
      match ← takeFixed table again fixed members bindings, rest with
      | none, _ => pure none
      | some bound, none => pure (some bound)
      | some bound, some (.var name _) =>
        pure (some (bound ++ [(name, makePack (members.drop fixed.length))]))
      | some _, some _ => pure none

end Patterns

/-! ## The Walk -/

/-- One parameter of a function type: its name, what stands there, and its type. -/
structure Param where
  name : String
  role : Role
  type : Ty
  deriving DecidableEq

/-- The parameters that an expansion makes have no marks. -/
def numbered (name : String) (types : List Ty) : List Param :=
  types.zipIdx.map fun (type, k) => ⟨name ++ "_" ++ toString k, .plain false false, type⟩

/-- The parameters that stand where one stood, and whether anything was replaced. -/
def replacedParam (name : String) (role : Role) (type : Ty) : Members → List Param × Bool
  | .one type' => ([⟨name, role, type'⟩], type' ≠ type)
  | .many types => (numbered name types, true)

/-- What stands at the place of `..pattern`, with `walk` the walk over the pattern. -/
def substituteExpand (pattern : Ty) (walk : SubstM Ty) : SubstM Members := do
  match ← expandPack table walk pattern with
  | .done members => pure (.many members)
  | .mismatch type => pure (.many [type])
  | .keep => do
    let moved ← walk
    pure (.one (makeExpand moved))

/-- A type function whose arguments are all concrete is the type it computes. -/
def evaluateCall (name : String) (params params' : List Ty) : SubstM Ty :=
  if params' = params then pure (.call name params)
  else if anyContainsTypeVar params' then pure (.call name params')
  else
    match table.evaluate name params' with
    | some computed => packMemberFor (table.toString (.call name params)) computed
    | none => pure (.call name params')

/-- What stands at the place of a pack, an expansion or a call of a type function, with `head` the
    walk over the first argument and `args` the walk over all of them. -/
def substituteCall (name : String) (params : List Ty) (head : Option (SubstM Ty))
    (args : SubstM (List Ty)) : SubstM Members := do
  let scope ← get
  if name = kPackName ∧ scope.isSome then
    -- a pack written out stands for the member at the index of the expansion that reads it
    let member ← packMemberFor (table.toString (.call name params)) (.call name params)
    pure (.one member)
  else
    match expandPattern (.call name params), head with
    | some pattern, some walk => substituteExpand table pattern walk
    | _, _ => do
      let params' ← args
      let type ← evaluateCall table name params params'
      pure (.one type)

/-- A `match type` waits while a variable is left in its subject. -/
def unlessOpen (subject : Ty) (select : SubstM (Option Ty)) : SubstM (Option Ty) :=
  if containsTypeVar subject then pure none else select

section Walk

variable (again : Ty → TypeBindings → SubstM Ty)

mutual

/-- What stands at the place of the type once the variables are replaced. -/
def substituteMember : Ty → TypeBindings → SubstM Members
  | .leaf code, _ => pure (.one (.leaf code))
  | .var name binder, bindings =>
    match bindings.lookup name with
    | some bound => do
      let type ← packMemberFor name bound
      pure (.one type)
    | none => pure (.one (.var name binder))
  | .array elem extents rank, bindings => do
    let elem' ← substituteMember elem bindings
    pure (.one (.array elem'.whole extents rank))
  | .stream elem, bindings => do
    let elem' ← substituteMember elem bindings
    pure (.one (.stream elem'.whole))
  | .tuple members, bindings => do
    let members' ← substituteSpliced members bindings
    pure (.one (.tuple members'))
  | .tagged kind payload, bindings => do
    let payload' ← substituteMember payload bindings
    match payload'.list with
    -- a tuple that is marked keeps its first type; there is none after an expansion of nothing
    | [] => fun _ => none
    | front :: _ => pure (.one (.tagged kind front))
  | .named decl args, bindings => do
    let args' ← substituteAll args bindings
    pure (.one (.named decl args'))
  | .record names fields, bindings => do
    let fields' ← substituteAll fields bindings
    pure (.one (.record names fields'))
  | .func signature withTypes normTypes exit, bindings => do
    let (withParams, withChanged) ←
      rebuildWith 0 signature.withNames signature.withRoles withTypes bindings
    let (normParams, normChanged) ←
      rebuildNorm 0 signature.normNames signature.normRoles normTypes bindings
    let exit' ← substituteExit exit bindings
    if withChanged || normChanged || exit' ≠ exit then
      pure (.one (.func
        { signature with
          withNames := if signature.hasNames then withParams.map (·.name) else []
          withRoles := withParams.map (·.role)
          normNames := if signature.hasNames then normParams.map (·.name) else []
          normRoles := normParams.map (·.role) }
        (withParams.map (·.type)) (normParams.map (·.type)) exit'))
    else pure (.one (.func signature withTypes normTypes exit))
  | .app code params, bindings => do
    let params' ← substituteAll params bindings
    pure (.one (.app code params'))
  | .call name params, bindings =>
    substituteCall table name params (substituteHead params bindings) (substituteAll params bindings)
  | .matchType subject arms, bindings => do
    let subject' ← substituteMember subject bindings
    let selected ← unlessOpen subject'.whole (selectArm subject'.whole arms bindings)
    match selected with
    | some result => pure (.one result)
    | none => do
      let subject'' ← substituteMember subject bindings
      let arms' ← substituteArms arms bindings
      pure (.one (.matchType subject''.whole arms'))

/-- The walk over the first of the types. -/
def substituteHead : List Ty → TypeBindings → Option (SubstM Ty)
  | [], _ => none
  | t :: _, bindings => some (do
    let t' ← substituteMember t bindings
    pure t'.whole)

/-- The types, each with a whole type at its place. -/
def substituteAll : List Ty → TypeBindings → SubstM (List Ty)
  | [], _ => pure []
  | t :: ts, bindings => do
    let t' ← substituteMember t bindings
    let ts' ← substituteAll ts bindings
    pure (t'.whole :: ts')

/-- The types, with the members of each expansion in its place. -/
def substituteSpliced : List Ty → TypeBindings → SubstM (List Ty)
  | [], _ => pure []
  | t :: ts, bindings => do
    let t' ← substituteMember t bindings
    let ts' ← substituteSpliced ts bindings
    pure (t'.list ++ ts')

def substituteExit : Option Ty → TypeBindings → SubstM (Option Ty)
  | none, _ => pure none
  | some t, bindings => do
    let t' ← substituteMember t bindings
    pure (some t'.whole)

/-- The `with` parameters of a rebuilt function type: a rest is added again without a type. -/
def rebuildWith : Nat → List String → List Role → List Ty → TypeBindings →
    SubstM (List Param × Bool)
  | _, _, _, [], _ => pure ([], false)
  | i, names, roles, t :: ts, bindings => do
    let name := names.headD ("__w" ++ toString i)
    let role := roles.headD (.plain false false)
    if role = .rest then
      let (params, changed) ← rebuildWith (i + 1) names.tail roles.tail ts bindings
      pure (⟨name, .rest, .leaf .void⟩ :: params, changed)
    else
      let t' ← substituteMember t bindings
      let (here, replaced) := replacedParam name role t t'
      let (params, changed) ← rebuildWith (i + 1) names.tail roles.tail ts bindings
      pure (here ++ params, replaced || changed)

/-- The ordinary parameters: a rest and a compile-time value have a whole type. -/
def rebuildNorm : Nat → List String → List Role → List Ty → TypeBindings →
    SubstM (List Param × Bool)
  | _, _, _, [], _ => pure ([], false)
  | i, names, roles, t :: ts, bindings => do
    let name := names.headD ("__n" ++ toString i)
    let role := roles.headD (.plain false false)
    let t' ← substituteMember t bindings
    let (here, replaced) := replacedParam name role t
      (if role = .rest ∨ role = .constas then .one t'.whole else t')
    let (params, changed) ← rebuildNorm (i + 1) names.tail roles.tail ts bindings
    pure (here ++ params, replaced || changed)

/-- What the first case that selects the subject gives. -/
def selectArm : Ty → List MatchArm → TypeBindings → SubstM (Option Ty)
  | _, [], _ => pure none
  | subject, .mk shapes identities packPatterns result :: arms, bindings => do
    match ← takePatterns packPatterns subject bindings with
    | some taken => do
      let result' ← substituteMember result taken
      pure (some result'.whole)
    | none => do
      let identical ← isAmong identities subject bindings
      if shapes &&& typeShapeBits table subject ≠ 0 ∨ identical = true then do
        let result' ← substituteMember result bindings
        pure (some result'.whole)
      else selectArm subject arms bindings

/-- The bindings of the first pattern that takes the subject apart. -/
def takePatterns : List Ty → Ty → TypeBindings → SubstM (Option TypeBindings)
  | [], _, _ => pure none
  | pattern :: patterns, subject, bindings => do
    let taken ←
      match packMembers subject with
      | none => pure none
      | some members => do
        let shape ← substituteMember pattern bindings
        takeShape table again shape.whole members bindings
    match taken with
    | some bound => pure (some bound)
    | none => takePatterns patterns subject bindings

/-- Whether the subject is one of the types a case names. -/
def isAmong : List Ty → Ty → TypeBindings → SubstM Bool
  | [], _, _ => pure false
  | identity :: identities, subject, bindings => do
    let pattern ← substituteMember identity bindings
    let others ← isAmong identities subject bindings
    pure ((!containsTypeVar pattern.whole && typeEquals table subject pattern.whole) || others)

def substituteArms : List MatchArm → TypeBindings → SubstM (List MatchArm)
  | [], _ => pure []
  | .mk shapes identities packPatterns result :: arms, bindings => do
    let identities' ← substituteAll identities bindings
    let packPatterns' ← substituteAll packPatterns bindings
    let result' ← substituteMember result bindings
    let arms' ← substituteArms arms bindings
    pure (.mk shapes identities' packPatterns' result'.whole :: arms')

end

end Walk

/-! ## The Source -/

/-- `depth` bounds how often the members of a pattern are substituted again inside one another;
    there is no result where it does not reach. -/
def substituteTypeVars : Nat → Ty → TypeBindings → SubstM Ty
  | 0, _, _ => fun _ => none
  | depth + 1, type, bindings =>
    if bindings = [] then pure type
    else do
      let members ← substituteMember table (substituteTypeVars depth) type bindings
      pure members.whole

/-- Whether the pattern fits the pack, and the bindings after it: with what its names stand for
    where it fits, and as they were where it does not. -/
def takePackApart (depth : Nat) (pattern subject : Ty) (bindings : TypeBindings) :
    SubstM (Bool × TypeBindings) :=
  match packMembers subject with
  | none => pure (false, bindings)
  | some members => do
    let shape ← substituteTypeVars table depth pattern bindings
    match ← takeShape table (substituteTypeVars table depth) shape members bindings with
    | some bound => pure (true, bound)
    | none => pure (false, bindings)

end Camel.Types
