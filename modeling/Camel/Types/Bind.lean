import Camel.Types.TakeApart

/-! # Type Variables Bound From an Actual Type

    `bindTypeVars` walks a pattern and the type found at the same position together, and binds the
    variables that the pattern declares.
-/

namespace Camel.Types

open Matching List Option

/-! ## The Variables of a Type -/

mutual

/-- The occurrences of variables in a type, each with whether it binds. -/
def varOccurrences : Ty → List (String × Bool)
  | .leaf _ => []
  | .var name binder => [(name, binder)]
  | .array elem _ _ => varOccurrences elem
  | .stream elem => varOccurrences elem
  | .tuple members => varOccurrencesAll members
  | .tagged _ payload => varOccurrences payload
  | .named _ args => varOccurrencesAll args
  | .record _ fields => varOccurrencesAll fields
  | .func _ withTypes normTypes exit =>
    varOccurrencesAll withTypes ++ varOccurrencesAll normTypes ++ varOccurrencesExit exit
  | .app _ params => varOccurrencesAll params
  | .call _ params => varOccurrencesAll params
  | .matchType subject arms => varOccurrences subject ++ varOccurrencesArms arms

def varOccurrencesAll : List Ty → List (String × Bool)
  | [] => []
  | t :: ts => varOccurrences t ++ varOccurrencesAll ts

def varOccurrencesExit : Option Ty → List (String × Bool)
  | none => []
  | some t => varOccurrences t

def varOccurrencesArms : List MatchArm → List (String × Bool)
  | [] => []
  | .mk _ identities packPatterns result :: arms =>
    varOccurrencesAll identities ++ varOccurrencesAll packPatterns ++ varOccurrences result ++
      varOccurrencesArms arms

end

def typeVars (t : Ty) : List String := (varOccurrences t).map Prod.fst

/-- The names of the variables that the pattern can bind. -/
def bindableTypeVars (t : Ty) : List String := ((varOccurrences t).filter Prod.snd).map Prod.fst

/-! ## Forms -/

/-- What tells the forms of types apart. -/
inductive Form where
  | leaf (code : TypeCode)
  | var | array | stream | tuple | struct | func
  | app (code : Nat)
  | call | matchType
  deriving DecidableEq

def Ty.code : Ty → Form
  | .leaf code => .leaf code
  | .var _ _ => .var
  | .array _ _ _ => .array
  | .stream _ => .stream
  | .tuple _ | .tagged _ _ => .tuple
  | .named _ _ | .record _ _ => .struct
  | .func _ _ _ _ => .func
  | .app code _ => .app code
  | .call _ _ => .call
  | .matchType _ _ => .matchType

/-- The parameters of a module type; none for the types of the core. -/
def otherParams : Ty → List Ty
  | .app _ params => params
  | .call _ params => params
  | .matchType subject arms =>
    subject :: arms.flatMap fun
      | .mk _ identities packPatterns result => identities ++ packPatterns ++ [result]
  | _ => []

/-- What the declared types answer: the fields of an instance of a named struct, and whether a type
    determines a type parameter. -/
structure Declarations where
  fieldsOf : Nat → List Ty → List (String × Ty)
  determinesTypeParameters : Ty → Bool

/-- The fields of a struct type with their names. -/
def structFields (decls : Declarations) : Ty → List (String × Ty)
  | .record names fields => names.zip fields
  | .named decl args => decls.fieldsOf decl args
  | _ => []

/-- The element type of an open rank with no prefix, where the actual type is no array. -/
def rankZeroBindTarget : Ty → Ty → Option Ty
  | .array elem [] (.openAt _), actual =>
    if actual.code = .array ∨ elem = .leaf .void then none else some elem
  | _, _ => none

/-! ## Lists Walked Together -/

/-- What a walk over a pattern and a type gives: whether the forms agree, and the bindings after it. -/
abbrev Walk : Type := Ty → Ty → TypeBindings → Option (Bool × TypeBindings)

/-- The pairs one after another, up to the first that does not agree. -/
def bindInTurn (walk : Walk) : List (Ty × Ty) → TypeBindings → Option (Bool × TypeBindings)
  | [], bindings => some (true, bindings)
  | (want, have') :: pairs, bindings => do
    let (ok, bindings) ← walk want have' bindings
    if ok then bindInTurn walk pairs bindings else some (false, bindings)

/-- Every pair, also after one that does not agree. -/
def bindEvery (walk : Walk) : List (Ty × Ty) → TypeBindings → Option (Bool × TypeBindings)
  | [], bindings => some (true, bindings)
  | (want, have') :: pairs, bindings => do
    let (ok, bindings) ← walk want have' bindings
    let (others, bindings) ← bindEvery walk pairs bindings
    some (ok && others, bindings)

/-- The fields of an unnamed value are found by name. -/
def bindFields (walk : Walk) (fields : List (String × Ty)) :
    List (String × Ty) → TypeBindings → Option (Bool × TypeBindings)
  | [], bindings => some (true, bindings)
  | (name, want) :: wants, bindings =>
    match fields.lookup name with
    | none => some (false, bindings)
    | some have' => do
      let (ok, bindings) ← walk want have' bindings
      if ok then bindFields walk fields wants bindings else some (false, bindings)

/-- The parameters before a pack of parameters, its name, and those after it. -/
def splitPack : List Ty → Option (List Ty × String × List Ty)
  | [] => none
  | t :: ts =>
    match expandPattern t with
    | some (.var name _) => some ([], name, ts)
    | _ => (splitPack ts).map fun (before, name, after) => (t :: before, name, after)

def bindPack (name : String) (members : List Ty) (bindings : TypeBindings) : TypeBindings :=
  if (bindings.lookup name).isNone then bindings ++ [(name, makePack members)] else bindings

/-- The parameters before and after a pack are matched in pairs, and those between are the members
    of the pack. -/
def matchParameterList (walk : Walk) (want have' : List Ty) (bindings : TypeBindings) :
    Option (Bool × TypeBindings) :=
  match splitPack want with
  | none =>
    if want.length ≠ have'.length then some (false, bindings)
    else bindEvery walk (want.zip have') bindings
  | some (before, name, after) =>
    if have'.length < before.length + after.length then some (false, bindings)
    else do
      let (ok, bindings) ← bindEvery walk (before.zip have') bindings
      let (ok', bindings) ←
        bindEvery walk (after.zip (have'.drop (have'.length - after.length))) bindings
      let members := (have'.take (have'.length - after.length)).drop before.length
      some (ok && ok', bindPack name members bindings)

/-- The results of two function types, where both have one. -/
def bindExit (walk : Walk) : Option Ty → Option Ty → TypeBindings → Option (Bool × TypeBindings)
  | some want, some have', bindings => walk want have' bindings
  | _, _, bindings => some (true, bindings)

/-! ## The Walk -/

variable (decls : Declarations)

/-- The parts of two types of one form. -/
def bindParts (walk : Walk) (pattern actual : Ty) (bindings : TypeBindings) :
    Option (Bool × TypeBindings) :=
  match pattern, actual with
  | .array want _ _, .array have' _ _ => walk want have' bindings
  | .stream want, .stream have' => walk want have' bindings
  | .tuple want, .tuple have' =>
    if want.length ≠ have'.length then some (false, bindings)
    else bindInTurn walk (want.zip have') bindings
  | .tagged kind want, .tagged kind' have' =>
    if kind ≠ kind' then some (false, bindings) else bindInTurn walk [(want, have')] bindings
  | .tuple _, .tagged _ _ | .tagged _ _, .tuple _ => some (false, bindings)
  | .named decl want, .named decl' have' =>
    if decl ≠ decl' ∨ want.length ≠ have'.length then some (false, bindings)
    else bindInTurn walk (want.zip have') bindings
  | .named _ _, .record _ _ | .record _ _, .named _ _ | .record _ _, .record _ _ =>
    bindFields walk (structFields decls actual) (structFields decls pattern) bindings
  | .func _ withTypes normTypes exit, .func _ withTypes' normTypes' exit' => do
    let (ok, bindings) ← matchParameterList walk withTypes withTypes' bindings
    if ok then
      let (ok', bindings) ← matchParameterList walk normTypes normTypes' bindings
      if ok' then bindExit walk exit exit' bindings else some (false, bindings)
    else some (false, bindings)
  | pattern, actual =>
    if otherParams pattern = [] then some (true, bindings)
    -- a bare name states no argument
    else if otherParams actual = [] then some (true, bindings)
    else if (otherParams actual).length ≠ (otherParams pattern).length then some (false, bindings)
    else bindInTurn walk ((otherParams pattern).zip (otherParams actual)) bindings

/-- An occurrence that binds takes the actual type, unless the variable is bound already. -/
def bindVar (name : String) (binder : Bool) (actual : Ty) (bindings : TypeBindings) : TypeBindings :=
  if binder = true ∧ decls.determinesTypeParameters actual = true ∧ bindings.lookup name = none then
    bindings ++ [(name, actual)]
  else bindings

/-- A pattern that is no variable. -/
def bindForm (walk : Walk) (pattern actual : Ty) (bindings : TypeBindings) :
    Option (Bool × TypeBindings) :=
  if (bindableTypeVars pattern).all fun name => (bindings.lookup name).isSome then
    some (true, bindings)
  else if pattern.code ≠ actual.code then
    match rankZeroBindTarget pattern actual with
    | some zero => walk zero actual bindings
    | none => some (false, bindings)
  else bindParts decls walk pattern actual bindings

/-- Whether the actual type has the form in which the pattern reaches its variables, and the
    bindings after the walk. The fields of named structs can go round, so `fuel` bounds the walk. -/
def bindTypeVars : Nat → Walk
  | 0, _, _, _ => none
  | _ + 1, .var name binder, actual, bindings => some (true, bindVar decls name binder actual bindings)
  | fuel + 1, pattern, actual, bindings =>
    bindForm decls (bindTypeVars fuel) pattern actual bindings

/-! ## Bindings Are Only Added -/

/-- The one table is the other with bindings of new names after it, each name once. -/
def Grows (β β' : TypeBindings) : Prop :=
  ∃ added, β' = β ++ added ∧ (added.map Prod.fst).Nodup ∧
    ∀ entry ∈ added, β.lookup entry.1 = none

theorem Grows.refl (β : TypeBindings) : Grows β β :=
  ⟨[], (append_nil β).symm, nodup_nil, nofun⟩

variable {β : TypeBindings}

theorem grows_one {name : String} (h : β.lookup name = none) (type : Ty) :
    Grows β (β ++ [(name, type)]) := by
  refine ⟨[(name, type)], rfl, nodup_singleton name, fun entry hentry => ?_⟩
  rw [mem_singleton.1 hentry]
  exact h

theorem lookup_none_append {added : TypeBindings} {name : String} :
    (β ++ added).lookup name = none ↔ β.lookup name = none ∧ name ∉ added.map Prod.fst := by
  rw [lookup_append, or_eq_none_iff, lookup_eq_none_iff (l := added)]
  simp only [List.mem_map, not_exists, not_and, bne_iff_ne]
  exact and_congr_right fun _ => forall₂_congr fun entry _ => ⟨Ne.symm, Ne.symm⟩

theorem Grows.trans {β' β'' : TypeBindings} (h : Grows β β') (h' : Grows β' β'') : Grows β β'' := by
  obtain ⟨added, rfl, hnodup, hnew⟩ := h
  obtain ⟨added', rfl, hnodup', hnew'⟩ := h'
  refine ⟨added ++ added', append_assoc _ _ _, ?_, ?_⟩
  · rw [map_append]
    apply hnodup.append hnodup'
    intro name hname hname'
    obtain ⟨entry, hentry, rfl⟩ := mem_map.1 hname'
    exact (lookup_none_append.1 (hnew' entry hentry)).2 hname
  · intro entry hentry
    rcases mem_append.1 hentry with hentry | hentry
    · exact hnew entry hentry
    · exact (lookup_none_append.1 (hnew' entry hentry)).1

theorem Grows.extends {β' : TypeBindings} (h : Grows β β') : Extends β' β := by
  obtain ⟨added, rfl, -, -⟩ := h
  exact extends_append β added

theorem grows_bindPack (name : String) (members : List Ty) (β : TypeBindings) :
    Grows β (bindPack name members β) := by
  unfold bindPack
  split
  · next h => exact grows_one (isNone_iff_eq_none.1 h) _
  · exact Grows.refl β

/-- The walk only adds bindings, whatever it answers. -/
def Walk.Grows (walk : Walk) : Prop :=
  ∀ p a β ok β', walk p a β = some (ok, β') → Types.Grows β β'

theorem grows_answered {answer ok : Bool} {β β' : TypeBindings}
    (h : some (answer, β) = some (ok, β')) : Grows β β' := by
  cases h
  exact Grows.refl β

section Grows

variable {walk : Walk} (hwalk : walk.Grows)
include hwalk

variable {β' : TypeBindings} {ok : Bool}

theorem bindInTurn_grows {pairs : List (Ty × Ty)} {β : TypeBindings}
    (h : bindInTurn walk pairs β = some (ok, β')) : Grows β β' := by
  induction pairs generalizing β with
  | nil =>
    exact grows_answered h
  | cons pair pairs ih =>
    obtain ⟨⟨ok₁, β₁⟩, h₁, hrest⟩ := bind_eq_some_iff.1 h
    have hfirst := hwalk _ _ _ _ _ h₁
    cases ok₁ with
    | false =>
      cases hrest
      exact hfirst
    | true => exact hfirst.trans (ih hrest)

theorem bindEvery_grows {pairs : List (Ty × Ty)} {β : TypeBindings}
    (h : bindEvery walk pairs β = some (ok, β')) : Grows β β' := by
  induction pairs generalizing β ok with
  | nil =>
    exact grows_answered h
  | cons pair pairs ih =>
    obtain ⟨⟨ok₁, β₁⟩, h₁, hrest⟩ := bind_eq_some_iff.1 h
    obtain ⟨⟨ok₂, β₂⟩, h₂, hlast⟩ := bind_eq_some_iff.1 hrest
    cases hlast
    exact (hwalk _ _ _ _ _ h₁).trans (ih h₂)

theorem bindFields_grows {fields wants : List (String × Ty)} {β : TypeBindings}
    (h : bindFields walk fields wants β = some (ok, β')) : Grows β β' := by
  induction wants generalizing β with
  | nil =>
    exact grows_answered h
  | cons want wants ih =>
    obtain ⟨name, type⟩ := want
    rw [bindFields] at h
    cases hfield : fields.lookup name with
    | none =>
      rw [hfield] at h
      exact grows_answered h
    | some found =>
      rw [hfield] at h
      obtain ⟨⟨ok₁, β₁⟩, h₁, hrest⟩ := bind_eq_some_iff.1 h
      have hfirst := hwalk _ _ _ _ _ h₁
      cases ok₁ with
      | false =>
        cases hrest
        exact hfirst
      | true => exact hfirst.trans (ih hrest)

theorem matchParameterList_grows {want given : List Ty} {β : TypeBindings}
    (h : matchParameterList walk want given β = some (ok, β')) : Grows β β' := by
  unfold matchParameterList at h
  cases hsplit : splitPack want with
  | none =>
    rw [hsplit] at h
    dsimp only at h
    split at h
    · exact grows_answered h
    · exact bindEvery_grows hwalk h
  | some parts =>
    obtain ⟨before, name, after⟩ := parts
    rw [hsplit] at h
    dsimp only at h
    split at h
    · exact grows_answered h
    · obtain ⟨⟨ok₁, β₁⟩, h₁, hrest⟩ := bind_eq_some_iff.1 h
      obtain ⟨⟨ok₂, β₂⟩, h₂, hlast⟩ := bind_eq_some_iff.1 hrest
      cases hlast
      have hpairs := (bindEvery_grows hwalk h₁).trans (bindEvery_grows hwalk h₂)
      exact hpairs.trans (grows_bindPack name _ β₂)

theorem bindExit_grows {want given : Option Ty} {β : TypeBindings}
    (h : bindExit walk want given β = some (ok, β')) : Grows β β' := by
  unfold bindExit at h
  split at h
  · exact hwalk _ _ _ _ _ h
  · exact grows_answered h

theorem bindParts_grows {pattern actual : Ty} {β : TypeBindings}
    (h : bindParts decls walk pattern actual β = some (ok, β')) : Grows β β' := by
  unfold bindParts at h
  split at h
  · exact hwalk _ _ _ _ _ h
  · exact hwalk _ _ _ _ _ h
  · split at h
    · exact grows_answered h
    · exact bindInTurn_grows hwalk h
  · split at h
    · exact grows_answered h
    · exact bindInTurn_grows hwalk h
  · exact grows_answered h
  · exact grows_answered h
  · split at h
    · exact grows_answered h
    · exact bindInTurn_grows hwalk h
  · exact bindFields_grows hwalk h
  · exact bindFields_grows hwalk h
  · exact bindFields_grows hwalk h
  · obtain ⟨⟨ok₁, β₁⟩, h₁, hrest⟩ := bind_eq_some_iff.1 h
    have hwith := matchParameterList_grows hwalk h₁
    cases ok₁ with
    | false =>
      cases hrest
      exact hwith
    | true =>
      obtain ⟨⟨ok₂, β₂⟩, h₂, hlast⟩ := bind_eq_some_iff.1 hrest
      have hnorm := hwith.trans (matchParameterList_grows hwalk h₂)
      cases ok₂ with
      | false =>
        cases hlast
        exact hnorm
      | true => exact hnorm.trans (bindExit_grows hwalk hlast)
  · split at h
    · exact grows_answered h
    · split at h
      · exact grows_answered h
      · split at h
        · exact grows_answered h
        · exact bindInTurn_grows hwalk h

theorem bindForm_grows {pattern actual : Ty} {β : TypeBindings}
    (h : bindForm decls walk pattern actual β = some (ok, β')) : Grows β β' := by
  unfold bindForm at h
  split at h
  · exact grows_answered h
  · split at h
    · split at h
      · exact hwalk _ _ _ _ _ h
      · exact grows_answered h
    · exact bindParts_grows decls hwalk h

end Grows

theorem bindVar_grows (name : String) (binder : Bool) (actual : Ty) (β : TypeBindings) :
    Grows β (bindVar decls name binder actual β) := by
  unfold bindVar
  split
  · next hfree => exact grows_one hfree.2.2 actual
  · exact Grows.refl β

/-- Bindings are only added, and none that exists is changed. -/
theorem bindTypeVars_grows (fuel : Nat) : (bindTypeVars decls fuel).Grows := by
  induction fuel with
  | zero =>
    intro pattern actual β ok β' h
    rw [bindTypeVars] at h
    cases h
  | succ fuel ih =>
    intro pattern actual β ok β' h
    cases pattern with
    | var name binder =>
      cases h
      exact bindVar_grows decls name binder actual β
    | _ => exact bindForm_grows decls ih h

end Camel.Types
