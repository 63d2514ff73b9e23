import Camel.Types.Bind
import Camel.Types.Slots

/-! # What the Bound Variables Stand For

    Where `bindTypeVars` answers that the forms agree and has bound what the pattern declares, the
    bindings make the actual type of the pattern, as far as the parts of the pattern in which
    nothing is bound are those of the actual type.
-/

namespace Camel.Types

open Camel.Matching List

variable (table : TypeTable)

/-! ## What the Walk Does Not Look At -/

/-- The actual parameters at the places of those that are wanted; none at the place of a pack. -/
def aligned (want given : List Ty) : List (Option Ty) :=
  match splitPack want with
  | none => given.map some
  | some (before, _, after) =>
    (given.take before.length).map some ++
      none :: (given.drop (given.length - after.length)).map some

/-- The marks of the parameters, one for each. -/
def rolesOf : List Role → List Ty → List Role
  | _, [] => []
  | roles, _ :: ts => roles.headD (.plain false false) :: rolesOf roles.tail ts

/-- The marks once a pack of parameters is written out: its members have none. -/
def writtenRoles (roles : List Role) (want : List Ty) (count : Nat) : List Role :=
  match splitPack want with
  | none => rolesOf roles want
  | some (before, _, after) =>
    rolesOf roles before ++ List.replicate (count - (before.length + after.length)) (.plain false false) ++
      rolesOf (roles.drop (before.length + 1)) after

/-- A rest of a parameter list writes no type. -/
def restsVoid : List Role → List Ty → Bool
  | _, [] => true
  | roles, t :: ts =>
    (roles.headD (.plain false false) ≠ .rest || t = .leaf .void) && restsVoid roles.tail ts

/-- What stands at a pack of parameters is passed by a call. -/
def packPassed (roles : List Role) (want : List Ty) : Bool :=
  match splitPack want with
  | none => true
  | some (before, _, _) =>
    roles.getD before.length (.plain false false) ≠ .rest &&
      roles.getD before.length (.plain false false) ≠ .constas

/-- Two function types mark their parameters alike, one mark for each, and write one resource
    clause. -/
structure SameMarks (want given : Signature) (withTypes normTypes withTypes' normTypes' : List Ty) :
    Prop where
  resources : want.resources = given.resources
  withEach : want.withRoles = rolesOf want.withRoles withTypes
  normEach : want.normRoles = rolesOf want.normRoles normTypes
  withRoles : given.withRoles = writtenRoles want.withRoles withTypes withTypes'.length
  normRoles : given.normRoles = writtenRoles want.normRoles normTypes normTypes'.length
  withRest : restsVoid want.withRoles withTypes = true
  withPack : packPassed want.withRoles withTypes = true
  normPack : packPassed want.normRoles normTypes = true

/-- A part of the pattern in which nothing is bound is the actual type; the others are as said. -/
def Held (pattern actual : Ty) (parts : Prop) : Prop :=
  (bindableTypeVars pattern = [] → SameType table pattern actual) ∧
    (bindableTypeVars pattern ≠ [] → parts)

mutual

/-- What the walk does not look at is the same in the pattern and in the actual type: the parts in
    which the pattern binds nothing, the shapes of arrays, the marks of function types, and which
    fields an unnamed struct has. Nothing is asked where the forms differ. -/
def SameOutside : Ty → Ty → Prop
  | .leaf code, actual => SameType table (.leaf code) actual
  | .var name binder, actual => Held table (.var name binder) actual True
  | .array elem extents rank, actual => Held table (.array elem extents rank) actual
    (match actual with
    | .array elem' extents' rank' =>
      table.canonicalShape extents = table.canonicalShape extents' ∧ rank.nameless = rank'.nameless ∧
        SameOutside elem elem'
    | _ => False)
  | .stream elem, actual => Held table (.stream elem) actual
    (match actual with
    | .stream elem' => SameOutside elem elem'
    | _ => True)
  | .tuple members, actual => Held table (.tuple members) actual
    (match actual with
    | .tuple members' => eachOutside members (members'.map some)
    | _ => True)
  | .tagged kind payload, actual => Held table (.tagged kind payload) actual
    (match actual with
    | .tagged _ payload' => SameOutside payload payload'
    | _ => True)
  | .named decl args, actual => Held table (.named decl args) actual
    (match actual with
    | .named _ args' => eachOutside args (args'.map some)
    | .record _ _ => False
    | _ => True)
  | .record names fields, actual => Held table (.record names fields) actual
    (match actual with
    | .record names' fields' =>
      names = names' ∧ names.Nodup ∧ fields.length = names.length ∧
        fields'.length = names.length ∧ eachOutside fields (fields'.map some)
    | .named _ _ => False
    | _ => True)
  | .func signature withTypes normTypes exit, actual =>
    Held table (.func signature withTypes normTypes exit) actual
      (match actual with
      | .func signature' withTypes' normTypes' exit' =>
        SameMarks signature signature' withTypes normTypes withTypes' normTypes' ∧
          eachOutside withTypes (aligned withTypes withTypes') ∧
          eachOutside normTypes (aligned normTypes normTypes') ∧ exitOutside exit exit'
      | _ => True)
  | .app code params, actual => Held table (.app code params) actual
    (match actual with
    | .app _ params' => eachOutside params (params'.map some)
    | _ => True)
  | .call name params, actual => Held table (.call name params) actual
    (match actual with
    -- a pack, or another call that is not computed
    | .call name' params' =>
      name = name' ∧ name ≠ kExpandName ∧ (∀ args, table.evaluate name args = none) ∧
        eachOutside params (params'.map some)
    | _ => True)
  | .matchType subject arms, actual => Held table (.matchType subject arms) actual True

def eachOutside : List Ty → List (Option Ty) → Prop
  | [], _ => True
  | _ :: _, [] => True
  -- the expansion of a pack of parameters has one argument
  | t :: ts, none :: givens => t.settles = true ∧ eachOutside ts givens
  | t :: ts, some given :: givens => SameOutside t given ∧ eachOutside ts givens

def exitOutside : Option Ty → Option Ty → Prop
  | none, none => True
  | some t, some given => SameOutside t given
  | _, _ => False

end

/-! ## What Is Found -/

/-- A walk over parts with these occurrences binds no other name, and once it has bound those that
    bind, every table that keeps its bindings gives the result. -/
structure Found (occurrences : List (String × Bool)) (β β' : TypeBindings)
    (result : TypeBindings → Prop) : Prop where
  names : ∀ n, (β'.lookup n).isSome = true →
    (β.lookup n).isSome = true ∨ n ∈ occurrences.map Prod.fst
  yields : (∀ n ∈ (occurrences.filter Prod.snd).map Prod.fst, (β'.lookup n).isSome = true) →
    ∀ σ, Extends σ β' → result σ

/-- The names of later parts are free after the earlier ones. -/
theorem Found.fresh {occ occ' : List (String × Bool)} {β β₁ : TypeBindings}
    {result : TypeBindings → Prop} (h : Found occ β β₁ result)
    (hnodup : ((occ ++ occ').map Prod.fst).Nodup)
    (hfree : ∀ n ∈ occ'.map Prod.fst, β.lookup n = none) :
    ∀ n ∈ occ'.map Prod.fst, β₁.lookup n = none := by
  intro n hn
  rw [map_append] at hnodup
  by_contra hbound
  rcases h.names n (Option.isSome_iff_ne_none.2 hbound) with hold | hmem
  · rw [hfree n hn] at hold
    cases hold
  · exact disjoint_of_nodup_append hnodup hmem hn

/-- One part after another. -/
theorem Found.append {occ occ' : List (String × Bool)} {β β₁ β₂ : TypeBindings}
    {first second : TypeBindings → Prop} (h : Found occ β β₁ first) (h' : Found occ' β₁ β₂ second)
    (hext : Extends β₂ β₁) (hnodup : ((occ ++ occ').map Prod.fst).Nodup) :
    Found (occ ++ occ') β β₂ fun σ => first σ ∧ second σ := by
  constructor
  · intro n hn
    rw [map_append, mem_append]
    rcases h'.names n hn with hn | hn
    · exact (h.names n hn).imp_right .inl
    · exact .inr (.inr hn)
  · intro hbound σ hσ
    rw [filter_append, map_append] at hbound
    have hfirst : ∀ n ∈ (occ.filter Prod.snd).map Prod.fst, (β₁.lookup n).isSome = true := by
      intro n hn
      rcases h'.names n (hbound n (mem_append.2 (.inl hn))) with hold | hmem
      · exact hold
      · -- a name of the first part is none of the second
        have hmem' : n ∈ occ.map Prod.fst := by
          obtain ⟨entry, hentry, rfl⟩ := mem_map.1 hn
          exact mem_map.2 ⟨entry, mem_of_mem_filter hentry, rfl⟩
        rw [map_append] at hnodup
        exact absurd hmem (disjoint_of_nodup_append hnodup hmem')
    exact ⟨h.yields hfirst σ (hσ.trans hext),
      h'.yields (fun n hn => hbound n (mem_append.2 (.inr hn))) σ hσ⟩

theorem Found.imp {occ : List (String × Bool)} {β β' : TypeBindings}
    {first second : TypeBindings → Prop} (h : Found occ β β' first) (himp : ∀ σ, first σ → second σ) :
    Found occ β β' second :=
  ⟨h.names, fun hbound σ hσ => himp σ (h.yields hbound σ hσ)⟩

theorem Found.nothing (occ : List (String × Bool)) (β : TypeBindings) {result : TypeBindings → Prop}
    (h : ∀ σ, Extends σ β → result σ) : Found occ β β result :=
  ⟨fun _ hn => .inl hn, fun _ => h⟩

/-! ## Types That Are Made -/

mutual

theorem writtenOut_nameless (shape : List ExtentForm → List ExtentForm) :
    ∀ t : Ty, (t.nameless shape).writtenOut = t.writtenOut
  | .leaf _ => rfl
  | .var _ _ => rfl
  | .array elem _ _ => writtenOut_nameless shape elem
  | .stream elem => writtenOut_nameless shape elem
  | .tuple members => allWrittenOut_nameless shape members
  | .tagged _ payload => writtenOut_nameless shape payload
  | .named _ args => allWrittenOut_nameless shape args
  | .record _ fields => allWrittenOut_nameless shape fields
  | .func _ withTypes normTypes exit => by
    rw [Ty.nameless, Ty.writtenOut, Ty.writtenOut, allWrittenOut_nameless shape withTypes,
      allWrittenOut_nameless shape normTypes, exitWrittenOut_nameless shape exit]
  | .app _ params => allWrittenOut_nameless shape params
  | .call name params => by
    rw [Ty.nameless, Ty.writtenOut, Ty.writtenOut, allWrittenOut_nameless shape params]
  | .matchType _ _ => rfl

theorem allWrittenOut_nameless (shape : List ExtentForm → List ExtentForm) :
    ∀ ts : List Ty, allWrittenOut (namelessAll shape ts) = allWrittenOut ts
  | [] => rfl
  | t :: ts => by
    rw [namelessAll, allWrittenOut, allWrittenOut, writtenOut_nameless shape t,
      allWrittenOut_nameless shape ts]

theorem exitWrittenOut_nameless (shape : List ExtentForm → List ExtentForm) :
    ∀ x : Option Ty, exitWrittenOut (namelessExit shape x) = exitWrittenOut x
  | none => rfl
  | some t => writtenOut_nameless shape t

end

variable {table}

variable {a : Ty}

theorem sameType_iff {b : Ty} :
    SameType table a b ↔ a.nameless table.canonicalShape = b.nameless table.canonicalShape :=
  typeEquals_iff table

variable {as : List Ty}

theorem sameTypes_iff {bs : List Ty} :
    Forall₂ (SameType table) as bs ↔
      namelessAll table.canonicalShape as = namelessAll table.canonicalShape bs := by
  rw [namelessAll_eq_iff]
  unfold SameType
  simp only [typeEquals_iff]

variable {p : Ty}

theorem writtenOut_of_sameType (h : SameType table p a) (ha : a.writtenOut = true) :
    p.writtenOut = true := by
  rw [← writtenOut_nameless table.canonicalShape p, sameType_iff.1 h, writtenOut_nameless]
  exact ha

/-- With the bindings in it the pattern, which is no expansion, is one type, the actual one. -/
def Yields (table : TypeTable) (σ : TypeBindings) (p a : Ty) : Prop :=
  p.settles = true ∧ expandPattern p = none ∧
    ∃ t, putMember table σ p .whole = .one t ∧ SameType table t a

/-- A part in which nothing is bound stays what it is. -/
theorem yields_of_sameType (h : SameType table p a) (ha : a.writtenOut = true)
    (σ : TypeBindings) : Yields table σ p a := by
  have hp := writtenOut_of_sameType h ha
  exact ⟨settles_of_writtenOut p hp, expandPattern_writtenOut hp, p,
    putMember_writtenOut table σ p hp, h⟩

variable {σ : TypeBindings}

theorem yields_var {name : String} (h : σ.lookup name = some a)
    (binder : Bool) : Yields table σ (.var name binder) a := by
  refine ⟨rfl, rfl, a, ?_, (sameType_equivalence table).refl a⟩
  rw [putMember, h]
  show Members.one (readPack .whole a) = .one a
  unfold readPack
  cases packMembers a <;> rfl

/-- Each of the types stands for one type. -/
def Ones (table : TypeTable) (σ : TypeBindings) (ps ts : List Ty) : Prop :=
  Forall₂ (fun p t => putMember table σ p .whole = .one t) ps ts

variable {ps : List Ty}

theorem ones_of_yields
    (h : Forall₂ (Yields table σ) ps as) :
    allSettle ps = true ∧ ∃ ts, Ones table σ ps ts ∧ Forall₂ (SameType table) ts as := by
  induction h with
  | nil => exact ⟨rfl, [], .nil, .nil⟩
  | cons hp _ ih =>
    obtain ⟨hsettles, -, t, hput, hsame⟩ := hp
    obtain ⟨hall, ts, hones, hsames⟩ := ih
    refine ⟨?_, t :: ts, .cons hput hones, .cons hsame hsames⟩
    rw [allSettle, hsettles, hall]
    rfl

theorem putAll_of_ones {ts : List Ty} (h : Ones table σ ps ts) :
    putAll table σ ps .whole = ts := by
  induction h with
  | nil => rw [putAll]
  | cons hp _ ih =>
    rw [putAll, hp, ih]
    rfl

theorem putSpliced_of_ones {ts : List Ty} (h : Ones table σ ps ts) :
    putSpliced table σ ps .whole = ts := by
  induction h with
  | nil => rw [putSpliced]
  | cons hp _ ih =>
    rw [putSpliced, hp, ih]
    rfl

theorem yields_array (h : Yields table σ p a)
    {extents extents' : List ExtentForm} {rank rank' : Rank}
    (hextents : table.canonicalShape extents = table.canonicalShape extents')
    (hrank : rank.nameless = rank'.nameless) :
    Yields table σ (.array p extents rank) (.array a extents' rank') := by
  obtain ⟨hsettles, -, t, hput, hsame⟩ := h
  refine ⟨hsettles, rfl, .array t extents rank, ?_, ?_⟩
  · rw [putMember, hput]
    rfl
  · rw [sameType_iff] at hsame ⊢
    rw [Ty.nameless, Ty.nameless, hsame, hextents, hrank]

theorem yields_stream (h : Yields table σ p a) :
    Yields table σ (.stream p) (.stream a) := by
  obtain ⟨hsettles, -, t, hput, hsame⟩ := h
  refine ⟨hsettles, rfl, .stream t, ?_, ?_⟩
  · rw [putMember, hput]
    rfl
  · rw [sameType_iff] at hsame ⊢
    rw [Ty.nameless, Ty.nameless, hsame]

theorem yields_tuple
    (h : Forall₂ (Yields table σ) ps as) : Yields table σ (.tuple ps) (.tuple as) := by
  obtain ⟨hsettles, ts, hones, hsame⟩ := ones_of_yields h
  refine ⟨hsettles, rfl, .tuple ts, ?_, ?_⟩
  · rw [putMember, putSpliced_of_ones hones]
  · rw [sameType_iff, Ty.nameless, Ty.nameless, sameTypes_iff.1 hsame]

/-- A mark stands on the one type that its payload is. -/
theorem yields_tagged (h : Yields table σ p a) (kind : TaggedKind) :
    Yields table σ (.tagged kind p) (.tagged kind a) := by
  obtain ⟨hsettles, hdots, t, hput, hsame⟩ := h
  refine ⟨?_, rfl, .tagged kind t, ?_, ?_⟩
  · rw [Ty.settles, hsettles, hdots]
    rfl
  · rw [putMember, hput]
    rfl
  · rw [sameType_iff] at hsame ⊢
    rw [Ty.nameless, Ty.nameless, hsame]

section
variable (h : Forall₂ (Yields table σ) ps as)
include h

theorem yields_named
    (decl : Nat) :
    Yields table σ (.named decl ps) (.named decl as) := by
  obtain ⟨hsettles, ts, hones, hsame⟩ := ones_of_yields h
  refine ⟨hsettles, rfl, .named decl ts, ?_, ?_⟩
  · rw [putMember, putAll_of_ones hones]
  · rw [sameType_iff, Ty.nameless, Ty.nameless, sameTypes_iff.1 hsame]

theorem yields_record
    (names : List String) :
    Yields table σ (.record names ps) (.record names as) := by
  obtain ⟨hsettles, ts, hones, hsame⟩ := ones_of_yields h
  refine ⟨hsettles, rfl, .record names ts, ?_, ?_⟩
  · rw [putMember, putAll_of_ones hones]
  · rw [sameType_iff, Ty.nameless, Ty.nameless, sameTypes_iff.1 hsame]

theorem yields_app
    (code : Nat) :
    Yields table σ (.app code ps) (.app code as) := by
  obtain ⟨hsettles, ts, hones, hsame⟩ := ones_of_yields h
  refine ⟨hsettles, rfl, .app code ts, ?_, ?_⟩
  · rw [putMember, putAll_of_ones hones]
  · rw [sameType_iff, Ty.nameless, Ty.nameless, sameTypes_iff.1 hsame]

/-- A call that is not computed is the call of what stands for its arguments. -/
theorem yields_call
    {name : String} (hdots : name ≠ kExpandName)
    (hkept : ∀ args, table.evaluate name args = none) :
    Yields table σ (.call name ps) (.call name as) := by
  obtain ⟨hsettles, ts, hones, hsame⟩ := ones_of_yields h
  have hput : putCall table .whole name ps ts = .call name ts := by
    unfold putCall
    split
    · next heq => rw [heq]
    · split
      · rfl
      · rw [hkept ts]
  refine ⟨hsettles, by rw [expandPattern, if_neg hdots], .call name ts, ?_, ?_⟩
  · rw [putMember, putAll_of_ones hones]
    unfold putCallMember
    rw [if_neg (fun hpack => hpack.2 rfl), expandPattern, if_neg hdots]
    exact congrArg Members.one hput
  · rw [sameType_iff, Ty.nameless, Ty.nameless, sameTypes_iff.1 hsame]

end

/-! ## Parameters That Are Made -/

section Params

variable {σ : TypeBindings}

theorem restsVoid_cons {roles : List Role} {t : Ty} {ts : List Ty}
    (h : restsVoid roles (t :: ts) = true) :
    (roles.headD (.plain false false) = .rest → t = .leaf .void) ∧
      restsVoid roles.tail ts = true := by
  simpa [restsVoid, imp_iff_not_or] using h

variable {base : String} {f : Role → Ty → Members}

/-- The parameters after others are those that stand further on. -/
theorem walkParams_append (i : Nat) (names : List String) (roles : List Role) (xs ys : List Ty) :
    walkParams base f i names roles (xs ++ ys) =
      joined (walkParams base f i names roles xs)
        (walkParams base f (i + xs.length) (names.drop xs.length) (roles.drop xs.length) ys) := by
  induction xs generalizing i names roles with
  | nil => simp [walkParams, joined]
  | cons x xs ih =>
    have hi : i + 1 + xs.length = i + (x :: xs).length := by simp only [length_cons]; omega
    have hnames : names.tail.drop xs.length = names.drop (x :: xs).length := by
      rw [drop_tail, length_cons]
    have hroles : roles.tail.drop xs.length = roles.drop (x :: xs).length := by
      rw [drop_tail, length_cons]
    rw [cons_append, walkParams, ih, hi, hnames, hroles, walkParams]
    simp only [joined, append_assoc, Bool.or_assoc]

/-- The marks and the types of rebuilt parameters. -/
structure Made (params : List Param) (roles : List Role) (types : List Ty) : Prop where
  roles : params.map (·.role) = roles
  types : params.map (·.type) = types

theorem Made.append {params params' : List Param} {roles roles' : List Role} {types types' : List Ty}
    (h : Made params roles types) (h' : Made params' roles' types') :
    Made (params ++ params') (roles ++ roles') (types ++ types') :=
  ⟨by rw [map_append, h.roles, h'.roles], by rw [map_append, h.types, h'.types]⟩

/-- The parameters of an expansion have no marks. -/
theorem made_numbered (name : String) (types : List Ty) :
    Made (numbered name types) (List.replicate types.length (.plain false false)) types :=
  ⟨(numbered_map name types).1, (numbered_map name types).2⟩

theorem made_one (name : String) (role : Role) (p t : Ty) :
    Made (replacedParam name role p (.one t)).1 [role] [t] :=
  ⟨rfl, rfl⟩

theorem made_walkParams {ps ts : List Ty} (hone : ∀ role {p t}, putMember table σ p .whole = .one t →
      f role p = .one t) (h : Ones table σ ps ts) (i : Nat) (names : List String)
    (roles : List Role) :
    Made (walkParams base f i names roles ps).1 (rolesOf roles ps) ts := by
  induction h generalizing i names roles with
  | nil =>
    rw [walkParams]
    exact ⟨rfl, rfl⟩
  | @cons p t ps ts hp _ ih =>
    rw [walkParams, hone _ hp]
    exact (made_one _ _ p t).append (ih (i + 1) names.tail roles.tail)

variable {roles : List Role}

/-- Where nothing was replaced the parameters are those there were. -/
theorem unchanged_walkParams {ps : List Ty} {i : Nat} {names : List String}
    (h : (walkParams base f i names roles ps).2 = false) :
    Made (walkParams base f i names roles ps).1 (rolesOf roles ps) ps := by
  induction ps generalizing i names roles with
  | nil =>
    rw [walkParams]
    exact ⟨rfl, rfl⟩
  | cons p ps ih =>
    rw [walkParams, joined] at h ⊢
    rw [Bool.or_eq_false_iff] at h
    rw [replacedParam_same h.1]
    exact (made_one _ _ p p).append (ih h.2)

/-! ## Packs of Parameters -/

/-- What a list with a pack of parameters is made of. -/
theorem splitPack_some {want before after : List Ty}
    (h : splitPack want = some (before, name, after)) :
    ∃ binder others, want = before ++ .call kExpandName (.var name binder :: others) :: after := by
  induction want generalizing before with
  | nil => cases h
  | cons t ts ih =>
    rw [splitPack] at h
    split at h
    · next found binder hpattern =>
      cases h
      cases t with
      | call f params =>
        rw [expandPattern] at hpattern
        split at hpattern
        · next hf =>
          obtain ⟨others, rfl⟩ := List.head?_eq_some_iff.1 hpattern
          exact ⟨binder, others, by rw [hf]; rfl⟩
        · cases hpattern
      | _ => cases hpattern
    · obtain ⟨⟨before', name', after'⟩, hrest, heq⟩ := Option.map_eq_some_iff.1 h
      cases heq
      obtain ⟨binder, others, rfl⟩ := ih hrest
      exact ⟨binder, others, rfl⟩

/-- The parameters that those of the pattern stand for: each its own, or those before and after a
    pack and the members of the pack between. -/
inductive ParamsYield (table : TypeTable) (σ : TypeBindings) (want : List Ty) : List Ty → Prop where
  | each {given : List Ty} (hsplit : splitPack want = none)
      (heach : Forall₂ (Yields table σ) want given) : ParamsYield table σ want given
  | pack {before after before' members after' : List Ty} {name : String}
      (hsplit : splitPack want = some (before, name, after))
      (hbefore : Forall₂ (Yields table σ) before before')
      (hafter : Forall₂ (Yields table σ) after after')
      (hpack : σ.lookup name = some (makePack members)) :
      ParamsYield table σ want (before' ++ members ++ after')

variable {want given : List Ty}

theorem headD_drop {α : Type} (xs : List α) (n : Nat) (x : α) :
    (xs.drop n).headD x = xs.getD n x := by
  rw [headD_eq_head?_getD, head?_drop, getD_eq_getElem?_getD]

/-- What stands at a pack of parameters are the members that it is bound to. -/
theorem putMember_pack {members : List Ty}
    (h : σ.lookup name = some (makePack members)) (binder : Bool) (others : List Ty) (ρ : Reading) :
    putMember table σ (.call kExpandName (.var name binder :: others)) ρ = .many members :=
  putMember_expand_pack table h (packMembers_makePack members) others ρ

/-- The rebuilt parameters are those of the actual type, where `f` is substitution at one type and
    at a pack that is passed. -/
theorem made_params (hone : ∀ role {p t}, putMember table σ p .whole = .one t → f role p = .one t)
    (hpass : ∀ {role} p, role ≠ .rest → role ≠ .constas → f role p = putMember table σ p .whole)
    (h : ParamsYield table σ want given) (hpassed : packPassed roles want = true) (i : Nat)
    (names : List String) :
    ∃ types, Forall₂ (SameType table) types given ∧
      Made (walkParams base f i names roles want).1 (writtenRoles roles want given.length)
        types := by
  unfold packPassed at hpassed
  unfold writtenRoles
  cases h with
  | each hsplit heach =>
    obtain ⟨-, types, hones, hsame⟩ := ones_of_yields heach
    rw [hsplit]
    exact ⟨types, hsame, made_walkParams hone hones i names roles⟩
  | @pack before after before' members after' name hsplit hbefore hafter hpack =>
    obtain ⟨-, types₁, hones₁, hsame₁⟩ := ones_of_yields hbefore
    obtain ⟨-, types₂, hones₂, hsame₂⟩ := ones_of_yields hafter
    obtain ⟨binder, others, rfl⟩ := splitPack_some hsplit
    have hmembers : Forall₂ (SameType table) members members :=
      forall₂_same.2 fun t _ => (sameType_equivalence table).refl t
    rw [hsplit] at hpassed ⊢
    dsimp only at hpassed ⊢
    rw [Bool.and_eq_true, decide_eq_true_eq, decide_eq_true_eq] at hpassed
    -- the members are all that is given beside the parameters before and after
    have hcount : (before' ++ members ++ after').length - (before.length + after.length) =
        members.length := by
      rw [length_append, length_append, hbefore.length_eq, hafter.length_eq]
      omega
    refine ⟨types₁ ++ members ++ types₂,
      rel_append (rel_append hsame₁ hmembers) hsame₂, ?_⟩
    rw [hcount, walkParams_append, walkParams, append_assoc, append_assoc]
    apply (made_walkParams hone hones₁ i names roles).append
    rw [headD_drop roles, hpass _ hpassed.1 hpassed.2, putMember_pack hpack, tail_drop (l := roles)]
    exact (made_numbered _ members).append (made_walkParams hone hones₂ _ _ _)

/-- The results of two function types. -/
def ExitYields (table : TypeTable) (σ : TypeBindings) : Option Ty → Option Ty → Prop
  | none, none => True
  | some t, some given => Yields table σ t given
  | _, _ => False

theorem exit_of_yields {exit exit' : Option Ty} (h : ExitYields table σ exit exit') :
    exitSettles exit = true ∧
      namelessExit table.canonicalShape (putExit table σ exit .whole) =
        namelessExit table.canonicalShape exit' := by
  cases exit with
  | none =>
    cases exit' with
    | none => exact ⟨rfl, by rw [putExit]⟩
    | some given => cases h
  | some t =>
    cases exit' with
    | none => cases h
    | some given =>
      obtain ⟨hsettles, -, made, hput, hsame⟩ := h
      refine ⟨hsettles, ?_⟩
      rw [putExit, hput]
      exact congrArg some (sameType_iff.1 hsame)

/-- Signatures without names are told apart by their marks and their resource clause. -/
theorem nameless_eq {signature signature' : Signature}
    (hwith : signature.withRoles = signature'.withRoles)
    (hnorm : signature.normRoles = signature'.normRoles)
    (hresources : signature.resources = signature'.resources) :
    signature.nameless = signature'.nameless := by
  unfold Signature.nameless
  rw [hwith, hnorm, hresources]

theorem yields_func {signature signature' : Signature}
    {withTypes normTypes withTypes' normTypes' : List Ty} {exit exit' : Option Ty}
    (hmarks : SameMarks signature signature' withTypes normTypes withTypes' normTypes')
    (hwith : ParamsYield table σ withTypes withTypes')
    (hnorm : ParamsYield table σ normTypes normTypes')
    (hsettles : allSettle withTypes = true ∧ allSettle normTypes = true)
    (hexit : ExitYields table σ exit exit') :
    Yields table σ (.func signature withTypes normTypes exit)
      (.func signature' withTypes' normTypes' exit') := by
  obtain ⟨hexitSettles, hexitSame⟩ := exit_of_yields hexit
  obtain ⟨types, hsame, hmade⟩ :=
    made_params (fun _ _ _ hp => hp) (fun _ _ _ => rfl) hwith hmarks.withPack 0 signature.withNames
  obtain ⟨types', hsame', hmade'⟩ := made_params (fun _ _ _ => normMember_one)
    (fun _ hrest hconst => if_neg (not_or.2 ⟨hrest, hconst⟩)) hnorm hmarks.normPack 0
    signature.normNames
  rw [sameTypes_iff] at hsame hsame'
  refine ⟨?_, rfl, ?_⟩
  · rw [Ty.settles, hsettles.1, hsettles.2, hexitSettles]
    rfl
  · rw [putMember,
      putWith_eq (fun roles ts => restsVoid roles ts = true) restsVoid_cons hmarks.withRest,
      putNorm_eq]
    split
    · refine ⟨_, rfl, sameType_iff.2 ?_⟩
      rw [hmade.types, hmade'.types, hmade.roles, hmade'.roles, ← hmarks.withRoles,
        ← hmarks.normRoles, Ty.nameless, Ty.nameless, hsame, hsame', hexitSame]
      congr 1
      exact nameless_eq rfl rfl hmarks.resources
    · next hsaid =>
      -- where nothing was replaced the type is the one there was
      rw [Bool.not_eq_true, Bool.or_eq_false_iff, Bool.or_eq_false_iff, decide_eq_false_iff_not,
        not_not] at hsaid
      have hkept := unchanged_walkParams hsaid.1.1
      have hkept' := unchanged_walkParams hsaid.1.2
      have htypes : withTypes = types := hkept.types.symm.trans hmade.types
      have htypes' : normTypes = types' := hkept'.types.symm.trans hmade'.types
      have hroles : signature.withRoles = signature'.withRoles := by
        rw [hmarks.withEach, ← hkept.roles, hmade.roles, hmarks.withRoles]
      have hroles' : signature.normRoles = signature'.normRoles := by
        rw [hmarks.normEach, ← hkept'.roles, hmade'.roles, hmarks.normRoles]
      refine ⟨_, rfl, sameType_iff.2 ?_⟩
      rw [Ty.nameless, Ty.nameless, nameless_eq hroles hroles' hmarks.resources, htypes, htypes',
        hsame, hsame', ← hexitSame, hsaid.2]

end Params

end Camel.Types
