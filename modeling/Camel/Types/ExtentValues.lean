import Camel.Types.Ty

/-! # Extent Values in Types

    A call knows the values of the names its signature writes as extents, and the dimensions its
    extent packs stand for. `substituteExtentValues` puts them into a type of that signature.
-/

namespace Camel.Types

open List

variable (evaluator : Evaluator) (values : ExtentValues)

/-! ## Extents of One Array -/

/-- The extent with the values in it; one that comes out negative is kept as it is written. -/
def ExtentForm.refined (form : ExtentForm) : ExtentForm :=
  if form.hasNames then
    match form.evaluate evaluator values with
    | some value => if 0 ≤ value then .constant value.toNatClampNeg else form
    | none => form
  else form

/-- The array type with its named extents and its pack replaced: its element type where no
    dimension is left. -/
def withExtentValues (packs : ExtentPacks) (elem : Ty) (extents : List ExtentForm) (rank : Rank) :
    Ty :=
  let forms := extents.map (ExtentForm.refined evaluator values)
  match rank with
  | .fixed => .array elem forms .fixed
  | .openAt pack =>
    match packs.lookup pack with
    | none => .array elem forms (.openAt pack)
    | some dims =>
      if forms ++ dims = [] then elem else .array elem (forms ++ dims) .fixed

/-! ## The Source -/

/-- What a rebuilt function type keeps of the types of its `with` parameters: a typed rest is
    added again without its element type. -/
def restsCleared : List Role → List Ty → List Ty
  | _, [] => []
  | roles, t :: ts =>
    (if roles.head? = some .rest then .leaf .void else t) :: restsCleared roles.tail ts

mutual

/-- `none` where an array type that came out as its element type is used as an array type. -/
def substituteExtentValues : Ty → ExtentPacks → Option Ty
  | .leaf code, _ => some (.leaf code)
  | .var name binder, _ => some (.var name binder)
  | .array elem extents rank, packs =>
    if values = [] then some (.array elem extents rank) else do
      let elem' ← substituteExtentValues elem packs
      match withExtentValues evaluator values packs elem extents rank with
      | .array _ forms rank' => some (.array elem' forms rank')
      | _ => none
  | .stream elem, packs =>
    if values = [] then some (.stream elem) else do
      let elem' ← substituteExtentValues elem packs
      some (.stream elem')
  | .tuple members, packs =>
    if values = [] then some (.tuple members) else do
      let members' ← substituteExtentsAll members packs
      some (.tuple members')
  | .tagged kind payload, packs =>
    if values = [] then some (.tagged kind payload) else do
      let payload' ← substituteExtentValues payload packs
      some (.tagged kind payload')
  | .named decl args, packs =>
    if values = [] then some (.named decl args) else do
      let args' ← substituteExtentsAll args packs
      some (.named decl args')
  | .record names fields, packs =>
    if values = [] then some (.record names fields) else do
      let fields' ← substituteExtentsAll fields packs
      some (.record names fields')
  | .func signature withTypes normTypes exit, _ =>
    if values = [] then some (.func signature withTypes normTypes exit) else do
      -- the walk over a function type hands on the values alone
      let withTypes' ← substituteExtentsWith signature.withRoles withTypes
      let normTypes' ← substituteExtentsAll normTypes []
      let exit' ← substituteExtentsExit exit
      if withTypes' = withTypes ∧ normTypes' = normTypes ∧ exit' = exit then
        some (.func signature withTypes normTypes exit)
      else
        some (.func signature (restsCleared signature.withRoles withTypes') normTypes' exit')
  | .app code params, _ => some (.app code params)
  | .call name params, _ => some (.call name params)
  | .matchType subject arms, _ => some (.matchType subject arms)

def substituteExtentsAll : List Ty → ExtentPacks → Option (List Ty)
  | [], _ => some []
  | t :: ts, packs => do
    let t' ← substituteExtentValues t packs
    let ts' ← substituteExtentsAll ts packs
    some (t' :: ts')

/-- The types of the `with` parameters but the rest, which is not looked at. -/
def substituteExtentsWith : List Role → List Ty → Option (List Ty)
  | _, [] => some []
  | roles, t :: ts =>
    if roles.head? = some .rest then do
      let ts' ← substituteExtentsWith roles.tail ts
      some (t :: ts')
    else do
      let t' ← substituteExtentValues t []
      let ts' ← substituteExtentsWith roles.tail ts
      some (t' :: ts')

def substituteExtentsExit : Option Ty → Option (Option Ty)
  | none => some none
  | some t => do
    let t' ← substituteExtentValues t []
    some (some t')

end

/-! ## What It Is For -/

mutual

/-- The type with every named extent and every extent pack in it replaced, at every depth. -/
def extentsReplaced (packs : ExtentPacks) : Ty → Ty
  | .leaf code => .leaf code
  | .var name binder => .var name binder
  | .array elem extents rank =>
    withExtentValues evaluator values packs (extentsReplaced packs elem) extents rank
  | .stream elem => .stream (extentsReplaced packs elem)
  | .tuple members => .tuple (extentsReplacedAll packs members)
  | .tagged kind payload => .tagged kind (extentsReplaced packs payload)
  | .named decl args => .named decl (extentsReplacedAll packs args)
  | .record names fields => .record names (extentsReplacedAll packs fields)
  | .func signature withTypes normTypes exit =>
    .func signature (extentsReplacedAll packs withTypes) (extentsReplacedAll packs normTypes)
      (extentsReplacedExit packs exit)
  | .app code params => .app code params
  | .call name params => .call name params
  | .matchType subject arms => .matchType subject arms

def extentsReplacedAll (packs : ExtentPacks) : List Ty → List Ty
  | [] => []
  | t :: ts => extentsReplaced packs t :: extentsReplacedAll packs ts

def extentsReplacedExit (packs : ExtentPacks) : Option Ty → Option Ty
  | none => none
  | some t => some (extentsReplaced packs t)

end

/-! ## Where the Two Agree -/

/-- A place in the type, at any depth, that satisfies `p`. -/
inductive Ty.Occurs (p : Ty → Prop) : Ty → Prop where
  | here {t : Ty} : p t → Ty.Occurs p t
  | part {t q : Ty} : q ∈ t.parts → Ty.Occurs p q → Ty.Occurs p t

/-- The array type writes an extent that the values fix, or a pack that is bound. -/
def NamesBound (packs : ExtentPacks) : Ty → Prop
  | .array _ extents rank =>
    (∃ form ∈ extents, form.refined evaluator values ≠ form) ∨
      ∃ pack dims, rank = .openAt pack ∧ packs.lookup pack = some dims
  | _ => False

def Mentions (packs : ExtentPacks) (t : Ty) : Prop :=
  t.Occurs (NamesBound evaluator values packs)

/-- `void`, or arrays of it that have no dimension left. -/
inductive IsVoid (packs : ExtentPacks) : Ty → Prop where
  | void : IsVoid packs (.leaf .void)
  | array {elem : Ty} {pack : String} :
    IsVoid packs elem → packs.lookup pack = some [] → IsVoid packs (.array elem [] (.openAt pack))

/-- The types of the `with` parameters that are typed rests, and those that are not. -/
def withRests : List Role → List Ty → List Ty
  | _, [] => []
  | roles, t :: ts =>
    if roles.head? = some .rest then t :: withRests roles.tail ts else withRests roles.tail ts

def withPassed : List Role → List Ty → List Ty
  | _, [] => []
  | roles, t :: ts =>
    if roles.head? = some .rest then withPassed roles.tail ts else t :: withPassed roles.tail ts

/-- The types of the `with` parameters with those that a call passes replaced. -/
def withReplaced (packs : ExtentPacks) : List Role → List Ty → List Ty
  | _, [] => []
  | roles, t :: ts =>
    (if roles.head? = some .rest then t else extentsReplaced evaluator values packs t) ::
      withReplaced packs roles.tail ts

/-- The parts of a function type that a call passes, and its result. -/
def passedTypes (signature : Signature) (withTypes normTypes : List Ty) (exit : Option Ty) :
    List Ty :=
  withPassed signature.withRoles withTypes ++ normTypes ++ exit.toList

/-- Every pack the type writes is outside function types and leaves a dimension, and a typed rest
    of a function type writes nothing that is bound: or it stands for `void`, where something
    else of the function type is bound. -/
inductive Handled (packs : ExtentPacks) : Bool → Ty → Prop where
  | array {inFunction : Bool} {elem : Ty} {extents : List ExtentForm} {rank : Rank} :
    Handled packs inFunction elem →
    (∀ pack dims, rank = .openAt pack → packs.lookup pack = some dims →
      inFunction = false ∧ ¬(extents = [] ∧ dims = [])) →
    Handled packs inFunction (.array elem extents rank)
  | func {inFunction : Bool} {signature : Signature} {withTypes normTypes : List Ty}
    {exit : Option Ty} :
    (∀ q ∈ passedTypes signature withTypes normTypes exit, Handled packs true q) →
    (∀ t ∈ withRests signature.withRoles withTypes,
      ((∃ q ∈ passedTypes signature withTypes normTypes exit, Mentions evaluator values packs q) →
        IsVoid packs t) ∧
      ((∀ q ∈ passedTypes signature withTypes normTypes exit,
        ¬Mentions evaluator values packs q) → ¬Mentions evaluator values packs t)) →
    Handled packs inFunction (.func signature withTypes normTypes exit)
  | other {inFunction : Bool} {t : Ty} :
    (∀ elem extents rank, t ≠ .array elem extents rank) →
    (∀ signature withTypes normTypes exit, t ≠ .func signature withTypes normTypes exit) →
    (∀ q ∈ t.parts, Handled packs inFunction q) → Handled packs inFunction t

variable {evaluator values}
variable {packs : ExtentPacks}

variable {t : Ty}

theorem mentions_iff :
    Mentions evaluator values packs t ↔
      NamesBound evaluator values packs t ∨ ∃ q ∈ t.parts, Mentions evaluator values packs q := by
  constructor
  · intro h
    cases h with
    | here h => exact .inl h
    | part hq h => exact .inr ⟨_, hq, h⟩
  · intro h
    rcases h with h | ⟨q, hq, h⟩
    · exact .here h
    · exact .part hq h

theorem extentsReplacedAll_eq (ts : List Ty) :
    extentsReplacedAll evaluator values packs ts = ts.map (extentsReplaced evaluator values packs) := by
  induction ts with
  | nil => rfl
  | cons t ts ih =>
    rw [map_cons, ← ih]
    rfl

theorem extentsReplaced_array (elem : Ty) (extents : List ExtentForm) (rank : Rank) :
    extentsReplaced evaluator values packs (.array elem extents rank) =
      withExtentValues evaluator values packs (extentsReplaced evaluator values packs elem) extents
        rank := rfl

theorem extentsReplacedExit_eq (exit : Option Ty) :
    extentsReplacedExit evaluator values packs exit =
      exit.map (extentsReplaced evaluator values packs) := by
  cases exit <;> rfl

section
variable (h : ∀ elem extents rank, t ≠ .array elem extents rank)
include h

/-- Everywhere but in an array type, the parts are all there is to replace. -/
theorem extentsReplaced_eq_mapParts :
    extentsReplaced evaluator values packs t =
      t.mapParts (extentsReplaced evaluator values packs) := by
  cases t with
  | array elem extents rank => exact absurd rfl (h elem extents rank)
  | _ => simp [extentsReplaced, Ty.mapParts, extentsReplacedAll_eq, extentsReplacedExit_eq]

theorem not_namesBound :
    ¬NamesBound evaluator values packs t := by
  cases t with
  | array elem extents rank => exact absurd rfl (h elem extents rank)
  | _ => exact id

theorem mentions_iff_parts :
    Mentions evaluator values packs t ↔ ∃ q ∈ t.parts, Mentions evaluator values packs q := by
  rw [mentions_iff]
  exact or_iff_right (not_namesBound h)

end

/-- A type is an array type, or it is none. -/
theorem Ty.array_or (t : Ty) :
    (∃ elem extents rank, t = .array elem extents rank) ∨
      ∀ elem extents rank, t ≠ .array elem extents rank := by
  cases t with
  | array elem extents rank => exact .inl ⟨elem, extents, rank, rfl⟩
  | _ => exact .inr (fun _ _ _ h => nomatch h)

/-! ## What Is Replaced -/

/-- How many array types stand around the element. -/
def Ty.arrayDepth : Ty → Nat
  | .array elem _ _ => elem.arrayDepth + 1
  | _ => 0

variable (evaluator values packs) in
theorem arrayDepth_extentsReplaced_le (t : Ty) :
    (extentsReplaced evaluator values packs t).arrayDepth ≤ t.arrayDepth := by
  induction t using Ty.induct with
  | h t ih =>
    cases t with
    | array elem extents rank =>
      have hle := ih elem (mem_singleton.2 rfl)
      rw [extentsReplaced_array]
      unfold withExtentValues
      cases rank with
      | fixed => simpa [Ty.arrayDepth] using hle
      | openAt pack =>
        cases hpack : packs.lookup pack with
        | none => simpa [hpack, Ty.arrayDepth] using hle
        | some dims =>
          simp only [hpack]
          split
          · simp only [Ty.arrayDepth]
            omega
          · simpa [Ty.arrayDepth] using hle
    | _ => exact Nat.le_refl 0

theorem extentsReplaced_eq_self_iff (t : Ty) :
    extentsReplaced evaluator values packs t = t ↔ ¬Mentions evaluator values packs t := by
  induction t using Ty.induct with
  | h t ih =>
    rcases t.array_or with ⟨elem, extents, rank, rfl⟩ | hother
    · have hdepth := arrayDepth_extentsReplaced_le evaluator values packs elem
      have helem := ih elem (mem_singleton.2 rfl)
      rw [mentions_iff, not_or]
      simp only [Ty.parts, mem_singleton, exists_eq_left, ← helem, extentsReplaced_array,
        NamesBound, not_or, not_exists, not_and, not_not]
      unfold withExtentValues
      cases rank with
      | fixed => simp [map_eq_self_iff, and_comm]
      | openAt pack =>
        cases hpack : packs.lookup pack with
        | none =>
          have hnone : ∀ p dims, pack = p → ¬packs.lookup p = some dims := by
            rintro p dims rfl
            simp [hpack]
          simp only [hpack, Ty.array.injEq, map_eq_self_iff, and_true, Rank.openAt.injEq]
          constructor
          · intro h
            exact ⟨⟨h.2, hnone⟩, h.1⟩
          · intro h
            exact ⟨h.2, h.1.1⟩
        | some dims =>
          simp only [hpack]
          constructor
          · intro h
            split at h
            · -- nothing is left around the element, so one array type too few
              rw [h] at hdepth
              simp only [Ty.arrayDepth] at hdepth
              omega
            · simp at h
          · rintro ⟨⟨-, h⟩, -⟩
            exact absurd hpack (h pack dims rfl)
    · rw [extentsReplaced_eq_mapParts hother, mentions_iff_parts hother, Ty.mapParts_eq_self_iff]
      constructor
      · rintro h ⟨q, hq, hm⟩
        exact (ih q hq).1 (h q hq) hm
      · intro h q hq
        exact (ih q hq).2 fun hm => h ⟨q, hq, hm⟩

theorem extentsReplaced_eq_void_iff (t : Ty) :
    extentsReplaced evaluator values packs t = .leaf .void ↔ IsVoid packs t := by
  induction t using Ty.induct with
  | h t ih =>
    constructor
    · intro h
      cases t with
      | leaf code =>
        cases h
        exact .void
      | array elem extents rank =>
        have helem := ih elem (mem_singleton.2 rfl)
        rw [extentsReplaced_array] at h
        unfold withExtentValues at h
        cases rank with
        | fixed => cases h
        | openAt pack =>
          cases hpack : packs.lookup pack with
          | none => simp [hpack] at h
          | some dims =>
            simp only [hpack] at h
            split at h
            · rename_i hnil
              simp only [append_eq_nil_iff, map_eq_nil_iff] at hnil
              obtain ⟨rfl, rfl⟩ := hnil
              exact .array (helem.1 h) hpack
            · cases h
      | _ => cases h
    · intro h
      cases h with
      | void => rfl
      | array helem hpack =>
        rw [extentsReplaced_array, (ih _ (mem_singleton.2 rfl)).2 helem]
        simp [withExtentValues, hpack]

/-- No array type that is left over has a pack that is bound. -/
theorem lookup_of_extentsReplaced {elem : Ty} {extents : List ExtentForm} {pack : String}
    (h : extentsReplaced evaluator values packs t = .array elem extents (.openAt pack)) :
    packs.lookup pack = none := by
  induction t using Ty.induct with
  | h t ih =>
    cases t with
    | array inner written rank =>
      rw [extentsReplaced_array] at h
      unfold withExtentValues at h
      cases rank with
      | fixed => cases h
      | openAt name =>
        cases hpack : packs.lookup name with
        | none =>
          simp only [hpack, Ty.array.injEq, Rank.openAt.injEq] at h
          rw [← h.2.2, hpack]
        | some dims =>
          simp only [hpack] at h
          split at h
          · exact ih inner (mem_singleton.2 rfl) h
          · cases h
    | _ => cases h

/-! ## What the Source Leaves -/

theorem substituteExtentsAll_eq (ts : List Ty) (given : ExtentPacks) :
    substituteExtentsAll evaluator values ts given =
      ts.mapM fun t => substituteExtentValues evaluator values t given := by
  induction ts with
  | nil => rfl
  | cons t ts ih => simp [substituteExtentsAll, ih]

theorem mapM_eq_some_map_iff {α β : Type} {f : α → Option β} {g : α → β} {ts : List α} :
    ts.mapM f = some (ts.map g) ↔ ∀ t ∈ ts, f t = some (g t) := by
  induction ts with
  | nil => simp
  | cons t ts ih =>
    simp only [mapM_cons, map_cons, mem_cons, forall_eq_or_imp, ← ih]
    cases f t <;> cases ts.mapM f <;> simp

variable {given : ExtentPacks}

theorem substituteExtentValues_array_eq (elem : Ty) (extents : List ExtentForm) (rank : Rank) :
    substituteExtentValues evaluator values (.array elem extents rank) given =
      if values = [] then some (.array elem extents rank)
      else (substituteExtentValues evaluator values elem given).bind fun elem' =>
        match withExtentValues evaluator values given elem extents rank with
        | .array _ forms rank' => some (.array elem' forms rank')
        | _ => none := rfl

/-- Everywhere but in an array and a function type, the source goes to the parts. -/
theorem substituteExtentValues_parts {g : Ty → Ty}
    (hvalues : values ≠ [])
    (harray : ∀ elem extents rank, t ≠ .array elem extents rank)
    (hfunc : ∀ signature withTypes normTypes exit, t ≠ .func signature withTypes normTypes exit) :
    substituteExtentValues evaluator values t given = some (t.mapParts g) ↔
      ∀ q ∈ t.parts, substituteExtentValues evaluator values q given = some (g q) := by
  cases t with
  | array elem extents rank => exact absurd rfl (harray elem extents rank)
  | func signature withTypes normTypes exit =>
    exact absurd rfl (hfunc signature withTypes normTypes exit)
  | stream elem =>
    simp only [substituteExtentValues, if_neg hvalues, Ty.mapParts, Ty.parts, mem_singleton,
      forall_eq]
    cases substituteExtentValues evaluator values elem given <;> simp
  | tagged kind payload =>
    simp only [substituteExtentValues, if_neg hvalues, Ty.mapParts, Ty.parts, mem_singleton,
      forall_eq]
    cases substituteExtentValues evaluator values payload given <;> simp
  | tuple members =>
    simp only [substituteExtentValues, if_neg hvalues, Ty.mapParts, Ty.parts,
      substituteExtentsAll_eq, ← mapM_eq_some_map_iff]
    cases members.mapM fun t => substituteExtentValues evaluator values t given <;> simp
  | named decl args =>
    simp only [substituteExtentValues, if_neg hvalues, Ty.mapParts, Ty.parts,
      substituteExtentsAll_eq, ← mapM_eq_some_map_iff]
    cases args.mapM fun t => substituteExtentValues evaluator values t given <;> simp
  | record names fields =>
    simp only [substituteExtentValues, if_neg hvalues, Ty.mapParts, Ty.parts,
      substituteExtentsAll_eq, ← mapM_eq_some_map_iff]
    cases fields.mapM fun t => substituteExtentValues evaluator values t given <;> simp
  | _ => simp [substituteExtentValues, Ty.mapParts, Ty.parts]

/-- With no values at all the source returns at once. -/
theorem substituteExtentValues_nil (t : Ty) (given : ExtentPacks) :
    substituteExtentValues evaluator [] t given = some t := by
  cases t <;> rfl

theorem arrayDepth_substituteExtentValues {t' : Ty}
    (h : substituteExtentValues evaluator values t given = some t') :
    t'.arrayDepth = t.arrayDepth := by
  by_cases hvalues : values = []
  · subst hvalues
    rw [substituteExtentValues_nil] at h
    rw [Option.some.inj h]
  induction t using Ty.induct generalizing t' with
  | h t ih =>
    cases t with
    | array elem extents rank =>
      rw [substituteExtentValues_array_eq, if_neg hvalues] at h
      obtain ⟨elem', helem, h⟩ := Option.bind_eq_some_iff.1 h
      have hdepth := ih elem (mem_singleton.2 rfl) helem
      split at h
      · rw [← Option.some.inj h]
        simp only [Ty.arrayDepth, hdepth]
      · cases h
    | func signature withTypes normTypes exit =>
      rw [substituteExtentValues, if_neg hvalues] at h
      obtain ⟨withTypes', -, h⟩ := Option.bind_eq_some_iff.1 h
      obtain ⟨normTypes', -, h⟩ := Option.bind_eq_some_iff.1 h
      obtain ⟨exit', -, h⟩ := Option.bind_eq_some_iff.1 h
      split at h <;> rw [← Option.some.inj h] <;> rfl
    | leaf code => rw [← Option.some.inj h]
    | var name binder => rw [← Option.some.inj h]
    | app code params => rw [← Option.some.inj h]
    | call name params => rw [← Option.some.inj h]
    | matchType subject arms => rw [← Option.some.inj h]
    | _ =>
      rw [substituteExtentValues, if_neg hvalues] at h
      obtain ⟨part, -, h⟩ := Option.bind_eq_some_iff.1 h
      rw [← Option.some.inj h]
      rfl

/-! ## Arrays -/

/-- The packs that reach a part of a type: none inside a function type. -/
def packsAt (packs : ExtentPacks) (inFunction : Bool) : ExtentPacks :=
  if inFunction then [] else packs

theorem substituteExtentValues_array {elem : Ty} {extents : List ExtentForm} {rank : Rank}
    {inFunction : Bool} (hvalues : values ≠ [])
    (ih : substituteExtentValues evaluator values elem (packsAt packs inFunction) =
        some (extentsReplaced evaluator values packs elem) ↔
      Handled evaluator values packs inFunction elem) :
    substituteExtentValues evaluator values (.array elem extents rank) (packsAt packs inFunction) =
        some (extentsReplaced evaluator values packs (.array elem extents rank)) ↔
      Handled evaluator values packs inFunction (.array elem extents rank) := by
  have hiff : Handled evaluator values packs inFunction (.array elem extents rank) ↔
      Handled evaluator values packs inFunction elem ∧
        ∀ pack dims, rank = .openAt pack → packs.lookup pack = some dims →
          inFunction = false ∧ ¬(extents = [] ∧ dims = []) := by
    constructor
    · intro h
      cases h with
      | array helem hpack => exact ⟨helem, hpack⟩
      | other harray => exact absurd rfl (harray elem extents rank)
    · rintro ⟨helem, hpack⟩
      exact .array helem hpack
  -- where the extents come out alike, the element decides
  have helem : ∀ forms rank',
      ((substituteExtentValues evaluator values elem (packsAt packs inFunction)).bind fun elem' =>
          some (Ty.array elem' forms rank')) =
        some (.array (extentsReplaced evaluator values packs elem) forms rank') ↔
      Handled evaluator values packs inFunction elem := by
    intro forms rank'
    rw [← ih]
    cases substituteExtentValues evaluator values elem (packsAt packs inFunction) <;> simp
  rw [hiff, extentsReplaced_array]
  cases rank with
  | fixed =>
    simp only [substituteExtentValues_array_eq, if_neg hvalues, withExtentValues]
    simpa using helem _ _
  | openAt pack =>
    cases hpack : packs.lookup pack with
    | none =>
      have hgiven : (packsAt packs inFunction).lookup pack = none := by
        cases inFunction
        · exact hpack
        · rfl
      simp only [substituteExtentValues_array_eq, if_neg hvalues, withExtentValues, hpack, hgiven]
      rw [and_iff_left]
      · exact helem _ _
      · rintro _ dims ⟨⟩ hdims
        rw [hpack] at hdims
        cases hdims
    | some dims =>
      cases inFunction with
      | true =>
        -- the pack is not known here, so its name is left in the type
        constructor
        · intro h
          exfalso
          simp only [substituteExtentValues_array_eq, if_neg hvalues, withExtentValues, packsAt,
            if_true, lookup_nil] at h
          obtain ⟨elem', -, h⟩ := Option.bind_eq_some_iff.1 h
          have hleft : packs.lookup pack = none :=
            lookup_of_extentsReplaced (t := .array elem extents (.openAt pack)) (by
              rw [extentsReplaced_array]
              exact (Option.some.inj h).symm)
          rw [hpack] at hleft
          cases hleft
        · rintro ⟨-, h⟩
          exact absurd (h pack dims rfl hpack).1 (by decide)
      | false =>
        by_cases hnil : extents = [] ∧ dims = []
        · constructor
          · intro h
            exfalso
            -- the source keeps an array type too many
            have hdepth := arrayDepth_substituteExtentValues h
            have hle := arrayDepth_extentsReplaced_le evaluator values packs elem
            simp only [withExtentValues, hpack, hnil.1, hnil.2, map_nil, append_nil,
              if_true, Ty.arrayDepth] at hdepth
            omega
          · rintro ⟨-, h⟩
            exact absurd hnil (h pack dims rfl hpack).2
        · have hforms : ¬extents.map (ExtentForm.refined evaluator values) ++ dims = [] := by
            simpa [append_eq_nil_iff] using hnil
          simp only [substituteExtentValues_array_eq, if_neg hvalues, withExtentValues, packsAt,
            Bool.false_eq_true, if_false, hpack, if_neg hforms]
          rw [and_iff_left]
          · exact helem _ _
          · rintro _ dims' ⟨⟩ hdims
            rw [hpack] at hdims
            rw [← Option.some.inj hdims]
            exact ⟨trivial, hnil⟩

/-! ## Function Types -/

variable {roles : List Role} {ts : List Ty}

theorem withReplaced_cons (t : Ty) :
    withReplaced evaluator values packs roles (t :: ts) =
      (if roles.head? = some .rest then t else extentsReplaced evaluator values packs t) ::
        withReplaced evaluator values packs roles.tail ts := rfl

theorem substituteExtentsWith_cons (t : Ty) :
    substituteExtentsWith evaluator values roles (t :: ts) =
      if roles.head? = some .rest then
        (substituteExtentsWith evaluator values roles.tail ts).bind fun ts' => some (t :: ts')
      else (substituteExtentValues evaluator values t []).bind fun t' =>
        (substituteExtentsWith evaluator values roles.tail ts).bind fun ts' => some (t' :: ts') := rfl

theorem restsCleared_cons (t : Ty) :
    restsCleared roles (t :: ts) =
      (if roles.head? = some .rest then .leaf .void else t) :: restsCleared roles.tail ts := rfl

theorem substituteExtentsWith_iff :
    substituteExtentsWith evaluator values roles ts =
        some (withReplaced evaluator values packs roles ts) ↔
      ∀ q ∈ withPassed roles ts, substituteExtentValues evaluator values q [] =
        some (extentsReplaced evaluator values packs q) := by
  induction ts generalizing roles with
  | nil => simp [substituteExtentsWith, withReplaced, withPassed]
  | cons t ts ih =>
    rw [substituteExtentsWith_cons, withReplaced_cons, withPassed]
    by_cases hrest : roles.head? = some .rest
    · simp only [if_pos hrest, ← ih]
      cases substituteExtentsWith evaluator values roles.tail ts <;> simp
    · simp only [if_neg hrest, mem_cons, forall_eq_or_imp, ← ih]
      cases substituteExtentValues evaluator values t [] <;>
        cases substituteExtentsWith evaluator values roles.tail ts <;> simp

theorem withReplaced_eq_self_iff :
    withReplaced evaluator values packs roles ts = ts ↔
      ∀ q ∈ withPassed roles ts, extentsReplaced evaluator values packs q = q := by
  induction ts generalizing roles with
  | nil => exact iff_of_true rfl (by simp [withPassed])
  | cons t ts ih =>
    rw [withReplaced_cons, withPassed]
    by_cases hrest : roles.head? = some .rest
    · simp [if_pos hrest, ih]
    · simp [if_neg hrest, ih]

theorem restsCleared_withReplaced_iff :
    restsCleared roles (withReplaced evaluator values packs roles ts) =
        ts.map (extentsReplaced evaluator values packs) ↔
      ∀ t ∈ withRests roles ts, extentsReplaced evaluator values packs t = .leaf .void := by
  induction ts generalizing roles with
  | nil => exact iff_of_true rfl (by simp [withRests])
  | cons t ts ih =>
    rw [withReplaced_cons, restsCleared_cons, withRests]
    by_cases hrest : roles.head? = some .rest
    · simp [if_pos hrest, ih, eq_comm (a := Ty.leaf .void)]
    · simp [if_neg hrest, ih]

/-- A type of a `with` parameter is a rest or one that a call passes. -/
theorem mem_withTypes_iff (roles : List Role) :
    t ∈ ts ↔ t ∈ withRests roles ts ∨ t ∈ withPassed roles ts := by
  induction ts generalizing roles with
  | nil => simp [withRests, withPassed]
  | cons q ts ih =>
    rw [withRests, withPassed, mem_cons, ih roles.tail]
    split
    · rw [mem_cons, or_assoc]
    · rw [mem_cons, or_left_comm]

/-- What the walk over the `with` parameters gives is told apart by what it is rebuilt to. -/
theorem eq_withReplaced {ts' : List Ty}
    (hwalk : substituteExtentsWith evaluator values roles ts = some ts')
    (hcleared : restsCleared roles ts' = ts.map (extentsReplaced evaluator values packs)) :
    ts' = withReplaced evaluator values packs roles ts := by
  induction ts generalizing roles ts' with
  | nil =>
    cases hwalk
    rfl
  | cons t ts ih =>
    rw [substituteExtentsWith_cons] at hwalk
    by_cases hrest : roles.head? = some .rest
    · rw [if_pos hrest] at hwalk
      obtain ⟨qs, hqs, hwalk⟩ := Option.bind_eq_some_iff.1 hwalk
      rw [← Option.some.inj hwalk] at hcleared ⊢
      rw [restsCleared_cons, map_cons, List.cons.injEq] at hcleared
      rw [withReplaced_cons, if_pos hrest, ih hqs hcleared.2]
    · rw [if_neg hrest] at hwalk
      obtain ⟨q, hq, hwalk⟩ := Option.bind_eq_some_iff.1 hwalk
      obtain ⟨qs, hqs, hwalk⟩ := Option.bind_eq_some_iff.1 hwalk
      rw [← Option.some.inj hwalk] at hcleared ⊢
      rw [restsCleared_cons, map_cons, List.cons.injEq, if_neg hrest] at hcleared
      rw [withReplaced_cons, if_neg hrest, ih hqs hcleared.2, hcleared.1]

variable {signature : Signature} {withTypes normTypes : List Ty} {exit : Option Ty}

theorem mem_parts_of_passed
    {q : Ty} (h : q ∈ passedTypes signature withTypes normTypes exit) :
    q ∈ (Ty.func signature withTypes normTypes exit).parts := by
  unfold passedTypes at h
  simp only [mem_append] at h
  simp only [Ty.parts, mem_append]
  exact h.imp (fun h => h.imp (fun h => (mem_withTypes_iff _).2 (.inr h)) id) id

/-- The two agree on the parts of a function type that a call passes. -/
def PassedAgree (packs : ExtentPacks) (signature : Signature) (withTypes normTypes : List Ty)
    (exit : Option Ty) : Prop :=
  ∀ q ∈ passedTypes signature withTypes normTypes exit,
    substituteExtentValues evaluator values q [] = some (extentsReplaced evaluator values packs q)

theorem substituteExtentsExit_iff :
    substituteExtentsExit evaluator values exit =
        some (exit.map (extentsReplaced evaluator values packs)) ↔
      ∀ q ∈ exit.toList, substituteExtentValues evaluator values q [] =
        some (extentsReplaced evaluator values packs q) := by
  cases exit with
  | none => simp [substituteExtentsExit]
  | some t =>
    simp only [substituteExtentsExit, Option.map_some, Option.toList_some, mem_singleton,
      forall_eq]
    cases substituteExtentValues evaluator values t [] <;> simp

theorem passedAgree_iff :
    @PassedAgree evaluator values packs signature withTypes normTypes exit ↔
      substituteExtentsWith evaluator values signature.withRoles withTypes =
          some (withReplaced evaluator values packs signature.withRoles withTypes) ∧
        substituteExtentsAll evaluator values normTypes [] =
          some (normTypes.map (extentsReplaced evaluator values packs)) ∧
        substituteExtentsExit evaluator values exit =
          some (exit.map (extentsReplaced evaluator values packs)) := by
  rw [substituteExtentsWith_iff, substituteExtentsAll_eq, mapM_eq_some_map_iff,
    substituteExtentsExit_iff]
  unfold PassedAgree passedTypes
  simp only [mem_append]
  constructor
  · intro h
    exact ⟨fun q hq => h q (.inl (.inl hq)), fun q hq => h q (.inl (.inr hq)),
      fun q hq => h q (.inr hq)⟩
  · rintro ⟨hw, hn, hx⟩ q ((hq | hq) | hq)
    · exact hw q hq
    · exact hn q hq
    · exact hx q hq

/-- Nothing that a call passes comes out changed. -/
theorem passed_unchanged_iff
    :
    (withReplaced evaluator values packs signature.withRoles withTypes = withTypes ∧
        normTypes.map (extentsReplaced evaluator values packs) = normTypes ∧
        exit.map (extentsReplaced evaluator values packs) = exit) ↔
      ∀ q ∈ passedTypes signature withTypes normTypes exit,
        ¬Mentions evaluator values packs q := by
  have hexit : exit.map (extentsReplaced evaluator values packs) = exit ↔
      ∀ q ∈ exit.toList, extentsReplaced evaluator values packs q = q := by
    cases exit <;> simp
  rw [withReplaced_eq_self_iff, map_eq_self_iff, hexit]
  unfold passedTypes
  simp only [mem_append, ← extentsReplaced_eq_self_iff]
  constructor
  · rintro ⟨hw, hn, hx⟩ q ((hq | hq) | hq)
    · exact hw q hq
    · exact hn q hq
    · exact hx q hq
  · intro h
    exact ⟨fun q hq => h q (.inl (.inl hq)), fun q hq => h q (.inl (.inr hq)),
      fun q hq => h q (.inr hq)⟩

theorem substituteExtentValues_func
    (hvalues : values ≠ []) :
    substituteExtentValues evaluator values (.func signature withTypes normTypes exit) given =
        some (extentsReplaced evaluator values packs (.func signature withTypes normTypes exit)) ↔
      @PassedAgree evaluator values packs signature withTypes normTypes
          exit ∧
        ∀ t ∈ withRests signature.withRoles withTypes,
          ((∃ q ∈ passedTypes signature withTypes normTypes exit,
            Mentions evaluator values packs q) → IsVoid packs t) ∧
          ((∀ q ∈ passedTypes signature withTypes normTypes exit,
            ¬Mentions evaluator values packs q) → ¬Mentions evaluator values packs t) := by
  rw [substituteExtentValues, if_neg hvalues, extentsReplaced, extentsReplacedAll_eq,
    extentsReplacedAll_eq, extentsReplacedExit_eq, passedAgree_iff]
  constructor
  · intro h
    obtain ⟨withTypes', hwith, h⟩ := Option.bind_eq_some_iff.1 h
    obtain ⟨normTypes', hnorm, h⟩ := Option.bind_eq_some_iff.1 h
    obtain ⟨exit', hexit, h⟩ := Option.bind_eq_some_iff.1 h
    by_cases hsame : withTypes' = withTypes ∧ normTypes' = normTypes ∧ exit' = exit
    · rw [if_pos hsame] at h
      obtain ⟨rfl, rfl, rfl⟩ := hsame
      simp only [Option.some.injEq, Ty.func.injEq, true_and] at h
      obtain ⟨hw, hn, hx⟩ := h
      have hself : ∀ t ∈ withTypes', extentsReplaced evaluator values packs t = t :=
        map_eq_self_iff.1 hw.symm
      have hkept : withReplaced evaluator values packs signature.withRoles withTypes' = withTypes' :=
        withReplaced_eq_self_iff.2 fun q hq => hself q ((mem_withTypes_iff _).2 (.inr hq))
      have hnone := passed_unchanged_iff.1 ⟨hkept, hn.symm, hx.symm⟩
      refine ⟨⟨by rw [hwith, hkept], by rw [hnorm, ← hn], by rw [hexit, ← hx]⟩, fun t ht => ⟨?_, ?_⟩⟩
      · rintro ⟨q, hq, hm⟩
        exact absurd hm (hnone q hq)
      · intro _
        exact (extentsReplaced_eq_self_iff t).1 (hself t ((mem_withTypes_iff _).2 (.inl ht)))
    · rw [if_neg hsame] at h
      simp only [Option.some.injEq, Ty.func.injEq, true_and] at h
      obtain ⟨hw, rfl, rfl⟩ := h
      obtain rfl := eq_withReplaced hwith hw
      refine ⟨⟨hwith, hnorm, hexit⟩, fun t ht => ⟨fun _ => ?_, fun hnone => ?_⟩⟩
      · exact (extentsReplaced_eq_void_iff t).1 (restsCleared_withReplaced_iff.1 hw t ht)
      · exact absurd (passed_unchanged_iff.2 hnone) hsame
  · rintro ⟨⟨hwith, hnorm, hexit⟩, hrests⟩
    rw [hwith, hnorm, hexit]
    show (if _ then _ else _) = _
    by_cases hnone : ∀ q ∈ passedTypes signature withTypes normTypes exit,
        ¬Mentions evaluator values packs q
    · have hsame := passed_unchanged_iff.2 hnone
      rw [if_pos hsame, hsame.2.1, hsame.2.2]
      have hself : withTypes.map (extentsReplaced evaluator values packs) = withTypes := by
        apply map_eq_self_iff.2
        intro t ht
        rcases (mem_withTypes_iff signature.withRoles).1 ht with ht | ht
        · exact (extentsReplaced_eq_self_iff t).2 ((hrests t ht).2 hnone)
        · exact withReplaced_eq_self_iff.1 hsame.1 t ht
      rw [hself]
    · rw [if_neg (fun hsame => hnone (passed_unchanged_iff.1 hsame))]
      have hsome : ∃ q ∈ passedTypes signature withTypes normTypes exit,
          Mentions evaluator values packs q := by
        simpa using hnone
      have hcleared : restsCleared signature.withRoles
          (withReplaced evaluator values packs signature.withRoles withTypes) =
            withTypes.map (extentsReplaced evaluator values packs) := by
        apply restsCleared_withReplaced_iff.2
        intro t ht
        exact (extentsReplaced_eq_void_iff t).2 ((hrests t ht).1 hsome)
      rw [hcleared]

/-! ## All Types -/

theorem substituteExtentValues_iff_handled (hvalues : values ≠ []) (inFunction : Bool) (t : Ty) :
    substituteExtentValues evaluator values t (packsAt packs inFunction) =
        some (extentsReplaced evaluator values packs t) ↔
      Handled evaluator values packs inFunction t := by
  induction t using Ty.induct generalizing inFunction with
  | h t ih =>
    rcases t.array_or with ⟨elem, extents, rank, rfl⟩ | harray
    · exact substituteExtentValues_array hvalues (ih elem (mem_singleton.2 rfl) inFunction)
    by_cases hfunc : ∃ signature withTypes normTypes exit,
        t = .func signature withTypes normTypes exit
    · obtain ⟨signature, withTypes, normTypes, exit, rfl⟩ := hfunc
      rw [substituteExtentValues_func hvalues]
      have hpassed : @PassedAgree evaluator values packs signature
          withTypes normTypes exit ↔
            ∀ q ∈ passedTypes signature withTypes normTypes exit,
              Handled evaluator values packs true q := by
        apply forall₂_congr
        intro q hq
        exact ih q (mem_parts_of_passed hq) true
      rw [hpassed]
      constructor
      · rintro ⟨hq, hrests⟩
        exact .func hq hrests
      · intro h
        cases h with
        | func hq hrests => exact ⟨hq, hrests⟩
        | other _ hother => exact absurd rfl (hother signature withTypes normTypes exit)
    · have hother : ∀ signature withTypes normTypes exit,
          t ≠ .func signature withTypes normTypes exit := by
        intro signature withTypes normTypes exit h
        exact hfunc ⟨signature, withTypes, normTypes, exit, h⟩
      rw [extentsReplaced_eq_mapParts harray, substituteExtentValues_parts hvalues harray hother]
      constructor
      · intro h
        exact .other harray hother fun q hq => (ih q hq inFunction).1 (h q hq)
      · intro h q hq
        cases h with
        | array => exact absurd rfl (harray _ _ _)
        | func => exact absurd rfl (hother _ _ _ _)
        | other _ _ h => exact (ih q hq inFunction).2 (h q hq)

/-- The source puts the values and the packs into the whole type exactly when it meets no pack
    where it does not hand them on, and no typed rest that it drops. -/
theorem substituteExtentValues_eq_iff (evaluator : Evaluator) (values : ExtentValues)
    (packs : ExtentPacks) (t : Ty) :
    substituteExtentValues evaluator values t packs =
        some (extentsReplaced evaluator values packs t) ↔
      if values = [] then ¬Mentions evaluator [] packs t
      else Handled evaluator values packs false t := by
  by_cases hvalues : values = []
  · subst hvalues
    rw [if_pos rfl, substituteExtentValues_nil, Option.some.injEq, eq_comm,
      extentsReplaced_eq_self_iff]
  · rw [if_neg hvalues]
    exact substituteExtentValues_iff_handled hvalues false t

/-- `int32[..rest]` as a parameter of a function type, and alone with no values. -/
theorem substituteExtentValues_misses_packs :
    substituteExtentValues (fun _ _ => none) [("n", 3)]
        (.func ⟨[], [], ["x"], [.plain false false], true, none⟩ []
          [.array (.leaf .int32) [] (.openAt "rest")] none) [("rest", [.constant 4])] ≠
      some (extentsReplaced (fun _ _ => none) [("n", 3)] [("rest", [.constant 4])]
        (.func ⟨[], [], ["x"], [.plain false false], true, none⟩ []
          [.array (.leaf .int32) [] (.openAt "rest")] none)) ∧
    substituteExtentValues (fun _ _ => none) [] (.array (.leaf .int32) [] (.openAt "rest"))
        [("rest", [.constant 4])] ≠
      some (extentsReplaced (fun _ _ => none) [] [("rest", [.constant 4])]
        (.array (.leaf .int32) [] (.openAt "rest"))) := by
  constructor <;> decide +kernel

end Camel.Types
