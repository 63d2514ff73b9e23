import Camel.Types.Simultaneous

/-! # The Slots of a Type

    A type that is no variable and no call is its form and the types in its slots. Substitution
    keeps the form and fills each slot with what stands there.
-/

namespace Camel.Types

open List

/-! ## Slots -/

/-- The types that stand in a type. -/
def Ty.slots : Ty → List Ty
  | .app _ params => params
  | t => t.parts

/-- A form that keeps what it says while its slots change. -/
def Ty.isNode : Ty → Bool
  | .var _ _ | .call _ _ | .matchType _ _ => false
  | _ => true

/-- The parameters with `f` of each type in its place. -/
def mapParams (f : Ty → Members) : List String → List Role → List Ty → List Param
  | _, _, [] => []
  | names, roles, t :: ts =>
    (replacedParam (names.headD "") (roles.headD (.plain false false)) t (f t)).1 ++
      mapParams f names.tail roles.tail ts

/-- The function type with these parameters. -/
def rebuilt (signature : Signature) (withParams normParams : List Param) (exit : Option Ty) : Ty :=
  .func
    { signature with
      withNames := if signature.hasNames then withParams.map (·.name) else []
      withRoles := withParams.map (·.role)
      normNames := if signature.hasNames then normParams.map (·.name) else []
      normRoles := normParams.map (·.role) }
    (withParams.map (·.type)) (normParams.map (·.type)) exit

/-- The type with `f` of what stands in each slot. Members are spliced into tuples and parameter
    lists, and are a tuple elsewhere. -/
def Ty.mapSlots (f : Ty → Members) : Ty → Ty
  | .array elem extents rank => .array (f elem).whole extents rank
  | .stream elem => .stream (f elem).whole
  | .tuple members => .tuple (members.flatMap fun t => (f t).list)
  | .tagged kind payload => .tagged kind (f payload).whole
  | .named decl args => .named decl (args.map fun t => (f t).whole)
  | .record names fields => .record names (fields.map fun t => (f t).whole)
  | .func signature withTypes normTypes exit =>
    rebuilt signature (mapParams f signature.withNames signature.withRoles withTypes)
      (mapParams f signature.normNames signature.normRoles normTypes) (exit.map fun t => (f t).whole)
  | .app code params => .app code (params.map fun t => (f t).whole)
  | t => t

/-- A list of parameters as the types are built: a mark for each, and a name for each or none; an
    expansion has no mark. -/
structure ParamsMade (named : Bool) (names : List String) (roles : List Role) (ts : List Ty) :
    Prop where
  names : names.length = if named then ts.length else 0
  roles : Forall₂ (fun role t => expandPattern t ≠ none → role = .plain false false) roles ts

/-- A type as types are built: no expansion has a mark, and the rest of a parameter list writes no
    type. -/
def Ty.WellMade : Ty → Prop
  | .tagged _ payload => expandPattern payload = none
  | .func signature withTypes normTypes _ =>
    ParamsMade signature.hasNames signature.withNames signature.withRoles withTypes ∧
      ParamsMade signature.hasNames signature.normNames signature.normRoles normTypes ∧
      Forall₂ (fun role t => role = .rest → t = .leaf .void) signature.withRoles withTypes
  | _ => True

/-! ## Parameters -/

/-- Two lists of parameters are alike where the names are left out when there are none. -/
structure Alike (named : Bool) (params params' : List Param) : Prop where
  roles : params.map (·.role) = params'.map (·.role)
  types : params.map (·.type) = params'.map (·.type)
  names : named = true → params.map (·.name) = params'.map (·.name)

theorem Alike.refl (named : Bool) (params : List Param) : Alike named params params :=
  ⟨rfl, rfl, fun _ => rfl⟩

theorem Alike.append {named : Bool} {params params' others others' : List Param}
    (h : Alike named params params') (h' : Alike named others others') :
    Alike named (params ++ others) (params' ++ others') := by
  constructor
  · rw [map_append, map_append, h.roles, h'.roles]
  · rw [map_append, map_append, h.types, h'.types]
  · intro hnamed
    rw [map_append, map_append, h.names hnamed, h'.names hnamed]

theorem rebuilt_congr {signature : Signature} {withParams withParams' normParams normParams' : List Param}
    (hwith : Alike signature.hasNames withParams withParams')
    (hnorm : Alike signature.hasNames normParams normParams') (exit : Option Ty) :
    rebuilt signature withParams normParams exit = rebuilt signature withParams' normParams' exit := by
  unfold rebuilt
  rw [hwith.roles, hwith.types, hnorm.roles, hnorm.types]
  cases hnamed : signature.hasNames with
  | false => rfl
  | true => rw [hwith.names hnamed, hnorm.names hnamed]

theorem numbered_map (name : String) (types : List Ty) :
    (numbered name types).map (·.role) = replicate types.length (.plain false false) ∧
      (numbered name types).map (·.type) = types := by
  unfold numbered
  constructor
  · rw [map_map]
    show types.zipIdx.map (fun _ => Role.plain false false) = _
    rw [map_const', length_zipIdx]
  · rw [map_map]
    show types.zipIdx.map (fun entry => entry.1) = types
    exact zipIdx_map_fst 0 types

variable {named : Bool}

/-- One parameter under two names, which are the same where there are names. -/
theorem alike_replacedParam {name name' : String}
    (hname : named = true → name = name') (role : Role) (t t' : Ty) (member : Members) :
    Alike named (replacedParam name role t member).1 (replacedParam name' role t' member).1 := by
  cases member with
  | one u => exact ⟨rfl, rfl, fun hnamed => congrArg ([·]) (hname hnamed)⟩
  | many us =>
    obtain ⟨hroles, htypes⟩ := numbered_map name us
    obtain ⟨hroles', htypes'⟩ := numbered_map name' us
    refine ⟨hroles.trans hroles'.symm, htypes.trans htypes'.symm, fun hnamed => ?_⟩
    rw [hname hnamed]
    rfl

variable {names : List String} {roles : List Role} {t : Ty} {ts : List Ty}

theorem ParamsMade.tail {role : Role}
    (h : ParamsMade named names (role :: roles) (t :: ts)) :
    ParamsMade named names.tail roles ts := by
  obtain ⟨hnames, hroles⟩ := h
  obtain ⟨-, hroles⟩ := forall₂_cons.1 hroles
  refine ⟨?_, hroles⟩
  cases named with
  | false =>
    rw [if_neg Bool.false_ne_true, length_eq_zero_iff] at hnames
    rw [hnames]
    rfl
  | true =>
    rw [if_pos rfl] at hnames ⊢
    rw [length_tail, hnames]
    rfl

/-- The name that stands first where there are names. -/
theorem ParamsMade.headD
    (h : ParamsMade named names roles (t :: ts)) (name name' : String)
    (hnamed : named = true) : names.headD name = names.headD name' := by
  have hlength := h.names
  rw [if_pos hnamed] at hlength
  cases names with
  | nil => cases hlength
  | cons n names => rfl

section Params

variable {table : TypeTable} {bindings : TypeBindings} {ρ : Reading} {named : Bool}

/-- Only an expansion stands for members. -/
theorem putMember_one (table : TypeTable) {t : Ty} (h : expandPattern t = none)
    (bindings : TypeBindings) (ρ : Reading) :
    ∃ u, putMember table bindings t ρ = .one u := by
  cases t with
  | var name binder =>
    rw [putMember]
    cases bindings.lookup name with
    | none => exact ⟨_, rfl⟩
    | some bound => exact ⟨_, rfl⟩
  | func signature withTypes normTypes exit =>
    rw [putMember]
    split <;> exact ⟨_, rfl⟩
  | call name params =>
    rw [putMember]
    unfold putCallMember
    split
    · exact ⟨_, rfl⟩
    · rw [h]
      exact ⟨_, rfl⟩
  | _ =>
    rw [putMember]
    exact ⟨_, rfl⟩

/-- The parameters in one place, before those that follow. -/
def joined (here others : List Param × Bool) : List Param × Bool :=
  (here.1 ++ others.1, here.2 || others.2)

/-- The walk over parameters, with `f` at each. -/
def walkParams (base : String) (f : Role → Ty → Members) :
    Nat → List String → List Role → List Ty → List Param × Bool
  | _, _, _, [] => ([], false)
  | i, names, roles, t :: ts =>
    let role := roles.headD (.plain false false)
    joined (replacedParam (names.headD (base ++ toString i)) role t (f role t))
      (walkParams base f (i + 1) names.tail roles.tail ts)

/-- What is put in the place of an ordinary parameter. -/
def normMember (table : TypeTable) (bindings : TypeBindings) (ρ : Reading) (role : Role) (t : Ty) :
    Members :=
  if role = .rest ∨ role = .constas then .one (putMember table bindings t ρ).whole
  else putMember table bindings t ρ

theorem normMember_one {role : Role} {t u : Ty} (h : putMember table bindings t ρ = .one u) :
    normMember table bindings ρ role t = .one u := by
  rw [normMember, h]
  exact ite_self _

variable {i : Nat} {names : List String} {roles : List Role} {t : Ty} {ts : List Ty}

theorem putNorm_eq : putNorm table bindings i names roles ts ρ =
    walkParams "__n" (normMember table bindings ρ) i names roles ts := by
  induction ts generalizing i names roles with
  | nil => rw [putNorm, walkParams]
  | cons t ts ih =>
    rw [putNorm, walkParams, ih]
    rfl

/-- Before the arrow's `with` a rest writes no type; `P` is what says so. -/
theorem putWith_eq (P : List Role → List Ty → Prop)
    (hrest : ∀ {roles t ts}, P roles (t :: ts) →
      (roles.headD (.plain false false) = .rest → t = .leaf .void) ∧ P roles.tail ts)
    (h : P roles ts) : putWith table bindings i names roles ts ρ =
      walkParams "__w" (fun _ t => putMember table bindings t ρ) i names roles ts := by
  induction ts generalizing i names roles with
  | nil => rw [putWith, walkParams]
  | cons t ts ih =>
    obtain ⟨hvoid, hrests⟩ := hrest h
    rw [putWith, walkParams, ih hrests]
    split
    · next hrole =>
      obtain rfl := hvoid hrole
      rw [putMember, hrole]
      simp [joined, replacedParam]
    · rfl

theorem rests_cons (h : Forall₂ (fun role t => role = .rest → t = .leaf .void) roles (t :: ts)) :
    (roles.headD (.plain false false) = .rest → t = .leaf .void) ∧
      Forall₂ (fun role t => role = .rest → t = .leaf .void) roles.tail ts := by
  cases h with
  | cons hrest hrests => exact ⟨hrest, hrests⟩

variable (table bindings ρ) in
/-- Only an expansion stands for members, and it has no mark. -/
theorem ParamsMade.normMember (h : ParamsMade named names roles ts) :
    Forall₂ (fun role t => normMember table bindings ρ role t = putMember table bindings t ρ)
      roles ts := by
  refine h.roles.imp fun role t hplain => ?_
  by_cases hexpand : expandPattern t = none
  · obtain ⟨u, hu⟩ := putMember_one table hexpand bindings ρ
    rw [normMember_one hu, hu]
  · rw [hplain hexpand]
    exact if_neg (by simp)

variable {base : String} {f : Role → Ty → Members} {g : Ty → Members}

variable (base) in
/-- The walk over parameters puts what stands there in the place of each. -/
theorem alike_walkParams (h : ParamsMade named names roles ts)
    (hf : Forall₂ (fun role t => f role t = g t) roles ts) (i : Nat) :
    Alike named (walkParams base f i names roles ts).1 (mapParams g names roles ts) := by
  induction hf generalizing names i with
  | nil =>
    rw [walkParams, mapParams]
    exact Alike.refl named []
  | @cons role t roles ts hhere _ ih =>
    rw [walkParams, mapParams]
    dsimp only [headD_cons]
    rw [hhere]
    exact (alike_replacedParam (h.headD _ _) role t t _).append (ih h.tail (i + 1))

theorem replacedParam_same {name : String} {role : Role} {member : Members}
    (h : (replacedParam name role t member).2 = false) : member = .one t := by
  cases member with
  | one u =>
    have heq : u = t := by simpa [replacedParam] using h
    rw [heq]
  | many us => cases h

/-- Where nothing was replaced each parameter stands for itself. -/
theorem ones_of_unchanged (hf : Forall₂ (fun role t => f role t = g t) roles ts)
    (hsame : (walkParams base f i names roles ts).2 = false) : ∀ t ∈ ts, g t = .one t := by
  induction hf generalizing i names with
  | nil => exact fun t ht => absurd ht not_mem_nil
  | cons hhere _ ih =>
    rw [walkParams, joined, Bool.or_eq_false_iff] at hsame
    exact forall_mem_cons.2 ⟨hhere ▸ replacedParam_same hsame.1, ih hsame.2⟩

end Params

/-- Parameters that each stand for themselves are those there were. -/
theorem mapParams_self {f : Ty → Members}
    (h : ParamsMade named names roles ts) (hone : ∀ t ∈ ts, f t = .one t) :
    (mapParams f names roles ts).map (·.role) = roles ∧
      (mapParams f names roles ts).map (·.type) = ts ∧
      (if named then (mapParams f names roles ts).map (·.name) else []) = names := by
  induction ts generalizing names roles with
  | nil =>
    obtain rfl := forall₂_nil_right_iff.1 h.roles
    have hnames := h.names
    rw [length_nil, ite_self, length_eq_zero_iff] at hnames
    rw [hnames, mapParams]
    exact ⟨rfl, rfl, ite_self _⟩
  | cons t ts ih =>
    cases roles with
    | nil => cases h.roles
    | cons role roles =>
      obtain ⟨hroles, htypes, hnames⟩ := ih h.tail fun s hs => hone s (.tail _ hs)
      rw [mapParams, hone t (.head _)]
      refine ⟨congrArg (role :: ·) hroles, congrArg (t :: ·) htypes, ?_⟩
      have hlength := h.names
      cases named with
      | false =>
        rw [if_neg Bool.false_ne_true, length_eq_zero_iff] at hlength
        rw [hlength]
        rfl
      | true =>
        rw [if_pos rfl] at hlength hnames ⊢
        cases names with
        | nil => cases hlength
        | cons name names => exact congrArg (name :: ·) hnames

/-! ## Substitution Fills the Slots -/

/-- A type whose slots hold what they held is the type. -/
theorem mapSlots_self {f : Ty → Members} (hmade : t.WellMade)
    (hone : ∀ s ∈ t.slots, f s = .one s) : t.mapSlots f = t := by
  have hwhole : ∀ {ts : List Ty}, (∀ s ∈ ts, f s = .one s) → ts.map (fun s => (f s).whole) = ts := by
    intro ts h
    exact map_eq_self_iff.2 fun s hs => by rw [h s hs]; rfl
  cases t with
  | array elem extents rank =>
    rw [Ty.mapSlots, hone elem (.head _)]
    rfl
  | stream elem =>
    rw [Ty.mapSlots, hone elem (.head _)]
    rfl
  | tuple members =>
    have hlist : ∀ {ts : List Ty}, (∀ s ∈ ts, f s = .one s) → ts.flatMap (fun s => (f s).list) = ts := by
      intro ts h
      induction ts with
      | nil => rfl
      | cons s ts ih =>
        rw [flatMap_cons, h s (.head _), ih fun u hu => h u (.tail _ hu)]
        rfl
    rw [Ty.mapSlots, hlist (show ∀ s ∈ members, _ from hone)]
  | tagged kind payload =>
    rw [Ty.mapSlots, hone payload (.head _)]
    rfl
  | named decl args => rw [Ty.mapSlots, hwhole (show ∀ s ∈ args, _ from hone)]
  | record names fields => rw [Ty.mapSlots, hwhole (show ∀ s ∈ fields, _ from hone)]
  | func signature withTypes normTypes exit =>
    obtain ⟨hwith, hnorm, -⟩ := hmade
    obtain ⟨hroles, htypes, hnames⟩ := mapParams_self hwith fun s hs =>
      hone s (mem_append_left _ (mem_append_left _ hs))
    obtain ⟨hroles', htypes', hnames'⟩ := mapParams_self hnorm fun s hs =>
      hone s (mem_append_left _ (mem_append_right _ hs))
    have hexit : exit.map (fun s => (f s).whole) = exit := by
      cases exit with
      | none => rfl
      | some s =>
        show some (f s).whole = some s
        rw [hone s (mem_append_right _ (.head _))]
        rfl
    rw [Ty.mapSlots, rebuilt, hroles, htypes, hnames, hroles', htypes', hnames', hexit]
  | app code params => rw [Ty.mapSlots, hwhole (show ∀ s ∈ params, _ from hone)]
  | _ => rfl

section Put

variable {table : TypeTable} {bindings : TypeBindings} {ρ : Reading}

theorem putAll_eq (ts : List Ty) :
    putAll table bindings ts ρ = ts.map fun t => (putMember table bindings t ρ).whole := by
  induction ts with
  | nil => rw [putAll, map_nil]
  | cons t ts ih => rw [putAll, ih, map_cons]

theorem putSpliced_eq (ts : List Ty) :
    putSpliced table bindings ts ρ = ts.flatMap fun t => (putMember table bindings t ρ).list := by
  induction ts with
  | nil => rw [putSpliced, flatMap_nil]
  | cons t ts ih => rw [putSpliced, ih, flatMap_cons]

theorem putExit_eq (x : Option Ty) :
    putExit table bindings x ρ = x.map fun t => (putMember table bindings t ρ).whole := by
  cases x with
  | none => rw [putExit, Option.map_none]
  | some t => rw [putExit, Option.map_some]

/-- What stands at the place of a form is the form with what stands in its slots. -/
theorem putMember_node {t : Ty} (hnode : t.isNode = true) (hmade : t.WellMade) :
    putMember table bindings t ρ = .one (t.mapSlots fun s => putMember table bindings s ρ) := by
  cases t with
  | var name binder => cases hnode
  | call name params => cases hnode
  | matchType subject arms => cases hnode
  | leaf code =>
    rw [putMember]
    rfl
  | array elem extents rank => rw [putMember, Ty.mapSlots]
  | stream elem => rw [putMember, Ty.mapSlots]
  | tuple members => rw [putMember, putSpliced_eq, Ty.mapSlots]
  | tagged kind payload =>
    obtain ⟨u, hu⟩ := putMember_one table hmade bindings ρ
    rw [putMember, Ty.mapSlots, hu]
    rfl
  | named decl args => rw [putMember, putAll_eq, Ty.mapSlots]
  | record names fields => rw [putMember, putAll_eq, Ty.mapSlots]
  | func signature withTypes normTypes exit =>
    obtain ⟨hwith, hnorm, hrests⟩ := hmade
    have hmembers := hwith.roles.imp fun _ t _ => Eq.refl (putMember table bindings t ρ)
    have hmembers' := hnorm.normMember table bindings ρ
    have halike := alike_walkParams "__w" hwith hmembers 0
    have halike' := alike_walkParams "__n" hnorm hmembers' 0
    rw [putMember, putExit_eq, putWith_eq _ rests_cons hrests, putNorm_eq]
    split
    · exact congrArg Members.one (rebuilt_congr halike halike' _)
    · next hsaid =>
      rw [Bool.not_eq_true, Bool.or_eq_false_iff, Bool.or_eq_false_iff, decide_eq_false_iff_not,
        not_not] at hsaid
      have hones := ones_of_unchanged hmembers hsaid.1.1
      have hones' := ones_of_unchanged hmembers' hsaid.1.2
      obtain ⟨hroles, htypes, hnames⟩ := mapParams_self hwith hones
      obtain ⟨hroles', htypes', hnames'⟩ := mapParams_self hnorm hones'
      rw [Ty.mapSlots, rebuilt, hroles, htypes, hnames, hroles', htypes', hnames', hsaid.2]
  | app code params => rw [putMember, putAll_eq, Ty.mapSlots]

theorem packsSeenAll_eq (ts : List Ty) :
    packsSeenAll table bindings ts ρ = ts.flatMap fun t => packsSeen table bindings t ρ := by
  induction ts with
  | nil => rw [packsSeenAll, flatMap_nil]
  | cons t ts ih => rw [packsSeenAll, ih, flatMap_cons]

theorem packsSeenExit_eq (x : Option Ty) :
    packsSeenExit table bindings x ρ = x.toList.flatMap fun t => packsSeen table bindings t ρ := by
  cases x with
  | none =>
    rw [packsSeenExit]
    rfl
  | some t =>
    rw [packsSeenExit]
    exact (append_nil _).symm

/-- The rest of a parameter list, which is not walked, has no packs to see. -/
theorem packsSeenWith_eq {roles : List Role} {ts : List Ty}
    (hrests : Forall₂ (fun role t => role = .rest → t = .leaf .void) roles ts) :
    packsSeenWith table bindings roles ts ρ = ts.flatMap fun t => packsSeen table bindings t ρ := by
  induction hrests with
  | nil => rw [packsSeenWith, flatMap_nil]
  | @cons role t roles ts hrest _ ih =>
    rw [packsSeenWith, flatMap_cons, tail_cons, ih]
    split
    · next hrole =>
      rw [hrest hrole, packsSeen]
      rfl
    · rfl

/-- A form sees the packs that its slots see. -/
theorem packsSeen_node {t : Ty} (hnode : t.isNode = true) (hmade : t.WellMade) :
    packsSeen table bindings t ρ = t.slots.flatMap fun s => packsSeen table bindings s ρ := by
  cases t with
  | var name binder => cases hnode
  | call name params => cases hnode
  | matchType subject arms => cases hnode
  | leaf code =>
    rw [packsSeen]
    rfl
  | array elem extents rank =>
    rw [packsSeen]
    exact (append_nil _).symm
  | stream elem =>
    rw [packsSeen]
    exact (append_nil _).symm
  | tagged kind payload =>
    rw [packsSeen]
    exact (append_nil _).symm
  | tuple members =>
    rw [packsSeen, packsSeenAll_eq]
    rfl
  | named decl args =>
    rw [packsSeen, packsSeenAll_eq]
    rfl
  | record names fields =>
    rw [packsSeen, packsSeenAll_eq]
    rfl
  | app code params =>
    rw [packsSeen, packsSeenAll_eq]
    rfl
  | func signature withTypes normTypes exit =>
    obtain ⟨-, -, hrests⟩ := hmade
    rw [packsSeen, packsSeenWith_eq hrests, packsSeenAll_eq, packsSeenExit_eq, Ty.slots, Ty.parts,
      flatMap_append, flatMap_append, append_assoc]
    intros
    contradiction

end Put

/-! ## What Stands in the Slots After -/

section After

variable {f g h : Ty → Members} {t : Ty}

theorem mapParams_types (names : List String) (roles : List Role) (ts : List Ty) :
    (mapParams f names roles ts).map (·.type) = ts.flatMap fun t => (f t).list := by
  induction ts generalizing names roles with
  | nil => rw [mapParams, map_nil, flatMap_nil]
  | cons t ts ih =>
    rw [mapParams, map_append, ih, flatMap_cons]
    congr 1
    cases f t with
    | one u => rfl
    | many us => exact (numbered_map _ us).2

/-- What stands in a slot after stood for what was in a slot before. -/
theorem mem_slots_mapSlots {u : Ty} (hu : u ∈ (t.mapSlots f).slots) :
    ∃ s ∈ t.slots, u ∈ (f s).list ∨ u = (f s).whole := by
  have hmap : ∀ (ts : List Ty), u ∈ ts.map (fun s => (f s).whole) →
      ∃ s ∈ ts, u ∈ (f s).list ∨ u = (f s).whole := by
    intro ts h
    obtain ⟨s, hs, rfl⟩ := mem_map.1 h
    exact ⟨s, hs, .inr rfl⟩
  have hsplice : ∀ (ts : List Ty), u ∈ ts.flatMap (fun s => (f s).list) →
      ∃ s ∈ ts, u ∈ (f s).list ∨ u = (f s).whole := by
    intro ts h
    obtain ⟨s, hs, hmem⟩ := mem_flatMap.1 h
    exact ⟨s, hs, .inl hmem⟩
  cases t with
  | array elem extents rank => exact hmap [elem] hu
  | stream elem => exact hmap [elem] hu
  | tagged kind payload => exact hmap [payload] hu
  | tuple members => exact hsplice members hu
  | named decl args => exact hmap args hu
  | record names fields => exact hmap fields hu
  | app code params => exact hmap params hu
  | func signature withTypes normTypes exit =>
    rw [Ty.mapSlots, rebuilt, Ty.slots, Ty.parts, mapParams_types, mapParams_types] at hu
    · rcases mem_append.1 hu with hu | hu
      · rcases mem_append.1 hu with hu | hu
        · obtain ⟨s, hs, h⟩ := hsplice _ hu
          exact ⟨s, mem_append_left _ (mem_append_left _ hs), h⟩
        · obtain ⟨s, hs, h⟩ := hsplice _ hu
          exact ⟨s, mem_append_left _ (mem_append_right _ hs), h⟩
      · rw [Option.mem_toList] at hu
        obtain ⟨s, hs, rfl⟩ := Option.map_eq_some_iff.1 hu
        exact ⟨s, mem_append_right _ (Option.mem_toList.2 hs), .inr rfl⟩
    · intros
      contradiction
  | _ => cases hu

variable {s : Ty}

/-- What stood in a slot before is in the slots after: each of its members, or the tuple of them. -/
theorem slots_mapSlots (hs : s ∈ t.slots) :
    (∀ u ∈ (f s).list, u ∈ (t.mapSlots f).slots) ∨ (f s).whole ∈ (t.mapSlots f).slots := by
  have hmap : ∀ (ts : List Ty), s ∈ ts → (f s).whole ∈ ts.map fun s => (f s).whole :=
    fun _ h => mem_map_of_mem h
  have hsplice : ∀ (ts : List Ty), s ∈ ts → ∀ u ∈ (f s).list, u ∈ ts.flatMap fun s => (f s).list :=
    fun _ h u hu => mem_flatMap.2 ⟨s, h, hu⟩
  cases t with
  | array elem extents rank => exact .inr (hmap [elem] hs)
  | stream elem => exact .inr (hmap [elem] hs)
  | tagged kind payload => exact .inr (hmap [payload] hs)
  | tuple members => exact .inl (hsplice members hs)
  | named decl args => exact .inr (hmap args hs)
  | record names fields => exact .inr (hmap fields hs)
  | app code params => exact .inr (hmap params hs)
  | func signature withTypes normTypes exit =>
    rw [Ty.mapSlots, rebuilt, Ty.slots, Ty.parts, mapParams_types, mapParams_types]
    · rcases mem_append.1 hs with hs | hs
      · rcases mem_append.1 hs with hs | hs
        · exact .inl fun u hu => mem_append_left _ (mem_append_left _ (hsplice _ hs u hu))
        · exact .inl fun u hu => mem_append_left _ (mem_append_right _ (hsplice _ hs u hu))
      · right
        apply mem_append_right
        rw [Option.mem_toList] at hs ⊢
        rw [hs]
        rfl
    · intros
      contradiction
  | _ => cases hs

/-- The parameters after others stand further on. -/
theorem mapParams_params (named : Bool) (params : List Param) :
    mapParams g (if named then params.map (·.name) else []) (params.map (·.role))
        (params.map (·.type)) =
      params.flatMap fun param =>
        (replacedParam (if named then param.name else "") param.role param.type (g param.type)).1 := by
  induction params with
  | nil =>
    rw [flatMap_nil]
    unfold mapParams
    rfl
  | cons param params ih =>
    rw [flatMap_cons, ← ih]
    cases named <;> rfl

/-- One walk after another does in a slot what a third does at once. -/
def Composes (f g h : Ty → Members) (s : Ty) : Prop :=
  (∃ u, f s = .one u ∧ g u = h s) ∨
    ∃ us, f s = .many us ∧ (∀ u ∈ us, ∃ v, g u = .one v) ∧ h s = .many (us.map fun u => (g u).whole)

theorem flatMap_ones {us : List Ty} (hones : ∀ u ∈ us, ∃ v, g u = .one v) :
    us.flatMap (fun u => (g u).list) = us.map fun u => (g u).whole := by
  induction us with
  | nil => rfl
  | cons u us ih =>
    obtain ⟨v, hv⟩ := hones u (.head _)
    rw [flatMap_cons, map_cons, hv, ih fun w hw => hones w (.tail _ hw)]
    rfl

theorem Composes.list (hs : Composes f g h s) :
    (f s).list.flatMap (fun u => (g u).list) = (h s).list := by
  rcases hs with ⟨u, hu, hsame⟩ | ⟨us, hus, hones, hsame⟩
  · rw [hu, ← hsame]
    exact append_nil _
  · rw [hus, hsame]
    exact flatMap_ones hones

theorem Composes.whole (hs : Composes f g h s)
    (htuple : ∀ us, g (.tuple us) = .one (.tuple (us.flatMap fun u => (g u).list))) :
    (g (f s).whole).whole = (h s).whole := by
  rcases hs with ⟨u, hu, hsame⟩ | ⟨us, hus, hones, hsame⟩
  · rw [hu, ← hsame]
    rfl
  · rw [hus, hsame]
    show (g (.tuple us)).whole = _
    rw [htuple, flatMap_ones hones]
    rfl

theorem numbered_names (name : String) (types : List Ty) :
    (numbered name types).map (·.name) =
      (range types.length).map fun k => name ++ "_" ++ toString k := by
  unfold numbered
  rw [map_map, zipIdx_eq_zip_range', range_eq_range']
  show (types.zip _).map ((fun k => name ++ "_" ++ toString k) ∘ Prod.snd) = _
  rw [← map_map, map_snd_zip (Nat.le_of_eq length_range')]

/-- Members that stand for one type each keep their places and their names. -/
theorem alike_numbered {named : Bool} {name name' : String} (hname : named = true → name = name')
    {us : List Ty} (hones : ∀ u ∈ us, ∃ v, g u = .one v) :
    Alike named
      ((numbered name us).flatMap fun param =>
        (replacedParam (if named then param.name else "") param.role param.type (g param.type)).1)
      (numbered name' (us.map fun u => (g u).whole)) := by
  have heach : (numbered name us).flatMap (fun param =>
        (replacedParam (if named then param.name else "") param.role param.type (g param.type)).1) =
      (numbered name us).map fun param =>
        ⟨if named then param.name else "", param.role, (g param.type).whole⟩ := by
    have hmem : ∀ param ∈ numbered name us, ∃ v, g param.type = .one v := by
      intro param hparam
      apply hones
      rw [← (numbered_map name us).2]
      exact mem_map_of_mem hparam
    revert hmem
    generalize numbered name us = params
    intro hmem
    induction params with
    | nil => rfl
    | cons param params ih =>
      obtain ⟨v, hv⟩ := hmem param (.head _)
      rw [flatMap_cons, map_cons, hv, ih fun other hother => hmem other (.tail _ hother)]
      rfl
  obtain ⟨hroles, htypes⟩ := numbered_map name us
  obtain ⟨hroles', htypes'⟩ := numbered_map name' (us.map fun u => (g u).whole)
  rw [heach]
  constructor
  · rw [map_map, hroles', length_map, ← hroles]
    rfl
  · rw [map_map, htypes']
    show (numbered name us).map ((fun u => (g u).whole) ∘ fun param => param.type) = _
    rw [← map_map, htypes]
  · intro hnamed
    rw [map_map, numbered_names, length_map, ← hname hnamed, ← numbered_names name us, hnamed]
    rfl

theorem alike_mapParams {named : Bool} {names : List String} {roles : List Role} {ts : List Ty}
    (hcomposes : ∀ s ∈ ts, Composes f g h s) :
    Alike named
      ((mapParams f names roles ts).flatMap fun param =>
        (replacedParam (if named then param.name else "") param.role param.type (g param.type)).1)
      (mapParams h names roles ts) := by
  induction ts generalizing names roles with
  | nil => exact Alike.refl named []
  | cons s ts ih =>
    rw [mapParams, flatMap_append, mapParams]
    apply Alike.append
    · rcases hcomposes s (.head _) with ⟨u, hu, hsame⟩ | ⟨us, hus, hones, hsame⟩
      · rw [hu, ← hsame]
        show Alike named (flatMap _ [_]) _
        rw [flatMap_singleton]
        exact alike_replacedParam (fun hnamed => if_pos hnamed) _ u s _
      · rw [hus, hsame]
        exact alike_numbered (fun _ => rfl) hones
    · exact ih fun u hu => hcomposes u (.tail _ hu)

/-- One walk after another does in a type what a third does at once, where it does in each slot. -/
theorem mapSlots_mapSlots (hcomposes : ∀ s ∈ t.slots, Composes f g h s)
    (htuple : ∀ us, g (.tuple us) = .one (.tuple (us.flatMap fun u => (g u).list))) :
    (t.mapSlots f).mapSlots g = t.mapSlots h := by
  have hmap : ∀ ts : List Ty, (∀ s ∈ ts, Composes f g h s) →
      (ts.map fun s => (f s).whole).map (fun u => (g u).whole) = ts.map fun s => (h s).whole := by
    intro ts hts
    rw [map_map]
    exact map_eq_map_iff.2 fun s hs => (hts s hs).whole htuple
  cases t with
  | array elem extents rank =>
    rw [Ty.mapSlots, Ty.mapSlots, Ty.mapSlots, (hcomposes elem (.head _)).whole htuple]
  | stream elem => rw [Ty.mapSlots, Ty.mapSlots, Ty.mapSlots, (hcomposes elem (.head _)).whole htuple]
  | tagged kind payload =>
    rw [Ty.mapSlots, Ty.mapSlots, Ty.mapSlots, (hcomposes payload (.head _)).whole htuple]
  | tuple members =>
    rw [Ty.mapSlots, Ty.mapSlots, Ty.mapSlots, flatMap_assoc,
      flatMap_congr (l := members) fun s hs => (hcomposes s hs).list]
  | named decl args => rw [Ty.mapSlots, Ty.mapSlots, Ty.mapSlots, hmap args hcomposes]
  | record names fields => rw [Ty.mapSlots, Ty.mapSlots, Ty.mapSlots, hmap fields hcomposes]
  | app code params => rw [Ty.mapSlots, Ty.mapSlots, Ty.mapSlots, hmap params hcomposes]
  | func signature withTypes normTypes exit =>
    have hwith : ∀ s ∈ withTypes, Composes f g h s := fun s hs =>
      hcomposes s (mem_append_left _ (mem_append_left _ hs))
    have hnorm : ∀ s ∈ normTypes, Composes f g h s := fun s hs =>
      hcomposes s (mem_append_left _ (mem_append_right _ hs))
    have hexit : (exit.map fun s => (f s).whole).map (fun u => (g u).whole) =
        exit.map fun s => (h s).whole := by
      cases exit with
      | none => rfl
      | some s => exact congrArg some ((hcomposes s (mem_append_right _ (.head _))).whole htuple)
    rw [Ty.mapSlots, rebuilt, Ty.mapSlots, hexit, mapParams_params, mapParams_params, Ty.mapSlots]
    exact rebuilt_congr (alike_mapParams hwith) (alike_mapParams hnorm) _
  | _ => rfl

theorem isNode_mapSlots (f : Ty → Members) (hnode : t.isNode = true) :
    (t.mapSlots f).isNode = true := by
  cases t <;> first | rfl | cases hnode

theorem mapParams_congr {names : List String} {roles : List Role} (ts : List Ty)
    (heq : ∀ s ∈ ts, f s = g s) : mapParams f names roles ts = mapParams g names roles ts := by
  induction ts generalizing names roles with
  | nil => rw [mapParams, mapParams]
  | cons s ts ih =>
    rw [mapParams, mapParams, heq s (.head _), ih fun u hu => heq u (.tail _ hu)]

theorem mapSlots_congr (heq : ∀ s ∈ t.slots, f s = g s) : t.mapSlots f = t.mapSlots g := by
  have hmap : ∀ ts : List Ty, (∀ s ∈ ts, f s = g s) →
      (ts.map fun s => (f s).whole) = ts.map fun s => (g s).whole := fun _ hts =>
    map_congr_left fun s hs => by rw [hts s hs]
  cases t with
  | array elem extents rank => rw [Ty.mapSlots, Ty.mapSlots, heq elem (.head _)]
  | stream elem => rw [Ty.mapSlots, Ty.mapSlots, heq elem (.head _)]
  | tagged kind payload => rw [Ty.mapSlots, Ty.mapSlots, heq payload (.head _)]
  | tuple members =>
    rw [Ty.mapSlots, Ty.mapSlots, flatMap_congr fun s hs => by rw [heq s hs]]
  | named decl args => rw [Ty.mapSlots, Ty.mapSlots, hmap args heq]
  | record names fields => rw [Ty.mapSlots, Ty.mapSlots, hmap fields heq]
  | app code params => rw [Ty.mapSlots, Ty.mapSlots, hmap params heq]
  | func signature withTypes normTypes exit =>
    rw [Ty.mapSlots, Ty.mapSlots,
      Option.map_congr fun s hs => by rw [heq s (mem_append_right _ (Option.mem_toList.2 hs))],
      mapParams_congr withTypes fun s hs =>
        heq s (mem_append_left _ (mem_append_left _ hs)),
      mapParams_congr normTypes fun s hs =>
        heq s (mem_append_left _ (mem_append_right _ hs))]
  | _ => rfl

/-- No mark comes to stand on an expansion. -/
theorem paramsMade_mapParams {named : Bool} {names : List String} {roles : List Role}
    {ts : List Ty} (hmade : ParamsMade named names roles ts)
    (hplain : ∀ s ∈ ts, expandPattern s = none → ∃ u, f s = .one u ∧ expandPattern u = none) :
    ParamsMade named (if named then (mapParams f names roles ts).map (·.name) else [])
      ((mapParams f names roles ts).map (·.role)) ((mapParams f names roles ts).map (·.type)) := by
  constructor
  · cases named <;> simp
  · induction ts generalizing names roles with
    | nil =>
      unfold mapParams
      exact .nil
    | cons s ts ih =>
      cases roles with
      | nil => cases hmade.roles
      | cons role roles =>
        have hrest := ih hmade.tail fun u hu => hplain u (.tail _ hu)
        rw [mapParams, map_append, map_append]
        apply rel_append _ hrest
        have hrole := (forall₂_cons.1 hmade.roles).1
        cases hs : f s with
        | one u =>
          apply Forall₂.cons _ .nil
          intro hdots
          apply hrole
          intro hnone
          obtain ⟨u', hu', hplain'⟩ := hplain s (.head _) hnone
          rw [hs] at hu'
          cases hu'
          exact hdots hplain'
        | many us =>
          show Forall₂ _ ((numbered _ us).map (·.role)) ((numbered _ us).map (·.type))
          rw [(numbered_map _ us).1, (numbered_map _ us).2, forall₂_iff_get]
          refine ⟨length_replicate, fun i hi _ _ => ?_⟩
          simp

/-- A type keeps being made as types are where a type that is no expansion stands for one that is
    none. -/
theorem wellMade_mapSlots (hmade : t.WellMade)
    (hplain : ∀ s ∈ t.slots, expandPattern s = none → ∃ u, f s = .one u ∧ expandPattern u = none)
    (hvoid : f (.leaf .void) = .one (.leaf .void)) : (t.mapSlots f).WellMade := by
  cases t with
  | tagged kind payload =>
    obtain ⟨u, hu, hdots⟩ := hplain payload (.head _) hmade
    rw [Ty.mapSlots, hu]
    exact hdots
  | func signature withTypes normTypes exit =>
    obtain ⟨hwith, hnorm, hrests⟩ := hmade
    have hplain₁ : ∀ s ∈ withTypes, expandPattern s = none →
        ∃ u, f s = .one u ∧ expandPattern u = none := fun s hs =>
      hplain s (mem_append_left _ (mem_append_left _ hs))
    have hplain₂ : ∀ s ∈ normTypes, expandPattern s = none →
        ∃ u, f s = .one u ∧ expandPattern u = none := fun s hs =>
      hplain s (mem_append_left _ (mem_append_right _ hs))
    refine ⟨paramsMade_mapParams hwith hplain₁, paramsMade_mapParams hnorm hplain₂, ?_⟩
    show Forall₂ _ ((mapParams f signature.withNames signature.withRoles withTypes).map (·.role))
      ((mapParams f signature.withNames signature.withRoles withTypes).map (·.type))
    generalize signature.withNames = names
    clear hwith hplain₁ hplain
    revert hrests
    generalize signature.withRoles = roles
    intro hrests
    induction hrests generalizing names with
    | nil =>
      unfold mapParams
      exact .nil
    | @cons role s roles ts hrest _ ih =>
      rw [mapParams, map_append, map_append]
      apply rel_append _ (ih names.tail)
      cases hs : f s with
      | one u =>
        apply Forall₂.cons _ .nil
        intro hrole
        rw [hrest hrole, hvoid] at hs
        cases hs
        rfl
      | many us =>
        show Forall₂ _ ((numbered _ us).map (·.role)) ((numbered _ us).map (·.type))
        rw [(numbered_map _ us).1, (numbered_map _ us).2, forall₂_iff_get]
        refine ⟨length_replicate, fun i hi _ hrole => ?_⟩
        rw [get_eq_getElem, getElem_replicate] at hrole
        cases hrole
  | _ => trivial

end After

end Camel.Types
