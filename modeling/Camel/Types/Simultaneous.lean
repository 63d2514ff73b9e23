import Camel.Types.Substitute

/-! # Substitution at Once

    A type in which no `match type` waits is substituted in one go: what stands at each place
    depends on the bindings and on how packs are read there, and not on the rest of the walk.
-/

namespace Camel.Types

open List

/-! ## Reading Packs -/

/-- How a pack is read: as itself outside expansions, and inside one as its first member or as its
    member at the index. -/
inductive Reading where
  | whole
  | first
  | at (index : Nat)
  deriving DecidableEq

def Reading.of : Option PackScope → Reading
  | none => .whole
  | some scope => if scope.measure then .first else .at scope.index

def Reading.read (type : Ty) (members : List Ty) : Reading → Ty
  | .whole => type
  | .first => members.headD (.leaf .void)
  | .at index => members.getD index (.leaf .void)

/-- What the type is read as. -/
def readPack (ρ : Reading) (type : Ty) : Ty :=
  match packMembers type with
  | some members => ρ.read type members
  | none => type

/-- The packs that an expansion sees, with their lengths. -/
abbrev Seen : Type := List (String × Nat)

def seenPack (name : String) (type : Ty) : Seen :=
  match packMembers type with
  | some members => [(name, members.length)]
  | none => []

def PackScope.knowAll (scope : PackScope) (seen : Seen) : PackScope :=
  seen.foldl (fun scope entry => scope.know entry.1 entry.2) scope

theorem PackScope.knowAll_append (scope : PackScope) (seen seen' : Seen) :
    scope.knowAll (seen ++ seen') = (scope.knowAll seen).knowAll seen' :=
  foldl_append

theorem PackScope.know_reading (scope : PackScope) (name : String) (length : Nat) :
    (scope.know name length).measure = scope.measure ∧
      (scope.know name length).index = scope.index := by
  unfold PackScope.know
  split <;> exact ⟨rfl, rfl⟩

theorem PackScope.knowAll_reading (scope : PackScope) (seen : Seen) :
    (scope.knowAll seen).measure = scope.measure ∧ (scope.knowAll seen).index = scope.index := by
  induction seen generalizing scope with
  | nil => exact ⟨rfl, rfl⟩
  | cons entry seen ih =>
    have hknow := scope.know_reading entry.1 entry.2
    have hrest := ih (scope.know entry.1 entry.2)
    exact ⟨hrest.1.trans hknow.1, hrest.2.trans hknow.2⟩

/-- The expansion that is being read once it has seen the packs. -/
def sees (scope : Option PackScope) (seen : Seen) : Option PackScope :=
  scope.map fun scope => scope.knowAll seen

@[simp] theorem sees_nil (scope : Option PackScope) : sees scope [] = scope := by
  cases scope <;> rfl

theorem sees_append (scope : Option PackScope) (seen seen' : Seen) :
    sees scope (seen ++ seen') = sees (sees scope seen) seen' := by
  cases scope with
  | none => rfl
  | some scope => exact congrArg some (scope.knowAll_append seen seen')

@[simp] theorem Reading.of_sees (scope : Option PackScope) (seen : Seen) :
    Reading.of (sees scope seen) = Reading.of scope := by
  cases scope with
  | none => rfl
  | some scope =>
    obtain ⟨hmeasure, hindex⟩ := scope.knowAll_reading seen
    show (if (scope.knowAll seen).measure then _ else _) = _
    rw [hmeasure, hindex]
    rfl

/-! ## Walks That Only Read -/

/-- The walk ends with the value, having seen the packs. -/
def Reads {α : Type} (scope : Option PackScope) (walk : SubstM α) (value : α) (seen : Seen) : Prop :=
  walk scope = some (value, sees scope seen)

section Reads

variable {α β : Type} {scope : Option PackScope}

theorem Reads.pure (value : α) : Reads scope (pure value) value [] := by
  show some (value, scope) = _
  rw [sees_nil]

theorem Reads.bind {walk : SubstM α} {next : α → SubstM β} {value : α} {result : β}
    {seen seen' : Seen} (h : Reads scope walk value seen)
    (hnext : Reads (sees scope seen) (next value) result seen') :
    Reads scope (walk >>= next) result (seen ++ seen') := by
  unfold Reads at h hnext ⊢
  rw [sees_append, ← hnext]
  show (walk scope).bind (fun p => next p.1 p.2) = _
  rw [h]
  rfl

/-- A last step that sees nothing. -/
theorem Reads.bind_pure {walk : SubstM α} {value : α} {seen : Seen} (h : Reads scope walk value seen)
    (f : α → β) : Reads scope (walk >>= fun a => Pure.pure (f a)) (f value) seen := by
  have hlast := @Reads.bind _ _ _ _ (fun a => Pure.pure (f a)) _ _ _ _ h (Reads.pure (f value))
  rwa [append_nil] at hlast

theorem Reads.get : Reads scope (get : SubstM (Option PackScope)) scope [] := by
  show some (scope, scope) = _
  rw [sees_nil]

theorem reads_packMemberFor (name : String) (type : Ty) :
    Reads scope (packMemberFor name type) (readPack (.of scope) type) (seenPack name type) := by
  unfold Reads packMemberFor readPack seenPack
  cases packMembers type with
  | none => cases scope <;> rfl
  | some members =>
    cases scope with
    | none => rfl
    | some scope =>
      obtain ⟨measure, index, seen⟩ := scope
      cases measure <;> rfl

variable (scope) in
/-- The walk in an expansion of its own. -/
theorem Reads.run {inner : PackScope} {walk : SubstM α} {value : α} {seen : Seen}
    (h : Reads (some inner) walk value seen) :
    Reads scope (inner.run walk) (value, (inner.knowAll seen).seen) [] := by
  unfold Reads at h ⊢
  unfold PackScope.run
  rw [h, sees_nil]
  rfl

theorem Reads.mapM {f : α → SubstM β} {value : α → β} {xs : List α}
    (h : ∀ x ∈ xs, Reads scope (f x) (value x) []) : Reads scope (xs.mapM f) (xs.map value) [] := by
  induction xs with
  | nil => exact Reads.pure []
  | cons x xs ih =>
    rw [mapM_cons]
    have hx := h x (.head _)
    have hxs := ih fun y hy => h y (.tail _ hy)
    apply hx.bind
    rw [sees_nil]
    exact hxs.bind_pure fun ys => value x :: ys

end Reads

/-! ## Expansions -/

/-- The lengths of the packs that the pattern uses, each pack once. -/
def measured (seen : Seen) : Seen :=
  (PackScope.knowAll { measure := true, index := 0, seen := [] } seen).seen

variable (table : TypeTable)

/-- What an expansion stands for, with `value` what its pattern is read as. -/
def expansionOf (value : Reading → Ty) (pattern : Ty) (seen : Seen) : Expansion :=
  match measured seen with
  | [] => .keep
  | (_, length) :: _ =>
    if (measured seen).all fun entry => entry.2 = length then
      .done ((List.range length).map fun i => value (.at i))
    else
      .mismatch (makeLengthMismatch
        ("..." ++ table.toString pattern ++ "|" ++ lengthsText (measured seen)))

theorem reads_expandPack {scope : Option PackScope} {walk : SubstM Ty} {value : Reading → Ty}
    {seen : Reading → Seen} (pattern : Ty)
    (h : ∀ scope, Reads scope walk (value (.of scope)) (seen (.of scope))) :
    Reads scope (expandPack table walk pattern) (expansionOf table value pattern (seen .first)) [] := by
  unfold expandPack expansionOf
  have hmeasure := (h (some { measure := true, index := 0, seen := [] })).run scope
  apply hmeasure.bind
  rw [sees_nil]
  have hseen : (PackScope.knowAll { measure := true, index := 0, seen := [] }
      (seen (.of (some { measure := true, index := 0, seen := [] })))).seen =
      measured (seen .first) := rfl
  dsimp only
  rw [hseen]
  cases measured (seen .first) with
  | nil => exact Reads.pure _
  | cons entry others =>
    obtain ⟨name, length⟩ := entry
    dsimp only
    split
    · apply Reads.bind_pure
      apply Reads.mapM
      intro i _
      have hat := (h (some { measure := false, index := i, seen := [] })).run scope
      exact hat.bind_pure fun p => p.1
    · exact Reads.pure _

/-! ## What Stands at Each Place -/

/-- What a call of a type function is once its arguments are replaced. -/
def putCall (ρ : Reading) (name : String) (params params' : List Ty) : Ty :=
  if params' = params then .call name params
  else if anyContainsTypeVar params' then .call name params'
  else
    match table.evaluate name params' with
    | some computed => readPack ρ computed
    | none => .call name params'

def seenCall (name : String) (params params' : List Ty) : Seen :=
  if params' = params then []
  else if anyContainsTypeVar params' then []
  else
    match table.evaluate name params' with
    | some computed => seenPack (table.toString (.call name params)) computed
    | none => []

/-- What stands at the place of `..pattern`, with `value` what its pattern is read as. -/
def putExpand (pattern : Ty) (value : Reading → Ty) (seen : Seen) (ρ : Reading) : Members :=
  match expansionOf table value pattern seen with
  | .done members => .many members
  | .mismatch type => .many [type]
  | .keep => .one (makeExpand (value ρ))

/-- An expansion that stays is not one that sees packs. -/
def seenExpand (seen : Reading → Seen) (ρ : Reading) : Seen :=
  match measured (seen .first) with
  | [] => seen ρ
  | _ :: _ => []

def putCallMember (name : String) (params : List Ty) (head : Option (Reading → Ty))
    (seenHead : Option (Reading → Seen)) (params' : List Ty) (ρ : Reading) : Members :=
  if name = kPackName ∧ ρ ≠ .whole then .one (readPack ρ (.call name params))
  else
    match expandPattern (.call name params), head, seenHead with
    | some pattern, some value, some seen => putExpand table pattern value (seen .first) ρ
    | _, _, _ => .one (putCall table ρ name params params')

def seenCallMember (name : String) (params : List Ty) (head : Option (Reading → Seen))
    (args : Seen) (params' : List Ty) (ρ : Reading) : Seen :=
  if name = kPackName ∧ ρ ≠ .whole then
    seenPack (table.toString (.call name params)) (.call name params)
  else
    match expandPattern (.call name params), head with
    | some _, some seen => seenExpand seen ρ
    | _, _ => args ++ seenCall table name params params'

mutual

/-- What stands at the place of the type with the bindings in it. -/
def putMember (bindings : TypeBindings) : Ty → Reading → Members
  | .leaf code, _ => .one (.leaf code)
  | .var name binder, ρ =>
    match bindings.lookup name with
    | some bound => .one (readPack ρ bound)
    | none => .one (.var name binder)
  | .array elem extents rank, ρ => .one (.array (putMember bindings elem ρ).whole extents rank)
  | .stream elem, ρ => .one (.stream (putMember bindings elem ρ).whole)
  | .tuple members, ρ => .one (.tuple (putSpliced bindings members ρ))
  | .tagged kind payload, ρ =>
    .one (.tagged kind ((putMember bindings payload ρ).list.headD (.leaf .void)))
  | .named decl args, ρ => .one (.named decl (putAll bindings args ρ))
  | .record names fields, ρ => .one (.record names (putAll bindings fields ρ))
  | .func signature withTypes normTypes exit, ρ =>
    let withParams := putWith bindings 0 signature.withNames signature.withRoles withTypes ρ
    let normParams := putNorm bindings 0 signature.normNames signature.normRoles normTypes ρ
    let exit' := putExit bindings exit ρ
    if withParams.2 || normParams.2 || exit' ≠ exit then
      .one (.func
        { signature with
          withNames := if signature.hasNames then withParams.1.map (·.name) else []
          withRoles := withParams.1.map (·.role)
          normNames := if signature.hasNames then normParams.1.map (·.name) else []
          normRoles := normParams.1.map (·.role) }
        (withParams.1.map (·.type)) (normParams.1.map (·.type)) exit')
    else .one (.func signature withTypes normTypes exit)
  | .app code params, ρ => .one (.app code (putAll bindings params ρ))
  | .call name params, ρ =>
    putCallMember table name params (putHead bindings params) (seenHead bindings params)
      (putAll bindings params ρ) ρ
  | .matchType subject arms, _ => .one (.matchType subject arms)

def putHead (bindings : TypeBindings) : List Ty → Option (Reading → Ty)
  | [] => none
  | t :: _ => some fun ρ => (putMember bindings t ρ).whole

def putAll (bindings : TypeBindings) : List Ty → Reading → List Ty
  | [], _ => []
  | t :: ts, ρ => (putMember bindings t ρ).whole :: putAll bindings ts ρ

def putSpliced (bindings : TypeBindings) : List Ty → Reading → List Ty
  | [], _ => []
  | t :: ts, ρ => (putMember bindings t ρ).list ++ putSpliced bindings ts ρ

def putExit (bindings : TypeBindings) : Option Ty → Reading → Option Ty
  | none, _ => none
  | some t, ρ => some (putMember bindings t ρ).whole

def putWith (bindings : TypeBindings) : Nat → List String → List Role → List Ty → Reading →
    List Param × Bool
  | _, _, _, [], _ => ([], false)
  | i, names, roles, t :: ts, ρ =>
    let name := names.headD ("__w" ++ toString i)
    let role := roles.headD (.plain false false)
    let others := putWith bindings (i + 1) names.tail roles.tail ts ρ
    if role = .rest then (⟨name, .rest, .leaf .void⟩ :: others.1, others.2)
    else
      let here := replacedParam name role t (putMember bindings t ρ)
      (here.1 ++ others.1, here.2 || others.2)

def putNorm (bindings : TypeBindings) : Nat → List String → List Role → List Ty → Reading →
    List Param × Bool
  | _, _, _, [], _ => ([], false)
  | i, names, roles, t :: ts, ρ =>
    let name := names.headD ("__n" ++ toString i)
    let role := roles.headD (.plain false false)
    let others := putNorm bindings (i + 1) names.tail roles.tail ts ρ
    let t' := putMember bindings t ρ
    let here := replacedParam name role t
      (if role = .rest ∨ role = .constas then .one t'.whole else t')
    (here.1 ++ others.1, here.2 || others.2)

/-- The packs that the type uses outside the expansions in it. -/
def packsSeen (bindings : TypeBindings) : Ty → Reading → Seen
  | .leaf _, _ => []
  | .var name _, _ =>
    match bindings.lookup name with
    | some bound => seenPack name bound
    | none => []
  | .array elem _ _, ρ => packsSeen bindings elem ρ
  | .stream elem, ρ => packsSeen bindings elem ρ
  | .tuple members, ρ => packsSeenAll bindings members ρ
  | .tagged _ payload, ρ => packsSeen bindings payload ρ
  | .named _ args, ρ => packsSeenAll bindings args ρ
  | .record _ fields, ρ => packsSeenAll bindings fields ρ
  | .func signature withTypes normTypes exit, ρ =>
    packsSeenWith bindings signature.withRoles withTypes ρ ++
      (packsSeenAll bindings normTypes ρ ++ packsSeenExit bindings exit ρ)
  | .app _ params, ρ => packsSeenAll bindings params ρ
  | .call name params, ρ =>
    seenCallMember table name params (seenHead bindings params) (packsSeenAll bindings params ρ)
      (putAll bindings params ρ) ρ
  | .matchType _ _, _ => []

def seenHead (bindings : TypeBindings) : List Ty → Option (Reading → Seen)
  | [] => none
  | t :: _ => some fun ρ => packsSeen bindings t ρ

def packsSeenAll (bindings : TypeBindings) : List Ty → Reading → Seen
  | [], _ => []
  | t :: ts, ρ => packsSeen bindings t ρ ++ packsSeenAll bindings ts ρ

def packsSeenExit (bindings : TypeBindings) : Option Ty → Reading → Seen
  | none, _ => []
  | some t, ρ => packsSeen bindings t ρ

def packsSeenWith (bindings : TypeBindings) : List Role → List Ty → Reading → Seen
  | _, [], _ => []
  | roles, t :: ts, ρ =>
    if roles.headD (.plain false false) = .rest then packsSeenWith bindings roles.tail ts ρ
    else packsSeen bindings t ρ ++ packsSeenWith bindings roles.tail ts ρ

end

mutual

/-- No `match type` waits in the type, and no mark stands on an expansion. -/
def Ty.settles : Ty → Bool
  | .leaf _ => true
  | .var _ _ => true
  | .array elem _ _ => Ty.settles elem
  | .stream elem => Ty.settles elem
  | .tuple members => allSettle members
  | .tagged _ payload => Ty.settles payload && (expandPattern payload).isNone
  | .named _ args => allSettle args
  | .record _ fields => allSettle fields
  | .func _ withTypes normTypes exit =>
    allSettle withTypes && allSettle normTypes && exitSettles exit
  | .app _ params => allSettle params
  | .call _ params => allSettle params
  | .matchType _ _ => false

def allSettle : List Ty → Bool
  | [] => true
  | t :: ts => Ty.settles t && allSettle ts

def exitSettles : Option Ty → Bool
  | none => true
  | some t => Ty.settles t

end

/-! ## The Walk Reads What Stands -/

section Walk

variable {scope : Option PackScope}

theorem reads_evaluateCall (name : String) (params params' : List Ty) :
    Reads scope (evaluateCall table name params params')
      (putCall table (.of scope) name params params') (seenCall table name params params') := by
  unfold evaluateCall putCall seenCall
  split
  · exact Reads.pure _
  · split
    · exact Reads.pure _
    · cases table.evaluate name params' with
      | none => exact Reads.pure _
      | some computed => exact reads_packMemberFor _ computed

theorem reads_substituteExpand {walk : SubstM Ty} {value : Reading → Ty} {seen : Reading → Seen}
    (pattern : Ty) (h : ∀ scope, Reads scope walk (value (.of scope)) (seen (.of scope))) :
    Reads scope (substituteExpand table pattern walk)
      (putExpand table pattern value (seen .first) (.of scope)) (seenExpand seen (.of scope)) := by
  unfold substituteExpand seenExpand putExpand
  rw [← nil_append (match measured (seen .first) with | [] => _ | _ :: _ => _)]
  apply (reads_expandPack table pattern h).bind
  rw [sees_nil]
  unfold expansionOf
  cases measured (seen .first) with
  | nil => exact (h scope).bind_pure fun moved => Members.one (makeExpand moved)
  | cons entry others =>
    dsimp only
    by_cases hall : (entry :: others).all (fun other => decide (other.2 = entry.2)) = true
    · rw [if_pos hall]
      exact Reads.pure _
    · rw [if_neg hall]
      exact Reads.pure _

/-- An expansion is being read exactly where packs are not read whole. -/
theorem isSome_iff_reading : scope.isSome = true ↔ Reading.of scope ≠ .whole := by
  cases scope with
  | none => simp [Reading.of]
  | some scope =>
    simp only [Option.isSome_some, Reading.of, true_iff]
    split <;> exact nofun

theorem reads_substituteCall {name : String} {params : List Ty} {head : Option (SubstM Ty)}
    {args : SubstM (List Ty)} {value : Option (Reading → Ty)} {seenHead : Option (Reading → Seen)}
    {params' : List Ty} {seen : Seen}
    (hhead : match head, value, seenHead with
      | some walk, some value, some seen =>
        ∀ scope, Reads scope walk (value (.of scope)) (seen (.of scope))
      | none, none, none => True
      | _, _, _ => False)
    (hargs : Reads scope args params' seen) :
    Reads scope (substituteCall table name params head args)
      (putCallMember table name params value seenHead params' (.of scope))
      (seenCallMember table name params seenHead seen params' (.of scope)) := by
  have hlast : Reads (sees scope seen)
      (do
        let type ← evaluateCall table name params params'
        pure (Members.one type))
      (.one (putCall table (.of scope) name params params')) (seenCall table name params params') := by
    rw [← Reading.of_sees scope seen]
    exact (reads_evaluateCall table name params params').bind_pure Members.one
  have hcall := @Reads.bind _ _ _ _ (fun params' => do
      let type ← evaluateCall table name params params'
      pure (Members.one type)) _ _ _ _ hargs hlast
  unfold substituteCall putCallMember seenCallMember
  rw [← nil_append (ite _ _ _)]
  apply Reads.get.bind
  rw [sees_nil]
  by_cases hpack : name = kPackName ∧ Reading.of scope ≠ .whole
  · rw [if_pos hpack, if_pos hpack, if_pos ⟨hpack.1, isSome_iff_reading.2 hpack.2⟩]
    exact (reads_packMemberFor _ _).bind_pure Members.one
  · rw [if_neg hpack, if_neg hpack,
      if_neg (fun h => hpack ⟨h.1, isSome_iff_reading.1 h.2⟩)]
    cases expandPattern (.call name params) with
    | none => exact hcall
    | some pattern =>
      match head, value, seenHead, hhead with
      | none, none, none, _ => exact hcall
      | some walk, some value, some seen, h => exact reads_substituteExpand table pattern h

variable (again : Ty → TypeBindings → SubstM Ty) (bindings : TypeBindings)

/-- A mark stands on one type. -/
theorem putMember_list_cons {t : Ty} (ρ : Reading) (h : (expandPattern t).isNone = true) :
    ∃ front others, (putMember table bindings t ρ).list = front :: others := by
  cases t with
  | var name binder =>
    rw [putMember]
    cases bindings.lookup name <;> exact ⟨_, _, rfl⟩
  | call name params =>
    rw [putMember]
    unfold putCallMember
    rw [Option.isNone_iff_eq_none.1 h]
    split <;> exact ⟨_, _, rfl⟩
  | func signature withTypes normTypes exit =>
    rw [putMember]
    split <;> exact ⟨_, _, rfl⟩
  | _ =>
    rw [putMember]
    exact ⟨_, _, rfl⟩

mutual

theorem reads_substituteMember : ∀ (t : Ty) (scope : Option PackScope), t.settles = true →
    Reads scope (substituteMember table again t bindings) (putMember table bindings t (.of scope))
      (packsSeen table bindings t (.of scope))
  | .leaf code, scope, _ => by
    rw [substituteMember]
    exact Reads.pure _
  | .var name binder, scope, _ => by
    rw [substituteMember, putMember, packsSeen]
    cases bindings.lookup name with
    | none => exact Reads.pure _
    | some bound => exact (reads_packMemberFor name bound).bind_pure fun type => Members.one type
  | .array elem extents rank, scope, h => by
    rw [substituteMember]
    exact (reads_substituteMember elem scope h).bind_pure fun e => Members.one (.array e.whole extents rank)
  | .stream elem, scope, h => by
    rw [substituteMember]
    exact (reads_substituteMember elem scope h).bind_pure fun e => Members.one (.stream e.whole)
  | .tuple members, scope, h => by
    rw [substituteMember]
    exact (reads_substituteSpliced members scope h).bind_pure fun ms => Members.one (.tuple ms)
  | .tagged kind payload, scope, h => by
    rw [Ty.settles, Bool.and_eq_true] at h
    have hpayload := reads_substituteMember payload scope h.1
    obtain ⟨front, others, hlist⟩ := putMember_list_cons table bindings (.of scope) h.2
    rw [substituteMember, putMember, packsSeen, hlist]
    rw [← append_nil (packsSeen table bindings payload (.of scope))]
    apply hpayload.bind
    rw [hlist]
    exact Reads.pure _
  | .named decl args, scope, h => by
    rw [substituteMember]
    exact (reads_substituteAll args scope h).bind_pure fun ts => Members.one (.named decl ts)
  | .record names fields, scope, h => by
    rw [substituteMember]
    exact (reads_substituteAll fields scope h).bind_pure fun ts => Members.one (.record names ts)
  | .func signature withTypes normTypes exit, scope, h => by
    rw [Ty.settles, Bool.and_eq_true, Bool.and_eq_true] at h
    rw [substituteMember, putMember, packsSeen]
    have hwith := reads_rebuildWith withTypes 0 signature.withNames signature.withRoles scope h.1.1
    have hnorm := reads_rebuildNorm normTypes 0 signature.normNames signature.normRoles
      (sees scope (packsSeenWith table bindings signature.withRoles withTypes (.of scope))) h.1.2
    have hexit := reads_substituteExit exit (sees (sees scope
      (packsSeenWith table bindings signature.withRoles withTypes (.of scope)))
      (packsSeenAll table bindings normTypes (.of scope))) h.2
    rw [Reading.of_sees] at hnorm
    rw [Reading.of_sees, Reading.of_sees] at hexit
    apply hwith.bind
    apply hnorm.bind
    rw [← append_nil (packsSeenExit table bindings exit (.of scope))]
    apply hexit.bind
    split
    · exact Reads.pure _
    · exact Reads.pure _
  | .app code params, scope, h => by
    rw [substituteMember]
    exact (reads_substituteAll params scope h).bind_pure fun ts => Members.one (.app code ts)
  | .call name params, scope, h => by
    rw [substituteMember, putMember, packsSeen]
    apply reads_substituteCall table _ (reads_substituteAll params scope h)
    cases params with
    | nil =>
      rw [substituteHead, putHead, seenHead]
      trivial
    | cons t ts =>
      rw [Ty.settles, allSettle, Bool.and_eq_true] at h
      rw [substituteHead, putHead, seenHead]
      exact fun scope => (reads_substituteMember t scope h.1).bind_pure Members.whole
  | .matchType subject arms, scope, h => by cases h

theorem reads_substituteAll : ∀ (ts : List Ty) (scope : Option PackScope), allSettle ts = true →
    Reads scope (substituteAll table again ts bindings) (putAll table bindings ts (.of scope))
      (packsSeenAll table bindings ts (.of scope))
  | [], scope, _ => by
    rw [substituteAll]
    exact Reads.pure _
  | t :: ts, scope, h => by
    rw [allSettle, Bool.and_eq_true] at h
    rw [substituteAll, putAll, packsSeenAll]
    have hts := reads_substituteAll ts (sees scope (packsSeen table bindings t (.of scope))) h.2
    rw [Reading.of_sees] at hts
    exact (reads_substituteMember t scope h.1).bind (hts.bind_pure fun ts' => _ :: ts')

theorem reads_substituteSpliced : ∀ (ts : List Ty) (scope : Option PackScope),
    allSettle ts = true →
    Reads scope (substituteSpliced table again ts bindings) (putSpliced table bindings ts (.of scope))
      (packsSeenAll table bindings ts (.of scope))
  | [], scope, _ => by
    rw [substituteSpliced]
    exact Reads.pure _
  | t :: ts, scope, h => by
    rw [allSettle, Bool.and_eq_true] at h
    rw [substituteSpliced, putSpliced, packsSeenAll]
    have hts := reads_substituteSpliced ts (sees scope (packsSeen table bindings t (.of scope))) h.2
    rw [Reading.of_sees] at hts
    exact (reads_substituteMember t scope h.1).bind (hts.bind_pure fun ts' => _ ++ ts')

theorem reads_substituteExit : ∀ (x : Option Ty) (scope : Option PackScope), exitSettles x = true →
    Reads scope (substituteExit table again x bindings) (putExit table bindings x (.of scope))
      (packsSeenExit table bindings x (.of scope))
  | none, scope, _ => by
    rw [substituteExit]
    exact Reads.pure _
  | some t, scope, h => by
    rw [substituteExit]
    exact (reads_substituteMember t scope h).bind_pure fun t' => some t'.whole

theorem reads_rebuildWith : ∀ (ts : List Ty) (i : Nat) (names : List String) (roles : List Role)
    (scope : Option PackScope), allSettle ts = true →
    Reads scope (rebuildWith table again i names roles ts bindings)
      (putWith table bindings i names roles ts (.of scope))
      (packsSeenWith table bindings roles ts (.of scope))
  | [], i, names, roles, scope, _ => by
    rw [rebuildWith]
    exact Reads.pure _
  | t :: ts, i, names, roles, scope, h => by
    rw [allSettle, Bool.and_eq_true] at h
    rw [rebuildWith, putWith, packsSeenWith]
    dsimp only
    split
    · exact (reads_rebuildWith ts (i + 1) names.tail roles.tail scope h.2).bind_pure
        fun p => (Param.mk (names.headD ("__w" ++ toString i)) .rest (.leaf .void) :: p.1, p.2)
    · have hts := reads_rebuildWith ts (i + 1) names.tail roles.tail
        (sees scope (packsSeen table bindings t (.of scope))) h.2
      rw [Reading.of_sees] at hts
      exact (reads_substituteMember t scope h.1).bind
        (hts.bind_pure fun p => (_ ++ p.1, _ || p.2))

theorem reads_rebuildNorm : ∀ (ts : List Ty) (i : Nat) (names : List String) (roles : List Role)
    (scope : Option PackScope), allSettle ts = true →
    Reads scope (rebuildNorm table again i names roles ts bindings)
      (putNorm table bindings i names roles ts (.of scope))
      (packsSeenAll table bindings ts (.of scope))
  | [], i, names, roles, scope, _ => by
    rw [rebuildNorm]
    exact Reads.pure _
  | t :: ts, i, names, roles, scope, h => by
    rw [allSettle, Bool.and_eq_true] at h
    rw [rebuildNorm, putNorm, packsSeenAll]
    have hts := reads_rebuildNorm ts (i + 1) names.tail roles.tail
      (sees scope (packsSeen table bindings t (.of scope))) h.2
    rw [Reading.of_sees] at hts
    exact (reads_substituteMember t scope h.1).bind
      (hts.bind_pure fun p => (_ ++ p.1, _ || p.2))

end

end Walk

/-! ## Types With Nothing Open -/

mutual

/-- Nothing in the type is left to put in or to compute: no variable, no expansion and no
    `match type`. -/
def Ty.writtenOut : Ty → Bool
  | .leaf _ => true
  | .var _ _ => false
  | .array elem _ _ => Ty.writtenOut elem
  | .stream elem => Ty.writtenOut elem
  | .tuple members => allWrittenOut members
  | .tagged _ payload => Ty.writtenOut payload
  | .named _ args => allWrittenOut args
  | .record _ fields => allWrittenOut fields
  | .func _ withTypes normTypes exit =>
    allWrittenOut withTypes && allWrittenOut normTypes && exitWrittenOut exit
  | .app _ params => allWrittenOut params
  | .call name params => name ≠ kExpandName && allWrittenOut params
  | .matchType _ _ => false

def allWrittenOut : List Ty → Bool
  | [] => true
  | t :: ts => Ty.writtenOut t && allWrittenOut ts

def exitWrittenOut : Option Ty → Bool
  | none => true
  | some t => Ty.writtenOut t

end

theorem allWrittenOut_iff {ts : List Ty} :
    allWrittenOut ts = true ↔ ∀ t ∈ ts, t.writtenOut = true := by
  induction ts with
  | nil => simp [allWrittenOut]
  | cons t ts ih => simp [allWrittenOut, ih]

theorem expandPattern_writtenOut {t : Ty} (h : t.writtenOut = true) : expandPattern t = none := by
  cases t with
  | call name params =>
    rw [Ty.writtenOut, Bool.and_eq_true, decide_eq_true_eq] at h
    rw [expandPattern, if_neg h.1]
  | _ => rfl

mutual

theorem settles_of_writtenOut : ∀ t : Ty, t.writtenOut = true → t.settles = true
  | .leaf _, _ => rfl
  | .var _ _, h => by cases h
  | .array elem _ _, h => settles_of_writtenOut elem h
  | .stream elem, h => settles_of_writtenOut elem h
  | .tuple members, h => allSettle_of_writtenOut members h
  | .tagged _ payload, h => by
    have hpayload : payload.writtenOut = true := h
    rw [Ty.settles, settles_of_writtenOut payload hpayload, expandPattern_writtenOut hpayload]
    rfl
  | .named _ args, h => allSettle_of_writtenOut args h
  | .record _ fields, h => allSettle_of_writtenOut fields h
  | .func _ withTypes normTypes exit, h => by
    rw [Ty.writtenOut, Bool.and_eq_true, Bool.and_eq_true] at h
    rw [Ty.settles, allSettle_of_writtenOut withTypes h.1.1, allSettle_of_writtenOut normTypes h.1.2,
      exitSettles_of_writtenOut exit h.2]
    rfl
  | .app _ params, h => allSettle_of_writtenOut params h
  | .call name params, h => by
    rw [Ty.writtenOut, Bool.and_eq_true] at h
    exact allSettle_of_writtenOut params h.2
  | .matchType _ _, h => by cases h

theorem allSettle_of_writtenOut : ∀ ts : List Ty, allWrittenOut ts = true → allSettle ts = true
  | [], _ => rfl
  | t :: ts, h => by
    rw [allWrittenOut, Bool.and_eq_true] at h
    rw [allSettle, settles_of_writtenOut t h.1, allSettle_of_writtenOut ts h.2]
    rfl

theorem exitSettles_of_writtenOut : ∀ x : Option Ty, exitWrittenOut x = true → exitSettles x = true
  | none, _ => rfl
  | some t, h => settles_of_writtenOut t h

end

mutual

theorem containsTypeVar_writtenOut : ∀ t : Ty, t.writtenOut = true → containsTypeVar t = false
  | .leaf _, _ => rfl
  | .var _ _, h => by cases h
  | .array elem _ _, h => containsTypeVar_writtenOut elem h
  | .stream elem, h => containsTypeVar_writtenOut elem h
  | .tuple members, h => anyContainsTypeVar_writtenOut members h
  | .tagged _ payload, h => containsTypeVar_writtenOut payload h
  | .named _ args, h => anyContainsTypeVar_writtenOut args h
  | .record _ fields, h => anyContainsTypeVar_writtenOut fields h
  | .func _ withTypes normTypes exit, h => by
    rw [Ty.writtenOut, Bool.and_eq_true, Bool.and_eq_true] at h
    rw [containsTypeVar, anyContainsTypeVar_writtenOut withTypes h.1.1,
      anyContainsTypeVar_writtenOut normTypes h.1.2]
    cases exit with
    | none => rfl
    | some t => exact containsTypeVar_writtenOut t h.2
  | .app _ params, h => anyContainsTypeVar_writtenOut params h
  | .call name params, h => by
    rw [Ty.writtenOut, Bool.and_eq_true] at h
    exact anyContainsTypeVar_writtenOut params h.2
  | .matchType _ _, h => by cases h

theorem anyContainsTypeVar_writtenOut : ∀ ts : List Ty, allWrittenOut ts = true →
    anyContainsTypeVar ts = false
  | [], _ => rfl
  | t :: ts, h => by
    rw [allWrittenOut, Bool.and_eq_true] at h
    rw [anyContainsTypeVar, containsTypeVar_writtenOut t h.1, anyContainsTypeVar_writtenOut ts h.2]
    rfl

end

section WrittenOut

variable (bindings : TypeBindings)

mutual

/-- Nothing is put into a type with nothing open. -/
theorem putMember_writtenOut : ∀ t : Ty, t.writtenOut = true →
    putMember table bindings t .whole = .one t
  | .leaf _, _ => by rw [putMember]
  | .var _ _, h => by cases h
  | .array elem _ _, h => by
    rw [putMember, putMember_writtenOut elem h]
    rfl
  | .stream elem, h => by
    rw [putMember, putMember_writtenOut elem h]
    rfl
  | .tuple members, h => by rw [putMember, putSpliced_writtenOut members h]
  | .tagged _ payload, h => by
    rw [putMember, putMember_writtenOut payload h]
    rfl
  | .named _ args, h => by rw [putMember, putAll_writtenOut args h]
  | .record _ fields, h => by rw [putMember, putAll_writtenOut fields h]
  | .func signature withTypes normTypes exit, h => by
    rw [Ty.writtenOut, Bool.and_eq_true, Bool.and_eq_true] at h
    have hexit : putExit table bindings exit .whole = exit := by
      cases exit with
      | none => rw [putExit]
      | some t =>
        rw [putExit, putMember_writtenOut t h.2]
        rfl
    rw [putMember, hexit, putWith_writtenOut withTypes _ _ _ h.1.1,
      putNorm_writtenOut normTypes _ _ _ h.1.2]
    simp
  | .app _ params, h => by rw [putMember, putAll_writtenOut params h]
  | .call name params, h => by
    have hexpand := expandPattern_writtenOut h
    rw [Ty.writtenOut, Bool.and_eq_true] at h
    rw [putMember, putAll_writtenOut params h.2]
    unfold putCallMember
    rw [if_neg (fun hpack => hpack.2 rfl), hexpand]
    show Members.one (putCall table .whole name params params) = _
    rw [putCall, if_pos rfl]
  | .matchType _ _, h => by cases h

theorem putAll_writtenOut : ∀ ts : List Ty, allWrittenOut ts = true →
    putAll table bindings ts .whole = ts
  | [], _ => by rw [putAll]
  | t :: ts, h => by
    rw [allWrittenOut, Bool.and_eq_true] at h
    rw [putAll, putMember_writtenOut t h.1, putAll_writtenOut ts h.2]
    rfl

theorem putSpliced_writtenOut : ∀ ts : List Ty, allWrittenOut ts = true →
    putSpliced table bindings ts .whole = ts
  | [], _ => by rw [putSpliced]
  | t :: ts, h => by
    rw [allWrittenOut, Bool.and_eq_true] at h
    rw [putSpliced, putMember_writtenOut t h.1, putSpliced_writtenOut ts h.2]
    rfl

theorem putWith_writtenOut : ∀ (ts : List Ty) (i : Nat) (names : List String) (roles : List Role),
    allWrittenOut ts = true → (putWith table bindings i names roles ts .whole).2 = false
  | [], _, _, _, _ => by rw [putWith]
  | t :: ts, i, names, roles, h => by
    rw [allWrittenOut, Bool.and_eq_true] at h
    have hts := putWith_writtenOut ts (i + 1) names.tail roles.tail h.2
    rw [putWith]
    dsimp only
    split
    · exact hts
    · rw [putMember_writtenOut t h.1]
      show (decide (t ≠ t) || _) = false
      rw [hts]
      simp

theorem putNorm_writtenOut : ∀ (ts : List Ty) (i : Nat) (names : List String) (roles : List Role),
    allWrittenOut ts = true → (putNorm table bindings i names roles ts .whole).2 = false
  | [], _, _, _, _ => by rw [putNorm]
  | t :: ts, i, names, roles, h => by
    rw [allWrittenOut, Bool.and_eq_true] at h
    have hts := putNorm_writtenOut ts (i + 1) names.tail roles.tail h.2
    have hwhole : (if roles.headD (.plain false false) = .rest ∨
        roles.headD (.plain false false) = .constas then Members.one (Members.one t).whole
        else Members.one t) = .one t := by
      split <;> rfl
    rw [putNorm, putMember_writtenOut t h.1]
    dsimp only
    rw [hwhole]
    show (decide (t ≠ t) || _) = false
    rw [hts]
    simp

end

end WrittenOut

/-! ## Patterns of One Name -/

theorem range_map_getD (members : List Ty) (t : Ty) :
    (range members.length).map (fun i => members.getD i t) = members := by
  apply ext_getElem
  · simp
  · intro i _ hi
    simp [getElem?_eq_getElem hi]

/-- The expansion of a name is the members of the pack it stands for. -/
theorem putMember_expand_pack {bindings : TypeBindings} {name : String} {binder : Bool}
    {pack : Ty} {members : List Ty} (h : bindings.lookup name = some pack)
    (hpack : packMembers pack = some members) (others : List Ty) (ρ : Reading) :
    putMember table bindings (.call kExpandName (.var name binder :: others)) ρ = .many members := by
  have hvalue : ∀ i, (putMember table bindings (.var name binder) (.at i)).whole =
      members.getD i (.leaf .void) := by
    intro i
    rw [putMember, h]
    show readPack _ pack = _
    rw [readPack, hpack]
    rfl
  have hseen : packsSeen table bindings (.var name binder) .first = [(name, members.length)] := by
    rw [packsSeen, h]
    show seenPack name pack = _
    rw [seenPack, hpack]
  rw [putMember, putHead, seenHead]
  show putExpand table _ _ (packsSeen table bindings (.var name binder) .first) ρ = _
  rw [hseen, putExpand]
  have hof : expansionOf table (fun ρ => (putMember table bindings (.var name binder) ρ).whole)
      (.var name binder) [(name, members.length)] = .done members := by
    show (if _ then Expansion.done _ else _) = _
    rw [if_pos (by simp [measured, PackScope.knowAll, PackScope.know])]
    simp only [hvalue, range_map_getD]
  rw [hof]

/-- The expansion of a name that stands for no pack keeps its dots. -/
theorem putMember_expand_keep {bindings : TypeBindings} {name : String} {binder : Bool}
    (h : ∀ bound, bindings.lookup name = some bound → packMembers bound = none) (ρ : Reading) :
    putMember table bindings (makeExpand (.var name binder)) ρ =
      .one (makeExpand ((bindings.lookup name).getD (.var name binder))) := by
  have hseen : packsSeen table bindings (.var name binder) .first = [] := by
    rw [packsSeen]
    cases hbound : bindings.lookup name with
    | none => rfl
    | some bound =>
      show seenPack name bound = _
      rw [seenPack, h bound hbound]
  have hvalue : (putMember table bindings (.var name binder) ρ).whole =
      (bindings.lookup name).getD (.var name binder) := by
    rw [putMember]
    cases hbound : bindings.lookup name with
    | none => rfl
    | some bound =>
      show readPack ρ bound = bound
      rw [readPack, h bound hbound]
  rw [makeExpand, putMember, putHead, seenHead]
  show putExpand table _ _ (packsSeen table bindings (.var name binder) .first) ρ = _
  rw [hseen, putExpand]
  show Members.one (makeExpand (putMember table bindings (.var name binder) ρ).whole) = _
  rw [hvalue]

/-! ## The Source -/

theorem substituteTypeVars_settles {t : Ty} (h : t.settles = true) (depth : Nat)
    {bindings : TypeBindings} (hbindings : bindings ≠ []) :
    substituteTypeVars table (depth + 1) t bindings none =
      some ((putMember table bindings t .whole).whole, none) := by
  rw [substituteTypeVars, if_neg hbindings]
  exact (reads_substituteMember table (substituteTypeVars table depth) bindings t none h).bind_pure
    Members.whole

/-- A type with nothing open stays as it is. -/
theorem substituteTypeVars_writtenOut {t : Ty} (h : t.writtenOut = true) (depth : Nat)
    (bindings : TypeBindings) : substituteTypeVars table (depth + 1) t bindings none = some (t, none) := by
  by_cases hbindings : bindings = []
  · rw [substituteTypeVars, if_pos hbindings]
    rfl
  · rw [substituteTypeVars_settles table (settles_of_writtenOut t h) depth hbindings,
      putMember_writtenOut table bindings t h]
    rfl

/-- A variable becomes what it is bound to. -/
theorem substituteTypeVars_var (name : String) (binder : Bool) (depth : Nat)
    (bindings : TypeBindings) :
    substituteTypeVars table (depth + 1) (.var name binder) bindings none =
      some ((bindings.lookup name).getD (.var name binder), none) := by
  by_cases hbindings : bindings = []
  · rw [substituteTypeVars, if_pos hbindings, hbindings]
    rfl
  · rw [substituteTypeVars_settles table rfl depth hbindings, putMember]
    cases bindings.lookup name with
    | none => rfl
    | some bound =>
      show some (readPack .whole bound, _) = _
      unfold readPack
      cases packMembers bound <;> rfl

end Camel.Types
