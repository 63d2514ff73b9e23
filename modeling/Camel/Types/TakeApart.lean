import Camel.Lib.Matching
import Camel.Types.Simultaneous

/-! # Packs Taken Apart

    A case of a `match type` takes a pack of types apart with a tuple pattern: names, types with
    nothing open, and a last `..Rest` that stands for the members that are left.
-/

namespace Camel.Types

open Matching List

/-! ## Patterns -/

/-- A name, or a type with nothing open. -/
def Ty.isItem : Ty → Bool
  | .var _ _ => true
  | t => t.writtenOut

/-- The tuple pattern of a case. -/
structure PackPattern where
  fixed : List Ty
  rest : Option (String × Bool)
  items : ∀ t ∈ fixed, t.isItem = true

def PackPattern.restTypes (p : PackPattern) : List Ty :=
  match p.rest with
  | some (name, binder) => [makeExpand (.var name binder)]
  | none => []

/-- The pattern as the type that the case writes. -/
def PackPattern.type (p : PackPattern) : Ty := .tuple (p.fixed ++ p.restTypes)

def toItem : Ty → Item String Ty
  | .var name _ => .name name
  | t => .value t

/-- The names that the pattern writes. -/
def PackPattern.Names (p : PackPattern) (name : String) : Prop :=
  Item.name name ∈ p.fixed.map toItem ∨ ∃ binder, p.rest = some (name, binder)

variable (table : TypeTable)

def SameType (a b : Ty) : Prop := typeEquals table a b = true

instance : DecidableRel (SameType table) := fun a b =>
  inferInstanceAs (Decidable (typeEquals table a b = true))

theorem sameType_equivalence : Equivalence (SameType table) where
  refl a := (typeEquals_iff table).2 rfl
  symm h := (typeEquals_iff table).2 ((typeEquals_iff table).1 h).symm
  trans h h' := (typeEquals_iff table).2 (((typeEquals_iff table).1 h).trans ((typeEquals_iff table).1 h'))

/-! ## What a Pattern Describes -/

/-- Under the assignment the members of the pattern are the members of the pack, all of them, with
    the rest for those after the fixed part. -/
def Describes (σ : TypeBindings) (p : PackPattern) (members : List Ty) : Prop :=
  ∃ first after, members = first ++ after ∧
    Forall₂ (Stands (SameType table) σ) (p.fixed.map toItem) first ∧
    match p.rest with
    | none => after = []
    | some (name, _) => ∃ pack, σ.lookup name = some pack ∧ SameType table pack (makePack after)

/-- The pattern describes the pack under an assignment that keeps the bindings. -/
def Fits (p : PackPattern) (members : List Ty) (bindings : TypeBindings) : Prop :=
  ∃ σ, Extends σ bindings ∧ Describes table σ p members

/-- The pattern takes the pack apart exactly where it describes it, with the assignment under which
    it does, and leaves the bindings as they were where it does not. -/
structure TakesApart (p : PackPattern) (members : List Ty) (bindings : TypeBindings)
    (fits : Bool) (taken : TypeBindings) : Prop where
  fits_iff : fits = true ↔ Fits table p members bindings
  extends_bindings : Extends taken bindings
  describes : fits = true → Describes table taken p members
  names : ∀ name type, taken.lookup name = some type →
    bindings.lookup name = some type ∨ p.Names name
  unique : ∀ σ, Extends σ bindings → Describes table σ p members → Agrees (SameType table) σ taken
  unchanged : fits = false → taken = bindings

/-- The types that the pattern writes before what its rest is still to be bound to. -/
def PackPattern.written (p : PackPattern) (bindings : TypeBindings) : List Ty :=
  match p.rest with
  | some (name, _) => p.fixed ++ (((bindings.lookup name).bind packMembers).getD [])
  | none => p.fixed

/-- The first members of the pack are what the pattern writes. -/
def FirstFit (p : PackPattern) (members : List Ty) (bindings : TypeBindings) : Prop :=
  (p.written bindings).length ≤ members.length ∧
    ∃ σ, Extends σ bindings ∧
      Forall₂ (Stands (SameType table) σ) ((p.written bindings).map toItem)
        (members.take (p.written bindings).length)

/-- A pattern whose first members fit leaves no member over when it has no rest, or one that is
    bound to a pack already; and where it writes the name of its rest before, that member is the
    pack of those after the fixed part. -/
def LeavesNone (p : PackPattern) (members : List Ty) (bindings : TypeBindings) : Prop :=
  FirstFit table p members bindings →
    ((∀ name binder, p.rest = some (name, binder) →
        ∃ pack members, bindings.lookup name = some pack ∧ packMembers pack = some members) →
      members.length ≤ (p.written bindings).length) ∧
    ∀ name binder, p.rest = some (name, binder) → bindings.lookup name = none →
      ∀ item member, (item, member) ∈ (p.fixed.map toItem).zip members → item = .name name →
        SameType table member (makePack (members.drop p.fixed.length))

/-- What the bindings have for the names of the pattern has nothing open. -/
def OuterClosed (p : PackPattern) (bindings : TypeBindings) : Prop :=
  ∀ name type, p.Names name → bindings.lookup name = some type → type.writtenOut = true

/-! ## The Loop -/

section Loop

variable {table}

section Step

variable {again : Ty → TypeBindings → SubstM Ty} {w m : Ty} {ws ms : List Ty} {bound : TypeBindings}

/-- An entry that is still a name binds the member. -/
theorem takeFixed_name {name : String} {binder : Bool}
    (h : again w bound none = some (.var name binder, none)) :
    takeFixed table again (w :: ws) (m :: ms) bound none =
      takeFixed table again ws ms (bound ++ [(name, m)]) none := by
  rw [takeFixed]
  show (again w bound none).bind _ = _
  rw [h]
  rfl

/-- An entry with nothing open has to be the member. -/
theorem takeFixed_closed {entry : Ty} (h : again w bound none = some (entry, none))
    (hclosed : containsTypeVar entry = false) :
    takeFixed table again (w :: ws) (m :: ms) bound none =
      if SameType table entry m then takeFixed table again ws ms bound none else some (none, none) := by
  have hstep : takeFixed table again (w :: ws) (m :: ms) bound none =
      (if containsTypeVar entry || !typeEquals table entry m then pure none
        else takeFixed table again ws ms bound) none := by
    rw [takeFixed]
    show (again w bound none).bind _ = _
    rw [h]
    cases entry with
    | var name binder => cases hclosed
    | _ => rfl
  rw [hstep, hclosed, Bool.false_or]
  by_cases hsame : SameType table entry m
  · rw [if_pos hsame, show typeEquals table entry m = true from hsame]
    rfl
  · have hfalse : typeEquals table entry m = false := Bool.eq_false_iff.2 hsame
    rw [if_neg hsame, hfalse]
    rfl

end Step

/-- The loop over the fixed part is the matching of its items. -/
theorem takeFixed_run (table : TypeTable) (depth : Nat) {ws ms : List Ty} {bound : TypeBindings}
    (hitems : ∀ t ∈ ws, t.isItem = true) (hmembers : ∀ t ∈ ms, containsTypeVar t = false)
    (hbound : ∀ name type, .name name ∈ ws.map toItem → bound.lookup name = some type →
      containsTypeVar type = false) :
    takeFixed table (substituteTypeVars table (depth + 1)) ws ms bound none =
      some (matchItems (SameType table) (ws.map toItem) ms bound, none) := by
  induction ws generalizing ms bound with
  | nil => rfl
  | cons w ws ih =>
    cases ms with
    | nil => rfl
    | cons m ms =>
      have hitems' := fun t ht => hitems t (.tail _ ht)
      have hmembers' := fun t ht => hmembers t (.tail _ ht)
      have hrest : takeFixed table (substituteTypeVars table (depth + 1)) ws ms bound none =
          some (matchItems (SameType table) (ws.map toItem) ms bound, none) :=
        ih hitems' hmembers' fun name type hname => hbound name type (.tail _ hname)
      by_cases hvar : ∃ name binder, w = .var name binder
      · obtain ⟨name, binder, rfl⟩ := hvar
        rw [map_cons, toItem, matchItems]
        have hagain := substituteTypeVars_var table name binder depth bound
        cases hlookup : bound.lookup name with
        | none =>
          rw [hlookup] at hagain
          rw [takeFixed_name hagain]
          apply ih hitems' hmembers'
          intro other type hother hlook
          by_cases hsame : other = name
          · rw [hsame, lookup_append_fresh hlookup] at hlook
            obtain rfl := Option.some.inj hlook
            exact hmembers m (.head _)
          · rw [lookup_append_other hsame] at hlook
            exact hbound other type (.tail _ hother) hlook
        | some type =>
          rw [hlookup, Option.getD_some] at hagain
          rw [takeFixed_closed hagain (hbound name type (.head _) hlookup), hrest]
          by_cases hsame : SameType table type m
          · simp only [if_pos hsame]
          · simp only [if_neg hsame]
      · have hout : w.writtenOut = true := by
          have hitem := hitems w (.head _)
          cases w with
          | var name binder => exact absurd ⟨name, binder, rfl⟩ hvar
          | _ => exact hitem
        have hitem : toItem w = .value w := by
          cases w with
          | var name binder => exact absurd ⟨name, binder, rfl⟩ hvar
          | _ => rfl
        have hagain := substituteTypeVars_writtenOut table hout depth bound
        rw [map_cons, hitem, takeFixed_closed hagain (containsTypeVar_writtenOut w hout), hrest,
          matchItems]
        split <;> rfl

end Loop

/-! ## The Pattern With the Bindings in It -/

section Shape

variable {table} {p : PackPattern} {bindings : TypeBindings}

/-- What stands at the place of an item. -/
def valueIn (bindings : TypeBindings) : Ty → Ty
  | .var name binder => (bindings.lookup name).getD (.var name binder)
  | t => t

/-- What stands at the place of the rest. -/
def restIn (bindings : TypeBindings) : Option (String × Bool) → List Ty
  | none => []
  | some (name, binder) =>
    match bindings.lookup name with
    | none => [makeExpand (.var name binder)]
    | some type => (packMembers type).getD [makeExpand type]

variable {t : Ty}

theorem valueIn_writtenOut (h : t.writtenOut = true) : valueIn bindings t = t := by
  cases t with
  | var name binder => cases h
  | _ => rfl

/-- An item is a name or has nothing open. -/
theorem isItem_cases (h : t.isItem = true) :
    (∃ name binder, t = .var name binder) ∨ t.writtenOut = true := by
  cases t with
  | var name binder => exact .inl ⟨name, binder, rfl⟩
  | _ => exact .inr h

theorem toItem_writtenOut (h : t.writtenOut = true) : toItem t = .value t := by
  cases t with
  | var name binder => cases h
  | _ => rfl

theorem settles_item (h : t.isItem = true) : t.settles = true := by
  rcases isItem_cases h with ⟨name, binder, rfl⟩ | hout
  · rfl
  · exact settles_of_writtenOut t hout

theorem putMember_item (h : t.isItem = true) :
    putMember table bindings t .whole = .one (valueIn bindings t) := by
  rcases isItem_cases h with ⟨name, binder, rfl⟩ | hout
  · rw [putMember, valueIn]
    cases bindings.lookup name with
    | none => rfl
    | some type =>
      show Members.one (readPack .whole type) = _
      unfold readPack
      cases packMembers type <;> rfl
  · rw [putMember_writtenOut table bindings t hout, valueIn_writtenOut hout]

theorem putSpliced_items {ts others : List Ty} (h : ∀ t ∈ ts, t.isItem = true) :
    putSpliced table bindings (ts ++ others) .whole =
      ts.map (valueIn bindings) ++ putSpliced table bindings others .whole := by
  induction ts with
  | nil => rfl
  | cons t ts ih =>
    rw [cons_append, putSpliced, putMember_item (h t (.head _)), ih fun t ht => h t (.tail _ ht)]
    rfl

theorem putSpliced_rest (rest : Option (String × Bool)) :
    putSpliced table bindings
      (match rest with | some (name, binder) => [makeExpand (.var name binder)] | none => []) .whole =
      restIn bindings rest := by
  cases rest with
  | none => rw [putSpliced, restIn]
  | some rest =>
    obtain ⟨name, binder⟩ := rest
    show putSpliced table bindings [makeExpand (.var name binder)] .whole = _
    rw [putSpliced, putSpliced, append_nil, restIn]
    cases hlookup : bindings.lookup name with
    | none =>
      have hkeep : ∀ bound, bindings.lookup name = some bound → packMembers bound = none := by
        rw [hlookup]
        exact nofun
      rw [putMember_expand_keep table hkeep, hlookup]
      rfl
    | some type =>
      cases hpack : packMembers type with
      | none =>
        have hkeep : ∀ bound, bindings.lookup name = some bound → packMembers bound = none := by
          rw [hlookup]
          rintro bound ⟨⟩
          exact hpack
        rw [putMember_expand_keep table hkeep, hlookup]
        show _ = (packMembers type).getD _
        rw [hpack]
        rfl
      | some members =>
        rw [makeExpand, putMember_expand_pack table hlookup hpack]
        show _ = (packMembers type).getD _
        rw [hpack]
        rfl

theorem settles_pattern (p : PackPattern) : p.type.settles = true := by
  have hrest : allSettle p.restTypes = true := by
    unfold PackPattern.restTypes
    split <;> rfl
  have hitems : ∀ ts : List Ty, (∀ t ∈ ts, t.isItem = true) →
      allSettle (ts ++ p.restTypes) = true := by
    intro ts hts
    induction ts with
    | nil => exact hrest
    | cons t ts ih =>
      rw [cons_append, allSettle, settles_item (hts t (.head _)),
        ih fun t ht => hts t (.tail _ ht)]
      rfl
  exact hitems p.fixed p.items

theorem substituteTypeVars_pattern (table : TypeTable) (p : PackPattern) (depth : Nat)
    (bindings : TypeBindings) :
    substituteTypeVars table (depth + 1) p.type bindings none =
      some (.tuple (p.fixed.map (valueIn bindings) ++ restIn bindings p.rest), none) := by
  by_cases hbindings : bindings = []
  · have hvalue : ∀ t : Ty, valueIn [] t = t := fun t => by cases t <;> rfl
    have hrest : restIn [] p.rest = p.restTypes := by
      unfold PackPattern.restTypes
      cases p.rest <;> rfl
    rw [substituteTypeVars, if_pos hbindings, hbindings, hrest,
      map_congr_left fun t _ => hvalue t, map_id']
    rfl
  · rw [substituteTypeVars_settles table (settles_pattern p) depth hbindings, PackPattern.type,
      putMember, putSpliced_items p.items, PackPattern.restTypes, putSpliced_rest]
    rfl

end Shape

/-! ## The Pattern Against the Members -/

section Shape

variable {p : PackPattern} {bindings : TypeBindings}

/-- The bindings of a pattern that takes the members apart. -/
def takenBy (p : PackPattern) (members : List Ty) (bindings : TypeBindings) : Option TypeBindings :=
  if members.length < (p.written bindings).length then none
  else
    match matchItems (SameType table) ((p.written bindings).map toItem) members bindings, p.rest with
    | none, _ => none
    | some bound, none => some bound
    | some bound, some (name, _) =>
      match bindings.lookup name with
      | none => some (bound ++ [(name, makePack (members.drop p.fixed.length))])
      | some type => if (packMembers type).isSome then some bound else none

variable {table}

theorem splitRest_fixed {ts : List Ty} (h : ∀ t ∈ ts, expandPattern t = none) :
    splitRest ts = (ts, none) := by
  unfold splitRest
  cases hlast : ts.getLast? with
  | none => rfl
  | some t =>
    simp [h t (mem_of_getLast? hlast)]

theorem splitRest_append (ts : List Ty) (t : Ty) : splitRest (ts ++ [makeExpand t]) = (ts, some t) := by
  unfold splitRest
  rw [getLast?_append, dropLast_concat]
  rfl

/-- Items match whether or not the bindings have been put in. -/
theorem matchItems_valueIn {ts ms : List Ty} {bound : TypeBindings} (hext : Extends bound bindings)
    (hitems : ∀ t ∈ ts, t.isItem = true)
    (houter : ∀ name type, .name name ∈ ts.map toItem → bindings.lookup name = some type →
      type.writtenOut = true) :
    matchItems (SameType table) ((ts.map (valueIn bindings)).map toItem) ms bound =
      matchItems (SameType table) (ts.map toItem) ms bound := by
  induction ts generalizing ms bound with
  | nil => rfl
  | cons t ts ih =>
    have hitems' := fun t ht => hitems t (.tail _ ht)
    have houter' := fun name type hname => houter name type (.tail _ hname)
    rw [map_cons, map_cons, map_cons]
    cases ms with
    | nil => rw [matchItems, matchItems]
    | cons m ms =>
      have hrest := @ih ms _ hext hitems' houter'
      rcases isItem_cases (hitems t (.head _)) with ⟨name, binder, rfl⟩ | hout
      · cases hlookup : bindings.lookup name with
        | none =>
          rw [valueIn, hlookup, Option.getD_none, toItem, matchItems, matchItems]
          cases hbound : bound.lookup name with
          | none => exact ih ((extends_append bound _).trans hext) hitems' houter'
          | some type => rw [hrest]
        | some type =>
          -- the value that stands at the name is the one the loop finds for it
          rw [valueIn, hlookup, Option.getD_some,
            toItem_writtenOut (houter name type (.head _) hlookup), toItem, matchItems, matchItems,
            hext name type hlookup, hrest]
      · rw [valueIn_writtenOut hout, toItem_writtenOut hout, matchItems, matchItems, hrest]

/-- What is left to bind of the rest. -/
def restLeft (bindings : TypeBindings) : Option (String × Bool) → Option Ty
  | none => none
  | some (name, binder) =>
    match bindings.lookup name with
    | none => some (.var name binder)
    | some type => if (packMembers type).isSome then none else some type

variable {members : List Ty}

theorem packMembers_eq {type : Ty} (h : packMembers type = some members) :
    type = makePack members := by
  cases type with
  | call name params =>
    rw [packMembers] at h
    by_cases hname : name = kPackName
    · rw [if_pos hname] at h
      obtain rfl := Option.some.inj h
      rw [makePack, hname]
    · rw [if_neg hname] at h
      cases h
  | _ => cases h

theorem packMembers_writtenOut {type : Ty} (h : type.writtenOut = true)
    (hpack : packMembers type = some members) : ∀ t ∈ members, t.writtenOut = true := by
  rw [packMembers_eq hpack, makePack, Ty.writtenOut, Bool.and_eq_true] at h
  exact allWrittenOut_iff.1 h.2

theorem isItem_writtenOut {t : Ty} (h : t.writtenOut = true) : t.isItem = true := by
  cases t with
  | var name binder => rfl
  | _ => exact h

/-- Every type that the pattern writes is an item, and its names are names of the pattern. -/
theorem written_items (houter : OuterClosed p bindings) :
    (∀ t ∈ p.written bindings, t.isItem = true) ∧
      ∀ name, .name name ∈ (p.written bindings).map toItem → p.Names name := by
  unfold PackPattern.written
  cases hrest : p.rest with
  | none => exact ⟨p.items, fun name hname => .inl hname⟩
  | some rest =>
    obtain ⟨name, binder⟩ := rest
    have hout : ∀ t ∈ ((bindings.lookup name).bind packMembers).getD [], t.writtenOut = true := by
      cases hlookup : bindings.lookup name with
      | none => exact nofun
      | some type =>
        rw [Option.bind_some]
        cases hpack : packMembers type with
        | none => exact nofun
        | some members =>
          exact packMembers_writtenOut (houter name type (.inr ⟨binder, hrest⟩) hlookup) hpack
    constructor
    · exact forall_mem_append.2 ⟨p.items, fun t ht => isItem_writtenOut (hout t ht)⟩
    · intro other hother
      rw [map_append] at hother
      rcases mem_append.1 hother with hmem | hmem
      · exact .inl hmem
      · -- the members of a pack that the rest is bound to write no name
        obtain ⟨t, ht, heq⟩ := mem_map.1 hmem
        rw [toItem_writtenOut (hout t ht)] at heq
        cases heq

/-- The types of the pattern with the bindings in it: those it writes, and what is left of the
    rest. -/
theorem splitRest_pattern (houter : OuterClosed p bindings) :
    splitRest (p.fixed.map (valueIn bindings) ++ restIn bindings p.rest) =
      ((p.written bindings).map (valueIn bindings), restLeft bindings p.rest) := by
  have hvalue : ∀ t ∈ (p.written bindings).map (valueIn bindings), expandPattern t = none := by
    intro t ht
    obtain ⟨w, hw, rfl⟩ := mem_map.1 ht
    obtain ⟨hitems, hnames⟩ := written_items houter
    rcases isItem_cases (hitems w hw) with ⟨name, binder, rfl⟩ | hout
    · rw [valueIn]
      cases hlookup : bindings.lookup name with
      | none => rfl
      | some type =>
        have hname : p.Names name := hnames name (mem_map.2 ⟨_, hw, rfl⟩)
        exact expandPattern_writtenOut (houter name type hname hlookup)
    · rw [valueIn_writtenOut hout]
      exact expandPattern_writtenOut hout
  unfold PackPattern.written at hvalue ⊢
  cases hrest : p.rest with
  | none =>
    rw [hrest] at hvalue
    rw [restIn, restLeft, append_nil]
    exact splitRest_fixed hvalue
  | some rest =>
    obtain ⟨name, binder⟩ := rest
    rw [hrest] at hvalue
    dsimp only at hvalue ⊢
    rw [restIn, restLeft]
    cases hlookup : bindings.lookup name with
    | none =>
      dsimp only [Option.bind_none, Option.getD_none]
      rw [append_nil]
      exact splitRest_append _ _
    | some type =>
      rw [hlookup, Option.bind_some] at hvalue
      rw [Option.bind_some]
      cases hpack : packMembers type with
      | none =>
        dsimp only [Option.getD_none, Option.isSome_none]
        rw [append_nil, hpack]
        exact splitRest_append _ _
      | some members =>
        have hout := packMembers_writtenOut (houter name type (.inr ⟨binder, hrest⟩) hlookup) hpack
        rw [hpack, Option.getD_some] at hvalue
        dsimp only [Option.getD_some, Option.isSome_some]
        rw [map_append,
          map_congr_left fun t (ht : t ∈ members) => valueIn_writtenOut (hout t ht),
          map_id'] at hvalue ⊢
        rw [hpack]
        exact splitRest_fixed hvalue

/-- The whole of the pattern once its items have been matched. -/
theorem takeShape_run {again : Ty → TypeBindings → SubstM Ty} {types fixed : List Ty}
    {rest : Option Ty} {found : Option TypeBindings} (hsplit : splitRest types = (fixed, rest))
    (hfound : takeFixed table again fixed members bindings none = some (found, none)) :
    takeShape table again (.tuple types) members bindings none =
      some (if members.length < fixed.length then none
        else match found, rest with
          | none, _ => none
          | some bound, none => some bound
          | some bound, some (.var name _) =>
            some (bound ++ [(name, makePack (members.drop fixed.length))])
          | some _, some _ => none, none) := by
  unfold takeShape tupleTypes
  dsimp only
  rw [hsplit]
  dsimp only
  split
  · rfl
  · show (takeFixed table again fixed members bindings none).bind _ = _
    rw [hfound]
    cases found with
    | none => rfl
    | some bound =>
      cases rest with
      | none => rfl
      | some type => cases type <;> rfl

theorem packMembers_makePack (members : List Ty) : packMembers (makePack members) = some members := by
  rw [makePack, packMembers, if_pos rfl]

/-- What is left of the rest is bound as the source binds it. -/
theorem takenBy_eq (houter : OuterClosed p bindings) (members : List Ty) :
    takenBy table p members bindings =
      if members.length < ((p.written bindings).map (valueIn bindings)).length then none
      else match matchItems (SameType table) ((p.written bindings).map toItem) members bindings,
          restLeft bindings p.rest with
        | none, _ => none
        | some bound, none => some bound
        | some bound, some (.var name _) =>
          some (bound ++ [(name, makePack (members.drop
            ((p.written bindings).map (valueIn bindings)).length))])
        | some _, some _ => none := by
  unfold takenBy
  rw [length_map]
  split
  · rfl
  · cases matchItems (SameType table) ((p.written bindings).map toItem) members bindings with
    | none => rfl
    | some bound =>
      unfold PackPattern.written
      cases hrest : p.rest with
      | none => rfl
      | some rest =>
        obtain ⟨name, binder⟩ := rest
        rw [restLeft]
        cases hlookup : bindings.lookup name with
        | none => simp only [hlookup, Option.bind_none, Option.getD_none, append_nil]
        | some type =>
          simp only [hlookup]
          cases hpack : packMembers type with
          | some members => rfl
          | none =>
            -- a name that stands for no pack has nothing open, so it is not a name itself
            have hout := houter name type (.inr ⟨binder, hrest⟩) hlookup
            cases type with
            | var name binder => cases hout
            | _ => rfl

/-- The pattern with the bindings in it finds what it takes. -/
theorem takeShape_pattern (depth : Nat)
    (hmembers : ∀ t ∈ members, containsTypeVar t = false) (houter : OuterClosed p bindings) :
    takeShape table (substituteTypeVars table (depth + 1))
        (.tuple (p.fixed.map (valueIn bindings) ++ restIn bindings p.rest)) members bindings none =
      some (takenBy table p members bindings, none) := by
  obtain ⟨hitems, hnames⟩ := written_items houter
  have hout : ∀ name type, .name name ∈ (p.written bindings).map toItem →
      bindings.lookup name = some type → type.writtenOut = true :=
    fun name type hname => houter name type (hnames name hname)
  have hitems' : ∀ t ∈ (p.written bindings).map (valueIn bindings), t.isItem = true ∧
      ∀ name, toItem t = .name name → bindings.lookup name = none := by
    intro t ht
    obtain ⟨w, hw, rfl⟩ := mem_map.1 ht
    rcases isItem_cases (hitems w hw) with ⟨name, binder, rfl⟩ | hw'
    · rw [valueIn]
      cases hlookup : bindings.lookup name with
      | none =>
        refine ⟨rfl, fun other hother => ?_⟩
        cases hother
        exact hlookup
      | some type =>
        have htype := hout name type (mem_map.2 ⟨_, hw, rfl⟩) hlookup
        refine ⟨isItem_writtenOut htype, fun other hother => ?_⟩
        rw [Option.getD_some, toItem_writtenOut htype] at hother
        cases hother
    · rw [valueIn_writtenOut hw']
      refine ⟨isItem_writtenOut hw', fun other hother => ?_⟩
      rw [toItem_writtenOut hw'] at hother
      cases hother
  have hloop := @takeFixed_run table depth _ _ bindings (fun t ht => (hitems' t ht).1)
    hmembers (by
      intro name type hname hlookup
      obtain ⟨t, ht, htname⟩ := mem_map.1 hname
      rw [(hitems' t ht).2 name htname] at hlookup
      cases hlookup)
  rw [matchItems_valueIn (Extends.refl bindings) hitems hout] at hloop
  exact (takeShape_run (splitRest_pattern houter) hloop).trans
    (congrArg (fun taken => some (taken, none)) (takenBy_eq houter members).symm)

theorem takePackApart_run (depth : Nat)
    (hmembers : ∀ t ∈ members, containsTypeVar t = false) (houter : OuterClosed p bindings) :
    takePackApart table (depth + 1) p.type (makePack members) bindings none =
      some (((takenBy table p members bindings).isSome,
        (takenBy table p members bindings).getD bindings), none) := by
  unfold takePackApart
  rw [packMembers_makePack]
  show (substituteTypeVars table (depth + 1) p.type bindings none).bind _ = _
  rw [substituteTypeVars_pattern]
  show (takeShape table (substituteTypeVars table (depth + 1)) (.tuple _) members bindings none).bind _ = _
  rw [takeShape_pattern depth hmembers houter]
  cases takenBy table p members bindings <;> rfl

end Shape

/-! ## What the First Members Say -/

section Describes

variable {table} {p : PackPattern} {members : List Ty} {bindings σ : TypeBindings}

variable {as bs : List Ty}

theorem namelessAll_eq_iff {shape : List ExtentForm → List ExtentForm} :
    namelessAll shape as = namelessAll shape bs ↔
      Forall₂ (fun a b => a.nameless shape = b.nameless shape) as bs := by
  induction as generalizing bs with
  | nil => cases bs <;> simp [namelessAll]
  | cons a as ih => cases bs <;> simp [namelessAll, ih]

/-- Packs are the same type when their members are, one by one. -/
theorem sameType_makePack :
    SameType table (makePack as) (makePack bs) ↔ Forall₂ (SameType table) as bs := by
  have hcall : SameType table (makePack as) (makePack bs) ↔
      namelessAll table.canonicalShape as = namelessAll table.canonicalShape bs := by
    unfold SameType
    rw [typeEquals_iff]
    simp [makePack, Ty.nameless]
  rw [hcall, namelessAll_eq_iff]
  unfold SameType
  simp only [typeEquals_iff]

/-- Only a pack is the same type as a pack. -/
theorem isPack_of_sameType {type : Ty} (h : SameType table type (makePack bs)) :
    ∃ as, packMembers type = some as := by
  have heq := (typeEquals_iff table).1 h
  cases type with
  | call name params =>
    simp only [Ty.nameless, makePack, Ty.call.injEq] at heq
    exact ⟨params, by rw [packMembers, if_pos heq.1]⟩
  | _ => simp [Ty.nameless, makePack] at heq

theorem stands_values (hout : ∀ t ∈ as, t.writtenOut = true) :
    Forall₂ (Stands (SameType table) σ) (as.map toItem) bs ↔
      Forall₂ (SameType table) as bs := by
  rw [forall₂_map_left_iff]
  induction as generalizing bs with
  | nil => cases bs <;> simp
  | cons a as ih =>
    have ha := toItem_writtenOut (hout a (.head _))
    cases bs with
    | nil => simp
    | cons b bs =>
      rw [forall₂_cons, forall₂_cons, ih fun t ht => hout t (.tail _ ht), ha]
      rfl

/-- A pattern that describes the pack describes its first members. -/
theorem firstFit_of_describes (houter : OuterClosed p bindings) (hext : Extends σ bindings)
    (h : Describes table σ p members) :
    (p.written bindings).length ≤ members.length ∧
      Forall₂ (Stands (SameType table) σ) ((p.written bindings).map toItem)
        (members.take (p.written bindings).length) := by
  obtain ⟨first, after, rfl, hfirst, hrest⟩ := h
  have hlength : first.length = p.fixed.length := by
    rw [← hfirst.length_eq, length_map]
  unfold PackPattern.written
  cases hp : p.rest with
  | none =>
    rw [← hlength, take_left]
    exact ⟨by simp, hfirst⟩
  | some rest =>
    obtain ⟨name, binder⟩ := rest
    rw [hp] at hrest
    obtain ⟨pack, hpack, hsame⟩ := hrest
    dsimp only
    cases hlookup : bindings.lookup name with
    | none =>
      rw [Option.bind_none, Option.getD_none, append_nil, ← hlength, take_left]
      exact ⟨by simp, hfirst⟩
    | some type =>
      obtain rfl : type = pack := Option.some.inj ((hext name type hlookup).symm.trans hpack)
      obtain ⟨ms, hms⟩ := isPack_of_sameType hsame
      have hout := packMembers_writtenOut (houter name type (.inr ⟨binder, hp⟩) hlookup) hms
      rw [packMembers_eq hms, sameType_makePack] at hsame
      have hafter := hsame.length_eq
      rw [Option.bind_some, hms, Option.getD_some, map_append]
      have hall : (first ++ after).take (p.fixed ++ ms).length = first ++ after := by
        apply take_of_length_le
        simp [hlength, hafter]
      rw [hall]
      refine ⟨by simp [hlength, hafter], rel_append hfirst ((stands_values hout).2 hsame)⟩

/-- Every item of a match meets a member. -/
theorem exists_zip {α β : Type} {R : α → β → Prop} {as : List α} {bs : List β} {a : α}
    (h : Forall₂ R as bs) (ha : a ∈ as) : ∃ b, (a, b) ∈ as.zip bs ∧ R a b := by
  induction h with
  | nil => cases ha
  | @cons a' b' as bs hhead hrest ih =>
    rcases mem_cons.1 ha with rfl | ha
    · exact ⟨b', .head _, hhead⟩
    · obtain ⟨b, hb, hR⟩ := ih ha
      exact ⟨b, .tail _ hb, hR⟩

theorem zip_take {α β : Type} (as : List α) (bs : List β) : as.zip (bs.take as.length) = as.zip bs := by
  induction as generalizing bs with
  | nil => rfl
  | cons a as ih =>
    cases bs with
    | nil => rfl
    | cons b bs => exact congrArg ((a, b) :: ·) (ih bs)

end Describes

/-! ## When the Whole Pack Is Described -/

section Whole

variable {table} {p : PackPattern} {members : List Ty} {bindings : TypeBindings}

/-- Refusing a pack that the pattern does not describe is right. -/
theorem takesApart_of_not_fits (h : ¬Fits table p members bindings) :
    TakesApart table p members bindings false bindings where
  fits_iff := ⟨nofun, fun hfit => absurd hfit h⟩
  extends_bindings := Extends.refl bindings
  describes := nofun
  names _ _ hlookup := .inl hlookup
  unique σ hext hσ := absurd ⟨σ, hext, hσ⟩ h
  unchanged _ := rfl

/-- Where not even the first members fit, the pattern is refused. -/
theorem takesApart_of_not_firstFit (houter : OuterClosed p bindings)
    (h : ¬FirstFit table p members bindings) :
    takenBy table p members bindings = none ∧
      TakesApart table p members bindings false bindings := by
  have hnone : takenBy table p members bindings = none := by
    unfold takenBy
    split
    · rfl
    · next hlength =>
      cases hfound : matchItems (SameType table) ((p.written bindings).map toItem) members bindings with
      | none => rfl
      | some bound =>
        obtain ⟨-, hstands⟩ := matchItems_stands (sameType_equivalence table) hfound
        rw [length_map] at hstands
        exact absurd ⟨Nat.not_lt.1 hlength, bound, matchItems_extends hfound, hstands⟩ h
  refine ⟨hnone, takesApart_of_not_fits ?_⟩
  rintro ⟨σ, hext, hσ⟩
  obtain ⟨hlength, hstands⟩ := firstFit_of_describes houter hext hσ
  exact h ⟨hlength, σ, hext, hstands⟩

/-- What the matching of the items finds where the first members fit. -/
theorem found_of_firstFit (h : FirstFit table p members bindings) :
    ∃ bound, matchItems (SameType table) ((p.written bindings).map toItem) members bindings =
        some bound ∧
      Extends bound bindings ∧
      Forall₂ (Stands (SameType table) bound) ((p.written bindings).map toItem)
        (members.take (p.written bindings).length) ∧
      (∀ name type, bound.lookup name = some type →
        bindings.lookup name = some type ∨ .name name ∈ (p.written bindings).map toItem) ∧
      ∀ σ, Extends σ bindings →
        Forall₂ (Stands (SameType table) σ) ((p.written bindings).map toItem)
          (members.take (p.written bindings).length) → Agrees (SameType table) σ bound := by
  obtain ⟨hlength, σ, hext, hstands⟩ := h
  have hsame := sameType_equivalence table
  have hitems : ((p.written bindings).map toItem).length = (p.written bindings).length :=
    length_map _
  obtain ⟨bound, hbound, -⟩ := matchItems_complete hsame (hext.agrees hsame) (by rwa [hitems])
  refine ⟨bound, hbound, matchItems_extends hbound, ?_, fun _ _ => matchItems_names hbound, ?_⟩
  · obtain ⟨-, hall⟩ := matchItems_stands hsame hbound
    rwa [hitems] at hall
  · intro τ hτ hall
    obtain ⟨bound', hbound', hagrees⟩ := matchItems_complete hsame (hτ.agrees hsame) (by rwa [hitems])
    obtain rfl : bound' = bound := Option.some.inj (hbound'.symm.trans hbound)
    exact hagrees

theorem takesApart_of_describes {taken : TypeBindings} (hext : Extends taken bindings)
    (hdescribes : Describes table taken p members)
    (hnames : ∀ name type, taken.lookup name = some type →
      bindings.lookup name = some type ∨ p.Names name)
    (hunique : ∀ σ, Extends σ bindings → Describes table σ p members →
      Agrees (SameType table) σ taken) :
    TakesApart table p members bindings true taken where
  fits_iff := ⟨fun _ => ⟨taken, hext, hdescribes⟩, fun _ => rfl⟩
  extends_bindings := hext
  describes _ := hdescribes
  names := hnames
  unique := hunique
  unchanged := nofun

/-- A pattern with nothing left to bind of its rest is right where no member is left over. -/
theorem takesApart_closed (houter : OuterClosed p bindings) (hfit : FirstFit table p members bindings)
    (hrest : ∀ name binder, p.rest = some (name, binder) →
      ∃ pack ms, bindings.lookup name = some pack ∧ packMembers pack = some ms) :
    ∃ bound, takenBy table p members bindings = some bound ∧
      (TakesApart table p members bindings true bound ↔
        members.length ≤ (p.written bindings).length) := by
  obtain ⟨bound, hfound, hext, hstands, hnames, hunique⟩ := found_of_firstFit hfit
  refine ⟨bound, ?_, ?_, ?_⟩
  · unfold takenBy
    rw [if_neg (Nat.not_lt.2 hfit.1), hfound]
    cases hp : p.rest with
    | none => rfl
    | some rest =>
      obtain ⟨pack, ms, hlookup, hpack⟩ := hrest rest.1 rest.2 hp
      show (match bindings.lookup rest.1 with | none => _ | some type => _) = _
      rw [hlookup]
      show (if (packMembers pack).isSome then some bound else none) = _
      rw [hpack]
      rfl
  · intro htakes
    obtain ⟨first, after, rfl, hfirst, hafter⟩ := htakes.describes rfl
    have hlength := hfirst.length_eq
    rw [length_map] at hlength
    unfold PackPattern.written
    cases hp : p.rest with
    | none =>
      rw [hp] at hafter
      rw [hafter, append_nil]
      exact Nat.le_of_eq hlength.symm
    | some rest =>
      obtain ⟨pack, ms, hlookup, hpack⟩ := hrest rest.1 rest.2 hp
      rw [hp] at hafter
      obtain ⟨pack', hlookup', hsame⟩ := hafter
      obtain rfl : pack = pack' := Option.some.inj ((hext _ _ hlookup).symm.trans hlookup')
      rw [packMembers_eq hpack, sameType_makePack] at hsame
      have hms := hsame.length_eq
      dsimp only
      rw [hlookup, Option.bind_some, hpack, Option.getD_some, length_append, length_append]
      omega
  · intro hlength
    have hdescribes : Describes table bound p members := by
      rw [take_of_length_le hlength] at hstands
      unfold PackPattern.written at hstands
      unfold Describes
      cases hp : p.rest with
      | none =>
        rw [hp] at hstands
        exact ⟨members, [], (append_nil _).symm, hstands, rfl⟩
      | some rest =>
        obtain ⟨pack, ms, hlookup, hpack⟩ := hrest rest.1 rest.2 hp
        have hout := packMembers_writtenOut (houter _ _ (.inr ⟨rest.2, hp⟩) hlookup) hpack
        rw [hp] at hstands
        dsimp only at hstands
        rw [hlookup, Option.bind_some, hpack, Option.getD_some, map_append] at hstands
        -- the members of the pack that the rest is bound to are those after the fixed part
        have hfirst := forall₂_take (p.fixed.map toItem).length hstands
        have hafter := forall₂_drop (p.fixed.map toItem).length hstands
        rw [take_left] at hfirst
        rw [drop_left, stands_values hout] at hafter
        refine ⟨_, _, (take_append_drop (p.fixed.map toItem).length members).symm, hfirst, pack,
          hext _ _ hlookup, ?_⟩
        rw [packMembers_eq hpack, sameType_makePack]
        exact hafter
    apply takesApart_of_describes hext hdescribes
    · intro name type hlookup
      exact (hnames name type hlookup).imp_right ((written_items houter).2 name)
    · intro σ hσ hdesc
      exact hunique σ hσ (firstFit_of_describes houter hσ hdesc).2

/-- A pattern whose rest is still to be bound is right where the name of the rest, written before,
    meets the pack of the members after the fixed part. -/
theorem takesApart_open (houter : OuterClosed p bindings) (hfit : FirstFit table p members bindings)
    {name : String} {binder : Bool} (hp : p.rest = some (name, binder))
    (hlookup : bindings.lookup name = none) :
    ∃ taken, takenBy table p members bindings = some taken ∧
      (TakesApart table p members bindings true taken ↔
        ∀ item member, (item, member) ∈ (p.fixed.map toItem).zip members → item = .name name →
          SameType table member (makePack (members.drop p.fixed.length))) := by
  have hsame := sameType_equivalence table
  have hwritten : p.written bindings = p.fixed := by
    unfold PackPattern.written
    rw [hp]
    dsimp only
    rw [hlookup, Option.bind_none, Option.getD_none, append_nil]
  obtain ⟨bound, hfound, hext, hstands, hnames, hunique⟩ := found_of_firstFit hfit
  have hext' := extends_append bound [(name, makePack (members.drop p.fixed.length))]
  have hlength := hfit.1
  rw [hwritten] at hstands hnames hunique hlength
  refine ⟨bound ++ [(name, makePack (members.drop p.fixed.length))], ?_, ?_, ?_⟩
  · unfold takenBy
    rw [if_neg (Nat.not_lt.2 hfit.1), hfound, hp]
    dsimp only
    rw [hlookup]
  · rintro htakes item member hmem rfl
    obtain ⟨first, after, rfl, hfirst, hafter⟩ := htakes.describes rfl
    have hcount := hfirst.length_eq
    rw [length_map] at hcount
    rw [hp] at hafter
    obtain ⟨pack, hpack, hpackSame⟩ := hafter
    rw [← zip_take, length_map, hcount, take_left] at hmem
    obtain ⟨type, htype, htypeSame⟩ := forall₂_zip hfirst hmem
    obtain rfl : type = pack := Option.some.inj (htype.symm.trans hpack)
    rw [hcount, drop_left]
    exact hsame.trans (hsame.symm htypeSame) hpackSame
  · intro hnamed
    have hdescribes : Describes table (bound ++ [(name, makePack (members.drop p.fixed.length))]) p
        members := by
      refine ⟨_, _, (take_append_drop p.fixed.length members).symm,
        hstands.imp fun _ _ h => h.mono hext', ?_⟩
      rw [hp]
      cases hbound : bound.lookup name with
      | none => exact ⟨_, lookup_append_fresh hbound _, hsame.refl _⟩
      | some type =>
        -- the name is written before: the member it met is what is left
        have hmem : .name name ∈ p.fixed.map toItem :=
          (hnames name type hbound).resolve_left fun h => by rw [hlookup] at h; cases h
        obtain ⟨member, hzip, hmeets⟩ := exists_zip hstands hmem
        have hzip' := zip_take (p.fixed.map toItem) members
        rw [length_map] at hzip'
        rw [hzip'] at hzip
        obtain ⟨type', htype', hmember⟩ := hmeets
        obtain rfl : type' = type := Option.some.inj (htype'.symm.trans hbound)
        exact ⟨_, hext' _ _ hbound, hsame.trans hmember (hnamed _ _ hzip rfl)⟩
    apply takesApart_of_describes (hext'.trans hext) hdescribes
    · intro other type hother
      by_cases hname : other = name
      · exact .inr (.inr ⟨binder, hname ▸ hp⟩)
      · rw [lookup_append_other hname] at hother
        exact (hnames other type hother).imp_right .inl
    · intro σ hσ hdesc other type hother
      have hfirst := (firstFit_of_describes houter hσ hdesc).2
      rw [hwritten] at hfirst
      have hagrees := hunique σ hσ hfirst
      rw [lookup_append] at hother
      cases hbound : bound.lookup other with
      | some type' =>
        rw [hbound] at hother
        obtain rfl : type' = type := Option.some.inj hother
        exact hagrees other type' hbound
      | none =>
        rw [hbound, Option.none_or, lookup_cons] at hother
        by_cases hname : other = name
        · obtain ⟨first, after, rfl, hfirst', hafter⟩ := hdesc
          have hcount := hfirst'.length_eq
          rw [length_map] at hcount
          rw [hp] at hafter
          obtain ⟨pack, hpack, hpackSame⟩ := hafter
          rw [hname, beq_self_eq_true] at hother
          obtain rfl := Option.some.inj hother
          rw [hcount, drop_left]
          exact ⟨pack, hname ▸ hpack, hpackSame⟩
        · rw [beq_false_of_ne hname] at hother
          cases hother

/-- A pattern whose rest is bound to a type that is no pack is refused. -/
theorem takesApart_noPack (table : TypeTable) (members : List Ty) {name : String} {binder : Bool}
    {type : Ty}
    (hp : p.rest = some (name, binder)) (hlookup : bindings.lookup name = some type)
    (hpack : packMembers type = none) :
    takenBy table p members bindings = none ∧
      TakesApart table p members bindings false bindings := by
  constructor
  · unfold takenBy
    split
    · rfl
    · rw [hp]
      cases matchItems (SameType table) ((p.written bindings).map toItem) members bindings with
      | none => rfl
      | some bound =>
        dsimp only
        rw [hlookup]
        dsimp only
        rw [hpack]
        rfl
  · apply takesApart_of_not_fits
    rintro ⟨σ, hext, first, after, -, -, hafter⟩
    rw [hp] at hafter
    obtain ⟨pack, hσ, hsame⟩ := hafter
    obtain rfl : type = pack := Option.some.inj ((hext name type hlookup).symm.trans hσ)
    obtain ⟨as, has⟩ := isPack_of_sameType hsame
    rw [hpack] at has
    cases has

/-- What the source answers for a pattern is right exactly where no member is left over. -/
theorem takesApart_iff (houter : OuterClosed p bindings) :
    TakesApart table p members bindings (takenBy table p members bindings).isSome
        ((takenBy table p members bindings).getD bindings) ↔
      LeavesNone table p members bindings := by
  by_cases hfit : FirstFit table p members bindings
  · have hleaves : LeavesNone table p members bindings ↔ _ := ⟨fun h => h hfit, fun h _ => h⟩
    rw [hleaves]
    cases hp : p.rest with
    | none =>
      have hrest : ∀ name binder, p.rest = some (name, binder) →
          ∃ pack ms, bindings.lookup name = some pack ∧ packMembers pack = some ms := by
        rw [hp]
        exact nofun
      obtain ⟨bound, htaken, hiff⟩ := takesApart_closed houter hfit hrest
      rw [htaken, Option.isSome_some, Option.getD_some, hiff]
      exact ⟨fun h => ⟨fun _ => h, nofun⟩, fun h => h.1 nofun⟩
    | some rest =>
      obtain ⟨name, binder⟩ := rest
      cases hlookup : bindings.lookup name with
      | none =>
        obtain ⟨taken, htaken, hiff⟩ := takesApart_open houter hfit hp hlookup
        rw [htaken, Option.isSome_some, Option.getD_some, hiff]
        constructor
        · intro h
          refine ⟨fun hbound => ?_, ?_⟩
          · obtain ⟨pack, ms, hpack, -⟩ := hbound name binder rfl
            rw [hlookup] at hpack
            cases hpack
          · rintro name' binder' ⟨⟩ -
            exact h
        · intro h
          exact h.2 name binder rfl hlookup
      | some type =>
        have hvacuous : ∀ name' binder', some (name, binder) = some (name', binder') →
            bindings.lookup name' = none → ∀ item member,
              (item, member) ∈ (p.fixed.map toItem).zip members → item = .name name' →
                SameType table member (makePack (members.drop p.fixed.length)) := by
          rintro name' binder' ⟨⟩ hnone
          rw [hlookup] at hnone
          cases hnone
        cases hpack : packMembers type with
        | none =>
          obtain ⟨htaken, htakes⟩ := takesApart_noPack table members hp
            hlookup hpack
          rw [htaken]
          refine iff_of_true htakes ⟨fun hbound => ?_, hvacuous⟩
          obtain ⟨pack, ms, hpack', hms⟩ := hbound name binder rfl
          obtain rfl : type = pack := Option.some.inj (hlookup.symm.trans hpack')
          rw [hpack] at hms
          cases hms
        | some ms =>
          have hrest : ∀ name' binder', p.rest = some (name', binder') →
              ∃ pack ms, bindings.lookup name' = some pack ∧ packMembers pack = some ms := by
            rw [hp]
            rintro name' binder' ⟨⟩
            exact ⟨type, ms, hlookup, hpack⟩
          obtain ⟨bound, htaken, hiff⟩ := takesApart_closed houter hfit hrest
          rw [htaken, Option.isSome_some, Option.getD_some, hiff]
          rw [hp] at hrest
          exact ⟨fun h => ⟨fun _ => h, hvacuous⟩, fun h => h.1 hrest⟩
  · obtain ⟨htaken, htakes⟩ := takesApart_of_not_firstFit houter hfit
    rw [htaken]
    exact iff_of_true htakes fun h => absurd h hfit

end Whole

/-! ## The Case That Is Selected -/

/-- The cases of a `match type` that takes a pack apart: the patterns of each, and what it gives. -/
def packArms (cases : List (List PackPattern × Ty)) : List MatchArm :=
  cases.map fun c => .mk 0 [] (c.1.map PackPattern.type) c.2

section Select

variable {table} {members : List Ty} {bindings : TypeBindings}

/-- The answers of the patterns are right. -/
def AllRight (table : TypeTable) (members : List Ty) (bindings : TypeBindings)
    (patterns : List PackPattern) : Prop :=
  ∀ p ∈ patterns, OuterClosed p bindings ∧ LeavesNone table p members bindings

variable {p : PackPattern}

theorem takePatterns_cons (depth : Nat) (hbindings : bindings ≠ [])
    (hmembers : ∀ t ∈ members, containsTypeVar t = false)
    (houter : OuterClosed p bindings) (others : List Ty) :
    takePatterns table (substituteTypeVars table (depth + 1)) (p.type :: others) (makePack members)
        bindings none =
      match takenBy table p members bindings with
      | some bound => some (some bound, none)
      | none =>
        takePatterns table (substituteTypeVars table (depth + 1)) others (makePack members) bindings
          none := by
  have hshape := (reads_substituteMember table (substituteTypeVars table (depth + 1)) bindings p.type
    none (settles_pattern p))
  have hwhole := substituteTypeVars_pattern table p depth bindings
  rw [substituteTypeVars_settles table (settles_pattern p) depth hbindings] at hwhole
  have hvalue := (Prod.mk.inj (Option.some.inj hwhole)).1
  rw [takePatterns, packMembers_makePack]
  show (substituteMember table _ p.type bindings none).bind _ = _
  rw [show substituteMember table _ p.type bindings none = some (_, none) from hshape]
  show (takeShape table _ (putMember table bindings p.type .whole).whole members bindings none).bind _ = _
  rw [hvalue, takeShape_pattern depth hmembers houter]
  cases takenBy table p members bindings <;> rfl

variable {patterns : List PackPattern}

section
variable (depth : Nat) (hbindings : bindings ≠ [])
  (hmembers : ∀ t ∈ members, containsTypeVar t = false)
include depth hbindings hmembers

/-- The patterns that do not describe the pack are passed over. -/
theorem takePatterns_skip
    (hright : AllRight table members bindings patterns)
    (hnone : ∀ p ∈ patterns, ¬Fits table p members bindings) (others : List Ty) :
    takePatterns table (substituteTypeVars table (depth + 1))
        (patterns.map PackPattern.type ++ others) (makePack members) bindings none =
      takePatterns table (substituteTypeVars table (depth + 1)) others (makePack members) bindings
        none := by
  induction patterns with
  | nil => rfl
  | cons p patterns ih =>
    obtain ⟨houter, hleaves⟩ := hright p (.head _)
    have htakes := (takesApart_iff houter).2 hleaves
    have htaken : takenBy table p members bindings = none := by
      cases h : takenBy table p members bindings with
      | none => rfl
      | some taken =>
        rw [h] at htakes
        exact absurd (htakes.fits_iff.1 rfl) (hnone p (.head _))
    rw [map_cons, cons_append, takePatterns_cons depth hbindings hmembers houter, htaken]
    exact ih (fun q hq => hright q (.tail _ hq)) fun q hq => hnone q (.tail _ hq)

/-- The first pattern that describes the pack takes it apart. -/
theorem takePatterns_first
    (hright : AllRight table members bindings (patterns ++ [p]))
    (hnone : ∀ q ∈ patterns, ¬Fits table q members bindings) (hfits : Fits table p members bindings)
    (others : List Ty) :
    ∃ taken, takenBy table p members bindings = some taken ∧ Extends taken bindings ∧
      takePatterns table (substituteTypeVars table (depth + 1))
          (patterns.map PackPattern.type ++ p.type :: others) (makePack members) bindings none =
        some (some taken, none) := by
  obtain ⟨houter, hleaves⟩ := hright p (mem_append.2 (.inr (.head _)))
  have htakes := (takesApart_iff houter).2 hleaves
  rw [takePatterns_skip depth hbindings hmembers
    (fun q hq => hright q (mem_append.2 (.inl hq))) hnone,
    takePatterns_cons depth hbindings hmembers houter]
  cases htaken : takenBy table p members bindings with
  | none =>
    rw [htaken] at htakes
    cases htakes.fits_iff.2 hfits
  | some taken =>
    rw [htaken] at htakes
    exact ⟨taken, rfl, htakes.extends_bindings, rfl⟩

theorem selectArm_skip
    {cases : List (List PackPattern × Ty)}
    (hright : ∀ c ∈ cases, AllRight table members bindings c.1)
    (hnone : ∀ c ∈ cases, ∀ p ∈ c.1, ¬Fits table p members bindings) (others : List MatchArm) :
    selectArm table (substituteTypeVars table (depth + 1)) (makePack members)
        (packArms cases ++ others) bindings none =
      selectArm table (substituteTypeVars table (depth + 1)) (makePack members) others bindings
        none := by
  induction cases with
  | nil => rfl
  | cons c cases ih =>
    have hpatterns := takePatterns_skip depth hbindings hmembers (hright c (.head _))
      (hnone c (.head _)) []
    rw [append_nil] at hpatterns
    have hrest := ih (fun d hd => hright d (.tail _ hd)) fun d hd => hnone d (.tail _ hd)
    rw [packArms, map_cons, cons_append, selectArm]
    show (takePatterns table _ (c.1.map PackPattern.type) (makePack members) bindings none).bind _ = _
    rw [hpatterns, takePatterns, isAmong]
    show (if 0 &&& typeShapeBits table (makePack members) ≠ 0 ∨ false = true then _
      else selectArm table _ _ (packArms cases ++ others) bindings) none = _
    rw [if_neg (by simp)]
    exact hrest

/-- The case that is selected for a pack is the first whose pattern describes the whole pack. -/
theorem selectArm_first
    {before : List (List PackPattern × Ty)}
    (after : List (List PackPattern × Ty))
    (others : List PackPattern) (result : Ty)
    (hright : ∀ c ∈ before, AllRight table members bindings c.1)
    (hnone : ∀ c ∈ before, ∀ q ∈ c.1, ¬Fits table q members bindings)
    (hpatterns : AllRight table members bindings (patterns ++ [p]))
    (hfirst : ∀ q ∈ patterns, ¬Fits table q members bindings)
    (hfits : Fits table p members bindings) :
    ∃ taken, takenBy table p members bindings = some taken ∧
      selectArm table (substituteTypeVars table (depth + 1)) (makePack members)
          (packArms (before ++ (patterns ++ p :: others, result) :: after)) bindings none =
        (substituteTypeVars table (depth + 2) result taken none).map fun r => (some r.1, r.2) := by
  obtain ⟨taken, htakes, hext, hrun⟩ := takePatterns_first depth hbindings hmembers hpatterns hfirst hfits
    (others.map PackPattern.type)
  have htaken : taken ≠ [] := by
    rintro rfl
    apply hbindings
    cases hcase : bindings with
    | nil => rfl
    | cons entry rest =>
      have hlookup : bindings.lookup entry.1 = some entry.2 := by
        rw [hcase]
        exact lookup_cons_self
      cases hext _ _ hlookup
  refine ⟨taken, htakes, ?_⟩
  have harms : packArms (before ++ (patterns ++ p :: others, result) :: after) =
      packArms before ++ .mk 0 [] (patterns.map PackPattern.type ++ p.type ::
        others.map PackPattern.type) result :: packArms after := by
    simp [packArms]
  rw [harms, selectArm_skip depth hbindings hmembers hright hnone, selectArm]
  show (takePatterns table _ _ (makePack members) bindings none).bind _ = _
  rw [hrun, substituteTypeVars, if_neg htaken]
  show (substituteMember table _ result taken none).bind _ =
    ((substituteMember table _ result taken none).bind _).map _
  cases substituteMember table (substituteTypeVars table (depth + 1)) result taken none <;> rfl

end

end Select

theorem anyContainsTypeVar_eq_false {ts : List Ty} (h : ∀ t ∈ ts, containsTypeVar t = false) :
    anyContainsTypeVar ts = false := by
  induction ts with
  | nil => rfl
  | cons t ts ih =>
    rw [anyContainsTypeVar, h t (.head _), ih fun u hu => h u (.tail _ hu)]
    rfl

/-- No type function, no collection, and no shape with names. -/
def bareTable : TypeTable where
  evaluate _ _ := none
  toString _ := ""
  asCollectionType _ := none
  canonicalShape shape := shape

/-- `(W, ..Rest)`. -/
def headAndRest : PackPattern where
  fixed := [.var "W" false]
  rest := some ("Rest", false)
  items := by decide

/-- `(A, ..A)`. -/
def headIsRest : PackPattern where
  fixed := [.var "A" false]
  rest := some ("A", false)
  items := by decide

end Camel.Types
