import Camel.Types.Slots
import Camel.Types.TakeApart

/-! # Types That Wait for Bindings

    The types in which substitution puts bindings and computes nothing: variables, forms, and
    expansions `..E`. A call in such a type has nothing open, and no pack is written out where an
    expansion would read it.
-/

namespace Camel.Types

open List

/-! ## Regular Types -/

/-- The name is bound to a pack of so many members. -/
def BindsPack (bindings : TypeBindings) (name : String) (count : Nat) : Prop :=
  ∃ members, bindings.lookup name = some (makePack members) ∧ members.length = count

/-- A type that is made of forms, variables and expansions; `inside` for what an expansion reads. -/
inductive Regular : Bool → Ty → Prop where
  | var {inside : Bool} {name : String} {binder : Bool} : Regular inside (.var name binder)
  | expansion {inside : Bool} {E : Ty} (hE : Regular true E) (hdots : expandPattern E = none) :
      Regular inside (makeExpand E)
  | call {inside : Bool} {name : String} {params : List Ty} (hdots : name ≠ kExpandName)
      (hpack : inside = true → name ≠ kPackName) (hparams : ∀ p ∈ params, Regular inside p)
      (hout : allWrittenOut params = true) : Regular inside (.call name params)
  | node {inside : Bool} {t : Ty} (hnode : t.isNode = true) (hmade : t.WellMade)
      (hslots : ∀ s ∈ t.slots, Regular inside s) : Regular inside t

/-- The variable stands in the type, and not in an expansion there. -/
inductive DirectVar (name : String) : Ty → Prop where
  | here {binder : Bool} : DirectVar name (.var name binder)
  | slot {s t : Ty} (hs : s ∈ t.slots) (h : DirectVar name s) : DirectVar name t

/-- The variable stands in the type. -/
inductive Occurs (name : String) : Ty → Prop where
  | here {binder : Bool} : Occurs name (.var name binder)
  | slot {s t : Ty} (hs : s ∈ t.slots) (h : Occurs name s) : Occurs name t
  | pattern {E : Ty} (h : Occurs name E) : Occurs name (makeExpand E)

/-- The expansion `..E` stands in the type. -/
inductive Expands (E : Ty) : Ty → Prop where
  | here : Expands E (makeExpand E)
  | slot {s t : Ty} (hs : s ∈ t.slots) (h : Expands E s) : Expands E t
  | pattern {E' : Ty} (h : Expands E E') : Expands E (makeExpand E')

/-- No variable that `..E` reads is bound to a pack. -/
def Waits (bindings : TypeBindings) (E : Ty) : Prop :=
  ∀ name count, DirectVar name E → ¬BindsPack bindings name count

/-- The packs that `..E` reads, of which there are some, have so many members each. -/
def Spreads (bindings : TypeBindings) (E : Ty) (count : Nat) : Prop :=
  (∃ name, DirectVar name E ∧ BindsPack bindings name count) ∧
    ∀ name other, DirectVar name E → BindsPack bindings name other → other = count

variable {t : Ty}

theorem Regular.mono {inside : Bool} (h : Regular true t) : Regular inside t := by
  generalize htrue : true = deep at h
  induction h with
  | var => exact .var
  | expansion hE hdots => exact .expansion hE hdots
  | call hdots hpack _ hout ih =>
    obtain rfl := htrue
    exact .call hdots (fun _ => hpack rfl) (fun p hp => ih p hp rfl) hout
  | node hnode hmade _ ih => exact .node hnode hmade fun s hs => ih s hs htrue

theorem DirectVar.occurs {name : String} (h : DirectVar name t) : Occurs name t := by
  induction h with
  | here => exact .here
  | slot hs _ ih => exact .slot hs ih

theorem not_directVar_call {n name : String} {params : List Ty} :
    ¬DirectVar n (.call name params) := by
  intro h
  cases h with
  | slot hs _ => cases hs

theorem slots_writtenOut (h : t.writtenOut = true) : ∀ s ∈ t.slots, s.writtenOut = true := by
  intro s hs
  cases t with
  | array elem extents rank => exact mem_singleton.1 hs ▸ h
  | stream elem => exact mem_singleton.1 hs ▸ h
  | tagged kind payload => exact mem_singleton.1 hs ▸ h
  | tuple members => exact allWrittenOut_iff.1 h s hs
  | named decl args => exact allWrittenOut_iff.1 h s hs
  | record names fields => exact allWrittenOut_iff.1 h s hs
  | app code params => exact allWrittenOut_iff.1 h s hs
  | func signature withTypes normTypes exit =>
    rw [Ty.writtenOut, Bool.and_eq_true, Bool.and_eq_true] at h
    rcases mem_append.1 hs with hs | hs
    · rcases mem_append.1 hs with hs | hs
      · exact allWrittenOut_iff.1 h.1.1 s hs
      · exact allWrittenOut_iff.1 h.1.2 s hs
    · have hexit := Option.mem_toList.1 hs
      rw [hexit] at h
      exact h.2
  | _ => cases hs

theorem settles_slots (hnode : t.isNode = true) (hmade : t.WellMade)
    (h : ∀ s ∈ t.slots, s.settles = true) : t.settles = true := by
  have hall : ∀ {ts : List Ty}, (∀ s ∈ ts, s.settles = true) → allSettle ts = true := by
    intro ts hts
    induction ts with
    | nil => rfl
    | cons s ts ih =>
      rw [allSettle, hts s (.head _), ih fun u hu => hts u (.tail _ hu)]
      rfl
  cases t with
  | leaf code => rfl
  | array elem extents rank => exact h elem (.head _)
  | stream elem => exact h elem (.head _)
  | tagged kind payload =>
    have hdots : expandPattern payload = none := hmade
    rw [Ty.settles, h payload (.head _), hdots]
    rfl
  | tuple members => exact hall h
  | named decl args => exact hall h
  | record names fields => exact hall h
  | app code params => exact hall h
  | func signature withTypes normTypes exit =>
    have hwith := hall fun s hs => h s (mem_append_left _ (mem_append_left _ hs))
    have hnorm := hall fun s hs => h s (mem_append_left _ (mem_append_right _ hs))
    have hexit : exitSettles exit = true := by
      cases exit with
      | none => rfl
      | some s => exact h s (mem_append_right _ (.head _))
    rw [Ty.settles, hwith, hnorm, hexit]
    rfl
  | _ => cases hnode

theorem Regular.settles {inside : Bool} (h : Regular inside t) : t.settles = true := by
  induction h with
  | var => rfl
  | expansion _ _ ih =>
    show allSettle [_] = true
    rw [allSettle, ih]
    rfl
  | call _ _ _ hout _ => exact allSettle_of_writtenOut _ hout
  | node hnode hmade _ ih => exact settles_slots hnode hmade ih

/-! ## What Walks See -/

section Walks

variable {table : TypeTable} {bindings : TypeBindings} {ρ : Reading} {inside : Bool} {t : Ty}

theorem writtenOut_call {name : String} {params : List Ty} (hdots : name ≠ kExpandName)
    (hout : allWrittenOut params = true) : (Ty.call name params).writtenOut = true := by
  rw [Ty.writtenOut, hout, decide_eq_true hdots]
  rfl

/-- Where nothing is open, nothing is put in and nothing is seen. -/
theorem closed_regular (h : Regular inside t) (hout : t.writtenOut = true)
    (hρ : ρ ≠ .whole → inside = true) :
    putMember table bindings t ρ = .one t ∧ packsSeen table bindings t ρ = [] := by
  induction h with
  | var => cases hout
  | expansion hE hdots _ => cases hout
  | @call inside name params hdots hpack hparams hall ih =>
    have hnotPack : ¬(name = kPackName ∧ ρ ≠ .whole) := fun hread => hpack (hρ hread.2) hread.1
    have hput : putAll table bindings params ρ = params := by
      rw [putAll_eq]
      exact map_eq_self_iff.2 fun p hp => by
        rw [(ih p hp (allWrittenOut_iff.1 hall p hp) hρ).1]
        rfl
    have hseen : packsSeenAll table bindings params ρ = [] := by
      rw [packsSeenAll_eq, flatMap_eq_nil_iff]
      exact fun p hp => (ih p hp (allWrittenOut_iff.1 hall p hp) hρ).2
    have hnone : expandPattern (.call name params) = none := by rw [expandPattern, if_neg hdots]
    constructor
    · rw [putMember, hput]
      unfold putCallMember
      rw [if_neg hnotPack, hnone]
      show Members.one (putCall table ρ name params params) = _
      rw [putCall, if_pos rfl]
    · rw [packsSeen, hput, hseen]
      unfold seenCallMember
      rw [if_neg hnotPack, hnone]
      show [] ++ seenCall table name params params = []
      rw [seenCall, if_pos rfl]
      rfl
  | node hnode hmade _ ih =>
    have hslots := slots_writtenOut hout
    constructor
    · rw [putMember_node hnode hmade]
      exact congrArg Members.one (mapSlots_self hmade fun s hs => (ih s hs (hslots s hs) hρ).1)
    · rw [packsSeen_node hnode hmade, flatMap_eq_nil_iff]
      exact fun s hs => (ih s hs (hslots s hs) hρ).2

variable {scope : PackScope} {entry : String × Nat}

theorem mem_know {name : String} {length : Nat}
    (h : entry ∈ (scope.know name length).seen) : entry ∈ scope.seen ∨ entry = (name, length) := by
  unfold PackScope.know at h
  split at h
  · exact .inl h
  · rcases mem_append.1 h with h | h
    · exact .inl h
    · exact .inr (mem_singleton.1 h)

variable {seen : Seen}

theorem mem_knowAll
    (h : entry ∈ (scope.knowAll seen).seen) : entry ∈ scope.seen ∨ entry ∈ seen := by
  induction seen generalizing scope with
  | nil => exact .inl h
  | cons first seen ih =>
    rcases @ih (scope.know first.1 first.2) h with h | h
    · rcases mem_know h with h | h
      · exact .inl h
      · exact .inr (h ▸ .head _)
    · exact .inr (.tail _ h)

theorem knowAll_seen_ne_nil (h : scope.seen ≠ [] ∨ seen ≠ []) :
    (scope.knowAll seen).seen ≠ [] := by
  induction seen generalizing scope with
  | nil => exact h.resolve_right fun hnil => hnil rfl
  | cons first seen ih =>
    apply @ih (scope.know first.1 first.2)
    left
    unfold PackScope.know
    split
    · next hany =>
      intro hnil
      rw [hnil] at hany
      cases hany
    · exact append_ne_nil_of_right_ne_nil _ (cons_ne_nil _ _)

theorem mem_measured (h : entry ∈ measured seen) :
    entry ∈ seen :=
  (mem_knowAll h).resolve_left (by rintro ⟨⟩)

theorem measured_eq_nil_iff : measured seen = [] ↔ seen = [] := by
  constructor
  · intro h
    by_contra hne
    exact knowAll_seen_ne_nil (.inr hne) h
  · rintro rfl
    rfl

/-- The walk sees the packs that the variables outside expansions are bound to. -/
theorem mem_packsSeen (h : Regular inside t) (hρ : ρ ≠ .whole → inside = true)
    (entry : String × Nat) :
    entry ∈ packsSeen table bindings t ρ ↔
      DirectVar entry.1 t ∧ BindsPack bindings entry.1 entry.2 := by
  induction h generalizing ρ entry with
  | @var inside name binder =>
    rw [packsSeen]
    constructor
    · intro hmem
      cases hbound : bindings.lookup name with
      | none =>
        rw [hbound] at hmem
        cases hmem
      | some bound =>
        rw [hbound] at hmem
        have hmem : entry ∈ seenPack name bound := hmem
        unfold seenPack at hmem
        cases hpack : packMembers bound with
        | none =>
          rw [hpack] at hmem
          cases hmem
        | some members =>
          rw [hpack] at hmem
          obtain rfl := mem_singleton.1 hmem
          rw [packMembers_eq hpack] at hbound
          exact ⟨.here, members, hbound, rfl⟩
    · rintro ⟨hdirect, members, hbound, hlength⟩
      have hname : entry.1 = name := by
        cases hdirect with
        | here => rfl
        | slot hs _ => cases hs
      rw [hname] at hbound
      rw [hbound]
      show entry ∈ seenPack name (makePack members)
      rw [seenPack, packMembers_makePack, mem_singleton]
      exact Prod.ext hname hlength.symm
  | @expansion inside E hE hdots ih =>
    have hseen : packsSeen table bindings (makeExpand E) ρ = [] := by
      rw [makeExpand, packsSeen]
      unfold seenCallMember
      have hnotPack : ¬(kExpandName = kPackName ∧ ρ ≠ .whole) := fun hread =>
        absurd hread.1 (by decide)
      rw [if_neg hnotPack, seenHead]
      show seenExpand (fun ρ => packsSeen table bindings E ρ) ρ = []
      unfold seenExpand
      split
      · next hnone =>
        -- what is seen does not depend on how packs are read
        rw [eq_nil_iff_forall_not_mem]
        intro other hother
        have hfirst := (ih (ρ := .first) (fun _ => rfl) other).2 ((ih (fun _ => rfl) other).1 hother)
        have hnil : packsSeen table bindings E .first = [] := measured_eq_nil_iff.1 hnone
        rw [hnil] at hfirst
        cases hfirst
      · rfl
    rw [hseen]
    exact ⟨fun hmem => absurd hmem not_mem_nil, fun hd => absurd hd.1 not_directVar_call⟩
  | @call inside name params hdots hpack hparams hout ih =>
    rw [(closed_regular (.call hdots hpack hparams hout) (writtenOut_call hdots hout) hρ).2]
    exact ⟨fun hmem => absurd hmem not_mem_nil, fun hd => absurd hd.1 not_directVar_call⟩
  | node hnode hmade _ ih =>
    rw [packsSeen_node hnode hmade, mem_flatMap]
    constructor
    · rintro ⟨s, hs, hmem⟩
      obtain ⟨hdirect, hbound⟩ := (ih s hs hρ entry).1 hmem
      exact ⟨.slot hs hdirect, hbound⟩
    · rintro ⟨hdirect, hbound⟩
      cases hdirect with
      | here => cases hnode
      | slot hs hdirect => exact ⟨_, hs, (ih _ hs hρ entry).2 ⟨hdirect, hbound⟩⟩

/-! ## Expansions -/

section Expansions

variable {E : Ty} (hE : Regular true E)
include hE

theorem putMember_expansion (ρ : Reading) :
    putMember table bindings (makeExpand E) ρ =
      putExpand table E (fun ρ => (putMember table bindings E ρ).whole)
        (packsSeen table bindings E .first) ρ := by
  have hnotPack : ¬(kExpandName = kPackName ∧ ρ ≠ .whole) := fun hread => absurd hread.1 (by decide)
  rw [makeExpand, putMember, putHead, seenHead]
  unfold putCallMember
  rw [if_neg hnotPack]
  rfl

/-- An expansion whose packs are not bound yet stays, with what is bound put into it. -/
theorem putMember_waits (hwaits : Waits bindings E) (ρ : Reading) :
    putMember table bindings (makeExpand E) ρ =
      .one (makeExpand (putMember table bindings E ρ).whole) := by
  have hseen : packsSeen table bindings E .first = [] := by
    rw [eq_nil_iff_forall_not_mem]
    intro entry hentry
    obtain ⟨hdirect, hbound⟩ := (mem_packsSeen hE (fun _ => rfl) entry).1 hentry
    exact hwaits entry.1 entry.2 hdirect hbound
  rw [putMember_expansion hE, hseen]
  rfl

/-- An expansion whose packs have one length is one member for each index. -/
theorem putMember_spreads {count : Nat} (hspreads : Spreads bindings E count) (ρ : Reading) :
    putMember table bindings (makeExpand E) ρ =
      .many ((List.range count).map fun i => (putMember table bindings E (.at i)).whole) := by
  obtain ⟨⟨name, hdirect, hbound⟩, hall⟩ := hspreads
  have hmem : (name, count) ∈ packsSeen table bindings E .first :=
    (mem_packsSeen hE (fun _ => rfl) _).2 ⟨hdirect, hbound⟩
  have hcounts : ∀ entry ∈ measured (packsSeen table bindings E .first), entry.2 = count := by
    intro entry hentry
    obtain ⟨hd, hb⟩ := (mem_packsSeen hE (fun _ => rfl) entry).1 (mem_measured hentry)
    exact hall entry.1 entry.2 hd hb
  rw [putMember_expansion hE, putExpand]
  unfold expansionOf
  cases hmeasured : measured (packsSeen table bindings E .first) with
  | nil =>
    rw [measured_eq_nil_iff.1 hmeasured] at hmem
    cases hmem
  | cons entry others =>
    obtain ⟨first, length⟩ := entry
    rw [hmeasured] at hcounts
    obtain rfl : length = count := hcounts _ (.head _)
    dsimp only
    rw [if_pos (all_eq_true.2 fun other hother => decide_eq_true (hcounts other hother))]

end Expansions

/-! ## Nothing Bound -/

/-- Where no variable of the type is bound, nothing changes. -/
theorem putMember_unbound (h : Regular inside t) (hρ : ρ ≠ .whole → inside = true)
    (hfree : ∀ name, Occurs name t → bindings.lookup name = none) :
    putMember table bindings t ρ = .one t := by
  induction h with
  | @var inside name binder =>
    rw [putMember, hfree name .here]
  | @expansion inside E hE hdots ih =>
    have hwaits : Waits bindings E := by
      rintro name count hdirect ⟨members, hbound, -⟩
      rw [hfree name (.pattern hdirect.occurs)] at hbound
      cases hbound
    rw [putMember_waits hE hwaits, ih (fun _ => rfl) fun name hname => hfree name (.pattern hname)]
    rfl
  | @call inside name params hdots hpack hparams hout ih =>
    exact (closed_regular (.call hdots hpack hparams hout) (writtenOut_call hdots hout) hρ).1
  | node hnode hmade _ ih =>
    rw [putMember_node hnode hmade]
    apply congrArg Members.one
    exact mapSlots_self hmade fun s hs => ih s hs hρ fun name hname => hfree name (.slot hs hname)

end Walks

end Camel.Types
