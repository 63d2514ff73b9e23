import Camel.Types.Regular

/-! # Substitution Is Simultaneous

    What stands at each place of a type once its variables are replaced, as rules; and the
    substitution of the source by them, at once and in steps.
-/

namespace Camel.Types

open Matching List

/-! ## What Stands at Each Place -/

/-- What stands at the place of a type with the bindings in it. Packs are read whole, and inside an
    expansion each pack that is not in an expansion further in stands for its member at the index. -/
inductive Placed (bindings : TypeBindings) : Reading → Ty → Members → Prop where
  | bound {ρ : Reading} {name : String} {binder : Bool} {type : Ty}
      (h : bindings.lookup name = some type) :
      Placed bindings ρ (.var name binder) (.one (readPack ρ type))
  | free {ρ : Reading} {name : String} {binder : Bool} (h : bindings.lookup name = none) :
      Placed bindings ρ (.var name binder) (.one (.var name binder))
  | call {ρ : Reading} {name : String} {params : List Ty} (h : name ≠ kExpandName) :
      Placed bindings ρ (.call name params) (.one (.call name params))
  | node {ρ : Reading} {t : Ty} {f : Ty → Members} (hnode : t.isNode = true)
      (h : ∀ s ∈ t.slots, Placed bindings ρ s (f s)) : Placed bindings ρ t (.one (t.mapSlots f))
  | spread {ρ : Reading} {E : Ty} {count : Nat} {members : Nat → Members}
      (hspreads : Spreads bindings E count)
      (h : ∀ i < count, Placed bindings (.at i) E (members i)) :
      Placed bindings ρ (makeExpand E) (.many ((List.range count).map fun i => (members i).whole))
  | wait {ρ : Reading} {E : Ty} {member : Members} (hwaits : Waits bindings E)
      (h : Placed bindings ρ E member) :
      Placed bindings ρ (makeExpand E) (.one (makeExpand member.whole))

/-- The packs that one expansion reads have one length. -/
def Agree (bindings : TypeBindings) (t : Ty) : Prop :=
  ∀ E name name' count count', Expands E t → DirectVar name E → DirectVar name' E →
    BindsPack bindings name count → BindsPack bindings name' count' → count = count'

variable {table : TypeTable} {bindings : TypeBindings} {ρ : Reading} {inside : Bool} {t : Ty}

theorem waits_or_spreads {E : Ty} (hagree : Agree bindings t) (hE : Expands E t) :
    Waits bindings E ∨ ∃ count, Spreads bindings E count := by
  by_cases hwaits : Waits bindings E
  · exact .inl hwaits
  · right
    unfold Waits at hwaits
    push Not at hwaits
    obtain ⟨name, count, hdirect, hbound⟩ := hwaits
    refine ⟨count, ⟨name, hdirect, hbound⟩, fun other count' hdirect' hbound' => ?_⟩
    exact hagree E other name count' count hE hdirect' hdirect hbound' hbound

theorem Agree.slot {s : Ty} (h : Agree bindings t) (hs : s ∈ t.slots) : Agree bindings s :=
  fun E name name' count count' hE => h E name name' count count' (.slot hs hE)

theorem Agree.pattern {E : Ty} (h : Agree bindings (makeExpand E)) : Agree bindings E :=
  fun E' name name' count count' hE => h E' name name' count count' (.pattern hE)

variable (table) in
/-- The rules give what the walk puts. -/
theorem placed_putMember (h : Regular inside t) (hρ : ρ ≠ .whole → inside = true)
    (hagree : Agree bindings t) : Placed bindings ρ t (putMember table bindings t ρ) := by
  induction h generalizing ρ with
  | @var inside name binder =>
    rw [putMember]
    cases hbound : bindings.lookup name with
    | none => exact .free hbound
    | some type => exact .bound hbound
  | @expansion inside E hE hdots ih =>
    rcases waits_or_spreads hagree .here with hwaits | ⟨count, hspreads⟩
    · rw [putMember_waits hE hwaits]
      exact .wait hwaits (ih (fun _ => rfl) hagree.pattern)
    · rw [putMember_spreads hE hspreads]
      exact .spread hspreads fun i _ => ih (fun _ => rfl) hagree.pattern
  | @call inside name params hdots hpack hparams hout _ =>
    rw [(closed_regular (.call hdots hpack hparams hout) (writtenOut_call hdots hout) hρ).1]
    exact .call hdots
  | node hnode hmade _ ih =>
    rw [putMember_node hnode hmade]
    exact .node hnode fun s hs => ih s hs hρ (hagree.slot hs)

/-- At most one thing stands at a place. -/
theorem Placed.unique {m m' : Members} (h : Placed bindings ρ t m) (h' : Placed bindings ρ t m') :
    m = m' := by
  induction h generalizing m' with
  | bound hbound =>
    cases h' with
    | bound hbound' =>
      rw [hbound] at hbound'
      cases hbound'
      rfl
    | free hfree =>
      rw [hbound] at hfree
      cases hfree
    | node hnode _ => cases hnode
  | free hfree =>
    cases h' with
    | bound hbound =>
      rw [hfree] at hbound
      cases hbound
    | free _ => rfl
    | node hnode _ => cases hnode
  | call hname =>
    cases h' with
    | call _ => rfl
    | node hnode _ => cases hnode
    | spread _ _ => exact absurd rfl hname
    | wait _ _ => exact absurd rfl hname
  | node hnode _ ih =>
    cases h' with
    | node _ hslots => exact congrArg Members.one (mapSlots_congr fun s hs => ih s hs (hslots s hs))
    | _ => cases hnode
  | @spread ρ E count members hspreads _ ih =>
    cases h' with
    | call hname => exact absurd rfl hname
    | node hnode _ => cases hnode
    | @spread _ _ count' members' hspreads' hmembers' =>
      obtain ⟨name, hdirect, hbound⟩ := hspreads.1
      obtain rfl := hspreads'.2 name count hdirect hbound
      apply congrArg Members.many
      apply map_congr_left
      intro i hi
      rw [ih i (mem_range.1 hi) (hmembers' i (mem_range.1 hi))]
    | wait hwaits _ =>
      obtain ⟨name, hdirect, hbound⟩ := hspreads.1
      exact absurd hbound (hwaits name count hdirect)
  | wait hwaits _ ih =>
    cases h' with
    | call hname => exact absurd rfl hname
    | node hnode _ => cases hnode
    | spread hspreads _ =>
      obtain ⟨name, hdirect, hbound⟩ := hspreads.1
      exact absurd hbound (hwaits name _ hdirect)
    | wait _ hmember => rw [ih hmember]

/-! ## The Source Puts What Stands There -/

/-- The walk of the source, also where nothing is bound at all. -/
theorem substituteTypeVars_regular (h : Regular false t) (depth : Nat) (bindings : TypeBindings) :
    substituteTypeVars table (depth + 1) t bindings none =
      some ((putMember table bindings t .whole).whole, none) := by
  by_cases hnil : bindings = []
  · rw [substituteTypeVars, if_pos hnil, hnil,
      putMember_unbound h (fun hread => absurd rfl hread) fun _ _ => rfl]
    rfl
  · exact substituteTypeVars_settles table h.settles depth hnil

/-! ## Closed Bindings -/

/-- The bound types have nothing open, and packs are bound as a whole: none is written out inside a
    bound type. -/
def ClosedTypes (bindings : TypeBindings) : Prop :=
  ∀ name type, bindings.lookup name = some type → type.writtenOut = true ∧
    (Regular true type ∨ ∃ members, type = makePack members ∧ ∀ m ∈ members, Regular true m)

theorem regular_void {inside : Bool} : Regular inside (.leaf .void) := .node rfl trivial nofun

variable {name : String}

/-- What a bound type is read as has nothing open, and is no pack inside expansions. -/
theorem readPack_closed (hclosed : ClosedTypes bindings) {type : Ty}
    (hbound : bindings.lookup name = some type) (ρ : Reading) :
    (readPack ρ type).writtenOut = true ∧ Regular false (readPack ρ type) ∧
      ((∀ count, BindsPack bindings name count → ρ ≠ .whole) → Regular true (readPack ρ type)) := by
  obtain ⟨hout, hregular⟩ := hclosed name type hbound
  cases hpack : packMembers type with
  | none =>
    have hread : readPack ρ type = type := by rw [readPack, hpack]
    rcases hregular with hregular | ⟨members, rfl, -⟩
    · rw [hread]
      exact ⟨hout, hregular.mono, fun _ => hregular⟩
    · rw [packMembers_makePack] at hpack
      cases hpack
  | some members =>
    have hread : readPack ρ type = ρ.read type members := by rw [readPack, hpack]
    have hwritten := packMembers_writtenOut hout hpack
    have hmembers : ∀ m ∈ members, Regular true m := by
      rcases hregular with hregular | ⟨members', rfl, hmembers'⟩
      · rw [packMembers_eq hpack] at hregular
        generalize hcall : makePack members = t at hregular
        cases hregular with
        | var => cases hcall
        | expansion _ _ => exact absurd (Ty.call.inj hcall).1 (by decide)
        | call _ _ hparams _ =>
          cases hcall
          exact hparams
        | node hnode _ _ =>
          rw [← hcall] at hnode
          cases hnode
      · rw [packMembers_makePack] at hpack
        cases hpack
        exact hmembers'
    -- inside an expansion it is a member, and void after the last one
    have hmember : ∀ i, ((members.getD i (.leaf .void)).writtenOut = true) ∧
        Regular true (members.getD i (.leaf .void)) := by
      intro i
      rw [getD_eq_getElem?_getD]
      cases hget : members[i]? with
      | none => exact ⟨rfl, regular_void⟩
      | some m =>
        have hm := mem_of_getElem? hget
        exact ⟨hwritten m hm, hmembers m hm⟩
    have hfirst : members.headD (.leaf .void) = members.getD 0 (.leaf .void) := by
      cases members <;> rfl
    rw [hread]
    cases ρ with
    | whole =>
      refine ⟨hout, ?_, fun hnot => absurd rfl (hnot _ ⟨members, ?_, rfl⟩)⟩
      · show Regular false type
        rw [packMembers_eq hpack]
        exact .call (by decide) (by simp) (fun m hm => (hmembers m hm).mono)
          (allWrittenOut_iff.2 hwritten)
      · rw [hbound, packMembers_eq hpack]
    | first =>
      show (members.headD _).writtenOut = true ∧ Regular false (members.headD _) ∧ _
      rw [hfirst]
      exact ⟨(hmember 0).1, (hmember 0).2.mono, fun _ => (congrArg (Regular true) hfirst) ▸ (hmember 0).2⟩
    | «at» i => exact ⟨(hmember i).1, (hmember i).2.mono, fun _ => (hmember i).2⟩

theorem not_directVar_writtenOut (h : DirectVar name t) : t.writtenOut ≠ true := by
  induction h with
  | here => exact nofun
  | slot hs _ ih => exact fun hout => ih (slots_writtenOut hout _ hs)

theorem directVar_node (hnode : t.isNode = true) (h : DirectVar name t) :
    ∃ s ∈ t.slots, DirectVar name s := by
  cases h with
  | here => cases hnode
  | slot hs h => exact ⟨_, hs, h⟩

/-- A variable stands in the tuple of the members where it stands in one of them. -/
theorem directVar_whole {m : Members} :
    DirectVar name m.whole ↔ ∃ u ∈ m.list, DirectVar name u := by
  cases m with
  | one u => exact ⟨fun h => ⟨u, .head _, h⟩, fun ⟨u', hu', h⟩ => mem_singleton.1 hu' ▸ h⟩
  | many us => exact ⟨directVar_node rfl, fun ⟨u, hu, h⟩ => .slot hu h⟩

theorem directVar_mapSlots {f : Ty → Members} (hnode : t.isNode = true) :
    DirectVar name (t.mapSlots f) ↔ ∃ s ∈ t.slots, ∃ u ∈ (f s).list, DirectVar name u := by
  constructor
  · intro h
    obtain ⟨u, hu, hdirect⟩ := directVar_node (isNode_mapSlots f hnode) h
    obtain ⟨s, hs, hu | rfl⟩ := mem_slots_mapSlots hu
    · exact ⟨s, hs, u, hu, hdirect⟩
    · exact ⟨s, hs, directVar_whole.1 hdirect⟩
  · rintro ⟨s, hs, u, hu, hdirect⟩
    rcases slots_mapSlots (f := f) hs with hlist | hwhole
    · exact .slot (hlist u hu) hdirect
    · exact .slot hwhole (directVar_whole.2 ⟨u, hu, hdirect⟩)

variable (table ρ) in
/-- What is no expansion stands for one type that is none. -/
theorem plain_putMember (hclosed : ClosedTypes bindings) (h : Regular inside t)
    (hρ : ρ ≠ .whole → inside = true) (hdots : expandPattern t = none) :
    ∃ u, putMember table bindings t ρ = .one u ∧ expandPattern u = none := by
  cases h with
  | @var _ name binder =>
    rw [putMember]
    cases hbound : bindings.lookup name with
    | none => exact ⟨_, rfl, rfl⟩
    | some type => exact ⟨_, rfl, expandPattern_writtenOut (readPack_closed hclosed hbound ρ).1⟩
  | expansion _ _ => cases hdots
  | @call _ name params hname hpack hparams hout =>
    exact ⟨_, (closed_regular (.call hname hpack hparams hout) (writtenOut_call hname hout) hρ).1,
      hdots⟩
  | node hnode hmade _ =>
    refine ⟨_, putMember_node hnode hmade, ?_⟩
    cases t <;> first | rfl | cases hnode

theorem wellMade_putMember (hclosed : ClosedTypes bindings) (hmade : t.WellMade)
    (hslots : ∀ s ∈ t.slots, Regular inside s) (hρ : ρ ≠ .whole → inside = true) :
    (t.mapSlots fun s => putMember table bindings s ρ).WellMade := by
  apply wellMade_mapSlots hmade
  · exact fun s hs hdots => plain_putMember table ρ hclosed (hslots s hs) hρ hdots
  · rw [putMember]

variable (table) in
/-- The type with closed types in place of its variables still waits for the others only. -/
theorem regular_putMember (hclosed : ClosedTypes bindings) (h : Regular inside t)
    (hρ : ρ ≠ .whole → inside = true) (hagree : Agree bindings t)
    (hread : inside = true → ∀ name count, DirectVar name t → BindsPack bindings name count →
      ρ ≠ .whole) :
    ∀ u ∈ (putMember table bindings t ρ).list, Regular inside u := by
  induction h generalizing ρ with
  | @var inside name binder =>
    rw [putMember]
    intro u hu
    cases hbound : bindings.lookup name with
    | none =>
      rw [hbound] at hu
      obtain rfl := mem_singleton.1 hu
      exact .var
    | some type =>
      rw [hbound] at hu
      obtain ⟨-, hfalse, htrue⟩ := readPack_closed hclosed hbound ρ
      obtain rfl := mem_singleton.1 hu
      cases inside with
      | false => exact hfalse
      | true => exact htrue fun count hcount => hread rfl name count .here hcount
  | @expansion inside E hE hdots ih =>
    rcases waits_or_spreads hagree .here with hwaits | ⟨count, hspreads⟩
    · have hlist := ih (ρ := ρ) (fun _ => rfl) hagree.pattern
        fun _ name count hdirect hbound => absurd hbound (hwaits name count hdirect)
      obtain ⟨u, hu, hplain⟩ := plain_putMember table ρ hclosed hE (fun _ => rfl) hdots
      rw [putMember_waits hE hwaits, hu]
      rw [hu] at hlist
      intro v hv
      obtain rfl := mem_singleton.1 hv
      exact .expansion (hlist u (.head _)) hplain
    · rw [putMember_spreads hE hspreads]
      intro v hv
      obtain ⟨i, -, rfl⟩ := mem_map.1 hv
      have hlist := ih (ρ := .at i) (fun _ => rfl) hagree.pattern fun _ _ _ _ _ => nofun
      obtain ⟨u, hu⟩ := putMember_one table hdots bindings (.at i)
      rw [hu] at hlist ⊢
      exact (hlist u (.head _)).mono
  | @call inside name params hdots hpack hparams hout _ =>
    have hregular : Regular inside (.call name params) := .call hdots hpack hparams hout
    rw [(closed_regular hregular (writtenOut_call hdots hout) hρ).1]
    intro u hu
    obtain rfl := mem_singleton.1 hu
    exact hregular
  | @node inside t hnode hmade hslots ih =>
    have hslot : ∀ s ∈ t.slots, ∀ u ∈ (putMember table bindings s ρ).list, Regular inside u :=
      fun s hs => ih s hs hρ (hagree.slot hs)
        fun hin name count hdirect => hread hin name count (.slot hs hdirect)
    rw [putMember_node hnode hmade]
    intro u hu
    obtain rfl := mem_singleton.1 hu
    apply Regular.node (isNode_mapSlots _ hnode) (wellMade_putMember hclosed hmade hslots hρ)
    intro u hu
    obtain ⟨s, hs, hu | rfl⟩ := mem_slots_mapSlots hu
    · exact hslot s hs u hu
    · -- where members are a tuple they are its slots
      have hall := hslot s hs
      revert hall
      cases putMember table bindings s ρ with
      | one v => exact fun hall => hall v (.head _)
      | many vs => exact fun hall => .node rfl trivial hall

variable (table ρ) in
/-- A variable that stands in what is put was there and is not bound, in the type itself or in an
    expansion that is spread. -/
theorem directVar_putMember (hclosed : ClosedTypes bindings) (h : Regular inside t)
    (hρ : ρ ≠ .whole → inside = true) (hagree : Agree bindings t)
    (hdirect : ∃ u ∈ (putMember table bindings t ρ).list, DirectVar name u) :
    bindings.lookup name = none ∧
      (DirectVar name t ∨ ∃ E count, Expands E t ∧ Spreads bindings E count ∧ DirectVar name E) := by
  induction h generalizing ρ with
  | @var inside name' binder =>
    obtain ⟨u, hu, hdirect⟩ := hdirect
    rw [putMember] at hu
    cases hbound : bindings.lookup name' with
    | none =>
      rw [hbound] at hu
      obtain rfl := mem_singleton.1 hu
      cases hdirect with
      | here => exact ⟨hbound, .inl .here⟩
      | slot hs _ => cases hs
    | some type =>
      rw [hbound] at hu
      obtain rfl := mem_singleton.1 hu
      exact absurd (readPack_closed hclosed hbound ρ).1 (not_directVar_writtenOut hdirect)
  | @expansion inside E hE hdots ih =>
    rcases waits_or_spreads hagree .here with hwaits | ⟨count, hspreads⟩
    · rw [putMember_waits hE hwaits] at hdirect
      obtain ⟨u, hu, hdirect⟩ := hdirect
      obtain rfl := mem_singleton.1 hu
      exact absurd hdirect not_directVar_call
    · rw [putMember_spreads hE hspreads] at hdirect
      obtain ⟨u, hu, hdirect⟩ := hdirect
      obtain ⟨i, -, rfl⟩ := mem_map.1 hu
      obtain ⟨hfree, hplace⟩ :=
        ih (ρ := .at i) (fun _ => rfl) hagree.pattern (directVar_whole.1 hdirect)
      refine ⟨hfree, .inr ?_⟩
      rcases hplace with hplace | ⟨E', count', hE', hspreads', hplace⟩
      · exact ⟨E, count, .here, hspreads, hplace⟩
      · exact ⟨E', count', .pattern hE', hspreads', hplace⟩
  | @call inside f params hdots hpack hparams hout _ =>
    rw [(closed_regular (.call hdots hpack hparams hout) (writtenOut_call hdots hout) hρ).1]
      at hdirect
    obtain ⟨u, hu, hdirect⟩ := hdirect
    obtain rfl := mem_singleton.1 hu
    exact absurd hdirect not_directVar_call
  | node hnode hmade _ ih =>
    rw [putMember_node hnode hmade] at hdirect
    obtain ⟨u, hu, hdirect⟩ := hdirect
    obtain rfl := mem_singleton.1 hu
    obtain ⟨s, hs, hslot⟩ := (directVar_mapSlots hnode).1 hdirect
    obtain ⟨hfree, hplace⟩ := ih s hs _ hρ (hagree.slot hs) hslot
    refine ⟨hfree, ?_⟩
    rcases hplace with hplace | ⟨E, count, hE, hspreads, hplace⟩
    · exact .inl (.slot hs hplace)
    · exact .inr ⟨E, count, .slot hs hE, hspreads, hplace⟩

variable (table ρ) in
/-- A variable that is not bound stays where it is. -/
theorem directVar_stays (h : Regular inside t) (hdirect : DirectVar name t)
    (hfree : bindings.lookup name = none) :
    ∃ u ∈ (putMember table bindings t ρ).list, DirectVar name u := by
  induction h with
  | var =>
    cases hdirect with
    | here =>
      rw [putMember, hfree]
      exact ⟨_, .head _, .here⟩
    | slot hs _ => cases hs
  | expansion _ _ _ => exact absurd hdirect not_directVar_call
  | call _ _ _ _ _ => exact absurd hdirect not_directVar_call
  | node hnode hmade _ ih =>
    obtain ⟨s, hs, hslot⟩ := directVar_node hnode hdirect
    rw [putMember_node hnode hmade]
    exact ⟨_, .head _, (directVar_mapSlots hnode).2 ⟨s, hs, ih s hs hslot⟩⟩

/-! ## Two Steps -/

/-- The packs that one expansion reads are bound in one step. -/
def OneStep (first second : TypeBindings) (t : Ty) : Prop :=
  ∀ E name name' count count', Expands E t → DirectVar name E → DirectVar name' E →
    BindsPack first name count → first.lookup name' = none → ¬BindsPack second name' count'

section Steps

variable {first second : TypeBindings} {ρ₁ ρ₂ : Reading}

theorem bindsPack_append {name : String} {count : Nat} :
    BindsPack (first ++ second) name count ↔
      BindsPack first name count ∨ first.lookup name = none ∧ BindsPack second name count := by
  unfold BindsPack
  rw [lookup_append]
  cases first.lookup name <;> simp

theorem agree_left (h : Agree (first ++ second) t) : Agree first t :=
  fun E name name' count count' hE hd hd' hb hb' =>
    h E name name' count count' hE hd hd' (bindsPack_append.2 (.inl hb)) (bindsPack_append.2 (.inl hb'))

variable {E : Ty}

/-- An expansion that is spread in the first step is spread so at once. -/
theorem spreads_append {count : Nat} (hagree : Agree (first ++ second) t)
    (hE : Expands E t) (h : Spreads first E count) : Spreads (first ++ second) E count := by
  obtain ⟨⟨name, hdirect, hbound⟩, -⟩ := h
  have hbound' := bindsPack_append.2 (.inl hbound (b := first.lookup name = none ∧ BindsPack second name count))
  exact ⟨⟨name, hdirect, hbound'⟩, fun other count' hdirect' hother =>
    hagree E other name count' count hE hdirect' hdirect hother hbound'⟩

/-- The second step finds in an expansion that waited the packs that it finds there at once. -/
theorem bindsPack_second {u : Ty} (hclosed : ClosedTypes first) (hE : Regular true E)
    (hwaits : Waits first E) (hagree : Agree first E) (hstep : OneStep first second E)
    (hput : putMember table first E ρ₁ = .one u) (name : String) (count : Nat) :
    DirectVar name u ∧ BindsPack second name count ↔
      DirectVar name E ∧ BindsPack (first ++ second) name count := by
  rw [bindsPack_append]
  constructor
  · rintro ⟨hdirect, hbound⟩
    obtain ⟨hfree, hplace⟩ := directVar_putMember table ρ₁ hclosed hE (fun _ => rfl) hagree
      ⟨u, by rw [hput]; exact .head _, hdirect⟩
    rcases hplace with hplace | ⟨E', count', hE', hspreads, hplace⟩
    · exact ⟨hplace, .inr ⟨hfree, hbound⟩⟩
    · -- the packs of an expansion further in are bound in the first step already
      obtain ⟨other, hother, hpack⟩ := hspreads.1
      exact absurd hbound (hstep E' other name count' count hE' hother hplace hpack hfree)
  · rintro ⟨hdirect, hbound | ⟨hfree, hbound⟩⟩
    · exact absurd hbound (hwaits name count hdirect)
    · obtain ⟨v, hv, hdirect'⟩ := directVar_stays table ρ₁ hE hdirect hfree
      rw [hput] at hv
      obtain rfl := mem_singleton.1 hv
      exact ⟨hdirect', hbound⟩

/-- A type that is no pack is read as itself everywhere. -/
theorem readPack_eq {type : Ty} (h : ∀ count, ¬∃ members, type = makePack members ∧ members.length = count)
    (ρ ρ' : Reading) : readPack ρ type = readPack ρ' type := by
  cases hpack : packMembers type with
  | none => rw [readPack, readPack, hpack]
  | some members => exact absurd ⟨members, packMembers_eq hpack, rfl⟩ (h members.length)

/-- What is no expansion stands for one type in the first step and in both. -/
theorem composes_one {g h : Ty → Members} (hdots : expandPattern E = none)
    (hcomposes : Composes (fun s => putMember table first s ρ₁) g h E) :
    ∃ u, putMember table first E ρ₁ = .one u ∧ g u = h E := by
  rcases hcomposes with ⟨u, hu, hsame⟩ | ⟨us, hus, -⟩
  · exact ⟨u, hu, hsame⟩
  · obtain ⟨u, hu⟩ := putMember_one table hdots first ρ₁
    cases hu.symm.trans hus

/-- Putting the first bindings and then the second is putting both at once. -/
theorem composes_putMember (hclosed : ClosedTypes first) (h : Regular inside t)
    (hinside : ρ₁ ≠ .whole ∨ ρ₂ ≠ .whole ∨ ρ ≠ .whole → inside = true)
    (hagree : Agree (first ++ second) t) (hstep : OneStep first second t)
    (hfirst : ∀ name type, DirectVar name t → first.lookup name = some type →
      readPack ρ₁ type = readPack ρ type)
    (hsecond : ∀ name type, DirectVar name t → first.lookup name = none →
      second.lookup name = some type → readPack ρ₂ type = readPack ρ type)
    (hread : ∀ name count, DirectVar name t → BindsPack first name count →
      ρ₁ ≠ .whole ∨ ρ₂ = .whole) :
    Composes (fun s => putMember table first s ρ₁) (fun s => putMember table second s ρ₂)
      (fun s => putMember table (first ++ second) s ρ) t := by
  induction h generalizing ρ₁ ρ₂ ρ with
  | @var inside name binder =>
    left
    dsimp only
    rw [putMember, putMember, lookup_append]
    cases hbound : first.lookup name with
    | none =>
      refine ⟨_, rfl, ?_⟩
      rw [putMember, Option.none_or]
      cases hbound' : second.lookup name with
      | none => rfl
      | some type => exact congrArg Members.one (hsecond name type .here hbound hbound')
    | some type =>
      obtain ⟨hout, -, htrue⟩ := readPack_closed hclosed hbound ρ₁
      refine ⟨_, rfl, ?_⟩
      show putMember table second (readPack ρ₁ type) ρ₂ = .one (readPack ρ type)
      rw [← hfirst name type .here hbound]
      by_cases hwhole : ρ₂ = .whole
      · rw [hwhole]
        exact putMember_writtenOut table second _ hout
      · have hregular := htrue fun count hcount =>
          (hread name count .here hcount).resolve_right hwhole
        exact (closed_regular hregular hout (fun _ => rfl)).1
  | @call inside name params hdots hpack hparams hout _ =>
    have hregular : Regular inside (.call name params) := .call hdots hpack hparams hout
    have hwritten := writtenOut_call hdots hout
    left
    refine ⟨_, (closed_regular hregular hwritten fun hρ => hinside (.inl hρ)).1, ?_⟩
    dsimp only
    rw [(closed_regular hregular hwritten fun hρ => hinside (.inr (.inl hρ))).1,
      (closed_regular hregular hwritten fun hρ => hinside (.inr (.inr hρ))).1]
  | @node inside t hnode hmade hslots ih =>
    left
    have hρ₁ : ρ₁ ≠ .whole → inside = true := fun hρ => hinside (.inl hρ)
    refine ⟨_, putMember_node hnode hmade, ?_⟩
    dsimp only
    rw [putMember_node hnode hmade,
      putMember_node (isNode_mapSlots _ hnode) (wellMade_putMember hclosed hmade hslots hρ₁)]
    apply congrArg Members.one
    apply mapSlots_mapSlots
    · intro s hs
      apply ih s hs hinside (hagree.slot hs)
      · exact fun E name name' count count' hE => hstep E name name' count count' (.slot hs hE)
      · exact fun name type hdirect => hfirst name type (.slot hs hdirect)
      · exact fun name type hdirect => hsecond name type (.slot hs hdirect)
      · exact fun name count hdirect => hread name count (.slot hs hdirect)
    · intro us
      rw [putMember, putSpliced_eq]
  | @expansion inside E hE hdots ih =>
    have hstepE : OneStep first second E :=
      fun E' name name' count count' hE' => hstep E' name name' count count' (.pattern hE')
    have hleft := agree_left hagree
    rcases waits_or_spreads hleft .here with hwaits | ⟨count, hspreads⟩
    · left
      have hbare : ∀ name type, DirectVar name E → first.lookup name = some type →
          ∀ ρ ρ', readPack ρ type = readPack ρ' type := by
        intro name type hdirect hbound
        apply readPack_eq
        rintro count ⟨members, rfl, hcount⟩
        exact hwaits name count hdirect ⟨members, hbound, hcount⟩
      have hlist := regular_putMember table (ρ := ρ₁) hclosed hE (fun _ => rfl)
        hleft.pattern fun _ name count hdirect hbound => absurd hbound (hwaits name count hdirect)
      obtain ⟨u, hu⟩ := putMember_one table hdots first ρ₁
      rw [hu] at hlist
      have huRegular : Regular true u := hlist u (.head _)
      have hpacks := bindsPack_second hclosed hE hwaits hleft.pattern hstepE hu
      have hput : putMember table first (makeExpand E) ρ₁ = .one (makeExpand u) := by
        rw [putMember_waits hE hwaits, hu]
        rfl
      refine ⟨_, hput, ?_⟩
      dsimp only
      rcases waits_or_spreads hagree .here with hwaits' | ⟨count, hspreads⟩
      · -- the expansion waits in both steps
        have hwaitsU : Waits second u := fun name count hdirect hbound =>
          hwaits' name count ((hpacks name count).1 ⟨hdirect, hbound⟩).1
            ((hpacks name count).1 ⟨hdirect, hbound⟩).2
        have hcomposes : Composes (fun s => putMember table first s ρ₁)
            (fun s => putMember table second s ρ₂)
            (fun s => putMember table (first ++ second) s ρ) E := by
          apply ih (fun _ => rfl) hagree.pattern hstepE
          · exact fun name type hdirect hbound => hbare name type hdirect hbound _ _
          · intro name type hdirect hfree hbound
            apply readPack_eq
            rintro count ⟨members, rfl, hcount⟩
            exact hwaits' name count hdirect
              (bindsPack_append.2 (.inr ⟨hfree, members, hbound, hcount⟩))
          · exact fun name count hdirect hbound => absurd hbound (hwaits name count hdirect)
        obtain ⟨v, hv, hsame⟩ := composes_one hdots hcomposes
        obtain rfl : u = v := Members.one.inj (hu.symm.trans hv)
        rw [putMember_waits huRegular hwaitsU, putMember_waits hE hwaits', ← hsame]
      · -- it is spread in the second step
        have hspreadsU : Spreads second u count := by
          obtain ⟨⟨name, hdirect, hbound⟩, hall⟩ := hspreads
          obtain ⟨hdirect', hbound'⟩ := (hpacks name count).2 ⟨hdirect, hbound⟩
          refine ⟨⟨name, hdirect', hbound'⟩, fun other count' hd hb => ?_⟩
          obtain ⟨hd', hb'⟩ := (hpacks other count').1 ⟨hd, hb⟩
          exact hall other count' hd' hb'
        rw [putMember_spreads huRegular hspreadsU, putMember_spreads hE hspreads]
        apply congrArg Members.many
        apply map_congr_left
        intro i _
        have hcomposes : Composes (fun s => putMember table first s ρ₁)
            (fun s => putMember table second s (.at i))
            (fun s => putMember table (first ++ second) s (.at i)) E := by
          apply ih (fun _ => rfl) hagree.pattern hstepE
          · exact fun name type hdirect hbound => hbare name type hdirect hbound _ _
          · exact fun _ _ _ _ _ => rfl
          · exact fun name count hdirect hbound => absurd hbound (hwaits name count hdirect)
        obtain ⟨v, hv, hsame⟩ := composes_one hdots hcomposes
        obtain rfl : u = v := Members.one.inj (hu.symm.trans hv)
        rw [← hsame]
    · -- the members are made in the first step, and filled up in the second
      right
      have hcomposes : ∀ i, Composes (fun s => putMember table first s (.at i))
          (fun s => putMember table second s ρ₂) (fun s => putMember table (first ++ second) s (.at i))
          E := by
        intro i
        apply ih (fun _ => rfl) hagree.pattern hstepE
        · exact fun _ _ _ _ => rfl
        · intro name type hdirect hfree hbound
          apply readPack_eq
          rintro count' ⟨members, rfl, hcount⟩
          obtain ⟨other, hother, hbinds⟩ := hspreads.1
          exact hstep E other name count count' .here hother hdirect hbinds hfree
            ⟨members, hbound, hcount⟩
        · exact fun _ _ _ _ => .inl nofun
      have hone := fun i => composes_one hdots (hcomposes i)
      refine ⟨_, putMember_spreads hE hspreads ρ₁, ?_, ?_⟩
      · intro v hv
        obtain ⟨i, -, rfl⟩ := mem_map.1 hv
        obtain ⟨u, hu, hsame⟩ := hone i
        obtain ⟨w, hw⟩ := putMember_one table hdots (first ++ second) (.at i)
        refine ⟨w, ?_⟩
        dsimp only
        rw [hu]
        exact hsame.trans hw
      · dsimp only
        rw [putMember_spreads hE (spreads_append hagree .here hspreads), map_map]
        apply congrArg Members.many
        apply map_congr_left
        intro i _
        obtain ⟨u, hu, hsame⟩ := hone i
        show _ = (putMember table second (putMember table first E (.at i)).whole ρ₂).whole
        rw [hu, ← hsame]
        rfl

end Steps

/-! ## The Source -/

/-- Substitution puts at each place what the rules put there and nothing else; it changes nothing
    where no bound variable stands; and closed types put in two steps are put as at once, where the
    packs that one expansion reads are bound in one step and have one length. -/
theorem substituteTypeVars_simultaneous (depth : Nat) (h : Regular false t) :
    (∀ bindings, Agree bindings t →
      ∃ m, (∀ m', Placed bindings .whole t m' ↔ m' = m) ∧
        substituteTypeVars table (depth + 1) t bindings none = some (m.whole, none)) ∧
    (∀ bindings, (∀ name, Occurs name t → bindings.lookup name = none) →
      substituteTypeVars table (depth + 1) t bindings none = some (t, none)) ∧
    ∀ first second, ClosedTypes first → Agree (first ++ second) t → OneStep first second t →
      ∃ u, substituteTypeVars table (depth + 1) t first none = some (u, none) ∧
        substituteTypeVars table (depth + 1) u second none =
          substituteTypeVars table (depth + 1) t (first ++ second) none := by
  have hwhole : ∀ {inside : Bool}, Reading.whole ≠ .whole → inside = true :=
    fun hread => absurd rfl hread
  refine ⟨fun bindings hagree => ?_, fun bindings hfree => ?_, ?_⟩
  · have hplaced := placed_putMember table h hwhole hagree
    refine ⟨_, fun m' => ⟨fun hm' => hm'.unique hplaced, ?_⟩, substituteTypeVars_regular h depth bindings⟩
    rintro rfl
    exact hplaced
  · rw [substituteTypeVars_regular h, putMember_unbound h hwhole hfree]
    rfl
  · intro first second hclosed hagree hstep
    have hcomposes : Composes (fun s => putMember table first s .whole)
        (fun s => putMember table second s .whole)
        (fun s => putMember table (first ++ second) s .whole) t := by
      apply composes_putMember hclosed h _ hagree hstep
      · exact fun _ _ _ _ => rfl
      · exact fun _ _ _ _ _ => rfl
      · exact fun _ _ _ _ => .inr rfl
      · rintro (hread | hread | hread) <;> exact absurd rfl hread
    have hlist := regular_putMember table hclosed h hwhole (agree_left hagree) nofun
    have hu : Regular false (putMember table first t .whole).whole := by
      revert hlist
      cases putMember table first t .whole with
      | one v => exact fun hlist => hlist v (.head _)
      | many vs =>
        intro hlist
        show Regular false (.tuple vs)
        exact .node rfl trivial hlist
    refine ⟨_, substituteTypeVars_regular h depth first, ?_⟩
    rw [substituteTypeVars_regular hu, substituteTypeVars_regular h]
    have hsame := hcomposes.whole (by
      intro us
      rw [putMember, putSpliced_eq])
    rw [← hsame]

/-- `(..P, X)` with `P` bound first, and then `X`. -/
theorem substituteTypeVars_simultaneous_row :
    (∃ m, (∀ m', Placed [("P", makePack [.leaf .int32, .leaf .string])] .whole
          (.tuple [makeExpand (.var "P" false), .var "X" false]) m' ↔ m' = m) ∧
        substituteTypeVars bareTable 1 (.tuple [makeExpand (.var "P" false), .var "X" false])
          [("P", makePack [.leaf .int32, .leaf .string])] none = some (m.whole, none)) ∧
    substituteTypeVars bareTable 1 (.tuple [makeExpand (.var "P" false), .var "X" false])
        [("Y", .leaf .bool)] none =
      some (.tuple [makeExpand (.var "P" false), .var "X" false], none) ∧
    ∃ u, substituteTypeVars bareTable 1 (.tuple [makeExpand (.var "P" false), .var "X" false])
          [("P", makePack [.leaf .int32, .leaf .string])] none = some (u, none) ∧
        substituteTypeVars bareTable 1 u [("X", .leaf .bool)] none =
          substituteTypeVars bareTable 1 (.tuple [makeExpand (.var "P" false), .var "X" false])
            [("P", makePack [.leaf .int32, .leaf .string]), ("X", .leaf .bool)] none := by
  have hslots : ∀ s ∈ (Ty.tuple [makeExpand (.var "P" false), .var "X" false]).slots,
      s = makeExpand (.var "P" false) ∨ s = .var "X" false := by
    intro s hs
    simpa [Ty.slots, Ty.parts] using hs
  have hregular : Regular false (.tuple [makeExpand (.var "P" false), .var "X" false]) := by
    refine .node rfl trivial fun s hs => ?_
    rcases hslots s hs with rfl | rfl
    · exact .expansion .var rfl
    · exact .var
  -- the one expansion reads the one pack
  have hdirect : ∀ {E name}, Expands E (.tuple [makeExpand (.var "P" false), .var "X" false]) →
      DirectVar name E → name = "P" := by
    intro E name hE hname
    cases hE with
    | slot hs hE =>
      rcases hslots _ hs with rfl | rfl
      · generalize htype : makeExpand (.var "P" false) = type at hE
        cases hE with
        | here =>
          cases htype
          cases hname with
          | here => rfl
          | slot hs _ => cases hs
        | slot hs _ =>
          rw [← htype] at hs
          cases hs
        | pattern hE =>
          cases htype
          cases hE with
          | slot hs _ => cases hs
      · cases hE with
        | slot hs _ => cases hs
  have hagree : ∀ bindings, Agree bindings (.tuple [makeExpand (.var "P" false), .var "X" false]) := by
    rintro bindings E name name' count count' hE hname hname' ⟨ms, hms, rfl⟩ ⟨ms', hms', rfl⟩
    rw [hdirect hE hname] at hms
    rw [hdirect hE hname', hms] at hms'
    cases hms'
    rfl
  have hclosed : ClosedTypes [("P", makePack [.leaf .int32, .leaf .string])] := by
    intro name type hbound
    obtain rfl : makePack [.leaf .int32, .leaf .string] = type := by
      rw [lookup_cons] at hbound
      split at hbound
      · exact Option.some.inj hbound
      · cases hbound
    refine ⟨by decide, .inr ⟨_, rfl, fun m hm => ?_⟩⟩
    simp only [mem_cons, not_mem_nil, or_false] at hm
    rcases hm with rfl | rfl <;> exact .node rfl trivial (by simp [Ty.slots, Ty.parts])
  have hstep : OneStep [("P", makePack [.leaf .int32, .leaf .string])] [("X", .leaf .bool)]
      (.tuple [makeExpand (.var "P" false), .var "X" false]) := by
    rintro E name name' count count' hE - hname' - hfree
    rw [hdirect hE hname'] at hfree
    cases hfree
  refine ⟨(substituteTypeVars_simultaneous 0 hregular).1 _ (hagree _),
    (substituteTypeVars_simultaneous 0 hregular).2.1 _ fun name hname => ?_,
    (substituteTypeVars_simultaneous 0 hregular).2.2 _ _ hclosed (hagree _) hstep⟩
  have hname' : name = "P" ∨ name = "X" := by
    cases hname with
    | slot hs hname =>
      rcases hslots _ hs with rfl | rfl
      · generalize htype : makeExpand (.var "P" false) = type at hname
        cases hname with
        | here => cases htype
        | slot hs _ =>
          rw [← htype] at hs
          cases hs
        | pattern hname =>
          cases htype
          cases hname with
          | here => exact .inl rfl
          | slot hs _ => cases hs
      · cases hname with
        | here => exact .inr rfl
        | slot hs _ => cases hs
  have hne : name ≠ "Y" := by
    rcases hname' with rfl | rfl <;> decide
  rw [lookup_cons, beq_false_of_ne hne]
  rfl

/-- A pack that is written out is spread where no bound variable stands; a call is computed; an
    expansion of packs that are bound in two steps is spread in the first one; and a pack inside a
    type of the first step is read by an expansion that is spread in the second. -/
theorem substituteTypeVars_not_simultaneous :
    substituteTypeVars bareTable 1 (.tuple [makeExpand (makePack [.leaf .int32, .leaf .string])])
        [("X", .leaf .bool)] none =
      some (.tuple [.leaf .int32, .leaf .string], none) ∧
    substituteTypeVars { bareTable with evaluate := fun _ params => params.head? } 1
        (.call "ElementOf" [.var "X" false]) [("X", .leaf .bool)] none =
      some (.leaf .bool, none) ∧
    substituteTypeVars bareTable 1 (.tuple [makeExpand (.tuple [.var "P" false, .var "Q" false])])
        [("P", makePack [.leaf .int32])] none =
      some (.tuple [.tuple [.leaf .int32, .var "Q" false]], none) ∧
    substituteTypeVars bareTable 1 (.tuple [.tuple [.leaf .int32, .var "Q" false]])
        [("Q", makePack [.leaf .string])] none =
      some (.tuple [.tuple [.leaf .int32, makePack [.leaf .string]]], none) ∧
    substituteTypeVars bareTable 1 (.tuple [makeExpand (.tuple [.var "P" false, .var "Q" false])])
        [("P", makePack [.leaf .int32]), ("Q", makePack [.leaf .string])] none =
      some (.tuple [.tuple [.leaf .int32, .leaf .string]], none) ∧
    substituteTypeVars bareTable 1 (.tuple [makeExpand (.tuple [.var "P" false, .var "X" false])])
        [("X", .stream (makePack [.leaf .bool]))] none =
      some (.tuple [makeExpand (.tuple [.var "P" false, .stream (makePack [.leaf .bool])])], none) ∧
    substituteTypeVars bareTable 1
        (.tuple [makeExpand (.tuple [.var "P" false, .stream (makePack [.leaf .bool])])])
        [("P", makePack [.leaf .int32])] none =
      some (.tuple [.tuple [.leaf .int32, .stream (.leaf .bool)]], none) ∧
    substituteTypeVars bareTable 1 (.tuple [makeExpand (.tuple [.var "P" false, .var "X" false])])
        [("X", .stream (makePack [.leaf .bool])), ("P", makePack [.leaf .int32])] none =
      some (.tuple [.tuple [.leaf .int32, .stream (makePack [.leaf .bool])]], none) := by
  refine ⟨?_, ?_, ?_, ?_, ?_, ?_, ?_, ?_⟩ <;> decide +kernel

end Camel.Types
