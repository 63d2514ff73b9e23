import Camel.Draft.Kept

/-! # Runs of Edits

    A draft starts empty and is edited one edit after the other, each on nodes
    that are alive when it starts. In every draft that is reached so, the lists
    of users and the inputs say the same.
-/

namespace Camel.Draft

open Lib List Option

/-! ## The Edits -/

/-- The draft with one more region. -/
def Draft.pushRegion (d : Draft) (region : GCRegion) : Draft :=
  { d with regions := d.regions ++ [region] }

def addRegion (kind : GCRegionKind) (parent : Nat) (owner : Ref) : DraftM Unit := do
  let d ← get
  if parent < d.regions.length then
    set (d.pushRegion { kind := kind, parent := parent, owner := owner })
  else throw (.invariant "A region is made in a region that is not there.")

def setNodeRegion (id : Ref) (region : Nat) : DraftM Unit := do
  let d ← get
  match d.node id with
  | none => throw (.invariant "Cannot put a missing draft node in a region.")
  | some n =>
    if region = 0 ∨ region < d.regions.length then
      set (d.replaceNodeStorage id { n with region := region })
    else throw (.invariant "A node is put in a region that is not there.")

/-- The edits of the edges, and the region edits the others look at. -/
inductive Edit where
  | addNode (init : DraftNodeInit)
  | setNormInputs (id : Ref) (inputs : List Ref)
  | setWithInputs (id : Ref) (inputs : List Ref)
  | setCtrlInputs (id : Ref) (inputs : List Ref)
  | setOrderInputs (id : Ref) (inputs : List Ref)
  | setSyncInputs (id : Ref) (inputs : List Ref)
  | setPorts (id : Ref) (ports withPorts : List Ref)
  | replaceAllNormUses (oldId newId : Ref)
  | replaceAllWithUses (oldId newId : Ref)
  | replaceAllCtrlUses (oldId newId : Ref)
  | replaceAllOrderUses (oldId newId : Ref)
  | replaceAllValueUses (oldId newId : Ref)
  | closeChainOver (id : Ref)
  | handChainPlaceTo (id tail : Ref) (how : PlaceHandover)
  | takeStatementPlace (oldId newId : Ref)
  | spliceOrderEdgesOver (id : Ref)
  | eraseNode (id : Ref)
  | addRegion (kind : GCRegionKind) (parent : Nat) (owner : Ref)
  | setNodeRegion (id : Ref) (region : Nat)
  | setInsertRegion (region : Nat)

namespace Edit

def perform : Edit → DraftM Unit
  | addNode init => do
    let _ ← Draft.addNode init
    pure ()
  | setNormInputs id inputs => Draft.setNormInputs id inputs
  | setWithInputs id inputs => Draft.setWithInputs id inputs
  | setCtrlInputs id inputs => Draft.setCtrlInputs id inputs
  | setOrderInputs id inputs => Draft.setOrderInputs id inputs
  | setSyncInputs id inputs => Draft.setSyncInputs id inputs
  | setPorts id ports withPorts => Draft.setPorts id ports withPorts
  | replaceAllNormUses oldId newId => Draft.replaceAllNormUses oldId newId
  | replaceAllWithUses oldId newId => Draft.replaceAllWithUses oldId newId
  | replaceAllCtrlUses oldId newId => Draft.replaceAllCtrlUses oldId newId
  | replaceAllOrderUses oldId newId => Draft.replaceAllOrderUses oldId newId
  | replaceAllValueUses oldId newId => Draft.replaceAllValueUses oldId newId
  | closeChainOver id => Draft.closeChainOver id
  | handChainPlaceTo id tail how => Draft.handChainPlaceTo id tail how
  | takeStatementPlace oldId newId => Draft.takeStatementPlace oldId newId
  | spliceOrderEdgesOver id => Draft.spliceOrderEdgesOver id
  | eraseNode id => Draft.eraseNode id
  | addRegion kind parent owner => Draft.addRegion kind parent owner
  | setNodeRegion id region => Draft.setNodeRegion id region
  | setInsertRegion region => modify fun d => { d with insertRegion := region }

/-- The nodes an edit names. -/
def names : Edit → List Ref
  | addNode init => allSlots.flatMap init.inputs
  | setNormInputs id inputs | setWithInputs id inputs | setCtrlInputs id inputs
  | setOrderInputs id inputs | setSyncInputs id inputs => id :: inputs
  | setPorts id ports withPorts => id :: (ports ++ withPorts)
  | replaceAllNormUses oldId newId | replaceAllWithUses oldId newId
  | replaceAllCtrlUses oldId newId | replaceAllOrderUses oldId newId
  | replaceAllValueUses oldId newId | takeStatementPlace oldId newId => [oldId, newId]
  | closeChainOver id | spliceOrderEdgesOver id | eraseNode id | setNodeRegion id _ => [id]
  | handChainPlaceTo id tail _ => [id, tail]
  | addRegion _ _ _ | setInsertRegion _ => []

/-- The edit names live nodes only. -/
def OnLive (e : Edit) (d : Draft) : Prop := ∀ id ∈ e.names, d.alive id = true

instance (e : Edit) (d : Draft) : Decidable (e.OnLive d) :=
  inferInstanceAs (Decidable (∀ id ∈ e.names, d.alive id = true))

/-- The draft after an edit, also after one that has failed half way. -/
def after (e : Edit) (d : Draft) : Draft := finalState e.perform d

end Edit

/-- The drafts that edits of live nodes make from an empty one. -/
inductive Reachable : Draft → Prop where
  | empty : Reachable {}
  | step {d : Draft} {e : Edit} (h : Reachable d) (hlive : e.OnLive d) : Reachable (e.after d)

/-! ## Replacing Uses -/

section
variable {L : Ref → Prop}

variable {newId : Ref}

theorem replaceUses_upholds (slot : DraftEdgeSlot) (oldId : Ref) (hnew : L newId) :
    Keeps L AnyShape (replaceUses slot oldId newId) := by
  apply upholds_modify
  intro d hd
  obtain ⟨hvalid, hmem⟩ := hd.linked.tracks slot oldId
  obtain ⟨hl, ha, hregions⟩ := linked_replaceUsesInList (d.usersOf oldId slot) hd.linked hvalid.nodup
    (fun u hu => (hmem u).1 hu) ((hd.live newId).2 hnew)
  constructor
  · exact hl
  · intro k
    rw [ha]
    exact hd.live k
  · rw [hregions]
    exact hd.below
  · trivial

theorem replaceValueStructuralRefs_upholds (oldId newId : Ref) :
    Keeps L AnyShape (replaceValueStructuralRefs oldId newId) :=
  upholds_modify fun _ hd => hd.sameEdges ⟨fun _ => rfl, rfl, rfl, id⟩

theorem replacePayloadRef_inputs (n : DraftNode) (h : 8 ≤ n.payload.length) (oldId newId : Ref) :
    (replacePayloadRef n h oldId newId).inputs = n.inputs := by
  unfold replacePayloadRef
  split <;> rfl

theorem replaceBrchJoin_upholds (oldId newId id : Ref) :
    Keeps L AnyShape (replaceBrchJoin oldId newId id) := by
  apply upholds_get.bind
  intro d hd
  split
  · exact upholds_pure trivial
  · next n hn =>
    split
    · exact upholds_pure trivial
    · split
      · apply upholds_set
        exact hd.sameEdges (sameEdges_replace hn (replacePayloadRef_inputs ..))
      · exact upholds_throw _

theorem replaceJoinBrch_upholds (oldId newId id : Ref) :
    Keeps L AnyShape (replaceJoinBrch oldId newId id) := by
  apply upholds_get.bind
  intro d hd
  split
  · exact upholds_pure trivial
  · next n hn =>
    split
    · exact upholds_pure trivial
    · split
      · apply upholds_set
        exact hd.sameEdges (sameEdges_replace hn (replacePayloadRef_inputs ..))
      · exact upholds_pure trivial

theorem replaceCtrlStructuralRefs_upholds (oldId newId : Ref) :
    Keeps L AnyShape (replaceCtrlStructuralRefs oldId newId) := by
  have hends : Keeps L AnyShape (modify fun d => { d with
      entry := replaceRef oldId newId d.entry
      exit := replaceRef oldId newId d.exit } : DraftM Unit) :=
    upholds_modify fun _ hd => hd.sameEdges ⟨fun _ => rfl, rfl, rfl, id⟩
  apply hends.bind
  intro _ _
  apply upholds_get.bind
  intro d _
  apply (upholds_forM fun id _ => replaceBrchJoin_upholds oldId newId id).bind
  intro _ _
  exact upholds_forM fun id _ => replaceJoinBrch_upholds oldId newId id

section
variable (oldId : Ref) (hnew : L newId)
include oldId hnew

theorem replaceAllNormUses_upholds :
    Keeps L AnyShape (replaceAllNormUses oldId newId) := by
  apply (replaceUses_upholds .normalPorts oldId hnew).bind
  intro _ _
  exact replaceValueStructuralRefs_upholds oldId newId

theorem replaceAllWithUses_upholds :
    Keeps L AnyShape (replaceAllWithUses oldId newId) := by
  apply (replaceUses_upholds .contextPorts oldId hnew).bind
  intro _ _
  exact replaceValueStructuralRefs_upholds oldId newId

theorem replaceAllCtrlUses_upholds :
    Keeps L AnyShape (replaceAllCtrlUses oldId newId) := by
  apply (replaceUses_upholds .ctrl oldId hnew).bind
  intro _ _
  exact replaceCtrlStructuralRefs_upholds oldId newId

theorem replaceAllValueUses_upholds :
    Keeps L AnyShape (replaceAllValueUses oldId newId) := by
  apply (replaceAllNormUses_upholds oldId hnew).bind
  intro _ _
  exact replaceAllWithUses_upholds oldId hnew

end

theorem setNodeRegion_upholds (id : Ref) (region : Nat) :
    Keeps L AnyShape (setNodeRegion id region) := by
  apply upholds_get.bind
  intro d hd
  split
  · exact upholds_throw _
  · next n hn =>
    apply upholds_ite
    · intro _
      exact upholds_set (hd.sameEdges (sameEdges_replace hn rfl))
    · intro _
      exact upholds_throw _

theorem regionsBelow_concat {regions : List GCRegion} (h : RegionsBelow regions) {r : GCRegion}
    (hr : r.parent < regions.length) : RegionsBelow (regions ++ [r]) := by
  intro i r' hi hpos
  by_cases hlt : i < regions.length
  · rw [getElem?_append_left hlt] at hi
    exact h i r' hi hpos
  · have hlen := (List.getElem?_eq_some_iff.1 hi).1
    rw [length_append, length_singleton] at hlen
    obtain rfl : i = regions.length := by omega
    rw [getElem?_concat_length] at hi
    cases hi
    exact hr

theorem addRegion_upholds (kind : GCRegionKind) (parent : Nat) (owner : Ref) :
    Keeps L AnyShape (addRegion kind parent owner) := by
  apply upholds_get.bind
  intro d hd
  apply upholds_ite
  · intro hparent
    apply upholds_set
    exact hd.sameEdges ⟨fun _ => rfl, rfl, rfl, fun hb => regionsBelow_concat hb hparent⟩
  · intro _
    exact upholds_throw _

end

/-! ## Adding and Erasing -/

/-- What holds between two edits. -/
structure Sound (d : Draft) : Prop where
  linked : Linked d
  below : RegionsBelow d.regions

variable {d : Draft}

/-- A sound draft satisfies the invariant for the nodes that are alive in it. -/
theorem Sound.inv (h : Sound d) {F : (Ref → DraftEdgeSlot → List Ref) → Prop}
    (hF : F d.inputsOf) : Inv (fun k => d.alive k = true) F d where
  linked := h.linked
  live _ := Iff.rfl
  below := h.below
  shape := hF

theorem Inv.sound {L : Ref → Prop} {F : (Ref → DraftEdgeSlot → List Ref) → Prop}
    (h : Inv L F d) : Sound d := ⟨h.linked, h.below⟩

theorem around_self (d : Draft) (id : Ref) : Around d id d.inputsOf :=
  ⟨rfl, fun _ _ h => h⟩

theorem regions_addNode (d : Draft) (init : DraftNodeInit) (id : Ref) :
    ((d.pushNode init).linkNew id init).regions = d.regions := by
  rw [(sameNodes_linkNew ..).regions]
  unfold Draft.pushNode
  simp only [noteNodeKind_regions]

theorem sound_addNode (h : Sound d) {init : DraftNodeInit}
    (hin : ∀ slot, ∀ x ∈ init.inputs slot, d.alive x = true) :
    Sound ((Edit.addNode init).after d) := by
  have heq : (Edit.addNode init).after d =
      if d.nodesById.length < kInvalidNodeRef then
        (d.pushNode init).linkNew d.nodesById.length init
      else d := by
    show finalState (do let _ ← addNode init; pure ()) d = _
    unfold addNode
    split <;> simp [*] <;> rfl
  rw [heq]
  split
  · refine ⟨linked_addNode h.linked hin, ?_⟩
    rw [regions_addNode]
    exact h.below
  · exact h

/-- A region that ends leaves those inside it to the one around it, which is further down. -/
theorem regionsBelow_dissolve {regions : List GCRegion} (h : RegionsBelow regions) {r : Nat}
    (hr : 0 < r) {region : GCRegion} (hregion : regions[r]? = some region) :
    RegionsBelow ((regions.mapIdx fun other rec =>
      if 1 ≤ other ∧ rec.kind ≠ .dead ∧ rec.parent = r then { rec with parent := region.parent }
      else rec).modify r fun rec =>
        { rec with kind := .dead, owner := kInvalidNodeRef, result := kInvalidNodeRef }) := by
  have haround := h r region hregion hr
  intro i r' hi hpos
  rw [getElem?_modify, getElem?_mapIdx] at hi
  cases hrec : regions[i]? with
  | none => simp [hrec] at hi
  | some rec =>
    have hparent := h i rec hrec hpos
    simp only [hrec, map_some, Option.map_eq_map, some.injEq] at hi
    subst hi
    split
    · split
      · next hc =>
        show region.parent < i
        rw [hc.2.2] at hparent
        omega
      · exact hparent
    · split
      · next hc =>
        show region.parent < i
        rw [hc.2.2] at hparent
        omega
      · exact hparent

theorem sameEdges_dissolveRegion (id : Ref) (d : Draft) {r : Nat} (hr : 0 < r) :
    SameEdges d (d.dissolveRegion id r) := by
  unfold Draft.dissolveRegion
  split
  · next region hregion =>
    split
    · have hnode : ∀ k, ((d.nodesById.map fun held => held.map fun n =>
          if n.region = r then { n with region := region.parent } else n)[k]?).join =
          (d.node k).map fun n =>
            if n.region = r then { n with region := region.parent } else n := by
        intro k
        rw [getElem?_map, Draft.node]
        cases d.nodesById[k]? <;> rfl
      constructor
      · intro k
        unfold Draft.alive
        rw [show ∀ d' : Draft, d'.node k = (d'.nodesById[k]?).join from fun _ => rfl]
        simp only [hnode, isSome_map]
      · funext k slot
        unfold Draft.inputsOf
        rw [show ∀ d' : Draft, d'.node k = (d'.nodesById[k]?).join from fun _ => rfl]
        simp only [hnode]
        cases d.node k with
        | none => rfl
        | some n =>
          simp only [map_some]
          split <;> rfl
      · rfl
      · intro hb
        exact regionsBelow_dissolve hb hr hregion
    · exact SameEdges.refl d
  · exact SameEdges.refl d

theorem sameEdges_dissolveRegionsOf (d : Draft) (id : Ref) :
    SameEdges d (d.dissolveRegionsOf id) := by
  have hfold : ∀ (rs : List Nat) (d : Draft), (∀ r ∈ rs, 0 < r) →
      SameEdges d (rs.foldl (Draft.dissolveRegion id) d) := by
    intro rs
    induction rs with
    | nil =>
      intro d _
      exact SameEdges.refl d
    | cons r rs ih =>
      intro d hpos
      apply (sameEdges_dissolveRegion id d (hpos r mem_cons_self)).trans
      exact ih _ fun r' hr' => hpos r' (mem_cons_of_mem r hr')
  apply hfold
  intro r hr
  exact (List.mem_range'_1.1 hr).1

/-- Erasing from the draft the node's readers are read in. -/
theorem sound_eraseFrom (h : Sound d) {id : Ref} (halive : d.alive id = true) :
    Sound (finalState (do
      closeChainOver id
      spliceOrderEdgesOver id
      modify fun now =>
        ((now.dropInputs id (d.inputsOf id)).dropUsers id (d.usersOf id)).dropNode id) d) := by
  have hclose : Upholds (Inv (fun k => d.alive k = true) (Around d id)) (closeChainOver id)
      fun _ => True := closeChainOver_upholds (closedOver_around d id)
  have hsplice : Upholds (Inv (fun k => d.alive k = true) (Around d id)) (spliceOrderEdgesOver id)
      fun _ => True := spliceOrderEdgesOver_upholds d id
  apply hclose.finalState_bind (fun _ hs => hs.sound) _ (h.inv (around_self d id))
  intro _ s _ hs
  apply hsplice.finalState_bind (fun _ hs => hs.sound) _ hs
  intro _ s _ hs
  -- the node's inputs are as they were, and its readers are among those read at the start
  have ha : s.alive id = true := (hs.live id).2 halive
  show Sound (((s.dropInputs id (d.inputsOf id)).dropUsers id (d.usersOf id)).dropNode id)
  constructor
  · apply linked_drop hs.linked ha hs.shape.1.symm
    intro slot u hr
    exact ((h.linked.tracks slot id).2 u).2 (hs.shape.2 u slot hr)
  · rw [regions_drop hs.linked ha hs.shape.1.symm]
    exact hs.below

theorem sound_eraseNode (h : Sound d) (id : Ref) :
    Sound ((Edit.eraseNode id).after d) := by
  show Sound (finalState (eraseNode id) d)
  cases hn : d.node id with
  | none =>
    have heq : finalState (eraseNode id) d = d := by
      simp [eraseNode, Draft.requireNode, hn]
    rw [heq]
    exact h
  | some n =>
    have hsame : SameEdges d
        (if n.kind = .brch ∨ n.kind = .loop then d.dissolveRegionsOf id else d) := by
      split
      · exact sameEdges_dissolveRegionsOf d id
      · exact SameEdges.refl d
    generalize hd' : (if n.kind = .brch ∨ n.kind = .loop then d.dissolveRegionsOf id else d) = d'
      at hsame
    have heq : finalState (eraseNode id) d = finalState (do
        closeChainOver id
        spliceOrderEdgesOver id
        modify fun now =>
          ((now.dropInputs id (d'.inputsOf id)).dropUsers id (d'.usersOf id)).dropNode id) d' := by
      simp only [eraseNode, Draft.requireNode, hn, finalState_get_bind, finalState_ok_bind,
        finalState_modify_bind, hd']
    rw [heq]
    apply sound_eraseFrom ⟨hsame.linked h.linked, hsame.below h.below⟩
    exact (hsame.alive id).trans (alive_of_node hn)

/-! ## Every Reachable Draft -/

theorem sound_empty : Sound {} where
  linked := by
    constructor
    · intro slot n
      refine ⟨IndexedList.valid_empty, fun u => ?_⟩
      rw [Draft.Reads, inputsOf_of_not_alive (by simp [Draft.alive, Draft.node])]
      constructor
      · rintro ⟨⟩
      · rintro ⟨⟩
    · intro slot n u hr
      rw [Draft.Reads, inputsOf_of_not_alive (by simp [Draft.alive, Draft.node])] at hr
      cases hr
  below := by
    intro i r hi hpos
    obtain ⟨k, rfl⟩ : ∃ k, i = k + 1 := ⟨i - 1, by omega⟩
    simp at hi

/-- One edit of live nodes: the step of the induction over a run. -/
theorem Sound.after (h : Sound d) {e : Edit} (hlive : e.OnLive d) :
    Sound (e.after d) := by
  have hinv := h.inv (show AnyShape d.inputsOf from trivial)
  -- every edit but adding and erasing keeps the set of live nodes
  have keeps : ∀ {m : DraftM Unit}, e.perform = m →
      Upholds (Inv (fun k => d.alive k = true) AnyShape) m (fun _ => True) →
      Sound (e.after d) := by
    intro m hm hup
    rw [Edit.after, hm]
    exact (hup.finalState hinv).sound
  cases e with
  | addNode init =>
    apply sound_addNode h
    intro slot x hx
    apply hlive
    exact mem_flatMap.2 ⟨slot, mem_allSlots slot, hx⟩
  | setNormInputs id inputs =>
    apply keeps rfl
    exact setNormInputs_upholds (fun x hx => hlive x (mem_cons_of_mem id hx))
      (anyShape_closed _ _ _)
  | setWithInputs id inputs =>
    apply keeps rfl
    exact setWithInputs_upholds (fun x hx => hlive x (mem_cons_of_mem id hx))
      (anyShape_closed _ _ _)
  | setCtrlInputs id inputs =>
    apply keeps rfl
    exact setCtrlInputs_upholds (fun x hx => hlive x (mem_cons_of_mem id hx))
      (anyShape_closed _ _ _)
  | setOrderInputs id inputs =>
    apply keeps rfl
    exact setOrderInputs_upholds (fun x hx => hlive x (mem_cons_of_mem id hx))
      (anyShape_closed _ _ _)
  | setSyncInputs id inputs =>
    apply keeps rfl
    exact setSyncInputs_upholds (fun x hx => hlive x (mem_cons_of_mem id hx))
      (anyShape_closed _ _ _)
  | setPorts id ports withPorts =>
    apply keeps rfl
    apply setPorts_upholds _ _ fun slot xs => anyShape_closed _ _ _
    · intro x hx
      exact hlive x (mem_cons_of_mem id (mem_append_left withPorts hx))
    · intro x hx
      exact hlive x (mem_cons_of_mem id (mem_append_right ports hx))
  | replaceAllNormUses oldId newId =>
    apply keeps rfl
    exact replaceAllNormUses_upholds oldId (hlive newId (by simp [Edit.names]))
  | replaceAllWithUses oldId newId =>
    apply keeps rfl
    exact replaceAllWithUses_upholds oldId (hlive newId (by simp [Edit.names]))
  | replaceAllCtrlUses oldId newId =>
    apply keeps rfl
    exact replaceAllCtrlUses_upholds oldId (hlive newId (by simp [Edit.names]))
  | replaceAllOrderUses oldId newId =>
    apply keeps rfl
    exact replaceUses_upholds .order oldId (hlive newId (by simp [Edit.names]))
  | replaceAllValueUses oldId newId =>
    apply keeps rfl
    exact replaceAllValueUses_upholds oldId (hlive newId (by simp [Edit.names]))
  | closeChainOver id =>
    have hup : Upholds (Inv (fun k => d.alive k = true) (Around d id)) (closeChainOver id)
        fun _ => True := closeChainOver_upholds (closedOver_around d id)
    exact (hup.finalState (h.inv (around_self d id))).sound
  | handChainPlaceTo id tail how =>
    apply keeps rfl
    exact handChainPlaceTo_upholds id (hlive tail (by simp [Edit.names])) how
  | takeStatementPlace oldId newId =>
    apply keeps rfl
    exact takeStatementPlace_upholds oldId (hlive newId (by simp [Edit.names]))
  | spliceOrderEdgesOver id =>
    have hup : Upholds (Inv (fun k => d.alive k = true) (Around d id)) (spliceOrderEdgesOver id)
        fun _ => True := spliceOrderEdgesOver_upholds d id
    exact (hup.finalState (h.inv (around_self d id))).sound
  | eraseNode id => exact sound_eraseNode h id
  | addRegion kind parent owner =>
    apply keeps rfl
    exact addRegion_upholds kind parent owner
  | setNodeRegion id region =>
    apply keeps rfl
    exact setNodeRegion_upholds id region
  | setInsertRegion region =>
    apply keeps rfl
    exact upholds_modify fun _ hd => hd.sameEdges ⟨fun _ => rfl, rfl, rfl, fun hb => hb⟩

theorem Reachable.sound (h : Reachable d) : Sound d := by
  induction h with
  | empty => exact sound_empty
  | step _ hlive ih => exact ih.after hlive

/-! ## Walks Over Regions

    The walks from a region to the ones around it are bounded by the region's
    number. In a reachable draft that is enough: another turn changes nothing. -/

section
variable {regions : List GCRegion}

theorem controlOf_succ (h : RegionsBelow regions) (fuel : Nat) :
    ∀ r, r ≤ fuel → Draft.controlOf regions (fuel + 1) r = Draft.controlOf regions fuel r := by
  induction fuel with
  | zero =>
    intro r hr
    obtain rfl : r = 0 := by omega
    unfold Draft.controlOf
    split
    · rw [if_neg (by simp)]
    · rfl
  | succ fuel ih =>
    intro r hr
    rw [Draft.controlOf, Draft.controlOf]
    split
    · next rec hrec =>
      split
      · next hc =>
        have := h r rec hrec (pos_of_ne_zero hc.1)
        exact ih rec.parent (by omega)
      · rfl
    · rfl

end

/-! ## The Result -/

/-- The whole-list edit of a slot (`GraphDraft::setInputs`). -/
def setInputs (slot : DraftEdgeSlot) (id : Ref) (inputs : List Ref) : Edit :=
  match slot with
  | .normalPorts => .setNormInputs id inputs
  | .contextPorts => .setWithInputs id inputs
  | .ctrl => .setCtrlInputs id inputs
  | .order => .setOrderInputs id inputs
  | .sync => .setSyncInputs id inputs

/-- A whole-list edit refuses, or writes its one slot of its one node. -/
theorem after_setInputs {id : Ref} {n : DraftNode} (hn : d.node id = some n)
    (slot : DraftEdgeSlot) (inputs : List Ref) :
    (setInputs slot id inputs).after d = d ∨
      (setInputs slot id inputs).after d = d.setSlotInputs id n slot inputs := by
  have hrequire : ∀ what, d.requireNode id what = .ok n := by
    intro what
    rw [Draft.requireNode, hn]
  unfold setInputs Edit.after Edit.perform
  cases slot with
  | normalPorts =>
    right
    simp [setNormInputs, hrequire]
  | contextPorts =>
    right
    simp [setWithInputs, hrequire]
  | ctrl =>
    right
    simp [setCtrlInputs, hrequire]
  | order =>
    by_cases hself : id ∈ inputs
    · left
      simp [setOrderInputs, hrequire, hself]
    · right
      simp [setOrderInputs, hrequire, hself]
  | sync =>
    by_cases hself : id ∈ inputs
    · left
      simp [setSyncInputs, hrequire, hself]
    · by_cases hlen : 1 < inputs.length
      · left
        simp [setSyncInputs, hrequire, hself, hlen]
      · right
        simp [setSyncInputs, hrequire, hself, hlen]

/-- In every draft that edits of live nodes reach from an empty one, and for every slot: `u` is
    listed as a user of `n` exactly when it reads `n`, both being alive, and it is listed once;
    an index names each user's place; no input is dead. And a whole-list edit keeps the payload
    and the other slots of its node. -/
theorem users_mirror_inputs {d : Draft} (h : Reachable d) :
    (∀ slot n u, u ∈ d.usersOf n slot ↔
      n ∈ d.inputsOf u slot ∧ d.alive n = true ∧ d.alive u = true) ∧
    (∀ slot n, (d.usersOf n slot).Nodup) ∧
    (∀ slot n places, (d.users n slot).places = some places →
      ∀ u i, places u = some i ↔ (d.usersOf n slot)[i]? = some u) ∧
    (∀ slot n u, n ∈ d.inputsOf u slot → d.alive n = true) ∧
    ∀ slot id inputs, (setInputs slot id inputs).OnLive d →
      ((setInputs slot id inputs).after d).payloadOf id = d.payloadOf id ∧
      ∀ other, other ≠ slot →
        ((setInputs slot id inputs).after d).inputsOf id other = d.inputsOf id other := by
  have hl := h.sound.linked
  refine ⟨fun slot n u => ?_, fun slot n => (hl.tracks slot n).1.nodup,
    fun slot n => (hl.tracks slot n).1.exact, fun slot n u hr => hl.live slot n u hr,
    fun slot id inputs hlive => ?_⟩
  · constructor
    · intro hu
      have hr := ((hl.tracks slot n).2 u).1 hu
      exact ⟨hr, hl.live slot n u hr, alive_of_mem_inputsOf hr⟩
    · intro hr
      exact ((hl.tracks slot n).2 u).2 hr.1
  · have hid : d.alive id = true := by
      apply hlive
      cases slot <;> exact mem_cons_self
    obtain ⟨n, hn⟩ := exists_node_of_alive hid
    rcases after_setInputs hn slot inputs with heq | heq
    · rw [heq]
      exact ⟨rfl, fun _ _ => rfl⟩
    · have hb := becomes_setSlotInputs hn slot inputs
      rw [heq]
      refine ⟨hb.payload id, fun other hother => ?_⟩
      rw [hb.inputs, setAt_of_ne_slot hother]

/-- The draft after some edits. -/
def Edit.run (edits : List Edit) (d : Draft) : Draft := edits.foldl (fun d e => e.after d) d

/-- Each edit names nodes that are alive when its turn comes. -/
def Edit.AllLive : List Edit → Draft → Prop
  | [], _ => True
  | e :: edits, d => e.OnLive d ∧ Edit.AllLive edits (e.after d)

instance Edit.decidableAllLive : (edits : List Edit) → (d : Draft) →
    Decidable (Edit.AllLive edits d)
  | [], _ => inferInstanceAs (Decidable True)
  | e :: edits, d =>
    have := Edit.decidableAllLive edits (e.after d)
    inferInstanceAs (Decidable (e.OnLive d ∧ Edit.AllLive edits (e.after d)))

theorem Reachable.run {edits : List Edit} :
    ∀ {d : Draft}, Reachable d → Edit.AllLive edits d → Reachable (Edit.run edits d) := by
  induction edits with
  | nil =>
    intro d h _
    exact h
  | cons e edits ih =>
    intro d h hlive
    exact ih (h.step hlive.1) hlive.2

/-- A node that reads another twice. -/
def twiceRead : List Edit :=
  [.addNode { kind := .data },
    .addNode { kind := .oper, inputs := fun slot => if slot = .normalPorts then [0, 0] else [] }]

theorem reachable_twiceRead : Reachable (Edit.run twiceRead {}) :=
  Reachable.empty.run (by decide)

theorem twiceRead_mirrors :
    (Edit.run twiceRead {}).usersOf 0 .normalPorts = [1] ∧
      (∀ u, u ∈ (Edit.run twiceRead {}).usersOf 0 .normalPorts ↔
        0 ∈ (Edit.run twiceRead {}).inputsOf u .normalPorts ∧
          (Edit.run twiceRead {}).alive 0 = true ∧ (Edit.run twiceRead {}).alive u = true) ∧
      ((setInputs .ctrl 1 [0]).after (Edit.run twiceRead {})).inputsOf 1 .normalPorts =
        (Edit.run twiceRead {}).inputsOf 1 .normalPorts := by
  obtain ⟨hmem, -, -, -, hset⟩ := users_mirror_inputs reachable_twiceRead
  refine ⟨by decide, fun u => hmem .normalPorts 0 u, ?_⟩
  exact (hset .ctrl 1 [0] (by decide)).2 .normalPorts (by decide)

end Camel.Draft
