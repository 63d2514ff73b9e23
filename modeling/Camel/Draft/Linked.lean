import Camel.Draft.Edits

/-! # Inputs and Users

    A draft is linked when its lists of users say the same as the inputs of its
    nodes: `u` is listed as a user of `n` in a slot exactly when `u` reads `n`
    there, and a node that is read is alive.

    Half way through an edit the lists and the inputs differ. `Tracks` says which
    relation the lists hold at such a point. Each step on the lists changes that
    relation by one pair, and the edit is done when the relation is again the one
    of the inputs.
-/

namespace Camel.Draft

open Lib Function List

/-! ## What the Lists Say -/

/-- The lists are valid and hold the relation `R slot n u`. -/
def Draft.Tracks (d : Draft) (R : DraftEdgeSlot → Ref → Ref → Prop) : Prop :=
  ∀ slot n, (d.users n slot).Valid ∧ ∀ u, u ∈ d.usersOf n slot ↔ R slot n u

/-- `u` reads `n`. -/
def Draft.Reads (d : Draft) (slot : DraftEdgeSlot) (n u : Ref) : Prop := n ∈ d.inputsOf u slot

structure Linked (d : Draft) : Prop where
  tracks : d.Tracks d.Reads
  live : ∀ slot n u, d.Reads slot n u → d.alive n = true

variable {d : Draft} {R : DraftEdgeSlot → Ref → Ref → Prop}

theorem Draft.Tracks.congr {R' : DraftEdgeSlot → Ref → Ref → Prop} (h : d.Tracks R)
    (hR : ∀ slot n u, R slot n u ↔ R' slot n u) : d.Tracks R' := by
  intro slot n
  refine ⟨(h slot n).1, fun u => ?_⟩
  rw [(h slot n).2 u]
  exact hR slot n u

/-- The input map with one slot of one node set. -/
def setAt (m : Ref → DraftEdgeSlot → List Ref) (id : Ref) (slot : DraftEdgeSlot) (xs : List Ref) :
    Ref → DraftEdgeSlot → List Ref :=
  update m id (update (m id) slot xs)

theorem setAt_self (m : Ref → DraftEdgeSlot → List Ref) (id : Ref) (slot : DraftEdgeSlot)
    (xs : List Ref) : setAt m id slot xs id slot = xs := by
  simp [setAt]

variable {id : Ref}

theorem setAt_of_ne_id {m : Ref → DraftEdgeSlot → List Ref} {u : Ref} (h : u ≠ id)
    (slot s : DraftEdgeSlot) (xs : List Ref) : setAt m id slot xs u s = m u s := by
  rw [setAt, update_of_ne h]

variable {slot : DraftEdgeSlot}

theorem setAt_of_ne_slot {m : Ref → DraftEdgeSlot → List Ref} {s : DraftEdgeSlot}
    (h : s ≠ slot) (id : Ref) (xs : List Ref) : setAt m id slot xs id s = m id s := by
  rw [setAt, update_self, update_of_ne h]

/-- Which entries an input map with one slot set has. -/
theorem mem_setAt (m : Ref → DraftEdgeSlot → List Ref) (id u n : Ref) (slot s : DraftEdgeSlot)
    (xs : List Ref) :
    n ∈ setAt m id slot xs u s ↔
      (n ∈ m u s ∧ ¬ (s = slot ∧ u = id)) ∨ (s = slot ∧ u = id ∧ n ∈ xs) := by
  by_cases hu : u = id
  · subst hu
    by_cases hs : s = slot
    · subst hs
      simp [setAt_self]
    · simp [setAt_of_ne_slot hs, hs]
  · simp [setAt_of_ne_id hu, hu]

/-! ## Reading Nodes Back -/

variable {n : DraftNode}

theorem lt_length_of_node (h : d.node id = some n) :
    id < d.nodesById.length := by
  by_contra hge
  rw [Draft.node, getElem?_eq_none (Nat.not_lt.1 hge)] at h
  cases h

theorem alive_of_node (h : d.node id = some n) :
    d.alive id = true := by
  rw [Draft.alive, h]
  rfl

theorem exists_node_of_alive (h : d.alive id = true) :
    ∃ n, d.node id = some n :=
  Option.isSome_iff_exists.1 h

theorem inputsOf_of_node (h : d.node id = some n)
    (slot : DraftEdgeSlot) : d.inputsOf id slot = n.inputs slot := by
  rw [Draft.inputsOf, h]

theorem inputsOf_of_not_alive (h : ¬ d.alive id = true)
    (slot : DraftEdgeSlot) : d.inputsOf id slot = [] := by
  have hnone : d.node id = none := by
    rw [Draft.alive] at h
    exact Option.not_isSome_iff_eq_none.1 h
  rw [Draft.inputsOf, hnone]

theorem alive_of_mem_inputsOf {n : Ref}
    (h : n ∈ d.inputsOf id slot) : d.alive id = true := by
  by_contra hdead
  rw [inputsOf_of_not_alive hdead] at h
  cases h

theorem payloadOf_of_node (h : d.node id = some n) :
    d.payloadOf id = n.payload := by
  rw [Draft.payloadOf, h]

variable {n₀ : DraftNode}

theorem node_replaceNodeStorage (h : d.node id = some n₀)
    (n : DraftNode) (k : Ref) :
    (d.replaceNodeStorage id n).node k = if k = id then some n else d.node k := by
  have hlt := lt_length_of_node h
  unfold Draft.node Draft.replaceNodeStorage
  by_cases hk : k = id
  · subst hk
    simp [hlt]
  · simp [hk, getElem?_set_ne (Ne.symm hk)]

theorem alive_replaceNodeStorage
    (h : d.node id = some n₀) (n : DraftNode) (k : Ref) :
    (d.replaceNodeStorage id n).alive k = d.alive k := by
  rw [Draft.alive, Draft.alive, node_replaceNodeStorage h]
  split
  · next hk => rw [hk, h]; rfl
  · rfl

theorem inputsOf_replaceNodeStorage
    (h : d.node id = some n₀) (n : DraftNode) :
    (d.replaceNodeStorage id n).inputsOf = update d.inputsOf id n.inputs := by
  funext k slot
  by_cases hk : k = id
  · subst hk
    rw [update_self, Draft.inputsOf, node_replaceNodeStorage h, if_pos rfl]
  · rw [update_of_ne hk, Draft.inputsOf, node_replaceNodeStorage h, if_neg hk,
      Draft.inputsOf]

/-! ## Changes That Touch No Edge -/

/-- A region lies in one that was made before it. -/
def RegionsBelow (regions : List GCRegion) : Prop :=
  ∀ i r, regions[i]? = some r → 0 < i → r.parent < i

/-- The two drafts have the same nodes with the same inputs, and the same lists. -/
structure SameEdges (d d' : Draft) : Prop where
  alive : ∀ k, d'.alive k = d.alive k
  inputs : d'.inputsOf = d.inputsOf
  users : d'.users = d.users
  below : RegionsBelow d.regions → RegionsBelow d'.regions

theorem SameEdges.refl (d : Draft) : SameEdges d d := ⟨fun _ => rfl, rfl, rfl, id⟩

theorem SameEdges.trans {d₁ d₂ d₃ : Draft} (h : SameEdges d₁ d₂) (h' : SameEdges d₂ d₃) :
    SameEdges d₁ d₃ where
  alive k := (h'.alive k).trans (h.alive k)
  inputs := h'.inputs.trans h.inputs
  users := h'.users.trans h.users
  below hb := h'.below (h.below hb)

theorem SameEdges.tracks {d' : Draft} (h : SameEdges d d')
    (ht : d.Tracks R) : d'.Tracks R := by
  intro slot n
  unfold Draft.usersOf
  rw [h.users]
  exact ht slot n

theorem SameEdges.linked {d' : Draft} (h : SameEdges d d') (hl : Linked d) : Linked d' where
  tracks := by
    apply (h.tracks hl.tracks).congr
    intro slot n u
    rw [Draft.Reads, Draft.Reads, h.inputs]
  live slot n u hr := by
    rw [Draft.Reads, h.inputs] at hr
    rw [h.alive]
    exact hl.live slot n u hr

/-- A node stored again with the inputs it has. -/
theorem sameEdges_replace (h : d.node id = some n₀)
    (hin : n.inputs = n₀.inputs) : SameEdges d (d.replaceNodeStorage id n) where
  alive := alive_replaceNodeStorage h n
  inputs := by
    rw [inputsOf_replaceNodeStorage h, hin]
    funext k slot
    by_cases hk : k = id
    · subst hk
      rw [update_self, inputsOf_of_node h]
    · rw [update_of_ne hk]
  users := rfl
  below hb := hb

theorem payloadOf_replace (h : d.node id = some n₀)
    (hp : n.payload = n₀.payload) (k : Ref) :
    (d.replaceNodeStorage id n).payloadOf k = d.payloadOf k := by
  by_cases hk : k = id
  · subst hk
    rw [Draft.payloadOf, node_replaceNodeStorage h, if_pos rfl, payloadOf_of_node h]
    exact hp
  · rw [Draft.payloadOf, node_replaceNodeStorage h, if_neg hk, Draft.payloadOf]

theorem inheritRegion_eq (d : Draft) (input user : Ref) :
    d.inheritRegion input user = d ∨
      ∃ n region, d.node user = some n ∧
        d.inheritRegion input user = d.replaceNodeStorage user { n with region := region } := by
  unfold Draft.inheritRegion
  split
  · exact .inl rfl
  · split
    · next reader read hreader _ =>
      split
      · exact .inl rfl
      · split
        · exact .inl rfl
        · simp only
          split
          · exact .inl rfl
          · split
            · exact .inr ⟨reader, _, hreader, rfl⟩
            · exact .inl rfl
    · exact .inl rfl

theorem sameEdges_inheritRegion (d : Draft) (input user : Ref) :
    SameEdges d (d.inheritRegion input user) := by
  rcases inheritRegion_eq d input user with h | ⟨n, region, hn, h⟩
  · rw [h]
    exact SameEdges.refl d
  · rw [h]
    exact sameEdges_replace hn rfl

theorem regions_inheritRegion (d : Draft) (input user : Ref) :
    (d.inheritRegion input user).regions = d.regions := by
  rcases inheritRegion_eq d input user with h | ⟨n, region, hn, h⟩
  · rw [h]
  · rw [h]
    rfl

theorem payloadOf_inheritRegion (d : Draft) (input user k : Ref) :
    (d.inheritRegion input user).payloadOf k = d.payloadOf k := by
  rcases inheritRegion_eq d input user with h | ⟨n, region, hn, h⟩
  · rw [h]
  · rw [h]
    apply payloadOf_replace hn
    rfl

/-! ## Steps on the Lists -/

/-- The two drafts have the same nodes, whatever their lists say. -/
structure SameNodes (d d' : Draft) : Prop where
  alive : ∀ k, d'.alive k = d.alive k
  inputs : d'.inputsOf = d.inputsOf
  payload : ∀ k, d'.payloadOf k = d.payloadOf k
  regions : d'.regions = d.regions

theorem SameNodes.refl (d : Draft) : SameNodes d d := ⟨fun _ => rfl, rfl, fun _ => rfl, rfl⟩

theorem SameNodes.trans {d₁ d₂ d₃ : Draft} (h : SameNodes d₁ d₂) (h' : SameNodes d₂ d₃) :
    SameNodes d₁ d₃ where
  alive k := (h'.alive k).trans (h.alive k)
  inputs := h'.inputs.trans h.inputs
  payload k := (h'.payload k).trans (h.payload k)
  regions := h'.regions.trans h.regions

theorem sameNodes_putUsers (d : Draft) (id : Ref) (slot : DraftEdgeSlot) (l : IndexedList Ref) :
    SameNodes d (d.putUsers id slot l) := ⟨fun _ => rfl, rfl, fun _ => rfl, rfl⟩

theorem sameNodes_removeUserRef (d : Draft) (id user : Ref) (slot : DraftEdgeSlot) :
    SameNodes d (d.removeUserRef id user slot) := by
  unfold Draft.removeUserRef
  split
  · exact sameNodes_putUsers ..
  · exact SameNodes.refl d

theorem sameNodes_appendUserRef (d : Draft) (id user : Ref) (slot : DraftEdgeSlot) :
    SameNodes d (d.appendUserRef id user slot) := by
  unfold Draft.appendUserRef
  split
  · have hregion := sameEdges_inheritRegion d id user
    have hsame : SameNodes d (d.inheritRegion id user) :=
      ⟨hregion.alive, hregion.inputs, payloadOf_inheritRegion d id user,
        regions_inheritRegion d id user⟩
    exact hsame.trans (sameNodes_putUsers ..)
  · exact SameNodes.refl d

theorem sameNodes_removeUserRefs (ids : List Ref) (user : Ref) (slot : DraftEdgeSlot) :
    ∀ d : Draft, SameNodes d (d.removeUserRefs ids user slot) := by
  induction ids with
  | nil => exact SameNodes.refl
  | cons id ids ih =>
    intro d
    exact (sameNodes_removeUserRef d id user slot).trans (ih _)

theorem sameNodes_appendUserRefs (ids : List Ref) (user : Ref) (slot : DraftEdgeSlot) :
    ∀ d : Draft, SameNodes d (d.appendUserRefs ids user slot) := by
  induction ids with
  | nil => exact SameNodes.refl
  | cons id ids ih =>
    intro d
    exact (sameNodes_appendUserRef d id user slot).trans (ih _)

/-- Putting one list in place changes what that list says and nothing else. -/
theorem tracks_putUsers {R' : DraftEdgeSlot → Ref → Ref → Prop} (h : d.Tracks R)
    {l : IndexedList Ref} (hl : l.Valid)
    (hmem : ∀ u, u ∈ l.items ↔ R' slot id u)
    (helse : ∀ s n u, ¬ (s = slot ∧ n = id) → (R s n u ↔ R' s n u)) :
    (d.putUsers id slot l).Tracks R' := by
  intro s n
  unfold Draft.usersOf Draft.putUsers
  simp only
  by_cases hn : n = id
  · subst hn
    rw [update_self]
    by_cases hs : s = slot
    · subst hs
      rw [update_self]
      exact ⟨hl, hmem⟩
    · rw [update_of_ne hs]
      refine ⟨(h s n).1, fun u => ?_⟩
      rw [← helse s n u (fun hc => hs hc.1)]
      exact (h s n).2 u
  · rw [update_of_ne hn]
    refine ⟨(h s n).1, fun u => ?_⟩
    rw [← helse s n u (fun hc => hn hc.2)]
    exact (h s n).2 u

theorem tracks_removeUserRef (h : d.Tracks R)
    (ha : d.alive id = true) (user : Ref) (slot : DraftEdgeSlot) :
    (d.removeUserRef id user slot).Tracks fun s n u =>
      R s n u ∧ ¬ (s = slot ∧ n = id ∧ u = user) := by
  rw [Draft.removeUserRef, if_pos ha]
  apply tracks_putUsers h ((h slot id).1.remove kIndexedUsers user)
  · intro u
    rw [IndexedList.mem_remove (h slot id).1]
    simp only [true_and]
    exact and_congr_left' ((h slot id).2 u)
  · intro s n u hne
    constructor
    · intro hr
      exact ⟨hr, fun hc => hne ⟨hc.1, hc.2.1⟩⟩
    · exact And.left

theorem tracks_appendUserRef (h : d.Tracks R)
    (ha : d.alive id = true) (user : Ref) (slot : DraftEdgeSlot) :
    (d.appendUserRef id user slot).Tracks fun s n u =>
      R s n u ∨ (s = slot ∧ n = id ∧ u = user) := by
  rw [Draft.appendUserRef, if_pos ha]
  have hregion := (sameEdges_inheritRegion d id user).tracks h
  apply tracks_putUsers hregion ((hregion slot id).1.add kIndexedUsers user)
  · intro u
    rw [IndexedList.mem_add (hregion slot id).1, or_comm]
    simp only [true_and]
    exact or_congr_left ((hregion slot id).2 u)
  · intro s n u hne
    constructor
    · exact .inl
    · rintro (hr | hc)
      · exact hr
      · exact absurd ⟨hc.1, hc.2.1⟩ hne

theorem tracks_removeUserRefs (user : Ref) (slot : DraftEdgeSlot) (ids : List Ref) :
    ∀ {d : Draft} {R : DraftEdgeSlot → Ref → Ref → Prop}, d.Tracks R →
      (∀ id ∈ ids, d.alive id = true) →
      (d.removeUserRefs ids user slot).Tracks fun s n u =>
        R s n u ∧ ¬ (s = slot ∧ u = user ∧ n ∈ ids) := by
  induction ids with
  | nil =>
    intro d R h _
    apply h.congr
    simp
  | cons id ids ih =>
    intro d R h ha
    have hone := tracks_removeUserRef h (ha id mem_cons_self) user slot
    have hrest := ih hone fun k hk => by
      rw [(sameNodes_removeUserRef d id user slot).alive]
      exact ha k (mem_cons_of_mem id hk)
    apply Draft.Tracks.congr hrest
    intro s n u
    simp only [mem_cons]
    tauto

theorem tracks_appendUserRefs (user : Ref) (slot : DraftEdgeSlot) (ids : List Ref) :
    ∀ {d : Draft} {R : DraftEdgeSlot → Ref → Ref → Prop}, d.Tracks R →
      (∀ id ∈ ids, d.alive id = true) →
      (d.appendUserRefs ids user slot).Tracks fun s n u =>
        R s n u ∨ (s = slot ∧ u = user ∧ n ∈ ids) := by
  induction ids with
  | nil =>
    intro d R h _
    apply h.congr
    simp
  | cons id ids ih =>
    intro d R h ha
    have hone := tracks_appendUserRef h (ha id mem_cons_self) user slot
    have hrest := ih hone fun k hk => by
      rw [(sameNodes_appendUserRef d id user slot).alive]
      exact ha k (mem_cons_of_mem id hk)
    apply Draft.Tracks.congr hrest
    intro s n u
    simp only [mem_cons]
    tauto

end Camel.Draft
