import Camel.Draft.Erase

/-! # Edits Keep a Draft Linked

    Every edit but adding and erasing a node leaves the same nodes alive. So with
    the set of live nodes fixed, what an edit has read from the draft at one point
    still holds at the next, and an edit is checked one write after the other.

    The invariant has a parameter `F`, a property of the input map that the edit
    keeps as well. Erasing a node uses it: while the chain closes over a node, the
    node's own inputs stay and nobody new reads it.
-/

namespace Camel.Draft

open Lib List

/-! ## The Invariant -/

/-- The draft is linked, its regions are in order, the nodes in `L` are the live ones, and the
    inputs satisfy `F`. -/
structure Inv (L : Ref → Prop) (F : (Ref → DraftEdgeSlot → List Ref) → Prop) (d : Draft) : Prop where
  linked : Linked d
  live : ∀ k, d.alive k = true ↔ L k
  below : RegionsBelow d.regions
  shape : F d.inputsOf

/-- An edit that keeps it. -/
abbrev Keeps {α : Type} (L : Ref → Prop) (F : (Ref → DraftEdgeSlot → List Ref) → Prop) (m : DraftM α) :
    Prop := Upholds (Inv L F) m fun _ => True

section
variable {L : Ref → Prop} {F : (Ref → DraftEdgeSlot → List Ref) → Prop}

variable {d : Draft} {slot : DraftEdgeSlot}

theorem Inv.input (h : Inv L F d) {u n : Ref}
    (hr : n ∈ d.inputsOf u slot) : L n :=
  (h.live n).1 (h.linked.live slot n u hr)

theorem Inv.sameEdges {d' : Draft} (h : Inv L F d) (hs : SameEdges d d') : Inv L F d' where
  linked := hs.linked h.linked
  live k := by
    rw [hs.alive]
    exact h.live k
  below := hs.below h.below
  shape := by
    rw [hs.inputs]
    exact h.shape

theorem Inv.becomes {d' : Draft} (h : Inv L F d) {m : Ref → DraftEdgeSlot → List Ref}
    (hb : Becomes d d' m) (hl : Linked d') (hF : F m) : Inv L F d' where
  linked := hl
  live k := by
    rw [hb.alive]
    exact h.live k
  below := by
    rw [hb.regions]
    exact h.below
  shape := by
    rw [hb.inputs]
    exact hF

/-! ## Reading -/

variable {id : Ref}

theorem node_of_requireNode {what : String} {n : DraftNode}
    (h : d.requireNode id what = .ok n) : d.node id = some n := by
  unfold Draft.requireNode at h
  split at h
  · next hn =>
    cases h
    exact hn
  · cases h

theorem nodeRegion_upholds (id : Ref) : Keeps L F (nodeRegion id) := by
  apply upholds_get.bind
  intro d _
  split
  · exact upholds_pure trivial
  · exact upholds_throw _

theorem statementRegionOf_upholds (id : Ref) :
    Keeps L F (statementRegionOf id) := by
  apply (nodeRegion_upholds id).bind
  intro region _
  apply upholds_get.bind
  intro d _
  apply (upholds_ofExcept _).weaken
  intro _ _
  trivial

theorem sameSyncBlock_upholds (a b : Ref) :
    Keeps L F (sameSyncBlock a b) := by
  apply (statementRegionOf_upholds a).bind
  intro ra _
  apply (statementRegionOf_upholds b).bind
  intro rb _
  exact upholds_pure trivial

theorem sameRegion_upholds (a b : Ref) : Keeps L F (sameRegion a b) := by
  apply (nodeRegion_upholds a).bind
  intro ra _
  apply (nodeRegion_upholds b).bind
  intro rb _
  exact upholds_pure trivial

/-! ## Writing -/

variable {inputs : List Ref}

/-- Writing a slot of the node read just before: the step the five `set*Inputs` share. -/
theorem setSlot_step (h : Inv L F d) {n : DraftNode}
    (hn : d.node id = some n)
    (hin : ∀ x ∈ inputs, L x) (hF : F (setAt d.inputsOf id slot inputs)) :
    Inv L F (d.setSlotInputs id n slot inputs) := by
  apply h.becomes (becomes_setSlotInputs hn slot inputs) _ hF
  apply linked_setSlotInputs h.linked hn
  intro x hx
  exact (h.live x).2 (hin x hx)

/-- The input maps an edit may make: closed under writing one slot. -/
def ClosedAt (F : (Ref → DraftEdgeSlot → List Ref) → Prop) (id : Ref) (slot : DraftEdgeSlot)
    (inputs : List Ref) : Prop := ∀ m, F m → F (setAt m id slot inputs)

/-- The same for a run that grows by one entry. -/
def GrowsAt (F : (Ref → DraftEdgeSlot → List Ref) → Prop) (id : Ref) (slot : DraftEdgeSlot)
    (input : Ref) : Prop := ∀ m, F m → ClosedAt F id slot (m id slot ++ [input])

section
variable (hin : ∀ x ∈ inputs, L x)
include hin

theorem setNormInputs_upholds
    (hF : ClosedAt F id .normalPorts inputs) :
    Keeps L F (setNormInputs id inputs) := by
  apply upholds_get.bind
  intro d hd
  apply (upholds_ofExcept _).bind
  intro n hn
  exact upholds_set (setSlot_step hd (node_of_requireNode hn) hin (hF _ hd.shape))

theorem setWithInputs_upholds
    (hF : ClosedAt F id .contextPorts inputs) :
    Keeps L F (setWithInputs id inputs) := by
  apply upholds_get.bind
  intro d hd
  apply (upholds_ofExcept _).bind
  intro n hn
  exact upholds_set (setSlot_step hd (node_of_requireNode hn) hin (hF _ hd.shape))

theorem setCtrlInputs_upholds
    (hF : ClosedAt F id .ctrl inputs) :
    Keeps L F (setCtrlInputs id inputs) := by
  apply upholds_get.bind
  intro d hd
  apply (upholds_ofExcept _).bind
  intro n hn
  exact upholds_set (setSlot_step hd (node_of_requireNode hn) hin (hF _ hd.shape))

theorem setOrderInputs_upholds
    (hF : ClosedAt F id .order inputs) :
    Keeps L F (setOrderInputs id inputs) := by
  apply upholds_get.bind
  intro d hd
  apply (upholds_ofExcept _).bind
  intro n hn
  apply upholds_guard
  intro _
  exact upholds_set (setSlot_step hd (node_of_requireNode hn) hin (hF _ hd.shape))

theorem setSyncInputs_upholds
    (hF : ClosedAt F id .sync inputs) :
    Keeps L F (setSyncInputs id inputs) := by
  apply upholds_get.bind
  intro d hd
  apply (upholds_ofExcept _).bind
  intro n hn
  apply upholds_guard
  intro _
  apply upholds_guard
  intro _
  exact upholds_set (setSlot_step hd (node_of_requireNode hn) hin (hF _ hd.shape))

end

theorem setPorts_upholds {ports withPorts : List Ref} (hports : ∀ x ∈ ports, L x)
    (hwith : ∀ x ∈ withPorts, L x) (hF : ∀ slot xs, ClosedAt F id slot xs) :
    Keeps L F (setPorts id ports withPorts) := by
  apply upholds_get.bind
  intro d hd
  apply (upholds_ofExcept _).bind
  intro n hn
  apply upholds_set
  have hn := node_of_requireNode hn
  apply hd.becomes (becomes_setBothPorts hn ports withPorts)
  · apply linked_setBothPorts hd.linked hn
    · intro x hx
      exact (hd.live x).2 (hports x hx)
    · intro x hx
      exact (hd.live x).2 (hwith x hx)
  · apply hF
    apply hF
    exact hd.shape

/-! ## One Edge -/

variable {user : Ref}

theorem appendInput_upholds {input : Ref} (hi : L input)
    (hF : GrowsAt F user slot input) :
    Keeps L F (appendInput slot user input) := by
  apply upholds_get.bind
  intro d hd
  split
  · exact upholds_throw _
  · next n hn =>
    apply upholds_guard
    intro _
    apply upholds_unless
    intro _
    split
    · exact upholds_throw _
    · apply upholds_set
      apply hd.becomes (becomes_linkInput hn slot input)
      · exact linked_linkInput hd.linked hn ((hd.live input).2 hi) slot
      · exact hF _ hd.shape _ hd.shape

variable {pred : Ref}

theorem nameControlPair_upholds (hp : L pred)
    (hF : GrowsAt F user .ctrl pred) :
    Keeps L F (nameControlPair user pred) := by
  apply upholds_get.bind
  intro d hd
  apply upholds_unless
  intro _
  exact appendInput_upholds hp hF

theorem appendOrderDependency_upholds (hp : L pred)
    (hF : GrowsAt F id .order pred) :
    Keeps L F (appendOrderDependency id pred) := by
  apply upholds_get.bind
  intro d hd
  apply upholds_unless
  intro _
  apply upholds_unless
  intro _
  have hset : Keeps L F (setOrderInputs id (d.inputsOf id .order ++ [pred])) := by
    apply setOrderInputs_upholds _ (hF _ hd.shape)
    intro x hx
    rcases mem_append.1 hx with hx | hx
    · exact hd.input hx
    · rw [mem_singleton.1 hx]
      exact hp
  apply hset.bind
  intro _ _
  exact upholds_pure trivial

/-! ## Chains and Orderings Over a Node -/

/-- What the edits that close over `id` write: never in `id` itself, and `id` only where it
    stood already. -/
def ClosedOver (F : (Ref → DraftEdgeSlot → List Ref) → Prop) (id : Ref) : Prop :=
  ∀ m u slot xs, F m → u ≠ id → (id ∈ xs → id ∈ m u slot) → ClosedAt F u slot xs

theorem ClosedOver.grows (hF : ClosedOver F id) {input : Ref} (hu : user ≠ id)
    (hi : input ≠ id) (slot : DraftEdgeSlot) : GrowsAt F user slot input := by
  intro m hm
  apply hF m user slot _ hm hu
  intro hmem
  rcases mem_append.1 hmem with hmem | hmem
  · exact hmem
  · exact absurd (mem_singleton.1 hmem).symm hi

theorem chainSurvives_upholds (id user pred : Ref) :
    Upholds (Inv L F) (chainSurvives id user pred) fun keep => keep = true → pred ≠ id := by
  apply upholds_get.bind
  intro d hd
  apply upholds_ite
  · intro h
    apply (sameSyncBlock_upholds pred user).weaken
    intro _ _ _
    exact h.2.1
  · intro _
    exact upholds_pure (by simp)

theorem survives_upholds (id user pred : Ref) :
    Upholds (Inv L F) (survives id user pred) fun keep => keep = true → pred ≠ id := by
  apply upholds_get.bind
  intro d hd
  apply upholds_ite
  · intro h
    apply (sameRegion_upholds pred user).weaken
    intro _ _ _
    exact h.2.1
  · intro _
    exact upholds_pure (by simp)

section
variable (hF : ClosedOver F id)
include hF

theorem followOver_upholds {syncInputs : List Ref}
    (hin : ∀ x ∈ syncInputs, L x) (user : Ref) :
    Keeps L F (followOver id syncInputs user) := by
  apply upholds_get.bind
  intro d hd
  apply upholds_unless
  intro hguard
  have hu : user ≠ id := fun h => hguard (.inl h)
  apply (upholds_keepM fun pred _ => chainSurvives_upholds id user pred).bind
  intro kept hkept
  have hset : Keeps L F (setSyncInputs user kept) := by
    apply setSyncInputs_upholds
    · intro x hx
      exact hin x (hkept x hx).1
    · apply hF d.inputsOf user .sync kept hd.shape hu
      intro hmem
      exact absurd rfl (hkept id hmem).2
  apply hset.bind
  intro _ _
  apply upholds_forM
  intro pred hp
  exact nameControlPair_upholds (hin pred (hkept pred hp).1) (hF.grows hu (hkept pred hp).2 .ctrl)

theorem waitInstead_upholds (hu : user ≠ id)
    (hp : L pred) : Keeps L F (waitInstead id user pred) := by
  apply (survives_upholds id user pred).bind
  intro keeps hkeeps
  apply upholds_when
  intro h
  exact nameControlPair_upholds hp (hF.grows hu (hkeeps h) .ctrl)

theorem keepWaiting_upholds {syncInputs ctrlInputs : List Ref}
    (hsync : ∀ x ∈ syncInputs, L x) (hctrl : ∀ x ∈ ctrlInputs, L x) (user : Ref) :
    Keeps L F (keepWaiting id syncInputs ctrlInputs user) := by
  apply upholds_get.bind
  intro d hd
  apply upholds_unless
  intro hguard
  have hu : user ≠ id := fun h => hguard (.inl h)
  apply upholds_unless
  intro _
  apply upholds_unless
  intro _
  apply (upholds_forM fun pred hp => waitInstead_upholds hF hu (hsync pred hp)).bind
  intro _ _
  exact upholds_forM fun pred hp => waitInstead_upholds hF hu (hctrl pred hp)

theorem closeChainOver_upholds :
    Keeps L F (closeChainOver id) := by
  apply upholds_get.bind
  intro d hd
  have hsync : ∀ x ∈ d.inputsOf id .sync, L x := fun x hx => hd.input hx
  have hctrl : ∀ x ∈ d.inputsOf id .ctrl, L x := fun x hx => hd.input hx
  apply (upholds_forM fun user _ => followOver_upholds hF hsync user).bind
  intro _ _
  apply (upholds_forM fun user _ => keepWaiting_upholds hF hsync hctrl user).bind
  intro _ _
  exact upholds_forM fun user _ => keepWaiting_upholds hF hsync hctrl user

end

/-- Nothing about `id` has grown: its inputs are those it had in `d₀`, and it is read by none
    that did not read it there. -/
def Around (d₀ : Draft) (id : Ref) (m : Ref → DraftEdgeSlot → List Ref) : Prop :=
  m id = d₀.inputsOf id ∧ ∀ u slot, id ∈ m u slot → d₀.Reads slot id u

theorem closedOver_around (d₀ : Draft) (id : Ref) : ClosedOver (Around d₀ id) id := by
  intro m u slot xs hm hu hxs m' hm'
  constructor
  · funext s
    rw [setAt_of_ne_id (Ne.symm hu), hm'.1]
  · intro w s hw
    rw [mem_setAt] at hw
    rcases hw with ⟨hw, -⟩ | ⟨rfl, rfl, hw⟩
    · exact hm'.2 w s hw
    · exact hm.2 w s (hxs hw)

theorem spliceOrderEdge_upholds {d₀ : Draft}
    (hp : pred ∈ d₀.inputsOf id .order) (hlive : L pred) :
    Keeps L (Around d₀ id) (spliceOrderEdge id user pred) := by
  apply upholds_get.bind
  intro d hd
  apply upholds_unless
  intro hguard
  have hpred : pred ≠ id := fun h => hguard (.inl h)
  apply (sameRegion_upholds pred user).bind
  intro same _
  apply upholds_when
  intro _
  have happend : Keeps L (Around d₀ id) (appendOrderDependency user pred) := by
    by_cases hu : user = id
    · -- the node orders itself: it has this predecessor already
      subst hu
      apply upholds_get.bind
      intro d' hd'
      apply upholds_unless
      intro _
      rw [if_pos (by rw [hd'.shape.1]; exact hp)]
      exact upholds_pure trivial
    · exact appendOrderDependency_upholds hlive
        ((closedOver_around d₀ id).grows hu hpred .order)
  apply happend.bind
  intro _ _
  exact upholds_pure trivial

theorem spliceOrderEdgesOver_upholds (d₀ : Draft) (id : Ref) :
    Keeps L (Around d₀ id) (spliceOrderEdgesOver id) := by
  apply upholds_get.bind
  intro d hd
  apply upholds_unless
  intro _
  apply upholds_unless
  intro _
  apply upholds_forM
  intro user _
  apply upholds_get.bind
  intro d' _
  apply upholds_when
  intro _
  apply upholds_forM
  intro pred hp
  apply spliceOrderEdge_upholds _ (hd.input hp)
  rw [← hd.shape.1]
  exact hp

/-! ## Handing a Place Over -/

/-- No property of the inputs beyond the draft being linked. -/
def AnyShape (_ : Ref → DraftEdgeSlot → List Ref) : Prop := True

theorem anyShape_closed (id : Ref) (slot : DraftEdgeSlot) (xs : List Ref) :
    ClosedAt AnyShape id slot xs := fun _ _ => trivial

theorem anyShape_grows (id : Ref) (slot : DraftEdgeSlot) (x : Ref) :
    GrowsAt AnyShape id slot x := fun _ _ _ _ => trivial

theorem sameEdges_markStatement (d : Draft) (id : Ref) : SameEdges d (d.markStatement id) := by
  unfold Draft.markStatement
  split
  · next n hn => exact sameEdges_replace hn rfl
  · exact SameEdges.refl d

theorem markStatement_upholds (id : Ref) :
    Keeps L F (modify fun d => d.markStatement id : DraftM Unit) :=
  upholds_modify fun d hd => hd.sameEdges (sameEdges_markStatement d id)

theorem chainTo_upholds (hp : L pred) :
    Keeps L AnyShape (chainTo user pred) := by
  apply (markStatement_upholds user).bind
  intro _ _
  apply (markStatement_upholds pred).bind
  intro _ _
  have hset : Keeps L AnyShape (setSyncInputs user [pred]) := by
    apply setSyncInputs_upholds _ (anyShape_closed _ _ _)
    intro x hx
    rw [mem_singleton.1 hx]
    exact hp
  apply hset.bind
  intro _ _
  exact nameControlPair_upholds hp (anyShape_grows _ _ _)

theorem mayJoin_upholds (how : PlaceHandover) (a b : Ref) :
    Keeps L F (mayJoin how a b) := by
  apply upholds_when
  intro _
  exact sameSyncBlock_upholds a b

theorem followTail_upholds (how : PlaceHandover) {tail : Ref} (ht : L tail) (user : Ref) :
    Keeps L AnyShape (followTail how tail user) := by
  apply upholds_get.bind
  intro d hd
  apply upholds_unless
  intro _
  apply (mayJoin_upholds how user tail).bind
  intro joins _
  apply upholds_ite
  · intro _
    exact chainTo_upholds ht
  · intro _
    exact setSyncInputs_upholds (by simp) (anyShape_closed _ _ _)

theorem precedesTail_upholds (how : PlaceHandover) (tail pred : Ref) :
    Upholds (Inv L F) (precedesTail how tail pred) fun found => found = true → True := by
  apply upholds_get.bind
  intro d hd
  apply upholds_ite
  · intro _
    apply (mayJoin_upholds how tail pred).weaken
    intro _ _ _
    trivial
  · intro _
    exact upholds_pure fun _ => trivial

theorem handChainPlaceTo_upholds (id : Ref) {tail : Ref} (ht : L tail) (how : PlaceHandover) :
    Keeps L AnyShape (handChainPlaceTo id tail how) := by
  apply upholds_get.bind
  intro d hd
  apply upholds_unless
  intro _
  apply (markStatement_upholds tail).bind
  intro _ _
  apply (upholds_forM fun user _ => followTail_upholds how ht user).bind
  intro _ _
  apply upholds_get.bind
  intro d' _
  apply upholds_when
  intro _
  apply (upholds_firstM fun pred _ => precedesTail_upholds how tail pred).bind
  intro first hfirst
  split
  · next pred =>
    apply chainTo_upholds
    exact hd.input (hfirst pred rfl).1
  · exact upholds_pure trivial

/-! ## Taking a Place -/

theorem orderAfterToo_upholds (newId region : Ref) (hp : L pred) :
    Keeps L AnyShape (orderAfterToo newId region pred) := by
  apply upholds_get.bind
  intro d hd
  apply upholds_unless
  intro _
  apply (nodeRegion_upholds pred).bind
  intro predRegion _
  apply upholds_unless
  intro _
  apply (appendOrderDependency_upholds hp (anyShape_grows _ _ _)).bind
  intro _ _
  exact upholds_pure trivial

theorem mem_of_mem_replace {x a b : Ref} {l : List Ref} (h : x ∈ l.replace a b) :
    x ∈ l ∨ x = b := by
  induction l with
  | nil => cases h
  | cons y l ih =>
    rw [replace_cons] at h
    split at h
    · rcases mem_cons.1 h with rfl | h
      · exact .inr rfl
      · exact .inl (mem_cons_of_mem y h)
    · rcases mem_cons.1 h with rfl | h
      · exact .inl mem_cons_self
      · rcases ih h with h | h
        · exact .inl (mem_cons_of_mem y h)
        · exact .inr h

variable {newId : Ref}

variable (oldId : Ref)

theorem orderByNew_upholds (hnew : L newId) (region user : Ref) :
    Keeps L AnyShape (orderByNew oldId newId region user) := by
  apply upholds_get.bind
  intro d hd
  apply upholds_unless
  intro _
  apply upholds_unless
  intro _
  apply (nodeRegion_upholds user).bind
  intro userRegion _
  apply upholds_ite
  · intro _
    apply setOrderInputs_upholds _ (anyShape_closed _ _ _)
    intro x hx
    exact hd.input (mem_of_mem_erase hx)
  · intro _
    apply setOrderInputs_upholds _ (anyShape_closed _ _ _)
    intro x hx
    rcases mem_of_mem_replace hx with hx | rfl
    · exact hd.input hx
    · exact hnew

theorem replaceOrderEdgesAt_upholds (hnew : L newId) :
    Keeps L AnyShape (replaceOrderEdgesAt oldId newId) := by
  apply upholds_get.bind
  intro d hd
  apply upholds_unless
  intro _
  apply (nodeRegion_upholds newId).bind
  intro region _
  apply (upholds_forM fun pred hp => orderAfterToo_upholds newId region (hd.input hp)).bind
  intro _ _
  apply upholds_get.bind
  intro d' _
  exact upholds_forM fun user _ => orderByNew_upholds oldId hnew region user

theorem keptPredecessor_upholds (newId pred : Ref) :
    Upholds (Inv L F) (keptPredecessor newId pred) fun kept => kept = true → True := by
  apply upholds_get.bind
  intro d hd
  apply upholds_ite
  · intro _
    apply (sameRegion_upholds pred newId).weaken
    intro _ _ _
    trivial
  · intro _
    exact upholds_pure fun _ => trivial

theorem followNew_upholds (hnew : L newId) (user : Ref) :
    Keeps L AnyShape (followNew newId user) := by
  apply upholds_get.bind
  intro d hd
  apply upholds_unless
  intro _
  apply (sameSyncBlock_upholds user newId).bind
  intro same _
  apply upholds_when
  intro _
  have hset : Keeps L AnyShape (setSyncInputs user [newId]) := by
    apply setSyncInputs_upholds _ (anyShape_closed _ _ _)
    intro x hx
    rw [mem_singleton.1 hx]
    exact hnew
  apply hset.bind
  intro _ _
  exact nameControlPair_upholds hnew (anyShape_grows _ _ _)

theorem takeChainPlace_upholds (hnew : L newId) :
    Keeps L AnyShape (takeChainPlace oldId newId) := by
  apply (markStatement_upholds newId).bind
  intro _ _
  apply upholds_get.bind
  intro d hd
  apply (upholds_keepM fun pred _ => keptPredecessor_upholds newId pred).bind
  intro kept hkept
  have hlive : ∀ x ∈ kept, L x := fun x hx => hd.input (hkept x hx).1
  apply (setSyncInputs_upholds hlive (anyShape_closed _ _ _)).bind
  intro _ _
  apply (upholds_forM fun pred hp =>
    nameControlPair_upholds (hlive pred hp) (anyShape_grows _ _ _)).bind
  intro _ _
  exact upholds_forM fun user _ => followNew_upholds hnew user

theorem takeOrderEdges_upholds (hnew : L newId) :
    Keeps L AnyShape (takeOrderEdges oldId newId) := by
  apply (sameRegion_upholds oldId newId).bind
  intro same _
  apply upholds_when
  intro _
  exact replaceOrderEdgesAt_upholds oldId hnew

theorem takeStatementPlace_upholds (hnew : L newId) :
    Keeps L AnyShape (takeStatementPlace oldId newId) := by
  apply upholds_get.bind
  intro d hd
  apply upholds_unless
  intro _
  apply (takeOrderEdges_upholds oldId hnew).bind
  intro _ _
  apply upholds_get.bind
  intro d' hd'
  apply upholds_unless
  intro _
  apply (sameSyncBlock_upholds oldId newId).bind
  intro block _
  apply upholds_unless
  intro _
  apply upholds_unless
  intro _
  exact takeChainPlace_upholds oldId hnew

end

end Camel.Draft
