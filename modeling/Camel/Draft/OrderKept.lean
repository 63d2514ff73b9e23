import Camel.Draft.Run
import Camel.Lib.Bypass

/-! # The Order Around an Erased Node

    Erasing a node joins what was ordered before it to what was ordered after it, within one
    region. Where every such pair is in one region, the nodes that are left are ordered as they
    were.
-/

namespace Camel.Draft

open Lib Relation List

/-! ## Regions Stay -/

def Draft.regionOf (d : Draft) (id : Ref) : Option Nat := (d.node id).map DraftNode.region

/-- The control region a node runs with: the innermost arm or part of a loop. -/
def Draft.controlAt (d : Draft) (id : Ref) : Nat :=
  Draft.controlOf d.regions ((d.regionOf id).getD 0) ((d.regionOf id).getD 0)

/-- The same nodes, each in the region it was in. -/
structure Still (d d' : Draft) : Prop where
  regions : d'.regions = d.regions
  placed : d'.regionOf = d.regionOf

theorem Still.refl (d : Draft) : Still d d := ⟨rfl, rfl⟩

theorem Still.trans {d₁ d₂ d₃ : Draft} (h : Still d₁ d₂) (h' : Still d₂ d₃) : Still d₁ d₃ :=
  ⟨h'.regions.trans h.regions, h'.placed.trans h.placed⟩

variable {d d' : Draft}

theorem Still.controlAt (h : Still d d') (id : Ref) :
    d'.controlAt id = d.controlAt id := by
  unfold Draft.controlAt
  rw [h.regions, h.placed]

theorem alive_eq_isSome_regionOf (d : Draft) (id : Ref) : d.alive id = (d.regionOf id).isSome := by
  unfold Draft.alive Draft.regionOf
  rw [Option.isSome_map]

theorem Still.alive (h : Still d d') (id : Ref) : d'.alive id = d.alive id := by
  rw [alive_eq_isSome_regionOf, alive_eq_isSome_regionOf, h.placed]

variable {id : Ref} {n : DraftNode}

theorem regionOf_of_node (h : d.node id = some n) :
    d.regionOf id = some n.region := by
  rw [Draft.regionOf, h]
  rfl

theorem still_replaceNodeStorage {n₀ : DraftNode}
    (h : d.node id = some n₀) (hregion : n.region = n₀.region) :
    Still d (d.replaceNodeStorage id n) := by
  refine ⟨rfl, ?_⟩
  funext k
  unfold Draft.regionOf
  rw [node_replaceNodeStorage h]
  by_cases hk : k = id
  · subst hk
    rw [if_pos rfl, h, Option.map_some, Option.map_some, hregion]
  · rw [if_neg hk]

theorem still_removeUserRef (d : Draft) (id user : Ref) (slot : DraftEdgeSlot) :
    Still d (d.removeUserRef id user slot) := by
  unfold Draft.removeUserRef
  split
  · exact ⟨rfl, rfl⟩
  · exact Still.refl d

theorem still_removeUserRefs (ids : List Ref) (user : Ref) (slot : DraftEdgeSlot) :
    ∀ d : Draft, Still d (d.removeUserRefs ids user slot) := by
  induction ids with
  | nil => exact Still.refl
  | cons id ids ih =>
    intro d
    exact (still_removeUserRef d id user slot).trans (ih _)

variable {user : Ref}

/-- A reader in the control region of what it reads stays where it is. -/
theorem inheritRegion_of_control {input : Ref}
    (h : d.controlAt input = d.controlAt user) : d.inheritRegion input user = d := by
  unfold Draft.inheritRegion
  split
  · rfl
  · split
    · next reader read hreader hread =>
      have hcontrol : Draft.controlOf d.regions read.region read.region =
          Draft.controlOf d.regions reader.region reader.region := by
        unfold Draft.controlAt at h
        rw [regionOf_of_node hreader, regionOf_of_node hread] at h
        exact h
      simp only [hcontrol, true_or, or_true, if_true]
      split
      · rfl
      · split <;> rfl
    · rfl

theorem still_appendUserRef (h : d.controlAt id = d.controlAt user)
    (slot : DraftEdgeSlot) : Still d (d.appendUserRef id user slot) := by
  unfold Draft.appendUserRef
  split
  · rw [inheritRegion_of_control h]
    exact ⟨rfl, rfl⟩
  · exact Still.refl d

theorem still_appendUserRefs (slot : DraftEdgeSlot) (ids : List Ref) :
    ∀ {d : Draft}, (∀ id ∈ ids, d.controlAt id = d.controlAt user) →
      Still d (d.appendUserRefs ids user slot) := by
  induction ids with
  | nil =>
    intro d _
    exact Still.refl d
  | cons id ids ih =>
    intro d h
    have hone := still_appendUserRef (h id mem_cons_self) slot
    apply hone.trans
    apply ih
    intro x hx
    rw [hone.controlAt, hone.controlAt]
    exact h x (mem_cons_of_mem id hx)

theorem withInputs_region (n : DraftNode) (slot : DraftEdgeSlot) (xs : List Ref) :
    (Draft.withInputs n slot xs).region = n.region := by
  unfold Draft.withInputs rebuildNode
  simp only
  split <;> rfl

theorem appendEntry_region (n : DraftNode) (slot : DraftEdgeSlot) (input : Ref) :
    (n.appendEntry slot input).region = n.region := by
  unfold DraftNode.appendEntry
  split
  · exact withInputs_region n slot _
  · rfl

theorem still_setSlotInputs (hn : d.node id = some n)
    (slot : DraftEdgeSlot) {inputs : List Ref}
    (h : ∀ x ∈ inputs, d.controlAt x = d.controlAt id) :
    Still d (d.setSlotInputs id n slot inputs) := by
  unfold Draft.setSlotInputs
  have hremove := still_removeUserRefs (n.inputs slot) id slot d
  obtain ⟨n', hn', -, -⟩ := (sameNodes_removeUserRefs (n.inputs slot) id slot d).node hn
  have hregion : n'.region = n.region := by
    have hplaced := congrFun hremove.placed id
    rw [regionOf_of_node hn', regionOf_of_node hn] at hplaced
    exact Option.some.inj hplaced
  have hstore := still_replaceNodeStorage hn' ((withInputs_region n slot inputs).trans hregion.symm)
  have hboth := hremove.trans hstore
  apply hboth.trans
  apply still_appendUserRefs
  intro x hx
  rw [hboth.controlAt, hboth.controlAt]
  exact h x hx

theorem still_linkInput {input : Ref}
    (hn : d.node user = some n) (slot : DraftEdgeSlot)
    (h : d.controlAt input = d.controlAt user) : Still d (d.linkInput slot user input n) := by
  have hstore := still_replaceNodeStorage hn (appendEntry_region n slot input)
  apply hstore.trans
  apply still_appendUserRef
  rw [hstore.controlAt, hstore.controlAt]
  exact h

/-! ## The Block a Statement Is In -/

theorem controlOf_fuel {regions : List GCRegion} (h : RegionsBelow regions) {r : Nat} (fuel : Nat)
    (hr : r ≤ fuel) : Draft.controlOf regions fuel r = Draft.controlOf regions r r := by
  induction hr with
  | refl => rfl
  | step hle ih => rw [controlOf_succ h _ r hle, ih]

/-- The block a region's statements are in lies in the same control region. -/
theorem controlOf_statementRegion {regions : List GCRegion} (h : RegionsBelow regions)
    (fuel : Nat) :
    ∀ {r s : Nat}, statementRegion regions fuel r = .ok s →
      Draft.controlOf regions r r = Draft.controlOf regions s s := by
  induction fuel with
  | zero =>
    intro r s hs
    cases hs
    rfl
  | succ fuel ih =>
    intro r s hs
    unfold statementRegion at hs
    split at hs
    · next hzero =>
      cases hs
      rw [hzero]
    · next hpos =>
      split at hs
      · next rec hrec =>
        split at hs
        · next hkind =>
          obtain ⟨k, rfl⟩ : ∃ k, r = k + 1 := ⟨r - 1, by omega⟩
          have hparent := h (k + 1) rec hrec (Nat.succ_pos k)
          rw [← ih hs]
          conv_lhs => rw [Draft.controlOf]
          simp only [hrec]
          rw [if_pos ⟨hpos, .inl hkind⟩]
          exact controlOf_fuel h k (by omega)
        · cases hs
          rfl
      · cases hs

theorem setAt_other_slot {slot s : DraftEdgeSlot} (h : s ≠ slot)
    (m : Ref → DraftEdgeSlot → List Ref) (id u : Ref) (xs : List Ref) :
    setAt m id slot xs u s = m u s := by
  by_cases hu : u = id
  · rw [hu, setAt_of_ne_slot h]
  · rw [setAt_of_ne_id hu]

/-! ## While the Chain and the Orderings Close -/

/-- Every node ordered before `u` runs with it, as the seal check has it of an order edge. -/
def Draft.Level (d : Draft) (u : Ref) : Prop :=
  ∀ x ∈ d.inputsOf u .order, d.controlAt x = d.controlAt u

/-- The regions are those of `d₀`, its order edges are there, and so are those of `pairs`. -/
structure Steady (d₀ : Draft) (pairs : List (Ref × Ref)) (d : Draft) : Prop where
  still : Still d₀ d
  kept : ∀ u, ∀ x ∈ d₀.inputsOf u .order, x ∈ d.inputsOf u .order
  added : ∀ p ∈ pairs, p.1 ∈ d.inputsOf p.2 .order
  level : ∀ u, d₀.Level u → ∀ x ∈ d.inputsOf u .order, d₀.controlAt x = d₀.controlAt u

theorem Steady.start (d : Draft) : Steady d [] d :=
  ⟨Still.refl d, fun _ _ h => h, (fun _ h => nomatch h), fun _ h => h⟩

section
variable {d₀ : Draft} {pairs : List (Ref × Ref)}

/-- A write beside the order edges. -/
theorem Steady.beside {d d' : Draft} (h : Steady d₀ pairs d) (hstill : Still d d')
    (horder : ∀ u, d'.inputsOf u .order = d.inputsOf u .order) : Steady d₀ pairs d' where
  still := h.still.trans hstill
  kept u x hx := by
    rw [horder]
    exact h.kept u x hx
  added p hp := by
    rw [horder]
    exact h.added p hp
  level u hu x hx := by
    rw [horder] at hx
    exact h.level u hu x hx

theorem nodeRegion_returns (id : Ref) :
    Returns (Steady d₀ pairs) (nodeRegion id) fun r d =>
      Steady d₀ pairs d ∧ d₀.regionOf id = some r := by
  apply returns_get_bind
  intro d hd
  split
  · next n hn =>
    apply returns_pure
    rintro _ rfl
    refine ⟨hd, ?_⟩
    rw [← hd.still.placed]
    exact regionOf_of_node hn
  · exact returns_throw _

theorem sameRegion_returns (a b : Ref) :
    Returns (Steady d₀ pairs) (sameRegion a b) fun same d =>
      Steady d₀ pairs d ∧ (same = true ↔ d₀.regionOf a = d₀.regionOf b) := by
  apply (nodeRegion_returns a).bind
  intro ra
  apply returns_of_state
  rintro d ⟨hd, ha⟩
  apply ((nodeRegion_returns b).at hd).bind
  intro rb
  apply returns_pure
  rintro t ⟨ht, hb⟩
  refine ⟨ht, ?_⟩
  rw [ha, hb, decide_eq_true_iff, Option.some.injEq]

theorem statementRegionOf_returns (id : Ref) :
    Returns (Steady d₀ pairs) (statementRegionOf id) fun s d =>
      Steady d₀ pairs d ∧
        ∃ r, d₀.regionOf id = some r ∧ statementRegion d₀.regions r r = .ok s := by
  apply (nodeRegion_returns id).bind
  intro r
  apply returns_get_bind
  rintro d ⟨hd, hr⟩
  apply returns_ofExcept
  rintro s _ hs rfl
  rw [hd.still.regions] at hs
  exact ⟨hd, r, hr, hs⟩

/-- Two statements of one block run together. -/
theorem sameSyncBlock_returns (hbelow : RegionsBelow d₀.regions) (a b : Ref) :
    Returns (Steady d₀ pairs) (sameSyncBlock a b) fun same d =>
      Steady d₀ pairs d ∧ (same = true → d₀.controlAt a = d₀.controlAt b) := by
  apply (statementRegionOf_returns a).bind
  intro sa
  apply returns_of_state
  rintro d ⟨hd, ra, hra, hsa⟩
  apply ((statementRegionOf_returns b).at hd).bind
  intro sb
  apply returns_pure
  rintro t ⟨ht, rb, hrb, hsb⟩
  refine ⟨ht, fun hsame => ?_⟩
  have heq : sa = sb := of_decide_eq_true hsame
  unfold Draft.controlAt
  rw [hra, hrb]
  show Draft.controlOf d₀.regions ra ra = Draft.controlOf d₀.regions rb rb
  rw [controlOf_statementRegion hbelow _ hsa, controlOf_statementRegion hbelow _ hsb, heq]

/-- A program that stops where it stands. -/
theorem returns_stay {d : Draft} (hd : Steady d₀ pairs d) :
    Returns (· = d) (pure () : DraftM Unit) fun _ => Steady d₀ pairs := by
  apply returns_pure
  rintro _ rfl
  exact hd

theorem setSyncInputs_returns {id : Ref} {inputs : List Ref}
    (h : ∀ x ∈ inputs, d₀.controlAt x = d₀.controlAt id) :
    Returns (Steady d₀ pairs) (setSyncInputs id inputs) fun _ => Steady d₀ pairs := by
  apply returns_get_bind
  intro d hd
  apply (returns_ofExcept (Q := fun n _ => d.node id = some n)
    fun n _ hn _ => node_of_requireNode hn).bind
  intro n
  apply returns_ite
  · intro _
    exact returns_throw _
  intro _
  apply returns_ite
  · intro _
    exact returns_throw _
  intro _
  apply returns_of_state
  intro _ hn
  apply returns_set
  apply hd.beside
  · apply still_setSlotInputs hn
    intro x hx
    rw [hd.still.controlAt, hd.still.controlAt]
    exact h x hx
  · intro u
    rw [(becomes_setSlotInputs hn .sync inputs).inputs]
    exact setAt_other_slot (by decide) ..

variable {pred : Ref}

theorem nameControlPair_returns {user : Ref} (h : d₀.controlAt pred = d₀.controlAt user) :
    Returns (Steady d₀ pairs) (nameControlPair user pred) fun _ => Steady d₀ pairs := by
  apply returns_get_bind
  intro d hd
  apply returns_ite (fun _ => returns_stay hd)
  intro _
  apply returns_get_bind
  rintro _ rfl
  split
  · exact returns_throw _
  · next n hn =>
    apply returns_ite
    · intro _
      exact returns_throw _
    intro _
    apply returns_ite (fun _ => returns_stay hd)
    intro _
    split
    · exact returns_throw _
    · apply returns_set
      apply hd.beside
      · apply still_linkInput hn
        rw [hd.still.controlAt, hd.still.controlAt]
        exact h
      · intro u
        rw [(becomes_linkInput hn .ctrl pred).inputs]
        exact setAt_other_slot (by decide) ..

variable (pairs) in
theorem chainSurvives_returns (hbelow : RegionsBelow d₀.regions) (id user pred : Ref) :
    Returns (Steady d₀ pairs) (chainSurvives id user pred) fun keep d =>
      Steady d₀ pairs d ∧ (keep = true → d₀.controlAt pred = d₀.controlAt user) := by
  apply returns_get_bind
  intro d hd
  apply returns_ite
  · intro _
    exact (sameSyncBlock_returns hbelow pred user).at hd
  · intro _
    apply returns_pure
    rintro _ rfl
    exact ⟨hd, fun h => nomatch h⟩

theorem survives_returns (id user pred : Ref) :
    Returns (Steady d₀ pairs) (survives id user pred) fun keep d =>
      Steady d₀ pairs d ∧ (keep = true → d₀.controlAt pred = d₀.controlAt user) := by
  apply returns_get_bind
  intro d hd
  apply returns_ite
  · intro _
    apply ((sameRegion_returns pred user).at hd).weaken
    rintro same t ⟨ht, hsame⟩
    refine ⟨ht, fun h => ?_⟩
    unfold Draft.controlAt
    rw [hsame.1 h]
  · intro _
    apply returns_pure
    rintro _ rfl
    exact ⟨hd, fun h => nomatch h⟩

theorem followOver_returns (hbelow : RegionsBelow d₀.regions) (id : Ref) (syncInputs : List Ref)
    (user : Ref) :
    Returns (Steady d₀ pairs) (followOver id syncInputs user) fun _ => Steady d₀ pairs := by
  apply returns_get_bind
  intro d hd
  apply returns_ite (fun _ => returns_stay hd)
  intro _
  have hkeep := returns_keepM (l := syncInputs) fun pred _ =>
    chainSurvives_returns pairs hbelow id user pred
  apply (hkeep.at hd).bind
  intro kept
  apply returns_of_state
  rintro t ⟨ht, hkept⟩
  apply ((setSyncInputs_returns hkept).at ht).bind
  intro _
  exact returns_forM_keep fun pred hp => nameControlPair_returns (hkept pred hp)

theorem waitInstead_returns (id user pred : Ref) :
    Returns (Steady d₀ pairs) (waitInstead id user pred) fun _ => Steady d₀ pairs := by
  apply (survives_returns id user pred).bind
  intro keeps
  apply returns_of_state
  rintro t ⟨ht, hkeeps⟩
  apply returns_ite
  · intro h
    exact (nameControlPair_returns (hkeeps h)).at ht
  · intro _
    exact returns_stay ht

theorem keepWaiting_returns (id : Ref) (syncInputs ctrlInputs : List Ref) (user : Ref) :
    Returns (Steady d₀ pairs) (keepWaiting id syncInputs ctrlInputs user)
      fun _ => Steady d₀ pairs := by
  apply returns_get_bind
  intro d hd
  apply returns_ite (fun _ => returns_stay hd)
  intro _
  apply returns_ite (fun _ => returns_stay hd)
  intro _
  apply returns_ite (fun _ => returns_stay hd)
  intro _
  have hsync : Returns (Steady d₀ pairs) (syncInputs.forM (waitInstead id user))
      fun _ => Steady d₀ pairs := returns_forM_keep fun pred _ => waitInstead_returns id user pred
  apply (hsync.at hd).bind
  intro _
  exact returns_forM_keep fun pred _ => waitInstead_returns id user pred

variable (pairs) in
/-- Closing the chain moves no node and touches no order edge. -/
theorem closeChainOver_returns (hbelow : RegionsBelow d₀.regions) (id : Ref) :
    Returns (Steady d₀ pairs) (closeChainOver id) fun _ => Steady d₀ pairs := by
  apply returns_get_bind
  intro d hd
  have hfollow : Returns (Steady d₀ pairs)
      ((d.usersOf id .sync).forM (followOver id (d.inputsOf id .sync))) fun _ => Steady d₀ pairs :=
    returns_forM_keep fun user _ => followOver_returns hbelow id _ user
  apply (hfollow.at hd).bind
  intro _
  apply (returns_forM_keep fun user _ => keepWaiting_returns id _ _ user).bind
  intro _
  exact returns_forM_keep fun user _ => keepWaiting_returns id _ _ user

/-! ## The Orderings -/

/-- An order edge within one control region. -/
theorem Steady.orderEdge {d d' : Draft} (h : Steady d₀ pairs d) {user : Ref}
    (hstill : Still d d') (hinputs : d'.inputsOf =
      setAt d.inputsOf user .order (d.inputsOf user .order ++ [pred]))
    (hcontrol : d₀.controlAt pred = d₀.controlAt user) :
    Steady d₀ (pairs ++ [(pred, user)]) d' := by
  have hmem : ∀ u x, x ∈ d'.inputsOf u .order ↔
      x ∈ d.inputsOf u .order ∨ (u = user ∧ x = pred) := by
    intro u x
    rw [hinputs, mem_setAt, mem_append, mem_singleton]
    by_cases hu : u = user
    · subst hu
      simp
    · simp [hu]
  constructor
  · exact h.still.trans hstill
  · intro u x hx
    exact (hmem u x).2 (.inl (h.kept u x hx))
  · intro p hp
    rcases mem_append.1 hp with hp | hp
    · exact (hmem p.2 p.1).2 (.inl (h.added p hp))
    · rw [mem_singleton.1 hp]
      exact (hmem user pred).2 (.inr ⟨rfl, rfl⟩)
  · intro u hu x hx
    rcases (hmem u x).1 hx with hx | ⟨rfl, rfl⟩
    · exact h.level u hu x hx
    · exact hcontrol

/-- An order edge that is there already. -/
theorem Steady.known {d : Draft} (h : Steady d₀ pairs d) {user : Ref}
    (hmem : pred ∈ d.inputsOf user .order) : Steady d₀ (pairs ++ [(pred, user)]) d where
  still := h.still
  kept := h.kept
  added p hp := by
    rcases mem_append.1 hp with hp | hp
    · exact h.added p hp
    · rw [mem_singleton.1 hp]
      exact hmem
  level := h.level

theorem appendOrderDependency_returns {user : Ref} (hne : pred ≠ user)
    (huser : d₀.alive user = true) (hpred : d₀.alive pred = true)
    (hok : pred ∈ d₀.inputsOf user .order ∨
      (d₀.controlAt pred = d₀.controlAt user ∧ d₀.Level user)) :
    Returns (Steady d₀ pairs) (appendOrderDependency user pred)
      fun _ => Steady d₀ (pairs ++ [(pred, user)]) := by
  apply returns_get_bind
  intro d hd
  have hlive : ¬(pred = user ∨ ¬d.alive user ∨ ¬d.alive pred) := by
    rw [hd.still.alive, hd.still.alive, huser, hpred]
    simp [hne]
  rw [if_neg hlive]
  apply returns_ite
  · intro hmem
    apply returns_pure
    rintro _ rfl
    exact hd.known hmem
  intro hnot
  have hboth : d₀.controlAt pred = d₀.controlAt user ∧ d₀.Level user := by
    rcases hok with hin | hok
    · exact absurd (hd.kept user pred hin) hnot
    · exact hok
  have hset : Returns (· = d) (setOrderInputs user (d.inputsOf user .order ++ [pred]))
      fun _ => Steady d₀ (pairs ++ [(pred, user)]) := by
    apply returns_get_bind
    rintro d rfl
    apply (returns_ofExcept (Q := fun n _ => d.node user = some n)
      fun n _ hn _ => node_of_requireNode hn).bind
    intro n
    apply returns_ite
    · intro _
      exact returns_throw _
    intro _
    apply returns_of_state
    intro _ hn
    apply returns_set
    apply hd.orderEdge _ (becomes_setSlotInputs hn .order _).inputs hboth.1
    apply still_setSlotInputs hn
    intro x hx
    rw [hd.still.controlAt, hd.still.controlAt]
    rcases mem_append.1 hx with hx | hx
    · exact hd.level user hboth.2 x hx
    · rw [mem_singleton.1 hx]
      exact hboth.1
  apply hset.bind
  intro _
  exact returns_pure fun _ h => h

/-- `user` can be ordered after `pred`, which `id` was ordered after. -/
def Draft.Joinable (d : Draft) (id user pred : Ref) : Prop :=
  pred = id ∨ pred = user ∨ pred ∈ d.inputsOf user .order ∨
    (d.regionOf pred = d.regionOf user ∧ d.Level user)

instance (d : Draft) (u : Ref) : Decidable (d.Level u) :=
  inferInstanceAs (Decidable (∀ x ∈ d.inputsOf u .order, d.controlAt x = d.controlAt u))

instance (d : Draft) (id user pred : Ref) : Decidable (d.Joinable id user pred) :=
  inferInstanceAs (Decidable (pred = id ∨ pred = user ∨ pred ∈ d.inputsOf user .order ∨
    (d.regionOf pred = d.regionOf user ∧ d.Level user)))

/-- The pairs that a round of the splice leaves joined. -/
def joinedPairs (id user : Ref) (pairs : List (Ref × Ref)) (pred : Ref) : List (Ref × Ref) :=
  if pred = id ∨ pred = user then pairs else pairs ++ [(pred, user)]

theorem spliceOrderEdge_returns {id user : Ref} (huser : d₀.alive user = true)
    (hpred : d₀.alive pred = true) (hjoin : d₀.Joinable id user pred) :
    Returns (Steady d₀ pairs) (spliceOrderEdge id user pred)
      fun _ => Steady d₀ (joinedPairs id user pairs pred) := by
  apply returns_get_bind
  intro d hd
  by_cases hself : pred = id ∨ pred = user
  · have hskip : pred = id ∨ pred = user ∨ ¬d.alive pred := hself.imp_right .inl
    rw [if_pos hskip, joinedPairs, if_pos hself]
    exact returns_stay hd
  have hgo : ¬(pred = id ∨ pred = user ∨ ¬d.alive pred) := by
    rw [hd.still.alive, hpred]
    simpa using hself
  obtain ⟨hid, huser'⟩ := not_or.1 hself
  have hok : pred ∈ d₀.inputsOf user .order ∨
      (d₀.regionOf pred = d₀.regionOf user ∧ d₀.Level user) := by
    rcases hjoin with h | h | h
    · exact absurd h hid
    · exact absurd h huser'
    · exact h
  rw [if_neg hgo, joinedPairs, if_neg hself]
  apply ((sameRegion_returns pred user).at hd).bind
  intro same
  apply returns_of_state
  rintro t ⟨ht, hsame⟩
  apply returns_ite
  · intro _
    have hcontrol : pred ∈ d₀.inputsOf user .order ∨
        (d₀.controlAt pred = d₀.controlAt user ∧ d₀.Level user) := by
      apply hok.imp_right
      rintro ⟨hregion, hlevel⟩
      refine ⟨?_, hlevel⟩
      unfold Draft.controlAt
      rw [hregion]
    apply ((appendOrderDependency_returns huser' huser hpred hcontrol).at ht).bind
    intro _
    exact returns_pure fun _ h => h
  · intro hdiffers
    apply returns_pure
    rintro _ rfl
    rcases hok with hin | ⟨hregion, -⟩
    · exact ht.known (ht.kept user pred hin)
    · exact absurd (hsame.2 hregion) hdiffers

theorem mem_foldl_joinedPairs {id user : Ref} {preds : List Ref} {c : List (Ref × Ref)}
    {q : Ref × Ref} :
    q ∈ preds.foldl (joinedPairs id user) c ↔
      q ∈ c ∨ (q.2 = user ∧ q.1 ∈ preds ∧ q.1 ≠ id ∧ q.1 ≠ user) := by
  induction preds generalizing c with
  | nil => simp
  | cons p preds ih =>
    rw [foldl_cons, ih, joinedPairs]
    split
    · next hself =>
      constructor
      · rintro (h | ⟨h, hm, hne⟩)
        · exact .inl h
        · exact .inr ⟨h, mem_cons_of_mem p hm, hne⟩
      · rintro (h | ⟨h, hm, hne⟩)
        · exact .inl h
        · rcases mem_cons.1 hm with rfl | hm
          · exact absurd hself (not_or.2 hne)
          · exact .inr ⟨h, hm, hne⟩
    · next hself =>
      rw [mem_append, mem_singleton]
      constructor
      · rintro ((h | rfl) | ⟨h, hm, hne⟩)
        · exact .inl h
        · exact .inr ⟨rfl, mem_cons_self, not_or.1 hself⟩
        · exact .inr ⟨h, mem_cons_of_mem p hm, hne⟩
      · rintro (h | ⟨h, hm, hne⟩)
        · exact .inl (.inl h)
        · rcases mem_cons.1 hm with rfl | hm
          · exact .inl (.inr (Prod.ext rfl h))
          · exact .inr ⟨h, hm, hne⟩

/-- The edges the splice leaves: what each user of the node was ordered after over it. -/
theorem spliceOrderEdgesOver_returns {id : Ref} (hlinked : Linked d₀)
    (halive : d₀.alive id = true)
    (hjoin : ∀ u ∈ d₀.usersOf id .order, u ≠ id → ∀ p ∈ d₀.inputsOf id .order,
      d₀.Joinable id u p) :
    Returns (fun d => Steady d₀ [] d ∧ d.inputsOf id .order = d₀.inputsOf id .order ∧
        ∀ u, u ∈ d.usersOf id .order ↔ u ∈ d₀.usersOf id .order)
      (spliceOrderEdgesOver id) fun _ d => ∃ pairs, Steady d₀ pairs d ∧
        ∀ u ∈ d₀.usersOf id .order, ∀ p ∈ d₀.inputsOf id .order, p ≠ id → p ≠ u →
          (p, u) ∈ pairs := by
  apply returns_get_bind
  rintro d ⟨hd, hinputs, husers⟩
  have hhere : ¬¬d.alive id = true := by
    rw [hd.still.alive]
    exact not_not.2 halive
  rw [if_neg hhere]
  apply returns_ite
  · intro hnone
    apply returns_pure
    rintro _ rfl
    refine ⟨[], hd, fun u hu p hp => ?_⟩
    rcases hnone with hnone | hnone
    · rw [hinputs] at hnone
      rw [hnone] at hp
      cases hp
    · rw [← husers, hnone] at hu
      cases hu
  intro _
  have hround : ∀ u ∈ d.usersOf id .order, ∀ c : List (Ref × Ref),
      Returns (Steady d₀ c)
        (do
          let d' ← get
          if d'.alive u then (d.inputsOf id .order).forM (spliceOrderEdge id u) else pure ())
        fun _ => Steady d₀ ((d.inputsOf id .order).foldl (joinedPairs id u) c) := by
    intro u hu c
    have hu₀ := (husers u).1 hu
    have hreads : id ∈ d₀.inputsOf u .order := ((hlinked.tracks .order id).2 u).1 hu₀
    have huser : d₀.alive u = true := alive_of_mem_inputsOf hreads
    apply returns_get_bind
    intro d' hd'
    rw [hd'.still.alive, huser, if_pos rfl]
    apply Returns.at _ hd'
    apply returns_forM
    intro p hp c'
    rw [hinputs] at hp
    apply spliceOrderEdge_returns huser (hlinked.live .order p id hp)
    by_cases hself : u = id
    · rw [hself]
      exact .inr (.inr (.inl hp))
    · exact hjoin u hu₀ hself p hp
  have hloop := @returns_forM _ _ _ _ _ (fun c u => (d.inputsOf id .order).foldl (joinedPairs id u) c)
    _ _ hround []
  apply (hloop.at hd).weaken
  intro _ t ht
  refine ⟨_, ht, fun u hu p hp hid hne => ?_⟩
  rw [hinputs]
  have hmem : ∀ (us : List Ref) (c : List (Ref × Ref)) (q : Ref × Ref),
      (q ∈ c ∨ q.2 ∈ us ∧ q.1 ∈ d₀.inputsOf id .order ∧ q.1 ≠ id ∧ q.1 ≠ q.2) →
        q ∈ us.foldl (fun c u => (d₀.inputsOf id .order).foldl (joinedPairs id u) c) c := by
    intro us
    induction us with
    | nil =>
      rintro c q (h | h)
      · exact h
      · exact absurd h.1 (by simp)
    | cons w us ih =>
      rintro c q (h | ⟨hw, hrest⟩)
      · exact ih _ q (.inl (mem_foldl_joinedPairs.2 (.inl h)))
      · rcases mem_cons.1 hw with rfl | hw
        · exact ih _ q (.inl (mem_foldl_joinedPairs.2 (.inr ⟨rfl, hrest⟩)))
        · exact ih _ q (.inr ⟨hw, hrest⟩)
  exact hmem _ [] (p, u) (.inr ⟨(husers u).2 hu, hp, hid, hne⟩)

end

/-! ## The Node Goes -/

/-- The same nodes, each reading all it read but `id`. -/
structure KeepsOthers (id : Ref) (d d' : Draft) : Prop where
  alive : ∀ k, d'.alive k = d.alive k
  reads : ∀ u slot x, x ≠ id → x ∈ d.inputsOf u slot → x ∈ d'.inputsOf u slot

section
variable {id : Ref}

theorem KeepsOthers.refl (d : Draft) : KeepsOthers id d d := ⟨fun _ => rfl, fun _ _ _ _ h => h⟩

theorem KeepsOthers.trans {d₁ d₂ d₃ : Draft} (h : KeepsOthers id d₁ d₂)
    (h' : KeepsOthers id d₂ d₃) : KeepsOthers id d₁ d₃ where
  alive k := (h'.alive k).trans (h.alive k)
  reads u slot x hx hmem := h'.reads u slot x hx (h.reads u slot x hx hmem)

theorem keepsOthers_of_sameNodes {d d' : Draft} (h : SameNodes d d') : KeepsOthers id d d' where
  alive := h.alive
  reads u slot x _ hmem := by
    rw [h.inputs]
    exact hmem

theorem keepsOthers_unlinkWhile (slot : DraftEdgeSlot) (user : Ref) (turns : Nat) :
    ∀ d : Draft, KeepsOthers id d (Draft.unlinkWhile slot user id turns d) := by
  induction turns with
  | zero => exact KeepsOthers.refl
  | succ turns ih =>
    intro d
    unfold Draft.unlinkWhile
    split
    · next d' hstep =>
      obtain ⟨-, halive, hinputs, -⟩ := becomes_unlinkInput hstep
      apply KeepsOthers.trans ⟨halive, fun u s x hx hmem => ?_⟩ (ih d')
      rw [hinputs, mem_setAt]
      by_cases hsu : s = slot ∧ u = user
      · obtain ⟨rfl, rfl⟩ := hsu
        exact .inr ⟨rfl, rfl, (mem_erase_of_ne hx).2 hmem⟩
      · exact .inl ⟨hmem, hsu⟩
    · exact KeepsOthers.refl d

theorem keepsOthers_unlinkAll (slot : DraftEdgeSlot) (users : List Ref) :
    ∀ d : Draft, KeepsOthers id d (d.unlinkAll id slot users) := by
  induction users with
  | nil => exact KeepsOthers.refl
  | cons user users ih =>
    intro d
    have hone : KeepsOthers id d (d.unlinkUser id slot user) := by
      unfold Draft.unlinkUser
      split
      · exact keepsOthers_unlinkWhile slot user _ d
      · exact KeepsOthers.refl d
    exact hone.trans (ih _)

theorem keepsOthers_drop (id : Ref) (d : Draft) (inputs users : DraftEdgeSlot → List Ref) :
    KeepsOthers id d ((d.dropInputs id inputs).dropUsers id users) := by
  apply (keepsOthers_of_sameNodes (sameNodes_dropInputs d id inputs)).trans
  apply (keepsOthers_unlinkAll .normalPorts (users .normalPorts) _).trans
  apply (keepsOthers_unlinkAll .contextPorts (users .contextPorts) _).trans
  apply (keepsOthers_unlinkAll .ctrl (users .ctrl) _).trans
  apply (keepsOthers_unlinkAll .order (users .order) _).trans
  exact keepsOthers_unlinkAll .sync (users .sync) _

end

/-! ## One Erasure -/

/-- `a` is an order predecessor of `b`. -/
def Draft.Before (d : Draft) (a b : Ref) : Prop := a ∈ d.inputsOf b .order

/-- There is a path of order edges from `a` to `b`. -/
def Draft.Ordered (d : Draft) : Ref → Ref → Prop := ReflTransGen d.Before

/-- The draft with the regions that the node owns dissolved. -/
def Draft.beforeSplice (d : Draft) (id : Ref) : Draft :=
  match d.node id with
  | some n => if n.kind = .brch ∨ n.kind = .loop then d.dissolveRegionsOf id else d
  | none => d

/-- Every node ordered after the erased one can be ordered after what that one was ordered
    after. -/
def Draft.OrderSpliceable (d : Draft) (id : Ref) : Prop :=
  ∀ u ∈ d.usersOf id .order, u ≠ id → ∀ p ∈ d.inputsOf id .order,
    (d.beforeSplice id).Joinable id u p

instance (d : Draft) (id : Ref) : Decidable (d.OrderSpliceable id) :=
  inferInstanceAs (Decidable (∀ u ∈ d.usersOf id .order, u ≠ id → ∀ p ∈ d.inputsOf id .order,
    (d.beforeSplice id).Joinable id u p))

theorem sameEdges_beforeSplice (d : Draft) (id : Ref) : SameEdges d (d.beforeSplice id) := by
  unfold Draft.beforeSplice
  split
  · split
    · exact sameEdges_dissolveRegionsOf d id
    · exact SameEdges.refl d
  · exact SameEdges.refl d

/-- What the last step of `eraseNode` starts from. -/
theorem splice_returns {d₀ : Draft} (hlinked : Linked d₀) (hbelow : RegionsBelow d₀.regions)
    (halive : d₀.alive id = true)
    (hjoin : ∀ u ∈ d₀.usersOf id .order, u ≠ id → ∀ p ∈ d₀.inputsOf id .order,
      d₀.Joinable id u p) :
    Returns (· = d₀) (closeChainOver id >>= fun _ => spliceOrderEdgesOver id) fun _ d =>
      ∃ pairs, Steady d₀ pairs d ∧
        ∀ u ∈ d₀.usersOf id .order, ∀ p ∈ d₀.inputsOf id .order, p ≠ id → p ≠ u →
          (p, u) ∈ pairs := by
  have hinv : Inv (fun k => d₀.alive k = true) (Around d₀ id) d₀ :=
    (Sound.mk hlinked hbelow).inv (around_self d₀ id)
  have hclose := (closeChainOver_returns [] hbelow id).and
    (closeChainOver_upholds (L := fun k => d₀.alive k = true) (closedOver_around d₀ id)).returns
  apply (hclose.at ⟨Steady.start d₀, hinv⟩).bind
  intro _
  apply returns_of_state
  rintro d ⟨hd, hkept, -⟩
  apply (spliceOrderEdgesOver_returns hlinked halive hjoin).at
  refine ⟨hd, congrFun hkept.shape.1 .order, fun u => ?_⟩
  -- the readers of the node are those it had: none is new, and no order edge has gone
  rw [(hkept.linked.tracks .order id).2 u, (hlinked.tracks .order id).2 u]
  exact ⟨fun hr => hkept.shape.2 u .order hr, fun hr => hd.kept u id hr⟩

/-- Erasing a node takes it out, and joins what it stood between. -/
theorem eraseNode_returns (h : Sound d) (hsplice : d.OrderSpliceable id) :
    Returns (· = d) (eraseNode id) fun _ d' =>
      (∀ k, d'.alive k = true ↔ k ≠ id ∧ d.alive k = true) ∧
        Bypasses d.Before d'.Before id := by
  have hsame := sameEdges_beforeSplice d id
  have hlinked := hsame.linked h.linked
  have hbelow := hsame.below h.below
  have husers : ∀ slot, (d.beforeSplice id).usersOf id slot = d.usersOf id slot := by
    intro slot
    unfold Draft.usersOf
    rw [hsame.users]
  apply returns_get_bind
  rintro d rfl
  apply (returns_ofExcept (Q := fun n s => s = d ∧ d.node id = some n)
    fun n s hn hs => ⟨hs, node_of_requireNode hn⟩).bind
  intro n
  apply returns_of_state
  rintro d ⟨rfl, hn⟩
  have hdissolve : Returns (· = d)
      (modify fun d => if n.kind = .brch ∨ n.kind = .loop then d.dissolveRegionsOf id else d :
        DraftM PUnit) fun _ s => s = d.beforeSplice id :=
    returns_modify fun s hs => by rw [hs, Draft.beforeSplice, hn]
  apply hdissolve.bind
  intro _
  apply returns_get_bind
  rintro d₀ rfl
  have halive : (d.beforeSplice id).alive id = true := (hsame.alive id).trans (alive_of_node hn)
  have hjoin : ∀ u ∈ (d.beforeSplice id).usersOf id .order, u ≠ id →
      ∀ p ∈ (d.beforeSplice id).inputsOf id .order, (d.beforeSplice id).Joinable id u p := by
    rw [husers, hsame.inputs]
    exact hsplice
  have hboth := splice_returns hlinked hbelow halive hjoin
  have hlast : Returns (· = d.beforeSplice id)
      ((closeChainOver id >>= fun _ => spliceOrderEdgesOver id) >>= fun _ =>
        modify fun now => ((now.dropInputs id ((d.beforeSplice id).inputsOf id)).dropUsers id
          ((d.beforeSplice id).usersOf id)).dropNode id)
      fun _ d' => (∀ k, d'.alive k = true ↔ k ≠ id ∧ d.alive k = true) ∧
        Bypasses d.Before d'.Before id := by
    apply hboth.bind
    intro _
    apply returns_modify
    rintro now ⟨pairs, hnow, hpairs⟩
    have hkeeps := keepsOthers_drop id now ((d.beforeSplice id).inputsOf id)
      ((d.beforeSplice id).usersOf id)
    refine ⟨fun k => ?_, fun a b ha hb hab => ?_, fun a b ha hb hne hbefore hafter => ?_⟩
    · rw [alive_dropNode, hkeeps.alive, hnow.still.alive, hsame.alive]
    · have hab : a ∈ (d.beforeSplice id).inputsOf b .order := by
        rw [hsame.inputs]
        exact hab
      apply (reads_dropNode _ id .order a b).2
      exact ⟨hkeeps.reads b .order a ha (hnow.kept b a hab), hb⟩
    · have huser : b ∈ (d.beforeSplice id).usersOf id .order := by
        rw [husers]
        exact ((h.linked.tracks .order id).2 b).2 hafter
      have hpred : a ∈ (d.beforeSplice id).inputsOf id .order := by
        rw [hsame.inputs]
        exact hbefore
      apply (reads_dropNode _ id .order a b).2
      exact ⟨hkeeps.reads b .order a ha (hnow.added (a, b) (hpairs b huser a hpred ha hne)), hb⟩
  rwa [bind_assoc] at hlast

/-! ## Runs of Erasures -/

/-- Erasures one after another, each at a node whose orderings can be joined. -/
inductive Erasures : Draft → Draft → Prop where
  | refl (d : Draft) : Erasures d d
  | step {d d' d'' : Draft} {id : Ref} (h : Erasures d d') (hsplice : d'.OrderSpliceable id)
    (herase : eraseNode id d' = .ok () d'') : Erasures d d''

theorem sound_of_erase (h : Sound d) (herase : eraseNode id d = .ok () d') :
    Sound d' := by
  have hafter : (Edit.eraseNode id).after d = d' := by
    show finalState (eraseNode id) d = d'
    rw [finalState, herase]
  rw [← hafter]
  exact sound_eraseNode h id

/-- The nodes that are left after a run of erasures are ordered as they were before it. -/
theorem orderings_survive {d d' : Draft} (h : Sound d) (hrun : Erasures d d') :
    Sound d' ∧ ∀ a b, d'.alive a = true → d'.alive b = true → d.Ordered a b → d'.Ordered a b := by
  induction hrun with
  | refl => exact ⟨h, fun _ _ _ _ hab => hab⟩
  | step hrest hsplice herase ih =>
    obtain ⟨hsound, hordered⟩ := ih
    obtain ⟨halive, hbypass⟩ := (eraseNode_returns hsound hsplice).run _ _ _ rfl herase
    refine ⟨sound_of_erase hsound herase, fun a b ha hb hab => ?_⟩
    obtain ⟨hane, ha⟩ := (halive a).1 ha
    obtain ⟨hbne, hb⟩ := (halive b).1 hb
    exact hbypass.path hane hbne (hordered a b ha hb hab)

/-- An erasure that does not fail leaves the draft after it. -/
theorem eraseNode_eq_after (id : Ref)
    (h : (match eraseNode id d with | .ok _ _ => true | .error _ _ => false) = true) :
    eraseNode id d = .ok () ((Edit.eraseNode id).after d) := by
  show eraseNode id d = .ok () (finalState (eraseNode id) d)
  unfold finalState
  split at h
  · next heq => rw [heq]
  · cases h

/-- Nodes in a row, each ordered after the one before it. -/
def orderedRow : List Edit :=
  [.addNode { kind := .oper },
    .addNode { kind := .oper, inputs := fun slot => if slot = .order then [0] else [] },
    .addNode { kind := .oper, inputs := fun slot => if slot = .order then [1] else [] },
    .addNode { kind := .oper, inputs := fun slot => if slot = .order then [2] else [] }]

theorem orderings_survive_row :
    ((Edit.run (orderedRow ++ [.eraseNode 1, .eraseNode 2]) {}).Ordered 0 3) := by
  have hstart : Sound (Edit.run orderedRow {}) := (Reachable.empty.run (by decide)).sound
  have hrun : Erasures (Edit.run orderedRow {})
      (Edit.run (orderedRow ++ [.eraseNode 1, .eraseNode 2]) {}) :=
    .step (.step (.refl _) (by decide) (eraseNode_eq_after 1 (by decide))) (by decide)
      (eraseNode_eq_after 2 (by decide))
  apply (orderings_survive hstart hrun).2 0 3 (by decide) (by decide)
  exact .head (show 0 ∈ _ by decide) (.head (show 1 ∈ _ by decide) (.single (show 2 ∈ _ by decide)))

/-- A node of an inlined body, one of the code around it after that, and a third after that. -/
def orderedOut : List Edit :=
  [.addRegion .inlined 0 kInvalidNodeRef,
    .addNode { kind := .oper },
    .setNodeRegion 0 1,
    .addNode { kind := .oper, inputs := fun slot => if slot = .order then [0] else [] },
    .addNode { kind := .oper, inputs := fun slot => if slot = .order then [1] else [] }]

/-- The inlined body runs with the code around it, and the order of the two ends is lost. -/
theorem eraseNode_loses_order :
    (Edit.run orderedOut {}).Ordered 0 2 ∧
      (Edit.run orderedOut {}).controlAt 0 = (Edit.run orderedOut {}).controlAt 2 ∧
      eraseNode 1 (Edit.run orderedOut {}) =
        .ok () ((Edit.eraseNode 1).after (Edit.run orderedOut {})) ∧
      ¬((Edit.eraseNode 1).after (Edit.run orderedOut {})).Ordered 0 2 := by
  refine ⟨.head (show 0 ∈ _ by decide) (.single (show 1 ∈ _ by decide)), by decide,
    eraseNode_eq_after 1 (by decide), fun h => ?_⟩
  have hnone : ((Edit.eraseNode 1).after (Edit.run orderedOut {})).inputsOf 2 .order = [] := by
    decide
  rcases ReflTransGen.cases_tail h with h | ⟨c, -, hc⟩
  · cases h
  · have hmem : c ∈ ((Edit.eraseNode 1).after (Edit.run orderedOut {})).inputsOf 2 .order := hc
    rw [hnone] at hmem
    cases hmem

end Camel.Draft
