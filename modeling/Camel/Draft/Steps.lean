import Camel.Draft.Linked

/-! # What One Edit Does to the Inputs

    For each edit that writes edges: the inputs it leaves, and that a linked draft
    is linked again after it.
-/

namespace Camel.Draft

open Lib List Function

/-! ## Writing One Node -/

/-- `d'` is `d` with the input map `m`: the same nodes are alive and hold the same payloads. -/
structure Becomes (d d' : Draft) (m : Ref → DraftEdgeSlot → List Ref) : Prop where
  alive : ∀ k, d'.alive k = d.alive k
  inputs : d'.inputsOf = m
  payload : ∀ k, d'.payloadOf k = d.payloadOf k
  regions : d'.regions = d.regions

variable {d d' : Draft} {m : Ref → DraftEdgeSlot → List Ref}

theorem Becomes.then {d'' : Draft} (h : Becomes d d' m)
    (h' : SameNodes d' d'') : Becomes d d'' m where
  alive k := (h'.alive k).trans (h.alive k)
  inputs := h'.inputs.trans h.inputs
  payload k := (h'.payload k).trans (h.payload k)
  regions := h'.regions.trans h.regions

theorem SameNodes.then {d'' : Draft}
    (h : SameNodes d d') (h' : Becomes d' d'' m) : Becomes d d'' m where
  alive k := (h'.alive k).trans (h.alive k)
  inputs := h'.inputs
  payload k := (h'.payload k).trans (h.payload k)
  regions := h'.regions.trans h.regions

variable {R : DraftEdgeSlot → Ref → Ref → Prop}

/-- A draft whose lists hold the relation of its new inputs is linked. -/
theorem linked_of_becomes
    (h : Becomes d d' m) (ht : d'.Tracks R)
    (hR : ∀ slot n u, R slot n u ↔ n ∈ m u slot)
    (hlive : ∀ slot n u, n ∈ m u slot → d.alive n = true) : Linked d' where
  tracks := by
    apply ht.congr
    intro slot n u
    rw [hR, Draft.Reads, h.inputs]
  live slot n u hr := by
    rw [Draft.Reads, h.inputs] at hr
    rw [h.alive]
    exact hlive slot n u hr

variable {id : Ref} {n : DraftNode}

theorem becomes_replace {n₀ : DraftNode} (h : d.node id = some n₀)
    (hp : n.payload = n₀.payload) :
    Becomes d (d.replaceNodeStorage id n) (update d.inputsOf id n.inputs) where
  alive := alive_replaceNodeStorage h n
  inputs := inputsOf_replaceNodeStorage h n
  payload := payloadOf_replace h hp
  regions := rfl

theorem tracks_replaceNodeStorage
    (h : d.Tracks R) (id : Ref) (n : DraftNode) : (d.replaceNodeStorage id n).Tracks R := h

@[simp] theorem withInputs_inputs (n : DraftNode) (slot : DraftEdgeSlot) (xs : List Ref) :
    (Draft.withInputs n slot xs).inputs = update n.inputs slot xs := by
  funext s
  exact rebuildNode_inputs ..

@[simp] theorem withInputs_payload (n : DraftNode) (slot : DraftEdgeSlot) (xs : List Ref) :
    (Draft.withInputs n slot xs).payload = n.payload :=
  rebuildNode_payload ..

theorem setAt_inputsOf (h : d.node id = some n)
    (slot : DraftEdgeSlot) (xs : List Ref) :
    update d.inputsOf id (update n.inputs slot xs) =
      setAt d.inputsOf id slot xs := by
  have : d.inputsOf id = n.inputs := funext fun s => inputsOf_of_node h s
  rw [setAt, this]

theorem SameNodes.node {d d' : Draft} (h : SameNodes d d') {id : Ref} {n : DraftNode}
    (hn : d.node id = some n) :
    ∃ n', d'.node id = some n' ∧ n'.inputs = n.inputs ∧ n'.payload = n.payload := by
  obtain ⟨n', hn'⟩ := exists_node_of_alive ((h.alive id).trans (alive_of_node hn))
  refine ⟨n', hn', ?_, ?_⟩
  · funext slot
    rw [← inputsOf_of_node hn', ← inputsOf_of_node hn, h.inputs]
  · rw [← payloadOf_of_node hn', ← payloadOf_of_node hn, h.payload]

/-! ## Whole Lists -/

/-- Setting one slot writes that slot and keeps the payload and every other input, in the block
    the node has or in a new one. -/
theorem becomes_setSlotInputs (hn : d.node id = some n)
    (slot : DraftEdgeSlot) (inputs : List Ref) :
    Becomes d (d.setSlotInputs id n slot inputs) (setAt d.inputsOf id slot inputs) := by
  unfold Draft.setSlotInputs
  have hremove := sameNodes_removeUserRefs (n.inputs slot) id slot d
  obtain ⟨n', hn', hin, hp⟩ := hremove.node hn
  have hstore := becomes_replace hn' ((withInputs_payload n slot inputs).trans hp.symm)
  have happend := sameNodes_appendUserRefs inputs id slot
    ((d.removeUserRefs (n.inputs slot) id slot).replaceNodeStorage id
      (Draft.withInputs n slot inputs))
  rw [withInputs_inputs, hremove.inputs, setAt_inputsOf hn] at hstore
  exact (hremove.then hstore).then happend

theorem linked_setSlotInputs (h : Linked d)
    (hn : d.node id = some n) (slot : DraftEdgeSlot) {inputs : List Ref}
    (hin : ∀ x ∈ inputs, d.alive x = true) : Linked (d.setSlotInputs id n slot inputs) := by
  have hold : ∀ x ∈ n.inputs slot, d.alive x = true := by
    intro x hx
    apply h.live slot x id
    rw [Draft.Reads, inputsOf_of_node hn]
    exact hx
  have hremove := sameNodes_removeUserRefs (n.inputs slot) id slot d
  have ht := tracks_removeUserRefs id slot (n.inputs slot) h.tracks hold
  obtain ⟨n', hn', -, -⟩ := hremove.node hn
  have ht' := tracks_appendUserRefs id slot inputs
    (tracks_replaceNodeStorage ht id (Draft.withInputs n slot inputs)) fun x hx => by
      rw [alive_replaceNodeStorage hn', hremove.alive]
      exact hin x hx
  apply linked_of_becomes (becomes_setSlotInputs hn slot inputs) ht'
  · intro s x u
    -- the pairs of `id` in this slot are gone and the new ones are there
    rw [mem_setAt, Draft.Reads]
    by_cases hsu : s = slot ∧ u = id
    · obtain ⟨rfl, rfl⟩ := hsu
      rw [inputsOf_of_node hn]
      tauto
    · tauto
  · intro s x u hx
    rw [mem_setAt] at hx
    rcases hx with ⟨hx, -⟩ | ⟨-, -, hx⟩
    · exact h.live s x u hx
    · exact hin x hx

theorem withBothPorts_inputs (n : DraftNode) (ports withPorts : List Ref) :
    (Draft.withBothPorts n ports withPorts).inputs =
      update (update n.inputs .normalPorts ports) .contextPorts withPorts := by
  funext s
  exact rebuildNode_inputs ..

theorem withBothPorts_payload (n : DraftNode) (ports withPorts : List Ref) :
    (Draft.withBothPorts n ports withPorts).payload = n.payload :=
  rebuildNode_payload ..

theorem becomes_setBothPorts (hn : d.node id = some n)
    (ports withPorts : List Ref) :
    Becomes d (d.setBothPorts id n ports withPorts)
      (setAt (setAt d.inputsOf id .normalPorts ports) id .contextPorts withPorts) := by
  have hremove := (sameNodes_removeUserRefs (n.inputs .normalPorts) id .normalPorts d).trans
    (sameNodes_removeUserRefs (n.inputs .contextPorts) id .contextPorts _)
  obtain ⟨n', hn', hin, hp⟩ := hremove.node hn
  have hstore := becomes_replace hn' ((withBothPorts_payload n ports withPorts).trans hp.symm)
  have hself : d.inputsOf id = n.inputs := funext fun s => inputsOf_of_node hn s
  have hset : update d.inputsOf id
      (update (update n.inputs .normalPorts ports) .contextPorts withPorts) =
      setAt (setAt d.inputsOf id .normalPorts ports) id .contextPorts withPorts := by
    rw [setAt, setAt, update_self, update_idem, hself]
  rw [withBothPorts_inputs, hremove.inputs, hset] at hstore
  apply ((hremove.then hstore).then _).then
  · exact sameNodes_appendUserRefs withPorts id .contextPorts _
  · exact sameNodes_appendUserRefs ports id .normalPorts _

theorem linked_setBothPorts (h : Linked d)
    (hn : d.node id = some n) {ports withPorts : List Ref}
    (hports : ∀ x ∈ ports, d.alive x = true) (hwith : ∀ x ∈ withPorts, d.alive x = true) :
    Linked (d.setBothPorts id n ports withPorts) := by
  have hold : ∀ slot, ∀ x ∈ n.inputs slot, d.alive x = true := by
    intro slot x hx
    apply h.live slot x id
    rw [Draft.Reads, inputsOf_of_node hn]
    exact hx
  have hfirst := sameNodes_removeUserRefs (n.inputs .normalPorts) id .normalPorts d
  have hremove := hfirst.trans
    (sameNodes_removeUserRefs (n.inputs .contextPorts) id .contextPorts _)
  obtain ⟨n', hn', -, -⟩ := hremove.node hn
  have ht := tracks_removeUserRefs id .contextPorts (n.inputs .contextPorts)
    (tracks_removeUserRefs id .normalPorts (n.inputs .normalPorts) h.tracks (hold .normalPorts))
    fun x hx => by
      rw [hfirst.alive]
      exact hold .contextPorts x hx
  have ht' := tracks_appendUserRefs id .normalPorts ports
    (tracks_replaceNodeStorage ht id (Draft.withBothPorts n ports withPorts))
    fun x hx => by
      rw [alive_replaceNodeStorage hn', hremove.alive]
      exact hports x hx
  have ht'' := tracks_appendUserRefs id .contextPorts withPorts ht' fun x hx => by
    rw [(sameNodes_appendUserRefs ports id .normalPorts _).alive, alive_replaceNodeStorage hn',
      hremove.alive]
    exact hwith x hx
  apply linked_of_becomes (becomes_setBothPorts hn ports withPorts) ht''
  · intro s x u
    rw [mem_setAt, mem_setAt, Draft.Reads]
    by_cases hu : u = id
    · subst hu
      rw [inputsOf_of_node hn]
      cases s <;> simp
    · simp [hu]
  · intro s x u hx
    rw [mem_setAt, mem_setAt] at hx
    rcases hx with ⟨⟨hx, -⟩ | ⟨-, -, hx⟩, -⟩ | ⟨-, -, hx⟩
    · exact h.live s x u hx
    · exact hports x hx
    · exact hwith x hx

/-! ## One Edge -/

variable {user : Ref}

theorem becomes_linkInput (hn : d.node user = some n)
    (slot : DraftEdgeSlot) (input : Ref) :
    Becomes d (d.linkInput slot user input n)
      (setAt d.inputsOf user slot (d.inputsOf user slot ++ [input])) := by
  have hstore := becomes_replace hn (n.appendEntry_payload slot input)
  rw [DraftNode.appendEntry_inputs, setAt_inputsOf hn, ← inputsOf_of_node hn] at hstore
  exact hstore.then (sameNodes_appendUserRef ..)

theorem linked_linkInput (h : Linked d) {input : Ref}
    (hn : d.node user = some n) (ha : d.alive input = true) (slot : DraftEdgeSlot) :
    Linked (d.linkInput slot user input n) := by
  have ht := tracks_appendUserRef (tracks_replaceNodeStorage h.tracks user (n.appendEntry slot input))
    ((alive_replaceNodeStorage hn _ input).trans ha) user slot
  apply linked_of_becomes (becomes_linkInput hn slot input) ht
  · intro s x u
    rw [mem_setAt, Draft.Reads, mem_append, mem_singleton]
    by_cases hsu : s = slot ∧ u = user
    · obtain ⟨rfl, rfl⟩ := hsu
      tauto
    · tauto
  · intro s x u hx
    rw [mem_setAt, mem_append, mem_singleton] at hx
    rcases hx with ⟨hx, -⟩ | ⟨-, -, hx | rfl⟩
    · exact h.live s x u hx
    · exact h.live slot x user hx
    · exact ha

/-! ## Replacing Uses -/

variable {oldId newId : Ref}

theorem mem_map_replaceRef {x : Ref} {xs : List Ref} (hold : oldId ∈ xs) :
    x ∈ xs.map (replaceRef oldId newId) ↔ (x ∈ xs ∧ x ≠ oldId) ∨ x = newId := by
  rw [mem_map]
  constructor
  · rintro ⟨y, hy, rfl⟩
    unfold replaceRef
    split
    · exact .inr rfl
    · next hne => exact .inl ⟨hy, hne⟩
  · rintro (⟨hx, hne⟩ | rfl)
    · exact ⟨x, hx, if_neg hne⟩
    · exact ⟨oldId, hold, if_pos rfl⟩

theorem becomes_replaceUse (hn : d.node user = some n)
    (oldId newId : Ref) (slot : DraftEdgeSlot) :
    Becomes d (d.replaceUse oldId newId slot user)
      (setAt d.inputsOf user slot ((d.inputsOf user slot).map (replaceRef oldId newId))) := by
  have hstore := becomes_replace hn
    (withInputs_payload n slot ((n.inputs slot).map (replaceRef oldId newId)))
  rw [withInputs_inputs, setAt_inputsOf hn, ← inputsOf_of_node hn] at hstore
  rw [Draft.replaceUse, hn]
  simp only
  rw [← inputsOf_of_node hn]
  exact (hstore.then (sameNodes_removeUserRef ..)).then (sameNodes_appendUserRef ..)

theorem linked_replaceUse (h : Linked d)
    {slot : DraftEdgeSlot} (hread : d.Reads slot oldId user) (hnew : d.alive newId = true) :
    Linked (d.replaceUse oldId newId slot user) := by
  obtain ⟨n, hn⟩ := exists_node_of_alive (alive_of_mem_inputsOf hread)
  have hbecomes := becomes_replaceUse hn oldId newId slot
  have hin := inputsOf_of_node hn slot
  have ht : (d.replaceUse oldId newId slot user).Tracks fun s x u =>
      (d.Reads s x u ∧ ¬ (s = slot ∧ x = oldId ∧ u = user)) ∨
        (s = slot ∧ x = newId ∧ u = user) := by
    rw [Draft.replaceUse, hn]
    have hstored := tracks_removeUserRef
      (tracks_replaceNodeStorage h.tracks user
        (Draft.withInputs n slot ((n.inputs slot).map (replaceRef oldId newId))))
      ((alive_replaceNodeStorage hn _ oldId).trans (h.live slot oldId user hread)) user slot
    apply tracks_appendUserRef hstored
    rw [(sameNodes_removeUserRef ..).alive, alive_replaceNodeStorage hn]
    exact hnew
  apply linked_of_becomes hbecomes ht
  · intro s x u
    rw [mem_setAt, mem_map_replaceRef hread, Draft.Reads]
    by_cases hsu : s = slot ∧ u = user
    · obtain ⟨rfl, rfl⟩ := hsu
      tauto
    · tauto
  · intro s x u hx
    rw [mem_setAt, mem_map_replaceRef hread] at hx
    rcases hx with ⟨hx, -⟩ | ⟨-, -, ⟨hx, -⟩ | rfl⟩
    · exact h.live s x u hx
    · exact h.live slot x user hx
    · exact hnew

/-- The readers are listed once, so each still reads `oldId` when its turn comes. -/
theorem linked_replaceUsesInList {slot : DraftEdgeSlot} (users : List Ref) :
    ∀ {d : Draft}, Linked d → users.Nodup → (∀ u ∈ users, d.Reads slot oldId u) →
      d.alive newId = true →
      Linked (d.replaceUsesInList users oldId newId slot) ∧
        (∀ k, (d.replaceUsesInList users oldId newId slot).alive k = d.alive k) ∧
        (d.replaceUsesInList users oldId newId slot).regions = d.regions := by
  induction users with
  | nil =>
    intro d h _ _ _
    exact ⟨h, fun _ => rfl, rfl⟩
  | cons user users ih =>
    intro d h hnd hread hnew
    obtain ⟨hnot, hnd⟩ := nodup_cons.1 hnd
    have huser := hread user mem_cons_self
    obtain ⟨n, hn⟩ := exists_node_of_alive (alive_of_mem_inputsOf huser)
    have hbecomes := becomes_replaceUse hn oldId newId slot
    have hstep := linked_replaceUse h huser hnew
    have hrest : ∀ u ∈ users, (d.replaceUse oldId newId slot user).Reads slot oldId u := by
      intro u hu
      have hne : u ≠ user := by
        rintro rfl
        exact hnot hu
      rw [Draft.Reads, hbecomes.inputs, setAt_of_ne_id hne]
      exact hread u (mem_cons_of_mem user hu)
    obtain ⟨hl, ha, hregions⟩ := ih hstep hnd hrest ((hbecomes.alive newId).trans hnew)
    exact ⟨hl, fun k => (ha k).trans (hbecomes.alive k), hregions.trans hbecomes.regions⟩

/-! ## A New Node -/

@[simp] theorem noteNodeKind_node (d : Draft) (id : Ref) (kind : GCNodeKind) (k : Ref) :
    (d.noteNodeKind id kind).node k = d.node k := by
  unfold Draft.noteNodeKind
  split <;> rfl

@[simp] theorem noteNodeKind_users (d : Draft) (id : Ref) (kind : GCNodeKind) :
    (d.noteNodeKind id kind).users = d.users := by
  unfold Draft.noteNodeKind
  split <;> rfl

@[simp] theorem noteNodeKind_regions (d : Draft) (id : Ref) (kind : GCNodeKind) :
    (d.noteNodeKind id kind).regions = d.regions := by
  unfold Draft.noteNodeKind
  split <;> rfl

/-- The node that is pushed stands behind the others. -/
theorem node_pushNode (d : Draft) (init : DraftNodeInit) (k : Ref) :
    (d.pushNode init).node k =
      if k = d.nodesById.length then
        some { rebuildNode none init with region := d.regionFor init }
      else d.node k := by
  unfold Draft.pushNode
  simp only [noteNodeKind_node]
  unfold Draft.node
  simp only
  rcases Nat.lt_trichotomy k d.nodesById.length with hlt | heq | hgt
  · rw [getElem?_append_left hlt, if_neg (Nat.ne_of_lt hlt)]
  · subst heq
    simp
  · rw [if_neg (Nat.ne_of_gt hgt), getElem?_eq_none (by simp; omega),
      getElem?_eq_none (Nat.le_of_lt hgt)]

theorem node_length (d : Draft) : d.node d.nodesById.length = none := by
  rw [Draft.node, getElem?_eq_none le_rfl]
  rfl

theorem alive_pushNode (d : Draft) (init : DraftNodeInit) (k : Ref) :
    (d.pushNode init).alive k = true ↔ k = d.nodesById.length ∨ d.alive k = true := by
  rw [Draft.alive, Draft.alive, node_pushNode]
  split
  · next hk => simp [hk]
  · next hk => simp [hk]

theorem inputsOf_pushNode (d : Draft) (init : DraftNodeInit) :
    (d.pushNode init).inputsOf = update d.inputsOf d.nodesById.length init.inputs := by
  funext k slot
  by_cases hk : k = d.nodesById.length
  · subst hk
    rw [update_self, Draft.inputsOf, node_pushNode, if_pos rfl]
    exact rebuildNode_inputs none init slot
  · rw [update_of_ne hk, Draft.inputsOf, node_pushNode, if_neg hk, Draft.inputsOf]

theorem sameNodes_linkNew (d : Draft) (id : Ref) (init : DraftNodeInit) :
    SameNodes d (d.linkNew id init) := by
  apply (sameNodes_appendUserRefs (init.inputs .normalPorts) id .normalPorts d).trans
  apply (sameNodes_appendUserRefs (init.inputs .contextPorts) id .contextPorts _).trans
  apply (sameNodes_appendUserRefs (init.inputs .ctrl) id .ctrl _).trans
  apply (sameNodes_appendUserRefs (init.inputs .order) id .order _).trans
  exact sameNodes_appendUserRefs (init.inputs .sync) id .sync _

theorem tracks_linkNew (h : d.Tracks R)
    (id : Ref) {init : DraftNodeInit} (hin : ∀ slot, ∀ x ∈ init.inputs slot, d.alive x = true) :
    (d.linkNew id init).Tracks fun s n u => R s n u ∨ (u = id ∧ n ∈ init.inputs s) := by
  have step : ∀ {d' : Draft} {R : DraftEdgeSlot → Ref → Ref → Prop} (slot : DraftEdgeSlot),
      SameNodes d d' → d'.Tracks R →
      SameNodes d (d'.appendUserRefs (init.inputs slot) id slot) ∧
      (d'.appendUserRefs (init.inputs slot) id slot).Tracks fun s n u =>
        R s n u ∨ (s = slot ∧ u = id ∧ n ∈ init.inputs slot) := by
    intro d' R slot hsame ht
    refine ⟨hsame.trans (sameNodes_appendUserRefs ..), ?_⟩
    apply tracks_appendUserRefs id slot _ ht
    intro x hx
    rw [hsame.alive]
    exact hin slot x hx
  obtain ⟨hs₁, ht₁⟩ := step .normalPorts (SameNodes.refl d) h
  obtain ⟨hs₂, ht₂⟩ := step .contextPorts hs₁ ht₁
  obtain ⟨hs₃, ht₃⟩ := step .ctrl hs₂ ht₂
  obtain ⟨hs₄, ht₄⟩ := step .order hs₃ ht₃
  obtain ⟨hs₅, ht₅⟩ := step .sync hs₄ ht₄
  apply ht₅.congr
  intro s n u
  cases s <;> simp

theorem linked_addNode (h : Linked d) {init : DraftNodeInit}
    (hin : ∀ slot, ∀ x ∈ init.inputs slot, d.alive x = true) :
    Linked ((d.pushNode init).linkNew d.nodesById.length init) := by
  have halive : ∀ x, d.alive x = true → (d.pushNode init).alive x = true := by
    intro x hx
    rw [alive_pushNode]
    exact .inr hx
  have hfresh : ∀ slot, d.inputsOf d.nodesById.length slot = [] := by
    intro slot
    rw [Draft.inputsOf, node_length]
  have hsame := sameNodes_linkNew (d.pushNode init) d.nodesById.length init
  have hpushed : (d.pushNode init).Tracks d.Reads := by
    intro slot n
    unfold Draft.usersOf Draft.pushNode
    simp only [noteNodeKind_users]
    exact h.tracks slot n
  have ht := tracks_linkNew hpushed d.nodesById.length
    fun slot x hx => halive x (hin slot x hx)
  have hreads : ∀ slot n u, ((d.pushNode init).linkNew d.nodesById.length init).Reads slot n u ↔
      d.Reads slot n u ∨ (u = d.nodesById.length ∧ n ∈ init.inputs slot) := by
    intro slot n u
    rw [Draft.Reads, hsame.inputs, inputsOf_pushNode]
    by_cases hu : u = d.nodesById.length
    · subst hu
      rw [update_self, Draft.Reads, hfresh]
      simp
    · rw [update_of_ne hu]
      simp [hu, Draft.Reads]
  constructor
  · apply ht.congr
    intro slot n u
    rw [hreads]
  · intro slot n u hr
    rw [hsame.alive]
    apply halive
    rcases (hreads slot n u).1 hr with hr | ⟨-, hr⟩
    · exact h.live slot n u hr
    · exact hin slot n hr

end Camel.Draft
