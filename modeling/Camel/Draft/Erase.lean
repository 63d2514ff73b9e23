import Camel.Draft.Steps

/-! # Erasing a Node

    A node is erased in three steps. Its inputs lose it as a user, its users stop
    reading it, and then it goes. After the first step the lists hold the readings
    of all nodes but this one, which is what the second step keeps.
-/

namespace Camel.Draft

open Lib Function List

/-! ## The Inputs Lose Their User -/

/-- The lists hold the readings of every node but `id`. -/
def Detached (d : Draft) (id : Ref) : Prop := d.Tracks fun slot n u => d.Reads slot n u ∧ u ≠ id

theorem sameNodes_dropInputs (d : Draft) (id : Ref) (inputs : DraftEdgeSlot → List Ref) :
    SameNodes d (d.dropInputs id inputs) := by
  apply (sameNodes_removeUserRefs (inputs .normalPorts) id .normalPorts d).trans
  apply (sameNodes_removeUserRefs (inputs .contextPorts) id .contextPorts _).trans
  apply (sameNodes_removeUserRefs (inputs .ctrl) id .ctrl _).trans
  apply (sameNodes_removeUserRefs (inputs .order) id .order _).trans
  exact sameNodes_removeUserRefs (inputs .sync) id .sync _

variable {d : Draft}

theorem detached_dropInputs (h : Linked d) (id : Ref) :
    Detached (d.dropInputs id (d.inputsOf id)) id := by
  have step : ∀ {d' : Draft} {R : DraftEdgeSlot → Ref → Ref → Prop} (slot : DraftEdgeSlot),
      SameNodes d d' → d'.Tracks R →
      SameNodes d (d'.removeUserRefs (d.inputsOf id slot) id slot) ∧
      (d'.removeUserRefs (d.inputsOf id slot) id slot).Tracks fun s n u =>
        R s n u ∧ ¬ (s = slot ∧ u = id ∧ n ∈ d.inputsOf id slot) := by
    intro d' R slot hsame ht
    refine ⟨hsame.trans (sameNodes_removeUserRefs ..), ?_⟩
    apply tracks_removeUserRefs id slot _ ht
    intro x hx
    rw [hsame.alive]
    exact h.live slot x id hx
  obtain ⟨hs₁, ht₁⟩ := step .normalPorts (SameNodes.refl d) h.tracks
  obtain ⟨hs₂, ht₂⟩ := step .contextPorts hs₁ ht₁
  obtain ⟨hs₃, ht₃⟩ := step .ctrl hs₂ ht₂
  obtain ⟨hs₄, ht₄⟩ := step .order hs₃ ht₃
  obtain ⟨hs₅, ht₅⟩ := step .sync hs₄ ht₄
  apply Draft.Tracks.congr ht₅
  intro s n u
  rw [Draft.Reads, Draft.Reads, (sameNodes_dropInputs d id (d.inputsOf id)).inputs]
  by_cases hu : u = id
  · subst hu
    cases s <;> simp
  · simp [hu]

/-! ## The Users Stop Reading -/

/-- The same nodes, and no node reads more than it did. -/
structure Shrinks (d d' : Draft) : Prop where
  alive : ∀ k, d'.alive k = d.alive k
  reads : ∀ slot n u, d'.Reads slot n u → d.Reads slot n u
  regions : d'.regions = d.regions

theorem Shrinks.refl (d : Draft) : Shrinks d d := ⟨fun _ => rfl, fun _ _ _ h => h, rfl⟩

theorem Shrinks.trans {d₁ d₂ d₃ : Draft} (h : Shrinks d₁ d₂) (h' : Shrinks d₂ d₃) :
    Shrinks d₁ d₃ where
  alive k := (h'.alive k).trans (h.alive k)
  reads slot n u hr := h.reads slot n u (h'.reads slot n u hr)
  regions := h'.regions.trans h.regions

section
variable {id : Ref}

variable {d' : Draft} {slot : DraftEdgeSlot} {user : Ref}

theorem becomes_unlinkInput {d : Draft}
    (h : d.unlinkInput slot user id = some d') :
    id ∈ d.inputsOf user slot ∧ (∀ k, d'.alive k = d.alive k) ∧
      d'.inputsOf = setAt d.inputsOf user slot ((d.inputsOf user slot).erase id) ∧
      d'.regions = d.regions := by
  unfold Draft.unlinkInput at h
  split at h
  · cases h
  · next n hn =>
    obtain ⟨n', hdrop, hd'⟩ := Option.map_eq_some_iff.1 h
    obtain ⟨hmem, hinputs⟩ := DraftNode.dropEntry_inputs hdrop
    have hstored : (d.replaceNodeStorage user n').inputsOf =
        setAt d.inputsOf user slot ((d.inputsOf user slot).erase id) := by
      rw [inputsOf_replaceNodeStorage hn, hinputs, setAt_inputsOf hn, inputsOf_of_node hn]
    rw [inputsOf_of_node hn] at hstored ⊢
    simp only at hd'
    split at hd'
    · subst hd'
      exact ⟨hmem, alive_replaceNodeStorage hn n', hstored, rfl⟩
    · subst hd'
      have hsame := sameNodes_removeUserRef (d.replaceNodeStorage user n') id user slot
      refine ⟨hmem, fun k => ?_, hsame.inputs.trans hstored, hsame.regions⟩
      rw [hsame.alive, alive_replaceNodeStorage hn]

theorem shrinks_unlinkInput {d : Draft}
    (h : d.unlinkInput slot user id = some d') : Shrinks d d' := by
  obtain ⟨-, halive, hinputs, hregions⟩ := becomes_unlinkInput h
  constructor
  · exact halive
  · intro s n u hr
    rw [Draft.Reads, hinputs, mem_setAt] at hr
    rcases hr with ⟨hr, -⟩ | ⟨rfl, rfl, hr⟩
    · exact hr
    · exact mem_of_mem_erase hr
  · exact hregions

/-- An entry taken out: the user leaves the list with the last of them. -/
theorem detached_unlinkInput {d : Draft} (hd : Detached d id)
    (ha : d.alive id = true) (hu : user ≠ id) (h : d.unlinkInput slot user id = some d') :
    Detached d' id := by
  obtain ⟨hmem, -, hinputs, -⟩ := becomes_unlinkInput h
  have hself : d'.inputsOf user slot = (d.inputsOf user slot).erase id := by
    rw [hinputs, setAt_self]
  have hreads : ∀ s n u, ¬ (s = slot ∧ u = user) → (d'.Reads s n u ↔ d.Reads s n u) := by
    intro s n u hne
    rw [Draft.Reads, hinputs, mem_setAt, Draft.Reads]
    tauto
  have hother : ∀ n, n ≠ id → (d'.Reads slot n user ↔ d.Reads slot n user) := by
    intro n hn
    rw [Draft.Reads, hself, mem_erase_of_ne hn, Draft.Reads]
  unfold Draft.unlinkInput at h
  split at h
  · cases h
  · next n hn =>
    obtain ⟨n', -, hd'⟩ := Option.map_eq_some_iff.1 h
    simp only at hd'
    split at hd'
    · -- another entry names `id`: the readings are what they were
      next hstill =>
      have hr : d'.Reads slot id user := by
        subst hd'
        rw [Draft.Reads, inputsOf_replaceNodeStorage hn, update_self]
        exact hstill
      have ht : d'.Tracks fun s n u => d.Reads s n u ∧ u ≠ id := by
        subst hd'
        exact tracks_replaceNodeStorage hd user n'
      apply ht.congr
      intro s x u
      apply and_congr_left'
      by_cases hsu : s = slot ∧ u = user
      · obtain ⟨rfl, rfl⟩ := hsu
        by_cases hx : x = id
        · subst hx
          exact ⟨fun _ => hr, fun _ => hmem⟩
        · exact (hother x hx).symm
      · exact (hreads s x u hsu).symm
    · next hgone =>
      have hr : ¬ d'.Reads slot id user := by
        subst hd'
        rw [Draft.Reads, (sameNodes_removeUserRef ..).inputs, inputsOf_replaceNodeStorage hn,
          update_self]
        exact hgone
      have ht : d'.Tracks fun s n u =>
          (d.Reads s n u ∧ u ≠ id) ∧ ¬ (s = slot ∧ n = id ∧ u = user) := by
        subst hd'
        apply tracks_removeUserRef (tracks_replaceNodeStorage hd user n')
        rw [alive_replaceNodeStorage hn]
        exact ha
      apply ht.congr
      intro s x u
      by_cases hsu : s = slot ∧ u = user
      · obtain ⟨rfl, rfl⟩ := hsu
        by_cases hx : x = id
        · subst hx
          tauto
        · have := hother x hx
          tauto
      · have := hreads s x u hsu
        tauto

/-- The loop ends with the user reading `id` no more. -/
theorem unlinkWhile_spec (slot : DraftEdgeSlot) (hu : user ≠ id) (turns : Nat) :
    ∀ {d : Draft}, Detached d id → d.alive id = true →
      (d.inputsOf user slot).length ≤ turns →
      Shrinks d (Draft.unlinkWhile slot user id turns d) ∧
        Detached (Draft.unlinkWhile slot user id turns d) id ∧
        ¬ (Draft.unlinkWhile slot user id turns d).Reads slot id user := by
  induction turns with
  | zero =>
    intro d hd _ hlen
    have hnil : d.inputsOf user slot = [] := eq_nil_of_length_eq_zero (Nat.le_zero.1 hlen)
    refine ⟨Shrinks.refl d, hd, ?_⟩
    rw [Draft.unlinkWhile, Draft.Reads, hnil]
    simp
  | succ turns ih =>
    intro d hd ha hlen
    unfold Draft.unlinkWhile
    split
    · next d' hstep =>
      obtain ⟨hmem, halive, hinputs, -⟩ := becomes_unlinkInput hstep
      have hlen' : (d'.inputsOf user slot).length ≤ turns := by
        rw [hinputs, setAt_self, length_erase_of_mem hmem]
        omega
      obtain ⟨hs, hd', hr⟩ := ih (detached_unlinkInput hd ha hu hstep)
        ((halive id).trans ha) hlen'
      exact ⟨(shrinks_unlinkInput hstep).trans hs, hd', hr⟩
    · next hstep =>
      refine ⟨Shrinks.refl d, hd, ?_⟩
      intro hr
      obtain ⟨n, hn⟩ := exists_node_of_alive (alive_of_mem_inputsOf hr)
      rw [Draft.unlinkInput, hn] at hstep
      rw [Draft.Reads, inputsOf_of_node hn] at hr
      exact DraftNode.dropEntry_eq_none.1 (Option.map_eq_none_iff.1 hstep) hr

theorem unlinkUser_spec {d : Draft} (hd : Detached d id) (ha : d.alive id = true)
    (slot : DraftEdgeSlot) (user : Ref) :
    Shrinks d (d.unlinkUser id slot user) ∧ Detached (d.unlinkUser id slot user) id ∧
      (user ≠ id → ¬ (d.unlinkUser id slot user).Reads slot id user) := by
  unfold Draft.unlinkUser
  split
  · next h =>
    obtain ⟨hs, hd', hr⟩ := unlinkWhile_spec slot h.1 _ hd ha le_rfl
    exact ⟨hs, hd', fun _ => hr⟩
  · next h =>
    refine ⟨Shrinks.refl d, hd, ?_⟩
    intro hu hr
    exact h ⟨hu, alive_of_mem_inputsOf hr⟩

theorem unlinkAll_spec (slot : DraftEdgeSlot) (users : List Ref) :
    ∀ {d : Draft}, Detached d id → d.alive id = true →
      Shrinks d (d.unlinkAll id slot users) ∧ Detached (d.unlinkAll id slot users) id ∧
        ∀ u ∈ users, u ≠ id → ¬ (d.unlinkAll id slot users).Reads slot id u := by
  induction users with
  | nil =>
    intro d hd _
    exact ⟨Shrinks.refl d, hd, by simp⟩
  | cons user users ih =>
    intro d hd ha
    obtain ⟨hs, hd', hr⟩ := unlinkUser_spec hd ha slot user
    obtain ⟨hs', hd'', hr'⟩ := ih hd' ((hs.alive id).trans ha)
    refine ⟨hs.trans hs', hd'', fun u hmem hu => ?_⟩
    rcases mem_cons.1 hmem with rfl | hmem
    · -- what this user reads only shrinks after its turn
      intro hread
      exact hr hu (hs'.reads slot id u hread)
    · exact hr' u hmem hu

end

variable {id : Ref}

/-- Several slots one after the other. -/
theorem unlinkSlots_spec (users : DraftEdgeSlot → List Ref) (slots : List DraftEdgeSlot) :
    ∀ {d : Draft}, Detached d id → d.alive id = true →
      Shrinks d (slots.foldl (fun d slot => d.unlinkAll id slot (users slot)) d) ∧
        Detached (slots.foldl (fun d slot => d.unlinkAll id slot (users slot)) d) id ∧
        ∀ slot ∈ slots, ∀ u ∈ users slot, u ≠ id →
          ¬ (slots.foldl (fun d slot => d.unlinkAll id slot (users slot)) d).Reads slot id u := by
  induction slots with
  | nil =>
    intro d hd _
    exact ⟨Shrinks.refl d, hd, by simp⟩
  | cons slot slots ih =>
    intro d hd ha
    obtain ⟨hs, hd', hr⟩ := unlinkAll_spec slot (users slot) hd ha
    obtain ⟨hs', hd'', hr'⟩ := ih hd' ((hs.alive id).trans ha)
    refine ⟨hs.trans hs', hd'', fun t ht u hu hne => ?_⟩
    rcases mem_cons.1 ht with rfl | ht
    · intro hread
      exact hr u hu hne (hs'.reads t id u hread)
    · exact hr' t ht u hu hne

theorem mem_allSlots (slot : DraftEdgeSlot) : slot ∈ allSlots := by
  rw [allSlots_eq slot]
  simp

variable {users : DraftEdgeSlot → List Ref}

/-- With all readers in `users`, none but the node itself reads it in the end. -/
theorem dropUsers_spec (hd : Detached d id) (ha : d.alive id = true)
    (husers : ∀ slot u, d.Reads slot id u → u ∈ users slot) :
    Shrinks d (d.dropUsers id users) ∧ Detached (d.dropUsers id users) id ∧
      ∀ slot u, u ≠ id → ¬ (d.dropUsers id users).Reads slot id u := by
  have heq : d.dropUsers id users =
      allSlots.foldl (fun d slot => d.unlinkAll id slot (users slot)) d := rfl
  obtain ⟨hs, hd', hr⟩ := unlinkSlots_spec users allSlots hd ha
  rw [heq]
  refine ⟨hs, hd', fun slot u hne hread => ?_⟩
  exact hr slot (mem_allSlots slot) u (husers slot u (hs.reads slot id u hread)) hne hread

/-! ## The Node Goes -/

theorem node_dropNode (d : Draft) (id k : Ref) :
    (d.dropNode id).node k = if k = id then none else d.node k := by
  unfold Draft.node Draft.dropNode
  simp only
  by_cases hk : k = id
  · subst hk
    rw [if_pos rfl, getElem?_set_self']
    cases d.nodesById[k]? <;> rfl
  · rw [if_neg hk, getElem?_set_ne (Ne.symm hk)]

theorem alive_dropNode (d : Draft) (id k : Ref) :
    (d.dropNode id).alive k = true ↔ k ≠ id ∧ d.alive k = true := by
  rw [Draft.alive, node_dropNode, Draft.alive]
  split
  · next hk => simp [hk]
  · next hk => simp [hk]

theorem reads_dropNode (d : Draft) (id : Ref) (slot : DraftEdgeSlot) (n u : Ref) :
    (d.dropNode id).Reads slot n u ↔ d.Reads slot n u ∧ u ≠ id := by
  unfold Draft.Reads Draft.inputsOf
  rw [node_dropNode]
  by_cases hu : u = id
  · simp [hu]
  · simp [hu]

theorem linked_dropNode (hd : Detached d id)
    (hgone : ∀ slot u, u ≠ id → ¬ d.Reads slot id u)
    (hlive : ∀ slot n u, d.Reads slot n u → d.alive n = true) : Linked (d.dropNode id) where
  tracks := by
    intro slot n
    unfold Draft.usersOf Draft.dropNode
    simp only
    by_cases hn : n = id
    · subst hn
      rw [update_self]
      refine ⟨IndexedList.valid_empty, fun u => ?_⟩
      constructor
      · rintro ⟨⟩
      · intro hr
        obtain ⟨hr, hu⟩ := (reads_dropNode d n slot n u).1 hr
        exact absurd hr (hgone slot u hu)
    · rw [update_of_ne hn]
      refine ⟨(hd slot n).1, fun u => ?_⟩
      exact ((hd slot n).2 u).trans (reads_dropNode d id slot n u).symm
  live slot n u hr := by
    obtain ⟨hread, hu⟩ := (reads_dropNode d id slot n u).1 hr
    rw [alive_dropNode]
    constructor
    · intro hn
      rw [hn] at hread
      exact hgone slot u hu hread
    · exact hlive slot n u hread

/-- The last step of `eraseNode`, from a linked draft in which `users` has every reader of
    the node. -/
theorem linked_drop (h : Linked d) (ha : d.alive id = true)
    {inputs : DraftEdgeSlot → List Ref} (hinputs : inputs = d.inputsOf id)
    (husers : ∀ slot u, d.Reads slot id u → u ∈ users slot) :
    Linked (((d.dropInputs id inputs).dropUsers id users).dropNode id) := by
  subst hinputs
  have hsame := sameNodes_dropInputs d id (d.inputsOf id)
  have hreads : ∀ slot n u, (d.dropInputs id (d.inputsOf id)).Reads slot n u ↔
      d.Reads slot n u := by
    intro slot n u
    rw [Draft.Reads, hsame.inputs, Draft.Reads]
  obtain ⟨hs, hd, hgone⟩ := dropUsers_spec (detached_dropInputs h id)
    ((hsame.alive id).trans ha) fun slot u hr => husers slot u ((hreads slot id u).1 hr)
  apply linked_dropNode hd hgone
  intro slot n u hr
  rw [hs.alive, hsame.alive]
  exact h.live slot n u ((hreads slot n u).1 (hs.reads slot n u hr))

theorem regions_drop (h : Linked d) (ha : d.alive id = true)
    {inputs : DraftEdgeSlot → List Ref} (hinputs : inputs = d.inputsOf id) :
    (((d.dropInputs id inputs).dropUsers id users).dropNode id).regions = d.regions := by
  subst hinputs
  have hsame := sameNodes_dropInputs d id (d.inputsOf id)
  have hs := (unlinkSlots_spec users allSlots (detached_dropInputs h id)
    ((hsame.alive id).trans ha)).1
  exact hs.regions.trans hsame.regions

end Camel.Draft
