import Camel.Lib.Placement

/-! # Draft Nodes

    The storage of one node of a graph under construction
    (`include/camel/runtime/draft.h`, `src/runtime/draft.cpp`). A node has a
    header and a tail block, and the block holds the payload and then the inputs
    of the five edge slots, packed one run after the other. A rewrite of the
    inputs goes into the same block when they fit and into a new one when they
    do not.
-/

namespace Camel.Draft

open Lib List Function

/-! ## Names, Kinds and Slots -/

/-- A node is named by its index in the draft (`gc_node_ref_t`). -/
abbrev Ref := Nat

/-- The id no node has. -/
def kInvalidNodeRef : Ref := 2 ^ 32 - 1

inductive GCNodeKind where
  | data | port | cast | copy | fill | accs | brch | join | call | bind | func | oper | gate | dref
  | loop
  deriving DecidableEq

/-- Where an edge is stored in the tail, in the order the tail holds them. -/
inductive DraftEdgeSlot where
  | normalPorts | contextPorts | ctrl | order | sync
  deriving DecidableEq

/-- The flag of a node that is a statement of a `sync` block. -/
def kGCNodeFlagSyncStatement : UInt8 := 1 <<< (2 : UInt8)

/-- The slots whose runs lie before the run of a slot. -/
def DraftEdgeSlot.before : DraftEdgeSlot → List DraftEdgeSlot
  | .normalPorts => []
  | .contextPorts => [.normalPorts]
  | .ctrl => [.normalPorts, .contextPorts]
  | .order => [.normalPorts, .contextPorts, .ctrl]
  | .sync => [.normalPorts, .contextPorts, .ctrl, .order]

/-- The slots whose runs lie behind the run of a slot. -/
def DraftEdgeSlot.behind : DraftEdgeSlot → List DraftEdgeSlot
  | .normalPorts => [.contextPorts, .ctrl, .order, .sync]
  | .contextPorts => [.ctrl, .order, .sync]
  | .ctrl => [.order, .sync]
  | .order => [.sync]
  | .sync => []

def allSlots : List DraftEdgeSlot := [.normalPorts, .contextPorts, .ctrl, .order, .sync]

theorem allSlots_eq (slot : DraftEdgeSlot) :
    allSlots = slot.before ++ slot :: slot.behind := by
  cases slot <;> rfl

theorem DraftEdgeSlot.notMem_before (slot : DraftEdgeSlot) : slot ∉ slot.before := by
  cases slot <;> decide

theorem DraftEdgeSlot.notMem_behind (slot : DraftEdgeSlot) : slot ∉ slot.behind := by
  cases slot <;> decide

/-! ## The Tail Block -/

/-- The entries of the five runs one after the other. -/
def entriesOf (inputs : DraftEdgeSlot → List Ref) (slots : List DraftEdgeSlot) : List Ref :=
  slots.flatMap inputs

theorem entriesOf_split (inputs : DraftEdgeSlot → List Ref) (slot : DraftEdgeSlot) :
    entriesOf inputs allSlots =
      entriesOf inputs slot.before ++ (inputs slot ++ entriesOf inputs slot.behind) := by
  rw [entriesOf, allSlots_eq slot, flatMap_append, flatMap_cons]
  rfl

theorem entriesOf_update {inputs : DraftEdgeSlot → List Ref} {slot : DraftEdgeSlot}
    {xs : List Ref} {slots : List DraftEdgeSlot} (h : slot ∉ slots) :
    entriesOf (update inputs slot xs) slots = entriesOf inputs slots := by
  rw [entriesOf, entriesOf, flatMap_def, flatMap_def]
  congr 1
  apply map_congr_left
  intro s hs
  apply update_of_ne
  rintro rfl
  exact h hs

/-- How many entries the runs before a slot hold, from the header's counts. -/
def countOf (slotCount : DraftEdgeSlot → Nat) (slots : List DraftEdgeSlot) : Nat :=
  (slots.map slotCount).sum

theorem length_entriesOf (inputs : DraftEdgeSlot → List Ref) (slots : List DraftEdgeSlot) :
    (entriesOf inputs slots).length = countOf (fun slot => (inputs slot).length) slots := by
  rw [entriesOf, length_flatMap]
  rfl

/-- A node: the fields of its header that the edits read, and its tail. The words are
    the part of the block behind the payload. -/
structure DraftNode where
  kind : GCNodeKind
  runtimeFlags : UInt8
  region : Nat
  /-- The size of the tail block. -/
  capacityBytes : Nat
  payload : List UInt8
  /-- `normInputCount`, `withInputCount`, `ctrlInputCount`, `orderInputCount` and
      `syncInputCount`. -/
  slotCount : DraftEdgeSlot → Nat
  words : List Ref
  room : words.length = (capacityBytes - payload.length) / 4
  fits : countOf slotCount allSlots ≤ words.length

/-- What a node is laid out from: the source's spans, by slot. -/
structure DraftNodeInit where
  kind : GCNodeKind
  runtimeFlags : UInt8 := 0
  region : Nat := 0
  payload : List UInt8 := []
  inputs : DraftEdgeSlot → List Ref := fun _ => []

variable (existing : Option DraftNode) (init : DraftNodeInit) (n : DraftNode) (slot : DraftEdgeSlot)

namespace DraftNode

/-- Where a slot's run starts, in entries from the end of the payload. -/
def slotOffset : Nat := countOf n.slotCount slot.before

/-- The inputs of one slot (`DraftNodeView`). -/
def inputs : List Ref :=
  PackedRuns.readAt n.words (n.slotOffset slot) (n.slotCount slot)

/-- All entries in use. -/
def total : Nat := countOf n.slotCount allSlots

def usedBytes : Nat := n.payload.length + n.total * 4

end DraftNode

/-! ## Laying a Node Out -/

/-- The bytes a layout takes: the payload and four for each entry. -/
def tailBytes : Nat :=
  init.payload.length + countOf (fun slot => (init.inputs slot).length) allSlots * 4

/-- The words of a cleared block with the five runs copied in, each at its offset. -/
def layoutWords (room : Nat) : List Ref :=
  let start slot := countOf (fun slot => (init.inputs slot).length) slot
  let words := List.replicate room 0
  let words := PackedRuns.copyAt words (start (DraftEdgeSlot.before .normalPorts))
    (init.inputs .normalPorts)
  let words := PackedRuns.copyAt words (start (DraftEdgeSlot.before .contextPorts))
    (init.inputs .contextPorts)
  let words := PackedRuns.copyAt words (start (DraftEdgeSlot.before .ctrl)) (init.inputs .ctrl)
  let words := PackedRuns.copyAt words (start (DraftEdgeSlot.before .order)) (init.inputs .order)
  PackedRuns.copyAt words (start (DraftEdgeSlot.before .sync)) (init.inputs .sync)

theorem layoutWords_eq (room : Nat) :
    layoutWords init room = entriesOf init.inputs allSlots ++
      (List.replicate room 0).drop (entriesOf init.inputs allSlots).length := by
  have step : ∀ (pre free run : List Ref) (at_ : Nat), at_ = pre.length →
      PackedRuns.copyAt (pre ++ free) at_ run = (pre ++ run) ++ free.drop run.length := by
    rintro pre free run _ rfl
    exact PackedRuns.copyAt_eq pre run free
  unfold layoutWords
  simp only
  rw [← nil_append (List.replicate room 0), step [] _ _ _ (by rfl),
    nil_append]
  rw [step _ _ _ _ (by simp [countOf, DraftEdgeSlot.before])]
  rw [step _ _ _ _ (by simp [countOf, DraftEdgeSlot.before])]
  rw [step _ _ _ _ (by simp [countOf, DraftEdgeSlot.before])]
  rw [step _ _ _ _ (by simp [countOf, DraftEdgeSlot.before])]
  simp only [entriesOf, allSlots, flatMap_cons, flatMap_nil, drop_replicate,
    length_append, append_assoc, append_nil, Nat.sub_sub]
  rw [nil_append, drop_replicate]
  simp only [add_assoc]

theorem layoutWords_length {init : DraftNodeInit} {room : Nat}
    (h : countOf (fun slot => (init.inputs slot).length) allSlots ≤ room) :
    (layoutWords init room).length = room := by
  rw [← length_entriesOf] at h
  rw [layoutWords_eq, length_append, length_drop, length_replicate]
  omega

/-- The node laid out in a block of `capacityBytes`. The region is the caller's: a layout
    of a node that is there keeps the region it has. -/
def initializeNodeStorage (region capacityBytes : Nat)
    (h : tailBytes init ≤ capacityBytes) : DraftNode where
  kind := init.kind
  runtimeFlags := init.runtimeFlags
  region := region
  capacityBytes := capacityBytes
  payload := init.payload
  slotCount slot := (init.inputs slot).length
  words := layoutWords init ((capacityBytes - init.payload.length) / 4)
  room := layoutWords_length (by unfold tailBytes at h; omega)
  fits := by
    rw [layoutWords_length (by unfold tailBytes at h; omega)]
    unfold tailBytes at h
    omega

/-- The slack a block is given so that a few more inputs fit. -/
def growthSlackBytes : GCNodeKind → Nat
  | .data | .port => 0
  | .brch | .join | .call | .oper => 24
  | _ => 12

/-- The size of the block the pool gives for `bytes`: a slab of 64, 96 or 128, or the
    size asked for (`DraftNodePool::classify`, `capacityBytesForStorageClass`). -/
def capacityBytesFor (bytes : Nat) : Nat :=
  if bytes ≤ 64 then 64 else if bytes ≤ 96 then 96 else if bytes ≤ 128 then 128 else bytes

theorem le_capacityBytesFor (bytes : Nat) : bytes ≤ capacityBytesFor bytes := by
  unfold capacityBytesFor
  split
  · assumption
  · split
    · assumption
    · split
      · assumption
      · exact le_rfl

/-- The bytes asked for when a node needs a new block. -/
def reservedTailBytes (existing : Option DraftNode) (init : DraftNodeInit) : Nat :=
  let reserved := tailBytes init + growthSlackBytes init.kind
  match existing with
  | some n => if 128 ≤ n.capacityBytes then max reserved (2 * n.capacityBytes) else reserved
  | none => reserved

theorem tailBytes_le_reserved :
    tailBytes init ≤ reservedTailBytes existing init := by
  unfold reservedTailBytes
  simp only
  split
  · split <;> omega
  · omega

/-- Lays a node out again: in the block it has when the layout fits there, else in a new one. -/
def rebuildNode (existing : Option DraftNode) (init : DraftNodeInit) : DraftNode :=
  let region := (existing.map DraftNode.region).getD 0
  let moved := initializeNodeStorage init region (capacityBytesFor (reservedTailBytes existing init))
    (le_trans (tailBytes_le_reserved existing init) (le_capacityBytesFor _))
  match existing with
  | some n =>
    if h : tailBytes init ≤ n.capacityBytes then
      initializeNodeStorage init region n.capacityBytes h
    else moved
  | none => moved

/-- The layout a node has now. -/
def makeInitFromNode : DraftNodeInit where
  kind := n.kind
  runtimeFlags := n.runtimeFlags
  region := n.region
  payload := n.payload
  inputs := n.inputs

/-! ## What a Layout Reads Back -/

/-- A node's words are its entries and then free ones. -/
theorem DraftNode.words_eq :
    ∃ free, n.words = entriesOf n.inputs allSlots ++ free := by
  have hread : ∀ (a b : Nat) (ws : List Ref), PackedRuns.readAt ws 0 a ++
      PackedRuns.readAt ws a b = PackedRuns.readAt ws 0 (a + b) := by
    intro a b ws
    simp [PackedRuns.readAt, take_add]
  refine ⟨n.words.drop n.total, ?_⟩
  have hall : entriesOf n.inputs allSlots = PackedRuns.readAt n.words 0 n.total := by
    simp only [entriesOf, allSlots, flatMap_cons, flatMap_nil, append_nil,
      DraftNode.inputs, DraftNode.slotOffset, DraftEdgeSlot.before, DraftNode.total, countOf,
      map_cons, map_nil, sum_cons, sum_nil, add_zero]
    rw [← append_assoc, ← append_assoc, ← append_assoc, hread, hread]
    rw [← add_assoc, hread, ← add_assoc, ← add_assoc, hread]
    congr 1
    omega
  rw [hall, PackedRuns.readAt, drop_zero, take_append_drop]

theorem DraftNode.total_le : n.total ≤ n.words.length := n.fits

theorem DraftNode.length_inputs :
    (n.inputs slot).length = n.slotCount slot := by
  have hfits := n.fits
  have hle : n.slotOffset slot + n.slotCount slot ≤ countOf n.slotCount allSlots := by
    cases slot <;> simp [slotOffset, countOf, DraftEdgeSlot.before, allSlots] <;> omega
  rw [inputs, PackedRuns.readAt, length_take, length_drop]
  omega

theorem DraftNode.slotCount_eq :
    n.slotCount = fun slot => (n.inputs slot).length := by
  funext slot
  exact (n.length_inputs slot).symm

/-- The inputs of a block are the runs its words begin with. -/
theorem DraftNode.inputs_eq {n : DraftNode} {runs : DraftEdgeSlot → List Ref} (free : List Ref)
    (hwords : n.words = entriesOf runs allSlots ++ free)
    (hcount : ∀ slot, n.slotCount slot = (runs slot).length) (slot : DraftEdgeSlot) :
    n.inputs slot = runs slot := by
  have hcount' : n.slotCount = fun slot => (runs slot).length := funext hcount
  have hstart : n.slotOffset slot = (entriesOf runs slot.before).length := by
    rw [DraftNode.slotOffset, length_entriesOf, hcount']
  rw [DraftNode.inputs, hwords, entriesOf_split runs slot, append_assoc, hstart, hcount slot,
    append_assoc]
  exact PackedRuns.readAt_eq _ _ _

@[simp] theorem initializeNodeStorage_inputs (region capacityBytes : Nat)
    (h : tailBytes init ≤ capacityBytes) (slot : DraftEdgeSlot) :
    (initializeNodeStorage init region capacityBytes h).inputs slot = init.inputs slot :=
  DraftNode.inputs_eq _ (layoutWords_eq init _) (fun _ => rfl) slot

/-- A layout reads back as it was given, in the same block or in a new one. -/
@[simp] theorem rebuildNode_inputs
    : (rebuildNode existing init).inputs slot = init.inputs slot := by
  unfold rebuildNode
  simp only
  split
  · split
    · exact initializeNodeStorage_inputs ..
    · exact initializeNodeStorage_inputs ..
  · exact initializeNodeStorage_inputs ..

@[simp] theorem rebuildNode_payload :
    (rebuildNode existing init).payload = init.payload := by
  unfold rebuildNode
  simp only
  split
  · split <;> rfl
  · rfl

/-! ## Growing and Shrinking a Run in Place -/

theorem countOf_update (c : DraftEdgeSlot → Nat) (slot : DraftEdgeSlot) (v : Nat) :
    countOf (update c slot v) allSlots + c slot = countOf c allSlots + v := by
  cases slot <;> simp [countOf, allSlots, update] <;> omega

theorem DraftNode.slotOffset_add_le :
    n.slotOffset slot + n.slotCount slot ≤ n.total := by
  cases slot <;> simp [slotOffset, total, countOf, DraftEdgeSlot.before, allSlots] <;> omega

/-- Adds an entry at the end of a slot's run. With room in the block the runs behind it move
    up; without, the node is laid out again. -/
def DraftNode.appendEntry (input : Ref) : DraftNode :=
  if h : n.capacityBytes < n.usedBytes + 4 then
    rebuildNode (some n) { makeInitFromNode n with
      inputs := update n.inputs slot (n.inputs slot ++ [input]) }
  else
    have hroom : n.total < n.words.length := by
      have := n.room
      unfold DraftNode.usedBytes at h
      omega
    { n with
      slotCount := update n.slotCount slot (n.slotCount slot + 1)
      words := PackedRuns.insertAt n.words n.total (n.slotOffset slot + n.slotCount slot) input
      room := by
        rw [PackedRuns.insertAt_length input hroom (n.slotOffset_add_le slot)]
        exact n.room
      fits := by
        rw [PackedRuns.insertAt_length input hroom (n.slotOffset_add_le slot)]
        have := countOf_update n.slotCount slot (n.slotCount slot + 1)
        unfold DraftNode.total at hroom
        omega }

/-- Takes the first entry of a slot's run that names `input` out; the entries after it move
    down. -/
def DraftNode.dropEntry (input : Ref) : Option DraftNode :=
  if h : input ∈ n.inputs slot then
    have hat : n.slotOffset slot + (n.inputs slot).idxOf input < n.total := by
      have := idxOf_lt_length_of_mem h
      rw [n.length_inputs] at this
      have := n.slotOffset_add_le slot
      omega
    some { n with
      slotCount := update n.slotCount slot (n.slotCount slot - 1)
      words := PackedRuns.removeAt n.words n.total
        (n.slotOffset slot + (n.inputs slot).idxOf input)
      room := by
        rw [PackedRuns.removeAt_length n.total_le hat]
        exact n.room
      fits := by
        rw [PackedRuns.removeAt_length n.total_le hat]
        have := countOf_update n.slotCount slot (n.slotCount slot - 1)
        have := n.fits
        omega }
  else none

theorem entriesOf_update_split (inputs : DraftEdgeSlot → List Ref) (slot : DraftEdgeSlot)
    (xs : List Ref) :
    entriesOf (update inputs slot xs) allSlots =
      entriesOf inputs slot.before ++ (xs ++ entriesOf inputs slot.behind) := by
  rw [entriesOf_split _ slot, update_self, entriesOf_update slot.notMem_before,
    entriesOf_update slot.notMem_behind]

theorem DraftNode.total_eq :
    n.total = (entriesOf n.inputs slot.before).length + (n.inputs slot).length +
      (entriesOf n.inputs slot.behind).length := by
  rw [DraftNode.total, n.slotCount_eq, ← length_entriesOf, entriesOf_split _ slot,
    length_append, length_append, add_assoc]

theorem DraftNode.slotOffset_eq :
    n.slotOffset slot = (entriesOf n.inputs slot.before).length := by
  rw [DraftNode.slotOffset, n.slotCount_eq, ← length_entriesOf]

@[simp] theorem DraftNode.appendEntry_inputs (input : Ref) :
    (n.appendEntry slot input).inputs =
      update n.inputs slot (n.inputs slot ++ [input]) := by
  funext s
  unfold DraftNode.appendEntry
  split
  · exact rebuildNode_inputs ..
  · obtain ⟨free, hfree⟩ := n.words_eq
    apply DraftNode.inputs_eq (free.drop 1)
    · have htotal : n.total = (entriesOf n.inputs slot.before ++ n.inputs slot).length +
          (entriesOf n.inputs slot.behind).length := by
        rw [n.total_eq slot, length_append]
      have hat : n.slotOffset slot + n.slotCount slot =
          (entriesOf n.inputs slot.before ++ n.inputs slot).length := by
        rw [length_append, n.length_inputs, n.slotOffset_eq]
      show PackedRuns.insertAt n.words n.total (n.slotOffset slot + n.slotCount slot) input = _
      rw [htotal, hat, hfree, entriesOf_update_split, entriesOf_split _ slot]
      have := PackedRuns.insertAt_eq (entriesOf n.inputs slot.before ++ n.inputs slot)
        (entriesOf n.inputs slot.behind) free input
      simpa [append_assoc] using this
    · intro t
      show update n.slotCount slot (n.slotCount slot + 1) t = _
      by_cases ht : t = slot
      · subst ht
        simp [n.length_inputs]
      · simp [update_of_ne ht, n.length_inputs]

@[simp] theorem DraftNode.appendEntry_payload
    (input : Ref) : (n.appendEntry slot input).payload = n.payload := by
  unfold DraftNode.appendEntry
  split
  · exact rebuildNode_payload ..
  · rfl

theorem DraftNode.dropEntry_eq_none {n : DraftNode} {slot : DraftEdgeSlot} {input : Ref} :
    n.dropEntry slot input = none ↔ input ∉ n.inputs slot := by
  unfold DraftNode.dropEntry
  split <;> simp [*]

/-- Taking an entry out shortens its run by that entry and keeps every other. -/
theorem DraftNode.dropEntry_inputs {n n' : DraftNode} {slot : DraftEdgeSlot} {input : Ref}
    (h : n.dropEntry slot input = some n') :
    input ∈ n.inputs slot ∧
      n'.inputs = update n.inputs slot ((n.inputs slot).erase input) := by
  unfold DraftNode.dropEntry at h
  split at h
  · next hmem =>
    cases h
    refine ⟨hmem, ?_⟩
    funext s
    obtain ⟨free, hfree⟩ := n.words_eq
    obtain ⟨pre, suf, hpre, hsplit, herase⟩ := exists_erase_eq hmem
    have hidx : (n.inputs slot).idxOf input = pre.length := by
      rw [hsplit, idxOf_append_of_notMem hpre, idxOf_cons_self]
      rfl
    obtain ⟨free', hremove⟩ := PackedRuns.removeAt_eq (entriesOf n.inputs slot.before ++ pre)
      (suf ++ entriesOf n.inputs slot.behind) free input
    apply DraftNode.inputs_eq free'
    · show PackedRuns.removeAt n.words n.total (n.slotOffset slot + (n.inputs slot).idxOf input) = _
      have htotal : n.total = (entriesOf n.inputs slot.before ++ pre).length + 1 +
          (suf ++ entriesOf n.inputs slot.behind).length := by
        rw [n.total_eq slot, hsplit]
        simp only [length_append, length_cons]
        omega
      rw [hidx, n.slotOffset_eq, ← length_append, htotal, hfree, entriesOf_update_split,
        entriesOf_split _ slot, herase]
      rw [hsplit]
      simpa [append_assoc] using hremove
    · intro t
      show update n.slotCount slot (n.slotCount slot - 1) t = _
      by_cases ht : t = slot
      · subst ht
        rw [update_self, update_self, length_erase_of_mem hmem,
          n.length_inputs]
      · rw [update_of_ne ht, update_of_ne ht, n.length_inputs]
  · cases h

end Camel.Draft
