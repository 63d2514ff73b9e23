import Camel.Draft.Node
import Camel.Lib.IndexedList
import Camel.Lib.Upholds

/-! # Graph Drafts

    A graph under construction and its edits (`src/runtime/draft.cpp`,
    `draft_construct.cpp`, `draft_regions.cpp`). Each node names its inputs in
    its tail block. Beside that the draft keeps, for each node and slot, the list
    of the nodes that read it. An edit changes both.

    An edit may fail half way, with a `std::logic_error` or at a check that does
    not hold, and the draft then is what the edit has made of it so far.
-/

namespace Camel.Draft

open Lib Function

/-! ## The State -/

inductive Fault where
  /-- A `std::logic_error`. -/
  | logicError (what : String)
  /-- A `GUARD` or an `ASSERT` that does not hold. -/
  | invariant (reading : String)
  deriving DecidableEq

inductive GCRegionKind where
  | root | arm | loopCond | loopBody | inlined | block | dead
  deriving DecidableEq

structure GCRegion where
  kind : GCRegionKind := .root
  parent : Nat := 0
  owner : Ref := kInvalidNodeRef
  result : Ref := kInvalidNodeRef

/-- From how many users on a list of users has an index. -/
def kIndexedUsers : Nat := 32

structure Draft where
  nodesById : List (Option DraftNode) := []
  /-- The nodes that read a node, by slot (`DraftUserLists`). -/
  users : Ref → DraftEdgeSlot → IndexedList Ref := fun _ _ => .empty
  /-- Region 0 is the body. -/
  regions : List GCRegion := [{}]
  insertRegion : Nat := 0
  inheritsRegions : Bool := true
  normPorts : List Ref := []
  withPorts : List Ref := []
  closureNodes : List Ref := []
  entry : Ref := kInvalidNodeRef
  exit : Ref := kInvalidNodeRef
  output : Ref := kInvalidNodeRef
  returnNode : Ref := kInvalidNodeRef
  gateIds : List Ref := []
  brchIds : List Ref := []
  joinIds : List Ref := []
  liveNodeCount : Nat := 0

/-- An edit: it changes the draft and may fail. -/
abbrev DraftM := EStateM Fault Draft

variable (d : Draft) (id : Ref) (slot : DraftEdgeSlot)

namespace Draft

def node : Option DraftNode := (d.nodesById[id]?).join

def alive : Bool := (d.node id).isSome

/-- The inputs of a node in a slot; none for a node that is not there. -/
def inputsOf : List Ref :=
  match d.node id with
  | some n => n.inputs slot
  | none => []

def payloadOf : List UInt8 :=
  match d.node id with
  | some n => n.payload
  | none => []

def usersOf : List Ref := (d.users id slot).items

def replaceNodeStorage (n : DraftNode) : Draft :=
  { d with nodesById := d.nodesById.set id (some n) }

def putUsers (l : IndexedList Ref) : Draft :=
  { d with users := update d.users id (update (d.users id) slot l) }

/-! ## Regions -/

/-- The control region around a region. A region's parent has a smaller number, so
    `fuel` is the region. -/
def controlOf (regions : List GCRegion) : Nat → Nat → Nat
  | 0, region => region
  | fuel + 1, region =>
    match regions[region]? with
    | some r =>
      if region ≠ 0 ∧ (r.kind = .inlined ∨ r.kind = .block ∨ r.kind = .dead) then
        controlOf regions fuel r.parent
      else region
    | none => region

/-- Whether `inner` is `outer` or lies in it. -/
def regionWithin (regions : List GCRegion) (outer : Nat) : Nat → Nat → Bool
  | 0, inner => inner = outer
  | fuel + 1, inner =>
    if inner = outer then true
    else if inner = 0 then false
    else
      match regions[inner]? with
      | some r => regionWithin regions outer fuel r.parent
      | none => false

/-- A node that reads a node of a control region moves into that region. -/
def inheritRegion (input user : Ref) : Draft :=
  if d.regions.length ≤ 1 ∨ ¬ d.inheritsRegions then d
  else
    match d.node user, d.node input with
    | some reader, some read =>
      if reader.kind = .join ∨ reader.kind = .loop then d
      else if reader.runtimeFlags &&& kGCNodeFlagSyncStatement ≠ 0 then d
      else
        let readControl := controlOf d.regions read.region read.region
        let readerControl := controlOf d.regions reader.region reader.region
        if readControl = 0 ∨ readControl = readerControl ∨
            regionWithin d.regions readControl readerControl readerControl then d
        else if regionWithin d.regions readerControl readControl readControl then
          d.replaceNodeStorage user { reader with region := readControl }
        else d
    | _, _ => d

/-- The control regions a node owns end with it. -/
def dissolveRegion (d : Draft) (r : Nat) : Draft :=
  match d.regions[r]? with
  | some region =>
    if (region.kind = .arm ∨ region.kind = .loopCond ∨ region.kind = .loopBody) ∧
        region.owner = id then
      let around := region.parent
      let nodesById := d.nodesById.map fun held => held.map fun n =>
        if n.region = r then { n with region := around } else n
      let regions := d.regions.mapIdx fun other rec =>
        if 1 ≤ other ∧ rec.kind ≠ .dead ∧ rec.parent = r then { rec with parent := around } else rec
      { d with
        nodesById := nodesById
        regions := regions.modify r fun rec =>
          { rec with kind := .dead, owner := kInvalidNodeRef, result := kInvalidNodeRef } }
    else d
  | none => d

def dissolveRegionsOf : Draft :=
  (List.range' 1 (d.regions.length - 1)).foldl (dissolveRegion id) d

/-! ## Keeping the Users -/

def removeUserRef (id userId : Ref) (slot : DraftEdgeSlot) : Draft :=
  if d.alive id then d.putUsers id slot ((d.users id slot).remove kIndexedUsers userId) else d

def appendUserRef (id userId : Ref) (slot : DraftEdgeSlot) : Draft :=
  if d.alive id then
    let d := d.inheritRegion id userId
    d.putUsers id slot ((d.users id slot).add kIndexedUsers userId)
  else d

def removeUserRefs (ids : List Ref) (userId : Ref) (slot : DraftEdgeSlot) : Draft :=
  ids.foldl (fun d id => d.removeUserRef id userId slot) d

def appendUserRefs (ids : List Ref) (userId : Ref) (slot : DraftEdgeSlot) : Draft :=
  ids.foldl (fun d id => d.appendUserRef id userId slot) d

/-- The node laid out again with other inputs in one slot. -/
def withInputs (n : DraftNode) (slot : DraftEdgeSlot) (inputs : List Ref) : DraftNode :=
  rebuildNode (some n)
    { makeInitFromNode n with inputs := update (makeInitFromNode n).inputs slot inputs }

/-- The body the five `set*Inputs` share: the old inputs lose their user, the node is laid
    out again, and the new inputs get it. -/
def setSlotInputs (n : DraftNode) (slot : DraftEdgeSlot)
    (inputs : List Ref) : Draft :=
  let d := d.removeUserRefs (n.inputs slot) id slot
  let d := d.replaceNodeStorage id (withInputs n slot inputs)
  d.appendUserRefs inputs id slot

/-- Takes the first entry that names `inputId` out; `none` when there is none. The user stays
    one while another entry of the run names the input. -/
def unlinkInput (userId inputId : Ref) : Option Draft :=
  match d.node userId with
  | none => none
  | some n =>
    (n.dropEntry slot inputId).map fun n' =>
      let d := d.replaceNodeStorage userId n'
      if inputId ∈ n'.inputs slot then d else d.removeUserRef inputId userId slot

/-- `while (unlinkInput(...))`: each turn takes one entry out of the run, so its length
    bounds the turns. -/
def unlinkWhile (slot : DraftEdgeSlot) (userId inputId : Ref) : Nat → Draft → Draft
  | 0, d => d
  | turns + 1, d =>
    match d.unlinkInput slot userId inputId with
    | some d' => unlinkWhile slot userId inputId turns d'
    | none => d

/-- One user stops reading `id` in a slot. -/
def unlinkUser (d : Draft) (userId : Ref) : Draft :=
  if userId ≠ id ∧ d.alive userId then
    unlinkWhile slot userId id (d.inputsOf userId slot).length d
  else d

/-- `unlinkAll` of `eraseNode`. -/
def unlinkAll (users : List Ref) : Draft :=
  users.foldl (unlinkUser id slot) d

end Draft

def replaceRef (oldId newId ref : Ref) : Ref := if ref = oldId then newId else ref

namespace Draft

/-- One user of `oldId` reads `newId` wherever it read `oldId`. -/
def replaceUse (oldId newId : Ref) (slot : DraftEdgeSlot) (d : Draft) (userId : Ref) : Draft :=
  match d.node userId with
  | none => d
  | some n =>
    let replaced := (n.inputs slot).map (replaceRef oldId newId)
    let d := d.replaceNodeStorage userId (withInputs n slot replaced)
    (d.removeUserRef oldId userId slot).appendUserRef newId userId slot

def replaceUsesInList (users : List Ref) (oldId newId : Ref) (slot : DraftEdgeSlot) :
    Draft :=
  users.foldl (replaceUse oldId newId slot) d

end Draft

end Camel.Draft
