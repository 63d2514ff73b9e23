import Camel.Draft.Model

/-! # The Edits of a Draft

    The public edits of `GraphDraft`, as programs over the draft. The edits that
    close or hand over the chain of a `sync` block read the lists of users first
    and then write one edge after the other.
-/

namespace Camel.Draft

open Lib Function

/-! ## Checks -/

variable (d : Draft) (id : Ref) (oldId newId : Ref)

/-- The node an edit is about; the edits refuse one that is not there. -/
def Draft.requireNode (what : String) : Except Fault DraftNode :=
  match d.node id with
  | some n => .ok n
  | none =>
    let size := d.nodesById.length
    .error (.invariant
      s!"{what} draft node {id}, which this graph does not have (it holds {size} nodes)")

def nodeRegion : DraftM Nat := do
  let d ← get
  match d.node id with
  | some n => pure n.region
  | none =>
    throw (.invariant ("Region of a node that is not in the draft: the id was erased or never " ++
      "existed, and region 0 is the body, a real region, not the answer for a node that is not " ++
      "there."))

/-- The block a node is a statement of: regions a splice annotated are looked through. -/
def statementRegion (regions : List GCRegion) : Nat → Nat → Except Fault Nat
  | 0, region => .ok region
  | fuel + 1, region =>
    if region = 0 then .ok 0
    else
      match regions[region]? with
      | some r => if r.kind = .inlined then statementRegion regions fuel r.parent else .ok region
      | none =>
        let size := regions.length
        .error (.invariant
          s!"A draft names a region by id, and this one has {size}: id {region} is neither the body, which is region 0, nor a control region it carries.")

def statementRegionOf : DraftM Nat := do
  let region ← nodeRegion id
  let d ← get
  MonadExcept.ofExcept (statementRegion d.regions region region)

def sameSyncBlock (a b : Ref) : DraftM Bool := do
  let ra ← statementRegionOf a
  let rb ← statementRegionOf b
  pure (ra = rb)

def sameRegion (a b : Ref) : DraftM Bool := do
  let ra ← nodeRegion a
  let rb ← nodeRegion b
  pure (ra = rb)

/-! ## Adding a Node -/

def Draft.noteNodeKind (kind : GCNodeKind) : Draft :=
  match kind with
  | .gate => { d with gateIds := d.gateIds ++ [id] }
  | .brch => { d with brchIds := d.brchIds ++ [id] }
  | .join => { d with joinIds := d.joinIds ++ [id] }
  | _ => d

/-- The region of a new node: constants and ports belong to the body, whatever arm is being
    written. -/
def Draft.regionFor (init : DraftNodeInit) : Nat :=
  if init.region ≠ 0 then init.region
  else if init.kind = .data ∨ init.kind = .port then 0
  else d.insertRegion

/-- The draft with the node laid out and no user told of it yet. -/
def Draft.pushNode (init : DraftNodeInit) : Draft :=
  let n := { rebuildNode none init with region := d.regionFor init }
  let pushed := { d with
    nodesById := d.nodesById ++ [some n]
    liveNodeCount := d.liveNodeCount + 1 }
  pushed.noteNodeKind d.nodesById.length init.kind

/-- The node's inputs told of it, slot by slot. -/
def Draft.linkNew (init : DraftNodeInit) : Draft :=
  let d := d.appendUserRefs (init.inputs .normalPorts) id .normalPorts
  let d := d.appendUserRefs (init.inputs .contextPorts) id .contextPorts
  let d := d.appendUserRefs (init.inputs .ctrl) id .ctrl
  let d := d.appendUserRefs (init.inputs .order) id .order
  d.appendUserRefs (init.inputs .sync) id .sync

def addNode (init : DraftNodeInit) : DraftM Ref := do
  let d ← get
  let id := d.nodesById.length
  if id < kInvalidNodeRef then
    set ((d.pushNode init).linkNew id init)
    pure id
  else
    throw (.invariant "A draft graph has no node id left (the last id is kInvalidNodeRef).")

/-! ## Whole-List Edits -/

variable (inputs : List Ref)

def setNormInputs : DraftM Unit := do
  let d ← get
  let n ← MonadExcept.ofExcept (d.requireNode id "set norm inputs for")
  set (d.setSlotInputs id n .normalPorts inputs)

def setWithInputs : DraftM Unit := do
  let d ← get
  let n ← MonadExcept.ofExcept (d.requireNode id "set with inputs for")
  set (d.setSlotInputs id n .contextPorts inputs)

def setCtrlInputs : DraftM Unit := do
  let d ← get
  let n ← MonadExcept.ofExcept (d.requireNode id "set ctrl inputs for")
  set (d.setSlotInputs id n .ctrl inputs)

def setOrderInputs : DraftM Unit := do
  let d ← get
  let n ← MonadExcept.ofExcept (d.requireNode id "set order inputs for")
  if id ∈ inputs then throw (.logicError "An order edge cannot order a node after itself.")
  else set (d.setSlotInputs id n .order inputs)

/-- A chain is a chain: a statement follows at most one other. -/
def setSyncInputs : DraftM Unit := do
  let d ← get
  let n ← MonadExcept.ofExcept (d.requireNode id "set sync inputs for")
  if id ∈ inputs then throw (.logicError "A sync edge cannot chain a node to itself.")
  else if 1 < inputs.length then
    throw (.logicError "A sync edge joins one statement to the next one.")
  else set (d.setSlotInputs id n .sync inputs)

/-- The node laid out again with other ports of both roles. -/
def Draft.withBothPorts (n : DraftNode) (ports withPorts : List Ref) : DraftNode :=
  let inputs := update (makeInitFromNode n).inputs .normalPorts ports
  rebuildNode (some n)
    { makeInitFromNode n with inputs := update inputs .contextPorts withPorts }

/-- Both runs of the data ports, laid out once. -/
def Draft.setBothPorts (n : DraftNode) (ports withPorts : List Ref) :
    Draft :=
  let d := d.removeUserRefs (n.inputs .normalPorts) id .normalPorts
  let d := d.removeUserRefs (n.inputs .contextPorts) id .contextPorts
  let d := d.replaceNodeStorage id (Draft.withBothPorts n ports withPorts)
  let d := d.appendUserRefs ports id .normalPorts
  d.appendUserRefs withPorts id .contextPorts

def setPorts (ports withPorts : List Ref) : DraftM Unit := do
  let d ← get
  let n ← MonadExcept.ofExcept (d.requireNode id "set ports for")
  set (d.setBothPorts id n ports withPorts)

/-! ## Edits of One Edge -/

def appendOrderDependency (id predecessor : Ref) : DraftM Bool := do
  let d ← get
  if predecessor = id ∨ ¬ d.alive id ∨ ¬ d.alive predecessor then pure false
  else if predecessor ∈ d.inputsOf id .order then pure false
  else
    setOrderInputs id (d.inputsOf id .order ++ [predecessor])
    pure true

/-- A slot states a dependency once, except the two of the data ports. -/
def statesOnce : DraftEdgeSlot → Bool
  | .normalPorts | .contextPorts => false
  | .ctrl | .order | .sync => true

/-- Whether a user reads an input: the shorter of the two lists is searched. -/
def Draft.already (slot : DraftEdgeSlot) (userId inputId : Ref) : Bool :=
  let present := d.inputsOf userId slot
  let users := d.usersOf inputId slot
  if present.length ≤ users.length then inputId ∈ present else userId ∈ users

/-- The entry at the end of the run, and the user at the end of the list. -/
def Draft.linkInput (slot : DraftEdgeSlot) (userId inputId : Ref) (n : DraftNode) :
    Draft :=
  (d.replaceNodeStorage userId (n.appendEntry slot inputId)).appendUserRef inputId userId slot

def appendInput (slot : DraftEdgeSlot) (userId inputId : Ref) : DraftM Unit := do
  let d ← get
  match d.node userId with
  | none => throw (.invariant "Cannot append input to a missing draft node.")
  | some n =>
    if ¬ d.alive inputId then
      throw (.invariant "Cannot append a missing input draft node.")
    else if statesOnce slot ∧ d.already slot userId inputId then pure ()
    else
      match (if slot = .sync then n.inputs slot else []) with
      | present :: _ =>
        throw (.logicError
          s!"A statement of a sync block already follows node {present}, so it cannot follow node {inputId} as well.")
      | [] => set (d.linkInput slot userId inputId n)

def appendControlEdge (userId inputId : Ref) : DraftM Unit := appendInput .ctrl userId inputId

/-- The control edge that names the pair beside the sync edge. -/
def nameControlPair (user pred : Ref) : DraftM Unit := do
  let d ← get
  if pred ∈ d.inputsOf user .ctrl then pure () else appendControlEdge user pred

/-! ## Replacing Uses -/

/-- The reference in the first four bytes of a payload. -/
def readRef (payload : List UInt8) : Ref :=
  (payload.take 4).foldr (fun byte rest => byte.toNat + 256 * rest) 0

def refBytes (ref : Ref) : List UInt8 :=
  [UInt8.ofNat ref, UInt8.ofNat (ref / 2 ^ 8), UInt8.ofNat (ref / 2 ^ 16),
    UInt8.ofNat (ref / 2 ^ 24)]

/-- The node with the reference its payload begins with replaced. -/
def replacePayloadRef (n : DraftNode) (h : 8 ≤ n.payload.length) (oldId newId : Ref) : DraftNode :=
  if readRef n.payload = oldId then
    { n with
      payload := refBytes newId ++ n.payload.drop 4
      room := by
        have hlen : (refBytes newId ++ n.payload.drop 4).length = n.payload.length := by
          rw [List.length_append, List.length_drop]
          simp only [refBytes, List.length_cons, List.length_nil]
          omega
        rw [hlen]
        exact n.room }
  else n

def replaceValueStructuralRefs : DraftM Unit :=
  modify fun d => { d with
    output := replaceRef oldId newId d.output
    returnNode := replaceRef oldId newId d.returnNode }

/-- The join a BRCH names (`DraftBrchPayload`). -/
def replaceBrchJoin (oldId newId id : Ref) : DraftM Unit := do
  let d ← get
  match d.node id with
  | none => pure ()
  | some n =>
    if n.kind ≠ .brch then pure ()
    else if h : 8 ≤ n.payload.length then
      set (d.replaceNodeStorage id (replacePayloadRef n h oldId newId))
    else throw (.invariant "Draft payload is smaller than requested body.")

/-- The branch a JOIN names (`GCJoinBody`). -/
def replaceJoinBrch (oldId newId id : Ref) : DraftM Unit := do
  let d ← get
  match d.node id with
  | none => pure ()
  | some n =>
    if n.kind ≠ .join then pure ()
    else if h : 8 ≤ n.payload.length then
      set (d.replaceNodeStorage id (replacePayloadRef n h oldId newId))
    else pure ()

def replaceCtrlStructuralRefs : DraftM Unit := do
  modify fun d => { d with
    entry := replaceRef oldId newId d.entry
    exit := replaceRef oldId newId d.exit }
  let d ← get
  d.brchIds.forM (replaceBrchJoin oldId newId)
  d.joinIds.forM (replaceJoinBrch oldId newId)

/-- Every reader of `oldId` in a slot reads `newId` there. -/
def replaceUses (slot : DraftEdgeSlot) (oldId newId : Ref) : DraftM Unit :=
  modify fun d => d.replaceUsesInList (d.usersOf oldId slot) oldId newId slot

def replaceAllNormUses : DraftM Unit := do
  replaceUses .normalPorts oldId newId
  replaceValueStructuralRefs oldId newId

def replaceAllWithUses : DraftM Unit := do
  replaceUses .contextPorts oldId newId
  replaceValueStructuralRefs oldId newId

def replaceAllCtrlUses : DraftM Unit := do
  replaceUses .ctrl oldId newId
  replaceCtrlStructuralRefs oldId newId

def replaceAllOrderUses : DraftM Unit :=
  replaceUses .order oldId newId

def replaceAllValueUses : DraftM Unit := do
  replaceAllNormUses oldId newId
  replaceAllWithUses oldId newId

end Camel.Draft

/-! # Chains, Orderings and Erasing

    The edits that move the statements of a `sync` block's chain and the order
    edges from one node to another, and the one that erases a node: the chain and
    the orderings close over it before its own edges go.
-/

namespace Camel.Draft

open Lib

/-! ## Closing a Chain -/

/-- Whether `pred` can become a predecessor of `user` in the same block once `id` is gone. -/
def chainSurvives (id user pred : Ref) : DraftM Bool := do
  let d ← get
  if pred ≠ user ∧ pred ≠ id ∧ d.alive pred then sameSyncBlock pred user else pure false

/-- The same for a wait, which stays within one region. -/
def survives (id user pred : Ref) : DraftM Bool := do
  let d ← get
  if pred ≠ user ∧ pred ≠ id ∧ d.alive pred then sameRegion pred user else pure false

/-- A statement written after `id` follows what `id` followed. -/
def followOver (id : Ref) (syncInputs : List Ref) (user : Ref) : DraftM Unit := do
  let d ← get
  if user = id ∨ ¬ d.alive user then pure ()
  else
    let kept ← keepM (chainSurvives id user) syncInputs
    setSyncInputs user kept
    kept.forM (nameControlPair user)

def waitInstead (id user pred : Ref) : DraftM Unit := do
  let keeps ← survives id user pred
  if keeps then nameControlPair user pred else pure ()

/-- A node that waited on nothing but `id` waits for what `id` waited for. -/
def keepWaiting (id : Ref) (syncInputs ctrlInputs : List Ref) (user : Ref) : DraftM Unit := do
  let d ← get
  if user = id ∨ ¬ d.alive user then pure ()
  else if (d.inputsOf user .ctrl).any (· ≠ id) then pure ()
  else if (d.inputsOf user .sync).any (· ≠ id) then pure ()
  else
    syncInputs.forM (waitInstead id user)
    ctrlInputs.forM (waitInstead id user)

def closeChainOver (id : Ref) : DraftM Unit := do
  let d ← get
  let syncInputs := d.inputsOf id .sync
  let ctrlInputs := d.inputsOf id .ctrl
  let syncUsers := d.usersOf id .sync
  let ctrlUsers := d.usersOf id .ctrl
  syncUsers.forM (followOver id syncInputs)
  ctrlUsers.forM (keepWaiting id syncInputs ctrlInputs)
  syncUsers.forM (keepWaiting id syncInputs ctrlInputs)

/-! ## Handing a Chain Place Over -/

/-- Whether the block a place is handed to survives the rewrite. -/
inductive PlaceHandover where
  | keepsItsBlock | dissolvedIntoIdsBlock
  deriving DecidableEq

/-- The draft with a node marked as a statement of a `sync` block. -/
def Draft.markStatement (d : Draft) (id : Ref) : Draft :=
  match d.node id with
  | some n =>
    d.replaceNodeStorage id { n with runtimeFlags := n.runtimeFlags ||| kGCNodeFlagSyncStatement }
  | none => d

def chainTo (user pred : Ref) : DraftM Unit := do
  modify fun d => d.markStatement user
  modify fun d => d.markStatement pred
  setSyncInputs user [pred]
  nameControlPair user pred

/-- Whether a chain may join the two: always, when the block is being dissolved. -/
def mayJoin (how : PlaceHandover) (a b : Ref) : DraftM Bool :=
  if how = .keepsItsBlock then sameSyncBlock a b else pure true

def followTail (how : PlaceHandover) (tail user : Ref) : DraftM Unit := do
  let d ← get
  if user = tail ∨ ¬ d.alive user then pure ()
  else
    let joins ← mayJoin how user tail
    if joins then chainTo user tail else setSyncInputs user []

def precedesTail (how : PlaceHandover) (tail pred : Ref) : DraftM Bool := do
  let d ← get
  if pred ≠ tail ∧ d.alive pred then mayJoin how tail pred else pure false

def handChainPlaceTo (id tail : Ref) (how : PlaceHandover) : DraftM Unit := do
  let d ← get
  if id = tail ∨ ¬ d.alive id ∨ ¬ d.alive tail then pure ()
  else
    let preds := d.inputsOf id .sync
    let users := d.usersOf id .sync
    modify fun d => d.markStatement tail
    users.forM (followTail how tail)
    let d ← get
    if d.inputsOf tail .sync = [] then
      let first ← firstM (precedesTail how tail) preds
      match first with
      | some pred => chainTo tail pred
      | none => pure ()
    else pure ()

/-! ## Order Edges -/

def orderAfterToo (newId region pred : Ref) : DraftM Unit := do
  let d ← get
  if pred = newId ∨ ¬ d.alive pred then pure ()
  else
    let predRegion ← nodeRegion pred
    if predRegion ≠ region then pure ()
    else
      let _ ← appendOrderDependency newId pred
      pure ()

/-- A user of the replaced node is ordered by the replacer, or drops the edge when it is in
    another region. -/
def orderByNew (oldId newId region user : Ref) : DraftM Unit := do
  let d ← get
  if user = newId ∨ ¬ d.alive user then pure ()
  else
    let inputs := d.inputsOf user .order
    if oldId ∉ inputs then pure ()
    else
      let userRegion ← nodeRegion user
      if userRegion ≠ region then setOrderInputs user (inputs.erase oldId)
      else setOrderInputs user (inputs.replace oldId newId)

def replaceOrderEdgesAt (oldId newId : Ref) : DraftM Unit := do
  let d ← get
  if oldId = newId ∨ ¬ d.alive oldId ∨ ¬ d.alive newId then pure ()
  else
    let region ← nodeRegion newId
    (d.inputsOf oldId .order).forM (orderAfterToo newId region)
    let d ← get
    (d.usersOf oldId .order).forM (orderByNew oldId newId region)

def spliceOrderEdge (id user pred : Ref) : DraftM Unit := do
  let d ← get
  if pred = id ∨ pred = user ∨ ¬ d.alive pred then pure ()
  else
    let same ← sameRegion pred user
    if same then
      let _ ← appendOrderDependency user pred
      pure ()
    else pure ()

def spliceOrderEdgesOver (id : Ref) : DraftM Unit := do
  let d ← get
  if ¬ d.alive id then pure ()
  else
    let preds := d.inputsOf id .order
    let users := d.usersOf id .order
    if preds = [] ∨ users = [] then pure ()
    else
      users.forM fun user => do
        let d ← get
        if d.alive user then preds.forM (spliceOrderEdge id user) else pure ()

/-! ## Taking a Statement's Place -/

def keptPredecessor (newId pred : Ref) : DraftM Bool := do
  let d ← get
  if d.alive pred then sameRegion pred newId else pure false

def followNew (newId user : Ref) : DraftM Unit := do
  let d ← get
  if user = newId ∨ ¬ d.alive user then pure ()
  else
    let same ← sameSyncBlock user newId
    if same then
      setSyncInputs user [newId]
      nameControlPair user newId
    else pure ()

/-- The chain place itself, once nothing stands against taking it. -/
def takeChainPlace (oldId newId : Ref) : DraftM Unit := do
  modify fun d => d.markStatement newId
  let d ← get
  let users := d.usersOf oldId .sync
  let kept ← keepM (keptPredecessor newId) (d.inputsOf oldId .sync)
  setSyncInputs newId kept
  kept.forM (nameControlPair newId)
  users.forM (followNew newId)

def Draft.isStatement (d : Draft) (id : Ref) : Bool :=
  match d.node id with
  | some n => n.runtimeFlags &&& kGCNodeFlagSyncStatement ≠ 0
  | none => false

/-- The order edges go over within one region. -/
def takeOrderEdges (oldId newId : Ref) : DraftM Unit := do
  let same ← sameRegion oldId newId
  if same then replaceOrderEdgesAt oldId newId else pure ()

def takeStatementPlace (oldId newId : Ref) : DraftM Unit := do
  let d ← get
  if oldId = newId ∨ ¬ d.alive oldId ∨ ¬ d.alive newId then pure ()
  else
    takeOrderEdges oldId newId
    let d ← get
    if ¬ d.isStatement oldId then pure ()
    else
      let block ← sameSyncBlock oldId newId
      if ¬ block then pure ()
      else if d.inputsOf newId .sync ≠ [] ∨ d.usersOf newId .sync ≠ [] then pure ()
      else takeChainPlace oldId newId

/-! ## Erasing a Node -/

/-- The node's own edges go: its inputs lose it as a user. -/
def Draft.dropInputs (d : Draft) (id : Ref) (inputs : DraftEdgeSlot → List Ref) : Draft :=
  let d := d.removeUserRefs (inputs .normalPorts) id .normalPorts
  let d := d.removeUserRefs (inputs .contextPorts) id .contextPorts
  let d := d.removeUserRefs (inputs .ctrl) id .ctrl
  let d := d.removeUserRefs (inputs .order) id .order
  d.removeUserRefs (inputs .sync) id .sync

/-- Whoever reads the node stops reading it, as often as it did. -/
def Draft.dropUsers (d : Draft) (id : Ref) (users : DraftEdgeSlot → List Ref) : Draft :=
  let d := d.unlinkAll id .normalPorts (users .normalPorts)
  let d := d.unlinkAll id .contextPorts (users .contextPorts)
  let d := d.unlinkAll id .ctrl (users .ctrl)
  let d := d.unlinkAll id .order (users .order)
  d.unlinkAll id .sync (users .sync)

def orInvalid (id ref : Ref) : Ref := if ref = id then kInvalidNodeRef else ref

/-- The node itself goes, and whatever of the graph named it. -/
def Draft.dropNode (d : Draft) (id : Ref) : Draft :=
  { d with
    users := Function.update d.users id fun _ => .empty
    nodesById := d.nodesById.set id none
    liveNodeCount := d.liveNodeCount - 1
    normPorts := d.normPorts.filter (· ≠ id)
    withPorts := d.withPorts.filter (· ≠ id)
    closureNodes := d.closureNodes.filter (· ≠ id)
    entry := orInvalid id d.entry
    exit := orInvalid id d.exit
    output := orInvalid id d.output
    returnNode := orInvalid id d.returnNode }

def eraseNode (id : Ref) : DraftM Unit := do
  let d ← get
  let n ← MonadExcept.ofExcept (d.requireNode id "erase")
  modify fun d => if n.kind = .brch ∨ n.kind = .loop then d.dissolveRegionsOf id else d
  let d ← get
  closeChainOver id
  spliceOrderEdgesOver id
  modify fun now => ((now.dropInputs id (d.inputsOf id)).dropUsers id (d.usersOf id)).dropNode id

end Camel.Draft
