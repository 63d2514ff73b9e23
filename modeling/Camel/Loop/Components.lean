import Camel.Loop.Frame
import Camel.Plan.Exec

/-! # Planning a Loop as its Components

    The body of a loop of several values ends in a tuple that is taken apart again
    in the next round. Where nothing but the loop reads the tuple and its parts are
    values the body computes, the plan leaves the tuple unmade and keeps the state
    in the slots of these values.
-/

namespace Camel.Loop

open List

open Plan (Ref NodeKind)

/-- A node, with what the plan of a loop reads of it. `control` is the innermost
    control region around it. -/
structure Node where
  kind : NodeKind
  dataIndex : Slot
  dataType : Option TypeRef
  normInputs : List Ref
  withInputs : List Ref
  /-- Where each with input of a FILL goes. -/
  fillSlots : Option (List Nat)
  control : Nat

/-- The nodes by reference, the tuple types with the types of their parts, and the
    first and last position of each control region in a walk of the region tree. -/
structure Graph where
  nodes : List Node
  tupleTypes : List (TypeRef × List (Option TypeRef))
  regions : List (Nat × Nat)

namespace Graph

section Planning

variable (graph : Graph)

def node (ref : Ref) : Option Node := graph.nodes[ref]?

def normInputsOf (ref : Ref) : List Ref := ((graph.node ref).map Node.normInputs).getD []

def withInputsOf (ref : Ref) : List Ref := ((graph.node ref).map Node.withInputs).getD []

/-- The slot of a node's value. -/
def dataIndexOf (ref : Ref) : Slot := ((graph.node ref).map Node.dataIndex).getD 0

/-- The types of the parts, of a tuple type. -/
def tupleParts (t : TypeRef) : Option (List (Option TypeRef)) := graph.tupleTypes.lookup t

/-- One control region is another or lies in it; everything lies in the body, 0. -/
def within (inner outer : Nat) : Bool :=
  outer == 0 ||
    inner != 0 && decide ((graph.regions.getD outer (0, 0)).1 ≤ (graph.regions.getD inner (0, 0)).1)
      && decide ((graph.regions.getD inner (0, 0)).1 ≤ (graph.regions.getD outer (0, 0)).2)

/-- The value behind the GATEs that order it after statements. -/
def valueBehindGates (at_ : Ref) : Ref :=
  Plan.valueBehindGates (fun ref => (graph.node ref).map Node.kind) graph.normInputsOf 64 at_

/-- The node's value is read only by the reader, as one with input of it. -/
def readOnlyBy (live : List Ref) (node reader : Ref) : Bool :=
  let seen := (live.flatMap fun at_ => graph.normInputsOf at_ ++ graph.withInputsOf at_).count node
  decide (seen ≤ 1) && (graph.withInputsOf reader).contains node

/-- The state slots the with inputs of the FILL name, from the `seen`-th on. An input
    that is a port, has no slot or is not a node of the body refuses the plan, and
    so does a component named twice. -/
def placeComponents (bodyRegion : Nat) (fillSlots : List Nat) :
    List Ref → Nat → List Slot → Option (Nat × List Slot)
  | [], seen, stateSlots => some (seen, stateSlots)
  | input :: rest, seen, stateSlots =>
    match graph.node input with
    | none => none
    | some node =>
      if node.kind = .port ∨ node.dataIndex = 0 ∨ graph.within node.control bodyRegion = false then
        none
      else
        match fillSlots[seen]? with
        | none => none
        | some component =>
          if stateSlots[component]? = some 0 then
            placeComponents bodyRegion fillSlots rest (seen + 1)
              (stateSlots.set component node.dataIndex)
          else none

/-- Plans the loop as its components, if it can be: the slot of each of them and the
    position of the FILL that is left out. -/
def planStateComponents (topo : List Ref) (bodyRegion : Nat) (loopRef : Ref) (loop : ExecLoop) :
    Option (List Slot × Nat) := do
  guard (loop.collectionCount = 0 ∧ 2 ≤ loop.stateCount)
  let valueType ← loop.valueType
  let result ← (graph.withInputsOf loopRef).head?
  let bodyValue := graph.valueBehindGates result
  let fill ← graph.node bodyValue
  guard (fill.kind = .fill)
  let fillType ← fill.dataType
  let parts ← graph.tupleParts fillType
  guard (parts.length = loop.stateCount)
  let wanted := (graph.tupleParts valueType).getD []
  guard (∀ j < loop.stateCount, parts[j]? ≠ some none ∧ parts[j]? = wanted[j]?)
  -- the tuple is made from a constant, so it holds no value of the body's
  let source ← fill.normInputs.head?
  let template ← graph.node source
  guard (template.kind = .data)
  let fillSlots ← fill.fillSlots
  guard (fillSlots.length = loop.stateCount)
  guard (graph.readOnlyBy topo bodyValue loopRef)
  let (seen, stateSlots) ← graph.placeComponents bodyRegion fillSlots fill.withInputs 0
    (List.replicate loop.stateCount 0)
  guard (seen = loop.stateCount)
  guard (0 ∉ stateSlots)
  let elidedTopo := topo.idxOf bodyValue
  guard (elidedTopo < topo.length)
  return (stateSlots, elidedTopo)

/-- The FILL of the body makes the tuple of the next state from its template. -/
def runFill (fill : Node) (frame : Frame) : Frame :=
  let template := frame (graph.dataIndexOf (fill.normInputs.headD 0))
  let values := fill.withInputs.map fun input => frame (graph.dataIndexOf input)
  frame.set fill.dataIndex (.tuple
    (((fill.fillSlots.getD []).zip values).foldl (fun items w => items.set w.1 w.2) template.items))

end Planning

/-! ## What an accepted plan says -/

section Accepted

variable {graph : Graph} {bodyRegion : Nat} {fillSlots : List Nat}

/-- The slots of the inputs, each at its component. -/
theorem placeComponents_spec (values : Slot → Value) (inputs : List Ref) {seen : Nat}
    {stateSlots out : List Slot} {n : Nat}
    (h : graph.placeComponents bodyRegion fillSlots inputs seen stateSlots = some (n, out))
    {items : List Value} (hlen : items.length = stateSlots.length)
    (hitems : ∀ (c : Nat) (s : Slot), stateSlots[c]? = some s → s ≠ 0 → items[c]? = some (values s)) :
    out.length = stateSlots.length ∧
    (∀ s ∈ out, s = 0 ∨ s ∈ stateSlots ∨ ∃ input ∈ inputs, graph.dataIndexOf input = s) ∧
    ∀ (c : Nat) (s : Slot), out[c]? = some s → s ≠ 0 →
      (((fillSlots.drop seen).zip (inputs.map fun input => values (graph.dataIndexOf input))).foldl
        (fun items w => items.set w.1 w.2) items)[c]? = some (values s) := by
  induction inputs generalizing seen stateSlots items with
  | nil =>
    simp only [placeComponents, Option.some.injEq, Prod.mk.injEq] at h
    obtain ⟨-, rfl⟩ := h
    exact ⟨rfl, fun s hs => .inr (.inl hs), by simpa using hitems⟩
  | cons input rest ih =>
    unfold placeComponents at h
    split at h
    · cases h
    rename_i node hnode
    split at h
    · cases h
    split at h
    · cases h
    rename_i component hcomponent
    split at h
    · rename_i hfree
      have hindex : graph.dataIndexOf input = node.dataIndex := by simp [dataIndexOf, hnode]
      have hlt : component < stateSlots.length := (List.getElem?_eq_some_iff.mp hfree).1
      obtain ⟨hseen, hget⟩ := List.getElem?_eq_some_iff.mp hcomponent
      -- the part the input is gets its slot and its value
      have hstep : ∀ (c : Nat) (s : Slot), (stateSlots.set component node.dataIndex)[c]? = some s → s ≠ 0 →
          (items.set component (values (graph.dataIndexOf input)))[c]? = some (values s) := by
        intro c s hs hne
        rw [getElem?_set] at hs ⊢
        by_cases hc : component = c
        · subst hc
          simp only [if_true, hlt, hlen, Option.some.injEq] at hs ⊢
          rw [← hs, hindex]
        · simp only [hc, if_false] at hs ⊢
          exact hitems c s hs hne
      obtain ⟨hl, hin, hout⟩ := ih h (by simp [hlen]) hstep
      refine ⟨by simpa using hl, ?_, ?_⟩
      · intro s hs
        obtain h0 | hold | ⟨i, hi, hi'⟩ := hin s hs
        · exact .inl h0
        · obtain hold | rfl := mem_or_eq_of_mem_set hold
          · exact .inr (.inl hold)
          · exact .inr (.inr ⟨input, .head _, hindex⟩)
        · exact .inr (.inr ⟨i, .tail _ hi, hi'⟩)
      · rw [drop_eq_getElem_cons hseen, map_cons, zip_cons_cons, foldl_cons,
          hget]
        exact hout
    · cases h

theorem length_foldl_set (ws : List (Nat × Value)) (items : List Value) :
    (ws.foldl (fun items w => items.set w.1 w.2) items).length = items.length := by
  induction ws generalizing items with
  | nil => rfl
  | cons w ws ih => rw [foldl_cons, ih, length_set]

/-- What an accepted plan says: the FILL, and for each component the slot of the input
    that is that part of the tuple. -/
structure Planned (graph : Graph) (topo : List Ref) (loop : ExecLoop) (fill : Node)
    (stateSlots : List Slot) (elidedTopo : Nat) : Prop where
  position : ∃ ref, topo[elidedTopo]? = some ref ∧ graph.node ref = some fill
  collects : loop.collectionCount = 0
  several : 2 ≤ loop.stateCount
  length : stateSlots.length = loop.stateCount
  input : ∀ s ∈ stateSlots, ∃ input ∈ fill.withInputs, graph.dataIndexOf input = s
  tuple : ∀ frame : Frame,
    (frame (graph.dataIndexOf (fill.normInputs.headD 0))).items.length = loop.stateCount →
    graph.runFill fill frame = frame.set fill.dataIndex (.tuple (stateSlots.map frame))

theorem planStateComponents_spec {topo : List Ref} {loopRef : Ref} {loop : ExecLoop}
    {stateSlots : List Slot} {elidedTopo : Nat}
    (h : graph.planStateComponents topo bodyRegion loopRef loop = some (stateSlots, elidedTopo)) :
    ∃ fill, Planned graph topo loop fill stateSlots elidedTopo := by
  unfold planStateComponents at h
  simp only [Option.bind_eq_bind, Option.bind_eq_some_iff, guard, Option.pure_def,
    Option.failure_eq_none, Option.ite_none_right_eq_some, exists_const, and_true,
    Option.some.injEq, Prod.mk.injEq] at h
  obtain ⟨⟨hcoll, hk⟩, -, -, result, -, fill, hfill, -, -, -, parts, -, -, -, source, -, -, -, -,
    fillSlots, hslots, hslen, -, ⟨seen, placed⟩, hplaced, -, hzero, hpos, rfl, rfl⟩ := h
  dsimp only at hzero
  have hspec := fun (values : Slot → Value) (items : List Value)
      (hlen : items.length = loop.stateCount) =>
    placeComponents_spec values fill.withInputs hplaced (show items.length = _ by simpa using hlen)
      (by
        intro c s hs hne
        rw [getElem?_replicate] at hs
        split at hs
        · exact absurd (Option.some.inj hs).symm hne
        · cases hs)
  have hlength : placed.length = loop.stateCount := by
    simpa using (hspec (fun _ => .null) (replicate loop.stateCount .null) (by simp)).1
  refine ⟨fill, ⟨_, ?_, hfill⟩, hcoll, hk, hlength, ?_, ?_⟩
  · simp [getElem?_eq_getElem hpos]
  · intro s hs
    obtain h0 | hold | h := (hspec (fun _ => .null) (replicate loop.stateCount .null)
      (by simp)).2.1 s hs
    · exact absurd (h0 ▸ hs) hzero
    · exact absurd ((mem_replicate.mp hold).2 ▸ hs) hzero
    · exact h
  · intro frame htemplate
    show frame.set fill.dataIndex (.tuple _) = frame.set fill.dataIndex (.tuple (placed.map frame))
    rw [hslots, Option.getD_some]
    congr 2
    have h := (hspec frame _ htemplate).2.2
    rw [drop_zero] at h
    apply ext_getElem?
    intro c
    by_cases hc : c < placed.length
    · have hget := getElem?_eq_getElem hc
      rw [h c _ hget fun h0 => hzero (h0 ▸ getElem_mem hc), getElem?_map, hget]
      rfl
    · rw [getElem?_eq_none (by rw [length_foldl_set, htemplate]; omega),
        getElem?_eq_none (by simp; omega)]

end Accepted

end Graph

end Camel.Loop

/-! # The Rounds of a Loop

    A loop runs its condition, its test, its body and its end, round after round.
    What the two regions do is any code that writes its own slots and reads what it
    can see: its ports and what stands outside the loop.
-/

namespace Camel.Loop

open Lib
open Plan (Ref NodeKind)

/-! ## Running -/

/-- What the nodes of a region do to the frame and to the rest of the world; none
    is a fault. -/
abbrev Code (W : Type) := W → Frame → Option (W × Frame)

/-- A state as the condition or the body is given it. -/
inductive Seen where
  | cond (state : List Value)
  | body (element : Option Value) (state : List Value)

inductive Outcome (W : Type) where
  | running (w : W) (frame : Frame)
  | finished (w : W) (frame : Frame)
  | fault

variable {W : Type}

variable (loop : ExecLoop)

/-- The values of the ports of a state from `first` on. -/
def portsAt (first : Nat) (frame : Frame) : List Value :=
  (List.range loop.stateCount).map fun j => frame (loop.slotAt (first + j))

def seenByCond (frame : Frame) : List Seen :=
  if loop.hasCond then [.cond (portsAt loop loop.stateCount frame)] else []

def seenByBody (frame : Frame) : Seen :=
  .body (if loop.iterates then some (frame (loop.slotAt loop.bodyFirst)) else none)
    (portsAt loop loop.bodyState frame)

/-- The nodes of the body in their order: the FILL of the next state runs unless
    the plan leaves it out. -/
def bodyRange (graph : Graph) (fill : Node) (loop : ExecLoop) (body : Code W) : Code W :=
  fun w frame => (body w frame).map fun r =>
    (r.1, if loop.stateComponents then r.2 else graph.runFill fill r.2)

/-- A round from its test on, with what was seen before it. -/
def fromTest (graph : Graph) (fill : Node) (loop : ExecLoop) (body : Code W) (seen : List Seen)
    (w : W) (frame : Frame) : List Seen × Outcome W :=
  match loopTest loop frame with
  | none => (seen, .fault)
  | some (true, frame) => (seen, .finished w (loopEnd loop frame).2)
  | some (false, frame) =>
    match bodyRange graph fill loop body w frame with
    | none => (seen ++ [seenByBody loop frame], .fault)
    | some (w, after) => (seen ++ [seenByBody loop frame], .running w (loopEnd loop after).2)

/-- One round, or the end of the loop. -/
def oneRound (graph : Graph) (fill : Node) (loop : ExecLoop) (cond body : Code W) (w : W)
    (frame : Frame) : List Seen × Outcome W :=
  match if loop.hasCond then cond w frame else some (w, frame) with
  | none => (seenByCond loop frame, .fault)
  | some (w, after) => fromTest graph fill loop body (seenByCond loop frame) w after

def rounds (graph : Graph) (fill : Node) (loop : ExecLoop) (cond body : Code W) :
    Nat → W → Frame → List Seen × Outcome W
  | 0, w, frame => ([], .running w frame)
  | n + 1, w, frame =>
    match oneRound graph fill loop cond body w frame with
    | (seen, .running w frame) =>
      let rest := rounds graph fill loop cond body n w frame
      (seen ++ rest.1, rest.2)
    | r => r

/-- The first `n` rounds of a loop, or all of it. -/
def run (graph : Graph) (fill : Node) (loop : ExecLoop) (cond body : Code W) (n : Nat) (w : W)
    (frame : Frame) : List Seen × Outcome W :=
  rounds graph fill loop cond body n w (loopBegin loop frame)

/-! ## The slots of a loop -/

/-- The slots the code of the two regions writes. -/
structure Writes where
  cond : List Slot
  body : List Slot

namespace ExecLoop

variable (loop : ExecLoop)

def condPort (j : Nat) : Slot := loop.slotAt (loop.stateCount + j)

def elementPort : Slot := loop.slotAt loop.bodyFirst

def bodyPort (j : Nat) : Slot := loop.slotAt (loop.bodyState + j)

def IsCondPort (s : Slot) : Prop := loop.hasCond = true ∧ ∃ j < loop.stateCount, loop.condPort j = s

def IsBodyPort (s : Slot) : Prop :=
  (loop.iterates = true ∧ loop.elementPort = s) ∨ ∃ j < loop.stateCount, loop.bodyPort j = s

instance (s : Slot) : Decidable (loop.IsCondPort s) :=
  inferInstanceAs (Decidable (_ ∧ ∃ j < loop.stateCount, loop.condPort j = s))

instance (s : Slot) : Decidable (loop.IsBodyPort s) :=
  inferInstanceAs (Decidable (_ ∨ ∃ j < loop.stateCount, loop.bodyPort j = s))

/-- A slot of the loop: its value, its round, a port or a slot its regions write. -/
def Inside (writes : Writes) (s : Slot) : Prop :=
  s = loop.stateSlot ∨ s = loop.roundSlot ∨ loop.IsCondPort s ∨ loop.IsBodyPort s ∨
    s ∈ writes.cond ∨ s ∈ writes.body

instance (writes : Writes) (s : Slot) : Decidable (loop.Inside writes s) :=
  inferInstanceAs (Decidable (_ ∨ _ ∨ _ ∨ _ ∨ _ ∨ _))

end ExecLoop

/-- How a graph lays a loop out in the frame: each value of the loop has a slot of its
    own, what the loop starts from stands outside of it, and the parts of the next
    state are values the body can see. -/
structure Layout (graph : Graph) (fill : Node) (loop : ExecLoop) (writes : Writes) : Prop where
  slots_length : loop.slots.length = loop.bodyState + loop.stateCount
  ports_nodup : (loop.stateSlot :: loop.roundSlot :: loop.slots.drop loop.stateCount).Nodup
  written : ∀ s, s ∈ writes.cond ∨ s ∈ writes.body →
    s ∉ loop.stateSlot :: loop.roundSlot :: loop.slots.drop loop.stateCount
  regions_apart : ∀ s ∈ writes.cond, s ∉ writes.body
  first_outside : ∀ j < loop.stateCount, ¬ loop.Inside writes (loop.slotAt j)
  cond_result : loop.hasCond = true → loop.condResultSlot ∈ writes.cond ∨
    loop.IsCondPort loop.condResultSlot ∨ ¬ loop.Inside writes loop.condResultSlot
  iterable_outside : ¬ loop.Inside writes loop.iterableSlot
  bounds_outside : ∀ b ∈ loop.interval, ∀ s, b.1 = .slot s ∨ b.2 = .slot s →
    ¬ loop.Inside writes s
  fill_result : loop.bodyResultSlot = fill.dataIndex
  fill_written : fill.dataIndex ∈ writes.body
  template_outside : ¬ loop.Inside writes (graph.dataIndexOf (fill.normInputs.headD 0))
  input_seen : ∀ input ∈ fill.withInputs, ∀ s, graph.dataIndexOf input = s →
    s ≠ loop.stateSlot ∧ s ≠ loop.roundSlot ∧ ¬ loop.IsCondPort s ∧ s ∉ writes.cond ∧
      s ≠ fill.dataIndex

/-- Code that writes some slots only, and whose results are a matter of the slots it
    can see. -/
structure Code.Local (code : Code W) (writes : List Slot) (visible result : Slot → Prop) :
    Prop where
  frame : ∀ w f w' f', code w f = some (w', f') → ∀ s ∉ writes, f' s = f s
  reads : ∀ w f g, (∀ s, visible s → f s = g s) →
    (code w f = none ∧ code w g = none) ∨
    ∃ w' f' g', code w f = some (w', f') ∧ code w g = some (w', g') ∧
      ∀ s, result s → s ∈ writes → f' s = g' s

/-- What the condition can see: its ports and what is outside the loop. -/
def CondSees (writes : Writes) (s : Slot) : Prop :=
  loop.IsCondPort s ∨ ¬ loop.Inside writes s

/-- What the body can see: its ports and what is outside the loop. -/
def BodySees (writes : Writes) (s : Slot) : Prop :=
  loop.IsBodyPort s ∨ ¬ loop.Inside writes s

/-- The condition and the body of a loop. -/
structure Behaves (graph : Graph) (fill : Node) (loop : ExecLoop) (writes : Writes)
    (cond body : Code W) : Prop where
  cond : cond.Local writes.cond (CondSees loop writes) (· = loop.condResultSlot)
  body : body.Local writes.body (BodySees loop writes)
    (fun s => ∃ input ∈ fill.withInputs, graph.dataIndexOf input = s)

/-! ## State slots that do not clash -/

/-- The components do not stand in each other's way: two in one slot start from one
    value, one outside the loop is never written with another value, none is the
    port of the element, and none is a port that is bound before it is read. -/
structure Separate (loop : ExecLoop) (writes : Writes) (stateSlots : List Slot) : Prop where
  shared : ∀ i < loop.stateCount, ∀ j < loop.stateCount,
    stateSlots.getD i 0 = stateSlots.getD j 0 → loop.slotAt i = loop.slotAt j
  outside : ∀ j < loop.stateCount, ¬ loop.Inside writes (stateSlots.getD j 0) →
    stateSlots.getD j 0 = loop.slotAt j
  element : loop.iterates = true → ∀ j < loop.stateCount, stateSlots.getD j 0 ≠ loop.elementPort
  rebound : loop.stateCount ≠ 2 → ∀ j < loop.stateCount, ∀ i < j,
    stateSlots.getD j 0 ≠ loop.bodyPort i

end Camel.Loop
