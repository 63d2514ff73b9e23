import Camel.Draft.Linked
import Camel.Lib.DepthFirst

/-! # Cycles of Input Edges

    `findInputCycle` (`include/camel/runtime/cycle.h`) walks the input edges of a graph, all five
    kinds of them, depth first. It reads a draft and a frozen graph through an adaptor; the one of
    a frozen graph hands out a scratch that its next call writes over.
-/

namespace Camel.Draft

open Lib List Function

/-! ## The Search -/

inductive CycleEdgeKind where
  | norm | withs | ctrl | sync | order
  deriving DecidableEq

def kCycleEdgeKindCount : Nat := 5

/-- The kind of a number, which the search keeps below the count. -/
def cycleEdgeKind : Nat → CycleEdgeKind
  | 0 => .norm
  | 1 => .withs
  | 2 => .ctrl
  | 3 => .sync
  | _ => .order

/-- The adaptor a search reads. `inputsOf` may write its scratch, and the span it returns is read
    from the scratch as that call left it. -/
structure CycleEdges (σ : Type) where
  slotCount : Nat
  present : Ref → Bool
  inputsOf : Ref → CycleEdgeKind → σ → (σ → List Ref) × σ

/-- Where the search is at a node: the next edge to look at, by kind and number. -/
structure CycleFrame where
  node : Ref
  kind : Nat := 0
  next : Nat := 0

/-- `state` and the stack, the top first, with the adaptor's scratch. -/
structure CycleSearch (σ : Type) where
  state : Ref → DepthFirst.Mark
  stack : List CycleFrame
  scratch : σ

section Search

variable {σ : Type} (edges : CycleEdges σ)

/-- The loop over the kinds that are left, and the read of the edge it stops at. -/
def nextInput : Nat → CycleFrame → σ → CycleFrame × Option Ref × σ
  | 0, top, scratch => (top, none, scratch)
  | left + 1, top, scratch =>
    let (span, scratch) := edges.inputsOf top.node (cycleEdgeKind top.kind) scratch
    match (span scratch)[top.next]? with
    | some input => ({ top with next := top.next + 1 }, some input, scratch)
    | none => nextInput left { top with kind := top.kind + 1, next := 0 } scratch

/-- The nodes on the cycle, from the closing node to the node the search is at. -/
def cyclePath (stack : List CycleFrame) (input : Ref) : List Ref :=
  (stack.map (·.node)).reverse.dropWhile (· ≠ input)

/-- One turn of the search; the closing node and the path where it finds a cycle. -/
def cycleStep (s : CycleSearch σ) : Option (CycleSearch σ ⊕ Ref × List Ref) :=
  match s.stack with
  | [] => none
  | top :: below =>
    match nextInput edges (kCycleEdgeKindCount - top.kind) top s.scratch with
    | (top, none, scratch) =>
      some (.inl ⟨update s.state top.node .finished, below, scratch⟩)
    | (top, some input, scratch) =>
      if edges.slotCount ≤ input ∨ edges.present input = false then
        some (.inl ⟨s.state, top :: below, scratch⟩)
      else
        match s.state input with
        | .onStack => some (.inr (input, cyclePath (top :: below) input))
        | .unvisited => some (.inl
            ⟨update s.state input .onStack, { node := input } :: top :: below, scratch⟩)
        | .finished => some (.inl ⟨s.state, top :: below, scratch⟩)

/-- `while (!stack.empty())`, within a number of turns. -/
def cycleWalk : Nat → CycleSearch σ → Option (CycleSearch σ ⊕ Ref × List Ref)
  | 0, _ => none
  | fuel + 1, s =>
    match cycleStep edges s with
    | none => some (.inl s)
    | some (.inl s') => cycleWalk fuel s'
    | some (.inr found) => some (.inr found)

/-- The loop over the nodes to start from. -/
def cycleStarts (fuel : Nat) :
    List Ref → (Ref → DepthFirst.Mark) → σ → Option (Option (Ref × List Ref))
  | [], _, _ => some none
  | start :: starts, state, scratch =>
    if state start ≠ .unvisited ∨ edges.present start = false then
      cycleStarts fuel starts state scratch
    else
      match cycleWalk edges fuel
          ⟨update state start .onStack, [{ node := start }], scratch⟩ with
      | none => none
      | some (.inl s) => cycleStarts fuel starts s.state s.scratch
      | some (.inr found) => some (some found)

/-- `findInputCycle`: the node that closes a cycle and the path to it, or nothing; each start is
    searched within a number of turns. -/
def findInputCycleWithin (fuel : Nat) (scratch : σ) : Option (Option (Ref × List Ref)) :=
  cycleStarts edges fuel (List.range edges.slotCount) (fun _ => .unvisited) scratch

end Search

/-! ## The Two Adaptors -/

def CycleEdgeKind.slot : CycleEdgeKind → DraftEdgeSlot
  | .norm => .normalPorts
  | .withs => .contextPorts
  | .ctrl => .ctrl
  | .sync => .sync
  | .order => .order

/-- `DraftCycleEdges`: a draft keeps all five kinds as runs. -/
def draftCycleEdges (d : Draft) : CycleEdges Unit where
  slotCount := d.nodesById.length
  present := d.alive
  inputsOf := fun id kind _ => (fun _ => d.inputsOf id kind.slot, ())

/-- A node of a frozen graph: its place may be held by a dead record. -/
structure GCNode where
  dead : Bool := false
  norm : List Ref := []
  withs : List Ref := []
  ctrl : List Ref := []

/-- An order or sync edge of a frozen graph. -/
structure SideEdge where
  user : Ref
  pred : Ref

/-- The nodes and edges of a frozen graph. Its two side arrays are in the order of their users. -/
structure GCGraph where
  nodes : List GCNode
  orderEdges : List SideEdge
  syncEdges : List SideEdge
  orderSorted : orderEdges.Pairwise fun e e' => e.user ≤ e'.user
  syncSorted : syncEdges.Pairwise fun e e' => e.user ≤ e'.user

/-- `sideRunOf`: from the first record of the user to the first behind them. -/
def sideRunOf (edges : List SideEdge) (ref : Ref) : List SideEdge :=
  (edges.dropWhile fun e => decide (e.user < ref)).takeWhile fun e => decide (e.user ≤ ref)

namespace GCGraph

def present (g : GCGraph) (ref : Ref) : Bool := g.nodes[ref]?.any fun n => !n.dead

/-- A run of a node's inputs, which a reference outside the graph has none of. -/
def runOf (g : GCGraph) (ref : Ref) (run : GCNode → List Ref) : List Ref :=
  (g.nodes[ref]?.map run).getD []

/-- The inputs of a node of one kind. -/
def inputsOf (g : GCGraph) (ref : Ref) : CycleEdgeKind → List Ref
  | .norm => g.runOf ref (·.norm)
  | .withs => g.runOf ref (·.withs)
  | .ctrl => g.runOf ref (·.ctrl)
  | .sync => (sideRunOf g.syncEdges ref).map (·.pred)
  | .order => (sideRunOf g.orderEdges ref).map (·.pred)

end GCGraph

/-- `FrozenCycleEdges`: the sync and order edges are records, whose nodes are collected in
    `sideEdges_`. -/
def frozenCycleEdges (g : GCGraph) : CycleEdges (List Ref) where
  slotCount := g.nodes.length
  present := g.present
  inputsOf := fun ref kind sideEdges =>
    match kind with
    | .norm | .withs | .ctrl => (fun _ => g.inputsOf ref kind, sideEdges)
    | .sync | .order => (fun sideEdges => sideEdges, g.inputsOf ref kind)

/-! ## Encoding a Draft -/

/-- The places of the encoded graph: a node of the draft, or a dead record where a node that is
    gone keeps its place. -/
def plannedNodes (d : Draft) (keepIds : Bool) : List (Option Ref) :=
  (List.range d.nodesById.length).filterMap fun id =>
    if d.alive id then some (some id) else if keepIds then some none else none

/-- `runtimeRefsByDraftId` -/
def runtimeRef (planned : List (Option Ref)) (id : Ref) : Ref := planned.idxOf (some id)

/-- The order inputs that are kept; a node that arranges itself freely drops them. -/
def keptOrderInputs (d : Draft) (dropsOrder : Ref → Bool) (id : Ref) : List Ref :=
  if dropsOrder id then [] else d.inputsOf id .order

/-- `requireAlive` of every input of a node -/
def inputsAlive (d : Draft) (dropsOrder : Ref → Bool) (id : Ref) : Bool :=
  (d.inputsOf id .normalPorts).all d.alive && (d.inputsOf id .contextPorts).all d.alive &&
    (d.inputsOf id .ctrl).all d.alive && (keptOrderInputs d dropsOrder id).all d.alive &&
    (d.inputsOf id .sync).all d.alive

def encodedNode (d : Draft) (planned : List (Option Ref)) : Option Ref → GCNode
  | none => { dead := true }
  | some id =>
    { norm := (d.inputsOf id .normalPorts).map (runtimeRef planned)
      withs := (d.inputsOf id .contextPorts).map (runtimeRef planned)
      ctrl := (d.inputsOf id .ctrl).map (runtimeRef planned) }

/-- The side edges of one place, by the number of the predecessor. -/
def sideEdgesAt (planned : List (Option Ref)) (inputsOf : Ref → List Ref) :
    Option Ref → List SideEdge
  | none => []
  | some id => ((inputsOf id).mergeSort fun a b => decide (a ≤ b)).map fun pred =>
      ⟨runtimeRef planned id, runtimeRef planned pred⟩

def emitSideEdges (planned : List (Option Ref)) (inputsOf : Ref → List Ref) : List SideEdge :=
  planned.flatMap (sideEdgesAt planned inputsOf)

theorem planned_ascending (d : Draft) (keepIds : Bool) :
    (plannedNodes d keepIds).Pairwise fun a b => ∀ i j, a = some i → b = some j → i < j := by
  unfold plannedNodes
  apply Pairwise.filterMap _ _ pairwise_lt_range
  intro i j hlt a ha b hb k l hk hl
  subst hk hl
  -- what stands in a place is the node it was made for
  have hplace : ∀ {m n : Ref}, (if d.alive m = true then some (some m)
      else if keepIds = true then some none else none) = some (some n) → n = m := by
    intro m n h
    split at h
    · cases h
      rfl
    · split at h <;> cases h
  rw [hplace ha, hplace hb]
  exact hlt

variable {planned : List (Option Ref)} {i : Nat}

section
variable (h : planned.Pairwise fun a b => ∀ i j, a = some i → b = some j → i < j)
include h

/-- A node that is there has one place. -/
theorem place_unique
    {j : Nat} {id : Ref}
    (hi : planned[i]? = some (some id)) (hj : planned[j]? = some (some id)) : i = j := by
  obtain ⟨hi', hgi⟩ := List.getElem?_eq_some_iff.1 hi
  obtain ⟨hj', hgj⟩ := List.getElem?_eq_some_iff.1 hj
  have hpairs := pairwise_iff_getElem.1 h
  rcases lt_trichotomy i j with hlt | heq | hgt
  · exact absurd (hpairs i j hi' hj' hlt id id hgi hgj) (lt_irrefl id)
  · exact heq
  · exact absurd (hpairs j i hj' hi' hgt id id hgj hgi) (lt_irrefl id)

theorem runtimeRef_of_place
    {id : Ref}
    (hi : planned[i]? = some (some id)) : runtimeRef planned id = i := by
  have hmem : some id ∈ planned := mem_of_getElem? hi
  have hlt : planned.idxOf (some id) < planned.length := idxOf_lt_length_iff.2 hmem
  have hat : planned[planned.idxOf (some id)]? = some (some id) := by
    rw [getElem?_eq_getElem hlt, getElem_idxOf hlt]
  exact place_unique h hat hi

theorem user_of_sideEdgesAt
    {inputsOf : Ref → List Ref} {held : Option Ref} (hi : planned[i]? = some held)
    {e : SideEdge} (he : e ∈ sideEdgesAt planned inputsOf held) : e.user = i := by
  cases held with
  | none => cases he
  | some id =>
    obtain ⟨pred, -, rfl⟩ := mem_map.1 he
    exact runtimeRef_of_place h hi

theorem emitSideEdges_sorted
    (inputsOf : Ref → List Ref) :
    (emitSideEdges planned inputsOf).Pairwise fun e e' => e.user ≤ e'.user := by
  unfold emitSideEdges
  rw [pairwise_flatMap]
  constructor
  · intro held hheld
    obtain ⟨i, hi⟩ := mem_iff_getElem?.1 hheld
    apply pairwise_of_forall_mem_list
    intro e he e' he'
    rw [user_of_sideEdgesAt h hi he, user_of_sideEdgesAt h hi he']
  · rw [pairwise_iff_getElem]
    intro i j hi hj hlt e he e' he'
    rw [user_of_sideEdgesAt h (getElem?_eq_getElem hi) he,
      user_of_sideEdgesAt h (getElem?_eq_getElem hj) he']
    exact le_of_lt hlt

end

/-- The encoding, which refuses a draft where a node reads one that is not there. -/
def encodeGraph (d : Draft) (keepIds : Bool) (dropsOrder : Ref → Bool) : Option GCGraph :=
  if (List.range d.nodesById.length).all fun id => !d.alive id || inputsAlive d dropsOrder id then
    let planned := plannedNodes d keepIds
    some {
      nodes := planned.map (encodedNode d planned)
      orderEdges := emitSideEdges planned (keptOrderInputs d dropsOrder)
      syncEdges := emitSideEdges planned fun id => d.inputsOf id .sync
      orderSorted := emitSideEdges_sorted (planned_ascending d keepIds) _
      syncSorted := emitSideEdges_sorted (planned_ascending d keepIds) _ }
  else none

/-! ## The Search Is the One over All Inputs -/

/-- What a call of `inputsOf` hands out holds these inputs, whatever the scratch was. -/
def CycleEdges.Reads {σ : Type} (edges : CycleEdges σ) (inputs : Ref → CycleEdgeKind → List Ref) :
    Prop :=
  ∀ ref kind scratch,
    (edges.inputsOf ref kind scratch).1 (edges.inputsOf ref kind scratch).2 = inputs ref kind

theorem reads_draft (d : Draft) :
    (draftCycleEdges d).Reads fun ref kind => d.inputsOf ref kind.slot := fun _ _ _ => rfl

theorem reads_frozen (g : GCGraph) : (frozenCycleEdges g).Reads g.inputsOf := by
  intro ref kind scratch
  cases kind <;> rfl

section Simulation

variable (inputs : Ref → CycleEdgeKind → List Ref)

/-- What a frame has not looked at yet. -/
def remaining : Nat → CycleFrame → List Ref
  | 0, _ => []
  | left + 1, f =>
    (inputs f.node (cycleEdgeKind f.kind)).drop f.next ++
      remaining left { f with kind := f.kind + 1, next := 0 }

/-- The nodes that are there, with their inputs of all kinds. -/
def inputGraph (slotCount : Nat) (present : Ref → Bool) : DepthFirst.Graph Ref where
  succ := fun ref => remaining inputs kCycleEdgeKindCount { node := ref }
  present := fun ref => decide (ref < slotCount) && present ref

theorem mem_inputGraph {slotCount : Nat} {present : Ref → Bool} {u v : Ref} :
    u ∈ (inputGraph inputs slotCount present).succ v ↔ ∃ kind, u ∈ inputs v kind := by
  show u ∈ remaining inputs 5 { node := v } ↔ _
  simp only [remaining, drop_zero, mem_append, not_mem_nil, or_false]
  constructor
  · rintro (h | h | h | h | h)
    · exact ⟨.norm, h⟩
    · exact ⟨.withs, h⟩
    · exact ⟨.ctrl, h⟩
    · exact ⟨.sync, h⟩
    · exact ⟨.order, h⟩
  · rintro ⟨kind, h⟩
    cases kind with
    | norm => exact .inl h
    | withs => exact .inr (.inl h)
    | ctrl => exact .inr (.inr (.inl h))
    | sync => exact .inr (.inr (.inr (.inl h)))
    | order => exact .inr (.inr (.inr (.inr h)))

def absFrame (f : CycleFrame) : DepthFirst.Frame Ref :=
  ⟨f.node, remaining inputs (kCycleEdgeKindCount - f.kind) f⟩

def absSearch {σ : Type} (s : CycleSearch σ) : DepthFirst.Search Ref :=
  ⟨s.state, s.stack.map (absFrame inputs)⟩

variable {inputs} {σ : Type} {edges : CycleEdges σ}

/-- The loop over the kinds stops at the first edge that remains. -/
theorem nextInput_spec (hreads : edges.Reads inputs) {left : Nat} {f f' : CycleFrame}
    {scratch scratch' : σ} {found : Option Ref} (hleft : left = kCycleEdgeKindCount - f.kind)
    (h : nextInput edges left f scratch = (f', found, scratch')) :
    f'.node = f.node ∧
      remaining inputs left f = found.elim []
        (· :: remaining inputs (kCycleEdgeKindCount - f'.kind) f') := by
  induction left generalizing f scratch with
  | zero =>
    cases h
    exact ⟨rfl, rfl⟩
  | succ left ih =>
    have hread := hreads f.node (cycleEdgeKind f.kind) scratch
    unfold nextInput at h
    dsimp only at h
    rw [hread] at h
    cases hget : (inputs f.node (cycleEdgeKind f.kind))[f.next]? with
    | some input =>
      rw [hget] at h
      cases h
      obtain ⟨hlt, hat⟩ := List.getElem?_eq_some_iff.1 hget
      refine ⟨rfl, ?_⟩
      show remaining inputs (left + 1) f =
        input :: remaining inputs (kCycleEdgeKindCount - f.kind) { f with next := f.next + 1 }
      rw [← hleft]
      show (inputs f.node (cycleEdgeKind f.kind)).drop f.next ++ _ = _
      rw [drop_eq_getElem_cons hlt, hat]
      rfl
    | none =>
      rw [hget] at h
      have hend : (inputs f.node (cycleEdgeKind f.kind)).drop f.next = [] :=
        drop_eq_nil_of_le (List.getElem?_eq_none_iff.1 hget)
      have hrest := ih (by show left = _ - (f.kind + 1); omega) h
      show f'.node = f.node ∧ (inputs f.node (cycleEdgeKind f.kind)).drop f.next ++ _ = _
      rw [hend, nil_append]
      exact hrest

variable (inputs) in
theorem cyclePath_eq (stack : List CycleFrame) (input : Ref) :
    cyclePath stack input = DepthFirst.pathFrom (stack.map (absFrame inputs)) input := by
  unfold cyclePath DepthFirst.pathFrom
  rw [map_map]
  rfl

/-- What a turn comes to, seen with the inputs in one run. -/
def absOutcome : CycleSearch σ ⊕ Ref × List Ref → DepthFirst.Outcome Ref
  | .inl s => .running (absSearch inputs s)
  | .inr (node, path) => .closed node path

theorem cycleStep_simulates (hreads : edges.Reads inputs) (s : CycleSearch σ) :
    DepthFirst.step (inputGraph inputs edges.slotCount edges.present) (absSearch inputs s) =
      (cycleStep edges s).map (@absOutcome inputs σ) := by
  obtain ⟨state, stack, scratch⟩ := s
  cases stack with
  | nil => rfl
  | cons top below =>
    cases hnext : nextInput edges (kCycleEdgeKindCount - top.kind) top scratch with
    | mk top' rest =>
      obtain ⟨found, scratch'⟩ := rest
      obtain ⟨hnode, hrest⟩ := nextInput_spec hreads rfl hnext
      unfold cycleStep
      dsimp only
      rw [hnext]
      have habs : absSearch inputs ⟨state, top :: below, scratch⟩ =
          ⟨state, ⟨top'.node, remaining inputs (kCycleEdgeKindCount - top.kind) top⟩ ::
            below.map (absFrame inputs)⟩ := by
        rw [hnode]
        rfl
      rw [habs]
      cases found with
      | none =>
        rw [show remaining inputs (kCycleEdgeKindCount - top.kind) top = [] from hrest]
        rfl
      | some input =>
        rw [show remaining inputs (kCycleEdgeKindCount - top.kind) top =
          input :: remaining inputs (kCycleEdgeKindCount - top'.kind) top' from hrest]
        have hpresent : (inputGraph inputs edges.slotCount edges.present).present input = false ↔
            edges.slotCount ≤ input ∨ edges.present input = false := by
          show (decide (input < edges.slotCount) && edges.present input) = false ↔ _
          rw [Bool.and_eq_false_iff, decide_eq_false_iff_not, not_lt]
        unfold DepthFirst.step
        dsimp only
        by_cases habsent : edges.slotCount ≤ input ∨ edges.present input = false
        · rw [if_pos (hpresent.2 habsent), if_pos habsent]
          rfl
        · rw [if_neg (mt hpresent.1 habsent), if_neg habsent]
          cases state input with
          | unvisited => rfl
          | finished => rfl
          | onStack =>
            rw [cyclePath_eq inputs]
            rfl

theorem cycleWalk_simulates (hreads : edges.Reads inputs) (fuel : Nat) (s : CycleSearch σ) :
    DepthFirst.walk (inputGraph inputs edges.slotCount edges.present) fuel (absSearch inputs s) =
      (cycleWalk edges fuel s).map (Sum.map (·.state) id) := by
  induction fuel generalizing s with
  | zero => rfl
  | succ fuel ih =>
    unfold DepthFirst.walk cycleWalk
    rw [cycleStep_simulates hreads]
    cases cycleStep edges s with
    | none => rfl
    | some o =>
      cases o with
      | inl s' => exact ih s'
      | inr found => rfl

theorem cycleStarts_simulates (hreads : edges.Reads inputs) (fuel : Nat) {starts : List Ref}
    (hstarts : ∀ start ∈ starts, start < edges.slotCount) (state : Ref → DepthFirst.Mark)
    (scratch : σ) :
    DepthFirst.searchWithin (inputGraph inputs edges.slotCount edges.present) fuel starts state =
      cycleStarts edges fuel starts state scratch := by
  induction starts generalizing state scratch with
  | nil => rfl
  | cons start starts ih =>
    have hrest := ih fun s hs => hstarts s (mem_cons_of_mem start hs)
    have hpresent : (inputGraph inputs edges.slotCount edges.present).present start =
        edges.present start := by
      show (decide (start < edges.slotCount) && edges.present start) = _
      rw [decide_eq_true (hstarts start mem_cons_self), Bool.true_and]
    unfold DepthFirst.searchWithin cycleStarts
    rw [hpresent]
    split
    · exact hrest state scratch
    · have hwalk := cycleWalk_simulates hreads fuel
        ⟨update state start .onStack, [{ node := start }], scratch⟩
      rw [show DepthFirst.Search.begin (inputGraph inputs edges.slotCount edges.present) state start =
        absSearch inputs ⟨update state start .onStack, [{ node := start }], scratch⟩ from rfl,
        hwalk]
      cases cycleWalk edges fuel
          ⟨update state start .onStack, [{ node := start }], scratch⟩ with
      | none => rfl
      | some r =>
        cases r with
        | inl s => exact hrest s.state s.scratch
        | inr found => rfl

end Simulation

/-- The turns that are enough for every start: one for each input edge, and two for each node. -/
def cycleTurns {σ : Type} (edges : CycleEdges σ) (inputs : Ref → CycleEdgeKind → List Ref) : Nat :=
  ∑ v ∈ Finset.range edges.slotCount, (inputGraph inputs edges.slotCount edges.present).turns v

section Answers

variable {σ : Type} {edges : CycleEdges σ} {inputs : Ref → CycleEdgeKind → List Ref}

theorem present_lt {v : Ref}
    (hv : (inputGraph inputs edges.slotCount edges.present).present v = true) :
    v < edges.slotCount :=
  of_decide_eq_true (Bool.and_eq_true_iff.1 hv).1

theorem search_eq (hreads : edges.Reads inputs) (fuel : Nat) (scratch : σ) :
    findInputCycleWithin edges fuel scratch =
      DepthFirst.searchWithin (inputGraph inputs edges.slotCount edges.present) fuel
        (range edges.slotCount) fun _ => .unvisited :=
  (cycleStarts_simulates hreads fuel (fun _ hstart => mem_range.1 hstart) _ scratch).symm

theorem findInputCycle_ends (hreads : edges.Reads inputs) (scratch : σ) {fuel : Nat}
    (hfuel : cycleTurns edges inputs ≤ fuel) :
    ∃ r, findInputCycleWithin edges fuel scratch = some r := by
  rw [search_eq hreads]
  exact DepthFirst.searchWithin_ends (fun v hv => Finset.mem_range.2 (present_lt hv)) hfuel _ _

/-- The search finds a node just when there is a cycle, and its path is one. -/
theorem findInputCycle_right (hreads : edges.Reads inputs) {scratch : σ} {fuel : Nat}
    {r : Option (Ref × List Ref)} (h : findInputCycleWithin edges fuel scratch = some r) :
    (r.isSome = true ↔ (inputGraph inputs edges.slotCount edges.present).Cyclic) ∧
      ∀ node path, r = some (node, path) →
        (inputGraph inputs edges.slotCount edges.present).Closes node path := by
  rw [search_eq hreads] at h
  exact DepthFirst.search_right (fun v hv => mem_range.2 (present_lt hv)) h

end Answers

/-- The nodes of a draft that are there, with their inputs of all kinds. -/
def Draft.cycleGraph (d : Draft) : DepthFirst.Graph Ref :=
  inputGraph (fun ref kind => d.inputsOf ref kind.slot) d.nodesById.length d.alive

def GCGraph.cycleGraph (g : GCGraph) : DepthFirst.Graph Ref :=
  inputGraph g.inputsOf g.nodes.length g.present

/-! ## A Draft and Its Encoding Agree -/

section SideRuns

variable {edges : List SideEdge} {ref : Ref} {e : SideEdge}

section
variable (hsorted : edges.Pairwise fun e e' => e.user ≤ e'.user)
include hsorted

theorem mem_takeWhile_user :
    e ∈ edges.takeWhile (fun e => decide (e.user ≤ ref)) ↔ e ∈ edges ∧ e.user ≤ ref := by
  induction edges with
  | nil => exact ⟨nofun, fun h => nomatch h.1⟩
  | cons first edges ih =>
    obtain ⟨hfirst, hrest⟩ := pairwise_cons.1 hsorted
    by_cases hle : first.user ≤ ref
    · rw [takeWhile_cons_of_pos (by simpa using hle), mem_cons, ih hrest, mem_cons]
      constructor
      · rintro (rfl | h)
        · exact ⟨.inl rfl, hle⟩
        · exact ⟨.inr h.1, h.2⟩
      · rintro ⟨rfl | h, hle'⟩
        · exact .inl rfl
        · exact .inr ⟨h, hle'⟩
    · -- the users behind the first are no smaller
      rw [takeWhile_cons_of_neg (by simpa using hle)]
      refine ⟨nofun, fun h => ?_⟩
      rcases mem_cons.1 h.1 with rfl | hmem
      · exact absurd h.2 hle
      · have hge := hfirst e hmem
        exact absurd (le_trans hge h.2) hle

theorem mem_dropWhile_user :
    e ∈ edges.dropWhile (fun e => decide (e.user < ref)) ↔ e ∈ edges ∧ ref ≤ e.user := by
  induction edges with
  | nil => exact ⟨nofun, fun h => nomatch h.1⟩
  | cons first edges ih =>
    obtain ⟨hfirst, hrest⟩ := pairwise_cons.1 hsorted
    by_cases hlt : first.user < ref
    · rw [dropWhile_cons_of_pos (by simpa using hlt), ih hrest, mem_cons]
      constructor
      · exact fun h => ⟨.inr h.1, h.2⟩
      · rintro ⟨rfl | h, hge⟩
        · exact absurd hlt (Nat.not_lt.2 hge)
        · exact ⟨h, hge⟩
    · rw [dropWhile_cons_of_neg (by simpa using hlt)]
      refine ⟨fun h => ⟨h, ?_⟩, fun h => h.1⟩
      rcases mem_cons.1 h with rfl | hmem
      · exact Nat.not_lt.1 hlt
      · exact le_trans (Nat.not_lt.1 hlt) (hfirst e hmem)

/-- The run of a user holds its records. -/
theorem mem_sideRunOf :
    e ∈ sideRunOf edges ref ↔ e ∈ edges ∧ e.user = ref := by
  unfold sideRunOf
  rw [mem_takeWhile_user (hsorted.sublist (dropWhile_sublist _)),
    mem_dropWhile_user hsorted]
  constructor
  · rintro ⟨⟨hmem, hge⟩, hle⟩
    exact ⟨hmem, le_antisymm hle hge⟩
  · rintro ⟨hmem, rfl⟩
    exact ⟨⟨hmem, le_rfl⟩, le_rfl⟩

end

end SideRuns

section Encoding

variable {d : Draft} {keepIds : Bool} {dropsOrder : Ref → Bool} {g : GCGraph}

theorem alive_lt {id : Ref} (h : d.alive id = true) : id < d.nodesById.length := by
  by_contra hge
  have hnone : d.nodesById[id]? = none := getElem?_eq_none (Nat.not_lt.1 hge)
  unfold Draft.alive Draft.node at h
  rw [hnone] at h
  cases h

theorem mem_plannedNodes {id : Ref} : some id ∈ plannedNodes d keepIds ↔ d.alive id = true := by
  unfold plannedNodes
  rw [mem_filterMap]
  constructor
  · rintro ⟨id', -, h⟩
    split at h
    · next halive =>
      cases h
      exact halive
    · split at h <;> cases h
  · intro halive
    exact ⟨id, mem_range.2 (alive_lt halive), if_pos halive⟩

theorem place_of_alive {id : Ref} (h : d.alive id = true) :
    (plannedNodes d keepIds)[runtimeRef (plannedNodes d keepIds) id]? = some (some id) := by
  obtain ⟨i, hi⟩ := mem_iff_getElem?.1 ((@mem_plannedNodes d keepIds id).2 h)
  rw [runtimeRef_of_place (planned_ascending d keepIds) hi]
  exact hi

theorem mem_emitSideEdges {inputsOf : Ref → List Ref} {i a : Ref} :
    (∃ e ∈ emitSideEdges (plannedNodes d keepIds) inputsOf, e.user = i ∧ e.pred = a) ↔
      ∃ id, (plannedNodes d keepIds)[i]? = some (some id) ∧
        ∃ u ∈ inputsOf id, a = runtimeRef (plannedNodes d keepIds) u := by
  have hplaces := planned_ascending d keepIds
  constructor
  · rintro ⟨e, he, rfl, rfl⟩
    obtain ⟨held, hheld, he⟩ := mem_flatMap.1 he
    obtain ⟨j, hj⟩ := mem_iff_getElem?.1 hheld
    rw [user_of_sideEdgesAt hplaces hj he]
    cases held with
    | none => cases he
    | some id =>
      obtain ⟨pred, hpred, rfl⟩ := mem_map.1 he
      exact ⟨id, hj, pred, (mem_mergeSort).1 hpred, rfl⟩
  · rintro ⟨id, hi, u, hu, rfl⟩
    refine ⟨⟨runtimeRef (plannedNodes d keepIds) id, runtimeRef (plannedNodes d keepIds) u⟩, ?_,
      runtimeRef_of_place hplaces hi, rfl⟩
    unfold emitSideEdges
    rw [mem_flatMap]
    exact ⟨some id, mem_of_getElem? hi,
      mem_map.2 ⟨u, (mem_mergeSort).2 hu, rfl⟩⟩

/-- The inputs of a place are the places of the inputs of the node it holds. -/
theorem mem_inputsOf_encoded
    (hkept : ∀ id, dropsOrder id = true → d.inputsOf id .order = [])
    (h : encodeGraph d keepIds dropsOrder = some g) {i a : Ref} {kind : CycleEdgeKind} :
    a ∈ g.inputsOf i kind ↔ ∃ id, (plannedNodes d keepIds)[i]? = some (some id) ∧
      ∃ u ∈ d.inputsOf id kind.slot, a = runtimeRef (plannedNodes d keepIds) u := by
  unfold encodeGraph at h
  split at h
  · cases h
    have hrun : ∀ (run : GCNode → List Ref) (slot : DraftEdgeSlot),
        (run { dead := true } = []) →
        (∀ id, run (encodedNode d (plannedNodes d keepIds) (some id)) =
          (d.inputsOf id slot).map (runtimeRef (plannedNodes d keepIds))) →
        (a ∈ ((((plannedNodes d keepIds).map (encodedNode d (plannedNodes d keepIds)))[i]?).map
            run).getD [] ↔
          ∃ id, (plannedNodes d keepIds)[i]? = some (some id) ∧
            ∃ u ∈ d.inputsOf id slot, a = runtimeRef (plannedNodes d keepIds) u) := by
      intro run slot hdead hlive
      rw [getElem?_map]
      cases hi : (plannedNodes d keepIds)[i]? with
      | none => exact ⟨nofun, fun ⟨id, hid, _⟩ => nomatch hid⟩
      | some held =>
        cases held with
        | none =>
          show a ∈ run { dead := true } ↔ _
          rw [hdead]
          exact ⟨nofun, fun ⟨id, hid, _⟩ => nomatch hid⟩
        | some id =>
          show a ∈ run (encodedNode d (plannedNodes d keepIds) (some id)) ↔ _
          rw [hlive, mem_map]
          constructor
          · rintro ⟨u, hu, rfl⟩
            exact ⟨id, rfl, u, hu, rfl⟩
          · rintro ⟨id', hid', u, hu, rfl⟩
            cases hid'
            exact ⟨u, hu, rfl⟩
    have hside : ∀ (edges : List SideEdge) (inputsOf : Ref → List Ref),
        edges = emitSideEdges (plannedNodes d keepIds) inputsOf →
        edges.Pairwise (fun e e' => e.user ≤ e'.user) →
        (a ∈ (sideRunOf edges i).map (·.pred) ↔
          ∃ id, (plannedNodes d keepIds)[i]? = some (some id) ∧
            ∃ u ∈ inputsOf id, a = runtimeRef (plannedNodes d keepIds) u) := by
      rintro edges inputsOf rfl hsorted
      rw [← mem_emitSideEdges, mem_map]
      constructor
      · rintro ⟨e, he, hpred⟩
        obtain ⟨hmem, huser⟩ := (mem_sideRunOf hsorted).1 he
        exact ⟨e, hmem, huser, hpred⟩
      · rintro ⟨e, hmem, huser, hpred⟩
        exact ⟨e, (mem_sideRunOf hsorted).2 ⟨hmem, huser⟩, hpred⟩
    cases kind with
    | norm => exact hrun (·.norm) .normalPorts rfl fun _ => rfl
    | withs => exact hrun (·.withs) .contextPorts rfl fun _ => rfl
    | ctrl => exact hrun (·.ctrl) .ctrl rfl fun _ => rfl
    | sync => exact hside _ (fun id => d.inputsOf id .sync) rfl (emitSideEdges_sorted
        (planned_ascending d keepIds) _)
    | order =>
      have hall : keptOrderInputs d dropsOrder = fun id => d.inputsOf id .order := by
        funext id
        unfold keptOrderInputs
        split
        · next hdrops => exact (hkept id hdrops).symm
        · rfl
      exact hside _ (fun id => d.inputsOf id .order) (by rw [← hall]) (emitSideEdges_sorted
        (planned_ascending d keepIds) _)
  · cases h

theorem present_encoded (h : encodeGraph d keepIds dropsOrder = some g) {i : Ref} :
    g.cycleGraph.present i = true ↔ ∃ id, (plannedNodes d keepIds)[i]? = some (some id) := by
  unfold encodeGraph at h
  split at h
  · cases h
    show (decide (i < ((plannedNodes d keepIds).map _).length) &&
      (((plannedNodes d keepIds).map (encodedNode d (plannedNodes d keepIds)))[i]?).any
        fun n => !n.dead) = true ↔ _
    rw [length_map, getElem?_map, Bool.and_eq_true, decide_eq_true_eq]
    cases hi : (plannedNodes d keepIds)[i]? with
    | none => exact ⟨fun h => (nomatch h.2), fun ⟨id, hid⟩ => nomatch hid⟩
    | some held =>
      cases held with
      | none => exact ⟨fun h => (nomatch h.2), fun ⟨id, hid⟩ => nomatch hid⟩
      | some id => exact ⟨fun _ => ⟨id, rfl⟩, fun _ => ⟨(List.getElem?_eq_some_iff.1 hi).1, rfl⟩⟩
  · cases h

/-- What stands in a place. -/
def heldAt (planned : List (Option Ref)) (i : Ref) : Ref := ((planned[i]?).join).getD 0

/-- With no edge left out, the draft has a cycle just when its encoding has one. -/
theorem cyclic_encoded (hkept : ∀ id, dropsOrder id = true → d.inputsOf id .order = [])
    (h : encodeGraph d keepIds dropsOrder = some g) : d.cycleGraph.Cyclic ↔ g.cycleGraph.Cyclic := by
  have hpresent : ∀ id, d.cycleGraph.present id = true ↔ d.alive id = true := by
    intro id
    show (decide (id < d.nodesById.length) && d.alive id) = true ↔ _
    rw [Bool.and_eq_true, decide_eq_true_eq]
    exact ⟨fun hid => hid.2, fun hid => ⟨alive_lt hid, hid⟩⟩
  constructor
  · rintro ⟨v, hv, hcycle⟩
    refine ⟨runtimeRef (plannedNodes d keepIds) v,
      (present_encoded h).2 ⟨v, place_of_alive ((hpresent v).1 hv)⟩, ?_⟩
    apply hcycle.lift (runtimeRef (plannedNodes d keepIds))
    rintro u w ⟨hu, hedge⟩
    obtain ⟨kind, hkind⟩ := (mem_inputGraph _).1 hedge
    refine ⟨(present_encoded h).2 ⟨u, place_of_alive ((hpresent u).1 hu)⟩, ?_⟩
    exact (mem_inputGraph _).2 ⟨kind, (mem_inputsOf_encoded hkept h).2
      ⟨w, place_of_alive (alive_of_mem_inputsOf hkind), u, hkind, rfl⟩⟩
  · rintro ⟨i, hi, hcycle⟩
    have hheld : ∀ j, g.cycleGraph.present j = true →
        (plannedNodes d keepIds)[j]? = some (some (heldAt (plannedNodes d keepIds) j)) := by
      intro j hj
      obtain ⟨id, hid⟩ := (present_encoded h).1 hj
      unfold heldAt
      rw [hid]
      rfl
    have halive : ∀ j, g.cycleGraph.present j = true →
        d.alive (heldAt (plannedNodes d keepIds) j) = true :=
      fun j hj => mem_plannedNodes.1 (mem_of_getElem? (hheld j hj))
    refine ⟨heldAt (plannedNodes d keepIds) i, (hpresent _).2 (halive i hi), ?_⟩
    apply hcycle.lift (heldAt (plannedNodes d keepIds))
    rintro j k ⟨hj, hedge⟩
    refine ⟨(hpresent _).2 (halive j hj), ?_⟩
    obtain ⟨kind, hkind⟩ := (mem_inputGraph _).1 hedge
    obtain ⟨id, hk, u, hu, rfl⟩ := (mem_inputsOf_encoded hkept h).1 hkind
    -- the place of an input holds that input
    have hplace := hheld _ hj
    obtain ⟨id', hid'⟩ := (present_encoded h).1 hj
    have hsame : heldAt (plannedNodes d keepIds) (runtimeRef (plannedNodes d keepIds) u) = u := by
      have hmem : some u ∈ plannedNodes d keepIds := by
        apply List.idxOf_lt_length_iff.1
        exact (List.getElem?_eq_some_iff.1 hid').1
      have hu' := @place_of_alive d keepIds _ (mem_plannedNodes.1 hmem)
      unfold heldAt
      rw [hu']
      rfl
    have hheldk : heldAt (plannedNodes d keepIds) k = id := by
      unfold heldAt
      rw [hk]
      rfl
    rw [hsame, hheldk]
    exact (mem_inputGraph _).2 ⟨kind, hu⟩

end Encoding

/-! ## The Answers -/

/-- On every draft and every frozen graph the search ends, answers with a node just when nodes that
    are there make a cycle, and reports one; and a draft and a graph encoded from it with all its
    edges have the same answer. -/
theorem findInputCycle_decides (d : Draft) (g : GCGraph) :
    (∀ fuel, cycleTurns (draftCycleEdges d) (fun ref kind => d.inputsOf ref kind.slot) ≤ fuel →
      ∃ r, findInputCycleWithin (draftCycleEdges d) fuel () = some r ∧
        (r.isSome = true ↔ d.cycleGraph.Cyclic) ∧
        ∀ node path, r = some (node, path) → d.cycleGraph.Closes node path) ∧
      (∀ fuel scratch, cycleTurns (frozenCycleEdges g) g.inputsOf ≤ fuel →
        ∃ r, findInputCycleWithin (frozenCycleEdges g) fuel scratch = some r ∧
          (r.isSome = true ↔ g.cycleGraph.Cyclic) ∧
          ∀ node path, r = some (node, path) → g.cycleGraph.Closes node path) ∧
      ∀ keepIds dropsOrder, (∀ id, dropsOrder id = true → d.inputsOf id .order = []) →
        encodeGraph d keepIds dropsOrder = some g →
        ∀ fuel fuel' scratch r r', findInputCycleWithin (draftCycleEdges d) fuel () = some r →
          findInputCycleWithin (frozenCycleEdges g) fuel' scratch = some r' →
          r.isSome = r'.isSome := by
  refine ⟨fun fuel hfuel => ?_, fun fuel scratch hfuel => ?_, ?_⟩
  · obtain ⟨r, hr⟩ := findInputCycle_ends (reads_draft d) () hfuel
    have hright := findInputCycle_right (reads_draft d) hr
    exact ⟨r, hr, hright.1, hright.2⟩
  · obtain ⟨r, hr⟩ := findInputCycle_ends (reads_frozen g) scratch hfuel
    have hright := findInputCycle_right (reads_frozen g) hr
    exact ⟨r, hr, hright.1, hright.2⟩
  · intro keepIds dropsOrder hkept hencoded fuel fuel' scratch r r' hr hr'
    have hdraft : r.isSome = true ↔ d.cycleGraph.Cyclic :=
      (findInputCycle_right (reads_draft d) hr).1
    have hfrozen : r'.isSome = true ↔ g.cycleGraph.Cyclic :=
      (findInputCycle_right (reads_frozen g) hr').1
    rw [Bool.eq_iff_iff, hdraft, hfrozen]
    exact cyclic_encoded hkept hencoded

/-- Node 1 reads node 0, which waits on node 1; node 2 is gone and 7 is no node. -/
example : findInputCycleWithin (frozenCycleEdges
    { nodes := [{ norm := [7] }, { norm := [2, 0] }, { dead := true }]
      orderEdges := []
      syncEdges := [⟨0, 1⟩]
      orderSorted := .nil
      syncSorted := pairwise_singleton _ _ }) 12 [] = some (some (0, [0, 1])) := by decide

end Camel.Draft
