import Camel.Plan.Exec

/-! # Storage Reuse

    The plan decides for every in-place update whether it writes into the storage of
    the value it is given. It walks the nodes in the order of the plan and carries
    for each variable whether the value in its cell is one the variable's own update
    made and nothing has read since; a loop's state at its end is joined to the state
    at its start, so the walk is made twice.
-/

namespace Camel.Storage

open Plan (Ref NodeKind)

/-- The operator of a node by its name: `:var/` and a name, `:op/assn` and a suffix,
    or any other. -/
inductive Oper where
  | variable (name : String)
  | assn (suffix : String)
  | other (uri : String)
  deriving DecidableEq

/-- The operators that use a variable's cell without keeping the value in it. -/
def Oper.isVariable : Oper → Bool
  | .variable _ => true
  | .assn _ => true
  | .other _ => false

structure Node where
  kind : NodeKind
  oper : Option Oper
  dataIndex : Int
  normInputs : List Ref
  withInputs : List Ref
  ctrlInputs : List Ref

/-- A graph with the edges that order its nodes, and the operators that are the
    in-place form of another. -/
structure Graph where
  nodes : List Node
  syncEdges : List (Ref × Ref)
  orderEdges : List (Ref × Ref)
  inPlaceForms : List Oper

/-- The order of the nodes, and of each loop the positions of its first node and of its
    LOOP node. -/
structure ExecPlan where
  topo : List Ref
  loops : List (Nat × Nat)

inductive StorageReuse where
  /-- Not an update node. -/
  | none
  /-- The update reuses the storage of the value it is given. -/
  | input
  /-- The array is asked at run time. -/
  | byArrayCount
  | copy
  deriving DecidableEq

/-! ## What the plan reads of a graph -/

namespace Graph

variable (graph : Graph)

variable (topo : List Ref) (ref : Ref)

def node : Option Node := graph.nodes[ref]?

def kindOf : Option NodeKind := (graph.node ref).map Node.kind

def normInputsOf : List Ref := ((graph.node ref).map Node.normInputs).getD []

def withInputsOf : List Ref := ((graph.node ref).map Node.withInputs).getD []

def ctrlInputsOf : List Ref := ((graph.node ref).map Node.ctrlInputs).getD []

def inputsOf : List Ref := graph.normInputsOf ref ++ graph.withInputsOf ref

def valueBehindGates (at_ : Ref) : Ref :=
  Plan.valueBehindGates graph.kindOf graph.normInputsOf 64 at_

/-- The operator of an OPER node. -/
def operOf : Option Oper :=
  match graph.node ref with
  | some node => if node.kind = .oper then node.oper else Option.none
  | Option.none => Option.none

/-- The nodes that read a value, in the order of the plan, once for each input. -/
def users : List Ref :=
  topo.flatMap fun at_ => ((graph.inputsOf at_).filter (· == ref)).map fun _ => at_

/-- The nodes the graph's own edges order right after a node. -/
def successors : List Ref :=
  (topo.flatMap fun at_ =>
    ((graph.inputsOf at_ ++ graph.ctrlInputsOf at_).filter (· == ref)).map fun _ => at_) ++
    ((graph.syncEdges ++ graph.orderEdges).filter (·.1 == ref)).map Prod.snd

/-- A user that may see the value in a cell outside the graph's view. -/
def letsOut (user : Ref) : Bool :=
  match graph.kindOf user with
  | Option.none => false
  | some kind =>
    if kind = .gate then false
    else match graph.operOf user with
      | some oper => !oper.isVariable
      | Option.none => true

/-- Looks at the users of a cell behind any GATEs; so many values are looked at, and a
    walk that is not through by then has shown nothing. -/
def escapeWalk (topo : List Ref) : Nat → List Ref → List Ref → Bool
  | 0, pending, _ => !pending.isEmpty
  | limit + 1, pending, seen =>
    match pending.dropWhile seen.contains with
    | [] => false
    | at_ :: rest =>
      if (graph.users topo at_).any graph.letsOut then true
      else
        let gates := (graph.users topo at_).filter fun user => graph.kindOf user == some .gate
        escapeWalk topo limit (gates.reverse ++ rest) (at_ :: seen)

/-- The value in the cell may be seen by something the graph does not show. -/
def cellEscapes (cell : Ref) : Bool := graph.escapeWalk topo 256 [cell] []

/-- What the graph's edges order after the pending nodes; none when the walk takes more
    than its steps. -/
def orderWalk (topo : List Ref) : Nat → List Ref → List Ref → Option (List Ref)
  | _, [], reached => some reached
  | 0, _ :: _, _ => Option.none
  | steps + 1, at_ :: rest, reached =>
    if reached.contains at_ then orderWalk topo steps rest reached
    else if graph.nodes.length ≤ at_ then orderWalk topo steps rest (at_ :: reached)
    else orderWalk topo steps ((graph.successors topo at_).reverse ++ rest) (at_ :: reached)

/-- The edges order every user of the cell that the plan has after the update after it. -/
def laterUsersAreOrderedAfter (cell update : Ref) : Bool :=
  if graph.nodes.length ≤ cell then false
  else
    let later := (graph.users topo cell).filter fun user =>
      decide (topo.idxOf update < topo.idxOf user)
    if later.isEmpty then true
    else match graph.orderWalk topo 4096 [update] [] with
      | Option.none => false
      | some reached => later.all reached.contains

/-- The cell a node reads or writes, when it is one of a variable's own operators. -/
def cellOfNode : Option Ref :=
  (graph.normInputsOf ref).head?.map graph.valueBehindGates

/-- The cell is a variable this graph declares. -/
def cellDeclaredHere (cell : Ref) : Bool := graph.operOf cell == some (.variable "new")

/-- The value a variable starts with is one this graph makes. -/
def initialValueMadeHere (init : Ref) : Bool :=
  match graph.node init with
  | Option.none => false
  | some node =>
    match node.kind with
    | .copy => true
    | .fill => true
    | .data => decide (0 ≤ node.dataIndex)
    | _ => false

/-- Anything in the graph may hold the cell's value after it runs. -/
def cellValueMayBeKept (cell : Ref) : Bool :=
  if graph.nodes.length ≤ cell then true
  else (graph.users topo cell).any fun user =>
    graph.kindOf user != some .oper || graph.operOf user == some (.variable "get")

/-- The cell an in-place update takes its array from. -/
def updatedCell : Option Ref :=
  match graph.operOf ref with
  | Option.none => Option.none
  | some oper =>
    if oper ∈ graph.inPlaceForms then
      match graph.cellOfNode ref with
      | Option.none => Option.none
      | some taken =>
        if graph.operOf taken = some (.variable "take") then graph.cellOfNode taken
        else Option.none
    else Option.none

/-- An in-place update whose array comes from a `:var/take`. -/
def isUpdate : Bool :=
  match graph.operOf ref with
  | Option.none => false
  | some oper =>
    decide (oper ∈ graph.inPlaceForms) &&
      match graph.cellOfNode ref with
      | Option.none => false
      | some taken => graph.operOf taken == some (.variable "take")

/-! ## The walk -/

/-- What is decided for a node, given which cells hold a value of their own. -/
def decision (owned : Ref → Bool) : StorageReuse :=
  if graph.isUpdate ref then
    match graph.updatedCell ref with
    | Option.none => .copy
    | some cell =>
      let escapes := graph.cellEscapes topo cell
      if !graph.cellDeclaredHere cell then
        if escapes || graph.cellValueMayBeKept topo cell then .copy else .byArrayCount
      else if escapes then .copy
      else if owned cell then
        if graph.laterUsersAreOrderedAfter topo cell ref then .input else .byArrayCount
      else .copy
  else .none

/-- The cell a node leaves owned or not: a read that keeps the value and a plain store
    end the proof, a variable of a value made here and an owned assignment begin it. -/
def effectOf : Option (Ref × Bool) :=
  match graph.operOf ref with
  | Option.none => Option.none
  | some oper =>
    if oper ∈ graph.inPlaceForms then Option.none
    else match oper with
      | .variable "get" => (graph.cellOfNode ref).map (·, false)
      | .variable "new" =>
        some (ref, ((graph.cellOfNode ref).map graph.initialValueMadeHere).getD false)
      | .assn suffix => (graph.cellOfNode ref).map (·, suffix == "_owned")
      | _ => Option.none

/-- Which cells a node leaves owned. -/
def leave (owned : Ref → Bool) : Ref → Bool :=
  match graph.effectOf ref with
  | Option.none => owned
  | some (cell, value) => Function.update owned cell value

end Graph

/-- A round starts from the state the round before left. -/
def enterLoops (loops : List ((Nat × Nat) × Option (Ref → Bool))) (idx : Nat) (owned : Ref → Bool) :
    Ref → Bool :=
  loops.foldl (fun owned loop =>
    match loop with
    | ((begin, _), some entry) => if begin = idx then fun c => owned c || entry c else owned
    | _ => owned) owned

/-- The state a loop comes to its end with. -/
def endLoop (loops : List ((Nat × Nat) × Option (Ref → Bool))) (idx : Nat) (owned : Ref → Bool) :
    List ((Nat × Nat) × Option (Ref → Bool)) :=
  loops.map fun loop => if loop.1.2 = idx then (loop.1, some owned) else loop

/-- The walk from a position on: what is decided there and after, and the loops' states. -/
def walk (graph : Graph) (topo : List Ref) : Nat → List Ref → (Ref → Bool) →
    List ((Nat × Nat) × Option (Ref → Bool)) →
    List StorageReuse × List ((Nat × Nat) × Option (Ref → Bool))
  | _, [], _, loops => ([], loops)
  | idx, at_ :: rest, owned, loops =>
    let owned := enterLoops loops idx owned
    if graph.kindOf at_ = some .loop then
      let r := walk graph topo (idx + 1) rest owned (endLoop loops idx owned)
      (.none :: r.1, r.2)
    else
      let r := walk graph topo (idx + 1) rest (graph.leave at_ owned) loops
      (graph.decision topo at_ owned :: r.1, r.2)

/-- What the plan decides at each position. -/
def planStorageReuse (graph : Graph) (plan : ExecPlan) : List StorageReuse :=
  let none := plan.loops.map fun loop => (loop, Option.none)
  let first := walk graph plan.topo 0 plan.topo (fun _ => false) none
  (walk graph plan.topo 0 plan.topo (fun _ => false) first.2).1

end Camel.Storage
