import Camel.Lib.Store

/-! # The State of a Loop in its Frame

    A loop is run by three functions at three positions of the plan. Between them
    the state is either one tuple in the slot of the loop, or, for a loop of several
    values whose body ends in a tuple nothing else reads, its components in the
    slots the body computes them in. A round binds the ports of the condition and
    those of the body to the state.

    A value is modelled by what it holds. The tuple a loop makes when it starts is
    its own, so writing it in place is writing the slot that has it.
-/

namespace Camel.Loop

open Camel.Lib Function

/-- A data slot of the frame: positive for a value of the run, negative for a
    constant of the static area, 0 for none. -/
abbrev Slot := Int

/-- A type; equal types are one. -/
abbrev TypeRef := Nat

/-- What a slot holds. An array is what its first dimension hands over, round by
    round; a value with no dimension is none of these. -/
inductive Value where
  | null
  | int (n : Int)
  | bool (b : Bool)
  | tuple (items : List Value)
  | array (rows : List Value)
  deriving Inhabited

def Value.toInt : Value → Int
  | .int n => n
  | _ => 0

def Value.toBool : Value → Bool
  | .bool b => b
  | _ => false

/-- The items of a tuple. -/
def Value.items : Value → List Value
  | .tuple items => items
  | _ => []

/-- The elements of an array a loop collects into. -/
def Value.rows : Value → List Value
  | .array rows => rows
  | _ => []

abbrev Frame := Slot → Value

def Frame.set (frame : Frame) (s : Slot) (v : Value) : Frame := update frame s v

@[simp] theorem Frame.set_self (frame : Frame) (s : Slot) (v : Value) : frame.set s v s = v :=
  update_self ..

theorem Frame.set_of_ne {frame : Frame} {s t : Slot} {v : Value} (h : t ≠ s) :
    frame.set s v t = frame t :=
  update_of_ne h ..

/-- One bound of the interval a loop iterates: a constant of the plan or a slot. -/
inductive IntervalBound where
  | constant (n : Int)
  | slot (s : Slot)
  deriving DecidableEq

/-- A loop of the plan: what a round reads and writes. `slots` has the slots of
    the first values of the state, then the ports of the condition, then those
    of the body, the element first. -/
structure ExecLoop where
  iterates : Bool
  hasCond : Bool
  stateCount : Nat
  collectionCount : Nat
  stateSlot : Slot
  roundSlot : Slot
  bodyResultSlot : Slot
  condResultSlot : Slot
  iterableSlot : Slot
  /-- The bounds of the interval, for a loop that iterates one. -/
  interval : Option (IntervalBound × IntervalBound)
  slots : List Slot
  /-- The type of the tuple the state is wrapped in. -/
  valueType : Option TypeRef
  /-- The slot of each component, for a loop that keeps its state as its components. -/
  stateSlots : Option (List Slot)

namespace ExecLoop

variable (loop : ExecLoop)

/-- The loop with its state kept as its components, in the given slots. -/
def asComponents (stateSlots : List Slot) : ExecLoop := { loop with stateSlots := some stateSlots }

/-- The loop with its state kept as a tuple. -/
def asTuple : ExecLoop := { loop with stateSlots := none }

def stateComponents : Bool := loop.stateSlots.isSome

@[simp] theorem asComponents_stateComponents (stateSlots : List Slot) :
    (loop.asComponents stateSlots).stateComponents = true := rfl

@[simp] theorem asTuple_stateComponents : loop.asTuple.stateComponents = false := rfl

@[simp] theorem asComponents_stateCount (stateSlots : List Slot) :
    (loop.asComponents stateSlots).stateCount = loop.stateCount := rfl

@[simp] theorem asTuple_stateCount : loop.asTuple.stateCount = loop.stateCount := rfl

def slotAt (i : Nat) : Slot := loop.slots.getD i 0

def stateSlotAt (j : Nat) : Slot := (loop.stateSlots.getD []).getD j 0

/-- The state is wrapped in a tuple. -/
def valueIsTuple : Bool := loop.stateCount > 1 || loop.collectionCount != 0

end ExecLoop

variable (loop : ExecLoop) (frame : Frame)

def intervalBoundValue : IntervalBound → Int
  | .constant n => n
  | .slot s => (frame s).toInt

/-- The j-th value of a running state that is a tuple or the state itself. -/
def shapeStateComponent (value : Value) (j : Nat) : Value :=
  if loop.valueIsTuple then value.items.getD j .null else value

/-- The j-th value of the running state. -/
def loopStateComponent (j : Nat) : Value :=
  if loop.stateComponents then frame (loop.stateSlotAt j)
  else shapeStateComponent loop (frame loop.stateSlot) j

/-- Gives the ports from `first` on the values of the state. Two components are
    both read before a port is written; of more, each is read when its port is
    written. -/
def bindLoopState (first : Nat) (frame : Frame) : Frame :=
  if loop.stateComponents && loop.stateCount == 2 then
    let firstValue := frame (loop.stateSlotAt 0)
    let secondValue := frame (loop.stateSlotAt 1)
    (frame.set (loop.slotAt first) firstValue).set (loop.slotAt (first + 1)) secondValue
  else
    putEach (fun j => loop.slotAt (first + j)) (loopStateComponent loop)
      (List.range loop.stateCount) frame

/-- The first state: the value, or the tuple of the values and of an empty array
    for each value the loop collects. -/
def startLoopState : Frame :=
  let first := (List.range loop.stateCount).map fun j => frame (loop.slotAt j)
  let tapes := List.replicate loop.collectionCount (.array [])
  frame.set loop.stateSlot
    (if loop.valueIsTuple then .tuple (first ++ tapes) else first.getD 0 .null)

/-- The loop starts. A loop of components writes the first state where the body
    computes the next one. -/
def loopBegin : Frame :=
  let frame := startLoopState loop (frame.set loop.roundSlot (.int 0))
  let frame :=
    if loop.stateComponents then
      let state := frame loop.stateSlot
      putEach loop.stateSlotAt (fun _ j => shapeStateComponent loop state j)
        (List.range loop.stateCount) frame
    else frame
  if loop.hasCond then bindLoopState loop loop.stateCount frame else frame

/-- The element of a round, if there is one. None at all is the fault of a sequence
    with no first dimension. -/
def roundElement (round : Int) : Option (Option Value) :=
  match loop.interval with
  | some (lo, hi) =>
    let lower := intervalBoundValue frame lo
    let upper := intervalBoundValue frame hi
    let elements := if lower < upper then upper - lower else 0
    some (if elements ≤ round then none else some (.int (lower + round)))
  | none =>
    match frame loop.iterableSlot with
    | .array rows => some rows[round.toNat]?
    | _ => none

/-- Where the ports of the body begin. -/
def ExecLoop.bodyFirst : Nat :=
  loop.stateCount + if loop.hasCond then loop.stateCount else 0

def ExecLoop.bodyState : Nat :=
  loop.bodyFirst + if loop.iterates then 1 else 0

/-- The condition has run: whether the loop stops, with the ports of the body bound
    when it does not. -/
def loopTest : Option (Bool × Frame) :=
  let round := (frame loop.roundSlot).toInt
  let stopped := frame.set loop.roundSlot (.int (-1))
  if loop.hasCond && !(frame loop.condResultSlot).toBool then some (true, stopped)
  else if loop.iterates then
    match roundElement loop frame round with
    | none => none
    | some none => some (true, stopped)
    | some (some element) =>
      some (false, bindLoopState loop loop.bodyState (frame.set (loop.slotAt loop.bodyFirst) element))
  else some (false, bindLoopState loop loop.bodyState frame)

theorem loopTest_stop {loop : ExecLoop} {frame : Frame}
    (h : (loop.hasCond && !(frame loop.condResultSlot).toBool) = true) :
    loopTest loop frame = some (true, frame.set loop.roundSlot (.int (-1))) :=
  if_pos h

theorem loopTest_go {loop : ExecLoop} {frame : Frame}
    (h : (loop.hasCond && !(frame loop.condResultSlot).toBool) = false)
    (hiter : loop.iterates = false) :
    loopTest loop frame = some (false, bindLoopState loop loop.bodyState frame) := by
  unfold loopTest
  dsimp only
  rw [if_neg (Bool.not_eq_true _ ▸ h), if_neg (by simp [hiter])]

theorem loopTest_element {loop : ExecLoop} {frame : Frame}
    (h : (loop.hasCond && !(frame loop.condResultSlot).toBool) = false)
    (hiter : loop.iterates = true) :
    loopTest loop frame =
      match roundElement loop frame (frame loop.roundSlot).toInt with
      | none => none
      | some none => some (true, frame.set loop.roundSlot (.int (-1)))
      | some (some element) => some (false,
          bindLoopState loop loop.bodyState (frame.set (loop.slotAt loop.bodyFirst) element)) := by
  unfold loopTest
  dsimp only
  rw [if_neg (Bool.not_eq_true _ ▸ h), if_pos hiter]

/-- Takes what the body returned as the next state, appending what it collected. -/
def takeLoopRound (state result : Value) : Value :=
  if loop.collectionCount = 0 then result
  else
    .tuple ((List.range (loop.stateCount + loop.collectionCount)).map fun j =>
      let produced := result.items.getD j .null
      if j < loop.stateCount then produced
      else .array ((state.items.getD j .null).rows ++ [produced]))

/-- The body has run, or the test has stopped the loop: whether another round starts. -/
def loopEnd : Bool × Frame :=
  let round := (frame loop.roundSlot).toInt
  if round < 0 then
    if loop.stateComponents then
      (false, frame.set loop.stateSlot (.tuple
        ((List.range loop.stateCount).foldl
          (fun items j => items.set j (frame (loop.stateSlotAt j)))
          (frame loop.stateSlot).items)))
    else (false, frame)
  else
    let frame :=
      if loop.stateComponents then frame
      else frame.set loop.stateSlot
        (takeLoopRound loop (frame loop.stateSlot) (frame loop.bodyResultSlot))
    let frame := frame.set loop.roundSlot (.int (round + 1))
    (true, if loop.hasCond then bindLoopState loop loop.stateCount frame else frame)

/-- The state as the end of a round leaves it. -/
def nextState : Frame :=
  if loop.stateComponents then frame
  else frame.set loop.stateSlot
    (takeLoopRound loop (frame loop.stateSlot) (frame loop.bodyResultSlot))

theorem loopEnd_next {loop : ExecLoop} {frame : Frame} (h : 0 ≤ (frame loop.roundSlot).toInt) :
    loopEnd loop frame = (true,
      (fun frame => if loop.hasCond then bindLoopState loop loop.stateCount frame else frame)
        ((nextState loop frame).set loop.roundSlot
          (.int ((frame loop.roundSlot).toInt + 1)))) := by
  unfold loopEnd
  dsimp only
  rw [if_neg (Int.not_lt.mpr h)]
  rfl

/-- A stopped loop of components brings its tuple up to date. -/
theorem loopEnd_stopped {loop : ExecLoop} {frame : Frame} (h : (frame loop.roundSlot).toInt < 0) :
    loopEnd loop frame = (false,
      if loop.stateComponents then
        frame.set loop.stateSlot (.tuple ((List.range loop.stateCount).foldl
          (fun items j => items.set j (frame (loop.stateSlotAt j))) (frame loop.stateSlot).items))
      else frame) := by
  unfold loopEnd
  dsimp only
  rw [if_pos h]
  split <;> rfl

end Camel.Loop
