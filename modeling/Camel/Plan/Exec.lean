import Mathlib

/-! # Structured Programs

    What the regions of a plan describe: a sequence of nodes, branches and loops,
    nested to any depth, with empty arms, conditions and bodies. `refs` is the order
    the nodes are laid out in, and the table of loops is made from it.
-/

namespace Camel.Plan

/-! ## Nodes -/

abbrev Ref := Nat

inductive NodeKind where
  | cast | copy | fill | accs | brch | join | call | func | oper | loop | port | data | gate
  deriving DecidableEq

/-- `[begin, condEnd)` is the condition, `[condEnd, position)` the body, and the LOOP
    node is at `position`. -/
structure ExecLoop where
  ref : Ref
  position : Nat
  begin : Nat
  condEnd : Nat

/-! ## Programs -/

mutual

inductive Block where
  | nil
  | cons (s : Stmt) (rest : Block)

inductive Stmt where
  | node (r : Ref)
  | branch (brch : Ref) (arms : Arms) (join : Ref)
  | loop (cond body : Block) (ref : Ref)

inductive Arms where
  | nil
  | cons (arm : Block) (rest : Arms)

end

mutual

def Block.refs : Block → List Ref
  | .nil => []
  | .cons s rest => s.refs ++ rest.refs

def Stmt.refs : Stmt → List Ref
  | .node r => [r]
  | .branch brch arms join => brch :: (arms.refs ++ [join])
  | .loop cond body ref => cond.refs ++ (body.refs ++ [ref])

def Arms.refs : Arms → List Ref
  | .nil => []
  | .cons arm rest => arm.refs ++ rest.refs

end

def Block.size (b : Block) : Nat := b.refs.length

def Stmt.size (s : Stmt) : Nat := s.refs.length

def Arms.size (arms : Arms) : Nat := arms.refs.length

@[simp] theorem Block.refs_nil : Block.nil.refs = [] := rfl

@[simp] theorem Block.refs_cons (s : Stmt) (rest : Block) :
    (Block.cons s rest).refs = s.refs ++ rest.refs := rfl

@[simp] theorem Stmt.refs_node (r : Ref) : (Stmt.node r).refs = [r] := rfl

@[simp] theorem Stmt.refs_branch (brch : Ref) (arms : Arms) (join : Ref) :
    (Stmt.branch brch arms join).refs = brch :: (arms.refs ++ [join]) := rfl

@[simp] theorem Stmt.refs_loop (cond body : Block) (ref : Ref) :
    (Stmt.loop cond body ref).refs = cond.refs ++ (body.refs ++ [ref]) := rfl

@[simp] theorem Arms.refs_nil : Arms.nil.refs = [] := rfl

@[simp] theorem Arms.refs_cons (arm : Block) (rest : Arms) :
    (Arms.cons arm rest).refs = arm.refs ++ rest.refs := rfl

@[simp] theorem Block.size_nil : Block.nil.size = 0 := by simp [Block.size]

@[simp] theorem Block.size_cons (s : Stmt) (rest : Block) :
    (Block.cons s rest).size = s.size + rest.size := by simp [Block.size, Stmt.size]

@[simp] theorem Stmt.size_node (r : Ref) : (Stmt.node r).size = 1 := by simp [Stmt.size]

@[simp] theorem Stmt.size_branch (brch : Ref) (arms : Arms) (join : Ref) :
    (Stmt.branch brch arms join).size = arms.size + 2 := by
  simp [Stmt.size, Arms.size]

@[simp] theorem Stmt.size_loop (cond body : Block) (ref : Ref) :
    (Stmt.loop cond body ref).size = cond.size + body.size + 1 := by
  simp only [Stmt.size, Stmt.refs_loop, List.length_append, Block.size, List.length_singleton]
  omega

@[simp] theorem Arms.size_nil : Arms.nil.size = 0 := by simp [Arms.size]

@[simp] theorem Arms.size_cons (arm : Block) (rest : Arms) :
    (Arms.cons arm rest).size = arm.size + rest.size := by simp [Arms.size, Block.size]

/-! ## The Loops of a Program -/

/-- The record of a loop laid out at `p`. -/
def loopAt (cond body : Block) (ref : Ref) (p : Nat) : ExecLoop :=
  ⟨ref, p + cond.size + body.size, p, p + cond.size⟩

mutual

def Block.loopsAt : Block → Nat → List ExecLoop
  | .nil, _ => []
  | .cons s rest, p => s.loopsAt p ++ rest.loopsAt (p + s.size)

def Stmt.loopsAt : Stmt → Nat → List ExecLoop
  | .node _, _ => []
  | .branch _ arms _, p => arms.loopsAt (p + 1)
  | .loop cond body ref, p =>
    cond.loopsAt p ++ (body.loopsAt (p + cond.size) ++ [loopAt cond body ref p])

def Arms.loopsAt : Arms → Nat → List ExecLoop
  | .nil, _ => []
  | .cons arm rest, p => arm.loopsAt p ++ rest.loopsAt (p + arm.size)

end

/-! ## Looking through GATEs -/

/-- The value behind the GATEs that order it after statements, at most so many of
    them. -/
def valueBehindGates (kind : Ref → Option NodeKind) (normInputsOf : Ref → List Ref) :
    Nat → Ref → Ref
  | 0, at_ => at_
  | guard + 1, at_ =>
    match kind at_, normInputsOf at_ with
    | some .gate, input :: _ => valueBehindGates kind normInputsOf guard input
    | _, _ => at_

end Camel.Plan
