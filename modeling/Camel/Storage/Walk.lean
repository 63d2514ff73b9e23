import Camel.Storage.Reuse

/-! # What the Walk Knows

    For one cell the walk carries one bit. Past the node that declares the variable
    the bit is what the last operation on the cell in the order of the plan leaves,
    if each loop leaves the cell as it found it.
-/

namespace Camel.Storage

open List

open Plan (Ref NodeKind)

variable {graph : Graph} {topo : List Ref} {c : Ref}

/-! ## One cell -/

/-- Whether a node leaves the cell owned. -/
def stepCell (graph : Graph) (c : Ref) (o : Bool) (ref : Ref) : Bool :=
  match graph.effectOf ref with
  | none => o
  | some (cell, value) => if cell = c then value else o

/-- What the last operation on the cell before a position leaves, in the order of the
    plan. -/
def leftBefore (graph : Graph) (topo : List Ref) (c : Ref) (i : Nat) : Bool :=
  (topo.take i).foldl (stepCell graph c) false

theorem leave_apply (ref : Ref) (owned : Ref → Bool) :
    graph.leave ref owned c = stepCell graph c (owned c) ref := by
  unfold Graph.leave stepCell
  cases graph.effectOf ref with
  | none => rfl
  | some e =>
    by_cases h : e.1 = c
    · subst h
      simp
    · simp only [h, if_false]
      exact Function.update_of_ne (Ne.symm h) ..

variable {ref : Ref}

theorem leftBefore_succ {i : Nat} (h : topo[i]? = some ref) :
    leftBefore graph topo c (i + 1) = stepCell graph c (leftBefore graph topo c i) ref := by
  unfold leftBefore
  rw [take_add_one, h, Option.toList_some, foldl_append]
  rfl

/-- The declaration settles the bit, whatever it was. -/
theorem stepCell_declared (hc : (graph.effectOf c).map Prod.fst = some c) (o o' : Bool) :
    stepCell graph c o c = stepCell graph c o' c := by
  unfold stepCell
  cases h : graph.effectOf c with
  | none => simp [h] at hc
  | some e =>
    have : e.1 = c := by simpa [h] using hc
    simp only [this, if_true]

/-! ## The walk -/

/-- The states the loops of the plan ended with so far, those of loops behind `n`. -/
def Ended (graph : Graph) (topo : List Ref) (c : Ref) (n : Nat)
    (loops : List ((Nat × Nat) × Option (Ref → Bool))) : Prop :=
  ∀ loop ∈ loops, n < loop.1.1 → loop.1.1 ≤ loop.1.2 ∧
    leftBefore graph topo c loop.1.1 = leftBefore graph topo c loop.1.2 ∧
    ∀ entry, loop.2 = some entry → entry c = leftBefore graph topo c loop.1.2

variable {n idx : Nat} {loops : List ((Nat × Nat) × Option (Ref → Bool))} {owned : Ref → Bool}

theorem enterLoops_apply
    (hloops : Ended graph topo c n loops) (hn : n < idx)
    (howned : owned c = leftBefore graph topo c idx) :
    enterLoops loops idx owned c = leftBefore graph topo c idx := by
  unfold enterLoops
  induction loops generalizing owned with
  | nil => exact howned
  | cons loop rest ih =>
    rw [foldl_cons]
    apply ih fun l hl => hloops l (.tail _ hl)
    obtain ⟨⟨begin, position⟩, entry⟩ := loop
    cases entry with
    | none => exact howned
    | some entry =>
      by_cases hb : begin = idx
      · -- the loop comes round with the bit it started with
        subst hb
        obtain ⟨-, hsteady, hentry⟩ := hloops _ (.head _) hn
        simp only [if_true, hentry entry rfl, howned, hsteady, Bool.or_self]
      · simp only [hb, if_false]
        exact howned

theorem Ended.endLoop
    (hloops : Ended graph topo c n loops)
    (howned : n < idx → owned c = leftBefore graph topo c idx) :
    Ended graph topo c n (endLoop loops idx owned) := by
  intro loop hloop hn
  obtain ⟨old, hold, rfl⟩ := mem_map.mp hloop
  by_cases hp : old.1.2 = idx
  · simp only [hp, if_true] at hn ⊢
    obtain ⟨hle, hsteady, -⟩ := hloops old hold hn
    refine ⟨hp ▸ hle, hp ▸ hsteady, ?_⟩
    rintro entry ⟨⟩
    exact howned (by omega)
  · simp only [hp, if_false] at hn ⊢
    exact hloops old hold hn

/-- The walk from a position on keeps the bit, and reuses storage only where it is set. -/
theorem walk_spec {n : Nat} (hc : (graph.effectOf c).map Prod.fst = some c)
    (hn : topo[n]? = some c) {rest : List Ref} {idx : Nat} (hrest : topo.drop idx = rest)
    {owned : Ref → Bool} {loops : List ((Nat × Nat) × Option (Ref → Bool))}
    (hloops : Ended graph topo c n loops)
    (howned : n < idx → owned c = leftBefore graph topo c idx) :
    Ended graph topo c n (walk graph topo idx rest owned loops).2 ∧
    ∀ i ref, idx ≤ i → n < i → topo[i]? = some ref → graph.updatedCell ref = some c →
      (walk graph topo idx rest owned loops).1[i - idx]? = some .input →
      leftBefore graph topo c i = true := by
  induction rest generalizing idx owned loops with
  | nil =>
    refine ⟨hloops, ?_⟩
    intro i ref _ _ _ _ h
    simp [walk] at h
  | cons at_ rest ih =>
    have hat : topo[idx]? = some at_ := by
      have := congrArg List.head? hrest
      simpa [head?_drop] using this
    have hdrop : topo.drop (idx + 1) = rest := by
      rw [← tail_drop, hrest]
      rfl
    have henter : n < idx → enterLoops loops idx owned c = leftBefore graph topo c idx :=
      fun h => enterLoops_apply hloops h (howned h)
    -- the bit after the node
    have hleave : n < idx + 1 → stepCell graph c (enterLoops loops idx owned c) at_ =
        leftBefore graph topo c (idx + 1) := by
      intro h
      rw [leftBefore_succ hat]
      by_cases heq : n = idx
      · subst heq
        obtain rfl : at_ = c := by
          rw [hn] at hat
          exact (Option.some.inj hat).symm
        exact stepCell_declared hc ..
      · rw [henter (by omega)]
    unfold walk
    dsimp only
    split
    · rename_i hkind
      -- a LOOP node: its state is noted, and it has no operator
      have hnone : graph.operOf at_ = none := by
        unfold Graph.operOf
        unfold Graph.kindOf at hkind
        cases hnode : graph.node at_ with
        | none => rfl
        | some node =>
          rw [hnode] at hkind
          have : node.kind = .loop := Option.some.inj hkind
          simp [this]
      have heffect : graph.effectOf at_ = none := by simp [Graph.effectOf, hnone]
      have hkeep : n < idx + 1 → enterLoops loops idx owned c =
          leftBefore graph topo c (idx + 1) := by
        intro h
        have := hleave h
        unfold stepCell at this
        rw [heffect] at this
        exact this
      obtain ⟨hended, hinput⟩ := ih hdrop (hloops.endLoop henter) hkeep
      refine ⟨hended, ?_⟩
      intro i ref hi hni href hcell hdecided
      obtain rfl | hlt := Nat.eq_or_lt_of_le hi
      · rw [Nat.sub_self, getElem?_cons_zero] at hdecided
        cases hdecided
      · rw [show i - idx = (i - (idx + 1)) + 1 by omega, getElem?_cons_succ] at hdecided
        exact hinput i ref hlt hni href hcell hdecided
    · obtain ⟨hended, hinput⟩ := @ih (idx + 1) hdrop (graph.leave at_ (enterLoops loops idx owned)) _ hloops
        (by intro h; rw [leave_apply]; exact hleave h)
      refine ⟨hended, ?_⟩
      intro i ref hi hni href hcell hdecided
      obtain rfl | hlt := Nat.eq_or_lt_of_le hi
      · -- decided here
        rw [Nat.sub_self, getElem?_cons_zero] at hdecided
        obtain rfl : at_ = ref := by
          rw [hat] at href
          exact Option.some.inj href
        rw [← henter hni]
        have hd : graph.decision topo at_ (enterLoops loops idx owned) = .input :=
          Option.some.inj hdecided
        unfold Graph.decision at hd
        split at hd
        · rw [hcell] at hd
          dsimp only at hd
          split at hd
          · split at hd <;> cases hd
          · split at hd
            · cases hd
            · split at hd
              · assumption
              · cases hd
        · cases hd
      · rw [show i - idx = (i - (idx + 1)) + 1 by omega, getElem?_cons_succ] at hdecided
        exact hinput i ref hlt hni href hcell hdecided

/-- Every decision of the walk is the node's decision for some state. -/
theorem walk_decides {rest : List Ref}
    {k : Nat}
    (href : rest[k]? = some ref)
    (h : (walk graph topo idx rest owned loops).1[k]? = some .input) :
    ∃ owned, graph.decision topo ref owned = .input := by
  induction rest generalizing idx owned loops k with
  | nil => simp at href
  | cons at_ rest ih =>
    unfold walk at h
    dsimp only at h
    cases k with
    | zero =>
      obtain rfl : at_ = ref := by simpa using href
      split at h
      · cases h
      · exact ⟨_, Option.some.inj h⟩
    | succ k =>
      rw [getElem?_cons_succ] at href
      split at h <;> rw [getElem?_cons_succ] at h <;> exact ih href h

/-- Storage is reused for a variable of the graph that does not escape, and where each
    loop behind its declaration leaves the cell as it found it, only where the last
    operation on the cell before leaves it owned. -/
theorem planStorageReuse_input {plan : ExecPlan} {i : Nat}
    (hc : (graph.effectOf c).map Prod.fst = some c) (hn : plan.topo[n]? = some c)
    (hloops : ∀ loop ∈ plan.loops, n < loop.1 → loop.1 ≤ loop.2 ∧
      leftBefore graph plan.topo c loop.1 = leftBefore graph plan.topo c loop.2)
    (href : plan.topo[i]? = some ref) (hcell : graph.updatedCell ref = some c)
    (h : (planStorageReuse graph plan)[i]? = some .input) :
    graph.cellEscapes plan.topo c = false ∧
      (n < i → leftBefore graph plan.topo c i = true) := by
  unfold planStorageReuse at h
  dsimp only at h
  have hnone : Ended graph plan.topo c n (plan.loops.map fun loop => (loop, none)) := by
    intro loop hloop hlt
    obtain ⟨l, hl, rfl⟩ := mem_map.mp hloop
    obtain ⟨hle, hsteady⟩ := hloops l hl hlt
    exact ⟨hle, hsteady, fun entry he => by cases he⟩
  have hwalk := @walk_spec graph plan.topo c n hc hn plan.topo 0 rfl (fun _ => false)
  have hfirst := (hwalk hnone fun hlt => absurd hlt (Nat.not_lt_zero n)).1
  constructor
  · obtain ⟨owned, hd⟩ := walk_decides href h
    unfold Graph.decision at hd
    split at hd
    · rw [hcell] at hd
      dsimp only at hd
      split at hd
      · split at hd <;> cases hd
      · split at hd
        · cases hd
        · rename_i hesc
          simpa using hesc
    · cases hd
  · intro hlt
    exact (hwalk hfirst fun hlt => absurd hlt (Nat.not_lt_zero n)).2 i ref (Nat.zero_le i) hlt
      href hcell h

/-! ## Escapes -/

theorem mem_users {u x : Ref} : u ∈ graph.users topo x ↔ u ∈ topo ∧ x ∈ graph.inputsOf u := by
  simp [Graph.users, mem_flatMap]

/-- A value of the cell, or a GATE of the plan over one. -/
inductive Through (graph : Graph) (topo : List Ref) (c : Ref) : Ref → Prop
  | cell : Through graph topo c c
  | gate {x g : Ref} (hx : Through graph topo c x) (hg : g ∈ graph.users topo x)
      (hkind : graph.kindOf g = some .gate) : Through graph topo c g

/-- The users of a value are all the variable's own, or GATEs in the set. -/
def Closed (graph : Graph) (topo : List Ref) (set : Ref → Prop) (x : Ref) : Prop :=
  ∀ u ∈ graph.users topo x, graph.letsOut u = false ∧ (graph.kindOf u = some .gate → set u)

theorem escapeWalk_closed {limit : Nat} {pending seen : List Ref}
    (h : graph.escapeWalk topo limit pending seen = false)
    (hseen : ∀ x ∈ seen, Closed graph topo (fun u => u ∈ seen ∨ u ∈ pending) x) :
    ∃ set : Ref → Prop, (∀ x, x ∈ seen ∨ x ∈ pending → set x) ∧
      ∀ x, set x → Closed graph topo set x := by
  induction limit generalizing pending seen with
  | zero =>
    obtain rfl : pending = [] := by simpa [Graph.escapeWalk] using h
    exact ⟨fun x => x ∈ seen ∨ x ∈ [], fun x hx => hx, fun x hx => hseen x (by simpa using hx)⟩
  | succ limit ih =>
    unfold Graph.escapeWalk at h
    have hdropped : ∀ x ∈ pending.takeWhile seen.contains, x ∈ seen := by
      intro x hx
      simpa using all_eq_true.mp all_takeWhile x hx
    have hsplit := takeWhile_append_dropWhile (p := seen.contains) (l := pending)
    cases hpending : pending.dropWhile seen.contains with
    | nil =>
      -- what is pending has been looked at
      rw [hpending, append_nil] at hsplit
      refine ⟨fun x => x ∈ seen ∨ x ∈ pending, fun x hx => hx, ?_⟩
      rintro x (hx | hx)
      · exact hseen x hx
      · exact hseen x (hdropped x (by rw [hsplit]; exact hx))
    | cons at_ rest =>
      rw [hpending] at h hsplit
      dsimp only at h
      split at h
      · cases h
      rename_i hout
      obtain ⟨set, hset, hclosed⟩ := ih h (by
        intro x hx u hu
        obtain rfl | hx := mem_cons.mp hx
        · -- the value just looked at: its GATEs are pending now
          refine ⟨?_, ?_⟩
          · rw [any_eq_true] at hout
            push Not at hout
            exact Bool.eq_false_iff.mpr (hout u hu)
          · intro hkind
            exact .inr (mem_append_left _ (by simp [hu, hkind]))
        · obtain ⟨hl, hg⟩ := hseen x hx u hu
          refine ⟨hl, fun hkind => ?_⟩
          obtain hs | hp := hg hkind
          · exact .inl (.tail _ hs)
          · rw [← hsplit, mem_append] at hp
            obtain hp | hp := hp
            · exact .inl (.tail _ (hdropped u hp))
            · obtain rfl | hp := mem_cons.mp hp
              · exact .inl (.head _)
              · exact .inr (mem_append_right _ hp))
      refine ⟨set, ?_, hclosed⟩
      rintro x (hx | hx)
      · exact hset x (.inl (.tail _ hx))
      · rw [← hsplit, mem_append] at hx
        obtain hx | hx := hx
        · exact hset x (.inl (.tail _ (hdropped x hx)))
        · obtain rfl | hx := mem_cons.mp hx
          · exact hset _ (.inl (.head _))
          · exact hset x (.inr (mem_append_right _ hx))

/-- A cell that does not escape is used, behind any GATEs, by the operators of variables
    only. -/
theorem not_letsOut {x u : Ref} (h : graph.cellEscapes topo c = false)
    (hx : Through graph topo c x) (hu : u ∈ graph.users topo x) : graph.letsOut u = false := by
  obtain ⟨set, hset, hclosed⟩ := escapeWalk_closed h (fun x hx => by cases hx)
  have hin : set x := by
    clear hu
    induction hx with
    | cell => exact hset c (.inr (.head _))
    | gate hx hg hkind ih => exact ((hclosed _ ih) _ hg).2 hkind
  exact (hclosed x hin u hu).1

end Camel.Storage

/-! # Runs of a Graph and What a Cell Holds

    A run takes the nodes of a structured program: one arm of each branch, a loop any
    number of rounds, and any order of nodes the edges leave unordered. What the value
    in a cell is, and whether something has kept it, is followed along the run.
-/

namespace Camel.Storage

open Plan (Ref NodeKind Block Stmt Arms)

/-! ## Runs -/

/-- Rounds of a loop: the condition, the body and another round, or the condition and
    no other. -/
inductive Rounds (cond body : List Nat → Prop) : List Nat → Prop
  | stop {t : List Nat} (h : cond t) : Rounds cond body t
  | next {t u v : List Nat} (hcond : cond t) (hbody : body u) (hnext : Rounds cond body v) :
      Rounds cond body (t ++ (u ++ v))

mutual

/-- The positions a run of a block laid out at `p` takes one after another. -/
def BlockRuns : Block → Nat → List Nat → Prop
  | .nil, _, t => t = []
  | .cons s rest, p, t => ∃ u v, t = u ++ v ∧ StmtRuns s p u ∧ BlockRuns rest (p + s.size) v

def StmtRuns : Stmt → Nat → List Nat → Prop
  | .node _, p, t => t = [p]
  | .branch _ arms _, p, t => ∃ u, t = p :: (u ++ [p + 1 + arms.size]) ∧ ArmsRun arms (p + 1) u
  | .loop cond body _, p, t => ∃ u, t = u ++ [p + cond.size + body.size] ∧
      Rounds (BlockRuns cond p) (BlockRuns body (p + cond.size)) u

/-- One of the arms runs. -/
def ArmsRun : Arms → Nat → List Nat → Prop
  | .nil, _, _ => False
  | .cons arm rest, p, t => BlockRuns arm p t ∨ ArmsRun rest (p + arm.size) t

end

/-- The edges of the graph order the node at one position before the one at another. -/
def OrderedBefore (graph : Graph) (topo : List Ref) (i j : Nat) : Prop :=
  ∃ x y, topo[i]? = some x ∧ topo[j]? = some y ∧
    Relation.TransGen (fun a b => b ∈ graph.successors topo a) x y

/-- A run with nodes taken in another order that the edges allow. -/
inductive Reordered (graph : Graph) (topo : List Ref) (t : List Nat) : List Nat → Prop
  | refl : Reordered graph topo t t
  | swap {pre post : List Nat} {i j : Nat} (h : Reordered graph topo t (pre ++ i :: j :: post))
      (hlt : i < j) (hfree : ¬ OrderedBefore graph topo i j) :
      Reordered graph topo t (pre ++ j :: i :: post)

/-! ## What a cell holds -/

/-- Whether the value in a cell was made by the graph for the variable or by the
    variable's own owned assignment, and whether a read since may have kept it. -/
structure Held where
  made : Bool
  kept : Bool

namespace Graph

variable (graph : Graph)

/-- The value behind all GATEs. -/
def behindAll (x : Ref) : Ref :=
  Plan.valueBehindGates graph.kindOf graph.normInputsOf (graph.nodes.length + 1) x

/-- A node reads a value, itself or behind GATEs. -/
def uses (ref x : Ref) : Bool := (graph.inputsOf ref).any fun input => graph.behindAll input == x

/-- The first value of a variable is made here and nothing else reads it. -/
def madeFor (topo : List Ref) (c : Ref) : Bool :=
  match (graph.normInputsOf c).head?.map graph.behindAll with
  | none => false
  | some init => graph.initialValueMadeHere init &&
      topo.all fun ref => ref == c || graph.kindOf ref == some .gate || !graph.uses ref init

/-- What a node does to what a cell holds. A node that is not one of the variable's
    own operators may keep the value and may store another. -/
def holdStep (topo : List Ref) (c : Ref) (held : Held) (ref : Ref) : Held :=
  if ref = c then ⟨graph.madeFor topo c, false⟩
  else if graph.uses ref c then
    if graph.kindOf ref = some .gate then held
    else if (graph.normInputsOf ref).head?.map graph.behindAll = some c then
      match graph.operOf ref with
      | some (.variable "get") => { held with kept := true }
      | some (.variable "peek") => held
      | some (.variable "take") => held
      | some (.assn suffix) => ⟨suffix == "_owned", false⟩
      | _ => ⟨false, true⟩
    else ⟨false, true⟩
  else held

/-- What the cell holds after the nodes at these positions. -/
def held (topo : List Ref) (c : Ref) (run : List Nat) : Held :=
  run.foldl (fun held i => (topo[i]?).elim held (graph.holdStep topo c held)) ⟨false, false⟩

end Graph

/-! ## The graphs of programs -/

mutual

/-- The nodes of branches and loops. -/
def blockControls : Block → List Ref
  | .nil => []
  | .cons s rest => stmtControls s ++ blockControls rest

def stmtControls : Stmt → List Ref
  | .node _ => []
  | .branch brch arms join => brch :: join :: armsControls arms
  | .loop cond body ref => ref :: (blockControls cond ++ blockControls body)

def armsControls : Arms → List Ref
  | .nil => []
  | .cons arm rest => blockControls arm ++ armsControls rest

end

/-- The graph and its plan are those of a structured program; the operators of
    variables take the cell as their first input, and the inputs of what runs are laid
    out as far as they are GATEs. -/
structure Lays (graph : Graph) (plan : ExecPlan) (prog : Block) : Prop where
  topo : plan.topo = prog.refs
  nodup : prog.refs.Nodup
  loops : plan.loops = (prog.loopsAt 0).map fun loop => (loop.begin, loop.position)
  controls : ∀ ref ∈ blockControls prog, graph.operOf ref = none
  gates : ∀ ref ∈ plan.topo, ∀ x ∈ graph.inputsOf ref, graph.kindOf x = some .gate → x ∈ plan.topo
  operators : ∀ ref ∈ plan.topo, ∀ oper, graph.operOf ref = some oper → oper.isVariable = true →
    oper ∉ graph.inPlaceForms ∧ ∀ c ∈ plan.topo, graph.cellDeclaredHere c = true → ref ≠ c →
      graph.uses ref c = true →
      (graph.normInputsOf ref).head?.map graph.behindAll = some c ∧
        (oper ∈ [.variable "get", .variable "peek", .variable "take"] ∨
          ∃ suffix, oper = .assn suffix)

mutual

/-- The arms of a block laid out at `p`, the conditions of its loops and the loops up to
    their LOOP nodes, each with its first position and the one behind its last. -/
def blockRegions : Block → Nat → List (Nat × Nat)
  | .nil, _ => []
  | .cons s rest, p => stmtRegions s p ++ blockRegions rest (p + s.size)

def stmtRegions : Stmt → Nat → List (Nat × Nat)
  | .node _, _ => []
  | .branch _ arms _, p => armsRegions arms (p + 1)
  | .loop cond body _, p => (p, p + cond.size) :: (p, p + cond.size + body.size) ::
      (blockRegions cond p ++ blockRegions body (p + cond.size))

def armsRegions : Arms → Nat → List (Nat × Nat)
  | .nil, _ => []
  | .cons arm rest, p => (p, p + arm.size) :: (blockRegions arm p ++ armsRegions rest (p + arm.size))

end

/-- An operation on the cell: it leaves it owned or not, or updates it in place. -/
def isOp (graph : Graph) (c ref : Ref) : Bool :=
  (graph.effectOf ref).map Prod.fst == some c || graph.updatedCell ref == some c

/-- Nothing here is an operation on the cell. -/
def Quiet (graph : Graph) (c : Ref) (refs : List Ref) : Prop := ∀ ref ∈ refs, isOp graph c ref = false

mutual

/-- The variable is declared in the block, before any operation on its cell, and no
    operation is outside the block that declares it. -/
def BlockDeclares (graph : Graph) (c : Ref) : Block → Prop
  | .nil => False
  | .cons s rest => s = .node c ∨ (StmtDeclares graph c s ∧ Quiet graph c rest.refs) ∨
      (Quiet graph c s.refs ∧ BlockDeclares graph c rest)

def StmtDeclares (graph : Graph) (c : Ref) : Stmt → Prop
  | .node _ => False
  | .branch _ arms _ => ArmsDeclare graph c arms
  | .loop cond body _ => (BlockDeclares graph c cond ∧ Quiet graph c body.refs) ∨
      (Quiet graph c cond.refs ∧ BlockDeclares graph c body)

def ArmsDeclare (graph : Graph) (c : Ref) : Arms → Prop
  | .nil => False
  | .cons arm rest => (BlockDeclares graph c arm ∧ Quiet graph c rest.refs) ∨
      (Quiet graph c arm.refs ∧ ArmsDeclare graph c rest)

end

/-- The operations on a cell go one after another on every way through the graph: each
    arm, condition and loop behind the declaration leaves the cell, owned or not, as the last
    operation before it did, the edges order the operations as the plan does, the first
    value of the variable is read by nothing else if the graph makes it, and GATEs are
    not more than the plan looks through. -/
structure Orderly (graph : Graph) (plan : ExecPlan) (prog : Block) (c : Ref) : Prop where
  declares : BlockDeclares graph c prog
  steady : ∀ region ∈ blockRegions prog 0, plan.topo.idxOf c < region.1 →
    leftBefore graph plan.topo c region.1 = leftBefore graph plan.topo c region.2
  ordered : ∀ i j x y, i < j → plan.topo[i]? = some x → plan.topo[j]? = some y →
    isOp graph c x = true → isOp graph c y = true → OrderedBefore graph plan.topo i j
  alone : ∀ init, (graph.normInputsOf c).head?.map graph.behindAll = some init →
    graph.initialValueMadeHere init = true → graph.madeFor plan.topo c = true
  gates : ∀ ref ∈ plan.topo, ∀ x ∈ graph.inputsOf ref,
    graph.valueBehindGates x = graph.behindAll x

end Camel.Storage
