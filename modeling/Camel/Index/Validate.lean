import Camel.Index.Affine

/-! # What `validate` Accepts

    `validate` walks every expression an instance names before anyone evaluates one. What it
    accepts evaluates with nothing worse than an overflow, except at an indirect access or write:
    there it asks neither that the operand and the axis exist, nor that the other coordinates are
    given, and it never looks at the index coordinates of a write.
-/

namespace Camel.Index

open Lib List Option

namespace Pooled

/-! ## The Validator -/

namespace Validator

variable (inst : IndexedInstance)

def notInInstance (id : ExprId) : String := s!"expression {id} is not in the instance"

def notADivisor : String :=
  "a floordiv or mod divides by something other than a constant or a parameter"

/-- `c <= p` or `c < p` with a `c` that makes the parameter `id` positive -/
def requiresPositive (id : ExprId) (c : Constraint) : Bool :=
  decide (c.rhs = some id) &&
    match c.lhs.bind fun lhs => inst.exprs.exprs[lhs]? with
    | none => false
    | some bound =>
      decide (bound.op = .const) &&
        (decide (c.rel = .le ∧ 1 ≤ bound.value) || decide (c.rel = .lt ∧ 0 ≤ bound.value))

/-- A divisor is a positive constant or a parameter known (or required) to be positive. -/
def divisor (id : ExprId) : Option String :=
  match inst.exprs.exprs[id]? with
  | none => some (notInInstance id)
  | some d =>
    if d.op = .const ∧ 0 < d.value then none
    else if d.op ≠ .param then some notADivisor
    else match inst.domain.params[d.value.toUInt64.toNat]? with
      | none => some notADivisor
      | some p =>
        match p.value with
        | some v => if 0 < v then none else some s!"a floordiv or mod divides by {p.name} = {v}"
        | none =>
          if inst.domain.constraints.any (requiresPositive inst id) then none
          else some (s!"a floordiv or mod divides by {p.name}, " ++
            "which the constraints do not require to be positive")

/-- `expr`, within a number of calls. -/
def exprWithin : Nat → ExprId → Option String
  | 0, id => some (notInInstance id)
  | fuel + 1, id =>
    match inst.exprs.exprs[id]? with
    | none => some (notInInstance id)
    | some e =>
      match e.op with
      | .const => none
      | .dim =>
        if e.value.toUInt64.toNat < inst.domain.dims.length then none
        else some s!"dim {e.value} is not in the domain"
      | .param =>
        if e.value.toUInt64.toNat < inst.domain.params.length then none
        else some s!"parameter {e.value} is not in the domain"
      | .floorDiv | .mod =>
        divisor inst e.rhs <|> exprWithin fuel e.lhs <|> exprWithin fuel e.rhs
      | .add | .mul => exprWithin fuel e.lhs <|> exprWithin fuel e.rhs

/-- Operands stand before what they are operands of, so an id's place is enough calls. -/
def expr (id : ExprId) : Option String := exprWithin inst (id + 1) id

/-- `expr` of a slot, where `kNoExpr` is an id behind every table. -/
def slot : Option ExprId → Option String
  | some id => expr inst id
  | none => some (notInInstance kNoExpr)

def predicate (p : Predicate) : Option String :=
  p.findSome? fun c => slot inst c.lhs <|> slot inst c.rhs

def coords (list : List (Option ExprId)) (allowEmptySlot : Bool) : Option String :=
  list.findSome? fun c => if c = none ∧ allowEmptySlot = true then none else slot inst c

def mentionsDim (c : Option ExprId) : Bool := c.any inst.exprs.mentionsDim

def param (p : Param) : Option String :=
  if p.definition = none then none
  else slot inst p.definition <|>
    if mentionsDim inst p.definition then some s!"parameter {p.name} is defined in terms of a dim"
    else none

def dim (d : Dim) : Option String :=
  slot inst d.extent <|>
    if mentionsDim inst d.extent then some s!"the extent of {d.name} depends on a dim" else none

def access (a : Access) : Option String :=
  if a.kind = .indirect ∧ a.indirect = none then
    some "an indirect access does not say where its index is read"
  else
    coords inst a.coords (decide (a.kind = .indirect)) <|>
    (match a.indirect with
      | some i => coords inst i.indexCoords false
      | none => none) <|>
    predicate inst a.valid

/-- One side of a check, which may be left open. -/
def bound (c : Option ExprId) : Option String :=
  if c = none then none
  else slot inst c <|>
    if mentionsDim inst c then
      some "a check's bound depends on a dim (it constrains parameters)"
    else none

def check (c : OperandCheck) : Option String :=
  if inst.norm.length ≤ c.operand then
    some s!"a check names operand {c.operand}, which the call does not have"
  else match inst.domain.params[c.param]? with
    | none => some s!"a check names parameter {c.param}, which the domain does not have"
    | some p =>
      if p.source ≠ .runtime ∧ p.source ≠ .static then
        some s!"a check reads the value of parameter '{p.name}', which is not an argument"
      else if p.operand ≠ c.operand then
        some (s!"a check on operand {c.operand} reads the value of parameter '{p.name}', " ++
          "which comes from another operand")
      else if c.lower = none ∧ c.upper = none then
        some "a check bounds neither side of its operand's value"
      else bound inst c.lower <|> bound inst c.upper

/-- The end of `validate`: the mode of the write and the law, `laws` the number of laws that the
    operator declares. -/
def mode (laws : Option Nat) : Option String :=
  if inst.domain.dims.any (fun d => decide (d.role = .reduction)) = true ∧
      inst.output.mode = .unique then
    some ("a domain with a reduction dim writes each result element more than once, not " ++
      "uniquely")
  else if inst.output.mode = .combine ∧ inst.law = kNoLaw then
    some "a combining write names no reduction law"
  else if inst.law ≠ kNoLaw ∧ inst.output.mode ≠ .combine then
    some "an instance whose writes never meet names a reduction law"
  else if inst.law ≠ kNoLaw ∧ laws.any (fun declared => decide (declared ≤ inst.law)) = true then
    some s!"law {inst.law} is not declared by the operator"
  else none

end Validator

/-- `validate`: what is wrong with the instance, if anything. -/
def validate (inst : IndexedInstance) (laws : Option Nat) : Option String :=
  inst.domain.params.findSome? (Validator.param inst) <|>
  inst.domain.dims.findSome? (Validator.dim inst) <|>
  Validator.predicate inst inst.domain.constraints <|>
  (if inst.domain.constraints.any fun c =>
      Validator.mentionsDim inst c.lhs || Validator.mentionsDim inst c.rhs then
    some "a constraint of the domain depends on a dim (it constrains parameters)"
  else none) <|>
  Validator.predicate inst inst.domain.guard <|>
  (inst.norm ++ inst.withs).findSome? (Validator.access inst) <|>
  Validator.coords inst inst.output.coords inst.output.indirect.isSome <|>
  Validator.predicate inst inst.output.valid <|>
  inst.checks.findSome? (Validator.check inst) <|>
  Validator.mode inst laws

end Pooled

/-! ## What Evaluation Meets -/

/-- Every dim and parameter that the expression names is there, and its divisors are positive. -/
def Expr.Sound (point values : List Int64) : Expr → Prop
  | .const _ => True
  | .dim position => position < point.length
  | .param position => position < values.length
  | .add l r | .mul l r => l.Sound point values ∧ r.Sound point values
  | .floorDiv l r | .mod l r =>
    l.Sound point values ∧ r.Sound point values ∧
      0 < r.eval (coordAt point) (knownAt (values.map some))

/-- A slot that names an expression of the table, sound with all that is under it. -/
def ExprPool.SoundSlot (pool : ExprPool) (point values : List Int64) (c : Option ExprId) : Prop :=
  ∃ e, pool.SlotDenotes c e ∧ e.Sound point values

namespace Pooled

/-- Both sides of every constraint. -/
def Predicate.slots (p : Predicate) : List (Option ExprId) :=
  p.flatMap fun c => [c.lhs, c.rhs]

/-- The coordinates that are evaluated where one of them may be read from an operand. -/
def evaluatedCoords (coords : List (Option ExprId)) : Option Indirect → List (Option ExprId)
  | none => coords
  | some i => coords.eraseIdx i.axis ++ i.indexCoords

/-- Only an access of kind `Indirect` is read through its `indirect`. -/
def Access.through (a : Access) : Option Indirect :=
  if a.kind = .indirect then a.indirect else none

/-- What is evaluated at a point: the guard, and for each access and the write its coordinates and
    where they are meaningful. -/
def IndexedInstance.evaluated (inst : IndexedInstance) : List (Option ExprId) :=
  Predicate.slots inst.domain.guard ++
  (inst.norm ++ inst.withs).flatMap (fun a =>
    evaluatedCoords a.coords a.through ++ Predicate.slots a.valid) ++
  evaluatedCoords inst.output.coords inst.output.indirect ++ Predicate.slots inst.output.valid

/-- The operand that the index is read from and the axis it is for are there. -/
def Indirect.InRange (inst : IndexedInstance) (coords : List (Option ExprId)) (i : Indirect) :
    Prop :=
  i.indexOperand < inst.norm.length ∧ i.axis < coords.length

/-- Nothing that the instance evaluates at this point meets an id outside the table, a missing
    expression, an operand or an axis out of range, or a divisor that is not positive. -/
structure IndexedInstance.Evaluable (inst : IndexedInstance) (values point : List Int64) :
    Prop where
  sound : ∀ c ∈ inst.evaluated, inst.exprs.SoundSlot point values c
  evaluates : ∀ c ∈ inst.evaluated,
    OnlyOverflow (inst.exprs.evaluateSlot point (values.map some) c)
  accesses : ∀ a ∈ inst.norm ++ inst.withs, a.kind = .indirect →
    ∃ i, a.indirect = some i ∧ i.InRange inst a.coords
  write : ∀ i, inst.output.indirect = some i → i.InRange inst inst.output.coords

/-- Values for all parameters, those the instance knows among them, that satisfy its
    constraints. -/
structure IndexedInstance.Admits (inst : IndexedInstance) (values : List Int64) : Prop where
  length : values.length = inst.domain.params.length
  known : ∀ (i : Nat) (p : Param) (v : Int64), inst.domain.params[i]? = some p →
    p.value = some v → values[i]? = some v
  constraints : ∀ c ∈ inst.domain.constraints, ∀ l r, inst.exprs.SlotDenotes c.lhs l →
    inst.exprs.SlotDenotes c.rhs r →
    (⟨l, c.rel, r⟩ : Index.Constraint).Holds (coordAt []) (knownAt (values.map some))

/-- The instance with these values for its parameters. -/
def IndexedInstance.withValues (inst : IndexedInstance) (values : List Int64) : IndexedInstance :=
  { inst with domain := { inst.domain with
      params := inst.domain.params.zipWith (fun p v => { p with value := some v }) values } }

/-- What `validate` leaves to whoever declares an indirect access: that the operand and the axis
    are there, and that every other coordinate is given. -/
def Indirect.Given (inst : IndexedInstance) (coords : List (Option ExprId)) (i : Indirect) : Prop :=
  i.InRange inst coords ∧ ∀ c ∈ coords.eraseIdx i.axis, c ≠ none

/-- And for a write, that its index coordinates pass the check that an access's have to pass. -/
structure IndexedInstance.Given (inst : IndexedInstance) (values : List Int64) : Prop where
  accesses : ∀ a ∈ inst.norm ++ inst.withs, ∀ i, a.through = some i → i.Given inst a.coords
  write : ∀ i, inst.output.indirect = some i → i.Given inst inst.output.coords ∧
    Validator.coords (inst.withValues values) i.indexCoords false = none

end Pooled

/-! ## Sound Expressions Evaluate -/

variable {values : List Int64}

theorem knownAt_map_some {i : Nat} {v : Int64} (h : values[i]? = some v) :
    knownAt (values.map some) i = v.toInt := by
  unfold knownAt
  rw [getD_eq_getElem?_getD, getElem?_map, h]
  rfl

/-- A dividend and a positive divisor divide. -/
theorem onlyOverflow_divided {op : Int64 → Int64 → Int64} {a d : Int64} (hd : 0 < d.toInt) :
    OnlyOverflow (divided op a d) := by
  have h : divided op a d = .ok (op a d) := divided_ok.2 ⟨hd, rfl⟩
  rw [h]
  exact OnlyOverflow.ok _

variable {point : List Int64}

theorem Expr.Sound.evaluates {e : Expr} (h : e.Sound point values) :
    OnlyOverflow (e.evaluate point (values.map some)) := by
  induction e with
  | const v => exact OnlyOverflow.ok v
  | dim position =>
    have hvalue : point[position]? = some point[position] := getElem?_eq_getElem h
    unfold Expr.evaluate dimValue
    rw [hvalue]
    exact OnlyOverflow.ok _
  | param position =>
    have hvalue : values[position]? = some values[position] := getElem?_eq_getElem h
    unfold Expr.evaluate paramValue
    rw [getElem?_map, hvalue]
    exact OnlyOverflow.ok _
  | add l r ihl ihr =>
    unfold Expr.evaluate
    apply (ihl h.1).bind
    intro a _
    apply (ihr h.2).bind
    intro b _
    exact onlyOverflow_inEvaluation _
  | mul l r ihl ihr =>
    unfold Expr.evaluate
    apply (ihl h.1).bind
    intro a _
    apply (ihr h.2).bind
    intro b _
    exact onlyOverflow_inEvaluation _
  | floorDiv l r ihl ihr =>
    unfold Expr.evaluate
    apply (ihl h.1).bind
    intro a _
    apply (ihr h.2.1).bind
    intro d hd
    -- what the divisor evaluates to is its value, which is positive
    apply onlyOverflow_divided
    rw [Expr.evaluate_toInt hd]
    exact h.2.2
  | mod l r ihl ihr =>
    unfold Expr.evaluate
    apply (ihl h.1).bind
    intro a _
    apply (ihr h.2.1).bind
    intro d hd
    apply onlyOverflow_divided
    rw [Expr.evaluate_toInt hd]
    exact h.2.2

theorem ExprPool.SoundSlot.evaluates {pool : ExprPool} (hwf : pool.WellFormed)
    {c : Option ExprId} (h : pool.SoundSlot point values c) :
    OnlyOverflow (pool.evaluateSlot point (values.map some) c) := by
  obtain ⟨e, he, hsound⟩ := h
  rw [evaluateSlot_denotes hwf he]
  exact hsound.evaluates

theorem ExprPool.SoundSlot.ne_none {pool : ExprPool}
    {c : Option ExprId} (h : pool.SoundSlot point values c) : c ≠ none := by
  obtain ⟨e, ⟨id, rfl, -⟩, -⟩ := h
  exact some_ne_none id

namespace Pooled

/-! ## What the Validator Accepts Is Sound -/

variable {inst : IndexedInstance} {point values : List Int64}

variable {id : Nat}

theorem Validator.requiresPositive_spec {c : Constraint}
    (h : requiresPositive inst id c = true) :
    c.rhs = some id ∧ ∃ bound, inst.exprs.SlotDenotes c.lhs (.const bound) ∧
      (c.rel = .le ∧ 1 ≤ bound ∨ c.rel = .lt ∧ 0 ≤ bound) := by
  unfold requiresPositive at h
  rw [Bool.and_eq_true, decide_eq_true_eq] at h
  obtain ⟨hrhs, h⟩ := h
  cases hlhs : c.lhs with
  | none =>
    rw [hlhs] at h
    cases h
  | some lhs =>
    rw [hlhs] at h
    cases hn : inst.exprs.exprs[lhs]? with
    | none =>
      simp only [bind_some, hn] at h
      cases h
    | some n =>
      simp only [bind_some, hn, Bool.and_eq_true, Bool.or_eq_true,
        decide_eq_true_eq] at h
      exact ⟨hrhs, n.value, ⟨lhs, rfl, n, hn, h.1, rfl⟩, h.2⟩

/-- A divisor that passes is positive under all values that the instance admits. -/
theorem Validator.divisor_pos (hvalues : inst.Admits values) {r : Expr}
    (h : divisor inst id = none) (hr : inst.exprs.Denotes id r) :
    0 < r.eval (coordAt point) (knownAt (values.map some)) := by
  obtain ⟨d, hd⟩ := hr.node
  unfold divisor at h
  rw [hd] at h
  dsimp only at h
  split at h
  · next hconst =>
    -- a constant says itself that it is positive
    have htree : inst.exprs.Denotes id (.const d.value) := ⟨d, hd, hconst.1, rfl⟩
    rw [hr.unique htree, Expr.eval_const]
    exact (toInt_pos_iff _).1 hconst.2
  · split at h
    · cases h
    · next hparam =>
      rw [not_not] at hparam
      have htree : inst.exprs.Denotes id (.param d.value.toUInt64.toNat) := ⟨d, hd, hparam, rfl⟩
      obtain rfl := hr.unique htree
      rw [Expr.eval_param]
      split at h
      · cases h
      · next p hp =>
        split at h
        · next v hv =>
          split at h
          · next hpos =>
            rw [knownAt_map_some (hvalues.known _ p v hp hv)]
            exact (toInt_pos_iff v).1 hpos
          · cases h
        · split at h
          · next hany =>
            -- some constraint keeps a constant below the parameter
            obtain ⟨c, hc, hrequires⟩ := any_eq_true.1 hany
            obtain ⟨hrhs, bound, hlhs, hbound⟩ := requiresPositive_spec hrequires
            have hholds := hvalues.constraints c hc _ _ hlhs ⟨id, hrhs, hr⟩
            unfold Constraint.Holds at hholds
            rcases hbound with ⟨hrel, hle⟩ | ⟨hrel, hle⟩
            · simp only [hrel, Expr.eval_const, Expr.eval_param] at hholds
              have hone : (1 : Int64).toInt ≤ bound.toInt := Int64.le_iff_toInt_le.1 hle
              rw [Int64.toInt_one] at hone
              omega
            · simp only [hrel, Expr.eval_const, Expr.eval_param] at hholds
              have hzero : (0 : Int64).toInt ≤ bound.toInt := Int64.le_iff_toInt_le.1 hle
              rw [Int64.toInt_zero] at hzero
              omega
          · cases h

theorem Validator.exprWithin_sound (hpoint : point.length = inst.domain.dims.length)
    (hvalues : inst.Admits values) {fuel : Nat} {e : Expr} (he : inst.exprs.Denotes id e)
    (h : exprWithin inst fuel id = none) : e.Sound point values := by
  induction e generalizing fuel id with
  | const v => exact trivial
  | dim position =>
    obtain ⟨n, hn, hop, rfl⟩ := he
    cases fuel with
    | zero => cases h
    | succ fuel =>
      simp only [exprWithin, hn, hop] at h
      split at h
      · next hlt =>
        show n.value.toUInt64.toNat < point.length
        rw [hpoint]
        exact hlt
      · cases h
  | param position =>
    obtain ⟨n, hn, hop, rfl⟩ := he
    cases fuel with
    | zero => cases h
    | succ fuel =>
      simp only [exprWithin, hn, hop] at h
      split at h
      · next hlt =>
        show n.value.toUInt64.toNat < values.length
        rw [hvalues.length]
        exact hlt
      · cases h
  | add l r ihl ihr | mul l r ihl ihr =>
    obtain ⟨n, hn, hop, hl, hr⟩ := he
    cases fuel with
    | zero => cases h
    | succ fuel =>
      simp only [exprWithin, hn, hop, orElse_eq_none] at h
      exact ⟨ihl hl h.1, ihr hr h.2⟩
  | floorDiv l r ihl ihr | mod l r ihl ihr =>
    obtain ⟨n, hn, hop, hl, hr⟩ := he
    cases fuel with
    | zero => cases h
    | succ fuel =>
      simp only [exprWithin, hn, hop, orElse_eq_none] at h
      exact ⟨ihl hl h.2.1, ihr hr h.2.2, divisor_pos hvalues h.1 hr⟩

section
variable (hwf : inst.exprs.WellFormed) (hpoint : point.length = inst.domain.dims.length)
  (hvalues : inst.Admits values)
include hwf hpoint hvalues

theorem Validator.slot_sound
    
    {c : Option ExprId} (h : slot inst c = none) : inst.exprs.SoundSlot point values c := by
  cases c with
  | none => cases h
  | some id =>
    have hid : id < inst.exprs.exprs.length := by
      by_contra hge
      have hnone : inst.exprs.exprs[id]? = none := getElem?_eq_none (Nat.not_lt.1 hge)
      have hproblem : exprWithin inst (id + 1) id = some (notInInstance id) := by
        unfold exprWithin
        rw [hnone]
      rw [show slot inst (some id) = exprWithin inst (id + 1) id from rfl, hproblem] at h
      cases h
    obtain ⟨e, he⟩ := ExprPool.exists_denotes hwf hid
    exact ⟨e, ⟨id, rfl, he⟩, exprWithin_sound hpoint hvalues he h⟩

theorem Validator.predicate_sound
    
    {p : Predicate} (h : predicate inst p = none) :
    ∀ c ∈ Predicate.slots p, inst.exprs.SoundSlot point values c := by
  intro c hc
  unfold Predicate.slots at hc
  obtain ⟨constraint, hconstraint, hc⟩ := mem_flatMap.1 hc
  unfold predicate at h
  have hsides := findSome?_eq_none_iff.1 h constraint hconstraint
  rw [orElse_eq_none] at hsides
  simp only [mem_cons, not_mem_nil, or_false] at hc
  obtain rfl | rfl := hc
  · exact slot_sound hwf hpoint hvalues hsides.1
  · exact slot_sound hwf hpoint hvalues hsides.2

/-- A coordinate that passes is sound, unless it is one that may be left out and is. -/
theorem Validator.coords_sound
    
    {list : List (Option ExprId)} {allowEmptySlot : Bool}
    (h : coords inst list allowEmptySlot = none) {c : Option ExprId} (hc : c ∈ list)
    (hgiven : allowEmptySlot = true → c ≠ none) : inst.exprs.SoundSlot point values c := by
  unfold coords at h
  have hslot := findSome?_eq_none_iff.1 h c hc
  rw [if_neg (fun hempty => hgiven hempty.2 hempty.1)] at hslot
  exact slot_sound hwf hpoint hvalues hslot

end

/-! ## What Is Sound Passes Under Its Values -/

@[simp] theorem withValues_exprs : (inst.withValues values).exprs = inst.exprs := rfl

theorem getElem?_withValues {i : Nat} {p : Param} {v : Int64}
    (hp : inst.domain.params[i]? = some p) (hv : values[i]? = some v) :
    (inst.withValues values).domain.params[i]? = some { p with value := some v } := by
  show (inst.domain.params.zipWith (fun p v => { p with value := some v }) values)[i]? = _
  rw [getElem?_zipWith, hp, hv]

/-- The values are those that the instance with them knows. -/
theorem admits_withValues (hvalues : inst.Admits values) :
    (inst.withValues values).Admits values := by
  constructor
  · show values.length =
      (inst.domain.params.zipWith (fun p v => { p with value := some v }) values).length
    rw [length_zipWith, ← hvalues.length, Nat.min_self]
  · intro i p v hp hv
    change (inst.domain.params.zipWith (fun p v => { p with value := some v }) values)[i]? =
      some p at hp
    rw [getElem?_zipWith] at hp
    split at hp
    · next w _ hw =>
      cases hp
      cases hv
      exact hw
    · cases hp
  · exact hvalues.constraints

/-- A divisor of the table with a positive value passes once the parameters have values. -/
theorem Validator.divisor_of_pos (hwf : inst.exprs.WellFormed) (hvalues : inst.Admits values)
    {n : Node} {r : Expr} (hn : inst.exprs.exprs[id]? = some n)
    (hop : n.op = .floorDiv ∨ n.op = .mod) (hr : inst.exprs.Denotes n.rhs r)
    (hsound : r.Sound point values)
    (hpos : 0 < r.eval (coordAt point) (knownAt (values.map some))) :
    divisor (inst.withValues values) n.rhs = none := by
  obtain ⟨d, hd, hdivisor⟩ := hwf.divisor id n hn hop
  have hd' : (inst.withValues values).exprs.exprs[n.rhs]? = some d := hd
  unfold divisor
  rw [hd']
  rcases hdivisor with ⟨hconst, hvalue⟩ | hparam
  · dsimp only
    rw [if_pos ⟨hconst, (toInt_pos_iff _).2 hvalue⟩]
  · have htree : inst.exprs.Denotes n.rhs (.param d.value.toUInt64.toNat) := ⟨d, hd, hparam, rfl⟩
    obtain rfl := hr.unique htree
    have hlt : d.value.toUInt64.toNat < values.length := hsound
    have hv : values[d.value.toUInt64.toNat]? = some values[d.value.toUInt64.toNat] :=
      getElem?_eq_getElem hlt
    rw [Expr.eval_param, knownAt_map_some hv] at hpos
    have hp := getElem?_eq_getElem (l := inst.domain.params)
      (by rw [← hvalues.length]; exact hlt)
    dsimp only
    rw [if_neg (by rw [hparam]; exact nofun), if_neg (not_not.2 hparam),
      getElem?_withValues hp hv]
    dsimp only
    rw [if_pos ((toInt_pos_iff _).2 hpos)]

theorem Validator.exprWithin_of_sound (hwf : inst.exprs.WellFormed)
    (hpoint : point.length = inst.domain.dims.length) (hvalues : inst.Admits values)
    {fuel : Nat} {e : Expr} (he : inst.exprs.Denotes id e) (hfuel : ExprPool.height e < fuel)
    (h : e.Sound point values) : exprWithin (inst.withValues values) fuel id = none := by
  have hlength := (admits_withValues hvalues).length
  induction e generalizing fuel id with
  | const _ =>
    obtain ⟨n, hn, hop, rfl⟩ := he
    cases fuel with
    | zero => cases hfuel
    | succ fuel => simp only [exprWithin, withValues_exprs, hn, hop]
  | dim _ =>
    obtain ⟨n, hn, hop, rfl⟩ := he
    cases fuel with
    | zero => cases hfuel
    | succ fuel =>
      simp only [exprWithin, withValues_exprs, hn, hop]
      exact if_pos (Nat.lt_of_lt_of_eq h hpoint)
  | param _ =>
    obtain ⟨n, hn, hop, rfl⟩ := he
    cases fuel with
    | zero => cases hfuel
    | succ fuel =>
      simp only [exprWithin, withValues_exprs, hn, hop]
      exact if_pos (Nat.lt_of_lt_of_eq h hlength)
  | add l r ihl ihr | mul l r ihl ihr =>
    obtain ⟨n, hn, hop, hl, hr⟩ := he
    cases fuel with
    | zero => cases hfuel
    | succ fuel =>
      unfold ExprPool.height at hfuel
      simp only [exprWithin, withValues_exprs, hn, hop, orElse_eq_none]
      exact ⟨ihl hl (by omega) h.1, ihr hr (by omega) h.2⟩
  | floorDiv l r ihl ihr | mod l r ihl ihr =>
    obtain ⟨n, hn, hop, hl, hr⟩ := he
    cases fuel with
    | zero => cases hfuel
    | succ fuel =>
      unfold ExprPool.height at hfuel
      simp only [exprWithin, withValues_exprs, hn, hop, orElse_eq_none]
      exact ⟨divisor_of_pos hwf hvalues hn (by simp [hop]) hr h.2.1 h.2.2,
        ihl hl (by omega) h.1, ihr hr (by omega) h.2.1⟩

variable {list : List (Option ExprId)}

theorem Validator.coords_of_sound (hwf : inst.exprs.WellFormed)
    (hpoint : point.length = inst.domain.dims.length) (hvalues : inst.Admits values)
    (h : ∀ c ∈ list, inst.exprs.SoundSlot point values c) :
    coords (inst.withValues values) list false = none := by
  unfold coords
  rw [findSome?_eq_none_iff]
  intro c hc
  obtain ⟨e, ⟨id, rfl, he⟩, hsound⟩ := h c hc
  rw [if_neg (fun hempty => nomatch hempty.2)]
  exact exprWithin_of_sound hwf hpoint hvalues he (Nat.lt_succ_of_le (he.height_le hwf)) hsound

/-! ## What an Accepted Instance Evaluates -/

/-- What `validate` looks at, as far as it is evaluated at a point. -/
structure Accepted (inst : IndexedInstance) : Prop where
  guard : Validator.predicate inst inst.domain.guard = none
  accesses : ∀ a ∈ inst.norm ++ inst.withs, Validator.access inst a = none
  coords : Validator.coords inst inst.output.coords inst.output.indirect.isSome = none
  valid : Validator.predicate inst inst.output.valid = none

theorem accepted {laws : Option Nat} (h : validate inst laws = none) : Accepted inst := by
  unfold validate at h
  simp only [orElse_eq_none] at h
  obtain ⟨-, -, -, -, hguard, haccesses, hcoords, hvalid, -, -⟩ := h
  exact ⟨hguard, fun a ha => findSome?_eq_none_iff.1 haccesses a ha, hcoords, hvalid⟩

/-- The coordinates of an access or of the write that are evaluated. -/
theorem sound_evaluatedCoords (hwf : inst.exprs.WellFormed)
    (hpoint : point.length = inst.domain.dims.length) (hvalues : inst.Admits values)
    {allowEmptySlot : Bool} {through : Option Indirect}
    (h : Validator.coords inst list allowEmptySlot = none)
    (hallow : allowEmptySlot = true → through ≠ none)
    (hgiven : ∀ i, through = some i → (∀ c ∈ list.eraseIdx i.axis, c ≠ none) ∧
      ∀ c ∈ i.indexCoords, inst.exprs.SoundSlot point values c) :
    ∀ c ∈ evaluatedCoords list through, inst.exprs.SoundSlot point values c := by
  intro c hc
  cases through with
  | none =>
    exact Validator.coords_sound hwf hpoint hvalues h hc fun hempty => absurd rfl (hallow hempty)
  | some i =>
    obtain ⟨hcoords, hindex⟩ := hgiven i rfl
    rcases mem_append.1 hc with hc | hc
    · exact Validator.coords_sound hwf hpoint hvalues h (mem_of_mem_eraseIdx hc)
        fun _ => hcoords c hc
    · exact hindex c hc

variable {a : Access}

/-- What the validator accepts of an access: it says where its index is read, its coordinates
    pass, and so do its index coordinates and where it is valid. -/
theorem Validator.access_spec (h : access inst a = none) :
    (a.kind = .indirect → a.indirect ≠ none) ∧
      coords inst a.coords (decide (a.kind = .indirect)) = none ∧
      (∀ i, a.indirect = some i → coords inst i.indexCoords false = none) ∧
      predicate inst a.valid = none := by
  unfold access at h
  split at h
  · cases h
  · next hnamed =>
    simp only [orElse_eq_none] at h
    obtain ⟨hcoords, hindex, hvalid⟩ := h
    refine ⟨fun hkind hnone => hnamed ⟨hkind, hnone⟩, hcoords, fun i hi => ?_, hvalid⟩
    rw [hi] at hindex
    exact hindex

theorem Access.through_eq_some {i : Indirect} :
    a.through = some i ↔ a.kind = .indirect ∧ a.indirect = some i := by
  unfold through
  split
  · next hkind => exact ⟨fun h => ⟨hkind, h⟩, fun h => h.2⟩
  · next hkind => exact ⟨nofun, fun h => absurd h.1 hkind⟩

section
variable (hwf : inst.exprs.WellFormed) (hpoint : point.length = inst.domain.dims.length)
  (hvalues : inst.Admits values)
include hwf hpoint hvalues

theorem sound_access
    
    (h : Validator.access inst a = none)
    (hgiven : ∀ i, a.through = some i → i.Given inst a.coords) :
    ∀ c ∈ evaluatedCoords a.coords a.through ++ Predicate.slots a.valid,
      inst.exprs.SoundSlot point values c := by
  obtain ⟨hnamed, hcoords, hindex, hvalid⟩ := Validator.access_spec h
  intro c hc
  rcases mem_append.1 hc with hc | hc
  · apply sound_evaluatedCoords hwf hpoint hvalues hcoords _ _ c hc
    · intro hallow hnone
      have hkind : a.kind = .indirect := of_decide_eq_true hallow
      unfold Access.through at hnone
      rw [if_pos hkind] at hnone
      exact hnamed hkind hnone
    · intro i hi
      refine ⟨(hgiven i hi).2, fun c hc => ?_⟩
      exact Validator.coords_sound hwf hpoint hvalues (hindex i (Access.through_eq_some.1 hi).2) hc
        nofun
  · exact Validator.predicate_sound hwf hpoint hvalues hvalid c hc

theorem sound_write
    
    (h : Accepted inst) (hgiven : inst.Given values) :
    ∀ c ∈ evaluatedCoords inst.output.coords inst.output.indirect,
      inst.exprs.SoundSlot point values c := by
  apply sound_evaluatedCoords hwf hpoint hvalues h.coords
  · intro hallow hnone
    rw [hnone] at hallow
    cases hallow
  · intro i hi
    obtain ⟨hrange, hindex⟩ := hgiven.write i hi
    refine ⟨hrange.2, fun c hc => ?_⟩
    -- the check under the values is of the same table and the same dims
    exact @Validator.coords_sound (inst.withValues values) point values hwf hpoint
      (admits_withValues hvalues) i.indexCoords false hindex c hc nofun

theorem evaluable_of_given
    
    (h : Accepted inst) (hgiven : inst.Given values) : inst.Evaluable values point := by
  have hsound : ∀ c ∈ inst.evaluated, inst.exprs.SoundSlot point values c := by
    intro c hc
    unfold IndexedInstance.evaluated at hc
    simp only [mem_append] at hc
    obtain ((hc | hc) | hc) | hc := hc
    · exact Validator.predicate_sound hwf hpoint hvalues h.guard c hc
    · obtain ⟨a, ha, hc⟩ := mem_flatMap.1 hc
      have ha' : a ∈ inst.norm ++ inst.withs := ha
      exact sound_access hwf hpoint hvalues (h.accesses a ha') (hgiven.accesses a ha') c hc
    · exact sound_write hwf hpoint hvalues h hgiven c hc
    · exact Validator.predicate_sound hwf hpoint hvalues h.valid c hc
  refine ⟨hsound, fun c hc => (hsound c hc).evaluates hwf, fun a ha hkind => ?_, fun i hi => ?_⟩
  · cases hindirect : a.indirect with
    | none => exact absurd hindirect ((Validator.access_spec (h.accesses a ha)).1 hkind)
    | some i =>
      exact ⟨i, rfl, (hgiven.accesses a ha i (Access.through_eq_some.2 ⟨hkind, hindirect⟩)).1⟩
  · exact (hgiven.write i hi).1.1

end

/-- The coordinates beside the one that is read are evaluated. -/
theorem given_of_sound {i : Indirect}
    (h : ∀ c ∈ evaluatedCoords list (some i), inst.exprs.SoundSlot point values c) :
    ∀ c ∈ list.eraseIdx i.axis, c ≠ none :=
  fun c hc => (h c (mem_append_left _ hc)).ne_none

theorem given_of_evaluable (hwf : inst.exprs.WellFormed)
    (hpoint : point.length = inst.domain.dims.length) (hvalues : inst.Admits values)
    (h : inst.Evaluable values point) : inst.Given values := by
  constructor
  · intro a ha i hi
    obtain ⟨hkind, hindirect⟩ := Access.through_eq_some.1 hi
    obtain ⟨j, hj, hrange⟩ := h.accesses a ha hkind
    obtain rfl := some.inj (hindirect.symm.trans hj)
    refine ⟨hrange, given_of_sound fun c hc => h.sound c ?_⟩
    unfold IndexedInstance.evaluated
    have hc' : c ∈ evaluatedCoords a.coords a.through ++ Predicate.slots a.valid := by
      rw [hi]
      exact mem_append_left _ hc
    exact mem_append_left _ (mem_append_left _
      (mem_append_right _ (mem_flatMap.2 ⟨a, ha, hc'⟩)))
  · intro i hi
    have hwrite : ∀ c ∈ evaluatedCoords inst.output.coords (some i),
        inst.exprs.SoundSlot point values c := by
      intro c hc
      apply h.sound c
      unfold IndexedInstance.evaluated
      rw [hi]
      exact mem_append_left _ (mem_append_right _ hc)
    refine ⟨⟨h.write i hi, given_of_sound hwrite⟩, ?_⟩
    exact Validator.coords_of_sound hwf hpoint hvalues
      fun c hc => hwrite c (mem_append_right _ hc)

/-- An instance over a table that the builders made, that `validate` accepts: under values it
    admits, nothing it evaluates at a point meets a bad reference or divisor just when its
    indirect accesses and its indirect write are given rightly. -/
theorem validated_evaluable_iff (calls : List ExprPool.Call) (inst : IndexedInstance)
    (laws : Option Nat) (values point : List Int64) (hbuilt : inst.exprs = ExprPool.builtBy calls)
    (hvalid : validate inst laws = none) (hvalues : inst.Admits values)
    (hpoint : point.length = inst.domain.dims.length) :
    inst.Evaluable values point ↔ inst.Given values := by
  have hwf : inst.exprs.WellFormed := by
    rw [hbuilt]
    exact ExprPool.wellFormed_builtBy calls
  constructor
  · exact given_of_evaluable hwf hpoint hvalues
  · exact evaluable_of_given hwf hpoint hvalues (accepted hvalid)

/-- `gather(operand, index)`: each point reads the operand where the second operand says. -/
def gather : IndexedInstance where
  exprs := ExprPool.builtBy [.param 0, .dim 0]
  domain := { dims := [⟨"d0", some 0, .parallel⟩], params := [{ name := "s1_0", operand := 1 }] }
  norm :=
    [{ kind := .indirect
       coords := [none]
       indirect := some { indexOperand := 1, indexCoords := [some 1] } },
      { kind := .affine, coords := [some 1] }]
  output := { coords := [some 1] }

theorem validated_evaluable_gather :
    validate gather none = none ∧ gather.Evaluable [4] [3] := by
  have hvalid : validate gather none = none := rfl
  refine ⟨hvalid, (validated_evaluable_iff [.param 0, .dim 0] gather none [4] [3] rfl hvalid
    ⟨rfl, ?_, nofun⟩ rfl).2 ⟨?_, nofun⟩⟩
  · intro i p v hp hv
    cases i with
    | zero =>
      cases hp
      cases hv
    | succ i => cases hp
  · intro a ha i hi
    have ha' : a = gather.norm[0] ∨ a = gather.norm[1] := by
      simpa [gather] using ha
    rcases ha' with rfl | rfl
    · cases hi
      exact ⟨⟨by decide, by decide⟩, nofun⟩
    · cases hi

/-- A write whose index coordinate is a dim that the domain does not have -/
def scatterOutside : IndexedInstance where
  exprs := ExprPool.builtBy [.constant 4, .dim 0, .dim 7]
  domain := { dims := [⟨"d0", some 0, .parallel⟩] }
  norm := [{ kind := .affine, coords := [some 1] }]
  output :=
    { coords := [none]
      mode := .orderedOverwrite
      indirect := some { indexOperand := 0, indexCoords := [some 2] } }

/-- The instance passes, and the index coordinate of its write has no value at its points. -/
theorem validated_evaluates_outside :
    validate scatterOutside none = none ∧ scatterOutside.Admits [] ∧
      some 2 ∈ scatterOutside.evaluated ∧
      scatterOutside.exprs.evaluateSlot [0] [] (some 2) = .error .dimOutside ∧
      ¬scatterOutside.Evaluable [] [0] := by
  have hevaluated : some 2 ∈ scatterOutside.evaluated := by decide
  have hvalue : scatterOutside.exprs.evaluateSlot [0] [] (some 2) = .error .dimOutside := rfl
  refine ⟨rfl, ⟨rfl, nofun, nofun⟩, hevaluated, hvalue, fun h => ?_⟩
  exact nomatch h.evaluates (some 2) hevaluated _ hvalue

end Pooled

end Camel.Index
