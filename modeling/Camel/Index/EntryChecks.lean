import Camel.Index.Split

/-! # The Checks on Entry

    A check asks that an argument lies between two bounds before any element is read or written.
    What a split gives has no checks at all, so it keeps those of an instance that has none, and
    rejects no call.
-/

namespace Camel.Index

/-! ## What a Check Asks -/

/-- The bounds depend on the parameters only. -/
def OperandCheck.bounds (params : Nat → Int) (c : OperandCheck) : Option Int × Option Int :=
  (c.lower.map (Expr.eval (pt []) params), c.upper.map (Expr.eval (pt []) params))

def OperandCheck.Passes (params : Nat → Int) (c : OperandCheck) : Prop :=
  (∀ lower, (c.bounds params).1 = some lower → lower ≤ params c.param) ∧
    ∀ upper, (c.bounds params).2 = some upper → params c.param ≤ upper

/-- The call with these values of the parameters is refused at entry. -/
def IndexedInstance.Rejects (inst : IndexedInstance) (params : Nat → Int) : Prop :=
  ∃ c ∈ inst.checks, ¬c.Passes params

/-- The same check, with the bounds written as another instance has them. -/
structure OperandCheck.Same (c c' : OperandCheck) : Prop where
  operand : c'.operand = c.operand
  param : c'.param = c.param
  onInvalid : c'.onInvalid = c.onInvalid
  bounds : ∀ params, c'.bounds params = c.bounds params

/-- Every check of the one is a check of the other. -/
def CarriesChecks (inst out : IndexedInstance) : Prop :=
  ∀ c ∈ inst.checks, ∃ c' ∈ out.checks, c.Same c'

/-- What `validate` asks of a check. -/
structure OperandCheck.Valid (inst : IndexedInstance) (c : OperandCheck) : Prop where
  operand : c.operand < inst.norm.length
  param : ∃ p, inst.domain.params[c.param]? = some p ∧
    (p.source = .runtime ∨ p.source = .static) ∧ p.operand = c.operand
  some_bound : c.lower ≠ none ∨ c.upper ≠ none
  bounds : ∀ e, c.lower = some e ∨ c.upper = some e →
    e.Formed inst.domain.dims.length ∧ e.mentionsDim = false

/-! ## What a Split Keeps of Them -/

theorem checks_splitDims {inst out : IndexedInstance} {splits : List DimSplit}
    (h : splitDims inst splits = .ok out) : out.checks = [] := by
  unfold splitDims at h
  obtain ⟨factors, -, h⟩ := bind_ok h
  obtain ⟨image, -, h⟩ := bind_ok h
  obtain ⟨dims, -, h⟩ := bind_ok h
  obtain ⟨params, -, h⟩ := bind_ok h
  obtain ⟨constraints, -, h⟩ := bind_ok h
  obtain ⟨guard, -, h⟩ := bind_ok h
  obtain ⟨bounds, -, h⟩ := bind_ok h
  obtain ⟨norm, -, h⟩ := bind_ok h
  obtain ⟨withs, -, h⟩ := bind_ok h
  obtain ⟨output, -, h⟩ := bind_ok h
  obtain rfl := Except.ok.inj h
  rfl

theorem not_rejects_splitDims {inst out : IndexedInstance} {splits : List DimSplit}
    (h : splitDims inst splits = .ok out) (params : Nat → Int) : ¬out.Rejects params := by
  rintro ⟨c, hc, -⟩
  rw [checks_splitDims h] at hc
  cases hc

/-- A split carries every check, and rejects what the original rejects, exactly where the original
    has no check. -/
theorem splitDims_checks_iff {inst out : IndexedInstance} {splits : List DimSplit}
    (h : splitDims inst splits = .ok out) :
    (CarriesChecks inst out ∧ ∀ params, inst.Rejects params → out.Rejects params) ↔
      inst.checks = [] := by
  constructor
  · rintro ⟨hcarries, -⟩
    apply List.eq_nil_iff_forall_not_mem.2
    intro c hc
    obtain ⟨c', hc', -⟩ := hcarries c hc
    rw [checks_splitDims h] at hc'
    cases hc'
  · intro hnone
    constructor
    · intro c hc
      rw [hnone] at hc
      cases hc
    · rintro params ⟨c, hc, -⟩
      rw [hnone] at hc
      cases hc

/-- The row of ten has no checks. -/
theorem splitDims_checks_iff_tenWide :
    ∃ out, splitDims tenWide [⟨0, 4⟩] = .ok out ∧
      ((CarriesChecks tenWide out ∧ ∀ params, tenWide.Rejects params → out.Rejects params) ↔
        tenWide.checks = []) :=
  ⟨_, rfl, @splitDims_checks_iff tenWide _ [⟨0, 4⟩] rfl⟩

/-- Ten elements read from a start that an argument gives; the start lies in `[0, 4]`. -/
def startChecked : IndexedInstance :=
  { domain :=
      { dims := [{ name := "d0", extent := .const 10 }]
        params := [{ name := "start", source := .runtime, operand := 1 }] },
    norm := [affine [.add (.dim 0) (.param 0)], noAccess],
    output := { coords := [some (.dim 0)] },
    checks := [{ operand := 1, param := 0, lower := some (.const 0), upper := some (.const 4) }] }

/-- The start 7 is refused by the instance, and not by the split one. -/
theorem splitDims_drops_checks :
    startChecked.Validated ∧ (∀ c ∈ startChecked.checks, c.Valid startChecked) ∧
      ∃ out, splitDims startChecked [⟨0, 4⟩] = .ok out ∧ ¬CarriesChecks startChecked out ∧
        startChecked.Rejects (fun _ => 7) ∧ ¬out.Rejects fun _ => 7 := by
  refine ⟨?_, ?_, _, rfl, ?_, ?_, @not_rejects_splitDims startChecked _ [⟨0, 4⟩] rfl _⟩
  · constructor <;> simp [startChecked, affine, noAccess, Expr.Formed, Predicate.Formed, CoordsFormed,
      IndirectFormed]
  · intro c hc
    obtain rfl := List.mem_singleton.1 hc
    constructor
    · decide
    · exact ⟨_, rfl, .inl rfl, rfl⟩
    · exact .inl fun h => by cases h
    · rintro e (he | he) <;> cases he <;> exact ⟨trivial, rfl⟩
  · intro hcarries
    obtain ⟨c', hc', -⟩ := hcarries _ (.head _)
    cases hc'
  · refine ⟨_, .head _, fun hpasses => ?_⟩
    exact absurd (hpasses.2 4 rfl) (by decide)

end Camel.Index
