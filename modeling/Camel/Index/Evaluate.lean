import Camel.Index.Expr

/-! # Evaluation in 64 Bits

    `evaluate` computes an expression at a point in 64 bits, and fails where a sum or product does
    not fit, a parameter has no value, or a divisor is not positive. Where an expression that is
    only written down has a value, what the builders make of it has the same one.
-/

namespace Camel.Index

open Lib

/-- Why an evaluation fails. The first three are references that lead nowhere, which the source
    reads behind the end of a vector. -/
inductive EvalFault where
  | exprOutside
  | dimOutside
  | paramOutside
  | unknownParam (position : Nat)
  | notPositive
  | overflow
  deriving DecidableEq

/-! ## The Evaluation -/

/-- The arithmetic of the builders, where an evaluation does it. -/
def inEvaluation {α : Type} : Except BuildError α → Except EvalFault α
  | .ok a => .ok a
  | .error _ => .error .overflow

def dimValue (dims : List Int64) (position : Nat) : Except EvalFault Int64 :=
  match dims[position]? with
  | some v => .ok v
  | none => .error .dimOutside

def paramValue (params : List (Option Int64)) (position : Nat) : Except EvalFault Int64 :=
  match params[position]? with
  | some (some v) => .ok v
  | some none => .error (.unknownParam position)
  | none => .error .paramOutside

/-- A quotient or remainder, of a positive divisor. -/
def divided (op : Int64 → Int64 → Int64) (a d : Int64) : Except EvalFault Int64 :=
  if d ≤ 0 then .error .notPositive else .ok (op a d)

/-- `ExprPool::evaluate` of the expression's tree -/
def Expr.evaluate (dims : List Int64) (params : List (Option Int64)) :
    Expr → Except EvalFault Int64
  | .const v => .ok v
  | .dim position => dimValue dims position
  | .param position => paramValue params position
  | .add l r => do
    let a ← l.evaluate dims params
    let b ← r.evaluate dims params
    inEvaluation (checkedAdd a b)
  | .mul l r => do
    let a ← l.evaluate dims params
    let b ← r.evaluate dims params
    inEvaluation (checkedMul a b)
  | .floorDiv l r => do
    let a ← l.evaluate dims params
    let d ← r.evaluate dims params
    divided floorDivide a d
  | .mod l r => do
    let a ← l.evaluate dims params
    let d ← r.evaluate dims params
    divided floorModulo a d

/-! ## What an Evaluation Gives -/

theorem eval_bind_ok {α β : Type} {x : Except EvalFault α} {f : α → Except EvalFault β} {r : β} :
    (x >>= f) = .ok r ↔ ∃ a, x = .ok a ∧ f a = .ok r := by
  cases x with
  | error e =>
    constructor
    · exact fun h => nomatch h
    · rintro ⟨a, h, -⟩
      cases h
  | ok a =>
    constructor
    · exact fun h => ⟨a, rfl, h⟩
    · rintro ⟨b, hb, h⟩
      cases hb
      exact h

/-- Two values are computed, and then what is made of them. -/
theorem eval_pair_ok {α β : Type} {x y : Except EvalFault α} {f : α → α → Except EvalFault β}
    {r : β} : (do let a ← x; let b ← y; f a b) = .ok r ↔
      ∃ a b, x = .ok a ∧ y = .ok b ∧ f a b = .ok r := by
  rw [eval_bind_ok]
  constructor
  · rintro ⟨a, ha, h⟩
    obtain ⟨b, hb, h⟩ := eval_bind_ok.1 h
    exact ⟨a, b, ha, hb, h⟩
  · rintro ⟨a, b, ha, hb, h⟩
    exact ⟨a, ha, eval_bind_ok.2 ⟨b, hb, h⟩⟩

/-- A sum that fits is the sum. -/
theorem checkedAdd_iff {a b v : Int64} : checkedAdd a b = .ok v ↔ v.toInt = a.toInt + b.toInt := by
  constructor
  · exact checkedAdd_ok
  · intro h
    have hfit : Fits (a.toInt + b.toInt) := by
      rw [← h]
      exact ⟨Int64.le_toInt v, Int64.toInt_lt v⟩
    unfold checkedAdd
    rw [if_pos hfit]
    congr 1
    apply Int64.toInt_inj.1
    rw [Int64.toInt_add, bmod_of_fits hfit, h]

theorem checkedMul_iff {a b v : Int64} : checkedMul a b = .ok v ↔ v.toInt = a.toInt * b.toInt := by
  constructor
  · exact checkedMul_ok
  · intro h
    have hfit : Fits (a.toInt * b.toInt) := by
      rw [← h]
      exact ⟨Int64.le_toInt v, Int64.toInt_lt v⟩
    unfold checkedMul
    rw [if_pos hfit]
    congr 1
    apply Int64.toInt_inj.1
    rw [Int64.toInt_mul, bmod_of_fits hfit, h]

theorem inEvaluation_ok {α : Type} {x : Except BuildError α} {a : α} :
    inEvaluation x = .ok a ↔ x = .ok a := by
  cases x with
  | ok b =>
    show Except.ok b = Except.ok a ↔ Except.ok b = Except.ok a
    rw [Except.ok.injEq, Except.ok.injEq]
  | error e => exact ⟨nofun, nofun⟩

theorem divided_ok {op : Int64 → Int64 → Int64} {a d v : Int64} :
    divided op a d = .ok v ↔ 0 < d.toInt ∧ op a d = v := by
  have hle : d ≤ 0 ↔ d.toInt ≤ 0 := by rw [Int64.le_iff_toInt_le, Int64.toInt_zero]
  unfold divided
  split
  · next h =>
    rw [hle] at h
    exact ⟨nofun, fun h' => absurd h'.1 (by omega)⟩
  · next h =>
    rw [hle] at h
    exact ⟨fun h' => ⟨by omega, Except.ok.inj h'⟩, fun h' => congrArg _ h'.2⟩

namespace Expr

variable {dims : List Int64} {params : List (Option Int64)} {l r e : Expr} {v : Int64}

theorem evaluate_add : (add l r).evaluate dims params = .ok v ↔
    ∃ a b, l.evaluate dims params = .ok a ∧ r.evaluate dims params = .ok b ∧
      v.toInt = a.toInt + b.toInt := by
  simp only [← checkedAdd_iff, ← inEvaluation_ok]
  exact eval_pair_ok

theorem evaluate_mul : (mul l r).evaluate dims params = .ok v ↔
    ∃ a b, l.evaluate dims params = .ok a ∧ r.evaluate dims params = .ok b ∧
      v.toInt = a.toInt * b.toInt := by
  simp only [← checkedMul_iff, ← inEvaluation_ok]
  exact eval_pair_ok

theorem evaluate_floorDiv : (floorDiv l r).evaluate dims params = .ok v ↔
    ∃ a d, l.evaluate dims params = .ok a ∧ r.evaluate dims params = .ok d ∧ 0 < d.toInt ∧
      floorDivide a d = v := by
  simp only [← divided_ok]
  exact eval_pair_ok

theorem evaluate_mod : (mod l r).evaluate dims params = .ok v ↔
    ∃ a d, l.evaluate dims params = .ok a ∧ r.evaluate dims params = .ok d ∧ 0 < d.toInt ∧
      floorModulo a d = v := by
  simp only [← divided_ok]
  exact eval_pair_ok

theorem evaluate_const {c : Int64} : (const c).evaluate dims params = .ok v ↔ c = v :=
  ⟨Except.ok.inj, congrArg _⟩

/-! ## What the Builders Give Has the Same Value -/

/-- Where the one has a value, the other has the same. -/
def Keeps (e r : Expr) : Prop :=
  ∀ dims params v, e.evaluate dims params = .ok v → r.evaluate dims params = .ok v

theorem Keeps.refl (e : Expr) : Keeps e e := fun _ _ _ h => h

theorem Keeps.trans {e r s : Expr} (h : Keeps e r) (h' : Keeps r s) : Keeps e s :=
  fun dims params v hv => h' dims params v (h dims params v hv)

theorem Keeps.add {l r l' r' : Expr} (hl : Keeps l l') (hr : Keeps r r') :
    Keeps (add l r) (add l' r') := by
  intro dims params v h
  obtain ⟨a, b, ha, hb, hv⟩ := evaluate_add.1 h
  exact evaluate_add.2 ⟨a, b, hl _ _ _ ha, hr _ _ _ hb, hv⟩

theorem Keeps.mul {l r l' r' : Expr} (hl : Keeps l l') (hr : Keeps r r') :
    Keeps (mul l r) (mul l' r') := by
  intro dims params v h
  obtain ⟨a, b, ha, hb, hv⟩ := evaluate_mul.1 h
  exact evaluate_mul.2 ⟨a, b, hl _ _ _ ha, hr _ _ _ hb, hv⟩

theorem Keeps.floorDiv {l r l' r' : Expr} (hl : Keeps l l') (hr : Keeps r r') :
    Keeps (floorDiv l r) (floorDiv l' r') := by
  intro dims params v h
  obtain ⟨a, b, ha, hb, hv⟩ := evaluate_floorDiv.1 h
  exact evaluate_floorDiv.2 ⟨a, b, hl _ _ _ ha, hr _ _ _ hb, hv⟩

theorem Keeps.mod {l r l' r' : Expr} (hl : Keeps l l') (hr : Keeps r r') :
    Keeps (mod l r) (mod l' r') := by
  intro dims params v h
  obtain ⟨a, b, ha, hb, hv⟩ := evaluate_mod.1 h
  exact evaluate_mod.2 ⟨a, b, hl _ _ _ ha, hr _ _ _ hb, hv⟩

theorem keeps_add_comm (l r : Expr) : Keeps (.add l r) (.add r l) := by
  intro dims params v h
  obtain ⟨a, b, ha, hb, hv⟩ := evaluate_add.1 h
  exact evaluate_add.2 ⟨b, a, hb, ha, by rw [hv, add_comm]⟩

theorem keeps_mul_comm (l r : Expr) : Keeps (.mul l r) (.mul r l) := by
  intro dims params v h
  obtain ⟨a, b, ha, hb, hv⟩ := evaluate_mul.1 h
  exact evaluate_mul.2 ⟨b, a, hb, ha, by rw [hv, mul_comm]⟩

theorem keeps_add_zero (e : Expr) : Keeps (.add e (const 0)) e := by
  intro dims params v h
  obtain ⟨a, b, ha, hb, hv⟩ := evaluate_add.1 h
  obtain rfl := evaluate_const.1 hb
  rw [Int64.toInt_zero, add_zero] at hv
  rw [ha, Int64.toInt_inj.1 hv]

theorem keeps_addConst {c : Int64} {e r : Expr} (h : addConst c e = .ok r) :
    Keeps (.add e (const c)) r := by
  fun_induction addConst c e with
  | case1 x =>
    obtain ⟨s, hs, hr⟩ := bind_ok h
    cases hr
    intro dims params w hw
    obtain ⟨a, b, ha, hb, hw⟩ := evaluate_add.1 hw
    obtain rfl := evaluate_const.1 ha
    obtain rfl := evaluate_const.1 hb
    rw [evaluate_const, ← Int64.toInt_inj, hw, checkedAdd_ok hs]
  | case2 x c1 =>
    cases h
    exact keeps_add_zero _
  | case3 c x c1 hc ih =>
    obtain ⟨s, hs, hr⟩ := bind_ok h
    apply Keeps.trans _ (ih s hr)
    intro dims params w hw
    obtain ⟨a, b, ha, hb, hw⟩ := evaluate_add.1 hw
    obtain ⟨a', b', ha', hb', ha⟩ := evaluate_add.1 ha
    obtain rfl := evaluate_const.1 hb
    obtain rfl := evaluate_const.1 hb'
    -- both constants are added at once
    refine evaluate_add.2 ⟨a', s, ha', rfl, ?_⟩
    rw [hw, ha, checkedAdd_ok hs, add_assoc]
  | case4 e h1 h2 =>
    cases h
    exact keeps_add_zero _
  | case5 c e h1 h2 hc =>
    cases h
    exact Keeps.refl _

theorem keeps_mkAdd {l e r : Expr} (h : mkAdd l e = .ok r) : Keeps (.add l e) r := by
  revert h
  fun_cases mkAdd l e with
  | case1 a b =>
    intro h
    obtain ⟨s, hs, hr⟩ := bind_ok h
    cases hr
    exact @keeps_addConst b (const a) _ h
  | case2 e hne =>
    intro h
    cases h
    exact (keeps_add_comm _ _).trans (keeps_add_zero _)
  | case3 a e hne ha =>
    intro h
    exact (keeps_add_comm _ _).trans (keeps_addConst h)
  | case4 e b hne =>
    intro h
    exact keeps_addConst h
  | case5 l e h1 h2 h3 =>
    intro h
    cases h
    exact Keeps.refl _

theorem keeps_zero_mul (e : Expr) : Keeps (.mul (const 0) e) (const 0) := by
  intro dims params v h
  obtain ⟨a, b, ha, hb, hv⟩ := evaluate_mul.1 h
  obtain rfl := evaluate_const.1 ha
  rw [Int64.toInt_zero, zero_mul, ← Int64.toInt_zero] at hv
  rw [evaluate_const, Int64.toInt_inj.1 hv]

theorem keeps_one_mul (e : Expr) : Keeps (.mul (const 1) e) e := by
  intro dims params v h
  obtain ⟨a, b, ha, hb, hv⟩ := evaluate_mul.1 h
  obtain rfl := evaluate_const.1 ha
  rw [Int64.toInt_one, one_mul] at hv
  rw [hb, Int64.toInt_inj.1 hv]

theorem keeps_mkScale {c : Int64} {e r : Expr} (h : mkScale c e = .ok r) :
    Keeps (.mul (const c) e) r := by
  fun_induction mkScale c e with
  | case1 c x =>
    obtain ⟨s, hs, hr⟩ := bind_ok h
    cases hr
    intro dims params w hw
    obtain ⟨a, b, ha, hb, hw⟩ := evaluate_mul.1 hw
    obtain rfl := evaluate_const.1 ha
    obtain rfl := evaluate_const.1 hb
    rw [evaluate_const, ← Int64.toInt_inj, hw, checkedMul_ok hs]
  | case2 c2 x =>
    cases h
    exact keeps_zero_mul _
  | case3 c2 x =>
    cases h
    exact keeps_one_mul _
  | case4 c c2 x h0 h1 ih =>
    obtain ⟨s, hs, hr⟩ := bind_ok h
    apply Keeps.trans _ (ih s hr)
    intro dims params w hw
    obtain ⟨a, b, ha, hb, hw⟩ := evaluate_mul.1 hw
    obtain ⟨a', b', ha', hb', hb⟩ := evaluate_mul.1 hb
    obtain rfl := evaluate_const.1 ha
    obtain rfl := evaluate_const.1 ha'
    refine evaluate_mul.2 ⟨s, b', rfl, hb', ?_⟩
    rw [hw, hb, checkedMul_ok hs, mul_assoc]
  | case5 e h1 h2 =>
    cases h
    exact keeps_zero_mul _
  | case6 e h1 h2 =>
    cases h
    exact keeps_one_mul _
  | case7 c e h1 h2 h3 h4 =>
    cases h
    exact Keeps.refl _

theorem keeps_scaleByParam {p : Nat} {e r : Expr} (h : scaleByParam p e = .ok r) :
    Keeps (.mul (param p) e) r := by
  revert h
  fun_cases scaleByParam p e with
  | case1 =>
    intro h
    cases h
    exact (keeps_mul_comm _ _).trans (keeps_zero_mul _)
  | case2 v hv =>
    intro h
    exact (keeps_mul_comm _ _).trans (keeps_mkScale h)
  | case3 e hne =>
    intro h
    cases h
    exact Keeps.refl _

theorem keeps_mkMul {l e r : Expr} (h : mkMul l e = .ok r) : Keeps (.mul l e) r := by
  revert h
  fun_cases mkMul l e with
  | case1 c e => exact keeps_mkScale
  | case2 p e => exact keeps_scaleByParam
  | case3 l v h1 h2 =>
    intro h
    exact (keeps_mul_comm _ _).trans (keeps_mkScale h)
  | case4 l p h1 h2 =>
    intro h
    exact (keeps_mul_comm _ _).trans (keeps_scaleByParam h)
  | case5 =>
    intro h
    cases h

/-- A difference is the sum with minus one times what is taken away. -/
theorem keeps_mkSub {l e r : Expr} (h : mkSub l e = .ok r) :
    Keeps (.add l (.mul (const (-1)) e)) r := by
  obtain ⟨negated, hneg, hr⟩ := bind_ok h
  exact ((Keeps.refl l).add (keeps_mkScale hneg)).trans (keeps_mkAdd hr)

theorem floorDivide_one (a : Int64) : floorDivide a 1 = a := by
  have hmod : a % 1 = 0 := by
    apply Int64.toInt_inj.1
    rw [Int64.toInt_mod, Int64.toInt_one, Int64.toInt_zero, Int.tmod_one]
  unfold floorDivide
  rw [hmod, if_neg (fun h => h.1 rfl)]
  apply Int64.toInt_inj.1
  rw [Int64.toInt_div_of_ne_right a 1 (by decide), Int64.toInt_one, Int.tdiv_one]

theorem floorModulo_one (a : Int64) : floorModulo a 1 = 0 := by
  apply Int64.toInt_inj.1
  rw [toInt_floorModulo (by decide), Int64.toInt_one, Int.emod_one, Int64.toInt_zero]

theorem keeps_mkFloorDiv {l e r : Expr} (h : mkFloorDiv l e = .ok r) : Keeps (.floorDiv l e) r := by
  rcases divideExpr_ok (mkFloorDiv_eq ▸ h) with ⟨rfl, rfl⟩ | ⟨a, d, rfl, rfl, -, rfl⟩ | rfl
  · intro dims params v hv
    obtain ⟨a, d, ha, hd', -, hv⟩ := evaluate_floorDiv.1 hv
    obtain rfl := evaluate_const.1 hd'
    rw [ha, ← hv, floorDivide_one]
  · intro dims params v hv
    obtain ⟨a', d', ha, hd', -, hv⟩ := evaluate_floorDiv.1 hv
    obtain rfl := evaluate_const.1 ha
    obtain rfl := evaluate_const.1 hd'
    exact evaluate_const.2 hv
  · exact Keeps.refl _

theorem keeps_mkMod {l e r : Expr} (h : mkMod l e = .ok r) : Keeps (.mod l e) r := by
  rcases divideExpr_ok (mkMod_eq ▸ h) with ⟨rfl, rfl⟩ | ⟨a, d, rfl, rfl, -, rfl⟩ | rfl
  · intro dims params v hv
    obtain ⟨a, d, ha, hd', -, hv⟩ := evaluate_mod.1 hv
    obtain rfl := evaluate_const.1 hd'
    rw [evaluate_const, ← hv, floorModulo_one]
  · intro dims params v hv
    obtain ⟨a', d', ha, hd', -, hv⟩ := evaluate_mod.1 hv
    obtain rfl := evaluate_const.1 ha
    obtain rfl := evaluate_const.1 hd'
    exact evaluate_const.2 hv
  · exact Keeps.refl _

end Expr

end Camel.Index
