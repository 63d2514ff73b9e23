import Camel.Index.PoolTrees

/-! # Building Through the Pool

    A client calls the builders one after another on the ids it has been given so far, in any
    order and as often as it likes; a call that throws leaves it without an id and the table with
    what was interned before. Each id evaluates to what its expression written out does.
-/

open Option List

namespace Camel.Index.ExprPool

/-! ## Evaluation by Id -/

variable {plain : Expr} {id : Nat} {m : PoolM ExprId} {pool : ExprPool}

theorem evaluateWithin_denotes {fuel id : Nat} {e : Expr}
    (dims : List Int64) (params : List (Option Int64)) (h : pool.Denotes id e)
    (hfuel : height e < fuel) :
    pool.evaluateWithin dims params fuel id = e.evaluate dims params := by
  induction e generalizing fuel id with
  | const _ | dim _ | param _ =>
    obtain ⟨n, hn, hop, rfl⟩ := h
    cases fuel with
    | zero => cases hfuel
    | succ fuel => simp only [evaluateWithin, hn, hop, Expr.evaluate]
  | add l r ihl ihr | mul l r ihl ihr | floorDiv l r ihl ihr | mod l r ihl ihr =>
    obtain ⟨n, hn, hop, hl, hr⟩ := h
    cases fuel with
    | zero => cases hfuel
    | succ fuel =>
      unfold height at hfuel
      simp only [evaluateWithin, hn, hop, Expr.evaluate]
      rw [ihl hl (by omega), ihr hr (by omega)]

/-- An id evaluates as its tree does. -/
theorem evaluate_denotes {e : Expr} (hwf : pool.WellFormed)
    (h : pool.Denotes id e) (dims : List Int64) (params : List (Option Int64)) :
    pool.evaluate dims params id = e.evaluate dims params :=
  evaluateWithin_denotes dims params h (Nat.lt_succ_of_le (h.height_le hwf))

/-- Every id of the table stands for a tree. -/
theorem exists_denotes (hwf : pool.WellFormed)
    (hid : id < pool.exprs.length) : ∃ e, pool.Denotes id e := by
  induction id using Nat.strongRecOn with
  | ind id ih =>
    have hn : pool.exprs[id]? = some pool.exprs[id] := getElem?_eq_getElem hid
    have hbefore := hwf.before id _ hn
    generalize pool.exprs[id] = n at hn hbefore
    have hoperands : n.op.isBinary = true →
        ∃ l r, pool.Denotes n.lhs l ∧ pool.Denotes n.rhs r := by
      intro hbinary
      obtain ⟨hl, hr⟩ := hbefore hbinary
      obtain ⟨l, hl⟩ := ih n.lhs hl (hl.trans hid)
      obtain ⟨r, hr⟩ := ih n.rhs hr (hr.trans hid)
      exact ⟨l, r, hl, hr⟩
    cases hop : n.op with
    | const => exact ⟨.const _, n, hn, hop, rfl⟩
    | dim => exact ⟨.dim _, n, hn, hop, rfl⟩
    | param => exact ⟨.param _, n, hn, hop, rfl⟩
    | add =>
      obtain ⟨l, r, hl, hr⟩ := hoperands (by rw [hop]; rfl)
      exact ⟨.add l r, n, hn, hop, hl, hr⟩
    | mul =>
      obtain ⟨l, r, hl, hr⟩ := hoperands (by rw [hop]; rfl)
      exact ⟨.mul l r, n, hn, hop, hl, hr⟩
    | floorDiv =>
      obtain ⟨l, r, hl, hr⟩ := hoperands (by rw [hop]; rfl)
      exact ⟨.floorDiv l r, n, hn, hop, hl, hr⟩
    | mod =>
      obtain ⟨l, r, hl, hr⟩ := hoperands (by rw [hop]; rfl)
      exact ⟨.mod l r, n, hn, hop, hl, hr⟩

/-- What a table has evaluates the same in every table that extends it. -/
theorem evaluate_extends {pool pool' : ExprPool} (hwf : pool.WellFormed) (hwf' : pool'.WellFormed)
    (hext : pool.Extends pool') (hid : id < pool.exprs.length) (dims : List Int64)
    (params : List (Option Int64)) :
    pool'.evaluate dims params id = pool.evaluate dims params id := by
  obtain ⟨e, he⟩ := exists_denotes hwf hid
  rw [evaluate_denotes hwf he, evaluate_denotes hwf' (he.mono hext)]

/-! ## Clients -/

/-- A call of a builder, whose operands are results of earlier calls, by their number. -/
inductive Call where
  | constant (value : Int64)
  | dim (position : UInt32)
  | param (position : UInt32)
  | add (lhs rhs : Nat)
  | sub (lhs rhs : Nat)
  | mul (factor e : Nat)
  | scale (c : Int64) (e : Nat)
  | floorDiv (lhs divisor : Nat)
  | mod (lhs divisor : Nat)

/-- The table, and each id that has been returned with the expression it was asked for, written
    out as the builders' calls say. -/
structure Client where
  pool : ExprPool := {}
  results : List (ExprId × Expr) := []

/-- The results of two earlier calls. -/
def Client.pair (c : Client) (i j : Nat) (f : ExprId → ExprId → PoolM ExprId)
    (g : Expr → Expr → Expr) : Option (PoolM ExprId × Expr) := do
  let (l, tl) ← c.results[i]?
  let (r, tr) ← c.results[j]?
  some (f l r, g tl tr)

/-- What a call runs, and the expression it asks for; nothing where it names no earlier result. -/
def Client.called (c : Client) : Call → Option (PoolM ExprId × Expr)
  | .constant value => some (ExprPool.constant value, .const value)
  | .dim position => some (ExprPool.dim position, .dim position.toNat)
  | .param position => some (ExprPool.param position, .param position.toNat)
  | .add i j => c.pair i j ExprPool.add .add
  | .sub i j => c.pair i j ExprPool.sub fun l r => .add l (.mul (.const (-1)) r)
  | .mul i j => c.pair i j ExprPool.mul .mul
  | .scale v i => (c.results[i]?).map fun (id, e) => (ExprPool.scale v id, .mul (.const v) e)
  | .floorDiv i j => c.pair i j ExprPool.floorDiv .floorDiv
  | .mod i j => c.pair i j ExprPool.mod .mod

def Client.step (c : Client) (call : Call) : Client :=
  match c.called call with
  | none => c
  | some (m, plain) =>
    match m c.pool with
    | .ok id pool => { pool, results := c.results ++ [(id, plain)] }
    | .error _ pool => { c with pool }

def Client.run (c : Client) (calls : List Call) : Client := calls.foldl Client.step c

/-! ## What Every Run Keeps -/

/-- The tree keeps the values of the expression, in 64 bits and on the integers. -/
structure Keeps (plain e : Expr) : Prop where
  evaluate : Expr.Keeps plain e
  eval : ∀ dims params, e.eval dims params = plain.eval dims params

/-- The id stands for a tree that keeps the values of the expression. -/
def Answers (pool : ExprPool) (id : Nat) (plain : Expr) : Prop :=
  ∃ e, pool.Denotes id e ∧ Keeps plain e

structure Sound (c : Client) : Prop where
  pool : c.pool.WellFormed
  results : ∀ r ∈ c.results, c.pool.Answers r.1 r.2

theorem Answers.mono {pool pool' : ExprPool} (hext : pool.Extends pool') {id : Nat} {plain : Expr}
    (h : pool.Answers id plain) : pool'.Answers id plain := by
  obtain ⟨e, he, hkeeps⟩ := h
  exact ⟨e, he.mono hext, hkeeps⟩

/-- What the call runs does what some builder of trees does, and that keeps the values. -/
def Fulfils (pool : ExprPool) (m : PoolM ExprId) (plain : Expr) : Prop :=
  ∃ t, pool.Simulates m t ∧ ∀ e, t = .ok e → Keeps plain e

theorem fulfils_pair {c : Client} (h : Sound c) {i j : Nat} {f : ExprId → ExprId → PoolM ExprId}
    {g : Expr → Expr → Expr} {mk : Expr → Expr → Except BuildError Expr}
    (hcalled : c.pair i j f g = some (m, plain))
    (hsim : ∀ {l r : Nat} {tl tr : Expr}, c.pool.Denotes l tl → c.pool.Denotes r tr →
      c.pool.Simulates (f l r) (mk tl tr))
    (hkeeps : ∀ {pl pr tl tr e : Expr}, Keeps pl tl → Keeps pr tr → mk tl tr = .ok e →
      Keeps (g pl pr) e) : c.pool.Fulfils m plain := by
  obtain ⟨⟨l, pl⟩, hi, hrest⟩ := bind_eq_some_iff.1 hcalled
  obtain ⟨⟨r, pr⟩, hj, hpair⟩ := bind_eq_some_iff.1 hrest
  obtain ⟨rfl, rfl⟩ := Prod.mk.inj (some.inj hpair)
  obtain ⟨tl, hl, hkl⟩ := h.results _ (mem_of_getElem? hi)
  obtain ⟨tr, hr, hkr⟩ := h.results _ (mem_of_getElem? hj)
  exact ⟨mk tl tr, hsim hl hr, fun e he => hkeeps hkl hkr he⟩

theorem fulfils_leaf
    (h : pool.Simulates m (.ok plain)) : pool.Fulfils m plain := by
  refine ⟨_, h, fun e he => ?_⟩
  obtain rfl := Except.ok.inj he
  exact ⟨Expr.Keeps.refl _, fun _ _ => rfl⟩

/-- Every call does what it is asked for. -/
theorem fulfils_called {c : Client} (h : Sound c) {call : Call}
    (hcalled : c.called call = some (m, plain)) : c.pool.Fulfils m plain := by
  cases call with
  | constant value =>
    obtain ⟨rfl, rfl⟩ := Prod.mk.inj (some.inj hcalled)
    exact fulfils_leaf (simulates_constant h.pool value)
  | dim position =>
    obtain ⟨rfl, rfl⟩ := Prod.mk.inj (some.inj hcalled)
    exact fulfils_leaf (simulates_dim h.pool position)
  | param position =>
    obtain ⟨rfl, rfl⟩ := Prod.mk.inj (some.inj hcalled)
    exact fulfils_leaf (simulates_param h.pool position)
  | add i j =>
    apply fulfils_pair h hcalled (add_simulates h.pool)
    intro pl pr tl tr e hl hr he
    refine ⟨(hl.evaluate.add hr.evaluate).trans (Expr.keeps_mkAdd he), fun dims params => ?_⟩
    rw [Expr.eval_mkAdd he, hl.eval, hr.eval, Expr.eval_add]
  | sub i j =>
    have hcalled : c.pair i j ExprPool.sub (fun l r => .add l (.mul (.const (-1)) r)) =
        some (m, plain) := hcalled
    apply fulfils_pair h hcalled (sub_simulates h.pool)
    intro pl pr tl tr e hl hr he
    have hminus := (Expr.Keeps.refl (.const (-1))).mul hr.evaluate
    refine ⟨(hl.evaluate.add hminus).trans (Expr.keeps_mkSub he), fun dims params => ?_⟩
    have hone : Int64.toInt (-1) = -1 := rfl
    rw [Expr.eval_mkSub he, hl.eval, hr.eval, Expr.eval_add, Expr.eval_mul, Expr.eval_const, hone]
    ring
  | mul i j =>
    apply fulfils_pair h hcalled (mul_simulates h.pool)
    intro pl pr tl tr e hl hr he
    refine ⟨(hl.evaluate.mul hr.evaluate).trans (Expr.keeps_mkMul he), fun dims params => ?_⟩
    rw [Expr.eval_mkMul he, hl.eval, hr.eval, Expr.eval_mul]
  | scale v i =>
    obtain ⟨⟨id, pe⟩, hi, hpair⟩ := map_eq_some_iff.1 hcalled
    obtain ⟨rfl, rfl⟩ := Prod.mk.inj hpair
    obtain ⟨te, hte, hkeeps⟩ := h.results _ (mem_of_getElem? hi)
    refine ⟨_, scale_simulates h.pool v hte, fun e he => ?_⟩
    have hfactor := (Expr.Keeps.refl (.const v)).mul hkeeps.evaluate
    refine ⟨hfactor.trans (Expr.keeps_mkScale he), fun dims params => ?_⟩
    rw [Expr.eval_mkScale he, hkeeps.eval, Expr.eval_mul, Expr.eval_const]
  | floorDiv i j =>
    apply fulfils_pair h hcalled (floorDiv_simulates h.pool)
    intro pl pr tl tr e hl hr he
    refine ⟨(hl.evaluate.floorDiv hr.evaluate).trans (Expr.keeps_mkFloorDiv he),
      fun dims params => ?_⟩
    rw [Expr.eval_mkFloorDiv he, hl.eval, hr.eval, Expr.eval_floorDiv]
  | mod i j =>
    apply fulfils_pair h hcalled (mod_simulates h.pool)
    intro pl pr tl tr e hl hr he
    refine ⟨(hl.evaluate.mod hr.evaluate).trans (Expr.keeps_mkMod he), fun dims params => ?_⟩
    rw [Expr.eval_mkMod he, hl.eval, hr.eval, Expr.eval_mod]

/-- One call only adds to the table, and keeps what every run keeps. -/
theorem Sound.step {c : Client} (h : Sound c) (call : Call) :
    Sound (c.step call) ∧ c.pool.Extends (c.step call).pool := by
  unfold Client.step
  cases hcalled : c.called call with
  | none => exact ⟨h, .refl _⟩
  | some found =>
    obtain ⟨m, plain⟩ := found
    obtain ⟨t, hsim, hkeeps⟩ := fulfils_called h hcalled
    unfold Simulates at hsim
    cases hrun : m c.pool with
    | ok id pool' =>
      rw [hrun] at hsim
      obtain ⟨hwf, hext, e, he, hden⟩ := hsim
      simp only [hrun]
      refine ⟨⟨hwf, fun r hr => ?_⟩, hext⟩
      rcases mem_append.1 hr with hr | hr
      · exact (h.results r hr).mono hext
      · obtain rfl := mem_singleton.1 hr
        exact ⟨e, hden, hkeeps e he⟩
    | error err pool' =>
      rw [hrun] at hsim
      obtain ⟨hwf, hext, -⟩ := hsim
      simp only [hrun]
      exact ⟨⟨hwf, fun r hr => (h.results r hr).mono hext⟩, hext⟩

theorem Sound.run {c : Client} (h : Sound c) (calls : List Call) :
    Sound (c.run calls) ∧ c.pool.Extends (c.run calls).pool := by
  induction calls generalizing c with
  | nil => exact ⟨h, .refl _⟩
  | cons call calls ih =>
    obtain ⟨hstep, hext⟩ := h.step call
    obtain ⟨hrest, hext'⟩ := ih hstep
    exact ⟨hrest, hext.trans hext'⟩

theorem sound_start : Sound {} := ⟨wellFormed_empty, nofun⟩

/-- After any calls, every id that has been returned evaluates to what its expression written out
    evaluates to, where that has a value, and stands for a tree of the same value on the integers;
    and no later call changes what any id of the table evaluates to. -/
theorem builders_keep (calls later : List Call) :
    (∀ r ∈ (Client.run {} calls).results,
      (∀ dims params v, r.2.evaluate dims params = .ok v →
        (Client.run {} calls).pool.evaluate dims params r.1 = .ok v) ∧
      ∃ e, (Client.run {} calls).pool.Denotes r.1 e ∧
        ∀ dims params, e.eval dims params = r.2.eval dims params) ∧
      ∀ id < (Client.run {} calls).pool.exprs.length, ∀ dims params,
        (Client.run {} (calls ++ later)).pool.evaluate dims params id =
          (Client.run {} calls).pool.evaluate dims params id := by
  have hsound := (sound_start.run calls).1
  constructor
  · intro r hr
    obtain ⟨e, he, hkeeps⟩ := hsound.results r hr
    refine ⟨fun dims params v hv => ?_, e, he, hkeeps.eval⟩
    rw [evaluate_denotes hsound.pool he]
    exact hkeeps.evaluate dims params v hv
  · intro id hid dims params
    obtain ⟨hlater, hext⟩ := hsound.run later
    have happend : Client.run {} (calls ++ later) = (Client.run {} calls).run later :=
      List.foldl_append
    rw [happend]
    exact evaluate_extends hsound.pool hlater.pool hext hid dims params

end Camel.Index.ExprPool
