import Camel.Index.Pool

/-! # The Pool's Builders Build Trees

    Run on ids, a builder of the pool does what the builder of trees does on the trees these ids
    stand for: it gives an id of the tree, or throws what the other throws; and either way it only
    adds to the table.
-/

open Option List

namespace Camel.Index.ExprPool

/-- Begun with this table, the builder does on ids what is done on trees. -/
def Simulates (pool : ExprPool) (m : PoolM ExprId) (t : Except BuildError Expr) : Prop :=
  match m pool with
  | .ok id pool' => pool'.WellFormed ∧ pool.Extends pool' ∧ ∃ e, t = .ok e ∧ pool'.Denotes id e
  | .error err pool' => pool'.WellFormed ∧ pool.Extends pool' ∧ t = .error err

variable {pool : ExprPool} {id l r : Nat} {e tl tr : Expr} {t : Except BuildError Expr}

/-! ## One Rule for Each Construct -/

variable {α : Type} {m : PoolM α}

theorem run_bind {β : Type} {f : α → PoolM β} {a : α} {pool pool' : ExprPool}
    (h : m pool = .ok a pool') : (m >>= f) pool = f a pool' := by
  show EStateM.bind m f pool = _
  unfold EStateM.bind
  rw [h]

theorem run_bind_error {β : Type} {f : α → PoolM β} {err : BuildError}
    {pool pool' : ExprPool} (h : m pool = .error err pool') :
    (m >>= f) pool = .error err pool' := by
  show EStateM.bind m f pool = _
  unfold EStateM.bind
  rw [h]

theorem simulates_pure (hwf : pool.WellFormed) (h : pool.Denotes id e) :
    pool.Simulates (pure id) (.ok e) :=
  ⟨hwf, .refl pool, e, rfl, h⟩

theorem simulates_throw (hwf : pool.WellFormed) (err : BuildError) :
    pool.Simulates (throw err) (.error err) :=
  ⟨hwf, .refl pool, rfl⟩

theorem Simulates.bind {m : PoolM ExprId} {f : ExprId → PoolM ExprId}
    {g : Expr → Except BuildError Expr} (h : pool.Simulates m t)
    (hf : ∀ (id : Nat) (pool' : ExprPool) (e : Expr), pool'.WellFormed → pool.Extends pool' →
      pool'.Denotes id e → t = .ok e → pool'.Simulates (f id) (g e)) :
    pool.Simulates (m >>= f) (t >>= g) := by
  unfold Simulates at h
  split at h
  · next id pool' heq =>
    obtain ⟨hwf, hext, e, rfl, hden⟩ := h
    have hnext := hf id pool' e hwf hext hden rfl
    unfold Simulates at hnext ⊢
    rw [run_bind heq]
    -- what the second part adds to is what the first has added to
    split at hnext
    · exact ⟨hnext.1, hext.trans hnext.2.1, hnext.2.2⟩
    · exact ⟨hnext.1, hext.trans hnext.2.1, hnext.2.2⟩
  · next err pool' heq =>
    obtain ⟨hwf, hext, rfl⟩ := h
    unfold Simulates
    rw [run_bind_error heq]
    exact ⟨hwf, hext, rfl⟩

/-- A first part that leaves the table as it is. -/
theorem Simulates.after {f : α → PoolM ExprId} {a : α}
    (hrun : m pool = .ok a pool) (h : pool.Simulates (f a) t) : pool.Simulates (m >>= f) t := by
  unfold Simulates
  rw [run_bind hrun]
  exact h

variable {n : Node}

theorem run_node (hn : pool.exprs[id]? = some n) : node id pool = .ok n pool := by
  unfold node
  rw [run_bind (show (get : PoolM ExprPool) pool = .ok pool pool from rfl), hn]
  rfl

/-- The constant that a tree is. -/
def constantOf : Expr → Option Int64
  | .const v => some v
  | _ => none

theorem simulates_checked {x : Except BuildError Int64} {f : Int64 → PoolM ExprId}
    {g : Int64 → Except BuildError Expr} (hwf : pool.WellFormed)
    (h : ∀ v, x = .ok v → pool.Simulates (f v) (g v)) :
    pool.Simulates (checked x >>= f) (x >>= g) := by
  cases x with
  | ok v => exact (h v rfl).after rfl
  | error err => exact simulates_throw hwf err

theorem run_constantValue (h : pool.Denotes id e) :
    constantValue id pool = .ok (constantOf e) pool := by
  obtain ⟨n, hn⟩ := h.node
  have hvalue : (if n.op = .const then some n.value else none) = constantOf e := by
    cases e <;> obtain ⟨n', hn', hop, hrest⟩ := h <;>
      obtain rfl := some.inj (hn.symm.trans hn') <;> rw [hop]
    · exact congrArg some hrest
    all_goals rfl
  unfold constantValue
  rw [run_bind (run_node hn), hvalue]
  rfl

/-! ## Interning -/

theorem lt_length (h : pool.Denotes id e) : id < pool.exprs.length := by
  obtain ⟨n, hn⟩ := h.node
  exact (List.getElem?_eq_some_iff.1 hn).1

/-- The entry can stand at the end of the table. -/
structure Admits (pool : ExprPool) (n : Node) : Prop where
  before : n.op.isBinary = true → n.lhs < pool.exprs.length ∧ n.rhs < pool.exprs.length
  factor : n.op = .mul → ∃ f, pool.exprs[n.lhs]? = some f ∧ (f.op = .const ∨ f.op = .param)
  divisor : n.op = .floorDiv ∨ n.op = .mod →
    ∃ d, pool.exprs[n.rhs]? = some d ∧ (d.op = .const ∧ 0 < d.value.toInt ∨ d.op = .param)

/-- The table with one more entry. -/
def push (pool : ExprPool) (n : Node) : ExprPool :=
  { pool with
    exprs := pool.exprs ++ [n]
    interned := (n, pool.exprs.length) :: pool.interned }

theorem extends_push (pool : ExprPool) (n : Node) : pool.Extends (pool.push n) := by
  intro id m hm
  show (pool.exprs ++ [n])[id]? = some m
  rw [List.getElem?_append_left (List.getElem?_eq_some_iff.1 hm).1, hm]

theorem getElem?_push {m : Node} (h : (pool.push n).exprs[id]? = some m) :
    pool.exprs[id]? = some m ∨ id = pool.exprs.length ∧ m = n := by
  have h : (pool.exprs ++ [n])[id]? = some m := h
  rw [List.getElem?_append] at h
  split at h
  · exact .inl h
  · next hid =>
    obtain ⟨hlt, hm⟩ := List.getElem?_eq_some_iff.1 h
    have hend : id = pool.exprs.length :=
      le_antisymm (Nat.sub_eq_zero_iff_le.1 (Nat.lt_one_iff.1 hlt)) (Nat.not_lt.1 hid)
    subst hend
    simp only [Nat.sub_self, List.getElem_cons_zero] at hm
    exact .inr ⟨rfl, hm.symm⟩

theorem wellFormed_push (hwf : pool.WellFormed) (hadmits : pool.Admits n) :
    (pool.push n).WellFormed := by
  have hext := extends_push pool n
  constructor
  · intro id m hm hbinary
    rcases getElem?_push hm with hm | ⟨rfl, rfl⟩
    · exact hwf.before id m hm hbinary
    · exact hadmits.before hbinary
  · intro id m hm hop
    have hfactor : ∃ f, pool.exprs[m.lhs]? = some f ∧ (f.op = .const ∨ f.op = .param) := by
      rcases getElem?_push hm with hm | ⟨rfl, rfl⟩
      · exact hwf.factor id m hm hop
      · exact hadmits.factor hop
    obtain ⟨f, hf, hkind⟩ := hfactor
    exact ⟨f, hext _ f hf, hkind⟩
  · intro id m hm hop
    have hdivisor : ∃ d, pool.exprs[m.rhs]? = some d ∧
        (d.op = .const ∧ 0 < d.value.toInt ∨ d.op = .param) := by
      rcases getElem?_push hm with hm | ⟨rfl, rfl⟩
      · exact hwf.divisor id m hm hop
      · exact hadmits.divisor hop
    obtain ⟨d, hd, hkind⟩ := hdivisor
    exact ⟨d, hext _ d hd, hkind⟩
  · intro m id hm
    have hfound : lookup m ((n, pool.exprs.length) :: pool.interned) = some id := hm
    rw [lookup_cons] at hfound
    split at hfound
    · next heq =>
      obtain rfl := eq_of_beq heq
      obtain rfl := some.inj hfound
      exact getElem?_concat_length ..
    · exact hext id m (hwf.interned m id hfound)

/-- Interning an entry gives an id of what the entry stands for. -/
theorem simulates_intern (hwf : pool.WellFormed) (hadmits : pool.Admits n)
    (h : ∀ (id : Nat) (pool' : ExprPool), pool.Extends pool' → pool'.exprs[id]? = some n →
      pool'.Denotes id e) : pool.Simulates (intern n) (.ok e) := by
  unfold Simulates intern
  rw [run_bind (show (get : PoolM ExprPool) pool = .ok pool pool from rfl)]
  cases hfound : pool.interned.lookup n with
  | some id => exact ⟨hwf, .refl pool, e, rfl, h id pool (.refl pool) (hwf.interned n id hfound)⟩
  | none =>
    have hlast : (pool.push n).exprs[pool.exprs.length]? = some n := getElem?_concat_length ..
    have hext := extends_push pool n
    exact ⟨wellFormed_push hwf hadmits, hext, e, rfl, h _ _ hext hlast⟩

theorem simulates_constant (hwf : pool.WellFormed) (v : Int64) :
    pool.Simulates (constant v) (.ok (.const v)) :=
  simulates_intern hwf ⟨nofun, nofun, nofun⟩ fun _ _ _ hn => ⟨_, hn, rfl, rfl⟩

theorem toNat_ofNat_position (position : UInt32) :
    (Int64.ofNat position.toNat).toUInt64.toNat = position.toNat := by
  have hlt : position.toNat < 2 ^ 32 := position.toNat_lt
  show (UInt64.ofNat position.toNat).toNat = _
  exact UInt64.toNat_ofNat_of_lt' (show position.toNat < 2 ^ 64 by omega)

theorem simulates_dim (hwf : pool.WellFormed) (position : UInt32) :
    pool.Simulates (dim position) (.ok (.dim position.toNat)) :=
  simulates_intern hwf ⟨nofun, nofun, nofun⟩ fun _ _ _ hn =>
    ⟨_, hn, rfl, toNat_ofNat_position position⟩

theorem simulates_param (hwf : pool.WellFormed) (position : UInt32) :
    pool.Simulates (param position) (.ok (.param position.toNat)) :=
  simulates_intern hwf ⟨nofun, nofun, nofun⟩ fun _ _ _ hn =>
    ⟨_, hn, rfl, toNat_ofNat_position position⟩

theorem simulates_internAdd (hwf : pool.WellFormed) (hl : pool.Denotes l tl)
    (hr : pool.Denotes r tr) :
    pool.Simulates (intern { op := .add, lhs := l, rhs := r }) (.ok (.add tl tr)) := by
  apply simulates_intern hwf
  · exact ⟨fun _ => ⟨lt_length hl, lt_length hr⟩, nofun, nofun⟩
  · intro id pool' hext hn
    exact ⟨_, hn, rfl, hl.mono hext, hr.mono hext⟩

/-- What stands on the left of a product. -/
def Factor : Expr → Prop
  | .const _ | .param _ => True
  | _ => False

theorem Denotes.factor (h : pool.Denotes id e) (hn : pool.exprs[id]? = some n) :
    Factor e ↔ n.op = .const ∨ n.op = .param := by
  cases e <;> obtain ⟨n', hn', hop, -⟩ := h <;>
    obtain rfl := some.inj (hn.symm.trans hn') <;> rw [hop] <;> simp [Factor]

theorem simulates_internMul (hwf : pool.WellFormed) (hl : pool.Denotes l tl)
    (hr : pool.Denotes r tr) (hfactor : Factor tl) :
    pool.Simulates (intern { op := .mul, lhs := l, rhs := r }) (.ok (.mul tl tr)) := by
  apply simulates_intern hwf
  · obtain ⟨f, hf⟩ := hl.node
    exact ⟨fun _ => ⟨lt_length hl, lt_length hr⟩, fun _ => ⟨f, hf, (hl.factor hf).1 hfactor⟩, nofun⟩
  · intro id pool' hext hn
    exact ⟨_, hn, rfl, hl.mono hext, hr.mono hext⟩

/-! ## Sums -/

def height : Expr → Nat
  | .const _ | .dim _ | .param _ => 0
  | .add l r | .mul l r | .floorDiv l r | .mod l r => max (height l) (height r) + 1

theorem Denotes.height_le (hwf : pool.WellFormed) (h : pool.Denotes id e) : height e ≤ id := by
  induction e generalizing id with
  | const _ | dim _ | param _ => exact Nat.zero_le _
  | add l r ihl ihr | mul l r ihl ihr | floorDiv l r ihl ihr | mod l r ihl ihr =>
    obtain ⟨n, hn, hop, hl, hr⟩ := h
    have hbefore := hwf.before id n hn (by rw [hop]; rfl)
    have hleft := ihl hl
    have hright := ihr hr
    unfold height
    omega

/-- The constant that a sum has on the right. -/
def addendOf : Expr → Option Int64
  | .add _ y => constantOf y
  | _ => none

theorem run_addend (h : pool.Denotes id e) (hn : pool.exprs[id]? = some n) :
    addend n pool = .ok (addendOf e) pool := by
  unfold addend
  cases e with
  | add x y =>
    obtain ⟨n', hn', hop, -, hy⟩ := h
    obtain rfl := some.inj (hn.symm.trans hn')
    rw [if_pos hop]
    exact run_constantValue hy
  | const _ | dim _ | param _ | mul _ _ | floorDiv _ _ | mod _ _ =>
    obtain ⟨n', hn', hop, -⟩ := h
    obtain rfl := some.inj (hn.symm.trans hn')
    rw [hop]
    rfl

variable {c : Int64}

theorem constantOf_eq_some (h : constantOf e = some c) : e = .const c := by
  cases e <;> cases h
  rfl

/-- A constant on the right is added as `addConst` does. -/
theorem mkAdd_const_right (x : Expr) (c : Int64) : Expr.mkAdd x (.const c) = Expr.addConst c x := by
  cases x <;> rfl

theorem addConst_plain (hconst : constantOf e = none) (hadd : addendOf e = none)
    (hc : c ≠ 0) : Expr.addConst c e = .ok (.add e (.const c)) := by
  cases e with
  | const v => cases hconst
  | add x y =>
    cases y with
    | const v => cases hadd
    | _ => exact if_neg hc
  | _ => exact if_neg hc

/-- The end of a sum is `addConst`, where the calls it makes are. -/
theorem joinConstant_simulates {again : ExprId → ExprId → PoolM ExprId}
    (hwf : pool.WellFormed) (hl : pool.Denotes l tl) (hr : pool.Denotes r (.const c))
    (hconst : constantOf tl = none) (hc : c ≠ 0)
    (hagain : ∀ (pool' : ExprPool) (id right : Nat) (x : Expr) (s : Int64),
      pool'.WellFormed → pool'.Denotes id x → pool'.Denotes right (.const s) →
      height x < height tl → pool'.Simulates (again id right) (Expr.mkAdd x (.const s))) :
    pool.Simulates (joinConstant again l r c) (Expr.addConst c tl) := by
  obtain ⟨n, hn⟩ := hl.node
  unfold joinConstant
  apply Simulates.after (run_node hn)
  apply Simulates.after (run_addend hl hn)
  cases hadd : addendOf tl with
  | none =>
    rw [addConst_plain hconst hadd hc]
    exact simulates_internAdd hwf hl hr
  | some c1 =>
    cases tl with
    | add x y =>
      obtain rfl := constantOf_eq_some hadd
      obtain ⟨n', hn', -, hx, -⟩ := hl
      obtain rfl := some.inj (hn.symm.trans hn')
      rw [Expr.addConst, if_neg hc]
      apply simulates_checked hwf
      intro sum _
      -- the constant is interned first, the sum after it
      apply (simulates_constant hwf sum).bind (g := fun _ => Expr.addConst sum x)
      intro right pool' e hwf' hext hright he
      obtain rfl := Except.ok.inj he
      have hlower : height x < height (.add x (.const c1)) :=
        Nat.lt_succ_of_le (le_max_left _ _)
      rw [← mkAdd_const_right]
      exact hagain pool' n.lhs right x sum hwf' (hx.mono hext) hright hlower
    | _ => cases hadd

variable {fuel : Nat}

theorem addWithin_simulates (hwf : pool.WellFormed) (hl : pool.Denotes l tl)
    (hr : pool.Denotes r tr) (hfuel : max (height tl) (height tr) < fuel) :
    pool.Simulates (addWithin fuel l r) (Expr.mkAdd tl tr) := by
  induction fuel generalizing pool l r tl tr with
  | zero => exact absurd hfuel (Nat.not_lt_zero _)
  | succ fuel ih =>
    have hagain : ∀ {x : Expr}, height x ≤ fuel → ∀ (pool' : ExprPool) (id right : Nat)
        (y : Expr) (s : Int64), pool'.WellFormed → pool'.Denotes id y →
        pool'.Denotes right (.const s) → height y < height x →
        pool'.Simulates (addWithin fuel id right) (Expr.mkAdd y (.const s)) := by
      intro x hx pool' id right y s hwf' hid hright hlower
      exact ih hwf' hid hright (show max (height y) 0 < fuel by omega)
    unfold addWithin
    apply Simulates.after (run_constantValue hl)
    apply Simulates.after (run_constantValue hr)
    cases hcl : constantOf tl with
    | some a =>
      obtain rfl := constantOf_eq_some hcl
      cases hcr : constantOf tr with
      | some b =>
        obtain rfl := constantOf_eq_some hcr
        apply simulates_checked hwf
        exact fun sum _ => simulates_constant hwf sum
      | none =>
        have hmk : Expr.mkAdd (.const a) tr = if a = 0 then .ok tr else Expr.addConst a tr := by
          cases tr <;> first | rfl | cases hcr
        rw [hmk]
        dsimp only
        split
        · exact simulates_pure hwf hr
        · next ha => exact joinConstant_simulates hwf hr hl hcr ha (hagain (by omega))
    | none =>
      cases hcr : constantOf tr with
      | some b =>
        obtain rfl := constantOf_eq_some hcr
        rw [mkAdd_const_right]
        dsimp only
        split
        · next hb =>
          have hzero : Expr.addConst b tl = .ok tl := by
            subst hb
            cases tl with
            | const v => cases hcl
            | add x y => cases y <;> rfl
            | _ => rfl
          rw [hzero]
          exact simulates_pure hwf hl
        · next hb => exact joinConstant_simulates hwf hl hr hcl hb (hagain (by omega))
      | none =>
        have hmk : Expr.mkAdd tl tr = .ok (.add tl tr) := by
          cases tl with
          | const v => cases hcl
          | _ =>
            cases tr with
            | const v => cases hcr
            | _ => rfl
        rw [hmk]
        exact simulates_internAdd hwf hl hr

theorem add_simulates (hwf : pool.WellFormed) (hl : pool.Denotes l tl) (hr : pool.Denotes r tr) :
    pool.Simulates (add l r) (Expr.mkAdd tl tr) := by
  have hleft := hl.height_le hwf
  have hright := hr.height_le hwf
  have hlt := lt_length hl
  have hlt' := lt_length hr
  unfold add
  apply Simulates.after (show (get : PoolM ExprPool) pool = .ok pool pool from rfl)
  exact addWithin_simulates hwf hl hr (by omega)

/-! ## Products -/

/-- The constant that a product has on the left. -/
def coefficientOf : Expr → Option Int64
  | .mul x _ => constantOf x
  | _ => none

theorem run_coefficient (h : pool.Denotes id e) (hn : pool.exprs[id]? = some n) :
    coefficient n pool = .ok (coefficientOf e) pool := by
  unfold coefficient
  cases e with
  | mul x y =>
    obtain ⟨n', hn', hop, hx, -⟩ := h
    obtain rfl := some.inj (hn.symm.trans hn')
    rw [if_pos hop]
    exact run_constantValue hx
  | const _ | dim _ | param _ | add _ _ | floorDiv _ _ | mod _ _ =>
    obtain ⟨n', hn', hop, -⟩ := h
    obtain rfl := some.inj (hn.symm.trans hn')
    rw [hop]
    rfl

theorem mkScale_plain (hconst : constantOf e = none) (hmul : coefficientOf e = none)
    (h0 : c ≠ 0) (h1 : c ≠ 1) : Expr.mkScale c e = .ok (.mul (.const c) e) := by
  have hif : (if c = 0 then (.ok (.const 0) : Except BuildError Expr)
      else if c = 1 then .ok e else .ok (.mul (.const c) e)) = .ok (.mul (.const c) e) := by
    rw [if_neg h0, if_neg h1]
  cases e with
  | const v => cases hconst
  | mul x y =>
    cases x with
    | const v => cases hmul
    | _ => exact hif
  | _ => exact hif

theorem mkScale_zero (hconst : constantOf e = none) : Expr.mkScale 0 e = .ok (.const 0) := by
  cases e with
  | const v => cases hconst
  | mul x y => cases x <;> rfl
  | _ => rfl

theorem mkScale_one (hconst : constantOf e = none) : Expr.mkScale 1 e = .ok e := by
  cases e with
  | const v => cases hconst
  | mul x y => cases x <;> rfl
  | _ => rfl

/-- The end of a product is `mkScale`, where the calls it makes are. -/
theorem joinFactor_simulates {again : ExprId → ExprId → PoolM ExprId}
    (hwf : pool.WellFormed) (hl : pool.Denotes l (.const c)) (hr : pool.Denotes r tr)
    (hconst : constantOf tr = none) (h0 : c ≠ 0) (h1 : c ≠ 1)
    (hagain : ∀ (pool' : ExprPool) (left id : Nat) (x : Expr) (s : Int64),
      pool'.WellFormed → pool'.Denotes left (.const s) → pool'.Denotes id x →
      height x < height tr → pool'.Simulates (again left id) (Expr.mkScale s x)) :
    pool.Simulates (joinFactor again l r c) (Expr.mkScale c tr) := by
  obtain ⟨n, hn⟩ := hr.node
  unfold joinFactor
  apply Simulates.after (run_node hn)
  apply Simulates.after (run_coefficient hr hn)
  cases hmul : coefficientOf tr with
  | none =>
    rw [mkScale_plain hconst hmul h0 h1]
    exact simulates_internMul hwf hl hr trivial
  | some c2 =>
    cases tr with
    | mul x y =>
      obtain rfl := constantOf_eq_some hmul
      obtain ⟨n', hn', -, -, hy⟩ := hr
      obtain rfl := some.inj (hn.symm.trans hn')
      rw [Expr.mkScale, if_neg h0, if_neg h1]
      apply simulates_checked hwf
      intro product _
      apply (simulates_constant hwf product).bind (g := fun _ => Expr.mkScale product y)
      intro left pool' e hwf' hext hleft he
      obtain rfl := Except.ok.inj he
      have hlower : height y < height (.mul (.const c2) y) :=
        Nat.lt_succ_of_le (le_max_right _ _)
      exact hagain pool' left n.rhs y product hwf' hleft (hy.mono hext) hlower
    | _ => cases hmul

theorem run_factor (h : pool.Denotes id e) (hn : pool.exprs[id]? = some n) :
    (n.op ≠ .const ∧ n.op ≠ .param) ↔ ¬Factor e := by
  rw [h.factor hn, not_or]

section
variable (hwf : pool.WellFormed)
include hwf

/-- A constant factor. -/
theorem mulWithin_const
    (hl : pool.Denotes l (.const c)) (hr : pool.Denotes r tr) (hfuel : height tr < fuel) :
    pool.Simulates (mulWithin fuel l r) (Expr.mkScale c tr) := by
  induction fuel generalizing pool l r tr c with
  | zero => exact absurd hfuel (Nat.not_lt_zero _)
  | succ fuel ih =>
    obtain ⟨f, hf⟩ := hl.node
    unfold mulWithin
    apply Simulates.after (run_node hf)
    rw [if_neg (fun h => (run_factor hl hf).1 h trivial)]
    apply Simulates.after (run_constantValue hl)
    apply Simulates.after (run_constantValue hr)
    cases hcr : constantOf tr with
    | some v =>
      obtain rfl := constantOf_eq_some hcr
      apply simulates_checked hwf
      exact fun product _ => simulates_constant hwf product
    | none =>
      unfold constantOf
      dsimp only
      split
      · next h0 =>
        rw [h0, mkScale_zero hcr]
        exact simulates_constant hwf 0
      · next h0 =>
        split
        · next h1 =>
          rw [h1, mkScale_one hcr]
          exact simulates_pure hwf hr
        · next h1 =>
          apply joinFactor_simulates hwf hl hr hcr h0 h1
          intro pool' left id x s hwf' hleft hid hlower
          exact ih hwf' hleft hid (by omega)

/-- A parameter as the factor. -/
theorem mulWithin_param {p : Nat} (hl : pool.Denotes l (.param p))
    (hr : pool.Denotes r tr) (hfuel : 1 < fuel) :
    pool.Simulates (mulWithin fuel l r) (Expr.scaleByParam p tr) := by
  cases fuel with
  | zero => exact absurd hfuel (Nat.not_lt_zero _)
  | succ fuel =>
    obtain ⟨f, hf⟩ := hl.node
    unfold mulWithin
    apply Simulates.after (run_node hf)
    rw [if_neg (fun h => (run_factor hl hf).1 h trivial)]
    apply Simulates.after (run_constantValue hl)
    apply Simulates.after (run_constantValue hr)
    cases hcr : constantOf tr with
    | some v =>
      obtain rfl := constantOf_eq_some hcr
      unfold Expr.scaleByParam constantOf
      dsimp only
      split
      · exact simulates_constant hwf 0
      · -- the constant takes the parameter's place
        exact mulWithin_const hwf hr hl (show 0 < fuel by omega)
    | none =>
      have hmk : Expr.scaleByParam p tr = .ok (.mul (.param p) tr) := by
        cases tr with
        | const v => cases hcr
        | _ => rfl
      rw [hmk]
      exact simulates_internMul hwf hl hr trivial

theorem mulWithin_simulates (hl : pool.Denotes l tl)
    (hr : pool.Denotes r tr) (hfuel : max (height tl) (height tr) + 2 < fuel) :
    pool.Simulates (mulWithin fuel l r) (Expr.mkMul tl tr) := by
  by_cases hfactor : Factor tl
  · cases tl with
    | const c => exact mulWithin_const hwf hl hr (by omega)
    | param p => exact mulWithin_param hwf hl hr (by omega)
    | _ => cases hfactor
  · cases fuel with
    | zero => exact absurd hfuel (Nat.not_lt_zero _)
    | succ fuel =>
      obtain ⟨f, hf⟩ := hl.node
      obtain ⟨n, hn⟩ := hr.node
      unfold mulWithin
      apply Simulates.after (run_node hf)
      rw [if_pos ((run_factor hl hf).2 hfactor)]
      apply Simulates.after (run_node hn)
      by_cases hright : Factor tr
      · rw [if_pos ((hr.factor hn).1 hright)]
        cases tr with
        | const v =>
          have hmk : Expr.mkMul tl (.const v) = Expr.mkScale v tl := by
            cases tl <;> first | rfl | exact absurd trivial hfactor
          rw [hmk]
          exact mulWithin_const hwf hr hl (by omega)
        | param p =>
          have hmk : Expr.mkMul tl (.param p) = Expr.scaleByParam p tl := by
            cases tl <;> first | rfl | exact absurd trivial hfactor
          rw [hmk]
          exact mulWithin_param hwf hr hl (by omega)
        | _ => cases hright
      · rw [if_neg (fun h => hright ((hr.factor hn).2 h))]
        have hmk : Expr.mkMul tl tr = .error (.invalid
            "a product of two expressions that are not constants or parameters is not quasi-affine") := by
          cases tl with
          | const v => exact absurd trivial hfactor
          | param p => exact absurd trivial hfactor
          | _ =>
            cases tr with
            | const v => exact absurd trivial hright
            | param p => exact absurd trivial hright
            | _ => rfl
        rw [hmk]
        exact simulates_throw hwf _

theorem mul_simulates (hl : pool.Denotes l tl) (hr : pool.Denotes r tr) :
    pool.Simulates (mul l r) (Expr.mkMul tl tr) := by
  have hleft := hl.height_le hwf
  have hright := hr.height_le hwf
  have hlt := lt_length hl
  have hlt' := lt_length hr
  unfold mul
  apply Simulates.after (show (get : PoolM ExprPool) pool = .ok pool pool from rfl)
  exact mulWithin_simulates hwf hl hr (by omega)

theorem scale_simulates (c : Int64) (h : pool.Denotes id e) :
    pool.Simulates (scale c id) (Expr.mkScale c e) := by
  unfold scale
  apply (simulates_constant hwf c).bind (g := fun _ => Expr.mkScale c e)
  intro factor pool' e' hwf' hext hfactor he
  obtain rfl := Except.ok.inj he
  exact mul_simulates hwf' hfactor (h.mono hext)

theorem sub_simulates (hl : pool.Denotes l tl) (hr : pool.Denotes r tr) :
    pool.Simulates (sub l r) (Expr.mkSub tl tr) := by
  unfold sub Expr.mkSub
  apply (scale_simulates hwf (-1) hr).bind
  intro negated pool' e hwf' hext hnegated _
  exact add_simulates hwf' (hl.mono hext) hnegated

end

/-! ## Quotients and Remainders -/

theorem run_requireDivisor (h : pool.Denotes id e) :
    requireDivisor id pool = match Expr.requireDivisor e with
      | .ok _ => .ok ⟨⟩ pool
      | .error err => .error err pool := by
  obtain ⟨n, hn⟩ := h.node
  unfold requireDivisor
  rw [run_bind (run_node hn)]
  cases e with
  | const v =>
    obtain ⟨n', hn', hop, rfl⟩ := h
    obtain rfl := some.inj (hn.symm.trans hn')
    by_cases hv : n.value ≤ 0
    · have hrefused : Expr.requireDivisor (.const n.value) = .error (.invalid
          "a floordiv or mod divides by a positive constant or by a parameter") := if_pos hv
      rw [if_pos (.inl ⟨hop, hv⟩), hrefused]
      rfl
    · have haccepted : Expr.requireDivisor (.const n.value) = .ok () := if_neg hv
      rw [if_neg (by simp [hop, hv]), haccepted]
      rfl
  | dim _ | param _ | add _ _ | mul _ _ | floorDiv _ _ | mod _ _ =>
    obtain ⟨n', hn', hop, -⟩ := h
    obtain rfl := some.inj (hn.symm.trans hn')
    simp only [hop]
    rfl

/-- The entry of a quotient or remainder whose divisor is accepted. -/
theorem admits_divide {op : ExprOp} (hop : op = .floorDiv ∨ op = .mod) (hl : pool.Denotes l tl)
    (hr : pool.Denotes r tr) (hdivisor : Expr.requireDivisor tr = .ok ()) :
    pool.Admits { op := op, lhs := l, rhs := r } := by
  refine ⟨fun _ => ⟨lt_length hl, lt_length hr⟩, fun h => ?_, fun _ => ?_⟩
  · have h : op = .mul := h
    rcases hop with rfl | rfl <;> cases h
  · rcases Expr.requireDivisor_ok hdivisor with ⟨d, rfl, hd⟩ | ⟨p, rfl⟩
    · obtain ⟨n, hn, hconst, hvalue⟩ := hr
      exact ⟨n, hn, .inl ⟨hconst, hvalue ▸ hd⟩⟩
    · obtain ⟨n, hn, hparam, -⟩ := hr
      exact ⟨n, hn, .inr hparam⟩

section
variable (hwf : pool.WellFormed) (hl : pool.Denotes l tl) (hr : pool.Denotes r tr)
include hwf hl hr

/-- `divide` does what the builder of trees does that has the same answer for one. -/
theorem divide_simulates {op : ExprOp} (hop : op = .floorDiv ∨ op = .mod)
    {byOne : ExprId → PoolM ExprId} {one : Expr} {fold : Int64 → Int64 → Int64}
    {node : Expr → Expr → Expr} (hone : pool.Simulates (byOne l) (.ok one))
    (hnode : ∀ (id : Nat) (pool' : ExprPool), pool.Extends pool' →
      pool'.exprs[id]? = some { op := op, lhs := l, rhs := r } → pool'.Denotes id (node tl tr)) :
    pool.Simulates (divide op byOne fold l r)
      ((Expr.requireDivisor tr).map fun _ => Expr.divideExpr one fold node tl tr) := by
  have hrun := run_requireDivisor hr
  unfold divide
  cases hdivisor : Expr.requireDivisor tr with
  | error err =>
    rw [hdivisor] at hrun
    unfold Simulates
    rw [run_bind_error hrun]
    exact ⟨hwf, .refl pool, rfl⟩
  | ok u =>
    rw [hdivisor] at hrun
    apply Simulates.after hrun
    apply Simulates.after (run_constantValue hl)
    apply Simulates.after (run_constantValue hr)
    simp only [Except.map, Expr.divideExpr]
    have hplain := simulates_intern hwf (admits_divide hop hl hr hdivisor) hnode
    by_cases h1 : constantOf tr = some 1
    · rw [if_pos h1, if_pos (constantOf_eq_some h1)]
      exact hone
    · have hne : tr ≠ .const 1 := fun h => h1 (h ▸ rfl)
      rw [if_neg h1, if_neg hne]
      cases tl with
      | const a =>
        cases tr with
        | const d => exact simulates_constant hwf _
        | _ => exact hplain
      | _ => exact hplain

theorem floorDiv_simulates : pool.Simulates (floorDiv l r) (Expr.mkFloorDiv tl tr) := by
  rw [Expr.mkFloorDiv_eq]
  apply divide_simulates hwf hl hr (.inl rfl) (simulates_pure hwf hl)
  exact fun id pool' hext hn => ⟨_, hn, rfl, hl.mono hext, hr.mono hext⟩

theorem mod_simulates : pool.Simulates (mod l r) (Expr.mkMod tl tr) := by
  rw [Expr.mkMod_eq]
  apply divide_simulates hwf hl hr (.inr rfl) (simulates_constant hwf 0)
  exact fun id pool' hext hn => ⟨_, hn, rfl, hl.mono hext, hr.mono hext⟩

end

end Camel.Index.ExprPool
