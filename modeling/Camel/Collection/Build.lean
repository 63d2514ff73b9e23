import Camel.Collection.Remove

/-! # Building a tree bottom-up

    The entries, and then each level of tables, are cut into the fewest groups
    of equal share.  For more items than one table holds, every share is
    between half a table and a whole one, so each level is full enough to stand
    below the next. -/

set_option linter.unusedSectionVars false

namespace Camel.Collection

open SortedEntries List

/-! ## Equal shares -/

section shares
variable {n cap : Nat}

theorem groups_one (h : n ≤ cap) : Shares.groups n cap = 1 := by
  simp [Shares.groups, h]

/-- The fewest groups: `groups` tables hold the items, one fewer does not. -/
theorem groups_bounds (hcap : 0 < cap) (h : cap < n) :
    n ≤ Shares.groups n cap * cap ∧ (Shares.groups n cap - 1) * cap < n ∧
      2 ≤ Shares.groups n cap := by
  have hdiv : cap * (n / cap) + n % cap = n := Nat.div_add_mod n cap
  have hmod : n % cap < cap := Nat.mod_lt n hcap
  have hq : 1 ≤ n / cap := (Nat.one_le_div_iff hcap).mpr h.le
  have hcomm : cap * (n / cap) = n / cap * cap := mul_comm _ _
  unfold Shares.groups
  rw [if_neg (by omega)]
  by_cases hr : n % cap = 0
  · simp only [hr, ne_eq, not_true_eq_false, if_false, add_zero]
    have h2 : 2 ≤ n / cap := by
      by_contra hlt
      have h1 : n / cap = 1 := by omega
      rw [h1] at hdiv
      omega
    refine ⟨by omega, ?_, h2⟩
    have hsplit : (n / cap - 1) * cap + cap = n / cap * cap := by
      rw [← Nat.succ_mul]
      congr 1
      omega
    omega
  · simp only [hr, ne_eq, not_false_eq_true, if_true]
    refine ⟨?_, ?_, by omega⟩
    · rw [add_mul, one_mul]
      omega
    · rw [Nat.add_sub_cancel]
      omega

theorem groups_pos (hcap : 0 < cap) : 0 < Shares.groups n cap := by
  by_cases h : n ≤ cap
  · rw [groups_one h]
    omega
  · have := (groups_bounds hcap (by omega : cap < n)).2.2
    omega

theorem bound_zero (g : Nat) : Shares.bound n g 0 = 0 := by simp [Shares.bound]

theorem bound_last {g : Nat} (hg : 0 < g) : Shares.bound n g g = n :=
  Nat.mul_div_cancel_left n hg

theorem bound_mono (g i : Nat) : Shares.bound n g i ≤ Shares.bound n g (i + 1) := by
  unfold Shares.bound
  exact Nat.div_le_div_right (Nat.mul_le_mul_right n (Nat.le_succ i))

/-- Every share holds at most a table and at least half of one. -/
theorem share_bounds (hcap : 0 < cap) (h : cap < n) (i : Nat) :
    cap / 2 ≤ Shares.bound n (Shares.groups n cap) (i + 1) -
        Shares.bound n (Shares.groups n cap) i ∧
      Shares.bound n (Shares.groups n cap) (i + 1) -
        Shares.bound n (Shares.groups n cap) i ≤ cap := by
  obtain ⟨hle, hgt, htwo⟩ := groups_bounds hcap h
  generalize Shares.groups n cap = g at *
  have hg : 0 < g := by omega
  have hstep : Shares.bound n g (i + 1) = (i * n + n) / g := by
    simp only [Shares.bound, add_mul, one_mul]
  constructor
  · -- a whole share: `g * (cap / 2) ≤ n`
    have hhalf : g * (cap / 2) ≤ n := by
      obtain ⟨m, rfl⟩ : ∃ m, g = m + 2 := ⟨g - 2, by omega⟩
      have h1 : (m + 2 - 1) * cap = m * cap + cap := by
        rw [show m + 2 - 1 = m + 1 from rfl, add_mul, one_mul]
      have h2 : (m + 2) * (cap / 2) = m * (cap / 2) + 2 * (cap / 2) := add_mul _ _ _
      have h3 : m * (cap / 2) ≤ m * cap := Nat.mul_le_mul_left m (Nat.div_le_self _ _)
      have h4 : 2 * (cap / 2) ≤ cap := Nat.mul_div_le cap 2
      omega
    have hadd : i * n / g + n / g ≤ (i * n + n) / g := Nat.div_add_div_le_add_div
    have hdiv : cap / 2 ≤ n / g := (Nat.le_div_iff_mul_le hg).mpr (by
      rw [mul_comm]
      exact hhalf)
    rw [hstep]
    show cap / 2 ≤ (i * n + n) / g - i * n / g
    omega
  · have hmax : (i * n + n) / g ≤ (i * n + g * cap) / g :=
      Nat.div_le_div_right (Nat.add_le_add_left hle _)
    rw [Nat.add_mul_div_left _ _ hg] at hmax
    rw [hstep]
    show (i * n + n) / g - i * n / g ≤ cap
    omega

end shares

variable {α : Type} (l : List α)

/-- Consecutive slices put back together. -/
theorem flatten_slices (b : Nat → Nat) (h0 : b 0 = 0)
    (hmono : ∀ i, b i ≤ b (i + 1)) (m : Nat) :
    ((List.range m).map fun g => (l.drop (b g)).take (b (g + 1) - b g)).flatten = l.take (b m) := by
  induction m with
  | zero => simp [h0]
  | succ m ih =>
    rw [range_succ, map_append, flatten_append, ih]
    simp only [map_cons, map_nil, flatten_cons, flatten_nil, append_nil]
    have hsplit : b (m + 1) = b m + (b (m + 1) - b m) := by
      have := hmono m
      omega
    conv => rhs; rw [hsplit, take_add]

theorem cut_flatten {cap : Nat} (hcap : 0 < cap) :
    (Shares.cut l cap).flatten = l := by
  unfold Shares.cut
  rw [flatten_slices l _ (bound_zero _) (bound_mono _), bound_last (groups_pos hcap),
    take_length]

theorem cut_length (cap : Nat) :
    (Shares.cut l cap).length = Shares.groups l.length cap := by
  simp [Shares.cut]

/-- The parts of a list too long for one table. -/
theorem cut_part {l : List α} {cap : Nat} (hcap : 0 < cap) (h : cap < l.length)
    {part : List α} (hp : part ∈ Shares.cut l cap) :
    cap / 2 ≤ part.length ∧ part.length ≤ cap ∧ part.Sublist l := by
  unfold Shares.cut at hp
  obtain ⟨g, hg, rfl⟩ := mem_map.mp hp
  rw [mem_range] at hg
  obtain ⟨h1, h2⟩ := share_bounds hcap h g
  have hlast : Shares.bound l.length (Shares.groups l.length cap) (g + 1) ≤ l.length := by
    unfold Shares.bound
    have hpos := groups_pos (n := l.length) hcap
    calc (g + 1) * l.length / Shares.groups l.length cap
        ≤ Shares.groups l.length cap * l.length / Shares.groups l.length cap :=
          Nat.div_le_div_right (Nat.mul_le_mul_right _ hg)
      _ = l.length := Nat.mul_div_cancel_left _ hpos
  have hlen : ((l.drop (Shares.bound l.length (Shares.groups l.length cap) g)).take
      (Shares.bound l.length (Shares.groups l.length cap) (g + 1) -
        Shares.bound l.length (Shares.groups l.length cap) g)).length =
      Shares.bound l.length (Shares.groups l.length cap) (g + 1) -
        Shares.bound l.length (Shares.groups l.length cap) g := by
    rw [length_take, length_drop]
    omega
  rw [hlen]
  exact ⟨h1, h2, (take_sublist _ _).trans (drop_sublist _ _)⟩

/-- Two lists laid out alike are cut alike. -/
theorem cut_forall₂ {α β : Type} {R : α → β → Prop} {l : List α} {m : List β} (cap : Nat)
    (h : Forall₂ R l m) :
    Forall₂ (Forall₂ R) (Shares.cut l cap) (Shares.cut m cap) := by
  unfold Shares.cut
  rw [h.length_eq]
  rw [forall₂_map_left_iff, forall₂_map_right_iff]
  refine forall₂_same.mpr ?_
  intro g _
  exact forall₂_take _ (forall₂_drop _ h)

theorem flatMap_flatten {α β : Type} (f : α → List β) (ls : List (List α)) :
    ls.flatten.flatMap f = ls.flatMap (fun l => l.flatMap f) := by
  induction ls with
  | nil => rfl
  | cons l ls ih => simp [ih]

section build
variable {K V : Type} [LinearOrder K] [Inhabited V]
variable {s : Shape} {ty : CollectionType}

/-! ## One level -/

variable (s ty) in
theorem makeAll_leaves (parts : List (List (K × V))) (inTree : Bool)
    (hlt : ∀ p ∈ parts, p.length < countWidth) (hplain : ∀ p ∈ parts, Plain ty p) :
    ∀ h : Heap K V, ∃ h' as, makeAll (leafOf s ty inTree) parts h = .ok (h', as) ∧ h <+: h' ∧
      Forall₂ (Repr ty h' 0) parts as := by
  induction parts with
  | nil => exact fun h => ⟨h, [], rfl, prefix_rfl, .nil⟩
  | cons p parts ih =>
    intro h
    obtain ⟨h', as, heq, hp, has⟩ := ih (fun q hq => hlt q (by simp [hq]))
      (fun q hq => hplain q (by simp [hq])) (h ++ [Table.leaf ty p])
    refine ⟨h', h.length :: as, ?_, (prefix_append _ _).trans hp,
      .cons ((repr_leaf h (hlt p (by simp)) (hplain p (by simp))).mono hp) has⟩
    simp only [makeAll, leafOf_ok, bind, Except.bind, heq]

theorem makeAll_branches (hs : s.Ok) {n : Nat} {css : List (List (Tree (K × V) n))}
    (hne : ∀ cs ∈ css, cs ≠ []) (hfull : ∀ cs ∈ css, ∀ c ∈ cs, Full s ty n c)
    (hlt : ∀ cs ∈ css, (cs.flatMap (Tree.entries n)).length < countWidth) :
    ∀ {ass : List (List Addr)} (h : Heap K V),
      Forall₂ (Forall₂ (Repr ty h n)) css ass →
      ∃ h' as, makeAll (makeBranch s) ass h = .ok (h', as) ∧ h <+: h' ∧
        Forall₂ (Repr ty h' (n + 1)) css as := by
  induction css with
  | nil =>
    intro ass h hr
    cases hr
    exact ⟨h, [], rfl, prefix_rfl, .nil⟩
  | cons cs css ih =>
    intro ass h hr
    cases hr with
    | @cons _ as _ ass hcs hrest =>
      obtain ⟨h1, hmk, hp1, hr1⟩ := makeBranch_repr (s := s) hcs (hne cs (by simp))
        (fun c hc => (hfull cs (by simp) c hc).entries_ne_nil hs) (hlt cs (by simp))
      obtain ⟨h2, bs, heq, hp2, hbs⟩ := ih (fun c hc => hne c (by simp [hc]))
        (fun c hc => hfull c (by simp [hc])) (fun c hc => hlt c (by simp [hc])) h1
        (hrest.imp (fun _ _ hx => hx.imp (fun _ _ hy => hy.mono hp1)))
      refine ⟨h2, h.length :: bs, ?_, hp1.trans hp2, .cons (hr1.mono hp2) hbs⟩
      simp only [makeAll, hmk, bind, Except.bind, heq]

/-- A level of several tables, all full enough, under a single root. -/
theorem buildBranches_spec (hs : s.Ok) {es : List (K × V)} (hsort : Sorted es)
    (hlt : es.length < countWidth) :
    ∀ (fuel n : Nat) (cs : List (Tree (K × V) n)) (level : List Addr) (h : Heap K V),
      Forall₂ (Repr ty h n) cs level → 2 ≤ cs.length → (∀ c ∈ cs, Full s ty n c) →
      cs.flatMap (Tree.entries n) = es → cs.length ≤ fuel →
      ∃ h' a, buildBranches s fuel level h = .ok (h', a) ∧ h <+: h' ∧ Denotes s ty h' a es := by
  have hfan := hs.fanout
  intro fuel
  induction fuel with
  | zero =>
    intro n cs level h _ htwo _ _ hfuel
    omega
  | succ fuel ih =>
    intro n cs level h hr htwo hfull hes hfuel
    have hlen : cs.length = level.length := hr.length_eq
    obtain ⟨x, y, rest, rfl⟩ : ∃ x y rest, level = x :: y :: rest := by
      match level, hlen with
      | [], hlen => rw [hlen, length_nil] at htwo; omega
      | [_], hlen => rw [hlen, length_singleton] at htwo; omega
      | x :: y :: rest, _ => exact ⟨x, y, rest, rfl⟩
    have hflat : (Shares.cut cs s.fanout).flatten = cs := cut_flatten cs (by omega)
    have hmem : ∀ part ∈ Shares.cut cs s.fanout, ∀ c ∈ part, c ∈ cs := by
      intro part hpart c hc
      rw [← hflat]
      exact List.mem_flatten.mpr ⟨part, hpart, hc⟩
    have hsub : ∀ part ∈ Shares.cut cs s.fanout, part.Sublist cs := by
      intro part hpart
      rw [← hflat]
      exact sublist_flatten_of_mem hpart
    have hents : (Shares.cut cs s.fanout).flatMap (Tree.entries (n + 1)) = es := by
      rw [← hes]
      conv => rhs; rw [← hflat]
      exact (flatMap_flatten _ _).symm
    have hpos : ∀ part ∈ Shares.cut cs s.fanout, part ≠ [] := by
      intro part hpart
      by_cases hone : cs.length ≤ s.fanout
      · rw [Shares.cut, groups_one hone] at hpart
        have : part = cs := by simpa [Shares.bound] using hpart
        rw [this]
        exact length_pos_iff.mp (by omega)
      · have := (cut_part (by omega) (by omega) hpart).1
        exact length_pos_iff.mp (by omega)
    obtain ⟨h1, above, heq, hp1, habove⟩ := makeAll_branches hs hpos
      (fun part hpart c hc => hfull c (hmem part hpart c hc))
      (fun part hpart => by
        refine lt_of_le_of_lt ?_ hlt
        rw [← hes]
        exact (flatMap_sublist _ (hsub part hpart)).length_le)
      h (cut_forall₂ s.fanout hr)
    unfold buildBranches
    simp only [heq, bind, Except.bind]
    by_cases hone : cs.length ≤ s.fanout
    · -- one group: the root
      have hcut : Shares.cut cs s.fanout = [cs] := by
        rw [Shares.cut, groups_one hone]
        simp [Shares.bound]
      rw [hcut] at habove
      cases habove with
      | @cons _ a _ _ ha hnil =>
        cases hnil
        refine ⟨h1, a, by unfold buildBranches; rfl, hp1, n + 1, cs, ha,
          loose_succ.2 ⟨hone, hfull⟩, fun _ => htwo, ?_, ?_⟩
        · rw [Tree.entries_succ, hes]
          exact hsort
        · rw [Tree.entries_succ, hes]
    · have hgt : s.fanout < cs.length := by omega
      obtain ⟨-, hg2, hg3⟩ := groups_bounds (by omega) hgt
      have hshrink : Shares.groups cs.length s.fanout < cs.length := by
        have : (Shares.groups cs.length s.fanout - 1) * 2 ≤
            (Shares.groups cs.length s.fanout - 1) * s.fanout :=
          Nat.mul_le_mul_left _ (by omega)
        omega
      obtain ⟨h2, a, hb, hp2, hd⟩ := ih (n + 1) (Shares.cut cs s.fanout) above h1 habove
        (by rw [cut_length]; exact hg3)
        (by
          intro part hpart
          obtain ⟨hmin, hmax, -⟩ := cut_part (by omega) hgt hpart
          exact ⟨loose_succ.2 ⟨hmax, fun c hc => hfull c (hmem part hpart c hc)⟩, hmin⟩)
        hents (by rw [cut_length]; omega)
      exact ⟨h2, a, hb, hp1.trans hp2, hd⟩

/-! ## The whole tree -/

/-- Entries in strictly ascending order, made a collection. -/
theorem buildTree_spec (hs : s.Ok) {es : List (K × V)} (hsort : Sorted es) (hplain : Plain ty es)
    (hlt : es.length < countWidth) (h : Heap K V) :
    ∃ h' a, buildTree s ty es h = .ok (h', a) ∧ h <+: h' ∧ Denotes s ty h' a es := by
  have hcap := leafCapacity_ge hs ty
  unfold buildTree
  by_cases hfit : es.length ≤ leafCapacity s ty
  · simp only [if_pos hfit, leafOf_ok]
    exact ⟨_, _, rfl, prefix_append _ _, 0, es, repr_leaf h hlt hplain, hfit,
      fun h0 => absurd h0 (lt_irrefl 0), hsort, rfl⟩
  · have hgt : leafCapacity s ty < es.length := by omega
    simp only [if_neg hfit]
    obtain ⟨h1, leaves, heq, hp1, hleaves⟩ := makeAll_leaves s ty
      (Shares.cut es (leafCapacity s ty)) true
      (fun p hp => lt_of_le_of_lt (cut_part (by omega) hgt hp).2.2.length_le hlt)
      (fun p hp => hplain.sublist (cut_part (by omega) hgt hp).2.2) h
    have hglen : 2 ≤ (Shares.cut es (leafCapacity s ty)).length := by
      rw [cut_length]
      exact (groups_bounds (by omega) hgt).2.2
    obtain ⟨h2, a, hb, hp2, hd⟩ := buildBranches_spec hs hsort hlt leaves.length 0
      (Shares.cut es (leafCapacity s ty)) leaves h1 hleaves hglen
      (fun p hp => ⟨(cut_part (by omega) hgt hp).2.1, (cut_part (by omega) hgt hp).1⟩)
      (by
        have : ∀ l : List (List (K × V)), l.flatMap (Tree.entries 0) = l.flatten := by
          intro l
          induction l with
          | nil => rfl
          | cons x l ih => simp [flatMap_cons, ih]
        rw [this, cut_flatten es (by omega)])
      (by rw [hleaves.length_eq])
    refine ⟨h2, a, ?_, hp1.trans hp2, hd⟩
    simp only [heq, bind, Except.bind]
    exact hb

end build

end Camel.Collection
