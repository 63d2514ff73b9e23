import Camel.Collection.Denote

/-! # Insertion

    `insertInto` copies the path from the root to the leaf of the key.  The
    contract of one level is `GrownTo`: the table is the same one (nothing
    changed), or one new table at least as wide, or two new tables full enough
    to stand below a branch.  A table handed back as new is allocated after the
    call started, which is what the caller's comparison of addresses relies
    on. -/

set_option linter.unusedSectionVars false

namespace Camel.Collection

open SortedEntries List

variable {K V : Type} [LinearOrder K] [Inhabited V]
variable {s : Shape} {ty : CollectionType}

/-- What inserting below address `a` of heap `h` may hand back, `es` being the
    entries it must hold. -/
inductive GrownTo (s : Shape) (ty : CollectionType) (h h' : Heap K V) (n : Nat)
    (t : Tree (K × V) n) (a : Addr) (es : List (K × V)) : Grown → Prop where
  | same : Tree.entries n t = es → GrownTo s ty h h' n t a es { first := a, second := none }
  | one (x : Addr) (t' : Tree (K × V) n) : h.length ≤ x → Repr ty h' n t' x →
      Loose s ty n t' → Tree.width n t ≤ Tree.width n t' → Tree.entries n t' = es →
      GrownTo s ty h h' n t a es { first := x, second := none }
  | two (x y : Addr) (t₁ t₂ : Tree (K × V) n) : h.length ≤ x → Repr ty h' n t₁ x →
      Repr ty h' n t₂ y → Full s ty n t₁ → Full s ty n t₂ →
      Tree.entries n t₁ ++ Tree.entries n t₂ = es →
      GrownTo s ty h h' n t a es { first := x, second := some y }

/-! ## Leaves -/

/-- The leaf code asks for the key the way the search does. -/
theorem present_eq (t : Table K V) (key : K) :
    (decide (lowerBound t key < t.size) &&
      (t.keys[lowerBound t key]?).any (fun k => decide (compareKeys k key = 0))) =
      (findInLeaf t key).isSome := by
  simp only [findInLeaf]
  split
  · next hc => simp [hc.1, hc.2]
  · next hc => simpa using hc

theorem plain_insert {l r : List (K × V)} {key : K} {value : V}
    (hp : Plain ty (l ++ r)) (hv : ty.isMap = false → value = default) :
    Plain ty (l ++ (key, value) :: r) := by
  intro hm e he
  rcases mem_append.mp he with he | he
  · exact hp hm e (by simp [he])
  · rcases mem_cons.mp he with rfl | he
    · exact hv hm
    · exact hp hm e (by simp [he])

theorem Plain.sublist {a b : List (K × V)} (hb : Plain ty b) (h : a.Sublist b) : Plain ty a :=
  fun hm e he => hb hm e (h.subset he)

variable {h : Heap K V} {es : List (K × V)}

/-- Two leaves of equal share of one entry too many. -/
theorem full_halves (hs : s.Ok)
    (hlen : es.length = leafCapacity s ty + 1) :
    Full s ty 0 (es.take (es.length / 2)) ∧ Full s ty 0 (es.drop (es.length / 2)) := by
  have hcap := leafCapacity_ge hs ty
  have h1 : (es.take (es.length / 2)).length = es.length / 2 := by
    rw [length_take]; omega
  have h2 : (es.drop (es.length / 2)).length = es.length - es.length / 2 := length_drop
  refine ⟨⟨?_, ?_⟩, ⟨?_, ?_⟩⟩
  · show (es.take (es.length / 2)).length ≤ leafCapacity s ty
    omega
  · show leafCapacity s ty / 2 ≤ (es.take (es.length / 2)).length
    omega
  · show (es.drop (es.length / 2)).length ≤ leafCapacity s ty
    omega
  · show leafCapacity s ty / 2 ≤ (es.drop (es.length / 2)).length
    omega

theorem insertIntoLeaf_spec (hs : s.Ok) {a : Addr}
    (key : K) (value : V) (inTree : Bool) (hr : Repr ty h 0 es a) (hl : Loose s ty 0 es)
    (hsort : Sorted es) (hv : ty.isMap = false → value = default)
    (hlt : (insertEntry key value es).length < countWidth) :
    ∃ h' g, insertIntoLeaf s ty a (Table.leaf ty es) key value inTree h = .ok (h', g) ∧
      h <+: h' ∧ GrownTo s ty h h' 0 es a (insertEntry key value es) g := by
  obtain ⟨hget, hbound, hplain⟩ := hr
  have hsize : (Table.leaf ty es).size = es.length := Nat.mod_eq_of_lt hbound
  have hent : (Table.leaf ty es).entries ty = es := entries_leaf hbound hplain
  have hloose : es.length ≤ leafCapacity s ty := hl
  unfold insertIntoLeaf
  simp only [present_eq]
  simp only [hsize, hent]
  rcases leaf_search ty key hsort hbound with
    ⟨l, v, r, rfl, hlb, hfind, hbelow, habove⟩ | ⟨l, r, rfl, hlb, hfind, hbelow, habove⟩
  · -- the key is there
    have hnew : insertEntry key value (l ++ (key, v) :: r) = l ++ (key, value) :: r := by
      have := insertEntry_cut (m := [(key, v)]) key value hbelow habove
      simpa [insertEntry] using this
    have hkey : (Table.leaf ty (l ++ (key, v) :: r)).keys[l.length]? = some key := by
      simp [Table.leaf]
    rw [hnew] at hlt ⊢
    simp only [hfind, hlb, hkey, leafOf_ok]
    cases hm : ty.isMap with
    | false =>
      refine ⟨h, _, by simp, prefix_rfl, .same ?_⟩
      have hv0 : v = default := hplain hm (key, v) (by simp)
      simp [hv0, hv hm]
    | true =>
      have hall : (l ++ (key, v) :: r).take l.length ++
          (key, value) :: (l ++ (key, v) :: r).drop (l.length + 1) = l ++ (key, value) :: r := by
        simp
      refine ⟨_, _, ?_, prefix_append h [Table.leaf ty (l ++ (key, value) :: r)],
        .one h.length (l ++ (key, value) :: r) le_rfl
          (repr_leaf h hlt (by simp [Plain, hm])) (by simpa [Loose] using hloose) (by simp) rfl⟩
      simp [bind, Except.bind]
  · -- a new key
    have hnew : insertEntry key value (l ++ r) = l ++ (key, value) :: r := by
      have := insertEntry_cut (m := []) key value hbelow habove
      simpa [insertEntry] using this
    rw [hnew] at hlt ⊢
    simp only [hfind, hlb, leafOf_ok]
    have hplain' : Plain ty (l ++ (key, value) :: r) := plain_insert hplain hv
    have hall : (l ++ r).take l.length ++ (key, value) :: (l ++ r).drop l.length =
        l ++ (key, value) :: r := by simp
    have hlen : (l ++ (key, value) :: r).length = (l ++ r).length + 1 := by simp; omega
    by_cases hfull : (l ++ r).length + 1 > leafCapacity s ty
    · -- full: two leaves of equal share
      have hcap : (l ++ (key, value) :: r).length = leafCapacity s ty + 1 := by omega
      obtain ⟨hf1, hf2⟩ := full_halves hs hcap
      generalize hall' : l ++ (key, value) :: r = all at *
      have hhalf : ((l ++ r).length + 1) / 2 = all.length / 2 := by rw [hlen]
      have hb1 : (all.take (all.length / 2)).length < countWidth :=
        lt_of_le_of_lt (take_sublist _ _).length_le hlt
      have hb2 : (all.drop (all.length / 2)).length < countWidth :=
        lt_of_le_of_lt (drop_sublist _ _).length_le hlt
      set h1 := h ++ [Table.leaf ty (all.take (all.length / 2))] with hh1
      set h2 := h1 ++ [Table.leaf ty (all.drop (all.length / 2))] with hh2
      have hp1 : h <+: h1 := prefix_append _ _
      have hp2 : h1 <+: h2 := prefix_append _ _
      refine ⟨h2, _, ?_, hp1.trans hp2, .two h.length h1.length _ _ le_rfl
        ((repr_leaf h hb1 (hplain'.sublist (take_sublist _ _))).mono hp2)
        (repr_leaf h1 hb2 (hplain'.sublist (drop_sublist _ _))) hf1 hf2 ?_⟩
      · simp only [Option.isSome_none, Bool.false_and, Bool.false_eq_true, if_false,
          Bool.not_false, Bool.true_and, decide_eq_true_eq, if_pos hfull, hall, hhalf]
        rfl
      · exact take_append_drop _ _
    · refine ⟨_, _, ?_, prefix_append h [Table.leaf ty (l ++ (key, value) :: r)],
        .one h.length (l ++ (key, value) :: r) le_rfl (repr_leaf h hlt hplain')
          ?_ (by simp) rfl⟩
      · simp only [Option.isSome_none, Bool.false_and, Bool.false_eq_true, if_false,
          Bool.not_false, Bool.true_and, decide_eq_true_eq, if_neg hfull]
        cases (Table.leaf ty (l ++ r)).keys[l.length]? <;> simp [bind, Except.bind]
      · show (l ++ (key, value) :: r).length ≤ leafCapacity s ty
        omega

/-! ## Branches -/

/-- Two branches of equal share of one child too many. -/
theorem full_branch_halves {n : Nat} {cs : List (Tree (K × V) n)} (hs : s.Ok)
    (hlen : cs.length = s.fanout + 1) (hfull : ∀ c ∈ cs, Full s ty n c) :
    Full s ty (n + 1) (cs.take (cs.length / 2)) ∧ Full s ty (n + 1) (cs.drop (cs.length / 2)) := by
  have hfan := hs.fanout
  have h1 : (cs.take (cs.length / 2)).length = cs.length / 2 := by
    rw [length_take]; omega
  have h2 : (cs.drop (cs.length / 2)).length = cs.length - cs.length / 2 := length_drop
  refine ⟨⟨loose_succ.2 ⟨by omega, ?_⟩, ?_⟩, ⟨loose_succ.2 ⟨by omega, ?_⟩, ?_⟩⟩
  · exact fun c hc => hfull c (mem_of_mem_take hc)
  · simp only [maxWidth, Tree.width_succ]
    omega
  · exact fun c hc => hfull c (mem_of_mem_drop hc)
  · simp only [maxWidth, Tree.width_succ]
    omega

/-- A branch is rebuilt over its new children: one table when they fit, two of
    equal share when there is one too many. -/
theorem rebuild_branch (hs : s.Ok) {n : Nat} {cs : List (Tree (K × V) n)}
    {as : List Addr} (hr : Forall₂ (Repr ty h n) cs as) (hfull : ∀ c ∈ cs, Full s ty n c)
    (hcs : cs ≠ []) (hlen : cs.length ≤ s.fanout + 1)
    (hlt : (cs.flatMap (Tree.entries n)).length < countWidth) :
    ∃ h' g, (if as.length ≤ s.fanout then do
            let (h, x) ← makeBranch s as h
            .ok (h, ({ first := x, second := none } : Grown))
          else do
            let (h, x) ← makeBranch s (as.take (as.length / 2)) h
            let (h, y) ← makeBranch s (as.drop (as.length / 2)) h
            .ok (h, ({ first := x, second := some y } : Grown))) =
          (.ok (h', g) : Except Fault (Heap K V × Grown)) ∧ h <+: h' ∧
      ((∃ x, g = { first := x, second := none } ∧ h.length ≤ x ∧ Repr ty h' (n + 1) cs x ∧
          cs.length ≤ s.fanout) ∨
       (∃ x y c₁ c₂, g = { first := x, second := some y } ∧ h.length ≤ x ∧
          Repr ty h' (n + 1) c₁ x ∧ Repr ty h' (n + 1) c₂ y ∧ Full s ty (n + 1) c₁ ∧
          Full s ty (n + 1) c₂ ∧ c₁ ++ c₂ = cs)) := by
  have hlen' : cs.length = as.length := hr.length_eq
  have hne : ∀ c ∈ cs, Tree.entries n c ≠ [] := fun c hc => (hfull c hc).entries_ne_nil hs
  by_cases hfit : as.length ≤ s.fanout
  · obtain ⟨h', hmk, hp, hrepr⟩ := makeBranch_repr (s := s) hr hcs hne hlt
    refine ⟨h', _, ?_, hp, .inl ⟨h.length, rfl, le_rfl, hrepr, by omega⟩⟩
    simp [if_pos hfit, hmk, bind, Except.bind]
  · have hcap : cs.length = s.fanout + 1 := by omega
    obtain ⟨hf1, hf2⟩ := full_branch_halves hs hcap hfull
    have hfan := hs.fanout
    have hsub1 : ((cs.take (cs.length / 2)).flatMap (Tree.entries n)).length < countWidth := by
      refine lt_of_le_of_lt (Sublist.length_le ?_) hlt
      exact flatMap_sublist _ (take_sublist _ _)
    have hsub2 : ((cs.drop (cs.length / 2)).flatMap (Tree.entries n)).length < countWidth := by
      refine lt_of_le_of_lt (Sublist.length_le ?_) hlt
      exact flatMap_sublist _ (drop_sublist _ _)
    have hne1 : cs.take (cs.length / 2) ≠ [] := by
      intro h0
      have := congrArg List.length h0
      rw [length_take, length_nil] at this
      omega
    have hne2 : cs.drop (cs.length / 2) ≠ [] := by
      intro h0
      have := congrArg List.length h0
      rw [length_drop, length_nil] at this
      omega
    obtain ⟨h1, hmk1, hp1, hr1⟩ := makeBranch_repr (s := s)
      (forall₂_take (cs.length / 2) hr) hne1
      (fun c hc => hne c (mem_of_mem_take hc)) hsub1
    have hr' : Forall₂ (Repr ty h1 n) cs as := hr.imp (fun _ _ hc => hc.mono hp1)
    obtain ⟨h2, hmk2, hp2, hr2⟩ := makeBranch_repr (s := s)
      (forall₂_drop (cs.length / 2) hr') hne2
      (fun c hc => hne c (mem_of_mem_drop hc)) hsub2
    refine ⟨h2, _, ?_, hp1.trans hp2, .inr ⟨h.length, h1.length, _, _, rfl, le_rfl,
      hr1.mono hp2, hr2, hf1, hf2, take_append_drop _ _⟩⟩
    rw [hlen'] at hmk1 hmk2
    simp [if_neg hfit, hmk1, hmk2, bind, Except.bind]

theorem insertInto_spec (hs : s.Ok) (key : K) (value : V)
    (hv : ty.isMap = false → value = default) :
    ∀ (n : Nat) (t : Tree (K × V) n) (a : Addr) (inTree : Bool) (h : Heap K V),
      Repr ty h n t a → Loose s ty n t → (0 < n → 0 < Tree.width n t) →
      Sorted (Tree.entries n t) →
      (insertEntry key value (Tree.entries n t)).length < countWidth →
      ∃ h' g, insertInto s ty key value n a inTree h = .ok (h', g) ∧ h <+: h' ∧
        GrownTo s ty h h' n t a (insertEntry key value (Tree.entries n t)) g := by
  intro n
  induction n with
  | zero =>
    intro es a inTree h hr hl _ hsort hlt
    obtain ⟨h', g, heq, hp, hg⟩ := insertIntoLeaf_spec hs key value inTree hr hl hsort hv hlt
    refine ⟨h', g, ?_, hp, hg⟩
    unfold insertInto
    have hleaf : (Table.leaf ty es).isLeaf = true := rfl
    simp only [deref_ok hr.1, bind, Except.bind, hleaf, if_true]
    exact heq
  | succ n ih =>
    intro cs a inTree h hr hl hw hsort hlt
    have hcs : cs ≠ [] := by
      have := hw (Nat.succ_pos n)
      exact length_pos_iff.mp this
    obtain ⟨T, l, c, r, la, ca, ra, hget, hleaf, hchildren, rfl, hci, hchild, hlen, hla, hca, hra,
      hcut, hbelow, habove, hfullc, hsortc⟩ := branch_cut hs key hr hl hcs hsort
    rw [hcut] at hlt ⊢
    rw [insertEntry_cut key value hbelow habove] at hlt ⊢
    have hltc : (insertEntry key value (Tree.entries n c)).length < countWidth := by
      refine lt_of_le_of_lt ?_ hlt
      simp only [length_append]
      omega
    have hwc : 0 < n → 0 < Tree.width n c := by
      intro _
      have := hfullc.2
      have := maxWidth_ge hs ty n
      omega
    obtain ⟨h1, g, heq, hp1, hg⟩ := ih c ca true h hca hfullc.1 hwc hsortc hltc
    have hlfull : ∀ x ∈ l, Full s ty n x := fun x hx => (loose_succ.1 hl).2 x (by simp [hx])
    have hrfull : ∀ x ∈ r, Full s ty n x := fun x hx => (loose_succ.1 hl).2 x (by simp [hx])
    have hcsl : (l ++ c :: r).length ≤ s.fanout := (loose_succ.1 hl).1
    have hla1 : Forall₂ (Repr ty h1 n) l la := hla.imp (fun _ _ hx => hx.mono hp1)
    have hra1 : Forall₂ (Repr ty h1 n) r ra := hra.imp (fun _ _ hx => hx.mono hp1)
    have hcalt : ca < h.length := hca.lt_length
    unfold insertInto
    simp only [deref_ok hget, bind, Except.bind, hleaf, Bool.false_eq_true, if_false, hci, hchild,
      heq]
    cases hg with
    | same hes =>
      refine ⟨h1, _, by simp, hp1, .same ?_⟩
      rw [hcut, ← hes]
    | one x c' hx hrx hlx hwx hes =>
      have hxne : ¬ x = ca := ne_of_gt (lt_of_lt_of_le hcalt hx)
      have hfullx : Full s ty n c' := ⟨hlx, le_trans hfullc.2 hwx⟩
      have hnew : childrenWith T la.length x none = la ++ x :: ra := by
        simp [childrenWith, hchildren]
      have hr2 : Forall₂ (Repr ty h1 n) (l ++ c' :: r) (la ++ x :: ra) :=
        forall₂_append hla1 (.cons hrx hra1)
      obtain ⟨h2, g2, hrb, hp2, hcase⟩ := rebuild_branch hs hr2 (by
          intro y hy
          rcases mem_append.mp hy with hy | hy
          · exact hlfull y hy
          · rcases mem_cons.mp hy with rfl | hy
            · exact hfullx
            · exact hrfull y hy) (by simp)
        (by simp only [length_append, length_cons] at hcsl ⊢; omega)
        (by simpa [hes] using hlt)
      refine ⟨h2, g2, ?_, hp1.trans hp2, ?_⟩
      · simp only [if_neg hxne, hnew]
        exact hrb
      · have hfit : (l ++ c' :: r).length ≤ s.fanout := by
          simp only [length_append, length_cons] at hcsl ⊢
          omega
        rcases hcase with ⟨x2, rfl, hx2, hrx2, -⟩ | ⟨x2, y2, c₁, c₂, rfl, hx2, hr1, hr2, hf1, hf2, h12⟩
        · refine .one x2 _ (le_trans hp1.length_le hx2) hrx2 (loose_succ.2 ⟨hfit, ?_⟩)
            (by simp) (by simp [hes])
          intro y hy
          rcases mem_append.mp hy with hy | hy
          · exact hlfull y hy
          · rcases mem_cons.mp hy with rfl | hy
            · exact hfullx
            · exact hrfull y hy
        · refine .two x2 y2 c₁ c₂ (le_trans hp1.length_le hx2) hr1 hr2 hf1 hf2 ?_
          rw [Tree.entries_succ, Tree.entries_succ, ← flatMap_append, h12]
          simp [hes]
    | two x y t₁ t₂ hx hrx hry hf1 hf2 hes =>
      have hxne : ¬ x = ca := ne_of_gt (lt_of_lt_of_le hcalt hx)
      have hnew : childrenWith T la.length x (some y) = la ++ x :: y :: ra := by
        simp [childrenWith, hchildren]
      have hr2 : Forall₂ (Repr ty h1 n) (l ++ t₁ :: t₂ :: r) (la ++ x :: y :: ra) :=
        forall₂_append hla1 (.cons hrx (.cons hry hra1))
      have hall : ∀ z ∈ l ++ t₁ :: t₂ :: r, Full s ty n z := by
        intro z hz
        rcases mem_append.mp hz with hz | hz
        · exact hlfull z hz
        · rcases mem_cons.mp hz with rfl | hz
          · exact hf1
          · rcases mem_cons.mp hz with rfl | hz
            · exact hf2
            · exact hrfull z hz
      have hents : (l ++ t₁ :: t₂ :: r).flatMap (Tree.entries n) =
          l.flatMap (Tree.entries n) ++ insertEntry key value (Tree.entries n c) ++
            r.flatMap (Tree.entries n) := by
        rw [← hes]
        simp
      obtain ⟨h2, g2, hrb, hp2, hcase⟩ := rebuild_branch hs hr2 hall (by simp)
        (by simp only [length_append, length_cons] at hcsl ⊢; omega)
        (by rw [hents]; exact hlt)
      refine ⟨h2, g2, ?_, hp1.trans hp2, ?_⟩
      · simp only [if_neg hxne, hnew]
        exact hrb
      · rcases hcase with ⟨x2, rfl, hx2, hrx2, hfit⟩ | ⟨x2, y2, c₁, c₂, rfl, hx2, hr1, hr2, hf1, hf2, h12⟩
        · exact .one x2 _ (le_trans hp1.length_le hx2) hrx2 (loose_succ.2 ⟨hfit, hall⟩)
            (by simp) hents
        · refine .two x2 y2 c₁ c₂ (le_trans hp1.length_le hx2) hr1 hr2 hf1 hf2 ?_
          rw [Tree.entries_succ, Tree.entries_succ, ← flatMap_append, h12, hents]

/-! ## The whole collection -/

/-- An entry put into a collection, whatever it held for the key. -/
theorem insert_spec (hs : s.Ok) {a : Addr} (key : K) (value : V)
    (hv : ty.isMap = false → value = default) (hd : Denotes s ty h a es)
    (hlt : (insertEntry key value es).length < countWidth) :
    ∃ h' a', insert s ty a key value h = .ok (h', a') ∧ h <+: h' ∧
      Denotes s ty h' a' (insertEntry key value es) := by
  obtain ⟨n, t, hr, hl, hw, hsort, rfl⟩ := hd
  obtain ⟨T, hget, hread⟩ := hr.reads
  have hsort' := sorted_insertEntry key value hsort
  obtain ⟨h1, g, heq, hp1, hg⟩ := insertInto_spec hs key value hv n t a false h hr hl
    (fun hn => by have := hw hn; omega) hsort hlt
  unfold insert
  simp only [deref_ok hget, bind, Except.bind, hread.height, heq]
  cases hg with
  | same hes =>
    refine ⟨h1, a, rfl, hp1, n, t, hr.mono hp1, hl, hw, hsort, hes⟩
  | one x t' hx hrx hlx hwx hes =>
    refine ⟨h1, x, rfl, hp1, n, t', hrx, hlx, ?_, hes ▸ hsort', hes⟩
    exact fun hn => le_trans (hw hn) hwx
  | two x y t₁ t₂ hx hrx hry hf1 hf2 hes =>
    -- the root was split: a new root above the two halves
    have hpair : Forall₂ (Repr ty h1 n) [t₁, t₂] [x, y] := .cons hrx (.cons hry .nil)
    obtain ⟨h2, hmk, hp2, hr2⟩ := makeBranch_repr (s := s) hpair (by simp)
      (by
        intro c hc
        simp only [mem_cons, not_mem_nil, or_false] at hc
        rcases hc with rfl | rfl
        · exact hf1.entries_ne_nil hs
        · exact hf2.entries_ne_nil hs)
      (by simpa [hes] using hlt)
    have hfan := hs.fanout
    have hents : Tree.entries (n + 1) [t₁, t₂] = insertEntry key value (Tree.entries n t) := by
      simp [hes]
    refine ⟨h2, h1.length, hmk, hp1.trans hp2, n + 1, [t₁, t₂], hr2, loose_succ.2 ⟨?_, ?_⟩, ?_,
      hents ▸ hsort', hents⟩
    · simp only [length_cons, length_nil]
      omega
    · intro c hc
      simp only [mem_cons, not_mem_nil, or_false] at hc
      rcases hc with rfl | rfl
      · exact hf1
      · exact hf2
    · intro _
      simp

end Camel.Collection
