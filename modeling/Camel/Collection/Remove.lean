import Camel.Collection.Insert

/-! # Deletion

    `removeFrom` hands its caller a table that may hold less than a table must;
    the caller, which is copying the parent anyway, combines it with a
    neighbour.  `combine` gives back one or two tables that are full enough
    whenever one of the two it was given is, so a branch that lost a child to a
    merge is one child narrower at most. -/

set_option linter.unusedSectionVars false

namespace Camel.Collection

open SortedEntries List

variable {K V : Type} [LinearOrder K] [Inhabited V]
variable {s : Shape} {ty : CollectionType}

/-! ## Leaves -/

/-- What removing below address `a` of heap `h` may hand back. -/
structure ShrunkTo (s : Shape) (ty : CollectionType) (h h' : Heap K V) (n : Nat)
    (t : Tree (K × V) n) (a : Addr) (key : K) (x : Addr) : Prop where
  /-- The table itself exactly when the key is absent. -/
  same : find key (Tree.entries n t) = none → x = a
  fresh : find key (Tree.entries n t) ≠ none → h.length ≤ x
  tree : ∃ t' : Tree (K × V) n, Repr ty h' n t' x ∧ Loose s ty n t' ∧
    Tree.width n t ≤ Tree.width n t' + 1 ∧
    Tree.entries n t' = eraseEntry key (Tree.entries n t)

variable {h : Heap K V} {a : Addr}

theorem removeFromLeaf_spec {es : List (K × V)}
    (key : K) (inTree : Bool) (hr : Repr ty h 0 es a) (hl : Loose s ty 0 es)
    (hsort : Sorted es) :
    ∃ h' x, removeFromLeaf s ty a (Table.leaf ty es) key inTree h = .ok (h', x) ∧ h <+: h' ∧
      ShrunkTo s ty h h' 0 es a key x := by
  obtain ⟨hget, hbound, hplain⟩ := hr
  have hent : (Table.leaf ty es).entries ty = es := entries_leaf hbound hplain
  have hloose : es.length ≤ leafCapacity s ty := hl
  unfold removeFromLeaf
  rcases leaf_search ty key hsort hbound with
    ⟨l, v, r, rfl, hlb, hfind, hbelow, habove⟩ | ⟨l, r, rfl, hlb, hfind, hbelow, habove⟩
  · -- the entry of the key is left out
    have hnew : eraseEntry key (l ++ (key, v) :: r) = l ++ r := by
      have := eraseEntry_cut (m := [(key, v)]) key hbelow habove
      simpa [eraseEntry] using this
    have hfound : find key (l ++ (key, v) :: r) = some v := by
      have := find_cut (m := [(key, v)]) key hbelow habove
      simpa [find_cons] using this
    have hcut : (l ++ (key, v) :: r).take l.length ++ (l ++ (key, v) :: r).drop (l.length + 1) =
        l ++ r := by simp
    have hsub : (l ++ r).Sublist (l ++ (key, v) :: r) :=
      Sublist.append (Sublist.refl _) (sublist_cons_self _ _)
    refine ⟨_, h.length, ?_, prefix_append h [Table.leaf ty (l ++ r)], ?_⟩
    · simp only [hfind, hent, hcut, leafOf_ok]
    · refine ⟨fun hnone => ?_, fun _ => le_rfl, l ++ r,
        repr_leaf h (lt_of_le_of_lt hsub.length_le hbound) (hplain.sublist hsub), ?_, ?_, ?_⟩
      · rw [Tree.entries_zero, hfound] at hnone
        exact absurd hnone (by simp)
      · exact le_trans hsub.length_le hloose
      · simp only [Tree.width_zero, length_append, length_cons]
        omega
      · exact hnew.symm
  · have hnone : find key (l ++ r) = none := by
      have := find_cut (m := []) key hbelow habove
      simpa using this
    refine ⟨h, a, by simp only [hfind], prefix_rfl, ?_⟩
    refine ⟨fun _ => rfl, fun hf => absurd hnone hf, l ++ r, ⟨hget, hbound, hplain⟩, hl, ?_, ?_⟩
    · exact Nat.le_succ _
    · exact (eraseEntry_absent hnone).symm

/-! ## Two neighbours made one or two -/

variable {n : Nat}

/-- `combine` asks a table for its occupancy. -/
theorem Repr.underfull_eq {t : Tree (K × V) n}
    (hr : Repr ty h n t a) : ∃ T, h[a]? = some T ∧
      underfull s ty T = decide (Tree.width n t < maxWidth s ty n / 2) := by
  cases n with
  | zero =>
    refine ⟨_, hr.1, ?_⟩
    have hsize : (Table.leaf ty t).size = t.length := Nat.mod_eq_of_lt hr.2.1
    have hleaf : (Table.leaf ty t).isLeaf = true := rfl
    simp only [underfull, hleaf, if_true, hsize, Tree.width_zero, maxWidth]
    rfl
  | succ n =>
    obtain ⟨T, hget, hht, -, -, -, hch⟩ := hr
    have hleaf : T.isLeaf = false := by simp [Table.isLeaf, hht]
    have hcount : T.count = t.length := hch.length_eq.symm
    refine ⟨T, hget, ?_⟩
    simp only [underfull, hleaf, Bool.false_eq_true, if_false, hcount, Tree.width_succ, maxWidth]
    rfl

/-- The content of two neighbours, one of them full enough, as one or two full
    tables. -/
structure Combined (s : Shape) (ty : CollectionType) (h' : Heap K V) (n : Nat)
    (es : List (K × V)) (made : List Addr) : Prop where
  trees : ∃ cs : List (Tree (K × V) n), Forall₂ (Repr ty h' n) cs made ∧
    (∀ c ∈ cs, Full s ty n c) ∧ cs.flatMap (Tree.entries n) = es ∧ cs ≠ [] ∧ cs.length ≤ 2

variable {b : Addr}

theorem combine_leaves (hs : s.Ok) {x y : List (K × V)}
    (hx : Repr ty h 0 x a) (hy : Repr ty h 0 y b)
    (hlx : x.length ≤ leafCapacity s ty) (hly : y.length ≤ leafCapacity s ty)
    (hone : leafCapacity s ty / 2 ≤ x.length ∨ leafCapacity s ty / 2 ≤ y.length)
    (hlt : (x ++ y).length < countWidth) :
    ∃ h' made, combine s ty a b h = .ok (h', made) ∧ h <+: h' ∧
      Combined s ty h' 0 (x ++ y) made := by
  have hcap := leafCapacity_ge hs ty
  have hsx : (Table.leaf ty x).size = x.length := Nat.mod_eq_of_lt hx.2.1
  have hsy : (Table.leaf ty y).size = y.length := Nat.mod_eq_of_lt hy.2.1
  have hex := entries_leaf hx.2.1 hx.2.2
  have hey := entries_leaf hy.2.1 hy.2.2
  have hleaf : (Table.leaf ty x).isLeaf = true := rfl
  have hplain : Plain ty (x ++ y) := by
    intro hm e he
    rcases mem_append.mp he with he | he
    · exact hx.2.2 hm e he
    · exact hy.2.2 hm e he
  have hlen : (x ++ y).length = x.length + y.length := length_append
  unfold combine
  simp only [deref_ok hx.1, deref_ok hy.1, bind, Except.bind, hleaf, if_true, hex, hey, hsx, hsy,
    leafOf_ok]
  rw [← hlen]
  by_cases hfit : (x ++ y).length ≤ leafCapacity s ty
  · simp only [if_pos hfit]
    refine ⟨_, _, rfl, prefix_append _ _, ⟨[x ++ y], .cons (repr_leaf h hlt hplain) .nil, ?_,
      by simp, by simp, by simp⟩⟩
    intro c hc
    rw [mem_singleton.mp hc]
    refine ⟨hfit, ?_⟩
    simp only [maxWidth, Tree.width_zero, hlen]
    omega
  · simp only [if_neg hfit]
    generalize hall : x ++ y = all at *
    have h1 : (all.take (all.length / 2)).length = all.length / 2 := by
      rw [length_take]; omega
    have h2 : (all.drop (all.length / 2)).length = all.length - all.length / 2 := length_drop
    have hp2 := prefix_append (h ++ [Table.leaf ty (all.take (all.length / 2))])
      [Table.leaf ty (all.drop (all.length / 2))]
    have hr1 := @repr_leaf K V _ _ ty (all.take (all.length / 2)) h (by omega)
      (hplain.sublist (take_sublist _ _))
    have hr2 := @repr_leaf K V _ _ ty (all.drop (all.length / 2))
      (h ++ [Table.leaf ty (all.take (all.length / 2))]) (by omega) (hplain.sublist (drop_sublist _ _))
    refine ⟨_, _, rfl, (prefix_append _ _).trans hp2,
      ⟨[all.take (all.length / 2), all.drop (all.length / 2)],
        .cons (hr1.mono hp2) (.cons hr2 .nil), ?_, by simp, by simp, by simp⟩⟩
    intro c hc
    simp only [mem_cons, not_mem_nil, or_false] at hc
    rcases hc with rfl | rfl
    · refine ⟨?_, ?_⟩
      · show (all.take (all.length / 2)).length ≤ leafCapacity s ty
        omega
      · show leafCapacity s ty / 2 ≤ (all.take (all.length / 2)).length
        omega
    · refine ⟨?_, ?_⟩
      · show (all.drop (all.length / 2)).length ≤ leafCapacity s ty
        omega
      · show leafCapacity s ty / 2 ≤ (all.drop (all.length / 2)).length
        omega

theorem combine_branches (hs : s.Ok) {x y : List (Tree (K × V) n)}
    (hx : Repr ty h (n + 1) x a) (hy : Repr ty h (n + 1) y b)
    (hlx : Loose s ty (n + 1) x) (hly : Loose s ty (n + 1) y)
    (hone : s.fanout / 2 ≤ x.length ∨ s.fanout / 2 ≤ y.length)
    (hlt : ((x ++ y).flatMap (Tree.entries n)).length < countWidth) :
    ∃ h' made, combine s ty a b h = .ok (h', made) ∧ h <+: h' ∧
      Combined s ty h' (n + 1) ((x ++ y).flatMap (Tree.entries n)) made := by
  have hfan := hs.fanout
  obtain ⟨X, hgx, hhx, -, -, -, hcx⟩ := hx
  obtain ⟨Y, hgy, hhy, -, -, -, hcy⟩ := hy
  have hleaf : X.isLeaf = false := by simp [Table.isLeaf, hhx]
  have hxlen : X.count = x.length := hcx.length_eq.symm
  have hylen : Y.count = y.length := hcy.length_eq.symm
  have hlen : (x ++ y).length = x.length + y.length := length_append
  have hall : Forall₂ (Repr ty h n) (x ++ y) (X.children ++ Y.children) :=
    forall₂_append hcx hcy
  have hxl : x.length ≤ s.fanout := (loose_succ.1 hlx).1
  have hyl : y.length ≤ s.fanout := (loose_succ.1 hly).1
  have hfull : ∀ c ∈ x ++ y, Full s ty n c := by
    intro c hc
    rcases mem_append.mp hc with hc | hc
    · exact (loose_succ.1 hlx).2 c hc
    · exact (loose_succ.1 hly).2 c hc
  have hne : ∀ c ∈ x ++ y, Tree.entries n c ≠ [] := fun c hc => (hfull c hc).entries_ne_nil hs
  unfold combine
  simp only [deref_ok hgx, deref_ok hgy, bind, Except.bind, hleaf, Bool.false_eq_true, if_false,
    hxlen, hylen]
  rw [← hlen]
  generalize hcs : x ++ y = cs at *
  by_cases hfit : cs.length ≤ s.fanout
  · obtain ⟨h', hmk, hp, hr⟩ := makeBranch_repr (s := s) hall
      (by intro h0; rw [h0, length_nil] at hlen; omega) hne hlt
    refine ⟨h', [h.length], ?_, hp, ⟨[cs], .cons hr .nil, ?_, by simp, by simp, by simp⟩⟩
    · simp [if_pos hfit, hmk]
    · intro c hc
      rw [mem_singleton.mp hc]
      refine ⟨loose_succ.2 ⟨hfit, hfull⟩, ?_⟩
      simp only [maxWidth, Tree.width_succ, hlen]
      omega
  · have h1 : (cs.take (cs.length / 2)).length = cs.length / 2 := by
      rw [length_take]; omega
    have h2 : (cs.drop (cs.length / 2)).length = cs.length - cs.length / 2 := length_drop
    have hb1 : ((cs.take (cs.length / 2)).flatMap (Tree.entries n)).length < countWidth :=
      lt_of_le_of_lt (flatMap_sublist _ (take_sublist _ _)).length_le hlt
    have hb2 : ((cs.drop (cs.length / 2)).flatMap (Tree.entries n)).length < countWidth :=
      lt_of_le_of_lt (flatMap_sublist _ (drop_sublist _ _)).length_le hlt
    obtain ⟨h', hmk1, hp1, hr1⟩ := makeBranch_repr (s := s) (forall₂_take (cs.length / 2) hall)
      (by intro h0; rw [h0, length_nil] at h1; omega)
      (fun c hc => hne c (mem_of_mem_take hc)) hb1
    have hall' : Forall₂ (Repr ty h' n) cs (X.children ++ Y.children) :=
      hall.imp (fun _ _ hc => hc.mono hp1)
    obtain ⟨h'', hmk2, hp2, hr2⟩ := makeBranch_repr (s := s)
      (forall₂_drop (cs.length / 2) hall')
      (by intro h0; rw [h0, length_nil] at h2; omega)
      (fun c hc => hne c (mem_of_mem_drop hc)) hb2
    refine ⟨h'', [h.length, h'.length], ?_, hp1.trans hp2,
      ⟨[cs.take (cs.length / 2), cs.drop (cs.length / 2)],
        .cons (hr1.mono hp2) (.cons hr2 .nil), ?_, ?_, by simp, by simp⟩⟩
    · simp [if_neg hfit, hmk1, hmk2]
    · intro c hc
      simp only [mem_cons, not_mem_nil, or_false] at hc
      rcases hc with rfl | rfl
      · refine ⟨loose_succ.2 ⟨by omega, fun c hc => hfull c (mem_of_mem_take hc)⟩, ?_⟩
        simp only [maxWidth, Tree.width_succ]
        omega
      · refine ⟨loose_succ.2 ⟨by omega, fun c hc => hfull c (mem_of_mem_drop hc)⟩, ?_⟩
        simp only [maxWidth, Tree.width_succ]
        omega
    · simp only [flatMap_cons, flatMap_nil, append_nil, Tree.entries_succ]
      rw [← flatMap_append, take_append_drop]

theorem combine_spec (hs : s.Ok) {x y : Tree (K × V) n}
    (hx : Repr ty h n x a) (hy : Repr ty h n y b)
    (hlx : Loose s ty n x) (hly : Loose s ty n y)
    (hone : maxWidth s ty n / 2 ≤ Tree.width n x ∨ maxWidth s ty n / 2 ≤ Tree.width n y)
    (hlt : (Tree.entries n x ++ Tree.entries n y).length < countWidth) :
    ∃ h' made, combine s ty a b h = .ok (h', made) ∧ h <+: h' ∧
      Combined s ty h' n (Tree.entries n x ++ Tree.entries n y) made := by
  cases n with
  | zero => exact combine_leaves hs hx hy hlx hly hone hlt
  | succ n =>
    have hents : Tree.entries (n + 1) x ++ Tree.entries (n + 1) y =
        flatMap (Tree.entries n) ((x : List (Tree (K × V) n)) ++ y) := by
      simp
    rw [hents] at hlt ⊢
    exact combine_branches hs hx hy hlx hly hone hlt

/-! ## Branches -/

/-- A branch is rebuilt over the children it keeps and full ones between them. -/
theorem shrunk_branch (hs : s.Ok) {h1 : Heap K V} {b l ds r : List (Tree (K × V) n)}
    {p da ra : List Addr} {key : K} (hp : h <+: h1) (hla : Forall₂ (Repr ty h n) l p)
    (hda : Forall₂ (Repr ty h1 n) ds da) (hra : Forall₂ (Repr ty h n) r ra)
    (hl : ∀ c ∈ l, Full s ty n c) (hd : ∀ c ∈ ds, Full s ty n c) (hr : ∀ c ∈ r, Full s ty n c)
    (hds : ds ≠ []) (hle : l.length + ds.length + r.length ≤ s.fanout)
    (hge : b.length ≤ l.length + ds.length + r.length + 1)
    (hsome : find key (Tree.entries (n + 1) b) ≠ none)
    (hents : eraseEntry key (Tree.entries (n + 1) b) = l.flatMap (Tree.entries n) ++
      ds.flatMap (Tree.entries n) ++ r.flatMap (Tree.entries n))
    (hlt : (Tree.entries (n + 1) b).length < countWidth) :
    ∃ h' x, makeBranch s (p ++ da ++ ra) h1 = .ok (h', x) ∧ h <+: h' ∧
      ShrunkTo s ty h h' (n + 1) b a key x := by
  have hfull : ∀ c ∈ l ++ ds ++ r, Full s ty n c :=
    forall_mem_append.2 ⟨forall_mem_append.2 ⟨hl, hd⟩, hr⟩
  have hkept : ∀ {cs : List (Tree (K × V) n)} {as : List Addr},
      Forall₂ (Repr ty h n) cs as → Forall₂ (Repr ty h1 n) cs as :=
    fun h => h.imp fun _ _ hc => hc.mono hp
  rw [← flatMap_append, ← flatMap_append] at hents
  rw [← length_append, ← length_append] at hle hge
  obtain ⟨h', hmk, hp', hrepr⟩ := makeBranch_repr (s := s)
    (forall₂_append (forall₂_append (hkept hla) hda) (hkept hra)) (by simp [hds])
    (fun c hc => (hfull c hc).entries_ne_nil hs)
    (by rw [← hents]; exact lt_of_le_of_lt (length_eraseEntry_le _ _) hlt)
  exact ⟨h', h1.length, hmk, hp.trans hp', fun h0 => absurd h0 hsome, fun _ => hp.length_le,
    l ++ ds ++ r, hrepr, loose_succ.2 ⟨hle, hfull⟩, hge, hents.symm⟩

theorem removeFrom_spec (hs : s.Ok) (key : K) :
    ∀ (n : Nat) (t : Tree (K × V) n) (a : Addr) (inTree : Bool) (h : Heap K V),
      Repr ty h n t a → Loose s ty n t → (0 < n → 2 ≤ Tree.width n t) →
      Sorted (Tree.entries n t) →
      ∃ h' x, removeFrom s ty key n a inTree h = .ok (h', x) ∧ h <+: h' ∧
        ShrunkTo s ty h h' n t a key x := by
  intro n
  induction n with
  | zero =>
    intro es a inTree h hr hl _ hsort
    obtain ⟨h', x, heq, hp, hx⟩ := removeFromLeaf_spec key inTree hr hl hsort
    refine ⟨h', x, ?_, hp, hx⟩
    unfold removeFrom
    have hleaf : (Table.leaf ty es).isLeaf = true := rfl
    simp only [deref_ok hr.1, bind, Except.bind, hleaf, if_true]
    exact heq
  | succ n ih =>
    intro cs a inTree h hr hl hw hsort
    have hw2 : 2 ≤ cs.length := hw (Nat.succ_pos n)
    have hcs : cs ≠ [] := by
      intro h0
      rw [h0, length_nil] at hw2
      omega
    obtain ⟨R, -, hread⟩ := hr.reads
    have hbound := hread.bound
    obtain ⟨T, l, c, r, la, ca, ra, hget, hleaf, hchildren, rfl, hci, hchild, hlen, hla, hca, hra,
      hcut, hbelow, habove, hfullc, hsortc⟩ := branch_cut hs key hr hl hcs hsort
    have hfind : find key (Tree.entries (n + 1) (l ++ c :: r)) = find key (Tree.entries n c) := by
      rw [hcut, find_cut key hbelow habove]
    have herase : eraseEntry key (Tree.entries (n + 1) (l ++ c :: r)) =
        l.flatMap (Tree.entries n) ++ eraseEntry key (Tree.entries n c) ++
          r.flatMap (Tree.entries n) := by
      rw [hcut, eraseEntry_cut key hbelow habove]
    have hbound' : (l.flatMap (Tree.entries n) ++ eraseEntry key (Tree.entries n c) ++
        r.flatMap (Tree.entries n)).length < countWidth := by
      rw [← herase]
      exact lt_of_le_of_lt (length_eraseEntry_le _ _) hbound
    obtain ⟨h1, x, heq, hp1, hx⟩ := ih c ca true h hca hfullc.1
      (fun hn => hfullc.two_le hs hn) hsortc
    have hlfull : ∀ y ∈ l, Full s ty n y := fun y hy => (loose_succ.1 hl).2 y (by simp [hy])
    have hrfull : ∀ y ∈ r, Full s ty n y := fun y hy => (loose_succ.1 hl).2 y (by simp [hy])
    have hcsl : (l ++ c :: r).length ≤ s.fanout := (loose_succ.1 hl).1
    unfold removeFrom
    simp only [deref_ok hget, bind, Except.bind, hleaf, Bool.false_eq_true, if_false, hci, hchild,
      heq]
    by_cases habsent : find key (Tree.entries n c) = none
    · -- the key is in no table below: the branch itself is the result
      have hxa : x = ca := hx.same habsent
      refine ⟨h1, a, by simp [hxa], hp1, fun _ => rfl, fun hf => absurd (hfind.trans habsent) hf,
        l ++ c :: r, hr.mono hp1, hl, Nat.le_succ _, ?_⟩
      rw [eraseEntry_absent (hfind.trans habsent)]
    · have hsome : find key (Tree.entries (n + 1) (l ++ c :: r)) ≠ none := by
        rw [hfind]
        exact habsent
      have hxne : ¬ x = ca := ne_of_gt (lt_of_lt_of_le hca.lt_length (hx.fresh habsent))
      obtain ⟨c', hrx, hlx, hwx, hesx⟩ := hx.tree
      obtain ⟨X, hgetx, hunder⟩ := hrx.underfull_eq (s := s)
      have hnew : childrenWith T la.length x none = la ++ x :: ra := by
        simp [childrenWith, hchildren]
      simp only [if_neg hxne, hnew, deref_ok hgetx, hunder, decide_eq_true_eq]
      simp only [length_append, length_cons] at hcsl hw2
      by_cases hunder' : Tree.width n c' < maxWidth s ty n / 2
      · rw [if_pos hunder']
        have hlens : (la ++ x :: ra).length > 1 := by
          have hra' : r.length = ra.length := hra.length_eq
          simp only [length_append, length_cons]
          omega
        simp only [hlens, not_true_eq_false, if_false]
        rcases eq_nil_or_concat l with rfl | ⟨l', p, rfl⟩
        · -- the first child: combined with the one after it
          cases hla with
          | nil =>
          cases hra with
          | nil => simp at hw2
          | @cons q qa r' ra' hq hr' =>
            have hfq : Full s ty n q := hrfull q (by simp)
            have hsub : (Tree.entries n c' ++ Tree.entries n q).length < countWidth := by
              refine lt_of_le_of_lt ?_ hbound'
              rw [hesx]
              simp only [flatMap_nil, nil_append, flatMap_cons, length_append]
              omega
            obtain ⟨h2, made, hcomb, hp2, ⟨ds, hds, hdfull, hdents, hdne, hdlen⟩⟩ :=
              combine_spec hs hrx (hq.mono hp1) hlx hfq.1 (.inr hfq.2) hsub
            have hpos : 0 < ds.length := length_pos_iff.mpr hdne
            simp only [length_nil, length_cons] at hcsl hw2
            simp only [length_nil, Nat.lt_irrefl, gt_iff_lt, if_false, nil_append,
              getElem?_cons_zero, Nat.zero_add, getElem?_cons_succ, hcomb,
              take_zero, drop_succ_cons, drop_zero]
            refine shrunk_branch (l := []) (p := []) hs (hp1.trans hp2) .nil hds hr' (by simp) hdfull
              (fun y hy => hrfull y (by simp [hy])) hdne ?_ ?_ hsome ?_ hbound
            · rw [length_nil]
              omega
            · simp only [length_cons, length_nil]
              omega
            · rw [hdents, hesx]
              exact herase.trans (by simp)
        · -- any other child: combined with the one before it
          rw [concat_eq_append] at *
          obtain ⟨la', pa, ra0, rfl, hla', hpa, hnil⟩ := forall₂_cut (r := []) hla
          cases hnil with
          | nil =>
          have hfp : Full s ty n p := hlfull p (by simp)
          have hsub : (Tree.entries n p ++ Tree.entries n c').length < countWidth := by
            refine lt_of_le_of_lt ?_ hbound'
            rw [hesx]
            simp only [flatMap_append, flatMap_cons, flatMap_nil, append_nil,
              length_append]
            omega
          obtain ⟨h2, made, hcomb, hp2, ⟨ds, hds, hdfull, hdents, hdne, hdlen⟩⟩ :=
            combine_spec hs (hpa.mono hp1) hrx hfp.1 hlx (.inl hfp.2) hsub
          have hdpos : 0 < ds.length := length_pos_iff.mpr hdne
          have hpos : (la' ++ [pa]).length > 0 := by simp
          have hleft : (la' ++ [pa]).length - 1 = la'.length := by simp
          have hx1 : (la' ++ [pa] ++ x :: ra)[la'.length]? = some pa := by simp
          have hx2 : (la' ++ [pa] ++ x :: ra)[la'.length + 1]? = some x := by
            simp [append_assoc]
          have hx3 : (la' ++ [pa] ++ x :: ra).take la'.length = la' := by simp
          have hx4 : (la' ++ [pa] ++ x :: ra).drop (la'.length + 2) = ra := by
            simp [append_assoc]
          simp only [if_pos hpos, hleft, hx1, hx2, hcomb, hx3, hx4]
          simp only [length_append, length_singleton] at hcsl hw2
          refine shrunk_branch hs (hp1.trans hp2) hla' hds hra
            (fun y hy => hlfull y (by simp [hy])) hdfull hrfull hdne (by omega) ?_ hsome ?_ hbound
          · simp only [length_cons, length_append, length_nil]
            omega
          · rw [herase, hdents, hesx]
            simp
      · rw [if_neg hunder']
        have hkept := shrunk_branch (b := l ++ c :: r) (a := a) hs hp1 hla (.cons hrx .nil) hra
          hlfull (forall_mem_singleton.2 ⟨hlx, not_lt.mp hunder'⟩) hrfull (by simp)
          (by rw [length_singleton]; omega) (by simp; omega) hsome
          (by rw [herase, ← hesx]; simp) hbound
        rwa [append_assoc] at hkept

/-! ## The whole collection -/

/-- A branch of several children is kept. -/
theorem onlyChild_wide {t : Tree (K × V) n}
    (hr : Repr ty h n t a) (hw : 0 < n → 2 ≤ Tree.width n t) (fuel : Nat) :
    onlyChild h fuel a = .ok a := by
  cases n with
  | zero =>
    unfold onlyChild
    have hleaf : (Table.leaf ty t).isLeaf = true := rfl
    simp only [deref_ok hr.1, bind, Except.bind, hleaf, if_true]
  | succ n =>
    obtain ⟨T, hget, hht, -, -, -, hch⟩ := hr
    have hleaf : T.isLeaf = false := by simp [Table.isLeaf, hht]
    have hlen : 2 ≤ T.children.length := by
      rw [← hch.length_eq]
      exact hw (Nat.succ_pos n)
    unfold onlyChild
    simp only [deref_ok hget, bind, Except.bind, hleaf, Bool.false_eq_true, if_false]
    rcases hc : T.children with _ | ⟨_, _ | ⟨_, _⟩⟩
    · simp [hc] at hlen
    · simp [hc] at hlen
    · rfl

/-- A key taken out of a collection; a collection without it stays what it is. -/
theorem removeKey_spec (hs : s.Ok) {es : List (K × V)} (key : K)
    (hd : Denotes s ty h a es) :
    ∃ h' a', removeKey s ty a key h = .ok (h', a') ∧ h <+: h' ∧
      (find key es = none → a' = a) ∧ Denotes s ty h' a' (eraseEntry key es) := by
  obtain ⟨n, t, hr, hl, hw, hsort, rfl⟩ := hd
  obtain ⟨T, hget, hread⟩ := hr.reads
  obtain ⟨h1, x, heq, hp1, hx⟩ := removeFrom_spec hs key n t a false h hr hl hw hsort
  obtain ⟨t', hrx, hlx, hwx, hesx⟩ := hx.tree
  obtain ⟨X, hgetx, hreadx⟩ := hrx.reads
  have hsort' : Sorted (Tree.entries n t') := by
    rw [hesx]
    exact sorted_eraseEntry key hsort
  unfold removeKey
  simp only [deref_ok hget, bind, Except.bind, hread.height, heq, deref_ok hgetx, hreadx.height]
  by_cases hwide : 0 < n → 2 ≤ Tree.width n t'
  · rw [onlyChild_wide hrx hwide]
    exact ⟨h1, x, rfl, hp1, hx.same, n, t', hrx, hlx, hwide, hsort', hesx⟩
  · -- the root is left with a single child, which becomes the root
    obtain ⟨hn, hlt⟩ : 0 < n ∧ Tree.width n t' < 2 := by
      rw [Classical.not_imp] at hwide
      omega
    obtain ⟨m, rfl⟩ : ∃ m, n = m + 1 := ⟨n - 1, by omega⟩
    have hw2 : 2 ≤ length t := hw hn
    have hwx' : length t ≤ length t' + 1 := hwx
    have hone : length t' = 1 := by
      have : length t' < 2 := hlt
      omega
    obtain ⟨c, rfl⟩ := length_eq_one_iff.mp hone
    obtain ⟨Y, hgety, hhty, -, -, -, hch⟩ := hrx
    obtain ⟨ca, hYc, hca⟩ : ∃ ca, Y.children = [ca] ∧ Repr ty h1 m c ca := by
      generalize Y.children = ys at hch
      cases hch with
      | cons hc hnil =>
        cases hnil
        exact ⟨_, rfl, hc⟩
    have hfc : Full s ty m c := (loose_succ.1 hlx).2 c (by simp)
    have hleaf : Y.isLeaf = false := by simp [Table.isLeaf, hhty]
    have honly : onlyChild h1 (m + 1) x = .ok ca := by
      unfold onlyChild
      simp only [deref_ok hgety, bind, Except.bind, hleaf, Bool.false_eq_true, if_false, hYc]
      exact onlyChild_wide hca (fun hm => hfc.two_le hs hm) m
    have hents : Tree.entries (m + 1) [c] = Tree.entries m c := by simp
    rw [hents] at hesx hsort'
    refine ⟨h1, ca, by rw [honly], hp1, ?_, ?_⟩
    · -- an absent key leaves the root alone, and the root has two children
      intro habsent
      obtain ⟨Z, hgetz, -, -, -, -, hcz⟩ := hr.mono hp1
      rw [← hx.same habsent, hgety] at hgetz
      have hlen := hcz.length_eq
      rw [← Option.some.inj hgetz, hYc, length_singleton] at hlen
      omega
    · rw [← hesx]
      exact hfc.denotes hs hca hsort'

end Camel.Collection
