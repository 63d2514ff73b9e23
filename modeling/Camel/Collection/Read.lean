import Camel.Collection.Build

/-! # Reading a collection

    Lookup descends by the separators to one leaf, the walk over all leaves
    gives the entries in key order, and a cursor hands them out one at a time.
    A cursor holds the path from the root to its leaf; `Pending` says which
    entries the path still has to the right of the leaf. -/

set_option linter.unusedSectionVars false

namespace Camel.Collection

open SortedEntries List

variable {K V : Type} [LinearOrder K] [Inhabited V]
variable {s : Shape} {ty : CollectionType}

/-! ## Lookup -/

variable {h : Heap K V}

/-- The leaf the search for `key` ends in holds everything the tree has for it. -/
theorem leafFor_spec (hs : s.Ok) (key : K) :
    ∀ (n : Nat) (t : Tree (K × V) n) (a : Addr),
      Repr ty h n t a → Loose s ty n t → (0 < n → 0 < Tree.width n t) →
      Sorted (Tree.entries n t) →
      ∃ l es r, leafFor h key n a = .ok (Table.leaf ty es) ∧ Tree.entries n t = l ++ es ++ r ∧
        Below l key ∧ Above r key ∧ es.length < countWidth ∧ Plain ty es := by
  intro n
  induction n with
  | zero =>
    intro es a hr _ _ _
    refine ⟨[], es, [], ?_, by simp, by simp [Below], by simp [Above], hr.2.1, hr.2.2⟩
    unfold leafFor
    have hleaf : (Table.leaf ty es).isLeaf = true := rfl
    simp only [deref_ok hr.1, bind, Except.bind, hleaf, if_true]
  | succ n ih =>
    intro cs a hr hl hw hsort
    have hcs : cs ≠ [] := length_pos_iff.mp (hw (Nat.succ_pos n))
    obtain ⟨T, l, c, r, la, ca, ra, hget, hleaf, -, rfl, hci, hchild, -, -, hca, -, hcut, hbelow,
      habove, hfullc, hsortc⟩ := branch_cut hs key hr hl hcs hsort
    rw [hcut]
    have hwc : 0 < n → 0 < Tree.width n c := fun hn => by
      have := hfullc.two_le hs hn
      omega
    obtain ⟨l', es, r', heq, hes, hl', hr', hlt, hplain⟩ := ih c ca hca hfullc.1 hwc hsortc
    refine ⟨l.flatMap (Tree.entries n) ++ l', es, r' ++ r.flatMap (Tree.entries n), ?_, ?_, ?_, ?_,
      hlt, hplain⟩
    · unfold leafFor
      simp only [deref_ok hget, bind, Except.bind, hleaf, Bool.false_eq_true, if_false, hci,
        hchild]
      exact heq
    · rw [hes]
      simp
    · intro e he
      rcases mem_append.mp he with he | he
      · exact hbelow e he
      · exact hl' e he
    · intro e he
      rcases mem_append.mp he with he | he
      · exact hr' e he
      · exact habove e he

variable {a : Addr} {es : List (K × V)}

theorem Denotes.leafFor (hs : s.Ok) (key : K)
    (hd : Denotes s ty h a es) :
    ∃ T l m r, deref h a = .ok T ∧ leafFor h key T.height a = .ok (Table.leaf ty m) ∧
      es = l ++ m ++ r ∧ Below l key ∧ Above r key ∧ m.length < countWidth ∧ Plain ty m ∧
      Sorted m := by
  obtain ⟨n, t, hr, hl, hw, hsort, rfl⟩ := hd
  obtain ⟨T, hget, hread⟩ := hr.reads
  obtain ⟨l, m, r, heq, hes, hb, ha, hlt, hp⟩ := leafFor_spec hs key n t a hr hl
    (fun hn => by have := hw hn; omega) hsort
  refine ⟨T, l, m, r, deref_ok hget, by rw [hread.height]; exact heq, hes, hb, ha, hlt, hp, ?_⟩
  rw [hes] at hsort
  exact hsort.sublist ((sublist_append_right _ _).trans (sublist_append_left _ _))

theorem has_spec (hs : s.Ok) (key : K)
    (hd : Denotes s ty h a es) : has h a key = .ok (find key es).isSome := by
  obtain ⟨T, l, m, r, hT, hleaf, rfl, hb, ha, hlt, -, hsort⟩ := hd.leafFor hs key
  unfold has
  simp only [hT, hleaf, bind, Except.bind]
  rw [find_cut key hb ha]
  rcases leaf_search ty key hsort hlt with
    ⟨l', v, r', rfl, -, hfind, hb', ha'⟩ | ⟨l', r', rfl, -, hfind, hb', ha'⟩
  · have hsome : (find key (l' ++ (key, v) :: r')).isSome = true :=
      find_isSome.2 ⟨(key, v), by simp, rfl⟩
    rw [hfind, hsome]
    rfl
  · have hnone : find key (l' ++ r') = none := by
      have := find_cut (m := []) key hb' ha'
      simpa using this
    rw [hfind, hnone]
    rfl

theorem lookup_spec (hs : s.Ok) (key : K)
    (hd : Denotes s ty h a es) : lookup ty h a key = .ok (find key es) := by
  obtain ⟨T, l, m, r, hT, hleaf, rfl, hb, ha, hlt, hplain, hsort⟩ := hd.leafFor hs key
  unfold lookup
  simp only [hT, hleaf, bind, Except.bind]
  rw [find_cut key hb ha]
  rcases leaf_search ty key hsort hlt with
    ⟨l', v, r', rfl, -, hfind, hb', ha'⟩ | ⟨l', r', rfl, -, hfind, hb', ha'⟩
  · have hval : find key (l' ++ (key, v) :: r') = some v := (find_eq_some hsort).mpr (by simp)
    simp only [hfind, hval, entries_leaf hlt hplain]
    simp
  · have hnone : find key (l' ++ r') = none := by
      have := find_cut (m := []) key hb' ha'
      simpa using this
    simp only [hfind, hnone]

/-! ## The walk over the leaves -/

theorem forEachLeaf_spec :
    ∀ (n : Nat) (t : Tree (K × V) n) (a : Addr), Repr ty h n t a →
      ∃ leaves, forEachLeaf h n a = .ok leaves ∧
        leaves.flatMap (Table.entries ty) = Tree.entries n t := by
  intro n
  induction n with
  | zero =>
    intro es a hr
    refine ⟨[Table.leaf ty es], ?_, by simp [entries_leaf hr.2.1 hr.2.2]⟩
    unfold forEachLeaf
    have hleaf : (Table.leaf ty es).isLeaf = true := rfl
    simp only [deref_ok hr.1, bind, Except.bind, hleaf, if_true]
  | succ n ih =>
    intro cs a hr
    obtain ⟨T, hget, hht, -, -, -, hch⟩ := hr
    have hall : ∃ lss, T.children.mapM (forEachLeaf h n) = .ok lss ∧
        lss.flatten.flatMap (Table.entries ty) = cs.flatMap (Tree.entries n) := by
      clear hget hht
      generalize T.children = as at hch
      induction hch with
      | nil => exact ⟨[], rfl, rfl⟩
      | @cons c a cs as hc _ ihs =>
        obtain ⟨ls, hls, hents⟩ := ih c a hc
        obtain ⟨lss, hlss, hrest⟩ := ihs
        refine ⟨ls :: lss, ?_, by simp [hents, hrest]⟩
        simp only [mapM_cons, hls, hlss, bind, Except.bind]
        rfl
    obtain ⟨lss, hm, hents⟩ := hall
    refine ⟨lss.flatten, ?_, hents⟩
    have hleaf : T.isLeaf = false := by simp [Table.isLeaf, hht]
    unfold forEachLeaf
    simp only [deref_ok hget, bind, Except.bind, hleaf, Bool.false_eq_true, if_false, hm]

theorem forEachEntry_spec
    (hd : Denotes s ty h a es) : forEachEntry ty h a = .ok es := by
  obtain ⟨n, t, hr, -, -, -, rfl⟩ := hd
  obtain ⟨T, hget, hread⟩ := hr.reads
  obtain ⟨leaves, hl, hents⟩ := forEachLeaf_spec n t a hr
  unfold forEachEntry
  simp only [deref_ok hget, bind, Except.bind, hread.height, hl, hents]

theorem arrayOf_spec {α : Type} (column : K × V → α)
    (hd : Denotes s ty h a es) :
    arrayOf ty column h a = .ok (es.map column) := by
  have hwalk := forEachEntry_spec hd
  obtain ⟨n, t, hr, -, -, -, rfl⟩ := hd
  obtain ⟨T, hget, hread⟩ := hr.reads
  unfold arrayOf
  simp only [deref_ok hget, bind, Except.bind, hwalk, hread.size]
  split
  · next h0 => rw [length_eq_zero_iff.mp h0]; rfl
  · rfl

/-! ## The height of a tree -/

/-- Every branch at least doubles the entries. -/
theorem Full.pow_le (hs : s.Ok) : ∀ {n : Nat} {t : Tree (K × V) n},
    Full s ty n t → 2 ^ n ≤ (Tree.entries n t).length
  | 0, es, hf => by
    exact length_pos_iff.mpr (hf.entries_ne_nil hs)
  | n + 1, cs, hf => by
    have htwo : 2 ≤ List.length cs := hf.two_le hs (Nat.succ_pos n)
    match cs, htwo, hf with
    | x :: y :: rest, _, hf =>
      have hx := Full.pow_le hs ((loose_succ.1 hf.1).2 x (by simp))
      have hy := Full.pow_le hs ((loose_succ.1 hf.1).2 y (by simp))
      simp only [Tree.entries_succ, flatMap_cons, length_append, pow_succ]
      omega

/-- A root of two children is a tree of at least as many entries. -/
theorem height_bound (hs : s.Ok) {n : Nat} {t : Tree (K × V) n}
    (hr : Repr ty h n t a) (hl : Loose s ty n t) (hw : 0 < n → 2 ≤ Tree.width n t) :
    n ≤ kMaxHeight := by
  obtain ⟨T, -, hread⟩ := hr.reads
  have hlt := hread.bound
  match n, t, hl, hw, hlt with
  | 0, _, _, _, _ => exact Nat.zero_le _
  | n + 1, cs, hl, hw, hlt =>
    have htwo : 2 ≤ List.length cs := hw (Nat.succ_pos n)
    match cs, htwo, hl, hlt with
    | x :: rest, _, hl, hlt =>
      have hx := ((loose_succ.1 hl).2 x (by simp)).pow_le hs
      have hpow : 2 ^ n < 2 ^ 32 := by
        refine lt_of_le_of_lt (le_trans hx ?_) hlt
        simp
      have hn : n < 32 := (Nat.pow_lt_pow_iff_right (by omega)).mp hpow
      unfold kMaxHeight
      omega

/-! ## Cursors -/

/-- The entries to the right of a table of height `k` that `path` leads to. -/
def Pending (s : Shape) (ty : CollectionType) (h : Heap K V) :
    Nat → List (Table K V × Nat) → List (K × V) → Prop
  | _, [], after => after = []
  | k, (T, i) :: path, after => T.height = k + 1 ∧ i < T.count ∧
      ∃ (r : List (Tree (K × V) k)) (after' : List (K × V)),
        Forall₂ (Repr ty h k) r (T.children.drop (i + 1)) ∧ (∀ c ∈ r, Full s ty k c) ∧
        after = r.flatMap (Tree.entries k) ++ after' ∧ Pending s ty h (k + 1) path after'

/-- The cursor stands before the entries `rest`. -/
def Cursor.At (s : Shape) (ty : CollectionType) (h : Heap K V) (c : Cursor K V)
    (rest : List (K × V)) : Prop :=
  (c.leaf = none ∧ rest = []) ∨
  ∃ es after, c.leaf = some (Table.leaf ty es) ∧ c.pos < es.length ∧ es.length < countWidth ∧
    Plain ty es ∧ rest = es.drop c.pos ++ after ∧ Pending s ty h 0 c.path after ∧
    c.path.length ≤ kMaxHeight

theorem leftmostLeaf_spec (hs : s.Ok) :
    ∀ (n fuel : Nat) (t : Tree (K × V) n) (a : Addr) (path : List (Table K V × Nat))
      (after : List (K × V)), n ≤ fuel → Repr ty h n t a → Loose s ty n t →
      (0 < n → 0 < Tree.width n t) → Pending s ty h n path after →
      path.length + n ≤ kMaxHeight →
      ∃ es path' after', leftmostLeaf h fuel a path = .ok (Table.leaf ty es, path') ∧
        Tree.entries n t ++ after = es ++ after' ∧ Pending s ty h 0 path' after' ∧
        path'.length = path.length + n ∧ es.length < countWidth ∧ Plain ty es ∧
        (Tree.entries n t ≠ [] → es ≠ []) := by
  intro n
  induction n with
  | zero =>
    intro fuel es a path after _ hr _ _ hpend _
    refine ⟨es, path, after, ?_, rfl, hpend, rfl, hr.2.1, hr.2.2, fun hne => hne⟩
    have hleaf : (Table.leaf ty es).isLeaf = true := rfl
    cases fuel <;> simp only [leftmostLeaf, deref_ok hr.1, bind, Except.bind, hleaf, if_true]
  | succ n ih =>
    intro fuel cs a path after hfuel hr hl hw hpend hdepth
    obtain ⟨T, hget, hht, -, -, -, hch⟩ := hr
    have hpos : 0 < List.length cs := hw (Nat.succ_pos n)
    match cs, hpos, hl, hch with
    | c :: rest, _, hl, hch =>
      match hchildren : T.children, hch with
      | ca :: ra, .cons hca hra =>
        have hfullc : Full s ty n c := (loose_succ.1 hl).2 c (by simp)
        have hpend' : Pending s ty h n ((T, 0) :: path)
            (rest.flatMap (Tree.entries n) ++ after) := by
          refine ⟨hht, by simp [Table.count, hchildren], rest, after, by simpa [hchildren] using hra,
            fun x hx => (loose_succ.1 hl).2 x (by simp [hx]), rfl, hpend⟩
        obtain ⟨f, rfl⟩ : ∃ f, fuel = f + 1 := ⟨fuel - 1, by omega⟩
        obtain ⟨es, path', after', heq, hents, hp', hlen, hlt, hplain, hne⟩ :=
          ih f c ca ((T, 0) :: path) _ (by omega) hca hfullc.1
            (fun hn => by have := hfullc.two_le hs hn; omega) hpend'
            (by simp only [length_cons]; omega)
        refine ⟨es, path', after', ?_, ?_, hp', ?_, hlt, hplain,
          fun _ => hne (hfullc.entries_ne_nil hs)⟩
        · have hleaf : T.isLeaf = false := by simp [Table.isLeaf, hht]
          have hguard : ¬ kMaxHeight ≤ path.length := by omega
          have hchild : T.children[0]? = some ca := by simp [hchildren]
          unfold leftmostLeaf
          simp only [deref_ok hget, bind, Except.bind, hleaf, Bool.false_eq_true, if_false,
            if_neg hguard, hchild]
          exact heq
        · rw [← hents]
          simp
        · rw [hlen, length_cons]
          omega

theorem Cursor.start_spec (hs : s.Ok)
    (hd : Denotes s ty h a es) :
    ∃ c, Cursor.start h a = .ok c ∧ c.At s ty h es := by
  obtain ⟨n, t, hr, hl, hw, -, rfl⟩ := hd
  obtain ⟨T, hget, hread⟩ := hr.reads
  obtain ⟨es, path, after, heq, hents, hpend, hlen, hlt, hplain, hne⟩ :=
    leftmostLeaf_spec hs n T.height t a [] [] (by rw [hread.height]) hr hl
      (fun hn => by have := hw hn; omega) (by simp [Pending])
      (by simpa using height_bound hs hr hl hw)
  have hsize : (Table.leaf ty es).size = es.length := Nat.mod_eq_of_lt hlt
  simp only [append_nil] at hents
  unfold Cursor.start
  simp only [deref_ok hget, bind, Except.bind, heq, hsize]
  by_cases h0 : es.length = 0
  · refine ⟨_, rfl, .inl ⟨by simp [h0], ?_⟩⟩
    by_contra hcon
    exact hne hcon (length_eq_zero_iff.mp h0)
  · refine ⟨_, rfl, .inr ⟨es, after, by simp [h0], pos_of_ne_zero h0, hlt, hplain, ?_, hpend,
      ?_⟩⟩
    · simpa using hents
    · simp only
      rw [hlen]
      simpa using height_bound hs hr hl hw

theorem Cursor.At.entry {c : Cursor K V} {rest : List (K × V)}
    (hc : c.At s ty h rest) : c.entry ty = rest.head? := by
  rcases hc with ⟨hnone, rfl⟩ | ⟨es, after, hleaf, hpos, hlt, hplain, rfl, -, -⟩
  · simp [Cursor.entry, hnone]
  · have hdrop : es.drop c.pos = es[c.pos] :: es.drop (c.pos + 1) := drop_eq_getElem_cons hpos
    rw [hdrop]
    simp [Cursor.entry, hleaf, entries_leaf hlt hplain, hpos]

/-- Climbing to the nearest step with a further child. -/
theorem Cursor.up_spec :
    ∀ (path : List (Table K V × Nat)) (k : Nat) (after : List (K × V)),
      Pending s ty h k path after →
      (Cursor.up path = [] ∧ after = []) ∨
      ∃ T i path' m ca after', ∃ c : Tree (K × V) m, Cursor.up path = (T, i) :: path' ∧
        T.height = m + 1 ∧ T.children[i + 1]? = some ca ∧ Repr ty h m c ca ∧ Full s ty m c ∧
        after = Tree.entries m c ++ after' ∧ Pending s ty h m ((T, i + 1) :: path') after' ∧
        path'.length + 1 + m ≤ path.length + k := by
  intro path
  induction path with
  | nil => exact fun k after hp => .inl ⟨rfl, hp⟩
  | cons step path ih =>
    rintro k after ⟨hht, hi, r, after', hr, hfull, rfl, hp⟩
    obtain ⟨T, i⟩ := step
    simp only at hht hi hr
    have hlen : r.length = T.count - (i + 1) := by
      rw [hr.length_eq, length_drop]
      rfl
    unfold Cursor.up
    by_cases hlast : i + 1 = T.count
    · have hnil : r = [] := length_eq_zero_iff.mp (by omega)
      subst hnil
      simp only [if_pos hlast, flatMap_nil, nil_append]
      rcases ih (k + 1) after' hp with ⟨hup, hafter⟩ | ⟨T', i', p', m, ca, a', c, hup, h1, h2, h3, h4,
        h5, h6, h7⟩
      · exact .inl ⟨hup, hafter⟩
      · exact .inr ⟨T', i', p', m, ca, a', c, hup, h1, h2, h3, h4, h5, h6, by
          simp only [length_cons]
          omega⟩
    · simp only [if_neg hlast]
      have hlt : i + 1 < T.children.length := by
        have : T.count = T.children.length := rfl
        omega
      rw [drop_eq_getElem_cons hlt] at hr
      match r, hr with
      | c :: r, .cons hc hr =>
        refine .inr ⟨T, i, path, k, _, r.flatMap (Tree.entries k) ++ after', c, rfl, hht,
          getElem?_eq_getElem hlt, hc, hfull c (by simp), by simp, ⟨hht, hlt, r, after', hr,
          fun x hx => hfull x (by simp [hx]), rfl, hp⟩, by simp⟩

theorem Cursor.next_spec (hs : s.Ok) {c : Cursor K V} {e : K × V}
    {rest : List (K × V)} (hc : c.At s ty h (e :: rest)) :
    ∃ c', c.next h = .ok c' ∧ c'.At s ty h rest := by
  rcases hc with ⟨-, hnil⟩ | ⟨es, after, hleaf, hpos, hlt, hplain, hrest, hpend, hdepth⟩
  · exact absurd hnil (by simp)
  have hsize : (Table.leaf ty es).size = es.length := Nat.mod_eq_of_lt hlt
  have hdrop : es.drop c.pos = es[c.pos] :: es.drop (c.pos + 1) := drop_eq_getElem_cons hpos
  rw [hdrop, cons_append, List.cons.injEq] at hrest
  obtain ⟨-, rfl⟩ := hrest
  unfold Cursor.next
  simp only [hleaf, hsize]
  by_cases hmore : c.pos + 1 < es.length
  · simp only [if_pos hmore]
    exact ⟨_, rfl, .inr ⟨es, after, rfl, hmore, hlt, hplain, rfl, hpend, hdepth⟩⟩
  · simp only [if_neg hmore]
    have hend : es.drop (c.pos + 1) = [] := drop_eq_nil_of_le (by omega)
    rw [hend, nil_append]
    rcases Cursor.up_spec c.path 0 after hpend with ⟨hup, rfl⟩ | ⟨T, i, path', m, ca, after', t, hup,
      hht, hchild, hr, hfull, rfl, hp, hlen⟩
    · rw [hup]
      exact ⟨_, rfl, .inl ⟨rfl, rfl⟩⟩
    · simp only [hup, hchild]
      obtain ⟨es', path2, after2, heq, hents, hp2, hlen2, hlt2, hplain2, hne⟩ :=
        leftmostLeaf_spec hs m T.height t ca ((T, i + 1) :: path') after' (by omega) hr hfull.1
          (fun hn => by have := hfull.two_le hs hn; omega) hp
          (by simp only [length_cons]; omega)
      simp only [heq, bind, Except.bind]
      have hes : es' ≠ [] := hne (hfull.entries_ne_nil hs)
      refine ⟨_, rfl, .inr ⟨es', after2, rfl, length_pos_iff.mpr hes, hlt2, hplain2, ?_, hp2,
        ?_⟩⟩
      · simpa using hents
      · simp only
        rw [hlen2, length_cons]
        omega

/-- A loop over a cursor is a loop over the entries it has left. -/
theorem Cursor.fold_eq (hs : s.Ok) {β : Type} (step : β → K × V → Except Fault β)
    (rest : List (K × V)) :
    ∀ (fuel : Nat) (c : Cursor K V) (acc : β), c.At s ty h rest → rest.length ≤ fuel →
      Cursor.fold ty step fuel h c acc = rest.foldlM step acc := by
  induction rest with
  | nil =>
    intro fuel c acc hc _
    unfold Cursor.fold
    simp only [hc.entry, head?_nil, foldlM_nil]
    rfl
  | cons e rest ih =>
    intro fuel c acc hc hfuel
    rw [length_cons] at hfuel
    obtain ⟨f, rfl⟩ : ∃ f, fuel = f + 1 := ⟨fuel - 1, by omega⟩
    obtain ⟨c', hnext, hc'⟩ := Cursor.next_spec hs hc
    unfold Cursor.fold
    simp only [hc.entry, head?_cons, foldlM_cons]
    cases hstep : step acc e with
    | error f => simp [bind, Except.bind]
    | ok acc' =>
      simp only [bind, Except.bind, hnext]
      exact ih f c' acc' hc' (by omega)

theorem forCursor_eq (hs : s.Ok) {β : Type} (step : β → K × V → Except Fault β)
    (hd : Denotes s ty h a es) (acc : β) :
    forCursor ty h a step acc = es.foldlM step acc := by
  obtain ⟨c, hstart, hc⟩ := Cursor.start_spec hs hd
  obtain ⟨n, t, hr, -, -, -, rfl⟩ := hd
  obtain ⟨T, hget, hread⟩ := hr.reads
  unfold forCursor
  simp only [deref_ok hget, bind, Except.bind, hstart]
  exact Cursor.fold_eq hs step _ T.size c acc hc (by rw [hread.size])

/-! ## What a cursor visits -/

/-- The positions a cursor over the collection at `a` takes. -/
inductive Cursor.Passes (ty : CollectionType) (h : Heap K V) (a : Addr) : Cursor K V → Prop where
  | start {c : Cursor K V} : Cursor.start h a = .ok c → Passes ty h a c
  | next {c c' : Cursor K V} {e : K × V} : Passes ty h a c → c.entry ty = some e →
    c.next h = .ok c' → Passes ty h a c'

theorem Cursor.Passes.at (hs : s.Ok) (hd : Denotes s ty h a es) {c : Cursor K V}
    (hc : Cursor.Passes ty h a c) : ∃ rest, c.At s ty h rest := by
  induction hc with
  | start hstart =>
    obtain ⟨c, hc, hat⟩ := Cursor.start_spec hs hd
    rw [hstart] at hc
    cases hc
    exact ⟨es, hat⟩
  | next _ hentry hnext ih =>
    obtain ⟨rest, hat⟩ := ih
    rw [hat.entry] at hentry
    obtain ⟨e, rest, rfl⟩ : ∃ e r, rest = e :: r := by
      cases rest with
      | nil => cases hentry
      | cons e r => exact ⟨e, r, rfl⟩
    obtain ⟨c', hc', hat'⟩ := Cursor.next_spec hs hat
    rw [hnext] at hc'
    cases hc'
    exact ⟨rest, hat'⟩

/-- A collection of any shape is at most `kMaxHeight` high. A cursor over it starts, keeps its path
    within that bound, can always go on from an entry, and visits the entries in order. -/
theorem cursor_visits (requested : ShapeRequest) (ty : CollectionType) (h : Heap K V) (a : Addr)
    (es : List (K × V)) (hd : Denotes (shape requested) ty h a es) :
    (∃ T, h[a]? = some T ∧ T.height ≤ kMaxHeight) ∧
      (∃ c, Cursor.start h a = .ok c) ∧
      (∀ c, Cursor.Passes ty h a c → ∀ e, c.entry ty = some e →
        c.path.length ≤ kMaxHeight ∧ ∃ c', c.next h = .ok c') ∧
      Sorted es ∧
      forCursor ty h a (fun out e => .ok (out ++ [e])) [] = .ok es := by
  have hs := shape_ok requested
  refine ⟨?_, ?_, fun c hc e hentry => ?_, hd.sorted, ?_⟩
  · obtain ⟨n, t, hr, hl, hw, -, -⟩ := hd
    obtain ⟨T, hget, hread⟩ := hr.reads
    exact ⟨T, hget, hread.height ▸ height_bound hs hr hl hw⟩
  · obtain ⟨c, hc, -⟩ := Cursor.start_spec hs hd
    exact ⟨c, hc⟩
  · obtain ⟨rest, hat⟩ := hc.at hs hd
    have hhead := hat.entry
    rw [hentry] at hhead
    cases rest with
    | nil => cases hhead
    | cons e' rest =>
      obtain ⟨c', hnext, -⟩ := Cursor.next_spec hs hat
      rcases hat with ⟨-, hnil⟩ | ⟨es', after, -, -, -, -, -, -, hdepth⟩
      · cases hnil
      · exact ⟨hdepth, c', hnext⟩
  · rw [forCursor_eq hs _ hd]
    have hkeep : ∀ (l out : List (K × V)),
        l.foldlM (fun out e => (Except.ok (out ++ [e]) : Except Fault (List (K × V)))) out =
          .ok (out ++ l) := by
      intro l
      induction l with
      | nil => exact fun out => by rw [foldlM_nil, append_nil]; rfl
      | cons e l ih =>
        intro out
        rw [foldlM_cons]
        exact (ih (out ++ [e])).trans (by rw [append_assoc]; rfl)
    exact hkeep es []

/-- The collection of one entry. -/
theorem cursor_visits_one :
    forCursor (V := Nat) ⟨true⟩ [Table.leaf ⟨true⟩ [(7, 1)]] 0 (fun out e => .ok (out ++ [e])) [] =
      .ok [(7, 1)] :=
  (cursor_visits {} ⟨true⟩ [Table.leaf ⟨true⟩ [(7, 1)]] 0 [(7, 1)]
    ⟨0, [(7, 1)], ⟨rfl, by decide, nofun⟩, (show 1 ≤ 64 by decide), nofun, by decide, rfl⟩).2.2.2.2

end Camel.Collection
