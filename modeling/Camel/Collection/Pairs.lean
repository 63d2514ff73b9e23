import Camel.Collection.Walk
import Camel.Collection.Validate

/-! # The operations on two collections

    Each operation chooses by the sizes of its operands among a pass over two
    leaves, a loop that applies the smaller side to the larger one entry by
    entry, and a walk with two cursors.  All of them give the operation on the
    finite maps. -/

set_option linter.unusedSectionVars false

namespace Camel.Collection

open SortedEntries List

variable {K V : Type} [LinearOrder K] [Inhabited V]
variable {s : Shape} {ty : CollectionType}

/-! ## What the operations read off a collection -/

variable {h : Heap K V}

theorem Repr.plain : ∀ (n : Nat) (t : Tree (K × V) n) (a : Addr),
    Repr ty h n t a → Plain ty (Tree.entries n t)
  | 0, _, _, hr => hr.2.2
  | n + 1, cs, _, ⟨T, _, _, _, _, _, hch⟩ => by
    intro hset e he
    obtain ⟨c, hc, hec⟩ := mem_flatMap.mp he
    obtain ⟨i, hi, rfl⟩ := mem_iff_getElem.mp hc
    have hlen := hch.length_eq
    have hci : Repr ty h n cs[i] T.children[i] := hch.get hi (by omega)
    exact Repr.plain n _ _ hci hset e hec

variable {a : Addr} {es : List (K × V)}

theorem Denotes.plain
    (hd : Denotes s ty h a es) : Plain ty es := by
  obtain ⟨n, t, hr, -, -, -, rfl⟩ := hd
  exact hr.plain

/-- The root table of a collection. -/
theorem Denotes.table (hd : Denotes s ty h a es) :
    ∃ T, h[a]? = some T ∧ T.size = es.length ∧
      (T.isLeaf = true → T.entries ty = es ∧ es.length ≤ leafCapacity s ty) := by
  obtain ⟨n, t, hr, hl, -, -, rfl⟩ := hd
  obtain ⟨T, hget, hread⟩ := hr.reads
  refine ⟨T, hget, hread.size, ?_⟩
  intro hleaf
  have hn : n = 0 := by
    rw [← hread.height]
    simpa [Table.isLeaf] using hleaf
  subst hn
  rw [Option.some.inj (hget.symm.trans hr.1)]
  exact ⟨entries_leaf hr.2.1 hr.2.2, hl⟩

theorem denotes_leaf
    (hget : h[a]? = some (Table.leaf ty es)) (hlt : es.length < countWidth) (hp : Plain ty es)
    (hcap : es.length ≤ leafCapacity s ty) (hsort : Sorted es) : Denotes s ty h a es :=
  ⟨0, es, ⟨hget, hlt, hp⟩, hcap, fun h0 => absurd h0 (lt_irrefl 0), hsort, rfl⟩

variable {b : List (K × V)}

theorem plain_union {a : List (K × V)} (ha : Plain ty a) (hb : Plain ty b) :
    Plain ty (unionEntries a b) := by
  induction b generalizing a with
  | nil => exact ha
  | cons e b ih =>
    refine ih (fun hset x hx => ?_) (fun hset x hx => hb hset x (by simp [hx]))
    rcases mem_append.mp hx with hx | hx
    · exact ha hset x (mem_filter.mp hx).1
    · rcases mem_cons.mp hx with rfl | hx
      · exact hb hset e (by simp)
      · exact ha hset x (mem_filter.mp hx).1

theorem plain_filter {a : List (K × V)} (ha : Plain ty a) (p : K × V → Bool) :
    Plain ty (a.filter p) := fun hset x hx => ha hset x (mem_filter.mp hx).1

/-! ## Two leaves -/

variable (s ty) in
theorem finished_spec (capacity : Nat) (hlt : es.length < countWidth)
    (h : Heap K V) :
    ∃ h' x, finished s ty capacity es h = .ok (h', x) ∧ h <+: h' ∧
      h'[x]? = some (Table.leaf ty es) := by
  have hslots : ¬ leafSlots s capacity ty false < capacity := by
    unfold leafSlots
    cases ty.isMap <;> simp
    omega
  unfold finished
  rw [if_neg hslots]
  split
  · next hcount =>
    refine ⟨_, _, rfl, prefix_append _ _, ?_⟩
    have hsize : (Table.leaf ty es).size = capacity % countWidth := by
      rw [← hcount]
      exact Nat.mod_eq_of_lt hlt
    simp [← hsize]
  · rw [leafOf_ok]
    exact ⟨_, _, rfl, (prefix_append _ _).trans (prefix_append _ _), by simp⟩

theorem normalized_spec (hs : s.Ok) {x : Addr}
    (hget : h[x]? = some (Table.leaf ty es)) (hlt : es.length < countWidth) (hp : Plain ty es)
    (hsort : Sorted es) :
    ∃ h' a, normalized s ty x h = .ok (h', a) ∧ h <+: h' ∧ Denotes s ty h' a es := by
  have hsize : (Table.leaf ty es).size = es.length := Nat.mod_eq_of_lt hlt
  unfold normalized
  simp only [deref_ok hget, bind, Except.bind, hsize, entries_leaf hlt hp]
  split
  · next hcap => exact ⟨h, x, rfl, prefix_rfl, denotes_leaf hget hlt hp hcap hsort⟩
  · exact buildTree_spec hs hsort hp hlt h

/-! ## Entry by entry -/

/-- The entries of `l` put into a collection one after the other. -/
theorem foldlM_insert (hs : s.Ok) (l : List (K × V)) (hl : Plain ty l) :
    ∀ (h : Heap K V) (a : Addr) (es : List (K × V)), Denotes s ty h a es →
      (unionEntries es l).length < countWidth →
      ∃ h' a', l.foldlM (fun (r : Heap K V × Addr) e => insert s ty r.2 e.1 e.2 r.1) (h, a) =
          .ok (h', a') ∧ h <+: h' ∧ Denotes s ty h' a' (unionEntries es l) := by
  induction l with
  | nil => exact fun h a es hd _ => ⟨h, a, rfl, prefix_rfl, hd⟩
  | cons e l ih =>
    intro h a es hd hlt
    have hsort := sorted_insertEntry e.1 e.2 hd.sorted
    have hstep : unionEntries es (e :: l) = unionEntries (insertEntry e.1 e.2 es) l := rfl
    rw [hstep] at hlt
    obtain ⟨h1, a1, heq, hp1, hd1⟩ := insert_spec hs e.1 e.2 (fun hset => hl hset e (by simp)) hd
      (lt_of_le_of_lt (length_le_unionEntries l hsort) hlt)
    obtain ⟨h2, a2, hfold, hp2, hd2⟩ := ih (fun hset x hx => hl hset x (by simp [hx])) h1 a1 _ hd1 hlt
    refine ⟨h2, a2, ?_, hp1.trans hp2, hd2⟩
    simp only [foldlM_cons, heq, bind, Except.bind]
    exact hfold

/-- The keys of `l` taken out of a collection one after the other. -/
theorem foldlM_remove (hs : s.Ok) (l : List (K × V)) :
    ∀ (h : Heap K V) (a : Addr) (es : List (K × V)), Denotes s ty h a es →
      ∃ h' a', l.foldlM (fun (r : Heap K V × Addr) e => removeKey s ty r.2 e.1 r.1) (h, a) =
          .ok (h', a') ∧ h <+: h' ∧ Denotes s ty h' a' (diffEntries es l) := by
  induction l with
  | nil =>
    intro h a es hd
    refine ⟨h, a, rfl, prefix_rfl, ?_⟩
    have hsame : diffEntries es ([] : List (K × V)) = es :=
      filter_eq_self.mpr (fun e _ => rfl)
    rw [hsame]
    exact hd
  | cons e l ih =>
    intro h a es hd
    obtain ⟨h1, a1, heq, hp1, -, hd1⟩ := removeKey_spec hs e.1 hd
    obtain ⟨h2, a2, hfold, hp2, hd2⟩ := ih h1 a1 _ hd1
    refine ⟨h2, a2, ?_, hp1.trans hp2, ?_⟩
    · simp only [foldlM_cons, heq, bind, Except.bind]
      exact hfold
    · have hdiff : diffEntries (eraseEntry e.1 es) l = diffEntries es (e :: l) := by
        unfold diffEntries eraseEntry
        rw [filter_filter]
        refine filter_congr ?_
        intro x _
        rw [find_cons]
        by_cases hx : e.1 = x.1
        · simp [hx]
        · simp [hx, Ne.symm hx]
      rw [← hdiff]
      exact hd2

/-- A loop that collects the entries whose key passes a test. -/
theorem foldlM_keep (step : List (K × V) → K × V → Except Fault (List (K × V))) (p : K → Bool)
    (l : List (K × V))
    (hstep : ∀ out, ∀ e ∈ l, step out e = .ok (if p e.1 then out ++ [bare e] else out)) :
    ∀ out, l.foldlM step out = .ok (out ++ (l.filter (fun e => p e.1)).map bare) := by
  induction l with
  | nil =>
    intro out
    simp
    rfl
  | cons e l ih =>
    intro out
    simp only [foldlM_cons, hstep out e (by simp), bind, Except.bind]
    rw [ih (fun out x hx => hstep out x (by simp [hx]))]
    by_cases hp : p e.1 <;> simp [hp]

/-- A loop that does nothing for the entries whose key passes a test. -/
theorem foldlM_skip {β : Type} (step step' : β → K × V → Except Fault β) (p : K → Bool)
    (l : List (K × V))
    (hstep : ∀ acc, ∀ e ∈ l, step acc e = if p e.1 then .ok acc else step' acc e) :
    ∀ acc, l.foldlM step acc = (l.filter (fun e => !p e.1)).foldlM step' acc := by
  induction l with
  | nil => exact fun acc => rfl
  | cons e l ih =>
    intro acc
    have ih' := ih (fun acc x hx => hstep acc x (by simp [hx]))
    rw [foldlM_cons, hstep acc e (by simp)]
    by_cases hp : p e.1
    · simp only [hp, if_true, Bool.not_true, Bool.false_eq_true, not_false_eq_true,
        filter_cons_of_neg]
      exact ih' acc
    · simp only [hp, Bool.false_eq_true, if_false]
      rw [filter_cons_of_pos (by simp [hp]), foldlM_cons]
      exact bind_congr ih'

/-! ## Merge -/

/-- The entries of the first whose key the second lacks, put into the second. -/
theorem union_of_absent {a : List (K × V)} (ha : Sorted a) (hb : Sorted b) :
    unionEntries b (a.filter (fun e => !(find e.1 b).isSome)) = unionEntries a b := by
  refine ext_find (sorted_unionEntries _ hb) (sorted_unionEntries _ ha) ?_
  intro k
  rw [find_unionEntries (ha.filter _), find_unionEntries hb,
    find_filter (fun j => !(find j b).isSome)]
  cases hk : find k b with
  | none => simp
  | some v => simp

theorem union_nil_left (hb : Sorted b) : unionEntries [] b = b := by
  refine ext_find (sorted_unionEntries _ sorted_nil) hb ?_
  intro k
  rw [find_unionEntries hb, find_nil, Option.or_none]

/-- What the entry counts of a merge must stay below: that of the result and,
    for two sides that fit a leaf each, that of the leaf both are merged into. -/
structure MergeFits (s : Shape) (ty : CollectionType) (ea eb : List (K × V)) : Prop where
  result : (unionEntries ea eb).length < countWidth
  scratch : ea.length ≤ leafCapacity s ty → eb.length ≤ leafCapacity s ty →
    ea.length + eb.length < countWidth

variable {ea eb : List (K × V)}

theorem merge_spec (hs : s.Ok) {b : Addr}
    (ha : Denotes s ty h a ea) (hb : Denotes s ty h b eb) (hfit : MergeFits s ty ea eb) :
    ∃ h' c, merge s ty a b h = .ok (h', c) ∧ h <+: h' ∧
      Denotes s ty h' c (unionEntries ea eb) := by
  obtain ⟨ta, hga, hsa, hla⟩ := ha.table
  obtain ⟨tb, hgb, hsb, hlb⟩ := hb.table
  have hlt := hfit.result
  have hplain := plain_union ha.plain hb.plain
  have hsort := sorted_unionEntries eb ha.sorted
  unfold merge
  simp only [deref_ok hga, deref_ok hgb, bind, Except.bind]
  by_cases hb0 : tb.size = 0
  · obtain rfl : eb = [] := length_eq_zero_iff.mp (hsb ▸ hb0)
    rw [if_pos hb0]
    exact ⟨h, a, rfl, prefix_rfl, ha⟩
  rw [if_neg hb0]
  by_cases ha0 : ta.size = 0
  · obtain rfl : ea = [] := length_eq_zero_iff.mp (hsa ▸ ha0)
    rw [if_pos ha0, union_nil_left hb.sorted]
    exact ⟨h, b, rfl, prefix_rfl, hb⟩
  rw [if_neg ha0]
  by_cases hleaves : (ta.isLeaf && tb.isLeaf) = true
  · -- two leaves
    obtain ⟨hleafa, hleafb⟩ := Bool.and_eq_true_iff.mp hleaves
    obtain ⟨hea, -⟩ := hla hleafa
    obtain ⟨heb, -⟩ := hlb hleafb
    obtain ⟨h1, x, hfin, hp1, hget⟩ := finished_spec s ty (ta.size + tb.size) hlt h
    obtain ⟨h2, c, hnorm, hp2, hd⟩ := normalized_spec hs hget hlt hplain hsort
    refine ⟨h2, c, ?_, hp1.trans hp2, hd⟩
    simp only [if_pos hleaves, mergeLeaves, hea, heb, mergeWalk_eq ha.sorted hb.sorted, hfin, hnorm]
    exact Denotes.checked (r := (h2, c)) hs hd
  rw [if_neg hleaves]
  by_cases hsmallb : muchSmaller tb ta = true
  · obtain ⟨h1, c, hfold, hp, hd⟩ := foldlM_insert hs eb hb.plain h a ea ha hlt
    refine ⟨h1, c, ?_, hp, hd⟩
    simp only [if_pos hsmallb, forCursor_eq hs _ hb, hfold]
    exact Denotes.checked (r := (h1, c)) hs hd
  rw [if_neg hsmallb]
  by_cases hsmalla : muchSmaller ta tb = true
  · -- the few entries of `a` whose key `b` does not have
    have hunion := union_of_absent ha.sorted hb.sorted
    obtain ⟨h1, c, hfold, hp, hd⟩ := foldlM_insert hs (ea.filter (fun e => !(find e.1 eb).isSome))
      (plain_filter ha.plain _) h b eb hb (by rw [hunion]; exact hlt)
    rw [hunion] at hd
    refine ⟨h1, c, ?_, hp, hd⟩
    rw [if_pos hsmalla, forCursor_eq hs _ ha,
      foldlM_skip _ (fun (r : Heap K V × Addr) e => insert s ty r.2 e.1 e.2 r.1)
        (fun k => (find k eb).isSome) ea (fun r e _ => by rw [has_spec hs e.1 hb]), hfold]
    exact Denotes.checked (r := (h1, c)) hs hd
  rw [if_neg hsmalla]
  obtain ⟨x, hx, hxat⟩ := Cursor.start_spec hs ha
  obtain ⟨y, hy, hyat⟩ := Cursor.start_spec hs hb
  have hwalk := mergeCursors_eq hs (ta.size + tb.size) ea eb x y [] hxat hyat (by omega)
  rw [nil_append, mergeWalk_eq ha.sorted hb.sorted] at hwalk
  obtain ⟨h1, c, hbuild, hp, hd⟩ := buildTree_spec hs hsort hplain hlt h
  refine ⟨h1, c, ?_, hp, hd⟩
  simp only [hx, hy, hwalk, hbuild]
  exact Denotes.checked (r := (h1, c)) hs hd

/-! ## Intersection, difference and inclusion of sets -/

/-- A collection of the entries a loop has put out. -/
theorem build_checked (hs : s.Ok) (hsort : Sorted es) (hplain : Plain ty es)
    (hlt : es.length < countWidth) (h : Heap K V) :
    ∃ h' c, (do
        let r ← buildTree s ty es h
        checked s ty r) = .ok (h', c) ∧ h <+: h' ∧ Denotes s ty h' c es := by
  obtain ⟨h1, c, hbuild, hp, hd⟩ := buildTree_spec hs hsort hplain hlt h
  refine ⟨h1, c, ?_, hp, hd⟩
  simp only [hbuild, bind, Except.bind]
  exact Denotes.checked (r := (h1, c)) hs hd

/-- Sets have no values, so either side's entries will do. -/
theorem inter_comm {a : List (K × V)} (ha : Sorted a) (hb : Sorted b) (hpa : Plain ⟨false⟩ a)
    (hpb : Plain ⟨false⟩ b) : interEntries b a = interEntries a b := by
  have hval : ∀ (l : List (K × V)), Sorted l → Plain ⟨false⟩ l → ∀ k v, find k l = some v →
      v = default := fun l hs hp k v hf => hp rfl (k, v) ((find_eq_some hs).mp hf)
  refine ext_find (hb.filter _) (ha.filter _) ?_
  intro k
  rw [find_interEntries, find_interEntries]
  cases h1 : find k a with
  | none => simp
  | some v =>
    cases h2 : find k b with
    | none => simp
    | some w => simp [hval a ha hpa k v h1, hval b hb hpb k w h2]

theorem intersect_spec (hs : s.Ok) {b : Addr}
    (ha : Denotes s ⟨false⟩ h a ea) (hb : Denotes s ⟨false⟩ h b eb) :
    ∃ h' c, intersect s a b h = .ok (h', c) ∧ h <+: h' ∧
      Denotes s ⟨false⟩ h' c (interEntries ea eb) := by
  obtain ⟨ta, hga, hsa, hla⟩ := ha.table
  obtain ⟨tb, hgb, hsb, hlb⟩ := hb.table
  have hsort : Sorted (interEntries ea eb) := ha.sorted.filter _
  have hplain : Plain ⟨false⟩ (interEntries ea eb) := plain_filter ha.plain _
  have hlen : (interEntries ea eb).length ≤ ea.length := length_filter_le _ _
  have hlt : (interEntries ea eb).length < countWidth := lt_of_le_of_lt hlen ha.bound
  unfold intersect
  simp only [deref_ok hga, deref_ok hgb, bind, Except.bind]
  by_cases hleaves : (ta.isLeaf && tb.isLeaf) = true
  · obtain ⟨hleafa, hleafb⟩ := Bool.and_eq_true_iff.mp hleaves
    obtain ⟨hea, hcap⟩ := hla hleafa
    obtain ⟨heb, -⟩ := hlb hleafb
    obtain ⟨h1, x, hfin, hp, hget⟩ := finished_spec s ⟨false⟩
      (min ta.size tb.size) hlt h
    refine ⟨h1, x, ?_, hp, denotes_leaf hget hlt hplain (le_trans hlen hcap) hsort⟩
    simp only [if_pos hleaves, intersectLeaves, hea, heb, intersectWalk_eq _ _ ha.sorted hb.sorted,
      hfin]
  rw [if_neg hleaves]
  obtain ⟨h1, c, hbuild, hp, hd⟩ := build_checked hs hsort hplain hlt h
  refine ⟨h1, c, ?_, hp, hd⟩
  by_cases hsmall : (muchSmaller ta tb || muchSmaller tb ta) = true
  · rw [if_pos hsmall]
    -- the smaller side is walked, whichever it is
    have hloop : ∀ (small large : Addr) (es el : List (K × V)), Denotes s ⟨false⟩ h small es →
        Denotes s ⟨false⟩ h large el → interEntries es el = interEntries ea eb →
        forCursor ⟨false⟩ h small (fun (out : List (K × V)) e => do
          let found ← has h large e.1
          .ok (if found then out ++ [(e.1, default)] else out)) [] =
            .ok (interEntries ea eb) := by
      intro small large es el hsm hlg hsame
      rw [forCursor_eq hs _ hsm, foldlM_keep _ (fun k => (find k el).isSome) es
        (fun out e _ => by rw [has_spec hs e.1 hlg]; rfl), nil_append]
      have hbare := map_bare (plain_filter hsm.plain (fun e => (find e.1 el).isSome))
      rw [hbare]
      exact congrArg _ hsame
    by_cases hle : ta.size ≤ tb.size
    · simp only [if_pos hle]
      have := hloop a b ea eb ha hb rfl
      simp only [bind, Except.bind] at this hbuild ⊢
      rw [this]
      exact hbuild
    · simp only [if_neg hle]
      have := hloop b a eb ea hb ha (inter_comm ha.sorted hb.sorted ha.plain hb.plain)
      simp only [bind, Except.bind] at this hbuild ⊢
      rw [this]
      exact hbuild
  rw [if_neg hsmall]
  obtain ⟨x, hx, hxat⟩ := Cursor.start_spec hs ha
  obtain ⟨y, hy, hyat⟩ := Cursor.start_spec hs hb
  have hwalk := intersectCursors_eq hs (ta.size + tb.size) ea eb x y [] hxat hyat (by omega)
  rw [nil_append, intersectWalk_eq _ _ ha.sorted hb.sorted, map_bare hplain] at hwalk
  simp only [hx, hy, hwalk]
  exact hbuild

theorem difference_spec (hs : s.Ok) {b : Addr}
    (ha : Denotes s ⟨false⟩ h a ea) (hb : Denotes s ⟨false⟩ h b eb) :
    ∃ h' c, difference s a b h = .ok (h', c) ∧ h <+: h' ∧
      Denotes s ⟨false⟩ h' c (diffEntries ea eb) := by
  obtain ⟨ta, hga, hsa, hla⟩ := ha.table
  obtain ⟨tb, hgb, hsb, hlb⟩ := hb.table
  have hsort : Sorted (diffEntries ea eb) := ha.sorted.filter _
  have hplain : Plain ⟨false⟩ (diffEntries ea eb) := plain_filter ha.plain _
  have hlen : (diffEntries ea eb).length ≤ ea.length := length_filter_le _ _
  have hlt : (diffEntries ea eb).length < countWidth := lt_of_le_of_lt hlen ha.bound
  unfold difference
  simp only [deref_ok hga, deref_ok hgb, bind, Except.bind]
  by_cases h0 : (decide (tb.size = 0) || decide (ta.size = 0)) = true
  · have hsame : diffEntries ea eb = ea := by
      rcases Bool.or_eq_true_iff.mp h0 with h0 | h0
      · obtain rfl : eb = [] := length_eq_zero_iff.mp (hsb ▸ of_decide_eq_true h0)
        exact filter_eq_self.mpr (fun e _ => rfl)
      · obtain rfl : ea = [] := length_eq_zero_iff.mp (hsa ▸ of_decide_eq_true h0)
        rfl
    rw [if_pos h0, hsame]
    exact ⟨h, a, rfl, prefix_rfl, ha⟩
  rw [if_neg h0]
  by_cases hleaves : (ta.isLeaf && tb.isLeaf) = true
  · obtain ⟨hleafa, hleafb⟩ := Bool.and_eq_true_iff.mp hleaves
    obtain ⟨hea, hcap⟩ := hla hleafa
    obtain ⟨heb, -⟩ := hlb hleafb
    obtain ⟨h1, x, hfin, hp, hget⟩ := finished_spec s ⟨false⟩ ta.size hlt h
    refine ⟨h1, x, ?_, hp, denotes_leaf hget hlt hplain (le_trans hlen hcap) hsort⟩
    simp only [if_pos hleaves, differenceLeaves, hea, heb,
      differenceWalk_eq _ _ ha.sorted hb.sorted, hfin]
  rw [if_neg hleaves]
  by_cases hsmallb : muchSmaller tb ta = true
  · obtain ⟨h1, c, hfold, hp, hd⟩ := foldlM_remove hs eb h a ea ha
    refine ⟨h1, c, ?_, hp, hd⟩
    simp only [if_pos hsmallb, forCursor_eq hs _ hb, hfold]
    exact Denotes.checked (r := (h1, c)) hs hd
  rw [if_neg hsmallb]
  obtain ⟨h1, c, hbuild, hp, hd⟩ := build_checked hs hsort hplain hlt h
  refine ⟨h1, c, ?_, hp, hd⟩
  by_cases hsmalla : muchSmaller ta tb = true
  · rw [if_pos hsmalla]
    have hloop : forCursor ⟨false⟩ h a (fun (out : List (K × V)) e => do
        let found ← has h b e.1
        .ok (if found then out else out ++ [(e.1, default)])) [] = .ok (diffEntries ea eb) := by
      rw [forCursor_eq hs _ ha, foldlM_keep _ (fun k => (find k eb).isNone) ea
        (fun out e _ => by
          rw [has_spec hs e.1 hb]
          cases find e.1 eb <;> rfl), nil_append]
      exact congrArg _ (map_bare hplain)
    simp only [bind, Except.bind] at hloop hbuild ⊢
    rw [hloop]
    exact hbuild
  rw [if_neg hsmalla]
  obtain ⟨x, hx, hxat⟩ := Cursor.start_spec hs ha
  obtain ⟨y, hy, hyat⟩ := Cursor.start_spec hs hb
  have hwalk := differenceCursors_eq hs (ta.size + tb.size) ea eb x y [] hxat hyat (by omega)
  rw [nil_append, differenceWalk_eq _ _ ha.sorted hb.sorted, map_bare hplain] at hwalk
  simp only [hx, hy, hwalk]
  exact hbuild

/-- A set with more elements is no subset. -/
theorem subset_length {a : List (K × V)} (ha : Sorted a)
    (h : subsetEntries a b = true) : a.length ≤ b.length := by
  have hnodup : (a.map Prod.fst).Nodup := List.pairwise_map.mpr (Pairwise.imp ne_of_lt ha)
  have hsub : a.map Prod.fst ⊆ b.map Prod.fst := by
    intro k hk
    obtain ⟨e, he, rfl⟩ := mem_map.mp hk
    obtain ⟨x, hx, hxe⟩ := find_isSome.1 (all_eq_true.mp h e he)
    exact mem_map.mpr ⟨x, hx, hxe⟩
  simpa using (hnodup.subperm hsub).length_le

/-- A loop that stops looking at the first entry that is missing. -/
theorem foldlM_all (step : Bool → K × V → Except Fault Bool) (p : K → Bool) (l : List (K × V))
    (hstep : ∀ ok, ∀ e ∈ l, step ok e = .ok (ok && p e.1)) :
    ∀ ok, l.foldlM step ok = .ok (ok && l.all (fun e => p e.1)) := by
  induction l with
  | nil =>
    intro ok
    simp
    rfl
  | cons e l ih =>
    intro ok
    simp only [foldlM_cons, hstep ok e (by simp), bind, Except.bind]
    rw [ih (fun ok x hx => hstep ok x (by simp [hx])), all_cons, Bool.and_assoc]

theorem isSubset_spec (hs : s.Ok) {b : Addr}
    (ha : Denotes s ⟨false⟩ h a ea) (hb : Denotes s ⟨false⟩ h b eb) :
    isSubset a b h = .ok (subsetEntries ea eb) := by
  obtain ⟨ta, hga, hsa, hla⟩ := ha.table
  obtain ⟨tb, hgb, hsb, hlb⟩ := hb.table
  unfold isSubset
  simp only [deref_ok hga, deref_ok hgb, bind, Except.bind]
  by_cases hmore : ta.size > tb.size
  · have hno : subsetEntries ea eb = false := by
      by_contra hcon
      have := subset_length ha.sorted (by simpa using hcon)
      omega
    rw [if_pos hmore, hno]
  rw [if_neg hmore]
  by_cases hleaves : (ta.isLeaf && tb.isLeaf) = true
  · obtain ⟨hleafa, hleafb⟩ := Bool.and_eq_true_iff.mp hleaves
    obtain ⟨hea, hcap⟩ := hla hleafa
    obtain ⟨heb, -⟩ := hlb hleafb
    simp only [if_pos hleaves, isSubsetOfLeaf, hea, heb, subsetWalk_eq _ _ ha.sorted hb.sorted]
  rw [if_neg hleaves]
  by_cases hsmall : muchSmaller ta tb = true
  · rw [if_pos hsmall, forCursor_eq hs _ ha, foldlM_all _ (fun k => (find k eb).isSome) ea
      (fun ok e _ => by cases ok <;> simp [has_spec hs e.1 hb])]
    simp [subsetEntries]
  rw [if_neg hsmall]
  obtain ⟨x, hx, hxat⟩ := Cursor.start_spec hs ha
  obtain ⟨y, hy, hyat⟩ := Cursor.start_spec hs hb
  have hwalk := subsetCursors_eq hs (ta.size + tb.size) ea eb x y hxat hyat (by omega)
  simp only [hx, hy, hwalk, subsetWalk_eq _ _ ha.sorted hb.sorted]

/-! ## Copies -/

theorem clone_spec (hs : s.Ok)
    (hd : Denotes s ty h a es) :
    ∃ h' c, clone s ty a h = .ok (h', c) ∧ h <+: h' ∧ Denotes s ty h' c es := by
  obtain ⟨h1, c, hbuild, hp, hd'⟩ := buildTree_spec hs hd.sorted hd.plain hd.bound h
  refine ⟨h1, c, ?_, hp, hd'⟩
  simp only [clone, forEachEntry_spec hd, bind, Except.bind, hbuild]

/-- The values of a map under a rewrite of its slots. -/
def rewritten (ty : CollectionType) (rewriteValue : V → V × Bool) (e : K × V) : K × V :=
  (e.1, if ty.isMap then (rewriteValue e.2).1 else e.2)

/-- Slots rewritten over an unchanged key column: the rewrite of a slot that is
    not another one has the same content. -/
theorem withSlots_spec (hs : s.Ok)
    (rewriteKey : K → K × Bool) (rewriteValue : V → V × Bool)
    (hkey : ∀ e ∈ es, (rewriteKey e.1).1 = e.1)
    (hsame : ∀ e ∈ es, (rewriteValue e.2).2 = false → (rewriteValue e.2).1 = e.2)
    (hd : Denotes s ty h a es) :
    ∃ h' c, withSlots s ty a rewriteKey rewriteValue h = .ok (h', c) ∧ h <+: h' ∧
      Denotes s ty h' c (es.map (rewritten ty rewriteValue)) := by
  have hout : es.map (fun e => ((rewriteKey e.1).1,
      if ty.isMap then (rewriteValue e.2).1 else e.2)) = es.map (rewritten ty rewriteValue) := by
    refine map_congr_left ?_
    intro e he
    rw [hkey e he]
    rfl
  unfold withSlots
  simp only [forEachEntry_spec hd, bind, Except.bind, hout]
  split
  · have hsort : Sorted (es.map (rewritten ty rewriteValue)) := List.pairwise_map.mpr hd.sorted
    have hplain : Plain ty (es.map (rewritten ty rewriteValue)) := by
      intro hset e he
      obtain ⟨x, hx, rfl⟩ := mem_map.mp he
      simpa [rewritten, hset] using hd.plain hset x hx
    exact build_checked hs hsort hplain (by simpa using hd.bound) h
  · next hnot =>
    have hid : es.map (rewritten ty rewriteValue) = es := by
      refine (map_congr_left ?_).trans (map_id es)
      intro e he
      have hno : ¬ ((rewriteKey e.1).2 || (ty.isMap && (rewriteValue e.2).2)) = true :=
        fun hyes => hnot (any_eq_true.mpr ⟨e, he, hyes⟩)
      cases hm : ty.isMap with
      | false => simp [rewritten, hm]
      | true =>
        have hv : (rewriteValue e.2).2 = false := by
          simp only [hm, Bool.true_and, Bool.or_eq_true, not_or, Bool.not_eq_true] at hno
          exact hno.2
        simp [rewritten, hm, hsame e he hv]
    rw [hid]
    exact ⟨h, a, rfl, prefix_rfl, hd⟩

end Camel.Collection
