import Camel.Collection.Read

/-! # The check of the invariants accepts every collection

    `validate` looks at every table once, left to right, and carries the last
    key it has seen.  Over the tree a table lays out it returns the last key of
    the tree's entries, so a collection passes it. -/

set_option linter.unusedSectionVars false

namespace Camel.Collection

open SortedEntries List Option

variable {K V : Type} [LinearOrder K] [Inhabited V]
variable {s : Shape} {ty : CollectionType}

variable (last : Option K)

/-- The last key after `es`, which came after `last`. -/
def lastKey (es : List (K × V)) : Option K :=
  (es.getLast?.map Prod.fst).or last

/-- The entries continue the ascending sequence that ends in `last`. -/
def Follows (es : List (K × V)) : Prop := ∀ l, last = some l → Above es l

theorem lastKey_nil : lastKey last ([] : List (K × V)) = last := by
  simp [lastKey]

theorem lastKey_cons (e : K × V) (es : List (K × V)) :
    lastKey last (e :: es) = lastKey (some e.1) es := by
  cases es with
  | nil => simp [lastKey]
  | cons x es =>
    rw [lastKey, lastKey, getLast?_cons_cons, getLast?_eq_some_getLast (by simp)]
    rfl

theorem lastKey_append (a b : List (K × V)) :
    lastKey last (a ++ b) = lastKey (lastKey last a) b := by
  induction a generalizing last with
  | nil => rw [nil_append, lastKey_nil]
  | cons e a ih => rw [cons_append, lastKey_cons, lastKey_cons, ih]

variable {last : Option K}

/-- What is left of an ascending sequence follows what was taken from it. -/
theorem Follows.rest {a b : List (K × V)} (h : Follows last (a ++ b))
    (hs : Sorted (a ++ b)) : Follows (lastKey last a) b := by
  induction a generalizing last with
  | nil =>
    rw [lastKey_nil]
    exact h
  | cons e a ih =>
    rw [lastKey_cons]
    rw [cons_append] at hs
    obtain ⟨habove, hs'⟩ := sorted_cons.1 hs
    refine ih ?_ hs'
    intro l hl
    rw [← some.inj hl]
    exact habove

theorem Follows.left {a b : List (K × V)} (h : Follows last (a ++ b)) :
    Follows last a := fun l hl e he => h l hl e (mem_append_left b he)

theorem checkKeys_spec (t : Table K V) (es : List (K × V)) :
    ∀ (i : Nat) (last : Option K), Sorted es → Follows last es →
      checkKeys t i (es.map Prod.fst) last = .ok (lastKey last es) := by
  induction es with
  | nil =>
    intro i last _ _
    rw [lastKey_nil]
    rfl
  | cons e es ih =>
    intro i last hs hf
    obtain ⟨habove, hs'⟩ := sorted_cons.1 hs
    have hok : ¬ (last.any fun l => decide (compareKeys l e.1 ≥ 0)) = true := by
      cases last with
      | none => simp
      | some l =>
        have hlt : l < e.1 := hf l rfl e (by simp)
        have hneg : compareKeys l e.1 < 0 := compareKeys_neg.2 hlt
        simpa using hneg
    rw [map_cons, checkKeys, if_neg hok, lastKey_cons]
    refine ih (i + 1) (some e.1) hs' ?_
    intro l hl
    rw [← some.inj hl]
    exact habove

variable {h : Heap K V}

/-- The children of a branch, each of which passes. -/
theorem checkChildren_spec (hs : s.Ok) {n : Nat} (t : Table K V)
    (check : Addr → Option K → Except String (Option K)) (ht : t.height = n + 1)
    (hcheck : ∀ (c : Tree (K × V) n) (a : Addr) (last : Option K), Repr ty h n c a →
      Full s ty n c → Sorted (Tree.entries n c) → Follows last (Tree.entries n c) →
      check a last = .ok (lastKey last (Tree.entries n c))) :
    ∀ (cs : List (Tree (K × V) n)) (as : List Addr) (i : Nat) (last : Option K),
      Forall₂ (Repr ty h n) cs as → (∀ c ∈ cs, Full s ty n c) →
      (∀ j, (t.keys[i + j]?).map some = (cs[j]?).map (fun c => headKey (Tree.entries n c))) →
      Sorted (cs.flatMap (Tree.entries n)) → Follows last (cs.flatMap (Tree.entries n)) →
      checkChildren h t check i as last =
        .ok (lastKey last (cs.flatMap (Tree.entries n)), (cs.flatMap (Tree.entries n)).length) := by
  intro cs
  induction cs with
  | nil =>
    intro as i last hr _ _ _ _
    cases hr
    rw [flatMap_nil, lastKey_nil]
    rfl
  | cons c cs ih =>
    intro as i last hr hfull hkeys hsort hfol
    cases hr with
    | @cons _ a _ as hc hrest =>
      obtain ⟨T, hget, hread⟩ := hc.reads
      have hfc : Full s ty n c := hfull c (by simp)
      rw [flatMap_cons] at hsort hfol ⊢
      obtain ⟨hsc, hsrest, -⟩ := sorted_append.1 hsort
      have hc1 := hcheck c a last hc hfc hsc hfol.left
      have hrec := ih as (i + 1) (lastKey last (Tree.entries n c)) hrest
        (fun x hx => hfull x (by simp [hx]))
        (fun j => by
          have := hkeys (j + 1)
          rw [getElem?_cons_succ] at this
          rw [← this, add_assoc, add_comm 1 j])
        hsrest (hfol.rest hsort)
      match hes : Tree.entries n c with
      | [] => exact absurd hes (hfc.entries_ne_nil hs)
      | e :: es =>
        have hkey : t.keys[i]? = some e.1 := by
          have := hkeys 0
          simp only [add_zero, getElem?_cons_zero, map_some, hes, headKey,
            head?_cons] at this
          cases hk : t.keys[i]? with
          | none => simp [hk] at this
          | some k => simpa [hk] using this
        have hhead : T.keys.head? = some e.1 := by
          rw [hread.head, hes]
          rfl
        have hheight : ¬ (T.height + 1 ≠ t.height) := by rw [hread.height, ht]; simp
        have hsep : ¬ (T.size = 0 ∨ ¬ ((t.keys[i]?).any fun sep =>
            (T.keys.head?).any fun k => decide (compareKeys sep k = 0)) = true) := by
          rw [hread.size, hes, hkey, hhead]
          simp [compareKeys_eq_zero]
        rw [checkChildren]
        simp only [hget, if_neg hheight, if_neg hsep, hc1, bind, Except.bind, hrec]
        rw [lastKey_append, length_append, hread.size, hes]

variable {a : Addr} {es : List (K × V)}

/-- A leaf passes as the root, and below a branch when it is full enough. -/
theorem check_leaf {root : Addr} (fuel : Nat)
    (hr : Repr ty h 0 es a) (hmax : es.length ≤ leafCapacity s ty)
    (hmin : a = root ∨ (0 < es.length ∧ leafCapacity s ty / 2 ≤ es.length)) (hsort : Sorted es)
    (hfol : Follows last es) : check s ty h root fuel a last = .ok (lastKey last es) := by
  have hsize : (Table.leaf ty es).size = es.length := Nat.mod_eq_of_lt hr.2.1
  have hleaf : (Table.leaf ty es).isLeaf = true := rfl
  have hkeys : (Table.leaf ty es).keys.take es.length = es.map Prod.fst :=
    take_of_length_le (by simp [Table.leaf])
  have hmin' : ¬ (a ≠ root ∧ (es.length = 0 ∨ es.length < leafCapacity s ty / 2)) := by
    rintro ⟨hne, hsmall⟩
    rcases hmin with heq | hmin
    · exact hne heq
    · omega
  unfold check
  simp only [hr.1, hleaf, if_true, hsize, gt_iff_lt, if_neg (Nat.not_lt.mpr hmax), if_neg hmin',
    hkeys]
  exact checkKeys_spec _ es 0 last hsort hfol

/-- A branch passes when its children do. -/
theorem check_branch (hs : s.Ok) {root : Addr} {n : Nat}
    {cs : List (Tree (K × V) n)} (hr : Repr ty h (n + 1) cs a)
    (hl : Loose s ty (n + 1) cs) (hmin : (if a = root then 2 else s.fanout / 2) ≤ cs.length)
    (hsort : Sorted (cs.flatMap (Tree.entries n)))
    (hfol : Follows last (cs.flatMap (Tree.entries n)))
    (hcheck : ∀ (c : Tree (K × V) n) (a : Addr) (last : Option K), Repr ty h n c a →
      Full s ty n c → Sorted (Tree.entries n c) → Follows last (Tree.entries n c) →
      check s ty h root n a last = .ok (lastKey last (Tree.entries n c))) :
    check s ty h root (n + 1) a last = .ok (lastKey last (cs.flatMap (Tree.entries n))) := by
  obtain ⟨T, hget, hht, hsz, -, hk, hch⟩ := hr
  have hleaf : T.isLeaf = false := by simp [Table.isLeaf, hht]
  have hcount : T.count = cs.length := hch.length_eq.symm
  have hw : ¬ (T.count > s.fanout ∨ T.count < if a = root then 2 else s.fanout / 2) := by
    have hmax := (loose_succ.1 hl).1
    rw [hcount]
    omega
  have hall := checkChildren_spec hs T (check s ty h root n) hht hcheck cs T.children 0 last hch
    (loose_succ.1 hl).2
    (fun j => by
      have := congrArg (fun l : List (Option K) => l[j]?) hk
      simpa using this) hsort hfol
  have hsum : ¬ ((cs.flatMap (Tree.entries n)).length ≠ T.size) := by
    rw [hsz]
    simp
  unfold check
  simp only [hget, hleaf, Bool.false_eq_true, if_false, if_neg hw, hall, bind, Except.bind,
    if_neg hsum]

/-- A table full enough to stand below a branch passes, wherever it stands. -/
theorem check_full (hs : s.Ok) (root : Addr) :
    ∀ (n : Nat) (t : Tree (K × V) n) (a : Addr) (last : Option K), Repr ty h n t a →
      Full s ty n t → Sorted (Tree.entries n t) → Follows last (Tree.entries n t) →
      check s ty h root n a last = .ok (lastKey last (Tree.entries n t)) := by
  intro n
  induction n with
  | zero =>
    intro es a last hr hf hsort hfol
    have hpos : 0 < length es := length_pos_iff.mpr (hf.entries_ne_nil hs)
    exact check_leaf 0 hr hf.1 (.inr ⟨hpos, hf.2⟩) hsort hfol
  | succ n ih =>
    intro cs a last hr hf hsort hfol
    refine check_branch hs hr hf.1 ?_ hsort hfol ih
    have hhalf : s.fanout / 2 ≤ length cs := hf.2
    have hfan := hs.fanout
    split <;> omega

/-- Every collection passes. -/
theorem Denotes.validate (hs : s.Ok)
    (hd : Denotes s ty h a es) : validate s ty h a = none := by
  obtain ⟨n, t, hr, hl, hw, hsort, rfl⟩ := hd
  obtain ⟨T, hget, hread⟩ := hr.reads
  have hnone : Follows none (Tree.entries n t) := fun l hl => absurd hl (by simp)
  have hcheck : check s ty h a n a none = .ok (lastKey none (Tree.entries n t)) := by
    match n, t, hr, hl, hw, hsort, hnone with
    | 0, es, hr, hl, _, hsort, hnone => exact check_leaf 0 hr hl (.inl rfl) hsort hnone
    | n + 1, cs, hr, hl, hw, hsort, hnone =>
      refine check_branch hs hr hl ?_ hsort hnone (check_full hs a n)
      rw [if_pos rfl]
      exact hw (Nat.succ_pos n)
  unfold Collection.validate
  simp only [hget, elim_some, hread.height, hcheck]

/-- An enabled validation changes nothing. -/
theorem Denotes.checked (hs : s.Ok) {r : Heap K V × Addr}
    (hd : Denotes s ty r.1 r.2 es) : checked s ty r = .ok r := by
  unfold Collection.checked
  rw [hd.validate hs]
  split <;> rfl

end Camel.Collection

/-! # A collection made of an array

    `fromArray` sorts the positions of the source by key, stably, and keeps the
    last entry of every run of equal keys.  This is the finite map the array
    describes when its entries are bound one after the other. -/

set_option linter.unusedSectionVars false

namespace Camel.Collection

open SortedEntries List

variable {K V : Type} [LinearOrder K] [Inhabited V]
variable {s : Shape} {ty : CollectionType}

/-! ## Runs of equal keys -/

variable (array : List (K × V)) (k : K) (l : List (K × V))

/-- The entry of a key in a list, as the first of those that have it. -/
theorem find_eq_head :
    find k l = ((l.filter (fun e => decide (e.1 = k))).head?).map Prod.snd := by
  rw [head?_filter]
  rfl

theorem mem_lastOfRuns {e : K × V} (h : e ∈ lastOfRuns l) : e ∈ l := by
  induction l using lastOfRuns.induct with
  | case1 => exact h
  | case2 x => exact h
  | case3 x y l hne ih =>
    rw [lastOfRuns, if_pos hne] at h
    rcases mem_cons.mp h with rfl | h
    · simp
    · exact mem_cons_of_mem x (ih h)
  | case4 x y l heq ih =>
    rw [lastOfRuns, if_neg heq] at h
    exact mem_cons_of_mem x (ih h)

/-- Of a weakly ascending list the last of each run is strictly ascending, and
    binds each key to the last entry it has. -/
theorem lastOfRuns_spec (h : l.Pairwise (fun a b => a.1 ≤ b.1)) :
    Sorted (lastOfRuns l) ∧ ∀ k, find k (lastOfRuns l) = find k l.reverse := by
  induction l using lastOfRuns.induct with
  | case1 => exact ⟨sorted_nil, fun k => rfl⟩
  | case2 x => exact ⟨pairwise_singleton _ _, fun k => rfl⟩
  | case3 x y l hne ih =>
    obtain ⟨hle, htail⟩ := pairwise_cons.mp h
    obtain ⟨hs, hf⟩ := ih htail
    have hxy : x.1 < y.1 :=
      lt_of_le_of_ne (hle y (by simp)) (fun h => hne (compareKeys_eq_zero.2 h))
    have habove : Above (y :: l) x.1 := by
      intro e he
      rcases mem_cons.mp he with rfl | he
      · exact hxy
      · exact lt_of_lt_of_le hxy ((pairwise_cons.mp htail).1 e he)
    rw [lastOfRuns, if_pos hne]
    refine ⟨sorted_cons.2 ⟨fun e he => habove e (mem_lastOfRuns _ he), hs⟩, ?_⟩
    intro k
    rw [find_cons, hf, reverse_cons (a := x), find_append, find_cons k x, find_nil]
    by_cases hk : x.1 = k
    · have hnone : find k (y :: l).reverse = none :=
        find_eq_none.2 (fun e he => (ne_of_lt (hk ▸ habove e (mem_reverse.mp he))).symm)
      rw [if_pos hk, if_pos hk, hnone]
      rfl
    · rw [if_neg hk, if_neg hk, Option.or_none]
  | case4 x y l heq ih =>
    obtain ⟨-, htail⟩ := pairwise_cons.mp h
    obtain ⟨hs, hf⟩ := ih htail
    have hxy : x.1 = y.1 := by simpa [compareKeys_eq_zero] using heq
    rw [lastOfRuns, if_neg heq]
    refine ⟨hs, ?_⟩
    intro k
    rw [hf, reverse_cons (a := x), find_append, find_cons k x, find_nil]
    by_cases hk : x.1 = k
    · -- the entry after `x` has its key, so `x` is not the last
      obtain ⟨v, hv⟩ := Option.isSome_iff_exists.mp (find_isSome.2
        ⟨y, mem_reverse.mpr (.head _), hxy.symm.trans hk⟩ :
          (find k (y :: l).reverse).isSome = true)
      rw [hv]
      rfl
    · rw [if_neg hk, Option.or_none]

/-! ## The stable sort -/

/-- The order of the sort. -/
def keyLe (x y : K × V) : Bool := !decide (compareKeys y.1 x.1 < 0)

theorem keyLe_iff {x y : K × V} : keyLe x y = true ↔ x.1 ≤ y.1 := by
  simp [keyLe, compareKeys_neg]

theorem keyLe_trans (a b c : K × V) (hab : keyLe a b = true) (hbc : keyLe b c = true) :
    keyLe a c = true :=
  keyLe_iff.2 (le_trans (keyLe_iff.1 hab) (keyLe_iff.1 hbc))

theorem keyLe_total (a b : K × V) : (keyLe a b || keyLe b a) = true := by
  rcases le_total a.1 b.1 with hab | hab
  · simp [keyLe_iff.2 hab]
  · simp [keyLe_iff.2 hab]

theorem mergeSort_pairwise :
    (l.mergeSort keyLe).Pairwise (fun a b => a.1 ≤ b.1) :=
  (pairwise_mergeSort keyLe_trans keyLe_total l).imp keyLe_iff.1

/-- Entries of one key keep their order. -/
theorem filter_mergeSort :
    (l.mergeSort keyLe).filter (fun e => decide (e.1 = k)) =
      l.filter (fun e => decide (e.1 = k)) := by
  have hsub : (l.filter (fun e => decide (e.1 = k))).Sublist (l.mergeSort keyLe) := by
    refine sublist_mergeSort keyLe_trans keyLe_total ?_ filter_sublist
    refine Pairwise.imp_of_mem ?_ (pairwise_of_forall (R := fun _ _ => True) (by simp))
    intro x y hx hy _
    have hxk : x.1 = k := by simpa using (mem_filter.mp hx).2
    have hyk : y.1 = k := by simpa using (mem_filter.mp hy).2
    exact keyLe_iff.2 (by rw [hxk, hyk])
  have hsub' := hsub.filter (fun e => decide (e.1 = k))
  rw [filter_filter] at hsub'
  simp only [Bool.and_self] at hsub'
  refine (hsub'.eq_of_length ?_).symm
  exact ((mergeSort_perm l keyLe).filter _).length_eq.symm

theorem find_mergeSort_reverse :
    find k (l.mergeSort keyLe).reverse = find k l.reverse := by
  rw [find_eq_head, find_eq_head, filter_reverse, filter_reverse, filter_mergeSort]

/-! ## `fromArray` -/

/-- An entry of the source as the collection keeps it. -/
def kept (ty : CollectionType) (e : K × V) : K × V := (e.1, if ty.isMap then e.2 else default)

/-- The finite map an array describes, its entries bound one after the other. -/
def arrayEntries (ty : CollectionType) (array : List (K × V)) : List (K × V) :=
  unionEntries [] (array.map (kept ty))

theorem filterMap_range {α : Type} (l : List α) :
    (range l.length).filterMap (fun i => l[i]?) = l := by
  induction l with
  | nil => rfl
  | cons x l ih =>
    rw [length_cons, range_succ_eq_map, filterMap_cons, filterMap_map]
    simpa [Function.comp_def] using ih

theorem sourceEntries (h : array.length ≤ 2 ^ 32) :
    (sourceOrder array.length).filterMap (sourceEntry ty array) = array.map (kept ty) := by
  have horder : sourceOrder array.length = range array.length := by
    refine (map_congr_left ?_).trans (map_id _)
    intro i hi
    exact Nat.mod_eq_of_lt (lt_of_lt_of_le (mem_range.mp hi) h)
  have hentry : sourceEntry ty array = fun i => (array.map (kept ty))[i]? := by
    funext i
    rw [getElem?_map]
    rfl
  rw [horder, hentry]
  simpa using filterMap_range (array.map (kept ty))

theorem ascending_sorted (h : ascending l = true) : Sorted l := by
  induction l using ascending.induct with
  | case1 => exact sorted_nil
  | case2 x => exact pairwise_singleton _ _
  | case3 x y l ih =>
    simp only [ascending, Bool.and_eq_true, decide_eq_true_eq] at h
    have hs := ih h.2
    exact sorted_cons.2 ⟨hs.above (compareKeys_neg.1 h.1), hs⟩

theorem sorted_map_kept {l : List (K × V)} (h : Sorted l) : Sorted (l.map (kept ty)) :=
  pairwise_map.mpr h

variable (ty) in
/-- The entries `fromArray` builds its tree of. -/
theorem fromArray_entries :
    (if ascending array then array.map (kept ty)
      else lastOfRuns ((array.map (kept ty)).mergeSort keyLe)) = arrayEntries ty array := by
  have hunion : Sorted (arrayEntries ty array) := sorted_unionEntries _ sorted_nil
  have hfind : ∀ k, find k (arrayEntries ty array) = find k (array.map (kept ty)).reverse := by
    intro k
    rw [arrayEntries, find_foldl_insertEntry, find_nil, Option.or_none]
  split
  · next hasc =>
    have hs : Sorted (array.map (kept ty)) := sorted_map_kept (ascending_sorted array hasc)
    refine ext_find hs hunion ?_
    intro k
    rw [hfind, find_reverse hs]
  · obtain ⟨hs, hf⟩ := lastOfRuns_spec _ (mergeSort_pairwise (array.map (kept ty)))
    refine ext_find hs hunion ?_
    intro k
    rw [hf, hfind, find_mergeSort_reverse]

theorem plain_arrayEntries : Plain ty (arrayEntries ty array) := by
  intro hset e he
  have hs : Sorted (arrayEntries ty array) := sorted_unionEntries _ sorted_nil
  have hfind := (find_eq_some hs).mpr (show (e.1, e.2) ∈ arrayEntries ty array from he)
  rw [arrayEntries, find_foldl_insertEntry, find_nil, Option.or_none] at hfind
  have hmem : ∃ x ∈ (array.map (kept ty)).reverse, x.2 = e.2 := by
    unfold find at hfind
    obtain ⟨x, hx, hxe⟩ := Option.map_eq_some_iff.mp hfind
    exact ⟨x, mem_of_find?_eq_some hx, hxe⟩
  obtain ⟨x, hx, hxe⟩ := hmem
  obtain ⟨y, -, rfl⟩ := mem_map.mp (mem_reverse.mp hx)
  rw [← hxe]
  simp [kept, hset]

theorem fromArray_spec (hs : s.Ok) (array : List (K × V)) (h : Heap K V)
    (hlen : array.length ≤ 2 ^ 32) (hlt : (arrayEntries ty array).length < countWidth) :
    ∃ h' a, fromArray s ty array h = .ok (h', a) ∧ h <+: h' ∧
      Denotes s ty h' a (arrayEntries ty array) := by
  have hsort : Sorted (arrayEntries ty array) := sorted_unionEntries _ sorted_nil
  unfold fromArray
  split
  · next h0 =>
    obtain rfl : array = [] := length_eq_zero_iff.mp h0
    rw [leafOf_ok]
    refine ⟨_, _, rfl, prefix_append _ _, 0, [], repr_leaf h hlt (plain_arrayEntries []),
      Nat.zero_le _, fun h0 => absurd h0 (Nat.lt_irrefl 0), sorted_nil, rfl⟩
  · have hsrc : (if ascending array = true then
          (sourceOrder array.length).filterMap (sourceEntry ty array)
        else lastOfRuns (((sourceOrder array.length).filterMap (sourceEntry ty array)).mergeSort
          fun x y => !decide (compareKeys y.1 x.1 < 0))) = arrayEntries ty array := by
      rw [sourceEntries array hlen]
      exact fromArray_entries ty array
    obtain ⟨h', a, heq, hp, hd⟩ := buildTree_spec hs hsort (plain_arrayEntries array) hlt h
    refine ⟨h', a, ?_, hp, hd⟩
    simp only [hsrc, heq, bind, Except.bind]
    exact Denotes.checked (r := (h', a)) hs hd

end Camel.Collection
