import Camel.Collection.Ops

/-! # What a table denotes

    A `Tree n` is a tree of uniform height `n`: a list of entries at height 0,
    a list of trees of height `n` above.  `Repr h n t a` says that the table at
    address `a` of the heap lays out the tree `t`: each leaf has exactly the
    columns of its entries, each branch the smallest key of every child and the
    number of entries below it.

    The occupancy rules are stated on trees.  `Loose` is what holds of every
    table an operation hands to its caller; `Full` is what a table below a
    branch must satisfy. -/

set_option linter.unusedSectionVars false

namespace Camel.Collection

open PartitionPoint SortedEntries List

/-! ## Trees of one height -/

/-- All leaves of a tree are at the same depth by construction. -/
@[reducible] def Tree (α : Type) : Nat → Type
  | 0 => List α
  | n + 1 => List (Tree α n)

/-- The entries in key order. -/
def Tree.entries {α : Type} : (n : Nat) → Tree α n → List α
  | 0, es => es
  | n + 1, cs => List.flatMap (Tree.entries n) cs

/-- The number of entries of a leaf, of children of a branch. -/
def Tree.width {α : Type} : (n : Nat) → Tree α n → Nat
  | 0, es => List.length es
  | _ + 1, cs => List.length cs

variable {α : Type}

@[simp] theorem Tree.entries_zero (es : List α) :
    Tree.entries 0 es = es := rfl

@[simp] theorem Tree.entries_succ (n : Nat) (cs : List (Tree α n)) :
    Tree.entries (n + 1) cs = cs.flatMap (Tree.entries n) := rfl

@[simp] theorem Tree.width_zero (es : List α) :
    Tree.width 0 es = es.length := rfl

@[simp] theorem Tree.width_succ (n : Nat) (cs : List (Tree α n)) :
    Tree.width (n + 1) cs = cs.length := rfl

/-! ## Occupancy -/

/-- The most entries or children a table of height `n` holds. -/
def maxWidth (s : Shape) (ty : CollectionType) : Nat → Nat
  | 0 => leafCapacity s ty
  | _ + 1 => s.fanout

/-- At most the maximum, and every table below full enough. -/
def Loose {α : Type} (s : Shape) (ty : CollectionType) : (n : Nat) → Tree α n → Prop
  | 0, es => List.length es ≤ leafCapacity s ty
  | n + 1, cs => List.length cs ≤ s.fanout ∧
      ∀ c : Tree α n, c ∈ (cs : List (Tree α n)) →
        Loose s ty n c ∧ maxWidth s ty n / 2 ≤ Tree.width n c

/-- What a table below a branch must satisfy. -/
def Full {α : Type} (s : Shape) (ty : CollectionType) (n : Nat) (t : Tree α n) : Prop :=
  Loose s ty n t ∧ maxWidth s ty n / 2 ≤ Tree.width n t

variable {s : Shape}

theorem loose_succ {ty : CollectionType} {n : Nat}
    {cs : List (Tree α n)} :
    Loose s ty (n + 1) cs ↔ cs.length ≤ s.fanout ∧ ∀ c ∈ cs, Full s ty n c := Iff.rfl

/-- The widths `shape` can produce. -/
structure Shape.Ok (s : Shape) : Prop where
  leaf : 2 ≤ s.leafCapacity
  fanout : 4 ≤ s.fanout

theorem shape_ok (requested : ShapeRequest) : (shape requested).Ok where
  leaf := by
    simp only [shape]
    split
    · simp [sizeMax]
    · exact le_max_right _ _
  fanout := by
    simp only [shape, kMaxFanout]
    omega

theorem leafCapacity_ge (hs : s.Ok) (ty : CollectionType) :
    2 ≤ leafCapacity s ty := by
  have := hs.leaf
  unfold leafCapacity
  split <;> omega

theorem maxWidth_ge (hs : s.Ok) (ty : CollectionType) (n : Nat) :
    2 ≤ maxWidth s ty n := by
  cases n with
  | zero => exact leafCapacity_ge hs ty
  | succ n => have := hs.fanout; simp only [maxWidth]; omega

/-- A table below a branch holds an entry. -/
theorem Full.entries_ne_nil {ty : CollectionType} (hs : s.Ok) :
    ∀ {n : Nat} {t : Tree α n},
    Full s ty n t → Tree.entries n t ≠ []
  | 0, es, hf => by
    have := hf.2
    have hcap := leafCapacity_ge hs ty
    simp only [maxWidth, Tree.width_zero] at this
    intro hnil
    simp only [Tree.entries_zero] at hnil
    subst hnil
    simp at this
    omega
  | n + 1, cs, hf => by
    have hw := hf.2
    have hfan := hs.fanout
    simp only [maxWidth, Tree.width_succ] at hw
    match cs, hf, hw with
    | [], _, hw => simp at hw; omega
    | c :: cs, hf, _ =>
      have hc : Full s ty n c := (loose_succ.1 hf.1).2 c (by simp)
      have := Full.entries_ne_nil hs hc
      simp [this]

section denote
variable {K V : Type} [LinearOrder K] [Inhabited V]
variable {s : Shape} {ty : CollectionType}

/-! ## Layout in the heap -/

/-- The values of a set are the null slot. -/
def Plain (ty : CollectionType) (es : List (K × V)) : Prop :=
  ty.isMap = false → ∀ e ∈ es, e.2 = default

/-- The smallest key of a list of entries. -/
def headKey (es : List (K × V)) : Option K := es.head?.map Prod.fst

/-- The table at `a` lays out the tree. -/
def Repr (ty : CollectionType) (h : Heap K V) : (n : Nat) → Tree (K × V) n → Addr → Prop
  | 0, es, a => h[a]? = some (Table.leaf ty es) ∧ List.length es < countWidth ∧ Plain ty es
  | n + 1, cs, a => ∃ t : Table K V, h[a]? = some t ∧ t.height = n + 1 ∧
      t.size = (Tree.entries (n + 1) cs).length ∧ t.size < countWidth ∧
      t.keys.map some = List.map (fun c => headKey (Tree.entries n c)) cs ∧
      Forall₂ (Repr ty h n) cs t.children

variable {h h' : Heap K V} {a : Addr}

theorem get_mono (hp : h <+: h') {t : Table K V}
    (hget : h[a]? = some t) : h'[a]? = some t := by
  obtain ⟨more, rfl⟩ := hp
  have hlt : a < h.length := (List.getElem?_eq_some_iff.mp hget).1
  rw [getElem?_append_left hlt, hget]

/-- Allocation only: everything laid out before stays laid out. -/
theorem Repr.mono (hp : h <+: h') : ∀ {n : Nat} {t : Tree (K × V) n} {a : Addr},
    Repr ty h n t a → Repr ty h' n t a
  | 0, _, _, hr => ⟨get_mono hp hr.1, hr.2⟩
  | _ + 1, _, _, ⟨t, hget, hht, hsz, hlt, hk, hch⟩ =>
    ⟨t, get_mono hp hget, hht, hsz, hlt, hk,
      Forall₂.imp (fun _ _ hc => Repr.mono hp hc) hch⟩

/-- What the code reads off the table of a tree. -/
structure Reads (t : Table K V) (n : Nat) (es : List (K × V)) : Prop where
  height : t.height = n
  size : t.size = es.length
  head : t.keys.head? = headKey es
  bound : es.length < countWidth

variable {n : Nat} {t : Tree (K × V) n}

theorem Repr.reads
    (hr : Repr ty h n t a) : ∃ T, h[a]? = some T ∧ Reads T n (Tree.entries n t) := by
  cases n with
  | zero =>
    refine ⟨_, hr.1, rfl, ?_, ?_, hr.2.1⟩
    · exact Nat.mod_eq_of_lt hr.2.1
    · simp [Table.leaf, headKey]
  | succ n =>
    obtain ⟨T, hget, hht, hsz, hlt, hk, -⟩ := hr
    refine ⟨T, hget, hht, hsz, ?_, hsz ▸ hlt⟩
    match t, hk with
    | [], hk =>
      have : T.keys = [] := by simpa using hk
      simp [this, headKey]
    | c :: cs, hk =>
      -- the separators are keys, so the first child has an entry
      match hkeys : T.keys with
      | [] => simp [hkeys] at hk
      | k :: ks =>
        rw [hkeys] at hk
        simp only [map_cons, cons.injEq] at hk
        have hc : headKey (Tree.entries n c) = some k := hk.1.symm
        match hes : Tree.entries n c with
        | [] => simp [hes, headKey] at hc
        | e :: es =>
          rw [hes] at hc
          simp [headKey, hes] at hc ⊢
          exact hc.symm

theorem deref_ok {t : Table K V} (hget : h[a]? = some t) :
    deref h a = .ok t := by
  simp [deref, hget]

variable {es : List (K × V)}

/-- A leaf shows exactly the entries it was made of. -/
theorem entries_leaf (hlt : es.length < countWidth) (hp : Plain ty es) :
    (Table.leaf ty es).entries ty = es := by
  have hmod : es.length % countWidth = es.length := Nat.mod_eq_of_lt hlt
  have htake : (es.map Prod.fst).take es.length = es.map Prod.fst :=
    take_of_length_le (by simp)
  cases hm : ty.isMap with
  | true =>
    simp only [Table.entries, Table.leaf, hmod, hm, if_true, htake]
    rw [take_of_length_le (by simp)]
    simpa using zip_unzip es
  | false =>
    simp only [Table.entries, Table.leaf, hmod, hm, htake]
    have hall := hp hm
    clear hlt hmod htake hp
    induction es with
    | nil => simp
    | cons e es ih =>
      have he : e.2 = default := hall e (by simp)
      have := ih (fun x hx => hall x (by simp [hx]))
      simp only [map_cons, length_cons, replicate_succ, zip_cons_cons,
        Bool.false_eq_true, if_false] at this ⊢
      rw [this, ← he]

/-! ## Allocation -/

theorem leafOf_ok (inTree : Bool) (es : List (K × V)) (h : Heap K V) :
    leafOf s ty inTree es h = .ok (h ++ [Table.leaf ty es], h.length) := by
  have hslots : ¬ leafSlots s es.length ty inTree < es.length := by
    unfold leafSlots
    cases ty.isMap <;> cases inTree <;> cases s.padded <;> simp <;> omega
  simp only [leafOf, if_neg hslots]

theorem repr_leaf {es : List (K × V)} (h : Heap K V) (hlt : es.length < countWidth)
    (hp : Plain ty es) : Repr ty (h ++ [Table.leaf ty es]) 0 es h.length :=
  ⟨by simp, hlt, hp⟩

variable {cs : List (Tree (K × V) n)} {as : List Addr}

theorem mapM_deref
    (hr : Forall₂ (Repr ty h n) cs as) :
    ∃ Ts, as.mapM (deref h) = .ok Ts ∧
      Forall₂ (fun c T => Reads T n (Tree.entries n c)) cs Ts := by
  induction hr with
  | nil => exact ⟨[], rfl, .nil⟩
  | @cons c a cs as hc _ ih =>
    obtain ⟨Ts, hm, hT⟩ := ih
    obtain ⟨T, hget, hread⟩ := hc.reads
    refine ⟨T :: Ts, ?_, .cons hread hT⟩
    simp [mapM_cons, deref_ok hget, hm]
    rfl

theorem firstKeys_ok {Ts : List (Table K V)}
    (hr : Forall₂ (fun c T => Reads T n (Tree.entries n c)) cs Ts)
    (hne : ∀ c ∈ cs, Tree.entries n c ≠ []) (i : Nat) :
    ∃ ks, firstKeys i Ts = .ok ks ∧ ks.map some = cs.map (fun c => headKey (Tree.entries n c)) := by
  induction hr generalizing i with
  | nil => exact ⟨[], rfl, rfl⟩
  | @cons c T cs Ts hc _ ih =>
    obtain ⟨ks, hks, hmap⟩ := ih (fun c' hc' => hne c' (by simp [hc'])) (i + 1)
    have hcne := hne c (by simp)
    match hes : Tree.entries n c with
    | [] => exact absurd hes hcne
    | e :: es =>
      have hsz : T.size ≠ 0 := by rw [hc.size, hes]; simp
      have hhd : T.keys.head? = some e.1 := by rw [hc.head, hes]; rfl
      refine ⟨e.1 :: ks, ?_, ?_⟩
      · simp only [firstKeys, if_neg hsz, hhd, hks]
        rfl
      · simp [hes, headKey, hmap]

theorem sum_sizes {Ts : List (Table K V)}
    (hr : Forall₂ (fun c T => Reads T n (Tree.entries n c)) cs Ts) :
    (Ts.map Table.size).sum = (cs.flatMap (Tree.entries n)).length := by
  induction hr with
  | nil => rfl
  | cons hc _ ih => simp [hc.size, ih]

/-- The table `makeBranch` appends. -/
theorem makeBranch_eq
    (hr : Forall₂ (Repr ty h n) cs as) (hcs : cs ≠ [])
    (hne : ∀ c ∈ cs, Tree.entries n c ≠ []) :
    ∃ T : Table K V, makeBranch s as h = .ok (h ++ [T], h.length) ∧ T.height = n + 1 ∧
      T.size = (cs.flatMap (Tree.entries n)).length % countWidth ∧
      T.keys.map some = cs.map (fun c => headKey (Tree.entries n c)) ∧ T.children = as := by
  obtain ⟨Ts, hm, hT⟩ := mapM_deref hr
  obtain ⟨ks, hks, hmap⟩ := firstKeys_ok hT hne 0
  have hlen : cs.length = as.length := hr.length_eq
  have hpos : as.length ≠ 0 := by
    rw [← hlen]
    exact fun h0 => hcs (length_eq_zero_iff.mp h0)
  have hwidth : ¬ (as.length = 0 ∨ (if s.padded then max as.length s.fanout else as.length) <
      as.length) := by
    split <;> omega
  match hT with
  | .nil => exact absurd rfl hcs
  | @Forall₂.cons _ _ _ c T cs' Ts' hc htail =>
    refine ⟨{ size := ((T :: Ts').map Table.size).sum % countWidth, height := T.height + 1,
              keys := ks, values := [], children := as }, ?_, ?_, ?_, hmap, rfl⟩
    · simp only [makeBranch, hm, hks, bind, Except.bind, head?_cons, if_neg hwidth]
    · simp [hc.height]
    · show _ % countWidth = _
      rw [sum_sizes (.cons hc htail)]

theorem makeBranch_repr
    (hr : Forall₂ (Repr ty h n) cs as) (hcs : cs ≠ [])
    (hne : ∀ c ∈ cs, Tree.entries n c ≠ [])
    (hlt : (cs.flatMap (Tree.entries n)).length < countWidth) :
    ∃ h', makeBranch s as h = .ok (h', h.length) ∧ h <+: h' ∧
      Repr ty h' (n + 1) cs h.length := by
  obtain ⟨T, hmk, hht, hsz, hk, rfl⟩ := makeBranch_eq (s := s) hr hcs hne
  rw [Nat.mod_eq_of_lt hlt] at hsz
  have hp : h <+: h ++ [T] := prefix_append _ _
  refine ⟨h ++ [T], hmk, hp, T, by simp, hht, hsz, hsz ▸ hlt, hk, ?_⟩
  exact Forall₂.imp (fun _ _ hc => hc.mono hp) hr

/-! ## Search -/

variable {b : K}

theorem compareKeys_neg {a : K} : compareKeys a b < 0 ↔ a < b := by
  unfold compareKeys
  split
  · simp [*]
  · split <;> simp_all

theorem compareKeys_eq_zero {a : K} : compareKeys a b = 0 ↔ a = b := by
  unfold compareKeys
  rcases lt_trichotomy a b with h | h | h
  · simp [h, ne_of_lt h]
  · simp [h]
  · simp [h, (ne_of_lt h).symm, not_lt_of_gt h]

theorem compareKeys_pos {a : K} : compareKeys a b > 0 ↔ b < a := by
  unfold compareKeys
  rcases lt_trichotomy a b with h | h | h
  · simp [h, le_of_lt h]
  · simp [h]
  · simp [h, not_lt_of_gt h]

theorem compareKeys_nonpos {a : K} : compareKeys a b ≤ 0 ↔ a ≤ b := by
  rw [← not_lt, ← not_lt]
  exact not_congr compareKeys_pos

variable (ty) in
/-- A sorted leaf, cut where the search for `key` lands. -/
theorem lowerBound_cut (key : K) (hs : Sorted es)
    (hlt : es.length < countWidth) :
    ∃ l r, es = l ++ r ∧ lowerBound (Table.leaf ty es) key = l.length ∧
      Below l key ∧ ∀ e ∈ r, key ≤ e.1 := by
  have hsize : (Table.leaf ty es).size = es.length := Nat.mod_eq_of_lt hlt
  set p : Nat → Bool := fun mid =>
    ((Table.leaf ty es).keys[mid]?).any (fun k => decide (compareKeys k key < 0)) with hp
  have hpi : ∀ (i : Nat) (hi : i < es.length), p i = true ↔ es[i].1 < key := by
    intro i hi
    simp [hp, Table.leaf, hi, compareKeys_neg]
  have hpre : PrefixOn p 0 es.length := by
    intro i j _ hij hj hpj
    have hlt : es[i].1 < key := by
      rcases eq_or_lt_of_le hij with rfl | hij
      · exact (hpi i hj).mp hpj
      · exact lt_trans (pairwise_iff_getElem.mp hs i j (by omega) hj hij) ((hpi j hj).mp hpj)
    exact (hpi i (by omega)).mpr hlt
  obtain ⟨-, h2, h3, h4⟩ := partitionPoint_spec p es.length 0 es.length (Nat.zero_le _)
    (by omega) hpre
  have hlb : lowerBound (Table.leaf ty es) key = partitionPoint p es.length 0 es.length := by
    simp only [lowerBound, hsize, hp]
  rw [← hlb] at h2 h3 h4
  refine ⟨es.take (lowerBound (Table.leaf ty es) key), es.drop (lowerBound (Table.leaf ty es) key),
    (take_append_drop _ _).symm, by simp [h2], ?_, ?_⟩
  · intro e he
    obtain ⟨i, hi, rfl⟩ := mem_iff_getElem.mp he
    rw [length_take] at hi
    rw [getElem_take]
    exact (hpi i (by omega)).mp (h3 i (Nat.zero_le _) (by omega))
  · intro e he
    obtain ⟨i, hi, rfl⟩ := mem_iff_getElem.mp he
    rw [length_drop] at hi
    rw [getElem_drop]
    have hf := h4 (lowerBound (Table.leaf ty es) key + i) (by omega) (by omega)
    by_contra hcon
    have := (hpi _ (by omega)).mpr (not_le.mp hcon)
    rw [hf] at this
    exact absurd this (by simp)

variable (ty) in
/-- What the search in a leaf finds: the entry of `key`, between the entries
    before it and those after it, or the place where it belongs. -/
theorem leaf_search (key : K) (hs : Sorted es)
    (hlt : es.length < countWidth) :
    (∃ l v r, es = l ++ (key, v) :: r ∧ lowerBound (Table.leaf ty es) key = l.length ∧
        findInLeaf (Table.leaf ty es) key = some l.length ∧ Below l key ∧ Above r key) ∨
    (∃ l r, es = l ++ r ∧ lowerBound (Table.leaf ty es) key = l.length ∧
        findInLeaf (Table.leaf ty es) key = none ∧ Below l key ∧ Above r key) := by
  have hsize : (Table.leaf ty es).size = es.length := Nat.mod_eq_of_lt hlt
  obtain ⟨l, r, rfl, hlb, hbelow, hge⟩ := lowerBound_cut ty key hs hlt
  obtain ⟨-, hsr, -⟩ := sorted_append.1 hs
  match r, hsr with
  | [], _ =>
    refine .inr ⟨l, [], rfl, hlb, ?_, hbelow, by simp [Above]⟩
    simp only [findInLeaf, hlb, hsize]
    simp
  | (k, v) :: r, hsr =>
    obtain ⟨habove, -⟩ := sorted_cons.1 hsr
    have hkey : (Table.leaf ty (l ++ (k, v) :: r)).keys[l.length]? = some k := by
      simp [Table.leaf]
    rcases eq_or_lt_of_le (hge (k, v) (by simp)) with heq | hlt'
    · simp only at heq
      subst heq
      refine .inl ⟨l, v, r, rfl, hlb, ?_, hbelow, habove⟩
      simp only [findInLeaf, hlb, hsize, hkey]
      simp [compareKeys_eq_zero]
    · refine .inr ⟨l, (k, v) :: r, rfl, hlb, ?_, hbelow, ?_⟩
      · simp only at hlt'
        simp only [findInLeaf, hlb, hsize, hkey]
        simp [compareKeys_eq_zero, (ne_of_lt hlt').symm]
      · intro e he
        exact lt_of_lt_of_le hlt' (by
          rcases mem_cons.mp he with rfl | he
          · exact le_refl _
          · exact le_of_lt (habove e he))

/-- The child under which `key` belongs, cut out of a sorted branch: the
    entries before it are before the key and those after it after the key. -/
theorem childIndex_cut {T : Table K V}
    (key : K) (hcs : cs ≠ []) (hne : ∀ c ∈ cs, Tree.entries n c ≠ [])
    (hsorted : Sorted (cs.flatMap (Tree.entries n)))
    (hkeys : T.keys.map some = cs.map (fun c => headKey (Tree.entries n c)))
    (hcount : T.count = cs.length) :
    ∃ l c r, cs = l ++ c :: r ∧ childIndex T key = l.length ∧
      Below (l.flatMap (Tree.entries n)) key ∧ Above (r.flatMap (Tree.entries n)) key := by
  have hpos : 0 < cs.length := length_pos_iff.mpr hcs
  obtain ⟨hin, hacross⟩ := pairwise_flatMap.mp hsorted
  have hklen : T.keys.length = cs.length := by simpa using congrArg length hkeys
  -- separator `i` is the smallest key of child `i`
  have hsep : ∀ (i : Nat) (hi : i < cs.length), ∃ e ∈ Tree.entries n cs[i],
      T.keys[i]? = some e.1 ∧ ∀ x ∈ Tree.entries n cs[i], e.1 ≤ x.1 := by
    intro i hi
    have hk := congrArg (fun m : List (Option K) => m[i]?) hkeys
    simp only [getElem?_map, getElem?_eq_getElem hi, Option.map_some] at hk
    rw [getElem?_eq_getElem (by omega : i < T.keys.length)] at hk ⊢
    match hes : Tree.entries n cs[i] with
    | [] => exact absurd hes (hne _ (getElem_mem hi))
    | e :: es =>
      refine ⟨e, by simp, ?_, ?_⟩
      · simpa [headKey, hes] using hk
      · intro x hx
        have hsi := hin cs[i] (getElem_mem hi)
        rw [hes] at hsi
        rcases mem_cons.mp hx with rfl | hx
        · exact le_refl _
        · exact le_of_lt ((sorted_cons.1 hsi).1 x hx)
  have hbefore : ∀ (i j : Nat) (hij : i < j) (hj : j < cs.length),
      ∀ x ∈ Tree.entries n cs[i], ∀ y ∈ Tree.entries n cs[j], x.1 < y.1 := by
    intro i j hij hj
    exact pairwise_iff_getElem.mp hacross i j (by omega) hj hij
  set p : Nat → Bool := fun mid =>
    (T.keys[mid]?).any (fun k => decide (compareKeys k key ≤ 0)) with hp
  have hpi : ∀ (i : Nat) (hi : i < cs.length) (e : K × V), T.keys[i]? = some e.1 →
      (p i = true ↔ e.1 ≤ key) := by
    intro i hi e he
    simp [hp, he, compareKeys_nonpos]
  have hpre : PrefixOn p 1 cs.length := by
    intro i j _ hij hj hpj
    obtain ⟨ei, hei, hki, -⟩ := hsep i (by omega)
    obtain ⟨ej, hej, hkj, -⟩ := hsep j hj
    refine (hpi i (by omega) ei hki).mpr ?_
    have hjk := (hpi j hj ej hkj).mp hpj
    rcases eq_or_lt_of_le hij with rfl | hij
    · rw [hki] at hkj
      rw [Option.some.inj hkj]
      exact hjk
    · exact le_trans (le_of_lt (hbefore i j hij hj ei hei ej hej)) hjk
  obtain ⟨h1, h2, h3, h4⟩ := partitionPoint_spec p cs.length 1 cs.length hpos (by omega) hpre
  have hci : childIndex T key = partitionPoint p cs.length 1 cs.length - 1 := by
    simp only [childIndex, hcount, hp]
  set r := partitionPoint p cs.length 1 cs.length with hr
  have hidx : r - 1 < cs.length := by omega
  refine ⟨cs.take (r - 1), cs[r - 1], cs.drop (r - 1 + 1), ?_, ?_, ?_, ?_⟩
  · rw [← drop_eq_getElem_cons hidx, take_append_drop]
  · rw [hci, length_take, min_eq_left (by omega)]
  · intro x hx
    obtain ⟨c, hc, hxc⟩ := mem_flatMap.mp hx
    obtain ⟨i, hi, rfl⟩ := mem_iff_getElem.mp hc
    rw [length_take] at hi
    rw [getElem_take] at hxc
    obtain ⟨e, he, hke, -⟩ := hsep (r - 1) hidx
    have hle := (hpi (r - 1) hidx e hke).mp (h3 (r - 1) (by omega) (by omega))
    exact lt_of_lt_of_le (hbefore i (r - 1) (by omega) hidx x hxc e he) hle
  · intro x hx
    obtain ⟨c, hc, hxc⟩ := mem_flatMap.mp hx
    obtain ⟨i, hi, rfl⟩ := mem_iff_getElem.mp hc
    rw [length_drop] at hi
    rw [getElem_drop] at hxc
    obtain ⟨e, he, hke, hmin⟩ := hsep (r - 1 + 1 + i) (by omega)
    have hf := h4 (r - 1 + 1 + i) (by omega) (by omega)
    have hnot : ¬ e.1 ≤ key := by
      intro hle
      have := (hpi _ (by omega) e hke).mpr hle
      rw [hf] at this
      exact absurd this (by simp)
    exact lt_of_lt_of_le (not_le.mp hnot) (hmin x hxc)

/-! ## Cutting a branch at a child -/

variable {β : Type}

theorem forall₂_cut {α : Type} {R : α → β → Prop} {l : List α} {c : α} {r : List α} :
    ∀ {bs : List β}, Forall₂ R (l ++ c :: r) bs →
      ∃ lb b rb, bs = lb ++ b :: rb ∧ Forall₂ R l lb ∧ R c b ∧ Forall₂ R r rb := by
  induction l with
  | nil =>
    intro bs hf
    cases hf with
    | cons hc hr => exact ⟨[], _, _, rfl, .nil, hc, hr⟩
  | cons x l ih =>
    intro bs hf
    cases hf with
    | cons hx hrest =>
      obtain ⟨lb, b, rb, rfl, hl, hc, hr⟩ := ih hrest
      exact ⟨_ :: lb, b, rb, rfl, .cons hx hl, hc, hr⟩

theorem forall₂_append {α : Type} {R : α → β → Prop} {l₁ l₂ : List α} {m₁ m₂ : List β}
    (h₁ : Forall₂ R l₁ m₁) (h₂ : Forall₂ R l₂ m₂) :
    Forall₂ R (l₁ ++ l₂) (m₁ ++ m₂) := by
  induction h₁ with
  | nil => exact h₂
  | cons hx _ ih => exact .cons hx ih

theorem flatMap_sublist {α : Type} (f : α → List β) {l₁ l₂ : List α} (h : l₁.Sublist l₂) :
    (l₁.flatMap f).Sublist (l₂.flatMap f) := by
  induction h with
  | slnil => exact Sublist.refl _
  | cons x _ ih => exact ih.trans (sublist_append_right _ _)
  | cons_cons x _ ih => exact Sublist.append (Sublist.refl _) ih

/-- A table that is laid out has an address below the end of the heap. -/
theorem Repr.lt_length
    (hr : Repr ty h n t a) : a < h.length := by
  obtain ⟨T, hget, -⟩ := hr.reads
  exact (List.getElem?_eq_some_iff.mp hget).1

/-- The child of a branch the search for `key` descends into, with everything
    around it. -/
theorem branch_cut (hs : s.Ok)
    (key : K) (hr : Repr ty h (n + 1) cs a) (hl : Loose s ty (n + 1) cs) (hcs : cs ≠ [])
    (hsort : Sorted (Tree.entries (n + 1) cs)) :
    ∃ T l c r la ca ra, h[a]? = some T ∧ T.isLeaf = false ∧ T.children = la ++ ca :: ra ∧
      cs = l ++ c :: r ∧ childIndex T key = la.length ∧ T.children[la.length]? = some ca ∧
      l.length = la.length ∧
      Forall₂ (Repr ty h n) l la ∧ Repr ty h n c ca ∧ Forall₂ (Repr ty h n) r ra ∧
      Tree.entries (n + 1) (l ++ c :: r) =
        l.flatMap (Tree.entries n) ++ Tree.entries n c ++ r.flatMap (Tree.entries n) ∧
      Below (l.flatMap (Tree.entries n)) key ∧ Above (r.flatMap (Tree.entries n)) key ∧
      Full s ty n c ∧ Sorted (Tree.entries n c) := by
  obtain ⟨T, hget, hht, -, -, hk, hch⟩ := hr
  have hne : ∀ c ∈ cs, Tree.entries n c ≠ [] := fun c hc =>
    ((loose_succ.1 hl).2 c hc).entries_ne_nil hs
  have hcount : T.count = cs.length := hch.length_eq.symm
  obtain ⟨l, c, r, rfl, hci, hbelow, habove⟩ := childIndex_cut key hcs hne hsort hk hcount
  obtain ⟨la, ca, ra, hchildren, hla, hca, hra⟩ := forall₂_cut hch
  have hlen : l.length = la.length := hla.length_eq
  have hcut : Tree.entries (n + 1) (l ++ c :: r) =
      l.flatMap (Tree.entries n) ++ Tree.entries n c ++ r.flatMap (Tree.entries n) := by
    simp
  rw [hcut] at hsort
  exact ⟨T, l, c, r, la, ca, ra, hget, by simp [Table.isLeaf, hht], hchildren, rfl, hci.trans hlen,
    by simp [hchildren], hlen, hla, hca, hra, hcut, hbelow, habove, (loose_succ.1 hl).2 c (by simp),
    hsort.sublist ((sublist_append_right _ _).trans (sublist_append_left _ _))⟩

/-! ## Collections -/

/-- Address `a` is a collection whose entries in key order are `es`: a tree
    whose root has at least two children when it is a branch, full enough
    everywhere below it, strictly ascending as a whole. -/
def Denotes (s : Shape) (ty : CollectionType) (h : Heap K V) (a : Addr) (es : List (K × V)) :
    Prop :=
  ∃ (n : Nat) (t : Tree (K × V) n), Repr ty h n t a ∧ Loose s ty n t ∧
    (0 < n → 2 ≤ Tree.width n t) ∧ Sorted (Tree.entries n t) ∧ Tree.entries n t = es

theorem Denotes.mono
    (hd : Denotes s ty h a es) (hp : h <+: h') : Denotes s ty h' a es := by
  obtain ⟨n, t, hr, hrest⟩ := hd
  exact ⟨n, t, hr.mono hp, hrest⟩

theorem Denotes.sorted
    (hd : Denotes s ty h a es) : Sorted es := by
  obtain ⟨n, t, -, -, -, hsort, rfl⟩ := hd
  exact hsort

theorem Denotes.bound
    (hd : Denotes s ty h a es) : es.length < countWidth := by
  obtain ⟨n, t, hr, -, -, -, rfl⟩ := hd
  obtain ⟨T, -, hread⟩ := hr.reads
  exact hread.bound

theorem Full.two_le (hs : s.Ok) (hf : Full s ty n t)
    (hn : 0 < n) : 2 ≤ Tree.width n t := by
  have hw := hf.2
  have hfan := hs.fanout
  obtain ⟨m, rfl⟩ : ∃ m, n = m + 1 := ⟨n - 1, by omega⟩
  simp only [maxWidth] at hw
  omega

/-- A table full enough to stand below a branch is a collection by itself. -/
theorem Full.denotes (hs : s.Ok)
    (hr : Repr ty h n t a) (hf : Full s ty n t) (hsort : Sorted (Tree.entries n t)) :
    Denotes s ty h a (Tree.entries n t) :=
  ⟨n, t, hr, hf.1, fun hn => hf.two_le hs hn, hsort, rfl⟩

end denote

end Camel.Collection
