import Camel.Collection.Run

/-! # The operations as operations on finite maps

    Over any collection, whatever its height and history, the operations on one
    table and on two act on the entry list as the finite map's own operations
    do, and leave the collections they were given as they were. -/

set_option linter.unusedSectionVars false

namespace Camel.Collection

open SortedEntries List

variable {K V : Type} [LinearOrder K] [Inhabited V]

/-! ## One collection -/

/-- The operations on the collection at `a` are those of the finite map `es`.
    What an insertion makes has to stay within the 32 bits of the count. -/
structure ActsAsMap (s : Shape) (ty : CollectionType) (h : Heap K V) (a : Addr)
    (es : List (K × V)) : Prop where
  has_key : ∀ key, has h a key = .ok (find key es).isSome
  lookup_value : ∀ key, ∃ r, lookup ty h a key = .ok r ∧ ∀ value, r = some value ↔ (key, value) ∈ es
  put_entry : ty = ⟨true⟩ → ∀ key value, (insertEntry key value es).length < countWidth →
    ∃ h' a', put s a key value h = .ok (h', a') ∧ Denotes s ty h' a' (insertEntry key value es) ∧
      Denotes s ty h' a es
  add_elem : ty = ⟨false⟩ → ∀ elem, (insertEntry elem default es).length < countWidth →
    ∃ h' a', add s a elem h = .ok (h', a') ∧ Denotes s ty h' a' (insertEntry elem default es) ∧
      Denotes s ty h' a es
  remove_key : ∀ key, ∃ h' a', remove s ty a key h = .ok (h', a') ∧
    Denotes s ty h' a' (eraseEntry key es) ∧ Denotes s ty h' a es ∧
    (find key es = none → a' = a)
  keys_column : keys ty h a = .ok (es.map Prod.fst)
  values_column : ty = ⟨true⟩ → values h a = .ok (es.map Prod.snd)
  items_list : ty = ⟨true⟩ → items h a = .ok es

/-- Every collection acts as the finite map of its entries, and an array becomes
    the collection of its entries bound one after the other. -/
theorem table_acts_as_map (requested : ShapeRequest) (ty : CollectionType) (h : Heap K V) (a : Addr)
    (es : List (K × V)) (hd : Denotes (shape requested) ty h a es) :
    ActsAsMap (shape requested) ty h a es ∧
    ∀ array : List (K × V), array.length ≤ 2 ^ 32 → (arrayEntries ty array).length < countWidth →
      ∃ h' c, fromArray (shape requested) ty array h = .ok (h', c) ∧
        Denotes (shape requested) ty h' c (arrayEntries ty array) ∧
        Denotes (shape requested) ty h' a es := by
  have hs := shape_ok requested
  refine ⟨⟨?_, ?_, ?_, ?_, ?_, ?_, ?_, ?_⟩, ?_⟩
  · exact fun key => has_spec hs key hd
  · intro key
    refine ⟨_, lookup_spec hs key hd, ?_⟩
    exact fun value => find_eq_some hd.sorted
  · rintro rfl key value hlt
    obtain ⟨h', a', heq, hp, hd'⟩ := put_spec hs key value hd hlt
    exact ⟨h', a', heq, hd', hd.mono hp⟩
  · rintro rfl elem hlt
    obtain ⟨h', a', heq, hp, hd'⟩ := add_spec hs elem hd hlt
    exact ⟨h', a', heq, hd', hd.mono hp⟩
  · intro key
    obtain ⟨h', a', heq, hp, hsame, hd'⟩ := remove_spec hs key hd
    exact ⟨h', a', heq, hd', hd.mono hp, hsame⟩
  · exact arrayOf_spec Prod.fst hd
  · rintro rfl
    exact arrayOf_spec Prod.snd hd
  · rintro rfl
    exact forEachEntry_spec hd
  · intro array hlen hlt
    obtain ⟨h', c, heq, hp, hd'⟩ := fromArray_spec hs array h hlen hlt
    exact ⟨h', c, heq, hd', hd.mono hp⟩

theorem table_acts_as_map_leaf :
    Denotes (K := Nat) (V := Nat) (shape {}) ⟨true⟩ [Table.leaf ⟨true⟩ [(1, 10), (2, 20)]] 0
      [(1, 10), (2, 20)] ∧
    ActsAsMap (K := Nat) (V := Nat) (shape {}) ⟨true⟩ [Table.leaf ⟨true⟩ [(1, 10), (2, 20)]] 0
      [(1, 10), (2, 20)] := by
  have hd : Denotes (K := Nat) (V := Nat) (shape {}) ⟨true⟩
      [Table.leaf ⟨true⟩ [(1, 10), (2, 20)]] 0 [(1, 10), (2, 20)] :=
    denotes_leaf rfl (by decide) (by simp [Plain]) (by decide) (by decide)
  exact ⟨hd, (table_acts_as_map {} ⟨true⟩ _ 0 _ hd).1⟩

/-- A leaf whose count went round to 0 has no key. -/
theorem has_wrapped {es : List (K × V)} (hlen : es.length = countWidth) (ty : CollectionType)
    (key : K) : has [Table.leaf ty es] 0 key = .ok false := by
  have hsize : (Table.leaf ty es).size = 0 := by
    simp only [Table.leaf, hlen, Nat.mod_self]
  have hleaf : (Table.leaf ty es).isLeaf = true := rfl
  have hderef : deref [Table.leaf ty es] 0 = .ok (Table.leaf ty es) := rfl
  unfold has leafFor
  simp only [hderef, bind, Except.bind, hleaf, if_true, findInLeaf, hsize]
  simp

theorem fromArray_loses_keys {s : Shape} (hv : s.validate = false) {n : Nat}
    (hcap : n ≤ leafCapacity s ⟨false⟩) (hn : n = countWidth) :
    ∃ h' a, fromArray s ⟨false⟩ (keysFrom 0 n) [] = .ok (h', a) ∧ has h' a 0 = .ok false := by
  have hfrom := fromArray_keysFrom hv (n := n) (by rw [hn]; decide) (le_of_eq hn) []
  refine ⟨[Table.leaf ⟨false⟩ (keysFrom 0 n)], 0, ?_,
    has_wrapped ((length_keysFrom 0 n).trans hn) _ 0⟩
  rw [hfrom, buildTree, if_pos (by rw [length_keysFrom]; exact hcap), leafOf_ok]
  rfl

/-- With leaves of any size, a set made of `2 ^ 32` elements has none of them. -/
theorem fromArray_wide_leaf :
    ∃ h' a, fromArray (shape { leafCapacity := some 0 }) ⟨false⟩ (keysFrom 0 (2 ^ 32)) [] =
        .ok (h', a) ∧ has h' a 0 = .ok false :=
  fromArray_loses_keys rfl (by decide) rfl

/-! ## Two collections -/

/-- Merging, intersecting, subtracting and comparing two collections are the
    operations on the two finite maps, whichever way the code takes. -/
theorem pair_acts_as_maps (requested : ShapeRequest) (ty : CollectionType) (h : Heap K V)
    (a b : Addr) (ea eb : List (K × V)) (ha : Denotes (shape requested) ty h a ea)
    (hb : Denotes (shape requested) ty h b eb) :
    (MergeFits (shape requested) ty ea eb →
      ∃ h' c, merge (shape requested) ty a b h = .ok (h', c) ∧
        Denotes (shape requested) ty h' c (unionEntries ea eb) ∧
        (∀ key, find key (unionEntries ea eb) = (find key eb).or (find key ea)) ∧
        Denotes (shape requested) ty h' a ea ∧ Denotes (shape requested) ty h' b eb) ∧
    (ty = ⟨false⟩ →
      (∃ h' c, intersect (shape requested) a b h = .ok (h', c) ∧
        Denotes (shape requested) ty h' c (interEntries ea eb) ∧
        Denotes (shape requested) ty h' a ea ∧ Denotes (shape requested) ty h' b eb) ∧
      (∃ h' c, difference (shape requested) a b h = .ok (h', c) ∧
        Denotes (shape requested) ty h' c (diffEntries ea eb) ∧
        Denotes (shape requested) ty h' a ea ∧ Denotes (shape requested) ty h' b eb) ∧
      isSubset a b h = .ok (subsetEntries ea eb)) := by
  have hs := shape_ok requested
  constructor
  · intro hfit
    obtain ⟨h', c, heq, hp, hd⟩ := merge_spec hs ha hb hfit
    exact ⟨h', c, heq, hd, fun key => find_unionEntries hb.sorted key ea, ha.mono hp, hb.mono hp⟩
  · rintro rfl
    obtain ⟨h1, c1, heq1, hp1, hd1⟩ := intersect_spec hs ha hb
    obtain ⟨h2, c2, heq2, hp2, hd2⟩ := difference_spec hs ha hb
    exact ⟨⟨h1, c1, heq1, hd1, ha.mono hp1, hb.mono hp1⟩,
      ⟨h2, c2, heq2, hd2, ha.mono hp2, hb.mono hp2⟩, isSubset_spec hs ha hb⟩

theorem pair_acts_as_maps_leaves :
    ∃ h : Heap Nat Unit, Denotes (shape {}) ⟨false⟩ h 0 (keysFrom 0 3) ∧
      Denotes (shape {}) ⟨false⟩ h 1 (keysFrom 2 2) ∧
      isSubset 0 1 h = .ok (subsetEntries (keysFrom 0 3) (keysFrom 2 2)) := by
  refine ⟨[Table.leaf ⟨false⟩ (keysFrom 0 3), Table.leaf ⟨false⟩ (keysFrom 2 2)], ?_⟩
  have ha : Denotes (shape {}) ⟨false⟩
      [Table.leaf ⟨false⟩ (keysFrom 0 3), Table.leaf ⟨false⟩ (keysFrom 2 2)] 0 (keysFrom 0 3) :=
    denotes_leaf rfl (by decide) (fun _ e _ => rfl) (by decide) (sorted_keysFrom 0 3)
  have hb : Denotes (shape {}) ⟨false⟩
      [Table.leaf ⟨false⟩ (keysFrom 0 3), Table.leaf ⟨false⟩ (keysFrom 2 2)] 1 (keysFrom 2 2) :=
    denotes_leaf rfl (by decide) (fun _ e _ => rfl) (by decide) (sorted_keysFrom 2 2)
  exact ⟨ha, hb, ((pair_acts_as_maps {} ⟨false⟩ _ 0 1 _ _ ha hb).2 rfl).2.2⟩

/-! ## Equality and copies -/

theorem equals_spec {s : Shape} {ty : CollectionType} {h : Heap K V} {a b : Addr}
    {ea eb : List (K × V)} (hs : s.Ok) (equal : V → V → Bool) (ha : Denotes s ty h a ea)
    (hb : Denotes s ty h b eb) :
    ∃ r, equals ty equal a b h = .ok r ∧
      (r = true ↔ a = b ∨ Forall₂ (Same equal ty) ea eb) := by
  obtain ⟨ta, hgeta, hsizea, hleafa⟩ := ha.table
  obtain ⟨tb, hgetb, hsizeb, hleafb⟩ := hb.table
  unfold equals
  simp only [deref_ok hgeta, deref_ok hgetb, bind, Except.bind, hsizea, hsizeb]
  split
  · next hab => exact ⟨true, rfl, by simp [hab]⟩
  · next hab =>
    simp only [hab, false_or]
    split
    · next hlen => exact ⟨false, rfl, by simpa using fun hall : Forall₂ _ _ _ => hlen hall.length_eq⟩
    · next hlen =>
      split
      · obtain ⟨x, hx, hxat⟩ := Cursor.start_spec hs ha
        obtain ⟨y, hy, hyat⟩ := Cursor.start_spec hs hb
        simp only [hx, hy]
        exact equalsCursors_spec hs equal _ ea eb x y hxat hyat (not_not.mp hlen) le_rfl
      · next hleaf =>
        simp only [Bool.or_eq_true, Bool.not_eq_true', not_or, Bool.not_eq_false] at hleaf
        rw [(hleafa hleaf.1).1, (hleafb hleaf.2).1]
        refine ⟨_, rfl, ?_⟩
        simp only [Bool.and_eq_true, Bool.or_eq_true, all_eq_true, decide_eq_true_eq,
          compareKeys_eq_zero, Bool.not_eq_true', forall₂_iff_zip, Same]
        constructor
        · rintro ⟨hkeys, hvalues⟩
          refine ⟨not_not.mp hlen, fun {e f} hp => ⟨hkeys _ hp, fun hm => ?_⟩⟩
          exact (hvalues.resolve_left (by simp [hm])) _ hp
        · rintro ⟨-, hall⟩
          refine ⟨fun p hp => (hall hp).1, ?_⟩
          cases hm : ty.isMap with
          | false => exact .inl rfl
          | true => exact .inr fun p hp => (hall hp).2 hm

/-- Two collections are equal when their entries are, whatever the shapes of the two
    trees; a copy is the same entries in the same order, and equals its original when
    every value equals itself. -/
theorem equal_and_copied (requested : ShapeRequest) (ty : CollectionType) (h : Heap K V)
    (a b : Addr) (ea eb : List (K × V)) (ha : Denotes (shape requested) ty h a ea)
    (hb : Denotes (shape requested) ty h b eb) (equal : V → V → Bool) :
    (∃ r, equals ty equal a b h = .ok r ∧
      (r = true ↔ a = b ∨ Forall₂ (Same equal ty) ea eb)) ∧
    ∃ h' c, clone (shape requested) ty a h = .ok (h', c) ∧ h <+: h' ∧
      forEachEntry ty h' c = .ok ea ∧ forEachEntry ty h' a = .ok ea ∧
      ((ty.isMap = true → ∀ e ∈ ea, equal e.2 e.2 = true) → equals ty equal a c h' = .ok true) ∧
      ∃ r, equals ty equal c b h' = .ok r ∧ (c ≠ b → (r = true ↔ Forall₂ (Same equal ty) ea eb)) := by
  have hs := shape_ok requested
  refine ⟨equals_spec hs equal ha hb, ?_⟩
  obtain ⟨h', c, heq, hp, hc⟩ := clone_spec hs ha
  refine ⟨h', c, heq, hp, forEachEntry_spec hc, forEachEntry_spec (ha.mono hp), ?_, ?_⟩
  · intro hself
    obtain ⟨r, hr, hiff⟩ := equals_spec hs equal (ha.mono hp) hc
    rw [hr, hiff.mpr (.inr (forall₂_same.mpr fun e he => ⟨rfl, fun hm => hself hm e he⟩))]
  · obtain ⟨r, hr, hiff⟩ := equals_spec hs equal hc (hb.mono hp)
    exact ⟨r, hr, fun hne => hiff.trans (by simp [hne])⟩

theorem equal_and_copied_leaves :
    equals ⟨false⟩ (fun _ _ : Unit => true) 0 1
      [Table.leaf ⟨false⟩ (keysFrom 0 3), Table.leaf ⟨false⟩ (keysFrom 0 3)] = .ok true := by
  obtain ⟨⟨r, hr, hiff⟩, -⟩ := equal_and_copied {} ⟨false⟩
    [Table.leaf ⟨false⟩ (keysFrom 0 3), Table.leaf ⟨false⟩ (keysFrom 0 3)] 0 1 _ _
    (denotes_leaf rfl (by decide) (fun _ _ _ => rfl) (by decide) (sorted_keysFrom 0 3))
    (denotes_leaf rfl (by decide) (fun _ _ _ => rfl) (by decide) (sorted_keysFrom 0 3))
    fun _ _ => true
  rw [hr, hiff.mpr (.inr (forall₂_same.mpr fun _ _ => ⟨rfl, fun _ => rfl⟩))]

theorem union_append {a b : List (K × V)} (h : Sorted (a ++ b)) : unionEntries a b = a ++ b := by
  obtain ⟨ha, hb, hlt⟩ := sorted_append.1 h
  refine ext_find (sorted_unionEntries b ha) h ?_
  intro k
  rw [find_unionEntries hb, find_append]
  cases hka : find k a with
  | none => simp
  | some v =>
    -- a key of the first is before every key of the second
    have hnone : find k b = none :=
      find_above (fun e he => hlt (k, v) ((find_eq_some ha).mp hka) e he)
    simp [hnone]

theorem keysFrom_append (m n : Nat) : keysFrom 0 m ++ keysFrom m n = keysFrom 0 (m + n) := by
  simp only [keysFrom, List.range_add, List.map_append, List.map_map, zero_add]
  rfl

/-- Two sets of half as many elements as the count has values. -/
theorem merge_loses_keys {s : Shape} (hv : s.validate = false) {m : Nat}
    (hcap : m ≤ leafCapacity s ⟨false⟩) (hm : m + m = countWidth) :
    Denotes s ⟨false⟩ [Table.leaf ⟨false⟩ (keysFrom 0 m), Table.leaf ⟨false⟩ (keysFrom m m)] 0
      (keysFrom 0 m) ∧
    Denotes s ⟨false⟩ [Table.leaf ⟨false⟩ (keysFrom 0 m), Table.leaf ⟨false⟩ (keysFrom m m)] 1
      (keysFrom m m) ∧
    ∃ h' c, merge s ⟨false⟩ 0 1
        [Table.leaf ⟨false⟩ (keysFrom 0 m), Table.leaf ⟨false⟩ (keysFrom m m)] = .ok (h', c) ∧
      keys ⟨false⟩ h' c = .ok [] := by
  have hwidth : countWidth = 4294967296 := rfl
  have hlt : ∀ lo, (keysFrom lo m).length < countWidth := fun lo => by
    rw [length_keysFrom]
    omega
  have hplain : ∀ lo n, Plain (K := Nat) (V := Unit) ⟨false⟩ (keysFrom lo n) := fun _ _ _ _ _ => rfl
  have hsize : ∀ lo, (Table.leaf ⟨false⟩ (keysFrom lo m)).size = m := fun lo => by
    simp only [Table.leaf, length_keysFrom]
    exact Nat.mod_eq_of_lt (by omega)
  refine ⟨denotes_leaf rfl (hlt 0) (hplain 0 m) (by rw [length_keysFrom]; exact hcap)
    (sorted_keysFrom 0 m), denotes_leaf rfl (hlt m) (hplain m m)
    (by rw [length_keysFrom]; exact hcap) (sorted_keysFrom m m), ?_⟩
  have hunion : mergeWalk (keysFrom 0 m) (keysFrom m m) = keysFrom 0 (m + m) := by
    rw [mergeWalk_eq (sorted_keysFrom 0 m) (sorted_keysFrom m m), union_append, keysFrom_append]
    rw [keysFrom_append]
    exact sorted_keysFrom 0 (m + m)
  generalize hh : [Table.leaf ⟨false⟩ (keysFrom 0 m), Table.leaf ⟨false⟩ (keysFrom m m)] = h
  have hd0 : deref h 0 = .ok (Table.leaf ⟨false⟩ (keysFrom 0 m)) := by rw [← hh]; rfl
  have hd1 : deref h 1 = .ok (Table.leaf ⟨false⟩ (keysFrom m m)) := by rw [← hh]; rfl
  have hslots : ¬ leafSlots s (m + m) ⟨false⟩ false < m + m := by simp [leafSlots]
  have hmod : ¬ (keysFrom 0 (m + m)).length = (m + m) % countWidth := by
    rw [length_keysFrom, hm, Nat.mod_self]
    omega
  have hzero : (Table.leaf ⟨false⟩ (keysFrom 0 (m + m))).size = 0 := by
    simp only [Table.leaf, length_keysFrom, hm, Nat.mod_self]
  have hmerged : ∃ h1 x, mergeLeaves s ⟨false⟩ (Table.leaf ⟨false⟩ (keysFrom 0 m))
      (Table.leaf ⟨false⟩ (keysFrom m m)) h = .ok (h1, x) ∧
      h1[x]? = some (Table.leaf ⟨false⟩ (keysFrom 0 (m + m))) := by
    unfold mergeLeaves finished
    rw [entries_leaf (hlt 0) (hplain 0 m), entries_leaf (hlt m) (hplain m m), hunion, hsize, hsize,
      if_neg hslots, if_neg hmod, leafOf_ok]
    exact ⟨_, _, rfl, by simp⟩
  obtain ⟨h1, x, hleaves, hget⟩ := hmerged
  have hne : ¬ m = 0 := by omega
  refine ⟨h1, x, ?_, ?_⟩
  · have hleaf : ∀ lo, (Table.leaf (K := Nat) (V := Unit) ⟨false⟩ (keysFrom lo m)).isLeaf = true :=
      fun _ => rfl
    unfold merge
    simp only [hd0, hd1, bind, Except.bind, hsize, if_neg hne, hleaf, Bool.and_self, if_true,
      hleaves, normalized, deref_ok hget, hzero, zero_le]
    simp [checked, hv]
  · unfold keys arrayOf
    simp only [deref_ok hget, bind, Except.bind, hzero, if_true]

/-- With leaves of any size, two disjoint sets of `2 ^ 31` elements are merged
    into a set that shows none of them. -/
theorem merge_wide_leaves :
    Denotes (shape { leafCapacity := some 0 }) ⟨false⟩
      [Table.leaf ⟨false⟩ (keysFrom 0 (2 ^ 31)), Table.leaf ⟨false⟩ (keysFrom (2 ^ 31) (2 ^ 31))] 0
      (keysFrom 0 (2 ^ 31)) ∧
    Denotes (shape { leafCapacity := some 0 }) ⟨false⟩
      [Table.leaf ⟨false⟩ (keysFrom 0 (2 ^ 31)), Table.leaf ⟨false⟩ (keysFrom (2 ^ 31) (2 ^ 31))] 1
      (keysFrom (2 ^ 31) (2 ^ 31)) ∧
    ∃ h' c, merge (shape { leafCapacity := some 0 }) ⟨false⟩ 0 1
        [Table.leaf ⟨false⟩ (keysFrom 0 (2 ^ 31)),
          Table.leaf ⟨false⟩ (keysFrom (2 ^ 31) (2 ^ 31))] = .ok (h', c) ∧
      keys ⟨false⟩ h' c = .ok [] :=
  merge_loses_keys rfl (by decide) (by decide)

end Camel.Collection
