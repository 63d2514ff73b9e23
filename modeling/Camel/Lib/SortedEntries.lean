import Mathlib

/-! # Finite maps as strictly ascending entry lists

    A finite map over a linear order is its list of `(key, value)` pairs in
    strictly ascending key order.  This module has the operations on such
    lists, what each does to the function `find` reads off the list, and how
    each acts on a list cut into a part before the key, a middle and a part
    after it (the shape a search tree presents its entries in).

    Nothing here depends on how the entries are stored. -/

namespace SortedEntries

open List

variable {K V : Type} [LinearOrder K]

/-! ## The operations -/

/-- Strictly ascending in key. -/
def Sorted (l : List (K × V)) : Prop := l.Pairwise (fun a b => a.1 < b.1)

instance (l : List (K × V)) : Decidable (Sorted l) :=
  inferInstanceAs (Decidable (l.Pairwise _))

/-- The value of `k`, read off the list. -/
def find (k : K) (l : List (K × V)) : Option V :=
  (l.find? (fun e => decide (e.1 = k))).map Prod.snd

/-- `k` bound to `v`, whatever it was bound to before. -/
def insertEntry (k : K) (v : V) (l : List (K × V)) : List (K × V) :=
  l.filter (fun e => decide (e.1 < k)) ++ (k, v) :: l.filter (fun e => decide (k < e.1))

/-- `k` unbound. -/
def eraseEntry (k : K) (l : List (K × V)) : List (K × V) :=
  l.filter (fun e => decide (e.1 ≠ k))

/-- Every key of `l` is before `k`. -/
def Below (l : List (K × V)) (k : K) : Prop := ∀ e ∈ l, e.1 < k

/-- Every key of `l` is after `k`. -/
def Above (l : List (K × V)) (k : K) : Prop := ∀ e ∈ l, k < e.1

/-! ## Sortedness -/

variable {a b : List (K × V)}

theorem sorted_append :
    Sorted (a ++ b) ↔ Sorted a ∧ Sorted b ∧ ∀ x ∈ a, ∀ y ∈ b, x.1 < y.1 :=
  pairwise_append

variable {l : List (K × V)}

theorem sorted_cons {e : K × V} :
    Sorted (e :: l) ↔ Above l e.1 ∧ Sorted l :=
  pairwise_cons

@[simp] theorem sorted_nil : Sorted ([] : List (K × V)) := List.Pairwise.nil

theorem Sorted.filter (h : Sorted l) (p : K × V → Bool) :
    Sorted (l.filter p) :=
  List.Pairwise.filter p h

theorem Sorted.sublist (hb : Sorted b) (h : a.Sublist b) : Sorted a :=
  List.Pairwise.sublist h hb

theorem Sorted.nodup (h : Sorted l) : l.Nodup :=
  List.Pairwise.imp (fun hlt heq => absurd (congrArg Prod.fst heq) (ne_of_lt hlt)) h

theorem sorted_insertEntry (k : K) (v : V) (h : Sorted l) :
    Sorted (insertEntry k v l) := by
  refine sorted_append.2 ⟨h.filter _, sorted_cons.2 ⟨?_, h.filter _⟩, ?_⟩
  · intro e he
    simpa using (mem_filter.mp he).2
  · intro x hx y hy
    have hxk : x.1 < k := by simpa using (mem_filter.mp hx).2
    rcases mem_cons.mp hy with rfl | hy
    · exact hxk
    · have hky : k < y.1 := by simpa using (mem_filter.mp hy).2
      exact lt_trans hxk hky

theorem sorted_eraseEntry (k : K) (h : Sorted l) :
    Sorted (eraseEntry k l) := h.filter _

/-! ## What `find` reads -/

@[simp] theorem find_nil (k : K) : find k ([] : List (K × V)) = none := rfl

theorem find_cons (k : K) (e : K × V) (l : List (K × V)) :
    find k (e :: l) = if e.1 = k then some e.2 else find k l := by
  unfold find
  by_cases h : e.1 = k <;> simp [h]

theorem find_append (k : K) (a b : List (K × V)) :
    find k (a ++ b) = (find k a).or (find k b) := by
  induction a with
  | nil => simp
  | cons e a ih =>
    rw [cons_append, find_cons, find_cons, ih]
    split <;> simp

variable {k : K}

theorem find_eq_none :
    find k l = none ↔ ∀ e ∈ l, e.1 ≠ k := by
  simp [find]

theorem find_isSome :
    (find k l).isSome = true ↔ ∃ e ∈ l, e.1 = k := by
  simp [find]

/-- In a sorted list a key is bound by exactly one entry. -/
theorem find_eq_some {v : V} (h : Sorted l) :
    find k l = some v ↔ (k, v) ∈ l := by
  induction l with
  | nil => simp
  | cons e l ih =>
    obtain ⟨hab, hs⟩ := sorted_cons.1 h
    rw [find_cons, mem_cons]
    by_cases hk : e.1 = k
    · have hnot : (k, v) ∉ l := fun hm => absurd (hab _ hm) (by simp [hk])
      rw [if_pos hk]
      constructor
      · intro hv
        left
        ext <;> simp_all
      · rintro (he | hm)
        · rw [← he]
        · exact absurd hm hnot
    · rw [if_neg hk, ih hs]
      constructor
      · exact fun hm => .inr hm
      · rintro (he | hm)
        · exact absurd (by rw [← he]) hk
        · exact hm

theorem find_filter (p : K → Bool) (k : K) (l : List (K × V)) :
    find k (l.filter (fun e => p e.1)) = if p k then find k l else none := by
  induction l with
  | nil => simp
  | cons e l ih =>
    by_cases hk : e.1 = k
    · subst hk
      by_cases hp : p e.1
      · simp [hp, find_cons]
      · simp [hp, ih]
    · by_cases hp : p e.1
      · simp [hp, find_cons, hk, ih]
      · simp [hp, find_cons, hk, ih]

theorem find_insertEntry (k j : K) (v : V) (l : List (K × V)) :
    find j (insertEntry k v l) = if j = k then some v else find j l := by
  unfold insertEntry
  rw [find_append, find_cons, find_filter (fun x => decide (x < k)),
    find_filter (fun x => decide (k < x))]
  rcases lt_trichotomy j k with hlt | rfl | hgt
  · simp [hlt, ne_of_lt hlt, (ne_of_lt hlt).symm, not_lt_of_gt hlt]
  · simp
  · simp [hgt, ne_of_lt hgt, (ne_of_lt hgt).symm, not_lt_of_gt hgt]

/-- A sorted list is determined by the map it represents. -/
theorem ext_find (ha : Sorted a) (hb : Sorted b)
    (h : ∀ k, find k a = find k b) : a = b := by
  have hmem : ∀ e, e ∈ a ↔ e ∈ b := by
    rintro ⟨k, v⟩
    rw [← find_eq_some ha, ← find_eq_some hb, h]
  have hlt : ∀ {x y : K × V}, x.1 < y.1 → ¬ y.1 < x.1 := fun h => not_lt_of_gt h
  have hperm : a.Perm b := (perm_ext_iff_of_nodup ha.nodup hb.nodup).mpr hmem
  exact List.Perm.eq_of_pairwise (fun x y _ _ hxy hyx => absurd hyx (hlt hxy)) ha hb hperm

/-! ## A list cut at a key -/

variable {m r : List (K × V)}

theorem insertEntry_cut (k : K) (v : V)
    (hl : Below l k) (hr : Above r k) :
    insertEntry k v (l ++ m ++ r) = l ++ insertEntry k v m ++ r := by
  have hl1 : l.filter (fun e => decide (e.1 < k)) = l :=
    filter_eq_self.mpr (fun e he => by simpa using hl e he)
  have hl2 : l.filter (fun e => decide (k < e.1)) = [] :=
    filter_eq_nil_iff.mpr (fun e he => by simpa using le_of_lt (hl e he))
  have hr1 : r.filter (fun e => decide (e.1 < k)) = [] :=
    filter_eq_nil_iff.mpr (fun e he => by simpa using le_of_lt (hr e he))
  have hr2 : r.filter (fun e => decide (k < e.1)) = r :=
    filter_eq_self.mpr (fun e he => by simpa using hr e he)
  simp [insertEntry, filter_append, hl1, hl2, hr1, hr2]

theorem eraseEntry_cut (k : K)
    (hl : Below l k) (hr : Above r k) :
    eraseEntry k (l ++ m ++ r) = l ++ eraseEntry k m ++ r := by
  have hl1 : l.filter (fun e => decide (e.1 ≠ k)) = l :=
    filter_eq_self.mpr (fun e he => by simpa using ne_of_lt (hl e he))
  have hr1 : r.filter (fun e => decide (e.1 ≠ k)) = r :=
    filter_eq_self.mpr (fun e he => by simpa using (ne_of_lt (hr e he)).symm)
  unfold eraseEntry
  rw [filter_append, filter_append, hl1, hr1]

theorem find_cut (k : K) (hl : Below l k) (hr : Above r k) :
    find k (l ++ m ++ r) = find k m := by
  have h1 : find k l = none := find_eq_none.2 (fun e he => ne_of_lt (hl e he))
  have h2 : find k r = none := find_eq_none.2 (fun e he => (ne_of_lt (hr e he)).symm)
  rw [find_append, find_append, h1, h2]
  simp

/-- Nothing to erase: the list is unchanged. -/
theorem eraseEntry_absent (h : find k l = none) :
    eraseEntry k l = l :=
  filter_eq_self.mpr (fun e he => by simpa using find_eq_none.1 h e he)

theorem length_eraseEntry_le (k : K) (l : List (K × V)) :
    (eraseEntry k l).length ≤ l.length := length_filter_le _ _

/-- Binding a key never drops another entry. -/
theorem length_le_insertEntry (k : K) (v : V) (h : Sorted l) :
    l.length ≤ (insertEntry k v l).length := by
  have hnodup : (l.map Prod.fst).Nodup := pairwise_map.mpr (List.Pairwise.imp ne_of_lt h)
  have hsub : l.map Prod.fst ⊆ (insertEntry k v l).map Prod.fst := by
    intro j hj
    obtain ⟨e, he, rfl⟩ := mem_map.mp hj
    have hsome : (find e.1 (insertEntry k v l)).isSome = true := by
      rw [find_insertEntry]
      split
      · rfl
      · exact find_isSome.2 ⟨e, he, rfl⟩
    obtain ⟨x, hx, hxe⟩ := find_isSome.1 hsome
    exact mem_map.mpr ⟨x, hx, hxe⟩
  simpa using (hnodup.subperm hsub).length_le

/-! ## Two maps -/

/-- The bindings of both, the second winning on a shared key. -/
def unionEntries (a b : List (K × V)) : List (K × V) :=
  b.foldl (fun l e => insertEntry e.1 e.2 l) a

/-- The bindings of the first whose key the second has. -/
def interEntries (a b : List (K × V)) : List (K × V) :=
  a.filter (fun e => (find e.1 b).isSome)

/-- The bindings of the first whose key the second does not have. -/
def diffEntries (a b : List (K × V)) : List (K × V) :=
  a.filter (fun e => (find e.1 b).isNone)

/-- Every key of the first is a key of the second. -/
def subsetEntries (a b : List (K × V)) : Bool := a.all (fun e => (find e.1 b).isSome)

theorem find_above (h : Above l k) : find k l = none :=
  find_eq_none.2 (fun e he => (ne_of_lt (h e he)).symm)

/-- A key before the first is before all. -/
theorem Sorted.above {e : K × V} (h : Sorted (e :: l)) (hk : k < e.1) :
    Above (e :: l) k := by
  intro x hx
  rcases mem_cons.mp hx with rfl | hx
  · exact hk
  · exact lt_trans hk ((sorted_cons.1 h).1 x hx)

/-- Keys after the head of a list are looked up in its tail. -/
theorem find_cons_above {y : K × V} (h : Above l y.1) :
    ∀ e ∈ l, find e.1 (y :: b) = find e.1 b := by
  intro e he
  rw [find_cons, if_neg (ne_of_lt (h e he))]

theorem subsetEntries_congr {c : List (K × V)} (h : ∀ e ∈ a, find e.1 b = find e.1 c) :
    subsetEntries a b = subsetEntries a c := by
  induction a with
  | nil => rfl
  | cons e a ih =>
    have := ih (fun x hx => h x (by simp [hx]))
    simp only [subsetEntries, all_cons] at this ⊢
    rw [this, h e (by simp)]

theorem sorted_unionEntries (b : List (K × V)) (h : Sorted a) :
    Sorted (unionEntries a b) := by
  induction b generalizing a with
  | nil => exact h
  | cons e b ih => exact ih (sorted_insertEntry e.1 e.2 h)

/-- Bindings made one after the other: the last one for a key counts. -/
theorem find_foldl_insertEntry (k : K) (a b : List (K × V)) :
    find k (unionEntries a b) = (find k b.reverse).or (find k a) := by
  induction b generalizing a with
  | nil => simp [unionEntries]
  | cons e b ih =>
    have hstep : unionEntries a (e :: b) = unionEntries (insertEntry e.1 e.2 a) b := rfl
    rw [hstep, ih, find_insertEntry, reverse_cons, find_append, find_cons, find_nil,
      Option.or_assoc]
    congr 1
    by_cases hk : e.1 = k
    · rw [if_pos hk.symm, if_pos hk]
      rfl
    · rw [if_neg (Ne.symm hk), if_neg hk]
      rfl

/-- In a sorted list the first entry of a key is the last. -/
theorem find_reverse (hb : Sorted b) (k : K) : find k b.reverse = find k b := by
  induction b with
  | nil => rfl
  | cons e b ih =>
    obtain ⟨habove, hs⟩ := sorted_cons.1 hb
    rw [reverse_cons, find_append, ih hs, find_cons k e [], find_cons k e b, find_nil]
    by_cases hk : e.1 = k
    · rw [if_pos hk, if_pos hk, find_above (hk ▸ habove)]
      rfl
    · rw [if_neg hk, if_neg hk, Option.or_none]

theorem find_unionEntries (hb : Sorted b) (k : K) (a : List (K × V)) :
    find k (unionEntries a b) = (find k b).or (find k a) := by
  rw [find_foldl_insertEntry, find_reverse hb]

theorem length_le_unionEntries (b : List (K × V)) (h : Sorted a) :
    a.length ≤ (unionEntries a b).length := by
  induction b generalizing a with
  | nil => exact le_rfl
  | cons e b ih =>
    exact le_trans (length_le_insertEntry e.1 e.2 h) (ih (sorted_insertEntry e.1 e.2 h))

theorem find_interEntries (k : K) (a b : List (K × V)) :
    find k (interEntries a b) = if (find k b).isSome then find k a else none :=
  find_filter (fun j => (find j b).isSome) k a

end SortedEntries

/-! # The boundary of a monotone predicate, by halving

    `partitionPoint p fuel lo hi` is the loop every binary search over
    `[lo, hi)` runs: it keeps `p` true before `lo` and false from `hi` on, and
    halves the interval in between.  For a predicate that is true up to a
    point and false from there, it returns that point. -/

namespace PartitionPoint

/-- `fuel` bounds the number of halvings; `hi - lo` is always enough. -/
def partitionPoint (p : Nat → Bool) : Nat → Nat → Nat → Nat
  | 0, lo, _ => lo
  | fuel + 1, lo, hi =>
    if lo < hi then
      let mid := lo + (hi - lo) / 2
      if p mid then partitionPoint p fuel (mid + 1) hi
      else partitionPoint p fuel lo mid
    else lo

/-- `p` holds on a prefix of `[lo, hi)`. -/
def PrefixOn (p : Nat → Bool) (lo hi : Nat) : Prop :=
  ∀ i j, lo ≤ i → i ≤ j → j < hi → p j = true → p i = true

theorem partitionPoint_spec (p : Nat → Bool) :
    ∀ (fuel lo hi : Nat), lo ≤ hi → hi - lo ≤ fuel → PrefixOn p lo hi →
      lo ≤ partitionPoint p fuel lo hi ∧ partitionPoint p fuel lo hi ≤ hi ∧
      (∀ i, lo ≤ i → i < partitionPoint p fuel lo hi → p i = true) ∧
      (∀ i, partitionPoint p fuel lo hi ≤ i → i < hi → p i = false) := by
  intro fuel
  induction fuel with
  | zero =>
    intro lo hi hle hfuel _
    refine ⟨le_rfl, hle, ?_, ?_⟩
    · intro i h1 h2
      exact absurd h2 (by simp only [partitionPoint]; omega)
    · intro i h1 h2
      exact absurd h2 (by simp only [partitionPoint] at h1; omega)
  | succ fuel ih =>
    intro lo hi hle hfuel hpre
    unfold partitionPoint
    by_cases hlt : lo < hi
    · rw [if_pos hlt]
      have hmid1 : lo ≤ lo + (hi - lo) / 2 := Nat.le_add_right _ _
      have hmid2 : lo + (hi - lo) / 2 < hi := by omega
      by_cases hp : p (lo + (hi - lo) / 2) = true
      · -- the boundary is after `mid`, and everything up to `mid` satisfies `p`
        simp only [hp, if_true]
        obtain ⟨h1, h2, h3, h4⟩ := ih (lo + (hi - lo) / 2 + 1) hi (by omega) (by omega)
          (fun i j hi1 hij hj hpj => hpre i j (by omega) hij hj hpj)
        refine ⟨by omega, h2, ?_, h4⟩
        intro i hi1 hi2
        by_cases him : i ≤ lo + (hi - lo) / 2
        · exact hpre i _ hi1 him hmid2 hp
        · exact h3 i (by omega) hi2
      · have hpf : p (lo + (hi - lo) / 2) = false := by simpa using hp
        simp only [hpf, Bool.false_eq_true, if_false]
        obtain ⟨h1, h2, h3, h4⟩ := ih lo (lo + (hi - lo) / 2) hmid1 (by omega)
          (fun i j hi1 hij hj hpj => hpre i j hi1 hij (by omega) hpj)
        refine ⟨h1, by omega, h3, ?_⟩
        intro i hi1 hi2
        by_cases him : i < lo + (hi - lo) / 2
        · exact h4 i hi1 him
        · by_contra hpi
          have hpi' : p i = true := by simpa using hpi
          exact hp (hpre _ i hmid1 (by omega) hi2 hpi')
    · rw [if_neg hlt]
      refine ⟨le_rfl, hle, ?_, ?_⟩
      · intro i h1 h2
        omega
      · intro i h1 h2
        omega

end PartitionPoint
