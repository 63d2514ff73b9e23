import Mathlib

/-! # Lists with a Place Index

    A list of distinct elements that is searched from end to end while it is
    short. Once it has grown to a threshold it also keeps an index from each
    element to its place, and from then on an element is removed by moving the
    last one into its place.
-/

namespace Camel.Lib

open List Function

/-- A list and, once it has been built, the index of its elements' places. -/
structure IndexedList (α : Type) where
  items : List α
  places : Option (α → Option Nat)

namespace IndexedList

variable {α : Type} [DecidableEq α]

/-! ## Operations -/

def empty : IndexedList α := ⟨[], none⟩

/-- Give `x` the place `i` unless it has a place already. -/
def emplace (m : α → Option Nat) (x : α) (i : Nat) : α → Option Nat :=
  if (m x).isSome then m else update m x (some i)

/-- Give each element of `xs` its place, the first one the place `i`. -/
def emplaceAll (m : α → Option Nat) : List α → Nat → (α → Option Nat)
  | [], _ => m
  | x :: xs, i => emplaceAll (emplace m x i) xs (i + 1)

/-- The list with its index built when it is long enough to want one. -/
def indexed (threshold : Nat) (l : IndexedList α) : IndexedList α :=
  match l.places with
  | some _ => l
  | none =>
    if threshold ≤ l.items.length then
      { l with places := some (emplaceAll (fun _ => none) l.items 0) }
    else l

/-- Add `x` at the end unless the list has it. -/
def add (threshold : Nat) (l : IndexedList α) (x : α) : IndexedList α :=
  if l.items.getLast? = some x then l
  else
    let l := l.indexed threshold
    match l.places with
    | some m =>
      if (m x).isSome then l
      else ⟨l.items ++ [x], some (emplace m x l.items.length)⟩
    | none => if x ∈ l.items then l else { l with items := l.items ++ [x] }

/-- Remove the element at place `i`: the last one moves into its place. -/
def swapRemove (items : List α) (m : α → Option Nat) (x : α) (i : Nat) : IndexedList α :=
  let m := update m x none
  match items.getLast? with
  | some z =>
    if i + 1 ≠ items.length then
      ⟨(items.set i z).dropLast, some (update m z (some i))⟩
    else ⟨items.dropLast, some m⟩
  | none => ⟨items, some m⟩

/-- Remove `x`. A list without an index keeps its order and is searched from its end. -/
def remove (threshold : Nat) (l : IndexedList α) (x : α) : IndexedList α :=
  let l := l.indexed threshold
  match l.places with
  | some m =>
    match m x with
    | none => l
    | some i => swapRemove l.items m x i
  | none => { l with items := (l.items.reverse.erase x).reverse }

/-! ## Validity -/

/-- The index names each element's place exactly. -/
def Exact (items : List α) (m : α → Option Nat) : Prop :=
  ∀ x i, m x = some i ↔ items[i]? = some x

/-- The elements are distinct, and the index, if there is one, is exact. -/
structure Valid (l : IndexedList α) : Prop where
  nodup : l.items.Nodup
  exact : ∀ m, l.places = some m → Exact l.items m

omit [DecidableEq α] in
theorem valid_empty : (empty : IndexedList α).Valid where
  nodup := nodup_nil
  exact := by simp [empty]

variable {items : List α} {m : α → Option Nat}

omit [DecidableEq α] in
theorem Exact.isSome_iff (h : Exact items m) (x : α) :
    (m x).isSome = true ↔ x ∈ items := by
  rw [Option.isSome_iff_exists, mem_iff_getElem?]
  exact exists_congr fun i => h x i

variable {x : α}

omit [DecidableEq α] in
/-- A new last element changes no other element's place. -/
theorem getElem?_concat_of_ne {xs : List α} {y : α} (hy : y ≠ x) {i : Nat} :
    (xs ++ [x])[i]? = some y ↔ xs[i]? = some y := by
  by_cases hlt : i < xs.length
  · rw [getElem?_append_left hlt]
  · rw [getElem?_append_right (by omega), getElem?_eq_none (by omega : xs.length ≤ i)]
    constructor
    · intro hi
      have := mem_of_getElem? hi
      exact absurd (mem_singleton.1 this) hy
    · rintro ⟨⟩

/-- The places of `pre ++ xs` from those of `pre`. -/
theorem emplaceAll_exact (xs : List α) :
    ∀ (pre : List α) (m : α → Option Nat), Exact pre m → (pre ++ xs).Nodup →
      Exact (pre ++ xs) (emplaceAll m xs pre.length) := by
  induction xs with
  | nil =>
    intro pre m h _
    simpa [emplaceAll] using h
  | cons x xs ih =>
    intro pre m h hnd
    have hx : x ∉ pre := by
      rw [nodup_append] at hnd
      intro hmem
      exact hnd.2.2 x hmem x (.head _) rfl
    have hnone : ¬ (m x).isSome = true := by
      rw [h.isSome_iff]
      exact hx
    have hext : Exact (pre ++ [x]) (emplace m x pre.length) := by
      intro y i
      rw [emplace, if_neg hnone]
      by_cases hy : y = x
      · subst hy
        rw [update_self]
        constructor
        · rintro ⟨⟩
          simp
        · intro hi
          by_cases hlt : i < pre.length
          · rw [getElem?_append_left hlt] at hi
            exact absurd (mem_of_getElem? hi) hx
          · have hlen := (List.getElem?_eq_some_iff.1 hi).1
            simp only [length_append, length_singleton] at hlen
            congr 1
            omega
      · rw [update_of_ne hy, h y i, getElem?_concat_of_ne hy]
    have := ih (pre ++ [x]) (emplace m x pre.length) hext (by simpa using hnd)
    simpa [emplaceAll] using this

theorem indexed_items (threshold : Nat) (l : IndexedList α) :
    (l.indexed threshold).items = l.items := by
  unfold indexed
  split
  · rfl
  · split <;> rfl

variable {l : IndexedList α}

theorem Valid.indexed (h : l.Valid) (threshold : Nat) :
    (l.indexed threshold).Valid := by
  constructor
  · rw [indexed_items]
    exact h.nodup
  · intro m hm
    rw [indexed_items]
    unfold IndexedList.indexed at hm
    split at hm
    · exact h.exact m hm
    · split at hm
      · cases hm
        have hnil : Exact ([] : List α) fun _ => none := by
          intro x i
          simp
        exact emplaceAll_exact l.items [] _ hnil h.nodup
      · exact h.exact m hm

/-! ## Adding -/

theorem mem_add (h : l.Valid) (threshold : Nat) (x y : α) :
    y ∈ (l.add threshold x).items ↔ y = x ∨ y ∈ l.items := by
  have hidx := h.indexed threshold
  have hitems := indexed_items threshold l
  unfold add
  split
  · next hlast =>
    have hx : x ∈ l.items := mem_of_getLast? hlast
    constructor
    · exact .inr
    · rintro (rfl | hy)
      · exact hx
      · exact hy
  · simp only
    split
    · next m hm =>
      split
      · next hsome =>
        rw [(hidx.exact m hm).isSome_iff, hitems] at hsome
        rw [hitems]
        constructor
        · exact .inr
        · rintro (rfl | hy)
          · exact hsome
          · exact hy
      · simp [hitems, or_comm]
    · split
      · next hmem =>
        rw [hitems] at hmem ⊢
        constructor
        · exact .inr
        · rintro (rfl | hy)
          · exact hmem
          · exact hy
      · simp [hitems, or_comm]

theorem Exact.concat (h : Exact items m)
    (hnd : (items ++ [x]).Nodup) : Exact (items ++ [x]) (emplace m x items.length) :=
  emplaceAll_exact [x] items m h hnd

theorem Valid.add (h : l.Valid) (threshold : Nat) (x : α) :
    (l.add threshold x).Valid := by
  have hidx := h.indexed threshold
  unfold IndexedList.add
  split
  · exact h
  · simp only
    split
    · next m hm =>
      split
      · exact hidx
      · next hsome =>
        have hnd : ((l.indexed threshold).items ++ [x]).Nodup := by
          rw [(hidx.exact m hm).isSome_iff] at hsome
          exact Nodup.append hidx.nodup (nodup_singleton x)
            (disjoint_singleton.2 hsome)
        constructor
        · exact hnd
        · rintro _ ⟨⟩
          exact (hidx.exact m hm).concat hnd
    · next hm =>
      split
      · exact hidx
      · next hmem =>
        constructor
        · exact Nodup.append hidx.nodup (nodup_singleton x)
            (disjoint_singleton.2 hmem)
        · intro m hm'
          rw [hm] at hm'
          cases hm'

/-! ## Removing -/

omit [DecidableEq α] in
/-- What removing the element at a place leaves. -/
theorem swapRemove_items (pre suf : List α) (x z : α) :
    ((pre ++ x :: (suf ++ [z])).set pre.length z).dropLast = pre ++ z :: suf := by
  rw [set_append_right _ _ (Nat.le_refl _), Nat.sub_self, set_cons_zero,
    ← cons_append, ← append_assoc, dropLast_concat]

/-- Removing the last element only takes it away. -/
theorem Exact.swapRemove_last {pre : List α}
    (h : Exact (pre ++ [x]) m) (hnd : (pre ++ [x]).Nodup) :
    (swapRemove (pre ++ [x]) m x pre.length).Valid ∧
      ∀ y, y ∈ (swapRemove (pre ++ [x]) m x pre.length).items ↔ y ∈ pre ++ [x] ∧ y ≠ x := by
  have hxpre : x ∉ pre := by
    rw [nodup_append] at hnd
    intro hmem
    exact hnd.2.2 x hmem x (.head _) rfl
  have heq : IndexedList.swapRemove (pre ++ [x]) m x pre.length =
      ⟨pre, some (update m x none)⟩ := by
    simp [IndexedList.swapRemove]
  rw [heq]
  constructor
  · constructor
    · exact hnd.of_append_left
    rintro _ ⟨⟩ y i
    by_cases hy : y = x
    · subst hy
      rw [update_self]
      constructor
      · rintro ⟨⟩
      · intro hmem
        exact absurd (mem_of_getElem? hmem) hxpre
    · rw [update_of_ne hy, h y i, getElem?_concat_of_ne hy]
  · intro y
    simp only [mem_append, mem_singleton]
    constructor
    · intro hy
      refine ⟨.inl hy, ?_⟩
      rintro rfl
      exact hxpre hy
    · rintro ⟨hy | hy, hne⟩
      · exact hy
      · exact absurd hy hne

/-- Removing any other element moves the last one, `z`, into its place. -/
theorem Exact.swapRemove_moved {pre suf : List α} {z : α}
    (h : Exact (pre ++ x :: (suf ++ [z])) m) (hnd : (pre ++ x :: (suf ++ [z])).Nodup) :
    (swapRemove (pre ++ x :: (suf ++ [z])) m x pre.length).Valid ∧
      ∀ y, y ∈ (swapRemove (pre ++ x :: (suf ++ [z])) m x pre.length).items ↔
        y ∈ pre ++ x :: (suf ++ [z]) ∧ y ≠ x := by
  have heq : IndexedList.swapRemove (pre ++ x :: (suf ++ [z])) m x pre.length =
      ⟨pre ++ z :: suf,
        some (update (update m x none) z (some pre.length))⟩ := by
    have hlast : (pre ++ x :: (suf ++ [z])).getLast? = some z := by
      rw [← cons_append, ← append_assoc, getLast?_concat]
    simp only [IndexedList.swapRemove, hlast, swapRemove_items]
    rw [if_pos (by simp)]
  rw [heq]
  have hperm : (pre ++ x :: (suf ++ [z])).Perm (x :: (pre ++ z :: suf)) := by
    apply List.perm_middle.trans
    apply Perm.cons
    exact Perm.append_left pre (perm_append_singleton z suf)
  obtain ⟨hxnot, hnd'⟩ := nodup_cons.1 (hperm.nodup_iff.1 hnd)
  constructor
  · constructor
    · exact hnd'
    rintro _ ⟨⟩ y i
    by_cases hyz : y = z
    · subst hyz
      rw [update_self]
      constructor
      · rintro ⟨⟩
        simp
      · intro hi
        have hmid : (pre ++ y :: suf)[pre.length]? = some y := by simp
        obtain ⟨h₁, e₁⟩ := List.getElem?_eq_some_iff.1 hi
        obtain ⟨h₂, e₂⟩ := List.getElem?_eq_some_iff.1 hmid
        rw [(hnd'.getElem_inj_iff).1 (e₁.trans e₂.symm)]
    rw [update_of_ne hyz]
    by_cases hyx : y = x
    · subst hyx
      rw [update_self]
      constructor
      · rintro ⟨⟩
      · intro hi
        exact absurd (mem_of_getElem? hi) hxnot
    -- every other element is where it was
    rw [update_of_ne hyx, h y i]
    rcases Nat.lt_trichotomy i pre.length with hlt | rfl | hgt
    · rw [getElem?_append_left hlt, getElem?_append_left hlt]
    · simp [Ne.symm hyz, Ne.symm hyx]
    · obtain ⟨k, rfl⟩ : ∃ k, i = pre.length + (k + 1) := ⟨i - pre.length - 1, by omega⟩
      rw [getElem?_append_right (by omega), getElem?_append_right (by omega)]
      simp only [Nat.add_sub_cancel_left, getElem?_cons_succ]
      exact getElem?_concat_of_ne hyz
  · intro y
    rw [hperm.mem_iff, mem_cons]
    constructor
    · intro hy
      refine ⟨.inr hy, ?_⟩
      rintro rfl
      exact hxnot hy
    · rintro ⟨hy | hy, hne⟩
      · exact absurd hy hne
      · exact hy

theorem Exact.swapRemove (h : Exact items m)
    (hnd : items.Nodup) {i : Nat} (hi : m x = some i) :
    (swapRemove items m x i).Valid ∧
      ∀ y, y ∈ (swapRemove items m x i).items ↔ y ∈ items ∧ y ≠ x := by
  obtain ⟨hlt, hget⟩ := List.getElem?_eq_some_iff.1 ((h x i).1 hi)
  obtain ⟨pre, suf, rfl, hlen⟩ : ∃ pre suf, items = pre ++ x :: suf ∧ pre.length = i := by
    refine ⟨items.take i, items.drop (i + 1), ?_, by simp; omega⟩
    rw [← hget, getElem_cons_drop, take_append_drop]
  subst hlen
  rcases eq_nil_or_concat' suf with rfl | ⟨suf, z, rfl⟩
  · exact h.swapRemove_last hnd
  · exact h.swapRemove_moved hnd

/-- Removing keeps the list valid and takes out exactly the one element. -/
theorem remove_spec (h : l.Valid) (threshold : Nat) (x : α) :
    (l.remove threshold x).Valid ∧
      ∀ y, y ∈ (l.remove threshold x).items ↔ y ∈ l.items ∧ y ≠ x := by
  have hidx := h.indexed threshold
  have hitems := indexed_items threshold l
  unfold remove
  simp only
  split
  · next m hm =>
    split
    · next hnone =>
      refine ⟨hidx, fun y => ?_⟩
      rw [hitems]
      have hx : x ∉ l.items := by
        rw [← hitems, ← (hidx.exact m hm).isSome_iff, hnone]
        simp
      constructor
      · intro hy
        refine ⟨hy, ?_⟩
        rintro rfl
        exact hx hy
      · exact And.left
    · next i hi =>
      have := (hidx.exact m hm).swapRemove hidx.nodup hi
      rw [hitems] at this ⊢
      exact this
  · next hm =>
    have hrev : (l.indexed threshold).items.reverse.Nodup := nodup_reverse.2 hidx.nodup
    refine ⟨⟨nodup_reverse.2 (hrev.erase x), ?_⟩, fun y => ?_⟩
    · intro m hm'
      rw [hm] at hm'
      cases hm'
    · rw [mem_reverse, hrev.mem_erase_iff, mem_reverse, hitems, and_comm]

theorem Valid.remove (h : l.Valid) (threshold : Nat) (x : α) :
    (l.remove threshold x).Valid :=
  (remove_spec h threshold x).1

theorem mem_remove (h : l.Valid) (threshold : Nat) (x y : α) :
    y ∈ (l.remove threshold x).items ↔ y ∈ l.items ∧ y ≠ x :=
  (remove_spec h threshold x).2 y

end IndexedList

end Camel.Lib
