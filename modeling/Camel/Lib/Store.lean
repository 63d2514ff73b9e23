import Mathlib

/-! # Finite Stores

    A store maps finitely many keys to values and carries the set of its keys,
    so that a fresh key can be picked and a walk over it can be bounded.
-/

open Function

namespace Camel.Lib

/-- A partial function with the finite set of its keys. -/
structure Store (κ α : Type) [DecidableEq κ] where
  get : κ → Option α
  keys : Finset κ
  mem_keys : ∀ k, k ∈ keys ↔ (get k).isSome = true

namespace Store

variable {κ α : Type} [DecidableEq κ]

def empty : Store κ α where
  get _ := none
  keys := ∅
  mem_keys := by simp

variable (s : Store κ α)

/-- The store with one key set. -/
def put (k : κ) (v : α) : Store κ α where
  get k' := if k' = k then some v else s.get k'
  keys := insert k s.keys
  mem_keys k' := by
    by_cases h : k' = k
    · simp [h]
    · simp [h, s.mem_keys]

/-- The store on the keys that are kept. -/
def keep (p : κ → Bool) : Store κ α where
  get k := if p k then s.get k else none
  keys := s.keys.filter fun k => p k = true
  mem_keys k := by
    cases h : p k
    · simp [h]
    · simp [h, s.mem_keys]

@[simp] theorem get_empty (k : κ) : (empty : Store κ α).get k = none := rfl

@[simp] theorem get_put_self (k : κ) (v : α) : (s.put k v).get k = some v := by
  simp [put]

theorem get_put_of_ne {k k' : κ} (v : α) (h : k' ≠ k) :
    (s.put k v).get k' = s.get k' := by
  simp [put, h]

theorem get_put (k k' : κ) (v : α) :
    (s.put k v).get k' = if k' = k then some v else s.get k' := rfl

theorem get_keep (p : κ → Bool) (k : κ) :
    (s.keep p).get k = if p k then s.get k else none := rfl

theorem mem_keys_of_get {s : Store κ α} {k : κ} {v : α} (h : s.get k = some v) : k ∈ s.keys := by
  rw [s.mem_keys, h]
  rfl

theorem get_eq_none_of_notMem {s : Store κ α} {k : κ} (h : k ∉ s.keys) : s.get k = none := by
  rw [s.mem_keys] at h
  simpa using h

end Store

/-! ## Picking a Fresh Number -/

/-- A way to pick a number that is not in use. -/
structure Placement where
  pick : Finset Nat → Nat
  pick_notMem : ∀ used, pick used ∉ used

/-- The number behind the largest one in use. -/
def Placement.behind : Placement where
  pick used := used.sup id + 1
  pick_notMem used h := by
    have hle : used.sup id + 1 ≤ used.sup id := Finset.le_sup (f := id) h
    omega

end Camel.Lib

/-! # Moving the Keys of a Table

    A table is rebuilt entry by entry, each under a new key or left out. What
    stands under a key afterwards does not depend on the order of the entries as
    long as no two of them get that key.
-/

namespace Camel.Lib

open List

variable {α β : Type} [DecidableEq α]

/-- Each entry under the key `f` gives it, if it gives it one. -/
def rekey (f : α → Option α) (m : AList fun _ : α => β) : AList fun _ : α => β :=
  m.entries.foldl (fun updated e =>
    match f e.1 with
    | some k => updated.insert k e.2
    | none => updated) ∅

variable {f : α → Option α}

theorem lookup_foldl_rekey {k q : α} (hk : f k = some q) (l : List (Sigma fun _ : α => β))
    (hl : l.NodupKeys) (honly : ∀ e ∈ l, f e.1 = some q → e.1 = k)
    (updated : AList fun _ : α => β) :
    (l.foldl (fun updated e =>
      match f e.1 with
      | some k => updated.insert k e.2
      | none => updated) updated).lookup q = (l.dlookup k).or (updated.lookup q) := by
  induction l generalizing updated with
  | nil => rfl
  | cons e l ih =>
    obtain ⟨a, b⟩ := e
    obtain ⟨hout, hrest⟩ := List.nodupKeys_cons.mp hl
    have hnext := ih hrest fun e he => honly e (.tail _ he)
    rw [foldl_cons, hnext]
    by_cases ha : a = k
    · -- the entry itself: no later one gets this key
      subst ha
      rw [dlookup_cons_eq, List.dlookup_eq_none.mpr hout, hk]
      exact AList.lookup_insert updated
    · rw [dlookup_cons_ne _ _ (Ne.symm ha)]
      congr 1
      cases hfa : f a with
      | none => rfl
      | some q' =>
        dsimp only
        apply AList.lookup_insert_ne
        rintro rfl
        exact ha (honly ⟨a, b⟩ (by simp) hfa)

/-- The value under a key that one old key alone is moved to. -/
theorem lookup_rekey {m : AList fun _ : α => β} {k q : α} (hk : f k = some q)
    (honly : ∀ k' ∈ m, f k' = some q → k' = k) : (rekey f m).lookup q = m.lookup k := by
  have h := lookup_foldl_rekey hk m.entries m.nodupKeys
    (fun e he => honly e.1 (AList.mem_keys.mpr (mem_keys_of_mem he))) ∅
  rw [AList.lookup_empty, Option.or_none] at h
  exact h

theorem mem_foldl_rekey {q : α} (l : List (Sigma fun _ : α => β)) (updated : AList fun _ : α => β)
    (h : q ∈ l.foldl (fun updated e =>
      match f e.1 with
      | some k => updated.insert k e.2
      | none => updated) updated) : q ∈ updated ∨ ∃ e ∈ l, f e.1 = some q := by
  induction l generalizing updated with
  | nil => exact .inl h
  | cons e l ih =>
    rcases ih _ h with h | ⟨e', he', hq⟩
    · simp only at h
      split at h
      · next k hk =>
        rcases (AList.mem_insert _).mp h with rfl | h
        · exact .inr ⟨e, by simp, hk⟩
        · exact .inl h
      · exact .inl h
    · exact .inr ⟨e', mem_cons_of_mem e he', hq⟩

/-- Every key afterwards is one an old key was moved to. -/
theorem mem_rekey {m : AList fun _ : α => β} {q : α} (h : q ∈ rekey f m) :
    ∃ k ∈ m, f k = some q := by
  rcases mem_foldl_rekey m.entries ∅ h with h | ⟨e, he, hq⟩
  · exact absurd h (AList.notMem_empty q)
  · exact ⟨e.1, AList.mem_keys.mpr (mem_keys_of_mem he), hq⟩

end Camel.Lib

/-! # Writing Places One After Another

    A run of assignments: each place gets a value read from the store as it is
    then. When no assignment changes what a later one reads, all of them read
    the store as it was, as an assignment of all places at once would.
-/

namespace Camel.Lib

open List

variable {ι α β : Type} [DecidableEq α] {target : ι → α}

/-- Each index of the list in turn writes its place with what it reads. -/
def putEach (target : ι → α) (read : (α → β) → ι → β) : List ι → (α → β) → (α → β)
  | [], f => f
  | i :: l, f => putEach target read l (update f (target i) (read f i))

/-- An assignment leaves what another one reads. -/
def Leaves (target : ι → α) (read : (α → β) → ι → β) (i j : ι) : Prop :=
  ∀ (f : α → β) (x : β), read (update f (target i) x) j = read f j

theorem putEach_congr {read read' : (α → β) → ι → β} (l : List ι)
    (h : ∀ i ∈ l, ∀ f, read f i = read' f i) (f : α → β) :
    putEach target read l f = putEach target read' l f := by
  induction l generalizing f with
  | nil => rfl
  | cons i l ih =>
    show putEach target read l _ = putEach target read' l _
    rw [h i (.head _) f]
    exact ih (fun j hj => h j (.tail _ hj)) _

/-- One after another is all at once, if no place is read after it was written. -/
theorem putEach_at_once {read : (α → β) → ι → β} (l : List ι)
    (h : l.Pairwise (Leaves target read)) (f : α → β) :
    putEach target read l f = putEach target (fun _ i => read f i) l f := by
  induction l generalizing f with
  | nil => rfl
  | cons i l ih =>
    obtain ⟨hi, hl⟩ := pairwise_cons.mp h
    show putEach target read l _ = putEach target _ l _
    rw [ih hl]
    apply putEach_congr
    intro j hj _
    exact hi j hj f (read f i)

theorem putEach_of_ne {read : (α → β) → ι → β} {l : List ι} {s : α}
    (h : ∀ i ∈ l, target i ≠ s) (f : α → β) : putEach target read l f s = f s := by
  induction l generalizing f with
  | nil => rfl
  | cons i l ih =>
    show putEach target read l _ s = f s
    rw [ih fun j hj => h j (.tail _ hj)]
    exact update_of_ne (h i (.head _)).symm ..

/-- Stores that agree on a place agree on it afterwards. -/
theorem putEach_agree {value : ι → β} (l : List ι) {f g : α → β} {s : α} (h : f s = g s) :
    putEach target (fun _ i => value i) l f s = putEach target (fun _ i => value i) l g s := by
  induction l generalizing f g with
  | nil => exact h
  | cons i l ih =>
    apply ih
    by_cases hs : s = target i
    · rw [hs, update_self, update_self]
    · rw [update_of_ne hs, update_of_ne hs, h]

/-- A place every assignment to which writes one value has that value afterwards. -/
theorem putEach_of_mem {value : ι → β} {l : List ι} {s : α} {v : β}
    (hin : ∃ i ∈ l, target i = s) (h : ∀ i ∈ l, target i = s → value i = v) (f : α → β) :
    putEach target (fun _ i => value i) l f s = v := by
  induction l generalizing f with
  | nil => simp at hin
  | cons i l ih =>
    show putEach target _ l _ s = v
    by_cases hlater : ∃ j ∈ l, target j = s
    · exact ih hlater (fun j hj => h j (.tail _ hj)) _
    · -- the head is the last assignment to the place
      have hi : target i = s := by
        obtain ⟨j, hj, heq⟩ := hin
        obtain rfl | hj := mem_cons.mp hj
        · exact heq
        · exact absurd ⟨j, hj, heq⟩ hlater
      rw [putEach_of_ne fun j hj heq => hlater ⟨j, hj, heq⟩, ← hi, update_self]
      exact h i (.head _) hi

end Camel.Lib
