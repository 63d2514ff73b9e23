import Mathlib

/-! # Linear Scan over Intervals

    Intervals are taken in the order of their starts, and each may be given a
    register until its stop. The scan keeps the intervals that hold a register now
    and the registers that are free; what it must keep is that intervals that
    ever hold one register do not overlap. Intervals are of any type with a start
    and a stop. Two may touch: one may start where the other stops.
-/

namespace Camel.Lib

open List

/-! ## The Scan -/

structure Scan (ι : Type*) where
  active : List (ι × Nat)
  free : List Bool

namespace Scan

variable {ι : Type*}

def isFree (s : Scan ι) (r : Nat) : Prop := s.free.getD r false = true

/-- The holders that stop at `t` or before give their registers back. -/
def expireLoop (stop : ι → Nat) (t : Nat) : List (ι × Nat) → List Bool → Scan ι
  | [], free => ⟨[], free⟩
  | p :: active, free =>
    if stop p.1 ≤ t then expireLoop stop t active (free.set p.2 true)
    else
      let rest := expireLoop stop t active free
      ⟨p :: rest.active, rest.free⟩

def expire (stop : ι → Nat) (t : Nat) (s : Scan ι) : Scan ι := expireLoop stop t s.active s.free

/-- The first free register. -/
def firstFree (s : Scan ι) : Option Nat := s.free.findIdx? id

def take (s : Scan ι) (i : ι) (r : Nat) : Scan ι :=
  ⟨s.active ++ [(i, r)], s.free.set r false⟩

/-- One holder's register goes to another. -/
def replace [DecidableEq ι] (s : Scan ι) (p : ι × Nat) (i : ι) : Scan ι :=
  ⟨s.active.erase p ++ [(i, p.2)], s.free⟩

/-! ## The Invariant -/

/-- Intervals that hold, or held, one register do not overlap; `held` is the set of all of them,
    the starts so far reach `t`, and only registers in `file` are ever handed out. -/
structure Shares (start stop : ι → Nat) (file : Set Nat) (s : Scan ι) (held : Set (ι × Nat))
    (t : Nat) : Prop where
  holds : ∀ p ∈ s.active, p ∈ held
  distinct : s.active.Pairwise fun p q => p.2 ≠ q.2
  busy : ∀ p ∈ s.active, ¬ s.isFree p.2
  past : ∀ p ∈ held, p ∈ s.active ∨ stop p.1 ≤ t
  apart : ∀ p ∈ held, ∀ q ∈ held, p ≠ q → p.2 = q.2 →
    stop p.1 ≤ start q.1 ∨ stop q.1 ≤ start p.1
  spare : ∀ r, s.isFree r → r ∈ file
  given : ∀ p ∈ held, p.2 ∈ file

variable {start stop : ι → Nat} {file : Set Nat} {s : Scan ι} {held : Set (ι × Nat)} {t : Nat}

variable {r : Nat}

theorem isFree_set {free : List Bool} {active : List (ι × Nat)} {q : Nat} {b : Bool} :
    isFree ⟨active, free.set r b⟩ q ↔
      (q = r ∧ r < free.length ∧ b = true) ∨ (q ≠ r ∧ isFree ⟨active, free⟩ q) := by
  unfold isFree
  simp only [getD_eq_getElem?_getD, getElem?_set]
  by_cases h : r = q
  · subst h
    by_cases hlt : r < free.length <;> simp [hlt]
  · simp [h, Ne.symm h]

theorem shares_nil (start stop : ι → Nat) {free : List Bool} (t : Nat)
    (hfile : ∀ r, free.getD r false = true → r ∈ file) :
    Shares start stop file ⟨[], free⟩ ∅ t where
  holds p hp := by cases hp
  distinct := Pairwise.nil
  busy p hp := by cases hp
  past p hp := hp.elim
  apart p hp := hp.elim
  spare := hfile
  given p hp := hp.elim

/-- The holders that stay, and the registers that are free afterwards. -/
theorem expireLoop_spec (stop : ι → Nat) (t : Nat) (active : List (ι × Nat)) (free : List Bool) :
    (expireLoop stop t active free).active = active.filter (fun p => ¬ stop p.1 ≤ t) ∧
      ∀ r, isFree (expireLoop stop t active free) r → isFree ⟨active, free⟩ r ∨
        ∃ p ∈ active, p.2 = r ∧ stop p.1 ≤ t := by
  induction active generalizing free with
  | nil => exact ⟨rfl, fun r hr => .inl hr⟩
  | cons p active ih =>
    unfold expireLoop
    split
    · next hstop =>
      obtain ⟨hactive, hfree⟩ := ih (free.set p.2 true)
      refine ⟨?_, fun r hr => ?_⟩
      · rw [hactive, filter_cons_of_neg (by simpa using hstop)]
      · rcases hfree r hr with hr | ⟨q, hq, hreg, hq'⟩
        · rcases isFree_set.1 hr with ⟨rfl, -, -⟩ | ⟨-, hr⟩
          · exact .inr ⟨p, by simp, rfl, hstop⟩
          · exact .inl hr
        · exact .inr ⟨q, mem_cons_of_mem p hq, hreg, hq'⟩
    · next hstop =>
      obtain ⟨hactive, hfree⟩ := ih free
      refine ⟨?_, fun r hr => ?_⟩
      · rw [filter_cons_of_pos (by simpa using hstop)]
        simp only [hactive]
      · rcases hfree r hr with hr | ⟨q, hq, hreg, hq'⟩
        · exact .inl hr
        · exact .inr ⟨q, mem_cons_of_mem p hq, hreg, hq'⟩

theorem mem_expire {p : ι × Nat} : p ∈ (s.expire stop t).active ↔ p ∈ s.active ∧ t < stop p.1 := by
  unfold expire
  rw [(expireLoop_spec stop t s.active s.free).1, mem_filter]
  simp

/-- Holders of one register are one holder. -/
theorem Shares.eq_of_reg (h : Shares start stop file s held t) {p q : ι × Nat} (hp : p ∈ s.active)
    (hq : q ∈ s.active) (hreg : p.2 = q.2) : p = q := by
  have hsymm : Std.Symm fun p q : ι × Nat => p.2 ≠ q.2 := ⟨fun _ _ hne => hne.symm⟩
  by_contra hne
  exact h.distinct.forall hp hq hne hreg

theorem Shares.expire (h : Shares start stop file s held t) {u : Nat} (htu : t ≤ u) :
    Shares start stop file (s.expire stop u) held u where
  holds p hp := h.holds p (mem_expire.1 hp).1
  distinct := by
    have hsub : (s.expire stop u).active = s.active.filter (fun p => ¬ stop p.1 ≤ u) :=
      (expireLoop_spec stop u s.active s.free).1
    rw [hsub]
    exact h.distinct.filter _
  busy p hp hfree := by
    obtain ⟨hp, hlive⟩ := mem_expire.1 hp
    rcases (expireLoop_spec stop u s.active s.free).2 p.2 hfree with hfree | ⟨q, hq, hreg, hq'⟩
    · exact h.busy p hp hfree
    · -- the register was given back by another holder, but it has one only
      have := h.eq_of_reg hp hq hreg.symm
      subst this
      omega
  past p hp := by
    rcases h.past p hp with hp | hp
    · by_cases hstop : stop p.1 ≤ u
      · exact .inr hstop
      · exact .inl (mem_expire.2 ⟨hp, by omega⟩)
    · exact .inr (le_trans hp htu)
  apart := h.apart
  spare r hr := by
    rcases (expireLoop_spec stop u s.active s.free).2 r hr with hr | ⟨p, hp, rfl, -⟩
    · exact h.spare r hr
    · exact h.given p (h.holds p hp)
  given := h.given

variable {i : ι} {held' : Set (ι × Nat)}

/-- An interval that starts now is apart from all the old holders of a register nobody holds. -/
theorem Shares.apart_insert (h : Shares start stop file s held t)
    (hstart : t ≤ start i) (hsub : ∀ p ∈ held', p = (i, r) ∨ p ∈ held)
    (hnone : ∀ p ∈ held', p ∈ s.active → p.2 ≠ r) :
    ∀ p ∈ held', ∀ q ∈ held', p ≠ q → p.2 = q.2 →
      stop p.1 ≤ start q.1 ∨ stop q.1 ≤ start p.1 := by
  have hold : ∀ p ∈ held', p ∈ held → p.2 = r → stop p.1 ≤ start i := by
    intro p hp' hp hreg
    rcases h.past p hp with hact | hpast
    · exact absurd hreg (hnone p hp' hact)
    · omega
  intro p hp q hq hne hreg
  rcases hsub p hp with rfl | hp'
  · rcases hsub q hq with rfl | hq'
    · exact absurd rfl hne
    · exact .inr (hold q hq hq' hreg.symm)
  · rcases hsub q hq with rfl | hq'
    · exact .inl (hold p hp hp' hreg)
    · exact h.apart p hp' q hq' hne hreg

theorem Shares.take (h : Shares start stop file s held t) (hstart : t ≤ start i)
    (hfree : s.firstFree = some r)
    (hheld : ∀ p, p ∈ held' ↔ p = (i, r) ∨ p ∈ held) :
    Shares start stop file (s.take i r) held' t := by
  have hr : s.isFree r := by
    obtain ⟨hlt, hget, -⟩ := List.findIdx?_eq_some_iff_getElem.mp hfree
    unfold isFree
    rw [getD_eq_getElem?_getD, getElem?_eq_getElem hlt]
    exact hget
  have hnone : ∀ p ∈ s.active, p.2 ≠ r := by
    intro p hp hreg
    exact h.busy p hp (hreg ▸ hr)
  constructor
  · intro p hp
    rw [hheld]
    rcases mem_append.mp hp with hp | hp
    · exact .inr (h.holds p hp)
    · exact .inl (mem_singleton.mp hp)
  · refine pairwise_append.mpr ⟨h.distinct, pairwise_singleton _ _, ?_⟩
    intro p hp q hq
    rw [mem_singleton.mp hq]
    exact hnone p hp
  · intro p hp hbusy
    rcases isFree_set.1 hbusy with ⟨-, -, hfalse⟩ | ⟨hne, hbusy⟩
    · cases hfalse
    · rcases mem_append.mp hp with hp | hp
      · exact h.busy p hp hbusy
      · rw [mem_singleton.mp hp] at hne
        exact hne rfl
  · intro p hp
    rcases (hheld p).mp hp with rfl | hp
    · exact .inl (mem_append_right _ (by simp))
    · rcases h.past p hp with hp | hp
      · exact .inl (mem_append_left _ hp)
      · exact .inr hp
  · exact h.apart_insert hstart (fun p hp => (hheld p).mp hp) fun p _ hp => hnone p hp
  · intro q hq
    rcases isFree_set.1 hq with ⟨-, -, hfalse⟩ | ⟨-, hq⟩
    · cases hfalse
    · exact h.spare q hq
  · intro p hp
    rcases (hheld p).mp hp with rfl | hp
    · exact h.spare r hr
    · exact h.given p hp

/-- A holder that is given up leaves its register to the interval that starts now. -/
theorem Shares.replace [DecidableEq ι] (h : Shares start stop file s held t) {a : ι × Nat}
    (hstart : t ≤ start i) (ha : a ∈ s.active)
    (hheld : ∀ p, p ∈ held' ↔ p = (i, a.2) ∨ (p ∈ held ∧ p ≠ a)) (hnew : (i, a.2) ∉ held) :
    Shares start stop file (s.replace a i) held' t := by
  have hnodup : s.active.Nodup := h.distinct.imp fun hne heq => hne (by rw [heq])
  have hrest : ∀ p, p ∈ s.active.erase a ↔ p ≠ a ∧ p ∈ s.active := fun p => hnodup.mem_erase_iff
  have hother : ∀ p ∈ s.active, p ≠ a → p.2 ≠ a.2 := fun p hp hne hreg =>
    hne (h.eq_of_reg hp ha hreg)
  constructor
  · intro p hp
    rw [hheld]
    rcases mem_append.mp hp with hp | hp
    · obtain ⟨hne, hp⟩ := (hrest p).mp hp
      exact .inr ⟨h.holds p hp, hne⟩
    · exact .inl (mem_singleton.mp hp)
  · refine pairwise_append.mpr ⟨h.distinct.sublist erase_sublist,
      pairwise_singleton _ _, ?_⟩
    intro p hp q hq
    rw [mem_singleton.mp hq]
    obtain ⟨hne, hp⟩ := (hrest p).mp hp
    exact hother p hp hne
  · intro p hp
    rcases mem_append.mp hp with hp | hp
    · exact h.busy p ((hrest p).mp hp).2
    · rw [mem_singleton.mp hp]
      exact h.busy a ha
  · intro p hp
    rcases (hheld p).mp hp with rfl | ⟨hp, hne⟩
    · exact .inl (mem_append_right _ (by simp))
    · rcases h.past p hp with hp | hp
      · exact .inl (mem_append_left _ ((hrest p).mpr ⟨hne, hp⟩))
      · exact .inr hp
  · refine h.apart_insert (r := a.2) hstart (fun p hp => ?_) fun p hp hact hreg => ?_
    · rcases (hheld p).mp hp with hp | hp
      · exact .inl hp
      · exact .inr hp.1
    · rcases (hheld p).mp hp with rfl | ⟨-, hne⟩
      · exact hnew (h.holds _ hact)
      · exact hother p hact hne hreg
  · exact h.spare
  · intro p hp
    rcases (hheld p).mp hp with rfl | ⟨hp, -⟩
    · exact h.given a (h.holds a ha)
    · exact h.given p hp

end Scan

end Camel.Lib
