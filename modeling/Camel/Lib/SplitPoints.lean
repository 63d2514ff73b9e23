import Mathlib

/-! # Points with Some Coordinates Split in Two

    A coordinate `x` split by a factor `f` is written as the pair of `x / f` and `x % f`.
    A list of factors says which coordinates of a point are split, with 0 for those that
    are not. Joining the pairs again is one-to-one and keeps the lexicographic order, and
    a tail that is not whole is what the original bound cuts off.
-/

namespace Camel.Lib

open List

/-- The point with the pairs of the split coordinates joined. -/
def join : List Int → List Int → List Int
  | f :: fs, x :: p =>
    if f = 0 then x :: join fs p
    else match p with
      | y :: p => (f * x + y) :: join fs p
      | [] => []
  | _, _ => []

/-- The point with the split coordinates cut into pairs. -/
def cut : List Int → List Int → List Int
  | f :: fs, x :: q => if f = 0 then x :: cut fs q else x / f :: x % f :: cut fs q
  | _, _ => []

/-- The extents of the cut points: as many whole pieces as reach over the old extent. -/
def cutExtents : List Int → List Int → List Int
  | f :: fs, e :: es =>
    if f = 0 then e :: cutExtents fs es else (e + (f - 1)) / f :: f :: cutExtents fs es
  | _, _ => []

def InBox (p extents : List Int) : Prop := Forall₂ (fun x e => 0 ≤ x ∧ x < e) p extents

/-- The coordinates that are split stay below their old extents. -/
def BelowSplit : List Int → List Int → List Int → Prop
  | f :: fs, x :: q, e :: es => (f ≠ 0 → x < e) ∧ BelowSplit fs q es
  | _, _, _ => True

/-! ## There and Back -/

variable {fs q es p : List Int}

theorem join_whole {f : Int} (h : f = 0) (x : Int) (p : List Int) :
    join (f :: fs) (x :: p) = x :: join fs p := by
  simp [join, h]

theorem join_pair {f : Int} (h : f ≠ 0) (x y : Int) (p : List Int) :
    join (f :: fs) (x :: y :: p) = (f * x + y) :: join fs p := by
  simp [join, h]

theorem cutExtents_whole {f : Int} (h : f = 0) (e : Int) (es : List Int) :
    cutExtents (f :: fs) (e :: es) = e :: cutExtents fs es := by
  simp [cutExtents, h]

theorem cutExtents_pair {f : Int} (h : f ≠ 0) (e : Int) (es : List Int) :
    cutExtents (f :: fs) (e :: es) = (e + (f - 1)) / f :: f :: cutExtents fs es := by
  simp [cutExtents, h]

theorem inBox_cut (hf : ∀ f ∈ fs, 0 ≤ f) (hlen : fs.length = es.length) (hq : InBox q es) :
    InBox (cut fs q) (cutExtents fs es) ∧ join fs (cut fs q) = q ∧ BelowSplit fs q es := by
  induction fs generalizing q es with
  | nil =>
    cases es with
    | nil =>
      cases hq
      exact ⟨Forall₂.nil, rfl, trivial⟩
    | cons e es => cases hlen
  | cons f fs ih =>
    cases hq with
    | nil => cases hlen
    | cons hx hq =>
      rename_i x e q es
      obtain ⟨hbox, hjoin, hbelow⟩ :=
        ih (fun g hg => hf g (.tail _ hg)) (Nat.succ.inj hlen) hq
      by_cases h0 : f = 0
      · rw [cut, if_pos h0, cutExtents_whole h0]
        refine ⟨Forall₂.cons hx hbox, ?_, ?_⟩
        · rw [join_whole h0, hjoin]
        · exact ⟨fun h => absurd h0 h, hbelow⟩
      · have hpos : 0 < f := lt_of_le_of_ne (hf f mem_cons_self) (Ne.symm h0)
        have hmod := Int.emod_nonneg x h0
        have hlt := Int.emod_lt_of_pos x hpos
        have hdiv := Int.mul_ediv_add_emod x f
        rw [cut, if_neg h0, cutExtents_pair h0]
        refine ⟨Forall₂.cons ⟨Int.ediv_nonneg hx.1 (le_of_lt hpos), ?_⟩
          (Forall₂.cons ⟨hmod, hlt⟩ hbox), ?_, ?_⟩
        · -- a point below the extent lies in a piece the rounded quotient counts
          have hle : x / f + 1 ≤ (e + (f - 1)) / f := by
            have hnext : (x + f) / f = x / f + 1 := by
              rw [Int.add_ediv_of_dvd_right (Int.dvd_refl f), Int.ediv_self h0]
            rw [← hnext]
            exact Int.ediv_le_ediv hpos (by omega)
          omega
        · rw [join_pair h0, hjoin, hdiv]
        · exact ⟨fun _ => hx.2, hbelow⟩

theorem inBox_join (hf : ∀ f ∈ fs, 0 ≤ f) (hlen : fs.length = es.length)
    (hp : InBox p (cutExtents fs es)) :
    cut fs (join fs p) = p ∧ (BelowSplit fs (join fs p) es → InBox (join fs p) es) := by
  induction fs generalizing p es with
  | nil =>
    cases es with
    | nil =>
      cases hp
      exact ⟨rfl, fun _ => Forall₂.nil⟩
    | cons e es => cases hlen
  | cons f fs ih =>
    cases es with
    | nil => cases hlen
    | cons e es =>
      have hf' : ∀ g ∈ fs, 0 ≤ g := fun g hg => hf g (.tail _ hg)
      by_cases h0 : f = 0
      · rw [cutExtents_whole h0] at hp
        cases hp with
        | cons hx hp =>
          rename_i x p
          obtain ⟨hcut, hbox⟩ := ih hf' (Nat.succ.inj hlen) hp
          rw [join_whole h0]
          constructor
          · rw [cut, if_pos h0, hcut]
          · intro hbelow
            exact Forall₂.cons hx (hbox hbelow.2)
      · rw [cutExtents_pair h0] at hp
        cases hp with
        | cons hx hp =>
          cases hp with
          | cons hy hp =>
            rename_i x y p
            obtain ⟨hcut, hbox⟩ := ih hf' (Nat.succ.inj hlen) hp
            have hpos : 0 < f := lt_of_le_of_ne (hf f mem_cons_self) (Ne.symm h0)
            have hquot : (f * x + y) / f = x := by
              rw [add_comm, Int.add_mul_ediv_left y x h0, Int.ediv_eq_zero_of_lt hy.1 hy.2,
                zero_add]
            have hrem : (f * x + y) % f = y := by
              rw [add_comm, Int.add_mul_emod_self_left, Int.emod_eq_of_lt hy.1 hy.2]
            rw [join_pair h0]
            constructor
            · rw [cut, if_neg h0, hcut, hquot, hrem]
            · intro hbelow
              have hmul : 0 ≤ f * x := Int.mul_nonneg (le_of_lt hpos) hx.1
              exact Forall₂.cons ⟨by omega, hbelow.1 h0⟩ (hbox hbelow.2)

/-! ## The Order -/

/-- Pairs are ordered as the numbers they stand for. -/
theorem pair_lt_iff {f x y x' y' : Int} (hy : 0 ≤ y ∧ y < f) (hy' : 0 ≤ y' ∧ y' < f) :
    f * x + y < f * x' + y' ↔ x < x' ∨ x = x' ∧ y < y' := by
  rcases lt_trichotomy x x' with h | h | h
  · refine iff_of_true ?_ (.inl h)
    have hmul : f * (x + 1) ≤ f * x' := Int.mul_le_mul_of_nonneg_left (by omega) (by omega)
    rw [mul_add, mul_one] at hmul
    omega
  · subst h
    constructor
    · intro hlt
      exact .inr ⟨rfl, by omega⟩
    · rintro (hlt | ⟨-, hlt⟩)
      · omega
      · omega
  · refine iff_of_false ?_ (by omega)
    have hmul : f * (x' + 1) ≤ f * x := Int.mul_le_mul_of_nonneg_left (by omega) (by omega)
    rw [mul_add, mul_one] at hmul
    omega

theorem pair_eq_iff {f x y x' y' : Int} (hy : 0 ≤ y ∧ y < f) (hy' : 0 ≤ y' ∧ y' < f) :
    f * x + y = f * x' + y' ↔ x = x' ∧ y = y' := by
  constructor
  · intro h
    have hlt : ¬ (f * x + y < f * x' + y') := by omega
    have hgt : ¬ (f * x' + y' < f * x + y) := by omega
    rw [pair_lt_iff hy hy'] at hlt
    rw [pair_lt_iff hy' hy] at hgt
    omega
  · rintro ⟨rfl, rfl⟩
    rfl

/-- Joining keeps the lexicographic order of the points. -/
theorem join_lt_iff {p' es' : List Int} (hlen : fs.length = es.length)
    (hlen' : fs.length = es'.length) (hp : InBox p (cutExtents fs es))
    (hp' : InBox p' (cutExtents fs es')) : p < p' ↔ join fs p < join fs p' := by
  induction fs generalizing p p' es es' with
  | nil =>
    cases es with
    | nil =>
      cases es' with
      | nil =>
        cases hp
        cases hp'
        rfl
      | cons e es' => cases hlen'
    | cons e es => cases hlen
  | cons f fs ih =>
    cases es with
    | nil => cases hlen
    | cons e es =>
      cases es' with
      | nil => cases hlen'
      | cons e' es' =>
        by_cases h0 : f = 0
        · rw [cutExtents_whole h0] at hp hp'
          cases hp with
          | cons hx hp =>
            cases hp' with
            | cons hx' hp' =>
              rw [join_whole h0, join_whole h0, cons_lt_cons_iff,
                cons_lt_cons_iff, ih (Nat.succ.inj hlen) (Nat.succ.inj hlen') hp hp']
        · rw [cutExtents_pair h0] at hp hp'
          cases hp with
          | cons hx hp =>
            cases hp with
            | cons hy hp =>
              cases hp' with
              | cons hx' hp' =>
                cases hp' with
                | cons hy' hp' =>
                  rw [join_pair h0, join_pair h0, cons_lt_cons_iff,
                    cons_lt_cons_iff, cons_lt_cons_iff, pair_lt_iff hy hy',
                    pair_eq_iff hy hy',
                    ih (Nat.succ.inj hlen) (Nat.succ.inj hlen') hp hp']
                  tauto

end Camel.Lib
