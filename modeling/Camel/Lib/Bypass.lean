import Mathlib

/-! # Paths Around a Point

    A point is taken out of a relation, and what stood before it is joined to what stood after
    it. The points that are left are connected as they were.
-/

namespace Camel.Lib

open Relation

variable {α : Type} {R R' : α → α → Prop} {x : α}

/-- Steps that avoid the point are kept, and steps over it are joined. -/
structure Bypasses (R R' : α → α → Prop) (x : α) : Prop where
  kept : ∀ a b, a ≠ x → b ≠ x → R a b → R' a b
  joined : ∀ a b, a ≠ x → b ≠ x → a ≠ b → R a x → R x b → R' a b

/-- From a point that is left, the path around; from the point itself, one from whatever stood
    before it. -/
theorem Bypasses.path_from (h : Bypasses R R' x) {b : α} (hb : b ≠ x) {a : α}
    (hpath : ReflTransGen R a b) :
    (a ≠ x → ReflTransGen R' a b) ∧ (a = x → ∀ c, c ≠ x → R c x → ReflTransGen R' c b) := by
  induction hpath using ReflTransGen.head_induction_on with
  | refl => exact ⟨fun _ => .refl, fun ha => absurd ha hb⟩
  | @head a c hstep _ ih =>
    constructor
    · intro ha
      by_cases hc : c = x
      · rw [hc] at hstep
        exact ih.2 hc a ha hstep
      · exact .head (h.kept a c ha hc hstep) (ih.1 hc)
    · intro ha p hp hbefore
      rw [ha] at hstep
      by_cases hc : c = x
      · exact ih.2 hc p hp hbefore
      · by_cases hpc : p = c
        · rw [hpc]
          exact ih.1 hc
        · exact .head (h.joined p c hp hc hpc hbefore hstep) (ih.1 hc)

theorem Bypasses.path (h : Bypasses R R' x) {a b : α} (ha : a ≠ x) (hb : b ≠ x)
    (hpath : ReflTransGen R a b) : ReflTransGen R' a b :=
  (h.path_from hb hpath).1 ha

end Camel.Lib
