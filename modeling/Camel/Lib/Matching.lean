import Mathlib

/-! # Items Matched Against Values

    A list of items, each a name or a value, is matched against as many values up to an
    equivalence. A name that the table does not bind yet is bound to the value it meets, and one
    that it binds must be bound to an equivalent value.
-/

namespace Camel.Matching

open List Option

variable {N V : Type} [BEq N] [LawfulBEq N]

inductive Item (N V : Type) where
  | name (n : N)
  | value (v : V)

/-- Every binding of the one table is a binding of the other. -/
def Extends (σ β : List (N × V)) : Prop := ∀ n v, β.lookup n = some v → σ.lookup n = some v

theorem Extends.refl (β : List (N × V)) : Extends β β := fun _ _ h => h

variable {σ β : List (N × V)}

theorem Extends.trans {τ : List (N × V)} (h : Extends σ τ) (h' : Extends τ β) : Extends σ β :=
  fun n v hv => h n v (h' n v hv)

theorem extends_append (β added : List (N × V)) : Extends (β ++ added) β := by
  intro n v h
  rw [lookup_append, h]
  rfl

theorem lookup_append_fresh {n : N} (h : β.lookup n = none) (v : V) :
    (β ++ [(n, v)]).lookup n = some v := by
  rw [lookup_append, h]
  simp

theorem lookup_append_other {n m : N} (h : m ≠ n) (β : List (N × V)) (v : V) :
    (β ++ [(n, v)]).lookup m = β.lookup m := by
  have hne : (m == n) = false := by simpa using h
  rw [lookup_append, lookup_cons, hne]
  simp

variable (same : V → V → Prop)

/-- What the item stands for under the table is the value. -/
def Stands (σ : List (N × V)) : Item N V → V → Prop
  | .name n, m => ∃ v, σ.lookup n = some v ∧ same v m
  | .value v, m => same v m

/-- What the one table binds, the other binds to an equivalent value. -/
def Agrees (σ β : List (N × V)) : Prop :=
  ∀ n v, β.lookup n = some v → ∃ v', σ.lookup n = some v' ∧ same v' v

variable {same}

theorem Stands.mono {τ : List (N × V)} (h : Extends σ τ) {item : Item N V} {m : V}
    (hstands : Stands same τ item m) : Stands same σ item m := by
  cases item with
  | name n =>
    obtain ⟨v, hv, hsame⟩ := hstands
    exact ⟨v, h n v hv, hsame⟩
  | value v => exact hstands

theorem Extends.agrees (hsame : Equivalence same) (h : Extends σ β) :
    Agrees same σ β :=
  fun n v hv => ⟨v, h n v hv, hsame.refl v⟩

section Match

variable (same) [DecidableRel same]

def matchItems : List (Item N V) → List V → List (N × V) → Option (List (N × V))
  | [], _, β => some β
  | _ :: _, [], _ => none
  | .name n :: items, m :: ms, β =>
    match β.lookup n with
    | none => matchItems items ms (β ++ [(n, m)])
    | some v => if same v m then matchItems items ms β else none
  | .value v :: items, m :: ms, β => if same v m then matchItems items ms β else none

variable {same}

variable {items : List (Item N V)} {ms : List V} {τ : List (N × V)}

/-- A match keeps what is bound, and binds no name but those written. -/
theorem matchItems_found {β : List (N × V)} (h : matchItems same items ms β = some τ) :
    Extends τ β ∧ ∀ n v, τ.lookup n = some v → β.lookup n = some v ∨ Item.name n ∈ items := by
  fun_induction matchItems same items ms β with
  | case1 ms β =>
    obtain rfl := some.inj h
    exact ⟨Extends.refl _, fun n v => .inl⟩
  | case2 item items β => cases h
  | case3 n' items m ms β hfresh ih =>
    obtain ⟨hkept, hnames⟩ := ih h
    refine ⟨hkept.trans (extends_append β _), fun n v hv => ?_⟩
    rcases hnames n v hv with hold | hmem
    · by_cases hn : n = n'
      · exact .inr (hn ▸ .head _)
      · rw [lookup_append_other hn] at hold
        exact .inl hold
    · exact .inr (.tail _ hmem)
  | case4 n' items m ms β v' hbound hv' ih =>
    exact (ih h).imp_right fun hnames n v hv => (hnames n v hv).imp_right (.tail _)
  | case5 n' items m ms β v' hbound hv' =>
    cases h
  | case6 v' items m ms β hv' ih =>
    exact (ih h).imp_right fun hnames n v hv => (hnames n v hv).imp_right (.tail _)
  | case7 v' items m ms β hv' =>
    cases h

theorem matchItems_extends {β : List (N × V)}
    (h : matchItems same items ms β = some τ) : Extends τ β :=
  (matchItems_found h).1

theorem matchItems_names {β : List (N × V)}
    (h : matchItems same items ms β = some τ) {n : N} {v : V} (hv : τ.lookup n = some v) :
    β.lookup n = some v ∨ Item.name n ∈ items :=
  (matchItems_found h).2 n v hv

/-- After a match every item stands for the value at its place. -/
theorem matchItems_stands (hsame : Equivalence same)
    {β : List (N × V)} (h : matchItems same items ms β = some τ) :
    items.length ≤ ms.length ∧ Forall₂ (Stands same τ) items (ms.take items.length) := by
  fun_induction matchItems same items ms β with
  | case1 ms β => exact ⟨Nat.zero_le _, by rw [length_nil, take_zero]; exact .nil⟩
  | case2 item items β => cases h
  | case3 n items m ms β hfresh ih =>
    obtain ⟨hlength, hrest⟩ := ih h
    have hbound := lookup_append_fresh hfresh m
    have hhead : Stands same τ (.name n) m := ⟨m, matchItems_extends h n m hbound, hsame.refl m⟩
    exact ⟨Nat.succ_le_succ hlength, .cons hhead hrest⟩
  | case4 n items m ms β v hbound hv ih =>
    obtain ⟨hlength, hrest⟩ := ih h
    have hhead : Stands same τ (.name n) m := ⟨v, matchItems_extends h n v hbound, hv⟩
    exact ⟨Nat.succ_le_succ hlength, .cons hhead hrest⟩
  | case5 n items m ms β v hbound hv =>
    cases h
  | case6 v items m ms β hv ih =>
    obtain ⟨hlength, hrest⟩ := ih h
    exact ⟨Nat.succ_le_succ hlength, .cons (show Stands same τ (.value v) m from hv) hrest⟩
  | case7 v items m ms β hv =>
    cases h

/-- Where a table says what the items stand for, they match, and it agrees with what the match
    binds. -/
theorem matchItems_complete (hsame : Equivalence same)
    {β σ : List (N × V)} (hagrees : Agrees same σ β)
    (hstands : Forall₂ (Stands same σ) items (ms.take items.length)) :
    ∃ τ, matchItems same items ms β = some τ ∧ Agrees same σ τ := by
  fun_induction matchItems same items ms β with
  | case1 ms β => exact ⟨β, rfl, hagrees⟩
  | case2 item items β =>
    rw [take_nil] at hstands
    cases hstands
  | case3 n items m ms β hfresh ih =>
    obtain ⟨⟨v, hv, hvm⟩, hrest⟩ := forall₂_cons.1 hstands
    have hagrees' : Agrees same σ (β ++ [(n, m)]) := by
      intro n' v' hv'
      by_cases hn : n' = n
      · rw [hn, lookup_append_fresh hfresh] at hv'
        obtain rfl := some.inj hv'
        exact ⟨v, hn ▸ hv, hvm⟩
      · rw [lookup_append_other hn] at hv'
        exact hagrees n' v' hv'
    obtain ⟨τ, hτ, hσ⟩ := ih hagrees' hrest
    exact ⟨τ, hτ, hσ⟩
  | case4 n items m ms β v hbound hv ih =>
    obtain ⟨-, hrest⟩ := forall₂_cons.1 hstands
    obtain ⟨τ, hτ, hσ⟩ := ih hagrees hrest
    exact ⟨τ, hτ, hσ⟩
  | case5 n items m ms β v hbound hv =>
    obtain ⟨⟨v', hv', hvm⟩, -⟩ := forall₂_cons.1 hstands
    obtain ⟨v'', hv'', hsame'⟩ := hagrees n v hbound
    obtain rfl : v' = v'' := some.inj (hv'.symm.trans hv'')
    exact absurd (hsame.trans (hsame.symm hsame') hvm) hv
  | case6 v items m ms β hv ih =>
    obtain ⟨-, hrest⟩ := forall₂_cons.1 hstands
    obtain ⟨τ, hτ, hσ⟩ := ih hagrees hrest
    exact ⟨τ, hτ, hσ⟩
  | case7 v items m ms β hv =>
    obtain ⟨hhead, -⟩ := forall₂_cons.1 hstands
    exact absurd hhead hv

end Match

end Camel.Matching
