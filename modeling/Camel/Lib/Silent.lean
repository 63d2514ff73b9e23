import Mathlib

/-! # Machines with Silent Steps

    A deterministic machine makes one move at a time: it goes on silently, it
    shows an event and goes on, or it halts with a result. What an observer
    sees after `n` moves is the list of the events so far and the result, if
    there is one.

    Two machines behave alike when each observation of one is an observation
    of the other, possibly after another number of moves. The rule for it is a
    relation whose two sides settle, by silent moves alone, in states that make
    the same visible move and stay related after it.
-/

namespace Camel.Lib

variable {σ τ υ ε ρ : Type}

/-! ## Moves and Observations -/

/-- One move of a machine with states `σ`, events `ε` and results `ρ`. -/
inductive Move (σ ε ρ : Type) where
  | silent (s : σ)
  | emit (e : ε) (s : σ)
  | halt (r : ρ)

/-- The events of the first `n` moves and the result reached within them. -/
def observe (step : σ → Move σ ε ρ) : Nat → σ → List ε × Option ρ
  | 0, _ => ([], none)
  | n + 1, s =>
    match step s with
    | .silent s' => observe step n s'
    | .emit e s' => (e :: (observe step n s').1, (observe step n s').2)
    | .halt r => ([], some r)

/-- `s` reaches `t` by silent moves, and `t` makes no silent move. -/
inductive Settles (step : σ → Move σ ε ρ) : σ → σ → Prop where
  | here {s : σ} : (∀ s', step s ≠ .silent s') → Settles step s s
  | silent {s s' t : σ} : step s = .silent s' → Settles step s' t → Settles step s t

variable {step : σ → Move σ ε ρ} {s : σ}

/-- The silent moves on the way change nothing that is observed. -/
theorem Settles.observe {t : σ} (h : Settles step s t) :
    ∃ k, ∀ n, observe step (n + k) s = observe step n t := by
  induction h with
  | here _ => exact ⟨0, fun _ => rfl⟩
  | silent hs _ ih =>
    obtain ⟨k, hk⟩ := ih
    refine ⟨k + 1, fun n => ?_⟩
    show Lib.observe step (n + k + 1) _ = _
    rw [Lib.observe, hs]
    exact hk n

/-- A machine that has halted shows the same at every later time. -/
theorem observe_halted {n : Nat} {es : List ε} {r : ρ}
    (h : observe step n s = (es, some r)) (k : Nat) : observe step (n + k) s = (es, some r) := by
  induction n generalizing s es with
  | zero => simp [observe] at h
  | succ n ih =>
    rw [Nat.succ_add]
    cases hs : step s with
    | silent s' =>
      simp only [observe, hs] at h ⊢
      exact ih h
    | emit e s' =>
      simp only [observe, hs, Prod.mk.injEq] at h ⊢
      have hrest : observe step n s' = ((observe step n s').1, some r) := by rw [← h.2]
      rw [ih hrest]
      exact ⟨h.1, rfl⟩
    | halt r' =>
      simp only [observe, hs] at h ⊢
      exact h

/-- A machine halts with one list of events and one result. -/
theorem observe_halted_unique {n m : Nat} {es fs : List ε}
    {r q : ρ} (h : observe step n s = (es, some r)) (h' : observe step m s = (fs, some q)) :
    es = fs ∧ r = q := by
  have h₁ := observe_halted h m
  have h₂ := observe_halted h' n
  rw [Nat.add_comm, h₁] at h₂
  simpa using h₂

/-! ## Behaving Alike -/

/-- Everything observed of the machine `f` from `s` is observed of `g` from `t`. -/
def Shows (f : σ → Move σ ε ρ) (g : τ → Move τ ε ρ) (s : σ) (t : τ) : Prop :=
  ∀ n, ∃ m, observe g m t = observe f n s

/-- The two machines show the same, each in its own time. -/
def SameBehaviour (f : σ → Move σ ε ρ) (g : τ → Move τ ε ρ) (s : σ) (t : τ) : Prop :=
  Shows f g s t ∧ Shows g f t s

theorem SameBehaviour.refl (f : σ → Move σ ε ρ) (s : σ) : SameBehaviour f f s s :=
  ⟨fun n => ⟨n, rfl⟩, fun n => ⟨n, rfl⟩⟩

variable {f : σ → Move σ ε ρ} {g : τ → Move τ ε ρ} {t : τ}

theorem Shows.trans {h : υ → Move υ ε ρ}
    {u : υ} (hfg : Shows f g s t) (hgh : Shows g h t u) : Shows f h s u := by
  intro n
  obtain ⟨m, hm⟩ := hfg n
  obtain ⟨k, hk⟩ := hgh m
  exact ⟨k, hk.trans hm⟩

theorem SameBehaviour.trans {h : υ → Move υ ε ρ}
    {u : υ} (hfg : SameBehaviour f g s t) (hgh : SameBehaviour g h t u) :
    SameBehaviour f h s u :=
  ⟨hfg.1.trans hgh.1, hgh.2.trans hfg.2⟩

/-! ## The Rule -/

/-- Two visible moves that agree and lead to related states. -/
def Agree (R : σ → τ → Prop) : Move σ ε ρ → Move τ ε ρ → Prop
  | .emit e s, .emit e' t => e = e' ∧ R s t
  | .halt r, .halt r' => r = r'
  | _, _ => False

/-- Both states settle, and the visible moves they settle on agree. -/
def Meets (f : σ → Move σ ε ρ) (g : τ → Move τ ε ρ) (R : σ → τ → Prop) (s : σ) (t : τ) :
    Prop :=
  ∃ s' t', Settles f s s' ∧ Settles g t t' ∧ Agree R (f s') (g t')

/-- Related states meet. -/
def Bisimulation (f : σ → Move σ ε ρ) (g : τ → Move τ ε ρ) (R : σ → τ → Prop) : Prop :=
  ∀ s t, R s t → Meets f g R s t

variable {R : σ → τ → Prop}

theorem Agree.swap {a : Move σ ε ρ} {b : Move τ ε ρ} (h : Agree R a b) :
    Agree (fun t s => R s t) b a := by
  cases a <;> cases b
  case emit.emit => exact ⟨h.1.symm, h.2⟩
  case halt.halt => exact Eq.symm h
  all_goals exact h

theorem Bisimulation.swap {f : σ → Move σ ε ρ} {g : τ → Move τ ε ρ} {R : σ → τ → Prop}
    (h : Bisimulation f g R) : Bisimulation g f (fun t s => R s t) := by
  intro t s hR
  obtain ⟨s', t', hs, ht, hagree⟩ := h s t hR
  exact ⟨t', s', ht, hs, hagree.swap⟩

/-- States that meet show the same: the induction is on the moves of the first
    machine. A silent one is matched by none, a visible one by the silent moves
    up to where the second machine settles and its visible move. -/
theorem Bisimulation.meets_shows
    (h : Bisimulation f g R) (hmeet : Meets f g R s t) : Shows f g s t := by
  intro n
  induction n generalizing s t with
  | zero => exact ⟨0, rfl⟩
  | succ n ih =>
    obtain ⟨s', t', hs, ht, hagree⟩ := hmeet
    cases hs with
    | silent hstep hrest =>
      obtain ⟨m, hm⟩ := ih ⟨s', t', hrest, ht, hagree⟩
      refine ⟨m, ?_⟩
      rw [hm]
      simp only [observe, hstep]
    | here _ =>
      obtain ⟨k, hk⟩ := ht.observe
      cases hf : f s with
      | silent u =>
        rw [hf] at hagree
        exact hagree.elim
      | emit e u =>
        cases hg : g t' with
        | emit e' v =>
          rw [hf, hg] at hagree
          obtain ⟨rfl, hR⟩ := hagree
          obtain ⟨m, hm⟩ := ih (h _ _ hR)
          refine ⟨m + 1 + k, ?_⟩
          rw [hk]
          simp only [observe, hf, hg, hm]
        | silent v => rw [hf, hg] at hagree; exact hagree.elim
        | halt r => rw [hf, hg] at hagree; exact hagree.elim
      | halt r =>
        cases hg : g t' with
        | halt r' =>
          rw [hf, hg] at hagree
          obtain rfl : r = r' := hagree
          refine ⟨0 + 1 + k, ?_⟩
          rw [hk]
          simp only [observe, hf, hg]
        | silent v => rw [hf, hg] at hagree; exact hagree.elim
        | emit e v => rw [hf, hg] at hagree; exact hagree.elim

/-- Related states behave alike. -/
theorem Bisimulation.sameBehaviour
    (h : Bisimulation f g R) (hR : R s t) :
    SameBehaviour f g s t :=
  ⟨h.meets_shows (h s t hR), h.swap.meets_shows (h.swap t s hR)⟩

end Camel.Lib
