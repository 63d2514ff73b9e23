import Mathlib

/-! # Invariants of Programs That May Fail

    A program over a state may fail half way, and the state then is what its
    steps so far have made of it. `Upholds I m Q` says that `m` keeps the
    invariant `I` in both outcomes and that a value it returns satisfies `Q`.
    The rules below follow the program's own structure.
-/

namespace Camel.Lib

open List

variable {ε σ α β : Type}

/-- A computation that returns has returned at every step. -/
theorem ok_of_bind {x : Except ε α} {f : α → Except ε β} {r : β} (h : (x >>= f) = .ok r) :
    ∃ a, x = .ok a ∧ f a = .ok r := by
  cases x with
  | error e => cases h
  | ok a => exact ⟨a, rfl, h⟩

/-! ## The State a Program Ends In -/

/-- The state a program ends in, whether it returns or fails. -/
def finalState (m : EStateM ε σ α) (s : σ) : σ :=
  match m s with
  | .ok _ s' => s'
  | .error _ s' => s'

section
variable {s : σ} {f : α → EStateM ε σ β}

@[simp] theorem finalState_get_bind {g : σ → EStateM ε σ β} :
    finalState (get >>= g) s = finalState (g s) s := rfl

@[simp] theorem finalState_modify_bind {g : σ → σ} {k : PUnit → EStateM ε σ β} :
    finalState (modify g >>= k) s = finalState (k ⟨⟩) (g s) := rfl

@[simp] theorem finalState_ok_bind {a : α} :
    finalState (MonadExcept.ofExcept (Except.ok a : Except ε α) >>= f) s = finalState (f a) s := rfl

variable {e : ε}

@[simp] theorem finalState_error_bind :
    finalState (MonadExcept.ofExcept (Except.error e : Except ε α) >>= f) s = s := rfl

@[simp] theorem finalState_throw : finalState (throw e : EStateM ε σ α) s = s := rfl

@[simp] theorem finalState_throw_bind :
    finalState ((throw e : EStateM ε σ α) >>= f) s = s := rfl

@[simp] theorem finalState_set {s' : σ} : finalState (set s' : EStateM ε σ PUnit) s = s' := rfl

end

/-- `m` keeps `I`, and what it returns satisfies `Q`. -/
def Upholds (I : σ → Prop) (m : EStateM ε σ α) (Q : α → Prop) : Prop :=
  ∀ s, I s →
    match m s with
    | .ok a s' => I s' ∧ Q a
    | .error _ s' => I s'

variable {I : σ → Prop} {m : EStateM ε σ α} {Q Q' : α → Prop} {R : β → Prop}

variable {s : σ}

theorem Upholds.finalState (h : Upholds I m Q) (hs : I s) : I (finalState m s) := by
  have := h s hs
  unfold Lib.finalState
  split at this
  · exact this.1
  · exact this

theorem Upholds.weaken (h : Upholds I m Q) (hQ : ∀ a, Q a → Q' a) : Upholds I m Q' := by
  intro s hs
  have := h s hs
  split at this
  · exact ⟨this.1, hQ _ this.2⟩
  · exact this

/-! ## One Rule for Each Construct -/

theorem upholds_pure {a : α} (hQ : Q a) : Upholds I (pure a : EStateM ε σ α) Q := by
  intro s hs
  exact ⟨hs, hQ⟩

theorem upholds_throw (e : ε) : Upholds I (throw e : EStateM ε σ α) Q := by
  intro s hs
  exact hs

theorem Upholds.bind {f : α → EStateM ε σ β} (h : Upholds I m Q)
    (hf : ∀ a, Q a → Upholds I (f a) R) : Upholds I (m >>= f) R := by
  intro s hs
  have hm := h s hs
  show match EStateM.bind m f s with
    | .ok a s' => I s' ∧ R a
    | .error _ s' => I s'
  unfold EStateM.bind
  split at hm
  · next a s' heq =>
    rw [heq]
    exact hf a hm.2 s' hm.1
  · next e s' heq =>
    rw [heq]
    exact hm

/-- A program whose last part gives the invariant up for another property. -/
theorem Upholds.finalState_bind {J : σ → Prop} {f : α → EStateM ε σ β} (h : Upholds I m Q)
    (hJ : ∀ s, I s → J s) (hf : ∀ a s, Q a → I s → J (Lib.finalState (f a) s))
    (hs : I s) : J (Lib.finalState (m >>= f) s) := by
  have hm := h s hs
  show J (match EStateM.bind m f s with
    | .ok _ s' => s'
    | .error _ s' => s')
  unfold EStateM.bind
  split at hm
  · next a s' heq =>
    rw [heq]
    exact hf a s' hm.2 hm.1
  · next e s' heq =>
    rw [heq]
    exact hJ s' hm

/-- What is read from the state is read from one that satisfies the invariant. -/
theorem upholds_get : Upholds I (get : EStateM ε σ σ) I := by
  intro s hs
  exact ⟨hs, hs⟩

theorem upholds_modify {f : σ → σ} (hf : ∀ s, I s → I (f s)) :
    Upholds I (modify f : EStateM ε σ PUnit) fun _ => True := by
  intro s hs
  exact ⟨hf s hs, trivial⟩

theorem upholds_set (hs : I s) : Upholds I (set s : EStateM ε σ PUnit) fun _ => True := by
  intro _ _
  exact ⟨hs, trivial⟩

theorem upholds_ite {c : Prop} [Decidable c] {m' : EStateM ε σ α} (ht : c → Upholds I m Q)
    (he : ¬ c → Upholds I m' Q) : Upholds I (if c then m else m') Q := by
  split
  · next h => exact ht h
  · next h => exact he h

section Branches

variable {c : Prop} [Decidable c] {a : α}

/-- A computation that may end before it starts. -/
theorem upholds_unless (h : ¬ c → Upholds I m fun _ => True) :
    Upholds I (if c then pure a else m) fun _ => True :=
  upholds_ite (fun _ => upholds_pure trivial) h

theorem upholds_when (h : c → Upholds I m fun _ => True) :
    Upholds I (if c then m else pure a) fun _ => True :=
  upholds_ite h fun _ => upholds_pure trivial

theorem upholds_guard {e : ε} (h : ¬ c → Upholds I m Q) : Upholds I (if c then throw e else m) Q :=
  upholds_ite (fun _ => upholds_throw e) h

end Branches

theorem upholds_ofExcept (e : Except ε α) :
    Upholds I (MonadExcept.ofExcept e : EStateM ε σ α) fun a => e = .ok a := by
  intro s hs
  cases e with
  | ok a => exact ⟨hs, rfl⟩
  | error e => exact hs

/-! ## Loops -/

variable {l : List α}

theorem upholds_forM {body : α → EStateM ε σ PUnit}
    (h : ∀ a ∈ l, Upholds I (body a) fun _ => True) :
    Upholds I (l.forM body) fun _ => True := by
  induction l with
  | nil => exact upholds_pure trivial
  | cons a l ih =>
    show Upholds I (body a >>= fun _ => l.forM body) fun _ => True
    apply (h a mem_cons_self).bind
    intro _ _
    exact ih fun b hb => h b (mem_cons_of_mem a hb)

/-- The elements a test accepts, in order. -/
def keepM (p : α → EStateM ε σ Bool) : List α → EStateM ε σ (List α)
  | [] => pure []
  | a :: l => do
    let keep ← p a
    let rest ← keepM p l
    pure (if keep then a :: rest else rest)

theorem upholds_keepM {p : α → EStateM ε σ Bool} {P : α → Prop}
    (h : ∀ a ∈ l, Upholds I (p a) fun keep => keep = true → P a) :
    Upholds I (keepM p l) fun kept => ∀ a ∈ kept, a ∈ l ∧ P a := by
  induction l with
  | nil => exact upholds_pure (by simp)
  | cons a l ih =>
    apply (h a mem_cons_self).bind
    intro keep hkeep
    apply (ih fun b hb => h b (mem_cons_of_mem a hb)).bind
    intro rest hrest
    apply upholds_pure
    intro b hb
    split at hb
    · next hk =>
      rcases mem_cons.1 hb with rfl | hb
      · exact ⟨mem_cons_self, hkeep hk⟩
      · exact ⟨mem_cons_of_mem a (hrest b hb).1, (hrest b hb).2⟩
    · exact ⟨mem_cons_of_mem a (hrest b hb).1, (hrest b hb).2⟩

/-- The first element a test accepts. -/
def firstM (p : α → EStateM ε σ Bool) : List α → EStateM ε σ (Option α)
  | [] => pure none
  | a :: l => do
    let found ← p a
    if found then pure (some a) else firstM p l

theorem upholds_firstM {p : α → EStateM ε σ Bool} {P : α → Prop}
    (h : ∀ a ∈ l, Upholds I (p a) fun found => found = true → P a) :
    Upholds I (firstM p l) fun first => ∀ a, first = some a → a ∈ l ∧ P a := by
  induction l with
  | nil => exact upholds_pure (by simp)
  | cons a l ih =>
    apply (h a mem_cons_self).bind
    intro found hfound
    apply upholds_ite
    · intro hf
      apply upholds_pure
      rintro b ⟨⟩
      exact ⟨mem_cons_self, hfound hf⟩
    · intro _
      apply (ih fun b hb => h b (mem_cons_of_mem a hb)).weaken
      intro first hfirst b hb
      exact ⟨mem_cons_of_mem a (hfirst b hb).1, (hfirst b hb).2⟩

end Camel.Lib

/-! # What Holds When a Program Returns

    `Returns P m Q` says that `m`, begun in a state that satisfies `P`, satisfies `Q` of the value
    and the state when it returns; a failure promises nothing. A loop's rule carries what the
    rounds so far have collected.
-/

namespace Camel.Lib

open List

variable {ε σ α β γ : Type}

structure Returns (P : σ → Prop) (m : EStateM ε σ α) (Q : α → σ → Prop) : Prop where
  run : ∀ s a s', P s → m s = .ok a s' → Q a s'

variable {P P' : σ → Prop} {m : EStateM ε σ α} {Q Q' : α → σ → Prop} {R : β → σ → Prop}

/-! ## One Rule for Each Construct -/

theorem Returns.weaken (h : Returns P m Q) (hQ : ∀ a s, Q a s → Q' a s) : Returns P m Q' :=
  ⟨fun s a s' hs hm => hQ a s' (h.run s a s' hs hm)⟩

/-- A program is looked at from one state at a time. -/
theorem returns_of_state (h : ∀ s, P s → Returns (· = s) m Q) : Returns P m Q :=
  ⟨fun s a s' hs hm => (h s hs).run s a s' rfl hm⟩

theorem Returns.at (h : Returns P m Q) {s : σ} (hs : P s) : Returns (· = s) m Q := by
  constructor
  rintro t a s' rfl hm
  exact h.run t a s' hs hm

variable {I : σ → Prop}

/-- An invariant that holds in either outcome holds when the program returns. -/
theorem Upholds.returns {S : α → Prop} (h : Upholds I m S) :
    Returns I m fun a s => I s ∧ S a := by
  constructor
  intro s a s' hs hm
  have hpost := h s hs
  rw [hm] at hpost
  exact hpost

theorem Returns.and (h : Returns P m Q) (h' : Returns P' m Q') :
    Returns (fun s => P s ∧ P' s) m fun a s => Q a s ∧ Q' a s :=
  ⟨fun s a s' hs hm => ⟨h.run s a s' hs.1 hm, h'.run s a s' hs.2 hm⟩⟩

theorem returns_pure {a : α} (h : ∀ s, P s → Q a s) : Returns P (pure a : EStateM ε σ α) Q := by
  constructor
  intro s b s' hs hm
  cases hm
  exact h s hs

theorem returns_throw (e : ε) : Returns P (throw e : EStateM ε σ α) Q := by
  constructor
  intro s a s' _ hm
  cases hm

theorem Returns.bind {f : α → EStateM ε σ β} (h : Returns P m Q)
    (hf : ∀ a, Returns (Q a) (f a) R) : Returns P (m >>= f) R := by
  constructor
  intro s b s' hs hm
  have hbind : EStateM.bind m f s = .ok b s' := hm
  unfold EStateM.bind at hbind
  split at hbind
  · next a t heq => exact (hf a).run t b s' (h.run s a t hs heq) hbind
  · cases hbind

/-- What is read is the state itself. -/
theorem returns_get_bind {f : σ → EStateM ε σ β} (h : ∀ s, P s → Returns (· = s) (f s) R) :
    Returns P (get >>= f) R :=
  ⟨fun s b s' hs hm => (h s hs).run s b s' rfl hm⟩

theorem returns_set {s : σ} {Q : PUnit → σ → Prop} (h : Q ⟨⟩ s) :
    Returns P (set s : EStateM ε σ PUnit) Q := by
  constructor
  intro t a s' _ hm
  cases hm
  exact h

theorem returns_modify {f : σ → σ} {Q : PUnit → σ → Prop} (h : ∀ s, P s → Q ⟨⟩ (f s)) :
    Returns P (modify f : EStateM ε σ PUnit) Q := by
  constructor
  intro s a s' hs hm
  cases hm
  exact h s hs

theorem returns_ite {c : Prop} [Decidable c] {m' : EStateM ε σ α} (ht : c → Returns P m Q)
    (he : ¬ c → Returns P m' Q) : Returns P (if c then m else m') Q := by
  split
  · next h => exact ht h
  · next h => exact he h

theorem returns_ofExcept {e : Except ε α} (h : ∀ a s, e = .ok a → P s → Q a s) :
    Returns P (MonadExcept.ofExcept e : EStateM ε σ α) Q := by
  constructor
  intro s a s' hs hm
  cases e with
  | ok b =>
    cases hm
    exact h _ s rfl hs
  | error e => cases hm

/-! ## Loops -/

/-- A loop whose rounds each add to what holds. -/
theorem returns_forM {I : γ → σ → Prop} {step : γ → α → γ} {l : List α}
    {body : α → EStateM ε σ PUnit}
    (h : ∀ a ∈ l, ∀ c, Returns (I c) (body a) fun _ => I (step c a)) (c : γ) :
    Returns (I c) (l.forM body) fun _ => I (l.foldl step c) := by
  induction l generalizing c with
  | nil => exact returns_pure fun _ hs => hs
  | cons a l ih =>
    show Returns (I c) (body a >>= fun _ => l.forM body) fun _ => I (l.foldl step (step c a))
    apply (h a mem_cons_self c).bind
    intro _
    exact ih (fun b hb => h b (mem_cons_of_mem a hb)) (step c a)

/-- A loop whose rounds keep what holds. -/
theorem returns_forM_keep {l : List α} {body : α → EStateM ε σ PUnit}
    (h : ∀ a ∈ l, Returns I (body a) fun _ => I) : Returns I (l.forM body) fun _ => I :=
  @returns_forM _ _ _ _ (fun _ : Unit => I) (fun c _ => c) _ _ (fun a ha _ => h a ha) ()

/-- The elements a test keeps satisfy what it stands for. -/
theorem returns_keepM {l : List α} {p : α → EStateM ε σ Bool} {S : α → Prop}
    (h : ∀ a ∈ l, Returns I (p a) fun keep s => I s ∧ (keep = true → S a)) :
    Returns I (keepM p l) fun kept s => I s ∧ ∀ a ∈ kept, S a := by
  induction l with
  | nil => exact returns_pure fun _ hs => ⟨hs, fun _ ha => nomatch ha⟩
  | cons a l ih =>
    unfold keepM
    apply (h a mem_cons_self).bind
    intro keep
    apply returns_of_state
    rintro s ⟨hs, hkeep⟩
    -- what the test said of `a` does not depend on the state
    apply ((ih fun b hb => h b (mem_cons_of_mem a hb)).at hs).bind
    intro rest
    apply returns_pure
    rintro t ⟨ht, hrest⟩
    refine ⟨ht, fun b hb => ?_⟩
    by_cases hk : keep = true
    · rw [if_pos hk] at hb
      rcases mem_cons.1 hb with rfl | hb
      · exact hkeep hk
      · exact hrest b hb
    · rw [if_neg hk] at hb
      exact hrest b hb

end Camel.Lib
