import Mathlib

/-! # Buffers and Loops

    A buffer has a size and a content, and an access outside the size fails. A loop
    that counts up keeps an invariant of the number of its turns. A range that is cut
    into blocks has each of its indices in one block.
-/

open Function List

namespace Camel.Lib

/-! ## Buffers -/

structure Buffer (α : Type) where
  size : Nat
  data : Nat → α

variable {α β γ σ : Type}

/-- `width` elements from `p` on. -/
def Buffer.slice? (b : Buffer α) (width p : Nat) : Option (Nat → α) :=
  if p + width ≤ b.size then some fun l => b.data (p + l) else none

def Buffer.set? (b : Buffer α) (i : Nat) (v : α) : Option (Buffer α) :=
  if i < b.size then some { b with data := update b.data i v } else none

/-- Stores the given elements one after the other. -/
def Buffer.setAll? (b : Buffer α) : List (Nat × α) → Option (Buffer α)
  | [] => some b
  | (i, v) :: rest => (b.set? i v).bind fun b' => b'.setAll? rest

/-- What a buffer holds after some stores, none of which is undone by a later one. -/
theorem Buffer.setAll?_spec {b : Buffer α} {writes : List (Nat × α)}
    (hsize : ∀ w ∈ writes, w.1 < b.size) :
    ∃ b', b.setAll? writes = some b' ∧ b'.size = b.size ∧
      (∀ i, (∀ w ∈ writes, w.1 ≠ i) → b'.data i = b.data i) ∧
      ∀ i v, (i, v) ∈ writes → (∀ w ∈ writes, w.1 = i → w.2 = v) → b'.data i = v := by
  induction writes generalizing b with
  | nil => exact ⟨b, rfl, rfl, fun _ _ => rfl, fun i v hmem => by simp at hmem⟩
  | cons w writes ih =>
    obtain ⟨i₀, v₀⟩ := w
    have hin : i₀ < b.size := hsize (i₀, v₀) (by simp)
    obtain ⟨b', hset, hsz, hother, hstored⟩ :=
      ih (b := { b with data := update b.data i₀ v₀ }) fun w hw => hsize w (by simp [hw])
    refine ⟨b', ?_, hsz, ?_, ?_⟩
    · rw [Buffer.setAll?, Buffer.set?, if_pos hin]
      exact hset
    · intro i hi
      rw [hother i fun w hw => hi w (by simp [hw])]
      exact update_of_ne (fun h => hi (i₀, v₀) (by simp) h.symm) _ _
    · intro i v hmem hunique
      by_cases hlater : ∃ w ∈ writes, w.1 = i
      · -- the last store at `i` is a later one
        obtain ⟨w, hw, hwi⟩ := hlater
        have hwv : w.2 = v := hunique w (by simp [hw]) hwi
        apply hstored i v _ fun w' hw' h => hunique w' (by simp [hw']) h
        rw [← hwi, ← hwv]
        exact hw
      · have hnone : ∀ w ∈ writes, w.1 ≠ i := fun w hw h => hlater ⟨w, hw, h⟩
        rcases mem_cons.mp hmem with heq | hmem
        · cases heq
          rw [hother _ hnone]
          exact update_self _ _ _
        · exact absurd rfl (hnone (i, v) hmem)

/-- A place in rows of `R` elements has one row and one column. -/
theorem place_inj {R q r q' r' : Nat} (hr : r < R) (hr' : r' < R) (h : q * R + r = q' * R + r') :
    q = q' ∧ r = r' := by
  have hR : 0 < R := by omega
  have hdiv := congrArg (· / R) h
  have hmod := congrArg (· % R) h
  simp only [add_comm _ r, add_comm _ r', Nat.add_mul_div_right _ _ hR,
    Nat.add_mul_mod_self_right, Nat.div_eq_of_lt hr, Nat.div_eq_of_lt hr', zero_add,
    Nat.mod_eq_of_lt hr, Nat.mod_eq_of_lt hr'] at hdiv hmod
  exact ⟨hdiv, hmod⟩

/-- Places in a grid of rows of `R` times `W` elements do not meet. -/
theorem grid_inj {R W q r j q' r' j' : Nat} (hr : r < R) (hr' : r' < R) (hj : j < W) (hj' : j' < W)
    (h : q * R * W + r * W + j = q' * R * W + r' * W + j') : q = q' ∧ r = r' ∧ j = j' := by
  rw [← add_mul, ← add_mul] at h
  obtain ⟨hrow, rfl⟩ := place_inj hj hj' h
  obtain ⟨rfl, rfl⟩ := place_inj hr hr' hrow
  exact ⟨rfl, rfl, rfl⟩

theorem grid_lt {Q R W q r j : Nat} (hq : q < Q) (hr : r < R) (hj : j < W) :
    q * R * W + r * W + j < Q * R * W := by
  have h₁ : (q * R + r) * W + j < (q * R + r + 1) * W := by
    rw [add_mul (q * R + r) 1 W]
    omega
  have h₂ : q * R + r + 1 ≤ Q * R := by
    have : (q + 1) * R ≤ Q * R := Nat.mul_le_mul_right R hq
    rw [add_mul] at this
    omega
  have h₃ : (q * R + r + 1) * W ≤ Q * R * W := Nat.mul_le_mul_right W h₂
  rw [add_mul (q * R) r W] at h₁
  omega

/-- Stores to all places of a grid that begins at `base`. -/
def gridWrites (base Q R W : Nat) (f : Nat → Nat → Nat → α) : List (Nat × α) :=
  (List.range Q).flatMap fun q => (List.range R).flatMap fun r => (List.range W).map fun j =>
    (base + (q * R * W + r * W + j), f q r j)

theorem mem_gridWrites {base Q R W : Nat} {f : Nat → Nat → Nat → α} {w : Nat × α} :
    w ∈ gridWrites base Q R W f ↔
      ∃ q < Q, ∃ r < R, ∃ j < W, w = (base + (q * R * W + r * W + j), f q r j) := by
  simp only [gridWrites, mem_flatMap, mem_range, mem_map]
  constructor
  · rintro ⟨q, hq, r, hr, j, hj, rfl⟩
    exact ⟨q, hq, r, hr, j, hj, rfl⟩
  · rintro ⟨q, hq, r, hr, j, hj, rfl⟩
    exact ⟨q, hq, r, hr, j, hj, rfl⟩

theorem Buffer.setAll?_grid (b : Buffer α) (base Q R W : Nat) (f : Nat → Nat → Nat → α)
    (hsize : base + Q * R * W ≤ b.size) :
    ∃ b', b.setAll? (gridWrites base Q R W f) = some b' ∧ b'.size = b.size ∧
      (∀ i, i < base ∨ base + Q * R * W ≤ i → b'.data i = b.data i) ∧
      ∀ q < Q, ∀ r < R, ∀ j < W, b'.data (base + (q * R * W + r * W + j)) = f q r j := by
  have hbound : ∀ w ∈ gridWrites base Q R W f, base ≤ w.1 ∧ w.1 < base + Q * R * W := by
    intro w hw
    obtain ⟨q, hq, r, hr, j, hj, rfl⟩ := mem_gridWrites.1 hw
    have := grid_lt hq hr hj
    simp only
    omega
  obtain ⟨b', hset, hsz, hother, hstored⟩ := Buffer.setAll?_spec
    (show ∀ w ∈ gridWrites base Q R W f, w.1 < b.size from fun w hw => by
      have := hbound w hw
      omega)
  refine ⟨b', hset, hsz, ?_, ?_⟩
  · intro i hi
    apply hother
    intro w hw heq
    have := hbound w hw
    omega
  · intro q hq r hr j hj
    apply hstored _ _ (mem_gridWrites.2 ⟨q, hq, r, hr, j, hj, rfl⟩)
    intro w hw heq
    obtain ⟨q', hq', r', hr', j', hj', rfl⟩ := mem_gridWrites.1 hw
    obtain ⟨rfl, rfl, rfl⟩ := grid_inj hr' hr hj' hj (add_left_cancel heq)
    rfl

/-- The values of `f` below `n`, if it has them all. -/
def allOf (d : β) (n : Nat) (f : Nat → Option β) : Option (Nat → β) :=
  if ∀ i < n, (f i).isSome then some fun i => (f i).getD d else none

theorem allOf_eq {d : β} {n : Nat} {f : Nat → Option β} (h : ∀ i < n, (f i).isSome) :
    allOf d n f = some fun i => (f i).getD d := by
  rw [allOf, if_pos h]

/-! ## Loops -/

/-- `for (i = 0; i < n; ++i)`. -/
def forRange (n : Nat) (f : Nat → σ → Option σ) (s : σ) : Option σ :=
  (List.range n).foldlM (fun s i => f i s) s

theorem forRange_succ (n : Nat) (f : Nat → σ → Option σ) (s : σ) :
    forRange (n + 1) f s = (forRange n f s).bind (f n) := by
  simp only [forRange, range_succ, foldlM_append, foldlM_cons, foldlM_nil]
  cases (range n).foldlM (fun s i => f i s) s with
  | none => rfl
  | some s' => simp [bind, pure]

/-- If each turn succeeds and keeps the invariant, so does the loop. -/
theorem forRange_inv {P : Nat → σ → Prop} {n : Nat} {f : Nat → σ → Option σ} {s : σ} (h0 : P 0 s)
    (hstep : ∀ i < n, ∀ s, P i s → ∃ s', f i s = some s' ∧ P (i + 1) s') :
    ∃ s', forRange n f s = some s' ∧ P n s' := by
  induction n with
  | zero => exact ⟨s, rfl, h0⟩
  | succ n ih =>
    obtain ⟨s₁, hs₁, hP₁⟩ := ih fun i hi => hstep i (by omega)
    obtain ⟨s₂, hs₂, hP₂⟩ := hstep n (by omega) s₁ hP₁
    refine ⟨s₂, ?_, hP₂⟩
    rw [forRange_succ, hs₁]
    exact hs₂

/-! ## Blocks of a Range -/

/-- How many blocks of `d` cover a range of `n`. -/
def blocks (n d : Nat) : Nat := (n + d - 1) / d

section Blocks

variable {n d : Nat}

theorem lt_blocks_iff (hd : 0 < d) {b : Nat} : b < blocks n d ↔ b * d < n := by
  rw [blocks, Nat.lt_iff_add_one_le, Nat.le_div_iff_mul_le hd, add_mul, one_mul]
  omega

theorem le_blocks_mul (hd : 0 < d) : n ≤ blocks n d * d := by
  by_contra h
  have := (lt_blocks_iff (n := n) (b := blocks n d) hd).mpr (by omega)
  omega

theorem blocks_mono (hd : 0 < d) {m : Nat} (h : n ≤ m) : blocks n d ≤ blocks m d := by
  apply Nat.div_le_div_right
  omega

/-- An index of the range lies in its block, at its offset. -/
theorem block_of_index (hd : 0 < d) {i : Nat} (hi : i < n) :
    i / d < blocks n d ∧ i / d * d + i % d = i ∧ i % d < min d (n - i / d * d) := by
  have hsplit : i / d * d + i % d = i := Nat.div_add_mod' i d
  have hmod := Nat.mod_lt i hd
  refine ⟨(lt_blocks_iff hd).mpr (by omega), hsplit, ?_⟩
  omega

/-- An offset of a block is an index of the range. -/
theorem index_of_block {b x : Nat} (hx : x < min d (n - b * d)) :
    b * d + x < n ∧ (b * d + x) / d = b ∧ (b * d + x) % d = x := by
  have hlt : x < d := by omega
  have hd : 0 < d := by omega
  refine ⟨by omega, ?_, ?_⟩
  · rw [add_comm, Nat.add_mul_div_right _ _ hd, Nat.div_eq_of_lt hlt, zero_add]
  · rw [add_comm, Nat.add_mul_mod_self_right, Nat.mod_eq_of_lt hlt]

end Blocks

/-- A list of lists has no element twice if each tells which list it is from. -/
theorem nodup_flatMap_of_key {l : List β} {f : β → List γ} (key : γ → β) (hl : l.Nodup)
    (hf : ∀ x ∈ l, (f x).Nodup) (hkey : ∀ x ∈ l, ∀ c ∈ f x, key c = x) : (l.flatMap f).Nodup := by
  rw [nodup_flatMap]
  refine ⟨hf, ?_⟩
  apply hl.imp_of_mem
  intro x y hx hy hne c hcx hcy
  exact hne ((hkey x hx c hcx).symm.trans (hkey y hy c hcy))

end Camel.Lib
