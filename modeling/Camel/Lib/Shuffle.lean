import Mathlib

/-! # Shuffling

    The descending shuffle of Fisher and Yates as a function of its choices. Where no element
    stands twice, each order of the elements comes of exactly one list of choices.
-/

namespace Camel.Lib

variable {α : Type*}

/-- The places of a shuffle, from the last down to the second. -/
def places : Nat → List Nat
  | 0 => []
  | i + 1 => (i + 1) :: places i

/-- A choice for each place, among the places up to it. -/
def Choices (i : Nat) (js : List Nat) : Prop := List.Forall₂ (fun i j => j ≤ i) (places i) js

/-- The shuffle whose choices these are. -/
def shuffle : List Nat → Array α → Array α
  | [], a => a
  | j :: js, a => shuffle js (a.swapIfInBounds (js.length + 1) j)

/-! ## Swaps -/

variable {a : Array α} {i j : Nat}

theorem getElem?_swapIfInBounds (hi : i < a.size) (hj : j < a.size)
    (k : Nat) :
    (a.swapIfInBounds i j)[k]? = if k = i then a[j]? else if k = j then a[i]? else a[k]? := by
  by_cases hk : k < a.size
  · have hk' : k < (a.swapIfInBounds i j).size := by rwa [Array.size_swapIfInBounds]
    rw [Array.getElem?_eq_getElem hk', Array.getElem_swapIfInBounds]
    grind
  · grind

theorem swapIfInBounds_perm (hi : i < a.size) (hj : j < a.size) :
    (a.swapIfInBounds i j).toList.Perm a.toList := by
  rw [Array.swapIfInBounds_def, dif_pos hi, dif_pos hj]
  exact Array.perm_iff_toList_perm.1 (Array.swap_perm hi hj)

/-! ## What a Shuffle Gives -/

variable {js : List Nat}

theorem Choices.succ (h : Choices (i + 1) js) :
    ∃ j js', js = j :: js' ∧ j ≤ i + 1 ∧ Choices i js' := by
  cases h with
  | cons hj htail => exact ⟨_, _, rfl, hj, htail⟩

theorem Choices.length (h : Choices i js) : js.length = i := by
  induction i generalizing js with
  | zero =>
    cases h
    rfl
  | succ i ih =>
    obtain ⟨j, js, rfl, -, htail⟩ := h.succ
    rw [List.length_cons, ih htail]

/-- A shuffle keeps the elements. -/
theorem shuffle_perm (h : Choices i js)
    (hi : i ≤ a.size - 1) : (shuffle js a).toList.Perm a.toList := by
  induction i generalizing js a with
  | zero =>
    cases h
    exact List.Perm.refl _
  | succ i ih =>
    obtain ⟨j, js, rfl, hj, htail⟩ := h.succ
    have hlast : js.length + 1 < a.size := by rw [htail.length]; omega
    have hswap := swapIfInBounds_perm hlast (show j < a.size by omega)
    exact (ih htail (by rw [Array.size_swapIfInBounds]; omega)).trans hswap

/-- A shuffle keeps what stands behind its places. -/
theorem getElem?_shuffle (h : Choices i js)
    (hi : i ≤ a.size - 1) {k : Nat} (hk : i < k) : (shuffle js a)[k]? = a[k]? := by
  induction i generalizing js a with
  | zero =>
    cases h
    rfl
  | succ i ih =>
    obtain ⟨j, js, rfl, hj, htail⟩ := h.succ
    have hlast : js.length + 1 < a.size := by rw [htail.length]; omega
    have hlength := htail.length
    rw [shuffle, ih htail (by rw [Array.size_swapIfInBounds]; omega) (by omega),
      getElem?_swapIfInBounds hlast (show j < a.size by omega), if_neg (by omega),
      if_neg (by omega)]

/-- What the first choice picks stands at the last place. -/
theorem shuffle_last (hj : j ≤ i + 1) (h : Choices i js)
    (hi : i + 1 ≤ a.size - 1) : (shuffle (j :: js) a)[i + 1]? = a[j]? := by
  have hlast : js.length + 1 < a.size := by rw [h.length]; omega
  rw [shuffle, getElem?_shuffle h (by rw [Array.size_swapIfInBounds]; omega) (lt_add_one i),
    getElem?_swapIfInBounds hlast (show j < a.size by omega), h.length, if_pos rfl]

theorem getElem?_inj_of_nodup (hnodup : a.toList.Nodup) {k : Nat} (hj : j < a.size)
    (h : a[j]? = a[k]?) : j = k := by
  rw [← Array.getElem?_toList, ← Array.getElem?_toList] at h
  exact (List.getElem?_inj (by rwa [Array.length_toList]) hnodup).1 h

/-- Different choices give different orders. -/
theorem shuffle_inj {js' : List Nat} (hnodup : a.toList.Nodup)
    (h : Choices i js) (h' : Choices i js') (hi : i ≤ a.size - 1)
    (heq : shuffle js a = shuffle js' a) : js = js' := by
  induction i generalizing js js' a with
  | zero =>
    cases h
    cases h'
    rfl
  | succ i ih =>
    obtain ⟨j, js, rfl, hj, htail⟩ := h.succ
    obtain ⟨j', js', rfl, hj', htail'⟩ := h'.succ
    -- the last place tells the first choice
    have hlast := shuffle_last hj htail hi
    rw [heq, shuffle_last hj' htail' hi] at hlast
    obtain rfl := getElem?_inj_of_nodup hnodup (show j' < a.size by omega) hlast
    have hin : js.length + 1 < a.size := by rw [htail.length]; omega
    have hswap := swapIfInBounds_perm hin (show j' < a.size by omega)
    have hlength : js'.length = js.length := htail'.length.trans htail.length.symm
    rw [shuffle, shuffle, hlength] at heq
    rw [ih (hswap.nodup_iff.2 hnodup) htail htail' (by rw [Array.size_swapIfInBounds]; omega) heq]

/-- Where two orders agree behind a place, what the one has there stands no further back in the
    other. -/
theorem found_up_to {p : Array α} (hperm : p.toList.Perm a.toList)
    (hnodup : a.toList.Nodup) (hagree : ∀ k, i < k → p[k]? = a[k]?) (hi : i < a.size) :
    ∃ j, j ≤ i ∧ a[j]? = p[i]? := by
  have hsize : p.size = a.size := hperm.length_eq
  have hip : i < p.size := by omega
  have hmem : p[i] ∈ a.toList := hperm.mem_iff.1 (Array.getElem_mem_toList _)
  obtain ⟨j, hj, hjp⟩ := List.mem_iff_getElem.1 hmem
  rw [Array.length_toList] at hj
  have hget : a[j]? = p[i]? := by
    rw [Array.getElem?_eq_getElem hj, Array.getElem?_eq_getElem (by omega : i < p.size), ← hjp,
      Array.getElem_toList]
  refine ⟨j, ?_, hget⟩
  by_contra hlt
  -- behind the place the orders agree, so the element would stand twice
  rw [← hagree j (by omega)] at hget
  have hsame := getElem?_inj_of_nodup (hperm.nodup_iff.2 hnodup) (by omega) hget
  omega

/-- Each order that agrees behind the places comes of some choices. -/
theorem shuffle_surj {p : Array α} (hperm : p.toList.Perm a.toList)
    (hnodup : a.toList.Nodup) (hagree : ∀ k, i < k → p[k]? = a[k]?) (hi : i ≤ a.size - 1) :
    ∃ js, Choices i js ∧ shuffle js a = p := by
  induction i generalizing a with
  | zero =>
    refine ⟨[], .nil, Array.ext_getElem? fun k => ?_⟩
    show a[k]? = p[k]?
    have hsize : p.size = a.size := hperm.length_eq
    rcases Nat.eq_zero_or_pos k with rfl | hk
    · rcases Nat.eq_zero_or_pos a.size with hempty | hsome
      · rw [Array.getElem?_eq_none (by omega), Array.getElem?_eq_none (by omega)]
      · obtain ⟨j, hj, hget⟩ := found_up_to hperm hnodup hagree hsome
        obtain rfl := Nat.le_zero.1 hj
        exact hget
    · exact (hagree k hk).symm
  | succ i ih =>
    obtain ⟨j, hj, hget⟩ := found_up_to hperm hnodup hagree (by omega)
    have hlast : i + 1 < a.size := by omega
    have hjlt : j < a.size := by omega
    have hswap := swapIfInBounds_perm hlast hjlt
    obtain ⟨js, hjs, hrun⟩ := @ih (a.swapIfInBounds (i + 1) j) (hperm.trans hswap.symm)
      (hswap.nodup_iff.2 hnodup)
      (by
        intro k hk
        rw [getElem?_swapIfInBounds hlast hjlt]
        split
        · next hlastk => rw [hlastk, hget]
        · next hne => rw [if_neg (by omega), hagree k (by omega)])
      (by rw [Array.size_swapIfInBounds]; omega)
    refine ⟨j :: js, .cons hj hjs, ?_⟩
    rw [shuffle, hjs.length, hrun]

/-- The choices are the orders of the elements, one to one. -/
theorem shuffle_bijOn (hnodup : a.toList.Nodup) :
    Set.BijOn (fun js => shuffle js a) {js | Choices (a.size - 1) js}
      {p | p.toList.Perm a.toList} := by
  refine ⟨fun js h => shuffle_perm h le_rfl, fun js h js' h' heq => ?_, fun p hp => ?_⟩
  · exact shuffle_inj hnodup h h' le_rfl heq
  · have hp : p.toList.Perm a.toList := hp
    have hsize : p.size = a.size := hp.length_eq
    apply shuffle_surj hp hnodup _ le_rfl
    intro k hk
    rw [Array.getElem?_eq_none (by omega), Array.getElem?_eq_none (by omega)]

end Camel.Lib

/-! # Drawing with Rejection

    Values picked one after another from a stream of words, where each word is taken for a value
    or rejected. Where every value of a pick has as many words as every other, every list of values
    has as many streams as every other, of each length.
-/

namespace Camel.Lib

variable {U β ρ : Type*}

/-- The values picked from a stream that is used up by them. -/
def picks (pick : β → U → Option ρ) : List β → List U → Option (List ρ)
  | [], [] => some []
  | [], _ :: _ => none
  | _ :: _, [] => none
  | b :: bs, u :: us =>
    match pick b u with
    | none => picks pick (b :: bs) us
    | some r => (picks pick bs us).map (r :: ·)

/-- The number of streams of a length that these values are picked from. -/
noncomputable def streams (pick : β → U → Option ρ) (bs : List β) (rs : List ρ) (length : Nat) :
    Nat :=
  Nat.card { w : Fin length → U // picks pick bs (List.ofFn w) = some rs }

section Count

variable [Fintype U] {pick : β → U → Option ρ} {valid : β → ρ → Prop}

/-- The streams of a property are counted by their first word. -/
theorem card_streams_succ (P : List U → Prop) (length : Nat) :
    Nat.card { w : Fin (length + 1) → U // P (List.ofFn w) } =
      ∑ u, Nat.card { w : Fin length → U // P (u :: List.ofFn w) } := by
  rw [← Nat.card_sigma]
  apply Nat.card_congr
  refine Equiv.trans (Equiv.subtypeEquiv (Fin.consEquiv fun _ => U).symm ?_)
    (Equiv.subtypeProdEquivSigmaSubtype fun u (w : Fin length → U) => P (u :: List.ofFn w))
  intro w
  show P (List.ofFn w) ↔ P (w 0 :: List.ofFn (Fin.tail w))
  rw [List.ofFn_succ]
  rfl

/-- A stream's first word is rejected, or it is a word of the first value. -/
theorem streams_cons (b : β) (bs : List β) (r : ρ) (rs : List ρ) (length : Nat) :
    streams pick (b :: bs) (r :: rs) (length + 1) =
      { u | pick b u = none }.ncard * streams pick (b :: bs) (r :: rs) length +
        { u | pick b u = some r }.ncard * streams pick bs rs length := by
  classical
  have hterm : ∀ u, Nat.card { w : Fin length → U //
        picks pick (b :: bs) (u :: List.ofFn w) = some (r :: rs) } =
      (if pick b u = none then streams pick (b :: bs) (r :: rs) length else 0) +
        if pick b u = some r then streams pick bs rs length else 0 := by
    intro u
    cases hu : pick b u with
    | none =>
      rw [if_pos rfl, if_neg nofun, add_zero]
      unfold streams
      simp only [picks, hu]
    | some s =>
      rw [if_neg nofun, zero_add]
      simp only [picks, hu, Option.map_eq_some_iff, List.cons.injEq, Option.some.injEq]
      split
      · next hs =>
        subst hs
        unfold streams
        simp
      · next hs =>
        rw [Nat.card_eq_zero]
        left
        constructor
        rintro ⟨w, rest, -, hsame, -⟩
        exact hs hsame
  have hcount : ∀ (p : U → Prop) [DecidablePred p] (c : Nat),
      (∑ u, if p u then c else 0) = { u | p u }.ncard * c := by
    intro p _ c
    rw [← Finset.sum_filter, Finset.sum_const, Nat.nsmul_eq_mul, Set.ncard_eq_toFinset_card']
    congr 2
    ext u
    simp
  unfold streams
  rw [card_streams_succ fun us => picks pick (b :: bs) us = some (r :: rs)]
  rw [Finset.sum_congr rfl fun u _ => hterm u, Finset.sum_add_distrib, hcount, hcount]
  rfl

/-- Every list of values is picked from as many streams as every other. -/
theorem streams_even {bs : List β} {rs rs' : List ρ}
    (heven : ∀ b ∈ bs, ∀ r r', valid b r → valid b r' →
      { u | pick b u = some r }.ncard = { u | pick b u = some r' }.ncard)
    (h : List.Forall₂ valid bs rs) (h' : List.Forall₂ valid bs rs') (length : Nat) :
    streams pick bs rs length = streams pick bs rs' length := by
  induction length generalizing bs rs rs' with
  | zero =>
    cases h with
    | nil =>
      cases h'
      rfl
    | cons =>
      cases h'
      unfold streams
      simp [picks]
  | succ length ih =>
    cases h with
    | nil =>
      cases h'
      rfl
    | @cons b r bs rs hr hrs =>
      cases h' with
      | @cons _ r' _ rs' hr' hrs' =>
        have hrest := ih (fun c hc => heven c (.tail _ hc)) hrs hrs'
        have hsame := ih heven (.cons hr hrs) (.cons hr' hrs')
        rw [streams_cons, streams_cons, hrest, hsame, heven b (.head _) r r' hr hr']

end Count

end Camel.Lib
