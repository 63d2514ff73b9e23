import Camel.Heap.Minor

/-! # Major Collection

    The mark loop ends with exactly what the roots reach, whatever is already on
    its stack, and the sweep then frees the old objects that are not marked. The
    minor collection that comes first has moved the young objects, so nothing is
    renamed here.
-/

namespace Camel.Heap

open Lib List

variable {δ : Type} {h : Heap δ} (c : Config)

/-! ## The Mark Loop -/

/-- The references of the object at an address. -/
def refsAt (mem : Store Addr (Obj δ)) (a : Addr) : Nat :=
  ((mem.get a).map fun o => o.fields.length).getD 0

/-- The turns that are left: what is on the stack, and the references of what is
    not marked. -/
def markLeft (mem : Store Addr (Obj δ)) (stack : List Addr) (marked : Finset Addr) : Nat :=
  stack.length + (mem.keys \ marked).sum (refsAt mem)

/-- What is marked refers to what is marked or on the stack. -/
def MarkClosed (mem : Store Addr (Obj δ)) (stack : List Addr) (marked : Finset Addr) : Prop :=
  ∀ a ∈ marked, ∀ o b, mem.get a = some o → some b ∈ o.fields → b ∈ marked ∨ b ∈ stack

variable {mem : Store Addr (Obj δ)} {stack : List Addr} {marked : Finset Addr} {a : Addr}

theorem markLeft_insert {o : Obj δ} (ha : a ∉ marked) (hoa : mem.get a = some o) :
    markLeft mem ((o.fields.filterMap id).reverse ++ stack) (insert a marked)
      ≤ markLeft mem stack marked := by
  have hkey : a ∈ mem.keys \ marked := Finset.mem_sdiff.mpr ⟨Store.mem_keys_of_get hoa, ha⟩
  have hsum : refsAt mem a + ((mem.keys \ marked).erase a).sum (refsAt mem) =
      (mem.keys \ marked).sum (refsAt mem) := Finset.add_sum_erase _ _ hkey
  have hlen := length_filterMap_le id o.fields
  have hrefs : refsAt mem a = o.fields.length := by simp [refsAt, hoa]
  unfold markLeft
  rw [Finset.sdiff_insert, length_append, length_reverse]
  omega

theorem markLeft_insert_none (hnone : mem.get a = none) :
    markLeft mem stack (insert a marked) = markLeft mem stack marked := by
  have hkey : a ∉ mem.keys \ marked := by
    intro hin
    have := (mem.mem_keys a).mp (Finset.mem_sdiff.mp hin).1
    simp [hnone] at this
  simp only [markLeft, Finset.sdiff_insert, Finset.erase_eq_of_notMem hkey]

theorem MarkClosed.pop (hc : MarkClosed mem (a :: stack) marked) (ha : a ∈ marked) :
    MarkClosed mem stack marked := by
  intro x hx o b ho hb
  rcases hc x hx o b ho hb with hm | hs
  · exact .inl hm
  · rcases mem_cons.mp hs with rfl | hs
    · exact .inl ha
    · exact .inr hs

theorem MarkClosed.push {pushed : List Addr} (hc : MarkClosed mem (a :: stack) marked)
    (hp : ∀ o b, mem.get a = some o → some b ∈ o.fields → b ∈ pushed) :
    MarkClosed mem (pushed ++ stack) (insert a marked) := by
  intro x hx o b ho hb
  rcases Finset.mem_insert.mp hx with rfl | hx
  · exact .inr (mem_append_left _ (hp o b ho hb))
  · rcases hc x hx o b ho hb with hm | hs
    · exact .inl (Finset.mem_insert_of_mem hm)
    · rcases mem_cons.mp hs with rfl | hs
      · exact .inl (Finset.mem_insert_self _ _)
      · exact .inr (mem_append_right _ hs)

/-- With turns enough, the loop marks what it was given and ends closed. -/
theorem markFrom_closed (fuel : Nat) (hc : MarkClosed mem stack marked)
    (hfuel : markLeft mem stack marked ≤ fuel) :
    marked ⊆ markFrom mem fuel stack marked ∧
      (∀ a ∈ stack, a ∈ markFrom mem fuel stack marked) ∧
      MarkClosed mem [] (markFrom mem fuel stack marked) := by
  induction fuel generalizing stack marked with
  | zero =>
    have hnil : stack = [] := by
      apply length_eq_zero_iff.mp
      simp only [markLeft] at hfuel
      omega
    subst hnil
    exact ⟨Finset.Subset.refl _, by simp, hc⟩
  | succ fuel ih =>
    cases stack with
    | nil => exact ⟨Finset.Subset.refl _, by simp, hc⟩
    | cons a stack =>
      have hstep : markLeft mem stack marked + 1 = markLeft mem (a :: stack) marked := by
        simp only [markLeft, length_cons]
        omega
      by_cases ha : a ∈ marked
      · simp only [markFrom, if_pos ha]
        obtain ⟨hsub, hstack, hclosed⟩ := ih (hc.pop ha) (by omega)
        refine ⟨hsub, ?_, hclosed⟩
        intro x hx
        rcases mem_cons.mp hx with rfl | hx
        · exact hsub ha
        · exact hstack x hx
      · simp only [markFrom, if_neg ha]
        -- the loop goes on with `a` marked and what it refers to on the stack
        have hnext : ∀ pushed, MarkClosed mem (pushed ++ stack) (insert a marked) →
            markLeft mem (pushed ++ stack) (insert a marked) ≤ fuel →
            marked ⊆ markFrom mem fuel (pushed ++ stack) (insert a marked) ∧
              (∀ x ∈ a :: stack, x ∈ markFrom mem fuel (pushed ++ stack) (insert a marked)) ∧
              MarkClosed mem [] (markFrom mem fuel (pushed ++ stack) (insert a marked)) := by
          intro pushed hcl hle
          obtain ⟨hsub, hstack, hclosed⟩ := ih hcl hle
          refine ⟨(Finset.subset_insert _ _).trans hsub, ?_, hclosed⟩
          intro x hx
          rcases mem_cons.mp hx with rfl | hx
          · exact hsub (Finset.mem_insert_self _ _)
          · exact hstack x (mem_append_right _ hx)
        cases hoa : mem.get a with
        | none =>
          apply hnext []
          · exact hc.push fun o b ho => by simp [hoa] at ho
          · show markLeft mem stack (insert a marked) ≤ fuel
            rw [markLeft_insert_none hoa]
            omega
        | some o =>
          apply hnext (o.fields.filterMap id).reverse
          · apply hc.push
            intro o' b ho' hb
            rw [hoa] at ho'
            cases ho'
            simpa using hb
          · have hle : markLeft mem ((o.fields.filterMap id).reverse ++ stack) (insert a marked) ≤
                markLeft mem stack marked := markLeft_insert ha hoa
            omega

/-- Nothing is marked that a set closed under the references does not hold. -/
theorem markFrom_sound {P : Addr → Prop}
    (hP : ∀ a o b, P a → mem.get a = some o → some b ∈ o.fields → P b) (fuel : Nat)
    (hstack : ∀ a ∈ stack, P a) (hmarked : ∀ a ∈ marked, P a) :
    ∀ a ∈ markFrom mem fuel stack marked, P a := by
  induction fuel generalizing stack marked with
  | zero => exact hmarked
  | succ fuel ih =>
    cases stack with
    | nil => exact hmarked
    | cons a stack =>
      have ha := hstack a mem_cons_self
      have hrest : ∀ x ∈ stack, P x := fun x hx => hstack x (.tail _ hx)
      have hinsert : ∀ x ∈ insert a marked, P x := by
        intro x hx
        rcases Finset.mem_insert.mp hx with rfl | hx
        · exact ha
        · exact hmarked x hx
      simp only [markFrom]
      split
      · exact ih hrest hmarked
      · split
        · exact ih hrest hinsert
        · next o hoa =>
          apply ih _ hinsert
          intro x hx
          rcases mem_append.mp hx with hx | hx
          · exact hP a o x ha hoa (by simpa using hx)
          · exact hrest x hx

theorem mem_rootAddrs {a : Addr} : a ∈ rootAddrs h ↔ IsRoot h a := by
  simp [rootAddrs, IsRoot]

/-- The mark phase marks exactly what the roots reach. -/
theorem mem_markPhase {a : Addr} : a ∈ markPhase h ↔ Reach h a := by
  constructor
  · apply markFrom_sound
    · intro x o b hx ho hb
      exact .step hx ⟨o, ho, hb⟩
    · intro x hx
      exact .root (mem_rootAddrs.1 hx)
    · intro x hx
      simp at hx
  · intro ha
    have hbound : markLeft h.mem (rootAddrs h) ∅ ≤ markBound h := by
      simp only [markLeft, Finset.sdiff_empty, markBound, refsAt]
      exact le_rfl
    have hstart : MarkClosed h.mem (rootAddrs h) ∅ := fun x hx => by simp at hx
    obtain ⟨-, hroots, hclosed⟩ := markFrom_closed (markBound h) hstart hbound
    induction ha with
    | root hroot => exact hroots _ (mem_rootAddrs.2 hroot)
    | step _ href ih =>
      obtain ⟨o, ho, hb⟩ := href
      exact (hclosed _ ih o _ ho hb).resolve_right (by simp)

/-! ## The Sweep -/

/-- The heap with the old objects that were not marked freed. -/
def swept (h : Heap δ) : Heap δ := sweep h (markPhase h)

theorem mem_unmarkedOld {a : Addr} : a ∈ unmarkedOld h (markPhase h) ↔
    (h.mem.get a).isSome = true ∧ a.space.isOld = true ∧ ¬Reach h a := by
  simp only [unmarkedOld, Finset.mem_filter, h.mem.mem_keys, mem_markPhase]

theorem swept_get {a : Addr} {o : Obj δ} (ha : (swept h).mem.get a = some o) :
    h.mem.get a = some o ∧ (a.space.isOld = true → Reach h a) := by
  simp only [swept, sweep, Store.get_keep, decide_eq_true_eq] at ha
  split at ha
  · next hn =>
    refine ⟨ha, fun hold => ?_⟩
    by_contra hr
    exact hn (mem_unmarkedOld.2 ⟨by rw [ha]; rfl, hold, hr⟩)
  · cases ha

theorem swept_get_of_reach {a : Addr} (ha : Reach h a) :
    (swept h).mem.get a = h.mem.get a := by
  simp only [swept, sweep, Store.get_keep, decide_eq_true_eq]
  apply if_pos
  intro hn
  exact (mem_unmarkedOld.1 hn).2.2 ha

/-- The sweep frees the old objects the roots do not reach and no others. -/
theorem swept_get_eq_none_iff {a : Addr} (ha : (h.mem.get a).isSome = true) :
    (swept h).mem.get a = none ↔ a.space.isOld = true ∧ ¬Reach h a := by
  have hif : (swept h).mem.get a =
      if a ∉ unmarkedOld h (markPhase h) then h.mem.get a else none := by
    simp [swept, sweep, Store.get_keep]
  have hne := Option.isSome_iff_ne_none.mp ha
  by_cases hn : a ∈ unmarkedOld h (markPhase h)
  · rw [hif, if_neg (not_not_intro hn)]
    exact ⟨fun _ => (mem_unmarkedOld.1 hn).2, fun _ => rfl⟩
  · rw [hif, if_pos hn]
    exact ⟨fun hnone => absurd hnone hne, fun hd => absurd (mem_unmarkedOld.2 ⟨ha, hd⟩) hn⟩

theorem Refers.of_swept {a b : Addr} (href : Refers (swept h) a b) : Refers h a b := by
  obtain ⟨o, ho, hb⟩ := href
  exact ⟨o, (swept_get ho).1, hb⟩

theorem mem_swept_remembered {a : Addr} :
    a ∈ (swept h).remembered ↔ a ∈ h.remembered ∧ a ∉ unmarkedOld h (markPhase h) := by
  simp [swept, sweep]

theorem swept_sameGraph (hv : ∀ {a}, Reach h a → (h.mem.get a).isSome = true) :
    SameGraph h (swept h) id := by
  refine ⟨(map_id _).symm, ?_, fun _ _ heq => heq, ?_⟩
  · show h.slots = h.slots.map (Option.map id)
    simp
  · intro a ha
    obtain ⟨o, ho⟩ := Option.isSome_iff_exists.mp (hv ha)
    refine ⟨o, o.age, ho, ?_⟩
    rw [id, swept_get_of_reach ha, ho]
    simp

theorem Reach.of_swept {a : Addr} (ha : Reach (swept h) a) : Reach h a := by
  induction ha with
  | root hroot => exact .root hroot
  | step _ href ih => exact .step ih href.of_swept

/-- What the next collection sees is reached: the dead owners are forgotten. -/
theorem Seen.of_swept (ho : InOrder h) {a : Addr} (ha : Seen (swept h) a) : Reach h a := by
  induction ha with
  | root hroot => exact .root hroot
  | owner hr =>
    obtain ⟨hrem, hn⟩ := mem_swept_remembered.1 hr
    by_contra hnr
    exact hn (mem_unmarkedOld.2 ⟨ho.seen_isSome (.owner hrem), ho.rememberedOld hrem, hnr⟩)
  | step _ _ href ih => exact .step ih href.of_swept

theorem swept_inOrder (ho : InOrder h) (hfresh : h.fresh = ∅) : InOrder (swept h) := by
  have hreach : ∀ {a}, Reach h a → ((swept h).mem.get a).isSome = true := by
    intro a ha
    rw [swept_get_of_reach ha]
    exact ho.valid (.inl ha)
  have hkept : ∀ {a}, ((swept h).mem.get a).isSome = true → (h.mem.get a).isSome = true := by
    intro a ha
    obtain ⟨o, hoa⟩ := Option.isSome_iff_exists.mp ha
    rw [(swept_get hoa).1]
    rfl
  refine
    { valid := ?_
      remembers := ?_
      oldFields := ?_
      rememberedOld := fun hr => ho.rememberedOld (mem_swept_remembered.1 hr).1
      freshOld := fun hf => absurd (show _ ∈ h.fresh from hf) (by simp [hfresh])
      rootCarrier := ho.rootCarrier
      cacheEmpty := fun ha => ho.cacheEmpty (hkept ha)
      birthBound := fun ha => ho.birthBound (hkept ha)
      havenBound := fun ha => ho.havenBound (hkept ha)
      finalizableYoung := ?_ }
  · rintro a (hr | hs)
    · exact hreach hr.of_swept
    · exact hreach (hs.of_swept ho)
  · rintro a hold hnf ⟨b, href, hy, hb⟩
    refine mem_swept_remembered.2 ⟨ho.remembers a hold hnf ⟨b, href.of_swept, hy, hkept hb⟩, ?_⟩
    obtain ⟨o, hoa, -⟩ := href
    intro hn
    exact (mem_unmarkedOld.1 hn).2.2 ((swept_get hoa).2 hold)
  · intro a b hold href
    obtain ⟨o, hoa, hb⟩ := href
    obtain ⟨hoa', hr⟩ := swept_get hoa
    exact .inl (hreach (.step (hr hold) ⟨o, hoa', hb⟩))
  · intro a ha
    obtain ⟨hy, hsome⟩ := ho.finalizableYoung ha
    refine ⟨hy, ?_⟩
    by_contra hn
    have hold := ((swept_get_eq_none_iff hsome).mp (by simpa using hn)).1
    simp [Space.isYoung_of_isOld hold] at hy

/-! ## The Whole Collection -/

theorem SameGraph.trans {h₁ h₂ h₃ : Heap δ} {φ ψ : Addr → Addr} (hφ : SameGraph h₁ h₂ φ)
    (hψ : SameGraph h₂ h₃ ψ) : SameGraph h₁ h₃ (ψ ∘ φ) := by
  have hr : ∀ {a}, Reach h₁ a → Reach h₂ (φ a) := fun ha => hφ.reach_iff.mpr ⟨_, ha, rfl⟩
  refine ⟨?_, ?_, ?_, ?_⟩
  · rw [hψ.rootSet, hφ.rootSet, map_map]
  · rw [hψ.slots, hφ.slots, map_map]
    simp [Function.comp_def]
  · intro a b ha hb heq
    exact hφ.inj ha hb (hψ.inj (hr ha) (hr hb) heq)
  · intro a ha
    obtain ⟨o, age, hoa, hob⟩ := hφ.object ha
    obtain ⟨o', age', hob', hoc⟩ := hψ.object (hr ha)
    rw [hob] at hob'
    cases hob'
    refine ⟨o, age', hoa, ?_⟩
    rw [Function.comp_apply, hoc]
    simp [Function.comp_def]

theorem majorGC_heap : (majorGC c h).heap = swept (minorGC c h).heap := rfl

section
variable (ho : InOrder h) (hs : ReferrersSeen h)
include ho hs

theorem majorGC_sameGraph :
    SameGraph h (majorGC c h).heap (majorGC c h).loc := by
  have hminor := minorGC_sameGraph c ho hs
  have hsweep := swept_sameGraph fun ha => (minorGC_inOrder c ho hs).valid (.inl ha)
  rw [majorGC_heap]
  exact hminor.trans hsweep

theorem majorGC_inOrder : InOrder (majorGC c h).heap := by
  rw [majorGC_heap]
  exact swept_inOrder (minorGC_inOrder c ho hs) rfl

/-- An old object that a major collection frees was not reached. -/
theorem not_reach_of_freed {a : Addr}
    (hold : a.space.isOld = true) (hgone : (majorGC c h).heap.mem.get a = none) : ¬Reach h a := by
  intro hr
  have hi := (relocateAll_evacuated c ho).inv
  obtain ⟨o, age, -, hat⟩ := (majorGC_sameGraph c ho hs).object hr
  have hloc : (majorGC c h).loc a = a := hi.loc_old (Space.isYoung_of_isOld hold)
  rw [hloc, hgone] at hat
  cases hat

end

/-- The sweep does not make up for what the minor collection lost. -/
theorem referrersSeen_of_major {φ : Addr → Addr} (ho : InOrder h)
    (hg : SameGraph h (majorGC c h).heap φ) : ReferrersSeen h := by
  have hminor : SameGraph h (minorGC c h).heap φ := ⟨hg.rootSet, hg.slots, hg.inj, ?_⟩
  · exact referrersSeen_of_sameGraph c ho hminor
  intro a ha
  obtain ⟨o, age, hoa, hat⟩ := hg.object ha
  exact ⟨o, age, hoa, (swept_get hat).1⟩

end Camel.Heap
