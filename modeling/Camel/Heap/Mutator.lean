import Camel.Heap.Major

/-! # The Program between Collections

    A program holds references in its slots. It allocates, loads what its objects
    refer to, stores through the barrier, sets the fields of an object it has just
    made, keeps carriers in a root set and drops what it no longer needs. Each of
    these leaves the heap in order, whatever the state of the remembered set is
    owed to.
-/

namespace Camel.Heap

open Lib List Option

variable {δ : Type} (c : Config)

/-! ## Steps of the Program -/

/-- The references of a row are all held in slots. -/
def HeldIn (slots row : List (Option Addr)) : Prop := ∀ a, some a ∈ row → some a ∈ slots

inductive Mutates (h : Heap δ) : Heap δ → Prop where
  /-- A new object: young, large, or born old when the birth space is full. -/
  | alloc (o : Obj δ) : HeldIn h.slots o.fields →
      Mutates h { (alloc c h o).1 with slots := some (alloc c h o).2 :: h.slots }
  /-- A graph made while the program runs. -/
  | graph (o : Obj δ) : HeldIn h.slots o.fields →
      Mutates h { (allocGraph c h o).1 with slots := some (allocGraph c h o).2 :: h.slots }
  | store (owner : Addr) (i : Nat) (v : Option Addr) : some owner ∈ h.slots →
      HeldIn h.slots [v] → Mutates h (storeField h owner i v)
  /-- The fields of an object made since the last minor collection are set without
      the barrier. -/
  | fill (owner : Addr) (o : Obj δ) (i : Nat) (v : Option Addr) : some owner ∈ h.slots →
      HeldIn h.slots [v] → youngOrFresh h owner = true → h.mem.get owner = some o →
      Mutates h { h with mem := h.mem.put owner { o with fields := o.fields.set i v } }
  | load (a b : Addr) : some a ∈ h.slots → Refers h a b →
      Mutates h { h with slots := some b :: h.slots }
  /-- Frames are entered and left: the slots hold what they held, or less. -/
  | frames (slots : List (Option Addr)) : HeldIn h.slots slots → Mutates h { h with slots := slots }
  | register (a : Addr) : some a ∈ h.slots → a.space = .graph →
      Mutates h { h with rootSet := h.rootSet ++ [a] }
  | unregister (rootSet : List Addr) : rootSet ⊆ h.rootSet → Mutates h { h with rootSet := rootSet }
  | finalizable (a : Addr) : some a ∈ h.slots → Mutates h (noteFinalizable h a)

variable {c} {h h' : Heap δ}

theorem HeldIn.reach {row : List (Option Addr)} (hh : HeldIn h.slots row) {a : Addr}
    (ha : some a ∈ row) : Reach h a :=
  .root (.inr (hh a ha))

theorem InOrder.reach_isSome (ho : InOrder h) {a : Addr} (ha : Reach h a) :
    (h.mem.get a).isSome = true :=
  ho.valid (.inl ha)

/-! ## Roots -/

/-- The heap with its roots and its finalizable objects changed. -/
def Heap.rerooted (h : Heap δ) (rootSet : List Addr) (slots : List (Option Addr))
    (finalizables : List Addr) : Heap δ :=
  { h with rootSet := rootSet, slots := slots, finalizables := finalizables }

/-- The roots may become any that were reached. -/
theorem InOrder.rerooted (ho : InOrder h) {rootSet : List Addr} {slots : List (Option Addr)}
    {finalizables : List Addr} (hr : ∀ a ∈ rootSet, Reach h a ∧ a.space = .graph)
    (hs : ∀ a, some a ∈ slots → Reach h a)
    (hf : ∀ a ∈ finalizables, a.space.isYoung = true ∧ (h.mem.get a).isSome = true) :
    InOrder (h.rerooted rootSet slots finalizables) := by
  have hroot : ∀ {a}, IsRoot (h.rerooted rootSet slots finalizables) a → Reach h a := by
    rintro a (ha | ha)
    · exact (hr a ha).1
    · exact hs a ha
  have hreach : ∀ {a}, Reach (h.rerooted rootSet slots finalizables) a → Reach h a := by
    intro a ha
    induction ha with
    | root ha => exact hroot ha
    | step _ href ih => exact .step ih href
  have hseen : ∀ {a}, Seen (h.rerooted rootSet slots finalizables) a → Reach h a ∨ Seen h a := by
    intro a ha
    induction ha with
    | root ha => exact .inl (hroot ha)
    | owner ha => exact .inr (.owner ha)
    | step _ hc href ih =>
      rcases ih with ih | ih
      · exact .inl (.step ih href)
      · exact .inr (.step ih hc href)
  exact
    { valid := fun ha => ho.valid (ha.elim (fun h => .inl (hreach h)) hseen)
      remembers := ho.remembers
      oldFields := ho.oldFields
      rememberedOld := ho.rememberedOld
      freshOld := ho.freshOld
      rootCarrier := fun ha => (hr _ ha).2
      cacheEmpty := ho.cacheEmpty
      birthBound := ho.birthBound
      havenBound := ho.havenBound
      finalizableYoung := fun ha => hf _ ha }

/-! ## Stores -/

/-- The heap with a field of an object set and a remembered set of its own. -/
def Heap.stored (h : Heap δ) (owner : Addr) (o : Obj δ) (i : Nat) (v : Option Addr)
    (remembered : List Addr) : Heap δ :=
  { h with
    mem := h.mem.put owner { o with fields := o.fields.set i v }
    remembered := remembered }

section Stored

variable {owner : Addr} {o : Obj δ} {i : Nat} {v : Option Addr} {remembered : List Addr}

theorem stored_isSome (hoa : h.mem.get owner = some o) (a : Addr) :
    ((h.stored owner o i v remembered).mem.get a).isSome = (h.mem.get a).isSome := by
  simp only [Heap.stored, Store.get_put]
  split
  · next heq => rw [heq, hoa]; rfl
  · rfl

/-- A reference after the store was there before or is the one stored. -/
theorem Refers.of_stored (hoa : h.mem.get owner = some o) {a b : Addr}
    (href : Refers (h.stored owner o i v remembered) a b) :
    Refers h a b ∨ (a = owner ∧ v = some b) := by
  obtain ⟨o', ho', hb⟩ := href
  simp only [Heap.stored, Store.get_put] at ho'
  split at ho'
  · next heq =>
    cases ho'
    rcases mem_or_eq_of_mem_set hb with hb | hb
    · exact .inl ⟨o, heq ▸ hoa, hb⟩
    · exact .inr ⟨heq, hb.symm⟩
  · exact .inl ⟨o', ho', hb⟩

theorem Reach.of_stored (hoa : h.mem.get owner = some o) (hv : HeldIn h.slots [v]) {a : Addr}
    (ha : Reach (h.stored owner o i v remembered) a) : Reach h a := by
  induction ha with
  | root hroot => exact .root hroot
  | step _ href ih =>
    rcases href.of_stored hoa with href | ⟨-, hb⟩
    · exact .step ih href
    · exact hv.reach (by simp [hb])

/-- A store makes seen what was reached, since its owner may be remembered now. -/
theorem Seen.of_stored (hoa : h.mem.get owner = some o) (howner : some owner ∈ h.slots)
    (hv : HeldIn h.slots [v]) (hin : ∀ a ∈ remembered, a = owner ∨ a ∈ h.remembered) {a : Addr}
    (ha : Seen (h.stored owner o i v remembered) a) : Reach h a ∨ Seen h a := by
  have hreach : Reach h owner := .root (.inr howner)
  induction ha with
  | root hroot => exact .inl (.root hroot)
  | owner hr =>
    rcases hin _ hr with rfl | hr
    · exact .inl hreach
    · exact .inr (.owner hr)
  | @step p _ _ hc href ih =>
    rcases href.of_stored hoa with hold | ⟨-, hb⟩
    · by_cases hp : p = owner
      · exact .inl (.step (hp ▸ hreach) hold)
      · rcases ih with ih | ih
        · exact .inl (.step ih hold)
        · refine .inr (.step ih ?_ hold)
          rcases hc with hc | hc | hc | hc
          · exact .inl hc
          · exact .inr (.inl hc)
          · exact .inr (.inr (.inl hc))
          · exact .inr (.inr (.inr ((hin _ hc).resolve_left hp)))
    · exact .inl (hv.reach (by simp [hb]))

/-- A store into an object that is held, with what the barrier does to the
    remembered set. -/
theorem InOrder.stored (ho : InOrder h) (howner : some owner ∈ h.slots) (hv : HeldIn h.slots [v])
    (hoa : h.mem.get owner = some o)
    (hin : ∀ a ∈ remembered, a = owner ∧ owner.space.isOld = true ∨ a ∈ h.remembered)
    (hkeep : h.remembered ⊆ remembered)
    (hbar : owner.space.isOld = true → owner ∉ h.fresh →
      (∃ b, v = some b ∧ youngOrFresh h b = true) → owner ∈ remembered) :
    InOrder (h.stored owner o i v remembered) := by
  have hmem : ∀ a, ((h.stored owner o i v remembered).mem.get a).isSome = (h.mem.get a).isSome :=
    stored_isSome hoa
  have hseen : ∀ {a}, Seen (h.stored owner o i v remembered) a → Reach h a ∨ Seen h a :=
    Seen.of_stored hoa howner hv fun a ha => (hin a ha).imp And.left id
  refine
    { valid := fun {a} ha => ?_
      remembers := ?_
      oldFields := ?_
      rememberedOld := ?_
      freshOld := fun {a} ha => ⟨(ho.freshOld ha).1, (hmem a).trans (ho.freshOld ha).2⟩
      rootCarrier := ho.rootCarrier
      cacheEmpty := fun {a} ha => ho.cacheEmpty ((hmem a).symm.trans ha)
      birthBound := fun {a} ha => ho.birthBound ((hmem a).symm.trans ha)
      havenBound := fun {a} ha => ho.havenBound ((hmem a).symm.trans ha)
      finalizableYoung := fun {a} ha =>
        ⟨(ho.finalizableYoung ha).1, (hmem a).trans (ho.finalizableYoung ha).2⟩ }
  · rw [hmem]
    rcases ha with ha | ha
    · exact ho.valid (.inl (ha.of_stored hoa hv))
    · exact ho.valid (hseen ha)
  · rintro a hold hnf ⟨b, href, hy, hb⟩
    rcases href.of_stored hoa with href | ⟨rfl, hb'⟩
    · exact hkeep (ho.remembers a hold hnf ⟨b, href, hy, (hmem b).symm.trans hb⟩)
    · exact hbar hold hnf ⟨b, hb', hy⟩
  · intro a b hold href
    rcases href.of_stored hoa with href | ⟨-, hb⟩
    · rcases ho.oldFields hold href with hsome | hstale
      · exact .inl ((hmem b).trans hsome)
      · exact .inr hstale
    · exact .inl ((hmem b).trans (ho.reach_isSome (hv.reach (by simp [hb]))))
  · intro a ha
    rcases hin a ha with ⟨rfl, hold⟩ | ha
    · exact hold
    · exact ho.rememberedOld ha

end Stored

/-- The write barrier adds the owner, or nothing. -/
theorem writeBarrier_eq (h : Heap δ) (owner : Addr) (v : Option Addr) :
    writeBarrier h owner v = h ∨ (owner.space.isOld = true ∧
      writeBarrier h owner v =
        { h with remembered := owner :: h.remembered.filter (· ≠ owner) }) := by
  unfold writeBarrier
  split
  · exact .inl rfl
  · split_ifs with h₁ h₂ h₃ h₄
    all_goals first
      | exact .inl rfl
      | exact .inr ⟨by simpa using h₄, rfl⟩

/-- It misses no store of a young or fresh object into an old one. -/
theorem writeBarrier_records {owner b : Addr} (hold : owner.space.isOld = true)
    (hy : youngOrFresh h b = true) :
    (writeBarrier h owner (some b)).remembered = owner :: h.remembered.filter (· ≠ owner) := by
  have hyoung := Space.isYoung_of_isOld hold
  have hskip : (!b.space.isYoung && decide (h.fresh = ∅)) = false := by
    by_contra hn
    simp only [Bool.not_eq_false, Bool.and_eq_true, Bool.not_eq_true', decide_eq_true_eq] at hn
    simp [youngOrFresh, hn.1, hn.2] at hy
  simp [writeBarrier, hyoung, hskip, hy, hold]

theorem storeField_inOrder (ho : InOrder h) {owner : Addr} {i : Nat} {v : Option Addr}
    (howner : some owner ∈ h.slots) (hv : HeldIn h.slots [v]) :
    InOrder (storeField h owner i v) := by
  obtain ⟨o, hoa⟩ := isSome_iff_exists.mp (ho.reach_isSome (.root (.inr howner)))
  simp only [storeField, hoa]
  rcases writeBarrier_eq { h with mem := h.mem.put owner { o with fields := o.fields.set i v } }
    owner v with heq | ⟨hold, heq⟩
  · rw [heq]
    apply ho.stored howner hv hoa (fun a ha => .inr ha) (fun _ ha => ha)
    rintro hold - ⟨b, rfl, hy⟩
    -- the barrier left the set as it is, so the owner is in it
    have hrec := writeBarrier_records (h := { h with
      mem := h.mem.put owner { o with fields := o.fields.set i (some b) } }) hold hy
    rw [heq] at hrec
    have hself : h.remembered = owner :: h.remembered.filter (· ≠ owner) := hrec
    rw [hself]
    exact mem_cons_self
  · rw [heq]
    apply ho.stored howner hv hoa
    · intro a ha
      rcases mem_cons.mp ha with rfl | ha
      · exact .inl ⟨rfl, hold⟩
      · exact .inr (mem_of_mem_filter ha)
    · intro a ha
      by_cases heq : a = owner
      · exact heq ▸ mem_cons_self
      · exact .tail _ (mem_filter.mpr ⟨ha, by simpa using heq⟩)
    · intro _ _ _
      exact mem_cons_self

/-! ## Allocation -/

/-- The heap with a new object that is held in a slot. -/
def Heap.added (h : Heap δ) (a : Addr) (o : Obj δ) (fresh : Finset Addr) (birthTop : Nat) :
    Heap δ :=
  { h with
    mem := h.mem.put a o
    fresh := fresh
    birthTop := birthTop
    slots := some a :: h.slots }

/-- The address is free: no object is there, and no reference into an emptied space
    names it. -/
structure Free (h : Heap δ) (a : Addr) : Prop where
  unallocated : h.mem.get a = none
  current : a.space.isYoung = true → a.epoch = h.epoch
  notHaven : ∀ second, a.space ≠ .semi second

section Added

variable {a : Addr} {o : Obj δ} {fresh : Finset Addr} {birthTop : Nat}

theorem added_isSome {b : Addr} (hb : (h.mem.get b).isSome = true) :
    ((h.added a o fresh birthTop).mem.get b).isSome = true := by
  simp only [Heap.added, Store.get_put]
  split
  · rfl
  · exact hb

theorem isSome_of_added {b : Addr}
    (hb : ((h.added a o fresh birthTop).mem.get b).isSome = true) :
    b = a ∨ (h.mem.get b).isSome = true := by
  simp only [Heap.added, Store.get_put] at hb
  split at hb
  · next heq => exact .inl heq
  · exact .inr hb

theorem Refers.of_added {p b : Addr} (href : Refers (h.added a o fresh birthTop) p b) :
    (p = a ∧ some b ∈ o.fields) ∨ (p ≠ a ∧ Refers h p b) := by
  obtain ⟨o', ho', hb⟩ := href
  simp only [Heap.added, Store.get_put] at ho'
  split at ho'
  · next heq =>
    cases ho'
    exact .inl ⟨heq, hb⟩
  · next hne => exact .inr ⟨hne, o', ho', hb⟩

theorem IsRoot.of_added {b : Addr} (hb : IsRoot (h.added a o fresh birthTop) b) :
    b = a ∨ IsRoot h b := by
  rcases hb with hb | hb
  · exact .inr (.inl hb)
  · rcases mem_cons.mp hb with heq | hb
    · exact .inl (some.inj heq)
    · exact .inr (.inr hb)

theorem Reach.of_added (hargs : HeldIn h.slots o.fields) {b : Addr}
    (hb : Reach (h.added a o fresh birthTop) b) : b = a ∨ Reach h b := by
  induction hb with
  | root hroot => exact hroot.of_added.imp id .root
  | step _ href ih =>
    rcases href.of_added with ⟨-, hb⟩ | ⟨hne, href⟩
    · exact .inr (hargs.reach hb)
    · exact .inr (.step (ih.resolve_left hne) href)

theorem Seen.of_added (hargs : HeldIn h.slots o.fields) (hfresh : fresh ⊆ insert a h.fresh)
    {b : Addr} (hb : Seen (h.added a o fresh birthTop) b) : b = a ∨ Seen h b := by
  induction hb with
  | root hroot => exact hroot.of_added.imp id .root
  | owner hr => exact .inr (.owner hr)
  | step _ hc href ih =>
    rcases href.of_added with ⟨-, hb⟩ | ⟨hne, href⟩
    · exact .inr (.root (.inr (hargs _ hb)))
    · refine .inr (.step (ih.resolve_left hne) ?_ href)
      rcases hc with hc | hc | hc | hc
      · exact .inl hc
      · exact .inr (.inl ((Finset.mem_insert.mp (hfresh hc)).resolve_left hne))
      · exact .inr (.inr (.inl hc))
      · exact .inr (.inr (.inr hc))

/-- No old object refers to an address that is free. -/
theorem InOrder.not_refers_free (ho : InOrder h) (ha : Free h a) {p : Addr}
    (hold : p.space.isOld = true) : ¬Refers h p a := by
  intro href
  rcases ho.oldFields hold href with hsome | ⟨hy, hlt⟩
  · simp [ha.unallocated] at hsome
  · have := ha.current hy
    omega

/-- A new object is young, or fresh, or a carrier: it need not be remembered, and
    nothing old refers to it yet. -/
theorem InOrder.added (ho : InOrder h) (ha : Free h a) (hargs : HeldIn h.slots o.fields)
    (hfresh : fresh = if a.space.isOld then insert a h.fresh else h.fresh)
    (htop : h.birthTop ≤ birthTop) (hbound : a.space = .birth → a.off < birthTop) :
    InOrder (h.added a o fresh birthTop) := by
  have hsub : fresh ⊆ insert a h.fresh := by
    rw [hfresh]
    split
    · exact Finset.Subset.refl _
    · exact Finset.subset_insert _ _
  have hself : ((h.added a o fresh birthTop).mem.get a).isSome = true := by simp [Heap.added]
  have hyoung : a.space = .birth → a.epoch = h.epoch := by
    intro hsp
    exact ha.current (by simp [hsp, Space.isYoung])
  refine
    { valid := ?_
      remembers := ?_
      oldFields := ?_
      rememberedOld := ho.rememberedOld
      freshOld := ?_
      rootCarrier := ho.rootCarrier
      cacheEmpty := ?_
      birthBound := ?_
      havenBound := ?_
      finalizableYoung := fun hf =>
        ⟨(ho.finalizableYoung hf).1, added_isSome (ho.finalizableYoung hf).2⟩ }
  · rintro b (hb | hb)
    · rcases hb.of_added hargs with rfl | hb
      · exact hself
      · exact added_isSome (ho.valid (.inl hb))
    · rcases hb.of_added hargs hsub with rfl | hb
      · exact hself
      · exact added_isSome (ho.valid (.inr hb))
  · rintro p hold hnf ⟨b, href, hy, hb⟩
    rcases href.of_added with ⟨rfl, -⟩ | ⟨hne, href⟩
    · exact absurd (show p ∈ fresh by simp [hfresh, hold]) hnf
    · have hba : b ≠ a := fun heq => ho.not_refers_free ha hold (heq ▸ href)
      have hnf' : p ∉ h.fresh := by
        intro hin
        refine hnf (show p ∈ fresh from ?_)
        rw [hfresh]
        split
        · exact Finset.mem_insert_of_mem hin
        · exact hin
      have hy' : youngOrFresh h b = true := by
        simp only [youngOrFresh, Bool.or_eq_true, decide_eq_true_eq] at hy ⊢
        rcases hy with hy | hy
        · exact .inl hy
        · exact .inr ((Finset.mem_insert.mp (hsub hy)).resolve_left hba)
      exact ho.remembers p hold hnf' ⟨b, href, hy', (isSome_of_added hb).resolve_left hba⟩
  · intro p b hold href
    rcases href.of_added with ⟨-, hb⟩ | ⟨-, href⟩
    · exact .inl (added_isSome (ho.reach_isSome (hargs.reach hb)))
    · exact (ho.oldFields hold href).imp added_isSome id
  · intro b hb
    have hb : b ∈ fresh := hb
    rw [hfresh] at hb
    split at hb
    · next hold =>
      rcases Finset.mem_insert.mp hb with rfl | hb
      · exact ⟨hold, hself⟩
      · exact ⟨(ho.freshOld hb).1, added_isSome (ho.freshOld hb).2⟩
    · exact ⟨(ho.freshOld hb).1, added_isSome (ho.freshOld hb).2⟩
  · intro b hb
    rcases isSome_of_added hb with rfl | hb
    · exact ha.notHaven _
    · exact ho.cacheEmpty hb
  · intro b hb hsp
    rcases isSome_of_added hb with rfl | hb
    · exact ⟨hyoung hsp, hbound hsp⟩
    · have := ho.birthBound hb hsp
      exact ⟨this.1, lt_of_lt_of_le this.2 htop⟩
  · intro b hb hsp
    rcases isSome_of_added hb with rfl | hb
    · exact absurd hsp (ha.notHaven _)
    · exact ho.havenBound hb hsp

end Added

theorem free_placeIn (h : Heap δ) {sp : Space} (hsp : sp.isYoung = false) :
    Free h (placeIn c h.mem sp) := by
  refine ⟨get_placeIn c h.mem sp, fun hy => ?_, fun second heq => ?_⟩
  · have : sp.isYoung = true := hy
    simp [hsp] at this
  · have : sp = .semi second := heq
    simp [this, Space.isYoung] at hsp

theorem bornOld_inOrder (ho : InOrder h) {o : Obj δ} (hargs : HeldIn h.slots o.fields) {sp : Space}
    (hsp : sp.isOld = true) :
    InOrder { (bornOld c h sp o).1 with slots := some (bornOld c h sp o).2 :: h.slots } := by
  have hold : (placeIn c h.mem sp).space.isOld = true := hsp
  apply ho.added (a := placeIn c h.mem sp) (o := o) (free_placeIn h (Space.isYoung_of_isOld hsp)) hargs
  · simp [hold, bornOld]
  · exact le_rfl
  · intro heq
    simp [heq, Space.isOld] at hold

theorem alloc_inOrder (ho : InOrder h) {o : Obj δ} (hargs : HeldIn h.slots o.fields) :
    InOrder { (alloc c h o).1 with slots := some (alloc c h o).2 :: h.slots } := by
  unfold alloc
  split
  · exact bornOld_inOrder ho hargs rfl
  · split
    · have hfree : Free h ⟨.birth, h.epoch, h.birthTop⟩ := by
        refine ⟨?_, fun _ => rfl, by simp⟩
        by_contra hn
        have := (ho.birthBound (isSome_iff_ne_none.mpr hn) rfl).2
        simp at this
      apply ho.added hfree hargs
      · simp [Space.isOld]
      · exact Nat.le_add_right _ _
      · intro _
        have := blockBytes_pos o.size
        show h.birthTop < h.birthTop + blockBytes o.size
        omega
    · exact bornOld_inOrder ho hargs rfl

theorem allocGraph_inOrder (ho : InOrder h) {o : Obj δ} (hargs : HeldIn h.slots o.fields) :
    InOrder { (allocGraph c h o).1 with slots := some (allocGraph c h o).2 :: h.slots } := by
  apply ho.added (a := placeIn c h.mem .graph) (o := o) (free_placeIn h rfl) hargs
  · simp [placeIn, Space.isOld, allocGraph]
  · exact le_rfl
  · intro heq
    simp [placeIn] at heq

/-! ## Every Step -/

theorem Mutates.inOrder (hm : Mutates c h h') (ho : InOrder h) : InOrder h' := by
  have hrootSet : ∀ a ∈ h.rootSet, Reach h a ∧ a.space = .graph :=
    fun a ha => ⟨.root (.inl ha), ho.rootCarrier ha⟩
  have hslots : ∀ a, some a ∈ h.slots → Reach h a := fun a ha => .root (.inr ha)
  have hfin : ∀ a ∈ h.finalizables, a.space.isYoung = true ∧ (h.mem.get a).isSome = true :=
    fun _ ha => ho.finalizableYoung ha
  cases hm with
  | alloc o hargs => exact alloc_inOrder ho hargs
  | graph o hargs => exact allocGraph_inOrder ho hargs
  | store owner i v howner hv => exact storeField_inOrder ho howner hv
  | fill owner o i v howner hv hy hoa =>
    apply ho.stored howner hv hoa (fun a ha => .inr ha) (fun _ ha => ha)
    intro hold hnf _
    -- an old object made since the last minor collection is fresh
    simp [youngOrFresh, hnf, Space.isYoung_of_isOld hold] at hy
  | load a b ha href =>
    apply ho.rerooted hrootSet _ hfin
    intro x hx
    rcases mem_cons.mp hx with hx | hx
    · cases hx
      exact .step (hslots a ha) href
    · exact hslots x hx
  | frames slots hs => exact ho.rerooted hrootSet (fun a ha => hslots a (hs a ha)) hfin
  | register a ha hgr =>
    apply ho.rerooted _ hslots hfin
    intro x hx
    rcases mem_append.mp hx with hx | hx
    · exact hrootSet x hx
    · rw [mem_singleton.mp hx]
      exact ⟨hslots a ha, hgr⟩
  | unregister rootSet hsub =>
    exact ho.rerooted (fun a ha => hrootSet a (hsub ha)) hslots hfin
  | finalizable a ha =>
    unfold noteFinalizable
    split
    · next hy =>
      apply ho.rerooted hrootSet hslots
      intro b hb
      rcases mem_append.mp hb with hb | hb
      · exact hfin b hb
      · rw [mem_singleton.mp hb]
        exact ⟨hy, ho.reach_isSome (hslots a ha)⟩
    · exact ho

end Camel.Heap
