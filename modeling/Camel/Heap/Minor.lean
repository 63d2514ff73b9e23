import Camel.Heap.Evacuate

/-! # What a Minor Collection Leaves

    The relocation ends with everything that was seen updated. From that: what
    the roots reach is the same graph of objects under new names, the heap is in
    order again with nothing fresh, and the objects that are finalized are those
    that were not copied.
-/

namespace Camel.Heap

open Lib List Option

variable {δ : Type} {h : Heap δ} {g : Gc δ} (c : Config)

/-! ## The Relocation Runs to Its End -/

theorem beginMinor_inv (ho : InOrder h) : GcInv h (beginMinor h) h.remembered := by
  have hloc : ∀ a, (beginMinor h).loc a = a := fun a => rfl
  have hold : ∀ {a}, Due h (beginMinor h) a → a ∈ h.remembered := by
    intro a hd
    rcases hd.found with hr | hv
    · exact hr
    · rcases hd.scans with hy | hfr | hgr | hr
      · exact absurd (hv.young hy) (by simp [beginMinor])
      · exact absurd hfr (hv.fresh hfr)
      · exact absurd (hv.graph hgr) (by simp [beginMinor])
      · exact hr
  refine
    { haven := rfl
      epoch := rfl
      index := le_rfl
      freshSub := fun _ hx => hx
      copy := fun hb => by simp [beginMinor] at hb
      copyInj := fun hb => by simp [beginMinor] at hb
      fromSpace := fun hx _ => hx
      oldSpace := fun hx _ => .inl hx
      due := ?_
      listed := ?_
      copyListed := fun hb => by simp [beginMinor] at hb
      freshListed := fun hx hout => absurd hx hout
      scanned := fun hb => by simp [beginMinor] at hb
      traced := fun hx => by simp [beginMinor] at hx
      inside := fun hb => .inl hb
      havenBound := ?_ }
  · intro a hd
    obtain ⟨o, hoa⟩ := isSome_iff_exists.mp (ho.seen_isSome hd.seen)
    refine .inr ⟨⟨o, o.age, hoa, hoa⟩, ?_⟩
    rw [hloc]
    exact mem_append_right _ (hold hd)
  · intro b hb
    have hb : b ∈ h.remembered := by simpa [Gc.todo, beginMinor] using hb
    have hy := Space.isYoung_of_isOld (ho.rememberedOld hb)
    exact ⟨b, ⟨.owner hb, .inr (.inr (.inr hb)), by simp [hy], .inl hb⟩, rfl⟩
  · intro b hb hsp
    exact absurd hsp (ho.cacheEmpty hb)

/-- The state the relocation ends in. -/
structure Evacuated (h : Heap δ) (g : Gc δ) (slots : List (Option Addr)) : Prop where
  inv : GcInv h g []
  done : g.todo = []
  slots : slots = h.slots.map (Option.map g.loc)
  slotVisited : ∀ a, some a ∈ h.slots → Visited h g a
  rootVisited : ∀ a ∈ h.rootSet, Visited h g a

theorem relocateAll_evacuated (ho : InOrder h) :
    Evacuated h (relocateAll c h).1 (relocateAll c h).2 := by
  have hbegin := beginMinor_inv ho
  have hroots := rootSet_inv c ho h.rootSet hbegin fun _ ha => ha
  have hpot₁ := rootSet_potential c ho h.rootSet hbegin fun _ ha => ha
  have hslotSeen : ∀ a, some a ∈ h.slots → Seen h a := fun a ha => .root (.inr ha)
  have hrow := relocateSlots_relocated c ho h.slots hroots.1 hslotSeen
  have hpot₂ := relocateSlots_potential c ho h.slots hroots.1 hslotSeen
  have howners : GcInv h (relocateSlots c (h.rootSet.foldl (traceRootCarrier c) (beginMinor h))
      h.slots).1 (h.remembered ++ []) := by
    rw [append_nil]
    exact hrow.inv
  have hrem := remembered_inv c ho h.remembered howners
  have hpot₃ := remembered_potential c ho h.remembered howners
  have hstart : potential h (beginMinor h) ≤ h.mem.keys.card := by
    have := Finset.card_filter_le h.mem.keys (Open (beginMinor h))
    simpa [potential, Gc.todo, beginMinor] using this
  have hscan := scanRelocatedObjects_inv c ho h.mem.keys.card hrem.1
  have hext := hrem.2.trans hscan.2
  refine
    { inv := hscan.1
      done := scanRelocatedObjects_done c ho _ hrem.1 (by omega)
      slots := ?_
      slotVisited := fun a ha => (hrow.visited a ha).grow hext
      rootVisited := fun a ha => ((hroots.2.2 a ha).grow hrow.grows.toExtends).grow hext }
  refine Eq.trans hrow.result ?_
  exact (hext.map_loc hrow.visited).symm

/-! ## Everything Seen Is Updated -/

section Evacuated

variable {slots : List (Option Addr)}

variable {a : Addr}

theorem Evacuated.updated (he : Evacuated h g slots) (hd : Due h g a) :
    Updated h g a := by
  rcases he.inv.due hd with hu | ⟨-, hl⟩
  · exact hu
  · simp [he.done] at hl

theorem Evacuated.placed_of_found (ho : InOrder h)
    (hf : a ∈ h.remembered ∨ Visited h g a) (hy : a.space.isYoung = true) :
    (g.forwarded a).isSome = true := by
  rcases hf with hr | hv
  · have := Space.isYoung_of_isOld (ho.rememberedOld hr)
    simp [hy] at this
  · exact hv.young hy

section
variable (he : Evacuated h g slots) (ho : InOrder h) (hs : Seen h a)
include he ho hs

/-- What a minor collection sees it finds. -/
theorem Evacuated.found
    : a ∈ h.remembered ∨ Visited h g a := by
  induction hs with
  | root hroot =>
    rcases hroot with hr | hr
    · exact .inr (he.rootVisited _ hr)
    · exact .inr (he.slotVisited _ hr)
  | owner hr => exact .inl hr
  | @step a b hseen hscans href ih =>
    have hd : Due h g a := ⟨hseen, hscans, Evacuated.placed_of_found ho ih, ih⟩
    obtain ⟨o, age, hoa, -, hv⟩ := he.updated hd
    obtain ⟨o', hoa', hf⟩ := href
    rw [hoa] at hoa'
    cases hoa'
    exact .inr (hv b hf)

theorem Evacuated.due
    (hc : Scans h a) : Due h g a :=
  ⟨hs, hc, Evacuated.placed_of_found ho (he.found ho hs), he.found ho hs⟩

theorem Evacuated.updated_of_seen
    (hc : Scans h a) : Updated h g a :=
  he.updated (he.due ho hs hc)

/-- What was seen has a place after the collection. -/
theorem Evacuated.loc_isSome
    : (g.mem.get (g.loc a)).isSome = true := by
  rcases he.inv.raw_or_updated ho hs (Evacuated.placed_of_found ho (he.found ho hs)) with
    ⟨o, age, -, hat⟩ | ⟨o, age, -, hat, -⟩
  all_goals
    rw [hat]
    rfl

end

/-- No object is left in the spaces that are emptied. -/
theorem GcInv.loc_space {extra : List Addr} (hi : GcInv h g extra)
    (hp : a.space.isYoung = true → (g.forwarded a).isSome = true) :
    (g.loc a).space ≠ .birth ∧ (g.loc a).space ≠ .semi h.haven := by
  by_cases hy : a.space.isYoung = true
  · obtain ⟨b, hb⟩ := isSome_iff_exists.mp (hp hy)
    rw [Gc.loc_of_forwarded hb]
    rcases (hi.copy hb).2.2.2 with ⟨hsp, -⟩ | hsp
    · rw [hsp, hi.haven]
      cases h.haven <;> simp
    · simp [hsp]
  · have hy := Bool.eq_false_iff.mpr hy
    rw [hi.loc_old hy]
    refine ⟨fun hsp => ?_, fun hsp => ?_⟩ <;> simp [hsp, Space.isYoung] at hy

/-! ## The Graph the Roots Reach -/

theorem Space.young_old_or_graph (sp : Space) :
    sp.isYoung = true ∨ sp.isOld = true ∨ sp = .graph := by
  cases sp <;> simp [Space.isYoung, Space.isOld]

/-- What refers to a young object is scanned once it is seen. -/
theorem InOrder.scans_of_refers (ho : InOrder h) {b : Addr} (hb : (h.mem.get b).isSome = true)
    (href : Refers h a b) (hy : youngOrFresh h b = true) : Scans h a := by
  rcases Space.young_old_or_graph a.space with hsp | hsp | hsp
  · exact .inl hsp
  · by_cases hf : a ∈ h.fresh
    · exact .inr (.inl hf)
    · exact .inr (.inr (.inr (ho.remembers a hsp hf ⟨b, href, hy, hb⟩)))
  · exact .inr (.inr (.inl hsp))

/-- A young object was handed out after the last collection. -/
theorem InOrder.epoch_of_young (ho : InOrder h) (ha : (h.mem.get a).isSome = true)
    (hy : a.space.isYoung = true) : a.epoch = h.epoch := by
  cases hsp : a.space with
  | birth => exact (ho.birthBound ha hsp).1
  | semi second =>
    by_cases hh : second = h.haven
    · exact (ho.havenBound ha (by rw [hsp, hh])).1
    · have := ho.cacheEmpty ha
      cases second <;> cases hv : h.haven <;> simp_all
  | _ => simp [hsp, Space.isYoung] at hy

theorem youngOrFresh_of_young (hy : a.space.isYoung = true) :
    youngOrFresh h a = true := by
  simp [youngOrFresh, hy]

theorem ReferrersSeen.scans (hs : ReferrersSeen h) (ho : InOrder h) {b : Addr}
    (ha : Reach h a) (href : Refers h a b) (hy : b.space.isYoung = true) :
    Seen h a ∧ Scans h a :=
  ⟨hs a b ha href hy,
    ho.scans_of_refers (ho.valid (.inl (.step ha href))) href (youngOrFresh_of_young hy)⟩

theorem Reach.seen_of_young (hs : ReferrersSeen h) (ho : InOrder h) (ha : Reach h a)
    (hy : a.space.isYoung = true) : Seen h a := by
  cases ha with
  | root hroot => exact .root hroot
  | @step p _ hp href =>
    obtain ⟨hseen, hscans⟩ := hs.scans ho hp href hy
    exact .step hseen hscans href

/-- A row without young references stays as it is. -/
theorem GcInv.map_loc_of_not_young {extra : List Addr} (hi : GcInv h g extra)
    {row : List (Option Addr)} (hrow : ∀ f, some f ∈ row → f.space.isYoung = false) :
    row.map (Option.map g.loc) = row := by
  conv_rhs => rw [← map_id row]
  apply map_congr_left
  intro x hx
  cases x with
  | none => rfl
  | some f => exact congrArg some (hi.loc_old (hrow f hx))

/-- Each object the roots reach is updated, or had nothing to update. -/
theorem Evacuated.object_of_reach (he : Evacuated h g slots) (ho : InOrder h)
    (hs : ReferrersSeen h) (ha : Reach h a) :
    ∃ o age, h.mem.get a = some o ∧
      g.mem.get (g.loc a) = some { o with age := age, fields := o.fields.map (Option.map g.loc) } := by
  by_cases hsc : Seen h a ∧ Scans h a
  · obtain ⟨o, age, hoa, hat, -⟩ := he.updated_of_seen ho hsc.1 hsc.2
    exact ⟨o, age, hoa, hat⟩
  obtain ⟨o, hoa⟩ := isSome_iff_exists.mp (ho.valid (.inl ha))
  have hy : a.space.isYoung = false := by
    by_contra hy
    have hy : a.space.isYoung = true := by simpa using hy
    exact hsc ⟨ha.seen_of_young hs ho hy, .inl hy⟩
  -- an object that is not scanned refers to nothing that moves
  have hrow : ∀ f, some f ∈ o.fields → f.space.isYoung = false := by
    intro f hf
    by_contra hfy
    exact hsc (hs.scans ho ha ⟨o, hoa, hf⟩ (by simpa using hfy))
  rcases he.inv.oldSpace hoa hy with hat | ⟨⟨o', age, hoa', hat, -⟩, -⟩
  · refine ⟨o, o.age, hoa, ?_⟩
    rw [he.inv.loc_old hy, he.inv.map_loc_of_not_young hrow]
    exact hat
  · rw [hoa] at hoa'
    cases hoa'
    exact ⟨o, age, hoa, hat⟩

theorem Evacuated.placed_of_reach (he : Evacuated h g slots) (ho : InOrder h)
    (hs : ReferrersSeen h) (ha : Reach h a) (hy : a.space.isYoung = true) :
    (g.forwarded a).isSome = true :=
  Evacuated.placed_of_found ho (he.found ho (ha.seen_of_young hs ho hy)) hy

end Evacuated

variable {b : Addr}

/-- The heap after a minor collection, read through the collector's final state. -/
theorem minorGC_get :
    (minorGC c h).heap.mem.get b =
      if b.space ≠ .birth ∧ b.space ≠ .semi h.haven then (relocateAll c h).1.mem.get b
      else none := by
  simp [minorGC, Store.get_keep]

theorem minorGC_get_of_space (hb : b.space ≠ .birth ∧ b.space ≠ .semi h.haven) :
    (minorGC c h).heap.mem.get b = (relocateAll c h).1.mem.get b := by
  rw [minorGC_get, if_pos hb]

/-- What is left after a minor collection is outside the spaces it emptied. -/
theorem minorGC_isSome (hb : ((minorGC c h).heap.mem.get b).isSome = true) :
    b.space ≠ .birth ∧ b.space ≠ .semi h.haven ∧
      ((relocateAll c h).1.mem.get b).isSome = true := by
  rw [minorGC_get] at hb
  split at hb
  · next hsp => exact ⟨hsp.1, hsp.2, hb⟩
  · cases hb

/-- Where a minor collection moved an object to. -/
def Collected.loc (r : Collected δ) (a : Addr) : Addr := (r.moved a).getD a

/-- A minor collection leaves the graph the roots reach unchanged up to the names. -/
theorem minorGC_sameGraph (ho : InOrder h) (hs : ReferrersSeen h) :
    SameGraph h (minorGC c h).heap (minorGC c h).loc := by
  have he := relocateAll_evacuated c ho
  have hi := he.inv
  show SameGraph h (minorGC c h).heap (relocateAll c h).1.loc
  refine ⟨?_, he.slots, ?_, ?_⟩
  · show h.rootSet = h.rootSet.map (relocateAll c h).1.loc
    conv_lhs => rw [← map_id h.rootSet]
    apply map_congr_left
    intro a ha
    have hgr := ho.rootCarrier ha
    exact (hi.loc_old (by simp [hgr, Space.isYoung])).symm
  · intro a b ha hb heq
    exact hi.loc_inj (ho.valid (.inl ha)) (ho.valid (.inl hb)) heq
  · intro a ha
    obtain ⟨o, age, hoa, hat⟩ := he.object_of_reach ho hs ha
    refine ⟨o, age, hoa, ?_⟩
    rw [minorGC_get_of_space c (hi.loc_space (he.placed_of_reach ho hs ha))]
    exact hat

end Camel.Heap

/-! # The Heap Is in Order Again

    After a minor collection the remembered set is that of the objects it left:
    an old object with a young reference was copied, scanned as fresh, or a
    remembered owner, and is kept for that reference. What a dead owner still
    refers to has a place as well, so the next collection can follow it.
-/

namespace Camel.Heap

open Lib List

variable {δ : Type} {h : Heap δ} {g : Gc δ} (c : Config)

/-! ## What the Next Collection Sees -/

section Evacuated

variable {slots : List (Option Addr)}

theorem GcInv.loc_young {extra : List Addr} (hi : GcInv h g extra) {a : Addr}
    (hy : (g.loc a).space.isYoung = true) : a.space.isYoung = true := by
  by_contra hn
  have hn : a.space.isYoung = false := by simpa using hn
  rw [hi.loc_old hn, hn] at hy
  cases hy

theorem GcInv.loc_graph {extra : List Addr} (hi : GcInv h g extra) {a : Addr}
    (hgr : (g.loc a).space = .graph) : a.space = .graph := by
  cases hf : g.forwarded a with
  | none => rwa [Gc.loc_of_not_forwarded hf] at hgr
  | some b =>
    rw [Gc.loc_of_forwarded hf] at hgr
    rcases (hi.copy hf).2.2.2 with ⟨hsp, -⟩ | hsp <;> simp [hsp] at hgr

section
variable (he : Evacuated h g slots) (ho : InOrder h)
include he ho

/-- What is remembered after the collection was seen by it and scanned. -/
theorem Evacuated.of_rememberedAfter {b : Addr}
    (hb : b ∈ rememberedAfter h g) : ∃ a, Seen h a ∧ Scans h a ∧ g.loc a = b := by
  have hi := he.inv
  simp only [rememberedAfter, mem_dedup, mem_filter, mem_append] at hb
  rcases hb.1 with hr | ⟨hscan, hsp⟩
  · have hy := Space.isYoung_of_isOld (ho.rememberedOld hr)
    exact ⟨b, .owner hr, .inr (.inr (.inr hr)), hi.loc_old hy⟩
  · rcases hi.scanned hscan with ⟨a, hf⟩ | ⟨hfr, -, hseen⟩
    · obtain ⟨hy, hseen, -⟩ := hi.copy hf
      exact ⟨a, hseen, .inl hy, Gc.loc_of_forwarded hf⟩
    · exact ⟨b, hseen, .inr (.inl hfr), hi.loc_old (Space.isYoung_of_isOld hsp)⟩

/-- The references of a scanned object lead to places of seen objects. -/
theorem Evacuated.fields_of_scanned {a : Addr}
    (hs : Seen h a) (hc : Scans h a) {o' : Obj δ} (hat : g.mem.get (g.loc a) = some o') {b : Addr}
    (hb : some b ∈ o'.fields) : ∃ f, Seen h f ∧ g.loc f = b := by
  obtain ⟨o, age, hoa, hat', -⟩ := he.updated_of_seen ho hs hc
  rw [hat] at hat'
  cases hat'
  obtain ⟨f, hf, hfb⟩ := some_mem_map.1 hb
  exact ⟨f, .step hs hc ⟨o, hoa, hf⟩, hfb⟩

theorem Evacuated.placed_of_seen {a : Addr}
    (hs : Seen h a) (hy : a.space.isYoung = true) : (g.forwarded a).isSome = true :=
  Evacuated.placed_of_found ho (he.found ho hs) hy

end

end Evacuated

variable {a : Addr}

/-- What was seen has a place in the heap that is left. -/
theorem minorGC_place (ho : InOrder h) (hs : Seen h a) :
    ((minorGC c h).heap.mem.get ((relocateAll c h).1.loc a)).isSome = true := by
  have he := relocateAll_evacuated c ho
  rw [minorGC_get_of_space c (he.inv.loc_space (he.placed_of_seen ho hs))]
  exact he.loc_isSome ho hs

variable {b : Addr}

theorem minorGC_object {o : Obj δ} (hb : (minorGC c h).heap.mem.get b = some o) :
    (relocateAll c h).1.mem.get b = some o := by
  rw [minorGC_get] at hb
  split at hb
  · exact hb
  · cases hb

section
variable (ho : InOrder h)
include ho

/-- A scan of the next collection goes through places of objects this one scanned. -/
theorem minorGC_scans (hs : Seen h a)
    (hc : Scans (minorGC c h).heap ((relocateAll c h).1.loc a)) : Scans h a := by
  have he := relocateAll_evacuated c ho
  rcases hc with hy | hfr | hgr | hr
  · exact .inl (he.inv.loc_young hy)
  · simp [minorGC] at hfr
  · exact .inr (.inr (.inl (he.inv.loc_graph hgr)))
  · obtain ⟨a', hs', hc', hloc⟩ := he.of_rememberedAfter ho hr
    have heq := he.inv.loc_inj (ho.seen_isSome hs') (ho.seen_isSome hs) hloc
    exact heq ▸ hc'

/-- What the next collection sees is the place of something this one saw. -/
theorem minorGC_seen (hs : Seen (minorGC c h).heap b) :
    ∃ a, Seen h a ∧ (relocateAll c h).1.loc a = b := by
  have he := relocateAll_evacuated c ho
  induction hs with
  | root hroot =>
    rcases hroot with hr | hr
    · have hgr := ho.rootCarrier hr
      exact ⟨_, .root (.inl hr), he.inv.loc_old (by simp [hgr, Space.isYoung])⟩
    · have hslots : (minorGC c h).heap.slots = h.slots.map (Option.map _) := he.slots
      rw [hslots] at hr
      obtain ⟨a, ha, hab⟩ := some_mem_map.1 hr
      exact ⟨a, .root (.inr ha), hab⟩
  | owner hr =>
    obtain ⟨a, hs, -, hab⟩ := he.of_rememberedAfter ho hr
    exact ⟨a, hs, hab⟩
  | step _ hc href ih =>
    obtain ⟨a, hs, rfl⟩ := ih
    obtain ⟨o', ho', hb⟩ := href
    exact he.fields_of_scanned ho hs (minorGC_scans c ho hs hc) (minorGC_object c ho') hb

/-! ## The Remembered Set -/

/-- The haven that is left holds copies only. -/
theorem minorGC_young (hy : b.space.isYoung = true)
    (hb : ((minorGC c h).heap.mem.get b).isSome = true) :
    h.mem.get b = none ∧ b.space = .semi (!h.haven) ∧ b.epoch = h.epoch + 1 := by
  have hi := (relocateAll_evacuated c ho).inv
  obtain ⟨hbirth, hfrom, hat⟩ := minorGC_isSome c hb
  have hsp : b.space = .semi (!h.haven) := by
    cases hsp : b.space with
    | birth => exact absurd hsp hbirth
    | semi second =>
      rw [hsp] at hfrom
      cases second <;> cases hh : h.haven <;> simp_all
    | _ => simp [hsp, Space.isYoung] at hy
  have hnone : h.mem.get b = none := by
    by_contra hn
    exact ho.cacheEmpty (Option.isSome_iff_ne_none.mpr hn) hsp
  refine ⟨hnone, hsp, ?_⟩
  rcases hi.inside hat with hin | ⟨a, hf⟩
  · simp [hnone] at hin
  · rcases (hi.copy hf).2.2.2 with ⟨-, hep⟩ | hel
    · rw [hep, hi.epoch]
    · simp [hel] at hsp

/-- An old object that is left was copied there, is as it was, or was scanned. -/
theorem minorGC_old {o : Obj δ} (hold : a.space.isOld = true)
    (ha : (minorGC c h).heap.mem.get a = some o) :
    h.mem.get a = some o ∨ ∃ a₀, Seen h a₀ ∧ Scans h a₀ ∧ (relocateAll c h).1.loc a₀ = a ∧
      (a ∈ h.remembered ∨ a ∈ (relocateAll c h).1.relocationScan) := by
  have hi := (relocateAll_evacuated c ho).inv
  have hat := minorGC_object c ha
  have hy := Space.isYoung_of_isOld hold
  rcases hi.inside (by rw [hat]; rfl) with hin | ⟨a₀, hf⟩
  · obtain ⟨o₀, ho₀⟩ := Option.isSome_iff_exists.mp hin
    rcases hi.oldSpace ho₀ hy with hraw | ⟨-, hd⟩
    · rw [hat] at hraw
      exact .inl (by rw [ho₀, hraw])
    · refine .inr ⟨a, hd.seen, hd.scans, hi.loc_old hy, ?_⟩
      rcases hd.found with hr | hv
      · exact .inl hr
      · rcases hd.scans with hya | hfr | hgr | hr
        · simp [hy] at hya
        · exact .inr (hi.freshListed hfr (hv.fresh hfr))
        · simp [hgr, Space.isOld] at hold
        · exact .inl hr
  · obtain ⟨hya, hseen, -⟩ := hi.copy hf
    exact .inr ⟨a₀, hseen, .inl hya, Gc.loc_of_forwarded hf, .inr (hi.copyListed hf)⟩

theorem minorGC_remembers : Remembers (minorGC c h).heap := by
  rintro a hold - ⟨b, ⟨o, hoa, hb⟩, hyf, hsome⟩
  have hy : b.space.isYoung = true := by simpa [youngOrFresh, minorGC] using hyf
  obtain ⟨hnone, -, hep⟩ := minorGC_young c ho hy hsome
  rcases minorGC_old c ho hold hoa with hraw | ⟨_, -, -, -, hlist⟩
  · -- an object with its old references refers to nothing the new haven holds
    rcases ho.oldFields hold ⟨o, hraw, hb⟩ with hin | ⟨-, hlt⟩
    · simp [hnone] at hin
    · omega
  · have hyoung : hasYoungRefs (relocateAll c h).1.mem a = true := by
      simp only [hasYoungRefs, minorGC_object c hoa, any_eq_true]
      exact ⟨some b, hb, hy⟩
    show a ∈ rememberedAfter h (relocateAll c h).1
    simp only [rememberedAfter, mem_dedup, mem_filter, mem_append]
    refine ⟨?_, hyoung⟩
    rcases hlist with hr | hscan
    · exact .inl hr
    · exact .inr ⟨hscan, hold⟩

theorem minorGC_oldFields (hold : a.space.isOld = true)
    (href : Refers (minorGC c h).heap a b) :
    ((minorGC c h).heap.mem.get b).isSome = true ∨
      (b.space.isYoung = true ∧ b.epoch < (minorGC c h).heap.epoch) := by
  have he := relocateAll_evacuated c ho
  obtain ⟨o, hoa, hb⟩ := href
  have hepoch : (minorGC c h).heap.epoch = h.epoch + 1 := he.inv.epoch
  rcases minorGC_old c ho hold hoa with hraw | ⟨a₀, hs, hc, rfl, -⟩
  · rcases ho.oldFields hold ⟨o, hraw, hb⟩ with hin | ⟨hy, hlt⟩
    · by_cases hy : b.space.isYoung = true
      · refine .inr ⟨hy, ?_⟩
        have hep : b.epoch = h.epoch := ho.epoch_of_young hin hy
        omega
      · have hy : b.space.isYoung = false := by simpa using hy
        have hsp : b.space ≠ .birth ∧ b.space ≠ .semi h.haven :=
          ⟨fun hsp => by simp [hsp, Space.isYoung] at hy, fun hsp => by simp [hsp, Space.isYoung] at hy⟩
        rw [minorGC_get_of_space c hsp]
        exact .inl (he.inv.kept hin)
    · exact .inr ⟨hy, by omega⟩
  · obtain ⟨f, hf, rfl⟩ := he.fields_of_scanned ho hs hc (minorGC_object c hoa) hb
    exact .inl (minorGC_place c ho hf)

/-! ## In Order -/

theorem minorGC_inOrder (hs : ReferrersSeen h) : InOrder (minorGC c h).heap := by
  have he := relocateAll_evacuated c ho
  have hi := he.inv
  have hsame := minorGC_sameGraph c ho hs
  refine
    { valid := ?_
      remembers := minorGC_remembers c ho
      oldFields := minorGC_oldFields c ho
      rememberedOld := ?_
      freshOld := fun hfr => by simp [minorGC] at hfr
      rootCarrier := ho.rootCarrier
      cacheEmpty := ?_
      birthBound := fun hb hsp => absurd hsp (minorGC_isSome c hb).1
      havenBound := ?_
      finalizableYoung := ?_ }
  · rintro b (hr | hseen)
    · obtain ⟨a, ha, rfl⟩ := hsame.reach_iff.mp hr
      obtain ⟨o, age, -, hat⟩ := hsame.object ha
      rw [hat]
      rfl
    · obtain ⟨a, ha, rfl⟩ := minorGC_seen c ho hseen
      exact minorGC_place c ho ha
  · intro b hb
    simp only [minorGC, rememberedAfter, mem_dedup, mem_filter, mem_append] at hb
    rcases hb.1 with hr | ⟨-, hsp⟩
    · exact ho.rememberedOld hr
    · exact hsp
  · intro b hb hsp
    have hhaven : (minorGC c h).heap.haven = !h.haven := hi.haven
    rw [hhaven, Bool.not_not] at hsp
    exact (minorGC_isSome c hb).2.1 hsp
  · intro b hb hsp
    have hy : b.space.isYoung = true := by simp [hsp, Space.isYoung]
    obtain ⟨-, -, hep⟩ := minorGC_young c ho hy hb
    have hepoch : (minorGC c h).heap.epoch = h.epoch + 1 := hi.epoch
    exact ⟨by rw [hep, hepoch], hi.havenBound (minorGC_isSome c hb).2.2 hsp⟩
  · intro b hb
    simp only [minorGC, mem_filter, mem_filterMap] at hb
    obtain ⟨⟨a, -, hf⟩, hy⟩ := hb
    have hplace := minorGC_place c ho (hi.copy hf).2.1
    rw [Gc.loc_of_forwarded hf] at hplace
    exact ⟨hy, hplace⟩

/-! ## Finalization -/

/-- Exactly the young objects that were seen are copied. -/
theorem minorGC_moved_iff :
    ((minorGC c h).moved a).isSome = true ↔ a.space.isYoung = true ∧ Seen h a := by
  have he := relocateAll_evacuated c ho
  constructor
  · intro hm
    obtain ⟨b, hb⟩ := Option.isSome_iff_exists.mp hm
    exact ⟨(he.inv.copy hb).1, (he.inv.copy hb).2.1⟩
  · rintro ⟨hy, hs⟩
    exact he.placed_of_seen ho hs hy

end

theorem mem_finalized_iff :
    a ∈ (minorGC c h).finalized ↔ a ∈ h.finalizables ∧ (minorGC c h).moved a = none := by
  simp [minorGC, mem_filter]

/-- No object the roots reach is finalized. -/
theorem not_reach_of_finalized (ho : InOrder h) (hs : ReferrersSeen h)
    (ha : a ∈ (minorGC c h).finalized) : ¬Reach h a := by
  intro hr
  obtain ⟨hfin, hnone⟩ := (mem_finalized_iff c).mp ha
  have hy := (ho.finalizableYoung hfin).1
  have := (minorGC_moved_iff c ho).mpr ⟨hy, hr.seen_of_young hs ho hy⟩
  simp [hnone] at this

/-! ## Only Then -/

section Necessary

variable {φ : Addr → Addr}

section
variable (ho : InOrder h) (hg : SameGraph h (minorGC c h).heap φ)
include ho hg

/-- An object that is reached before and has kept its name is not in an emptied space. -/
theorem SameGraph.not_young_of_fixed
    {a : Addr} (ha : Reach h a) (hφ : φ a = a) : a.space.isYoung = false := by
  by_contra hy
  have hy : a.space.isYoung = true := by simpa using hy
  obtain ⟨o, age, hoa, hat⟩ := hg.object ha
  rw [hφ] at hat
  obtain ⟨hnone, -⟩ := minorGC_young c ho hy (by rw [hat]; rfl)
  rw [hnone] at hoa
  cases hoa

/-- An object that is not scanned keeps its references, so a renaming of the graph
    leaves them alone. -/
theorem SameGraph.fixed_of_unscanned
    {a f : Addr} (ha : Reach h a) (hφ : φ a = (relocateAll c h).1.loc a)
    (hn : ¬(Seen h a ∧ Scans h a)) (href : Refers h a f) : φ f = f := by
  have hi := (relocateAll_evacuated c ho).inv
  obtain ⟨o, age, hoa, hat⟩ := hg.object ha
  have hunmoved : (relocateAll c h).1.loc a = a := by
    cases hf : (relocateAll c h).1.forwarded a with
    | none => exact Gc.loc_of_not_forwarded hf
    | some b => exact absurd ⟨(hi.copy hf).2.1, .inl (hi.copy hf).1⟩ hn
  rw [hunmoved] at hφ
  have hy := hg.not_young_of_fixed c ho ha hφ
  rw [hφ] at hat
  rcases hi.oldSpace hoa hy with hraw | ⟨-, hd⟩
  · have hrow : o.fields = o.fields.map (Option.map φ) := by
      have := minorGC_object c hat
      rw [hraw, Option.some.injEq] at this
      exact congrArg Obj.fields this
    obtain ⟨o', ho', hf⟩ := href
    rw [hoa] at ho'
    cases ho'
    nth_rewrite 1 [← map_id o.fields] at hrow
    have := map_inj_left.mp hrow (some f) hf
    exact (Option.some.inj this).symm
  · exact absurd ⟨hd.seen, hd.scans⟩ hn

/-- A renaming of the graph sends each object where the collector moved it. -/
theorem SameGraph.eq_loc {a : Addr}
    (ha : Reach h a) : φ a = (relocateAll c h).1.loc a := by
  have he := relocateAll_evacuated c ho
  induction ha with
  | @root a hroot =>
    rcases hroot with hr | hr
    · have hrow : h.rootSet.map id = h.rootSet.map φ := (map_id _).trans hg.rootSet
      have hgr := ho.rootCarrier hr
      rw [he.inv.loc_old (by simp [hgr, Space.isYoung])]
      exact (map_inj_left.mp hrow _ hr).symm
    · have hrow := he.slots.symm.trans hg.slots
      exact (Option.some.inj (map_inj_left.mp hrow _ hr)).symm
  | @step p a hp href ih =>
    by_cases hsc : Seen h p ∧ Scans h p
    · obtain ⟨o, age, hop, hat, -⟩ := he.updated_of_seen ho hsc.1 hsc.2
      obtain ⟨o', age', hop', hat'⟩ := hg.object hp
      rw [hop] at hop'
      cases hop'
      have hat' := minorGC_object c hat'
      rw [ih, hat, Option.some.injEq] at hat'
      have hrow := congrArg Obj.fields hat'
      obtain ⟨o', ho', hf⟩ := href
      rw [hop] at ho'
      cases ho'
      exact (Option.some.inj (map_inj_left.mp hrow (some a) hf)).symm
    · have hfix := hg.fixed_of_unscanned c ho hp ih hsc href
      rw [he.inv.loc_old (hg.not_young_of_fixed c ho (.step hp href) hfix)]
      exact hfix

/-- A minor collection keeps the graph only where each object that refers to a
    young one is seen. -/
theorem referrersSeen_of_sameGraph :
    ReferrersSeen h := by
  intro a b ha href hy
  by_contra hn
  have hfix := hg.fixed_of_unscanned c ho ha (hg.eq_loc c ho ha) (fun hsc => hn hsc.1) href
  have := hg.not_young_of_fixed c ho (.step ha href) hfix
  simp [hy] at this

end

end Necessary

end Camel.Heap
