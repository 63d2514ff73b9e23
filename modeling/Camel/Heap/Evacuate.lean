import Camel.Heap.Relocate

/-! # From One Reference to the Whole Relocation

    The steps of a minor collection built from single relocations: a row of
    slots, the references of one object, the root carriers, the remembered
    owners and the scan of everything found on the way. The scan ends because
    each object is found at most once.
-/

namespace Camel.Heap

open Lib List Option

variable {δ : Type} {h : Heap δ} {g : Gc δ} {extra : List Addr} (c : Config)

/-! ## Rows of Slots -/

/-- What relocating a row of slots comes to. -/
structure RelocatedRow (h : Heap δ) (g g' : Gc δ) (extra : List Addr)
    (row row' : List (Option Addr)) : Prop where
  inv : GcInv h g' extra
  grows : Grows g g'
  result : row' = row.map (Option.map g'.loc)
  visited : ∀ a, some a ∈ row → Visited h g' a

theorem relocateSlots_relocated (ho : InOrder h) (row : List (Option Addr))
    (hi : GcInv h g extra) (hseen : ∀ a, some a ∈ row → Seen h a) :
    RelocatedRow h g (relocateSlots c g row).1 extra row (relocateSlots c g row).2 := by
  induction row generalizing g with
  | nil => exact ⟨hi, Grows.refl g, rfl, by simp⟩
  | cons x rest ih =>
    have hrest : ∀ a, some a ∈ rest → Seen h a := fun a ha => hseen a (.tail _ ha)
    cases x with
    | none =>
      obtain ⟨hinv, hgrow, hres, hvis⟩ := ih hi hrest
      refine ⟨hinv, hgrow, ?_, ?_⟩
      · simp only [relocateSlots, map_cons, map_none]
        rw [← hres]
      · intro a ha
        rcases mem_cons.mp ha with ha | ha
        · cases ha
        · exact hvis a ha
    | some a =>
      have hone := relocateForMinor_relocated c hi ho (hseen a (.head _))
      obtain ⟨hinv, hgrow, hres, hvis⟩ := ih hone.inv hrest
      refine ⟨hinv, hone.grows.trans hgrow, ?_, ?_⟩
      · simp only [relocateSlots, map_cons, map_some]
        rw [← hres, hgrow.loc_eq hone.visited.young, ← hone.result]
      · intro b hb
        rcases mem_cons.mp hb with hb | hb
        · cases hb
          exact hone.visited.grow hgrow.toExtends
        · exact hvis b hb

variable {a : Addr}

/-- A reference that was relocated stays as it is. -/
theorem relocateForMinor_again (hi : GcInv h g extra) (ho : InOrder h)
    (hv : Visited h g a) : relocateForMinor c g (g.loc a) = (g, g.loc a) := by
  by_cases hy : a.space.isYoung = true
  · obtain ⟨b, hb⟩ := isSome_iff_exists.mp (hv.young hy)
    rw [Gc.loc_of_forwarded hb]
    obtain ⟨-, -, hnone, hsp⟩ := hi.copy hb
    have hnofresh : b ∉ g.fresh := by
      intro hfr
      have := (ho.freshOld (hi.freshSub hfr)).2
      rw [hnone] at this
      cases this
    rcases hsp with ⟨hsp, -⟩ | hsp
    · simp [relocateForMinor, forwardYoungRef, hsp]
    · simp [relocateForMinor, forwardYoungRef, hsp, Space.isYoung, hnofresh]
  · have hy := Bool.eq_false_iff.mpr hy
    rw [hi.loc_old hy]
    by_cases hgr : a.space = .graph
    · simp [relocateForMinor, hgr, hv.graph hgr]
    · have hnofresh : a ∉ g.fresh := fun hfr => hv.fresh (hi.freshSub hfr) hfr
      by_cases hsp : a.space = .semi g.haven
      · simp [hsp, Space.isYoung] at hy
      · simp [relocateForMinor, hgr, forwardYoungRef, hsp, hy, hnofresh]

theorem relocateSlots_again (hi : GcInv h g extra) (ho : InOrder h) (row : List (Option Addr))
    (hv : ∀ a, some a ∈ row → Visited h g a) :
    relocateSlots c g (row.map (Option.map g.loc)) = (g, row.map (Option.map g.loc)) := by
  induction row with
  | nil => rfl
  | cons x rest ih =>
    have hrest := ih fun a ha => hv a (.tail _ ha)
    cases x with
    | none => simp [relocateSlots, hrest]
    | some a =>
      have hone := relocateForMinor_again c hi ho (hv a (.head _))
      simp [relocateSlots, hrest, hone]

/-! ## One Object -/

/-- The collector's state with one object written. -/
def Gc.write (g : Gc δ) (b : Addr) (o : Obj δ) : Gc δ := { g with mem := g.mem.put b o }

/-- The object with its references relocated. -/
def Gc.relocated (g : Gc δ) (o : Obj δ) (age : Nat) : Obj δ :=
  { o with age := age, fields := o.fields.map (Option.map g.loc) }

/-- The object at `loc a` gets its relocated references. -/
theorem GcInv.write {o : Obj δ} (age : Nat) (hi : GcInv h g (g.loc a :: extra))
    (ho : InOrder h) (hoa : h.mem.get a = some o) (hd : Due h g a)
    (hv : ∀ f, some f ∈ o.fields → Visited h g f) :
    GcInv h (g.write (g.loc a) (g.relocated o age)) extra := by
  have hsome : (h.mem.get a).isSome = true := by rw [hoa]; rfl
  have hp := hd.placed
  have hdue : ∀ {x : Addr}, Due h g x → Due h (g.write (g.loc a) (g.relocated o age)) x :=
    fun hx => hx.grow ⟨fun hb => hb, fun _ => rfl, fun _ hb => hb, fun _ hb => hb⟩
  -- No other object is at the place that is written.
  have hother : ∀ {x : Addr}, (h.mem.get x).isSome = true → x ≠ a → g.loc x ≠ g.loc a :=
    fun hx hne heq => hne (hi.loc_inj hx hsome heq)
  have hupd : Updated h (g.write (g.loc a) (g.relocated o age)) a := by
    refine ⟨o, age, hoa, ?_, fun f hf => ⟨(hv f hf).young, (hv f hf).fresh, (hv f hf).graph⟩⟩
    exact Store.get_put_self _ _ _
  have hkeep : ∀ {x : Addr}, x ≠ a → Updated h g x →
      Updated h (g.write (g.loc a) (g.relocated o age)) x := by
    rintro x hne ⟨ox, agex, hox, hat, hvx⟩
    refine ⟨ox, agex, hox, ?_, fun f hf => ⟨(hvx f hf).young, (hvx f hf).fresh, (hvx f hf).graph⟩⟩
    show (g.mem.put (g.loc a) _).get (g.loc x) = _
    rw [Store.get_put_of_ne _ _ (hother (by rw [hox]; rfl) hne)]
    exact hat
  refine
    { haven := hi.haven
      epoch := hi.epoch
      index := hi.index
      freshSub := hi.freshSub
      copy := hi.copy
      copyInj := hi.copyInj
      fromSpace := ?_
      oldSpace := ?_
      due := ?_
      listed := ?_
      copyListed := hi.copyListed
      freshListed := hi.freshListed
      scanned := hi.scanned
      traced := hi.traced
      inside := ?_
      havenBound := ?_ }
  · intro x ox hx hxy
    have hne : x ≠ g.loc a := by
      intro heq
      by_cases hy : a.space.isYoung = true
      · obtain ⟨b, hb⟩ := isSome_iff_exists.mp (hp hy)
        rw [Gc.loc_of_forwarded hb] at heq
        rw [heq, (hi.copy hb).2.2.1] at hx
        cases hx
      · have hy := Bool.eq_false_iff.mpr hy
        rw [hi.loc_old hy] at heq
        rw [heq, hy] at hxy
        cases hxy
    show (g.mem.put (g.loc a) _).get x = _
    rw [Store.get_put_of_ne _ _ hne]
    exact hi.fromSpace hx hxy
  · intro x ox hx hxy
    by_cases hxa : x = a
    · subst hxa
      exact .inr ⟨hupd, hdue hd⟩
    · rcases hi.oldSpace hx hxy with hat | ⟨hu, hdx⟩
      · left
        have hne := hother (by rw [hx]; rfl) hxa
        rw [hi.loc_old hxy] at hne
        show (g.mem.put (g.loc a) _).get x = _
        rw [Store.get_put_of_ne _ _ hne]
        exact hat
      · exact .inr ⟨hkeep hxa hu, hdue hdx⟩
  · intro x hdx
    by_cases hxa : x = a
    · subst hxa
      exact .inl hupd
    · have hdx' : Due h g x :=
        hdx.grow ⟨fun hb => hb, fun _ => rfl, fun _ hb => hb, fun _ hb => hb⟩
      rcases hi.due hdx' with hu | ⟨⟨ox, agex, hox, hat⟩, hl⟩
      · exact .inl (hkeep hxa hu)
      · right
        have hne := hother (by rw [hox]; rfl) hxa
        refine ⟨⟨ox, agex, hox, ?_⟩, ?_⟩
        · show (g.mem.put (g.loc a) _).get (g.loc x) = _
          rw [Store.get_put_of_ne _ _ hne]
          exact hat
        · show g.loc x ∈ g.todo ++ extra
          simp only [mem_append, mem_cons] at hl ⊢
          tauto
  · intro b hb
    have hb : b ∈ g.todo ++ extra := hb
    obtain ⟨x, hdx, hbx⟩ := hi.listed (b := b) (by
      simp only [mem_append, mem_cons] at hb ⊢
      tauto)
    exact ⟨x, hdue hdx, hbx⟩
  · intro b hb
    by_cases hba : b = g.loc a
    · cases hf : g.forwarded a with
      | none =>
        rw [hba, Gc.loc_of_not_forwarded hf]
        exact .inl hsome
      | some b' =>
        rw [hba, Gc.loc_of_forwarded hf]
        exact .inr ⟨a, hf⟩
    · apply hi.inside
      change ((g.mem.put (g.loc a) _).get b).isSome = true at hb
      rwa [Store.get_put_of_ne _ _ hba] at hb
  · intro b hb hsp
    apply hi.havenBound _ hsp
    by_cases hba : b = g.loc a
    · -- The place that is written was in use.
      rw [hba]
      by_cases hy : a.space.isYoung = true
      · obtain ⟨b', hb'⟩ := isSome_iff_exists.mp (hp hy)
        rw [Gc.loc_of_forwarded hb']
        exact hi.copy_isSome ho hb'
      · rw [hi.loc_old (Bool.eq_false_iff.mpr hy)]
        exact hi.kept hsome
    · change ((g.mem.put (g.loc a) _).get b).isSome = true at hb
      rwa [Store.get_put_of_ne _ _ hba] at hb

/-- A listed object still has the references it had, or relocated ones. -/
theorem GcInv.raw_or_updated (hi : GcInv h g extra) (ho : InOrder h)
    (hseen : Seen h a) (hp : a.space.isYoung = true → (g.forwarded a).isSome = true) :
    Raw h g a ∨ Updated h g a := by
  by_cases hy : a.space.isYoung = true
  · have hv : Visited h g a := ho.visited_of_young hy (hp hy)
    rcases hi.due ⟨hseen, .inl hy, hp, .inr hv⟩ with hu | ⟨hr, -⟩
    · exact .inr hu
    · exact .inl hr
  · have hy := Bool.eq_false_iff.mpr hy
    obtain ⟨o, hoa⟩ := isSome_iff_exists.mp (ho.seen_isSome hseen)
    rcases hi.oldSpace hoa hy with hat | ⟨hu, -⟩
    · refine .inl ⟨o, o.age, hoa, ?_⟩
      rw [hi.loc_old hy]
      exact hat
    · exact .inr hu

variable {b : Addr}

section
variable (ho : InOrder h)
include ho

/-- Scanning an object takes it off the list. -/
theorem updateRefs_inv (hi : GcInv h g (b :: extra)) :
    GcInv h (updateRefs c g b) extra ∧ Extends g (updateRefs c g b) := by
  obtain ⟨a, hd, rfl⟩ := hi.listed (by simp : b ∈ g.todo ++ b :: extra)
  have hp := hd.placed
  rcases hi.raw_or_updated ho hd.seen hp with ⟨o, age, hoa, hat⟩ | ⟨o, age, hoa, hat, hv⟩
  · -- Every reference of a scanned object is seen, so it is relocated.
    have hrow := relocateSlots_relocated c ho o.fields hi
      fun f hf => .step hd.seen hd.scans ⟨o, hoa, hf⟩
    have hloc := hrow.grows.loc_eq hp
    have hinv := hrow.inv
    rw [← hloc] at hinv
    have hwrite := hinv.write age ho hoa (hd.grow hrow.grows.toExtends) hrow.visited
    have hres : updateRefs c g (g.loc a) = (relocateSlots c g o.fields).1.write
        ((relocateSlots c g o.fields).1.loc a)
        ((relocateSlots c g o.fields).1.relocated o age) := by
      simp only [updateRefs, hat, Gc.write, Gc.relocated, hloc]
      rw [← hrow.result]
    rw [hres]
    refine ⟨hwrite, ?_⟩
    exact ⟨hrow.grows.forwarded, hrow.grows.onlyYoung, hrow.grows.fresh, hrow.grows.traced⟩
  · -- A second scan finds everything relocated.
    have hagain := relocateSlots_again c hi ho o.fields hv
    have hwrite := hi.write age ho hoa hd hv
    have hres : updateRefs c g (g.loc a) = g.write (g.loc a) (g.relocated o age) := by
      simp only [updateRefs, hat, hagain, Gc.write, Gc.relocated]
    rw [hres]
    exact ⟨hwrite, fun hx => hx, fun _ => rfl, fun _ hx => hx, fun _ hx => hx⟩

/-- A root carrier that was not traced yet is noted and listed. -/
theorem traceRootCarrier_listed (hi : GcInv h g extra)
    (hroot : a ∈ h.rootSet) :
    GcInv h { g with tracedGraphs := insert a g.tracedGraphs } (a :: extra) ∧
      Extends g { g with tracedGraphs := insert a g.tracedGraphs } := by
  have hgr := ho.rootCarrier hroot
  obtain ⟨hfinds, hv⟩ := noted_finds hi ho hgr g.graphScan (a :: extra) fun b => by
    simp only [mem_cons]
    tauto
  have hy : a.space.isYoung = false := by simp [hgr, Space.isYoung]
  exact ⟨hi.finds ho (.root (.inl hroot)) (.inr (.inr (.inl hgr))) hy hv hfinds,
    hfinds.grows.toExtends⟩

/-- The root carriers, one after the other. -/
theorem traceRootCarrier_inv (hi : GcInv h g extra)
    (hroot : a ∈ h.rootSet) :
    GcInv h (traceRootCarrier c g a) extra ∧ Extends g (traceRootCarrier c g a) ∧
      Visited h (traceRootCarrier c g a) a := by
  have hgr := ho.rootCarrier hroot
  have hvisited : ∀ {g' : Gc δ}, a ∈ g'.tracedGraphs → Visited h g' a := fun htr =>
    ⟨by simp [hgr, Space.isYoung], fun hfr => absurd hgr (ho.fresh_not_graph hfr), fun _ => htr⟩
  simp only [traceRootCarrier]
  split
  next htr => exact ⟨hi, Extends.refl g, hvisited htr⟩
  next htr =>
    obtain ⟨hlist, hext⟩ := traceRootCarrier_listed ho hi hroot
    obtain ⟨hdone, hext'⟩ := updateRefs_inv c ho hlist
    refine ⟨hdone, hext.trans hext', hvisited (hext'.traced ?_)⟩
    exact Finset.mem_insert_self a _

theorem rootSet_inv (carriers : List Addr) (hi : GcInv h g extra)
    (hroots : ∀ a ∈ carriers, a ∈ h.rootSet) :
    GcInv h (carriers.foldl (traceRootCarrier c) g) extra ∧
      Extends g (carriers.foldl (traceRootCarrier c) g) ∧
      ∀ a ∈ carriers, Visited h (carriers.foldl (traceRootCarrier c) g) a := by
  induction carriers generalizing g with
  | nil => exact ⟨hi, Extends.refl g, by simp⟩
  | cons a rest ih =>
    obtain ⟨hone, hext, hv⟩ := traceRootCarrier_inv c ho hi (hroots a (.head _))
    obtain ⟨hinv, hext', hvs⟩ := ih hone fun x hx => hroots x (.tail _ hx)
    refine ⟨hinv, hext.trans hext', ?_⟩
    intro x hx
    rcases mem_cons.mp hx with rfl | hx
    · exact hv.grow hext'
    · exact hvs x hx

/-- The remembered owners, one after the other. -/
theorem remembered_inv (owners : List Addr)
    (hi : GcInv h g (owners ++ extra)) :
    GcInv h (owners.foldl (updateRefs c) g) extra ∧
      Extends g (owners.foldl (updateRefs c) g) := by
  induction owners generalizing g with
  | nil => exact ⟨hi, Extends.refl g⟩
  | cons a rest ih =>
    obtain ⟨hone, hext⟩ := updateRefs_inv c ho hi
    obtain ⟨hinv, hext'⟩ := ih hone
    exact ⟨hinv, hext.trans hext'⟩

end

/-! ## The Scan -/

/-- Moving entries between the lists changes nothing else. -/
theorem GcInv.relist {extra' : List Addr} {i : Nat} {graphs : List Addr} (hi : GcInv h g extra)
    (hidx : i ≤ g.relocationScan.length)
    (hmem : ∀ b, b ∈ ({ g with relocationScanIndex := i, graphScan := graphs } : Gc δ).todo ++
      extra' ↔ b ∈ g.todo ++ extra) :
    GcInv h { g with relocationScanIndex := i, graphScan := graphs } extra' := by
  have hgrow : Grows g { g with relocationScanIndex := i, graphScan := graphs } :=
    ⟨⟨fun hb => hb, fun _ => rfl, fun _ hb => hb, fun _ hb => hb⟩, fun hb => hb⟩
  refine
    { haven := hi.haven
      epoch := hi.epoch
      index := hidx
      freshSub := hi.freshSub
      copy := hi.copy
      copyInj := hi.copyInj
      fromSpace := hi.fromSpace
      oldSpace := ?_
      due := ?_
      listed := ?_
      copyListed := hi.copyListed
      freshListed := hi.freshListed
      scanned := hi.scanned
      traced := hi.traced
      inside := hi.inside
      havenBound := hi.havenBound }
  · intro x o hx hxy
    rcases hi.oldSpace hx hxy with hat | ⟨hu, hd⟩
    · exact .inl hat
    · exact .inr ⟨hu.grow hgrow (by simp [hxy]), hd.grow hgrow.toExtends⟩
  · intro x hd
    have hd' : Due h g x := hd.grow ⟨fun hb => hb, fun _ => rfl, fun _ hb => hb, fun _ hb => hb⟩
    rcases hi.due hd' with hu | ⟨hr, hl⟩
    · exact .inl (hu.grow hgrow hd'.placed)
    · exact .inr ⟨hr, (hmem _).mpr hl⟩
  · intro b hb
    obtain ⟨x, hd, hbx⟩ := hi.listed ((hmem b).mp hb)
    exact ⟨x, hd.grow hgrow.toExtends, hbx⟩

/-- The entry at the scan index is the first one to do. -/
theorem Gc.drop_index (hb : g.relocationScan[g.relocationScanIndex]? = some b) :
    g.relocationScanIndex < g.relocationScan.length ∧
      g.relocationScan.drop g.relocationScanIndex =
        b :: g.relocationScan.drop (g.relocationScanIndex + 1) := by
  obtain ⟨hlt, hget⟩ := List.getElem?_eq_some_iff.mp hb
  refine ⟨hlt, ?_⟩
  rw [drop_eq_getElem_cons hlt, hget]

theorem GcInv.popScan (hi : GcInv h g extra)
    (hb : g.relocationScan[g.relocationScanIndex]? = some b) :
    GcInv h { g with relocationScanIndex := g.relocationScanIndex + 1 } (b :: extra) := by
  obtain ⟨hlt, hdrop⟩ := Gc.drop_index hb
  apply hi.relist hlt
  intro x
  simp only [Gc.todo, hdrop, mem_append, mem_cons]
  tauto

theorem GcInv.popGraph {rest : List Addr} (hi : GcInv h g extra)
    (hb : g.graphScan = b :: rest) : GcInv h { g with graphScan := rest } (b :: extra) := by
  apply hi.relist hi.index
  intro x
  simp only [Gc.todo, hb, mem_append, mem_cons]
  tauto

theorem scanRelocatedObjects_inv (ho : InOrder h) (fuel : Nat) (hi : GcInv h g extra) :
    GcInv h (scanRelocatedObjects c fuel g) extra ∧
      Extends g (scanRelocatedObjects c fuel g) := by
  induction fuel generalizing g with
  | zero => exact ⟨hi, Extends.refl g⟩
  | succ fuel ih =>
    simp only [scanRelocatedObjects]
    split
    next b hb =>
      obtain ⟨hone, hext⟩ := updateRefs_inv c ho (hi.popScan hb)
      obtain ⟨hinv, hext'⟩ := ih hone
      exact ⟨hinv, Extends.trans ⟨hext.forwarded, hext.onlyYoung, hext.fresh, hext.traced⟩ hext'⟩
    next =>
      split
      next => exact ⟨hi, Extends.refl g⟩
      next b rest hb =>
        obtain ⟨hone, hext⟩ := updateRefs_inv c ho (hi.popGraph hb)
        obtain ⟨hinv, hext'⟩ := ih hone
        exact ⟨hinv, Extends.trans ⟨hext.forwarded, hext.onlyYoung, hext.fresh, hext.traced⟩ hext'⟩

/-! ## The Scan Ends -/

/-- The collector may still put the object on a list. -/
def Open (g : Gc δ) (a : Addr) : Prop :=
  (a.space.isYoung = true ∧ g.forwarded a = none) ∨ a ∈ g.fresh ∨
    (a.space = .graph ∧ a ∉ g.tracedGraphs)

instance (g : Gc δ) (a : Addr) : Decidable (Open g a) :=
  inferInstanceAs (Decidable (_ ∨ _ ∨ _))

/-- The objects not found yet and the entries still to be scanned. -/
def potential (h : Heap δ) (g : Gc δ) : Nat :=
  (h.mem.keys.filter (Open g)).card + g.todo.length

/-- The potential after entries were taken off the lists. -/
theorem potential_relist (i : Nat) (graphs : List Addr) :
    potential h { g with relocationScanIndex := i, graphScan := graphs } =
      (h.mem.keys.filter (Open g)).card + (g.relocationScan.drop i ++ graphs).length :=
  rfl

/-- An object that is put on a list was open before and is not any more. -/
theorem potential_le_of_found {g' : Gc δ} (ha : (h.mem.get a).isSome = true)
    (hopen : Open g a) (hclosed : ¬Open g' a) (hother : ∀ x, x ≠ a → Open g' x → Open g x)
    (htodo : g'.todo.length ≤ g.todo.length + 1) : potential h g' ≤ potential h g := by
  have hmem : a ∈ h.mem.keys.filter (Open g) := by
    rw [Finset.mem_filter, h.mem.mem_keys]
    exact ⟨ha, hopen⟩
  have hsub : h.mem.keys.filter (Open g') ⊆ (h.mem.keys.filter (Open g)).erase a := by
    intro x hx
    rw [Finset.mem_filter] at hx
    have hxa : x ≠ a := by
      rintro rfl
      exact hclosed hx.2
    rw [Finset.mem_erase, Finset.mem_filter]
    exact ⟨hxa, hx.1, hother x hxa hx.2⟩
  have hcard := Finset.card_le_card hsub
  have hpos := Finset.card_pos.mpr ⟨a, hmem⟩
  rw [Finset.card_erase_of_mem hmem] at hcard
  simp only [potential]
  omega

theorem forward_potential (hi : GcInv h g extra) (ho : InOrder h) (hseen : Seen h a)
    (hy : a.space.isYoung = true) : potential h (forward c g a).1 ≤ potential h g := by
  obtain ⟨o, hoa⟩ := isSome_iff_exists.mp (ho.seen_isSome hseen)
  have hat := hi.fromSpace hoa hy
  cases hf : g.forwarded a with
  | some b => simp [forward, hf]
  | none =>
    apply potential_le_of_found (ho.seen_isSome hseen) (.inl ⟨hy, hf⟩)
    · rintro (⟨-, hnone⟩ | hfr | ⟨hgr, -⟩)
      · simp [forward, hf, hat] at hnone
      · have hfr : a ∈ g.fresh := by simpa [forward, hf, hat] using hfr
        have := ho.fresh_not_young (hi.freshSub hfr)
        simp [hy] at this
      · simp [hgr, Space.isYoung] at hy
    · intro x hxa hopen
      simpa [Open, forward, hf, hat, hxa] using hopen
    · simp only [Gc.todo, forward, hf, hat, drop_append_of_le_length hi.index,
        length_append, length_singleton]
      omega

theorem relocateForMinor_potential (hi : GcInv h g extra) (ho : InOrder h)
    (hseen : Seen h a) : potential h (relocateForMinor c g a).1 ≤ potential h g := by
  have hsome := ho.seen_isSome hseen
  simp only [relocateForMinor]
  split
  next hgr =>
    split
    next htr =>
      apply potential_le_of_found hsome (.inr (.inr ⟨hgr, htr.2⟩))
      · rintro (⟨hy, -⟩ | hfr | ⟨-, hnot⟩)
        · simp [hgr, Space.isYoung] at hy
        · exact ho.fresh_not_graph (hi.freshSub hfr) hgr
        · exact hnot (Finset.mem_insert_self a _)
      · rintro x hxa (hx | hx | ⟨hxg, hnot⟩)
        · exact .inl hx
        · exact .inr (.inl hx)
        · exact .inr (.inr ⟨hxg, fun hin => hnot (Finset.mem_insert_of_mem hin)⟩)
      · simp only [Gc.todo, length_append, length_cons]
        omega
    next => exact le_rfl
  next hgr =>
    simp only [forwardYoungRef]
    split
    next => exact le_rfl
    next =>
      split
      next hy => exact forward_potential c hi ho hseen hy
      next hy =>
        split
        next hfr =>
          apply potential_le_of_found hsome (.inr (.inl hfr))
          · rintro (⟨hy', -⟩ | hin | ⟨hxg, -⟩)
            · exact hy hy'
            · exact Finset.notMem_erase a _ hin
            · exact hgr hxg
          · rintro x hxa (hx | hx | hx)
            · exact .inl hx
            · exact .inr (.inl (Finset.mem_of_mem_erase hx))
            · exact .inr (.inr hx)
          · simp only [Gc.todo, drop_append_of_le_length hi.index, length_append,
              length_singleton]
            omega
        next => exact le_rfl

theorem relocateSlots_potential (ho : InOrder h) (row : List (Option Addr))
    (hi : GcInv h g extra) (hseen : ∀ a, some a ∈ row → Seen h a) :
    potential h (relocateSlots c g row).1 ≤ potential h g := by
  induction row generalizing g with
  | nil => exact le_rfl
  | cons x rest ih =>
    have hrest : ∀ a, some a ∈ rest → Seen h a := fun a ha => hseen a (.tail _ ha)
    cases x with
    | none => exact ih hi hrest
    | some a =>
      have hs := hseen a (.head _)
      have hone := relocateForMinor_relocated c hi ho hs
      exact (ih hone.inv hrest).trans (relocateForMinor_potential c hi ho hs)

theorem updateRefs_potential (ho : InOrder h) (hi : GcInv h g (b :: extra)) :
    potential h (updateRefs c g b) ≤ potential h g := by
  obtain ⟨a, hd, rfl⟩ := hi.listed (by simp : b ∈ g.todo ++ b :: extra)
  have hp := hd.placed
  rcases hi.raw_or_updated ho hd.seen hp with ⟨o, age, hoa, hat⟩ | ⟨o, age, hoa, hat, hv⟩
  · have := relocateSlots_potential c ho o.fields hi fun f hf => .step hd.seen hd.scans ⟨o, hoa, hf⟩
    simp only [updateRefs, hat]
    exact this
  · have hagain := relocateSlots_again c hi ho o.fields hv
    simp only [updateRefs, hat, hagain]
    exact le_rfl

theorem scanRelocatedObjects_done (ho : InOrder h) (fuel : Nat) (hi : GcInv h g extra)
    (hfuel : potential h g ≤ fuel) : (scanRelocatedObjects c fuel g).todo = [] := by
  induction fuel generalizing g with
  | zero =>
    simp only [potential, Nat.le_zero, Nat.add_eq_zero_iff] at hfuel
    exact eq_nil_of_length_eq_zero hfuel.2
  | succ fuel ih =>
    simp only [scanRelocatedObjects]
    split
    next b hb =>
      have hpop := hi.popScan hb
      have hpot := updateRefs_potential c ho hpop
      refine ih (updateRefs_inv c ho hpop).1 (hpot.trans ?_)
      have hlen := congrArg List.length (Gc.drop_index hb).2
      simp only [potential, Gc.todo, length_append, length_cons] at hfuel hlen
      rw [potential_relist, length_append]
      omega
    next hnone =>
      split
      next hnil =>
        have hdrop : g.relocationScan.drop g.relocationScanIndex = [] :=
          drop_eq_nil_of_le (List.getElem?_eq_none_iff.mp hnone)
        simp [Gc.todo, hdrop, hnil]
      next b rest hb =>
        have hpop := hi.popGraph hb
        have hpot := updateRefs_potential c ho hpop
        refine ih (updateRefs_inv c ho hpop).1 (hpot.trans ?_)
        simp only [potential, Gc.todo, length_append, hb, length_cons] at hfuel
        rw [potential_relist, length_append]
        omega

/-- Noting more and listing nothing cannot raise the potential. -/
theorem potential_le_of_extends {g' : Gc δ} (hext : Extends g g') (htodo : g'.todo = g.todo) :
    potential h g' ≤ potential h g := by
  have hsub : h.mem.keys.filter (Open g') ⊆ h.mem.keys.filter (Open g) := by
    intro x hx
    rw [Finset.mem_filter] at hx ⊢
    refine ⟨hx.1, ?_⟩
    rcases hx.2 with ⟨hy, hnone⟩ | hfr | ⟨hgr, hnot⟩
    · refine .inl ⟨hy, ?_⟩
      cases hf : g.forwarded x with
      | none => rfl
      | some b =>
        rw [hext.forwarded hf] at hnone
        cases hnone
    · exact .inr (.inl (hext.fresh hfr))
    · exact .inr (.inr ⟨hgr, fun hin => hnot (hext.traced hin)⟩)
  have := Finset.card_le_card hsub
  simp only [potential, htodo]
  omega

theorem rootSet_potential (ho : InOrder h) (carriers : List Addr) (hi : GcInv h g extra)
    (hroots : ∀ a ∈ carriers, a ∈ h.rootSet) :
    potential h (carriers.foldl (traceRootCarrier c) g) ≤ potential h g := by
  induction carriers generalizing g with
  | nil => exact le_rfl
  | cons a rest ih =>
    have hroot := hroots a (.head _)
    obtain ⟨hone, -, -⟩ := traceRootCarrier_inv c ho hi hroot
    refine (ih hone fun x hx => hroots x (.tail _ hx)).trans ?_
    simp only [traceRootCarrier]
    split
    · exact le_rfl
    · obtain ⟨hlist, hext⟩ := traceRootCarrier_listed ho hi hroot
      exact (updateRefs_potential c ho hlist).trans (potential_le_of_extends hext rfl)

theorem remembered_potential (ho : InOrder h) (owners : List Addr)
    (hi : GcInv h g (owners ++ extra)) :
    potential h (owners.foldl (updateRefs c) g) ≤ potential h g := by
  induction owners generalizing g with
  | nil => exact le_rfl
  | cons a rest ih =>
    obtain ⟨hone, -⟩ := updateRefs_inv c ho hi
    exact (ih hone).trans (updateRefs_potential c ho hi)

end Camel.Heap
