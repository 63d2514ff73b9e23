import Camel.Heap.Mutator

/-! # Runs of Programs and Collections

    A run interleaves steps of the program with minor and major collections. The
    heap stays in order, and each collection does what it should, as long as every
    collection sees the objects that refer to young ones. For a carrier that only
    an old function refers to that is not so: nothing remembers the function, and
    the young constants of its graph are lost at the second collection.
-/

namespace Camel.Heap

open Lib List

variable {δ : Type} (c : Config)

/-! ## What a Collection Has to Do -/

/-- A minor collection keeps the graph under new names and leaves the heap in order
    with nothing fresh; the finalizable objects it did not copy are finalized, none
    of which was reached. -/
structure MinorSound (h : Heap δ) : Prop where
  graph : SameGraph h (minorGC c h).heap (minorGC c h).loc
  inOrder : InOrder (minorGC c h).heap
  fresh : (minorGC c h).heap.fresh = ∅
  finalized : ∀ a, a ∈ (minorGC c h).finalized ↔
    a ∈ h.finalizables ∧ (minorGC c h).moved a = none
  unreached : ∀ a ∈ (minorGC c h).finalized, ¬Reach h a

/-- A major collection does so too, and of what its minor collection left it frees
    exactly the old objects that are not reached. -/
structure MajorSound (h : Heap δ) : Prop where
  graph : SameGraph h (majorGC c h).heap (majorGC c h).loc
  inOrder : InOrder (majorGC c h).heap
  fresh : (majorGC c h).heap.fresh = ∅
  freed : ∀ a, ((minorGC c h).heap.mem.get a).isSome = true →
    ((majorGC c h).heap.mem.get a = none ↔
      a.space.isOld = true ∧ ¬Reach (minorGC c h).heap a)
  unreached : ∀ a, a.space.isOld = true → (majorGC c h).heap.mem.get a = none → ¬Reach h a

variable {h h₀ h' : Heap δ}

theorem minorSound_iff (ho : InOrder h) : MinorSound c h ↔ ReferrersSeen h := by
  constructor
  · intro hm
    exact referrersSeen_of_sameGraph c ho hm.graph
  · intro hs
    exact
      { graph := minorGC_sameGraph c ho hs
        inOrder := minorGC_inOrder c ho hs
        fresh := rfl
        finalized := fun _ => mem_finalized_iff c
        unreached := fun _ ha => not_reach_of_finalized c ho hs ha }

theorem majorSound_iff (ho : InOrder h) : MajorSound c h ↔ ReferrersSeen h := by
  constructor
  · intro hm
    exact referrersSeen_of_major c ho hm.graph
  · intro hs
    exact
      { graph := majorGC_sameGraph c ho hs
        inOrder := majorGC_inOrder c ho hs
        fresh := rfl
        freed := fun _ ha => swept_get_eq_none_iff ha
        unreached := fun _ hold hgone => not_reach_of_freed c ho hs hold hgone }

/-! ## Runs -/

/-- The heaps a run from `h₀` gets to, where each collection starts in a heap that
    satisfies `P`. -/
inductive Run (P : Heap δ → Prop) (h₀ : Heap δ) : Heap δ → Prop where
  | start : Run P h₀ h₀
  | mutate {h h' : Heap δ} : Run P h₀ h → Mutates c h h' → Run P h₀ h'
  | minor {h : Heap δ} : Run P h₀ h → P h → Run P h₀ (minorGC c h).heap
  | major {h : Heap δ} : Run P h₀ h → P h → Run P h₀ (majorGC c h).heap

variable {c}

/-- A run keeps the heap in order. -/
theorem Run.inOrder (hr : Run c ReferrersSeen h₀ h) (ho : InOrder h₀) : InOrder h := by
  induction hr with
  | start => exact ho
  | mutate _ hm ih => exact hm.inOrder ih
  | minor _ hs ih => exact minorGC_inOrder c ih hs
  | major _ hs ih => exact majorGC_inOrder c ih hs

/-- The heap before anything is allocated. -/
def Heap.empty : Heap δ where
  mem := Store.empty
  rootSet := []
  slots := []
  remembered := []
  fresh := ∅
  haven := false
  birthTop := 0
  havenTop := 0
  epoch := 0
  finalizables := []

theorem inOrder_empty : InOrder (Heap.empty : Heap δ) := by
  have hreach : ∀ {a}, ¬Reach (Heap.empty : Heap δ) a := by
    intro a ha
    induction ha with
    | root hroot => rcases hroot with hr | hr <;> simp [Heap.empty] at hr
    | step _ _ ih => exact ih
  have hseen : ∀ {a}, ¬Seen (Heap.empty : Heap δ) a := by
    intro a ha
    induction ha with
    | root hroot => exact hreach (.root hroot)
    | owner hr => simp [Heap.empty] at hr
    | step _ _ _ ih => exact ih
  have hmem : ∀ {a}, ((Heap.empty : Heap δ).mem.get a).isSome = false := rfl
  exact
    { valid := fun ha => absurd ha (by simp [hreach, hseen])
      remembers := fun a _ _ ⟨b, _, _, hb⟩ => by simp [hmem] at hb
      oldFields := fun _ ⟨o, ho, _⟩ => by simp [Heap.empty] at ho
      rememberedOld := fun ha => by simp [Heap.empty] at ha
      freshOld := fun ha => by simp [Heap.empty] at ha
      rootCarrier := fun ha => by simp [Heap.empty] at ha
      cacheEmpty := fun ha => by simp [hmem] at ha
      birthBound := fun ha => by simp [hmem] at ha
      havenBound := fun ha => by simp [hmem] at ha
      finalizableYoung := fun ha => by simp [Heap.empty] at ha }

/-- In every run whose collections see the objects that refer to young ones, the
    heap is in order throughout, and a minor or major collection started anywhere
    does what it should exactly when it sees them. -/
theorem run_collections (hr : Run c ReferrersSeen h₀ h) (ho : InOrder h₀) :
    InOrder h ∧ (MinorSound c h ↔ ReferrersSeen h) ∧ (MajorSound c h ↔ ReferrersSeen h) := by
  have hh := hr.inOrder ho
  exact ⟨hh, minorSound_iff c hh, majorSound_iff c hh⟩

/-! ## A Function That Is Born Old -/

/-- A birth space that one small object fills. -/
def tight : Config where
  birthSize := 16
  havenSize := 64
  promotionAgeThreshold := 2
  largeObjThreshold := 64
  placement := .behind

def constant : Obj String := ⟨"constant", 8, 0, []⟩

def constantAt : Addr := ⟨.birth, 0, 0⟩

def graphAt : Addr := ⟨.graph, 0, 1⟩

def functionAt : Addr := ⟨.elder, 0, 1⟩

def survivorAt : Addr := ⟨.semi true, 1, 0⟩

def constantMade : Heap String :=
  { (alloc tight Heap.empty constant).1 with
    slots := some (alloc tight Heap.empty constant).2 :: (Heap.empty : Heap String).slots }

def graph : Obj String := ⟨"graph", 8, 0, [some constantAt]⟩

/-- A graph made while the program runs, with the constant in its static area. -/
def graphMade : Heap String :=
  { (allocGraph tight constantMade graph).1 with
    slots := some (allocGraph tight constantMade graph).2 :: constantMade.slots }

def function : Obj String := ⟨"function", 8, 0, [some graphAt]⟩

/-- A function of that graph, which finds the birth space full. -/
def functionMade : Heap String :=
  { (alloc tight graphMade function).1 with
    slots := some (alloc tight graphMade function).2 :: graphMade.slots }

/-- The program holds on to the function only. -/
def functionHeld : Heap String := { functionMade with slots := [some functionAt] }

/-- The heap after a first minor collection: the constant is in the haven. -/
def functionKept : Heap String := (minorGC tight functionHeld).heap

theorem functionHeld_run : Run tight ReferrersSeen Heap.empty functionHeld := by
  have h₁ : Run tight ReferrersSeen Heap.empty constantMade := by
    apply Run.mutate .start
    exact .alloc constant fun a ha => by simp [constant] at ha
  have h₂ : Run tight ReferrersSeen Heap.empty graphMade := by
    apply Run.mutate h₁
    apply Mutates.graph graph
    intro a ha
    exact ha
  have h₃ : Run tight ReferrersSeen Heap.empty functionMade := by
    apply Run.mutate h₂
    apply Mutates.alloc function
    intro a ha
    have hslots : graphMade.slots = [some graphAt, some constantAt] := rfl
    rw [hslots]
    exact mem_cons.mpr (.inl (mem_singleton.mp ha))
  apply Run.mutate h₃
  apply Mutates.frames
  intro a ha
  have hslots : functionMade.slots = some functionAt :: graphMade.slots := rfl
  rw [hslots, mem_singleton.mp ha]
  exact mem_cons_self

theorem functionHeld_get (a : Addr) : functionHeld.mem.get a =
    if a = functionAt then some function else if a = graphAt then some graph
      else if a = constantAt then some constant else none := rfl

/-- The first collection sees the graph: the function is fresh. -/
theorem functionHeld_seen : ReferrersSeen functionHeld := by
  have hfun : Seen functionHeld functionAt := .root (.inr mem_cons_self)
  have hgraph : Seen functionHeld graphAt :=
    .step hfun (.inr (.inl (Finset.mem_insert_self functionAt ∅))) ⟨function, rfl, mem_cons_self⟩
  rintro a b - ⟨o, hoa, hb⟩ hy
  rw [functionHeld_get] at hoa
  split_ifs at hoa with h₁ h₂ h₃
  · cases hoa
    rw [Option.some.inj (mem_singleton.mp hb)] at hy
    cases hy
  · rw [h₂]
    exact hgraph
  · cases hoa
    simp [constant] at hb

/-- The first collection of the function is as it should be. -/
theorem run_collections_functionHeld :
    InOrder functionHeld ∧ MinorSound tight functionHeld ∧ MajorSound tight functionHeld := by
  obtain ⟨ho, hminor, hmajor⟩ := run_collections functionHeld_run inOrder_empty
  exact ⟨ho, hminor.mpr functionHeld_seen, hmajor.mpr functionHeld_seen⟩

theorem functionKept_reach (h : Heap String) (hslots : h.slots = [some functionAt])
    (hfun : (h.mem.get functionAt).map Obj.fields = some [some graphAt]) : Reach h graphAt := by
  obtain ⟨o, ho, hfields⟩ := Option.map_eq_some_iff.mp hfun
  have hroot : Reach h functionAt := .root (.inr (by simp [hslots]))
  exact .step hroot ⟨o, ho, by simp [hfields]⟩

/-- The second one loses the constant of the graph: the function is old and not
    remembered, so its graph is not traced and keeps a reference into the space that
    was emptied. -/
theorem minorGC_loses_constant :
    Run tight ReferrersSeen Heap.empty functionKept ∧ InOrder functionKept ∧
      Refers functionKept graphAt survivorAt ∧
      Reach (minorGC tight functionKept).heap survivorAt ∧
      (minorGC tight functionKept).heap.mem.get survivorAt = none ∧
      ¬∃ φ, SameGraph functionKept (minorGC tight functionKept).heap φ := by
  have hrun : Run tight ReferrersSeen Heap.empty functionKept :=
    .minor functionHeld_run functionHeld_seen
  have hgraph : Reach (minorGC tight functionKept).heap graphAt := functionKept_reach _ rfl rfl
  have hlost : Reach (minorGC tight functionKept).heap survivorAt :=
    .step hgraph ⟨⟨"graph", 8, 0, [some survivorAt]⟩, rfl, mem_cons_self⟩
  have hgone : (minorGC tight functionKept).heap.mem.get survivorAt = none := rfl
  refine ⟨hrun, hrun.inOrder inOrder_empty, ?_, hlost, hgone, ?_⟩
  · exact ⟨⟨"graph", 8, 0, [some survivorAt]⟩, rfl, mem_cons_self⟩
  · rintro ⟨φ, hg⟩
    obtain ⟨a, ha, hφ⟩ := hg.reach_iff.mp hlost
    obtain ⟨o, age, -, hat⟩ := hg.object ha
    rw [hφ, hgone] at hat
    cases hat

end Camel.Heap
