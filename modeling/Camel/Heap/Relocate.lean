import Camel.Heap.Model

/-! # The Invariant of a Minor Collection

    `loc` is where an object is at a point of the collection. An object that is
    due (copied, found among the fresh, a traced carrier or a remembered owner)
    is either updated, with every reference relocated and its target visited,
    or it still has the references it had and is on a list of what is to be
    scanned. The invariant says so for all of them, and one relocation, one row
    of slots and one object after another keep it.
-/

namespace Camel.Heap

open Lib List Option

variable {δ : Type}

/-! ## Where an Object Is -/

/-- Where the object that was at `a` is now. -/
def Gc.loc (g : Gc δ) (a : Addr) : Addr := (g.forwarded a).getD a

/-- What is still to be scanned. -/
def Gc.todo (g : Gc δ) : List Addr := g.relocationScan.drop g.relocationScanIndex ++ g.graphScan

variable {a b : Addr}

theorem Gc.loc_of_forwarded {g : Gc δ} (h : g.forwarded a = some b) :
    g.loc a = b := by
  simp [Gc.loc, h]

theorem Gc.loc_of_not_forwarded {g : Gc δ} (h : g.forwarded a = none) :
    g.loc a = a := by
  simp [Gc.loc, h]

/-- The collector has been at the object, or has no business there. -/
structure Visited (h : Heap δ) (g : Gc δ) (a : Addr) : Prop where
  young : a.space.isYoung = true → (g.forwarded a).isSome = true
  fresh : a ∈ h.fresh → a ∉ g.fresh
  graph : a.space = .graph → a ∈ g.tracedGraphs

/-- The object has the references it had before the collection. -/
def Raw (h : Heap δ) (g : Gc δ) (a : Addr) : Prop :=
  ∃ o age, h.mem.get a = some o ∧ g.mem.get (g.loc a) = some { o with age := age }

/-- The references of the object are relocated and what they refer to is visited. -/
def Updated (h : Heap δ) (g : Gc δ) (a : Addr) : Prop :=
  ∃ o age, h.mem.get a = some o ∧
    g.mem.get (g.loc a) = some { o with age := age, fields := o.fields.map (Option.map g.loc) } ∧
    ∀ f, some f ∈ o.fields → Visited h g f

/-- The object is the collector's to update. -/
structure Due (h : Heap δ) (g : Gc δ) (a : Addr) : Prop where
  seen : Seen h a
  scans : Scans h a
  placed : a.space.isYoung = true → (g.forwarded a).isSome = true
  found : a ∈ h.remembered ∨ Visited h g a

structure GcInv (h : Heap δ) (g : Gc δ) (extra : List Addr) : Prop where
  haven : g.haven = !h.haven
  epoch : g.epoch = h.epoch + 1
  index : g.relocationScanIndex ≤ g.relocationScan.length
  freshSub : g.fresh ⊆ h.fresh
  copy : ∀ {a b}, g.forwarded a = some b → a.space.isYoung = true ∧ Seen h a ∧
    h.mem.get b = none ∧ ((b.space = .semi g.haven ∧ b.epoch = g.epoch) ∨ b.space = .elder)
  copyInj : ∀ {a a' b}, g.forwarded a = some b → g.forwarded a' = some b → a = a'
  fromSpace : ∀ {a o}, h.mem.get a = some o → a.space.isYoung = true → g.mem.get a = some o
  oldSpace : ∀ {a o}, h.mem.get a = some o → a.space.isYoung = false →
    g.mem.get a = some o ∨ (Updated h g a ∧ Due h g a)
  due : ∀ {a}, Due h g a → Updated h g a ∨ (Raw h g a ∧ g.loc a ∈ g.todo ++ extra)
  listed : ∀ {b}, b ∈ g.todo ++ extra → ∃ a, Due h g a ∧ b = g.loc a
  copyListed : ∀ {a b}, g.forwarded a = some b → b ∈ g.relocationScan
  freshListed : ∀ {a}, a ∈ h.fresh → a ∉ g.fresh → a ∈ g.relocationScan
  scanned : ∀ {b}, b ∈ g.relocationScan →
    (∃ a, g.forwarded a = some b) ∨ (b ∈ h.fresh ∧ b ∉ g.fresh ∧ Seen h b)
  traced : ∀ {a}, a ∈ g.tracedGraphs → a.space = .graph ∧ Seen h a
  inside : ∀ {b}, (g.mem.get b).isSome = true →
    (h.mem.get b).isSome = true ∨ ∃ a, g.forwarded a = some b
  havenBound : ∀ {b}, (g.mem.get b).isSome = true → b.space = .semi g.haven →
    b.off < g.havenTop

/-! ## A Collection Only Grows -/

/-- Nothing that was found is lost again. -/
structure Extends (g g' : Gc δ) : Prop where
  forwarded : ∀ {a b}, g.forwarded a = some b → g'.forwarded a = some b
  onlyYoung : ∀ {a}, a.space.isYoung = false → g'.forwarded a = g.forwarded a
  fresh : g'.fresh ⊆ g.fresh
  traced : g.tracedGraphs ⊆ g'.tracedGraphs

theorem Extends.refl (g : Gc δ) : Extends g g :=
  ⟨fun h => h, fun _ => rfl, fun _ h => h, fun _ h => h⟩

theorem Extends.trans {g₁ g₂ g₃ : Gc δ} (h₁ : Extends g₁ g₂) (h₂ : Extends g₂ g₃) :
    Extends g₁ g₃ :=
  ⟨fun h => h₂.forwarded (h₁.forwarded h), fun h => (h₂.onlyYoung h).trans (h₁.onlyYoung h),
    fun _ h => h₁.fresh (h₂.fresh h), fun _ h => h₂.traced (h₁.traced h)⟩

/-- What a relocation may do to the collector's state: no object is written over. -/
structure Grows (g g' : Gc δ) : Prop extends Extends g g' where
  mem : ∀ {b o}, g.mem.get b = some o → g'.mem.get b = some o

theorem Grows.refl (g : Gc δ) : Grows g g := ⟨Extends.refl g, fun h => h⟩

theorem Grows.trans {g₁ g₂ g₃ : Gc δ} (h₁ : Grows g₁ g₂) (h₂ : Grows g₂ g₃) : Grows g₁ g₃ :=
  ⟨h₁.toExtends.trans h₂.toExtends, fun h => h₂.mem (h₁.mem h)⟩

variable {h : Heap δ} {g g' : Gc δ}

theorem Extends.isSome (hg : Extends g g') (ha : (g.forwarded a).isSome = true) :
    (g'.forwarded a).isSome = true := by
  obtain ⟨b, hb⟩ := isSome_iff_exists.mp ha
  rw [hg.forwarded hb]
  rfl

theorem Visited.grow (hv : Visited h g a) (hg : Extends g g') : Visited h g' a :=
  ⟨fun hy => hg.isSome (hv.young hy), fun hf hin => hv.fresh hf (hg.fresh hin),
    fun hgr => hg.traced (hv.graph hgr)⟩

/-- An object that has its place keeps it. -/
theorem Extends.loc_eq (hg : Extends g g')
    (hp : a.space.isYoung = true → (g.forwarded a).isSome = true) : g'.loc a = g.loc a := by
  by_cases hy : a.space.isYoung = true
  · obtain ⟨b, hb⟩ := isSome_iff_exists.mp (hp hy)
    rw [Gc.loc_of_forwarded hb, Gc.loc_of_forwarded (hg.forwarded hb)]
  · simp only [Gc.loc, hg.onlyYoung (Bool.eq_false_iff.mpr hy)]

theorem Raw.grow (hr : Raw h g a) (hg : Grows g g')
    (hp : a.space.isYoung = true → (g.forwarded a).isSome = true) : Raw h g' a := by
  obtain ⟨o, age, ho, hat⟩ := hr
  refine ⟨o, age, ho, ?_⟩
  rw [hg.loc_eq hp]
  exact hg.mem hat

/-- Where relocated slots point does not change. -/
theorem Extends.map_loc (hg : Extends g g') {fields : List (Option Addr)}
    (hv : ∀ f, some f ∈ fields → Visited h g f) :
    fields.map (Option.map g'.loc) = fields.map (Option.map g.loc) := by
  apply map_congr_left
  intro x hx
  cases x with
  | none => rfl
  | some f => exact congrArg some (hg.loc_eq (hv f hx).young)

theorem Updated.grow (hu : Updated h g a) (hg : Grows g g')
    (hp : a.space.isYoung = true → (g.forwarded a).isSome = true) : Updated h g' a := by
  obtain ⟨o, age, ho, hat, hv⟩ := hu
  refine ⟨o, age, ho, ?_, fun f hf => (hv f hf).grow hg.toExtends⟩
  rw [hg.loc_eq hp, hg.map_loc hv]
  exact hg.mem hat

theorem Due.grow (hd : Due h g a) (hg : Extends g g') : Due h g' a := by
  refine ⟨hd.seen, hd.scans, fun hy => hg.isSome (hd.placed hy), ?_⟩
  rcases hd.found with hr | hv
  · exact .inl hr
  · exact .inr (hv.grow hg)

/-! ## Reading the Invariant -/

section Read

variable {extra : List Addr}

section
variable (hi : GcInv h g extra)
include hi

/-- A copied object is at its copy. -/
theorem GcInv.copy_isSome (ho : InOrder h) {a b : Addr}
    (hf : g.forwarded a = some b) : (g.mem.get b).isSome = true := by
  obtain ⟨hy, hseen, -⟩ := hi.copy hf
  have hsome : (g.forwarded a).isSome = true := by rw [hf]; rfl
  have hv : Visited h g a := by
    refine ⟨fun _ => hsome, fun hfr => ?_, fun hgr => ?_⟩
    · have := (ho.freshOld hfr).1
      cases hsp : a.space <;> simp [hsp, Space.isOld, Space.isYoung] at this hy
    · simp [hgr, Space.isYoung] at hy
  rcases hi.due ⟨hseen, .inl hy, fun _ => hsome, .inr hv⟩ with ⟨o, age, -, hat, -⟩ | ⟨⟨o, age, -, hat⟩, -⟩
  all_goals
    rw [Gc.loc_of_forwarded hf] at hat
    rw [hat]
    rfl

/-- Two objects are at two places. -/
theorem GcInv.loc_inj {a a' : Addr}
    (ha : (h.mem.get a).isSome = true) (ha' : (h.mem.get a').isSome = true)
    (heq : g.loc a = g.loc a') : a = a' := by
  cases hf : g.forwarded a with
  | none =>
    rw [Gc.loc_of_not_forwarded hf] at heq
    cases hf' : g.forwarded a' with
    | none => rwa [Gc.loc_of_not_forwarded hf'] at heq
    | some b =>
      rw [Gc.loc_of_forwarded hf'] at heq
      rw [heq, (hi.copy hf').2.2.1] at ha
      cases ha
  | some b =>
    rw [Gc.loc_of_forwarded hf] at heq
    cases hf' : g.forwarded a' with
    | none =>
      rw [Gc.loc_of_not_forwarded hf'] at heq
      rw [← heq, (hi.copy hf).2.2.1] at ha'
      cases ha'
    | some b' =>
      rw [Gc.loc_of_forwarded hf'] at heq
      rw [heq] at hf
      exact hi.copyInj hf hf'

/-- An old object keeps its place. -/
theorem GcInv.loc_old {a : Addr} (hy : a.space.isYoung = false) :
    g.loc a = a := by
  cases hf : g.forwarded a with
  | none => exact Gc.loc_of_not_forwarded hf
  | some b =>
    have := (hi.copy hf).1
    simp [hy] at this

/-- Every object of the heap is still there during the collection. -/
theorem GcInv.kept {a : Addr} (ha : (h.mem.get a).isSome = true) :
    (g.mem.get a).isSome = true := by
  obtain ⟨o, ho⟩ := isSome_iff_exists.mp ha
  by_cases hy : a.space.isYoung = true
  · rw [hi.fromSpace ho hy]
    rfl
  · have hy := Bool.eq_false_iff.mpr hy
    rcases hi.oldSpace ho hy with hat | ⟨⟨o', age, -, hat, -⟩, -⟩
    · rw [hat]
      rfl
    · rw [hi.loc_old hy] at hat
      rw [hat]
      rfl

/-- An object before the collection is neither in the new haven nor a copy. -/
theorem GcInv.not_haven (ho : InOrder h) {a : Addr}
    (ha : (h.mem.get a).isSome = true) : a.space ≠ .semi g.haven := by
  rw [hi.haven]
  exact ho.cacheEmpty ha

end

end Read

/-- Old objects are not young. -/
theorem Space.isYoung_of_isOld {sp : Space} (h : sp.isOld = true) : sp.isYoung = false := by
  cases sp <;> simp_all [Space.isOld, Space.isYoung]

/-- A fresh object is not young. -/
theorem InOrder.fresh_not_young (ho : InOrder h) (ha : a ∈ h.fresh) :
    a.space.isYoung = false :=
  Space.isYoung_of_isOld (ho.freshOld ha).1

/-- A fresh object is no carrier. -/
theorem InOrder.fresh_not_graph (ho : InOrder h) (ha : a ∈ h.fresh) :
    a.space ≠ .graph := by
  intro hg
  have := (ho.freshOld ha).1
  simp [hg, Space.isOld] at this

/-- A young object is visited when it is copied. -/
theorem InOrder.visited_of_young (ho : InOrder h) (hy : a.space.isYoung = true)
    (hsome : (g.forwarded a).isSome = true) : Visited h g a := by
  refine ⟨fun _ => hsome, fun hfr => ?_, fun hgr => ?_⟩
  · have := ho.fresh_not_young hfr
    simp [hy] at this
  · simp [hgr, Space.isYoung] at hy

theorem InOrder.seen_isSome (ho : InOrder h) (ha : Seen h a) :
    (h.mem.get a).isSome = true :=
  ho.valid (.inr ha)

/-! ## One Reference -/

/-- What changes when an object that does not move is put on a list: nothing but
    the lists and the sets that say it was found. -/
structure Finds (h : Heap δ) (g g' : Gc δ) (extra extra' : List Addr) (a : Addr) : Prop where
  mem : g'.mem = g.mem
  forwarded : g'.forwarded = g.forwarded
  haven : g'.haven = g.haven
  epoch : g'.epoch = g.epoch
  havenTop : g'.havenTop = g.havenTop
  fresh : g'.fresh ⊆ g.fresh
  traced : g.tracedGraphs ⊆ g'.tracedGraphs
  tracedNew : ∀ {x}, x ∈ g'.tracedGraphs → x ∈ g.tracedGraphs ∨ (x = a ∧ a.space = .graph)
  others : ∀ {x}, x ≠ a → Visited h g' x → Visited h g x
  listed : a ∈ g'.todo ++ extra'
  kept : ∀ {b}, b ∈ g.todo ++ extra → b ∈ g'.todo ++ extra'
  added : ∀ {b}, b ∈ g'.todo ++ extra' → b ∈ g.todo ++ extra ∨ b = a
  index : g'.relocationScanIndex ≤ g'.relocationScan.length
  scanSub : ∀ {b}, b ∈ g.relocationScan → b ∈ g'.relocationScan
  scanNew : ∀ {b}, b ∈ g'.relocationScan → b ∈ g.relocationScan ∨
    (b = a ∧ a ∈ h.fresh ∧ a ∉ g'.fresh)
  freshOut : ∀ {x}, x ∈ h.fresh → x ∉ g'.fresh → x ∉ g.fresh ∨ (x = a ∧ a ∈ g'.relocationScan)

variable {extra : List Addr}

theorem Finds.grows {extra' : List Addr} (hf : Finds h g g' extra extra' a) :
    Grows g g' :=
  ⟨⟨fun hb => by rw [hf.forwarded]; exact hb, fun _ => by rw [hf.forwarded], hf.fresh, hf.traced⟩,
    fun hb => by rw [hf.mem]; exact hb⟩

theorem GcInv.finds {extra' : List Addr} (hi : GcInv h g extra)
    (ho : InOrder h) (hseen : Seen h a) (hscans : Scans h a) (hy : a.space.isYoung = false)
    (hv : Visited h g' a) (hf : Finds h g g' extra extra' a) : GcInv h g' extra' := by
  have hgrow := hf.grows
  have hloc : ∀ x, g'.loc x = g.loc x := fun x => by simp only [Gc.loc, hf.forwarded]
  have hplaced : ∀ {x : Addr}, (x.space.isYoung = true → (g'.forwarded x).isSome = true) →
      x.space.isYoung = true → (g.forwarded x).isSome = true := by
    intro x hx
    rw [hf.forwarded] at hx
    exact hx
  refine
    { haven := hf.haven.trans hi.haven
      epoch := hf.epoch.trans hi.epoch
      index := hf.index
      freshSub := fun x hx => hi.freshSub (hf.fresh hx)
      copy := ?_
      copyInj := ?_
      fromSpace := ?_
      oldSpace := ?_
      due := ?_
      listed := ?_
      copyListed := ?_
      freshListed := ?_
      scanned := ?_
      traced := ?_
      inside := ?_
      havenBound := ?_ }
  · intro x b hb
    rw [hf.forwarded] at hb
    rw [hf.haven, hf.epoch]
    exact hi.copy hb
  · intro x x' b hb hb'
    rw [hf.forwarded] at hb hb'
    exact hi.copyInj hb hb'
  · intro x o hx hxy
    rw [hf.mem]
    exact hi.fromSpace hx hxy
  · intro x o hx hxy
    rw [hf.mem]
    rcases hi.oldSpace hx hxy with hat | ⟨hu, hd⟩
    · exact .inl hat
    · exact .inr ⟨hu.grow hgrow (by simp [hxy]), hd.grow hgrow.toExtends⟩
  · intro x hdue
    by_cases hxa : x = a
    · subst hxa
      obtain ⟨o, hox⟩ := isSome_iff_exists.mp (ho.seen_isSome hseen)
      rcases hi.oldSpace hox hy with hat | ⟨hu, -⟩
      · refine .inr ⟨⟨o, o.age, hox, ?_⟩, ?_⟩
        · rw [hloc, hi.loc_old hy, hf.mem]
          exact hat
        · rw [hloc, hi.loc_old hy]
          exact hf.listed
      · exact .inl (hu.grow hgrow (by simp [hy]))
    · have hdue' : Due h g x := by
        refine ⟨hdue.seen, hdue.scans, hplaced hdue.placed, ?_⟩
        rcases hdue.found with hr | hv
        · exact .inl hr
        · exact .inr (hf.others hxa hv)
      rcases hi.due hdue' with hu | ⟨hr, hl⟩
      · exact .inl (hu.grow hgrow (hplaced hdue.placed))
      · refine .inr ⟨hr.grow hgrow (hplaced hdue.placed), ?_⟩
        rw [hloc]
        exact hf.kept hl
  · intro b hb
    rcases hf.added hb with hb | rfl
    · obtain ⟨x, hd, rfl⟩ := hi.listed hb
      exact ⟨x, hd.grow hgrow.toExtends, (hloc x).symm⟩
    · refine ⟨b, ⟨hseen, hscans, by simp [hy], .inr hv⟩, ?_⟩
      rw [hloc, hi.loc_old hy]
  · intro x b hb
    rw [hf.forwarded] at hb
    exact hf.scanSub (hi.copyListed hb)
  · intro x hx hout
    rcases hf.freshOut hx hout with hout | ⟨rfl, hin⟩
    · exact hf.scanSub (hi.freshListed hx hout)
    · exact hin
  · intro b hb
    rcases hf.scanNew hb with hb | ⟨rfl, hfr, hout⟩
    · rcases hi.scanned hb with ⟨x, hx⟩ | ⟨hfr, hout, hs⟩
      · exact .inl ⟨x, by rw [hf.forwarded]; exact hx⟩
      · exact .inr ⟨hfr, fun hin => hout (hf.fresh hin), hs⟩
    · exact .inr ⟨hfr, hout, hseen⟩
  · intro x hx
    rcases hf.tracedNew hx with hx | ⟨rfl, hgr⟩
    · exact hi.traced hx
    · exact ⟨hgr, hseen⟩
  · intro b hb
    rw [hf.mem] at hb
    rw [hf.forwarded]
    exact hi.inside hb
  · intro b hb hsp
    rw [hf.mem] at hb
    rw [hf.haven] at hsp
    rw [hf.havenTop]
    exact hi.havenBound hb hsp

/-- A young object is copied to `b`. -/
def Gc.copyTo (g : Gc δ) (a b : Addr) (o : Obj δ) (top : Nat) : Gc δ :=
  { g with
    mem := g.mem.put b o
    forwarded := fun x => if x = a then some b else g.forwarded x
    relocationScan := g.relocationScan ++ [b]
    havenTop := top }

theorem Gc.copyTo_grows {o : Obj δ} {top : Nat} (hy : a.space.isYoung = true)
    (hnone : g.forwarded a = none) (hfree : g.mem.get b = none) :
    Grows g (g.copyTo a b o top) := by
  refine ⟨⟨?_, ?_, fun _ hx => hx, fun _ hx => hx⟩, ?_⟩
  · intro x y hx
    have hne : x ≠ a := by
      rintro rfl
      rw [hnone] at hx
      cases hx
    simpa [Gc.copyTo, hne] using hx
  · intro x hx
    have hne : x ≠ a := by
      rintro rfl
      simp [hy] at hx
    simp [Gc.copyTo, hne]
  · intro x ox hx
    have hne : x ≠ b := by
      rintro rfl
      rw [hfree] at hx
      cases hx
    simp only [Gc.copyTo, Store.get_put_of_ne _ _ hne]
    exact hx

theorem GcInv.copyTo {o : Obj δ} {age top : Nat}
    (hi : GcInv h g extra) (ho : InOrder h) (hseen : Seen h a) (hy : a.space.isYoung = true)
    (hnone : g.forwarded a = none) (hoa : h.mem.get a = some o) (hfree : g.mem.get b = none)
    (hsp : (b.space = .semi g.haven ∧ b.epoch = g.epoch ∧ b.off < top) ∨ b.space = .elder)
    (htop : g.havenTop ≤ top) :
    GcInv h (g.copyTo a b { o with age := age } top) extra := by
  have hgrow : Grows g (g.copyTo a b { o with age := age } top) :=
    Gc.copyTo_grows hy hnone hfree
  have hfwd : (g.copyTo a b { o with age := age } top).forwarded a = some b := by
    simp [Gc.copyTo]
  have hfwd_ne : ∀ {x : Addr}, x ≠ a →
      (g.copyTo a b { o with age := age } top).forwarded x = g.forwarded x := by
    intro x hx
    simp [Gc.copyTo, hx]
  have htodo : ∀ {x : Addr}, x ∈ (g.copyTo a b { o with age := age } top).todo ++ extra ↔
      x ∈ g.todo ++ extra ∨ x = b := by
    intro x
    simp only [Gc.todo, Gc.copyTo, drop_append_of_le_length hi.index, mem_append,
      mem_singleton]
    tauto
  have hbnone : h.mem.get b = none := by
    cases hb : h.mem.get b with
    | none => rfl
    | some ob =>
      have := hi.kept (by rw [hb]; rfl)
      rw [hfree] at this
      cases this
  refine
    { haven := hi.haven
      epoch := hi.epoch
      index := ?_
      freshSub := hi.freshSub
      copy := ?_
      copyInj := ?_
      fromSpace := fun hx hxy => hgrow.mem (hi.fromSpace hx hxy)
      oldSpace := ?_
      due := ?_
      listed := ?_
      copyListed := ?_
      freshListed := fun hx hout => mem_append_left _ (hi.freshListed hx hout)
      scanned := ?_
      traced := hi.traced
      inside := ?_
      havenBound := ?_ }
  · show g.relocationScanIndex ≤ (g.relocationScan ++ [b]).length
    have := hi.index
    simp only [length_append]
    omega
  · intro x y hx
    by_cases hxa : x = a
    · subst hxa
      rw [hfwd] at hx
      cases hx
      refine ⟨hy, hseen, hbnone, ?_⟩
      rcases hsp with ⟨h1, h2, -⟩ | h1
      · exact .inl ⟨h1, h2⟩
      · exact .inr h1
    · rw [hfwd_ne hxa] at hx
      exact hi.copy hx
  · intro x x' y hx hx'
    -- A copy that was made before is not at `b`, where nothing was.
    have hold : ∀ {z : Addr}, g.forwarded z = some b → False := by
      intro z hz
      have := hi.copy_isSome ho hz
      rw [hfree] at this
      cases this
    by_cases hxa : x = a
    · by_cases hxa' : x' = a
      · rw [hxa, hxa']
      · subst hxa
        rw [hfwd] at hx
        cases hx
        rw [hfwd_ne hxa'] at hx'
        exact absurd hx' hold
    · rw [hfwd_ne hxa] at hx
      by_cases hxa' : x' = a
      · subst hxa'
        rw [hfwd] at hx'
        cases hx'
        exact absurd hx hold
      · rw [hfwd_ne hxa'] at hx'
        exact hi.copyInj hx hx'
  · intro x ox hx hxy
    rcases hi.oldSpace hx hxy with hat | ⟨hu, hd⟩
    · exact .inl (hgrow.mem hat)
    · exact .inr ⟨hu.grow hgrow (by simp [hxy]), hd.grow hgrow.toExtends⟩
  · intro x hdue
    by_cases hxa : x = a
    · subst hxa
      refine .inr ⟨⟨o, age, hoa, ?_⟩, ?_⟩
      · rw [Gc.loc_of_forwarded hfwd]
        simp [Gc.copyTo]
      · rw [Gc.loc_of_forwarded hfwd]
        exact htodo.mpr (.inr rfl)
    · have hplaced : x.space.isYoung = true → (g.forwarded x).isSome = true := by
        intro hxy
        have := hdue.placed hxy
        rwa [hfwd_ne hxa] at this
      have hdue' : Due h g x := by
        refine ⟨hdue.seen, hdue.scans, hplaced, ?_⟩
        rcases hdue.found with hr | hv
        · exact .inl hr
        · exact .inr ⟨hplaced, hv.fresh, hv.graph⟩
      rcases hi.due hdue' with hu | ⟨hr, hl⟩
      · exact .inl (hu.grow hgrow hplaced)
      · refine .inr ⟨hr.grow hgrow hplaced, ?_⟩
        rw [hgrow.loc_eq hplaced]
        exact htodo.mpr (.inl hl)
  · intro x hx
    rcases htodo.mp hx with hx | rfl
    · obtain ⟨z, hd, rfl⟩ := hi.listed hx
      exact ⟨z, hd.grow hgrow.toExtends, (hgrow.loc_eq hd.placed).symm⟩
    · have hsome : ((g.copyTo a x { o with age := age } top).forwarded a).isSome = true := by
        rw [hfwd]
        rfl
      exact ⟨a, ⟨hseen, .inl hy, fun _ => hsome, .inr (ho.visited_of_young hy hsome)⟩,
        (Gc.loc_of_forwarded hfwd).symm⟩
  · intro x y hx
    by_cases hxa : x = a
    · subst hxa
      rw [hfwd] at hx
      cases hx
      exact mem_append_right _ (mem_singleton.mpr rfl)
    · rw [hfwd_ne hxa] at hx
      exact mem_append_left _ (hi.copyListed hx)
  · intro x hx
    rcases mem_append.mp hx with hx | hx
    · rcases hi.scanned hx with ⟨z, hz⟩ | hfr
      · exact .inl ⟨z, hgrow.forwarded hz⟩
      · exact .inr hfr
    · rw [mem_singleton] at hx
      subst hx
      exact .inl ⟨a, hfwd⟩
  · intro x hx
    by_cases hxb : x = b
    · subst hxb
      exact .inr ⟨a, hfwd⟩
    · simp only [Gc.copyTo, Store.get_put_of_ne _ _ hxb] at hx
      rcases hi.inside hx with hx | ⟨z, hz⟩
      · exact .inl hx
      · exact .inr ⟨z, hgrow.forwarded hz⟩
  · intro x hx hxsp
    show x.off < top
    by_cases hxb : x = b
    · subst hxb
      rcases hsp with ⟨-, -, h3⟩ | h1
      · exact h3
      · rw [h1] at hxsp
        cases hxsp
    · simp only [Gc.copyTo, Store.get_put_of_ne _ _ hxb] at hx
      exact lt_of_lt_of_le (hi.havenBound hx hxsp) htop

/-- What a relocation comes to: the invariant goes on, the reference is the new
    place of the object, and the object is visited. -/
structure Relocated (h : Heap δ) (g g' : Gc δ) (extra : List Addr) (a b : Addr) : Prop where
  inv : GcInv h g' extra
  grows : Grows g g'
  result : b = g'.loc a
  visited : Visited h g' a

section Step

variable {extra : List Addr} (c : Config)

theorem forward_relocated {a : Addr} (hi : GcInv h g extra) (ho : InOrder h) (hseen : Seen h a)
    (hy : a.space.isYoung = true) :
    Relocated h g (forward c g a).1 extra a (forward c g a).2 := by
  have hvisited : ∀ {g' : Gc δ}, (g'.forwarded a).isSome = true → Visited h g' a :=
    fun hsome => ho.visited_of_young hy hsome
  cases hf : g.forwarded a with
  | some b =>
    have hr : forward c g a = (g, b) := by simp [forward, hf]
    rw [hr]
    exact ⟨hi, Grows.refl g, (Gc.loc_of_forwarded hf).symm, hvisited (by rw [hf]; rfl)⟩
  | none =>
    obtain ⟨o, hoa⟩ := isSome_iff_exists.mp (ho.seen_isSome hseen)
    have hat := hi.fromSpace hoa hy
    by_cases hcond : c.promotionAgeThreshold ≤ min 15 (o.age + 1) ∨
        ¬g.havenTop + blockBytes o.size ≤ c.havenSize
    · have hr : forward c g a = (g.copyTo a (placeIn c g.mem .elder)
          { o with age := min 15 (o.age + 1) } g.havenTop, placeIn c g.mem .elder) := by
        simp only [forward, hf, hat, if_pos hcond, Gc.copyTo]
      have hfree := get_placeIn c g.mem .elder
      rw [hr]
      refine ⟨hi.copyTo ho hseen hy hf hoa hfree (.inr rfl) le_rfl,
        Gc.copyTo_grows hy hf hfree, ?_, hvisited (by simp [Gc.copyTo])⟩
      exact (Gc.loc_of_forwarded (by simp [Gc.copyTo])).symm
    · have hr : forward c g a = (g.copyTo a ⟨.semi g.haven, g.epoch, g.havenTop⟩
          { o with age := min 15 (o.age + 1) } (g.havenTop + blockBytes o.size),
          ⟨.semi g.haven, g.epoch, g.havenTop⟩) := by
        simp only [forward, hf, hat, if_neg hcond, Gc.copyTo]
      -- The haven holds nothing at its top.
      have hfree : g.mem.get ⟨.semi g.haven, g.epoch, g.havenTop⟩ = none := by
        cases hg : g.mem.get ⟨.semi g.haven, g.epoch, g.havenTop⟩ with
        | none => rfl
        | some ob =>
          have := hi.havenBound (by rw [hg]; rfl) rfl
          exact absurd this (lt_irrefl _)
      have hpos := blockBytes_pos o.size
      rw [hr]
      refine ⟨hi.copyTo ho hseen hy hf hoa hfree (.inl ⟨rfl, rfl, ?_⟩) (by omega),
        Gc.copyTo_grows hy hf hfree, ?_, hvisited (by simp [Gc.copyTo])⟩
      · show g.havenTop < g.havenTop + blockBytes o.size
        omega
      · exact (Gc.loc_of_forwarded (by simp [Gc.copyTo])).symm

/-- A graph that was not traced yet is noted, and stands on one list more. -/
theorem noted_finds {a : Addr} (hi : GcInv h g extra) (ho : InOrder h) (hgr : a.space = .graph)
    (scan extra' : List Addr)
    (hscan : ∀ b, b ∈ scan ∨ b ∈ extra' ↔ b = a ∨ b ∈ g.graphScan ∨ b ∈ extra) :
    Finds h g { g with tracedGraphs := insert a g.tracedGraphs, graphScan := scan } extra extra' a ∧
      Visited h { g with tracedGraphs := insert a g.tracedGraphs, graphScan := scan } a := by
  refine ⟨
    { mem := rfl
      forwarded := rfl
      haven := rfl
      epoch := rfl
      havenTop := rfl
      fresh := fun _ hx => hx
      traced := fun _ hx => Finset.mem_insert_of_mem hx
      tracedNew := ?_
      others := ?_
      listed := ?_
      kept := ?_
      added := ?_
      index := hi.index
      scanSub := fun hb => hb
      scanNew := fun hb => .inl hb
      freshOut := fun _ hout => .inl hout }, ?_⟩
  · intro x hx
    rcases Finset.mem_insert.mp hx with rfl | hx
    · exact .inr ⟨rfl, hgr⟩
    · exact .inl hx
  · intro x hxa hv
    refine ⟨hv.young, hv.fresh, fun hxg => ?_⟩
    rcases Finset.mem_insert.mp (hv.graph hxg) with hx | hx
    · exact absurd hx hxa
    · exact hx
  · have := (hscan a).mpr (.inl rfl)
    simp only [Gc.todo, mem_append]
    tauto
  · intro b hb
    have := hscan b
    simp only [Gc.todo, mem_append] at hb ⊢
    tauto
  · intro b hb
    have := hscan b
    simp only [Gc.todo, mem_append] at hb ⊢
    tauto
  · exact ⟨by simp [hgr, Space.isYoung], fun hfr => absurd hgr (ho.fresh_not_graph hfr),
      fun _ => Finset.mem_insert_self a _⟩

theorem relocateForMinor_relocated {a : Addr} (hi : GcInv h g extra) (ho : InOrder h)
    (hseen : Seen h a) :
    Relocated h g (relocateForMinor c g a).1 extra a (relocateForMinor c g a).2 := by
  have hsome := ho.seen_isSome hseen
  by_cases hgr : a.space = .graph
  · have hy : a.space.isYoung = false := by simp [hgr, Space.isYoung]
    have hnofresh : a ∉ h.fresh := fun hfr => ho.fresh_not_graph hfr hgr
    by_cases htr : a ∈ g.tracedGraphs
    · have hr : relocateForMinor c g a = (g, a) := by simp [relocateForMinor, hgr, htr]
      rw [hr]
      refine ⟨hi, Grows.refl g, (hi.loc_old hy).symm, ?_⟩
      exact ⟨by simp [hy], fun hfr => absurd hfr hnofresh, fun _ => htr⟩
    · have hr : relocateForMinor c g a =
          ({ g with
              tracedGraphs := insert a g.tracedGraphs
              graphScan := a :: g.graphScan }, a) := by
        simp [relocateForMinor, hgr, htr, hi.kept hsome]
      rw [hr]
      obtain ⟨hfinds, hv⟩ := noted_finds hi ho hgr (a :: g.graphScan) extra fun b => by
        simp only [mem_cons]
        tauto
      have hinv := hi.finds ho hseen (.inr (.inr (.inl hgr))) hy hv hfinds
      exact ⟨hinv, hfinds.grows, (hinv.loc_old hy).symm, hv⟩
  · by_cases hy : a.space.isYoung = true
    · have hr : relocateForMinor c g a = forward c g a := by
        simp [relocateForMinor, hgr, forwardYoungRef, hi.not_haven ho hsome, hy]
      rw [hr]
      exact forward_relocated c hi ho hseen hy
    · have hy := Bool.eq_false_iff.mpr hy
      by_cases hfr : a ∈ g.fresh
      · have hr : relocateForMinor c g a =
            ({ g with
                fresh := g.fresh.erase a
                relocationScan := g.relocationScan ++ [a] }, a) := by
          simp [relocateForMinor, hgr, forwardYoungRef, hi.not_haven ho hsome, hy, hfr]
        rw [hr]
        have hfinds : Finds h g { g with
                fresh := g.fresh.erase a
                relocationScan := g.relocationScan ++ [a] } extra extra a := by
          have hdrop : (g.relocationScan ++ [a]).drop g.relocationScanIndex =
              g.relocationScan.drop g.relocationScanIndex ++ [a] :=
            drop_append_of_le_length hi.index
          refine
            { mem := rfl
              forwarded := rfl
              haven := rfl
              epoch := rfl
              havenTop := rfl
              fresh := fun _ hx => Finset.mem_of_mem_erase hx
              traced := fun _ hx => hx
              tracedNew := fun hx => .inl hx
              others := ?_
              listed := by simp [Gc.todo, hdrop]
              kept := ?_
              added := ?_
              index := ?_
              scanSub := fun hb => mem_append_left _ hb
              scanNew := ?_
              freshOut := ?_ }
          · intro x hxa hv
            refine ⟨hv.young, fun hx hin => ?_, hv.graph⟩
            exact hv.fresh hx (Finset.mem_erase.mpr ⟨hxa, hin⟩)
          · intro b hb
            simp only [Gc.todo, hdrop, mem_append, mem_singleton] at hb ⊢
            tauto
          · intro b hb
            simp only [Gc.todo, hdrop, mem_append, mem_singleton] at hb ⊢
            tauto
          · show g.relocationScanIndex ≤ (g.relocationScan ++ [a]).length
            have := hi.index
            simp only [length_append]
            omega
          · intro b hb
            rcases mem_append.mp hb with hb | hb
            · exact .inl hb
            · refine .inr ⟨mem_singleton.mp hb, hi.freshSub hfr, ?_⟩
              exact Finset.notMem_erase a _
          · intro x hx hout
            by_cases hxa : x = a
            · exact .inr ⟨hxa, mem_append_right _ (mem_singleton.mpr rfl)⟩
            · exact .inl fun hin => hout (Finset.mem_erase.mpr ⟨hxa, hin⟩)
        have hv : Visited h { g with
                fresh := g.fresh.erase a
                relocationScan := g.relocationScan ++ [a] } a :=
          ⟨by simp [hy], fun _ => Finset.notMem_erase a _, fun hx => absurd hx hgr⟩
        have hinv := hi.finds ho hseen (.inr (.inl (hi.freshSub hfr))) hy hv hfinds
        exact ⟨hinv, hfinds.grows, (hinv.loc_old hy).symm, hv⟩
      · have hr : relocateForMinor c g a = (g, a) := by
          simp [relocateForMinor, hgr, forwardYoungRef, hi.not_haven ho hsome, hy, hfr]
        rw [hr]
        refine ⟨hi, Grows.refl g, (hi.loc_old hy).symm, ?_⟩
        exact ⟨by simp [hy], fun _ => hfr, fun hx => absurd hx hgr⟩

end Step

end Camel.Heap
