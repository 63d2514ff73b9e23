import Camel.Lib.Store
import Mathlib

/-! # The Generational Heap

    The moving collector keeps small new objects in a birth space, copies the
    survivors of a minor collection between two semispaces (haven and cache) and
    promotes them to the elder space; large objects and those that find the
    birth space full are born old. Graph carriers live in a space of their own
    and never move.

    An address names its space. The addresses of the young spaces also carry the
    number of the collection after which they were handed out: a space that was
    emptied hands the same bytes out again, and an address into what it held
    before is then not the address of an object.
-/

namespace Camel.Heap

open Lib

/-! ## Objects -/

inductive Space where
  | birth
  | semi (second : Bool)
  | elder
  | large
  | graph
  deriving DecidableEq

structure Addr where
  space : Space
  epoch : Nat
  off : Nat
  deriving DecidableEq

/-- The birth space and the two semispaces. -/
def Space.isYoung : Space → Bool
  | .birth => true
  | .semi _ => true
  | _ => false

/-- The elder and the large-object space. -/
def Space.isOld : Space → Bool
  | .elder => true
  | .large => true
  | _ => false

/-- What an object holds: its own data, its size in bytes, the age in its header
    and the references its layout traces. -/
structure Obj (δ : Type) where
  data : δ
  size : Nat
  age : Nat
  fields : List (Option Addr)

variable {δ : Type}

/-- The settings of the allocator. -/
structure Config where
  birthSize : Nat
  havenSize : Nat
  promotionAgeThreshold : Nat
  largeObjThreshold : Nat
  /-- The block the elder, the large-object and the graph space hand out. -/
  placement : Placement

/-- The state of the allocator between two operations. The root sets hold graph
    carriers; the slots are those of the root handles and of the frames. -/
structure Heap (δ : Type) where
  mem : Store Addr (Obj δ)
  rootSet : List Addr
  slots : List (Option Addr)
  remembered : List Addr
  fresh : Finset Addr
  haven : Bool
  birthTop : Nat
  havenTop : Nat
  epoch : Nat
  finalizables : List Addr

/-- The bytes of an object with its header, as a bump allocator rounds them. -/
def blockBytes (size : Nat) : Nat := (8 + size + 7) / 8 * 8

theorem blockBytes_pos (size : Nat) : 0 < blockBytes size := by
  simp only [blockBytes]
  omega

/-- The offsets a space has handed out. -/
def usedIn (mem : Store Addr (Obj δ)) (sp : Space) : Finset Nat :=
  (mem.keys.filter fun a => a.space = sp).image Addr.off

variable (c : Config) (h : Heap δ)

/-- The address of a new block in a space that is not emptied by collections. -/
def placeIn (mem : Store Addr (Obj δ)) (sp : Space) : Addr :=
  ⟨sp, 0, c.placement.pick (usedIn mem sp)⟩

theorem get_placeIn (mem : Store Addr (Obj δ)) (sp : Space) :
    mem.get (placeIn c mem sp) = none := by
  apply Store.get_eq_none_of_notMem
  intro h
  apply c.placement.pick_notMem (usedIn mem sp)
  simp only [usedIn, Finset.mem_image, Finset.mem_filter]
  exact ⟨placeIn c mem sp, ⟨h, rfl⟩, rfl⟩

/-! ## Allocation and the Write Barrier -/

/-- A new object in a space where it is born old: it is fresh until the next
    minor collection. -/
def bornOld (sp : Space) (o : Obj δ) : Heap δ × Addr :=
  let a := placeIn c h.mem sp
  ({ h with mem := h.mem.put a o, fresh := insert a h.fresh }, a)

def allocLarge (o : Obj δ) : Heap δ × Addr := bornOld c h .large o

def allocElder (o : Obj δ) : Heap δ × Addr := bornOld c h .elder o

def alloc (o : Obj δ) : Heap δ × Addr :=
  if c.largeObjThreshold < o.size then allocLarge c h o
  else if h.birthTop + blockBytes o.size ≤ c.birthSize then
    let a : Addr := ⟨.birth, h.epoch, h.birthTop⟩
    ({ h with mem := h.mem.put a o, birthTop := h.birthTop + blockBytes o.size }, a)
  else allocElder c h o

/-- A graph carrier made while the program runs. -/
def allocGraph (o : Obj δ) : Heap δ × Addr :=
  let a := placeIn c h.mem .graph
  ({ h with mem := h.mem.put a o }, a)

/-- The object is young or was born old since the last minor collection. -/
def youngOrFresh (a : Addr) : Bool := a.space.isYoung || decide (a ∈ h.fresh)

/-- What a store of `stored` into `owner` leaves in the remembered set. -/
def writeBarrier (owner : Addr) (stored : Option Addr) : Heap δ :=
  match stored with
  | none => h
  | some s =>
    if owner.space.isYoung then h
    else if !s.space.isYoung && h.fresh = ∅ then h
    else if !youngOrFresh h s then h
    else if !owner.space.isOld then h
    else { h with remembered := owner :: h.remembered.filter (· ≠ owner) }

/-- A store with its barrier. -/
def storeField (owner : Addr) (i : Nat) (v : Option Addr) : Heap δ :=
  match h.mem.get owner with
  | none => h
  | some o =>
    writeBarrier { h with mem := h.mem.put owner { o with fields := o.fields.set i v } } owner v

def noteFinalizable (a : Addr) : Heap δ :=
  if a.space.isYoung then { h with finalizables := h.finalizables ++ [a] } else h

/-! ## Minor Collection -/

/-- The collector's state during a minor collection. `forwarded` is the forwarding
    pointer in the header of an object that was copied. -/
structure Gc (δ : Type) where
  mem : Store Addr (Obj δ)
  forwarded : Addr → Option Addr
  relocationScan : List Addr
  relocationScanIndex : Nat
  graphScan : List Addr
  tracedGraphs : Finset Addr
  fresh : Finset Addr
  haven : Bool
  havenTop : Nat
  epoch : Nat

/-- Copies a young object: into the haven, or into the elder space when it is old
    enough or the haven is full. -/
def forward (g : Gc δ) (a : Addr) : Gc δ × Addr :=
  match g.forwarded a with
  | some b => (g, b)
  | none =>
    match g.mem.get a with
    -- no object starts here: the header check fails
    | none => (g, a)
    | some o =>
      let age := min 15 (o.age + 1)
      let fits := g.havenTop + blockBytes o.size ≤ c.havenSize
      let b : Addr := if c.promotionAgeThreshold ≤ age ∨ ¬fits then placeIn c g.mem .elder
        else ⟨.semi g.haven, g.epoch, g.havenTop⟩
      ({ g with
          mem := g.mem.put b { o with age := age }
          forwarded := fun x => if x = a then some b else g.forwarded x
          relocationScan := g.relocationScan ++ [b]
          havenTop := if c.promotionAgeThreshold ≤ age ∨ ¬fits then g.havenTop
            else g.havenTop + blockBytes o.size }, b)

def forwardYoungRef (g : Gc δ) (a : Addr) : Gc δ × Addr :=
  -- what the To space holds was copied there by this collection
  if a.space = .semi g.haven then (g, a)
  else if a.space.isYoung then forward c g a
  else if a ∈ g.fresh then
    ({ g with fresh := g.fresh.erase a, relocationScan := g.relocationScan ++ [a] }, a)
  else (g, a)

def relocateForMinor (g : Gc δ) (a : Addr) : Gc δ × Addr :=
  if a.space = .graph then
    if (g.mem.get a).isSome ∧ a ∉ g.tracedGraphs then
      ({ g with tracedGraphs := insert a g.tracedGraphs, graphScan := a :: g.graphScan }, a)
    else (g, a)
  else forwardYoungRef c g a

/-- Relocates a row of slots, one after the other. -/
def relocateSlots (c : Config) (g : Gc δ) : List (Option Addr) → Gc δ × List (Option Addr)
  | [] => (g, [])
  | none :: rest =>
    let r := relocateSlots c g rest
    (r.1, none :: r.2)
  | some a :: rest =>
    let r := relocateForMinor c g a
    let rs := relocateSlots c r.1 rest
    (rs.1, some r.2 :: rs.2)

/-- Relocates what an object refers to. -/
def updateRefs (g : Gc δ) (owner : Addr) : Gc δ :=
  match g.mem.get owner with
  | none => g
  | some o =>
    let r := relocateSlots c g o.fields
    { r.1 with mem := r.1.mem.put owner { o with fields := r.2 } }

/-- A graph carrier of a root set is traced where it is found. -/
def traceRootCarrier (g : Gc δ) (a : Addr) : Gc δ :=
  if a ∈ g.tracedGraphs then g
  else updateRefs c { g with tracedGraphs := insert a g.tracedGraphs } a

/-- Scans what was copied, what was born old and the carriers found on the way. -/
def scanRelocatedObjects (c : Config) : Nat → Gc δ → Gc δ
  | 0, g => g
  | fuel + 1, g =>
    match g.relocationScan[g.relocationScanIndex]? with
    | some b =>
      scanRelocatedObjects c fuel
        (updateRefs c { g with relocationScanIndex := g.relocationScanIndex + 1 } b)
    | none =>
      match g.graphScan with
      | [] => g
      | b :: rest => scanRelocatedObjects c fuel (updateRefs c { g with graphScan := rest } b)

def hasYoungRefs (mem : Store Addr (Obj δ)) (a : Addr) : Bool :=
  match mem.get a with
  | none => false
  | some o => o.fields.any fun
    | some f => f.space.isYoung
    | none => false

/-- The collector's state before anything is relocated: haven and cache are
    swapped, and the new haven is empty. -/
def beginMinor : Gc δ where
  mem := h.mem
  forwarded _ := none
  relocationScan := []
  relocationScanIndex := 0
  graphScan := []
  tracedGraphs := ∅
  fresh := h.fresh
  haven := !h.haven
  havenTop := 0
  epoch := h.epoch + 1

/-- What a minor collection does to the objects: the collector's final state and
    the relocated slots. -/
def relocateAll : Gc δ × List (Option Addr) :=
  let g₁ := h.rootSet.foldl (traceRootCarrier c) (beginMinor h)
  let r := relocateSlots c g₁ h.slots
  let g₃ := h.remembered.foldl (updateRefs c) r.1
  (scanRelocatedObjects c h.mem.keys.card g₃, r.2)

/-- The owners that still refer to a young object, and the promoted and born-old
    objects that do. -/
def rememberedAfter (g : Gc δ) : List Addr :=
  ((h.remembered ++ g.relocationScan.filter fun a => a.space.isOld).filter
    (hasYoungRefs g.mem)).dedup

/-- What a collection hands back: the heap, where each object was copied to, and
    the objects it finalized. -/
structure Collected (δ : Type) where
  heap : Heap δ
  moved : Addr → Option Addr
  finalized : List Addr

def minorGC : Collected δ :=
  let r := relocateAll c h
  let g := r.1
  { heap :=
      { mem := g.mem.keep fun a => decide (a.space ≠ .birth ∧ a.space ≠ .semi h.haven)
        rootSet := h.rootSet
        slots := r.2
        remembered := rememberedAfter h g
        fresh := ∅
        haven := g.haven
        birthTop := 0
        havenTop := g.havenTop
        epoch := g.epoch
        finalizables := (h.finalizables.filterMap g.forwarded).filter fun a => a.space.isYoung }
    moved := g.forwarded
    finalized := h.finalizables.filter fun a => (g.forwarded a).isNone }

/-! ## Major Collection -/

/-- The mark loop: what is on the stack and unmarked is marked, and what it
    refers to goes on the stack. -/
def markFrom (mem : Store Addr (Obj δ)) : Nat → List Addr → Finset Addr → Finset Addr
  | 0, _, marked => marked
  | _ + 1, [], marked => marked
  | fuel + 1, a :: stack, marked =>
    if a ∈ marked then markFrom mem fuel stack marked
    else
      match mem.get a with
      | none => markFrom mem fuel stack (insert a marked)
      | some o => markFrom mem fuel ((o.fields.filterMap id).reverse ++ stack) (insert a marked)

/-- Everything the roots name. -/
def rootAddrs : List Addr := h.rootSet ++ h.slots.filterMap id

/-- The turns the mark loop can take: one for each root and each reference. -/
def markBound : Nat :=
  (rootAddrs h).length + h.mem.keys.sum fun a => ((h.mem.get a).map fun o => o.fields.length).getD 0

def markPhase : Finset Addr := markFrom h.mem (markBound h) (rootAddrs h) ∅

/-- The elder and large objects without a mark. -/
def unmarkedOld (marked : Finset Addr) : Finset Addr :=
  h.mem.keys.filter fun a => a.space.isOld = true ∧ a ∉ marked

/-- They are freed, and forgotten where they were remembered. -/
def sweep (marked : Finset Addr) : Heap δ :=
  { h with
    mem := h.mem.keep fun a => decide (a ∉ unmarkedOld h marked)
    remembered := h.remembered.filter fun a => decide (a ∉ unmarkedOld h marked) }

/-- A major collection moves the young objects first and then marks and sweeps. -/
def majorGC : Collected δ :=
  let r := minorGC c h
  { r with heap := sweep r.heap (markPhase r.heap) }

end Camel.Heap

/-! # What the Roots Reach and What a Minor Collection Sees

    `Reach` follows every reference from the roots. `Seen` follows only the
    references a minor collection follows: those of the roots, of the remembered
    owners, and of the young, fresh and carrier objects it gets to. A heap is in
    order when everything reached or seen is an object and every old object that
    refers to a young or fresh one is remembered.
-/

namespace Camel.Heap

open Lib

variable {δ : Type}

/-! ## Two Ways to Reach an Object -/

/-- The object at `a` refers to `b`. -/
def Refers (h : Heap δ) (a b : Addr) : Prop :=
  ∃ o, h.mem.get a = some o ∧ some b ∈ o.fields

/-- `a` is named by a root. -/
def IsRoot (h : Heap δ) (a : Addr) : Prop := a ∈ h.rootSet ∨ some a ∈ h.slots

inductive Reach (h : Heap δ) : Addr → Prop where
  | root {a : Addr} : IsRoot h a → Reach h a
  | step {a b : Addr} : Reach h a → Refers h a b → Reach h b

/-- A minor collection scans the object when it gets to it. -/
def Scans (h : Heap δ) (a : Addr) : Prop :=
  a.space.isYoung = true ∨ a ∈ h.fresh ∨ a.space = .graph ∨ a ∈ h.remembered

inductive Seen (h : Heap δ) : Addr → Prop where
  | root {a : Addr} : IsRoot h a → Seen h a
  | owner {a : Addr} : a ∈ h.remembered → Seen h a
  | step {a b : Addr} : Seen h a → Scans h a → Refers h a b → Seen h b

/-! ## Heaps in Order -/

/-- The object refers to one that is young or fresh. -/
def RefersYoung (h : Heap δ) (a : Addr) : Prop :=
  ∃ b, Refers h a b ∧ youngOrFresh h b = true

/-- Each old object that is not fresh and refers to a young or fresh object is
    remembered. -/
def Remembers (h : Heap δ) : Prop :=
  ∀ a, a.space.isOld = true → a ∉ h.fresh → (∃ b, Refers h a b ∧ youngOrFresh h b = true ∧
    (h.mem.get b).isSome = true) → a ∈ h.remembered

structure InOrder (h : Heap δ) : Prop where
  /-- What is reached or seen is an object. -/
  valid : ∀ {a}, Reach h a ∨ Seen h a → (h.mem.get a).isSome = true
  remembers : Remembers h
  /-- An old object refers to objects, or to a place in a space emptied since. -/
  oldFields : ∀ {a b}, a.space.isOld = true → Refers h a b →
    (h.mem.get b).isSome = true ∨ (b.space.isYoung = true ∧ b.epoch < h.epoch)
  rememberedOld : ∀ {a}, a ∈ h.remembered → a.space.isOld = true
  freshOld : ∀ {a}, a ∈ h.fresh → a.space.isOld = true ∧ (h.mem.get a).isSome = true
  rootCarrier : ∀ {a}, a ∈ h.rootSet → a.space = .graph
  /-- The cache is empty between collections. -/
  cacheEmpty : ∀ {a}, (h.mem.get a).isSome = true → a.space ≠ .semi (!h.haven)
  birthBound : ∀ {a}, (h.mem.get a).isSome = true → a.space = .birth →
    a.epoch = h.epoch ∧ a.off < h.birthTop
  havenBound : ∀ {a}, (h.mem.get a).isSome = true → a.space = .semi h.haven →
    a.epoch = h.epoch ∧ a.off < h.havenTop
  finalizableYoung : ∀ {a}, a ∈ h.finalizables →
    a.space.isYoung = true ∧ (h.mem.get a).isSome = true

/-- Each object that is reached and refers to a young one is seen: no carrier with
    a young constant hangs on an old object alone that is not remembered. -/
def ReferrersSeen (h : Heap δ) : Prop :=
  ∀ a b, Reach h a → Refers h a b → b.space.isYoung = true → Seen h a

/-! ## The Same Graph under New Names -/

/-- The roots of `h'` are those of `h` renamed, and each object that `h` reaches is
    in `h'` under its new name, with the same data and its references renamed. -/
structure SameGraph (h h' : Heap δ) (φ : Addr → Addr) : Prop where
  rootSet : h'.rootSet = h.rootSet.map φ
  slots : h'.slots = h.slots.map (Option.map φ)
  inj : ∀ {a b}, Reach h a → Reach h b → φ a = φ b → a = b
  object : ∀ {a}, Reach h a → ∃ o age, h.mem.get a = some o ∧
    h'.mem.get (φ a) = some { o with age := age, fields := o.fields.map (Option.map φ) }

section SameGraph

variable {h h' : Heap δ} {φ : Addr → Addr}

theorem some_mem_map {row : List (Option Addr)} {φ : Addr → Addr} {b : Addr} :
    some b ∈ row.map (Option.map φ) ↔ ∃ a, some a ∈ row ∧ φ a = b := by
  simp only [List.mem_map, Option.map_eq_some_iff]
  constructor
  · rintro ⟨x, hx, a, rfl, hb⟩
    exact ⟨a, hx, hb⟩
  · rintro ⟨a, ha, hb⟩
    exact ⟨some a, ha, a, rfl, hb⟩

theorem SameGraph.isRoot_iff (hg : SameGraph h h' φ) {b : Addr} :
    IsRoot h' b ↔ ∃ a, IsRoot h a ∧ φ a = b := by
  simp only [IsRoot, hg.rootSet, hg.slots]
  constructor
  · rintro (hb | hb)
    · obtain ⟨a, ha, rfl⟩ := List.mem_map.mp hb
      exact ⟨a, .inl ha, rfl⟩
    · obtain ⟨a, ha, rfl⟩ := some_mem_map.1 hb
      exact ⟨a, .inr ha, rfl⟩
  · rintro ⟨a, ha | ha, rfl⟩
    · exact .inl (List.mem_map_of_mem ha)
    · exact .inr (some_mem_map.2 ⟨a, ha, rfl⟩)

theorem SameGraph.refers_iff (hg : SameGraph h h' φ) {a b' : Addr} (ha : Reach h a) :
    Refers h' (φ a) b' ↔ ∃ b, Refers h a b ∧ φ b = b' := by
  obtain ⟨o, age, hoa, hob⟩ := hg.object ha
  constructor
  · rintro ⟨o', ho', hf⟩
    rw [hob] at ho'
    cases ho'
    obtain ⟨b, hb, hbb⟩ := some_mem_map.1 hf
    exact ⟨b, ⟨o, hoa, hb⟩, hbb⟩
  · rintro ⟨b, ⟨o', ho', hf⟩, hbb⟩
    rw [hoa] at ho'
    cases ho'
    exact ⟨_, hob, some_mem_map.2 ⟨b, hf, hbb⟩⟩

/-- Nothing that was reached is lost, and nothing is reached that was not. -/
theorem SameGraph.reach_iff (hg : SameGraph h h' φ) {b : Addr} :
    Reach h' b ↔ ∃ a, Reach h a ∧ φ a = b := by
  constructor
  · intro hr
    induction hr with
    | root hroot =>
      obtain ⟨a, ha, hb⟩ := hg.isRoot_iff.mp hroot
      exact ⟨a, .root ha, hb⟩
    | step _ href ih =>
      obtain ⟨a, ha, rfl⟩ := ih
      obtain ⟨b, hb, hbb⟩ := (hg.refers_iff ha).mp href
      exact ⟨b, .step ha hb, hbb⟩
  · rintro ⟨a, ha, rfl⟩
    induction ha with
    | root hroot => exact .root (hg.isRoot_iff.mpr ⟨_, hroot, rfl⟩)
    | step hp href ih => exact .step ih ((hg.refers_iff hp).mpr ⟨_, href, rfl⟩)

end SameGraph

end Camel.Heap
