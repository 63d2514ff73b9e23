import Camel.Tensor.WorkerPool

/-! # Runs of the Worker Pool

    The invariant says which region is the current one, what the threads with a
    chunk have in hand, and how the calls of that region are counted. The region
    mutex keeps two regions apart: the next one is published by a thread that holds
    it, and the caller of the current one holds it to the end.
-/

namespace Camel.Tensor

open List

variable {Tid B E : Type}

/-! ## The Invariant -/

/-- The chunk a thread has in hand, and the outcome once its body has run. -/
def Local.busy? : Local B E → Option (Claim B × Option (Option E))
  | .calling _ c => some (c, none)
  | .completing _ c error => some (c, some error)
  | _ => none

/-- The region whose caller the thread is. -/
def Local.region? : Local B E → Option Nat
  | .claiming (.caller g) => some g
  | .calling (.caller g) _ => some g
  | .completing (.caller g) _ _ => some g
  | .waiting g => some g
  | _ => none

/-- The thread has the region mutex. -/
def Local.holds : Local B E → Bool
  | .publishing _ _ _ | .leaving _ | .resizing _ | .joining _ | .creating _ => true
  | l => l.region?.isSome

def Call.key (c : Call B E) : Nat × Nat := (c.region, c.chunk)

def Claim.key (c : Claim B) : Nat × Nat := (c.region, c.chunk)

variable {u : Tid} (c : Claim B) (error : Option E)

@[simp] theorem Claim.call_key : (c.call error).key = c.key := rfl

@[simp] theorem Claim.call_region :
    (c.call error).region = c.region := rfl

@[simp] theorem Claim.call_error :
    (c.call error).error = error := rfl

/-- The calls of one region. -/
def ofRegion (calls : List (Call B E)) (g : Nat) : List (Call B E) :=
  calls.filter fun c => c.region = g

variable {calls : List (Call B E)} {g : Nat} {c : Call B E}

theorem mem_ofRegion :
    c ∈ ofRegion calls g ↔ c ∈ calls ∧ c.region = g := by
  simp [ofRegion]

theorem ofRegion_append_same
    (h : c.region = g) : ofRegion (calls ++ [c]) g = ofRegion calls g ++ [c] := by
  simp [ofRegion, h]

theorem ofRegion_append_other
    (h : c.region ≠ g) : ofRegion (calls ++ [c]) g = ofRegion calls g := by
  simp [ofRegion, h]

/-- The region that was published last is still running. -/
structure IsCurrent (regions : List (Region B)) (body : Option B) (count : Int) (chunkCount g : Nat)
    (r : Region B) : Prop where
  last : g + 1 = regions.length
  region : regions[g]? = some r
  body : body = some r.body
  count : count = r.count
  chunkCount : chunkCount = r.chunkCount

def Pool.Current (s : Pool Tid B E) (g : Nat) (r : Region B) : Prop :=
  IsCurrent s.regions s.body s.count s.chunkCount g r

/-- A call made as its region says. -/
structure Made (regions : List (Region B)) (c : Call B E) (r : Region B) : Prop where
  region : regions[c.region]? = some r
  body : c.body = r.body
  chunk : c.chunk < r.chunkCount
  first : c.first = chunkBegin r.count c.chunk r.chunkCount
  last : c.last = chunkEnd r.count c.chunk r.chunkCount

structure Inv (s : Pool Tid B E) : Prop where
  holds : ∀ t, (s.loc t).holds = true → s.regionMutex = some t
  owned : s.body.isSome = true → ∃ t g, (s.loc t).region? = some g
  inRegion : ∀ t g, (s.loc t).region? = some g → ∃ r, s.Current g r
  claims : ∀ t c x, (s.loc t).busy? = some (c, x) →
    s.Current c.region ⟨c.body, c.count, c.chunkCount⟩ ∧ c.chunk < s.nextChunk
  distinct : ∀ t t' c c' x x', (s.loc t).busy? = some (c, x) → (s.loc t').busy? = some (c', x') →
    c.chunk = c'.chunk → t = t'
  next : s.body.isSome = true → s.nextChunk ≤ s.chunkCount
  made : ∀ c ∈ s.calls, ∃ r, Made s.regions c r
  below : ∀ g r, s.Current g r → ∀ c ∈ s.calls, c.region = g → c.chunk < s.nextChunk
  keys : (s.calls.map Call.key).Nodup
  uncalled : ∀ t c, (s.loc t).busy? = some (c, none) → c.key ∉ s.calls.map Call.key
  called : ∀ t c error, (s.loc t).busy? = some (c, some error) →
    c.call error ∈ s.calls ∧ c.key ∉ s.completed.map Call.key
  completed : ∀ c ∈ s.completed, c ∈ s.calls
  completedKeys : (s.completed.map Call.key).Nodup
  done : ∀ g r, s.Current g r → (ofRegion s.completed g).length = s.doneChunks
  errors : ∀ g r, s.Current g r → (ofRegion s.completed g).findSome? Call.error = s.firstError
  returned : ∀ g error, (g, error) ∈ s.returned → (∀ r, ¬s.Current g r) ∧
    (∃ r, s.regions[g]? = some r ∧
      ((ofRegion s.completed g).map Call.chunk).Perm (List.range r.chunkCount)) ∧
    (ofRegion s.completed g).findSome? Call.error = error

variable {s : Pool Tid B E} {r : Region B}

theorem Pool.Current.unique {g' : Nat} {r' : Region B}
    (h : s.Current g r) (h' : s.Current g' r') : g = g' := by
  have := h.last
  have := h'.last
  omega

theorem Pool.Current.isSome (h : s.Current g r) :
    s.body.isSome = true := by
  rw [h.body]
  rfl

theorem Fresh.inv (h : Fresh s) : Inv s := by
  have hloc : ∀ t, (s.loc t).busy? = none ∧ (s.loc t).region? = none ∧
      (s.loc t).holds = false := by
    intro t
    rcases h.outside t with ht | ht | ht
    all_goals
      rw [ht]
      exact ⟨rfl, rfl, rfl⟩
  have hcur : ∀ g r, ¬s.Current g r := by
    intro g r hc
    have := hc.body
    simp [h.body] at this
  constructor
  · intro t ht
    simp [(hloc t).2.2] at ht
  · intro hb
    simp [h.body] at hb
  · intro t g ht
    simp [(hloc t).2.1] at ht
  · intro t c x ht
    simp [(hloc t).1] at ht
  · intro t t' c c' x x' ht
    simp [(hloc t).1] at ht
  · intro hb
    simp [h.body] at hb
  · simp [h.calls]
  · exact fun g r hc => absurd hc (hcur g r)
  · simp [h.calls]
  · intro t c ht
    simp [(hloc t).1] at ht
  · intro t c error ht
    simp [(hloc t).1] at ht
  · simp [h.completed]
  · simp [h.completed]
  · exact fun g r hc => absurd hc (hcur g r)
  · exact fun g r hc => absurd hc (hcur g r)
  · simp [h.returned]

variable {t : Tid}

/-- Only one thread has the region mutex. -/
theorem Inv.holds_unique (h : Inv s)
    (ht : (s.loc t).holds = true) (hu : (s.loc u).holds = true) : u = t := by
  have := h.holds t ht
  rw [h.holds u hu, Option.some.injEq] at this
  exact this

variable {l : Local B E}

theorem Local.holds_of_region? (h : l.region? = some g) :
    l.holds = true := by
  cases l <;> simp_all [Local.region?, Local.holds]

theorem not_current (hb : s.body = none) (g : Nat) (r : Region B) :
    ¬s.Current g r := by
  intro hc
  have := hc.body
  rw [hb] at this
  cases this

/-- No call belongs to a region that has not been published. -/
theorem Inv.region_lt (h : Inv s) (hc : c ∈ s.calls) :
    c.region < s.regions.length := by
  obtain ⟨r, hm⟩ := h.made c hc
  exact (List.getElem?_eq_some_iff.mp hm.region).1

/-- Two threads have chunks with different keys. -/
theorem Inv.key_ne (h : Inv s) {c c' : Claim B}
    {x x' : Option (Option E)} (ht : (s.loc t).busy? = some (c, x))
    (hu : (s.loc u).busy? = some (c', x')) (hut : u ≠ t) : c'.key ≠ c.key := by
  intro heq
  simp only [Claim.key, Prod.mk.injEq] at heq
  exact hut (h.distinct u t c' c x' x hu ht heq.2)

/-- While a thread has the mutex and is not the caller of a region, none is running. -/
theorem Inv.idle (h : Inv s) (ht : (s.loc t).holds = true)
    (hr : (s.loc t).region? = none) : s.body = none := by
  cases hb : s.body with
  | none => rfl
  | some b =>
    obtain ⟨u, g, hu⟩ := h.owned (by rw [hb]; rfl)
    obtain rfl := h.holds_unique ht (Local.holds_of_region? hu)
    rw [hr] at hu
    cases hu

theorem Inv.ofRegion_new (h : Inv s) :
    ofRegion s.completed s.regions.length = [] := by
  apply eq_nil_iff_forall_not_mem.mpr
  intro c hc
  obtain ⟨hmem, hreg⟩ := mem_ofRegion.1 hc
  have := h.region_lt (h.completed c hmem)
  omega

/-- The chunks of the calls of one region are apart where the calls are. -/
theorem nodup_chunks (h : (calls.map Call.key).Nodup) (g : Nat) :
    ((ofRegion calls g).map Call.chunk).Nodup := by
  have hsub : ((ofRegion calls g).map Call.key).Nodup :=
    h.sublist (filter_sublist.map _)
  have hkey : (ofRegion calls g).map Call.key =
      ((ofRegion calls g).map Call.chunk).map fun k => (g, k) := by
    rw [map_map]
    apply map_congr_left
    intro c hc
    simp [Call.key, (mem_ofRegion.1 hc).2]
  rw [hkey] at hsub
  exact hsub.of_map _

/-- When as many chunks are done as there are, each is done once. -/
theorem Inv.all_done (h : Inv s)
    (hcur : s.Current g r) (hdone : s.doneChunks = s.chunkCount) :
    ((ofRegion s.completed g).map Call.chunk).Perm (range r.chunkCount) := by
  have hnodup := nodup_chunks h.completedKeys g
  have hsubset : (ofRegion s.completed g).map Call.chunk ⊆ range r.chunkCount := by
    intro k hk
    obtain ⟨c, hc, rfl⟩ := mem_map.mp hk
    obtain ⟨hmem, hreg⟩ := mem_ofRegion.1 hc
    have hlt := h.below g r hcur c (h.completed c hmem) hreg
    have hle := h.next hcur.isSome
    have := hcur.chunkCount
    exact mem_range.mpr (by omega)
  apply (subperm_of_subset hnodup hsubset).perm_of_length_le
  rw [length_range, length_map, h.done g r hcur, hdone, hcur.chunkCount]

/-- Then no thread has a chunk in hand. -/
theorem Inv.none_busy (h : Inv s)
    (hcur : s.Current g r) (hdone : s.doneChunks = s.chunkCount) (t : Tid) :
    (s.loc t).busy? = none := by
  cases hb : (s.loc t).busy? with
  | none => rfl
  | some x =>
    exfalso
    obtain ⟨c, x⟩ := x
    obtain ⟨hc, hlt⟩ := h.claims t c x hb
    have hg : c.region = g := hc.unique hcur
    have hle := h.next hcur.isSome
    have hcount := hcur.chunkCount
    have hin : c.chunk ∈ (ofRegion s.completed g).map Call.chunk :=
      (h.all_done hcur hdone).mem_iff.mpr (mem_range.mpr (by omega))
    obtain ⟨call, hcall, hchunk⟩ := mem_map.mp hin
    obtain ⟨hmem, hreg⟩ := mem_ofRegion.1 hcall
    have hkey : c.key ∈ s.completed.map Call.key :=
      mem_map.mpr ⟨call, hmem, by simp [Call.key, Claim.key, hreg, hchunk, hg]⟩
    cases x with
    | none =>
      obtain ⟨call', hcall', hk⟩ := mem_map.mp hkey
      exact h.uncalled t c hb (mem_map.mpr ⟨call', h.completed call' hcall', hk⟩)
    | some error => exact (h.called t c error hb).2 hkey

/-- Once every chunk of a region is done, its calls are one for each chunk. -/
theorem Inv.calls_perm (h : Inv s)
    (hr : s.regions[g]? = some r)
    (hperm : ((ofRegion s.completed g).map Call.chunk).Perm (range r.chunkCount)) :
    ((ofRegion s.calls g).map Call.chunk).Perm (range r.chunkCount) := by
  apply (perm_ext_iff_of_nodup (nodup_chunks h.keys g) nodup_range).mpr
  intro k
  constructor
  · intro hk
    obtain ⟨c, hc, rfl⟩ := mem_map.mp hk
    obtain ⟨hmem, rfl⟩ := mem_ofRegion.1 hc
    obtain ⟨r', hm⟩ := h.made c hmem
    have := hm.region
    rw [hr, Option.some.injEq] at this
    rw [this]
    exact mem_range.mpr hm.chunk
  · intro hk
    obtain ⟨c, hc, rfl⟩ := mem_map.mp (hperm.mem_iff.mpr hk)
    obtain ⟨hmem, hreg⟩ := mem_ofRegion.1 hc
    exact mem_map.mpr ⟨c, mem_ofRegion.2 ⟨h.completed c hmem, hreg⟩, rfl⟩

/-- Two calls of one region and one chunk are the same call. -/
theorem Inv.call_unique (h : Inv s) {c' : Call B E} (hc : c ∈ s.calls)
    (hc' : c' ∈ s.calls) (hkey : c.key = c'.key) : c = c' :=
  inj_on_of_nodup_map h.keys hc hc' hkey

/-- A completed call is the only call of its chunk, so it has every error of it. -/
theorem Inv.mem_completed (h : Inv s)
    (hr : s.regions[g]? = some r)
    (hperm : ((ofRegion s.completed g).map Call.chunk).Perm (range r.chunkCount))
    (hc : c ∈ s.calls) (hreg : c.region = g) : c ∈ ofRegion s.completed g := by
  have hk : c.chunk ∈ range r.chunkCount :=
    (h.calls_perm hr hperm).mem_iff.mp (mem_map.mpr ⟨c, mem_ofRegion.2 ⟨hc, hreg⟩, rfl⟩)
  obtain ⟨c', hc', hchunk⟩ := mem_map.mp (hperm.mem_iff.mpr hk)
  obtain ⟨hmem', hreg'⟩ := mem_ofRegion.1 hc'
  have : c' = c := h.call_unique (h.completed c' hmem') hc
    (by simp [Call.key, hchunk, hreg, hreg'])
  exact this ▸ hc'

/-- At most one call of a region has an index in its range. -/
theorem Inv.index_unique (h : Inv s)
    (hr : s.regions[g]? = some r) (hpos : 0 < r.chunkCount)
    (hfits : r.count * r.chunkCount < 2 ^ 63) {i : Int} (hlo : 0 ≤ i) (hhi : i < r.count)
    {c' : Call B E} (hc : c ∈ s.calls) (hreg : c.region = g) (hin : c.first ≤ i ∧ i < c.last)
    (hc' : c' ∈ s.calls) (hreg' : c'.region = g) (hin' : c'.first ≤ i ∧ i < c'.last) : c = c' := by
  have hchunk : ∀ d ∈ s.calls, d.region = g → d.first ≤ i ∧ i < d.last →
      d.chunk < r.chunkCount ∧ chunkBegin r.count d.chunk r.chunkCount ≤ i ∧
        i < chunkEnd r.count d.chunk r.chunkCount := by
    intro d hd hdreg hdin
    obtain ⟨r', hm⟩ := h.made d hd
    have hr' := hm.region
    rw [hdreg, hr, Option.some.injEq] at hr'
    subst hr'
    rw [← hm.first, ← hm.last]
    exact ⟨hm.chunk, hdin⟩
  have heq := (existsUnique_chunk hpos hfits hlo hhi).unique (hchunk c hc hreg hin)
    (hchunk c' hc' hreg' hin')
  exact h.call_unique hc hc' (by simp [Call.key, hreg, hreg', heq])

theorem nodup_keys_append {c₀ : Claim B} {error₀ : Option E} (h : (calls.map Call.key).Nodup)
    (hnew : c₀.key ∉ calls.map Call.key) :
    ((calls ++ [c₀.call error₀]).map Call.key).Nodup := by
  rw [map_append, map_singleton, Claim.call_key]
  apply nodup_append.mpr
  refine ⟨h, nodup_singleton _, ?_⟩
  intro k hk k' hk' heq
  rw [mem_singleton.mp hk'] at heq
  exact hnew (heq ▸ hk)

/-! ## Steps That Leave the Regions Alone -/

variable [DecidableEq Tid]

theorem region?_update (hregion : l.region? = (s.loc t).region?) (u : Tid) :
    (Function.update s.loc t l u).region? = (s.loc u).region? := by
  by_cases hu : u = t
  · rw [hu, Function.update_self, hregion]
  · rw [Function.update_of_ne hu]

/-- What a thread has in hand after a move: what was given to the mover, or what it had. -/
theorem busy?_update {c : Claim B} {x : Option (Option E)}
    (h : (Function.update s.loc t l u).busy? = some (c, x)) :
    (u = t ∧ l.busy? = some (c, x)) ∨ (u ≠ t ∧ (s.loc u).busy? = some (c, x)) := by
  by_cases hu : u = t
  · rw [hu, Function.update_self] at h
    exact .inl ⟨hu, h⟩
  · rw [Function.update_of_ne hu] at h
    exact .inr ⟨hu, h⟩

theorem busy?_update_none (hl : l.busy? = none) (hothers : ∀ u, u ≠ t → (s.loc u).busy? = none)
    (u : Tid) : (Function.update s.loc t l u).busy? = none := by
  by_cases hu : u = t
  · rw [hu, Function.update_self, hl]
  · rw [Function.update_of_ne hu, hothers u hu]

/-- The mutex is as the threads that hold it say, when one of them moves. -/
theorem Inv.holds_update (h : Inv s) {mutex : Option Tid} (hself : l.holds = true → mutex = some t)
    (hothers : ∀ u, s.regionMutex = some u → u ≠ t → mutex = some u) (u : Tid)
    (hu : (Function.update s.loc t l u).holds = true) : mutex = some u := by
  by_cases hut : u = t
  · rw [hut, Function.update_self] at hu
    rw [hut]
    exact hself hu
  · rw [Function.update_of_ne hut] at hu
    exact hothers u (h.holds u hu) hut

/-- A thread that keeps its role leaves the mutex and the running region to whom they belong. -/
theorem Inv.stays (h : Inv s) (hregion : l.region? = (s.loc t).region?)
    (hholds : l.holds = (s.loc t).holds) :
    (∀ u, (Function.update s.loc t l u).holds = true → s.regionMutex = some u) ∧
      (s.body.isSome = true → ∃ u g, (Function.update s.loc t l u).region? = some g) ∧
      ∀ u g, (Function.update s.loc t l u).region? = some g → ∃ r, s.Current g r := by
  refine ⟨?_, fun hsome => ?_, fun u g hu => ?_⟩
  · apply h.holds_update _ (fun u hu _ => hu)
    intro hh
    rw [hholds] at hh
    exact h.holds t hh
  · obtain ⟨u, g, hu⟩ := h.owned hsome
    exact ⟨u, g, (region?_update hregion u).trans hu⟩
  · exact h.inRegion u g ((region?_update hregion u).symm.trans hu)

/-- A thread goes from one place to another without a chunk in hand before or after. -/
theorem Inv.moved (h : Inv s) {mutex : Option Tid}
    {threadCount : Nat} {workers : List Tid} {stopping : Bool}
    (hbusy : (s.loc t).busy? = none) (hbusy' : l.busy? = none)
    (hregion : l.region? = (s.loc t).region?)
    (hholds : ∀ u, (Function.update s.loc t l u).holds = true → mutex = some u) :
    Inv { s with
      regionMutex := mutex, threadCount := threadCount, workers := workers, stopping := stopping,
      loc := Function.update s.loc t l } := by
  have hb : ∀ u, (Function.update s.loc t l u).busy? = (s.loc u).busy? := by
    intro u
    by_cases hu : u = t
    · rw [hu, Function.update_self, hbusy, hbusy']
    · rw [Function.update_of_ne hu]
  have hr := region?_update hregion
  exact { h with
    holds := hholds
    owned := fun hsome => by
      obtain ⟨u, g, hu⟩ := h.owned hsome
      exact ⟨u, g, (hr u).trans hu⟩
    inRegion := fun u g hu => h.inRegion u g ((hr u).symm.trans hu)
    claims := fun u c x hu => h.claims u c x ((hb u).symm.trans hu)
    distinct := fun u v c c' x x' hu hv =>
      h.distinct u v c c' x x' ((hb u).symm.trans hu) ((hb v).symm.trans hv)
    uncalled := fun u c hu => h.uncalled u c ((hb u).symm.trans hu)
    called := fun u c error hu => h.called u c error ((hb u).symm.trans hu) }

/-- A thread goes on, with the mutex only if it had it before. -/
theorem Inv.goes (h : Inv s) {l₀ : Local B E} {threadCount : Nat} {workers : List Tid}
    {stopping : Bool} (ht : s.loc t = l₀) (hbusy : l₀.busy? = none) (hbusy' : l.busy? = none)
    (hregion : l.region? = l₀.region?) (hholds : l.holds = true → l₀.holds = true) :
    Inv { s with
      threadCount := threadCount, workers := workers, stopping := stopping,
      loc := Function.update s.loc t l } := by
  subst ht
  apply h.moved hbusy hbusy' hregion
  exact h.holds_update (fun hh => h.holds t (hholds hh)) (fun u hu _ => hu)

/-- A thread takes the mutex while nobody has it. -/
theorem Inv.takes (h : Inv s) (ht : s.loc t = .outside) (hm : s.regionMutex = none)
    (hbusy : l.busy? = none) (hregion : l.region? = none) :
    Inv { s.move t l with regionMutex := some t } := by
  apply h.moved (by rw [ht]; rfl) hbusy (by rw [ht]; exact hregion)
  apply h.holds_update (fun _ => rfl)
  intro u hu
  rw [hm] at hu
  cases hu

/-- The thread that has the mutex leaves with it. -/
theorem Inv.leaves (h : Inv s) {l₀ : Local B E} (ht : s.loc t = l₀) (hbusy : l₀.busy? = none)
    (hregion : l₀.region? = none) (hholds : l₀.holds = true) :
    Inv { s.move t .outside with regionMutex := none } := by
  subst ht
  apply h.moved (l := .outside) hbusy rfl hregion.symm
  apply h.holds_update (fun hh => by cases hh)
  intro u hu hut
  rw [h.holds t hholds, Option.some.injEq] at hu
  exact absurd hu.symm hut

/-! ## Publishing a Region -/

theorem Made.append {regions : List (Region B)} {c : Call B E} {r : Region B}
    (h : Made regions c r) (r' : Region B) : Made (regions ++ [r']) c r where
  region := by
    have hlt : c.region < regions.length := (List.getElem?_eq_some_iff.mp h.region).1
    rw [getElem?_append_left hlt]
    exact h.region
  body := h.body
  chunk := h.chunk
  first := h.first
  last := h.last

theorem Inv.publish (h : Inv s) {body : B} {count : Int}
    {chunks : Nat} (ht : s.loc t = .publishing body count chunks) :
    Inv { s.move t (.claiming (.caller s.regions.length)) with
      body := some body
      count := count
      chunkCount := chunks
      nextChunk := 0
      doneChunks := 0
      firstError := none
      generation := (s.generation + 1) % 2 ^ 64
      regions := s.regions ++ [⟨body, count, chunks⟩] } := by
  have hmutex : s.regionMutex = some t := h.holds t (by rw [ht]; rfl)
  have hnone : s.body = none := h.idle (by rw [ht]; rfl) (by rw [ht]; rfl)
  have hbusy : ∀ u, (Function.update s.loc t (.claiming (.caller s.regions.length)) u).busy? =
      none := by
    apply busy?_update_none rfl
    intro u _
    cases hb : (s.loc u).busy? with
    | none => rfl
    | some x => exact absurd (h.claims u x.1 x.2 hb).1 (not_current hnone _ _)
  have hnot : ∀ {u : Tid} {x : Claim B × Option (Option E)},
      (Function.update s.loc t (.claiming (.caller s.regions.length)) u).busy? = some x → False := by
    intro u x hu
    rw [hbusy u] at hu
    cases hu
  have hlast : ∀ {g : Nat} {r : Region B},
      (s.regions ++ [(⟨body, count, chunks⟩ : Region B)])[g]? = some r →
      g + 1 = (s.regions ++ [(⟨body, count, chunks⟩ : Region B)]).length → g = s.regions.length := by
    intro g r _ hg
    rw [length_append, length_singleton] at hg
    omega
  exact { h with
    holds := h.holds_update (fun _ => hmutex) (fun u hu _ => hu)
    owned := fun _ => ⟨t, s.regions.length, by simp [Pool.move, Local.region?]⟩
    inRegion := fun u g hu => by
      by_cases hut : u = t
      · simp only [Pool.move, hut, Function.update_self, Local.region?, Option.some.injEq] at hu
        subst hu
        exact ⟨⟨body, count, chunks⟩, by simp, by simp, rfl, rfl, rfl⟩
      · simp only [Pool.move, Function.update_of_ne hut] at hu
        obtain ⟨r, hc⟩ := h.inRegion u g hu
        exact absurd hc (not_current hnone _ _)
    claims := fun u c x hu => (hnot hu).elim
    distinct := fun u v c c' x x' hu => (hnot hu).elim
    next := fun _ => Nat.zero_le _
    made := fun c hc => by
      obtain ⟨r, hm⟩ := h.made c hc
      exact ⟨r, hm.append _⟩
    below := fun g r hcur c hc hreg => by
      have hg := hlast hcur.region hcur.last
      have := h.region_lt hc
      omega
    uncalled := fun u c hu => (hnot hu).elim
    called := fun u c error hu => (hnot hu).elim
    done := fun g r hcur => by
      obtain rfl := hlast hcur.region hcur.last
      show (ofRegion s.completed s.regions.length).length = 0
      rw [h.ofRegion_new]
      rfl
    errors := fun g r hcur => by
      obtain rfl := hlast hcur.region hcur.last
      show (ofRegion s.completed s.regions.length).findSome? Call.error = none
      rw [h.ofRegion_new]
      rfl
    returned := fun g error hm => by
      obtain ⟨-, ⟨r, hr, hperm⟩, herr⟩ := h.returned g error hm
      have hlt : g < s.regions.length := (List.getElem?_eq_some_iff.mp hr).1
      refine ⟨fun r' hcur => ?_, ⟨r, ?_, hperm⟩, herr⟩
      · have := hlast hcur.region hcur.last
        omega
      · show (s.regions ++ [_])[g]? = some r
        rw [getElem?_append_left hlt, hr] }

/-! ## Claiming, Calling, Completing -/

theorem Inv.claim (h : Inv s) {role : Role} {body : B}
    (ht : s.loc t = .claiming role) (hbody : s.body = some body)
    (hlt : s.nextChunk < s.chunkCount) :
    Inv { s.move t (.calling role
        ⟨s.regions.length - 1, s.nextChunk, body, s.count, s.chunkCount⟩) with
      nextChunk := s.nextChunk + 1 } := by
  obtain ⟨u₀, g₀, hu₀⟩ := h.owned (by rw [hbody]; rfl)
  obtain ⟨r₀, hcur⟩ := h.inRegion u₀ g₀ hu₀
  have hg : s.regions.length - 1 = g₀ := by
    have := hcur.last
    omega
  have hr₀ : (⟨body, s.count, s.chunkCount⟩ : Region B) = r₀ := by
    have hb := hcur.body
    rw [hbody, Option.some.injEq] at hb
    rw [hb, hcur.count, hcur.chunkCount]
  rw [hg]
  obtain ⟨hholds, howned, hin⟩ := h.stays (t := t)
    (l := .calling role ⟨g₀, s.nextChunk, body, s.count, s.chunkCount⟩)
    (by rw [ht]; cases role <;> rfl) (by rw [ht]; cases role <;> rfl)
  -- what a thread has in hand now: the new chunk, or what it had
  have hbusy : ∀ {u c x}, (Function.update s.loc t (.calling role
      ⟨g₀, s.nextChunk, body, s.count, s.chunkCount⟩) u).busy? = some (c, x) →
      (u = t ∧ c = ⟨g₀, s.nextChunk, body, s.count, s.chunkCount⟩ ∧ x = none) ∨
      (u ≠ t ∧ (s.loc u).busy? = some (c, x)) := by
    intro u c x hu
    rcases busy?_update hu with ⟨hut, hl⟩ | hold
    · simp only [Local.busy?, Option.some.injEq, Prod.mk.injEq] at hl
      exact .inl ⟨hut, hl.1.symm, hl.2.symm⟩
    · exact .inr hold
  exact { h with
    holds := hholds
    owned := howned
    inRegion := hin
    claims := fun u c x hu => by
      rcases hbusy hu with ⟨-, rfl, -⟩ | ⟨-, hold⟩
      · refine ⟨⟨hcur.last, ?_, hbody, rfl, rfl⟩, lt_add_one _⟩
        show s.regions[g₀]? = _
        rw [hr₀]
        exact hcur.region
      · obtain ⟨hc, hchunk⟩ := h.claims u c x hold
        exact ⟨hc, Nat.lt_succ_of_lt hchunk⟩
    distinct := fun u v c c' x x' hu hv heq => by
      rcases hbusy hu with ⟨rfl, rfl, -⟩ | ⟨-, hold⟩ <;> rcases hbusy hv with ⟨rfl, rfl, -⟩ | ⟨-, hold'⟩
      · rfl
      · have := (h.claims v c' x' hold').2
        simp only at heq
        omega
      · have := (h.claims u c x hold).2
        simp only at heq
        omega
      · exact h.distinct u v c c' x x' hold hold' heq
    next := fun _ => hlt
    below := fun g r hc c hmem hreg => Nat.lt_succ_of_lt (h.below g r hc c hmem hreg)
    uncalled := fun u c hu => by
      rcases hbusy hu with ⟨-, rfl, -⟩ | ⟨-, hold⟩
      · intro hmem
        obtain ⟨call, hcall, hkey⟩ := mem_map.mp hmem
        simp only [Call.key, Claim.key, Prod.mk.injEq] at hkey
        have := h.below g₀ r₀ hcur call hcall hkey.1
        omega
      · exact h.uncalled u c hold
    called := fun u c error hu => by
      rcases hbusy hu with ⟨-, -, hx⟩ | ⟨-, hold⟩
      · cases hx
      · exact h.called u c error hold }

theorem Inv.call {s : Pool Tid B E} (h : Inv s) {t : Tid} {role : Role} {c₀ : Claim B}
    (ht : s.loc t = .calling role c₀) (error₀ : Option E) :
    Inv { s.move t (.completing role c₀ error₀) with calls := s.calls ++ [c₀.call error₀] } := by
  have hbusy₀ : (s.loc t).busy? = some (c₀, none) := by rw [ht]; rfl
  obtain ⟨hcur, hchunk⟩ := h.claims t c₀ none hbusy₀
  have hnew := h.uncalled t c₀ hbusy₀
  obtain ⟨hholds, howned, hin⟩ := h.stays (t := t) (l := .completing role c₀ error₀)
    (by rw [ht]; cases role <;> rfl) (by rw [ht]; cases role <;> rfl)
  have hbusy : ∀ {u c x}, (Function.update s.loc t (.completing role c₀ error₀) u).busy? =
      some (c, x) → (u = t ∧ c = c₀ ∧ x = some error₀) ∨
        (u ≠ t ∧ (s.loc u).busy? = some (c, x)) := by
    intro u c x hu
    rcases busy?_update hu with ⟨hut, hl⟩ | hold
    · simp only [Local.busy?, Option.some.injEq, Prod.mk.injEq] at hl
      exact .inl ⟨hut, hl.1.symm, hl.2.symm⟩
    · exact .inr hold
  -- no thread has another chunk in hand than before
  have hold : ∀ {u c x}, (Function.update s.loc t (.completing role c₀ error₀) u).busy? =
      some (c, x) → ∃ x', (s.loc u).busy? = some (c, x') := by
    intro u c x hu
    rcases hbusy hu with ⟨rfl, rfl, -⟩ | ⟨-, hold⟩
    · exact ⟨none, hbusy₀⟩
    · exact ⟨x, hold⟩
  exact { h with
    holds := hholds
    owned := howned
    inRegion := hin
    claims := fun u c x hu => by
      obtain ⟨x', hx'⟩ := hold hu
      exact h.claims u c x' hx'
    distinct := fun u v c c' x x' hu hv heq => by
      obtain ⟨y, hy⟩ := hold hu
      obtain ⟨y', hy'⟩ := hold hv
      exact h.distinct u v c c' y y' hy hy' heq
    made := fun c hc => by
      rcases mem_append.mp hc with hc | hc
      · exact h.made c hc
      · rw [mem_singleton.mp hc]
        have hle := h.next hcur.isSome
        have hcount : s.chunkCount = c₀.chunkCount := hcur.chunkCount
        exact ⟨⟨c₀.body, c₀.count, c₀.chunkCount⟩, hcur.region, rfl,
          show c₀.chunk < c₀.chunkCount by omega, rfl, rfl⟩
    below := fun g r hc c hmem hreg => by
      rcases mem_append.mp hmem with hmem | hmem
      · exact h.below g r hc c hmem hreg
      · rw [mem_singleton.mp hmem]
        exact hchunk
    keys := nodup_keys_append h.keys hnew
    uncalled := fun u c hu hmem => by
      rcases hbusy hu with ⟨-, -, hx⟩ | ⟨hut, hold⟩
      · cases hx
      · rw [map_append, map_singleton, mem_append, mem_singleton,
          Claim.call_key] at hmem
        rcases hmem with hmem | hmem
        · exact h.uncalled u c hold hmem
        · exact h.key_ne hbusy₀ hold hut hmem
    called := fun u c error hu => by
      rcases hbusy hu with ⟨-, rfl, hx⟩ | ⟨-, hold⟩
      · cases hx
        refine ⟨mem_append_right _ (mem_singleton.mpr rfl), fun hmem => ?_⟩
        obtain ⟨call, hcall, hkey⟩ := mem_map.mp hmem
        exact hnew (mem_map.mpr ⟨call, h.completed call hcall, hkey⟩)
      · obtain ⟨hmem, hno⟩ := h.called u c error hold
        exact ⟨mem_append_left _ hmem, hno⟩
    completed := fun c hc => mem_append_left _ (h.completed c hc) }

theorem Inv.complete (h : Inv s) {role : Role} {c₀ : Claim B}
    {error₀ : Option E} (ht : s.loc t = .completing role c₀ error₀) :
    Inv { s.move t (.claiming role) with
      firstError := s.firstError.or error₀
      doneChunks := s.doneChunks + 1
      completed := s.completed ++ [c₀.call error₀] } := by
  have hbusy₀ : (s.loc t).busy? = some (c₀, some error₀) := by rw [ht]; rfl
  obtain ⟨hcur, -⟩ := h.claims t c₀ _ hbusy₀
  obtain ⟨hcall, hnew⟩ := h.called t c₀ error₀ hbusy₀
  obtain ⟨hholds, howned, hin⟩ := h.stays (t := t) (l := .claiming role)
    (by rw [ht]; cases role <;> rfl) (by rw [ht]; cases role <;> rfl)
  have hbusy : ∀ {u c x}, (Function.update s.loc t (.claiming role) u).busy? = some (c, x) →
      u ≠ t ∧ (s.loc u).busy? = some (c, x) := fun hu => by
    rcases busy?_update hu with ⟨-, hl⟩ | hold
    · cases hl
    · exact hold
  exact { h with
    holds := hholds
    owned := howned
    inRegion := hin
    claims := fun u c x hu => h.claims u c x (hbusy hu).2
    distinct := fun u v c c' x x' hu hv => h.distinct u v c c' x x' (hbusy hu).2 (hbusy hv).2
    uncalled := fun u c hu => h.uncalled u c (hbusy hu).2
    called := fun u c error hu => by
      obtain ⟨hut, hold⟩ := hbusy hu
      obtain ⟨hmem, hno⟩ := h.called u c error hold
      refine ⟨hmem, fun hin => ?_⟩
      rw [map_append, map_singleton, mem_append, mem_singleton,
        Claim.call_key] at hin
      rcases hin with hin | hin
      · exact hno hin
      · exact h.key_ne hbusy₀ hold hut hin
    completed := fun c hc => by
      rcases mem_append.mp hc with hc | hc
      · exact h.completed c hc
      · rw [mem_singleton.mp hc]
        exact hcall
    completedKeys := nodup_keys_append h.completedKeys hnew
    done := fun g r hc => by
      have hg : c₀.region = g := hcur.unique hc
      show (ofRegion (s.completed ++ [c₀.call error₀]) g).length = s.doneChunks + 1
      rw [ofRegion_append_same hg, length_append, h.done g r hc, length_singleton]
    errors := fun g r hc => by
      have hg : c₀.region = g := hcur.unique hc
      show (ofRegion (s.completed ++ [c₀.call error₀]) g).findSome? Call.error = _
      rw [ofRegion_append_same hg, findSome?_append, h.errors g r hc]
      simp
    returned := fun g error hm => by
      obtain ⟨hno, hperm, herr⟩ := h.returned g error hm
      have hg : (c₀.call error₀).region ≠ g := by
        rintro rfl
        exact hno _ hcur
      show (∀ r, ¬_) ∧ (∃ r, s.regions[g]? = some r ∧
        ((ofRegion (s.completed ++ [c₀.call error₀]) g).map Call.chunk).Perm _) ∧
        (ofRegion (s.completed ++ [c₀.call error₀]) g).findSome? Call.error = error
      rw [ofRegion_append_other hg]
      exact ⟨hno, hperm, herr⟩ }

/-! ## The End of a Region -/

theorem Inv.finish (h : Inv s) {g₀ : Nat}
    (ht : s.loc t = .waiting g₀) (hdone : s.doneChunks = s.chunkCount) :
    Inv { s.move t (.leaving s.firstError) with
      body := none
      returned := s.returned ++ [(g₀, s.firstError)] } := by
  obtain ⟨r₀, hcur⟩ := h.inRegion t g₀ (by rw [ht]; rfl)
  have hholds : (s.loc t).holds = true := by rw [ht]; rfl
  have hnot : ∀ {u : Tid} {x : Claim B × Option (Option E)},
      (Function.update s.loc t (.leaving s.firstError) u).busy? = some x → False := by
    intro u x hu
    rw [busy?_update_none rfl (fun u _ => h.none_busy hcur hdone u)] at hu
    cases hu
  have hregion : ∀ u g, (Function.update s.loc t (.leaving s.firstError) u).region? ≠ some g := by
    intro u g hu
    by_cases hut : u = t
    · rw [hut, Function.update_self] at hu
      cases hu
    · rw [Function.update_of_ne hut] at hu
      exact hut (h.holds_unique hholds (Local.holds_of_region? hu))
  exact { h with
    holds := h.holds_update (fun _ => h.holds t hholds) (fun u hu _ => hu)
    owned := nofun
    inRegion := fun u g hu => absurd hu (hregion u g)
    claims := fun u c x hu => (hnot hu).elim
    distinct := fun u v c c' x x' hu => (hnot hu).elim
    next := nofun
    below := fun g r hc => absurd hc (not_current rfl g r)
    uncalled := fun u c hu => (hnot hu).elim
    called := fun u c error hu => (hnot hu).elim
    done := fun g r hc => absurd hc (not_current rfl g r)
    errors := fun g r hc => absurd hc (not_current rfl g r)
    returned := fun g error hm => by
      refine ⟨fun r hc => absurd hc (not_current rfl g r), ?_⟩
      rcases mem_append.mp hm with hm | hm
      · exact (h.returned g error hm).2
      · simp only [mem_singleton, Prod.mk.injEq] at hm
        obtain ⟨rfl, rfl⟩ := hm
        exact ⟨⟨r₀, hcur.region, h.all_done hcur hdone⟩, h.errors g r₀ hcur⟩ }

/-! ## Every Run -/

variable {s' : Pool Tid B E}

theorem step_inv {a : Act Tid B E} (h : Inv s) (hstep : step s a = some s') :
    Inv s' := by
  cases a with
  | serial t =>
    simp only [step, Option.some.injEq] at hstep
    exact hstep ▸ h
  | acquire t body count grain =>
    simp only [step] at hstep
    split at hstep
    next ht hm =>
      split at hstep
      next =>
        cases hstep
        exact h.takes ht hm rfl rfl
      next => cases hstep
    next => cases hstep
  | publish t =>
    simp only [step] at hstep
    split at hstep
    next ht =>
      cases hstep
      exact h.publish ht
    next => cases hstep
  | claim t =>
    simp only [step] at hstep
    split at hstep
    next role ht =>
      cases hstep
      -- no chunk is left: the thread only moves on
      have hafter : Inv (s.move t role.after) := by
        cases role with
        | caller g => exact h.goes ht rfl rfl rfl id
        | worker seen => exact h.goes ht rfl rfl rfl id
      simp only [Pool.claimChunk]
      split
      next => exact hafter
      next body hbody =>
        split
        next hlt => exact h.claim ht hbody hlt
        next => exact hafter
    next => cases hstep
  | call t error =>
    simp only [step] at hstep
    split at hstep
    next ht =>
      cases hstep
      exact h.call ht error
    next => cases hstep
  | complete t =>
    simp only [step] at hstep
    split at hstep
    next ht =>
      cases hstep
      exact h.complete ht
    next => cases hstep
  | finish t =>
    simp only [step] at hstep
    split at hstep
    next ht =>
      split at hstep
      next hdone =>
        cases hstep
        exact h.finish ht hdone
      next => cases hstep
    next => cases hstep
  | release t =>
    simp only [step] at hstep
    split at hstep
    next ht =>
      cases hstep
      exact h.leaves ht rfl rfl rfl
    next => cases hstep
  | wake t =>
    simp only [step] at hstep
    split at hstep
    next ht =>
      split at hstep
      next =>
        cases hstep
        exact h.goes ht rfl rfl rfl id
      next =>
        split at hstep
        next =>
          cases hstep
          exact h.goes ht rfl rfl rfl id
        next => cases hstep
    next => cases hstep
  | beginResize t threads =>
    simp only [step] at hstep
    split at hstep
    next ht hm =>
      cases hstep
      exact h.takes ht hm rfl rfl
    next => cases hstep
  | stopWorkers t =>
    simp only [step] at hstep
    split at hstep
    next ht =>
      cases hstep
      exact h.goes ht rfl rfl rfl id
    next => cases hstep
  | join t =>
    simp only [step] at hstep
    split at hstep
    next ht =>
      split at hstep
      next =>
        cases hstep
        exact h.goes ht rfl rfl rfl id
      next => cases hstep
    next => cases hstep
  | create t worker =>
    simp only [step] at hstep
    split at hstep
    next missing ht hw =>
      cases hstep
      have hne : worker ≠ t := by
        rintro rfl
        rw [ht] at hw
        cases hw
      have hfirst : Inv (s.move t (.creating missing)) := h.goes ht rfl rfl rfl id
      have hloc : (s.move t (.creating missing)).loc worker = .off := by
        simp only [Pool.move, Function.update_of_ne hne, hw]
      exact hfirst.goes hloc rfl rfl rfl id
    next => cases hstep
  | endResize t =>
    simp only [step] at hstep
    split at hstep
    next ht =>
      cases hstep
      exact h.leaves ht rfl rfl rfl
    next => cases hstep

theorem Reachable.inv (h : Reachable s) : Inv s := by
  induction h with
  | start hfresh => exact hfresh.inv
  | next _ hstep ih => exact step_inv ih hstep

/-- A region that is published has several chunks and an index for each. -/
structure Split (s : Pool Tid B E) : Prop where
  publishing : ∀ t body count chunks, s.loc t = .publishing body count chunks →
    0 < count ∧ 1 < chunks
  regions : ∀ r ∈ s.regions, 0 < r.count ∧ 1 < r.chunkCount

/-- A thread moves, and no region is published. -/
theorem Split.moved (h : Split s)
    (hl : ∀ body count chunks, l = .publishing body count chunks → 0 < count ∧ 1 < chunks)
    (hloc : s'.loc = Function.update s.loc t l)
    (hregions : s'.regions = s.regions) : Split s' where
  publishing u body count chunks hu := by
    rw [hloc] at hu
    by_cases hut : u = t
    · rw [hut, Function.update_self] at hu
      exact hl body count chunks hu
    · rw [Function.update_of_ne hut] at hu
      exact h.publishing u body count chunks hu
  regions r hr := h.regions r (hregions ▸ hr)

theorem step_split {a : Act Tid B E} (h : Split s)
    (hstep : step s a = some s') : Split s' := by
  cases a with
  | serial t =>
    simp only [step, Option.some.injEq] at hstep
    exact hstep ▸ h
  | acquire t body count grain =>
    simp only [step] at hstep
    split at hstep
    next =>
      split at hstep
      next hlt =>
        cases hstep
        have hnew : ∀ body' count' chunks',
            (Local.publishing body count (chunksOf s.threadCount count grain).toNat : Local B E) =
              .publishing body' count' chunks' → 0 < count' ∧ 1 < chunks' := by
          intro body' count' chunks' heq
          cases heq
          exact ⟨count_pos_of_chunksOf hlt, by omega⟩
        exact h.moved hnew rfl rfl
      next => cases hstep
    next => cases hstep
  | publish t =>
    simp only [step] at hstep
    split at hstep
    next body count chunks ht =>
      cases hstep
      constructor
      · intro u body' count' chunks' hu
        by_cases hut : u = t
        · simp only [Pool.move, hut, Function.update_self] at hu
          cases hu
        · simp only [Pool.move, Function.update_of_ne hut] at hu
          exact h.publishing u _ _ _ hu
      · intro r hr
        rcases mem_append.mp hr with hr | hr
        · exact h.regions r hr
        · rw [mem_singleton.mp hr]
          exact h.publishing t _ _ _ ht
    next => cases hstep
  | claim t =>
    simp only [step, Pool.claimChunk] at hstep
    split at hstep
    next role _ =>
      cases hstep
      have hafter : ∀ body count chunks, (role.after : Local B E) = .publishing body count chunks →
          0 < count ∧ 1 < chunks := by
        intro body count chunks heq
        cases role <;> cases heq
      split
      · exact h.moved hafter rfl rfl
      · split
        · exact h.moved (fun _ _ _ heq => by cases heq) rfl rfl
        · exact h.moved hafter rfl rfl
    next => cases hstep
  | create t worker =>
    simp only [step] at hstep
    split at hstep
    next missing _ _ =>
      cases hstep
      have hfirst : Split (s.move t (.creating missing)) :=
        h.moved (fun _ _ _ heq => by cases heq) rfl rfl
      exact hfirst.moved (fun _ _ _ heq => by cases heq) rfl rfl
    next => cases hstep
  | call t error | complete t | finish t | release t | wake t | beginResize t threads
  | stopWorkers t | join t | endResize t =>
    simp only [step] at hstep
    split at hstep <;> try split at hstep
    all_goals try split at hstep
    all_goals try cases hstep
    all_goals exact h.moved (fun _ _ _ heq => by cases heq) rfl rfl

theorem Reachable.split (h : Reachable s) : Split s := by
  induction h with
  | start hfresh =>
    constructor
    · intro t body count chunks ht
      rcases hfresh.outside t with h | h | h
      all_goals
        rw [h] at ht
        cases ht
    · simp [hfresh.regions]
  | next _ hstep ih => exact step_split ih hstep

/-- In every interleaving: a body runs only on the chunks of its own region, with that
    region's count and number of chunks, and never twice on one. A region returns after
    each of its chunks has been called and counted as done once, with an error exactly
    when one of its calls raised one, which is then one of theirs; and each index of the
    range is in exactly one of its calls. -/
theorem region_runs_once {s : Pool Tid B E} (h : Reachable s) :
    (∀ c ∈ s.calls, ∃ r, Made s.regions c r) ∧
    (s.calls.map Call.key).Nodup ∧
    (∀ g error, (g, error) ∈ s.returned → ∃ r, s.regions[g]? = some r ∧
      ((ofRegion s.calls g).map Call.chunk).Perm (List.range r.chunkCount) ∧
      ((ofRegion s.completed g).map Call.chunk).Perm (List.range r.chunkCount) ∧
      (error.isSome = true ↔ ∃ c ∈ s.calls, c.region = g ∧ c.error.isSome = true) ∧
      (∀ e, error = some e → ∃ c ∈ s.calls, c.region = g ∧ c.error = some e) ∧
      (r.count * r.chunkCount < 2 ^ 63 → ∀ i, 0 ≤ i → i < r.count →
        ∃! c, c ∈ s.calls ∧ c.region = g ∧ c.first ≤ i ∧ i < c.last)) ∧
    ∀ (g : Nat) (r : Region B), s.regions[g]? = some r → r.count * r.chunkCount < 2 ^ 63 →
      ∀ i, 0 ≤ i → i < r.count →
      ∀ c ∈ s.calls, c.region = g → c.first ≤ i ∧ i < c.last →
      ∀ c' ∈ s.calls, c'.region = g → c'.first ≤ i ∧ i < c'.last → c = c' := by
  have hinv := h.inv
  have hpos : ∀ {g : Nat} {r : Region B}, s.regions[g]? = some r → 0 < r.chunkCount := by
    intro g r hr
    have := (h.split.regions r (mem_of_getElem? hr)).2
    omega
  refine ⟨hinv.made, hinv.keys, ?_, ?_⟩
  · intro g error hret
    obtain ⟨-, ⟨r, hr, hperm⟩, herr⟩ := hinv.returned g error hret
    have hcalls := hinv.calls_perm hr hperm
    have hsome : ∀ e, error = some e → ∃ c ∈ s.calls, c.region = g ∧ c.error = some e := by
      intro e he
      rw [he] at herr
      obtain ⟨c, hc, hce⟩ := exists_of_findSome?_eq_some herr
      obtain ⟨hmem, hreg⟩ := mem_ofRegion.1 hc
      exact ⟨c, hinv.completed c hmem, hreg, hce⟩
    refine ⟨r, hr, hcalls, hperm, ⟨?_, ?_⟩, hsome, ?_⟩
    · intro he
      obtain ⟨e, rfl⟩ := Option.isSome_iff_exists.mp he
      obtain ⟨c, hc, hreg, hce⟩ := hsome e rfl
      exact ⟨c, hc, hreg, by rw [hce]; rfl⟩
    · intro hex
      obtain ⟨c, hc, hreg, hce⟩ := hex
      rw [← herr, findSome?_isSome_iff]
      exact ⟨c, hinv.mem_completed hr hperm hc hreg, hce⟩
    · intro hfits i hlo hhi
      obtain ⟨k, ⟨hk, hrange⟩, -⟩ := existsUnique_chunk (hpos hr) hfits hlo hhi
      obtain ⟨c, hc, hchunk⟩ :=
        mem_map.mp (hcalls.mem_iff.mpr (mem_range.mpr hk))
      obtain ⟨hmem, hreg⟩ := mem_ofRegion.1 hc
      obtain ⟨r', hm⟩ := hinv.made c hmem
      have hr' := hm.region
      rw [hreg, hr, Option.some.injEq] at hr'
      subst hr'
      have hin : c.first ≤ i ∧ i < c.last := by
        rw [hm.first, hm.last, hchunk]
        exact hrange
      refine ⟨c, ⟨hmem, hreg, hin⟩, ?_⟩
      intro c' hc'
      exact hinv.index_unique hr (hpos hr) hfits hlo hhi hc'.1 hc'.2.1 hc'.2.2 hmem hreg hin
  · intro g r hr hfits i hlo hhi c hc hreg hin c' hc' hreg' hin'
    exact hinv.index_unique hr (hpos hr) hfits hlo hhi hc hreg hin hc' hreg' hin'

/-- Several steps, one after the other. -/
def steps (s : Pool Tid B E) (acts : List (Act Tid B E)) : Option (Pool Tid B E) :=
  acts.foldlM step s

theorem Reachable.steps (h : Reachable s) {acts : List (Act Tid B E)}
    (hsteps : steps s acts = some s') : Reachable s' := by
  induction acts generalizing s with
  | nil =>
    cases hsteps
    exact h
  | cons a acts ih =>
    simp only [Tensor.steps, foldlM_cons, Option.bind_eq_bind,
      Option.bind_eq_some_iff] at hsteps
    obtain ⟨s₁, hstep, hrest⟩ := hsteps
    exact ih (.next h hstep) hrest

/-- A thread of the program and one worker. -/
def twoThreads : Pool Bool Unit Unit where
  regionMutex := none
  threadCount := 2
  workers := [false]
  stopping := false
  body := none
  count := 0
  chunkCount := 0
  nextChunk := 0
  doneChunks := 0
  generation := 0
  firstError := none
  loc t := if t then .outside else .asleep 0
  regions := []
  calls := []
  completed := []
  returned := []

/-- A region of four indices in two chunks, the one of the worker with an exception. -/
def twoChunks : List (Act Bool Unit Unit) :=
  [.acquire true () 4 1, .publish true, .wake false, .claim true, .claim false, .call true none,
    .call false (some ()), .complete false, .complete true, .claim true, .claim false, .finish true]

theorem region_runs_once_twoChunks :
    ∃ s, steps twoThreads twoChunks = some s ∧ (0, some ()) ∈ s.returned ∧
      ∃ r, s.regions[0]? = some r ∧
        ((ofRegion s.completed 0).map Call.chunk).Perm (List.range r.chunkCount) := by
  have hfresh : Fresh twoThreads := by
    constructor
    · rfl
    · rfl
    · intro t
      cases t
      · exact .inr (.inr rfl)
      · exact .inr (.inl rfl)
    all_goals rfl
  obtain ⟨s, hs, hret⟩ : ∃ s, steps twoThreads twoChunks = some s ∧ (0, some ()) ∈ s.returned :=
    ⟨_, rfl, mem_singleton.mpr rfl⟩
  have hreach : Reachable s := (Reachable.start hfresh).steps hs
  obtain ⟨r, hr, -, hperm, -⟩ := (region_runs_once hreach).2.2.1 0 (some ()) hret
  exact ⟨s, hs, hret, r, hr, hperm⟩

end Camel.Tensor
