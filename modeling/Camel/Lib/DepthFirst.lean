import Mathlib

/-! # Depth-First Search for a Cycle

    A search that keeps a stack of its own: each frame holds a vertex and the successors it has
    not looked at yet. A vertex is unvisited, on the stack, or finished. A successor on the stack
    closes a cycle; when the search ends without one, no vertex it started from reaches one.
-/

namespace Camel.Lib.DepthFirst

open List Function

variable {V : Type}

/-! ## The Search -/

/-- Vertices name their successors; some of these may not be there. -/
structure Graph (V : Type) where
  succ : V → List V
  present : V → Bool

inductive Mark where
  | unvisited | onStack | finished
  deriving DecidableEq

structure Frame (V : Type) where
  node : V
  rest : List V

/-- The frames with the top first. -/
structure Search (V : Type) where
  mark : V → Mark
  stack : List (Frame V)

inductive Outcome (V : Type) where
  | running (s : Search V)
  | closed (node : V) (path : List V)

section Run

variable [DecidableEq V] (g : Graph V)

/-- The vertices of the stack from `v` up to the top. -/
def pathFrom (stack : List (Frame V)) (v : V) : List V :=
  (stack.map (·.node)).reverse.dropWhile (· ≠ v)

/-- The start of the search at a vertex. -/
def Search.begin (mark : V → Mark) (start : V) : Search V :=
  ⟨update mark start .onStack, [⟨start, g.succ start⟩]⟩

/-- One turn, which the empty stack does not have. -/
def step (s : Search V) : Option (Outcome V) :=
  match s.stack with
  | [] => none
  | ⟨v, []⟩ :: below => some (.running ⟨update s.mark v .finished, below⟩)
  | ⟨v, u :: rest⟩ :: below =>
    if g.present u = false then some (.running ⟨s.mark, ⟨v, rest⟩ :: below⟩)
    else
      match s.mark u with
      | .onStack => some (.closed u (pathFrom (⟨v, rest⟩ :: below) u))
      | .unvisited => some (.running
          ⟨update s.mark u .onStack, ⟨u, g.succ u⟩ :: ⟨v, rest⟩ :: below⟩)
      | .finished => some (.running ⟨s.mark, ⟨v, rest⟩ :: below⟩)

/-- The turns until the stack is empty or a cycle is closed, if they are so few. -/
def walk : Nat → Search V → Option ((V → Mark) ⊕ V × List V)
  | 0, _ => none
  | fuel + 1, s =>
    match step g s with
    | none => some (.inl s.mark)
    | some (.running s') => walk fuel s'
    | some (.closed v path) => some (.inr (v, path))

/-- From every start that is there and not visited yet. -/
def searchWithin (fuel : Nat) : List V → (V → Mark) → Option (Option (V × List V))
  | [], _ => some none
  | start :: starts, mark =>
    if mark start ≠ .unvisited ∨ g.present start = false then searchWithin fuel starts mark
    else
      match walk g fuel (Search.begin g mark start) with
      | none => none
      | some (.inl mark') => searchWithin fuel starts mark'
      | some (.inr found) => some (some found)

end Run

/-! ## Cycles -/

/-- `u` is a successor of `v` that is there. -/
def Graph.Edge (g : Graph V) (u v : V) : Prop := g.present u = true ∧ u ∈ g.succ v

/-- Some vertex that is there leads back to itself. -/
def Graph.Cyclic (g : Graph V) : Prop :=
  ∃ v, g.present v = true ∧ Relation.TransGen g.Edge v v

/-- A path that closes: it begins at `v`, each vertex is a successor of the one before it, `v` is
    one of the last, and no vertex comes twice. -/
structure Graph.Closes (g : Graph V) (v : V) (path : List V) : Prop where
  head : path.head? = some v
  steps : path.IsChain fun a b => b ∈ g.succ a
  closing : ∃ last, path.getLast? = some last ∧ v ∈ g.succ last
  present : ∀ u ∈ path, g.present u = true
  nodup : path.Nodup

variable {v : V}

/-- What is accessible does not lead back to itself. -/
theorem not_transGen_self {r : V → V → Prop} (h : Acc r v) : ¬Relation.TransGen r v v := by
  have hacc := h.transGen
  induction hacc with
  | intro v _ ih => exact fun hv => ih v hv (h.inv_of_transGen hv) hv

/-- Along a path the last vertex is reached from every vertex. -/
theorem transGen_of_chain {g : Graph V} {path : List V} {last : V}
    (hchain : (v :: path).IsChain fun a b => b ∈ g.succ a)
    (hpresent : ∀ u ∈ v :: path, g.present u = true) (hlast : (v :: path).getLast? = some last) :
    Relation.ReflTransGen g.Edge last v := by
  induction path generalizing v with
  | nil =>
    rw [getLast?_singleton] at hlast
    cases hlast
    exact .refl
  | cons u path ih =>
    rw [isChain_cons_cons] at hchain
    have hu : g.present u = true := hpresent u (by simp)
    have hrest : Relation.ReflTransGen g.Edge last u := by
      apply ih hchain.2 fun w hw => hpresent w (mem_cons_of_mem v hw)
      rw [← hlast, getLast?_cons_cons]
    exact hrest.tail ⟨hu, hchain.1⟩

theorem Graph.Closes.cyclic {g : Graph V} {path : List V} (h : g.Closes v path) :
    g.Cyclic := by
  cases path with
  | nil => exact nomatch h.head
  | cons u path =>
    obtain rfl := Option.some.inj h.head
    obtain ⟨last, hlast, hclosing⟩ := h.closing
    have hu : g.present u = true := h.present u mem_cons_self
    exact ⟨u, hu, .head' ⟨hu, hclosing⟩ (transGen_of_chain h.steps h.present hlast)⟩

section Proof

variable [DecidableEq V] {g : Graph V} {U : Finset V} {mark : V → Mark} {s s' : Search V}

/-! ## The Search Ends -/

/-- A vertex takes a turn for each of its successors, one to enter it and one to leave it. -/
def Graph.turns (g : Graph V) (v : V) : Nat := (g.succ v).length + 2

/-- The turns that the unvisited vertices can still take. -/
def pending (g : Graph V) (U : Finset V) (mark : V → Mark) : Nat :=
  ∑ v ∈ U, if mark v = .unvisited then g.turns v else 0

def Search.weight (g : Graph V) (U : Finset V) (s : Search V) : Nat :=
  pending g U s.mark + (s.stack.map fun f => f.rest.length + 1).sum

omit [DecidableEq V] in
theorem pending_le (g : Graph V) (U : Finset V) (mark : V → Mark) :
    pending g U mark ≤ ∑ v ∈ U, g.turns v := by
  unfold pending
  apply Finset.sum_le_sum
  intro v _
  split
  · exact Nat.le_refl _
  · exact Nat.zero_le _

variable {u : V}

/-- A vertex that is visited takes its turns out of what is pending. -/
theorem pending_visit {m : Mark} (hu : u ∈ U) (hmark : mark u = .unvisited)
    (hm : m ≠ .unvisited) : pending g U (update mark u m) + g.turns u = pending g U mark := by
  unfold pending
  rw [← Finset.add_sum_erase U _ hu, ← Finset.add_sum_erase U _ hu, update_self,
    if_neg hm, if_pos hmark, zero_add, add_comm]
  congr 1
  apply Finset.sum_congr rfl
  intro v hv
  rw [update_of_ne (Finset.ne_of_mem_erase hv)]

theorem pending_update_le {u : V} {m : Mark} (hm : m ≠ .unvisited) :
    pending g U (update mark u m) ≤ pending g U mark := by
  unfold pending
  apply Finset.sum_le_sum
  intro v _
  by_cases hv : v = u
  · subst hv
    rw [update_self, if_neg hm]
    exact Nat.zero_le _
  · rw [update_of_ne hv]

/-- Each turn takes something off the weight. -/
theorem step_weight (hU : ∀ v, g.present v = true → v ∈ U) (h : step g s = some (.running s')) :
    s'.weight g U < s.weight g U := by
  obtain ⟨mark, stack⟩ := s
  unfold step at h
  split at h
  · cases h
  · next v below hstack =>
    cases h
    have hle := @pending_update_le _ _ g U mark v .finished nofun
    change stack = _ at hstack
    subst hstack
    unfold Search.weight
    simp only [map_cons, sum_cons, length_nil]
    omega
  · next v u rest below hstack =>
    change stack = _ at hstack
    subst hstack
    split at h
    · cases h
      unfold Search.weight
      simp only [map_cons, sum_cons, length_cons]
      omega
    · next hpresent =>
      rw [Bool.not_eq_false] at hpresent
      change (match mark u with
        | .onStack => _
        | .unvisited => _
        | .finished => _) = _ at h
      split at h
      · cases h
      · next hmark =>
        cases h
        have hvisit := pending_visit (g := g) (m := .onStack) (hU u hpresent) hmark nofun
        unfold Graph.turns at hvisit
        unfold Search.weight
        simp only [map_cons, sum_cons, length_cons]
        omega
      · cases h
        unfold Search.weight
        simp only [map_cons, sum_cons, length_cons]
        omega

variable {fuel : Nat}

theorem walk_ends (hU : ∀ v, g.present v = true → v ∈ U)
    (hfuel : s.weight g U < fuel) : ∃ r, walk g fuel s = some r := by
  induction fuel generalizing s with
  | zero => omega
  | succ fuel ih =>
    unfold walk
    split
    · exact ⟨_, rfl⟩
    · next s' hstep =>
      have hweight := step_weight hU hstep
      exact ih (by omega)
    · exact ⟨_, rfl⟩

theorem weight_begin {start : V} (hstart : start ∈ U) (hmark : mark start = .unvisited) :
    (Search.begin g mark start).weight g U < ∑ v ∈ U, g.turns v := by
  have hvisit := pending_visit (g := g) (m := .onStack) hstart hmark nofun
  have hle := pending_le g U mark
  unfold Graph.turns at hvisit
  unfold Search.begin Search.weight
  simp only [map_cons, map_nil, sum_cons, sum_nil]
  omega

theorem searchWithin_ends (hU : ∀ v, g.present v = true → v ∈ U)
    (hfuel : ∑ v ∈ U, g.turns v ≤ fuel) (starts : List V) (mark : V → Mark) :
    ∃ r, searchWithin g fuel starts mark = some r := by
  induction starts generalizing mark with
  | nil => exact ⟨none, rfl⟩
  | cons start starts ih =>
    unfold searchWithin
    split
    · exact ih mark
    · next hnew =>
      rw [not_or, not_not, Bool.not_eq_false] at hnew
      have hweight := weight_begin (g := g) (hU start hnew.2) hnew.1
      obtain ⟨r, hr⟩ := walk_ends hU (lt_of_lt_of_le hweight hfuel)
      rw [hr]
      cases r with
      | inl mark' => exact ih mark'
      | inr found => exact ⟨some found, rfl⟩

/-! ## What Holds at Each Turn -/

/-- What a frame has gone past is finished, the frame above it apart. -/
def Passed (g : Graph V) (mark : V → Mark) : Option V → List (Frame V) → Prop
  | _, [] => True
  | above, f :: below =>
    (∀ u ∈ g.succ f.node, g.present u = true →
      u ∈ f.rest ∨ mark u = .finished ∨ above = some u) ∧ Passed g mark (some f.node) below

/-- The stack is a path whose vertices are the ones marked so, and what is finished leads to no
    cycle. -/
structure Inv (g : Graph V) (s : Search V) : Prop where
  nodup : (s.stack.map (·.node)).Nodup
  onStack : ∀ v, s.mark v = .onStack ↔ v ∈ s.stack.map (·.node)
  present : ∀ f ∈ s.stack, g.present f.node = true
  chain : (s.stack.map (·.node)).IsChain fun a b => a ∈ g.succ b
  rest : ∀ f ∈ s.stack, ∀ u ∈ f.rest, u ∈ g.succ f.node
  passed : Passed g s.mark none s.stack
  finished : ∀ v, s.mark v = .finished → Acc g.Edge v

omit [DecidableEq V] in
/-- `Passed` does not mind marks that do not become less finished. -/
theorem Passed.mono {mark' : V → Mark} (h : ∀ u, mark u = .finished → mark' u = .finished)
    {above : Option V} {stack : List (Frame V)} (hpassed : Passed g mark above stack) :
    Passed g mark' above stack := by
  induction stack generalizing above with
  | nil => trivial
  | cons f below ih =>
    refine ⟨fun u hu hpresent => ?_, ih hpassed.2⟩
    rcases hpassed.1 u hu hpresent with hrest | hdone | habove
    · exact .inl hrest
    · exact .inr (.inl (h u hdone))
    · exact .inr (.inr habove)

omit [DecidableEq V] in
/-- Once the vertex above is finished, it need not be named. -/
theorem Passed.forget {v : V} (hv : mark v = .finished) {stack : List (Frame V)}
    (h : Passed g mark (some v) stack) : Passed g mark none stack := by
  cases stack with
  | nil => trivial
  | cons f below =>
    refine ⟨fun u hu hpresent => ?_, h.2⟩
    rcases h.1 u hu hpresent with hrest | hdone | habove
    · exact .inl hrest
    · exact .inr (.inl hdone)
    · obtain rfl := Option.some.inj habove
      exact .inr (.inl hv)

variable {below : List (Frame V)}

omit [DecidableEq V] in
/-- A frame that has looked at everything leads to no cycle. -/
theorem Inv.acc_top {v : V} (h : Inv g ⟨mark, ⟨v, []⟩ :: below⟩) :
    Acc g.Edge v := by
  constructor
  intro u hedge
  rcases h.passed.1 u hedge.2 hedge.1 with hrest | hdone | habove
  · cases hrest
  · exact h.finished u hdone
  · cases habove

theorem Inv.pop {v : V} (h : Inv g ⟨mark, ⟨v, []⟩ :: below⟩) :
    Inv g ⟨update mark v .finished, below⟩ := by
  have hnodup : v ∉ below.map (·.node) ∧ (below.map (·.node)).Nodup :=
    nodup_cons.1 h.nodup
  have hmore : ∀ u, mark u = .finished → update mark v .finished u = .finished := by
    intro u hu
    by_cases huv : u = v
    · rw [huv, update_self]
    · rw [update_of_ne huv, hu]
  constructor
  · exact hnodup.2
  · intro u
    show update mark v .finished u = _ ↔ u ∈ below.map (·.node)
    by_cases huv : u = v
    · subst huv
      rw [update_self]
      exact ⟨nofun, fun hmem => absurd hmem hnodup.1⟩
    · have honStack := h.onStack u
      rw [map_cons, mem_cons] at honStack
      rw [update_of_ne huv]
      exact honStack.trans ⟨fun hmem => hmem.resolve_left huv, .inr⟩
  · exact fun f hf => h.present f (.tail _ hf)
  · exact h.chain.tail
  · exact fun f hf => h.rest f (.tail _ hf)
  · exact (h.passed.2.mono hmore).forget (update_self ..)
  · intro u hu
    by_cases huv : u = v
    · subst huv
      exact h.acc_top
    · change update mark v .finished u = _ at hu
      rw [update_of_ne huv] at hu
      exact h.finished u hu

variable {rest : List V}

omit [DecidableEq V] in
/-- A successor that is not there, or finished, is gone past. -/
theorem Inv.skip {v : V}
    (h : Inv g ⟨mark, ⟨v, u :: rest⟩ :: below⟩)
    (hskip : g.present u = true → mark u = .finished) : Inv g ⟨mark, ⟨v, rest⟩ :: below⟩ := by
  constructor
  · exact h.nodup
  · exact h.onStack
  · intro f hf
    rcases mem_cons.1 hf with rfl | hf
    · exact h.present ⟨v, u :: rest⟩ mem_cons_self
    · exact h.present f (.tail _ hf)
  · exact h.chain
  · intro f hf w hw
    rcases mem_cons.1 hf with rfl | hf
    · exact h.rest ⟨v, u :: rest⟩ mem_cons_self w (mem_cons_of_mem u hw)
    · exact h.rest f (.tail _ hf) w hw
  · refine ⟨fun w hw hpresent => ?_, h.passed.2⟩
    rcases h.passed.1 w hw hpresent with hrest | hdone | habove
    · rcases mem_cons.1 hrest with rfl | hrest
      · exact .inr (.inl (hskip hpresent))
      · exact .inl hrest
    · exact .inr (.inl hdone)
    · cases habove
  · exact h.finished

theorem Inv.push {v : V}
    (h : Inv g ⟨mark, ⟨v, u :: rest⟩ :: below⟩) (hpresent : g.present u = true)
    (hmark : mark u = .unvisited) :
    Inv g ⟨update mark u .onStack, ⟨u, g.succ u⟩ :: ⟨v, rest⟩ :: below⟩ := by
  have hnew : u ∉ (⟨v, u :: rest⟩ :: below : List (Frame V)).map (·.node) := by
    intro hmem
    have hon : mark u = .onStack := (h.onStack u).2 hmem
    rw [hmark] at hon
    cases hon
  have hne : ∀ w, mark w = .finished → w ≠ u := by
    rintro w hw rfl
    rw [hmark] at hw
    cases hw
  have hmore : ∀ w, mark w = .finished → update mark u .onStack w = .finished := by
    intro w hw
    rw [update_of_ne (hne w hw), hw]
  constructor
  · exact nodup_cons.2 ⟨hnew, h.nodup⟩
  · intro w
    show update mark u .onStack w = _ ↔ w ∈ u :: v :: below.map (·.node)
    by_cases hwu : w = u
    · subst hwu
      rw [update_self]
      exact ⟨fun _ => mem_cons_self, fun _ => rfl⟩
    · rw [update_of_ne hwu, mem_cons]
      exact (h.onStack w).trans ⟨.inr, fun hmem => hmem.resolve_left hwu⟩
  · intro f hf
    rcases mem_cons.1 hf with rfl | hf
    · exact hpresent
    · rcases mem_cons.1 hf with rfl | hf
      · exact h.present ⟨v, u :: rest⟩ mem_cons_self
      · exact h.present f (.tail _ hf)
  · have hedge : u ∈ g.succ v := h.rest ⟨v, u :: rest⟩ mem_cons_self u mem_cons_self
    exact isChain_cons_cons.2 ⟨hedge, h.chain⟩
  · intro f hf w hw
    rcases mem_cons.1 hf with rfl | hf
    · exact hw
    · rcases mem_cons.1 hf with rfl | hf
      · exact h.rest ⟨v, u :: rest⟩ mem_cons_self w (mem_cons_of_mem u hw)
      · exact h.rest f (.tail _ hf) w hw
  · refine ⟨fun w hw _ => .inl hw, fun w hw hpresentw => ?_, h.passed.2.mono hmore⟩
    rcases h.passed.1 w hw hpresentw with hrest | hdone | habove
    · rcases mem_cons.1 hrest with rfl | hrest
      · exact .inr (.inr rfl)
      · exact .inl hrest
    · exact .inr (.inl (hmore w hdone))
    · cases habove
  · intro w hw
    change update mark u .onStack w = _ at hw
    by_cases hwu : w = u
    · subst hwu
      rw [update_self] at hw
      cases hw
    · rw [update_of_ne hwu] at hw
      exact h.finished w hw

/-- The vertices from `u` up to the top close a cycle when `u` is a successor of the top. -/
theorem Inv.closes {v : V}
    (h : Inv g ⟨mark, ⟨v, u :: rest⟩ :: below⟩) (hmark : mark u = .onStack) :
    g.Closes u (pathFrom (⟨v, rest⟩ :: below) u) := by
  have hu : u ∈ v :: below.map (·.node) := (h.onStack u).1 hmark
  have hedge : u ∈ g.succ v := h.rest ⟨v, u :: rest⟩ mem_cons_self u mem_cons_self
  have hsuffix : pathFrom (⟨v, rest⟩ :: below) u <:+ (v :: below.map (·.node)).reverse :=
    dropWhile_suffix _
  have hne : pathFrom (⟨v, rest⟩ :: below) u ≠ [] := by
    unfold pathFrom
    rw [Ne, dropWhile_eq_nil_iff]
    intro hall
    have hself := hall u (mem_reverse.2 hu)
    rw [decide_eq_true_eq] at hself
    exact hself rfl
  constructor
  · rw [head?_eq_some_head hne]
    have hhead : decide ((pathFrom (⟨v, rest⟩ :: below) u).head hne ≠ u) = false :=
      head_dropWhile_not (fun w => decide (w ≠ u)) hne
    rw [decide_eq_false_iff_not, not_not] at hhead
    exact congrArg some hhead
  · -- on the stack each vertex is a successor of the one below it
    have hreverse := List.isChain_reverse.2 h.chain
    exact hreverse.suffix hsuffix
  · refine ⟨v, ?_, hedge⟩
    obtain ⟨dropped, hdropped⟩ := hsuffix
    have hlast : (dropped ++ pathFrom (⟨v, rest⟩ :: below) u).getLast? = some v := by
      rw [hdropped, getLast?_reverse]
      rfl
    rw [getLast?_append_of_ne_nil _ hne] at hlast
    exact hlast
  · intro w hw
    have hmem : w ∈ v :: below.map (·.node) := mem_reverse.1 (hsuffix.subset hw)
    rw [show v :: below.map (·.node) =
      (⟨v, u :: rest⟩ :: below : List (Frame V)).map (·.node) from rfl] at hmem
    obtain ⟨f, hf, rfl⟩ := mem_map.1 hmem
    exact h.present f hf
  · exact (List.nodup_reverse.2 h.nodup).sublist hsuffix.sublist

/-! ## Turns, Walks and the Search -/

/-- A turn keeps the invariant and forgets no visit, or closes a cycle. -/
theorem Inv.step (h : Inv g s) {o : Outcome V} (hstep : DepthFirst.step g s = some o) :
    match o with
    | .running s' => Inv g s' ∧ ∀ v, s.mark v ≠ .unvisited → s'.mark v ≠ .unvisited
    | .closed v path => g.Closes v path := by
  obtain ⟨mark, stack⟩ := s
  unfold DepthFirst.step at hstep
  split at hstep
  · cases hstep
  · next v below hstack =>
    change stack = _ at hstack
    subst hstack
    cases hstep
    refine ⟨h.pop, fun u hu => ?_⟩
    show update mark v .finished u ≠ _
    by_cases huv : u = v
    · rw [huv, update_self]
      exact nofun
    · rw [update_of_ne huv]
      exact hu
  · next v u rest below hstack =>
    change stack = _ at hstack
    subst hstack
    split at hstep
    · next hpresent =>
      cases hstep
      exact ⟨h.skip fun hp => absurd hp (by rw [hpresent]; exact nofun), fun _ hu => hu⟩
    · next hpresent =>
      rw [Bool.not_eq_false] at hpresent
      change (match mark u with
        | .onStack => _
        | .unvisited => _
        | .finished => _) = _ at hstep
      split at hstep
      · next hmark =>
        cases hstep
        exact h.closes hmark
      · next hmark =>
        cases hstep
        refine ⟨h.push hpresent hmark, fun w hw => ?_⟩
        show update mark u .onStack w ≠ _
        by_cases hwu : w = u
        · rw [hwu, update_self]
          exact nofun
        · rw [update_of_ne hwu]
          exact hw
      · next hmark =>
        cases hstep
        exact ⟨h.skip fun _ => hmark, fun _ hu => hu⟩

/-- A walk ends on an empty stack, with everything it had visited finished, or closes a cycle. -/
theorem Inv.walk (h : Inv g s) {r : (V → Mark) ⊕ V × List V}
    (hwalk : DepthFirst.walk g fuel s = some r) :
    match r with
    | .inl mark' => Inv g ⟨mark', []⟩ ∧ ∀ v, s.mark v ≠ .unvisited → mark' v = .finished
    | .inr (v, path) => g.Closes v path := by
  induction fuel generalizing s with
  | zero => cases hwalk
  | succ fuel ih =>
    unfold DepthFirst.walk at hwalk
    split at hwalk
    · next hstep =>
      cases hwalk
      obtain ⟨mark, stack⟩ := s
      -- only the empty stack has no turn
      have hempty : stack = [] := by
        unfold DepthFirst.step at hstep
        split at hstep
        · next hstack => exact hstack
        · cases hstep
        · split at hstep
          · cases hstep
          · split at hstep <;> cases hstep
      subst hempty
      refine ⟨h, fun v hv => ?_⟩
      cases hmark : mark v with
      | unvisited => exact absurd hmark hv
      | onStack => exact nomatch (h.onStack v).1 hmark
      | finished => exact hmark
    · next s' hstep =>
      obtain ⟨hinv, hvisited⟩ := h.step hstep
      have hrest := ih hinv hwalk
      cases r with
      | inl mark' => exact ⟨hrest.1, fun v hv => hrest.2 v (hvisited v hv)⟩
      | inr found => exact hrest
    · next v path hstep =>
      cases hwalk
      exact h.step hstep

theorem Inv.begin {start : V} (h : Inv g ⟨mark, []⟩) (hmark : mark start = .unvisited)
    (hpresent : g.present start = true) : Inv g (Search.begin g mark start) := by
  have hidle : ∀ v, mark v ≠ .onStack := fun v hv => nomatch (h.onStack v).1 hv
  constructor
  · exact nodup_singleton start
  · intro v
    show update mark start .onStack v = _ ↔ v ∈ [start]
    by_cases hv : v = start
    · rw [hv, update_self]
      exact ⟨fun _ => mem_singleton.2 rfl, fun _ => rfl⟩
    · rw [update_of_ne hv]
      exact ⟨fun hon => absurd hon (hidle v), fun hmem => absurd (mem_singleton.1 hmem) hv⟩
  · intro f hf
    obtain rfl := mem_singleton.1 hf
    exact hpresent
  · exact isChain_singleton start
  · intro f hf u hu
    obtain rfl := mem_singleton.1 hf
    exact hu
  · exact ⟨fun u hu _ => .inl hu, trivial⟩
  · intro v hv
    change update mark start .onStack v = _ at hv
    by_cases hvs : v = start
    · subst hvs
      rw [update_self] at hv
      cases hv
    · rw [update_of_ne hvs] at hv
      exact h.finished v hv

/-- What the search says: the cycle it found, or that no start leads to one. -/
theorem searchWithin_spec {starts : List V} {r : Option (V × List V)}
    (h : Inv g ⟨mark, []⟩) (hsearch : searchWithin g fuel starts mark = some r) :
    match r with
    | some (v, path) => g.Closes v path
    | none => ∀ v ∈ starts, g.present v = true → Acc g.Edge v := by
  induction starts generalizing mark with
  | nil =>
    cases hsearch
    exact nofun
  | cons start starts ih =>
    unfold searchWithin at hsearch
    split at hsearch
    · next hold =>
      have hrest := ih h hsearch
      cases r with
      | some found => exact hrest
      | none =>
        intro v hv hpresent
        rcases mem_cons.1 hv with rfl | hv
        · rcases hold with hold | habsent
          · -- between two starts nothing is on the stack
            cases hmark : mark v with
            | unvisited => exact absurd hmark hold
            | onStack => exact nomatch (h.onStack v).1 hmark
            | finished => exact h.finished v hmark
          · rw [habsent] at hpresent
            cases hpresent
        · exact hrest v hv hpresent
    · next hnew =>
      rw [not_or, not_not, Bool.not_eq_false] at hnew
      have hbegin := h.begin hnew.1 hnew.2
      split at hsearch
      · cases hsearch
      · next mark' hwalk =>
        obtain ⟨hinv, hvisited⟩ := hbegin.walk hwalk
        have hrest := ih hinv hsearch
        cases r with
        | some found => exact hrest
        | none =>
          intro v hv hpresent
          rcases mem_cons.1 hv with rfl | hv
          · apply hinv.finished v
            apply hvisited v
            show update mark v .onStack v ≠ _
            rw [update_self]
            exact nofun
          · exact hrest v hv hpresent
      · next found hwalk =>
        cases hsearch
        exact hbegin.walk hwalk

omit [DecidableEq V] in
theorem inv_unvisited (g : Graph V) : Inv g ⟨fun _ => .unvisited, []⟩ where
  nodup := nodup_nil
  onStack := fun _ => ⟨nofun, nofun⟩
  present := nofun
  chain := isChain_nil
  rest := nofun
  passed := trivial
  finished := nofun

/-- With every vertex among its starts, a search says nothing just when there is no cycle, and
    what it says closes one. -/
theorem search_right {starts : List V} {r : Option (V × List V)}
    (hstarts : ∀ v, g.present v = true → v ∈ starts)
    (hsearch : searchWithin g fuel starts (fun _ => .unvisited) = some r) :
    (r.isSome = true ↔ g.Cyclic) ∧ ∀ v path, r = some (v, path) → g.Closes v path := by
  have hspec := searchWithin_spec (inv_unvisited g) hsearch
  cases r with
  | some found =>
    refine ⟨⟨fun _ => hspec.cyclic, fun _ => rfl⟩, fun v path hfound => ?_⟩
    cases hfound
    exact hspec
  | none =>
    refine ⟨⟨nofun, ?_⟩, nofun⟩
    rintro ⟨v, hpresent, hcycle⟩
    exact absurd hcycle (not_transGen_self (hspec v (hstarts v hpresent) hpresent))

end Proof

end Camel.Lib.DepthFirst
