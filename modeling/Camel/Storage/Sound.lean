import Camel.Storage.Walk

/-! # Storage Reused without an Observer

    Along a run the bit of the walk is followed as well. It says what the cell holds,
    in whatever order the nodes are taken; and where every arm and every loop leaves
    the cell as it found it, it is at each update the bit the walk had there.
-/

namespace Camel.Storage

open List

open Plan (Ref NodeKind Block Stmt Arms)

variable {graph : Graph} {topo : List Ref} {plan : ExecPlan} {prog : Block} {c : Ref}

/-! ## The bit says what the cell holds -/

/-- The bit after the node at a position. -/
def stepAt (graph : Graph) (topo : List Ref) (c : Ref) (o : Bool) (i : Nat) : Bool :=
  (topo[i]?).elim o (stepCell graph c o)

/-- The bit after a run. -/
def passes (graph : Graph) (topo : List Ref) (c : Ref) (o : Bool) (run : List Nat) : Bool :=
  run.foldl (stepAt graph topo c) o

theorem through_behind (hgates : ∀ ref ∈ topo, ∀ x ∈ graph.inputsOf ref,
    graph.kindOf x = some .gate → x ∈ topo) {guard : Nat} {x : Ref}
    (hx : graph.kindOf x = some .gate → x ∈ topo)
    (h : Plan.valueBehindGates graph.kindOf graph.normInputsOf guard x = c) :
    Through graph topo c x := by
  induction guard generalizing x with
  | zero =>
    obtain rfl : x = c := h
    exact .cell
  | succ guard ih =>
    unfold Plan.valueBehindGates at h
    split at h
    · rename_i input rest hkind hinputs
      -- one more GATE
      have hin : input ∈ graph.inputsOf x := by
        unfold Graph.inputsOf
        rw [hinputs]
        simp
      have hthrough := ih (hgates x (hx hkind) input hin) h
      exact .gate hthrough (mem_users.2 ⟨hx hkind, hin⟩) hkind
    · obtain rfl : x = c := h
      exact .cell

variable {o : Bool} {p : Nat} {n : Nat} {l : List Ref} {i : Nat} {ref : Ref}

/-- A node that leaves the cell owned or not is its declaration or reads it. -/
theorem uses_of_effect (hgates : ∀ ref ∈ topo, ∀ x ∈ graph.inputsOf ref,
    graph.valueBehindGates x = graph.behindAll x) (href : ref ∈ topo) {v : Bool}
    (h : graph.effectOf ref = some (c, v)) : ref = c ∨ graph.uses ref c = true := by
  have hcell : graph.cellOfNode ref = some c → graph.uses ref c = true := by
    intro hcell
    unfold Graph.cellOfNode at hcell
    obtain ⟨x, hx, hxc⟩ := Option.map_eq_some_iff.mp hcell
    have hin : x ∈ graph.inputsOf ref := mem_append_left _ (mem_of_mem_head? hx)
    unfold Graph.uses
    rw [any_eq_true]
    exact ⟨x, hin, by rw [← hgates ref href x hin, hxc]; simp⟩
  unfold Graph.effectOf at h
  split at h
  · cases h
  split at h
  · cases h
  split at h
  · obtain ⟨cell, hcell', heq⟩ := Option.map_eq_some_iff.mp h
    cases heq
    exact .inr (hcell hcell')
  · cases h
    exact .inl rfl
  · obtain ⟨cell, hcell', heq⟩ := Option.map_eq_some_iff.mp h
    cases heq
    exact .inr (hcell hcell')
  · cases h

/-- The bit is only set for a value of the variable's own that nothing kept. -/
theorem holdStep_of_stepCell (L : Lays graph plan prog) (O : Orderly graph plan prog c)
    (hmem : c ∈ plan.topo) (hnew : graph.cellDeclaredHere c = true)
    (hescapes : graph.cellEscapes plan.topo c = false) (href : ref ∈ plan.topo)
    {held : Held} (h : o = true → held.made = true ∧ held.kept = false)
    (ho : stepCell graph c o ref = true) :
    (graph.holdStep plan.topo c held ref).made = true ∧
      (graph.holdStep plan.topo c held ref).kept = false := by
  have hoper : graph.operOf c = some (.variable "new") := by simpa [Graph.cellDeclaredHere] using hnew
  unfold Graph.holdStep
  by_cases hrc : ref = c
  · -- the declaration
    subst hrc
    simp only [if_true, and_true]
    have hplain := (L.operators ref href _ hoper rfl).1
    unfold stepCell Graph.effectOf at ho
    simp only [hoper, if_neg hplain, if_true] at ho
    unfold Graph.cellOfNode at ho
    cases hinit : (graph.normInputsOf ref).head? with
    | none => simp [hinit] at ho
    | some x =>
      have hin : x ∈ graph.inputsOf ref := mem_append_left _ (mem_of_mem_head? hinit)
      have hmade : graph.initialValueMadeHere (graph.valueBehindGates x) = true := by
        simpa [hinit] using ho
      rw [O.gates ref href x hin] at hmade
      exact O.alone _ (by rw [hinit]; rfl) hmade
  simp only [hrc, if_false]
  have hkeep : graph.effectOf ref = none → o = true := by
    intro he
    unfold stepCell at ho
    rw [he] at ho
    exact ho
  by_cases huses : graph.uses ref c = true
  · simp only [huses, if_true]
    obtain ⟨x, hx, hxc⟩ := any_eq_true.mp huses
    have hbehind : graph.behindAll x = c := by simpa using hxc
    have hthrough : Through graph plan.topo c x :=
      through_behind L.gates (L.gates ref href x hx) hbehind
    have hlets := not_letsOut hescapes hthrough (mem_users.2 ⟨href, hx⟩)
    unfold Graph.letsOut at hlets
    split at hlets
    · -- no node has no inputs
      rename_i hkind
      unfold Graph.kindOf at hkind
      have : graph.node ref = none := by simpa using hkind
      simp [Graph.inputsOf, Graph.normInputsOf, Graph.withInputsOf, this] at hx
    rename_i kind hkind
    by_cases hgate : kind = .gate
    · rw [if_pos (by rw [hkind, hgate])]
      apply h
      apply hkeep
      unfold Graph.kindOf at hkind
      obtain ⟨node, hnode, hk⟩ := Option.map_eq_some_iff.mp hkind
      simp [Graph.effectOf, Graph.operOf, hnode, hk, hgate]
    · rw [if_neg (by rw [hkind]; simpa using hgate)]
      rw [if_neg hgate] at hlets
      split at hlets
      · rename_i oper hop
        have hvar : oper.isVariable = true := by simpa using hlets
        obtain ⟨hplain, hfirst⟩ := L.operators ref href oper hop hvar
        obtain ⟨hhead, hkinds⟩ := hfirst c hmem hnew hrc huses
        rw [if_pos hhead, hop]
        have hcell : graph.cellOfNode ref = some c := by
          unfold Graph.cellOfNode
          obtain ⟨x, hx, hxc⟩ := Option.map_eq_some_iff.mp hhead
          rw [hx, Option.map_some,
            O.gates ref href x (mem_append_left _ (mem_of_mem_head? hx)), hxc]
        unfold stepCell Graph.effectOf at ho
        simp only [hop, if_neg hplain] at ho
        obtain hkinds | ⟨suffix, rfl⟩ := hkinds
        · simp only [mem_cons, not_mem_nil, or_false] at hkinds
          obtain rfl | rfl | rfl := hkinds
          · simp [hcell] at ho
          · exact h (by simpa using ho)
          · exact h (by simpa using ho)
        · simp only [hcell, Option.map_some, if_true] at ho
          exact ⟨ho, rfl⟩
      · cases hlets
  · -- a node that has nothing to do with the cell
    simp only [huses, Bool.false_eq_true, if_false]
    apply h
    unfold stepCell at ho
    split at ho
    · exact ho
    · rename_i cell v he
      by_cases hcell : cell = c
      · subst hcell
        obtain hc | hu := uses_of_effect O.gates href he
        · exact absurd hc hrc
        · exact absurd hu huses
      · simpa [hcell] using ho

/-- Whatever order the nodes are taken in. -/
theorem held_of_passes (L : Lays graph plan prog) (O : Orderly graph plan prog c)
    (hmem : c ∈ plan.topo) (hnew : graph.cellDeclaredHere c = true)
    (hescapes : graph.cellEscapes plan.topo c = false) {run : List Nat}
    (h : passes graph plan.topo c false run = true) :
    (graph.held plan.topo c run).made = true ∧ (graph.held plan.topo c run).kept = false := by
  have hall : ∀ (run : List Nat) (o : Bool) (held : Held),
      (o = true → held.made = true ∧ held.kept = false) →
      run.foldl (stepAt graph plan.topo c) o = true →
      (run.foldl (fun held i => (plan.topo[i]?).elim held (graph.holdStep plan.topo c held))
        held).made = true ∧
      (run.foldl (fun held i => (plan.topo[i]?).elim held (graph.holdStep plan.topo c held))
        held).kept = false := by
    intro run
    induction run with
    | nil => exact fun o held ho h => ho h
    | cons i run ih =>
      intro o held ho h
      rw [foldl_cons] at h ⊢
      apply ih _ _ _ h
      intro hstep
      cases hi : plan.topo[i]? with
      | none =>
        unfold stepAt at hstep
        rw [hi] at hstep
        exact ho hstep
      | some ref =>
        unfold stepAt at hstep
        rw [hi] at hstep
        exact holdStep_of_stepCell L O hmem hnew hescapes (mem_of_getElem? hi) ho hstep
  exact hall run false ⟨false, false⟩ (fun h => by cases h) h

/-! ## The bit along a run -/

/-- At every update of the cell behind position `n` the bit is the one of the walk. -/
def Sees (graph : Graph) (topo : List Ref) (c : Ref) (n : Nat) : Bool → List Nat → Prop
  | _, [] => True
  | o, i :: t =>
    (∀ ref, topo[i]? = some ref → graph.updatedCell ref = some c →
      n < i ∧ o = leftBefore graph topo c i) ∧
    Sees graph topo c n (stepAt graph topo c o i) t

theorem passes_append (o : Bool) (u v : List Nat) :
    passes graph topo c o (u ++ v) = passes graph topo c (passes graph topo c o u) v :=
  foldl_append

theorem Sees.append {u v : List Nat} (hu : Sees graph topo c n o u)
    (hv : Sees graph topo c n (passes graph topo c o u) v) : Sees graph topo c n o (u ++ v) := by
  induction u generalizing o with
  | nil => exact hv
  | cons i u ih => exact ⟨hu.1, ih hu.2 hv⟩

theorem Sees.at {done later : List Nat}
    (h : Sees graph topo c n o (done ++ i :: later)) (href : topo[i]? = some ref)
    (hcell : graph.updatedCell ref = some c) :
    n < i ∧ passes graph topo c o done = leftBefore graph topo c i := by
  induction done generalizing o with
  | nil => exact h.1 ref href hcell
  | cons j done ih => exact ih h.2

/-- Whether the node at a position is an operation on the cell. -/
def opAt (graph : Graph) (topo : List Ref) (c : Ref) (i : Nat) : Bool :=
  (topo[i]?).elim false (isOp graph c)

theorem stepAt_of_not_op (h : opAt graph topo c i = false) (o : Bool) :
    stepAt graph topo c o i = o := by
  unfold opAt at h
  unfold stepAt
  cases hi : topo[i]? with
  | none => rfl
  | some ref =>
    rw [hi] at h
    have he : ¬ (graph.effectOf ref).map Prod.fst = some c := by
      intro he
      simp [isOp, he] at h
    show stepCell graph c o ref = o
    unfold stepCell
    split
    · rfl
    · rename_i cell v heq
      exact if_neg fun hc => he (by rw [heq, ← hc]; rfl)

theorem not_update_of_not_op (h : opAt graph topo c i = false)
    (href : topo[i]? = some ref) : graph.updatedCell ref ≠ some c := by
  intro hu
  unfold opAt at h
  rw [href] at h
  simp [isOp, hu] at h

/-- Only the operations on the cell count. -/
theorem sees_filter (o : Bool) (t : List Nat) :
    Sees graph topo c n o (t.filter (opAt graph topo c)) ↔ Sees graph topo c n o t := by
  induction t generalizing o with
  | nil => rfl
  | cons i t ih =>
    cases hi : opAt graph topo c i
    · rw [filter_cons_of_neg (by simp [hi]), ih]
      constructor
      · intro h
        refine ⟨fun ref href hu => absurd hu (not_update_of_not_op hi href), ?_⟩
        rw [stepAt_of_not_op hi]
        exact h
      · intro h
        have := h.2
        rw [stepAt_of_not_op hi] at this
        exact this
    · rw [filter_cons_of_pos hi]
      exact and_congr_right fun _ => ih _

/-- Nodes that are no operations on the cell. -/
theorem sees_quiet {t : List Nat} (h : ∀ i ∈ t, opAt graph topo c i = false) (o : Bool) :
    Sees graph topo c n o t ∧ passes graph topo c o t = o := by
  induction t generalizing o with
  | nil => exact ⟨trivial, rfl⟩
  | cons i t ih =>
    have hi := h i (.head _)
    have hstep := stepAt_of_not_op hi o
    obtain ⟨hs, hp⟩ := ih (fun j hj => h j (.tail _ hj)) o
    refine ⟨⟨fun ref href hu => absurd hu (not_update_of_not_op hi href), by rw [hstep]; exact hs⟩, ?_⟩
    show passes graph topo c (stepAt graph topo c o i) t = o
    rw [hstep]
    exact hp

/-- Taking the nodes in another order does not change the order of the operations. -/
theorem reordered_filter (hordered : ∀ i j x y, i < j → topo[i]? = some x → topo[j]? = some y →
    isOp graph c x = true → isOp graph c y = true → OrderedBefore graph topo i j)
    {t run : List Nat} (h : Reordered graph topo t run) :
    run.filter (opAt graph topo c) = t.filter (opAt graph topo c) := by
  induction h with
  | refl => rfl
  | @swap pre post i j _ hlt hfree ih =>
    rw [← ih]
    have hboth : ¬ (opAt graph topo c i = true ∧ opAt graph topo c j = true) := by
      rintro ⟨hi, hj⟩
      unfold opAt at hi hj
      cases hx : topo[i]? with
      | none => simp [hx] at hi
      | some x =>
        cases hy : topo[j]? with
        | none => simp [hy] at hj
        | some y =>
          rw [hx] at hi
          rw [hy] at hj
          exact hfree (hordered i j x y hlt hx hy hi hj)
    simp only [filter_append]
    congr 1
    cases hi : opAt graph topo c i <;> cases hj : opAt graph topo c j <;>
      simp_all

/-! ## Where a block is laid out -/

/-- The nodes stand one after another in the order of the plan, from `p` on. -/
def At (topo l : List Ref) (p : Nat) : Prop := ∀ k ref, l[k]? = some ref → topo[p + k]? = some ref

theorem At.left {l l' : List Ref} (h : At topo (l ++ l') p) : At topo l p := by
  intro k ref hk
  apply h k ref
  rw [getElem?_append_left (List.getElem?_eq_some_iff.mp hk).1]
  exact hk

theorem At.right {l l' : List Ref} (h : At topo (l ++ l') p) :
    At topo l' (p + l.length) := by
  intro k ref hk
  have := h (l.length + k) ref (by
    rw [getElem?_append_right (by omega), Nat.add_sub_cancel_left]
    exact hk)
  rw [Nat.add_assoc]
  exact this

theorem At.head (h : At topo (ref :: l) p) :
    topo[p]? = some ref := h 0 ref rfl

theorem At.tail (h : At topo (ref :: l) p) :
    At topo l (p + 1) := by
  intro k r hk
  have := h (k + 1) r hk
  rw [show p + 1 + k = p + (k + 1) by omega]
  exact this

theorem At.mem {p i : Nat} (h : At topo l p) (hi : p ≤ i) (hi' : i < p + l.length)
    (href : topo[i]? = some ref) : ref ∈ l := by
  have hlt : i - p < l.length := by omega
  have := h (i - p) _ (getElem?_eq_getElem hlt)
  rw [show p + (i - p) = i by omega, href] at this
  rw [Option.some.inj this]
  exact getElem_mem hlt

mutual

/-- A run of a block stays where the block is laid out. -/
theorem blockRuns_mem (b : Block) {p : Nat} {t : List Nat} (h : BlockRuns b p t) :
    ∀ i ∈ t, p ≤ i ∧ i < p + b.size := by
  cases b with
  | nil =>
    simp only [BlockRuns] at h
    simp [h]
  | cons s rest =>
    simp only [BlockRuns] at h
    obtain ⟨u, v, rfl, hu, hv⟩ := h
    intro i hi
    rw [Block.size_cons]
    obtain hi | hi := mem_append.mp hi
    · have := stmtRuns_mem s hu i hi
      omega
    · have := blockRuns_mem rest hv i hi
      omega

theorem stmtRuns_mem (s : Stmt) {p : Nat} {t : List Nat} (h : StmtRuns s p t) :
    ∀ i ∈ t, p ≤ i ∧ i < p + s.size := by
  cases s with
  | node r =>
    simp only [StmtRuns] at h
    simp [h]
  | branch brch arms join =>
    simp only [StmtRuns] at h
    obtain ⟨u, rfl, hu⟩ := h
    intro i hi
    rw [Stmt.size_branch]
    simp only [mem_cons, mem_append, not_mem_nil, or_false] at hi
    obtain rfl | hi | rfl := hi
    · omega
    · have := armsRun_mem arms hu i hi
      omega
    · omega
  | loop cond body ref =>
    simp only [StmtRuns] at h
    obtain ⟨u, rfl, hu⟩ := h
    have hcond := fun t (h : BlockRuns cond p t) => blockRuns_mem cond h
    have hbody := fun t (h : BlockRuns body (p + cond.size) t) => blockRuns_mem body h
    intro i hi
    rw [Stmt.size_loop]
    obtain hi | hi := mem_append.mp hi
    · induction hu with
      | stop h =>
        have := hcond _ h i hi
        omega
      | next hc hb _ ih =>
        simp only [mem_append] at hi
        obtain hi | hi | hi := hi
        · have := hcond _ hc i hi
          omega
        · have := hbody _ hb i hi
          omega
        · exact ih (mem_append_left _ hi) hi
    · have := mem_singleton.mp hi
      omega

theorem armsRun_mem (arms : Arms) {p : Nat} {t : List Nat} (h : ArmsRun arms p t) :
    ∀ i ∈ t, p ≤ i ∧ i < p + arms.size := by
  cases arms with
  | nil => simp only [ArmsRun] at h
  | cons arm rest =>
    simp only [ArmsRun] at h
    intro i hi
    rw [Arms.size_cons]
    obtain h | h := h
    · have := blockRuns_mem arm h i hi
      omega
    · have := armsRun_mem rest h i hi
      omega

end

/-- A run over nodes none of which is an operation on the cell. -/
theorem sees_of_quiet {p n : Nat} (hat : At topo l p) (hq : Quiet graph c l)
    {t : List Nat} (hmem : ∀ i ∈ t, p ≤ i ∧ i < p + l.length) (o : Bool) :
    Sees graph topo c n o t ∧ passes graph topo c o t = o := by
  apply sees_quiet
  intro i hi
  unfold opAt
  cases href : topo[i]? with
  | none => rfl
  | some ref => exact hq ref (hat.mem (hmem i hi).1 (hmem i hi).2 href)

section
variable (h : graph.operOf ref = none)
include h

/-- A node of a branch or a loop is no operation on a cell. -/
theorem control_not_op : isOp graph c ref = false := by
  unfold isOp Graph.effectOf Graph.updatedCell
  rw [h]
  rfl

theorem control_opAt (hi : topo[i]? = some ref) :
    opAt graph topo c i = false := by
  unfold opAt
  rw [hi]
  exact control_not_op h

/-- The walk's bit is the same behind a node of a branch or a loop. -/
theorem leftBefore_control
    (hi : topo[i]? = some ref) :
    leftBefore graph topo c (i + 1) = leftBefore graph topo c i := by
  have hstep := stepAt_of_not_op (c := c) (control_opAt h hi) (leftBefore graph topo c i)
  unfold stepAt at hstep
  rw [hi] at hstep
  rw [leftBefore_succ hi]
  exact hstep

/-- A node of a branch or a loop changes nothing in a run. -/
theorem sees_control {i n : Nat}
    (hi : topo[i]? = some ref) (o : Bool) :
    Sees graph topo c n o [i] ∧ passes graph topo c o [i] = o := by
  apply sees_quiet
  intro j hj
  obtain rfl := mem_singleton.mp hj
  exact control_opAt h hi

end

/-! ## Behind the declaration -/

/-- The regions of a block leave the cell as they find it. -/
def SteadyOn (graph : Graph) (topo : List Ref) (c : Ref) (regions : List (Nat × Nat)) : Prop :=
  ∀ region ∈ regions, leftBefore graph topo c region.1 = leftBefore graph topo c region.2

theorem SteadyOn.left {l l' : List (Nat × Nat)} (h : SteadyOn graph topo c (l ++ l')) :
    SteadyOn graph topo c l := fun r hr => h r (mem_append_left _ hr)

theorem SteadyOn.right {l l' : List (Nat × Nat)} (h : SteadyOn graph topo c (l ++ l')) :
    SteadyOn graph topo c l' := fun r hr => h r (mem_append_right _ hr)

/-- Arms that each leave the cell as they find it all do. -/
theorem arms_steady (arms : Arms) {p : Nat} (h : SteadyOn graph topo c (armsRegions arms p)) :
    leftBefore graph topo c p = leftBefore graph topo c (p + arms.size) := by
  cases arms with
  | nil => rw [Arms.size_nil, Nat.add_zero]
  | cons arm rest =>
    simp only [armsRegions] at h
    have harm := h _ (.head _)
    have hrest : SteadyOn graph topo c (armsRegions rest (p + arm.size)) :=
      fun r hr => h r (mem_cons_of_mem _ (mem_append_right _ hr))
    rw [harm, arms_steady rest hrest, Arms.size_cons, Nat.add_assoc]

mutual

/-- Behind the declaration the bit of a run is the bit of the walk. -/
theorem block_sees (b : Block) {p n : Nat} (hn : n < p) (hat : At topo b.refs p)
    (hcontrols : ∀ ref ∈ blockControls b, graph.operOf ref = none)
    (hsteady : SteadyOn graph topo c (blockRegions b p)) {t : List Nat} (h : BlockRuns b p t) :
    Sees graph topo c n (leftBefore graph topo c p) t ∧
      passes graph topo c (leftBefore graph topo c p) t = leftBefore graph topo c (p + b.size) := by
  cases b with
  | nil =>
    simp only [BlockRuns] at h
    subst h
    exact ⟨trivial, by rw [Block.size_nil]; rfl⟩
  | cons s rest =>
    simp only [BlockRuns] at h
    simp only [Block.refs_cons] at hat
    simp only [blockControls] at hcontrols
    simp only [blockRegions] at hsteady
    obtain ⟨u, v, rfl, hu, hv⟩ := h
    obtain ⟨hsees, hpass⟩ := stmt_sees s hn hat.left
      (fun r hr => hcontrols r (mem_append_left _ hr)) hsteady.left hu
    obtain ⟨hsees', hpass'⟩ := block_sees rest (show n < p + s.size by omega) hat.right
      (fun r hr => hcontrols r (mem_append_right _ hr)) hsteady.right hv
    refine ⟨hsees.append (by rw [hpass]; exact hsees'), ?_⟩
    rw [passes_append, hpass, hpass', Block.size_cons, Nat.add_assoc]

theorem stmt_sees (s : Stmt) {p n : Nat} (hn : n < p) (hat : At topo s.refs p)
    (hcontrols : ∀ ref ∈ stmtControls s, graph.operOf ref = none)
    (hsteady : SteadyOn graph topo c (stmtRegions s p)) {t : List Nat} (h : StmtRuns s p t) :
    Sees graph topo c n (leftBefore graph topo c p) t ∧
      passes graph topo c (leftBefore graph topo c p) t = leftBefore graph topo c (p + s.size) := by
  cases s with
  | node r =>
    simp only [StmtRuns] at h
    subst h
    simp only [Stmt.refs_node] at hat
    refine ⟨⟨fun _ _ _ => ⟨hn, rfl⟩, trivial⟩, ?_⟩
    rw [Stmt.size_node, leftBefore_succ hat.head]
    show stepAt graph topo c _ p = _
    unfold stepAt
    rw [hat.head]
    rfl
  | branch brch arms join =>
    simp only [StmtRuns] at h
    obtain ⟨u, rfl, hu⟩ := h
    simp only [Stmt.refs_branch] at hat
    simp only [stmtControls] at hcontrols
    simp only [stmtRegions] at hsteady
    have hbrch := hcontrols brch (by simp)
    have hjoin := hcontrols join (by simp)
    have hbefore := leftBefore_control (c := c) hbrch hat.head
    have hat' : topo[p + 1 + arms.size]? = some join := hat.tail.right.head
    obtain ⟨hsees, hpass⟩ := arms_see arms (show n < p + 1 by omega) hat.tail.left
      (fun r hr => hcontrols r (by simp [hr])) hsteady hu
    obtain ⟨hsees₁, hpass₁⟩ := sees_control (n := n) hbrch hat.head (leftBefore graph topo c p)
    obtain ⟨hsees₂, hpass₂⟩ := sees_control (n := n) hjoin hat'
      (leftBefore graph topo c (p + 1 + arms.size))
    rw [hbefore] at hsees hpass
    have hall : Sees graph topo c n (leftBefore graph topo c p) (u ++ [p + 1 + arms.size]) :=
      hsees.append (by rw [hpass]; exact hsees₂)
    refine ⟨hsees₁.append (v := u ++ [p + 1 + arms.size]) (by rw [hpass₁]; exact hall), ?_⟩
    show passes graph topo c _ ([p] ++ (u ++ [p + 1 + arms.size])) = _
    rw [passes_append, hpass₁, passes_append, hpass, hpass₂, Stmt.size_branch,
      show p + (arms.size + 2) = p + 1 + arms.size + 1 by omega]
    exact (leftBefore_control hjoin hat').symm
  | loop cond body ref =>
    simp only [StmtRuns] at h
    obtain ⟨u, rfl, hu⟩ := h
    simp only [Stmt.refs_loop] at hat
    simp only [stmtControls] at hcontrols
    simp only [stmtRegions] at hsteady
    have hloop := hcontrols ref (by simp)
    have hfound := hsteady (p, p + cond.size) (by simp)
    have hround := hsteady (p, p + cond.size + body.size) (by simp)
    have hcond := fun t (ht : BlockRuns cond p t) => block_sees cond hn hat.left
      (fun r hr => hcontrols r (by simp [hr]))
      (fun r hr => hsteady r (by simp [hr])) ht
    have hbody := fun t (ht : BlockRuns body (p + cond.size) t) =>
      block_sees body (show n < p + cond.size by omega) hat.right.left
        (fun r hr => hcontrols r (by simp [hr]))
        (fun r hr => hsteady r (by simp [hr])) ht
    dsimp only at hfound hround
    -- every round starts with the bit the loop started with
    have hrounds : Sees graph topo c n (leftBefore graph topo c p) u ∧
        passes graph topo c (leftBefore graph topo c p) u = leftBefore graph topo c p := by
      induction hu with
      | stop h =>
        obtain ⟨hs, hp⟩ := hcond _ h
        exact ⟨hs, hp.trans hfound.symm⟩
      | next hc hb _ ih =>
        obtain ⟨hs, hp⟩ := hcond _ hc
        obtain ⟨hs', hp'⟩ := hbody _ hb
        rw [hp'.symm] at hround
        refine ⟨hs.append (by
          rw [hp]
          exact hs'.append (by rw [← hround]; exact ih.1)), ?_⟩
        rw [passes_append, hp, passes_append, ← hround]
        exact ih.2
    have hat' : topo[p + cond.size + body.size]? = some ref := hat.right.right.head
    obtain ⟨hsees, hpass⟩ := sees_control (n := n) hloop hat' (leftBefore graph topo c p)
    refine ⟨hrounds.1.append (by rw [hrounds.2]; exact hsees), ?_⟩
    rw [passes_append, hrounds.2, hpass, hround, Stmt.size_loop,
      show p + (cond.size + body.size + 1) = p + cond.size + body.size + 1 by omega]
    exact (leftBefore_control hloop hat').symm

theorem arms_see (arms : Arms) {p n : Nat} (hn : n < p) (hat : At topo arms.refs p)
    (hcontrols : ∀ ref ∈ armsControls arms, graph.operOf ref = none)
    (hsteady : SteadyOn graph topo c (armsRegions arms p)) {t : List Nat} (h : ArmsRun arms p t) :
    Sees graph topo c n (leftBefore graph topo c p) t ∧
      passes graph topo c (leftBefore graph topo c p) t =
        leftBefore graph topo c (p + arms.size) := by
  cases arms with
  | nil => simp only [ArmsRun] at h
  | cons arm rest =>
    simp only [ArmsRun] at h
    simp only [Arms.refs_cons] at hat
    simp only [armsControls] at hcontrols
    simp only [armsRegions] at hsteady
    have hfound := hsteady _ (.head _)
    have hnested : SteadyOn graph topo c
        (blockRegions arm p ++ armsRegions rest (p + arm.size)) :=
      fun r hr => hsteady r (.tail _ hr)
    have hrest := arms_steady rest hnested.right
    rw [Arms.size_cons, ← Nat.add_assoc, ← hrest]
    obtain h | h := h
    · exact block_sees arm hn hat.left (fun r hr => hcontrols r (mem_append_left _ hr))
        hnested.left h
    · obtain ⟨hsees, hpass⟩ := arms_see rest (show n < p + arm.size by omega) hat.right
        (fun r hr => hcontrols r (mem_append_right _ hr)) hnested.right h
      rw [hfound]
      exact ⟨hsees, hpass.trans hrest.symm⟩

end

/-! ## From the declaration on -/

mutual

theorem blockRegions_ge (b : Block) {p : Nat} : ∀ region ∈ blockRegions b p, p ≤ region.1 := by
  cases b with
  | nil => simp [blockRegions]
  | cons s rest =>
    intro region h
    simp only [blockRegions] at h
    obtain h | h := mem_append.mp h
    · exact stmtRegions_ge s region h
    · have := blockRegions_ge rest region h
      omega

theorem stmtRegions_ge (s : Stmt) {p : Nat} : ∀ region ∈ stmtRegions s p, p ≤ region.1 := by
  cases s with
  | node r => simp [stmtRegions]
  | branch brch arms join =>
    intro region h
    simp only [stmtRegions] at h
    have := armsRegions_ge arms region h
    omega
  | loop cond body ref =>
    intro region h
    simp only [stmtRegions, mem_cons, mem_append] at h
    obtain rfl | rfl | h | h := h
    · exact Nat.le_refl p
    · exact Nat.le_refl p
    · exact blockRegions_ge cond region h
    · have := blockRegions_ge body region h
      omega

theorem armsRegions_ge (arms : Arms) {p : Nat} : ∀ region ∈ armsRegions arms p, p ≤ region.1 := by
  cases arms with
  | nil => simp [armsRegions]
  | cons arm rest =>
    intro region h
    simp only [armsRegions, mem_cons, mem_append] at h
    obtain rfl | h | h := h
    · exact Nat.le_refl p
    · exact blockRegions_ge arm region h
    · have := armsRegions_ge rest region h
      omega

end

mutual

/-- A run of the block that declares the variable has the bit of the walk at every
    update, with whatever bit it starts. -/
theorem block_declares (b : Block) {p n : Nat} (hc : (graph.effectOf c).map Prod.fst = some c)
    (hplain : graph.updatedCell c ≠ some c) (hn : ∀ i, topo[i]? = some c → i = n)
    (hat : At topo b.refs p) (hcontrols : ∀ ref ∈ blockControls b, graph.operOf ref = none)
    (hsteady : ∀ region ∈ blockRegions b p, n < region.1 →
      leftBefore graph topo c region.1 = leftBefore graph topo c region.2)
    (hd : BlockDeclares graph c b) {t : List Nat} (h : BlockRuns b p t) (o : Bool) :
    Sees graph topo c n o t := by
  cases b with
  | nil => simp only [BlockDeclares] at hd
  | cons s rest =>
    simp only [BlockRuns] at h
    simp only [BlockDeclares] at hd
    simp only [Block.refs_cons] at hat
    simp only [blockControls] at hcontrols
    simp only [blockRegions] at hsteady
    obtain ⟨u, v, rfl, hu, hv⟩ := h
    obtain rfl | ⟨hd, hq⟩ | ⟨hq, hd⟩ := hd
    · -- the declaration: the bits meet
      simp only [StmtRuns] at hu
      subst hu
      simp only [Stmt.refs_node] at hat
      obtain rfl := hn p hat.left.head
      have hpass : passes graph topo c o [p] = leftBefore graph topo c (p + 1) := by
        rw [leftBefore_succ hat.left.head]
        show stepAt graph topo c o p = _
        unfold stepAt
        rw [hat.left.head]
        exact stepCell_declared hc ..
      have hrest := block_sees rest (show p < p + 1 by omega) hat.right
        (fun r hr => hcontrols r (mem_append_right _ hr))
        (by
          intro region hr
          have hge : p + 1 ≤ region.1 := blockRegions_ge rest region hr
          exact hsteady region (mem_append_right _ hr) hge)
        hv
      apply Sees.append
      · refine ⟨?_, trivial⟩
        intro ref href hu
        rw [hat.left.head] at href
        obtain rfl := Option.some.inj href
        exact absurd hu hplain
      · rw [hpass]
        exact hrest.1
    · have hu := stmt_declares s hc hplain hn hat.left
        (fun r hr => hcontrols r (mem_append_left _ hr))
        (fun r hr => hsteady r (mem_append_left _ hr)) hd hu o
      exact hu.append (sees_of_quiet hat.right hq (blockRuns_mem rest hv) _).1
    · obtain ⟨hs, hp⟩ := sees_of_quiet (n := n) hat.left hq (stmtRuns_mem s hu) o
      refine hs.append ?_
      rw [hp]
      exact block_declares rest hc hplain hn hat.right
        (fun r hr => hcontrols r (mem_append_right _ hr))
        (fun r hr => hsteady r (mem_append_right _ hr)) hd hv o

theorem stmt_declares (s : Stmt) {p n : Nat} (hc : (graph.effectOf c).map Prod.fst = some c)
    (hplain : graph.updatedCell c ≠ some c) (hn : ∀ i, topo[i]? = some c → i = n)
    (hat : At topo s.refs p) (hcontrols : ∀ ref ∈ stmtControls s, graph.operOf ref = none)
    (hsteady : ∀ region ∈ stmtRegions s p, n < region.1 →
      leftBefore graph topo c region.1 = leftBefore graph topo c region.2)
    (hd : StmtDeclares graph c s) {t : List Nat} (h : StmtRuns s p t) (o : Bool) :
    Sees graph topo c n o t := by
  cases s with
  | node r => simp only [StmtDeclares] at hd
  | branch brch arms join =>
    simp only [StmtRuns] at h
    obtain ⟨u, rfl, hu⟩ := h
    simp only [StmtDeclares] at hd
    simp only [Stmt.refs_branch] at hat
    simp only [stmtControls] at hcontrols
    simp only [stmtRegions] at hsteady
    obtain ⟨hs₁, hp₁⟩ := sees_control (n := n) (hcontrols brch (by simp)) hat.head o
    have hat' : topo[p + 1 + arms.size]? = some join := hat.tail.right.head
    have harms := arms_declare arms hc hplain hn hat.tail.left (fun r hr => hcontrols r (by simp [hr]))
      hsteady hd hu o
    have hall : Sees graph topo c n o (u ++ [p + 1 + arms.size]) :=
      harms.append (sees_control (hcontrols join (by simp)) hat' _).1
    exact hs₁.append (v := u ++ [p + 1 + arms.size]) (by rw [hp₁]; exact hall)
  | loop cond body ref =>
    simp only [StmtRuns] at h
    obtain ⟨u, rfl, hu⟩ := h
    simp only [StmtDeclares] at hd
    simp only [Stmt.refs_loop] at hat
    simp only [stmtControls] at hcontrols
    simp only [stmtRegions] at hsteady
    have hat' : topo[p + cond.size + body.size]? = some ref := hat.right.right.head
    have hcond : ∀ t, BlockRuns cond p t → ∀ o, Sees graph topo c n o t := by
      intro t ht o
      obtain ⟨hd, -⟩ | ⟨hq, -⟩ := hd
      · exact block_declares cond hc hplain hn hat.left (fun r hr => hcontrols r (by simp [hr]))
          (fun r hr => hsteady r (by simp [hr])) hd ht o
      · exact (sees_of_quiet hat.left hq (blockRuns_mem cond ht) o).1
    have hbody : ∀ t, BlockRuns body (p + cond.size) t → ∀ o, Sees graph topo c n o t := by
      intro t ht o
      obtain ⟨-, hq⟩ | ⟨-, hd⟩ := hd
      · exact (sees_of_quiet hat.right.left hq (blockRuns_mem body ht) o).1
      · exact block_declares body hc hplain hn hat.right.left
          (fun r hr => hcontrols r (by simp [hr]))
          (fun r hr => hsteady r
            (.tail _ (.tail _ (mem_append_right _ hr)))) hd ht o
    have hrounds : ∀ o, Sees graph topo c n o u := by
      induction hu with
      | stop h => exact hcond _ h
      | next hc hb _ ih => exact fun o => (hcond _ hc o).append ((hbody _ hb _).append (ih _))
    exact (hrounds o).append (sees_control (hcontrols ref (by simp)) hat' _).1

theorem arms_declare (arms : Arms) {p n : Nat} (hc : (graph.effectOf c).map Prod.fst = some c)
    (hplain : graph.updatedCell c ≠ some c) (hn : ∀ i, topo[i]? = some c → i = n)
    (hat : At topo arms.refs p) (hcontrols : ∀ ref ∈ armsControls arms, graph.operOf ref = none)
    (hsteady : ∀ region ∈ armsRegions arms p, n < region.1 →
      leftBefore graph topo c region.1 = leftBefore graph topo c region.2)
    (hd : ArmsDeclare graph c arms) {t : List Nat} (h : ArmsRun arms p t) (o : Bool) :
    Sees graph topo c n o t := by
  cases arms with
  | nil => simp only [ArmsRun] at h
  | cons arm rest =>
    simp only [ArmsRun] at h
    simp only [ArmsDeclare] at hd
    simp only [Arms.refs_cons] at hat
    simp only [armsControls] at hcontrols
    simp only [armsRegions] at hsteady
    obtain h | h := h
    · obtain ⟨hd, -⟩ | ⟨hq, -⟩ := hd
      · exact block_declares arm hc hplain hn hat.left
          (fun r hr => hcontrols r (mem_append_left _ hr))
          (fun r hr => hsteady r (by simp [hr])) hd h o
      · exact (sees_of_quiet hat.left hq (blockRuns_mem arm h) o).1
    · obtain ⟨-, hq⟩ | ⟨-, hd⟩ := hd
      · exact (sees_of_quiet hat.right hq (armsRun_mem rest h) o).1
      · exact arms_declare rest hc hplain hn hat.right
          (fun r hr => hcontrols r (mem_append_right _ hr))
          (fun r hr => hsteady r (.tail _ (mem_append_right _ hr))) hd h o

end

mutual

theorem block_declares_mem (b : Block) (hd : BlockDeclares graph c b) : c ∈ b.refs := by
  cases b with
  | nil => simp only [BlockDeclares] at hd
  | cons s rest =>
    simp only [BlockDeclares] at hd
    rw [Block.refs_cons]
    obtain rfl | ⟨hd, -⟩ | ⟨-, hd⟩ := hd
    · simp
    · exact mem_append_left _ (stmt_declares_mem s hd)
    · exact mem_append_right _ (block_declares_mem rest hd)

theorem stmt_declares_mem (s : Stmt) (hd : StmtDeclares graph c s) : c ∈ s.refs := by
  cases s with
  | node r => simp only [StmtDeclares] at hd
  | branch brch arms join =>
    simp only [StmtDeclares] at hd
    rw [Stmt.refs_branch]
    exact .tail _ (mem_append_left _ (arms_declare_mem arms hd))
  | loop cond body ref =>
    simp only [StmtDeclares] at hd
    rw [Stmt.refs_loop]
    obtain ⟨hd, -⟩ | ⟨-, hd⟩ := hd
    · exact mem_append_left _ (block_declares_mem cond hd)
    · exact mem_append_right _ (mem_append_left _ (block_declares_mem body hd))

theorem arms_declare_mem (arms : Arms) (hd : ArmsDeclare graph c arms) : c ∈ arms.refs := by
  cases arms with
  | nil => simp only [ArmsDeclare] at hd
  | cons arm rest =>
    simp only [ArmsDeclare] at hd
    rw [Arms.refs_cons]
    obtain ⟨hd, -⟩ | ⟨-, hd⟩ := hd
    · exact mem_append_left _ (block_declares_mem arm hd)
    · exact mem_append_right _ (arms_declare_mem rest hd)

end

mutual

/-- The loops of the plan are among the regions. -/
theorem blockLoops_mem (b : Block) (p : Nat) : ∀ loop ∈ b.loopsAt p,
    loop.begin ≤ loop.position ∧ (loop.begin, loop.position) ∈ blockRegions b p := by
  cases b with
  | nil => simp [Block.loopsAt]
  | cons s rest =>
    intro loop h
    simp only [Block.loopsAt] at h
    simp only [blockRegions]
    obtain h | h := mem_append.mp h
    · exact ⟨(stmtLoops_mem s p loop h).1, mem_append_left _ (stmtLoops_mem s p loop h).2⟩
    · exact ⟨(blockLoops_mem rest _ loop h).1,
        mem_append_right _ (blockLoops_mem rest _ loop h).2⟩

theorem stmtLoops_mem (s : Stmt) (p : Nat) : ∀ loop ∈ s.loopsAt p,
    loop.begin ≤ loop.position ∧ (loop.begin, loop.position) ∈ stmtRegions s p := by
  cases s with
  | node r => simp [Stmt.loopsAt]
  | branch brch arms join =>
    intro loop h
    simp only [Stmt.loopsAt] at h
    simp only [stmtRegions]
    exact armsLoops_mem arms _ loop h
  | loop cond body ref =>
    intro loop h
    simp only [Stmt.loopsAt, mem_append, mem_singleton] at h
    simp only [stmtRegions, mem_cons, mem_append]
    obtain h | h | rfl := h
    · have := blockLoops_mem cond p loop h
      exact ⟨this.1, .inr (.inr (.inl this.2))⟩
    · have := blockLoops_mem body _ loop h
      exact ⟨this.1, .inr (.inr (.inr this.2))⟩
    · exact ⟨by simp only [Plan.loopAt]; omega, .inr (.inl rfl)⟩

theorem armsLoops_mem (arms : Arms) (p : Nat) : ∀ loop ∈ arms.loopsAt p,
    loop.begin ≤ loop.position ∧ (loop.begin, loop.position) ∈ armsRegions arms p := by
  cases arms with
  | nil => simp [Arms.loopsAt]
  | cons arm rest =>
    intro loop h
    simp only [Arms.loopsAt] at h
    simp only [armsRegions, mem_cons, mem_append]
    obtain h | h := mem_append.mp h
    · have := blockLoops_mem arm p loop h
      exact ⟨this.1, .inr (.inl this.2)⟩
    · have := armsLoops_mem rest _ loop h
      exact ⟨this.1, .inr (.inr this.2)⟩

end

/-! ## The claim of the plan -/

/-- A variable that is updated in a loop, with a first value of the given kind. -/
def updateGraph (first : NodeKind) : Graph where
  nodes := [
    ⟨first, none, 1, [], [], []⟩, ⟨.oper, some (.variable "new"), 2, [0], [], []⟩,
    ⟨.oper, some (.other ":op/lt"), 3, [], [], []⟩,
    ⟨.oper, some (.variable "take"), 4, [1], [], []⟩,
    ⟨.oper, some (.other ":op/set_inplace"), 5, [3], [], []⟩,
    ⟨.oper, some (.assn "_owned"), 6, [1, 4], [], []⟩, ⟨.loop, none, 7, [], [], []⟩]
  syncEdges := []
  orderEdges := []
  inPlaceForms := [.other ":op/set_inplace"]

def updatePlan : ExecPlan := ⟨[0, 1, 2, 3, 4, 5, 6], [(2, 6)]⟩

def updateProgram : Block :=
  .cons (.node 0) (.cons (.node 1) (.cons (.loop (.cons (.node 2) .nil)
    (.cons (.node 3) (.cons (.node 4) (.cons (.node 5) .nil))) 6) .nil))

theorem updateGraph_lays {first : NodeKind} (h : first = .port ∨ first = .copy) :
    Lays (updateGraph first) updatePlan updateProgram where
  topo := by simp [updatePlan, updateProgram]
  nodup := by simp [updateProgram]
  loops := by simp [updatePlan, updateProgram, Block.loopsAt, Stmt.loopsAt, Plan.loopAt]
  controls := by
    intro ref href
    have : ref = 6 := by simpa [updateProgram, blockControls, stmtControls] using href
    subst this
    rfl
  gates := by
    intro ref href
    obtain rfl | rfl := h <;> revert ref <;> decide
  operators := by
    intro ref href oper hoper hvar
    have hcells : ∀ ref ∈ updatePlan.topo, ∀ c ∈ updatePlan.topo,
        (updateGraph first).cellDeclaredHere c = true → ref ≠ c →
        (updateGraph first).uses ref c = true →
        ((updateGraph first).normInputsOf ref).head?.map (updateGraph first).behindAll = some c := by
      obtain rfl | rfl := h <;> decide
    have hopers : ∀ ref ∈ updatePlan.topo, ∀ oper ∈ (updateGraph first).operOf ref,
        oper.isVariable = true → oper ∈ [.variable "new", .variable "take", .assn "_owned"] ∧
          (oper = .variable "new" → ref = 1) := by
      obtain rfl | rfl := h <;> decide
    have hunused : ∀ c ∈ updatePlan.topo, (updateGraph first).cellDeclaredHere c = true →
        (updateGraph first).uses 1 c = false := by
      obtain rfl | rfl := h <;> decide
    obtain ⟨hin, hone⟩ := hopers ref href oper hoper hvar
    simp only [mem_cons, not_mem_nil, or_false] at hin
    constructor
    · obtain rfl | rfl | rfl := hin <;> simp [updateGraph]
    · intro c hc hnew hne huses
      refine ⟨hcells ref href c hc hnew hne huses, ?_⟩
      obtain rfl | rfl | rfl := hin
      · obtain rfl := hone rfl
        rw [hunused c hc hnew] at huses
        cases huses
      · exact .inl (by simp)
      · exact .inr ⟨_, rfl⟩

theorem updateProgram_runs :
    BlockRuns updateProgram 0 [0, 1, 2, 3, 4, 5, 2, 3, 4, 5, 2, 6] := by
  simp only [updateProgram, BlockRuns, StmtRuns]
  refine ⟨[0], _, rfl, rfl, [1], _, rfl, rfl, [2, 3, 4, 5, 2, 3, 4, 5, 2, 6], [], by simp, ?_, rfl⟩
  refine ⟨[2, 3, 4, 5, 2, 3, 4, 5, 2], rfl, ?_⟩
  have hcond : BlockRuns (.cons (.node 2) .nil) 2 [2] := by
    simp only [BlockRuns, StmtRuns]
    exact ⟨[2], [], rfl, rfl, rfl⟩
  have hbody : BlockRuns (.cons (.node 3) (.cons (.node 4) (.cons (.node 5) .nil))) 3 [3, 4, 5] := by
    simp only [BlockRuns, StmtRuns]
    exact ⟨[3], _, rfl, rfl, [4], _, rfl, rfl, [5], [], rfl, rfl, rfl⟩
  exact .next hcond hbody (.next hcond hbody (.stop hcond))

/-- With a copy for its first value the variable is used orderly: the update and the
    assignment follow the edges of the round, and the round leaves the cell owned. -/
theorem updateGraph_orderly : Orderly (updateGraph .copy) updatePlan updateProgram 1 where
  declares := by
    simp only [updateProgram, BlockDeclares]
    refine .inr (.inr ⟨?_, .inl trivial⟩)
    unfold Quiet
    decide
  steady := by
    have hregions : blockRegions updateProgram 0 = [(2, 3), (2, 6)] := by
      simp [updateProgram, blockRegions, stmtRegions]
    rw [hregions]
    decide
  ordered := by
    -- the cell, its take, the update and the assignment
    have htake : (3 : Ref) ∈ (updateGraph .copy).successors updatePlan.topo 1 := by decide
    have hupdate : (4 : Ref) ∈ (updateGraph .copy).successors updatePlan.topo 3 := by decide
    have hassn : (5 : Ref) ∈ (updateGraph .copy).successors updatePlan.topo 4 := by decide
    have hcellUpdate : Relation.TransGen
        (fun a b => b ∈ (updateGraph .copy).successors updatePlan.topo a) 1 4 :=
      .tail (.single htake) hupdate
    have hcases : ∀ x ∈ updatePlan.topo, isOp (updateGraph .copy) 1 x = true →
        x = 1 ∨ x = 4 ∨ x = 5 := by decide
    have hrange : ∀ i : Fin updatePlan.topo.length, updatePlan.topo[i] = i.val := by decide
    have hpos : ∀ (i : Nat) (x : Ref), updatePlan.topo[i]? = some x → i = x := by
      intro i x hi
      obtain ⟨hlt, hx⟩ := List.getElem?_eq_some_iff.mp hi
      rw [← hx]
      exact (hrange ⟨i, hlt⟩).symm
    intro i j x y hlt hi hj hx hy
    have hix := hpos i x hi
    have hjy := hpos j y hj
    refine ⟨x, y, hi, hj, ?_⟩
    obtain rfl | rfl | rfl := hcases x (mem_of_getElem? hi) hx <;>
      obtain rfl | rfl | rfl := hcases y (mem_of_getElem? hj) hy <;> try (exfalso; omega)
    · exact hcellUpdate
    · exact hcellUpdate.tail hassn
    · exact .single hassn
  alone := by decide
  gates := by decide

end Camel.Storage
