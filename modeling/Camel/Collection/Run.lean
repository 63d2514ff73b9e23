import Camel.Collection.Pairs

/-! # Runs of operations

    A program holds any number of collections and makes new ones from those it
    has.  The abstract state is the list of the finite maps they stand for; an
    operation adds one to it.  As long as no count passes 32 bits, the code's
    run follows the abstract one: no guard stops it and every table it has made
    passes the check of the invariants. -/

set_option linter.unusedSectionVars false

namespace Camel.Collection

open SortedEntries List

variable {K V : Type} [LinearOrder K] [Inhabited V]

/-! ## Operations -/

/-- An operation on the collections made so far, named by their position. -/
inductive Op (K V : Type) where
  | empty (ty : CollectionType)
  | fromArray (ty : CollectionType) (array : List (K × V))
  | put (t : Nat) (key : K) (value : V)
  | add (t : Nat) (elem : K)
  | remove (t : Nat) (key : K)
  | merge (t u : Nat)
  | intersect (t u : Nat)
  | difference (t u : Nat)
  /-- The keys keep their content, `moved` says which get another slot; a value
      is replaced or kept. -/
  | withSlots (t : Nat) (moved : K → Bool) (replace : V → Option V)
  | clone (t : Nat)

structure State (K V : Type) where
  heap : Heap K V
  tables : List (CollectionType × Addr)

def State.init : State K V := { heap := [], tables := [] }

/-- The state with the collection an operation has made. -/
def State.push (st : State K V) (ty : CollectionType) (r : Except Fault (Heap K V × Addr)) :
    Except Fault (State K V) :=
  r.map fun (h, a) => { heap := h, tables := st.tables ++ [(ty, a)] }

/-- The rewrite of the values `replace` describes. -/
def rewriteOf (replace : V → Option V) (v : V) : V × Bool :=
  match replace v with
  | none => (v, false)
  | some w => (w, true)

/-- One operation.  The type checker admits no operand of another type; such an
    operation is none. -/
def step (s : Shape) (st : State K V) : Op K V → Except Fault (State K V)
  | .empty ty => st.push ty (empty s ty st.heap)
  | .fromArray ty array => st.push ty (fromArray s ty array st.heap)
  | .put t key value =>
    match st.tables[t]? with
    | some (⟨true⟩, a) => st.push ⟨true⟩ (put s a key value st.heap)
    | _ => .ok st
  | .add t elem =>
    match st.tables[t]? with
    | some (⟨false⟩, a) => st.push ⟨false⟩ (add s a elem st.heap)
    | _ => .ok st
  | .remove t key =>
    match st.tables[t]? with
    | some (ty, a) => st.push ty (remove s ty a key st.heap)
    | none => .ok st
  | .merge t u =>
    match st.tables[t]?, st.tables[u]? with
    | some (ty, a), some (ty', b) =>
      if ty = ty' then st.push ty (merge s ty a b st.heap) else .ok st
    | _, _ => .ok st
  | .intersect t u =>
    match st.tables[t]?, st.tables[u]? with
    | some (⟨false⟩, a), some (⟨false⟩, b) => st.push ⟨false⟩ (intersect s a b st.heap)
    | _, _ => .ok st
  | .difference t u =>
    match st.tables[t]?, st.tables[u]? with
    | some (⟨false⟩, a), some (⟨false⟩, b) => st.push ⟨false⟩ (difference s a b st.heap)
    | _, _ => .ok st
  | .withSlots t moved replace =>
    match st.tables[t]? with
    | some (ty, a) =>
      st.push ty (withSlots s ty a (fun k => (k, moved k)) (rewriteOf replace) st.heap)
    | none => .ok st
  | .clone t =>
    match st.tables[t]? with
    | some (ty, a) => st.push ty (clone s ty a st.heap)
    | none => .ok st

def run (s : Shape) (st : State K V) : List (Op K V) → Except Fault (State K V)
  | [] => .ok st
  | op :: ops => do
    let st ← step s st op
    run s st ops

/-! ## The finite maps -/

/-- The finite maps a state stands for. -/
abbrev Maps (K V : Type) := List (CollectionType × List (K × V))

/-- The finite map an operation makes of those there are. -/
def Op.result (ms : Maps K V) : Op K V → Option (CollectionType × List (K × V))
  | .empty ty => some (ty, [])
  | .fromArray ty array => some (ty, arrayEntries ty array)
  | .put t key value =>
    match ms[t]? with
    | some (⟨true⟩, es) => some (⟨true⟩, insertEntry key value es)
    | _ => none
  | .add t elem =>
    match ms[t]? with
    | some (⟨false⟩, es) => some (⟨false⟩, insertEntry elem default es)
    | _ => none
  | .remove t key => (ms[t]?).map fun m => (m.1, eraseEntry key m.2)
  | .merge t u =>
    match ms[t]?, ms[u]? with
    | some (ty, a), some (ty', b) => if ty = ty' then some (ty, unionEntries a b) else none
    | _, _ => none
  | .intersect t u =>
    match ms[t]?, ms[u]? with
    | some (⟨false⟩, a), some (⟨false⟩, b) => some (⟨false⟩, interEntries a b)
    | _, _ => none
  | .difference t u =>
    match ms[t]?, ms[u]? with
    | some (⟨false⟩, a), some (⟨false⟩, b) => some (⟨false⟩, diffEntries a b)
    | _, _ => none
  | .withSlots t _ replace =>
    (ms[t]?).map fun m => (m.1, m.2.map (rewritten m.1 (rewriteOf replace)))
  | .clone t => ms[t]?

def Maps.step (ms : Maps K V) (op : Op K V) : Maps K V := ms ++ (op.result ms).toList

/-- The counts of an operation stay within 32 bits: that of its result, of the
    array it reads, and of the leaf two leaves are merged into. -/
def Op.Fits (s : Shape) (ms : Maps K V) (op : Op K V) : Prop :=
  (∀ m, op.result ms = some m → m.2.length < countWidth) ∧
  match op with
  | .fromArray _ array => array.length ≤ 2 ^ 32
  | .merge t u => ∀ m m', ms[t]? = some m → ms[u]? = some m' →
      m.2.length ≤ leafCapacity s m.1 → m'.2.length ≤ leafCapacity s m.1 →
      m.2.length + m'.2.length < countWidth
  | _ => True

/-- Every operation of a run fits. -/
def FitsRun (s : Shape) : Maps K V → List (Op K V) → Prop
  | _, [] => True
  | ms, op :: ops => op.Fits s ms ∧ FitsRun s (ms.step op) ops

/-! ## The code follows the finite maps -/

/-- Each table is a collection of the entries of its finite map. -/
def Sim (s : Shape) (st : State K V) (ms : Maps K V) : Prop :=
  Forall₂ (fun t m => t.1 = m.1 ∧ Denotes s m.1 st.heap t.2 m.2) st.tables ms

variable {s : Shape} {st : State K V} {ms : Maps K V}

theorem Sim.get (hsim : Sim s st ms) (i : Nat) :
    (st.tables[i]? = none ∧ ms[i]? = none) ∨
    ∃ ty a es, st.tables[i]? = some (ty, a) ∧ ms[i]? = some (ty, es) ∧
      Denotes s ty st.heap a es := by
  unfold Sim at hsim
  generalize st.tables = ts at hsim
  induction hsim generalizing i with
  | nil => simp
  | @cons t m ts ms hd _ ih =>
    cases i with
    | zero =>
      obtain ⟨ty, a⟩ := t
      obtain ⟨ty', es⟩ := m
      obtain ⟨rfl, hden⟩ := hd
      exact .inr ⟨ty, a, es, by simp, by simp, hden⟩
    | succ i => simpa using ih i

variable {ty : CollectionType} {es : List (K × V)}

/-- An operation that makes a collection extends both states alike. -/
theorem Sim.push (hsim : Sim s st ms)
    {r : Except Fault (Heap K V × Addr)}
    (hr : ∃ h' a, r = .ok (h', a) ∧ st.heap <+: h' ∧ Denotes s ty h' a es) :
    ∃ st', st.push ty r = .ok st' ∧ Sim s st' (ms ++ [(ty, es)]) := by
  obtain ⟨h', a, rfl, hp, hd⟩ := hr
  refine ⟨_, rfl, forall₂_append ?_ (.cons ⟨rfl, hd⟩ .nil)⟩
  exact hsim.imp (fun t m hm => ⟨hm.1, hm.2.mono hp⟩)

theorem empty_spec (s : Shape) (ty : CollectionType) (h : Heap K V) :
    ∃ h' a, empty s ty h = .ok (h', a) ∧ h <+: h' ∧ Denotes s ty h' a ([] : List (K × V)) := by
  unfold empty
  rw [leafOf_ok]
  exact ⟨_, _, rfl, prefix_append _ _, denotes_leaf (by simp) (by simp [countWidth])
    (by simp [Plain]) (Nat.zero_le _) sorted_nil⟩

variable {h : Heap K V} {a : Addr}

theorem put_spec (hs : s.Ok) (key : K)
    (value : V) (hd : Denotes s ⟨true⟩ h a es)
    (hlt : (insertEntry key value es).length < countWidth) :
    ∃ h' a', put s a key value h = .ok (h', a') ∧ h <+: h' ∧
      Denotes s ⟨true⟩ h' a' (insertEntry key value es) := by
  obtain ⟨h', a', heq, hp, hd'⟩ := insert_spec hs key value (by simp) hd hlt
  refine ⟨h', a', ?_, hp, hd'⟩
  simp only [put, heq, bind, Except.bind]
  exact Denotes.checked (r := (h', a')) hs hd'

theorem add_spec (hs : s.Ok) (elem : K)
    (hd : Denotes s ⟨false⟩ h a es) (hlt : (insertEntry elem default es).length < countWidth) :
    ∃ h' a', add s a elem h = .ok (h', a') ∧ h <+: h' ∧
      Denotes s ⟨false⟩ h' a' (insertEntry elem default es) := by
  obtain ⟨h', a', heq, hp, hd'⟩ := insert_spec hs elem default (fun _ => rfl) hd hlt
  refine ⟨h', a', ?_, hp, hd'⟩
  simp only [add, heq, bind, Except.bind]
  exact Denotes.checked (r := (h', a')) hs hd'

theorem remove_spec (hs : s.Ok)
    (key : K) (hd : Denotes s ty h a es) :
    ∃ h' a', remove s ty a key h = .ok (h', a') ∧ h <+: h' ∧ (find key es = none → a' = a) ∧
      Denotes s ty h' a' (eraseEntry key es) := by
  obtain ⟨h', a', heq, hp, hsame, hd'⟩ := removeKey_spec hs key hd
  refine ⟨h', a', ?_, hp, hsame, hd'⟩
  simp only [remove, heq, bind, Except.bind]
  exact Denotes.checked (r := (h', a')) hs hd'

/-- An operation that makes nothing leaves both states as they are. -/
theorem Sim.stay (hsim : Sim s st ms) {op : Op K V} (hstep : step s st op = .ok st)
    (hres : op.result ms = none) : ∃ st', step s st op = .ok st' ∧ Sim s st' (ms.step op) := by
  refine ⟨st, hstep, ?_⟩
  rw [Maps.step, hres, Option.toList_none, append_nil]
  exact hsim

/-- One operation follows the finite maps. -/
theorem step_sim (hs : s.Ok) (op : Op K V)
    (hsim : Sim s st ms) (hfit : op.Fits s ms) :
    ∃ st', step s st op = .ok st' ∧ Sim s st' (ms.step op) := by
  obtain ⟨hres, hmore⟩ := hfit
  cases op with
  | empty ty => exact hsim.push (empty_spec s ty st.heap)
  | fromArray ty array =>
    exact hsim.push (fromArray_spec hs array st.heap hmore (hres _ rfl))
  | put t key value =>
    rcases hsim.get t with ⟨h1, h2⟩ | ⟨⟨isMap⟩, a, es, h1, h2, hd⟩
    · exact hsim.stay (by simp [step, h1]) (by simp [Op.result, h2])
    · cases isMap with
      | false => exact hsim.stay (by simp [step, h1]) (by simp [Op.result, h2])
      | true =>
        have hlt := hres _ (by simp [Op.result, h2] : _ = some (⟨true⟩, insertEntry key value es))
        simpa [step, h1, Maps.step, Op.result, h2] using hsim.push (put_spec hs key value hd hlt)
  | add t elem =>
    rcases hsim.get t with ⟨h1, h2⟩ | ⟨⟨isMap⟩, a, es, h1, h2, hd⟩
    · exact hsim.stay (by simp [step, h1]) (by simp [Op.result, h2])
    · cases isMap with
      | true => exact hsim.stay (by simp [step, h1]) (by simp [Op.result, h2])
      | false =>
        have hlt := hres _ (by simp [Op.result, h2] : _ = some (⟨false⟩, insertEntry elem default es))
        simpa [step, h1, Maps.step, Op.result, h2] using hsim.push (add_spec hs elem hd hlt)
  | remove t key =>
    rcases hsim.get t with ⟨h1, h2⟩ | ⟨ty, a, es, h1, h2, hd⟩
    · exact hsim.stay (by simp [step, h1]) (by simp [Op.result, h2])
    · obtain ⟨h', a', heq, hp, -, hd'⟩ := remove_spec hs key hd
      simpa [step, h1, Maps.step, Op.result, h2] using hsim.push ⟨h', a', heq, hp, hd'⟩
  | merge t u =>
    rcases hsim.get t with ⟨h1, h2⟩ | ⟨ty, a, ea, h1, h2, hda⟩
    · exact hsim.stay (by simp [step, h1]) (by simp [Op.result, h2])
    rcases hsim.get u with ⟨h3, h4⟩ | ⟨ty', b, eb, h3, h4, hdb⟩
    · exact hsim.stay (by simp [step, h3]) (by simp [Op.result, h4])
    by_cases hty : ty = ty'
    · subst hty
      have hlt := hres _ (by simp [Op.result, h2, h4] : _ = some (ty, unionEntries ea eb))
      have hfit : MergeFits s ty ea eb := ⟨hlt, hmore _ _ h2 h4⟩
      simpa [step, h1, h3, Maps.step, Op.result, h2, h4] using
        hsim.push (merge_spec hs hda hdb hfit)
    · exact hsim.stay (by simp [step, h1, h3, hty]) (by simp [Op.result, h2, h4, hty])
  | intersect t u | difference t u =>
    rcases hsim.get t with ⟨h1, h2⟩ | ⟨⟨ma⟩, a, ea, h1, h2, hda⟩
    · exact hsim.stay (by simp [step, h1]) (by simp [Op.result, h2])
    rcases hsim.get u with ⟨h3, h4⟩ | ⟨⟨mb⟩, b, eb, h3, h4, hdb⟩
    · exact hsim.stay (by simp [step, h3]) (by simp [Op.result, h4])
    cases ma with
    | true => exact hsim.stay (by simp [step, h1]) (by simp [Op.result, h2])
    | false =>
      cases mb with
      | true => exact hsim.stay (by simp [step, h3]) (by simp [Op.result, h4])
      | false =>
        first
        | simpa [step, h1, h3, Maps.step, Op.result, h2, h4] using
            hsim.push (intersect_spec hs hda hdb)
        | simpa [step, h1, h3, Maps.step, Op.result, h2, h4] using
            hsim.push (difference_spec hs hda hdb)
  | withSlots t moved replace =>
    rcases hsim.get t with ⟨h1, h2⟩ | ⟨ty, a, es, h1, h2, hd⟩
    · exact hsim.stay (by simp [step, h1]) (by simp [Op.result, h2])
    · have hsame : ∀ e ∈ es, (rewriteOf replace e.2).2 = false → (rewriteOf replace e.2).1 = e.2 := by
        intro e _ hno
        unfold rewriteOf at hno ⊢
        cases hr : replace e.2 <;> simp_all
      simpa [step, h1, Maps.step, Op.result, h2] using
        hsim.push (withSlots_spec hs (fun k => (k, moved k)) (rewriteOf replace) (fun _ _ => rfl)
          hsame hd)
  | clone t =>
    rcases hsim.get t with ⟨h1, h2⟩ | ⟨ty, a, es, h1, h2, hd⟩
    · exact hsim.stay (by simp [step, h1]) (by simp [Op.result, h2])
    · simpa [step, h1, Maps.step, Op.result, h2] using hsim.push (clone_spec hs hd)

/-- A whole run follows the finite maps. -/
theorem run_sim (hs : s.Ok) (ops : List (Op K V)) :
    ∀ (st : State K V) (ms : Maps K V), Sim s st ms → FitsRun s ms ops →
      ∃ st', run s st ops = .ok st' ∧ Sim s st' (ops.foldl Maps.step ms) := by
  induction ops with
  | nil => exact fun st ms hsim _ => ⟨st, rfl, hsim⟩
  | cons op ops ih =>
    intro st ms hsim hfit
    obtain ⟨st1, hstep, hsim1⟩ := step_sim hs op hsim hfit.1
    obtain ⟨st2, hrun, hsim2⟩ := ih st1 _ hsim1 hfit.2
    refine ⟨st2, ?_, hsim2⟩
    simp only [run, hstep, bind, Except.bind]
    exact hrun

/-- No run reaches a guard, and every collection it has made passes the check of
    the invariants and has the entries of its finite map. -/
theorem run_tables_valid (requested : ShapeRequest) (ops : List (Op K V))
    (hfit : FitsRun (shape requested) [] ops) :
    ∃ st, run (shape requested) State.init ops = .ok st ∧
      Sim (shape requested) st (ops.foldl Maps.step []) ∧
      ∀ t ∈ st.tables, validate (shape requested) t.1 st.heap t.2 = none := by
  obtain ⟨st, hrun, hsim⟩ := run_sim (shape_ok requested) ops State.init [] .nil hfit
  refine ⟨st, hrun, hsim, ?_⟩
  intro t ht
  obtain ⟨i, hi, rfl⟩ := mem_iff_getElem.mp ht
  rcases hsim.get i with ⟨hnone, -⟩ | ⟨ty, a, es, hget, -, hd⟩
  · rw [getElem?_eq_getElem hi] at hnone
    exact absurd hnone (by simp)
  · rw [getElem?_eq_getElem hi] at hget
    rw [Option.some.inj hget]
    exact hd.validate (shape_ok requested)

theorem run_tables_valid_put : FitsRun (K := Nat) (V := Nat) (shape {}) []
      [.fromArray ⟨true⟩ [(2, 7), (1, 8), (2, 9)], .put 0 3 4, .merge 0 1] ∧
    ∃ st, run (K := Nat) (V := Nat) (shape {}) State.init
        [.fromArray ⟨true⟩ [(2, 7), (1, 8), (2, 9)], .put 0 3 4, .merge 0 1] = .ok st ∧
      Sim (shape {}) st (List.foldl Maps.step []
        [.fromArray ⟨true⟩ [(2, 7), (1, 8), (2, 9)], .put 0 3 4, .merge 0 1]) ∧
      ∀ t ∈ st.tables, validate (shape {}) t.1 st.heap t.2 = none := by
  have hfit : FitsRun (K := Nat) (V := Nat) (shape {}) []
      [.fromArray ⟨true⟩ [(2, 7), (1, 8), (2, 9)], .put 0 3 4, .merge 0 1] := by
    simp [FitsRun, Op.Fits, Op.result, Maps.step, countWidth, arrayEntries, kept, unionEntries,
      insertEntry]
  exact ⟨hfit, run_tables_valid {} _ hfit⟩

/-! ## Past 32 bits -/

variable {n : Nat}

theorem checkChildren_pos (h : Heap K V) (t : Table K V)
    (check : Addr → Option K → Except String (Option K)) {i : Nat} {as : List Addr}
    {last l : Option K} (hok : checkChildren h t check i (a :: as) last = .ok (l, n)) :
    0 < n := by
  rw [checkChildren] at hok
  split at hok
  · exact absurd hok (by simp)
  · next child _ =>
    split at hok
    · exact absurd hok (by simp)
    · split at hok
      · exact absurd hok (by simp)
      · next hne =>
        have hpos : 0 < child.size := by
          rcases Nat.eq_zero_or_pos child.size with h0 | h0
          · exact absurd (.inl h0) hne
          · exact h0
        simp only [bind, Except.bind] at hok
        split at hok
        · exact absurd hok (by simp)
        · split at hok
          · exact absurd hok (by simp)
          · simp only [Except.ok.injEq, Prod.mk.injEq] at hok
            omega

/-- A branch whose count went round to 0 does not pass. -/
theorem validate_zero {T : Table K V}
    (hget : h[a]? = some T) (hbranch : T.isLeaf = false) (hzero : T.size = 0) :
    validate s ty h a ≠ none := by
  have hno : ∀ fuel l, check s ty h a fuel a none ≠ .ok l := by
    intro fuel l hok
    unfold check at hok
    simp only [hget, hbranch, Bool.false_eq_true, if_false, if_true] at hok
    split at hok
    · exact absurd hok (by simp)
    · next hcount =>
      cases fuel with
      | zero => exact absurd hok (by simp)
      | succ fuel =>
        simp only [bind, Except.bind] at hok
        split at hok
        · exact absurd hok (by simp)
        · next r heq =>
          obtain ⟨last, n⟩ := r
          match hc : T.children with
          | [] =>
            have : T.count = 0 := by simp [Table.count, hc]
            omega
          | x :: xs =>
            rw [hc] at heq
            have hpos := checkChildren_pos h T _ heq
            rw [hzero] at hok
            simp only [ne_eq, ne_of_gt hpos, not_false_eq_true, if_true] at hok
            exact absurd hok (by simp)
  unfold validate
  cases hc : check s ty h a ((h[a]?).elim 0 Table.height) a none with
  | ok l => exact absurd hc (hno _ l)
  | error e => simp

/-- The `n` keys from `lo` on, as a set has them. -/
def keysFrom (lo n : Nat) : List (Nat × Unit) := (List.range n).map fun i => (lo + i, ())

theorem sorted_keysFrom (lo n : Nat) : Sorted (keysFrom lo n) :=
  List.pairwise_map.mpr (pairwise_lt_range.imp (Nat.add_lt_add_left · lo))

theorem length_keysFrom (lo n : Nat) : (keysFrom lo n).length = n := by simp [keysFrom]

/-- A list cut in two. -/
theorem cut_two {α : Type} {l : List α} {half : Nat} (hpos : 0 < half)
    (hlen : l.length = 2 * half) : Shares.cut l half = [l.take half, l.drop half] := by
  have hgroups : Shares.groups l.length half = 2 := by
    rw [hlen]
    unfold Shares.groups
    rw [if_neg (by omega), Nat.mul_div_cancel _ hpos, Nat.mul_mod_left]
    simp
  have hbound : Shares.bound l.length 2 1 = half := by
    simp only [Shares.bound, hlen]
    omega
  have hlast : Shares.bound l.length 2 2 = 2 * half := by
    simp only [Shares.bound, hlen]
    omega
  unfold Shares.cut
  simp only [hgroups]
  show [_, _] = _
  simp only [bound_zero, hbound, hlast, drop_zero, Nat.sub_zero, zero_add]
  congr 1
  rw [take_of_length_le (by rw [length_drop]; omega)]

/-- Twice a leaf, of as many entries as the count has values: the root's count
    goes round to 0. -/
theorem buildTree_wraps (hs : s.Ok) (ty : CollectionType) (es : List (K × V))
    (hplain : Plain ty es) (hcap : 2 * leafCapacity s ty = countWidth)
    (hlen : es.length = countWidth) (h : Heap K V) :
    ∃ h' a T, buildTree s ty es h = .ok (h', a) ∧ h'[a]? = some T ∧ T.isLeaf = false ∧
      T.size = 0 := by
  have htwo := leafCapacity_ge hs ty
  generalize hhalf : leafCapacity s ty = half at hcap htwo
  have hcut : Shares.cut es half = [es.take half, es.drop half] := cut_two (by omega) (by omega)
  have hlt : ∀ p ∈ Shares.cut es half, p.length < countWidth := by
    intro p hp
    rw [hcut] at hp
    simp only [mem_cons, not_mem_nil, or_false] at hp
    rcases hp with rfl | rfl
    · rw [length_take]
      omega
    · rw [length_drop]
      omega
  obtain ⟨h1, leaves, heq, -, hleaves⟩ := makeAll_leaves s ty _ true hlt
    (fun p hp => hplain.sublist (cut_part (by omega) (by omega) hp).2.2) h
  rw [hcut] at hleaves
  have hne : ∀ c ∈ ([es.take half, es.drop half] : List (Tree (K × V) 0)),
      Tree.entries 0 c ≠ [] := by
    intro c hc
    simp only [mem_cons, not_mem_nil, or_false] at hc
    rcases hc with rfl | rfl
    · exact length_pos_iff.mp (by rw [Tree.entries_zero, length_take]; omega)
    · exact length_pos_iff.mp (by rw [Tree.entries_zero, length_drop]; omega)
  obtain ⟨T, hmk, hht, hsz, -, -⟩ := makeBranch_eq (s := s) hleaves (by simp) hne
  have hfan := hs.fanout
  have hlevel : leaves.length = 2 := hleaves.length_eq.symm
  refine ⟨h1 ++ [T], h1.length, T, ?_, by simp, by simp [Table.isLeaf, hht], ?_⟩
  · have hone : Shares.cut leaves s.fanout = [leaves] := by
      rw [Shares.cut, groups_one (by omega)]
      simp [Shares.bound]
    have hall : makeAll (makeBranch s) (Shares.cut leaves s.fanout) h1 =
        .ok (h1 ++ [T], [h1.length]) := by
      simp only [hone, makeAll, hmk, bind, Except.bind]
    unfold buildTree
    rw [hhalf, if_neg (by omega)]
    simp only [heq, bind, Except.bind]
    obtain ⟨x, y, rfl⟩ := length_eq_two.1 hlevel
    rw [length_cons]
    unfold buildBranches
    simp only [hall, bind, Except.bind]
    unfold buildBranches
    rfl
  · rw [hsz]
    simp only [flatMap_cons, flatMap_nil, Tree.entries_zero, append_nil,
      take_append_drop, hlen, Nat.mod_self]

theorem arrayEntries_keysFrom (lo n : Nat) :
    arrayEntries ⟨false⟩ (keysFrom lo n) = keysFrom lo n := by
  have hkept : (keysFrom lo n).map (kept ⟨false⟩) = keysFrom lo n :=
    (map_congr_left (fun e _ => rfl)).trans (map_id _)
  rw [arrayEntries, hkept, union_nil_left (sorted_keysFrom lo n)]

/-- `fromArray` over the first `n` keys hands them to `buildTree` as they are. -/
theorem fromArray_keysFrom (hv : s.validate = false) (hpos : n ≠ 0)
    (hn : n ≤ 2 ^ 32) (h : Heap Nat Unit) :
    fromArray s ⟨false⟩ (keysFrom 0 n) h = buildTree s ⟨false⟩ (keysFrom 0 n) h := by
  have hentries := fromArray_entries ⟨false⟩ (keysFrom 0 n)
  rw [arrayEntries_keysFrom] at hentries
  unfold fromArray
  rw [if_neg (by rw [length_keysFrom]; exact hpos), sourceEntries _ (by rw [length_keysFrom]; exact hn)]
  have hsame : (if ascending (keysFrom 0 n) = true then (keysFrom 0 n).map (kept ⟨false⟩)
      else lastOfRuns (((keysFrom 0 n).map (kept ⟨false⟩)).mergeSort
        fun x y => !decide (compareKeys y.1 x.1 < 0))) = keysFrom 0 n := hentries
  simp only [hsame, bind, Except.bind]
  cases buildTree s ⟨false⟩ (keysFrom 0 n) h with
  | error f => rfl
  | ok r => simp [checked, hv]

theorem fromArray_wraps (hs : s.Ok) (hv : s.validate = false)
    (hcap : 2 * leafCapacity s ⟨false⟩ = countWidth) (hn : n = countWidth) :
    ∃ st, run s State.init [Op.fromArray ⟨false⟩ (keysFrom 0 n)] = .ok st ∧
      ∃ t ∈ st.tables, validate s t.1 st.heap t.2 ≠ none := by
  obtain ⟨h', a, T, hbuild, hget, hbranch, hzero⟩ := buildTree_wraps hs ⟨false⟩
    (keysFrom 0 n) (fun _ e _ => rfl) hcap ((length_keysFrom 0 n).trans hn)
    ([] : Heap Nat Unit)
  have hfrom := fromArray_keysFrom hv (n := n) (by rw [hn]; decide) (le_of_eq hn) []
  rw [hbuild] at hfrom
  refine ⟨{ heap := h', tables := [(⟨false⟩, a)] }, ?_, (⟨false⟩, a), mem_singleton.mpr rfl,
    validate_zero hget hbranch hzero⟩
  simp only [run, step, State.push, State.init, hfrom, bind, Except.bind, Except.map,
    nil_append]

/-- A leaf of `2 ^ 31` elements and an array of `2 ^ 32`: the root of the set
    counts no entry, and the check of the invariants refuses it. -/
theorem fromArray_past_width :
    ∃ st, run (shape { leafCapacity := some (2 ^ 30) }) State.init
        [Op.fromArray ⟨false⟩ (keysFrom 0 (2 ^ 32))] = .ok st ∧
      ∃ t ∈ st.tables,
        validate (shape { leafCapacity := some (2 ^ 30) }) t.1 st.heap t.2 ≠ none :=
  fromArray_wraps (shape_ok _) rfl (by decide) rfl

end Camel.Collection
