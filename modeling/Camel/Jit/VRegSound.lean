import Camel.Jit.Mir

/-! # The Register Allocation Is Sound

    Of the table an allocation gives out: a virtual register that is used has one of
    the registers that are not reserved, two whose ranges overlap have different ones,
    and none lives across a call.
-/

namespace Camel.Jit

open Lib Lib.Scan List

/-! ## Live Ranges -/

def defsOf (m : Mir) : List VRegId := (tableDefUse m).1.filter (· ≠ kInvalidVReg)

def usesOf (m : Mir) : List VRegId := (tableDefUse m).2.filter (· ≠ kInvalidVReg)

/-- The index of the last instruction a predicate picks, counted from `k`. -/
def lastIndex (p : Mir → Bool) : MirBuffer → Nat → Option Nat
  | [], _ => none
  | m :: rest, k => (lastIndex p rest (k + 1)).or (if p m then some k else none)

def firstIndex (p : Mir → Bool) : MirBuffer → Nat → Option Nat
  | [], _ => none
  | m :: rest, k => if p m then some k else firstIndex p rest (k + 1)

/-- A virtual register is live from its first definition to its last use. -/
structure Ranges (buf : MirBuffer) (v : VRegId) (start stop : Nat) : Prop where
  defined : firstIndex (fun m => v ∈ defsOf m) buf 0 = some start
  used : lastIndex (fun m => v ∈ usesOf m) buf 0 = some stop
  ordered : start ≤ stop

variable {d : VRegDefUse} {p : Mir → Bool} {buf : MirBuffer}

theorem firstIndex_some {k i : Nat}
    (h : firstIndex p buf k = some i) :
    k ≤ i ∧ (∃ m, buf[i - k]? = some m ∧ p m = true) ∧
      ∀ j m, buf[j]? = some m → p m = true → i ≤ k + j := by
  induction buf generalizing k with
  | nil => cases h
  | cons m rest ih =>
    unfold firstIndex at h
    split at h
    · next hm =>
      cases h
      exact ⟨le_rfl, ⟨m, by simp, hm⟩, fun j _ _ _ => Nat.le_add_right _ j⟩
    · next hm =>
      obtain ⟨hle, ⟨m', hm', hp⟩, hmin⟩ := ih h
      refine ⟨by omega, ⟨m', ?_, hp⟩, fun j m'' hj hp' => ?_⟩
      · rw [show i - k = i - (k + 1) + 1 by omega]
        exact hm'
      · cases j with
        | zero =>
          obtain rfl : m = m'' := by simpa using hj
          exact absurd hp' hm
        | succ j =>
          have := hmin j m'' (by simpa using hj) hp'
          omega

theorem lastIndex_isSome (k : Nat) {j : Nat} {m : Mir}
    (hj : buf[j]? = some m) (hp : p m = true) : ∃ i, lastIndex p buf k = some i := by
  induction buf generalizing k j with
  | nil => cases hj
  | cons m' rest ih =>
    unfold lastIndex
    cases j with
    | zero =>
      obtain rfl : m' = m := by simpa using hj
      rw [if_pos hp]
      cases lastIndex p rest (k + 1) with
      | none => exact ⟨k, rfl⟩
      | some i => exact ⟨i, rfl⟩
    | succ j =>
      obtain ⟨i, hi⟩ := ih (k + 1) (j := j) (by simpa using hj)
      exact ⟨i, by rw [hi]; rfl⟩

theorem lastIndex_some {k i : Nat}
    (h : lastIndex p buf k = some i) :
    k ≤ i ∧ (∃ m, buf[i - k]? = some m ∧ p m = true) ∧
      ∀ j m, buf[j]? = some m → p m = true → k + j ≤ i := by
  induction buf generalizing k i with
  | nil => cases h
  | cons m rest ih =>
    unfold lastIndex at h
    cases hrest : lastIndex p rest (k + 1) with
    | some i' =>
      rw [hrest] at h
      cases h
      obtain ⟨hle, ⟨m', hm', hp⟩, hmax⟩ := ih hrest
      refine ⟨by omega, ⟨m', ?_, hp⟩, fun j m'' hj hp' => ?_⟩
      · rw [show i - k = i - (k + 1) + 1 by omega]
        exact hm'
      · cases j with
        | zero => omega
        | succ j =>
          have := hmax j m'' (by simpa using hj) hp'
          omega
    | none =>
      rw [hrest, Option.none_or] at h
      split at h
      · next hm =>
        cases h
        refine ⟨le_refl k, ⟨m, by simp, hm⟩, fun j m'' hj hp' => ?_⟩
        cases j with
        | zero => omega
        | succ j =>
          -- nothing is picked further on
          obtain ⟨i, hi⟩ := lastIndex_isSome (k + 1) (j := j) (by simpa using hj) hp'
          rw [hrest] at hi
          cases hi
      · cases h

/-! ## What the Tables Say -/

namespace VRegDefUse

def Even (d : VRegDefUse) : Prop := d.firstDef.length = d.lastUse.length

variable {d : VRegDefUse}

theorem ensureSize_spec (hd : d.Even) (v : Nat) :
    (d.ensureSize v).Even ∧ v < (d.ensureSize v).firstDef.length ∧
      (∀ k, (d.ensureSize v).firstDef.getD k none = d.firstDef.getD k none) ∧
      ∀ k, (d.ensureSize v).lastUse.getD k none = d.lastUse.getD k none := by
  unfold Even at *
  unfold ensureSize
  split
  · refine ⟨?_, ?_, fun k => getD_append_replicate _ _ k none,
      fun k => getD_append_replicate _ _ k none⟩
    · simp [hd]
    · rw [length_append, length_replicate]
      omega
  · exact ⟨hd, by omega, fun _ => rfl, fun _ => rfl⟩

theorem useVReg_spec (hd : d.Even) (i v : Nat) :
    (d.useVReg i v).Even ∧
      (∀ k, (d.useVReg i v).firstDef.getD k none = d.firstDef.getD k none) ∧
      ∀ k, (d.useVReg i v).lastUse.getD k none =
        if k = v ∧ v ≠ kInvalidVReg then some i else d.lastUse.getD k none := by
  unfold useVReg
  split
  · next hv =>
    obtain ⟨heven, hin, hdef, huse⟩ := ensureSize_spec hd v
    refine ⟨?_, hdef, fun k => ?_⟩
    · show (d.ensureSize v).firstDef.length = ((d.ensureSize v).lastUse.set _ _).length
      rw [length_set]
      exact heven
    · show ((d.ensureSize v).lastUse.set v (some i)).getD k none = _
      rw [getD_set (heven ▸ hin), huse]
      simp only [hv, ne_eq, not_false_eq_true, and_true]
  · next hv =>
    refine ⟨hd, fun _ => rfl, fun k => ?_⟩
    rw [if_neg fun h => hv h.2]

theorem defVReg_spec (hd : d.Even) (i v : Nat) :
    (d.defVReg i v).Even ∧
      (∀ k, (d.defVReg i v).lastUse.getD k none = d.lastUse.getD k none) ∧
      ∀ k, (d.defVReg i v).firstDef.getD k none =
        (d.firstDef.getD k none).or (if k = v ∧ v ≠ kInvalidVReg then some i else none) := by
  unfold defVReg
  split
  · next hv =>
    obtain ⟨heven, hin, hdef, huse⟩ := ensureSize_spec hd v
    simp only
    split
    · next hnone =>
      refine ⟨?_, huse, fun k => ?_⟩
      · show ((d.ensureSize v).firstDef.set _ _).length = (d.ensureSize v).lastUse.length
        rw [length_set]
        exact heven
      · show ((d.ensureSize v).firstDef.set v (some i)).getD k none = _
        rw [getD_set hin, hdef]
        rw [hdef] at hnone
        by_cases h : k = v
        · subst h
          rw [if_pos rfl, hnone, if_pos ⟨rfl, hv⟩]
          rfl
        · rw [if_neg h, if_neg fun hkv => h hkv.1, Option.or_none]
    · next hsome =>
      refine ⟨heven, huse, fun k => ?_⟩
      rw [hdef] at hsome ⊢
      by_cases h : k = v
      · obtain ⟨start, hstart⟩ := Option.ne_none_iff_exists'.mp hsome
        rw [h, hstart]
        rfl
      · rw [if_neg fun hkv => h hkv.1, Option.or_none]
  · next hv =>
    refine ⟨hd, fun _ => rfl, fun k => ?_⟩
    rw [if_neg fun h => hv h.2, Option.or_none]

theorem foldl_useVReg (hd : d.Even) (i : Nat) (l : List VRegId) :
    (l.foldl (useVReg i) d).Even ∧
      (∀ k, (l.foldl (useVReg i) d).firstDef.getD k none = d.firstDef.getD k none) ∧
      ∀ k, (l.foldl (useVReg i) d).lastUse.getD k none =
        if k ∈ l.filter (· ≠ kInvalidVReg) then some i else d.lastUse.getD k none := by
  induction l generalizing d with
  | nil => exact ⟨hd, fun _ => rfl, fun k => by simp⟩
  | cons v l ih =>
    obtain ⟨heven, hdef, huse⟩ := useVReg_spec hd i v
    obtain ⟨heven', hdef', huse'⟩ := ih heven
    refine ⟨heven', fun k => (hdef' k).trans (hdef k), fun k => ?_⟩
    rw [foldl_cons, huse' k, huse k]
    by_cases hl : k ∈ l.filter (· ≠ kInvalidVReg)
    · have hcons : k ∈ (v :: l).filter (· ≠ kInvalidVReg) := by
        simp only [mem_filter, mem_cons] at hl ⊢
        exact ⟨.inr hl.1, hl.2⟩
      rw [if_pos hl, if_pos hcons]
    · rw [if_neg hl]
      by_cases hv : k = v ∧ v ≠ kInvalidVReg
      · obtain ⟨rfl, hvalid⟩ := hv
        rw [if_pos ⟨rfl, hvalid⟩, if_pos (by simp [hvalid])]
      · have hcons : k ∉ (v :: l).filter (· ≠ kInvalidVReg) := by
          simp only [mem_filter, mem_cons, decide_eq_true_eq] at hl ⊢
          rintro ⟨rfl | hin, hvalid⟩
          · exact hv ⟨rfl, hvalid⟩
          · exact hl ⟨hin, hvalid⟩
        rw [if_neg hv, if_neg hcons]

theorem foldl_defVReg (hd : d.Even) (i : Nat) (l : List VRegId) :
    (l.foldl (defVReg i) d).Even ∧
      (∀ k, (l.foldl (defVReg i) d).lastUse.getD k none = d.lastUse.getD k none) ∧
      ∀ k, (l.foldl (defVReg i) d).firstDef.getD k none = (d.firstDef.getD k none).or
        (if k ∈ l.filter (· ≠ kInvalidVReg) then some i else none) := by
  induction l generalizing d with
  | nil => exact ⟨hd, fun _ => rfl, fun k => by simp⟩
  | cons v l ih =>
    obtain ⟨heven, huse, hdef⟩ := defVReg_spec hd i v
    obtain ⟨heven', huse', hdef'⟩ := ih heven
    refine ⟨heven', fun k => (huse' k).trans (huse k), fun k => ?_⟩
    rw [foldl_cons, hdef' k, hdef k, Option.or_assoc]
    congr 1
    by_cases hvalid : v = kInvalidVReg
    · simp [hvalid]
    · by_cases h : k = v
      · simp [h, hvalid]
      · simp [h]

end VRegDefUse

theorem collect_vregs (hd : d.Even) (buf : MirBuffer) (n : Nat) :
    let d' := (buf.zipIdx n).foldl (fun d p =>
      let du := tableDefUse p.1
      du.2.foldl (VRegDefUse.useVReg p.2) (du.1.foldl (VRegDefUse.defVReg p.2) d)) d
    d'.Even ∧ ∀ k,
      d'.firstDef.getD k none =
        (d.firstDef.getD k none).or (firstIndex (fun m => k ∈ defsOf m) buf n) ∧
      d'.lastUse.getD k none =
        (lastIndex (fun m => k ∈ usesOf m) buf n).or (d.lastUse.getD k none) := by
  induction buf generalizing d n with
  | nil => exact ⟨hd, fun k => ⟨by simp [firstIndex], by simp [lastIndex]⟩⟩
  | cons m buf ih =>
    obtain ⟨heven, huse, hdef⟩ := VRegDefUse.foldl_defVReg hd n (tableDefUse m).1
    obtain ⟨heven', hdef', huse'⟩ := VRegDefUse.foldl_useVReg heven n (tableDefUse m).2
    obtain ⟨hall, hrest⟩ := ih heven' (n + 1)
    refine ⟨hall, fun k => ?_⟩
    obtain ⟨hfirst, hlast⟩ := hrest k
    constructor
    · refine hfirst.trans ?_
      rw [hdef', hdef, Option.or_assoc]
      congr 1
      show _ = if decide (k ∈ defsOf m) = true then some n else firstIndex _ buf (n + 1)
      unfold defsOf
      by_cases h : k ∈ (tableDefUse m).1.filter (· ≠ kInvalidVReg)
      · rw [if_pos h, if_pos (by simpa using h)]
        rfl
      · rw [if_neg h, if_neg (by simpa using h), Option.none_or]
    · refine hlast.trans ?_
      rw [huse', huse]
      show _ = (Option.or (lastIndex _ buf (n + 1))
        (if decide (k ∈ usesOf m) = true then some n else none)).or _
      rw [Option.or_assoc]
      congr 1
      unfold usesOf
      by_cases h : k ∈ (tableDefUse m).2.filter (· ≠ kInvalidVReg)
      · rw [if_pos h, if_pos (by simpa using h)]
        rfl
      · rw [if_neg h, if_neg (by simpa using h), Option.none_or]

/-! ## The Scan -/

def vregisters : Set Nat := {r | r < kNumAllocatableRegs ∧ r ≠ kReservedRegRbx ∧ r ≠ kReservedRegScratch}

/-- The table has the registers of the intervals so far, and the scan keeps them apart. -/
structure VAllocated (size : Nat) (held : Set (VLiveInterval × Nat)) (s : VAllocState) (t : Nat) :
    Prop where
  shares : Shares VLiveInterval.start VLiveInterval.stop vregisters s.scan held t
  size : s.vregToPreg.length = size
  table : ∀ v r, s.vregToPreg.getD v none = some r ↔ ∃ i, (i, r) ∈ held ∧ i.vreg = v

section
variable {size : Nat} {held : Set (VLiveInterval × Nat)} {s s' : VAllocState} {t : Nat}
variable {cur : VLiveInterval}

theorem VAllocated.step (h : VAllocated size held s t) (hfits : cur.vreg < size)
    (hnew : ∀ p ∈ held, p.1.vreg ≠ cur.vreg) (hstart : t ≤ cur.start)
    (hstep : vallocStep s cur = .ok s') :
    ∃ r, VAllocated size (insert (cur, r) held) s' cur.start := by
  unfold vallocStep at hstep
  simp only at hstep
  split at hstep
  · cases hstep
  · next r hfree =>
    cases hstep
    refine ⟨r, ?_, ?_, ?_⟩
    · exact (h.shares.expire hstart).take le_rfl hfree fun p => Set.mem_insert_iff
    · rw [length_set]
      exact h.size
    · intro v q
      rw [getD_set (h.size ▸ hfits)]
      split
      · next hv =>
        subst hv
        constructor
        · intro hq
          cases hq
          exact ⟨cur, Set.mem_insert _ _, rfl⟩
        · rintro ⟨i, hi, hvreg⟩
          rcases Set.mem_insert_iff.mp hi with heq | hi
          · cases heq
            rfl
          · exact absurd hvreg (hnew _ hi)
      · next hv =>
        rw [h.table v q]
        constructor
        · rintro ⟨i, hi, hvreg⟩
          exact ⟨i, Set.mem_insert_of_mem _ hi, hvreg⟩
        · rintro ⟨i, hi, hvreg⟩
          rcases Set.mem_insert_iff.mp hi with heq | hi
          · cases heq
            exact absurd hvreg.symm hv
          · exact ⟨i, hi, hvreg⟩

theorem VAllocated.run (h : VAllocated size held s t) {l : List VLiveInterval}
    (hfits : ∀ i ∈ l, i.vreg < size) (hvregs : (l.map VLiveInterval.vreg).Nodup)
    (hnew : ∀ p ∈ held, ∀ i ∈ l, p.1.vreg ≠ i.vreg)
    (hsorted : l.Pairwise fun i j => i.start ≤ j.start) (hlater : ∀ i ∈ l, t ≤ i.start)
    (hrun : vallocLoop s l = .ok s') :
    ∃ held' u, VAllocated size held' s' u ∧ held ⊆ held' ∧ (∀ i ∈ l, ∃ r, (i, r) ∈ held') ∧
      ∀ p ∈ held', p ∈ held ∨ p.1 ∈ l := by
  induction l generalizing held s t with
  | nil =>
    cases hrun
    exact ⟨held, t, h, fun p hp => hp, fun i hi => (not_mem_nil hi).elim, fun p hp => .inl hp⟩
  | cons cur l ih =>
    rw [map_cons, nodup_cons] at hvregs
    rw [pairwise_cons] at hsorted
    unfold vallocLoop at hrun
    split at hrun
    · cases hrun
    · next s₁ hstep =>
      obtain ⟨r, hcur⟩ := h.step (hfits cur mem_cons_self)
        (fun p hp => hnew p hp cur mem_cons_self) (hlater cur mem_cons_self) hstep
      obtain ⟨held', u, hall, hsub, hgiven, hfrom⟩ := ih hcur
        (fun i hi => hfits i (mem_cons_of_mem cur hi)) hvregs.2
        (by
          intro p hp i hi
          rcases Set.mem_insert_iff.mp hp with rfl | hp
          · exact fun heq => hvregs.1 (heq ▸ mem_map_of_mem hi)
          · exact hnew p hp i (mem_cons_of_mem cur hi))
        hsorted.2 hsorted.1 hrun
      refine ⟨held', u, hall, fun p hp => hsub (Set.mem_insert_of_mem _ hp), ?_, ?_⟩
      · intro i hi
        rcases mem_cons.mp hi with rfl | hi
        · exact ⟨r, hsub (Set.mem_insert _ _)⟩
        · exact hgiven i hi
      · intro p hp
        rcases hfrom p hp with hp | hp
        · rcases Set.mem_insert_iff.mp hp with rfl | hp
          · exact .inr mem_cons_self
          · exact .inl hp
        · exact .inr (mem_cons_of_mem cur hp)

end

/-! ## The Intervals -/

theorem callIndices_sorted (buf : MirBuffer) : (callIndices buf).Pairwise (· < ·) := by
  have hzip : ∀ n, ((buf.zipIdx n).map Prod.snd).Pairwise (· < ·) := by
    intro n
    rw [zipIdx_map_snd]
    exact pairwise_lt_range'
  unfold callIndices
  exact (hzip 0).sublist (filter_sublist.map Prod.snd)

/-- What an interval says of its virtual register. -/
theorem vregInterval_ok {calls : List Nat} (hcalls : calls.Pairwise (· < ·))
    {v : Nat} {o : Option VLiveInterval} (h : vregInterval d calls v = .ok o) :
    (o = none ↔ d.lastUse.getD v none = none) ∧ ∀ i, o = some i →
      i.vreg = v ∧ d.firstDef.getD v none = some i.start ∧ d.lastUse.getD v none = some i.stop ∧
        i.start ≤ i.stop ∧ ∀ call ∈ calls, ¬ (i.start < call ∧ call < i.stop) := by
  unfold vregInterval at h
  split at h
  · next hnone =>
    cases h
    exact ⟨iff_of_true rfl hnone, fun i hi => by cases hi⟩
  · next stop hstop =>
    split at h
    · cases h
    · next start hdef =>
      split at h
      · cases h
      · next hle =>
        have hresult : ∀ i, i = (⟨v, start, stop⟩ : VLiveInterval) →
            (∀ call ∈ calls, ¬ (start < call ∧ call < stop)) →
            i.vreg = v ∧ some start = some i.start ∧ some stop = some i.stop ∧
              i.start ≤ i.stop ∧ ∀ call ∈ calls, ¬ (i.start < call ∧ call < i.stop) := by
          rintro i rfl hacross
          exact ⟨rfl, rfl, rfl, le_of_not_gt hle, hacross⟩
        split at h
        · next call hfind =>
          split at h
          · cases h
          · next hbehind =>
            cases h
            refine ⟨by rw [hstop]; simp, fun i hi => ?_⟩
            rw [hdef, hstop]
            refine hresult i (Option.some.inj hi).symm fun c hc hacross => ?_
            -- the first call behind the definition is the smallest one
            obtain ⟨-, as, bs, hsplit, hbefore⟩ := List.find?_eq_some_iff_append.mp hfind
            rw [hsplit] at hc hcalls
            rcases mem_append.mp hc with hc | hc
            · have := hbefore c hc
              simp only [Bool.not_eq_true', decide_eq_false_iff_not] at this
              exact this hacross.1
            · rcases mem_cons.mp hc with rfl | hc
              · exact hbehind hacross.2
              · have := (pairwise_cons.mp (pairwise_append.mp hcalls).2.1).1 c hc
                omega
        · next hfind =>
          cases h
          refine ⟨by rw [hstop]; simp, fun i hi => ?_⟩
          rw [hdef, hstop]
          refine hresult i (Option.some.inj hi).symm fun c hc hacross => ?_
          have := List.find?_eq_none.mp hfind c hc
          exact this (by simpa using hacross.1)

theorem vregIntervals_ok {calls : List Nat} (hcalls : calls.Pairwise (· < ·))
    {vs : List Nat} (hvs : vs.Nodup) {is : List VLiveInterval}
    (h : vregIntervals d calls vs = .ok is) :
    (is.map VLiveInterval.vreg).Nodup ∧
      (∀ v ∈ vs, ∀ stop, d.lastUse.getD v none = some stop → ∃ i ∈ is, i.vreg = v) ∧
      ∀ i ∈ is, i.vreg ∈ vs ∧ d.firstDef.getD i.vreg none = some i.start ∧
        d.lastUse.getD i.vreg none = some i.stop ∧ i.start ≤ i.stop ∧
        ∀ call ∈ calls, ¬ (i.start < call ∧ call < i.stop) := by
  induction vs generalizing is with
  | nil =>
    cases h
    exact ⟨nodup_nil, fun v hv => (not_mem_nil hv).elim,
      fun i hi => (not_mem_nil hi).elim⟩
  | cons v vs ih =>
    obtain ⟨hout, hrest⟩ := nodup_cons.mp hvs
    unfold vregIntervals at h
    split at h
    · cases h
    · next o ho =>
      split at h
      · cases h
      · next is' his =>
        cases h
        obtain ⟨hnodup, hall, htells⟩ := ih hrest his
        obtain ⟨hnone, hsome⟩ := vregInterval_ok hcalls ho
        cases o with
        | none =>
          refine ⟨hnodup, fun u hu stop hstop => ?_, fun i hi => ?_⟩
          · rcases mem_cons.mp hu with rfl | hu
            · rw [hnone.mp rfl] at hstop
              cases hstop
            · exact hall u hu stop hstop
          · obtain ⟨hin, hi⟩ := htells i hi
            exact ⟨mem_cons_of_mem v hin, hi⟩
        | some i =>
          obtain ⟨hv, hi⟩ := hsome i rfl
          refine ⟨?_, fun u hu stop hstop => ?_, fun j hj => ?_⟩
          · show (i.vreg :: is'.map VLiveInterval.vreg).Nodup
            rw [nodup_cons]
            refine ⟨fun hmem => ?_, hnodup⟩
            obtain ⟨j, hj, heq⟩ := mem_map.mp hmem
            exact hout (hv ▸ heq ▸ (htells j hj).1)
          · rcases mem_cons.mp hu with rfl | hu
            · exact ⟨i, mem_cons_self, hv⟩
            · obtain ⟨j, hj, heq⟩ := hall u hu stop hstop
              exact ⟨j, mem_cons_of_mem i hj, heq⟩
          · rcases mem_cons.mp hj with rfl | hj
            · rw [hv]
              exact ⟨mem_cons_self, hi⟩
            · obtain ⟨hin, hj⟩ := htells j hj
              exact ⟨mem_cons_of_mem v hin, hj⟩

/-! ## The Whole Allocation -/

/-- A table gives each virtual register that is used, and no other, a register that is not
    reserved, different ones to those whose ranges overlap, and none lives across a call. -/
structure SoundTable (buf : MirBuffer) (table : List (Option Nat)) : Prop where
  given : ∀ (i : Nat) m v, buf[i]? = some m → v ∈ usesOf m →
    ∃ start stop r, Ranges buf v start stop ∧ pregForVReg table v = some r
  only : ∀ v r, pregForVReg table v = some r → ∃ start stop, Ranges buf v start stop
  registers : ∀ v r, pregForVReg table v = some r → r ∈ vregisters
  apart : ∀ v w start stop start' stop', v ≠ w → Ranges buf v start stop →
    Ranges buf w start' stop' → start < stop' → start' < stop →
    pregForVReg table v ≠ pregForVReg table w
  calls : ∀ v start stop, Ranges buf v start stop → ∀ (i : Nat) m, buf[i]? = some m →
    clobbers m.op = true → ¬ (start < i ∧ i < stop)

theorem collect_tables (buf : MirBuffer) (v : VRegId) :
    (collectVRegDefUse buf).firstDef.getD v none = firstIndex (fun m => v ∈ defsOf m) buf 0 ∧
      (collectVRegDefUse buf).lastUse.getD v none = lastIndex (fun m => v ∈ usesOf m) buf 0 := by
  obtain ⟨hfirst, hlast⟩ := (collect_vregs (d := ⟨[], []⟩) rfl buf 0).2 v
  exact ⟨hfirst.trans (by simp), hlast.trans (by simp)⟩

theorem mem_callIndices {i : Nat} {m : Mir} (hi : buf[i]? = some m)
    (hm : clobbers m.op = true) : i ∈ callIndices buf := by
  unfold callIndices
  rw [mem_map]
  refine ⟨(m, i), mem_filter.mpr ⟨?_, hm⟩, rfl⟩
  rw [mk_mem_zipIdx_iff_getElem?]
  exact hi

theorem linearScanVReg_sound {table : List (Option Nat)}
    (h : linearScanVReg buf = .ok table) : SoundTable buf table := by
  unfold linearScanVReg at h
  simp only at h
  split at h
  · cases h
  next is his =>
  split at h
  · cases h
  next s hs =>
  cases h
  have heven := (collect_vregs (d := ⟨[], []⟩) rfl buf 0).1
  obtain ⟨hvregs, hall, htells⟩ := vregIntervals_ok (callIndices_sorted buf) List.nodup_range his
  have hperm := mergeSort_perm is fun a b => a.start ≤ b.start
  have hsorted : (is.mergeSort fun a b => a.start ≤ b.start).Pairwise fun a b => a.start ≤ b.start := by
    have := @pairwise_mergeSort VLiveInterval (fun a b => a.start ≤ b.start)
      (fun a b c => by simp only [decide_eq_true_eq]; omega)
      (fun a b => by simp only [Bool.or_eq_true, decide_eq_true_eq]; omega) is
    exact this.imp fun h => of_decide_eq_true h
  have hempty : VAllocated (collectVRegDefUse buf).firstDef.length ∅
      ⟨⟨[], freeVRegs⟩, List.replicate (collectVRegDefUse buf).firstDef.length none⟩ 0 := by
    refine ⟨shares_nil _ _ 0 ?_, length_replicate, fun v r => ?_⟩
    · intro r hr
      have hlt : r < kNumAllocatableRegs := by
        by_contra hge
        rw [getD_eq_getElem?_getD, getElem?_eq_none (le_of_not_gt hge)] at hr
        cases hr
      refine ⟨hlt, ?_, ?_⟩
      · rintro rfl
        exact absurd hr (by decide)
      · rintro rfl
        exact absurd hr (by decide)
    · constructor
      · intro hget
        rw [getD_eq_getElem?_getD, getElem?_replicate] at hget
        split at hget <;> cases hget
      · rintro ⟨i, hi, -⟩
        exact hi.elim
  obtain ⟨held, u, hfinal, -, hgiven, hfrom⟩ := hempty.run
    (fun i hi => mem_range.mp (htells i (hperm.mem_iff.mp hi)).1)
    ((hperm.map _).nodup_iff.mpr hvregs) (fun p hp => hp.elim) hsorted
    (fun i _ => Nat.zero_le _) hs
  -- the intervals of the scan are the ranges
  have hrange : ∀ i ∈ is, Ranges buf i.vreg i.start i.stop := by
    intro i hi
    obtain ⟨-, hdef, huse, hle, -⟩ := htells i hi
    obtain ⟨hfirst, hlast⟩ := collect_tables buf i.vreg
    exact ⟨hfirst ▸ hdef, hlast ▸ huse, hle⟩
  have hinterval : ∀ v stop, lastIndex (fun m => v ∈ usesOf m) buf 0 = some stop →
      ∃ i ∈ is, i.vreg = v := by
    intro v stop hstop
    have huse := (collect_tables buf v).2.trans hstop
    refine hall v (mem_range.mpr ?_) stop huse
    have heven' : (collectVRegDefUse buf).firstDef.length = (collectVRegDefUse buf).lastUse.length :=
      heven
    rw [heven']
    by_contra hge
    rw [getD_eq_getElem?_getD, getElem?_eq_none (le_of_not_gt hge)] at huse
    cases huse
  have hmem : ∀ p ∈ held, p.1 ∈ is := by
    intro p hp
    rcases hfrom p hp with hp | hp
    · exact hp.elim
    · exact hperm.mem_iff.mp hp
  have hranges : ∀ v start stop, Ranges buf v start stop →
      ∃ i ∈ is, i.vreg = v ∧ i.start = start ∧ i.stop = stop := by
    intro v start stop hv
    obtain ⟨i, hi, rfl⟩ := hinterval v stop hv.used
    have hi' := hrange i hi
    refine ⟨i, hi, rfl, ?_, ?_⟩
    · exact Option.some.inj (hi'.defined.symm.trans hv.defined)
    · exact Option.some.inj (hi'.used.symm.trans hv.used)
  refine ⟨?_, ?_, ?_, ?_, ?_⟩
  · intro j m v hj hv
    obtain ⟨stop, hstop⟩ := lastIndex_isSome (p := fun m => decide (v ∈ usesOf m)) 0 hj (by simpa using hv)
    obtain ⟨i, hi, rfl⟩ := hinterval v stop hstop
    obtain ⟨r, hr⟩ := hgiven i (hperm.mem_iff.mpr hi)
    exact ⟨i.start, i.stop, r, hrange i hi, (hfinal.table i.vreg r).mpr ⟨i, hr, rfl⟩⟩
  · intro v r hr
    obtain ⟨i, hi, rfl⟩ := (hfinal.table v r).mp hr
    exact ⟨i.start, i.stop, hrange i (hmem _ hi)⟩
  · intro v r hr
    obtain ⟨i, hi, -⟩ := (hfinal.table v r).mp hr
    exact hfinal.shares.given (i, r) hi
  · intro v w start stop start' stop' hne hv hw hlt hlt' heq
    obtain ⟨i, hi, rfl, rfl, rfl⟩ := hranges v start stop hv
    obtain ⟨j, hj, rfl, rfl, rfl⟩ := hranges w start' stop' hw
    obtain ⟨r, hr⟩ := hgiven i (hperm.mem_iff.mpr hi)
    obtain ⟨q, hq⟩ := hgiven j (hperm.mem_iff.mpr hj)
    have hpreg : pregForVReg s.vregToPreg i.vreg = some r := (hfinal.table _ r).mpr ⟨i, hr, rfl⟩
    have hpreg' : pregForVReg s.vregToPreg j.vreg = some q := (hfinal.table _ q).mpr ⟨j, hq, rfl⟩
    have hrq : r = q := by
      rw [hpreg, hpreg'] at heq
      exact Option.some.inj heq
    have hapart := hfinal.shares.apart (i, r) hr (j, q) hq
      (fun h => hne (congrArg (fun p : VLiveInterval × Nat => p.1.vreg) h)) hrq
    simp only at hapart
    omega
  · intro v start stop hv j m hj hm
    obtain ⟨i, hi, rfl, rfl, rfl⟩ := hranges v start stop hv
    exact (htells i hi).2.2.2.2 j (mem_callIndices hj hm)

end Camel.Jit
