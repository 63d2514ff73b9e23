import Camel.Tensor.Permute

/-! # Reshaping

    A target shape may leave one extent to be inferred. The products of the known extents
    and of the input's are formed in 64 bits, so a comparison of the two only tells what
    is left of them there.
-/

namespace Camel.Tensor

open Lib Extents List Option

/-! ## The Target -/

/-- A request a kernel turns down: a wrong argument, or shapes that do not fit. -/
inductive Refusal where
  | argument (text : String)
  | shape (text : String)
  deriving DecidableEq

def numelFrom (total : UInt64) : List Int64 → Except Refusal UInt64
  | [] => .ok total
  | extent :: rest =>
    if extent < 0 then .error (.argument "Tensor shape cannot contain negative extents")
    else numelFrom (total * extent.toUInt64) rest

def numelOf (shape : List Int64) : Except Refusal UInt64 := numelFrom 1 shape

/-- The loop of `resolveReshape`: the position of the extent to infer and the product of the
    others. -/
def resolveLoop : List Int64 → Nat → Option Nat → UInt64 → Except Refusal (Option Nat × UInt64)
  | [], _, inferred, known => .ok (inferred, known)
  | extent :: rest, i, inferred, known =>
    if extent = -1 then
      if inferred.isSome then .error (.argument "reshape: at most one extent may be -1")
      else resolveLoop rest (i + 1) (some i) known
    else if extent < 0 then .error (.argument "reshape: extents must be non-negative")
    else resolveLoop rest (i + 1) inferred (known * extent.toUInt64)

def extentsText (shape : List Int64) : String := shapeText (shape.map Int64.toInt)

def resolveReshape (input target : List Int64) : Except Refusal (List Int64) := do
  let (inferred, known) ← resolveLoop target 0 none 1
  let total ← numelOf input
  match inferred with
  | some i =>
    if known = 0 ∨ total % known ≠ 0 then
      .error (.shape ("reshape: cannot infer -1 for " ++ extentsText input ++ " -> " ++
        extentsText target))
    else .ok (target.set i (total / known).toInt64)
  | none =>
    if known ≠ total then
      .error (.shape ("reshape changes tensor element count: " ++ extentsText input ++ " -> " ++
        extentsText target))
    else .ok target

/-! ## The Products -/

/-- The extents of a target that are given. -/
def given (target : List Int64) : List Int64 := target.filter (· ≠ -1)

/-- Given extents are not negative, and at most one is left open. -/
def Proper (target : List Int64) : Prop := NonNeg (given target) ∧ target.count (-1) ≤ 1

theorem nonNeg_cons {e : Int64} {shape : List Int64} (h : ¬ e < 0) :
    NonNeg (e :: shape) ↔ NonNeg shape :=
  ⟨fun hall x hx => hall x (.tail _ hx), fun hall x hx => by
    rcases mem_cons.1 hx with rfl | hx
    · exact not_lt_zero_iff.1 h
    · exact hall x hx⟩

theorem not_nonNeg_cons {e : Int64} (h : e < 0) (shape : List Int64) :
    ¬ NonNeg (e :: shape) := fun hall => not_lt_zero_iff.2 (hall e mem_cons_self) h

theorem step_mod {e : Int64} (h : ¬ e < 0) (total : UInt64) (shape : List Int64) :
    (total * e.toUInt64).toNat * numel shape % 2 ^ 64 =
      total.toNat * numel (e :: shape) % 2 ^ 64 := by
  rw [UInt64.toNat_mul, toNat_toUInt64 h, numel_cons, Nat.mod_mul_mod, mul_assoc]

theorem numelFrom_ok_iff {shape : List Int64} {total n : UInt64} :
    numelFrom total shape = .ok n ↔
      NonNeg shape ∧ n.toNat = total.toNat * numel shape % 2 ^ 64 := by
  induction shape generalizing total with
  | nil =>
    have hlt : total.toNat * numel [] % 2 ^ 64 = total.toNat := by
      rw [numel_nil, mul_one, Nat.mod_eq_of_lt total.toNat_lt]
    rw [hlt]
    constructor
    · intro h
      cases h
      exact ⟨by simp [NonNeg], rfl⟩
    · rintro ⟨-, h⟩
      rw [UInt64.toNat_inj.1 h]
      rfl
  | cons e shape ih =>
    rw [numelFrom]
    by_cases hneg : e < 0
    · rw [if_pos hneg]
      simp [not_nonNeg_cons hneg]
    · rw [if_neg hneg, ih, step_mod hneg, nonNeg_cons hneg]

theorem given_cons_hole (target : List Int64) : given (-1 :: target) = given target := rfl

theorem given_cons {e : Int64} (h : e ≠ -1) (target : List Int64) :
    given (e :: target) = e :: given target := by
  simp [given, h]

/-- The position of the open extent, if there is one. -/
def openFrom (target : List Int64) (i : Nat) (inferred : Option Nat) : Option Nat :=
  if (-1 : Int64) ∈ target then some (i + target.idxOf (-1)) else inferred

variable {target : List Int64}

theorem resolveLoop_ok_iff {i : Nat} {inferred o : Option Nat}
    {known k : UInt64} :
    resolveLoop target i inferred known = .ok (o, k) ↔
      NonNeg (given target) ∧ target.count (-1) + inferred.toList.length ≤ 1 ∧
        o = openFrom target i inferred ∧
        k.toNat = known.toNat * numel (given target) % 2 ^ 64 := by
  induction target generalizing i inferred known with
  | nil =>
    have hlt : known.toNat * numel (given []) % 2 ^ 64 = known.toNat := by
      show known.toNat * 1 % 2 ^ 64 = _
      rw [mul_one, Nat.mod_eq_of_lt known.toNat_lt]
    rw [hlt]
    constructor
    · intro h
      cases h
      refine ⟨by simp [NonNeg, given], ?_, rfl, rfl⟩
      cases o <;> simp
    · rintro ⟨-, -, rfl, h⟩
      rw [UInt64.toNat_inj.1 h]
      rfl
  | cons e target ih =>
    rw [resolveLoop]
    by_cases hhole : e = -1
    · subst hhole
      rw [if_pos rfl, given_cons_hole]
      cases inferred with
      | some j =>
        simp
      | none =>
        simp only [isSome_none, Bool.false_eq_true, if_false]
        rw [ih]
        have hcount : (-1 :: target).count (-1 : Int64) = target.count (-1) + 1 := by simp
        have hopen : openFrom (-1 :: target) i none = some i := by
          simp [openFrom]
        rw [hcount, hopen]
        constructor
        · rintro ⟨hpos, hone, ho, hk⟩
          simp only [toList_some, length_singleton] at hone
          have hnot : (-1 : Int64) ∉ target := by
            rw [← count_eq_zero]
            omega
          refine ⟨hpos, by simpa using hone, ?_, hk⟩
          rw [ho, openFrom, if_neg hnot]
        · rintro ⟨hpos, hone, ho, hk⟩
          simp only [Option.toList_none, length_nil] at hone
          have hnot : (-1 : Int64) ∉ target := by
            rw [← count_eq_zero]
            omega
          refine ⟨hpos, by simpa using hone, ?_, hk⟩
          rw [ho, openFrom, if_neg hnot]
    · rw [if_neg hhole, given_cons hhole]
      by_cases hneg : e < 0
      · rw [if_pos hneg]
        simp [not_nonNeg_cons hneg]
      · have hcount : (e :: target).count (-1 : Int64) = target.count (-1) := by
          rw [count_cons_of_ne hhole]
        have hopen : openFrom (e :: target) i inferred = openFrom target (i + 1) inferred := by
          have hidx : (e :: target).idxOf (-1 : Int64) = target.idxOf (-1) + 1 :=
            idxOf_cons_ne _ hhole
          have hmem : (-1 : Int64) ∈ e :: target ↔ (-1 : Int64) ∈ target := by
            rw [mem_cons]
            exact or_iff_right (Ne.symm hhole)
          unfold openFrom
          rw [hidx]
          simp only [hmem, add_assoc, add_comm 1]
        rw [if_neg hneg, ih, step_mod hneg, hcount, hopen, nonNeg_cons hneg]

/-- The open extent's value completes the product. -/
theorem numel_set_hole (h : target.count (-1) = 1) (v : Int64) :
    numel (target.set (target.idxOf (-1)) v) = numel (given target) * v.toInt.toNat := by
  induction target with
  | nil => cases h
  | cons e target ih =>
    by_cases hhole : e = -1
    · subst hhole
      have hnone : target.count (-1 : Int64) = 0 := by
        have : (-1 :: target).count (-1 : Int64) = target.count (-1) + 1 := by simp
        omega
      have hgiven : given target = target := by
        unfold given
        rw [filter_eq_self]
        intro x hx
        rw [count_eq_zero] at hnone
        simp only [ne_eq, decide_eq_true_eq]
        rintro rfl
        exact hnone hx
      rw [given_cons_hole, idxOf_cons_self, set_cons_zero, numel_cons, hgiven,
        mul_comm]
    · rw [count_cons_of_ne hhole] at h
      rw [given_cons hhole, idxOf_cons_ne _ hhole, set_cons_succ, numel_cons, ih h,
        numel_cons, mul_assoc]

/-! ## Exact Products -/

/-- A shape that is returned has no negative extent, is the target up to the one extent left
    open, and has as many elements as the input. -/
def Faithful (input target : List Int64) : Prop :=
  ∀ result, resolveReshape input target = .ok result →
    NonNeg result ∧ target.count (-1) ≤ 1 ∧ result.length = target.length ∧
      (∀ i, target.getD i 0 ≠ -1 → result.getD i 0 = target.getD i 0) ∧
      numel result = numel input

/-- What 64 bits leave of the products decides as the products do: where the comparison in 64
    bits accepts, the parts beyond 64 bits agree, and the inferred extent is an `int64`. -/
def CarriesAgree (input target : List Int64) : Prop :=
  let known := numel (given target)
  let total := numel input
  if (-1 : Int64) ∈ target then
    known % 2 ^ 64 ≠ 0 → total % 2 ^ 64 % (known % 2 ^ 64) = 0 →
      total % 2 ^ 64 / (known % 2 ^ 64) < 2 ^ 63 ∧
        known / 2 ^ 64 * (total % 2 ^ 64 / (known % 2 ^ 64)) = total / 2 ^ 64
  else known % 2 ^ 64 = total % 2 ^ 64 → known / 2 ^ 64 = total / 2 ^ 64

theorem eq_of_carries {a b : Nat} (hmod : a % 2 ^ 64 = b % 2 ^ 64) :
    a = b ↔ a / 2 ^ 64 = b / 2 ^ 64 := by
  omega

variable {q : Nat}

/-- The inferred extent completes the product exactly where the carries agree. -/
theorem mul_eq_of_carries {known total : Nat} (h : known % 2 ^ 64 * q = total % 2 ^ 64) :
    known * q = total ↔ known / 2 ^ 64 * q = total / 2 ^ 64 := by
  have hknown := Nat.div_add_mod known (2 ^ 64)
  have htotal := Nat.div_add_mod total (2 ^ 64)
  generalize known / 2 ^ 64 = m at *
  generalize total / 2 ^ 64 = n at *
  have hmul : known * q = 2 ^ 64 * (m * q) + total % 2 ^ 64 := by
    rw [← hknown, add_mul, h, mul_assoc]
  constructor
  · intro hsame
    omega
  · intro hsame
    omega

/-- What a request that returns has passed. -/
theorem resolveReshape_ok_iff {input result : List Int64} :
    resolveReshape input target = .ok result ↔ Proper target ∧ NonNeg input ∧
      if (-1 : Int64) ∈ target then
        numel (given target) % 2 ^ 64 ≠ 0 ∧
          numel input % 2 ^ 64 % (numel (given target) % 2 ^ 64) = 0 ∧
          result = target.set (target.idxOf (-1))
            (UInt64.ofNat (numel input % 2 ^ 64 / (numel (given target) % 2 ^ 64))).toInt64
      else numel (given target) % 2 ^ 64 = numel input % 2 ^ 64 ∧ result = target := by
  have hloop : ∀ o k, resolveLoop target 0 none 1 = .ok (o, k) ↔ Proper target ∧
      o = openFrom target 0 none ∧ k.toNat = numel (given target) % 2 ^ 64 := by
    intro o k
    rw [resolveLoop_ok_iff, Proper]
    simp [and_assoc]
  have htotal : ∀ n, numelOf input = .ok n ↔ NonNeg input ∧ n.toNat = numel input % 2 ^ 64 := by
    intro n
    rw [numelOf, numelFrom_ok_iff]
    simp
  unfold resolveReshape
  cases hl : resolveLoop target 0 none 1 with
  | error refusal =>
    simp only [bind, Except.bind, reduceCtorEq, false_iff]
    rintro ⟨hproper, -, -⟩
    have hok := (hloop _ (UInt64.ofNat (numel (given target) % 2 ^ 64))).2 ⟨hproper, rfl, by simp⟩
    rw [hl] at hok
    cases hok
  | ok found =>
    obtain ⟨o, k⟩ := found
    obtain ⟨hproper, ho, hk⟩ := (hloop o k).1 hl
    cases hn : numelOf input with
    | error refusal =>
      simp only [bind, Except.bind, reduceCtorEq, false_iff]
      rintro ⟨-, hpos, -⟩
      have hok := (htotal (UInt64.ofNat (numel input % 2 ^ 64))).2 ⟨hpos, by simp⟩
      rw [hn] at hok
      cases hok
    | ok n =>
      obtain ⟨hpos, hn'⟩ := (htotal n).1 hn
      simp only [bind, Except.bind]
      rw [ho, openFrom]
      by_cases hhole : (-1 : Int64) ∈ target
      · have hzero : k = 0 ↔ numel (given target) % 2 ^ 64 = 0 := by
          rw [← hk]
          exact ⟨fun h => by rw [h]; rfl, fun h => UInt64.toNat_inj.1 h⟩
        have hrest : n % k = 0 ↔ numel input % 2 ^ 64 % (numel (given target) % 2 ^ 64) = 0 := by
          rw [← hk, ← hn', ← UInt64.toNat_mod]
          exact ⟨fun h => by rw [h]; rfl, fun h => UInt64.toNat_inj.1 h⟩
        have hdiv : n / k =
            UInt64.ofNat (numel input % 2 ^ 64 / (numel (given target) % 2 ^ 64)) := by
          rw [← hk, ← hn', ← UInt64.toNat_div, UInt64.ofNat_toNat]
        simp only [if_pos hhole, zero_add]
        by_cases hbad : k = 0 ∨ n % k ≠ 0
        · rw [if_pos hbad, hzero, Ne, hrest] at *
          simp only [reduceCtorEq, false_iff]
          rintro ⟨-, -, hne, hdvd, -⟩
          rcases hbad with h | h
          · exact hne h
          · exact h hdvd
        · rw [if_neg hbad, hdiv]
          rw [hzero, Ne, hrest] at hbad
          push Not at hbad
          constructor
          · intro h
            injection h with h
            exact ⟨hproper, hpos, hbad.1, hbad.2, h.symm⟩
          · rintro ⟨-, -, -, -, rfl⟩
            rfl
      · have hsame : k = n ↔ numel (given target) % 2 ^ 64 = numel input % 2 ^ 64 := by
          rw [← hk, ← hn', UInt64.toNat_inj]
        simp only [if_neg hhole]
        by_cases hne : k ≠ n
        · rw [if_pos hne]
          simp only [reduceCtorEq, false_iff]
          rintro ⟨-, -, h, -⟩
          exact hne (hsame.2 h)
        · rw [if_neg hne]
          constructor
          · intro h
            injection h with h
            exact ⟨hproper, hpos, hsame.1 (not_not.1 hne), h.symm⟩
          · rintro ⟨-, -, -, rfl⟩
            rfl

theorem getD_set_ne {shape : List Int64} {j i : Nat} (v : Int64) (h : j ≠ i) :
    (shape.set j v).getD i 0 = shape.getD i 0 := by
  rw [getD_eq_getElem?_getD, getElem?_set_ne h, getD_eq_getElem?_getD]

/-- A quotient is an extent exactly below 2^63. -/
theorem nonneg_toInt64_iff (h : q < 2 ^ 64) :
    0 ≤ (UInt64.ofNat q).toInt64.toInt ↔ q < 2 ^ 63 := by
  have hsize : Int64.size = 18446744073709551616 := rfl
  rw [UInt64.toInt64_ofNat', Int64.toInt_ofNat', Int.bmod_def, hsize]
  split <;> omega

theorem toNat_toInt64 (h : q < 2 ^ 63) : (UInt64.ofNat q).toInt64.toInt.toNat = q := by
  rw [UInt64.toInt64_ofNat', Int64.toInt_ofNat_of_lt h, Int.toNat_natCast]

/-- A completed target holds given extents and the value. -/
theorem mem_set_hole (h : target.count (-1) ≤ 1) {v x : Int64}
    (hx : x ∈ target.set (target.idxOf (-1)) v) : x = v ∨ x ∈ given target := by
  induction target with
  | nil => cases hx
  | cons e target ih =>
    by_cases hhole : e = -1
    · subst hhole
      rw [idxOf_cons_self, set_cons_zero, mem_cons] at hx
      apply hx.imp_right
      intro hmem
      have hcount : (-1 :: target).count (-1 : Int64) = target.count (-1) + 1 := by simp
      have hnot : (-1 : Int64) ∉ target := by
        rw [← count_eq_zero]
        omega
      rw [given_cons_hole, given, mem_filter]
      refine ⟨hmem, ?_⟩
      simp only [ne_eq, decide_eq_true_eq]
      rintro rfl
      exact hnot hmem
    · rw [idxOf_cons_ne _ hhole, set_cons_succ, mem_cons] at hx
      rw [count_cons_of_ne hhole] at h
      rw [given_cons hhole, mem_cons]
      rcases hx with hx | hx
      · exact .inr (.inl hx)
      · rcases ih h hx with hv | hmem
        · exact .inl hv
        · exact .inr (.inr hmem)

/-- The target completed by `q` is as large as the input exactly where `q` is an extent and
    the carries agree. -/
theorem completed_iff {input : List Int64} (hproper : Proper target)
    (hhole : (-1 : Int64) ∈ target) (hq : q < 2 ^ 64)
    (h : numel (given target) % 2 ^ 64 * q = numel input % 2 ^ 64) :
    (NonNeg (target.set (target.idxOf (-1)) (UInt64.ofNat q).toInt64) ∧
      numel (target.set (target.idxOf (-1)) (UInt64.ofNat q).toInt64) = numel input) ↔
      q < 2 ^ 63 ∧ numel (given target) / 2 ^ 64 * q = numel input / 2 ^ 64 := by
  have hone : target.count (-1) = 1 := by
    have hpos := List.count_pos_iff.2 hhole
    have hle := hproper.2
    omega
  have hlt : target.idxOf (-1) < target.length := List.idxOf_lt_length_iff.2 hhole
  constructor
  · rintro ⟨hnonneg, hnumel⟩
    have hext := hnonneg (UInt64.ofNat q).toInt64 (mem_set hlt _)
    have hsmall := (nonneg_toInt64_iff hq).1 hext
    refine ⟨hsmall, (mul_eq_of_carries h).1 ?_⟩
    rw [← hnumel, numel_set_hole hone, toNat_toInt64 hsmall]
  · rintro ⟨hsmall, hcarry⟩
    constructor
    · intro e he
      rcases mem_set_hole hproper.2 he with rfl | hmem
      · exact (nonneg_toInt64_iff hq).2 hsmall
      · exact hproper.1 e hmem
    · rw [numel_set_hole hone, toNat_toInt64 hsmall]
      exact (mul_eq_of_carries h).2 hcarry

/-- Reshaping returns only shapes as large as the input exactly where the products agree
    beyond 64 bits too. -/
theorem resolveReshape_faithful_iff (input target : List Int64) :
    Faithful input target ↔ (Proper target → NonNeg input → CarriesAgree input target) := by
  unfold Faithful
  simp only [resolveReshape_ok_iff]
  by_cases hhole : (-1 : Int64) ∈ target
  · simp only [CarriesAgree, if_pos hhole]
    constructor
    · intro h hproper hpos hne hdvd
      have hmul := Nat.mul_div_cancel' (Nat.dvd_of_mod_eq_zero hdvd)
      have hq : numel input % 2 ^ 64 / (numel (given target) % 2 ^ 64) < 2 ^ 64 :=
        lt_of_le_of_lt (Nat.div_le_self _ _) (Nat.mod_lt _ (by norm_num))
      obtain ⟨hnonneg, -, -, -, hnumel⟩ := h _ ⟨hproper, hpos, hne, hdvd, rfl⟩
      exact (completed_iff hproper hhole hq hmul).1 ⟨hnonneg, hnumel⟩
    · rintro h result ⟨hproper, hpos, hne, hdvd, rfl⟩
      have hmul := Nat.mul_div_cancel' (Nat.dvd_of_mod_eq_zero hdvd)
      have hq : numel input % 2 ^ 64 / (numel (given target) % 2 ^ 64) < 2 ^ 64 :=
        lt_of_le_of_lt (Nat.div_le_self _ _) (Nat.mod_lt _ (by norm_num))
      obtain ⟨hnonneg, hnumel⟩ := (completed_iff hproper hhole hq hmul).2 (h hproper hpos hne hdvd)
      refine ⟨hnonneg, hproper.2, length_set, fun i hi => ?_, hnumel⟩
      apply getD_set_ne
      rintro rfl
      apply hi
      rw [getD_eq_getElem?_getD,
        getElem?_eq_getElem (List.idxOf_lt_length_iff.2 hhole), getD_some]
      exact getElem_idxOf _
  · have hgiven : given target = target := by
      unfold given
      rw [filter_eq_self]
      intro x hx
      simp only [ne_eq, decide_eq_true_eq]
      rintro rfl
      exact hhole hx
    simp only [CarriesAgree, if_neg hhole, hgiven]
    constructor
    · intro h hproper hpos hmod
      obtain ⟨-, -, -, -, hnumel⟩ := h target ⟨hproper, hpos, hmod, rfl⟩
      rw [hnumel]
    · rintro h result ⟨hproper, hpos, hmod, rfl⟩
      refine ⟨?_, hproper.2, rfl, fun _ _ => rfl, ?_⟩
      · have hnonneg := hproper.1
        rwa [hgiven] at hnonneg
      · exact (eq_of_carries hmod).2 (h hproper hpos hmod)

/-- A shape of 2^64 elements is taken for an empty one. -/
theorem resolveReshape_wraps :
    resolveReshape [0] [4294967296, 4294967296] = .ok [4294967296, 4294967296] ∧
      numel [4294967296, 4294967296] = 2 ^ 64 ∧ numel [0] = 0 ∧
      ¬ Faithful [0] [4294967296, 4294967296] := by
  have hok : resolveReshape [0] [4294967296, 4294967296] = .ok [4294967296, 4294967296] := rfl
  refine ⟨hok, rfl, rfl, ?_⟩
  intro h
  have hnumel := (h _ hok).2.2.2.2
  revert hnumel
  decide

end Camel.Tensor
