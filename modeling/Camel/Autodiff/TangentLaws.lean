import Camel.Autodiff.Tangent
import Camel.Lib.Upholds

/-! # Tangents Lose Rows

    The recursions take an array to be as long as its first extent and to have one
    dimension, so they keep a value whose arrays all have one; the operators on whole arrays
    keep the extents of the outermost one.
-/

namespace Camel.Autodiff

open Lib Extents List

variable {F : FloatKind → Type}

/-! ## Loops -/

theorem mapSlots_ok {α β : Type} {f : α → Except Fault β} {R : α → β → Prop} {xs : List α}
    (h : ∀ x ∈ xs, ∃ y, f x = .ok y ∧ R x y) :
    ∃ ys, mapSlots f xs.length xs = .ok ys ∧ Forall₂ R xs ys := by
  induction xs with
  | nil => exact ⟨[], rfl, .nil⟩
  | cons x xs ih =>
    rw [forall_mem_cons] at h
    obtain ⟨⟨y, hy, hR⟩, hxs⟩ := h
    obtain ⟨ys, hys, hall⟩ := ih hxs
    refine ⟨y :: ys, ?_, .cons hR hall⟩
    rw [length_cons, mapSlots, hy]
    show (mapSlots f xs.length xs >>= _) = _
    rw [hys]
    rfl

theorem mapSlots_spec {α β : Type} {f : α → Except Fault β} {n : Nat} {xs : List α} {ys : List β}
    (h : mapSlots f n xs = .ok ys) : ys.length = n ∧ n ≤ xs.length ∧
      Forall₂ (fun x y => f x = .ok y) (xs.take n) ys := by
  induction n generalizing xs ys with
  | zero =>
    injection h with h
    rw [← h]
    exact ⟨rfl, Nat.zero_le _, .nil⟩
  | succ n ih =>
    cases xs with
    | nil => cases h
    | cons x xs =>
      rw [mapSlots] at h
      obtain ⟨y, hy, h⟩ := ok_of_bind h
      obtain ⟨zs, hzs, h⟩ := ok_of_bind h
      injection h with h
      obtain ⟨hlen, hle, hall⟩ := ih hzs
      rw [← h, length_cons, length_cons, take_succ_cons]
      exact ⟨by omega, by omega, .cons hy hall⟩

/-- The sum of two values: their shape, and the sums of their leaves. -/
def IsSum [∀ kind, Add (F kind)] (a b s : Value F) : Prop :=
  s.erase = a.erase ∧ s.leaves = List.zipWith addNumbers a.leaves b.leaves

theorem leavesAll_zipWith [∀ kind, Add (F kind)] {a b s : Value F} {as bs ss : List (Value F)}
    (hlen : a.leaves.length = b.leaves.length) (hs : IsSum a b s)
    (hss : leavesAll ss = zipWith addNumbers (leavesAll as) (leavesAll bs)) :
    leavesAll (s :: ss) = zipWith addNumbers (leavesAll (a :: as)) (leavesAll (b :: bs)) := by
  rw [leavesAll_cons, leavesAll_cons, leavesAll_cons, zipWith_append hlen, hss, hs.2]

variable {t : Ty} (P : Ty) {p : Ty} {kind : AggregateKind} {shape : List Int64}
  {as bs : List (Value F)} {members : List Ty}

theorem zipSlots_ok [∀ kind, Add (F kind)] {f : Value F → Value F → Except Fault (Value F)}
    (h : Forall₂ (fun a b => SameShape a b ∧ ∃ s, f a b = .ok s ∧ IsSum a b s) as bs) :
    ∃ ss, zipSlots f as.length as bs = .ok ss ∧ eraseAll ss = eraseAll as ∧
      leavesAll ss = zipWith addNumbers (leavesAll as) (leavesAll bs) := by
  induction h with
  | nil => exact ⟨[], rfl, rfl, rfl⟩
  | @cons a b as bs hab _ ih =>
    obtain ⟨hshape, s, hs, hsum⟩ := hab
    obtain ⟨ss, hss, herase, hleaves⟩ := ih
    refine ⟨s :: ss, ?_, ?_, leavesAll_zipWith hshape.length_leaves hsum hleaves⟩
    · rw [length_cons, zipSlots, hs]
      show (zipSlots f as.length as bs >>= _) = _
      rw [hss]
      rfl
    · rw [eraseAll_cons, eraseAll_cons, hsum.1, herase]

/-- Two lists of tangents of the same values. -/
theorem forall₂_of_eraseAll {R : Value F → Value F → Prop} {f : Value F → Value F}
    {xs as bs : List (Value F)} (ha : eraseAll as = eraseAll (xs.map f))
    (hb : eraseAll bs = eraseAll (xs.map f))
    (h : ∀ x ∈ xs, ∀ a b, SameShape a (f x) → SameShape b (f x) → R a b) :
    Forall₂ R as bs := by
  induction xs generalizing as bs with
  | nil =>
    have has := eq_nil_of_length_eq_zero (length_of_eraseAll ha)
    have hbs := eq_nil_of_length_eq_zero (length_of_eraseAll hb)
    rw [has, hbs]
    exact .nil
  | cons x xs ih =>
    rw [forall_mem_cons] at h
    cases as with
    | nil => cases ha
    | cons a as =>
      cases bs with
      | nil => cases hb
      | cons b bs =>
        rw [map_cons, eraseAll_cons, eraseAll_cons] at ha hb
        injection ha with ha has
        injection hb with hb hbs
        exact .cons (h.1 a b ha hb) (ih has hbs h.2)

/-! ## Extents -/

theorem ofNat_toUInt64 (d : Int64) : Int64.ofNat d.toUInt64.toNat = d := by
  have h : (Int64.ofNat d.toUInt64.toNat).toUInt64 = d.toUInt64 := by
    rw [Int64.toUInt64_ofNat', UInt64.ofNat_toNat]
  have hback := congrArg UInt64.toInt64 h
  rw [Int64.toInt64_toUInt64, Int64.toInt64_toUInt64] at hback
  exact hback

/-- An array of one dimension is as long as its extent. -/
theorem arraySize_flat {d : Int64} {n : UInt64} {count : Nat} (h : checkedNumel [d] = .ok n)
    (hn : n.toNat = count) :
    arraySize [d] count = count ∧ Int64.ofNat count = d ∧
      createArray [Int64.ofNat count] = .ok () := by
  have hd : n = d.toUInt64 := by
    rw [checkedNumel_single] at h
    split at h
    · cases h
    · injection h with h
      exact h.symm
  have hcount : Int64.ofNat count = d := by
    rw [← hn, hd]
    exact ofNat_toUInt64 d
  refine ⟨?_, hcount, ?_⟩
  · show d.toUInt64.toNat = count
    rw [← hn, hd]
  · unfold createArray
    rw [hcount, h]

/-! ## Types -/

theorem tangentMembers_cons (p : Ty) (ps : List Ty) :
    tangentMembers (p :: ps) = (machineryTangentTypeOf p).toList ++ tangentMembers ps := rfl

theorem tangentMembers_kept (h : machineryTangentTypeOf p = some t) (ps : List Ty) :
    tangentMembers (p :: ps) = t :: tangentMembers ps := by
  rw [tangentMembers_cons, h]
  rfl

theorem tangentMembers_dropped (h : machineryTangentTypeOf p = none) (ps : List Ty) :
    tangentMembers (p :: ps) = tangentMembers ps := by
  rw [tangentMembers_cons, h]
  rfl

theorem tangent_aggregate {T : Ty}
    (h : machineryTangentTypeOf (.aggregate kind members) = some T) :
    T = .aggregate kind (tangentMembers members) := by
  rw [machineryTangentTypeOf] at h
  cases hmembers : tangentMembers members with
  | nil =>
    rw [hmembers] at h
    cases h
  | cons t ts =>
    rw [hmembers] at h
    injection h with h
    exact h.symm

theorem machineryTangentTypeOf_array (elem : Ty) :
    machineryTangentTypeOf (.array elem) = (machineryTangentTypeOf elem).map .array := rfl

theorem tangent_array {elem T : Ty} (h : machineryTangentTypeOf (.array elem) = some T) :
    ∃ t, machineryTangentTypeOf elem = some t ∧ T = .array t := by
  rw [machineryTangentTypeOf_array, Option.map_eq_some_iff] at h
  obtain ⟨t, ht, h⟩ := h
  exact ⟨t, ht, h.symm⟩

/-- A tangent is made of numbers. -/
theorem tangent_ne_void {p t : Ty} (h : machineryTangentTypeOf p = some t) : t ≠ .void := by
  intro hvoid
  subst hvoid
  cases p with
  | float kind => cases h
  | discrete => cases h
  | void => cases h
  | aggregate kind members => cases tangent_aggregate h
  | array elem =>
    obtain ⟨t, -, ht⟩ := tangent_array h
    cases ht

theorem Structural.member {S : Spaces F} {kind : AggregateKind} {members : List Ty}
    (h : Structural S (.aggregate kind members)) {p : Ty} (hp : p ∈ members)
    (hkept : (machineryTangentTypeOf p).isSome) : Structural S p :=
  fun q hq => h q (.member hp hkept hq)

theorem Structural.elem {S : Spaces F} {elem : Ty} (h : Structural S (.array elem)) :
    Structural S elem := fun q hq => h q (.elem hq)

section Members

variable [∀ kind, Zero (F kind)] {S : Spaces F}

theorem zeroMembers_nil (values : List (Value F)) : zeroMembers S [] values = .ok [] := by
  rfl

theorem zeroMembers_cons (p : Ty) (ps : List Ty) (values : List (Value F)) :
    zeroMembers S (p :: ps) values =
      (match machineryTangentTypeOf p, values with
      | none, values => zeroMembers S ps values.tail
      | some _, [] => .error .index
      | some t, v :: vs => do
        let zero ← zeroTangent S p t v
        let zeros ← zeroMembers S ps vs
        .ok (zero :: zeros)) := rfl

theorem zeroMembers_dropped (h : machineryTangentTypeOf p = none) (ps : List Ty)
    (values : List (Value F)) :
    zeroMembers S (p :: ps) values = zeroMembers S ps values.tail := by
  rw [zeroMembers_cons, h]

theorem zeroMembers_kept {p t : Ty} (h : machineryTangentTypeOf p = some t) (ps : List Ty)
    (v : Value F) (vs : List (Value F)) :
    zeroMembers S (p :: ps) (v :: vs) = (do
      let zero ← zeroTangent S p t v
      let zeros ← zeroMembers S ps vs
      .ok (zero :: zeros)) := by
  rw [zeroMembers_cons, h]

theorem zeroMembers_short {p t : Ty} (h : machineryTangentTypeOf p = some t) (ps : List Ty) :
    zeroMembers S (p :: ps) [] = .error .index := by
  rw [zeroMembers_cons, h]

theorem length_zeroMembers {values zeros : List (Value F)}
    (h : zeroMembers S members values = .ok zeros) :
    zeros.length = (tangentMembers members).length := by
  induction members generalizing values zeros with
  | nil =>
    rw [zeroMembers_nil] at h
    injection h with h
    rw [← h]
    rfl
  | cons p ps ih =>
    cases ht : machineryTangentTypeOf p with
    | none =>
      rw [zeroMembers_dropped ht] at h
      rw [tangentMembers_dropped ht]
      exact ih h
    | some t =>
      cases values with
      | nil =>
        rw [zeroMembers_short ht] at h
        cases h
      | cons v vs =>
        rw [zeroMembers_kept ht] at h
        obtain ⟨zero, -, h⟩ := ok_of_bind h
        obtain ⟨rest, hrest, h⟩ := ok_of_bind h
        injection h with h
        rw [tangentMembers_kept ht, ← h, length_cons, length_cons, ih hrest]

end Members

theorem storeMembers_eq {size : Nat} {slots : List (Value F)} (h : slots.length = size) :
    storeMembers size slots = .ok slots := by
  unfold storeMembers
  rw [if_neg (by omega), h, Nat.sub_self, replicate_zero, append_nil]

/-! ## Zero Tangents -/

theorem HasType.float {kind : FloatKind} {v : Value F} (h : HasType (.float kind) v) :
    ∃ x : Number F, v = .float x ∧ x.1 = kind := by
  cases v <;> first | exact ⟨_, rfl, h⟩ | cases h

theorem HasType.aggregate {kind : AggregateKind} {members : List Ty} {v : Value F}
    (h : HasType (.aggregate kind members) v) :
    ∃ values, v = .aggregate kind values ∧ HaveTypes members values := by
  cases v <;> first | exact ⟨_, by rw [h.1], h.2⟩ | cases h

theorem HasType.array {elem : Ty} {v : Value F} (h : HasType (.array elem) v) :
    ∃ shape elems, v = .array shape elems ∧
      (∃ n, checkedNumel shape = .ok n ∧ n.toNat = elems.length) ∧ ∀ x ∈ elems, HasType elem x := by
  cases v <;> first | exact ⟨_, _, rfl, h⟩ | cases h

theorem HaveTypes.cons {ps : List Ty} {values : List (Value F)}
    (h : HaveTypes (p :: ps) values) : ∃ v vs, values = v :: vs ∧ HasType p v ∧ HaveTypes ps vs := by
  cases values <;> first | exact ⟨_, _, rfl, h⟩ | cases h

section Zero

variable [∀ kind, Zero (F kind)] {S : Spaces F}

theorem zeroTangent_float {kind : FloatKind} (h : S.owned (.float kind) = false) (v : Value F) :
    zeroTangent S (.float kind) (.float kind) v = .ok (.float ⟨kind, 0⟩) := by
  show (if S.owned (.float kind) then S.zero _ _ v else _) = _
  rw [h]
  rfl

theorem zeroTangent_aggregate
    (h : S.owned (.aggregate kind members) = false) (ts : List Ty) (values : List (Value F)) :
    zeroTangent S (.aggregate kind members) (.aggregate kind ts) (.aggregate kind values) = (do
      let zeros ← zeroMembers S members values
      let slots ← storeMembers ts.length zeros
      .ok (.aggregate kind slots)) := by
  refine (if_neg (by simp [h])).trans ?_
  exact if_pos (And.intro rfl rfl)

theorem zeroTangent_array {elem t : Ty} (h : S.owned (.array elem) = false) (ht : t ≠ .void)
    (shape : List Int64) (elems : List (Value F)) :
    zeroTangent S (.array elem) (.array t) (.array shape elems) = (do
      createArray [Int64.ofNat (arraySize shape elems.length)]
      let zeros ← mapSlots (zeroTangent S elem t) (arraySize shape elems.length) elems
      .ok (.array [Int64.ofNat (arraySize shape elems.length)] zeros)) := by
  conv_lhs => unfold zeroTangent
  rw [h]
  simp

/-- A tangent of nothing but zeros, with the shape of the value. -/
def IsZero (v z : Value F) : Prop := SameShape z v ∧ ∀ x ∈ z.leaves, x.2 = 0

/-- The zeros of the members of a value. -/
theorem zeroMembers_ok {values : List (Value F)}
    (htyped : HaveTypes members values) (hflat : FlatMembers members values)
    (ih : ∀ p ∈ members, ∀ t, machineryTangentTypeOf p = some t → ∀ v, HasType p v → Flat p v →
      ∃ z, zeroTangent S p t v = .ok z ∧ IsZero (carried p v) z) :
    ∃ zeros, zeroMembers S members values = .ok zeros ∧
      eraseAll zeros = eraseAll (carriedMembers members values) ∧
      ∀ x ∈ leavesAll zeros, x.2 = 0 := by
  induction members generalizing values with
  | nil =>
    refine ⟨[], zeroMembers_nil values, ?_, by simp [leavesAll]⟩
    cases values with
    | nil => rfl
    | cons v vs => rfl
  | cons p ps ihs =>
    rw [forall_mem_cons] at ih
    obtain ⟨v, vs, rfl, hv, hvs⟩ := htyped.cons
    rw [FlatMembers] at hflat
    obtain ⟨zeros, hzeros, hshape, hleaves⟩ := ihs hvs hflat.2 ih.2
    cases ht : machineryTangentTypeOf p with
    | none =>
      refine ⟨zeros, ?_, ?_, hleaves⟩
      · rw [zeroMembers_dropped ht]
        exact hzeros
      · rw [hshape, carriedMembers, ht]
        rfl
    | some t =>
      have hkept : (machineryTangentTypeOf p).isSome := by simp [ht]
      obtain ⟨z, hz, hzshape, hzleaves⟩ := ih.1 t ht v hv (hflat.1 hkept)
      refine ⟨z :: zeros, ?_, ?_, ?_⟩
      · rw [zeroMembers_kept ht, hz]
        show (zeroMembers S ps vs >>= _) = _
        rw [hzeros]
        rfl
      · rw [carriedMembers, if_pos hkept, eraseAll_cons, eraseAll_cons, hshape, hzshape]
      · rw [leavesAll_cons, forall_mem_append]
        exact ⟨hzleaves, hleaves⟩

/-- Elements whose zeros have their shapes. -/
theorem eraseAll_of_forall₂ {f : Value F → Value F} {xs zs : List (Value F)}
    (h : Forall₂ (fun x z => IsZero (f x) z) xs zs) :
    eraseAll zs = eraseAll (xs.map f) ∧ ∀ x ∈ leavesAll zs, x.2 = 0 := by
  induction h with
  | nil => exact ⟨rfl, by simp [leavesAll]⟩
  | cons hx _ ih =>
    constructor
    · rw [map_cons, eraseAll_cons, eraseAll_cons, ih.1, hx.1]
    · rw [leavesAll_cons, forall_mem_append]
      exact ⟨hx.2, ih.2⟩

/-- The zero tangent of a value whose arrays have one dimension. -/
theorem zeroTangent_ok (hstruct : Structural S P) : ∀ T, machineryTangentTypeOf P = some T →
    ∀ v, HasType P v → Flat P v → ∃ z, zeroTangent S P T v = .ok z ∧ IsZero (carried P v) z := by
  induction P using Ty.induct with
  | float kind =>
    intro T hT v htyped _
    injection hT with hT
    subst hT
    refine ⟨_, zeroTangent_float (hstruct _ .self).1 v, ?_⟩
    obtain ⟨x, rfl, hkind⟩ := htyped.float
    constructor
    · show Value.float _ = Value.float _
      rw [hkind]
    · simp [Value.leaves]
  | discrete =>
    intro T hT
    cases hT
  | void =>
    intro T hT
    cases hT
  | aggregate kind members ih =>
    intro T hT v htyped hflat
    have hT := tangent_aggregate hT
    subst hT
    obtain ⟨values, rfl, hmembers⟩ := htyped.aggregate
    rw [Flat] at hflat
    obtain ⟨zeros, hzeros, hshape, hleaves⟩ := zeroMembers_ok hmembers hflat fun p hp t ht v hv hf =>
      ih p hp (hstruct.member hp (by simp [ht])) t ht v hv hf
    refine ⟨.aggregate kind zeros, ?_, ?_, hleaves⟩
    · rw [zeroTangent_aggregate (hstruct _ .self).1, hzeros]
      show (storeMembers _ zeros >>= _) = _
      rw [storeMembers_eq (length_zeroMembers hzeros)]
      rfl
    · unfold SameShape
      rw [carried, erase_aggregate, erase_aggregate, hshape]
  | array elem ih =>
    intro T hT v htyped hflat
    obtain ⟨t, ht, rfl⟩ := tangent_array hT
    obtain ⟨shape, elems, rfl, ⟨n, hn, hcount⟩, helem⟩ := htyped.array
    rw [Flat] at hflat
    obtain ⟨hrank, hflat⟩ := hflat
    obtain ⟨d, rfl⟩ := length_eq_one_iff.1 hrank
    obtain ⟨hsize, hd, hcreate⟩ := arraySize_flat hn hcount
    obtain ⟨zeros, hzeros, hall⟩ := mapSlots_ok fun x hx =>
      ih hstruct.elem t ht x (helem x hx) (hflat x hx)
    obtain ⟨hshape, hleaves⟩ := eraseAll_of_forall₂ hall
    refine ⟨.array [d] zeros, ?_, ?_, hleaves⟩
    · rw [zeroTangent_array (hstruct _ .self).1 (tangent_ne_void ht), hsize, hcreate]
      show (mapSlots _ _ elems >>= _) = _
      rw [hzeros, hd]
      rfl
    · unfold SameShape
      rw [carried, erase_array, erase_array, hshape]

/-- Members whose zeros have the shape of the part that carries a gradient. -/
theorem flatMembers_of_zeroMembers {values zeros : List (Value F)}
    (htyped : HaveTypes members values) (h : zeroMembers S members values = .ok zeros)
    (hshape : eraseAll zeros = eraseAll (carriedMembers members values))
    (ih : ∀ p ∈ members, ∀ t, machineryTangentTypeOf p = some t → ∀ v, HasType p v →
      ∀ z, zeroTangent S p t v = .ok z → SameShape z (carried p v) → Flat p v) :
    FlatMembers members values := by
  induction members generalizing values zeros with
  | nil =>
    cases values with
    | nil => trivial
    | cons v vs => exact absurd htyped (by simp [HaveTypes])
  | cons p ps ihs =>
    rw [forall_mem_cons] at ih
    obtain ⟨v, vs, rfl, hv, hvs⟩ := htyped.cons
    rw [FlatMembers]
    cases ht : machineryTangentTypeOf p with
    | none =>
      rw [zeroMembers_dropped ht] at h
      rw [carriedMembers, ht] at hshape
      exact ⟨by simp, ihs hvs h hshape ih.2⟩
    | some t =>
      rw [zeroMembers_kept ht] at h
      obtain ⟨z, hz, h⟩ := ok_of_bind h
      obtain ⟨rest, hrest, h⟩ := ok_of_bind h
      injection h with h
      subst h
      rw [carriedMembers, if_pos (by simp [ht]), eraseAll_cons, eraseAll_cons] at hshape
      injection hshape with hfirst hothers
      exact ⟨fun _ => ih.1 t ht v hv z hz hfirst, ihs hvs hrest hothers ih.2⟩

/-- Elements whose zeros have their shapes. -/
theorem forall_of_eraseAll {f : Value F → Except Fault (Value F)} {g : Value F → Value F}
    {xs zs : List (Value F)} (h : Forall₂ (fun x z => f x = .ok z) xs zs)
    (hshape : eraseAll zs = eraseAll (xs.map g)) :
    ∀ x ∈ xs, ∃ z, f x = .ok z ∧ SameShape z (g x) := by
  induction h with
  | nil => simp
  | cons hx _ ih =>
    rw [map_cons, eraseAll_cons, eraseAll_cons] at hshape
    injection hshape with hfirst hothers
    rw [forall_mem_cons]
    exact ⟨⟨_, hx, hfirst⟩, ih hothers⟩

/-- A zero tangent has the shape of its value only if the arrays have one dimension. -/
theorem flat_of_zeroTangent (hstruct : Structural S P) :
    ∀ T, machineryTangentTypeOf P = some T → ∀ v, HasType P v →
      ∀ z, zeroTangent S P T v = .ok z → SameShape z (carried P v) → Flat P v := by
  induction P using Ty.induct with
  | float kind =>
    intro T _ v _ z _ _
    cases v <;> exact trivial
  | discrete =>
    intro T hT
    cases hT
  | void =>
    intro T hT
    cases hT
  | aggregate kind members ih =>
    intro T hT v htyped z hz hshape
    have hT := tangent_aggregate hT
    subst hT
    obtain ⟨values, rfl, hmembers⟩ := htyped.aggregate
    rw [zeroTangent_aggregate (hstruct _ .self).1] at hz
    obtain ⟨zeros, hzeros, hz⟩ := ok_of_bind hz
    rw [storeMembers_eq (length_zeroMembers hzeros)] at hz
    injection hz with hz
    subst hz
    unfold SameShape at hshape
    rw [carried, erase_aggregate, erase_aggregate] at hshape
    injection hshape with _ hshape
    rw [Flat]
    exact flatMembers_of_zeroMembers hmembers hzeros hshape fun p hp t ht =>
      ih p hp (hstruct.member hp (by simp [ht])) t ht
  | array elem ih =>
    intro T hT v htyped z hz hshape
    obtain ⟨t, ht, rfl⟩ := tangent_array hT
    obtain ⟨shape, elems, rfl, -, helem⟩ := htyped.array
    rw [zeroTangent_array (hstruct _ .self).1 (tangent_ne_void ht)] at hz
    obtain ⟨-, -, hz⟩ := ok_of_bind hz
    obtain ⟨zeros, hzeros, hz⟩ := ok_of_bind hz
    injection hz with hz
    subst hz
    unfold SameShape at hshape
    rw [carried, erase_array, erase_array] at hshape
    injection hshape with hextents helems
    -- as many zeros as elements, so the loop went over all of them
    obtain ⟨hlen, -, hall⟩ := mapSlots_spec hzeros
    have hcount : zeros.length = elems.length := by
      have hmap := length_of_eraseAll helems
      rwa [length_map] at hmap
    rw [← hlen, hcount, take_length] at hall
    rw [Flat]
    refine ⟨by rw [← hextents]; rfl, ?_⟩
    intro x hx
    obtain ⟨y, hy, hyshape⟩ := forall_of_eraseAll hall helems x hx
    exact ih hstruct.elem t ht x (helem x hx) y hy hyshape

end Zero

/-! ## Sums -/

section Add

variable [∀ kind, Add (F kind)] {S : Spaces F}

theorem addTangent_float {kind : FloatKind} (h : S.owned (.float kind) = false) {x y : Number F}
    (hx : x.1 = kind) (hy : y.1 = kind) :
    addTangent S (.float kind) (.float x) (.float y) = .ok (.float (addNumbers x y)) := by
  refine (if_neg (by simp [h])).trans ?_
  exact if_pos (And.intro hx hy)

theorem addTangent_aggregate {ts : List Ty}
    (h : S.owned (.aggregate kind ts) = false) (ha : as.length = ts.length)
    (hb : bs.length = ts.length) :
    addTangent S (.aggregate kind ts) (.aggregate kind as) (.aggregate kind bs) = (do
      let sums ← addMembers S ts as bs
      .ok (.aggregate kind sums)) := by
  refine (if_neg (by simp [h])).trans ((if_pos (And.intro rfl rfl)).trans ?_)
  exact if_pos (And.intro ha hb)

theorem addTangent_array (h : S.owned (.array t) = false) (ht : t ≠ .void)
     (hlen : as.length = bs.length) :
    addTangent S (.array t) (.array shape as) (.array shape bs) = (do
      createArray [Int64.ofNat (arraySize shape as.length)]
      let sums ← zipSlots (addTangent S t) (arraySize shape as.length) as bs
      .ok (.array [Int64.ofNat (arraySize shape as.length)] sums)) := by
  conv_lhs => unfold addTangent
  rw [h]
  simp [hlen]

theorem addMembers_nil (as bs : List (Value F)) : addMembers S [] as bs = .ok [] := by
  rfl

theorem addMembers_cons (t : Ty) (ts : List Ty) (a b : Value F) (as bs : List (Value F)) :
    addMembers S (t :: ts) (a :: as) (b :: bs) = (do
      let sum ← addTangent S t a b
      let sums ← addMembers S ts as bs
      .ok (sum :: sums)) := rfl

/-- The sums of the members of two tangents. -/
theorem addMembers_ok {values as bs : List (Value F)}
    (htyped : HaveTypes members values) (hflat : FlatMembers members values)
    (ha : eraseAll as = eraseAll (carriedMembers members values))
    (hb : eraseAll bs = eraseAll (carriedMembers members values))
    (ih : ∀ p ∈ members, ∀ t, machineryTangentTypeOf p = some t → ∀ v, HasType p v → Flat p v →
      ∀ a b, SameShape a (carried p v) → SameShape b (carried p v) →
        ∃ s, addTangent S t a b = .ok s ∧ IsSum a b s) :
    as.length = (tangentMembers members).length ∧
      ∃ sums, addMembers S (tangentMembers members) as bs = .ok sums ∧
        eraseAll sums = eraseAll as ∧
        leavesAll sums = zipWith addNumbers (leavesAll as) (leavesAll bs) := by
  induction members generalizing values as bs with
  | nil =>
    cases values with
    | nil =>
      have has := eq_nil_of_length_eq_zero (length_of_eraseAll ha)
      rw [has]
      exact ⟨rfl, [], addMembers_nil _ _, rfl, rfl⟩
    | cons v vs => exact absurd htyped (by simp [HaveTypes])
  | cons p ps ihs =>
    rw [forall_mem_cons] at ih
    obtain ⟨v, vs, rfl, hv, hvs⟩ := htyped.cons
    rw [FlatMembers] at hflat
    cases ht : machineryTangentTypeOf p with
    | none =>
      rw [carriedMembers, ht] at ha hb
      rw [tangentMembers_dropped ht]
      exact ihs hvs hflat.2 ha hb ih.2
    | some t =>
      have hkept : (machineryTangentTypeOf p).isSome := by simp [ht]
      rw [carriedMembers, if_pos hkept] at ha hb
      cases as with
      | nil => cases ha
      | cons a as =>
        cases bs with
        | nil => cases hb
        | cons b bs =>
          rw [eraseAll_cons, eraseAll_cons] at ha hb
          injection ha with ha has
          injection hb with hb hbs
          obtain ⟨hlen, sums, hsums, hshape, hleaves⟩ := ihs hvs hflat.2 has hbs ih.2
          obtain ⟨s, hs, hsum⟩ := ih.1 t ht v hv (hflat.1 hkept) a b ha hb
          have hab : SameShape a b := ha.trans hb.symm
          rw [tangentMembers_kept ht]
          refine ⟨by rw [length_cons, length_cons, hlen], s :: sums, ?_, ?_,
            leavesAll_zipWith hab.length_leaves hsum hleaves⟩
          · rw [addMembers_cons, hs]
            show (addMembers S (tangentMembers ps) as bs >>= _) = _
            rw [hsums]
            rfl
          · rw [eraseAll_cons, eraseAll_cons, hsum.1, hshape]

/-- The sum of two tangents of a value whose arrays have one dimension. -/
theorem addTangent_ok (hstruct : Structural S P) : ∀ T, machineryTangentTypeOf P = some T →
    ∀ v, HasType P v → Flat P v → ∀ a b, SameShape a (carried P v) → SameShape b (carried P v) →
      ∃ s, addTangent S T a b = .ok s ∧ IsSum a b s := by
  induction P using Ty.induct with
  | float kind =>
    intro T hT v htyped _ a b ha hb
    injection hT with hT
    subst hT
    obtain ⟨x, rfl, hkind⟩ := htyped.float
    obtain ⟨y, rfl, hy⟩ := eq_float_of_erase (show a.erase = (Value.float x).erase from ha)
    obtain ⟨w, rfl, hw⟩ := eq_float_of_erase (show b.erase = (Value.float x).erase from hb)
    refine ⟨_, addTangent_float (hstruct _ .self).1 (hy.trans hkind) (hw.trans hkind), ?_, rfl⟩
    unfold addNumbers
    rw [dif_pos (hw.trans hy.symm)]
    rfl
  | discrete =>
    intro T hT
    cases hT
  | void =>
    intro T hT
    cases hT
  | aggregate kind members ih =>
    intro T hT v htyped hflat a b ha hb
    have howned := (hstruct _ .self).2 T hT
    have hT := tangent_aggregate hT
    subst hT
    obtain ⟨values, rfl, hmembers⟩ := htyped.aggregate
    rw [Flat] at hflat
    unfold SameShape at ha hb
    rw [carried] at ha hb
    obtain ⟨as, rfl, has⟩ := eq_aggregate_of_erase ha
    obtain ⟨bs, rfl, hbs⟩ := eq_aggregate_of_erase hb
    obtain ⟨hlen, sums, hsums, hshape, hleaves⟩ :=
      addMembers_ok hmembers hflat has hbs fun p hp t ht v hv hf =>
        ih p hp (hstruct.member hp (by simp [ht])) t ht v hv hf
    have hlen' : bs.length = (tangentMembers members).length := by
      rw [← hlen]
      exact length_of_eraseAll (hbs.trans has.symm)
    refine ⟨.aggregate kind sums, ?_, ?_, hleaves⟩
    · rw [addTangent_aggregate howned hlen hlen', hsums]
      rfl
    · rw [erase_aggregate, erase_aggregate, hshape]
  | array elem ih =>
    intro T hT v htyped hflat a b ha hb
    have howned := (hstruct _ .self).2 T hT
    obtain ⟨t, ht, rfl⟩ := tangent_array hT
    obtain ⟨shape, elems, rfl, ⟨n, hn, hcount⟩, helem⟩ := htyped.array
    rw [Flat] at hflat
    obtain ⟨hrank, hflat⟩ := hflat
    obtain ⟨d, rfl⟩ := length_eq_one_iff.1 hrank
    unfold SameShape at ha hb
    rw [carried] at ha hb
    obtain ⟨as, rfl, has⟩ := eq_array_of_erase ha
    obtain ⟨bs, rfl, hbs⟩ := eq_array_of_erase hb
    have hlen : as.length = elems.length := by
      have hmap := length_of_eraseAll has
      rwa [length_map] at hmap
    rw [← hlen] at hcount
    obtain ⟨hsize, hd, hcreate⟩ := arraySize_flat hn hcount
    have hpairs : Forall₂ (fun a b => SameShape a b ∧
        ∃ s, addTangent S t a b = .ok s ∧ IsSum a b s) as bs :=
      forall₂_of_eraseAll has hbs fun x hx a b hax hbx =>
        ⟨hax.trans hbx.symm, ih hstruct.elem t ht x (helem x hx) (hflat x hx) a b hax hbx⟩
    obtain ⟨sums, hsums, hshape, hleaves⟩ := zipSlots_ok hpairs
    have hab : as.length = bs.length := length_of_eraseAll (has.trans hbs.symm)
    refine ⟨.array [d] sums, ?_, ?_, hleaves⟩
    · rw [addTangent_array howned (tangent_ne_void ht) hab, hsize, hcreate]
      show (zipSlots _ _ as bs >>= _) = _
      rw [hsums, hd]
      rfl
    · rw [erase_array, erase_array, hshape]

end Add

/-! ## The Laws -/

section Laws

-- numbers by what they stand for, so that the two zeros of a format are one
variable [∀ kind, AddZeroClass (F kind)] {S : Spaces F}

theorem addNumbers_zero (x : Number F) {y : Number F} (hy : y.2 = 0) : addNumbers x y = x := by
  obtain ⟨kind, x⟩ := x
  obtain ⟨kind', y⟩ := y
  unfold addNumbers
  split
  · next h =>
    have hkind : kind' = kind := h
    subst hkind
    have hzero : y = 0 := hy
    rw [hzero]
    exact congrArg (Sigma.mk kind') (add_zero x)
  · rfl

theorem zipWith_zeros {xs ys : List (Number F)} (hlen : xs.length = ys.length)
    (hzero : ∀ y ∈ ys, y.2 = 0) : zipWith addNumbers xs ys = xs := by
  induction xs generalizing ys with
  | nil => rfl
  | cons x xs ih =>
    cases ys with
    | nil => cases hlen
    | cons y ys =>
      rw [forall_mem_cons] at hzero
      rw [zipWith_cons_cons, addNumbers_zero x hzero.1,
        ih (Nat.succ.inj hlen) hzero.2]

/-- A zero with the shape, and sums leaf by leaf, are all that is asked. -/
theorem tangentLaws_of {shape : Value F} {zero : Except Fault (Value F)}
    {add : Value F → Value F → Except Fault (Value F)} (hzero : ∃ z, zero = .ok z ∧ IsZero shape z)
    (hadd : ∀ a b, SameShape a shape → SameShape b shape → ∃ s, add a b = .ok s ∧ IsSum a b s) :
    TangentLaws shape zero add := by
  obtain ⟨z, hz, hshape, hleaves⟩ := hzero
  refine ⟨z, hz, hshape, hleaves, ?_, ?_⟩
  · intro a b ha hb
    obtain ⟨s, hs, hsum⟩ := hadd a b ha hb
    exact ⟨s, hs, hsum.1.trans ha, hsum.2⟩
  · intro a ha
    obtain ⟨s, hs, hsum⟩ := hadd a z ha hshape
    have haz : SameShape a z := ha.trans hshape.symm
    refine ⟨s, hs, hsum.1.trans ha, ?_⟩
    rw [hsum.2]
    exact zipWith_zeros haz.length_leaves hleaves

/-- Every element of the array is a value whose arrays have one dimension. -/
def FlatElems : Ty → Value F → Prop
  | .array elem, .array _ elems => ∀ x ∈ elems, Flat elem x
  | _, _ => False

/-- The zero tangent of an array is formed from those of its elements. -/
theorem tangentZerosArr_eq {elem t : Ty} (ht : machineryTangentTypeOf elem = some t)
    {resultType : Option Ty} (hresult : resultType = none ∨ resultType = some (.array t))
    (shape : List Int64) (elems : List (Value F)) :
    tangentZerosArr S (.array elem) resultType (.array shape elems) = (do
      createArray shape
      let zeros ← mapSlots (zeroTangent S elem t) elems.length elems
      .ok (.array shape zeros)) := by
  have harray : machineryTangentTypeOf (.array elem) = some (.array t) := by
    rw [machineryTangentTypeOf_array, ht]
    rfl
  unfold tangentZerosArr
  rcases hresult with rfl | rfl
  · rw [harray]
    rfl
  · rfl

theorem tangentAddArr_eq
    (hlen : as.length = bs.length) :
    tangentAddArr S (.array t) (.array shape as) (.array shape bs) = (do
      createArray shape
      let sums ← zipSlots (addTangent S t) as.length as bs
      .ok (.array shape sums)) := by
  unfold tangentAddArr
  exact if_pos hlen

theorem createArray_ok {n : UInt64} (h : checkedNumel shape = .ok n) :
    createArray shape = .ok () := by
  unfold createArray
  rw [h]

/-- The operators on whole arrays keep every extent of the array. -/
theorem tangentLaws_arr {elem t : Ty} (ht : machineryTangentTypeOf elem = some t)
    (hstruct : Structural S elem) {resultType : Option Ty}
    (hresult : resultType = none ∨ resultType = some (.array t))
    {elems : List (Value F)} (htyped : HasType (.array elem) (.array shape elems)) :
    TangentLaws (carried (.array elem) (.array shape elems))
      (tangentZerosArr S (.array elem) resultType (.array shape elems)) (tangentAddArr S (.array t)) ↔
      ∀ x ∈ elems, Flat elem x := by
  rw [HasType] at htyped
  obtain ⟨⟨n, hn, -⟩, htyped⟩ := htyped
  have hcreate := createArray_ok hn
  rw [tangentZerosArr_eq ht hresult, carried]
  constructor
  · intro hlaws
    obtain ⟨z, hz, hshape, -⟩ := hlaws
    obtain ⟨-, -, hz⟩ := ok_of_bind hz
    obtain ⟨zeros, hzeros, hz⟩ := ok_of_bind hz
    injection hz with hz
    subst hz
    unfold SameShape at hshape
    rw [erase_array, erase_array] at hshape
    injection hshape with _ helems
    obtain ⟨-, -, hall⟩ := mapSlots_spec hzeros
    rw [take_length] at hall
    intro x hx
    obtain ⟨y, hy, hyshape⟩ := forall_of_eraseAll hall helems x hx
    exact flat_of_zeroTangent elem hstruct t ht x (htyped x hx) y hy hyshape
  · intro hflat
    apply tangentLaws_of
    · obtain ⟨zeros, hzeros, hall⟩ := mapSlots_ok fun x hx =>
        zeroTangent_ok elem hstruct t ht x (htyped x hx) (hflat x hx)
      obtain ⟨hshape, hleaves⟩ := eraseAll_of_forall₂ hall
      refine ⟨.array shape zeros, ?_, ?_, hleaves⟩
      · rw [hcreate]
        show (mapSlots _ _ elems >>= _) = _
        rw [hzeros]
        rfl
      · unfold SameShape
        rw [erase_array, erase_array, hshape]
    · intro a b ha hb
      unfold SameShape at ha hb
      obtain ⟨as, rfl, has⟩ := eq_array_of_erase ha
      obtain ⟨bs, rfl, hbs⟩ := eq_array_of_erase hb
      have hpairs : Forall₂ (fun a b => SameShape a b ∧
          ∃ s, addTangent S t a b = .ok s ∧ IsSum a b s) as bs :=
        forall₂_of_eraseAll has hbs fun x hx a b hax hbx => ⟨hax.trans hbx.symm,
          addTangent_ok elem hstruct t ht x (htyped x hx) (hflat x hx) a b hax hbx⟩
      obtain ⟨sums, hsums, hshape, hleaves⟩ := zipSlots_ok hpairs
      have hab : as.length = bs.length := length_of_eraseAll (has.trans hbs.symm)
      refine ⟨.array shape sums, ?_, ?_, hleaves⟩
      · rw [tangentAddArr_eq hab, hcreate]
        show (zipSlots _ _ as bs >>= _) = _
        rw [hsums]
        rfl
      · rw [erase_array, erase_array, hshape]

/-- Zero tangents and sums keep a value whose arrays all have one dimension, and the operators
    on whole arrays an array of such values, whatever its own extents. -/
theorem tangents_kept_iff {P T : Ty} {v : Value F} (hT : machineryTangentTypeOf P = some T)
    (hstruct : Structural S P) (htyped : HasType P v) {resultType : Option Ty}
    (hresult : resultType = none ∨ resultType = some T) :
    (TangentLaws (carried P v) (zeroTangent S P T v) (addTangent S T) ↔ Flat P v) ∧
      (TangentLaws (carried P v) (tangentZerosArr S P resultType v) (tangentAddArr S T) ↔
        FlatElems P v) := by
  constructor
  · constructor
    · intro hlaws
      obtain ⟨z, hz, hshape, -⟩ := hlaws
      exact flat_of_zeroTangent P hstruct T hT v htyped z hz hshape
    · intro hflat
      exact tangentLaws_of (zeroTangent_ok P hstruct T hT v htyped hflat)
        (addTangent_ok P hstruct T hT v htyped hflat)
  · cases P with
    | array elem =>
      obtain ⟨shape, elems, rfl, -⟩ := htyped.array
      obtain ⟨t, ht, rfl⟩ := tangent_array hT
      exact tangentLaws_arr ht hstruct.elem hresult htyped
    -- a value of another type is turned down
    | float kind => exact ⟨fun hlaws => absurd hlaws.choose_spec.1 (by simp [tangentZerosArr]), False.elim⟩
    | discrete => cases hT
    | void => cases hT
    | aggregate kind members =>
      exact ⟨fun hlaws => absurd hlaws.choose_spec.1 (by simp [tangentZerosArr]), False.elim⟩

end Laws

/-- A registry without modules, and numbers that are integers. -/
def noModules : Spaces fun _ => Int :=
  ⟨fun _ => false, fun _ _ _ => .error .kind, fun _ _ _ => .error .kind⟩

theorem structural_noModules : Structural noModules P := fun _ _ => ⟨rfl, fun _ _ => rfl⟩

def number (x : Int) : Value fun _ => Int := .float ⟨.float64, x⟩

/-- A tuple of a number and an array of two. -/
theorem tangents_kept_iff_pair :
    let P : Ty := .aggregate .tuple [.float .float64, .array (.float .float64)]
    let v : Value fun _ => Int := .aggregate .tuple [number 3, .array [2] [number 4, number 5]]
    (TangentLaws (carried P v) (zeroTangent noModules P P v) (addTangent noModules P) ↔ Flat P v) ∧
      (TangentLaws (carried P v) (tangentZerosArr noModules P none v) (tangentAddArr noModules P) ↔
        FlatElems P v) := by
  apply tangents_kept_iff
  · rfl
  · exact structural_noModules _
  · refine ⟨rfl, rfl, ⟨⟨2, rfl, rfl⟩, ?_⟩, trivial⟩
    simp [number, HasType]
  · exact .inl rfl

/-- A tuple of an array of two rows and two columns. -/
theorem zeroTangent_loses_rows : ¬ ∀ (P T : Ty) (v : Value fun _ => Int),
    machineryTangentTypeOf P = some T → Structural noModules P → HasType P v →
      TangentLaws (carried P v) (zeroTangent noModules P T v) (addTangent noModules T) := by
  intro h
  let point : Ty := .aggregate .struct [.float .float64]
  let element : Value fun _ => Int := .aggregate .struct [number 1]
  let P : Ty := .aggregate .tuple [.array point]
  let v : Value fun _ => Int := .aggregate .tuple [.array [2, 2] (List.replicate 4 element)]
  have htyped : HasType P v := by
    refine ⟨rfl, ⟨⟨4, rfl, rfl⟩, ?_⟩, trivial⟩
    intro x hx
    rw [eq_of_mem_replicate hx]
    exact ⟨rfl, rfl, trivial⟩
  obtain ⟨z, hz, hshape, -⟩ := h P P v rfl (structural_noModules P) htyped
  -- the zero has one dimension, of two elements
  have hflat := flat_of_zeroTangent P (structural_noModules P) P rfl v htyped z hz hshape
  have hrank : ([2, 2] : List Int64).length = 1 := (hflat.1 rfl).1
  exact absurd hrank (by decide)

end Camel.Autodiff
