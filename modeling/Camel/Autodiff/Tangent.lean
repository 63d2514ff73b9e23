import Camel.Array.Storage

/-! # Tangents

    A value that carries a gradient has a tangent: a float its own kind of number, a struct
    or a tuple the tangents of those of its members that have one, an array the tangents of
    its elements. The zero tangent of a value and the sum of two tangents are formed by
    recursion on the type. A type that a module owns is left to that module.
-/

namespace Camel.Autodiff

open Extents

/-! ## Types and Values -/

inductive FloatKind where
  | float64 | float32 | bfloat16 | float16
  deriving DecidableEq

inductive AggregateKind where
  | struct | tuple
  deriving DecidableEq

/-- The types a tangent depends on; `discrete` is any type without a tangent. -/
inductive Ty where
  | float (kind : FloatKind)
  | discrete
  | void
  | aggregate (kind : AggregateKind) (members : List Ty)
  | array (elem : Ty)

/-- A number of one of the kinds. -/
abbrev Number (F : FloatKind → Type) : Type := (kind : FloatKind) × F kind

/-- Values; an array holds its extents and its elements in row-major order, and a slot that
    is not read as a number, an object or an array is `other`. -/
inductive Value (F : FloatKind → Type) where
  | float (x : Number F)
  | other
  | aggregate (kind : AggregateKind) (members : List (Value F))
  | array (shape : List Int64) (elems : List (Value F))

mutual

/-- `computeTangent` for the machinery: members without a tangent are dropped. -/
def machineryTangentTypeOf : Ty → Option Ty
  | .float kind => some (.float kind)
  | .discrete => none
  | .void => none
  | .aggregate kind members =>
    match tangentMembers members with
    | [] => none
    | t :: ts => some (.aggregate kind (t :: ts))
  | .array elem => (machineryTangentTypeOf elem).map .array

def tangentMembers : List Ty → List Ty
  | [] => []
  | p :: ps => (machineryTangentTypeOf p).toList ++ tangentMembers ps

end

/-! ## Zero Tangents and Sums -/

/-- What stops the computation: an object of another kind, a slot that is not there, an
    assertion, or what is thrown. -/
inductive Fault where
  | kind
  | index
  | assertion (text : String)
  | thrown (text : String)
  deriving DecidableEq

/-- The registered spaces of types that a module owns. -/
structure Spaces (F : FloatKind → Type) where
  owned : Ty → Bool
  zero : Ty → Ty → Value F → Except Fault (Value F)
  add : Ty → Value F → Value F → Except Fault (Value F)

/-- The loop over the first `n` slots of an object. -/
def mapSlots {α β : Type} (f : α → Except Fault β) : Nat → List α → Except Fault (List β)
  | 0, _ => .ok []
  | _ + 1, [] => .error .index
  | n + 1, x :: xs => do
    let y ← f x
    let ys ← mapSlots f n xs
    .ok (y :: ys)

/-- The loop over the first `n` slots of two objects. -/
def zipSlots {α β : Type} (f : α → α → Except Fault β) :
    Nat → List α → List α → Except Fault (List β)
  | 0, _, _ => .ok []
  | n + 1, x :: xs, y :: ys => do
    let z ← f x y
    let zs ← zipSlots f n xs ys
    .ok (z :: zs)
  | _ + 1, _, _ => .error .index

/-- `Array::size`: the first extent, or the number of elements of a value without extents. -/
def arraySize (shape : List Int64) (numel : Nat) : Nat :=
  match shape with
  | [] => numel
  | extent :: _ => extent.toUInt64.toNat

/-- `Array::create`, which checks the extents before the elements are stored. -/
def createArray (shape : List Int64) : Except Fault Unit :=
  match checkedNumel shape with
  | .error text => .error (.thrown text)
  | .ok _ => .ok ()

variable {F : FloatKind → Type}

/-- An object of `size` slots, the first of which are stored. -/
def storeMembers (size : Nat) (slots : List (Value F)) : Except Fault (List (Value F)) :=
  if size < slots.length then .error .index
  else .ok (slots ++ List.replicate (size - slots.length) .other)

section Zero

variable [∀ kind, Zero (F kind)] (S : Spaces F)

mutual

def zeroTangent (primalType tangentType : Ty) (primal : Value F) : Except Fault (Value F) :=
  if S.owned primalType then S.zero primalType tangentType primal
  else
    match primalType, tangentType, primal with
    -- the narrow kinds by the constant their code registers
    | _, .float kind, _ => .ok (.float ⟨kind, 0⟩)
    | .aggregate primalKind primalMembers, .aggregate tangentKind members,
        .aggregate valueKind values =>
      if primalKind = tangentKind ∧ valueKind = tangentKind then do
        let zeros ← zeroMembers primalMembers values
        let slots ← storeMembers members.length zeros
        .ok (.aggregate tangentKind slots)
      else .error .kind
    -- an element type nobody stated
    | .array _, .array .void, _ => S.zero primalType tangentType primal
    | .array primalElem, .array tangentElem, .array shape elems => do
      let size := arraySize shape elems.length
      createArray [Int64.ofNat size]
      let zeros ← mapSlots (zeroTangent primalElem tangentElem) size elems
      .ok (.array [Int64.ofNat size] zeros)
    | _, .discrete, _ => S.zero primalType tangentType primal
    | _, .void, _ => S.zero primalType tangentType primal
    | _, _, _ => .error .kind

/-- The loop over the members of a primal type. -/
def zeroMembers (primalMembers : List Ty) (values : List (Value F)) :
    Except Fault (List (Value F)) :=
  match primalMembers with
  | [] => .ok []
  | p :: ps =>
    match machineryTangentTypeOf p, values with
    | none, values => zeroMembers ps values.tail
    | some _, [] => .error .index
    | some t, v :: vs => do
      let zero ← zeroTangent p t v
      let zeros ← zeroMembers ps vs
      .ok (zero :: zeros)

end

/-- `:tangent/zeros_arr`. -/
def tangentZerosArr (primalType : Ty) (resultType : Option Ty) (primal : Value F) :
    Except Fault (Value F) :=
  match primalType, resultType <|> machineryTangentTypeOf primalType, primal with
  | .array primalElem, some (.array tangentElem), .array shape elems => do
    createArray shape
    let zeros ← mapSlots (zeroTangent S primalElem tangentElem) elems.length elems
    .ok (.array shape zeros)
  | .array _, some _, _ => .error .kind
  | _, _, _ => .error (.thrown "autodiff: a zero tangent array needs an array with a tangent")

end Zero

section Add

variable [∀ kind, Add (F kind)] (S : Spaces F)

/-- The sum of two numbers of one kind. -/
def addNumbers (x y : Number F) : Number F :=
  if h : y.1 = x.1 then ⟨x.1, x.2 + cast (congrArg F h) y.2⟩ else x

def addFloats (kind : FloatKind) (x y : Number F) : Except Fault (Value F) :=
  if x.1 = kind ∧ y.1 = kind then .ok (.float (addNumbers x y)) else .error .kind

/-- What is asserted of the two operands of a sum. -/
def shapesDiffer : AggregateKind → String
  | .struct => "autodiff: tangent structs of different shapes."
  | .tuple => "autodiff: tangent tuples of different shapes."

mutual

def addTangent (tangentType : Ty) (lhs rhs : Value F) : Except Fault (Value F) :=
  if S.owned tangentType then S.add tangentType lhs rhs
  else
    match tangentType, lhs, rhs with
    | .float kind, .float x, .float y => addFloats kind x y
    | .aggregate kind members, .aggregate lhsKind lhsValues, .aggregate rhsKind rhsValues =>
      if lhsKind = kind ∧ rhsKind = kind then
        if lhsValues.length = members.length ∧ rhsValues.length = members.length then do
          let sums ← addMembers members lhsValues rhsValues
          .ok (.aggregate kind sums)
        else .error (.assertion (shapesDiffer kind))
      else .error .kind
    -- an element type nobody stated
    | .array .void, _, _ => S.add tangentType lhs rhs
    | .array elem, .array lhsShape lhsElems, .array rhsShape rhsElems =>
      if arraySize lhsShape lhsElems.length = arraySize rhsShape rhsElems.length then do
        let size := arraySize lhsShape lhsElems.length
        createArray [Int64.ofNat size]
        let sums ← zipSlots (addTangent elem) size lhsElems rhsElems
        .ok (.array [Int64.ofNat size] sums)
      else .error (.assertion "autodiff: tangent arrays of different lengths.")
    | .discrete, _, _ => S.add tangentType lhs rhs
    | .void, _, _ => S.add tangentType lhs rhs
    | _, _, _ => .error .kind

/-- The loop over the members of a tangent type. -/
def addMembers (members : List Ty) (lhs rhs : List (Value F)) : Except Fault (List (Value F)) :=
  match members, lhs, rhs with
  | [], _, _ => .ok []
  | t :: ts, x :: xs, y :: ys => do
    let sum ← addTangent t x y
    let sums ← addMembers ts xs ys
    .ok (sum :: sums)
  | _ :: _, _, _ => .error .index

end

/-- `:tangent/add_arr`. -/
def tangentAddArr (arrayType : Ty) (lhs rhs : Value F) : Except Fault (Value F) :=
  match arrayType, lhs, rhs with
  | .array elem, .array lhsShape lhsElems, .array _ rhsElems =>
    if lhsElems.length = rhsElems.length then do
      createArray lhsShape
      let sums ← zipSlots (addTangent S elem) lhsElems.length lhsElems rhsElems
      .ok (.array lhsShape sums)
    else .error (.thrown "autodiff: tangent arrays added that have different lengths")
  | _, _, _ => .error .kind

end Add

end Camel.Autodiff

/-! # What a Tangent Keeps of Its Value

    A tangent has the shape of the part of its value that carries a gradient, and its
    numbers are the leaves of that shape.
-/

namespace Camel.Autodiff

open Extents

variable {F : FloatKind → Type}

/-! ## Shapes and Leaves -/

mutual

/-- The value without its numbers. -/
def Value.erase : Value F → Value fun _ => Unit
  | .float x => .float ⟨x.1, ()⟩
  | .other => .other
  | .aggregate kind members => .aggregate kind (eraseAll members)
  | .array shape elems => .array shape (eraseAll elems)

def eraseAll : List (Value F) → List (Value fun _ => Unit)
  | [] => []
  | v :: vs => v.erase :: eraseAll vs

end

mutual

/-- The numbers of a value, in order. -/
def Value.leaves : Value F → List (Number F)
  | .float x => [x]
  | .other => []
  | .aggregate _ members => leavesAll members
  | .array _ elems => leavesAll elems

def leavesAll : List (Value F) → List (Number F)
  | [] => []
  | v :: vs => v.leaves ++ leavesAll vs

end

def SameShape (a b : Value F) : Prop := a.erase = b.erase

mutual

/-- The part of a value that carries a gradient. -/
def carried : Ty → Value F → Value F
  | .aggregate _ members, .aggregate kind values => .aggregate kind (carriedMembers members values)
  | .array elem, .array shape elems => .array shape (elems.map (carried elem))
  | _, v => v

def carriedMembers : List Ty → List (Value F) → List (Value F)
  | p :: ps, v :: vs =>
    if (machineryTangentTypeOf p).isSome then carried p v :: carriedMembers ps vs
    else carriedMembers ps vs
  | _, _ => []

end

mutual

/-- The value is of the type; an array has as many elements as its extents say. -/
def HasType : Ty → Value F → Prop
  | .float kind, .float x => x.1 = kind
  | .discrete, .other => True
  | .void, .other => True
  | .aggregate kind members, .aggregate kind' values => kind' = kind ∧ HaveTypes members values
  | .array elem, .array shape elems =>
    (∃ n, checkedNumel shape = .ok n ∧ n.toNat = elems.length) ∧ ∀ x ∈ elems, HasType elem x
  | _, _ => False

def HaveTypes : List Ty → List (Value F) → Prop
  | [], [] => True
  | p :: ps, v :: vs => HasType p v ∧ HaveTypes ps vs
  | _, _ => False

end

mutual

/-- Every array in the part that carries a gradient has one dimension. -/
def Flat : Ty → Value F → Prop
  | .aggregate _ members, .aggregate _ values => FlatMembers members values
  | .array elem, .array shape elems => shape.length = 1 ∧ ∀ x ∈ elems, Flat elem x
  | _, _ => True

def FlatMembers : List Ty → List (Value F) → Prop
  | p :: ps, v :: vs => ((machineryTangentTypeOf p).isSome → Flat p v) ∧ FlatMembers ps vs
  | _, _ => True

end

/-- A part of a type that its tangent is made of. -/
inductive Part (q : Ty) : Ty → Prop where
  | self : Part q q
  | member {kind : AggregateKind} {members : List Ty} {p : Ty} (hp : p ∈ members)
      (hkept : (machineryTangentTypeOf p).isSome) (h : Part q p) : Part q (.aggregate kind members)
  | elem {elem : Ty} (h : Part q elem) : Part q (.array elem)

/-- No module owns a part of the type, or the tangent of one. -/
def Structural (S : Spaces F) (P : Ty) : Prop :=
  ∀ q, Part q P → S.owned q = false ∧ ∀ t, machineryTangentTypeOf q = some t → S.owned t = false

/-- What is asked of a zero tangent and a sum, for tangents of a shape: the zero has the shape
    and nothing but zeros, sums have the shape and are those of the leaves, and adding the
    zero changes no leaf. -/
def TangentLaws [∀ kind, Zero (F kind)] [∀ kind, Add (F kind)] (shape : Value F)
    (zero : Except Fault (Value F)) (add : Value F → Value F → Except Fault (Value F)) : Prop :=
  ∃ z, zero = .ok z ∧ SameShape z shape ∧ (∀ x ∈ z.leaves, x.2 = 0) ∧
    (∀ a b, SameShape a shape → SameShape b shape →
      ∃ s, add a b = .ok s ∧ SameShape s shape ∧
        s.leaves = List.zipWith addNumbers a.leaves b.leaves) ∧
    ∀ a, SameShape a shape → ∃ s, add a z = .ok s ∧ SameShape s shape ∧ s.leaves = a.leaves

/-! ## Induction -/

theorem Ty.induct {motive : Ty → Prop} (float : ∀ kind, motive (.float kind))
    (discrete : motive .discrete) (void : motive .void)
    (aggregate : ∀ kind members, (∀ p ∈ members, motive p) → motive (.aggregate kind members))
    (array : ∀ elem, motive elem → motive (.array elem)) (P : Ty) : motive P := by
  refine @Ty.rec motive (fun members => ∀ p ∈ members, motive p) float discrete void aggregate
    array ?_ ?_ P
  · simp
  · intro p ps hp hps
    rw [List.forall_mem_cons]
    exact ⟨hp, hps⟩

theorem Value.induct {motive : Value F → Prop} (float : ∀ x, motive (.float x))
    (other : motive .other)
    (aggregate : ∀ kind members, (∀ v ∈ members, motive v) → motive (.aggregate kind members))
    (array : ∀ shape elems, (∀ v ∈ elems, motive v) → motive (.array shape elems))
    (v : Value F) : motive v := by
  refine @Value.rec F motive (fun members => ∀ v ∈ members, motive v) float other aggregate
    array ?_ ?_ v
  · simp
  · intro v vs hv hvs
    rw [List.forall_mem_cons]
    exact ⟨hv, hvs⟩

/-! ## Shapes -/

theorem eraseAll_cons (v : Value F) (vs : List (Value F)) :
    eraseAll (v :: vs) = v.erase :: eraseAll vs := rfl

theorem leavesAll_cons (v : Value F) (vs : List (Value F)) :
    leavesAll (v :: vs) = v.leaves ++ leavesAll vs := rfl

theorem erase_aggregate (kind : AggregateKind) (vs : List (Value F)) :
    (Value.aggregate kind vs).erase = .aggregate kind (eraseAll vs) := rfl

theorem erase_array (shape : List Int64) (vs : List (Value F)) :
    (Value.array shape vs).erase = .array shape (eraseAll vs) := rfl

theorem eraseAll_eq (vs : List (Value F)) : eraseAll vs = vs.map Value.erase := by
  induction vs with
  | nil => rfl
  | cons v vs ih => rw [eraseAll_cons, ih, List.map_cons]

variable {a : Value F} {vs : List (Value F)}

theorem length_leavesAll
    (h : ∀ v ∈ vs, v.erase.leaves.length = v.leaves.length) :
    (leavesAll (eraseAll vs)).length = (leavesAll vs).length := by
  induction vs with
  | nil => rfl
  | cons v vs ih =>
    rw [List.forall_mem_cons] at h
    rw [eraseAll_cons, leavesAll_cons, leavesAll_cons, List.length_append, List.length_append, h.1,
      ih h.2]

theorem length_leaves_erase (v : Value F) : v.erase.leaves.length = v.leaves.length := by
  induction v using Value.induct with
  | float x => rfl
  | other => rfl
  | aggregate kind members ih => exact length_leavesAll ih
  | array shape elems ih => exact length_leavesAll ih

/-- Values of one shape have as many leaves. -/
theorem SameShape.length_leaves {a b : Value F} (h : SameShape a b) :
    a.leaves.length = b.leaves.length := by
  unfold SameShape at h
  rw [← length_leaves_erase a, h, length_leaves_erase]

theorem length_of_eraseAll {as bs : List (Value F)} (h : eraseAll as = eraseAll bs) :
    as.length = bs.length := by
  rw [eraseAll_eq, eraseAll_eq] at h
  simpa using congrArg List.length h

theorem eq_float_of_erase {x : Number F} (h : a.erase = (Value.float x).erase) :
    ∃ y : Number F, a = .float y ∧ y.1 = x.1 := by
  cases a with
  | float y =>
    injection h with h
    have hkind := congrArg Sigma.fst h
    exact ⟨y, rfl, hkind⟩
  | other => cases h
  | aggregate kind members => cases h
  | array shape elems => cases h

theorem eq_aggregate_of_erase {kind : AggregateKind}
    (h : a.erase = (Value.aggregate kind vs).erase) :
    ∃ as, a = .aggregate kind as ∧ eraseAll as = eraseAll vs := by
  cases a with
  | float y => cases h
  | other => cases h
  | aggregate kind' members =>
    injection h with hkind hmembers
    exact ⟨members, by rw [hkind], hmembers⟩
  | array shape elems => cases h

theorem eq_array_of_erase {shape : List Int64}
    (h : a.erase = (Value.array shape vs).erase) :
    ∃ as, a = .array shape as ∧ eraseAll as = eraseAll vs := by
  cases a with
  | float y => cases h
  | other => cases h
  | aggregate kind members => cases h
  | array shape' elems =>
    injection h with hshape helems
    exact ⟨elems, by rw [hshape], helems⟩

end Camel.Autodiff
