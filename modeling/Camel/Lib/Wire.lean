import Camel.Lib.Radix
import Mathlib

/-! # Messages on the Wire

    A message is a sequence of fields, each with a number and a value of one of four wire
    types. Integers are written in groups of seven bits, the lowest first, with the high bit
    set on every byte but the last; text, nested messages and packed lists are written
    behind their length. A reader takes the fields of a message in order and then looks for
    those it knows: the last value of a field that occurs once, all values of one that
    repeats.
-/

namespace Camel.Lib.Wire

open List

/-! ## Integers -/

/-- The writer's loop, for `rounds` bytes at most. -/
def varintLoop : Nat → Nat → List UInt8
  | 0, _ => []
  | rounds + 1, v =>
    if v < 128 then [UInt8.ofNat v] else UInt8.ofNat (v % 128 + 128) :: varintLoop rounds (v / 128)

/-- An integer of 64 bits takes ten bytes at most. -/
def varint (v : Nat) : List UInt8 := varintLoop 10 v

def readVarintLoop : Nat → List UInt8 → Option (Nat × List UInt8)
  | 0, _ => none
  | _ + 1, [] => none
  | rounds + 1, b :: bs =>
    if b < 128 then some (b.toNat, bs)
    else (readVarintLoop rounds bs).map fun (v, rest) => (b.toNat - 128 + 128 * v, rest)

variable (bs : List UInt8)

/-- An integer of ten bytes at most, less what does not fit 64 bits. -/
def readVarint : Option (Nat × List UInt8) :=
  (readVarintLoop 10 bs).map fun (v, rest) => (v % 2 ^ 64, rest)

variable {v : Nat}

theorem readVarintLoop_last (h : v < 128) (rounds : Nat) (rest : List UInt8) :
    readVarintLoop (rounds + 1) (UInt8.ofNat v :: rest) = some (v, rest) := by
  have hbyte : (UInt8.ofNat v).toNat = v := by
    rw [UInt8.toNat_ofNat']
    omega
  have hlow : UInt8.ofNat v < 128 := by
    rw [UInt8.lt_iff_toNat_lt, hbyte]
    exact h
  rw [readVarintLoop, if_pos hlow, hbyte]

theorem readVarintLoop_varintLoop {rounds : Nat} (h : v < 128 ^ (rounds + 1))
    (rest : List UInt8) :
    readVarintLoop (rounds + 1) (varintLoop (rounds + 1) v ++ rest) = some (v, rest) := by
  induction rounds generalizing v with
  | zero =>
    have hlast : v < 128 := by omega
    rw [varintLoop, if_pos hlast]
    exact readVarintLoop_last hlast 0 rest
  | succ rounds ih =>
    rw [varintLoop]
    by_cases hlast : v < 128
    · rw [if_pos hlast]
      exact readVarintLoop_last hlast (rounds + 1) rest
    · have hbyte : (UInt8.ofNat (v % 128 + 128)).toNat = v % 128 + 128 := by
        rw [UInt8.toNat_ofNat']
        omega
      have hhigh : ¬ UInt8.ofNat (v % 128 + 128) < 128 := by
        rw [UInt8.lt_iff_toNat_lt, hbyte]
        show ¬ v % 128 + 128 < 128
        omega
      have hrest : v / 128 < 128 ^ (rounds + 1) := by
        rw [pow_succ] at h
        omega
      have hvalue : v % 128 + 128 - 128 + 128 * (v / 128) = v := by omega
      rw [if_neg hlast, cons_append, readVarintLoop, if_neg hhigh, ih hrest]
      show some ((UInt8.ofNat (v % 128 + 128)).toNat - 128 + 128 * (v / 128), rest) = _
      rw [hbyte, hvalue]

/-- An integer is read as it was written, whatever follows. -/
theorem readVarint_varint (h : v < 2 ^ 64) (rest : List UInt8) :
    readVarint (varint v ++ rest) = some (v, rest) := by
  have hrounds : v < 128 ^ 10 := by omega
  unfold readVarint varint
  rw [readVarintLoop_varintLoop (show v < 128 ^ (9 + 1) from hrounds)]
  show some (v % 2 ^ 64, rest) = _
  rw [Nat.mod_eq_of_lt h]

theorem varint_ne_nil (v : Nat) : varint v ≠ [] := by
  unfold varint varintLoop
  split
  · exact cons_ne_nil _ _
  · exact cons_ne_nil _ _

/-! ## Fields -/

inductive WireValue where
  | varint (v : Nat)
  | fixed64 (v : Nat)
  | bytes (b : List UInt8)
  | fixed32 (v : Nat)
  deriving DecidableEq

def WireValue.wireType : WireValue → Nat
  | .varint _ => 0
  | .fixed64 _ => 1
  | .bytes _ => 2
  | .fixed32 _ => 5

structure Field where
  number : Nat
  value : WireValue
  deriving DecidableEq

def WireValue.render : WireValue → List UInt8
  | .varint v => Wire.varint v
  | .fixed64 v => bytesOf 8 v
  | .bytes b => Wire.varint b.length ++ b
  | .fixed32 v => bytesOf 4 v

def Field.render (f : Field) : List UInt8 :=
  varint (f.number * 8 + f.value.wireType) ++ f.value.render

/-- The bytes a message of these fields is written as. -/
def renderAll (fs : List Field) : List UInt8 := fs.flatMap Field.render

/-- The value of a wire type at the beginning of the bytes. -/
def readValue (wireType : Nat) (bs : List UInt8) : Option (WireValue × List UInt8) :=
  match wireType with
  | 0 => (readVarint bs).map fun (v, rest) => (.varint v, rest)
  | 1 => if bs.length < 8 then none else some (.fixed64 (wordOf (bs.take 8)), bs.drop 8)
  | 2 => (readVarint bs).bind fun (length, rest) =>
    if rest.length < length then none else some (.bytes (rest.take length), rest.drop length)
  | 5 => if bs.length < 4 then none else some (.fixed32 (wordOf (bs.take 4)), bs.drop 4)
  | _ => none

def readField : Option (Field × List UInt8) :=
  (readVarint bs).bind fun (tag, rest) =>
    (readValue (tag % 8) rest).map fun (value, rest) => (⟨tag / 8, value⟩, rest)

/-- The loop over the fields, each of a byte at least. -/
def readFieldsLoop : Nat → List UInt8 → Option (List Field)
  | _, [] => some []
  | 0, _ :: _ => none
  | rounds + 1, b :: bs =>
    (readField (b :: bs)).bind fun (f, rest) => (readFieldsLoop rounds rest).map (f :: ·)

/-- The fields of a message. -/
def readFields : Option (List Field) := readFieldsLoop bs.length bs

/-- A value of its wire type. -/
def WireValue.Fits : WireValue → Prop
  | .varint v => v < 2 ^ 64
  | .fixed64 v => v < 2 ^ 64
  | .bytes b => b.length < 2 ^ 64
  | .fixed32 v => v < 2 ^ 32

def Field.Fits (f : Field) : Prop := f.number < 2 ^ 29 ∧ f.value.Fits

theorem readValue_render {v : WireValue} (h : v.Fits) (rest : List UInt8) :
    readValue v.wireType (v.render ++ rest) = some (v, rest) := by
  cases v with
  | varint v =>
    show (readVarint (varint v ++ rest)).map _ = _
    rw [readVarint_varint h]
    rfl
  | fixed64 v =>
    have hlen : (bytesOf 8 v ++ rest).length = 8 + rest.length := by simp
    have htake : (bytesOf 8 v ++ rest).take 8 = bytesOf 8 v := take_left' (length_bytesOf 8 v)
    have hdrop : (bytesOf 8 v ++ rest).drop 8 = rest := drop_left' (length_bytesOf 8 v)
    have hword : wordOf (bytesOf 8 v) = v := by
      rw [wordOf_bytesOf]
      exact Nat.mod_eq_of_lt h
    show (if (bytesOf 8 v ++ rest).length < 8 then none
      else some (WireValue.fixed64 (wordOf ((bytesOf 8 v ++ rest).take 8)),
        (bytesOf 8 v ++ rest).drop 8)) = _
    rw [if_neg (by omega), htake, hdrop, hword]
  | bytes b =>
    show (readVarint ((varint b.length ++ b) ++ rest)).bind _ = _
    rw [append_assoc, readVarint_varint h]
    show (if (b ++ rest).length < b.length then none else _) = _
    rw [if_neg (by simp), take_left, drop_left]
  | fixed32 v =>
    have hlen : (bytesOf 4 v ++ rest).length = 4 + rest.length := by simp
    have htake : (bytesOf 4 v ++ rest).take 4 = bytesOf 4 v := take_left' (length_bytesOf 4 v)
    have hdrop : (bytesOf 4 v ++ rest).drop 4 = rest := drop_left' (length_bytesOf 4 v)
    have hword : wordOf (bytesOf 4 v) = v := by
      rw [wordOf_bytesOf]
      exact Nat.mod_eq_of_lt h
    show (if (bytesOf 4 v ++ rest).length < 4 then none
      else some (WireValue.fixed32 (wordOf ((bytesOf 4 v ++ rest).take 4)),
        (bytesOf 4 v ++ rest).drop 4)) = _
    rw [if_neg (by omega), htake, hdrop, hword]

theorem wireType_lt (v : WireValue) : v.wireType < 8 := by
  cases v with
  | varint v => exact Nat.lt_of_sub_eq_succ rfl
  | fixed64 v => exact Nat.lt_of_sub_eq_succ rfl
  | bytes b => exact Nat.lt_of_sub_eq_succ rfl
  | fixed32 v => exact Nat.lt_of_sub_eq_succ rfl

theorem readField_render {f : Field} (h : f.Fits) (rest : List UInt8) :
    readField (f.render ++ rest) = some (f, rest) := by
  have htype := wireType_lt f.value
  have hnumber := h.1
  have hmod : (f.number * 8 + f.value.wireType) % 8 = f.value.wireType := by omega
  have hdiv : (f.number * 8 + f.value.wireType) / 8 = f.number := by omega
  unfold readField Field.render
  rw [append_assoc, readVarint_varint (by omega)]
  show (readValue _ _).map _ = _
  rw [hmod, hdiv, readValue_render h.2]
  rfl

theorem render_ne_nil (f : Field) : f.render ≠ [] := by
  unfold Field.render
  intro hnil
  exact varint_ne_nil _ (append_eq_nil_iff.1 hnil).1

variable {fs : List Field}

/-- The fields of a message are read as they were written. -/
theorem readFields_renderAll (h : ∀ f ∈ fs, f.Fits) :
    readFields (renderAll fs) = some fs := by
  have hloop : ∀ rounds, (renderAll fs).length ≤ rounds →
      readFieldsLoop rounds (renderAll fs) = some fs := by
    induction fs with
    | nil =>
      intro rounds _
      cases rounds <;> rfl
    | cons f fs ih =>
      intro rounds hrounds
      have hcons : renderAll (f :: fs) = f.render ++ renderAll fs := flatMap_cons
      obtain ⟨b, bs, hbytes⟩ := exists_cons_of_ne_nil (render_ne_nil f)
      rw [hcons, hbytes, cons_append, length_cons, length_append] at hrounds
      cases rounds with
      | zero => omega
      | succ rounds =>
        have hread := readField_render (h f mem_cons_self) (renderAll fs)
        rw [hcons]
        rw [hbytes, cons_append] at hread ⊢
        rw [readFieldsLoop, hread]
        show (readFieldsLoop rounds (renderAll fs)).map _ = _
        rw [ih (fun g hg => h g (.tail _ hg)) rounds (by omega)]
        rfl
  exact hloop _ le_rfl

variable {n : Nat}

/-- What a field holds is no longer than the message. -/
theorem length_le_renderAll {b : List UInt8}
    (h : (⟨n, .bytes b⟩ : Field) ∈ fs) : b.length < (renderAll fs).length := by
  have hfield : b.length < (Field.render ⟨n, .bytes b⟩).length := by
    have hpos := length_pos_iff.2 (varint_ne_nil (n * 8 + 2))
    show b.length < (varint (n * 8 + 2) ++ (varint b.length ++ b)).length
    rw [length_append, length_append]
    omega
  refine lt_of_lt_of_le hfield ?_
  unfold renderAll
  rw [length_flatMap]
  exact single_le_sum (fun _ _ => Nat.zero_le _) _ (mem_map.2 ⟨_, h, rfl⟩)

/-- A field whose value fits, as long as what it holds is shorter than a length can say. -/
def Field.Small (f : Field) : Prop :=
  f.number < 2 ^ 29 ∧ ((∀ b, f.value ≠ .bytes b) → f.value.Fits)

/-- A message that is not too long is read as it was written. -/
theorem readFields_of_small (h : ∀ f ∈ fs, f.Small)
    (hlen : (renderAll fs).length < 2 ^ 64) : readFields (renderAll fs) = some fs := by
  apply readFields_renderAll
  intro f hf
  obtain ⟨hnumber, hvalue⟩ := h f hf
  refine ⟨hnumber, ?_⟩
  obtain ⟨n, value⟩ := f
  cases value with
  | bytes b => exact lt_trans (length_le_renderAll hf) hlen
  | varint v => exact hvalue (by simp)
  | fixed64 v => exact hvalue (by simp)
  | fixed32 v => exact hvalue (by simp)

/-! ## What a Reader Looks For -/

/-- The value of a length-delimited field. -/
@[simp] def bytesValue : WireValue → Option (List UInt8)
  | .bytes b => some b
  | _ => none

@[simp] def varintValue : WireValue → Option Nat
  | .varint v => some v
  | _ => none

@[simp] def fixed32Value : WireValue → Option Nat
  | .fixed32 v => some v
  | _ => none

/-- The values of a field, in order. -/
def valuesOf {β : Type} (kind : WireValue → Option β) (n : Nat) (fs : List Field) : List β :=
  fs.filterMap fun f => if f.number = n then kind f.value else none

variable {β : Type}

variable (kind : WireValue → Option β)

@[simp] theorem valuesOf_nil (n : Nat) :
    valuesOf kind n [] = [] := rfl

@[simp] theorem valuesOf_append (n : Nat) (fs gs : List Field) :
    valuesOf kind n (fs ++ gs) = valuesOf kind n fs ++ valuesOf kind n gs := filterMap_append

@[simp] theorem valuesOf_cons (n m : Nat) (v : WireValue)
    (fs : List Field) :
    valuesOf kind n (⟨m, v⟩ :: fs) = (if m = n then (kind v).toList else []) ++ valuesOf kind n fs := by
  unfold valuesOf
  rw [filterMap_cons]
  by_cases h : m = n
  · rw [if_pos h, if_pos h]
    cases kind v <;> rfl
  · rw [if_neg h, if_neg h]
    rfl

theorem mem_valuesOf_bytes (n : Nat) (b : List UInt8) (fs : List Field) :
    b ∈ valuesOf bytesValue n fs ↔ (⟨n, .bytes b⟩ : Field) ∈ fs := by
  unfold valuesOf
  rw [mem_filterMap]
  constructor
  · intro h
    obtain ⟨⟨m, value⟩, hf, hb⟩ := h
    split at hb
    · next hn =>
      have hm : m = n := hn
      cases value with
      | bytes c =>
        injection hb with hb
        rw [← hm, ← hb]
        exact hf
      | varint v => cases hb
      | fixed64 v => cases hb
      | fixed32 v => cases hb
    · cases hb
  · intro h
    exact ⟨_, h, if_pos rfl⟩

/-- Fields of one number. -/
theorem valuesOf_map {γ : Type} (n m : Nat) (f : γ → WireValue)
    (l : List γ) :
    valuesOf kind n (l.map fun x => (⟨m, f x⟩ : Field)) =
      if m = n then l.filterMap fun x => kind (f x) else [] := by
  unfold valuesOf
  rw [filterMap_map]
  by_cases h : m = n
  · rw [if_pos h]
    simp [h]
  · rw [if_neg h]
    simp [h]

/-- A text that may be left out. -/
def textOf (n : Nat) (fs : List Field) : List UInt8 := (valuesOf bytesValue n fs).getLastD []

/-- An integer that occurs once. -/
def integerOf (n : Nat) (fs : List Field) : Option Nat := (valuesOf varintValue n fs).getLast?

/-- A nested message; several occurrences are merged, as their concatenation is. -/
def messageOf (n : Nat) (fs : List Field) : Option (List UInt8) :=
  if valuesOf bytesValue n fs = [] then none else some (valuesOf bytesValue n fs).flatten

/-! ## Packed Lists -/

def readVarintsLoop : Nat → List UInt8 → Option (List Nat)
  | _, [] => some []
  | 0, _ :: _ => none
  | rounds + 1, b :: bs =>
    (readVarint (b :: bs)).bind fun (v, rest) => (readVarintsLoop rounds rest).map (v :: ·)

def readVarints : Option (List Nat) := readVarintsLoop bs.length bs

def readFixed32sLoop : Nat → List UInt8 → Option (List Nat)
  | _, [] => some []
  | 0, _ :: _ => none
  | rounds + 1, b :: bs =>
    if (b :: bs).length < 4 then none
    else (readFixed32sLoop rounds ((b :: bs).drop 4)).map (wordOf ((b :: bs).take 4) :: ·)

def readFixed32s : Option (List Nat) := readFixed32sLoop bs.length bs

variable {vs : List Nat}

theorem readVarints_flatMap (h : ∀ v ∈ vs, v < 2 ^ 64) :
    readVarints (vs.flatMap varint) = some vs := by
  have hloop : ∀ rounds, (vs.flatMap varint).length ≤ rounds →
      readVarintsLoop rounds (vs.flatMap varint) = some vs := by
    induction vs with
    | nil =>
      intro rounds _
      cases rounds <;> rfl
    | cons v vs ih =>
      intro rounds hrounds
      obtain ⟨b, bs, hbytes⟩ := exists_cons_of_ne_nil (varint_ne_nil v)
      rw [flatMap_cons, hbytes, cons_append, length_cons, length_append]
        at hrounds
      cases rounds with
      | zero => omega
      | succ rounds =>
        have hread := readVarint_varint (h v mem_cons_self) (vs.flatMap varint)
        rw [flatMap_cons]
        rw [hbytes, cons_append] at hread ⊢
        rw [readVarintsLoop, hread]
        show (readVarintsLoop rounds (vs.flatMap varint)).map _ = _
        rw [ih (fun w hw => h w (.tail _ hw)) rounds (by omega)]
        rfl
  exact hloop _ le_rfl

theorem readFixed32s_flatMap (h : ∀ v ∈ vs, v < 2 ^ 32) :
    readFixed32s (vs.flatMap (bytesOf 4)) = some vs := by
  have hloop : ∀ rounds, (vs.flatMap (bytesOf 4)).length ≤ rounds →
      readFixed32sLoop rounds (vs.flatMap (bytesOf 4)) = some vs := by
    induction vs with
    | nil =>
      intro rounds _
      cases rounds <;> rfl
    | cons v vs ih =>
      intro rounds hrounds
      rw [flatMap_cons, length_append, length_bytesOf] at hrounds
      have hcons : bytesOf 4 v = UInt8.ofNat v :: bytesOf 3 (v / 256) := rfl
      have hword : wordOf (bytesOf 4 v) = v := by
        rw [wordOf_bytesOf]
        exact Nat.mod_eq_of_lt (h v mem_cons_self)
      have htake : (bytesOf 4 v ++ vs.flatMap (bytesOf 4)).take 4 = bytesOf 4 v :=
        take_left' (length_bytesOf 4 v)
      have hdrop : (bytesOf 4 v ++ vs.flatMap (bytesOf 4)).drop 4 = vs.flatMap (bytesOf 4) :=
        drop_left' (length_bytesOf 4 v)
      have hlen : ¬ (bytesOf 4 v ++ vs.flatMap (bytesOf 4)).length < 4 := by simp
      cases rounds with
      | zero => omega
      | succ rounds =>
        rw [flatMap_cons]
        rw [hcons, cons_append] at htake hdrop hlen ⊢
        rw [readFixed32sLoop, if_neg hlen, htake, hdrop, ← hcons, hword,
          ih (fun w hw => h w (.tail _ hw)) rounds (by omega)]
        rfl
  exact hloop _ le_rfl

/-- The elements of a repeated field, each on its own or packed. -/
def repeatedOf (kind : WireValue → Option Nat) (unpack : List UInt8 → Option (List Nat)) (n : Nat)
    (fs : List Field) : Option (List Nat) :=
  match fs with
  | [] => some []
  | f :: fs => do
    let rest ← repeatedOf kind unpack n fs
    if f.number = n then
      match kind f.value, bytesValue f.value with
      | some v, _ => some (v :: rest)
      | none, some b => (unpack b).map (· ++ rest)
      | none, none => some rest
    else some rest

theorem repeatedOf_skip {kind : WireValue → Option Nat} {unpack : List UInt8 → Option (List Nat)}
    (h : ∀ f ∈ fs, f.number ≠ n) :
    repeatedOf kind unpack n fs = some [] := by
  induction fs with
  | nil => rfl
  | cons f fs ih =>
    rw [repeatedOf, ih fun g hg => h g (.tail _ hg)]
    show (if f.number = n then _ else some []) = _
    rw [if_neg (h f mem_cons_self)]

/-- A packed list among fields of other numbers. -/
theorem repeatedOf_packed {kind : WireValue → Option Nat} {unpack : List UInt8 → Option (List Nat)}
    {pre post : List Field} {b : List UInt8}
    (hkind : kind (.bytes b) = none) (hunpack : unpack b = some vs)
    (hpre : ∀ f ∈ pre, f.number ≠ n) (hpost : ∀ f ∈ post, f.number ≠ n) :
    repeatedOf kind unpack n (pre ++ ⟨n, .bytes b⟩ :: post) = some vs := by
  induction pre with
  | nil =>
    rw [nil_append, repeatedOf, repeatedOf_skip hpost]
    show (if n = n then _ else some []) = _
    rw [if_pos rfl]
    simp only [hkind, bytesValue, hunpack, Option.map_some, append_nil]
  | cons f pre ih =>
    rw [cons_append, repeatedOf, ih fun g hg => hpre g (.tail _ hg)]
    show (if f.number = n then _ else some vs) = _
    rw [if_neg (hpre f mem_cons_self)]

end Camel.Lib.Wire
