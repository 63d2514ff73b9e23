import Mathlib
import Camel.Lib.Radix
import Camel.Lib.Scan
import Camel.Tensor.Regions

/-! # NPY Files

    A file is a magic word, a version, a header of the given length and the elements. The
    header is a dict in text form; it is written with the three keys of the format, and it
    is read by looking for them.
-/

namespace Camel.Tensor.Npy

open Lib Extents

/-! ## Element Types -/

/-- An element type: those the format has, and any other with its spelling, its size, and
    whether a tensor holds it. -/
inductive ElementType where
  | float32 | float64 | int32 | int64 | bool
  | other (spelling : String) (size : Nat) (supported : Bool)
  deriving DecidableEq

def elementSize : ElementType → Nat
  | .float32 => 4
  | .float64 => 8
  | .int32 => 4
  | .int64 => 8
  | .bool => 1
  | .other _ size _ => size

def isSupportedTensorScalar : ElementType → Bool
  | .other _ _ supported => supported
  | _ => true

def elementTypeSpelling : ElementType → String
  | .float32 => "f32"
  | .float64 => "f64"
  | .int32 => "i32"
  | .int64 => "i64"
  | .bool => "bool"
  | .other spelling _ _ => spelling

/-- What is thrown: a refusal, or a number that does not fit its type. -/
inductive Failure where
  | refused (refusal : Refusal)
  | outOfRange (text : String)
  deriving DecidableEq

def fail (path what : String) : Failure := .refused (.argument ("npy '" ++ path ++ "': " ++ what))

def failIf (c : Prop) [Decidable c] (failure : Failure) : Except Failure Unit :=
  if c then .error failure else .ok ()

/-! ## Payloads -/

def checkedBytesFrom (size : Nat) : List Int64 → Except Failure Nat
  | [] => .ok size
  | extent :: shape =>
    if (2 ^ 64 - 1) / size < extent.toInt.toNat then
      .error (.refused (.shape "binary tensor byte count overflows the address space"))
    else checkedBytesFrom (size * extent.toInt.toNat) shape

def checkedBytes (shape : List Int64) (width : Nat) : Except Failure Nat := do
  failIf (2 ^ 32 - 1 < shape.length)
    (.refused (.argument "tensor rank exceeds the storage limit"))
  failIf (∃ extent ∈ shape, extent < 0)
    (.refused (.shape "binary tensor shape cannot contain negative extents"))
  if 0 ∈ shape then .ok 0 else checkedBytesFrom width shape

def tensorPayloadSize (dtype : ElementType) (shape : List Int64) : Except Failure Nat :=
  checkedBytes shape (elementSize dtype)

/-! ## Headers -/

structure NpyHeader where
  byteOrder : UInt8
  kind : UInt8
  itemSize : Nat
  fortran : Bool
  shape : List Int64

/-- `std::stoul`: the number, modulo 2^64 behind a minus, and the bytes it took. -/
def stoul (text : List UInt8) : Except Failure (Nat × Nat) :=
  match scan text with
  | none => .error (.refused (.argument "stoul"))
  | some s =>
    if 2 ^ 64 ≤ s.magnitude then .error (.outOfRange "stoul")
    else .ok (if s.negative then (2 ^ 64 - s.magnitude) % 2 ^ 64 else s.magnitude, s.used)

/-- `std::stoll` -/
def stoll (text : List UInt8) : Except Failure (Int64 × Nat) :=
  match scan text with
  | none => .error (.refused (.argument "stoll"))
  | some s =>
    if (if s.negative then 2 ^ 63 < s.magnitude else 2 ^ 63 ≤ s.magnitude) then
      .error (.outOfRange "stoll")
    else .ok (if s.negative then Int64.ofInt (-s.magnitude) else Int64.ofNat s.magnitude, s.used)

/-- The text from the value of a key on. -/
def field (header : List UInt8) (key path : String) : Except Failure (List UInt8) :=
  match find (ascii ("'" ++ key ++ "'")) header with
  | none => .error (fail path ("header is missing '" ++ key ++ "'"))
  | some start =>
    match find (ascii ":") (header.drop start) with
    | none => .error (fail path "malformed header")
    | some colon => .ok ((header.drop (start + colon + 1)).dropWhile (· = 32))

/-- The loop over the extents, which takes a byte at least in each round. -/
def shapeLoop : Nat → List UInt8 → Except Failure (List Int64)
  | 0, _ => .ok []
  | rounds + 1, text =>
    let text := text.dropWhile fun c => c = 32 ∨ c = 44
    if text = [] then .ok []
    else do
      let (extent, used) ← stoll text
      let shape ← shapeLoop rounds (text.drop used)
      .ok (extent :: shape)

/-- The text between the parentheses; the length wraps when they stand the other way round. -/
def between (text : List UInt8) (start stop : Nat) : List UInt8 :=
  if start < stop then (text.drop (start + 1)).take (stop - start - 1) else text.drop (start + 1)

def parseHeader (header : List UInt8) (path : String) : Except Failure NpyHeader := do
  let descr ← field header "descr" path
  failIf (descr.length < 5 ∨ descr.getD 0 0 ≠ 39) (fail path "unsupported descr")
  let (itemSize, sizeEnd) ← stoul (descr.drop 3)
  failIf (descr.length ≤ 3 + sizeEnd ∨ descr.getD (3 + sizeEnd) 0 ≠ 39)
    (fail path "malformed dtype size")
  let order ← field header "fortran_order" path
  let word := if (ascii "True").isPrefixOf order then 4
    else if (ascii "False").isPrefixOf order then 5 else 0
  failIf (word = 0) (fail path "malformed Fortran order flag")
  let orderEnd := word + ((order.drop word).takeWhile (· = 32)).length
  failIf (orderEnd = order.length ∨ (order.getD orderEnd 0 ≠ 44 ∧ order.getD orderEnd 0 ≠ 125))
    (fail path "malformed Fortran order flag")
  let shapeText ← field header "shape" path
  match find (ascii "(") shapeText, find (ascii ")") shapeText with
  | some start, some stop =>
    let inner := between shapeText start stop
    let shape ← shapeLoop inner.length inner
    .ok ⟨descr.getD 1 0, descr.getD 2 0, itemSize, word = 4, shape⟩
  | _, _ => .error (fail path "malformed shape")

/-! ## Writing -/

def magic : List UInt8 := 0x93 :: ascii "NUMPY"

/-- `std::to_string` -/
def toText (extent : Int64) : List UInt8 :=
  if extent < 0 then 45 :: decimal (-extent.toInt).toNat else decimal extent.toInt.toNat

def descrOf : ElementType → Except Failure (List UInt8)
  | .float32 => .ok (ascii "<f4")
  | .float64 => .ok (ascii "<f8")
  | .int32 => .ok (ascii "<i4")
  | .int64 => .ok (ascii "<i8")
  | .bool => .ok (ascii "|b1")
  | .other _ _ _ => .error (.refused (.argument "unsupported NPY storage dtype"))

/-- The extents in parentheses, the only one with a comma behind it. -/
def shapeText (dims : List Int64) : List UInt8 :=
  ascii "(" ++ (dims.zipIdx.flatMap fun (extent, i) => toText extent ++
    if dims.length = 1 then ascii "," else if i + 1 < dims.length then ascii ", " else []) ++
    ascii ")"

/-- The header, padded so that the elements begin at a multiple of 64. -/
def headerText (descr : List UInt8) (dims : List Int64) : List UInt8 :=
  let header := ascii "\x7b'descr': '" ++ descr ++ ascii "', 'fortran_order': False, 'shape': " ++
    shapeText dims ++ ascii ", \x7d"
  let unpadded := 6 + 2 + 2 + header.length + 1
  header ++ List.replicate ((64 - unpadded % 64) % 64) 32 ++ [10]

def encodeNpy (dtype : ElementType) (dims : List Int64) (payload : List UInt8) :
    Except Failure (List UInt8) := do
  let size ← tensorPayloadSize dtype dims
  failIf (payload.length ≠ size)
    (.refused (.shape "NPY payload length does not match its storage dtype and shape"))
  let descr ← descrOf dtype
  let header := headerText descr dims
  failIf (65535 < header.length) (.refused (.argument "NPY v1 header exceeds 65535 bytes"))
  .ok (magic ++ [1, 0] ++ bytesOf 2 header.length ++ header ++ payload)

/-! ## Reading -/

/-- What an exact file holds. -/
structure NpyStorageView where
  dtype : ElementType
  shape : List Int64
  payload : List UInt8
  bigEndian : Bool

/-- The element type of a kind and a size. -/
def storageType (kind : UInt8) (itemSize : Nat) : Option ElementType :=
  if kind = 102 ∧ itemSize = 4 then some .float32
  else if kind = 102 ∧ itemSize = 8 then some .float64
  else if kind = 105 ∧ itemSize = 4 then some .int32
  else if kind = 105 ∧ itemSize = 8 then some .int64
  else if kind = 98 ∧ itemSize = 1 then some .bool
  else none

/-- The element types of a checkpoint. -/
def checkpointType (kind : UInt8) (itemSize : Nat) : Option ElementType :=
  if kind = 102 ∧ itemSize = 4 then some .float32
  else if kind = 105 ∧ itemSize = 8 then some .int64
  else if kind = 98 ∧ itemSize = 1 then some .bool
  else none

def inspectNpyExact (bytes : List UInt8) : Except Failure NpyStorageView := do
  let source := "<checkpoint>"
  failIf (bytes.length < 10 ∨ bytes.take 6 ≠ magic) (fail source "invalid magic")
  let major := bytes.getD 6 0
  failIf (bytes.getD 7 0 ≠ 0 ∨ major < 1 ∨ 3 < major) (fail source "unsupported format version")
  let lengthSize := if major = 1 then 2 else 4
  failIf (bytes.length < 8 + lengthSize) (fail source "truncated header length")
  let headerSize := wordOf ((bytes.drop 8).take lengthSize)
  failIf (1024 * 1024 < headerSize ∨ bytes.length - 8 - lengthSize < headerSize)
    (fail source "invalid header length")
  let parsed ← parseHeader ((bytes.drop (8 + lengthSize)).take headerSize) source
  failIf parsed.fortran (fail source "Fortran order is not a checkpoint storage layout")
  match checkpointType parsed.kind parsed.itemSize with
  | none => .error (fail source "checkpoint requires an exact f32/int64/bool storage dtype")
  | some dtype =>
    failIf (parsed.byteOrder ≠ 60 ∧ parsed.byteOrder ≠ 62 ∧ parsed.byteOrder ≠ 61 ∧
      ¬ (parsed.byteOrder = 124 ∧ parsed.itemSize = 1)) (fail source "invalid byte order")
    let payload := bytes.drop (8 + lengthSize + headerSize)
    let size ← tensorPayloadSize dtype parsed.shape
    failIf (payload.length ≠ size) (fail source "payload length differs from shape")
    failIf (dtype = .bool ∧ ¬ ∀ b ∈ payload, b ≤ 1)
      (fail source "bool payload must contain only zero or one")
    .ok ⟨dtype, parsed.shape, payload, parsed.byteOrder = 62⟩

/-- The bytes of an element. -/
def readElement (raw : List UInt8) (swap : Bool) : List UInt8 := if swap then raw.reverse else raw

/-- What a declared element type says about a file's. -/
def checkDeclared (path : String) (dtype : ElementType) : Option ElementType → Except Failure Unit
  | none => .ok ()
  | some declared => do
    failIf (isSupportedTensorScalar declared = false) (fail path ("the declared element type '" ++
      elementTypeSpelling declared ++ "' is not one a .npy file holds"))
    failIf (dtype ≠ declared) (fail path ("the file holds " ++ elementTypeSpelling dtype ++
      " and the program declares " ++ elementTypeSpelling declared))

/-- `loadNpy`, of a file that holds `bytes` or cannot be opened. A read that comes up short
    fails the stream, and the check behind the header finds it. -/
def loadNpy (path : String) (file : Option (List UInt8)) (declaredElement : Option ElementType) :
    Except Failure (ElementType × Tensor (List UInt8)) := do
  match file with
  | none => .error (fail path "cannot open file")
  | some bytes =>
    failIf (bytes.take 6 ≠ magic) (fail path "not a .npy file")
    let version := bytes.getD 6 0
    failIf (version ≠ 1 ∧ version ≠ 2 ∧ version ≠ 3)
      (fail path ("unsupported format version " ++ toString version.toNat))
    let lengthSize := if version = 1 then 2 else 4
    let headerLength := wordOf ((bytes.drop 8).take lengthSize)
    failIf (bytes.length < 8 + lengthSize + headerLength) (fail path "truncated header")
    let h ← parseHeader ((bytes.drop (8 + lengthSize)).take headerLength) path
    failIf h.fortran (fail path "Fortran-ordered arrays are not supported")
    let fileLittle := h.byteOrder = 60 ∨ h.byteOrder = 124 ∨ h.byteOrder = 61
    let swap := ¬ fileLittle ∧ 1 < h.itemSize
    match storageType h.kind h.itemSize with
    | none => .error (fail path ("unsupported element type '" ++
        (Char.ofNat h.kind.toNat).toString ++ toString h.itemSize ++ "'"))
    | some dtype =>
      checkDeclared path dtype declaredElement
      let tensor ← (allocate h.shape []).mapError Failure.refused
      let rawSize := tensor.numel * h.itemSize % 2 ^ 64
      let raw := (bytes.drop (8 + lengthSize + headerLength)).take rawSize
      failIf (raw.length ≠ rawSize) (fail path "truncated data")
      .ok (dtype, tensor.fill ((List.range tensor.numel).map fun i =>
        (i, readElement ((raw.drop (i * h.itemSize)).take h.itemSize) swap)))

end Camel.Tensor.Npy

/-! # Headers Are Read as They Were Written

    The keys of a written header are found at their places, whatever follows them, and the
    extents are read one by one behind their separators.
-/

namespace Camel.Tensor.Npy

open Lib Extents List

/-! ## Checks -/

variable {c : Prop}

theorem failIf_ok_iff [Decidable c] {failure : Failure} {u : Unit} :
    failIf c failure = .ok u ↔ ¬ c := by
  unfold failIf
  by_cases hc : c
  · simp [hc]
  · simp [hc]

theorem failIf_neg [Decidable c] (failure : Failure) (h : ¬ c) :
    failIf c failure = .ok () := failIf_ok_iff.2 h

/-- What is checked on the way is so. -/
theorem of_failIf_bind [Decidable c] {failure : Failure} {γ : Type}
    {f : Unit → Except Failure γ} {r : γ} (h : (failIf c failure >>= f) = .ok r) :
    ¬ c ∧ f () = .ok r := by
  obtain ⟨u, hu, h⟩ := ok_of_bind h
  exact ⟨failIf_ok_iff.1 hu, h⟩

/-! ## Payload Sizes -/

theorem checkedBytesFrom_ok {shape : List Int64} {size n : Nat} (hsize : 0 < size)
    (hfits : size < 2 ^ 64) (hpos : ∀ extent ∈ shape, 0 < extent.toInt)
    (h : checkedBytesFrom size shape = .ok n) : n = size * numel shape ∧ n < 2 ^ 64 := by
  induction shape generalizing size with
  | nil =>
    injection h with h
    rw [numel_nil, mul_one, ← h]
    exact ⟨rfl, hfits⟩
  | cons extent shape ih =>
    have he := hpos extent mem_cons_self
    unfold checkedBytesFrom at h
    split at h
    · cases h
    · next hle =>
      have hle : extent.toInt.toNat ≤ (2 ^ 64 - 1) / size := le_of_not_gt hle
      rw [Nat.le_div_iff_mul_le hsize, mul_comm] at hle
      have hmul : 0 < size * extent.toInt.toNat := mul_pos hsize (by omega)
      obtain ⟨hn, hlt⟩ := ih hmul (by omega) (fun e hmem => hpos e (.tail _ hmem)) h
      rw [hn, numel_cons, ← mul_assoc]
      exact ⟨rfl, hn ▸ hlt⟩

/-- A payload's size is exact, and no extent is below zero. -/
theorem tensorPayloadSize_ok {dtype : ElementType} {shape : List Int64} {n : Nat}
    (hwidth : 0 < elementSize dtype ∧ elementSize dtype < 2 ^ 64)
    (h : tensorPayloadSize dtype shape = .ok n) :
    NonNeg shape ∧ n = numel shape * elementSize dtype ∧ n < 2 ^ 64 := by
  unfold tensorPayloadSize checkedBytes at h
  obtain ⟨-, h⟩ := of_failIf_bind h
  obtain ⟨hneg, h⟩ := of_failIf_bind h
  have hnonneg : NonNeg shape := by
    intro e he
    exact not_lt_zero_iff.1 fun hlt => hneg ⟨e, he, hlt⟩
  refine ⟨hnonneg, ?_⟩
  split at h
  · next hzero =>
    injection h with h
    have hprod : numel shape = 0 := by
      unfold numel
      rw [prod_eq_zero_iff, mem_map]
      exact ⟨0, hzero, rfl⟩
    rw [hprod, ← h, zero_mul]
    exact ⟨rfl, by decide⟩
  · next hzero =>
    have hpos : ∀ extent ∈ shape, 0 < extent.toInt := by
      intro e he
      have hge := hnonneg e he
      rcases lt_or_eq_of_le hge with hlt | heq
      · exact hlt
      · have he0 : e = 0 := Int64.toInt_inj.1 heq.symm
        exact absurd (he0 ▸ he) hzero
    obtain ⟨hn, hlt⟩ := checkedBytesFrom_ok hwidth.1 hwidth.2 hpos h
    exact ⟨by rw [hn, mul_comm], hlt⟩

/-! ## Extents -/

variable {extent : Int64}

theorem toText_of_nonneg (h : 0 ≤ extent.toInt) :
    toText extent = decimal extent.toInt.toNat := if_neg (not_lt_zero_iff.2 h)

/-- An extent is read up to where it ends. -/
theorem stoll_toText (h : 0 ≤ extent.toInt) {rest : List UInt8}
    (hrest : ∀ c ∈ rest.head?, isDigit c = false) :
    stoll (toText extent ++ rest) = .ok (extent, (toText extent).length) := by
  have hlt := extent.toInt_lt
  have hfits : ¬ (2 : Nat) ^ 63 ≤ extent.toInt.toNat := by omega
  have hback : Int64.ofNat extent.toInt.toNat = extent := by
    apply Int64.toInt_inj.1
    rw [Int64.toInt_ofNat_of_lt (by omega)]
    omega
  rw [toText_of_nonneg h]
  unfold stoll
  rw [scan_decimal _ hrest]
  simp only [Bool.false_eq_true, if_false, if_neg hfits, hback]

/-- The extents from the `i`-th on, of `count`. -/
def extentsFrom (count i : Nat) (dims : List Int64) : List UInt8 :=
  (dims.zipIdx i).flatMap fun (extent, i) => toText extent ++
    if count = 1 then ascii "," else if i + 1 < count then ascii ", " else []

theorem shapeText_eq (dims : List Int64) :
    shapeText dims = 40 :: (extentsFrom dims.length 0 dims ++ [41]) := rfl

theorem extentsFrom_cons (count i : Nat) (extent : Int64) (dims : List Int64) :
    extentsFrom count i (extent :: dims) = toText extent ++
      ((if count = 1 then ascii "," else if i + 1 < count then ascii ", " else []) ++
        extentsFrom count (i + 1) dims) := by
  unfold extentsFrom
  rw [zipIdx_cons, flatMap_cons, append_assoc]

/-- What stands between extents. -/
def IsSeparator (c : UInt8) : Prop := c = 32 ∨ c = 44

instance (c : UInt8) : Decidable (IsSeparator c) := inferInstanceAs (Decidable (_ ∨ _))

theorem separator_spec (count i : Nat) :
    ∀ c ∈ (if count = 1 then ascii "," else if i + 1 < count then ascii ", " else []),
      IsSeparator c := by
  have hcomma : ascii "," = [44] := rfl
  have hblank : ascii ", " = [44, 32] := rfl
  split
  · rw [hcomma]
    simp [IsSeparator]
  · split
    · rw [hblank]
      simp [IsSeparator]
    · intro c hc
      cases hc

theorem dropWhile_separators {seps text : List UInt8} (h : ∀ c ∈ seps, IsSeparator c)
    (htext : ∀ c ∈ text.head?, ¬ IsSeparator c) :
    (seps ++ text).dropWhile (fun c => c = 32 ∨ c = 44) = text := by
  induction seps with
  | nil =>
    cases text with
    | nil => rfl
    | cons c text =>
      have hc : ¬ (c = 32 ∨ c = 44) := htext c rfl
      rw [nil_append, dropWhile_cons, if_neg (by simpa using hc)]
  | cons c seps ih =>
    have hc : c = 32 ∨ c = 44 := h c mem_cons_self
    rw [cons_append, dropWhile_cons, if_pos (by simpa using hc)]
    exact ih fun d hd => h d (.tail _ hd)

theorem toText_ne_nil (h : 0 ≤ extent.toInt) : toText extent ≠ [] := by
  rw [toText_of_nonneg h]
  exact decimal_ne_nil _

theorem isDigit_of_head_toText (h : 0 ≤ extent.toInt) {rest : List UInt8}
    {c : UInt8} (hc : c ∈ (toText extent ++ rest).head?) : isDigit c = true := by
  obtain ⟨d, text, htext⟩ := exists_cons_of_ne_nil (toText_ne_nil h)
  rw [htext, cons_append, head?_cons, Option.mem_some_iff] at hc
  rw [toText_of_nonneg h] at htext
  exact isDigit_of_mem_decimal (n := extent.toInt.toNat) (by rw [htext, hc]; exact mem_cons_self)

theorem not_digit_of_separator {c : UInt8} (h : IsSeparator c) : isDigit c = false := by
  rcases h with rfl | rfl
  · decide
  · decide

variable {count i : Nat} {dims : List Int64}

/-- The loop reads the extents that were written, one a round. -/
theorem shapeLoop_extents {rounds : Nat} {seps : List UInt8}
    (hnonneg : NonNeg dims) (hseps : ∀ c ∈ seps, IsSeparator c) (hrounds : dims.length ≤ rounds)
    (hcount : i + dims.length = count) :
    shapeLoop rounds (seps ++ extentsFrom count i dims) = .ok dims := by
  induction dims generalizing i rounds seps with
  | nil =>
    cases rounds with
    | zero => rfl
    | succ rounds =>
      have hend : ∀ c ∈ ([] : List UInt8).head?, ¬ IsSeparator c := by simp
      have hempty := dropWhile_separators hseps hend
      unfold shapeLoop
      show (if (seps ++ []).dropWhile _ = [] then _ else _) = _
      rw [hempty, if_pos rfl]
  | cons extent dims ih =>
    cases rounds with
    | zero => cases hrounds
    | succ rounds =>
      have hextent : 0 ≤ extent.toInt := hnonneg extent mem_cons_self
      generalize hsep : (if count = 1 then ascii "," else if i + 1 < count then ascii ", " else []) =
        sep
      have hsepAll : ∀ c ∈ sep, IsSeparator c := hsep ▸ separator_spec count i
      have hhead : ∀ c ∈ (toText extent ++ (sep ++ extentsFrom count (i + 1) dims)).head?,
          ¬ IsSeparator c := by
        intro c hc hbad
        have hdigit := isDigit_of_head_toText hextent hc
        rw [not_digit_of_separator hbad] at hdigit
        cases hdigit
      -- behind the extent comes a separator, or nothing
      have hnext : ∀ c ∈ (sep ++ extentsFrom count (i + 1) dims).head?, isDigit c = false := by
        intro c hc
        cases sep with
        | cons d sep =>
          rw [cons_append, head?_cons, Option.mem_some_iff] at hc
          exact not_digit_of_separator (hc ▸ hsepAll d mem_cons_self)
        | nil =>
          have hlast : dims = [] := by
            by_contra hne
            have hpos := length_pos_iff.2 hne
            rw [length_cons] at hcount
            split at hsep
            · cases hsep
            · split at hsep
              · cases hsep
              · omega
          rw [hlast] at hc
          cases hc
      rw [extentsFrom_cons, hsep]
      unfold shapeLoop
      show (if (seps ++ _).dropWhile _ = [] then _ else _) = _
      rw [dropWhile_separators hseps hhead, if_neg (by simp [toText_ne_nil hextent])]
      rw [stoll_toText hextent hnext]
      simp only [bind, Except.bind, drop_left]
      rw [ih (fun e he => hnonneg e (.tail _ he)) hsepAll
        (Nat.le_of_succ_le_succ hrounds) (by rw [← hcount, length_cons]; omega)]

/-- Every extent takes a byte at least. -/
theorem length_le_extentsFrom (hnonneg : NonNeg dims) :
    dims.length ≤ (extentsFrom count i dims).length := by
  induction dims generalizing i with
  | nil => exact Nat.zero_le _
  | cons extent dims ih =>
    have hpos := length_pos_iff.2 (toText_ne_nil (hnonneg extent mem_cons_self))
    have hrest := ih (i := i + 1) fun e he => hnonneg e (.tail _ he)
    rw [extentsFrom_cons, length_append, length_append, length_cons]
    omega

/-- No extent and no separator is a parenthesis. -/
theorem close_not_mem_extentsFrom (hnonneg : NonNeg dims) :
    (41 : UInt8) ∉ extentsFrom count i dims := by
  induction dims generalizing i with
  | nil => exact not_mem_nil
  | cons extent dims ih =>
    have hextent := hnonneg extent mem_cons_self
    rw [extentsFrom_cons, mem_append, mem_append]
    intro hmem
    rcases hmem with hmem | hmem | hmem
    · rw [toText_of_nonneg hextent] at hmem
      exact absurd (isDigit_of_mem_decimal hmem) (by decide)
    · exact absurd (separator_spec count i 41 hmem) (by decide)
    · exact ih (fun e he => hnonneg e (.tail _ he)) hmem

end Camel.Tensor.Npy
