import Camel.Array.Storage
import Camel.Lib.Upholds
import Camel.Onnx.Reader

/-! # Models Are Read as They Were Written

    The fields of every message are read one by one, and what a message nests is shorter
    than the message, so graphs nested to any depth are read back. The size check is made in
    64 bits, so it only tells what is left of the product there.
-/

namespace Camel.Onnx

open Lib Lib.Wire Extents List

/-! ## Small Fields -/

variable {n : Nat}

theorem small_bytes (h : n < 2 ^ 29) (b : Bytes) : Field.Small ⟨n, .bytes b⟩ :=
  ⟨h, fun hne => absurd rfl (hne b)⟩

theorem small_int (h : n < 2 ^ 29) (v : Int64) :
    Field.Small ⟨n, .varint v.toUInt64.toNat⟩ := ⟨h, fun _ => v.toUInt64.toNat_lt⟩

theorem small_float (h : n < 2 ^ 29) (bits : UInt32) :
    Field.Small ⟨n, .fixed32 bits.toNat⟩ := ⟨h, fun _ => bits.toNat_lt⟩

/-! ## Texts, Integers and Packed Lists -/

variable {fs : List Field}

theorem textOf_eq {s : Bytes} (h : valuesOf bytesValue n fs = [s]) :
    textOf n fs = s := by
  unfold textOf
  rw [h]
  rfl

theorem textOf_opt {s : Bytes}
    (h : valuesOf bytesValue n fs = if s = [] then [] else [s]) : textOf n fs = s := by
  unfold textOf
  rw [h]
  split
  · next hs => rw [hs]; rfl
  · rfl

theorem intAt_eq {v : Int64}
    (h : valuesOf varintValue n fs = [v.toUInt64.toNat]) : intAt n fs = v := by
  unfold intAt integerOf
  rw [h]
  exact intOf_toNat v

variable {b : Bytes}

theorem messageOf_eq (h : valuesOf bytesValue n fs = [b]) :
    messageOf n fs = some b := by
  unfold messageOf
  rw [h]
  simp

/-- A packed list among other fields. -/
theorem intsAt_packed {pre post : List Field} (values : List Int64)
    (hpre : ∀ f ∈ pre, f.number ≠ n) (hpost : ∀ f ∈ post, f.number ≠ n) :
    intsAt n (pre ++ packedField n values
      ((values.map fun v => v.toUInt64.toNat).flatMap varint) ++ post) = some values := by
  have hback : (values.map fun v => v.toUInt64.toNat).map intOf = values := by
    rw [map_map]
    conv_rhs => rw [← map_id values]
    exact map_congr_left fun v _ => intOf_toNat v
  unfold intsAt packedField
  by_cases hempty : values = []
  · rw [if_pos hempty, append_nil, repeatedOf_skip, hempty]
    · rfl
    · exact forall_mem_append.2 ⟨hpre, hpost⟩
  · have hunpack : readVarints ((values.map fun v => v.toUInt64.toNat).flatMap varint) =
        some (values.map fun v => v.toUInt64.toNat) := by
      apply readVarints_flatMap
      intro v hv
      obtain ⟨w, -, rfl⟩ := mem_map.1 hv
      exact w.toUInt64.toNat_lt
    rw [if_neg hempty, append_assoc, singleton_append,
      repeatedOf_packed rfl hunpack hpre hpost, Option.map_some, hback]

theorem floatsAt_packed {pre post : List Field} (values : List UInt32)
    (hpre : ∀ f ∈ pre, f.number ≠ n) (hpost : ∀ f ∈ post, f.number ≠ n) :
    floatsAt n (pre ++ packedField n values
      ((values.map UInt32.toNat).flatMap (bytesOf 4)) ++ post) = some values := by
  have hback : (values.map UInt32.toNat).map UInt32.ofNat = values := by
    rw [map_map]
    conv_rhs => rw [← map_id values]
    exact map_congr_left fun v _ => UInt32.ofNat_toNat
  unfold floatsAt packedField
  by_cases hempty : values = []
  · rw [if_pos hempty, append_nil, repeatedOf_skip, hempty]
    · rfl
    · exact forall_mem_append.2 ⟨hpre, hpost⟩
  · have hunpack : readFixed32s ((values.map UInt32.toNat).flatMap (bytesOf 4)) =
        some (values.map UInt32.toNat) := by
      apply readFixed32s_flatMap
      intro v hv
      obtain ⟨w, -, rfl⟩ := mem_map.1 hv
      exact w.toNat_lt
    rw [if_neg hempty, append_assoc, singleton_append,
      repeatedOf_packed rfl hunpack hpre hpost, Option.map_some, hback]

/-! ## Tensors -/

def tensorFields (t : TensorValue) : List Field :=
  packedField 1 t.dims ((t.dims.map fun v => v.toUInt64.toNat).flatMap varint) ++
    ([⟨2, .varint t.type.code.toUInt64.toNat⟩] ++ optField 8 t.name ++ [⟨9, .bytes t.raw⟩])

/-- The number of bytes the extents ask for. -/
def TensorValue.exactBytes (t : TensorValue) : Nat := numel t.dims * (elemSize t.type).toNat

/-- What the size check leaves of a tensor. -/
def Checked (t : TensorValue) : Prop := NonNeg t.dims ∧ t.raw.length = t.exactBytes % 2 ^ 64

theorem countFrom_ok {name : Bytes} {dims : List Int64} {count n : Int64}
    (h : countFrom name count dims = .ok n) :
    NonNeg dims ∧ n.toUInt64.toNat = count.toUInt64.toNat * numel dims % 2 ^ 64 := by
  induction dims generalizing count with
  | nil =>
    injection h with h
    rw [← h, numel_nil, mul_one, Nat.mod_eq_of_lt count.toUInt64.toNat_lt]
    exact ⟨by simp [NonNeg], rfl⟩
  | cons d dims ih =>
    unfold countFrom at h
    split at h
    · cases h
    · next hneg =>
      obtain ⟨hnonneg, hn⟩ := ih h
      have hd : 0 ≤ d.toInt := not_lt_zero_iff.1 hneg
      have hmul : (count * d).toUInt64.toNat = count.toUInt64.toNat * d.toInt.toNat % 2 ^ 64 := by
        rw [Int64.toUInt64_mul, UInt64.toNat_mul, toNat_toUInt64 hneg]
      constructor
      · intro e he
        rcases mem_cons.1 he with rfl | he
        · exact hd
        · exact hnonneg e he
      · rw [hn, hmul, numel_cons, Nat.mod_mul_mod, mul_assoc]

theorem encodeTensor_ok {t : TensorValue} (h : encodeTensor t = .ok b) :
    b = renderAll (tensorFields t) ∧ Checked t := by
  obtain ⟨count, hcount, h⟩ := ok_of_bind h
  simp only at h
  split at h
  · cases h
  · next hsize =>
    injection h with h
    obtain ⟨hnonneg, hn⟩ := countFrom_ok hcount
    have hone : (1 : Int64).toUInt64.toNat = 1 := by decide
    constructor
    · rw [← h, packedInts_eq, intField_eq, optStringField_eq, bytesField_eq]
      unfold tensorFields
      simp only [renderAll_append, append_assoc]
    · refine ⟨hnonneg, ?_⟩
      push Not at hsize
      rw [← hsize, UInt64.toNat_mul, hn, hone, one_mul, Nat.mod_mul_mod]
      rfl

theorem decodeTensor_fields {t : TensorValue} (hlen : (renderAll (tensorFields t)).length < 2 ^ 64) :
    decodeTensor (renderAll (tensorFields t)) = some t := by
  have hsmall : ∀ f ∈ tensorFields t, f.Small := by
    unfold tensorFields
    simp only [forall_mem_append, forall_mem_singleton]
    exact ⟨forall_packedField (small_bytes (by decide)) _ _, ⟨small_int (by decide) _,
      forall_optField (small_bytes (by decide)) _⟩, small_bytes (by decide) _⟩
  have hdims : intsAt 1 (tensorFields t) = some t.dims := by
    have hpre : ∀ f ∈ ([] : List Field), f.number ≠ 1 := by simp
    apply intsAt_packed t.dims hpre
    · simp only [forall_mem_append, forall_mem_singleton]
      exact ⟨⟨by simp, forall_optField (by simp) _⟩, by simp⟩
  have htype : intAt 2 (tensorFields t) = t.type.code := by
    apply intAt_eq
    simp [tensorFields]
  have hname : textOf 8 (tensorFields t) = t.name := by
    apply textOf_opt
    simp [tensorFields]
  have hraw : textOf 9 (tensorFields t) = t.raw := by
    apply textOf_eq
    simp [tensorFields]
  unfold decodeTensor
  rw [readFields_of_small hsmall hlen]
  simp only [Option.bind_eq_bind, Option.bind_some, hdims, htype, elemTypeOf_code, hname, hraw]

/-! ## Value Infos -/

/-- What a message nests is shorter. -/
theorem nested_length (h : (⟨n, .bytes b⟩ : Field) ∈ fs)
    (hlen : (renderAll fs).length < 2 ^ 64) : b.length < 2 ^ 64 :=
  lt_trans (length_le_renderAll h) hlen

/-- Messages that are read one by one. -/
theorem mapM_of_forall₂ {α : Type} {decode : Bytes → Option α} {l : List α} {bs : List Bytes}
    (h : Forall₂ (fun x b => decode b = some x) l bs) : bs.mapM decode = some l := by
  induction h with
  | nil => rfl
  | cons hx _ ih => simp [mapM_cons, hx, ih]

theorem mapM_map {α : Type} {decode : Bytes → Option α} {encode : α → Bytes} {l : List α}
    (h : ∀ x ∈ l, decode (encode x) = some x) : (l.map encode).mapM decode = some l := by
  apply mapM_of_forall₂
  induction l with
  | nil => exact .nil
  | cons x l ih =>
    exact .cons (h x mem_cons_self) (ih fun y hy => h y (.tail _ hy))

theorem decodeDim_encodeDim {d : Dim} (hlen : (encodeDim d).length < 2 ^ 64) :
    decodeDim (encodeDim d) = some d := by
  unfold decodeDim
  cases d with
  | value v =>
    have heq : encodeDim (.value v) = renderAll [⟨1, .varint v.toUInt64.toNat⟩] := intField_eq 1 v
    rw [heq] at hlen ⊢
    rw [readFields_of_small (by simpa using small_int (by decide) v) hlen]
    simp [intOf_toNat]
  | param name =>
    have heq : encodeDim (.param name) = renderAll [⟨2, .bytes name⟩] := stringField_eq 2 name
    rw [heq] at hlen ⊢
    rw [readFields_of_small (by simpa using small_bytes (by decide) name) hlen]
    simp

theorem decodeShape_encodeShape {shape : List Dim} (hlen : (encodeShape shape).length < 2 ^ 64) :
    decodeShape (encodeShape shape) = some shape := by
  have heq : encodeShape shape = renderAll (repeatedField 1 (shape.map encodeDim)) :=
    flatMap_bytesField 1 encodeDim shape
  rw [heq] at hlen ⊢
  unfold decodeShape
  rw [readFields_of_small (forall_repeatedField (small_bytes (by decide)) _) hlen]
  have hdims : (shape.map encodeDim).mapM decodeDim = some shape := by
    apply mapM_map
    intro d hd
    apply decodeDim_encodeDim
    exact nested_length (mem_map.2 ⟨_, mem_map.2 ⟨d, hd, rfl⟩, rfl⟩) hlen
  simpa using hdims

/-- The fields of a tensor type. -/
def tensorTypeFields (vi : ValueInfo) : List Field :=
  ⟨1, .varint vi.type.code.toUInt64.toNat⟩ ::
    match vi.shape with
    | none => []
    | some shape => [⟨2, .bytes (encodeShape shape)⟩]

theorem encodeTensorType_eq (vi : ValueInfo) :
    encodeTensorType vi = renderAll (tensorTypeFields vi) := by
  unfold encodeTensorType tensorTypeFields
  rw [intField_eq]
  cases vi.shape with
  | none => rw [append_nil]
  | some shape =>
    simp only [bytesField_eq]
    rw [← renderAll_append]
    rfl

theorem decodeTensorType_encode {vi : ValueInfo} (hlen : (encodeTensorType vi).length < 2 ^ 64) :
    decodeTensorType (encodeTensorType vi) = some (vi.type, vi.shape) := by
  rw [encodeTensorType_eq] at hlen ⊢
  have htype : intAt 1 (tensorTypeFields vi) = vi.type.code := by
    apply intAt_eq
    unfold tensorTypeFields
    cases vi.shape with
    | none => simp
    | some shape => simp
  have hsmall : ∀ f ∈ tensorTypeFields vi, f.Small := by
    unfold tensorTypeFields
    rw [forall_mem_cons]
    refine ⟨small_int (by decide) _, ?_⟩
    cases vi.shape with
    | none => simp
    | some shape => simpa using small_bytes (by decide) (encodeShape shape)
  unfold decodeTensorType
  rw [readFields_of_small hsmall hlen]
  simp only [Option.bind_eq_bind, Option.bind_some, htype, elemTypeOf_code]
  cases hshape : vi.shape with
  | none =>
    have hnone : messageOf 2 (tensorTypeFields vi) = none := by
      simp [messageOf, tensorTypeFields, hshape]
    rw [hnone]
  | some shape =>
    have hsome : messageOf 2 (tensorTypeFields vi) = some (encodeShape shape) := by
      apply messageOf_eq
      simp [tensorTypeFields, hshape]
    have hmem : (⟨2, .bytes (encodeShape shape)⟩ : Field) ∈ tensorTypeFields vi := by
      simp [tensorTypeFields, hshape]
    rw [hsome]
    simp only [decodeShape_encodeShape (nested_length hmem hlen), Option.map_some]

theorem decodeValueInfo_encode {vi : ValueInfo} (hlen : (encodeValueInfo vi).length < 2 ^ 64) :
    decodeValueInfo (encodeValueInfo vi) = some vi := by
  have houter : encodeValueInfo vi = renderAll ([⟨1, .bytes vi.name⟩] ++
      [⟨2, .bytes (renderAll [⟨1, .bytes (encodeTensorType vi)⟩])⟩]) := by
    rw [renderAll_append, ← stringField_eq, ← bytesField_eq, ← bytesField_eq]
    rfl
  rw [houter] at hlen ⊢
  have hinner : (renderAll [⟨1, .bytes (encodeTensorType vi)⟩]).length < 2 ^ 64 :=
    nested_length (n := 2) (by simp) hlen
  have htype : (encodeTensorType vi).length < 2 ^ 64 := nested_length (n := 1) (by simp) hinner
  unfold decodeValueInfo
  rw [readFields_of_small (by simpa using ⟨small_bytes (by decide) _, small_bytes (by decide) _⟩)
    hlen]
  have hmessage : messageOf 2 ([⟨1, .bytes vi.name⟩] ++
      [⟨2, .bytes (renderAll [⟨1, .bytes (encodeTensorType vi)⟩])⟩]) =
      some (renderAll [⟨1, .bytes (encodeTensorType vi)⟩]) := messageOf_eq (by simp)
  have hnested : messageOf 1 [⟨1, .bytes (encodeTensorType vi)⟩] = some (encodeTensorType vi) :=
    messageOf_eq (by simp)
  have hname : textOf 1 ([⟨1, .bytes vi.name⟩] ++
      [⟨2, .bytes (renderAll [⟨1, .bytes (encodeTensorType vi)⟩])⟩]) = vi.name :=
    textOf_eq (by simp)
  have hfields : readFields (renderAll [⟨1, .bytes (encodeTensorType vi)⟩]) =
      some [⟨1, .bytes (encodeTensorType vi)⟩] :=
    readFields_of_small (by simpa using small_bytes (by decide) _) hinner
  simp only [Option.bind_eq_bind, Option.bind_some, hmessage, hname, hfields, hnested,
    decodeTensorType_encode htype]

end Camel.Onnx
