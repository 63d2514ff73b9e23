import Camel.Lib.Scan
import Camel.Lib.Wire

/-! # Writing ONNX Models

    A model is written from the inside out: each message into bytes of its own, which its
    parent takes up as a field. Optional names are left out when they are empty, and so are
    packed lists; the elements of a tensor are always written.
-/

namespace Camel.Onnx

open Lib Lib.Wire

abbrev Bytes : Type := List UInt8

/-! ## Models -/

inductive ElemType where
  | float | int32 | int64 | bool | double
  deriving DecidableEq

def ElemType.code : ElemType → Int64
  | .float => 1
  | .int32 => 6
  | .int64 => 7
  | .bool => 9
  | .double => 11

def elemSize : ElemType → UInt64
  | .float => 4
  | .int32 => 4
  | .int64 => 8
  | .bool => 1
  | .double => 8

structure TensorValue where
  name : Bytes
  type : ElemType
  dims : List Int64
  raw : Bytes

/-- An extent, or the name of one. -/
inductive Dim where
  | value (v : Int64)
  | param (name : Bytes)
  deriving DecidableEq

structure ValueInfo where
  name : Bytes
  type : ElemType
  shape : Option (List Dim)

mutual

inductive Graph where
  | mk (name : Bytes) (nodes : List Node) (initializers : List TensorValue)
    (inputs outputs valueInfos : List ValueInfo)

inductive Node where
  | mk (opType name : Bytes) (inputs outputs : List Bytes) (attributes : List Attribute)
    (domain : Bytes)

inductive Attribute where
  | mk (name : Bytes) (value : AttrValue)

/-- The payload of an attribute; a reference to a graph may lead nowhere. -/
inductive AttrValue where
  | float (bits : UInt32)
  | int (v : Int64)
  | string (s : Bytes)
  | tensor (t : TensorValue)
  | graph (g : Graph)
  | nullGraph
  | floats (vs : List UInt32)
  | ints (vs : List Int64)
  | strings (vs : List Bytes)

end

def Graph.nodes : Graph → List Node
  | .mk _ nodes _ _ _ _ => nodes

def Graph.initializers : Graph → List TensorValue
  | .mk _ _ initializers _ _ _ => initializers

def Node.attributes : Node → List Attribute
  | .mk _ _ _ _ attributes _ => attributes

def Attribute.value : Attribute → AttrValue
  | .mk _ value => value

structure OpsetImport where
  domain : Bytes
  version : Int64

structure MetadataEntry where
  key : Bytes
  value : Bytes

structure Model where
  graph : Graph
  irVersion : Int64
  opset : Int64
  extraOpsets : List OpsetImport
  metadata : List MetadataEntry
  producer : Bytes
  producerVersion : Bytes

/-! ## The Wire Writer -/

def tag (field wireType : Nat) : Bytes := varint (field * 8 + wireType)

/-- A negative integer takes all its 64 bits. -/
def intField (field : Nat) (v : Int64) : Bytes := tag field 0 ++ varint v.toUInt64.toNat

def floatField (field : Nat) (bits : UInt32) : Bytes := tag field 5 ++ bytesOf 4 bits.toNat

def bytesField (field : Nat) (data : Bytes) : Bytes := tag field 2 ++ (varint data.length ++ data)

def stringField (field : Nat) (s : Bytes) : Bytes := bytesField field s

def optStringField (field : Nat) (s : Bytes) : Bytes := if s = [] then [] else stringField field s

def packedInts (field : Nat) (values : List Int64) : Bytes :=
  if values = [] then []
  else bytesField field ((values.map fun v => v.toUInt64.toNat).flatMap varint)

def packedFloats (field : Nat) (values : List UInt32) : Bytes :=
  if values = [] then []
  else bytesField field ((values.map UInt32.toNat).flatMap (bytesOf 4))

/-! ## Messages -/

/-- What is thrown: an argument that is turned down, or a buffer that would outgrow a vector. -/
inductive Failure where
  | argument (text : Bytes)
  | length
  deriving DecidableEq

/-- The loop over the extents of a tensor. -/
def countFrom (name : Bytes) (count : Int64) : List Int64 → Except Failure Int64
  | [] => .ok count
  | d :: dims =>
    if d < 0 then
      .error (.argument (ascii "onnx: tensor '" ++ name ++ ascii "' has a negative dim"))
    else countFrom name (count * d) dims

def encodeTensor (t : TensorValue) : Except Failure Bytes := do
  let count ← countFrom t.name 1 t.dims
  let expected := (count.toUInt64 * elemSize t.type).toNat
  if expected ≠ t.raw.length then
    .error (.argument (ascii "onnx: tensor '" ++ t.name ++ ascii "' raw size " ++
      decimal t.raw.length ++ ascii " does not match dims (expected " ++ decimal expected ++
      ascii " bytes)"))
  else
    -- Dims, DataType, Name, RawData
    .ok (packedInts 1 t.dims ++ intField 2 t.type.code ++ optStringField 8 t.name ++
      bytesField 9 t.raw)

def encodeDim : Dim → Bytes
  | .value v => intField 1 v
  | .param name => stringField 2 name

def encodeShape (shape : List Dim) : Bytes := shape.flatMap fun d => bytesField 1 (encodeDim d)

def encodeTensorType (vi : ValueInfo) : Bytes :=
  -- ElemType, Shape
  intField 1 vi.type.code ++
    match vi.shape with
    | none => []
    | some shape => bytesField 2 (encodeShape shape)

def encodeValueInfo (vi : ValueInfo) : Bytes :=
  stringField 1 vi.name ++ bytesField 2 (bytesField 1 (encodeTensorType vi))

def encodeInitializers : List TensorValue → Except Failure Bytes
  | [] => .ok []
  | t :: rest => do
    let tensor ← encodeTensor t
    let bytes ← encodeInitializers rest
    .ok (bytesField 5 tensor ++ bytes)

mutual

def encodeGraph : Graph → Except Failure Bytes
  | .mk name nodes initializers inputs outputs valueInfos => do
    -- Node, Name, Initializer, Input, Output, ValueInfo
    let nodeBytes ← encodeNodes nodes
    let tensorBytes ← encodeInitializers initializers
    .ok (nodeBytes ++ optStringField 2 name ++ tensorBytes ++
      (inputs.flatMap fun vi => bytesField 11 (encodeValueInfo vi)) ++
      (outputs.flatMap fun vi => bytesField 12 (encodeValueInfo vi)) ++
      (valueInfos.flatMap fun vi => bytesField 13 (encodeValueInfo vi)))

def encodeNodes : List Node → Except Failure Bytes
  | [] => .ok []
  | n :: rest => do
    let node ← encodeNode n
    let bytes ← encodeNodes rest
    .ok (bytesField 1 node ++ bytes)

def encodeNode : Node → Except Failure Bytes
  | .mk opType name inputs outputs attributes domain => do
    -- Input, Output, Name, OpType, Attribute, Domain
    let attributeBytes ← encodeAttributes attributes
    .ok (inputs.flatMap (stringField 1) ++ outputs.flatMap (stringField 2) ++
      optStringField 3 name ++ stringField 4 opType ++ attributeBytes ++ optStringField 7 domain)

def encodeAttributes : List Attribute → Except Failure Bytes
  | [] => .ok []
  | a :: rest => do
    let attr ← encodeAttribute a
    let bytes ← encodeAttributes rest
    .ok (bytesField 5 attr ++ bytes)

def encodeAttribute : Attribute → Except Failure Bytes
  | .mk name value => do
    let (payload, kind) ← encodeValue value
    .ok (stringField 1 name ++ payload ++ intField 20 kind)

/-- The payload and the discriminator that goes with it. -/
def encodeValue : AttrValue → Except Failure (Bytes × Int64)
  | .float bits => .ok (floatField 2 bits, 1)
  | .int v => .ok (intField 3 v, 2)
  | .string s => .ok (stringField 4 s, 3)
  | .tensor t => do
    let tensor ← encodeTensor t
    .ok (bytesField 5 tensor, 4)
  | .graph g => do
    let graph ← encodeGraph g
    .ok (bytesField 6 graph, 5)
  | .nullGraph => .error (.argument (ascii "onnx: graph attribute holds a null graph"))
  | .floats vs => .ok (packedFloats 7 vs, 6)
  | .ints vs => .ok (packedInts 8 vs, 7)
  | .strings vs => .ok (vs.flatMap (stringField 9), 8)

end

def encodeOpset (domain : Bytes) (version : Int64) : Bytes :=
  optStringField 1 domain ++ intField 2 version

def encodeMetadata (entry : MetadataEntry) : Bytes :=
  stringField 1 entry.key ++ stringField 2 entry.value

/-- `serialize`; a vector holds fewer than 2^63 bytes. -/
def serialize (model : Model) : Except Failure Bytes := do
  let graph ← encodeGraph model.graph
  -- IrVersion, ProducerName, ProducerVersion, Graph, OpsetImport, MetadataProps
  let bytes := intField 1 model.irVersion ++ optStringField 2 model.producer ++
    optStringField 3 model.producerVersion ++ bytesField 7 graph ++
    bytesField 8 (encodeOpset [] model.opset) ++
    (model.extraOpsets.flatMap fun op => bytesField 8 (encodeOpset op.domain op.version)) ++
    (model.metadata.flatMap fun entry => bytesField 14 (encodeMetadata entry))
  if 2 ^ 63 ≤ bytes.length then .error .length else .ok bytes

end Camel.Onnx

/-! # Reading ONNX Models

    What the bytes of a model mean, by the rules of the wire format and the field numbers of
    the messages: a field that is left out is empty, the elements of a repeated one keep
    their order, and unknown fields are passed over.
-/

namespace Camel.Onnx

open Lib Lib.Wire

/-! ## Leaves -/

/-- A signed integer of 64 bits. -/
def intOf (v : Nat) : Int64 := (UInt64.ofNat v).toInt64

/-- An integer that is left out is zero. -/
def intAt (n : Nat) (fs : List Field) : Int64 := intOf ((integerOf n fs).getD 0)

def elemTypeOf (code : Int64) : Option ElemType :=
  if code = 1 then some .float
  else if code = 6 then some .int32
  else if code = 7 then some .int64
  else if code = 9 then some .bool
  else if code = 11 then some .double
  else none

def intsAt (n : Nat) (fs : List Field) : Option (List Int64) :=
  (repeatedOf varintValue readVarints n fs).map (·.map intOf)

def floatsAt (n : Nat) (fs : List Field) : Option (List UInt32) :=
  (repeatedOf fixed32Value readFixed32s n fs).map (·.map UInt32.ofNat)

def decodeTensor (bytes : Bytes) : Option TensorValue := do
  let fs ← readFields bytes
  let dims ← intsAt 1 fs
  let type ← elemTypeOf (intAt 2 fs)
  some ⟨textOf 8 fs, type, dims, textOf 9 fs⟩

/-- The last of the two fields that are alternatives counts. -/
def decodeDim (bytes : Bytes) : Option Dim := do
  let fs ← readFields bytes
  (fs.filterMap fun f =>
    match f.number, f.value with
    | 1, .varint v => some (Dim.value (intOf v))
    | 2, .bytes b => some (Dim.param b)
    | _, _ => none).getLast?

def decodeShape (bytes : Bytes) : Option (List Dim) := do
  let fs ← readFields bytes
  (valuesOf bytesValue 1 fs).mapM decodeDim

/-- A shape that is left out is unknown. -/
def decodeTensorType (bytes : Bytes) : Option (ElemType × Option (List Dim)) := do
  let fs ← readFields bytes
  let type ← elemTypeOf (intAt 1 fs)
  match messageOf 2 fs with
  | none => some (type, none)
  | some shape => (decodeShape shape).map fun dims => (type, some dims)

def decodeValueInfo (bytes : Bytes) : Option ValueInfo := do
  let fs ← readFields bytes
  let typeBytes ← messageOf 2 fs
  let typeFields ← readFields typeBytes
  let tensorTypeBytes ← messageOf 1 typeFields
  let (type, shape) ← decodeTensorType tensorTypeBytes
  some ⟨textOf 1 fs, type, shape⟩

/-! ## Graphs -/

section Nested

variable (graph : Bytes → Option Graph)

/-- The payload the discriminator says, with a reader for nested graphs. -/
def decodeValue (kind : Int64) (fs : List Field) : Option AttrValue :=
  if kind = 1 then some (.float (UInt32.ofNat ((valuesOf fixed32Value 2 fs).getLastD 0)))
  else if kind = 2 then some (.int (intAt 3 fs))
  else if kind = 3 then some (.string (textOf 4 fs))
  else if kind = 4 then ((messageOf 5 fs).bind decodeTensor).map .tensor
  else if kind = 5 then ((messageOf 6 fs).bind graph).map .graph
  else if kind = 6 then (floatsAt 7 fs).map .floats
  else if kind = 7 then (intsAt 8 fs).map .ints
  else if kind = 8 then some (.strings (valuesOf bytesValue 9 fs))
  else none

def decodeAttribute (bytes : Bytes) : Option Attribute := do
  let fs ← readFields bytes
  let value ← decodeValue graph (intAt 20 fs) fs
  some (.mk (textOf 1 fs) value)

def decodeNode (bytes : Bytes) : Option Node := do
  let fs ← readFields bytes
  let attributes ← (valuesOf bytesValue 5 fs).mapM (decodeAttribute graph)
  some (.mk (textOf 4 fs) (textOf 3 fs) (valuesOf bytesValue 1 fs) (valuesOf bytesValue 2 fs)
    attributes (textOf 7 fs))

end Nested

/-- Graphs nested up to `depth`; a message is longer than what is nested in it. -/
def decodeGraph : Nat → Bytes → Option Graph
  | 0, _ => none
  | depth + 1, bytes => do
    let fs ← readFields bytes
    let nodes ← (valuesOf bytesValue 1 fs).mapM (decodeNode (decodeGraph depth))
    let initializers ← (valuesOf bytesValue 5 fs).mapM decodeTensor
    let inputs ← (valuesOf bytesValue 11 fs).mapM decodeValueInfo
    let outputs ← (valuesOf bytesValue 12 fs).mapM decodeValueInfo
    let valueInfos ← (valuesOf bytesValue 13 fs).mapM decodeValueInfo
    some (.mk (textOf 2 fs) nodes initializers inputs outputs valueInfos)

/-! ## Models -/

def decodeOpset (bytes : Bytes) : Option OpsetImport := do
  let fs ← readFields bytes
  some ⟨textOf 1 fs, intAt 2 fs⟩

def decodeMetadata (bytes : Bytes) : Option MetadataEntry := do
  let fs ← readFields bytes
  some ⟨textOf 1 fs, textOf 2 fs⟩

/-- The first of the operator sets is that of the default domain. -/
def decodeModel (bytes : Bytes) : Option Model := do
  let fs ← readFields bytes
  let graphBytes ← messageOf 7 fs
  let graph ← decodeGraph (graphBytes.length + 1) graphBytes
  let opsets ← (valuesOf bytesValue 8 fs).mapM decodeOpset
  let metadata ← (valuesOf bytesValue 14 fs).mapM decodeMetadata
  match opsets with
  | ⟨[], opset⟩ :: extraOpsets =>
    some ⟨graph, intAt 1 fs, opset, extraOpsets, metadata, textOf 2 fs, textOf 3 fs⟩
  | _ => none

/-! ## Fields of a Message -/

/-- A text that is left out when it is empty. -/
def optField (n : Nat) (s : Bytes) : List Field := if s = [] then [] else [⟨n, .bytes s⟩]

/-- A packed list that is left out when it is empty. -/
def packedField {α : Type} (n : Nat) (values : List α) (body : Bytes) : List Field :=
  if values = [] then [] else [⟨n, .bytes body⟩]

/-- One field for each element. -/
def repeatedField (n : Nat) (elements : List Bytes) : List Field :=
  elements.map fun b => ⟨n, .bytes b⟩

theorem renderAll_append (fs gs : List Field) :
    renderAll (fs ++ gs) = renderAll fs ++ renderAll gs := List.flatMap_append

theorem renderAll_singleton (f : Field) : renderAll [f] = f.render := List.flatMap_singleton ..

section
variable (n : Nat)
include n

theorem intField_eq (v : Int64) :
    intField n v = renderAll [⟨n, .varint v.toUInt64.toNat⟩] := by
  rw [renderAll_singleton]
  rfl

theorem floatField_eq (bits : UInt32) :
    floatField n bits = renderAll [⟨n, .fixed32 bits.toNat⟩] := by
  rw [renderAll_singleton]
  rfl

theorem bytesField_eq (b : Bytes) : bytesField n b = renderAll [⟨n, .bytes b⟩] := by
  rw [renderAll_singleton]
  rfl

theorem stringField_eq (s : Bytes) : stringField n s = renderAll [⟨n, .bytes s⟩] :=
  bytesField_eq n s

theorem optStringField_eq (s : Bytes) : optStringField n s = renderAll (optField n s) := by
  unfold optStringField optField
  split
  · rfl
  · exact stringField_eq n s

theorem packedInts_eq (values : List Int64) :
    packedInts n values = renderAll (packedField n values
      ((values.map fun v => v.toUInt64.toNat).flatMap varint)) := by
  unfold packedInts packedField
  split
  · rfl
  · exact bytesField_eq n _

theorem packedFloats_eq (values : List UInt32) :
    packedFloats n values = renderAll (packedField n values
      ((values.map UInt32.toNat).flatMap (bytesOf 4))) := by
  unfold packedFloats packedField
  split
  · rfl
  · exact bytesField_eq n _

end

variable {α : Type}

theorem flatMap_bytesField (n : Nat) (f : α → Bytes) (l : List α) :
    (l.flatMap fun x => bytesField n (f x)) = renderAll (repeatedField n (l.map f)) := by
  unfold renderAll repeatedField
  rw [List.flatMap_map, List.flatMap_map]
  rfl

theorem flatMap_stringField (n : Nat) (l : List Bytes) :
    l.flatMap (stringField n) = renderAll (repeatedField n l) := by
  unfold renderAll repeatedField
  rw [List.flatMap_map]
  rfl

/-! ## Values of a Message -/

variable {β : Type}

section
variable (kind : WireValue → Option β) (n m : Nat)
include kind n m

@[simp] theorem valuesOf_optField (s : Bytes) :
    valuesOf kind n (optField m s) =
      if m = n then (if s = [] then [] else (kind (.bytes s)).toList) else [] := by
  unfold optField
  by_cases hs : s = []
  · rw [if_pos hs, if_pos hs, valuesOf_nil, ite_self]
  · rw [if_neg hs, if_neg hs, valuesOf_cons, valuesOf_nil, List.append_nil]

@[simp] theorem valuesOf_packedField
    (values : List α) (body : Bytes) :
    valuesOf kind n (packedField m values body) =
      if m = n then (if values = [] then [] else (kind (.bytes body)).toList) else [] := by
  unfold packedField
  by_cases hs : values = []
  · rw [if_pos hs, if_pos hs, valuesOf_nil, ite_self]
  · rw [if_neg hs, if_neg hs, valuesOf_cons, valuesOf_nil, List.append_nil]

@[simp] theorem valuesOf_repeatedField
    (elements : List Bytes) :
    valuesOf kind n (repeatedField m elements) =
      if m = n then elements.filterMap fun b => kind (.bytes b) else [] := by
  unfold repeatedField
  rw [valuesOf_map]

end

variable {P : Field → Prop} {n : Nat}

section
variable (h : ∀ b, P ⟨n, .bytes b⟩)
include h

/-- What holds of the fields of a number holds of those written for a text. -/
theorem forall_optField (s : Bytes) :
    ∀ f ∈ optField n s, P f := by
  unfold optField
  split
  · simp
  · simpa using h s

theorem forall_packedField
    (values : List α) (body : Bytes) : ∀ f ∈ packedField n values body, P f := by
  unfold packedField
  split
  · simp
  · simpa using h body

theorem forall_repeatedField
    (elements : List Bytes) : ∀ f ∈ repeatedField n elements, P f := by
  intro f hf
  obtain ⟨b, -, rfl⟩ := List.mem_map.1 hf
  exact h b

end

theorem intOf_toNat (v : Int64) : intOf v.toUInt64.toNat = v := by
  unfold intOf
  rw [UInt64.ofNat_toNat]
  exact Int64.toInt64_toUInt64 v

theorem elemTypeOf_code (type : ElemType) : elemTypeOf type.code = some type := by
  cases type with
  | float => rfl
  | int32 => rfl
  | int64 => rfl
  | bool => rfl
  | double => rfl

end Camel.Onnx
