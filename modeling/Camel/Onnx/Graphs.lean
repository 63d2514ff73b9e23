import Camel.Onnx.RoundTrip

/-! # Graphs Within Graphs

    An attribute may hold a graph, whose nodes have attributes. The bytes of a nested graph
    are shorter than those of the attribute around it, so reading comes to an end, and
    whatever holds of a graph once it holds of those nested in it holds of all.
-/

namespace Camel.Onnx

open Lib Lib.Wire Extents Option List

/-! ## Induction -/

/-- The graph is held by an attribute of a node. -/
def Nested (s g : Graph) : Prop := ∃ n ∈ g.nodes, ∃ a ∈ n.attributes, a.value = .graph s

theorem Nested.sizeOf_lt {s g : Graph} (h : Nested s g) : sizeOf s < sizeOf g := by
  obtain ⟨⟨opType, nodeName, nodeInputs, nodeOutputs, attributes, domain⟩, hn, ⟨attrName, value⟩, ha,
    hvalue⟩ := h
  cases g with
  | mk name nodes initializers inputs outputs valueInfos =>
    have hnode := sizeOf_lt_of_mem (show _ ∈ nodes from hn)
    have hattr := sizeOf_lt_of_mem (show _ ∈ attributes from ha)
    have hv : value = .graph s := hvalue
    subst hv
    simp only [Node.mk.sizeOf_spec, Attribute.mk.sizeOf_spec, AttrValue.graph.sizeOf_spec] at hnode hattr
    simp only [Graph.mk.sizeOf_spec]
    omega

/-- What holds of a graph once it holds of those nested in it holds of every graph. -/
theorem Graph.induct {P : Graph → Prop} (h : ∀ g, (∀ s, Nested s g → P s) → P g) (g : Graph) : P g :=
  h g fun s _ => Graph.induct h s
termination_by sizeOf g
decreasing_by exact Nested.sizeOf_lt ‹_›

/-! ## Lists of Messages -/

variable {bytes : Bytes}

/-- Messages that are written one by one are the elements of a repeated field. -/
theorem encodeList_ok {α : Type} {encode : α → Except Failure Bytes}
    {encodeAll : List α → Except Failure Bytes} {n : Nat} (hnil : encodeAll [] = .ok [])
    (hcons : ∀ x l, encodeAll (x :: l) = (do
      let b ← encode x
      let rest ← encodeAll l
      .ok (bytesField n b ++ rest)))
    {l : List α} (h : encodeAll l = .ok bytes) :
    ∃ bs, bytes = renderAll (repeatedField n bs) ∧
      List.Forall₂ (fun x b => encode x = .ok b) l bs := by
  induction l generalizing bytes with
  | nil =>
    rw [hnil] at h
    injection h with h
    exact ⟨[], h.symm, .nil⟩
  | cons x l ih =>
    rw [hcons] at h
    obtain ⟨b, hb, h⟩ := ok_of_bind h
    obtain ⟨rest, hrest, h⟩ := ok_of_bind h
    injection h with h
    obtain ⟨bs, hbytes, hall⟩ := ih hrest
    refine ⟨b :: bs, ?_, .cons hb hall⟩
    rw [← h, hbytes, bytesField_eq, ← renderAll_append]
    rfl

theorem encodeInitializers_ok {ts : List TensorValue}
    (h : encodeInitializers ts = .ok bytes) :
    ∃ bs, bytes = renderAll (repeatedField 5 bs) ∧
      List.Forall₂ (fun t b => encodeTensor t = .ok b) ts bs := by
  apply encodeList_ok _ _ h
  · rw [encodeInitializers]
  · intro t l
    rw [encodeInitializers]

theorem encodeNodes_ok {ns : List Node} (h : encodeNodes ns = .ok bytes) :
    ∃ bs, bytes = renderAll (repeatedField 1 bs) ∧
      List.Forall₂ (fun n b => encodeNode n = .ok b) ns bs := by
  apply encodeList_ok _ _ h
  · rw [encodeNodes]
  · intro n l
    rw [encodeNodes]

theorem encodeAttributes_ok {l : List Attribute}
    (h : encodeAttributes l = .ok bytes) :
    ∃ bs, bytes = renderAll (repeatedField 5 bs) ∧
      List.Forall₂ (fun a b => encodeAttribute a = .ok b) l bs := by
  apply encodeList_ok _ _ h
  · rw [encodeAttributes]
  · intro a l
    rw [encodeAttributes]

/-- Two lists walked together, with what is known of their members. -/
theorem forall₂_imp_mem {α β : Type} {R S : α → β → Prop} {l : List α} {bs : List β}
    (h : List.Forall₂ R l bs) (himp : ∀ x ∈ l, ∀ b ∈ bs, R x b → S x b) : List.Forall₂ S l bs := by
  induction h with
  | nil => exact .nil
  | cons hx _ ih =>
    exact .cons (himp _ mem_cons_self _ mem_cons_self hx)
      (ih fun x hx b hb => himp x (mem_cons_of_mem _ hx) b (mem_cons_of_mem _ hb))

/-! ## Attributes -/

theorem valuesOf_skip {β : Type} {kind : WireValue → Option β} {n : Nat} {fs : List Field}
    (h : ∀ f ∈ fs, f.number ≠ n) : valuesOf kind n fs = [] := by
  unfold valuesOf
  rw [filterMap_eq_nil_iff]
  intro f hf
  exact if_neg (h f hf)

/-- The fields of an attribute around those of its payload. -/
def attributeFields (name : Bytes) (payload : List Field) (kind : Int64) : List Field :=
  [⟨1, .bytes name⟩] ++ payload ++ [⟨20, .varint kind.toUInt64.toNat⟩]

variable {graph : Bytes → Option Graph}

/-- An attribute is read as its payload is. -/
theorem decodeAttribute_fields {name : Bytes} {payload : List Field}
    {kind : Int64} {value : AttrValue} (hsmall : ∀ f ∈ payload, f.Small)
    (hname : ∀ f ∈ payload, f.number ≠ 1) (hkind : ∀ f ∈ payload, f.number ≠ 20)
    (hlen : (renderAll (attributeFields name payload kind)).length < 2 ^ 64)
    (hvalue : decodeValue graph kind (attributeFields name payload kind) = some value) :
    decodeAttribute graph (renderAll (attributeFields name payload kind)) =
      some (.mk name value) := by
  have hall : ∀ f ∈ attributeFields name payload kind, f.Small := by
    unfold attributeFields
    simp only [forall_mem_append, forall_mem_singleton]
    exact ⟨⟨small_bytes (by decide) _, hsmall⟩, small_int (by decide) _⟩
  have htext : textOf 1 (attributeFields name payload kind) = name := by
    apply textOf_eq
    simp [attributeFields, valuesOf_skip hname]
  have hint : intAt 20 (attributeFields name payload kind) = kind := by
    apply intAt_eq
    simp [attributeFields, valuesOf_skip hkind]
  unfold decodeAttribute
  rw [readFields_of_small hall hlen]
  simp only [bind_eq_bind, bind_some, hint, hvalue, htext]

/-- A written attribute is its fields. -/
theorem attribute_eq (name : Bytes) (payload : List Field) (kind : Int64) :
    stringField 1 name ++ renderAll payload ++ intField 20 kind =
      renderAll (attributeFields name payload kind) := by
  unfold attributeFields
  rw [renderAll_append, renderAll_append, ← stringField_eq, ← intField_eq]

theorem decodeAttribute_encode {name : Bytes} {value : AttrValue}
    (h : encodeAttribute (.mk name value) = .ok bytes)
    (hlen : bytes.length < 2 ^ 64)
    (hgraph : ∀ s b, value = .graph s → encodeGraph s = .ok b → b.length < bytes.length →
      graph b = some s) :
    decodeAttribute graph bytes = some (.mk name value) := by
  rw [encodeAttribute] at h
  obtain ⟨⟨payloadBytes, kind⟩, hvalue, h⟩ := ok_of_bind h
  simp only at h
  injection h with h
  cases value with
  | float bits =>
    rw [encodeValue] at hvalue
    injection hvalue with hvalue
    obtain ⟨rfl, rfl⟩ := Prod.mk.inj hvalue
    rw [floatField_eq, attribute_eq] at h
    subst h
    apply decodeAttribute_fields (by simpa using small_float (by decide) bits) (by simp) (by simp) hlen
    show some (AttrValue.float (UInt32.ofNat _)) = _
    simp [attributeFields]
  | int v =>
    rw [encodeValue] at hvalue
    injection hvalue with hvalue
    obtain ⟨rfl, rfl⟩ := Prod.mk.inj hvalue
    rw [intField_eq 3, attribute_eq] at h
    subst h
    apply decodeAttribute_fields (by simpa using small_int (by decide) v) (by simp) (by simp) hlen
    show some (AttrValue.int _) = _
    rw [intAt_eq]
    simp [attributeFields]
  | string s =>
    rw [encodeValue] at hvalue
    injection hvalue with hvalue
    obtain ⟨rfl, rfl⟩ := Prod.mk.inj hvalue
    rw [stringField_eq 4, attribute_eq] at h
    subst h
    apply decodeAttribute_fields (by simpa using small_bytes (by decide) s) (by simp) (by simp) hlen
    show some (AttrValue.string _) = _
    rw [textOf_eq]
    simp [attributeFields]
  | tensor t =>
    rw [encodeValue] at hvalue
    obtain ⟨b, hb, hvalue⟩ := ok_of_bind hvalue
    injection hvalue with hvalue
    obtain ⟨rfl, rfl⟩ := Prod.mk.inj hvalue
    rw [bytesField_eq, attribute_eq] at h
    subst h
    have hb' := (encodeTensor_ok hb).1
    have hnested : b.length < 2 ^ 64 := nested_length (n := 5) (by simp [attributeFields]) hlen
    apply decodeAttribute_fields (by simpa using small_bytes (by decide) b) (by simp) (by simp) hlen
    have hmessage : messageOf 5 (attributeFields name [⟨5, .bytes b⟩] 4) = some b :=
      messageOf_eq (by simp [attributeFields])
    show ((messageOf 5 _).bind decodeTensor).map AttrValue.tensor = _
    rw [hb'] at hnested
    rw [hmessage, bind_some, hb', decodeTensor_fields hnested, map_some]
  | graph s =>
    rw [encodeValue] at hvalue
    obtain ⟨b, hb, hvalue⟩ := ok_of_bind hvalue
    injection hvalue with hvalue
    obtain ⟨rfl, rfl⟩ := Prod.mk.inj hvalue
    rw [bytesField_eq, attribute_eq] at h
    subst h
    have hshort : b.length < (renderAll (attributeFields name [⟨6, .bytes b⟩] 5)).length :=
      length_le_renderAll (n := 6) (by simp [attributeFields])
    apply decodeAttribute_fields (by simpa using small_bytes (by decide) b) (by simp) (by simp) hlen
    have hmessage : messageOf 6 (attributeFields name [⟨6, .bytes b⟩] 5) = some b :=
      messageOf_eq (by simp [attributeFields])
    show ((messageOf 6 _).bind graph).map AttrValue.graph = _
    rw [hmessage, bind_some, hgraph s b rfl hb hshort, map_some]
  | nullGraph =>
    rw [encodeValue] at hvalue
    cases hvalue
  | floats vs =>
    rw [encodeValue] at hvalue
    injection hvalue with hvalue
    obtain ⟨rfl, rfl⟩ := Prod.mk.inj hvalue
    rw [packedFloats_eq, attribute_eq] at h
    subst h
    apply decodeAttribute_fields (forall_packedField (small_bytes (by decide)) _ _)
      (forall_packedField (by simp) _ _) (forall_packedField (by simp) _ _) hlen
    show (floatsAt 7 _).map AttrValue.floats = _
    unfold attributeFields
    rw [floatsAt_packed vs (by simp) (by simp), map_some]
  | ints vs =>
    rw [encodeValue] at hvalue
    injection hvalue with hvalue
    obtain ⟨rfl, rfl⟩ := Prod.mk.inj hvalue
    rw [packedInts_eq, attribute_eq] at h
    subst h
    apply decodeAttribute_fields (forall_packedField (small_bytes (by decide)) _ _)
      (forall_packedField (by simp) _ _) (forall_packedField (by simp) _ _) hlen
    show (intsAt 8 _).map AttrValue.ints = _
    unfold attributeFields
    rw [intsAt_packed vs (by simp) (by simp), map_some]
  | strings vs =>
    rw [encodeValue] at hvalue
    injection hvalue with hvalue
    obtain ⟨rfl, rfl⟩ := Prod.mk.inj hvalue
    rw [flatMap_stringField, attribute_eq] at h
    subst h
    apply decodeAttribute_fields (forall_repeatedField (small_bytes (by decide)) _)
      (forall_repeatedField (by simp) _) (forall_repeatedField (by simp) _) hlen
    show some (AttrValue.strings _) = _
    simp [attributeFields]

/-! ## Nodes and Graphs -/

def nodeFields (opType name : Bytes) (inputs outputs attributes : List Bytes) (domain : Bytes) :
    List Field :=
  repeatedField 1 inputs ++ (repeatedField 2 outputs ++ (optField 3 name ++ ([⟨4, .bytes opType⟩] ++
    (repeatedField 5 attributes ++ optField 7 domain))))

theorem small_nodeFields (opType name : Bytes) (inputs outputs attributes : List Bytes)
    (domain : Bytes) : ∀ f ∈ nodeFields opType name inputs outputs attributes domain, f.Small := by
  unfold nodeFields
  simp only [forall_mem_append, forall_mem_singleton]
  exact ⟨forall_repeatedField (small_bytes (by decide)) _,
    forall_repeatedField (small_bytes (by decide)) _, forall_optField (small_bytes (by decide)) _,
    small_bytes (by decide) _, forall_repeatedField (small_bytes (by decide)) _,
    forall_optField (small_bytes (by decide)) _⟩

theorem decodeNode_encode {n : Node}
    (h : encodeNode n = .ok bytes) (hlen : bytes.length < 2 ^ 64)
    (hgraph : ∀ s b, (∃ a ∈ n.attributes, a.value = .graph s) → encodeGraph s = .ok b →
      b.length < bytes.length → graph b = some s) :
    decodeNode graph bytes = some n := by
  obtain ⟨opType, name, inputs, outputs, attributes, domain⟩ := n
  rw [encodeNode] at h
  obtain ⟨attributeBytes, hattributes, h⟩ := ok_of_bind h
  injection h with h
  obtain ⟨bs, hbs, hall⟩ := encodeAttributes_ok hattributes
  -- the bytes of the node are those of its fields
  have hbytes : bytes = renderAll (nodeFields opType name inputs outputs bs domain) := by
    rw [← h, flatMap_stringField, flatMap_stringField, optStringField_eq, stringField_eq, hbs,
      optStringField_eq]
    unfold nodeFields
    simp only [renderAll_append, append_assoc]
  have hattrs : bs.mapM (decodeAttribute graph) = some attributes := by
    apply mapM_of_forall₂
    apply forall₂_imp_mem hall
    intro a ha b hb hencode
    have hmem : (⟨5, .bytes b⟩ : Field) ∈ nodeFields opType name inputs outputs bs domain := by
      unfold nodeFields
      simp only [mem_append]
      exact .inr (.inr (.inr (.inr (.inl (mem_map.2 ⟨b, hb, rfl⟩)))))
    have hshort : b.length < bytes.length := by
      rw [hbytes]
      exact length_le_renderAll hmem
    obtain ⟨attrName, value⟩ := a
    apply decodeAttribute_encode hencode (lt_trans hshort hlen)
    intro s c hvalue hc hlt
    exact hgraph s c ⟨_, ha, hvalue⟩ hc (lt_trans hlt hshort)
  have hop : textOf 4 (nodeFields opType name inputs outputs bs domain) = opType := by
    apply textOf_eq
    simp [nodeFields]
  have hname : textOf 3 (nodeFields opType name inputs outputs bs domain) = name := by
    apply textOf_opt
    simp [nodeFields]
  have hdomain : textOf 7 (nodeFields opType name inputs outputs bs domain) = domain := by
    apply textOf_opt
    simp [nodeFields]
  have hinputs : valuesOf bytesValue 1 (nodeFields opType name inputs outputs bs domain) = inputs := by
    simp [nodeFields]
  have houtputs :
      valuesOf bytesValue 2 (nodeFields opType name inputs outputs bs domain) = outputs := by
    simp [nodeFields]
  have hfields : valuesOf bytesValue 5 (nodeFields opType name inputs outputs bs domain) = bs := by
    simp [nodeFields]
  unfold decodeNode
  rw [hbytes] at hlen ⊢
  rw [readFields_of_small (small_nodeFields _ _ _ _ _ _) hlen]
  simp only [bind_eq_bind, bind_some, hfields, hattrs, hop, hname, hdomain, hinputs,
    houtputs]

def graphFields (name : Bytes) (nodes tensors inputs outputs valueInfos : List Bytes) :
    List Field :=
  repeatedField 1 nodes ++ (optField 2 name ++ (repeatedField 5 tensors ++
    (repeatedField 11 inputs ++ (repeatedField 12 outputs ++ repeatedField 13 valueInfos))))

theorem small_graphFields (name : Bytes) (nodes tensors inputs outputs valueInfos : List Bytes) :
    ∀ f ∈ graphFields name nodes tensors inputs outputs valueInfos, f.Small := by
  unfold graphFields
  simp only [forall_mem_append]
  exact ⟨forall_repeatedField (small_bytes (by decide)) _,
    forall_optField (small_bytes (by decide)) _, forall_repeatedField (small_bytes (by decide)) _,
    forall_repeatedField (small_bytes (by decide)) _, forall_repeatedField (small_bytes (by decide)) _,
    forall_repeatedField (small_bytes (by decide)) _⟩

/-- Value infos are read one by one. -/
theorem mapM_valueInfos {l : List ValueInfo}
    (h : ∀ vi ∈ l, (encodeValueInfo vi).length < 2 ^ 64) :
    (l.map encodeValueInfo).mapM decodeValueInfo = some l :=
  mapM_map fun vi hvi => decodeValueInfo_encode (h vi hvi)

/-- A graph is read as it was written, however deep others are nested in it. -/
theorem decodeGraph_encode (g : Graph) : ∀ (bytes : Bytes) (depth : Nat),
    encodeGraph g = .ok bytes → bytes.length < 2 ^ 64 → bytes.length < depth →
      decodeGraph depth bytes = some g := by
  induction g using Graph.induct with
  | h g ih =>
  intro bytes depth h hlen hdepth
  obtain ⟨name, nodes, initializers, inputs, outputs, valueInfos⟩ := g
  cases depth with
  | zero => omega
  | succ depth =>
    rw [encodeGraph] at h
    obtain ⟨nodeBytes, hnodes, h⟩ := ok_of_bind h
    obtain ⟨tensorBytes, htensors, h⟩ := ok_of_bind h
    injection h with h
    obtain ⟨ns, hns, hallNodes⟩ := encodeNodes_ok hnodes
    obtain ⟨ts, hts, hallTensors⟩ := encodeInitializers_ok htensors
    generalize hfs : graphFields name ns ts (inputs.map encodeValueInfo)
      (outputs.map encodeValueInfo) (valueInfos.map encodeValueInfo) = fs
    have hbytes : bytes = renderAll fs := by
      rw [← h, ← hfs, hns, hts, optStringField_eq, flatMap_bytesField, flatMap_bytesField,
        flatMap_bytesField]
      unfold graphFields
      simp only [renderAll_append, append_assoc]
    have hsmall : ∀ f ∈ fs, f.Small := by
      rw [← hfs]
      exact small_graphFields _ _ _ _ _ _
    -- what is nested in the graph is shorter than the graph
    have hnested : ∀ n b, b ∈ valuesOf bytesValue n fs → b.length < bytes.length := by
      intro n b hb
      rw [hbytes]
      exact length_le_renderAll ((mem_valuesOf_bytes n b fs).1 hb)
    have hnodeValues : valuesOf bytesValue 1 fs = ns := by simp [← hfs, graphFields]
    have htensorValues : valuesOf bytesValue 5 fs = ts := by simp [← hfs, graphFields]
    have hinputValues : valuesOf bytesValue 11 fs = inputs.map encodeValueInfo := by
      simp [← hfs, graphFields]
    have houtputValues : valuesOf bytesValue 12 fs = outputs.map encodeValueInfo := by
      simp [← hfs, graphFields]
    have hinfoValues : valuesOf bytesValue 13 fs = valueInfos.map encodeValueInfo := by
      simp [← hfs, graphFields]
    have hname : textOf 2 fs = name := by
      apply textOf_opt
      simp [← hfs, graphFields]
    have hreadNodes : ns.mapM (decodeNode (decodeGraph depth)) = some nodes := by
      apply mapM_of_forall₂
      apply forall₂_imp_mem hallNodes
      intro n hn b hb hencode
      have hlt : b.length < bytes.length := hnested 1 b (hnodeValues ▸ hb)
      apply decodeNode_encode hencode (lt_trans hlt hlen)
      intro s c hs hc hcb
      obtain ⟨a, ha, hvalue⟩ := hs
      exact ih s ⟨n, hn, a, ha, hvalue⟩ c depth hc (by omega) (by omega)
    have hreadTensors : ts.mapM decodeTensor = some initializers := by
      apply mapM_of_forall₂
      apply forall₂_imp_mem hallTensors
      intro t _ b hb hencode
      have hlt : b.length < bytes.length := hnested 5 b (htensorValues ▸ hb)
      have hfields := (encodeTensor_ok hencode).1
      rw [hfields] at hlt ⊢
      exact decodeTensor_fields (lt_trans hlt hlen)
    have hreadInfos : ∀ (n : Nat) (l : List ValueInfo), valuesOf bytesValue n fs = l.map encodeValueInfo →
        (l.map encodeValueInfo).mapM decodeValueInfo = some l := by
      intro n l hl
      apply mapM_valueInfos
      intro vi hvi
      exact lt_trans (hnested n _ (hl ▸ mem_map.2 ⟨vi, hvi, rfl⟩)) hlen
    rw [decodeGraph, hbytes]
    rw [hbytes] at hlen
    rw [readFields_of_small hsmall hlen]
    simp only [bind_eq_bind, bind_some, hnodeValues, hreadNodes, htensorValues,
      hreadTensors, hinputValues, hreadInfos 11 inputs hinputValues, houtputValues,
      hreadInfos 12 outputs houtputValues, hinfoValues, hreadInfos 13 valueInfos hinfoValues, hname]

end Camel.Onnx

/-! # Whole Models

    A model that is accepted is read back as it is. Its tensors have passed the size check,
    which compares what 64 bits keep of the product of the extents and the element size;
    the number of bytes is the exact one as long as the product fits.
-/

namespace Camel.Onnx

open Lib Lib.Wire Extents

/-! ## The Tensors of a Graph -/

/-- The tensor is an initializer of the graph, or in an attribute of a node, or in a graph
    nested in it. -/
inductive Holds (t : TensorValue) : Graph → Prop where
  | initializer {g : Graph} (h : t ∈ g.initializers) : Holds t g
  | payload {g : Graph} {n : Node} {a : Attribute} (hn : n ∈ g.nodes) (ha : a ∈ n.attributes)
      (hvalue : a.value = .tensor t) : Holds t g
  | nested {s g : Graph} (h : Nested s g) (hs : Holds t s) : Holds t g

theorem forall₂_exists {α β : Type} {R : α → β → Prop} {l : List α} {bs : List β}
    (h : List.Forall₂ R l bs) : ∀ x ∈ l, ∃ b, R x b := by
  induction h with
  | nil => simp
  | cons hx _ ih =>
    rw [List.forall_mem_cons]
    exact ⟨⟨_, hx⟩, ih⟩

variable {g : Graph} {bytes : Bytes}

/-- Every payload of a graph that is written is written. -/
theorem encodeValue_of_graph (h : encodeGraph g = .ok bytes)
    {n : Node} (hn : n ∈ g.nodes) {a : Attribute} (ha : a ∈ n.attributes) :
    ∃ r, encodeValue a.value = .ok r := by
  obtain ⟨name, nodes, initializers, inputs, outputs, valueInfos⟩ := g
  rw [encodeGraph] at h
  obtain ⟨nodeBytes, hnodes, -⟩ := ok_of_bind h
  obtain ⟨ns, -, hallNodes⟩ := encodeNodes_ok hnodes
  obtain ⟨b, hb⟩ := forall₂_exists hallNodes n hn
  obtain ⟨opType, nodeName, nodeInputs, nodeOutputs, attributes, domain⟩ := n
  rw [encodeNode] at hb
  obtain ⟨attributeBytes, hattributes, -⟩ := ok_of_bind hb
  obtain ⟨as, -, hallAttributes⟩ := encodeAttributes_ok hattributes
  obtain ⟨c, hc⟩ := forall₂_exists hallAttributes a ha
  obtain ⟨attrName, value⟩ := a
  rw [encodeAttribute] at hc
  obtain ⟨r, hr, -⟩ := ok_of_bind hc
  exact ⟨r, hr⟩

theorem encodeInitializer_of_graph (h : encodeGraph g = .ok bytes)
    {t : TensorValue} (ht : t ∈ g.initializers) : ∃ b, encodeTensor t = .ok b := by
  obtain ⟨name, nodes, initializers, inputs, outputs, valueInfos⟩ := g
  rw [encodeGraph] at h
  obtain ⟨nodeBytes, -, h⟩ := ok_of_bind h
  obtain ⟨tensorBytes, htensors, -⟩ := ok_of_bind h
  obtain ⟨ts, -, hall⟩ := encodeInitializers_ok htensors
  exact forall₂_exists hall t ht

/-- Every tensor of a graph that is written has passed the size check. -/
theorem checked_of_holds {t : TensorValue} (hold : Holds t g) :
    ∀ {bytes : Bytes}, encodeGraph g = .ok bytes → Checked t := by
  induction hold with
  | initializer ht =>
    intro bytes h
    obtain ⟨b, hb⟩ := encodeInitializer_of_graph h ht
    exact (encodeTensor_ok hb).2
  | payload hn ha hvalue =>
    intro bytes h
    obtain ⟨r, hr⟩ := encodeValue_of_graph h hn ha
    rw [hvalue, encodeValue] at hr
    obtain ⟨b, hb, -⟩ := ok_of_bind hr
    exact (encodeTensor_ok hb).2
  | nested hnested _ ih =>
    intro bytes h
    obtain ⟨n, hn, a, ha, hvalue⟩ := hnested
    obtain ⟨r, hr⟩ := encodeValue_of_graph h hn ha
    rw [hvalue, encodeValue] at hr
    obtain ⟨b, hb, -⟩ := ok_of_bind hr
    exact ih hb

/-! ## Operator Sets and Metadata -/

theorem decodeOpset_encode {op : OpsetImport}
    (hlen : (encodeOpset op.domain op.version).length < 2 ^ 64) :
    decodeOpset (encodeOpset op.domain op.version) = some op := by
  have heq : encodeOpset op.domain op.version =
      renderAll (optField 1 op.domain ++ [⟨2, .varint op.version.toUInt64.toNat⟩]) := by
    unfold encodeOpset
    rw [renderAll_append, ← optStringField_eq, ← intField_eq]
  rw [heq] at hlen ⊢
  have hsmall : ∀ f ∈ optField 1 op.domain ++ [⟨2, .varint op.version.toUInt64.toNat⟩],
      f.Small := by
    simp only [List.forall_mem_append, List.forall_mem_singleton]
    exact ⟨forall_optField (small_bytes (by decide)) _, small_int (by decide) _⟩
  have hdomain : textOf 1 (optField 1 op.domain ++ [⟨2, .varint op.version.toUInt64.toNat⟩]) =
      op.domain := textOf_opt (by simp)
  have hversion : intAt 2 (optField 1 op.domain ++ [⟨2, .varint op.version.toUInt64.toNat⟩]) =
      op.version := intAt_eq (by simp)
  unfold decodeOpset
  rw [readFields_of_small hsmall hlen]
  simp only [Option.bind_eq_bind, Option.bind_some, hdomain, hversion]

theorem decodeMetadata_encode {entry : MetadataEntry}
    (hlen : (encodeMetadata entry).length < 2 ^ 64) :
    decodeMetadata (encodeMetadata entry) = some entry := by
  have heq : encodeMetadata entry = renderAll [⟨1, .bytes entry.key⟩, ⟨2, .bytes entry.value⟩] := by
    show stringField 1 entry.key ++ stringField 2 entry.value = _
    rw [stringField_eq, stringField_eq, ← renderAll_append]
    rfl
  rw [heq] at hlen ⊢
  have hkey : textOf 1 [⟨1, .bytes entry.key⟩, ⟨2, .bytes entry.value⟩] = entry.key :=
    textOf_eq (by simp)
  have hvalue : textOf 2 [⟨1, .bytes entry.key⟩, ⟨2, .bytes entry.value⟩] = entry.value :=
    textOf_eq (by simp)
  have hsmall : ∀ f ∈ ([⟨1, .bytes entry.key⟩, ⟨2, .bytes entry.value⟩] : List Field),
      f.Small := by
    simp only [List.forall_mem_cons]
    exact ⟨small_bytes (by decide) _, small_bytes (by decide) _, by simp⟩
  unfold decodeMetadata
  rw [readFields_of_small hsmall hlen]
  simp only [Option.bind_eq_bind, Option.bind_some, hkey, hvalue]

/-! ## Models -/

/-- The operator sets in the order they are written, the one of the default domain first. -/
def Model.opsets (model : Model) : List OpsetImport := ⟨[], model.opset⟩ :: model.extraOpsets

def modelFields (model : Model) (graph : Bytes) : List Field :=
  [⟨1, .varint model.irVersion.toUInt64.toNat⟩] ++ (optField 2 model.producer ++
    (optField 3 model.producerVersion ++ ([⟨7, .bytes graph⟩] ++
      (repeatedField 8 (model.opsets.map fun op => encodeOpset op.domain op.version) ++
        repeatedField 14 (model.metadata.map encodeMetadata)))))

theorem small_modelFields (model : Model) (graph : Bytes) : ∀ f ∈ modelFields model graph, f.Small := by
  unfold modelFields
  simp only [List.forall_mem_append, List.forall_mem_singleton]
  exact ⟨small_int (by decide) _, forall_optField (small_bytes (by decide)) _,
    forall_optField (small_bytes (by decide)) _, small_bytes (by decide) _,
    forall_repeatedField (small_bytes (by decide)) _,
    forall_repeatedField (small_bytes (by decide)) _⟩

theorem serialize_ok {model : Model} (h : serialize model = .ok bytes) :
    bytes.length < 2 ^ 63 ∧ ∃ graph, encodeGraph model.graph = .ok graph ∧
      bytes = renderAll (modelFields model graph) := by
  unfold serialize at h
  obtain ⟨graph, hgraph, h⟩ := ok_of_bind h
  simp only at h
  split at h
  · cases h
  · next hlen =>
    injection h with h
    refine ⟨by rw [← h]; exact lt_of_not_ge hlen, graph, hgraph, ?_⟩
    have hopsets : bytesField 8 (encodeOpset [] model.opset) ++
        (model.extraOpsets.flatMap fun op => bytesField 8 (encodeOpset op.domain op.version)) =
        model.opsets.flatMap fun op => bytesField 8 (encodeOpset op.domain op.version) := rfl
    rw [← h, List.append_assoc _ (bytesField 8 _) _, hopsets, intField_eq, optStringField_eq,
      optStringField_eq, bytesField_eq 7, flatMap_bytesField, flatMap_bytesField]
    unfold modelFields
    simp only [renderAll_append, List.append_assoc]

/-- A model is read as it was written. -/
theorem decodeModel_serialize {model : Model} (h : serialize model = .ok bytes) :
    decodeModel bytes = some model := by
  obtain ⟨hlen, graph, hgraph, hbytes⟩ := serialize_ok h
  generalize hfs : modelFields model graph = fs at hbytes
  have hsmall : ∀ f ∈ fs, f.Small := by
    rw [← hfs]
    exact small_modelFields model graph
  have hmessage : messageOf 7 fs = some graph := by
    apply messageOf_eq
    simp [← hfs, modelFields]
  have hopsets : valuesOf bytesValue 8 fs =
      model.opsets.map fun op => encodeOpset op.domain op.version := by
    simp [← hfs, modelFields]
  have hmetadata : valuesOf bytesValue 14 fs = model.metadata.map encodeMetadata := by
    simp [← hfs, modelFields]
  have hversion : intAt 1 fs = model.irVersion := by
    apply intAt_eq
    simp [← hfs, modelFields]
  have hproducer : textOf 2 fs = model.producer := by
    apply textOf_opt
    simp [← hfs, modelFields]
  have hproducerVersion : textOf 3 fs = model.producerVersion := by
    apply textOf_opt
    simp [← hfs, modelFields]
  have hnested : ∀ n b, b ∈ valuesOf bytesValue n fs → b.length < 2 ^ 64 := by
    intro n b hb
    have hlt := length_le_renderAll ((mem_valuesOf_bytes n b fs).1 hb)
    rw [← hbytes] at hlt
    omega
  have hgraphLen : graph.length < 2 ^ 64 := by
    apply hnested 7
    simp [← hfs, modelFields]
  have hreadGraph := decodeGraph_encode model.graph graph (graph.length + 1) hgraph hgraphLen
    (lt_add_one _)
  have hreadOpsets : (model.opsets.map fun op => encodeOpset op.domain op.version).mapM
      decodeOpset = some model.opsets := by
    apply mapM_map
    intro op hop
    apply decodeOpset_encode
    apply hnested 8
    rw [hopsets]
    exact List.mem_map.2 ⟨op, hop, rfl⟩
  have hreadMetadata : (model.metadata.map encodeMetadata).mapM decodeMetadata =
      some model.metadata := by
    apply mapM_map
    intro entry hentry
    apply decodeMetadata_encode
    apply hnested 14
    rw [hmetadata]
    exact List.mem_map.2 ⟨entry, hentry, rfl⟩
  have hread : readFields bytes = some fs := by
    rw [hbytes]
    apply readFields_of_small hsmall
    rw [← hbytes]
    omega
  unfold decodeModel
  rw [hread]
  simp only [Option.bind_eq_bind, Option.bind_some, hmessage, hreadGraph, hopsets, hreadOpsets,
    hmetadata, hreadMetadata, hversion, hproducer, hproducerVersion]
  rfl

/-- A model that is accepted is read back, and its tensors have the bytes their extents ask
    for, as long as none of them asks for 2^64 bytes. -/
theorem serialize_correct_iff {model : Model} {bytes : Bytes} (h : serialize model = .ok bytes) :
    (decodeModel bytes = some model ∧ ∀ t, Holds t model.graph → t.exactBytes = t.raw.length) ↔
      ∀ t, Holds t model.graph → t.exactBytes < 2 ^ 64 := by
  obtain ⟨-, graph, hgraph, -⟩ := serialize_ok h
  -- both sides of the size check, for a tensor of the model
  have hsize : ∀ t, Holds t model.graph → t.raw.length = t.exactBytes % 2 ^ 64 :=
    fun t ht => (checked_of_holds ht hgraph).2
  constructor
  · intro hboth t ht
    rw [hboth.2 t ht, hsize t ht]
    exact Nat.mod_lt _ (by decide)
  · intro hfits
    refine ⟨decodeModel_serialize h, ?_⟩
    intro t ht
    rw [hsize t ht, Nat.mod_eq_of_lt (hfits t ht)]

/-- A model of one initializer. -/
def single (t : TensorValue) : Model := ⟨.mk [] [] [t] [] [] [], 8, 17, [], [], [], []⟩

/-- 2^32 times 2^32 elements, and no bytes. -/
def wide : TensorValue := ⟨[], .float, [4294967296, 4294967296], []⟩

theorem serialize_accepts : ¬ ∀ (model : Model) (bytes : Bytes), serialize model = .ok bytes →
    decodeModel bytes = some model ∧ ∀ t, Holds t model.graph → t.exactBytes = t.raw.length := by
  intro h
  have hbytes : serialize (single wide) = .ok [8, 8, 58, 18, 42, 16, 10, 10, 128, 128, 128, 128, 16,
      128, 128, 128, 128, 16, 16, 1, 74, 0, 66, 2, 16, 17] := by
    rw [serialize, single, encodeGraph, encodeNodes]
    rfl
  have hsize := (h _ _ hbytes).2 wide (.initializer List.mem_cons_self)
  exact absurd hsize (by decide)

/-- A truth value under a name. -/
def lamp : TensorValue := ⟨[108], .bool, [1], [1]⟩

theorem serialize_correct_iff_lamp :
    let bytes : Bytes := [8, 8, 58, 13, 42, 11, 10, 1, 1, 16, 9, 66, 1, 108, 74, 1, 1, 66, 2, 16, 17]
    (decodeModel bytes = some (single lamp) ∧
      ∀ t, Holds t (single lamp).graph → t.exactBytes = t.raw.length) ↔
      ∀ t, Holds t (single lamp).graph → t.exactBytes < 2 ^ 64 := by
  apply serialize_correct_iff
  rw [serialize, single, encodeGraph, encodeNodes]
  rfl

end Camel.Onnx
