import Camel.Tensor.Npy

/-! # NPY Round Trips

    What was written is read back, by the exact reader for the element types of a
    checkpoint and by the loader for every shape a tensor has; and whatever the exact reader
    accepts has as many bytes as its extents say.
-/

namespace Camel.Tensor.Npy

open Lib Extents List

/-! ## The Header -/

/-- What stands behind the extents. -/
def behind (descr : List UInt8) (dims : List Int64) : List UInt8 :=
  ascii ", \x7d" ++ List.replicate ((64 - (6 + 2 + 2 + (ascii "\x7b'descr': '" ++ descr ++
    ascii "', 'fortran_order': False, 'shape': " ++ shapeText dims ++ ascii ", \x7d").length + 1) % 64)
      % 64) 32 ++ [10]

theorem headerText_eq (descr : List UInt8) (dims : List Int64) :
    headerText descr dims = ascii "\x7b'descr': '" ++ (descr ++
      (ascii "', 'fortran_order': False, 'shape': " ++ (40 :: (extentsFrom dims.length 0 dims ++
        41 :: behind descr dims)))) := by
  unfold headerText behind
  rw [shapeText_eq]
  simp only [append_assoc, cons_append, nil_append]

variable {dtype : ElementType} {descr : List UInt8}

/-- What a header says in front of the extents is read off, whatever stands from them on. -/
theorem parseHeader_front (h : descrOf dtype = .ok descr)
    (path : String) (tail : List UInt8) :
    parseHeader (ascii "\x7b'descr': '" ++ (descr ++
      (ascii "', 'fortran_order': False, 'shape': " ++ 40 :: tail))) path =
      match find (ascii "(") (40 :: tail), find (ascii ")") (40 :: tail) with
      | some start, some stop => (do
        let inner := between (40 :: tail) start stop
        let shape ← shapeLoop inner.length inner
        .ok ⟨descr.getD 0 0, descr.getD 1 0, elementSize dtype, false, shape⟩)
      | _, _ => .error (fail path "malformed shape") := by
  cases dtype with
  | float32 => cases h; rfl
  | float64 => cases h; rfl
  | int32 => cases h; rfl
  | int64 => cases h; rfl
  | bool => cases h; rfl
  | other _ _ _ => cases h

variable {dims : List Int64}

/-- A header is read as it was written. -/
theorem parseHeader_headerText
    (h : descrOf dtype = .ok descr) (hnonneg : NonNeg dims) (path : String) :
    parseHeader (headerText descr dims) path =
      .ok ⟨descr.getD 0 0, descr.getD 1 0, elementSize dtype, false, dims⟩ := by
  have hopen : find (ascii "(") (40 :: (extentsFrom dims.length 0 dims ++ 41 :: behind descr dims)) =
      some 0 := rfl
  have hclose : find (ascii ")")
      (40 :: (extentsFrom dims.length 0 dims ++ 41 :: behind descr dims)) =
      some (extentsFrom dims.length 0 dims).length.succ := by
    have hmem : (41 : UInt8) ∉ 40 :: extentsFrom dims.length 0 dims := by
      rw [mem_cons]
      intro hbad
      rcases hbad with hbad | hbad
      · exact absurd hbad (by decide)
      · exact close_not_mem_extentsFrom hnonneg hbad
    exact find_letter hmem (behind descr dims)
  have hinner : between (40 :: (extentsFrom dims.length 0 dims ++ 41 :: behind descr dims)) 0
      (extentsFrom dims.length 0 dims).length.succ = extentsFrom dims.length 0 dims := by
    unfold between
    rw [if_pos (Nat.succ_pos _)]
    show (extentsFrom dims.length 0 dims ++ 41 :: behind descr dims).take
      ((extentsFrom dims.length 0 dims).length.succ - 0 - 1) = _
    rw [Nat.sub_zero, Nat.succ_sub_one, take_left]
  have hrounds : dims.length ≤ (extentsFrom dims.length 0 dims).length :=
    length_le_extentsFrom hnonneg
  have hnone : ∀ c ∈ ([] : List UInt8), IsSeparator c := by simp
  have hloop := shapeLoop_extents hnonneg hnone hrounds (zero_add dims.length)
  rw [nil_append] at hloop
  rw [headerText_eq, parseHeader_front h path, hopen, hclose]
  simp only [hinner, hloop, bind, Except.bind]

/-! ## Written Files -/

theorem length_headerText (descr : List UInt8) (dims : List Int64) :
    (10 + (headerText descr dims).length) % 64 = 0 := by
  unfold headerText
  simp only [length_append, length_replicate, length_singleton]
  omega

/-- Only many extents make a header long. -/
theorem length_headerText_le (descr : List UInt8) (dims : List Int64) :
    (headerText descr dims).length ≤ descr.length + (shapeText dims).length + 114 := by
  have hfirst : (ascii "\x7b'descr': '").length = 11 := rfl
  have hsecond : (ascii "', 'fortran_order': False, 'shape': ").length = 36 := rfl
  have hlast : (ascii ", \x7d").length = 3 := rfl
  unfold headerText
  simp only [length_append, length_replicate, length_singleton, hfirst, hsecond,
    hlast]
  omega

theorem storage_size (h : descrOf dtype = .ok descr) :
    0 < elementSize dtype ∧ elementSize dtype < 2 ^ 64 := by
  cases dtype with
  | other _ _ _ => cases h
  | _ => exact ⟨by decide, by decide⟩

variable {payload bytes : List UInt8}

/-- What is written for a payload. -/
theorem encodeNpy_ok_iff :
    encodeNpy dtype dims payload = .ok bytes ↔
      tensorPayloadSize dtype dims = .ok payload.length ∧
      ∃ descr, descrOf dtype = .ok descr ∧ (headerText descr dims).length ≤ 65535 ∧
        bytes = magic ++ [1, 0] ++ bytesOf 2 (headerText descr dims).length ++
          headerText descr dims ++ payload := by
  unfold encodeNpy
  constructor
  · intro h
    obtain ⟨size, hsize, h⟩ := ok_of_bind h
    obtain ⟨hlen, h⟩ := of_failIf_bind h
    obtain ⟨descr, hdescr, h⟩ := ok_of_bind h
    obtain ⟨hfits, h⟩ := of_failIf_bind h
    injection h with h
    push Not at hlen
    exact ⟨by rw [hsize, hlen], descr, hdescr, le_of_not_gt hfits, h.symm⟩
  · intro ⟨hsize, descr, hdescr, hfits, hbytes⟩
    simp only [hsize, hdescr, bind, Except.bind, failIf_neg _ (not_not.2 rfl),
      failIf_neg _ (Nat.not_lt.2 hfits)]
    rw [hbytes]

/-- The parts of a written file, as the readers take them. -/
structure Written (bytes header payload : List UInt8) : Prop where
  magic_eq : bytes.take 6 = magic
  major_eq : bytes.getD 6 0 = 1
  minor_eq : bytes.getD 7 0 = 0
  size_eq : wordOf ((bytes.drop 8).take 2) = header.length
  header_eq : (bytes.drop 10).take header.length = header
  payload_eq : bytes.drop (10 + header.length) = payload
  length_eq : bytes.length = 10 + header.length + payload.length

theorem written_encode {header : List UInt8} (h : header.length ≤ 65535) (payload : List UInt8) :
    Written (magic ++ [1, 0] ++ bytesOf 2 header.length ++ header ++ payload) header payload := by
  have hlen : (bytesOf 2 header.length).length = 2 := length_bytesOf ..
  have hshape : magic ++ [1, 0] ++ bytesOf 2 header.length ++ header ++ payload =
      (magic ++ [1, 0] ++ bytesOf 2 header.length) ++ (header ++ payload) := append_assoc ..
  have hfront : (magic ++ [1, 0] ++ bytesOf 2 header.length).length = 10 := by
    rw [length_append, hlen]
    rfl
  refine ⟨rfl, rfl, rfl, ?_, ?_, ?_, ?_⟩
  · have hword : ((magic ++ [1, 0] ++ bytesOf 2 header.length ++ header ++ payload).drop 8).take 2 =
        bytesOf 2 header.length := rfl
    rw [hword, wordOf_bytesOf]
    omega
  · rw [hshape, ← hfront, drop_left, take_left]
  · rw [hshape, ← hfront, ← drop_drop, drop_left, drop_left]
  · rw [hshape, length_append, hfront, length_append, add_assoc]

/-- The exact reader takes the element types of a checkpoint, bools as zero and one. -/
def Exact (dtype : ElementType) (payload : List UInt8) : Prop :=
  dtype = .float32 ∨ dtype = .int64 ∨ (dtype = .bool ∧ ∀ b ∈ payload, b ≤ 1)

theorem checkpointType_of_exact
    (hdescr : descrOf dtype = .ok descr) (h : Exact dtype payload) :
    checkpointType (descr.getD 1 0) (elementSize dtype) = some dtype ∧
      (descr.getD 0 0 = 60 ∨ (descr.getD 0 0 = 124 ∧ elementSize dtype = 1)) := by
  rcases h with rfl | rfl | ⟨rfl, -⟩
  · cases hdescr
    exact ⟨rfl, .inl rfl⟩
  · cases hdescr
    exact ⟨rfl, .inl rfl⟩
  · cases hdescr
    exact ⟨rfl, .inr ⟨rfl, rfl⟩⟩

theorem storageType_of_descr
    (h : descrOf dtype = .ok descr) :
    storageType (descr.getD 1 0) (elementSize dtype) = some dtype ∧
      (descr.getD 0 0 = 60 ∨ descr.getD 0 0 = 124) := by
  cases dtype with
  | float32 => cases h; exact ⟨rfl, .inl rfl⟩
  | float64 => cases h; exact ⟨rfl, .inl rfl⟩
  | int32 => cases h; exact ⟨rfl, .inl rfl⟩
  | int64 => cases h; exact ⟨rfl, .inl rfl⟩
  | bool => cases h; exact ⟨rfl, .inr rfl⟩
  | other _ _ _ => cases h

/-- The exact reader reads what was written. -/
theorem inspect_written
    (hsize : tensorPayloadSize dtype dims = .ok payload.length) (hdescr : descrOf dtype = .ok descr)
    (hfits : (headerText descr dims).length ≤ 65535)
    (hbytes : Written bytes (headerText descr dims) payload) (hexact : Exact dtype payload) :
    inspectNpyExact bytes = .ok ⟨dtype, dims, payload, false⟩ := by
  have hnonneg := (tensorPayloadSize_ok (storage_size hdescr) hsize).1
  have hlen := hbytes.length_eq
  obtain ⟨htype, horder⟩ := checkpointType_of_exact hdescr hexact
  have hlong : ¬ (bytes.length < 10 ∨ bytes.take 6 ≠ magic) := by
    rw [hbytes.magic_eq]
    simp only [ne_eq, not_true_eq_false, or_false]
    omega
  have hversion : ¬ (bytes.getD 7 0 ≠ 0 ∨ bytes.getD 6 0 < 1 ∨ 3 < bytes.getD 6 0) := by
    rw [hbytes.minor_eq, hbytes.major_eq]
    decide
  have hheader : ¬ (1024 * 1024 < (headerText descr dims).length ∨
      bytes.length - 8 - 2 < (headerText descr dims).length) := by omega
  have hbyteOrder : ¬ (descr.getD 0 0 ≠ 60 ∧ descr.getD 0 0 ≠ 62 ∧ descr.getD 0 0 ≠ 61 ∧
      ¬ (descr.getD 0 0 = 124 ∧ elementSize dtype = 1)) := by
    intro hbad
    rcases horder with horder | horder
    · exact hbad.1 horder
    · exact hbad.2.2.2 horder
  have hbool : ¬ (dtype = .bool ∧ ¬ ∀ b ∈ payload, b ≤ 1) := by
    rcases hexact with rfl | rfl | ⟨-, hall⟩
    · simp
    · simp
    · exact fun hbad => hbad.2 hall
  have hbig : ¬ descr.getD 0 0 = 62 := by
    rcases horder with horder | horder
    · rw [horder]
      decide
    · rw [horder.1]
      decide
  unfold inspectNpyExact
  simp only [bind, Except.bind, failIf_neg _ hlong, failIf_neg _ hversion]
  simp only [hbytes.major_eq, if_true, failIf_neg _ (show ¬ bytes.length < 8 + 2 by omega),
    hbytes.size_eq, failIf_neg _ hheader, hbytes.header_eq, parseHeader_headerText hdescr hnonneg,
    failIf_neg _ Bool.false_ne_true, htype, failIf_neg _ hbyteOrder, hbytes.payload_eq, hsize,
    failIf_neg _ (not_not.2 (Eq.refl payload.length)), failIf_neg _ hbool]
  simp only [hbig, decide_false]

/-- The loader reads what was written into a tensor, if there is one of the shape. -/
theorem load_written
    (hsize : tensorPayloadSize dtype dims = .ok payload.length) (hdescr : descrOf dtype = .ok descr)
    (hbytes : Written bytes (headerText descr dims) payload) (path : String) :
    loadNpy path (some bytes) none =
      match createTensor dims [] with
      | .error text => .error (.refused (.argument text))
      | .ok t => .ok (dtype, t.fill ((List.range t.numel).map fun i =>
          (i, (payload.drop (i * elementSize dtype)).take (elementSize dtype)))) := by
  obtain ⟨hnonneg, hcount, hlt⟩ := tensorPayloadSize_ok (storage_size hdescr) hsize
  have hlen := hbytes.length_eq
  obtain ⟨htype, horder⟩ := storageType_of_descr hdescr
  have hlittle : ¬ (¬ (descr.getD 0 0 = 60 ∨ descr.getD 0 0 = 124 ∨ descr.getD 0 0 = 61) ∧
      1 < elementSize dtype) := by
    rintro ⟨hbad, -⟩
    rcases horder with horder | horder
    · exact hbad (.inl horder)
    · exact hbad (.inr (.inl horder))
  have hheader : ¬ bytes.length < 8 + 2 + (headerText descr dims).length := by omega
  unfold loadNpy
  simp only [bind, Except.bind, hbytes.magic_eq, ne_eq, not_true_eq_false, failIf_neg _ not_false,
    hbytes.major_eq, if_true, false_and, hbytes.size_eq, failIf_neg _ hheader, hbytes.header_eq,
    parseHeader_headerText hdescr hnonneg, Bool.false_eq_true, htype, checkDeclared,
    hbytes.payload_eq, allocate]
  cases hcreate : createTensor dims ([] : List UInt8) with
  | error text => rfl
  | ok t =>
    have hraw : t.numel * elementSize dtype % 2 ^ 64 = payload.length := by
      unfold Tensor.numel
      rw [(createTensor_ok hcreate).1, ← hcount, Nat.mod_eq_of_lt hlt]
    simp only [Except.mapError, hraw, take_length, not_true_eq_false, failIf_neg _ not_false]
    unfold readElement
    simp only [hlittle, decide_false, Bool.false_eq_true, if_false]

/-! ## Read Files -/

theorem checkpointType_size {kind : UInt8} {itemSize : Nat}
    (h : checkpointType kind itemSize = some dtype) :
    0 < elementSize dtype ∧ elementSize dtype < 2 ^ 64 := by
  unfold checkpointType at h
  split at h
  · cases h
    exact ⟨by decide, by decide⟩
  · split at h
    · cases h
      exact ⟨by decide, by decide⟩
    · split at h
      · cases h
        exact ⟨by decide, by decide⟩
      · cases h

/-- Whatever the exact reader accepts has as many bytes as its extents say. -/
theorem inspectNpyExact_size {view : NpyStorageView}
    (h : inspectNpyExact bytes = .ok view) :
    NonNeg view.shape ∧ numel view.shape * elementSize view.dtype = view.payload.length := by
  unfold inspectNpyExact at h
  simp only at h
  obtain ⟨-, h⟩ := of_failIf_bind h
  obtain ⟨-, h⟩ := of_failIf_bind h
  obtain ⟨-, h⟩ := of_failIf_bind h
  obtain ⟨-, h⟩ := of_failIf_bind h
  obtain ⟨parsed, -, h⟩ := ok_of_bind h
  obtain ⟨-, h⟩ := of_failIf_bind h
  split at h
  · cases h
  · next dtype htype =>
    obtain ⟨-, h⟩ := of_failIf_bind h
    obtain ⟨size, hsize, h⟩ := ok_of_bind h
    obtain ⟨hlen, h⟩ := of_failIf_bind h
    obtain ⟨-, h⟩ := of_failIf_bind h
    injection h with h
    obtain ⟨hnonneg, hcount, -⟩ := tensorPayloadSize_ok (checkpointType_size htype) hsize
    push Not at hlen
    rw [← h]
    exact ⟨hnonneg, by rw [← hcount, ← hlen]⟩

/-! ## The Format -/

/-- The elements of a loaded payload are its rows. -/
theorem load_payload {width : Nat}
    {t : Tensor (List UInt8)} (hcreate : createTensor dims ([] : List UInt8) = .ok t)
    (hlen : payload.length = numel dims * width) :
    let loaded := t.fill ((List.range t.numel).map fun i =>
      (i, (payload.drop (i * width)).take width))
    loaded.shape = dims ∧ loaded.data.flatten = payload ∧ ∀ x ∈ loaded.data, x.length = width := by
  intro loaded
  have hshape := (createTensor_ok hcreate).1
  have hdata : loaded.data = (List.range t.numel).map fun i =>
      (payload.drop (i * width)).take width := Tensor.fill_range _
  have hnumel : payload.length = t.numel * width := by
    unfold Tensor.numel
    rw [hlen, hshape]
  refine ⟨hshape, ?_, ?_⟩
  · rw [hdata]
    exact flatten_rows hnumel
  · rw [hdata]
    intro x hx
    obtain ⟨i, hi, rfl⟩ := mem_map.1 hx
    have hrow : (i + 1) * width ≤ t.numel * width :=
      Nat.mul_le_mul_right _ (mem_range.1 hi)
    rw [Nat.succ_mul] at hrow
    rw [length_take, length_drop, hnumel]
    omega

/-- A payload of the length its shape says is written, if its header fits, behind a front that
    is a multiple of 64 long; the exact reader gives it back for the element types of a
    checkpoint, and the loader for every shape that a tensor has; and the exact reader accepts
    only as many bytes as the extents it returns say. -/
theorem npy_correct :
    (∀ dtype dims payload descr, descrOf dtype = .ok descr →
      tensorPayloadSize dtype dims = .ok payload.length →
      (headerText descr dims).length ≤ 65535 →
      ∃ front, encodeNpy dtype dims payload = .ok (front ++ payload) ∧ front.length % 64 = 0 ∧
        front.length = 10 + wordOf ((front.drop 8).take 2) ∧
        (Exact dtype payload →
          inspectNpyExact (front ++ payload) = .ok ⟨dtype, dims, payload, false⟩) ∧
        ∀ path n, checkedNumel dims = .ok n → ∃ t,
          loadNpy path (some (front ++ payload)) none = .ok (dtype, t) ∧ t.shape = dims ∧
            t.data.flatten = payload ∧ ∀ x ∈ t.data, x.length = elementSize dtype) ∧
    ∀ bytes view, inspectNpyExact bytes = .ok view →
      NonNeg view.shape ∧ numel view.shape * elementSize view.dtype = view.payload.length := by
  constructor
  · intro dtype dims payload descr hdescr hsize hfits
    have hwritten := written_encode hfits payload
    have hfront : (magic ++ [1, 0] ++ bytesOf 2 (headerText descr dims).length ++
        headerText descr dims).length = 10 + (headerText descr dims).length := by
      simp [magic, ascii]
      omega
    refine ⟨magic ++ [1, 0] ++ bytesOf 2 (headerText descr dims).length ++ headerText descr dims,
      encodeNpy_ok_iff.2 ⟨hsize, descr, hdescr, hfits, rfl⟩, ?_, ?_, ?_, ?_⟩
    · rw [hfront]
      exact length_headerText descr dims
    · have hself := (written_encode hfits []).size_eq
      rw [append_nil] at hself
      rw [hfront, hself]
    · exact inspect_written hsize hdescr hfits hwritten
    · intro path n hn
      obtain ⟨t, ht⟩ := (createTensor_ok_iff dims ([] : List UInt8)).2 ⟨n, hn⟩
      have hcount := (tensorPayloadSize_ok (storage_size hdescr) hsize).2.1
      obtain ⟨hshape, hdata, hrows⟩ := load_payload ht hcount
      refine ⟨_, ?_, hshape, hdata, hrows⟩
      rw [load_written hsize hdescr hwritten, ht]
  · intro bytes view h
    exact inspectNpyExact_size h

/-- A row of two bools. -/
theorem npy_correct_bools : ∃ front, encodeNpy .bool [1, 2] [1, 0] = .ok (front ++ [1, 0]) ∧
    front.length % 64 = 0 ∧ inspectNpyExact (front ++ [1, 0]) = .ok ⟨.bool, [1, 2], [1, 0], false⟩ ∧
    ∃ t, loadNpy "bools.npy" (some (front ++ [1, 0])) none = .ok (.bool, t) ∧ t.shape = [1, 2] ∧
      t.data.flatten = [1, 0] := by
  have hshape : (ascii "|b1").length + (shapeText [1, 2]).length ≤ 100 := by decide
  have hfits : (headerText (ascii "|b1") [1, 2]).length ≤ 65535 := by
    have hle := length_headerText_le (ascii "|b1") [1, 2]
    omega
  obtain ⟨front, henc, hmod, -, hinspect, hload⟩ :=
    npy_correct.1 .bool [1, 2] [1, 0] (ascii "|b1") rfl rfl hfits
  have hexact : Exact .bool [1, 0] := .inr (.inr ⟨rfl, by simp⟩)
  obtain ⟨t, ht, hloaded, hdata, -⟩ := hload "bools.npy" 2 rfl
  exact ⟨front, henc, hmod, hinspect hexact, t, ht, hloaded, hdata⟩

/-- Extents whose product overflows before it meets the zero: the file holds no byte, it is
    written and accepted, and no tensor has its shape. -/
theorem loadNpy_refuses : ∃ bytes, encodeNpy .float32 [2 ^ 40, 2 ^ 40, 0] [] = .ok bytes ∧
    inspectNpyExact bytes = .ok ⟨.float32, [2 ^ 40, 2 ^ 40, 0], [], false⟩ ∧
    loadNpy "empty.npy" (some bytes) none =
      .error (.refused (.argument "Array shape is too large")) := by
  have hshape : (ascii "<f4").length + (shapeText [2 ^ 40, 2 ^ 40, 0]).length ≤ 100 := by decide
  have hfits : (headerText (ascii "<f4") [2 ^ 40, 2 ^ 40, 0]).length ≤ 65535 := by
    have hle := length_headerText_le (ascii "<f4") [2 ^ 40, 2 ^ 40, 0]
    omega
  have hwritten := written_encode hfits []
  have hsize : tensorPayloadSize .float32 [2 ^ 40, 2 ^ 40, 0] = .ok ([] : List UInt8).length := rfl
  refine ⟨_, encodeNpy_ok_iff.2 ⟨hsize, ascii "<f4", rfl, hfits, rfl⟩,
    inspect_written hsize rfl hfits hwritten (.inl rfl), ?_⟩
  have hcreate : createTensor [2 ^ 40, 2 ^ 40, 0] ([] : List UInt8) =
      .error "Array shape is too large" := createTensor_error_iff.2 (by decide)
  rw [load_written hsize rfl hwritten, hcreate]

end Camel.Tensor.Npy
