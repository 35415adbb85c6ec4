/-
  The index of a safetensors file and the descriptors that the weight provider builds
  from it (`runtime/src/model/weight_loader.rs`), with the loaders that read behind a
  descriptor (`runtime/src/engine/compute_graph_runner.rs`).
-/

import CompileForge.Runtime.Cache.PolicyJson
import CompileForge.Runtime.Engine.OutputShapes
import CompileForge.Runtime.Model.WeightDecode

namespace CompileForge.Runtime

open Lib List

namespace Json

def asArray : Json → Option (List Json)
  | arr items => some items
  | _ => none

def field (key : String) : Json → Option Json
  | obj fields => fields.lookup key
  | _ => none

end Json

namespace Safetensors

/-- A byte slice: at most `isize::MAX` bytes. -/
structure ByteSlice where
  bytes : List UInt8
  fits : bytes.length < 2 ^ 63

/-! ## The index -/

structure CachedTensorInfo where
  dataStart : Nat
  dataEnd : Nat
  shape : List Nat
  dtype : Dtype
deriving DecidableEq, Repr

def headerLenOf (mmap : List UInt8) : Nat := leNat 8 (fun i => mmap.getD i 0) 0

variable (fromSlice : List UInt8 → Except String Json)

/-- `serde_json::from_slice` is a parameter; an outer `none` is a panic. -/
def readHeader (mmap : List UInt8) : Option (Except String (Nat × Json)) :=
  if mmap.length < 8 then some (.error "SFCF parse error: safetensors file too short")
  else
    let headerLen := headerLenOf mmap
    let headerEnd := (8 + headerLen) % 2 ^ 64
    if mmap.length < headerEnd then
      some (.error "SFCF parse error: safetensors header truncated")
    else if headerEnd < 8 then none
    else some ((fromSlice (slice mmap 8 (headerEnd - 8))).map fun header => (headerLen, header))

def dtypeOfHeader (s : String) : Dtype :=
  if s = "F32" then .f32
  else if s = "F16" then .f16
  else if s = "BF16" then .bf16
  else if s = "I64" then .i64
  else if s = "I32" then .i32
  else if s = "I8" then .i8
  else if s = "U8" then .u8
  else .f32

def headerShape (info : Json) : List Nat :=
  (((info.field "shape").bind Json.asArray).getD []).map fun v => v.asU64.getD 1

def headerDtype (info : Json) : Dtype :=
  dtypeOfHeader (((info.field "dtype").bind Json.asStr).getD "F32")

/-- `data_offsets`, of at least two entries. -/
def headerOffsets (info : Json) : Option (Nat × Nat) :=
  match (info.field "data_offsets").bind Json.asArray with
  | some (first :: second :: _) => some (first.asU64.getD 0, second.asU64.getD 0)
  | _ => none

/-- `usize` addition wraps, as in a release build. -/
def fileOffset (headerLen offset : Nat) : Nat := (offset + 8 + headerLen) % 2 ^ 64

/-- The body of the loop over the header; `none` skips the tensor. -/
def indexEntry (mmapLen headerLen : Nat) (info : Json) : Option CachedTensorInfo :=
  (headerOffsets info).bind fun offsets =>
    let start := fileOffset headerLen offsets.1
    let stop := fileOffset headerLen offsets.2
    if stop ≤ start ∨ mmapLen < stop then none
    else some ⟨start, stop, headerShape info, headerDtype info⟩

/-- The keys of an object are distinct; a number that is no integer reads as `null`, which no
    accessor tells from it. -/
def headerEntries (header : Json) : List (String × Json) := header.asObject.getD []

def indexEntries (mmapLen headerLen : Nat) (header : Json) : List (String × CachedTensorInfo) :=
  (headerEntries header).filterMap fun entry =>
    (indexEntry mmapLen headerLen entry.2).map (entry.1, ·)

def buildSafetensorsIndex (mmap : List UInt8) :
    Option (Except String (List (String × CachedTensorInfo))) :=
  (readHeader fromSlice mmap).map fun result => result.map fun parsed =>
    indexEntries mmap.length parsed.1 parsed.2

/-! ## The provider -/

structure ConstantTensor where
  dtype : Dtype
  shape : List Nat
  data : ByteSlice

structure WeightRegistry where
  nameMapping : AList fun _ : String => String
  constants : AList fun _ : String => ConstantTensor

structure WeightProvider where
  registry : WeightRegistry
  safetensorsMmap : Option ByteSlice
  safetensorsIndex : List (String × CachedTensorInfo)

def WeightProvider.new (registry : WeightRegistry)
    (file : Option ByteSlice) : Option (Except String WeightProvider) :=
  match file with
  | none => some (.ok ⟨registry, none, []⟩)
  | some mmap =>
    (buildSafetensorsIndex fromSlice mmap.bytes).map fun result =>
      result.map fun index => ⟨registry, some mmap, index⟩

/-- `MemRefDesc2`; `aligned` is the slice that the pointer was taken from. -/
structure MemRefDesc2 where
  aligned : List UInt8
  sizes : List Int
  strides : List Int

def asI64 (n : Nat) : Int := (n : Int).bmod (2 ^ 64)

/-- A descriptor keeps the slice that its pointer was taken from. -/
def memref2ForRaw (ptr : List UInt8) (shape : List Nat) : MemRefDesc2 :=
  match shape with
  | [rows, cols] => ⟨ptr, [asI64 rows, asI64 cols], [asI64 cols, 1]⟩
  | _ =>
    let numel := if shape.isEmpty then 1 else shape.prod % 2 ^ 64
    ⟨ptr, [asI64 numel, 1], [1, 1]⟩

def constantAsMemref (ct : ConstantTensor) : MemRefDesc2 := memref2ForRaw ct.data.bytes ct.shape

variable (desc : MemRefDesc2)

def MemRefDesc2.numel : Nat :=
  (checkedProductFromI64 desc.sizes).getD (2 ^ 64 - 1)

/-- `mmap[info.data_start..info.data_end]` as a descriptor. -/
def tensorMemref (mmap : List UInt8) (info : CachedTensorInfo) : Option (MemRefDesc2 × Dtype) :=
  if info.dataStart ≤ info.dataEnd ∧ info.dataEnd ≤ mmap.length then
    some (memref2ForRaw (slice mmap info.dataStart (info.dataEnd - info.dataStart)) info.shape,
      info.dtype)
  else none

/-- Constants come first, then the tensors of the file. -/
def getWeightMemref (p : WeightProvider) (name : String) :
    Option (Option (MemRefDesc2 × Dtype)) :=
  match p.registry.constants.lookup name with
  | some ct => some (some (constantAsMemref ct, ct.dtype))
  | none =>
    match p.registry.nameMapping.lookup name, p.safetensorsMmap with
    | some hfKey, some mmap =>
      match p.safetensorsIndex.lookup hfKey with
      | some info => (tensorMemref mmap.bytes info).map some
      | none => some none
    | _, _ => some none

/-! ## The loaders -/

/-- The sizes as `usize`. -/
def MemRefDesc2.usizes : List Nat :=
  desc.sizes.map fun d => (d % 2 ^ 64).toNat

/-- The memory behind a pointer; what follows the slice is not in the model. -/
def memory (aligned : List UInt8) (i : Nat) : UInt8 := aligned.getD i 0

def loadWeightTensor (half : HalfCrate) (desc : MemRefDesc2) (dtype : Dtype)
    (ioDef : GraphTensorDef) : Option (RawSlice FloatValue) :=
  if (ioDef.loadedShape desc.usizes).prod % 2 ^ 64 = desc.numel then
    some (convertWeightToF32 half (memory desc.aligned) desc.numel dtype)
  else none

def loadWeightTensorRaw (dtype : Dtype) (ioDef : GraphTensorDef) : Option (RawSlice UInt16) :=
  if (ioDef.loadedShape desc.usizes).prod % 2 ^ 64 = desc.numel then
    loadWeightTensorU16 (memory desc.aligned) desc.numel dtype
  else none

/-! ## What a lookup may read -/

/-- The data of a constant, else the bytes `data_offsets` names in the file. -/
def tensorData (registry : WeightRegistry) (mmap : List UInt8) (headerLen : Nat) (header : Json)
    (name : String) : Option (List UInt8) :=
  match registry.constants.lookup name with
  | some ct => some ct.data.bytes
  | none =>
    ((registry.nameMapping.lookup name).bind fun hfKey =>
      ((headerEntries header).lookup hfKey).bind headerOffsets).map fun offsets =>
        slice mmap (8 + headerLen + offsets.1) (offsets.2 - offsets.1)

/-- A descriptor stays inside the bytes of its tensor, and so do the loaders. -/
structure Inside (half : HalfCrate) (desc : MemRefDesc2) (dtype : Dtype) (data : List UInt8) :
    Prop where
  aligned : desc.aligned = data
  numel : desc.numel * dtype.elementSize ≤ data.length
  promoted : ∀ ioDef loaded, loadWeightTensor half desc dtype ioDef = some loaded →
    loaded.bytes ≤ data.length
  raw : ∀ ioDef loaded, loadWeightTensorRaw desc dtype ioDef = some loaded →
    loaded.bytes ≤ data.length

/-- The index builds without a panic, and every descriptor stays inside its tensor. -/
structure LookupsInside (half : HalfCrate) (fromSlice : List UInt8 → Except String Json)
    (file : ByteSlice) (registry : WeightRegistry) : Prop where
  builds : buildSafetensorsIndex fromSlice file.bytes ≠ none
  inside : ∀ headerLen header provider,
    readHeader fromSlice file.bytes = some (.ok (headerLen, header)) →
    WeightProvider.new fromSlice registry (some file) = some (.ok provider) →
    ∀ name desc dtype, getWeightMemref provider name = some (some (desc, dtype)) →
      ∃ data, tensorData registry file.bytes headerLen header name = some data ∧
        Inside half desc dtype data

/-! ## Sizes that fit -/

/-- A dimension as a signed number, the negative ones as zero. -/
def signedDim (d : Nat) : Nat := if d % 2 ^ 64 < 2 ^ 63 then d % 2 ^ 64 else 0

def declaredElements (shape : List Nat) : Nat :=
  match shape with
  | [rows, cols] => min (signedDim rows * signedDim cols) (2 ^ 64 - 1)
  | _ => signedDim (shape.prod % 2 ^ 64)

def bytesRead (dtype : Dtype) : Nat := max dtype.elementSize 2

/-- The start of the data does not wrap, and the elements fill no more than the range. -/
structure EntryFits (headerLen : Nat) (info : Json) (offsets : Nat × Nat) : Prop where
  noWrap : offsets.1 + 8 + headerLen < 2 ^ 64
  sized : declaredElements (headerShape info) * bytesRead (headerDtype info) ≤ offsets.2 - offsets.1

/-- The header length leaves room for its eight bytes, and the declared tensors fit. -/
structure WellSized (file : ByteSlice) (registry : WeightRegistry) : Prop where
  header : 8 ≤ file.bytes.length → headerLenOf file.bytes < 2 ^ 64 - 8
  constants : ∀ parsed, readHeader fromSlice file.bytes = some (.ok parsed) →
    ∀ name ct, registry.constants.lookup name = some ct →
      declaredElements ct.shape * bytesRead ct.dtype ≤ ct.data.bytes.length
  tensors : ∀ headerLen header, readHeader fromSlice file.bytes = some (.ok (headerLen, header)) →
    ∀ name hfKey info offsets, registry.constants.lookup name = none →
      registry.nameMapping.lookup name = some hfKey →
      (headerEntries header).lookup hfKey = some info → headerOffsets info = some offsets →
      fileOffset headerLen offsets.1 < fileOffset headerLen offsets.2 →
      fileOffset headerLen offsets.2 ≤ file.bytes.length → EntryFits headerLen info offsets

section Descriptor

variable {half : HalfCrate} {ptr : List UInt8} {shape : List Nat} {dtype : Dtype}

theorem toNat_asI64 (n : Nat) : (asI64 n).toNat = signedDim n := by
  unfold asI64 signedDim
  rw [Int.bmod_def]
  split <;> split <;> omega

theorem signedDim_lt (d : Nat) : signedDim d < 2 ^ 63 := by
  unfold signedDim
  split <;> omega

theorem checkedProduct_pair {a b : Nat} (ha : a < 2 ^ 64) :
    (checkedProductUsize [a, b]).getD (2 ^ 64 - 1) = min (a * b) (2 ^ 64 - 1) := by
  have hfirst : checkedProductUsize [a, b] = if a * b < 2 ^ 64 then some (a * b) else none := by
    simp only [checkedProductUsize, foldlM_cons, foldlM_nil, one_mul, if_pos ha,
      Option.bind_eq_bind, Option.bind_some]
    split <;> rfl
  rw [hfirst]
  by_cases hlt : a * b < 2 ^ 64
  · rw [if_pos hlt, Option.getD_some]
    omega
  · rw [if_neg hlt, Option.getD_none]
    omega

variable (ptr shape)

theorem sizes_memref2ForRaw : ∃ a b : Int, (memref2ForRaw ptr shape).sizes = [a, b] ∧ a.toNat < 2 ^
    63 ∧ b.toNat < 2 ^ 63 ∧ declaredElements shape = min (a.toNat * b.toNat) (2 ^ 64 - 1) := by
  -- every rank but two has a flat descriptor
  have hflat : ∀ numel : Nat, (asI64 numel).toNat < 2 ^ 63 ∧ (1 : Int).toNat < 2 ^ 63 ∧
      signedDim numel = min ((asI64 numel).toNat * (1 : Int).toNat) (2 ^ 64 - 1) := by
    intro numel
    have hlt := signedDim_lt numel
    rw [toNat_asI64]
    refine ⟨hlt, by norm_num, ?_⟩
    rw [show (1 : Int).toNat = 1 from rfl, mul_one]
    omega
  rcases shape with _ | ⟨rows, _ | ⟨cols, _ | ⟨depth, rest⟩⟩⟩
  · exact ⟨_, _, rfl, hflat 1⟩
  · exact ⟨_, _, rfl, hflat _⟩
  · refine ⟨_, _, rfl, ?_⟩
    rw [toNat_asI64, toNat_asI64]
    exact ⟨signedDim_lt rows, signedDim_lt cols, rfl⟩
  · exact ⟨_, _, rfl, hflat _⟩

theorem aligned_memref2ForRaw : (memref2ForRaw ptr shape).aligned = ptr := by
  unfold memref2ForRaw
  split <;> rfl

theorem numel_memref2ForRaw : (memref2ForRaw ptr shape).numel = declaredElements shape := by
  obtain ⟨a, b, hsizes, ha, -, hdeclared⟩ := sizes_memref2ForRaw ptr shape
  rw [MemRefDesc2.numel, hsizes, hdeclared]
  exact checkedProduct_pair (by omega)

variable {ptr shape}

theorem loadedShape_memref2ForRaw {ioDef : GraphTensorDef} (hrank : ioDef.rank = 0)
    (hpos : 0 < declaredElements shape) (hlt : declaredElements shape < 2 ^ 63) :
    (ioDef.loadedShape (memref2ForRaw ptr shape).usizes).prod % 2 ^ 64 =
      declaredElements shape := by
  obtain ⟨a, b, hsizes, ha, hb, hdeclared⟩ := sizes_memref2ForRaw ptr shape
  have hproduct : a.toNat * b.toNat = declaredElements shape := by omega
  have hne : a.toNat ≠ 0 ∧ b.toNat ≠ 0 := by
    rw [← Nat.mul_ne_zero_iff, hproduct]
    omega
  have hunsigned : (a % 2 ^ 64).toNat = a.toNat ∧ (b % 2 ^ 64).toNat = b.toNat := by omega
  have hstatic : ¬ (0 < ioDef.rank ∧ ioDef.shape.length = ioDef.rank ∧
      ∀ d ∈ ioDef.shape, 0 < d) := fun h => by omega
  rw [GraphTensorDef.loadedShape, if_neg hstatic, MemRefDesc2.usizes, hsizes]
  simp only [map_cons, map_nil, prod_cons, prod_nil, mul_one, hunsigned]
  rw [hproduct]
  omega

theorem bytes_convert_le (mem : Nat → UInt8) (n : Nat) (dtype : Dtype) :
    (convertWeightToF32 half mem n dtype).bytes ≤ n * bytesRead dtype := by
  cases dtype <;> exact Nat.mul_le_mul_left n (by decide)

theorem bytes_convert_small (mem : Nat → UInt8) (n : Nat) (h : dtype.elementSize < 2) :
    (convertWeightToF32 half mem n dtype).bytes = n * bytesRead dtype := by
  cases dtype with
  | i8 | u8 => rfl
  | f32 | f16 | bf16 | i64 | i32 => exact absurd h (by decide)

def scalarDef : GraphTensorDef where
  consumedInternally := false
  rank := 0
  shape := []
  dtype := .f32

/-- A descriptor stays inside its slice exactly if the declared elements fit. -/
theorem inside_iff {data : List UInt8} (hfits : ptr.length < 2 ^ 63) :
    Inside half (memref2ForRaw ptr shape) dtype data ↔
      ptr = data ∧ declaredElements shape * bytesRead dtype ≤ data.length := by
  have haligned := aligned_memref2ForRaw ptr shape
  have hnumel := numel_memref2ForRaw ptr shape
  constructor
  · intro h
    have hptr : ptr = data := haligned.symm.trans h.aligned
    refine ⟨hptr, ?_⟩
    have hsize := h.numel
    rw [hnumel] at hsize
    by_cases hsmall : dtype.elementSize < 2
    · rcases Nat.eq_zero_or_pos (declaredElements shape) with hzero | hpos
      · rw [hzero]
        omega
      · -- some loader reads two bytes for each of them
        have hone : dtype.elementSize ≠ 0 := by cases dtype <;> decide
        have hlt : declaredElements shape < 2 ^ 63 := by
          have := Nat.le_mul_of_pos_right (declaredElements shape) (Nat.pos_of_ne_zero hone)
          rw [hptr] at hfits
          omega
        have hload : loadWeightTensor half (memref2ForRaw ptr shape) dtype scalarDef = some
            (convertWeightToF32 half (memory ptr) (declaredElements shape) dtype) := by
          rw [loadWeightTensor, loadedShape_memref2ForRaw rfl hpos hlt, hnumel, if_pos rfl,
            haligned]
        have hbytes := h.promoted scalarDef _ hload
        rwa [bytes_convert_small _ _ hsmall] at hbytes
    · have htwo : bytesRead dtype = dtype.elementSize := max_eq_left (by omega)
      rwa [htwo]
  · -- both loaders read the declared elements, of at most `bytesRead` bytes each
    rintro ⟨rfl, hsize⟩
    refine ⟨haligned, ?_, fun ioDef loaded hload => ?_, fun ioDef loaded hload => ?_⟩
    · rw [hnumel]
      exact (Nat.mul_le_mul_left _ (Nat.le_max_left ..)).trans hsize
    · unfold loadWeightTensor at hload
      split at hload
      · cases hload
        rw [hnumel]
        exact (bytes_convert_le _ _ _).trans hsize
      · exact absurd hload nofun
    · unfold loadWeightTensorRaw loadWeightTensorU16 at hload
      rw [hnumel] at hload
      split at hload
      · split at hload
        · cases hload
          have htwo : 2 ≤ bytesRead dtype := Nat.le_max_right ..
          exact ((Nat.min_le_left _ _).trans (Nat.mul_le_mul_left _ htwo)).trans hsize
        · exact absurd hload nofun
      · exact absurd hload nofun

end Descriptor

/-! ## Entries of the header -/

def DistinctKeys : Prop :=
  ∀ bytes header, fromSlice bytes = .ok header → ((headerEntries header).map Prod.fst).Nodup

section Entries

variable {half : HalfCrate} {mmap : List UInt8} {headerLen : Nat} {header info : Json}
  {offsets : Nat × Nat}

theorem lookup_filterMap {β γ : Type} (f : β → Option γ) {l : List (String × β)}
    (h : (l.map Prod.fst).Nodup) (k : String) :
    (l.filterMap fun entry => (f entry.2).map (entry.1, ·)).lookup k = (l.lookup k).bind f := by
  induction l with
  | nil => rfl
  | cons entry l ih =>
    obtain ⟨hnotMem, hnodup⟩ := nodup_cons.1 h
    have htail := ih hnodup
    cases hf : f entry.2 with
    | none =>
      rw [filterMap_cons, hf, Option.map_none, htail, lookup_cons]
      by_cases hk : k == entry.1
      · -- a skipped entry has no other under its key
        have hnone : l.lookup k = none := by
          rw [lookup_eq_none_iff]
          intro other hother
          rw [bne_iff_ne, beq_iff_eq.1 hk]
          exact fun heq => hnotMem (mem_map.2 ⟨other, hother, heq.symm⟩)
        rw [hk, hnone]
        exact hf.symm
      · rw [Bool.eq_false_of_not_eq_true hk]
    | some =>
      rw [filterMap_cons, hf, Option.map_some, lookup_cons, lookup_cons]
      by_cases hk : k == entry.1
      · rw [hk]
        exact hf.symm
      · rw [Bool.eq_false_of_not_eq_true hk]
        exact htail

theorem asU64_lt {v : Json} {n : Nat} (h : v.asU64 = some n) : n < 2 ^ 64 := by
  cases v with
  | num =>
    simp only [Json.asU64] at h
    split at h
    · cases h
      omega
    · exact absurd h nofun
  | null | bool | str | arr | obj => exact absurd h nofun

theorem headerOffsets_lt (h : headerOffsets info = some offsets) :
    offsets.1 < 2 ^ 64 ∧ offsets.2 < 2 ^ 64 := by
  have hget : ∀ v : Json, v.asU64.getD 0 < 2 ^ 64 := by
    intro v
    cases hv : v.asU64 with
    | none => exact Nat.two_pow_pos 64
    | some => exact asU64_lt hv
  unfold headerOffsets at h
  split at h
  · cases h
    exact ⟨hget _, hget _⟩
  · exact absurd h nofun

theorem entry_inside_iff (hmmap : mmap.length < 2 ^ 63) (hlen : headerLen < 2 ^ 64 - 8)
    (hoffsets : headerOffsets info = some offsets)
    (hlt : fileOffset headerLen offsets.1 < fileOffset headerLen offsets.2)
    (hle : fileOffset headerLen offsets.2 ≤ mmap.length) :
    Inside half (memref2ForRaw (slice mmap (fileOffset headerLen offsets.1)
          (fileOffset headerLen offsets.2 - fileOffset headerLen offsets.1)) (headerShape info))
        (headerDtype info) (slice mmap (8 + headerLen + offsets.1) (offsets.2 - offsets.1)) ↔
      EntryFits headerLen info offsets := by
  obtain ⟨hstart, hstop⟩ := headerOffsets_lt hoffsets
  have hlength : (slice mmap (fileOffset headerLen offsets.1)
      (fileOffset headerLen offsets.2 - fileOffset headerLen offsets.1)).length =
      fileOffset headerLen offsets.2 - fileOffset headerLen offsets.1 :=
    length_slice (by omega)
  rw [inside_iff (by omega)]
  by_cases hwrap : offsets.1 + 8 + headerLen < 2 ^ 64
  · -- then the end does not wrap either, or it would be in front of the start
    have hfirst : fileOffset headerLen offsets.1 = 8 + headerLen + offsets.1 := by
      unfold fileOffset
      omega
    have hsecond : fileOffset headerLen offsets.2 = 8 + headerLen + offsets.2 := by
      unfold fileOffset at hlt ⊢
      omega
    have hrange : fileOffset headerLen offsets.2 - fileOffset headerLen offsets.1 =
        offsets.2 - offsets.1 := by omega
    rw [hrange, hfirst] at hlength
    rw [hrange, hfirst, hlength, and_iff_right rfl]
    exact ⟨fun h => ⟨hwrap, h⟩, EntryFits.sized⟩
  · -- a start that wraps: the range of the file is empty, the descriptor is not
    refine iff_of_false (fun h => ?_) fun h => hwrap h.noWrap
    have hempty : slice mmap (8 + headerLen + offsets.1) (offsets.2 - offsets.1) = [] := by
      rw [slice, drop_eq_nil_of_le (by omega), take_nil]
    rw [h.1, hempty] at hlength
    rw [length_nil] at hlength
    omega

end Entries

section Lookups

variable {half : HalfCrate} {fromSlice : List UInt8 → Except String Json} {file : ByteSlice}
  {registry : WeightRegistry} {headerLen : Nat} {header : Json} {name : String}

theorem readHeader_eq_none_iff :
    readHeader fromSlice file.bytes = none ↔
      ¬ (8 ≤ file.bytes.length → headerLenOf file.bytes < 2 ^ 64 - 8) := by
  have hlt : headerLenOf file.bytes < 2 ^ 64 := leNat_lt 8 _ 0
  have hfits := file.fits
  unfold readHeader
  by_cases hshort : file.bytes.length < 8
  · rw [if_pos hshort]
    exact iff_of_false nofun (by omega)
  · rw [if_neg hshort]
    by_cases hroom : headerLenOf file.bytes < 2 ^ 64 - 8
    · refine iff_of_false (fun h => ?_) (by omega)
      simp only at h
      split at h
      · exact absurd h nofun
      · rw [if_neg (by omega)] at h
        exact absurd h nofun
    · refine iff_of_true ?_ (by omega)
      simp only
      rw [if_neg (by omega), if_pos (by omega)]

theorem readHeader_eq_ok {parsed : Nat × Json}
    (h : readHeader fromSlice file.bytes = some (.ok parsed)) :
    parsed.1 < 2 ^ 64 - 8 ∧ ∃ bytes, fromSlice bytes = .ok parsed.2 := by
  have hroom : 8 ≤ file.bytes.length → headerLenOf file.bytes < 2 ^ 64 - 8 := by
    by_contra hnone
    rw [readHeader_eq_none_iff.2 hnone] at h
    exact absurd h nofun
  unfold readHeader at h
  by_cases hshort : file.bytes.length < 8
  · rw [if_pos hshort] at h
    exact absurd h nofun
  · rw [if_neg hshort] at h
    simp only at h
    split at h
    · exact absurd h nofun
    · split at h
      · exact absurd h nofun
      · cases hparse :
          fromSlice (slice file.bytes 8 ((8 + headerLenOf file.bytes) % 2 ^ 64 - 8)) with
        | error =>
          rw [hparse] at h
          exact absurd (Option.some.inj h) nofun
        | ok =>
          rw [hparse] at h
          obtain rfl := Except.ok.inj (Option.some.inj h)
          exact ⟨hroom (by omega), _, hparse⟩

def providerOf (registry : WeightRegistry) (file : ByteSlice) (headerLen : Nat) (header : Json) :
    WeightProvider :=
  ⟨registry, some file, indexEntries file.bytes.length headerLen header⟩

theorem new_eq (h : readHeader fromSlice file.bytes = some (.ok (headerLen, header))) :
    WeightProvider.new fromSlice registry (some file) =
      some (.ok (providerOf registry file headerLen header)) := by
  rw [WeightProvider.new, buildSafetensorsIndex, h]
  rfl

/-- The descriptor under a name stays inside the tensor of that name. -/
def InsideAt (half : HalfCrate) (file : ByteSlice) (headerLen : Nat) (header : Json)
    (registry : WeightRegistry) (name : String) : Prop :=
  ∀ desc dtype,
    getWeightMemref (providerOf registry file headerLen header) name = some (some (desc, dtype)) →
    ∃ data, tensorData registry file.bytes headerLen header name = some data ∧
      Inside half desc dtype data

theorem insideAt_of_found {desc : MemRefDesc2} {dtype : Dtype} {data : List UInt8}
    (hget : getWeightMemref (providerOf registry file headerLen header) name =
      some (some (desc, dtype)))
    (hdata : tensorData registry file.bytes headerLen header name = some data) :
    InsideAt half file headerLen header registry name ↔ Inside half desc dtype data := by
  constructor
  · intro h
    obtain ⟨data', hdata', hinside⟩ := h desc dtype hget
    rwa [Option.some.inj (hdata.symm.trans hdata')]
  · intro hinside desc' dtype' hget'
    obtain ⟨rfl, rfl⟩ : desc = desc' ∧ dtype = dtype' := by
      simpa using hget.symm.trans hget'
    exact ⟨data, hdata, hinside⟩

theorem insideAt_of_missing
    (hget : getWeightMemref (providerOf registry file headerLen header) name = some none) :
    InsideAt half file headerLen header registry name := by
  intro desc dtype h
  rw [hget] at h
  exact absurd (Option.some.inj h) nofun

theorem constant_inside_iff {ct : ConstantTensor} (h : registry.constants.lookup name = some ct) :
    InsideAt half file headerLen header registry name ↔
      declaredElements ct.shape * bytesRead ct.dtype ≤ ct.data.bytes.length := by
  have hget : getWeightMemref (providerOf registry file headerLen header) name =
      some (some (constantAsMemref ct, ct.dtype)) := by
    simp only [getWeightMemref, providerOf, h]
  have hdata : tensorData registry file.bytes headerLen header name = some ct.data.bytes := by
    simp only [tensorData, h]
  rw [insideAt_of_found hget hdata, constantAsMemref, inside_iff ct.data.fits, and_iff_right rfl]

theorem getWeightMemref_mapped {hfKey : String} (file : ByteSlice) (headerLen : Nat)
    (hdistinct : ((headerEntries header).map Prod.fst).Nodup)
    (hconstants : registry.constants.lookup name = none)
    (hmapped : registry.nameMapping.lookup name = some hfKey) :
    getWeightMemref (providerOf registry file headerLen header) name =
      match ((headerEntries header).lookup hfKey).bind (indexEntry file.bytes.length headerLen) with
      | some info => (tensorMemref file.bytes info).map some
      | none => some none := by
  simp only [getWeightMemref, providerOf, hconstants, hmapped, indexEntries,
    lookup_filterMap (indexEntry file.bytes.length headerLen) hdistinct]

theorem indexEntry_eq {mmapLen : Nat} {info : Json} {offsets : Nat × Nat}
    (h : headerOffsets info = some offsets) :
    indexEntry mmapLen headerLen info =
      if fileOffset headerLen offsets.1 < fileOffset headerLen offsets.2 ∧
          fileOffset headerLen offsets.2 ≤ mmapLen then
        some ⟨fileOffset headerLen offsets.1, fileOffset headerLen offsets.2, headerShape info,
          headerDtype info⟩
      else none := by
  rw [indexEntry, h, Option.bind_some]
  by_cases hin : fileOffset headerLen offsets.1 < fileOffset headerLen offsets.2 ∧
      fileOffset headerLen offsets.2 ≤ mmapLen
  · rw [if_neg (by omega), if_pos hin]
  · rw [if_pos (by omega), if_neg hin]

theorem tensor_inside_iff {hfKey : String} (hlen : headerLen < 2 ^ 64 - 8)
    (hdistinct : ((headerEntries header).map Prod.fst).Nodup)
    (hconstants : registry.constants.lookup name = none)
    (hmapped : registry.nameMapping.lookup name = some hfKey) :
    InsideAt half file headerLen header registry name ↔
      ∀ info offsets, (headerEntries header).lookup hfKey = some info →
        headerOffsets info = some offsets →
        fileOffset headerLen offsets.1 < fileOffset headerLen offsets.2 →
        fileOffset headerLen offsets.2 ≤ file.bytes.length → EntryFits headerLen info offsets := by
  have hget := getWeightMemref_mapped file headerLen hdistinct hconstants hmapped
  -- a tensor that is not indexed has no descriptor
  cases hinfo : (headerEntries header).lookup hfKey with
  | none =>
    rw [hinfo, Option.bind_none] at hget
    exact iff_of_true (insideAt_of_missing hget) nofun
  | some info =>
    rw [hinfo, Option.bind_some] at hget
    cases hoffsets : headerOffsets info with
    | none =>
      rw [show indexEntry file.bytes.length headerLen info = none by
        rw [indexEntry, hoffsets, Option.bind_none]] at hget
      refine iff_of_true (insideAt_of_missing hget) fun info' offsets hinfo' h => ?_
      rw [← Option.some.inj hinfo', hoffsets] at h
      exact absurd h nofun
    | some offsets =>
      rw [indexEntry_eq hoffsets] at hget
      by_cases hin : fileOffset headerLen offsets.1 < fileOffset headerLen offsets.2 ∧
          fileOffset headerLen offsets.2 ≤ file.bytes.length
      · rw [if_pos hin] at hget
        have hfound := hget.trans (congrArg (Option.map some) (if_pos ⟨hin.1.le, hin.2⟩))
        have hdata : tensorData registry file.bytes headerLen header name =
            some (slice file.bytes (8 + headerLen + offsets.1) (offsets.2 - offsets.1)) := by
          simp only [tensorData, hconstants, hmapped, Option.bind_some, hinfo, hoffsets,
            Option.map_some]
        rw [insideAt_of_found hfound hdata, entry_inside_iff file.fits hlen hoffsets hin.1 hin.2]
        constructor
        · intro hfits info' offsets' hinfo' hoffsets' _ _
          cases hinfo'
          obtain rfl := Option.some.inj (hoffsets.symm.trans hoffsets')
          exact hfits
        · intro h
          exact h info offsets rfl hoffsets hin.1 hin.2
      · rw [if_neg hin] at hget
        refine iff_of_true (insideAt_of_missing hget)
          fun info' offsets' hinfo' hoffsets' hlt hle => ?_
        cases hinfo'
        obtain rfl := Option.some.inj (hoffsets.symm.trans hoffsets')
        exact absurd ⟨hlt, hle⟩ hin

/-- Every descriptor stays inside its tensor exactly if the sizes of the file and registry fit. -/
theorem lookupsInside_iff (half : HalfCrate) (hdistinct : DistinctKeys fromSlice)
    (file : ByteSlice) (registry : WeightRegistry) :
    LookupsInside half fromSlice file registry ↔ WellSized fromSlice file registry := by
  have hpanic : buildSafetensorsIndex fromSlice file.bytes ≠ none ↔
      (8 ≤ file.bytes.length → headerLenOf file.bytes < 2 ^ 64 - 8) := by
    rw [buildSafetensorsIndex, Ne, Option.map_eq_none_iff, readHeader_eq_none_iff, not_not]
  constructor
  · rintro ⟨hbuilds, hinside⟩
    refine ⟨hpanic.1 hbuilds, fun parsed hread name ct hct => ?_, ?_⟩
    · exact (constant_inside_iff hct).1 (hinside parsed.1 parsed.2 _ hread (new_eq hread) name)
    · intro headerLen header hread name hfKey info offsets hconstants hmapped
      obtain ⟨hlen, bytes, hparse⟩ := readHeader_eq_ok hread
      exact (tensor_inside_iff hlen (hdistinct _ _ hparse) hconstants hmapped).1
        (hinside headerLen header _ hread (new_eq hread) name) info offsets
  · rintro ⟨hheader, hconst, htensors⟩
    refine ⟨hpanic.2 hheader, fun headerLen header provider hread hnew name => ?_⟩
    obtain rfl : providerOf registry file headerLen header = provider := by
      simpa using (new_eq hread).symm.trans hnew
    obtain ⟨hlen, bytes, hparse⟩ := readHeader_eq_ok hread
    -- a lookup tries the constants first
    cases hct : registry.constants.lookup name with
    | some ct => exact (constant_inside_iff hct).2 (hconst _ hread name ct hct)
    | none =>
      cases hmapped : registry.nameMapping.lookup name with
      | none =>
        refine insideAt_of_missing ?_
        simp only [getWeightMemref, providerOf, hct, hmapped]
      | some hfKey =>
        exact (tensor_inside_iff hlen (hdistinct _ _ hparse) hct hmapped).2
          fun info offsets => htensors headerLen header hread name hfKey info offsets hct hmapped

end Lookups

/-! ## Concrete files -/

def oneTensorText : String :=
  "\x7b\"w\":\x7b\"dtype\":\"F32\",\"shape\":[1],\"data_offsets\":[0,4]\x7d\x7d"

def asciiBytes (s : String) : List UInt8 := s.toList.map fun c => UInt8.ofNat c.toNat

def oneTensorInfo : Json :=
  .obj [("dtype", .str "F32"), ("shape", .arr [.num 1]), ("data_offsets", .arr [.num 0, .num 4])]

def parseHeader (bytes : List UInt8) : Except String Json :=
  if bytes = asciiBytes oneTensorText then .ok (.obj [("w", oneTensorInfo)])
  else if bytes = asciiBytes "\x7b\x7d" then .ok (.obj [])
  else .error "not parsed"

theorem parseHeader_distinct : DistinctKeys parseHeader := by
  intro bytes header h
  unfold parseHeader at h
  split at h
  · cases h
    exact nodup_singleton _
  · split at h
    · cases h
      exact nodup_nil
    · exact absurd h nofun

def oneTensorFile : ByteSlice where
  bytes := 54 :: replicate 7 0 ++ asciiBytes oneTensorText ++ [0, 0, 128, 63]
  fits := by decide +kernel

def oneTensorRegistry : WeightRegistry where
  nameMapping := AList.singleton "weight" "w"
  constants := ∅

theorem readHeader_of_parse {fromSlice : List UInt8 → Except String Json} {mmap : List UInt8}
    {n : Nat} {header : Json} (hlen : headerLenOf mmap = n) (hroom : n < 2 ^ 64 - 8)
    (hlong : 8 + n ≤ mmap.length) (hparse : fromSlice (slice mmap 8 n) = .ok header) :
    readHeader fromSlice mmap = some (.ok (n, header)) := by
  have hend : (8 + n) % 2 ^ 64 = 8 + n := Nat.mod_eq_of_lt (by omega)
  have hshort : ¬ mmap.length < 8 := by omega
  simp only [readHeader, hlen, hend, if_neg hshort, if_neg (not_lt.2 hlong),
    if_neg (show ¬ 8 + n < 8 by omega), Nat.add_sub_cancel_left, hparse]
  rfl

theorem lookupsInside_iff_oneTensor :
    LookupsInside exactHalf parseHeader oneTensorFile oneTensorRegistry := by
  refine (lookupsInside_iff exactHalf parseHeader_distinct oneTensorFile oneTensorRegistry).2
    ⟨fun _ => by decide +kernel, fun parsed _ name ct hct => ?_, ?_⟩
  · exact absurd hct nofun
  · intro headerLen header hread name hfKey info offsets _ _ hinfo hoffsets _ _
    have hparsed : readHeader parseHeader oneTensorFile.bytes =
        some (.ok (54, .obj [("w", oneTensorInfo)])) :=
      readHeader_of_parse (by decide +kernel) (by decide) (by decide +kernel)
        (if_pos (by decide +kernel))
    obtain ⟨rfl, rfl⟩ : 54 = headerLen ∧ Json.obj [("w", oneTensorInfo)] = header := by
      simpa using hparsed.symm.trans hread
    obtain rfl : oneTensorInfo = info := by
      rw [headerEntries, Json.asObject, Option.getD_some, lookup_cons] at hinfo
      split at hinfo
      · exact Option.some.inj hinfo
      · exact absurd hinfo nofun
    have hrange : headerOffsets oneTensorInfo = some (0, 4) := rfl
    obtain rfl : (0, 4) = offsets := Option.some.inj (hrange.symm.trans hoffsets)
    exact ⟨by decide, by decide +kernel⟩

/-- A file of eight bytes `0xff`. -/
def overlongFile : ByteSlice where
  bytes := replicate 8 255
  fits := by decide

def emptyFile : ByteSlice where
  bytes := 2 :: replicate 7 0 ++ asciiBytes "\x7b\x7d"
  fits := by decide +kernel

/-- A constant of two elements in four bytes. -/
def shortConstant : ConstantTensor where
  dtype := .f32
  shape := [2]
  data := ⟨[0, 0, 128, 63], by decide⟩

/-- A header length near `2 ^ 64` panics, and the descriptor of a constant leaves its data. -/
theorem lookups_escape :
    ¬ LookupsInside exactHalf parseHeader overlongFile ⟨∅, ∅⟩ ∧
      ¬ LookupsInside exactHalf parseHeader emptyFile ⟨∅, AList.singleton "c" shortConstant⟩ := by
  constructor
  · intro h
    refine h.builds ?_
    have hlong : headerLenOf overlongFile.bytes = 2 ^ 64 - 1 := by decide +kernel
    rw [buildSafetensorsIndex, readHeader_eq_none_iff.2, Option.map_none]
    rw [hlong]
    decide
  · intro h
    have hread : readHeader parseHeader emptyFile.bytes = some (.ok (2, .obj [])) :=
      readHeader_of_parse (by decide +kernel) (by decide) (by decide +kernel)
        ((if_neg (by decide +kernel)).trans (if_pos (by decide +kernel)))
    obtain ⟨data, hdata, hinside⟩ :=
      h.inside 2 (.obj []) _ hread (new_eq hread) "c" (constantAsMemref shortConstant) .f32 rfl
    obtain rfl : shortConstant.data.bytes = data := Option.some.inj hdata
    exact absurd hinside.numel (by decide +kernel)

end Safetensors

end CompileForge.Runtime
