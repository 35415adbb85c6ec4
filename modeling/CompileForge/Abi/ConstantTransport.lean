/-
  The constants of a module reach the runtime through the weight data of the ABI
  (`build_weight_data`, read by `load_sfa_weights` in `runtime/src/model/abi.rs`) or through
  the legacy blob (`_build_constants_binary`, read by `load_registry_from_dylib`).
-/

import CompileForge.Compiler.ConstantBlobs
import CompileForge.Compiler.SplitWiring
import CompileForge.Runtime.Model.SfcfReader

namespace CompileForge.Abi.ConstantTransport

open Compiler Lib CompileForge.Runtime CompileForge.Runtime.Sfcf List
open Safetensors (ConstantTensor memory)

abbrev SfaWeightProvider := Safetensors.WeightRegistry

def constantOf (entry : SfaConstant) : Except String (String × ConstantTensor) :=
  let code := entry.dtypeCode
  match Dtype.fromCode (code % 256) with
  | some dtype => .ok (entry.name, ⟨dtype, entry.shape, ⟨entry.data, entry.dataFits⟩⟩)
  | none => .error s!"unknown constant dtype code {code}"

def loadSfaWeights (protobuf : Protobuf) (data : List UInt8) : Except String SfaWeightProvider := do
  let wd ← protobuf.decode data
  let constants ← wd.constantEntries.mapM constantOf
  return ⟨(wd.weightEntries.map fun e => (e.compiledName, e.hfKey)).foldl insertEntry ∅,
    constants.foldl insertEntry ∅⟩

/-! ## Constants that survive -/

def torchDtype : Dtype → TorchDtype
  | .f32 => .float32
  | .f16 => .float16
  | .bf16 => .bfloat16
  | .i64 => .int64
  | .i32 => .int32
  | .i8 => .int8
  | .u8 => .uint8

/-- The values of the elements. -/
def constantValues (c : ConstantTensor) : List FloatValue :=
  (range (c.data.bytes.length / c.dtype.elementSize)).map fun i =>
    c.dtype.assigns (leNat c.dtype.elementSize (memory c.data.bytes) (i * c.dtype.elementSize))

/-- A decoded constant has the dtype, the shape and the element values of the tensor. -/
structure Restores (c : ConstantTensor) (t : TorchTensor) : Prop where
  dtype : t.dtype = torchDtype c.dtype
  shape : c.shape = t.shape
  values : constantValues c = t.elements.map c.dtype.assigns

variable (nameMapping : AList fun _ : String => String) (constants : String → Option TorchTensor)

/-- Every constant is back under its name, with its shape and its values. -/
structure Restored (r : Safetensors.WeightRegistry) : Prop where
  names : ∀ name, r.nameMapping.lookup name = nameMapping.lookup name
  tensors : ∀ name, Option.Rel Restores (r.constants.lookup name) (constants name)

/-- What is written decodes to the same mapping and constants; a constant without code stops it. -/
structure Survives (written : Option (List UInt8))
    (decode : Bytes → Option Safetensors.WeightRegistry) : Prop where
  restored : ∀ blob : Bytes, written = some blob.bytes →
    ∃ r, decode blob = some r ∧ Restored nameMapping constants r
  refused : ∀ name t, constants name = some t → dtypeToCode t.dtype = none → written = none

def decodeSfa (protobuf : Protobuf) (blob : Bytes) : Option Safetensors.WeightRegistry :=
  (loadSfaWeights protobuf blob.bytes).toOption

def decodeSfcf (blob : Bytes) : Option Safetensors.WeightRegistry :=
  (loadRegistryFromDylib blob).toOption.map fun r => r.1

/-- The reader of the legacy blob returns an error on bytes that do not begin with a blob. -/
def ReportsError (data : Bytes) : Prop :=
  ¬ WellFormed data.bytes → ∃ e, e ≠ .panic ∧ loadRegistryFromDylib data = .error e

/-- Every dtype has a code. -/
def Expressible : Prop :=
  ∀ name t, constants name = some t → (dtypeToCode t.dtype).isSome = true

variable (dtype : TorchDtype)

/-- A constant as both writers store it, under the dtype of its code. -/
def label : Dtype := (Dtype.fromCode (dtypeCode dtype)).getD .f32

def asConstant (t : TorchTensor) : ConstantTensor :=
  ⟨label t.dtype, t.shape, ⟨t.forNumpy.storage, length_storage_lt _⟩⟩

def weightData (constants : AList fun _ : String => TorchTensor) : SfaWeightData :=
  ⟨(sortedItems nameMapping).map weightEntry, (sortedItems constants).map constantMessage⟩

/-- The tensors convert, and the message can be serialized. -/
structure SfaStorable (numpy : TorchTensor → Bool) (protobuf : Protobuf)
    (nameMapping : AList fun _ : String => String)
    (constants : AList fun _ : String => TorchTensor) : Prop where
  converts : ∀ e ∈ sortedItems constants, numpy e.2.forNumpy = true
  serializes : ∃ bytes, protobuf.serialize (weightData nameMapping constants) = some bytes

def blobOf (functions : List ConstFunction) (nameMapping : AList fun _ : String => String) :
    Blob :=
  ⟨4, sortedItems nameMapping, (constTensors functions).map fun e => (e.1, asConstant e.2)⟩

/-- Every count and length fits in its field, and the blob fits in memory. -/
structure SfcfStorable (numpy : TorchTensor → Bool) (trailer : Option (List UInt8))
    (functions : List ConstFunction) (nameMapping : AList fun _ : String => String) : Prop where
  fields : blobFormat.valid (blobOf functions nameMapping)
  converts : ∀ e ∈ constTensors functions, numpy e.2.forNumpy = true
  trailer : ∃ rest, trailer = some rest ∧
    (blobFormat.spell (blobOf functions nameMapping) ++ rest).length < 2 ^ 63

section Dictionaries

variable {β γ : Type}

theorem lookup_foldl_insert (l : List (String × β)) (key : String) :
    (l.foldl insertEntry ∅).lookup key = dictGet l key := by
  induction l using reverseRecOn with
  | nil => rfl
  | append_singleton l e ih =>
    rw [foldl_append, foldl_cons, foldl_nil, insertEntry, dictGet,
      reverse_append, reverse_singleton, singleton_append, lookup_cons]
    by_cases hkey : key = e.1
    · subst hkey
      rw [AList.lookup_insert, beq_self_eq_true]
    · rw [AList.lookup_insert_ne hkey, ih, beq_eq_false_iff_ne.2 hkey]
      rfl

theorem mem_sortedItems {table : AList fun _ : String => β} {name : String} {v : β} :
    (name, v) ∈ sortedItems table ↔ table.lookup name = some v := by
  have hentry : (⟨name, v⟩ : Sigma fun _ : String => β) ∈ table.entries ↔
      table.lookup name = some v := AList.mem_lookup_iff.symm
  rw [sortedItems, (mergeSort_perm _ _).mem_iff, mem_map, ← hentry]
  constructor
  · rintro ⟨e, he, heq⟩
    cases heq
    exact he
  · exact fun he => ⟨_, he, rfl⟩

theorem dictGet_sortedItems (table : AList fun _ : String => β) (name : String) :
    dictGet (sortedItems table) name = table.lookup name := by
  have hkeys : ((sortedItems table).map Prod.fst).Nodup := by
    rw [sortedItems, ((mergeSort_perm _ _).map _).nodup_iff, map_map]
    exact table.keys_nodup
  refine Option.ext fun v => ?_
  rw [dictGet_eq_some hkeys, mem_sortedItems]

end Dictionaries

/-! ## Tensors -/

theorem storage_forNumpy (t : TorchTensor) : t.forNumpy.storage = t.storage := by
  rw [TorchTensor.forNumpy]
  split
  next h => rw [TorchTensor.storage, TorchTensor.storage, h]; rfl
  · rfl

theorem code_label : (label dtype).code = dtypeCode dtype := by
  cases dtype <;> rfl

theorem fromCode_dtypeCode : Dtype.fromCode (dtypeCode dtype) = some (label dtype) :=
  fromCode_eq_some.2 (code_label dtype).symm

theorem torchDtype_label {dtype : TorchDtype} (h : (dtypeToCode dtype).isSome = true) :
    torchDtype (label dtype) = dtype := by
  cases dtype with
  | uint16 => cases h
  | other => cases h
  | float32 | float16 | bfloat16 | int64 | int32 | int8 | uint8 => rfl

theorem itemsize_torchDtype (dtype : Dtype) : (torchDtype dtype).itemsize = dtype.elementSize := by
  cases dtype <;> rfl

theorem restores_asConstant {t : TorchTensor} (h : (dtypeToCode t.dtype).isSome = true) :
    Restores (asConstant t) t := by
  have hdtype := torchDtype_label h
  refine ⟨hdtype.symm, rfl, ?_⟩
  have hsize : (label t.dtype).elementSize = t.dtype.itemsize := by
    rw [← itemsize_torchDtype, hdtype]
  have hpos : 0 < t.dtype.itemsize := by
    rw [← hsize]
    cases label t.dtype <;> decide
  have hcount : (asConstant t).data.bytes.length / (asConstant t).dtype.elementSize =
      t.elements.length := by
    show t.forNumpy.storage.length / (label t.dtype).elementSize = _
    rw [storage_forNumpy, length_storage, hsize, Nat.mul_div_cancel _ hpos]
  rw [constantValues, hcount]
  refine ext_getElem? fun i => ?_
  rw [getElem?_map, getElem?_map]
  by_cases hi : i < t.elements.length
  · rw [getElem?_range hi, getElem?_eq_getElem hi, Option.map_some, Option.map_some]
    show some ((label t.dtype).assigns (leNat (label t.dtype).elementSize
      (memory t.forNumpy.storage) (i * (label t.dtype).elementSize))) = _
    -- element `i` is the `i`-th window of the bytes
    have hwindow : slice t.storage (i * t.dtype.itemsize) t.dtype.itemsize =
        leBytes t.dtype.itemsize t.elements[i] :=
      slice_flatMap_window (fun _ _ => length_leBytes ..) (getElem?_eq_getElem hi)
    have hin : i * t.dtype.itemsize + t.dtype.itemsize ≤ t.storage.length := by
      rw [length_storage, ← Nat.succ_mul]
      exact Nat.mul_le_mul_right _ hi
    rw [storage_forNumpy, hsize, leNat_memory _ hin, hwindow,
      ofDigits_leBytes (t.bits _ (getElem_mem hi))]
    rfl
  · rw [getElem?_eq_none (by rwa [length_range, ← not_lt]), getElem?_eq_none (not_lt.1 hi)]
    rfl

theorem restored_of_expressible {nameMapping : AList fun _ : String => String}
    {names : List (String × String)} {listed : List (String × TorchTensor)}
    {constants : String → Option TorchTensor}
    (hnames : ∀ name, dictGet names name = nameMapping.lookup name)
    (hconstants : ∀ name, dictGet listed name = constants name)
    (hexpressible : Expressible constants) :
    Restored nameMapping constants ⟨names.foldl insertEntry ∅,
      (listed.map fun e => (e.1, asConstant e.2)).foldl insertEntry ∅⟩ := by
  refine ⟨fun name => ?_, fun name => ?_⟩
  · rw [lookup_foldl_insert, hnames]
  · have hlookup := lookup_foldl_insert (listed.map fun e => (e.1, asConstant e.2)) name
    rw [dictGet_map_snd asConstant, hconstants] at hlookup
    simp only [hlookup]
    cases hlookup : constants name with
    | none => exact .none
    | some t => exact .some (restores_asConstant (hexpressible name t hlookup))

theorem survives_iff {nameMapping : AList fun _ : String => String}
    {constants : String → Option TorchTensor} {written : Option (List UInt8)}
    {decode : Bytes → Option Safetensors.WeightRegistry} {storable : Prop}
    (hwritten : (∃ bytes, written = some bytes) ↔ storable)
    (hdecode : Expressible constants → ∀ blob : Bytes, written = some blob.bytes →
      ∃ r, decode blob = some r ∧ Restored nameMapping constants r) :
    Survives nameMapping constants written decode ↔ (storable → Expressible constants) := by
  constructor
  · intro h hstorable name t ht
    by_contra hcode
    obtain ⟨bytes, hbytes⟩ := hwritten.2 hstorable
    rw [h.refused name t ht (Option.not_isSome_iff_eq_none.1 hcode)] at hbytes
    cases hbytes
  · intro h
    refine ⟨fun blob hblob => ?_, fun name t ht hcode => ?_⟩
    · exact hdecode (h (hwritten.1 ⟨_, hblob⟩)) blob hblob
    · by_contra hsome
      obtain ⟨bytes, hbytes⟩ := Option.ne_none_iff_exists'.1 hsome
      have hexpressible := h (hwritten.1 ⟨bytes, hbytes⟩) name t ht
      rw [hcode] at hexpressible
      cases hexpressible

section WeightData

variable {numpy : TorchTensor → Bool} {protobuf : Protobuf}
  {nameMapping : AList fun _ : String => String} {constants : AList fun _ : String => TorchTensor}

theorem buildWeightData_eq_some {bytes : List UInt8} :
    buildWeightData numpy protobuf nameMapping constants = some bytes ↔
      (∀ e ∈ sortedItems constants, numpy e.2.forNumpy = true) ∧
        protobuf.serialize (weightData nameMapping constants) = some bytes := by
  have hentry : ∀ e entry, constantEntry numpy e = some entry ↔
      numpy e.2.forNumpy = true ∧ entry = constantMessage e := by
    intro e entry
    rw [constantEntry, Option.ite_none_right_eq_some, Option.some.injEq, eq_comm (a := entry)]
  exact bind_fits fun _ => mapM_eq_some_iff hentry

theorem constantOf_message (e : String × TorchTensor) :
    constantOf (constantMessage e) = .ok (e.1, asConstant e.2) := by
  have hlow : dtypeCode e.2.dtype % 256 = dtypeCode e.2.dtype := by
    cases e.2.dtype <;> rfl
  have hcode : Dtype.fromCode (dtypeCode e.2.dtype % 256) = some (label e.2.dtype) := by
    rw [hlow, fromCode_dtypeCode]
  simp only [constantOf, constantMessage, hcode]
  rfl

theorem loadSfaWeights_weightData {bytes : List UInt8}
    (h : protobuf.serialize (weightData nameMapping constants) = some bytes) :
    loadSfaWeights protobuf bytes = .ok ⟨(sortedItems nameMapping).foldl insertEntry ∅,
      ((sortedItems constants).map fun e => (e.1, asConstant e.2)).foldl insertEntry ∅⟩ := by
  have hconstants : ((sortedItems constants).map constantMessage).mapM constantOf =
      .ok ((sortedItems constants).map fun e => (e.1, asConstant e.2)) := by
    rw [mapM_eq_ok_iff, forall₂_map_left_iff, forall₂_map_right_iff]
    exact forall₂_same.2 fun e _ => constantOf_message e
  have hnames : ((sortedItems nameMapping).map weightEntry).map
      (fun e => (e.compiledName, e.hfKey)) = sortedItems nameMapping := by
    rw [map_map]
    exact map_id _
  have hrun : loadSfaWeights protobuf bytes =
      ((weightData nameMapping constants).constantEntries.mapM constantOf >>= fun constants' =>
        .ok ⟨((weightData nameMapping constants).weightEntries.map
          fun e => (e.compiledName, e.hfKey)).foldl insertEntry ∅,
          constants'.foldl insertEntry ∅⟩) := by
    rw [loadSfaWeights, protobuf.decode_serialize _ _ h]
    rfl
  rw [hrun, weightData, hconstants, hnames]
  rfl

theorem sfa_survives_iff : Survives nameMapping constants.lookup
    (buildWeightData numpy protobuf nameMapping constants) (decodeSfa protobuf) ↔
      (SfaStorable numpy protobuf nameMapping constants → Expressible constants.lookup) := by
  refine survives_iff ⟨?_, ?_⟩ fun hexpressible blob hblob => ?_
  · rintro ⟨bytes, h⟩
    obtain ⟨hconverts, h⟩ := buildWeightData_eq_some.1 h
    exact ⟨hconverts, bytes, h⟩
  · rintro ⟨hconverts, bytes, h⟩
    exact ⟨bytes, buildWeightData_eq_some.2 ⟨hconverts, h⟩⟩
  · have hload := loadSfaWeights_weightData (buildWeightData_eq_some.1 hblob).2
    refine ⟨_, congrArg Except.toOption hload, ?_⟩
    exact restored_of_expressible (dictGet_sortedItems _) (dictGet_sortedItems _) hexpressible

end WeightData

section LegacyBlob

theorem packLe_writes (width : Nat) : Writes (packLe width) (numberFormat width) := by
  intro n w
  rw [packLe, Option.ite_none_right_eq_some, Option.some.injEq, eq_comm (a := w)]
  rfl

theorem packString_writes : Writes packString stringFormat := by
  intro s w
  rw [packString, bind_fits (packLe_writes 4 _), Option.pure_def, Option.some_inj, eq_comm]
  rfl

theorem packEntry_writes : Writes packEntry entryFormat := packString_writes.pair packString_writes

/-- A constant that `numpy()` takes, as it is written. -/
def tensorFormat (numpy : TorchTensor → Bool) : Format UInt8 (String × TorchTensor) where
  valid e := constantFormat.valid (e.1, asConstant e.2) ∧ numpy e.2.forNumpy = true
  spell e := constantFormat.spell (e.1, asConstant e.2)

theorem packConstant_writes (numpy : TorchTensor → Bool) :
    Writes (packConstant numpy) (tensorFormat numpy) := by
  intro e w
  have hcode : dtypeCode e.2.dtype < 256 ^ 1 := by
    rw [← code_label]
    cases label e.2.dtype <;> decide
  -- what a tensor promises: its dimensions and its size fit in eight bytes
  have hdims : (numberFormat 8).many.valid e.2.shape := fun d hd =>
    (e.2.dims d hd).trans (by norm_num)
  have hlength : e.2.forNumpy.storage.length < 256 ^ 8 :=
    (length_storage_lt _).trans (by norm_num)
  have hspell : constantFormat.spell (e.1, asConstant e.2) = stringFormat.spell e.1 ++
      leBytes 1 (dtypeCode e.2.dtype) ++ leBytes 1 e.2.shape.length ++
      (e.2.shape.map (leBytes 8)).flatten ++ leBytes 8 e.2.forNumpy.storage.length ++
      e.2.forNumpy.storage := by
    rw [← code_label, ← flatMap_def]
    simp only [constantFormat, dtypeFormat, shapeFormat, bytesFormat, asConstant, append_assoc]
    rfl
  have hdata : ∀ data, numpyBytes numpy e.2.forNumpy = some data ↔
      numpy e.2.forNumpy = true ∧ data = e.2.forNumpy.storage := fun data => by
    rw [numpyBytes, Option.ite_none_right_eq_some, Option.some_inj, eq_comm (a := data)]
  rw [packConstant, bind_fits (packString_writes _), bind_fits (packLe_writes 1 _),
    bind_fits (packLe_writes 1 _), bind_fits fun _ => (packLe_writes 8).many, bind_fits hdata,
    bind_fits (packLe_writes 8 _)]
  constructor
  · rintro ⟨hvalid, -, hrank, -, hnumpy, -, h⟩
    exact ⟨⟨⟨hvalid, hrank, hdims⟩, hnumpy⟩, (Option.some.inj h).symm.trans hspell.symm⟩
  · rintro ⟨⟨⟨hvalid, hrank, -⟩, hnumpy⟩, rfl⟩
    exact ⟨hvalid, hcode, hrank, hdims, hnumpy, hlength, congrArg some hspell.symm⟩

variable {numpy : TorchTensor → Bool} {trailer : Option (List UInt8)}
  {functions : List ConstFunction} {nameMapping : AList fun _ : String => String}

theorem length_sortedItems {β : Type} (table : AList fun _ : String => β) :
    (sortedItems table).length = table.entries.length := by
  rw [sortedItems, length_mergeSort, length_map]

theorem spell_blobOf (rest : List UInt8) :
    ([utf8 "SFCF", leBytes 4 4, leBytes 4 nameMapping.entries.length] ++
      (sortedItems nameMapping).map entryFormat.spell ++
      [leBytes 4 (constTensors functions).length] ++
      (constTensors functions).map (tensorFormat numpy).spell ++ [rest]).flatten =
      blobFormat.spell (blobOf functions nameMapping) ++ rest := by
  have hconstants : ((constTensors functions).map (tensorFormat numpy).spell).flatten =
      constantFormat.many.spell (blobOf functions nameMapping).constants := by
    rw [← flatten_map_spell, blobOf, map_map]
    rfl
  have hcount : (blobOf functions nameMapping).constants.length =
      (constTensors functions).length := length_map _
  rw [spell_blob]
  simp only [flatten_append, flatten_cons, flatten_nil, append_nil,
    flatten_map_spell, hconstants, sectionFormat, hcount, append_assoc, header, magic]
  rw [← length_sortedItems]
  rfl

theorem joinBytes_blob (numpy : TorchTensor → Bool) (rest : List UInt8) {bytes : List UInt8} :
    joinBytes ([utf8 "SFCF", leBytes 4 4, leBytes 4 nameMapping.entries.length] ++
      (sortedItems nameMapping).map entryFormat.spell ++
      [leBytes 4 (constTensors functions).length] ++
      (constTensors functions).map (tensorFormat numpy).spell ++ [rest]) = some bytes ↔
      (blobFormat.spell (blobOf functions nameMapping) ++ rest).length < 2 ^ 63 ∧
        bytes = blobFormat.spell (blobOf functions nameMapping) ++ rest := by
  rw [joinBytes, spell_blobOf, Option.ite_none_right_eq_some, Option.some.injEq,
    eq_comm (a := bytes)]

theorem blobOf_valid_iff : blobFormat.valid (blobOf functions nameMapping) ↔
    nameMapping.entries.length < 2 ^ 32 ∧ entryFormat.many.valid (sortedItems nameMapping) ∧
      (constTensors functions).length < 2 ^ 32 ∧
      ∀ e ∈ constTensors functions, constantFormat.valid (e.1, asConstant e.2) := by
  have hconstants : constantFormat.many.valid (blobOf functions nameMapping).constants ↔
      ∀ e ∈ constTensors functions, constantFormat.valid (e.1, asConstant e.2) :=
    forall_mem_map
  have hcount : (blobOf functions nameMapping).constants.length =
      (constTensors functions).length := length_map _
  rw [← hconstants, ← hcount, ← length_sortedItems]
  constructor
  · rintro ⟨-, ⟨hnames, hmapping⟩, hcount, hconstants⟩
    exact ⟨hnames, hmapping, hcount, hconstants⟩
  · rintro ⟨hnames, hmapping, hcount, hconstants⟩
    -- the writer has version 4, the last that the reader knows
    have hversion : 2 ≤ 4 ∧ 4 ≤ 4 := by decide
    exact ⟨hversion, ⟨hnames, hmapping⟩, hcount, hconstants⟩

theorem buildConstantsBinary_eq_some {bytes : List UInt8} :
    buildConstantsBinary numpy trailer functions nameMapping = some bytes ↔
      blobFormat.valid (blobOf functions nameMapping) ∧
        (∀ e ∈ constTensors functions, numpy e.2.forNumpy = true) ∧
        ∃ rest, trailer = some rest ∧
          (blobFormat.spell (blobOf functions nameMapping) ++ rest).length < 2 ^ 63 ∧
          bytes = blobFormat.spell (blobOf functions nameMapping) ++ rest := by
  rw [buildConstantsBinary, bind_fits (packLe_writes 4 _), bind_fits (packLe_writes 4 _),
    bind_fits fun _ => packEntry_writes.many, bind_fits (packLe_writes 4 _),
    bind_fits fun _ => (packConstant_writes numpy).many]
  constructor
  · rintro ⟨-, hcount, hmapping, hcount', hconstants, h⟩
    obtain ⟨rest, hrest, h⟩ := Option.bind_eq_some_iff.1 h
    exact ⟨blobOf_valid_iff.2 ⟨hcount, hmapping, hcount', fun e he => (hconstants e he).1⟩,
      fun e he => (hconstants e he).2, rest, hrest, (joinBytes_blob numpy rest).1 h⟩
  · rintro ⟨hvalid, hnumpy, rest, hrest, hbytes⟩
    obtain ⟨hcount, hmapping, hcount', hconstants⟩ := blobOf_valid_iff.1 hvalid
    have hversion : (numberFormat 4).valid 4 := by
      show 4 < 256 ^ 4
      decide
    exact ⟨hversion, hcount, hmapping, hcount', fun e he => ⟨hconstants e he, hnumpy e he⟩,
      Option.bind_eq_some_iff.2 ⟨rest, hrest, (joinBytes_blob numpy rest).2 hbytes⟩⟩

theorem sfcf_survives_iff : Survives nameMapping (dictGet (constTensors functions))
    (buildConstantsBinary numpy trailer functions nameMapping) decodeSfcf ↔
      (SfcfStorable numpy trailer functions nameMapping →
        Expressible (dictGet (constTensors functions))) := by
  refine survives_iff ⟨?_, ?_⟩ fun hexpressible blob hblob => ?_
  · rintro ⟨bytes, h⟩
    obtain ⟨hvalid, hnumpy, rest, hrest, hfits, -⟩ := buildConstantsBinary_eq_some.1 h
    exact ⟨hvalid, hnumpy, rest, hrest, hfits⟩
  · rintro ⟨hvalid, hnumpy, rest, hrest, hfits⟩
    exact ⟨_, buildConstantsBinary_eq_some.2 ⟨hvalid, hnumpy, rest, hrest, hfits, rfl⟩⟩
  · obtain ⟨hvalid, -, rest, -, -, hbytes⟩ := buildConstantsBinary_eq_some.1 hblob
    have hload := load_ok_iff.2 ⟨blobOf functions nameMapping,
      ⟨hvalid, spells_zero.2 ⟨rest, hbytes⟩⟩, rfl⟩
    have hdecode : decodeSfcf blob = some (blobOf functions nameMapping).registry := by
      rw [decodeSfcf, hload]
      rfl
    refine ⟨_, hdecode, ?_⟩
    exact restored_of_expressible (dictGet_sortedItems _) (fun _ => rfl) hexpressible

end LegacyBlob

theorem reportsError_iff (data : Bytes) :
    ReportsError data ↔ ¬ CutBehindDtype data.bytes ∧ ¬ LengthWraps data.bytes := by
  rw [← not_or, ← load_panics_iff]
  constructor
  · intro h hpanic
    have hmalformed : ¬ WellFormed data.bytes := by
      rintro ⟨b, hb⟩
      rw [load_ok_iff.2 ⟨b, hb, rfl⟩] at hpanic
      cases hpanic
    obtain ⟨e, hne, he⟩ := h hmalformed
    rw [hpanic] at he
    exact hne (Except.error.inj he).symm
  · intro h hmalformed
    cases hload : loadRegistryFromDylib data with
    | error e => exact ⟨e, fun he => h (he ▸ hload), rfl⟩
    | ok =>
      obtain ⟨b, hb, -⟩ := load_ok_iff.1 hload
      exact absurd ⟨b, hb⟩ hmalformed

/-- Constants survive either blob where each dtype has a code or nothing can be stored. -/
theorem constants_survive_iff (numpy : TorchTensor → Bool) :
    (∀ (protobuf : Protobuf) (nameMapping : AList fun _ : String => String)
      (constants : AList fun _ : String => TorchTensor),
      Survives nameMapping constants.lookup (buildWeightData numpy protobuf nameMapping constants)
        (decodeSfa protobuf) ↔
        (SfaStorable numpy protobuf nameMapping constants → Expressible constants.lookup)) ∧
    (∀ (trailer : Option (List UInt8)) (functions : List ConstFunction)
      (nameMapping : AList fun _ : String => String),
      Survives nameMapping (dictGet (constTensors functions))
        (buildConstantsBinary numpy trailer functions nameMapping) decodeSfcf ↔
        (SfcfStorable numpy trailer functions nameMapping →
          Expressible (dictGet (constTensors functions)))) ∧
    ∀ data : Bytes, ReportsError data ↔ ¬ CutBehindDtype data.bytes ∧ ¬ LengthWraps data.bytes :=
  ⟨fun _ _ _ => sfa_survives_iff, fun _ _ _ => sfcf_survives_iff, reportsError_iff⟩

/-! ## Constants that are lost -/

def double : TorchTensor where
  dtype := .other "float64" 8
  shape := [1]
  elements := [0x3ff0000000000000]
  numel := rfl
  bits := by decide
  dims := by decide
  fits := by decide

def doubleConstants : AList fun _ : String => TorchTensor := AList.singleton "c" double

def numpyHas (t : TorchTensor) : Bool :=
  decide (t.shape.length ≤ 64) &&
    match t.dtype with
    | .bfloat16 => false
    | .other name _ =>
      name ∈ ["float64", "int16", "uint32", "uint64", "bool", "complex64", "complex128"]
    | _ => true

def doubleMessage : List UInt8 :=
  [0x12, 16, 0x0a, 1, 99, 0x1a, 1, 1, 0x22, 8, 0, 0, 0, 0, 0, 0, 0xf0, 0x3f]

def doubleProtobuf : Protobuf where
  serialize message := if message = weightData ∅ doubleConstants then some doubleMessage else none
  decode bytes :=
    if bytes = doubleMessage then .ok (weightData ∅ doubleConstants) else .error "decode"
  decode_serialize := by
    intro message bytes h
    obtain ⟨hmessage, hbytes⟩ := Option.ite_none_right_eq_some.1 h
    rw [if_pos (Option.some.inj hbytes).symm, hmessage]

def doubleFunctions : List ConstFunction := [⟨["c"], doubleConstants⟩]

/-- The contract section of a module without global inputs, outside a checkout. -/
def contractSection : List UInt8 :=
  (sectionFormat entryFormat).spell [("sfcf_version", "4"), ("num_global_inputs", "0"),
    ("global_input_names", ""), ("compiler_version", "unknown")]

def cutBlob : Bytes where
  bytes := [83, 70, 67, 70, 4, 0, 0, 0, 0, 0, 0, 0, 1, 0, 0, 0, 1, 0, 0, 0, 99, 0]
  fits := by decide

theorem valid_c : stringFormat.valid "c" := by
  show (utf8 "c").length < 2 ^ 32
  decide

theorem sfcfStorable_double :
    SfcfStorable numpyHas (some contractSection) doubleFunctions ∅ := by
  have hnames : sortedItems (∅ : AList fun _ : String => String) = [] := mergeSort_nil
  refine ⟨blobOf_valid_iff.2 ⟨by decide, ?_, by decide, fun e he => ?_⟩, fun e he => ?_,
    contractSection, rfl, ?_⟩
  · rw [hnames]
    exact nofun
  · obtain rfl := mem_singleton.1 he
    refine ⟨valid_c, by decide, fun d hd => ?_⟩
    obtain rfl := mem_singleton.1 hd
    show 1 < 256 ^ 8
    decide
  · obtain rfl := mem_singleton.1 he
    decide
  · rw [blobOf, hnames]
    decide +kernel

/-- A double is written as `float32`, and the cut blob is a panic. -/
theorem constants_lost :
    ¬ Survives ∅ doubleConstants.lookup (buildWeightData numpyHas doubleProtobuf ∅ doubleConstants)
      (decodeSfa doubleProtobuf) ∧
    ¬ Survives ∅ (dictGet (constTensors doubleFunctions))
      (buildConstantsBinary numpyHas (some contractSection) doubleFunctions ∅) decodeSfcf ∧
    ¬ ReportsError cutBlob := by
  have hlost : ¬ (dtypeToCode double.dtype).isSome = true := by decide
  have hnumpy : numpyHas double.forNumpy = true := by decide
  have hlookup : doubleConstants.lookup "c" = some double := rfl
  refine ⟨fun h => ?_, fun h => ?_, fun h => ?_⟩
  · have hstorable : SfaStorable numpyHas doubleProtobuf ∅ doubleConstants := by
      refine ⟨fun e he => ?_, doubleMessage, if_pos rfl⟩
      have he : e ∈ List.mergeSort [("c", double)] _ := he
      rw [mergeSort_singleton, mem_singleton] at he
      rwa [he]
    exact hlost (sfa_survives_iff.1 h hstorable "c" double hlookup)
  · exact hlost (sfcf_survives_iff.1 h sfcfStorable_double "c" double rfl)
  · have hvalid : openingFormat.valid ⟨4, [], 1, [], "c", .f32⟩ :=
      ⟨by decide, ⟨by decide, nofun⟩, by decide, by decide,
        nofun, valid_c⟩
    exact ((reportsError_iff cutBlob).1 h).1 ⟨_, hvalid, rfl⟩

end CompileForge.Abi.ConstantTransport
