/-
  The writers of the constants that a dylib embeds: the weight data of the ABI
  (`compiler/sfa_weights.py`) and the legacy blob (`compiler/artifact/binary.py`).
  `none` where the code raises.
-/

import CompileForge.Compiler.Mlir
import CompileForge.Lib.Cursor
import Mathlib.Data.Finmap

namespace CompileForge.Compiler

open Abi Lib

/-- `torch.dtype`: those that the writers name, and the others by name and size. -/
inductive TorchDtype where
  | float32
  | float16
  | bfloat16
  | int64
  | int32
  | int8
  | uint8
  | uint16
  | other (name : String) (itemsize : Nat)
deriving DecidableEq, Repr

def TorchDtype.itemsize : TorchDtype → Nat
  | float32 => 4
  | float16 => 2
  | bfloat16 => 2
  | int64 => 8
  | int32 => 4
  | int8 => 1
  | uint8 => 1
  | uint16 => 2
  | other _ itemsize => itemsize

/-- The elements in row-major order; a view, a copy or another memory layout does not change them.
    -/
structure TorchTensor where
  dtype : TorchDtype
  shape : List Nat
  elements : List Nat
  numel : elements.length = shape.prod
  bits : ∀ e ∈ elements, e < 256 ^ dtype.itemsize
  dims : ∀ d ∈ shape, d < 2 ^ 63
  fits : elements.length * dtype.itemsize < 2 ^ 63

variable (t : TorchTensor)

/-- `tobytes()`. -/
def TorchTensor.storage : List UInt8 :=
  t.elements.flatMap (leBytes t.dtype.itemsize)

theorem length_storage : t.storage.length = t.elements.length * t.dtype.itemsize :=
  length_flatMap_windows fun _ _ => length_leBytes ..

theorem length_storage_lt : t.storage.length < 2 ^ 63 :=
  (length_storage t).trans_lt t.fits

/-- The tensor whose `numpy()` is taken: for `bfloat16` its view as `uint16`. -/
def TorchTensor.forNumpy : TorchTensor :=
  if h : t.dtype = .bfloat16 then
    { t with
      dtype := .uint16
      bits := by
        have hbits := t.bits
        rw [h] at hbits
        exact hbits
      fits := by
        have hfits := t.fits
        rw [h] at hfits
        exact hfits }
  else t

variable (numpy : TorchTensor → Bool)

/-- Memory is little-endian.  Which tensors `numpy()` converts is a parameter. -/
def numpyBytes (t : TorchTensor) : Option (List UInt8) :=
  if numpy t then some t.storage else none

/-! ## Dictionaries -/

def sortedItems {β : Type} (table : AList fun _ : String => β) : List (String × β) :=
  (table.entries.map fun e => (e.1, e.2)).mergeSort fun a b => decide (a.1 ≤ b.1)

def dtypeToCode : TorchDtype → Option Nat
  | .float32 => some 0
  | .float16 => some 1
  | .bfloat16 => some 2
  | .int64 => some 3
  | .int32 => some 4
  | .int8 => some 5
  | .uint8 => some 6
  | _ => none

/-- A dtype without a code is written as `float32`. -/
def dtypeCode (dtype : TorchDtype) : Nat := (dtypeToCode dtype).getD 0

/-! ## The weight data -/

/-- The protobuf libraries: `SerializeToString` and `decode`. -/
structure Protobuf where
  serialize : SfaWeightData → Option (List UInt8)
  decode : List UInt8 → Except String SfaWeightData
  decode_serialize : ∀ message bytes, serialize message = some bytes → decode bytes = .ok message

def weightEntry (e : String × String) : SfaWeightEntry := ⟨e.1, e.2⟩

variable (e : String × TorchTensor)

/-- The entry of a constant that `numpy()` converts. -/
def constantMessage : SfaConstant where
  name := e.1
  dtypeCode := dtypeCode e.2.dtype
  shape := e.2.shape
  data := e.2.forNumpy.storage
  dataFits := length_storage_lt _

def constantEntry : Option SfaConstant :=
  if numpy e.2.forNumpy then some (constantMessage e) else none

def buildWeightData (protobuf : Protobuf) (nameMapping : AList fun _ : String => String)
    (constants : AList fun _ : String => TorchTensor) : Option (List UInt8) := do
  let entries ← (sortedItems constants).mapM (constantEntry numpy)
  protobuf.serialize ⟨(sortedItems nameMapping).map weightEntry, entries⟩

/-! ## The legacy blob -/

/-- `struct.pack` of a little-endian unsigned number. -/
def packLe (width n : Nat) : Option (List UInt8) :=
  if n < 256 ^ width then some (leBytes width n) else none

def packString (s : String) : Option (List UInt8) := do
  let length ← packLe 4 (utf8 s).length
  return length ++ utf8 s

def packEntry (e : String × String) : Option (List UInt8) := do
  let short ← packString e.1
  let full ← packString e.2
  return short ++ full

def packConstant : Option (List UInt8) := do
  let name ← packString e.1
  let code ← packLe 1 (dtypeCode e.2.dtype)
  let ndim ← packLe 1 e.2.shape.length
  let dims ← e.2.shape.mapM (packLe 8)
  let data ← numpyBytes numpy e.2.forNumpy
  let length ← packLe 8 data.length
  return name ++ code ++ ndim ++ dims.flatten ++ length ++ data

structure ConstFunction where
  constWeightNames : List String
  weights : AList fun _ : String => TorchTensor

def constTensors (functions : List ConstFunction) : List (String × TorchTensor) :=
  functions.flatMap fun func =>
    func.constWeightNames.filterMap fun wname => (func.weights.lookup wname).map (wname, ·)

def joinBytes (parts : List (List UInt8)) : Option (List UInt8) :=
  if parts.flatten.length < 2 ^ 63 then some parts.flatten else none

/-- The sections behind the constants are any bytes, or raise. -/
def buildConstantsBinary (trailer : Option (List UInt8))
    (functions : List ConstFunction) (nameMapping : AList fun _ : String => String) :
    Option (List UInt8) := do
  let version ← packLe 4 4
  let mappingCount ← packLe 4 nameMapping.entries.length
  let mapping ← (sortedItems nameMapping).mapM packEntry
  let constCount ← packLe 4 (constTensors functions).length
  let constants ← (constTensors functions).mapM (packConstant numpy)
  let rest ← trailer
  joinBytes ([utf8 "SFCF", version, mappingCount] ++ mapping ++ [constCount] ++ constants ++ [rest])

end CompileForge.Compiler
