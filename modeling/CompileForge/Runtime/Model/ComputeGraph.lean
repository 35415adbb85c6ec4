/-
  The compute graph the runtime builds from the ABI header
  (`runtime/src/model/abi.rs`, `compute_graph.rs`), and the tensor it passes for a
  global input (`global_input.rs`).
-/

import CompileForge.Abi.Messages
import CompileForge.Runtime.Cache.Intercept

namespace CompileForge.Runtime

open Abi

inductive Dtype where
  | f32
  | f16
  | bf16
  | i64
  | i32
  | i8
  | u8
deriving DecidableEq, Repr

def dtypeFromStr (s : String) : Dtype :=
  if s = "f32" ∨ s = "float" then .f32
  else if s = "f16" ∨ s = "float16" then .f16
  else if s = "bf16" ∨ s = "bfloat16" ∨ s = "bfloat" then .bf16
  else if s = "i64" ∨ s = "int64" then .i64
  else if s = "i32" ∨ s = "int32" then .i32
  else if s = "i8" ∨ s = "int8" then .i8
  else if s = "u8" ∨ s = "uint8" then .u8
  else .f32

inductive InputBinding where
  | weight (key : String)
  | ssa (producerFunc outputIdx : Nat)
  | globalInput
deriving DecidableEq, Repr

structure GraphTensorDef extends IOTensorDef where
  rank : Nat
  shape : List Nat
  dtype : Dtype
deriving DecidableEq, Repr

/-- The shape where it is static, else the sizes that the weight comes with. -/
def GraphTensorDef.loadedShape (ioDef : GraphTensorDef) (sizes : List Nat) : List Nat :=
  if 0 < ioDef.rank ∧ ioDef.shape.length = ioDef.rank ∧ ∀ d ∈ ioDef.shape, 0 < d then ioDef.shape
  else sizes

structure FuncDef where
  index : Nat
  symbol : String
  numInputs : Nat
  numOutputs : Nat
  inputs : List (InputBinding × GraphTensorDef)
  outputs : List GraphTensorDef
  consumedSubOutputFlags : List Bool
deriving DecidableEq, Repr

structure ComputeGraph where
  functions : List FuncDef
  globalInput : Nat × Nat
  globalOutput : Nat × Nat
deriving DecidableEq, Repr

/-! ## Building the graph -/

/-- The binding of a field; a `oneof` that does not match the kind reads as the default. -/
def fieldBinding (field : SfaInputField) : InputBinding :=
  match field.kind with
  | .global => .globalInput
  | .weight =>
    match field.binding with
    | some (.weightName name) => .weight name
    | _ => .weight ""
  | .ssa =>
    match field.binding with
    | some (.ssa r) => .ssa r.producerFunc r.producerOut
    | _ => .ssa 0 0

/-- `as u8` of a `u32` keeps the low byte; a `u64` dimension fits a `usize`. -/
def fieldDef (field : SfaInputField) : GraphTensorDef :=
  match field.kind with
  | .global =>
    { consumedInternally := false
      rank := if 0 < field.rank then field.rank % 256 else 2
      shape := if field.dims ≠ [] then field.dims else [0, 0]
      dtype := .i64 }
  | _ =>
    { consumedInternally := false
      rank := field.rank % 256
      shape := field.dims
      dtype := dtypeFromStr field.dtype }

/-- Output tensors: the descriptors if there are any, else one of `output_rank`. -/
def outputDefs (m : SfaFuncMeta) : List GraphTensorDef :=
  if m.outputs ≠ [] then
    m.outputs.map fun od =>
      { consumedInternally := od.consumedInternally
        rank := od.rank % 256
        shape := od.dims
        dtype := dtypeFromStr od.dtype }
  else
    let outputRank := m.outputRank % 256
    [{ consumedInternally := false
       rank := outputRank
       shape := List.replicate outputRank 0
       dtype := .f32 }]

/-- The function at position `fi` of the header. -/
def buildFunc (m : SfaFuncMeta) (fi : Nat) : Except String FuncDef :=
  let inputs := m.inputFields.map fun field => (fieldBinding field, fieldDef field)
  if inputs.length = m.numInputs then
    .ok
      { index := fi
        symbol := m.symbol
        numInputs := m.numInputs
        numOutputs := (outputDefs m).length
        inputs
        outputs := outputDefs m
        consumedSubOutputFlags := m.consumedSubOutputFlags }
  else
    .error (s!"num_inputs mismatch: proto field says {m.numInputs}, but found " ++
      s!"{inputs.length} input_fields")

def buildComputeGraph (abi : SfaAbiHeader) : Except String ComputeGraph := do
  let functions ← abi.funcs.zipIdx.mapM fun e => buildFunc e.1 e.2
  .ok { functions, globalInput := (0, 0), globalOutput := (abi.funcs.length - 1, 0) }

/-! ## Global inputs -/

structure IdTensor where
  shape : List Nat
  data : List Int
deriving DecidableEq, Repr

/-- The position in the input list decides: positions for the second, else token ids. -/
def dataSource (inputIds positions : List UInt32) (bi : Nat) : List UInt32 :=
  if bi = 1 then positions else inputIds

def checkedProductUsize (sizes : List Nat) : Option Nat :=
  sizes.foldlM (fun acc dim => if acc * dim < 2 ^ 64 then some (acc * dim) else none) 1

/-- The checked product is the product, and it fits a `usize`. -/
theorem checkedProductUsize_eq_some {sizes : List Nat} {n : Nat}
    (h : checkedProductUsize sizes = some n) : n = sizes.prod ∧ n < 2 ^ 64 := by
  have hfold : ∀ (sizes : List Nat) (acc : Nat), acc < 2 ^ 64 →
      sizes.foldlM (fun acc dim => if acc * dim < 2 ^ 64 then some (acc * dim) else none) acc =
        some n → n = acc * sizes.prod ∧ n < 2 ^ 64 := by
    intro sizes
    induction sizes with
    | nil =>
      intro acc hacc h
      obtain rfl : acc = n := Option.some.inj h
      exact ⟨(mul_one acc).symm, hacc⟩
    | cons d sizes ih =>
      intro acc hacc h
      rw [List.foldlM_cons] at h
      by_cases hlt : acc * d < 2 ^ 64
      · rw [if_pos hlt] at h
        rw [List.prod_cons, ← mul_assoc]
        exact ih (acc * d) hlt h
      · rw [if_neg hlt] at h
        cases h
  have hboth := hfold sizes 1 (by decide) h
  rwa [one_mul] at hboth

/-- No prefix of positive dims overflows when their product does not. -/
theorem checkedProductUsize_of_lt {sizes : List Nat} (hpos : ∀ d ∈ sizes, 1 ≤ d)
    (h : sizes.prod < 2 ^ 64) : checkedProductUsize sizes = some sizes.prod := by
  have hfold : ∀ (sizes : List Nat) (acc : Nat), (∀ d ∈ sizes, 1 ≤ d) →
      acc * sizes.prod < 2 ^ 64 →
      sizes.foldlM (fun acc dim => if acc * dim < 2 ^ 64 then some (acc * dim) else none) acc =
        some (acc * sizes.prod) := by
    intro sizes
    induction sizes with
    | nil => exact fun acc _ _ => congrArg some (mul_one acc).symm
    | cons d sizes ih =>
      intro acc hpos h
      have hrest : ∀ d ∈ sizes, 1 ≤ d := fun d hd => hpos d (List.mem_cons_of_mem _ hd)
      rw [List.prod_cons, ← mul_assoc] at h ⊢
      have hle : acc * d * 1 ≤ acc * d * sizes.prod :=
        Nat.mul_le_mul_left _ (List.prod_pos_iff_forall_pos_nat.2 hrest)
      rw [List.foldlM_cons, if_pos (by omega)]
      exact ih (acc * d) hrest h
  have hrun := hfold sizes 1 hpos ((one_mul _).trans_lt h)
  rwa [one_mul] at hrun

/-- `none` where the code panics. -/
def fillGlobalInput (inputIds positions : List UInt32) (ioDef : GraphTensorDef) (bi : Nat) :
    Option (Except String IdTensor) :=
  let source := (dataSource inputIds positions bi).map fun v => (v.toNat : Int)
  if 0 ∈ ioDef.shape then
    if ioDef.rank = 1 then some (.ok ⟨[source.length], source⟩)
    else if ioDef.rank = 2 then some (.ok ⟨[1, source.length], source⟩)
    else
      some (.error (s!"fill_global_input: unsupported rank {ioDef.rank} for dynamic " ++
        s!"GlobalInput (shape={ioDef.shape})"))
  else
    match checkedProductUsize ioDef.shape with
    | none => some (.error s!"global_input shape overflow: {ioDef.shape}")
    | some expectedNumel =>
      match ioDef.shape with
      | [] => none
      | d :: rest =>
        -- cut to the expected size, or padded with zeros
        let padded := (List.range expectedNumel).map fun i => source.getD i 0
        some (.ok ⟨[d, rest.headD 1], padded⟩)

end CompileForge.Runtime
