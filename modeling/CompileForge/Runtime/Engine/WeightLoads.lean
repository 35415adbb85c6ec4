/-
  The weight loaders (`runtime/src/engine/compute_graph_runner.rs`) with source dtypes,
  the two caches they fill, and the loads that a forward pass issues.
-/

import CompileForge.Runtime.Engine.OpPlan
import CompileForge.Lib.AssocTable
import CompileForge.Lib.Memo

namespace CompileForge.Runtime.Weights

open Abi Lib

/-- The sizes, the source dtype, and the elements of the region under both widths. -/
structure WeightMemref where
  sizes : List Nat
  dtype : Dtype
  halves : List UInt16
  singles : List F32
deriving DecidableEq, Repr

structure WeightProvider where
  getWeightMemref : String → Option WeightMemref
  /-- `half::f16::from_bits(h).to_f32()`. -/
  toF32 : UInt16 → F32

def isHalf (dtype : Dtype) : Bool := dtype = .f16 || dtype = .bf16

variable (p : WeightProvider)

/-- A region is read as 16-bit or as 32-bit elements; the conversion of the former is a parameter.
    -/
def convertWeightToF32 (desc : WeightMemref) : List F32 :=
  match desc.dtype with
  | .f32 => desc.singles
  | _ => desc.halves.map p.toF32

/-! ## The loaders -/

abbrev WeightTable := AList fun _ : String => Value

def loadWeightTensor (cache : WeightTable) (key : String)
    (ioDef : GraphTensorDef) : Except String (Value × WeightTable) := do
  match cache.lookup key with
  | some cached => .ok (cached, cache)
  | none =>
    let desc ← okOr s!"weight not found: {key}" (p.getWeightMemref key)
    let n := desc.sizes.prod
    let shape := ioDef.loadedShape desc.sizes
    ensure (shape.prod = n)
      (s!"weight {key} numel mismatch: ABI shape {shape} has {shape.prod} elements, " ++
        s!"safetensors has {n}")
    let t := Value.f32 ⟨shape, convertWeightToF32 p desc⟩
    .ok (t, cache.insert key t)

def loadWeightTensorU16 (cache : WeightTable) (key : String)
    (ioDef : GraphTensorDef) : Except String (Value × WeightTable) := do
  match cache.lookup key with
  | some cached => .ok (cached, cache)
  | none =>
    let desc ← okOr s!"weight not found: {key}" (p.getWeightMemref key)
    ensure (isHalf desc.dtype = true)
      s!"raw weight {key}: expected F16/BF16 source dtype, got {desc.dtype}"
    let n := desc.sizes.prod
    let shape := ioDef.loadedShape desc.sizes
    ensure (shape.prod = n)
      (s!"raw weight {key} numel mismatch: ABI shape {shape} has {shape.prod} elements, " ++
        s!"safetensors has {n}")
    let t := Value.half desc.dtype shape desc.halves
    .ok (t, cache.insert key t)

inductive WeightDtypeMode where
  | auto
  | f32
  | f16
  | bf16
deriving DecidableEq, Repr

/-- `weight_cache` and `raw_weight_cache` of an executor. -/
structure Caches where
  weight : WeightTable
  raw : WeightTable

def Caches.empty : Caches := ⟨∅, ∅⟩

variable (c : Caches)

/-- A loader on `weight_cache`. -/
def Caches.onWeight (load : WeightTable → Except String (Value × WeightTable)) :
    Except String (Value × Caches) := do
  let (v, weight) ← load c.weight
  .ok (v, { c with weight })

/-- A loader on `raw_weight_cache`. -/
def Caches.onRaw (load : WeightTable → Except String (Value × WeightTable)) :
    Except String (Value × Caches) := do
  let (v, raw) ← load c.raw
  .ok (v, { c with raw })

def loadWeightTensorForMode (key : String)
    (ioDef : GraphTensorDef) (mode : WeightDtypeMode) : Except String (Value × Caches) := do
  let desc ← okOr s!"weight not found: {key}" (p.getWeightMemref key)
  match mode with
  | .f32 => c.onWeight (loadWeightTensor p · key ioDef)
  | .f16 =>
    ensure (desc.dtype = .f16)
      s!"weight {key}: --weight-dtype f16 requires F16 source, got {desc.dtype}"
    c.onRaw (loadWeightTensorU16 p · key ioDef)
  | .bf16 =>
    ensure (desc.dtype = .bf16)
      s!"weight {key}: --weight-dtype bf16 requires BF16 source, got {desc.dtype}"
    c.onRaw (loadWeightTensorU16 p · key ioDef)
  | .auto =>
    if isHalf desc.dtype then c.onRaw (loadWeightTensorU16 p · key ioDef)
    else c.onWeight (loadWeightTensor p · key ioDef)

def bindFunctionGraphWeight (key : String)
    (ioDef : GraphTensorDef) : Except String (Value × Caches) :=
  let sourceDtype := ((p.getWeightMemref key).map (·.dtype)).getD .f32
  if isHalf sourceDtype then c.onWeight (loadWeightTensorU16 p · key ioDef)
  else c.onWeight (loadWeightTensor p · key ioDef)

/-! ## Loads -/

/-- `run_function_graph`, the promoted loader, or the loader for a mode. -/
inductive LoadSite where
  | functionGraph
  | promoted
  | forMode (mode : WeightDtypeMode)
deriving DecidableEq, Repr

/-- A load of a weight: by name, and by the site that asks. -/
structure WeightLoad where
  site : LoadSite
  key : String
  ioDef : GraphTensorDef
deriving DecidableEq, Repr

def runLoad (r : WeightLoad) : Except String (Value × Caches) :=
  match r.site with
  | .functionGraph => bindFunctionGraphWeight p c r.key r.ioDef
  | .promoted => c.onWeight (loadWeightTensor p · r.key r.ioDef)
  | .forMode mode => loadWeightTensorForMode p c r.key r.ioDef mode

def afterLoad (r : WeightLoad) : Caches :=
  match runLoad p c r with
  | .ok (_, c') => c'
  | .error _ => c

def cachesAfter (rs : List WeightLoad) : Caches :=
  rs.foldl (afterLoad p) .empty

def loaded (r : WeightLoad) : Except String Value :=
  (runLoad p c r).map Prod.fst

/-! ## Forward passes -/

def bindingLoads (site : LoadSite) (funcDef : FuncDef) : List WeightLoad :=
  funcDef.inputs.filterMap fun e =>
    match e.1 with
    | .weight key => some ⟨site, key, e.2⟩
    | _ => none

variable (computeGraph : ComputeGraph)

def main15Loads (mode : WeightDtypeMode) (funcDef : FuncDef) : List WeightLoad :=
  if isMain15 computeGraph funcDef then
    match main15WeightKey computeGraph funcDef, (funcDef.inputs[1]? : Option (_ × GraphTensorDef))
      with
    | .ok (some key), some input => [⟨.forMode mode, key, input.2⟩]
    | _, _ => []
  else []

variable (weights : WeightRegistry)

def planInputLoad (plan : OpPlan) (mode : WeightDtypeMode)
    (node : OpPlanNode) (e : OpPlanInput × Nat) : Option WeightLoad :=
  let ioDef := specToIoDef e.1.spec
  match OpPlanSource.tryFrom e.1.source, e.1.binding with
  | some .weight, some (.weightName name) =>
    let site := if node.opName = "linear_transb" ∧ e.2 = 1 then .forMode mode else .promoted
    some ⟨site, name, ioDef⟩
  | some .constant, some (.constantName name) => some ⟨.promoted, name, ioDef⟩
  | some .global, some (.globalIndex idx) => do
      let name ← plan.globalInputs[idx]?
      if name ∈ weights.nameMapping ∨ name ∈ weights.constants then
        some ⟨.promoted, name, ioDef⟩
      else none
  | _, _ => none

def planLoads (plan : OpPlan) (mode : WeightDtypeMode) : List WeightLoad :=
  plan.nodes.flatMap fun node =>
    node.inputs.zipIdx.filterMap (planInputLoad weights plan mode node)

/-- The runner, what the fused layers handle, and how many loads it gets to. -/
inductive Pass where
  | withPositions (stop : Nat)
  | withKv (mode : WeightDtypeMode) (opPlan : Option OpPlan) (fused : List Nat) (stop : Nat)

/-- A function that the plan covers or the fused layers handle binds no weight. -/
def kvFunctionLoads
    (mode : WeightDtypeMode) (opPlan : Option OpPlan) (fused : List Nat) (funcDef : FuncDef) :
    List WeightLoad :=
  let covered := (opPlan.map coveredFuncIndices).getD []
  let planned :=
    match opPlan with
    | some plan => if covered.min? = some funcDef.index then planLoads weights plan mode else []
    | none => []
  let bound :=
    if funcDef.index ∈ covered ∨ funcDef.index ∈ fused then []
    else bindingLoads .promoted funcDef ++ main15Loads computeGraph mode funcDef
  planned ++ bound

/-- A pass may fail at any point: it stops behind some of its loads. -/
def Pass.loads : Pass → List WeightLoad
  | .withPositions stop =>
    (computeGraph.functions.flatMap (bindingLoads .functionGraph)).take stop
  | .withKv mode opPlan fused stop =>
    (computeGraph.functions.flatMap
      (kvFunctionLoads computeGraph weights mode opPlan fused)).take stop

def passLoads (passes : List Pass) : List WeightLoad :=
  passes.flatMap (Pass.loads computeGraph weights)

end CompileForge.Runtime.Weights
