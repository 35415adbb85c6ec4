/-
  The op-plan executor (`runtime/src/engine/op_plan/mod.rs`): the assertions made at load
  time, and one run of a plan over the covered functions.  Weights are `f32`, so that no raw
  weight is selected.  Output buffers, their pool and the timings are not modelled.
-/

import CompileForge.Abi.OpPlan
import CompileForge.Runtime.Engine.PlanKernels

namespace CompileForge.Runtime

open Abi Lib

/-- The names of the parameters and of the constants. -/
structure WeightRegistry where
  nameMapping : List String
  constants : List String
deriving DecidableEq, Repr

section LoadTime

variable (plan : OpPlan) (computeGraph : ComputeGraph) (weights : WeightRegistry)

/-- `validate_input`, up to the dtype. -/
def validateBinding (nodeIdx : Nat) (input : OpPlanInput) : Except String Unit := do
  let source ← okOr s!"op-plan node {nodeIdx}: invalid input source {input.source}"
    (OpPlanSource.tryFrom input.source)
  match source, input.binding with
  | .ssa, some (.producer p) =>
    ensure (p.nodeIndex < nodeIdx)
      s!"op-plan node {nodeIdx}: SSA producer {p.nodeIndex} is not strictly earlier"
    let producer ← okOr s!"op-plan node {nodeIdx}: SSA producer {p.nodeIndex} out of range"
      plan.nodes[p.nodeIndex]?
    ensure (p.outputIndex < producer.outputs.length)
      s!"op-plan node {nodeIdx}: SSA output {p.outputIndex} out of range"
  | .ssa, _ => .error s!"op-plan node {nodeIdx}: SSA input missing producer"
  | .funcOutput, some (.funcProducer f) =>
    let func ← okOr s!"op-plan node {nodeIdx}: func producer {f.funcIndex} out of range"
      computeGraph.functions[f.funcIndex]?
    ensure (f.outputIndex < func.outputs.length)
      (s!"op-plan node {nodeIdx}: func output {f.outputIndex} out of range for func " ++
        s!"{f.funcIndex}")
  | .funcOutput, _ => .error s!"op-plan node {nodeIdx}: FUNC_OUTPUT input missing func producer"
  | .weight, some (.weightName name) =>
    ensure (name ∈ weights.nameMapping ∨ name ∈ weights.constants)
      s!"op-plan node {nodeIdx}: weight {name.quote} not in sfa_weights"
  | .weight, _ => .error s!"op-plan node {nodeIdx}: WEIGHT input missing weight_name"
  | .constant, some (.constantName name) =>
    ensure (name ∈ weights.constants)
      s!"op-plan node {nodeIdx}: constant {name.quote} not in sfa_weights"
  | .constant, _ => .error s!"op-plan node {nodeIdx}: CONSTANT input missing constant_name"
  | .global, some (.globalIndex idx) =>
    ensure (idx < plan.globalInputs.length)
      s!"op-plan node {nodeIdx}: global index {idx} out of range"
  | .global, _ => .error s!"op-plan node {nodeIdx}: GLOBAL input missing global_index"

/-- Only `float32` inputs are supported. -/
def validateInput (nodeIdx : Nat) (input : OpPlanInput) : Except String Unit := do
  validateBinding plan computeGraph weights nodeIdx input
  ensure (∃ spec ∈ input.spec, spec.dtype = "float32")
    s!"op-plan node {nodeIdx}: only float32 plan inputs are supported in M1"

def coveredFuncIndices : List Nat :=
  plan.nodes.flatMap (·.sourceFuncIndices)

def cacheIntercepts : List OpPlanCacheIntercept :=
  plan.nodes.flatMap fun node => node.outputs.filterMap (·.cache)

def validateCacheTarget (cache : OpPlanCacheIntercept) : Except String Unit := do
  let func ← okOr s!"cache source func {cache.sourceFuncIndex} out of range"
    computeGraph.functions[cache.sourceFuncIndex]?
  let outDef ← okOr s!"cache source output {cache.sourceOutputIndex} out of range"
    func.outputs[cache.sourceOutputIndex]?
  ensure (outDef.consumedInternally = true)
    (s!"cache projection ({cache.sourceFuncIndex},{cache.sourceOutputIndex}) references a " ++
      "visible output")

def validateCacheProjection (cachePolicy : CachePolicy) : Except String Unit := do
  let caches := cacheIntercepts plan
  caches.forM fun cache =>
    ensure (∃ i ∈ cachePolicy.intercepts, i.funcIndex = cache.sourceFuncIndex ∧
        i.outputIndex = cache.sourceOutputIndex ∧ i.slabId = cache.slabId)
      (s!"op-plan cache projection ({cache.sourceFuncIndex},{cache.sourceOutputIndex}," ++
        s!"{cache.slabId}) missing from SfaCachePolicy")
  cachePolicy.intercepts.forM fun i =>
    if i.funcIndex ∈ coveredFuncIndices plan then
      ensure (∃ cache ∈ caches, cache.sourceFuncIndex = i.funcIndex ∧
          cache.sourceOutputIndex = i.outputIndex)
        (s!"SfaCachePolicy intercept ({i.funcIndex}, {i.outputIndex}) is not projected " ++
          "onto the op plan")
    else .ok ()
  -- every projected output must match the consumed flag of the ABI
  caches.forM (validateCacheTarget computeGraph)

def validateFuncOutput (seen : List (Nat × Nat))
    (fo : OpPlanFuncOutput) : Except String (List (Nat × Nat)) := do
  let fi := fo.funcIndex
  let oi := fo.outputIndex
  ensure (fi ∈ coveredFuncIndices plan) s!"func-output projection for uncovered func {fi}"
  let func ← okOr s!"func {fi} out of range" computeGraph.functions[fi]?
  let outDef ← okOr s!"func {fi} output {oi} out of range" func.outputs[oi]?
  ensure (fo.consumedInternally = outDef.consumedInternally)
    s!"func-output projection ({fi},{oi}) consumed flag differs from ABI"
  ensure (∃ r ∈ fo.value, r.nodeIndex < plan.nodes.length)
    s!"func-output projection ({fi},{oi}) node out of range"
  ensure ((fi, oi) ∉ seen) s!"duplicate func-output projection ({fi},{oi})"
  .ok ((fi, oi) :: seen)

def validateFuncOutputProjection : Except String Unit := do
  let _ ← plan.funcOutputs.foldlM (validateFuncOutput plan computeGraph) []
  .ok ()

def validateNode (e : OpPlanNode × Nat) : Except String Unit := do
  let (node, idx) := e
  ensure (node.index = idx) s!"node index monotonicity broken at {idx}"
  ensure (HalOp.ofName? node.opName ≠ none)
    s!"op-plan node {idx} uses unregistered op {node.opName.quote}"
  ensure (node.sourceFuncIndices ≠ []) s!"op-plan node {idx} has no source func projection"
  node.sourceFuncIndices.forM fun sfi =>
    ensure (sfi < computeGraph.functions.length)
      s!"op-plan node {idx} source func {sfi} out of range"
  node.inputs.forM (validateInput plan computeGraph weights idx)

/-- `assert_valid` against a cache policy. -/
def validateOpPlan (cachePolicy : CachePolicy) : Except String Unit := do
  ensure (plan.nodes ≠ []) "OpPlan has no nodes"
  ensure (plan.funcOutputs ≠ []) "OpPlan has no func-output projections"
  plan.nodes.zipIdx.forM (validateNode plan computeGraph weights)
  validateCacheProjection plan computeGraph cachePolicy
  validateFuncOutputProjection plan computeGraph

end LoadTime

/-! ## Failures -/

/-- `structural` where the plan is to blame: an input that is not there, a node without an output,
    a projection without its value.  `tensors` where a kernel, a weight that the registry maps, or
    a K/V hook fails on the tensors it is given. -/
inductive PlanFailure where
  | structural (f : Failure)
  | tensors (f : Failure)
deriving DecidableEq, Repr

def structurally {α : Type} (x : Except Failure α) : Except PlanFailure α := x.mapError .structural

def onTensors {α : Type} (x : Except Failure α) : Except PlanFailure α := x.mapError .tensors

/-! ## Input assembly -/

/-- What a plan runs with: the environment of the pass and the kernels. -/
structure PlanEnv extends GraphEnv where
  /-- The rest of `resolve_output_shape`, and the dtype check of `execute`. -/
  resolveShape : HalOp → List Value → List (String × String) → Except Failure (List Nat)
  /-- The rest of `execute`: the elements of a result of the given shape. -/
  kernel : HalOp → List Value → List (String × String) → Bool → List Nat → Except Failure (List F32)

variable (env : PlanEnv)

def PlanEnv.hooks : GraphEnv := { env.toGraphEnv with inputIds := env.positions }

structure PlanState extends KvGraphState where
  /-- The outputs of the nodes that ran, by node and output. -/
  values : AList fun _ : Nat × Nat => Value

def specToIoDef (spec : Option OpTensorSpec) : GraphTensorDef :=
  match spec with
  | some s =>
    { consumedInternally := false
      rank := s.rank % 256
      shape := s.dims
      dtype :=
        if s.dtype = "f16" ∨ s.dtype = "float16" then .f16
        else if s.dtype = "bf16" ∨ s.dtype = "bfloat16" ∨ s.dtype = "bfloat" then .bf16
        else if s.dtype = "i64" ∨ s.dtype = "int64" then .i64
        else if s.dtype = "i32" ∨ s.dtype = "int32" then .i32
        else if s.dtype = "i8" ∨ s.dtype = "int8" then .i8
        else if s.dtype = "u8" ∨ s.dtype = "uint8" then .u8
        else .f32 }
  | none => { consumedInternally := false, rank := 0, shape := [], dtype := .f32 }

def loadPlanWeight (weights : WeightRegistry) (s : PlanState) (name : String)
    (ioDef : GraphTensorDef) : Except PlanFailure (Value × PlanState) := do
  let known := name ∈ weights.nameMapping ∨ name ∈ weights.constants
  let (t, weightCache) ←
    (loadWeightTensor env.toGraphEnv s.weightCache name ioDef).mapError
      (if known then .tensors else .structural)
  .ok (.f32 t, { s with weightCache })

def loadPlanWeightForMode (weights : WeightRegistry) (s : PlanState)
    (name : String) (ioDef : GraphTensorDef) : Except PlanFailure (Value × PlanState) := do
  let known := name ∈ weights.nameMapping ∨ name ∈ weights.constants
  let _ ← (orError s!"weight not found: {name}" (env.provider name)).mapError
    (if known then .tensors else .structural)
  loadPlanWeight env weights s name ioDef

variable (plan : OpPlan) (computeGraph : ComputeGraph) (weights : WeightRegistry)
  (cachePolicy : CachePolicy) (requestId : Option String)

variable (s : PlanState)

/-- `intercept_consumed_input`. -/
def readCached (fi oi : Nat) : Except PlanFailure Value := do
  let producer ← structurally (orPanic computeGraph.functions[fi]?)
  let slab := findSlabForIntercept cachePolicy fi oi
  let _ ← structurally (orError (s!"intercept_consumed_input: func_{fi} output_{oi} is " ++
    "consumed_internally but no KV data available (funcs must execute in topological order)")
    (s.kvNew.lookup (fi, oi)))
  onTensors (interceptInput env.hooks requestId producer (slab.map (·.toSlabSpec))
    s.toKvGraphState fi oi)

/-- A node output, from the cache or from `values`. -/
def resolveSsa (nodeIndex : Nat) (p : OpPlanRef) : Except PlanFailure Value := do
  let producer ← structurally (orPanic plan.nodes[p.nodeIndex]?)
  let producerOut ← structurally (orPanic producer.outputs[p.outputIndex]?)
  match producerOut.cache with
  | some cache =>
    readCached env computeGraph cachePolicy requestId s cache.sourceFuncIndex
      cache.sourceOutputIndex
  | none =>
    structurally (orError (s!"op-plan node {nodeIndex}: SSA producer ({p.nodeIndex}," ++
      s!"{p.outputIndex}) not available") (s.values.lookup (p.nodeIndex, p.outputIndex)))

def resolveFuncOutput (f : OpPlanFuncRef) : Except PlanFailure Value := do
  let fi := f.funcIndex
  let oi := f.outputIndex
  let producer ← structurally (orPanic computeGraph.functions[fi]?)
  let outDef ← structurally (orPanic producer.outputs[oi]?)
  if shouldInterceptConsumed fi oi cachePolicy outDef then
    readCached env computeGraph cachePolicy requestId s fi oi
  else
    let outputs ← structurally (orPanic s.funcOutputs[fi]?)
    let st ← structurally (orError s!"op-plan FUNC_OUTPUT ({fi},{oi}) not produced yet"
      outputs[oi - consumedBefore producer oi]?)
    .ok st.value

variable (node : OpPlanNode)

/-- `resolve_input`; a binding of another kind is `unreachable!`. -/
def resolveInput (s : PlanState) (e : OpPlanInput × Nat) :
    Except PlanFailure (Value × PlanState) := do
  let (input, inputIdx) := e
  let source ← structurally (orError s!"invalid op-plan input source {input.source}"
    (OpPlanSource.tryFrom input.source))
  let ioDef := specToIoDef input.spec
  -- only the linear weight matrix is consumed in its source dtype
  let useRawWeight : Prop :=
    node.opName = "linear_transb" ∧ inputIdx = 1 ∧ source = .weight
  match source, input.binding with
  | .ssa, some (.producer p) =>
    let v ← resolveSsa env plan computeGraph cachePolicy requestId s node.index p
    .ok (v, s)
  | .funcOutput, some (.funcProducer f) =>
    let v ← resolveFuncOutput env computeGraph cachePolicy requestId s f
    .ok (v, s)
  | .weight, some (.weightName name) =>
    if useRawWeight then loadPlanWeightForMode env weights s name ioDef
    else loadPlanWeight env weights s name ioDef
  | .constant, some (.constantName name) => loadPlanWeight env weights s name ioDef
  | .global, some (.globalIndex idx) =>
    let name ← structurally (orPanic plan.globalInputs[idx]?)
    if name ∈ weights.nameMapping ∨ name ∈ weights.constants then
      loadPlanWeight env weights s name ioDef
    else
      .error (.structural (.error
        (s!"op-plan node {node.index}: GLOBAL input {name.quote} is an activation; " ++
          "M1 requires FUNC_OUTPUT boundary projection")))
  | _, _ => .error (.structural .panic)

/-- The inputs of a node in order; a weight is loaded through the cache. -/
def resolveInputs (s : PlanState) : Except PlanFailure (List Value × PlanState) :=
  node.inputs.zipIdx.foldlM (fun acc e => do
    let (v, s) ← resolveInput env plan computeGraph weights cachePolicy requestId node acc.2 e
    .ok (acc.1 ++ [v], s)) ([], s)

/-! ## Execution -/

/-- `resolve_output_shape` and `execute`. -/
def runKernel (inputs : List Value) : Except PlanFailure Value := do
  let op ← structurally (orError s!"no output-shape resolver for op {node.opName.quote}"
    (HalOp.ofName? node.opName))
  structurally (shapeOperands op inputs.length node.attributes)
  let shape ← onTensors (env.resolveShape op inputs node.attributes)
  structurally (kernelOperands op inputs.length node.attributes)
  let isDecode : Bool := env.positions.length = 1
  let data ← onTensors (env.kernel op inputs node.attributes isDecode shape)
  .ok (.f32 ⟨shape, data⟩)

/-- The K/V hook of `run_op_plan` on the result of a node. -/
def storeCached (cache : OpPlanCacheIntercept) (v : Value) : Except PlanFailure PlanState := do
  let fi := cache.sourceFuncIndex
  let oi := cache.sourceOutputIndex
  let slab := findSlabForIntercept cachePolicy fi oi
  let funcDef ← structurally (orPanic computeGraph.functions[fi]?)
  -- the hook is told the position of the function, not its `index`
  let kv ← onTensors (interceptOutput env.hooks requestId { funcDef with index := fi }
    (slab.map (·.toSlabSpec)) oi v s.toKvGraphState)
  .ok { s with toKvGraphState := kv }

/-- One node: its inputs, its kernel, and the cache hook of its first output. -/
def runNode : Except PlanFailure PlanState := do
  let (inputs, s) ← resolveInputs env plan computeGraph weights cachePolicy requestId node s
  let tensor ← runKernel env node inputs
  let output ← structurally (orError s!"op-plan node {node.index} has no output"
    node.outputs.head?)
  match output.cache with
  | some cache => storeCached env computeGraph cachePolicy requestId s cache tensor
  | none => .ok { s with values := s.values.insert (node.index, 0) tensor }

/-- A function output that the plan stands for. -/
def projectFuncOutput (fo : OpPlanFuncOutput) : Except PlanFailure PlanState :=
  let fi := fo.funcIndex
  let oi := fo.outputIndex
  structurally do
    if fo.consumedInternally then
      ensureOr ((s.kvNew.lookup (fi, oi)).isSome = true)
        s!"consumed op-plan output ({fi},{oi}) missing from kv_new"
      .ok s
    else
      let refNode ← orError s!"func-output ({fi},{oi}) missing value ref" fo.value
      let key := (refNode.nodeIndex, refNode.outputIndex)
      let tensor ← orError s!"func-output ({fi},{oi}) value not available" (s.values.lookup key)
      let outputs ← orPanic s.funcOutputs[fi]?
      ensureOr (outputs = [])
        s!"func_outputs[{fi}] already populated before op-plan projection"
      .ok { s with
        values := s.values.erase key
        funcOutputs := s.funcOutputs.modify fi (· ++ [⟨tensor, (fi, oi)⟩]) }

/-- The nodes in order, and then the function outputs. -/
def runOpPlan (s : KvGraphState) : Except PlanFailure KvGraphState := do
  let s ← plan.nodes.foldlM
    (runNode env plan computeGraph weights cachePolicy requestId) ⟨s, ∅⟩
  let s ← plan.funcOutputs.foldlM projectFuncOutput s
  .ok s.toKvGraphState

end CompileForge.Runtime
