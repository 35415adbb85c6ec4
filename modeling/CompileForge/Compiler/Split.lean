/-
  Splitting a program into functions (`compiler/fx/split.py`): `_split_into_functions`
  inserts the boundaries, `_make_multi_functions` builds a function for each block, the
  execution plan that wires them, and the table of cache bindings.  `none` is a `ValueError`
  or `IndexError`.
-/

import CompileForge.Compiler.Mlir
import Mathlib.Data.List.Dedup
import Mathlib.Data.List.Infix
import Mathlib.Data.String.Basic

namespace CompileForge.Compiler

open Abi

/-- Python iterates a set of strings in an order of its own. -/
structure SetOrder where
  order : List String → List String
  perm : ∀ l, (order l).Perm l.dedup

def SetOrder.insertion : SetOrder := ⟨List.dedup, fun _ => .refl _⟩

/-! ## Boundaries -/

def funcBoundary : MlirOp where
  name := "_sentinel"
  dialect := "_sentinel"
  opName := "_func_boundary"
  operands := []
  results := []
  attributes := []
  inputTypes := []
  outputTypes := []

variable (mlirOps : List MlirOp)

/-- For a positive `ops_per_func`; by 0 the source divides where no boundaries are given. -/
def splitIntoFunctions (opsPerFunc : Nat) (boundaries : List Nat) : List MlirOp × Nat :=
  if boundaries ≠ [] then
    (mlirOps.zipIdx.flatMap fun e =>
      if e.2 ∈ boundaries then [funcBoundary, e.1] else [e.1], boundaries.length + 1)
  else if mlirOps.length ≤ opsPerFunc then (mlirOps, 1)
  else
    (mlirOps.zipIdx.flatMap fun e =>
      if 0 < e.2 ∧ e.2 % opsPerFunc = 0 then [funcBoundary, e.1] else [e.1],
      (mlirOps.length + opsPerFunc - 1) / opsPerFunc)

/-- The place of the op that produces a name. -/
def producerIndices : String → Option Nat :=
  dictGet (mlirOps.zipIdx.flatMap fun e => e.1.results.map fun result => (ssaKey result, e.2))

/-- The blocks between the sentinels, behind the block being collected. -/
def partitionBlocks (current : List MlirOp) : List MlirOp → List (List MlirOp)
  | [] => if current = [] then [] else [current]
  | op :: rest =>
    if op.opName = "_func_boundary" then
      if current = [] then partitionBlocks [] rest else current :: partitionBlocks [] rest
    else partitionBlocks (current ++ [op]) rest

/-! ## Attributes at a boundary -/

def dimAttrNames : List String := ["dim", "dim0", "dim1", "dimensions", "axis"]

def dimListAttrNames : List String := ["dims"]

/-- The value of an `int`; a `bool` is one. -/
def Scalar.asInt : Scalar → Option Int
  | .int i => some i
  | .bool b => some (if b then 1 else 0)
  | _ => Option.none

/-- A dim is clamped to the rank on either side. -/
def clampDim (rank : Int) (v : Scalar) : Scalar :=
  match v.asInt with
  | some i => if rank ≤ i then .int (rank - 1) else v
  | none => v

def clampAttr (rank : Int) (e : String × Attr) : String × Attr :=
  match e.2 with
  | .scalar v => if e.1 ∈ dimAttrNames then (e.1, .scalar (clampDim rank v)) else e
  | .list items =>
    if e.1 ∈ dimListAttrNames then (e.1, .list (items.map (clampDim rank))) else e

def adjustOpAttributes (op : MlirOp) (inputRankMap : String → Option Nat) : MlirOp :=
  if op.opName ∈ ["weight", "constant", "_func_boundary"] then op
  else
    { op with
      attributes := op.operands.foldl (fun attrs operand =>
        match inputRankMap (ssaKey operand) with
        | none => attrs
        | some rank => if rank = 0 then attrs else attrs.map (clampAttr rank)) op.attributes }

/-- The rank that a type string shows. -/
def typeRank (tp : String) : Nat :=
  let rank :=
    if 'x' ∉ tp.toList ∧ "tensor<".toList <:+: tp.toList then 1 else tp.toList.count 'x'
  if "tensor<".toList <:+: tp.toList then max rank 1 else 0

/-! ## Attention blocks -/

def gqaRepeatOps : List String := ["unsqueeze", "expand", "view"]

def maxGqaTrace : Nat := 8

def sdpaName : String := "scaled_dot_product_attention"

def sdpaPosition (block : List MlirOp) : Option Nat :=
  block.findIdx? fun op => op.opName = sdpaName

/-- The block at position `fi` starts with an attention, behind a repeat-kv chain at most. -/
def isBBlock (fi : Nat) (block : List MlirOp) : Bool :=
  match sdpaPosition block with
  | some pos => 0 < fi ∧ (block.take pos).all fun op => op.opName ∈ gqaRepeatOps
  | none => false

/-- Follows the views that repeat the heads back to what was cached. -/
def traceSdpaCacheSource (block : List MlirOp) (blockProducer : String → Option Nat) :
    Nat → String → String
  | 0, cur => cur
  | fuel + 1, cur =>
    match blockProducer cur with
    | none => cur
    | some producerIdx =>
      match block[producerIdx]? with
      | none => cur
      | some op =>
        match op.operands with
        | [] => cur
        | operand :: _ =>
          if op.opName ∈ gqaRepeatOps then
            traceSdpaCacheSource block blockProducer fuel (ssaKey operand)
          else cur

/-- The Q, K and V values of a "b" block, empty where the attention has no such operand. -/
def sdpaKvSsa (block : List MlirOp) : String × String × String :=
  match (sdpaPosition block).bind (block[·]?) with
  | none => ("", "", "")
  | some sdpaOp =>
    let blockProducer := dictGet (block.zipIdx.flatMap fun e =>
      e.1.results.map fun result => (ssaKey result, e.2))
    let source (i : Nat) := match sdpaOp.operands[i]? with
      | some operand =>
        traceSdpaCacheSource block blockProducer maxGqaTrace (ssaKey operand)
      | none => ""
    ((sdpaOp.operands[0]?.map ssaKey).getD "", source 1, source 2)

/-- `re.fullmatch(r"operand\[(\d+)\]", src)`. -/
def operandIndex (src : String) : Option Nat :=
  match src.toList with
  | 'o' :: 'p' :: 'e' :: 'r' :: 'a' :: 'n' :: 'd' :: '[' :: rest =>
    let digits := rest.takeWhile Char.isDigit
    if digits ≠ [] ∧ rest.dropWhile Char.isDigit = [']'] then
      some (digits.foldl (fun n c => 10 * n + (c.toNat - '0'.toNat)) 0)
    else none
  | _ => none

def operandSlab (cachePolicy : Option CachePolicy) (operand : Nat) : Option String :=
  match cachePolicy with
  | none => none
  | some policy =>
    (policy.intercepts.reverse.find? fun i =>
      i.opName = sdpaName ∧ operandIndex i.source = some operand).map (·.slabId)

def funcNames (baseName : String) (isB : List Bool) : List String :=
  ((List.range isB.length).foldl (fun (names, layerN) fi =>
    if isB.getD fi false then
      ((names.set (fi - 1) s!"{baseName}_{layerN}a").set fi s!"{baseName}_{layerN}b", layerN + 1)
    else if isB.getD (fi + 1) false then (names, layerN)
    else (names.set fi s!"{baseName}_{layerN}", layerN + 1))
    (List.replicate isB.length "", 0)).1

/-! ## Functions -/

/-- The arguments of `_make_multi_functions` behind the ops. -/
structure SplitArgs where
  globalInputs : List (String × String)
  globalOutputs : List FuncOutput
  weights : List String
  paramNames : List String
  constNames : List String
  baseName : String
  cachePolicy : Option CachePolicy

def blockResults (block : List MlirOp) : List String :=
  block.flatMap fun op => op.results.map ssaKey

def blockOperands (block : List MlirOp) : List String :=
  block.flatMap fun op => op.operands.map ssaKey

variable (blocks : List (List MlirOp))

def typeMap : String → Option String :=
  dictGet (blocks.flatten.flatMap fun op => op.results.zipIdx.map fun e =>
    (ssaKey e.1, op.outputTypes.getD e.2 "tensor<f32>"))

/-- The type of a value, `tensor<f32>` if unknown. -/
def typeOf (v : String) : String :=
  (typeMap blocks v).getD "tensor<f32>"

def producer : String → Option Nat :=
  dictGet (blocks.zipIdx.flatMap fun e => (blockResults e.1).map fun r => (r, e.2))

def prodOrder (v : String) : Nat × Nat :=
  (dictGet (blocks.zipIdx.flatMap fun e => e.1.zipIdx.flatMap fun o =>
    o.1.results.map fun r => (ssaKey r, (e.2, o.2))) v).getD (999, 999)

variable (sets : SetOrder) (args : SplitArgs) (blocks : List (List MlirOp)) (fi : Nat)
  (block : List MlirOp)

def needed : List String :=
  sets.order ((blockOperands block).filter fun key =>
    match producer blocks key with
    | some p => p ≠ fi
    | none => false)

/-- The weights a later function reads, by name. -/
def neededWeights : List String :=
  ((needed sets blocks fi block).filter (· ∈ args.weights)).mergeSort fun a b => a ≤ b

/-- Of a later function: a value of the first, those of the others, the rest, weights, sizes. -/
def laterInputs : List String :=
  let values := (needed sets blocks fi block).filter (· ∉ args.weights)
  let nw0 := (values.filter fun v => (prodOrder blocks v).1 = 0).mergeSort fun a b =>
    (prodOrder blocks a).2 ≤ (prodOrder blocks b).2
  let xfunc := (values.filter fun v => (prodOrder blocks v).1 ≠ 0).mergeSort fun a b =>
    (prodOrder blocks a).1 < (prodOrder blocks b).1 ∨
      (prodOrder blocks a).1 = (prodOrder blocks b).1 ∧
        (prodOrder blocks a).2 ≤ (prodOrder blocks b).2
  let isSize (v : String) : Bool := ((typeMap blocks v).getD "").startsWith "tensor<1x"
  nw0.take 1 ++ xfunc ++ (nw0.drop 1).filter (fun v => !isSize v) ++
    neededWeights sets args blocks fi block ++ (nw0.drop 1).filter isSize

def funcInputs : List (String × String) :=
  if fi = 0 then args.globalInputs
  else (laterInputs sets args blocks fi block).map fun v => ("%" ++ v, typeOf blocks v)

/-- The names of a block that a later block or the program needs. -/
def exported : List String :=
  ((blockResults block).dedup.filter fun val =>
    val ∈ (blocks.drop (fi + 1)).flatMap blockOperands ∨
      val ∈ args.globalOutputs.map fun o => ssaKey o.name).mergeSort fun a b => a ≤ b

def isABlock : Bool :=
  match blocks[fi + 1]? with
  | some next => isBBlock (fi + 1) next
  | none => false

/-- The exported values in output order: Q, K and V first in an "a" block. -/
def orderedOutputs : List String :=
  let exports := exported args blocks fi block
  if isABlock blocks fi then
    let (q, k, v) := sdpaKvSsa (blocks.getD (fi + 1) [])
    let ordered := [q, k, v].filter fun s => s ≠ "" ∧ s ∈ exports
    ordered ++ exports.filter (· ∉ ordered)
  else exports

/-- The K and V values that an "a" block keeps for the cache. -/
def kvToMark : List String :=
  if isABlock blocks fi then
    let (_, k, v) := sdpaKvSsa (blocks.getD (fi + 1) [])
    [k, v].filter (· ≠ "")
  else []

/-- The slab of a K or V value; V is written over K. -/
def slabForSsa (val : String) : Option String :=
  let (_, k, v) := sdpaKvSsa (blocks.getD (fi + 1) [])
  if isABlock blocks fi ∧ val ≠ "" then
    match if val = v then operandSlab args.cachePolicy 2 else none with
    | some slab => some slab
    | none => if val = k then operandSlab args.cachePolicy 1 else none
  else none

/-- The outputs of a function; one that exports nothing keeps a value of its own. -/
def funcOutputs : Option (List FuncOutput) :=
  let ordered := orderedOutputs args blocks fi block
  if ordered ≠ [] then
    some (ordered.map fun v => ⟨"%" ++ v, typeOf blocks v, v ∈ kvToMark blocks fi⟩)
  else
    (sets.order (blockResults block)).head?.map fun p => [⟨"%" ++ p, typeOf blocks p, false⟩]

/-- The cache bindings of a function: its cache-consumed outputs that have a slab. -/
def funcBindings : List (Nat × Nat × String) :=
  (orderedOutputs args blocks fi block).zipIdx.filterMap fun e =>
    if e.1 ∈ kvToMark blocks fi then
      (slabForSsa args blocks fi e.1).map fun slabId => (fi, e.2, slabId)
    else none

def orderedWeights : List String :=
  if fi = 0 then
    -- SSA name to weight name; a later op with the same result replaces the name
    let entries := (block.filter fun op => op.opName = "weight" ∧ op.weightName ≠ "").filterMap
      fun op => op.results.head?.map fun r => (ssaKey r, op.weightName)
    let keys := (entries.map Prod.fst).eraseDups
    let exportedWeights := (exported args blocks fi block).filter (· ∈ keys)
    (keys.filter (· ∉ exportedWeights) ++ exportedWeights).filterMap (dictGet entries)
  else neededWeights sets args blocks fi block

def inputRankMap (inputs : List (String × String)) : String → Option Nat :=
  dictGet (inputs.map fun e => (ssaKey e.1, typeRank e.2))

def buildFunction : Option MlirFunction := do
  let inputs := funcInputs sets args blocks fi block
  let outputs ← funcOutputs sets args blocks fi block
  let isB := blocks.zipIdx.map fun e => isBBlock e.2 e.1
  let weightRefs := (blockOperands block).filter (· ∈ args.weights)
  some
    { name := (funcNames args.baseName isB).getD fi ""
      inputs
      outputs
      ops := block.map fun op => adjustOpAttributes op (inputRankMap inputs)
      weights := args.weights.filter (· ∈ weightRefs)
      paramWeightNames := args.paramNames.filter (· ∈ weightRefs)
      constWeightNames := args.constNames.filter (· ∈ weightRefs)
      weightNames := orderedWeights sets args blocks fi block }

/-! ## The execution plan -/

def globalNames (first : MlirFunction) : List String :=
  first.ops.foldl (fun names op =>
    if op.opName = "weight" ∧ op.weightName ≠ "" ∧ op.weightName ∉ names ∧
        !op.weightName.startsWith "_const_" then names ++ [op.weightName]
    else names) (args.globalInputs.map Prod.fst)

def globalIndex (names : List String) (name : String) : Option Nat :=
  if ssaKey name ∈ names then some (names.idxOf (ssaKey name))
  else if name ∈ names then some (names.idxOf name)
  else none

def outputIndex (func : MlirFunction) (key : String) : Option Nat :=
  func.outputs.findIdx? fun o => ssaKey o.name = key

/-- Where an input of a function comes from: an input of the program, or an earlier output. -/
def inputEdge (blocks : List (List MlirOp)) (funcs : List MlirFunction)
    (names : List String) (fi : Nat) (name : String) : Option EdgeInput := do
  let key := ssaKey name
  let first ← funcs[0]?
  if fi = 0 then
    let gi ← globalIndex names name
    some ⟨.globalInput, gi, 0⟩
  else if key ∈ args.weights then
    match outputIndex first key with
    | some oi => some ⟨.stepOutput, 0, oi⟩
    | none =>
      let gi ← globalIndex names name
      some ⟨.globalInput, gi, 0⟩
  else
    match producer blocks key with
    | some (p + 1) =>
      let producerFunc ← funcs[p + 1]?
      some ⟨.stepOutput, p + 1, (outputIndex producerFunc key).getD 0⟩
    | _ => some ⟨.stepOutput, 0, (outputIndex first key).getD 0⟩

def edgeCode (edge : EdgeInput) : List Nat :=
  [match edge.source with
    | .globalInput => 0
    | .stepOutput => 1, edge.sourceIndex, edge.producerStep]

/-- The plan as the attribute has it; digits in `operand[..]` are ASCII. -/
def flattenExecutionPlan (plan : ExecutionPlan) : List Nat :=
  [plan.steps.length, plan.globalInputs.length] ++
    plan.steps.flatMap fun step => step.inputs.length :: step.inputs.flatMap edgeCode

structure SplitResult where
  functions : List MlirFunction
  chainOrder : List String
  execPlanData : List Nat
  plan : ExecutionPlan
  bindings : List (Nat × Nat × String)

def emptyExecutionPlan (func : MlirFunction) : ExecutionPlan where
  globalInputs := args.globalInputs.map Prod.fst
  steps := [⟨func.name, func.inputs.map fun _ => ⟨.globalInput, 0, 0⟩⟩]

/-- The plan is the message, not its bytes. -/
def planStep (blocks : List (List MlirOp)) (funcs : List MlirFunction)
    (names : List String) (e : MlirFunction × Nat) : Option ExecutionStep := do
  let inputs ← e.1.inputs.mapM fun i => inputEdge args blocks funcs names e.2 i.1
  some ⟨e.1.name, inputs⟩

def makeMultiFunctions (mlirOps : List MlirOp) (args : SplitArgs) : Option SplitResult := do
  let blocks := partitionBlocks [] mlirOps
  if blocks.length ≤ 1 then
    let func : MlirFunction :=
      { name := args.baseName
        inputs := args.globalInputs
        outputs := args.globalOutputs
        ops := mlirOps
        weights := args.weights
        paramWeightNames := args.paramNames
        constWeightNames := args.constNames
        weightNames := (mlirOps.filter fun op => op.opName = "weight" ∧ op.weightName ≠ "").map
          (·.weightName) }
    some ⟨[func], [args.baseName], [], emptyExecutionPlan args func, []⟩
  else
    let funcs ← blocks.zipIdx.mapM fun e => buildFunction sets args blocks e.2 e.1
    let names := globalNames args (← funcs[0]?)
    let steps ← funcs.zipIdx.mapM (planStep args blocks funcs names)
    let plan : ExecutionPlan := ⟨names, steps⟩
    some ⟨funcs, funcs.map (·.name), flattenExecutionPlan plan, plan,
      blocks.zipIdx.flatMap fun e => funcBindings args blocks e.2 e.1⟩

end CompileForge.Compiler
