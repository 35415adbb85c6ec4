/-
  One forward pass over the compute graph (`runtime/src/engine/compute_graph_runner.rs`):
  `run_function_graph`, and `run_function_graph_with_kv_intercept`, which keeps the
  intercepted outputs for the KV cache.  The second has no output pool, no fused layers
  and no op plan.

  Weights are `f32`.  `sgemm`, the `f32` addition and the `f32` of a count are parameters,
  and so are the executables: one tensor for each declared output, from the symbol and the
  input tensors.
-/

import CompileForge.Runtime.Cache.Policy

namespace CompileForge.Runtime

open List

/-! ## Values -/

instance : ToString Dtype where
  toString
    | .f32 => "f32"
    | .f16 => "f16"
    | .bf16 => "bf16"
    | .i64 => "i64"
    | .i32 => "i32"
    | .i8 => "i8"
    | .u8 => "u8"

/-- A tensor by its storage; `other` is `f32` storage under one of the other dtypes. -/
inductive Value where
  | f32 (t : Tensor)
  | half (dtype : Dtype) (shape : List Nat) (data : List UInt16)
  | i64 (t : IdTensor)
  | other (dtype : Dtype) (t : Tensor)
deriving DecidableEq, Repr

/-- `as_slice`, with the shape. -/
def Value.asTensor : Value → Option Tensor
  | .f32 t => some t
  | .other _ t => some t
  | .half _ _ _ => none
  | .i64 _ => none

def Value.shape : Value → List Nat
  | .f32 t => t.shape
  | .half _ shape _ => shape
  | .i64 t => t.shape
  | .other _ t => t.shape

/-- An index into `func_outputs` out of range, any other panic, or an error. -/
inductive Failure where
  | error (message : String)
  | funcOutputsRange
  | panic
deriving DecidableEq, Repr

def orPanic {α : Type} : Option α → Except Failure α
  | some a => .ok a
  | none => .error .panic

def orError {α : Type} (message : String) : Option α → Except Failure α
  | some a => .ok a
  | none => .error (.error message)

theorem orPanic_eq_ok {α : Type} {o : Option α} {a : α} : orPanic o = .ok a ↔ o = some a := by
  cases o with
  | none => exact iff_of_false nofun nofun
  | some => rw [orPanic, Except.ok.injEq, Option.some_inj]

theorem orError_eq_ok {α : Type} {message : String} {o : Option α} {a : α} :
    orError message o = .ok a ↔ o = some a := by
  cases o with
  | none => exact iff_of_false nofun nofun
  | some => rw [orError, Except.ok.injEq, Option.some_inj]

/-- A function that returns a `Result`, or panics. -/
def ofResult {α : Type} : Option (Except String α) → Except Failure α
  | some (.ok a) => .ok a
  | some (.error e) => .error (.error e)
  | none => .error .panic

def ensureOr (condition : Prop) [Decidable condition] (message : String) : Except Failure Unit :=
  if condition then .ok () else .error (.error message)

abbrev WeightCache := AList fun _ : String => Tensor

/-- What a pass runs with. -/
structure GraphEnv where
  /-- Output `oi` of a symbol on its input tensors. -/
  execute : String → List Value → Nat → Value
  /-- Sizes and elements of a weight. -/
  provider : String → Option (List Nat × List F32)
  sgemm : Nat → List F32 → List F32 → List F32
  add : F32 → F32 → F32
  ofUsize : Nat → F32
  inputIds : List UInt32
  positions : List UInt32

/-! ## Binding inputs -/

variable (env : GraphEnv)

/-- A weight through the cache: loaded the first time, cloned after that. -/
def loadWeightTensor (cache : WeightCache) (key : String)
    (ioDef : GraphTensorDef) : Except Failure (Tensor × WeightCache) := do
  match cache.lookup key with
  | some cached => .ok (cached, cache)
  | none =>
    let (sizes, data) ← orError s!"weight not found: {key}" (env.provider key)
    let shape :=
      if 0 < ioDef.rank ∧ ioDef.shape.length = ioDef.rank ∧ ∀ d ∈ ioDef.shape, 0 < d then
        ioDef.shape
      else sizes
    ensureOr (shape.prod = data.length)
      (s!"weight {key} numel mismatch: ABI shape {shape} has {shape.prod} elements, " ++
        s!"safetensors has {data.length}")
    .ok (⟨shape, data⟩, cache.insert key ⟨shape, data⟩)

/-- The buffer of a global input: token ids, positions or the sequence length. -/
def buildGlobalInputBuffer (ioDef : GraphTensorDef) (bi : Nat) : Except Failure Value := do
  let tensor ← ofResult (fillGlobalInput env.inputIds env.positions ioDef bi)
  let dims ← (range ioDef.rank).mapM fun i => do
    let d ← orPanic ioDef.shape[i]?
    .ok (if d = 0 then (if i = 0 then 1 else env.inputIds.length) else d)
  .ok (.i64 ⟨dims, tensor.data⟩)

def wrapTensorBuffer (v : Value) : Except Failure Unit :=
  match v with
  | .other dtype _ => .error (.error s!"wrap_tensor_buffer: unsupported tensor dtype {dtype}")
  | _ => .ok ()

/-- The buffer of an input, and the tensor that wraps it. -/
structure BoundInput where
  buffer : Value
  tensor : Option Value

def bindTensor (numInputs bi : Nat) (v : Value) : Except Failure BoundInput := do
  wrapTensorBuffer v
  if bi < numInputs then .ok ⟨v, some v⟩ else .error .panic

/-- One turn of the loop over the inputs; the runners differ in how they read an SSA value. -/
def bindInput (readSsa : Nat → Nat → Except Failure Value) (numInputs : Nat)
    (cache : WeightCache) (bi : Nat) (input : InputBinding × GraphTensorDef) :
    Except Failure (BoundInput × WeightCache) := do
  match input.1 with
  | .globalInput =>
    let buffer ← buildGlobalInputBuffer env input.2 bi
    .ok (⟨buffer, none⟩, cache)
  | .weight key =>
    let (t, cache) ← loadWeightTensor env cache key input.2
    let bound ← bindTensor numInputs bi (.f32 t)
    .ok (bound, cache)
  | .ssa producerFunc outputIdx =>
    let v ← readSsa producerFunc outputIdx
    let bound ← bindTensor numInputs bi v
    .ok (bound, cache)

/-- The inputs of a function in order, each from where the graph binds it. -/
def bindInputs (env : GraphEnv) (readSsa : Nat → Nat → Except Failure Value) (numInputs : Nat) :
    WeightCache → Nat → List (InputBinding × GraphTensorDef) →
      Except Failure (List BoundInput × WeightCache)
  | cache, _, [] => .ok ([], cache)
  | cache, bi, input :: rest => do
      let (bound, cache) ← bindInput env readSsa numInputs cache bi input
      let (bounds, cache) ← bindInputs env readSsa numInputs cache (bi + 1) rest
      .ok (bound :: bounds, cache)

/-- `input_tensors.get(i).and_then(|t| t.as_ref())`. -/
def inputTensor (inputs : List BoundInput) (i : Nat) : Option Value :=
  inputs[i]?.bind (·.tensor)

/-! ## Weight pass-through of the first function -/

variable (funcDef : FuncDef)

def weightInputs : List Nat :=
  (funcDef.inputs.zipIdx.filter fun e =>
    match e.1.1 with
    | .weight _ => true
    | _ => false).map Prod.snd

/-- An output that has the dtype and the shape of an input, none of its dims open. -/
def staticMatch (od inputDef : GraphTensorDef) : Bool :=
  od.shape.all (0 < ·) && od.rank = inputDef.rank && od.shape = inputDef.shape

def matchLen (outStart inStart : Nat) : Nat :=
  (((funcDef.outputs.drop outStart).zip ((weightInputs funcDef).drop inStart)).takeWhile fun e =>
    match funcDef.inputs[e.2]? with
    | some input => staticMatch e.1 input.2
    | none => false).length

/-- The first longest run: `(best_len, best_out_start, best_in_start)`. -/
def bestMatch : Nat × Nat × Nat :=
  (range funcDef.outputs.length).foldl (fun best outStart =>
    (range (weightInputs funcDef).length).foldl (fun best inStart =>
      let len := matchLen funcDef outStart inStart
      if best.1 < len then (len, outStart, inStart) else best) best) (0, 0, 0)

/-- Outputs of `main_0` that are weights handed through, with their inputs. -/
def main0WeightPassthroughMap : List (Nat × Nat) :=
  if funcDef.index ≠ 0 then []
  else
    let best := bestMatch funcDef
    if best.1 < 2 then []
    else
      (range best.1).map fun k =>
        (best.2.1 + k, (weightInputs funcDef).getD (best.2.2 + k) 0)

/-! ## Fast paths -/

/-- The two embedding weights, where `main_0` is an embedding lookup. -/
def main0FastpathContract (aliases : List (Nat × Nat)) : Option (Nat × Nat) :=
  if funcDef.index ≠ 0 ∨ aliases = [] then none
  else if aliases.length + 16 ≠ funcDef.outputs.length then none
  else
    match weightInputs funcDef with
    | tokenEmbBi :: posEmbBi :: _ => do
        let tokenDef := (← funcDef.inputs[tokenEmbBi]?).2
        let posDef := (← funcDef.inputs[posEmbBi]?).2
        if tokenDef.rank ≠ 2 ∨ posDef.rank ≠ 2 ∨ tokenDef.shape.length < 2 ∨
            posDef.shape.length < 2 ∨ tokenDef.shape.getD 1 0 = 0 ∨ posDef.shape.getD 1 0 = 0 ∨
            tokenDef.shape.getD 1 0 ≠ posDef.shape.getD 1 0 then none
        else
          let hiddenDef ← funcDef.outputs[12]?
          let maskDef ← funcDef.outputs[13]?
          if hiddenDef.rank ≠ 3 ∨ hiddenDef.shape ≠ [0, 0, tokenDef.shape.getD 1 0] ∨
              maskDef.rank ≠ 4 ∨ maskDef.shape ≠ [0, 1, 0, 0] then none
          else some (tokenEmbBi, posEmbBi)
    | _ => none

def f32Eighth : F32 := ⟨0x3E000000⟩

def f32One : F32 := ⟨0x3F800000⟩

/-- The row of one token: the sum of its embedding and that of its position. -/
def embedRow (tokenEmb posEmb : Tensor) (hiddenDim : Nat)
    (e : UInt32 × UInt32) : Except Failure (List F32) :=
  (range hiddenDim).mapM fun d => do
    let a ← orPanic tokenEmb.data[e.1.toNat * hiddenDim + d]?
    let b ← orPanic posEmb.data[(e.2.toNat + 2) * hiddenDim + d]?
    .ok (env.add a b)

/-- The outputs of `main_0` without a call of it. -/
def buildMain0OutputsFastpath (funcDef : FuncDef) (inputs : List BoundInput)
    (aliases : List (Nat × Nat)) (tokenEmbBi posEmbBi : Nat) : Except Failure (List Value) := do
  let tokenEmb ← orError "main_0 fast path: token embedding not loaded"
    (inputTensor inputs tokenEmbBi)
  let posEmb ← orError "main_0 fast path: position embedding not loaded"
    (inputTensor inputs posEmbBi)
  let vocab ← orPanic tokenEmb.shape[0]?
  let maxPos ← orPanic posEmb.shape[0]?
  let hiddenDim ← orPanic tokenEmb.shape[1]?
  let seqLen := env.inputIds.length
  ensureOr (env.positions.length = seqLen) "main_0 fast path: positions/input_ids length mismatch"
  @ensureOr (∀ t ∈ env.inputIds, t.toNat < vocab) (decidableBAll _ _)
    "main_0 fast path: input token >= vocab"
  @ensureOr (∀ p ∈ env.positions, p.toNat + 2 < maxPos) (decidableBAll _ _)
    "main_0 fast path: position >= learned position table"
  let tokenEmb ← orPanic tokenEmb.asTensor
  let posEmb ← orPanic posEmb.asTensor
  let hidden ← (env.inputIds.zip env.positions).mapM (embedRow env tokenEmb posEmb hiddenDim)
  let mask := (range seqLen).flatMap fun i => (range seqLen).map fun j =>
    if j ≤ i then f32One else 0
  (range funcDef.outputs.length).mapM fun oi =>
    if oi < 12 then .ok (.f32 ⟨[1], [f32Eighth]⟩)
    else if oi = 12 then .ok (.f32 ⟨[1, seqLen, hiddenDim], hidden.flatten⟩)
    else if oi = 13 then .ok (.f32 ⟨[1, 1, seqLen, seqLen], mask⟩)
    else if oi = 14 then .ok (.f32 ⟨[1], [env.ofUsize seqLen]⟩)
    else
      match aliases.lookup oi with
      | some inputIdx =>
        orError s!"main_0 fast path: aliased input {inputIdx} not loaded"
          (inputTensor inputs inputIdx)
      | none =>
        if oi + 1 = funcDef.outputs.length then .ok (.f32 ⟨[1], [f32One]⟩)
        else
          .error (.error
            s!"main_0 fast path: output[{oi}] does not match the split contract")

variable (computeGraph : ComputeGraph)

/-- The contract of the logits projection. -/
def isMain15 (funcDef : FuncDef) : Bool :=
  funcDef.index + 1 = computeGraph.functions.length && funcDef.symbol.endsWith "main_15" &&
    funcDef.inputs.length = 2 && funcDef.outputs.length = 1 &&
    funcDef.outputs.all fun od => od.rank = 3 && od.shape = [0, 0, 50272]

/-- The weight of the logits projection, traced through the pass-through of its producer. -/
def main15WeightKey (funcDef : FuncDef) : Except Failure (Option String) :=
  match (funcDef.inputs[1]? : Option (InputBinding × GraphTensorDef)) with
  | some (.weight key, _) => .ok (some key)
  | some (.ssa producerFunc outputIdx, _) => do
      let producer ← orError s!"main_15 producer func {producerFunc} missing"
        computeGraph.functions[producerFunc]?
      match (main0WeightPassthroughMap producer).lookup outputIdx with
      | none => .ok none
      | some inputIdx =>
        match (← orPanic producer.inputs[inputIdx]?).1 with
        | .weight key => .ok (some key)
        | _ => .ok none
  | _ => .ok none

def selectRawWeight (cache : WeightCache) (rawWeightCache : Bool)
    (weightKey : Option String) (ioDef : GraphTensorDef) : Except Failure WeightCache := do
  match rawWeightCache, weightKey with
  | true, some key =>
    let _ ← orError s!"weight not found: {key}" (env.provider key)
    let (_, cache) ← loadWeightTensor env cache key ioDef
    .ok cache
  | _, _ => .ok cache

/-- `run_main15_fastpath` on a function that meets the contract: the tensor it pushes. -/
def runMain15Fastpath (funcDef : FuncDef) (rawWeightCache : Bool)
    (inputs : List BoundInput) (cache : WeightCache) : Except Failure (Value × WeightCache) := do
  let hidden ← orError "main_15 fast path: hidden state not loaded" (inputTensor inputs 0)
  let weight ← orError "main_15 fast path: lm_head weight not loaded" (inputTensor inputs 1)
  ensureOr (2 ≤ hidden.shape.length ∧ hidden.shape.getLast? = some 768)
    s!"main_15 fast path: hidden shape {hidden.shape} is not [..., 768]"
  ensureOr (weight.shape = [50272, 768])
    s!"main_15 fast path: lm_head shape {weight.shape} is not [50272, 768]"
  let seqLen := hidden.shape.dropLast.prod
  let weightKey ← main15WeightKey computeGraph funcDef
  let ioDef := (← orPanic funcDef.inputs[1]?).2
  let cache ← selectRawWeight env cache rawWeightCache weightKey ioDef
  let hiddenData ← orPanic hidden.asTensor
  let weightData ← orPanic weight.asTensor
  let logits := env.sgemm seqLen hiddenData.data weightData.data
  let batch := if hidden.shape.length = 3 then hidden.shape.headD 0 else 1
  let shape :=
    if hidden.shape.length = 2 then [1, seqLen, 50272]
    else [batch, seqLen / max batch 1, 50272]
  .ok (.f32 ⟨shape, logits⟩, cache)

/-! ## Executing a function -/

/-- What a function leaves to be stored, pushed as it is or from the executable. -/
inductive Produced where
  | fastpath (outputs : List Value)
  | executed (outputs : List Value)

/-- The body of the loop over the functions, up to the storage of the outputs. -/
def runFunction (funcDef : FuncDef) (rawWeightCache : Bool)
    (inputs : List BoundInput) (cache : WeightCache) : Except Failure (Produced × WeightCache) := do
  if isMain15 computeGraph funcDef then
    let (logits, cache) ← runMain15Fastpath env computeGraph funcDef rawWeightCache inputs cache
    .ok (.fastpath [logits], cache)
  else
    let aliases := main0WeightPassthroughMap funcDef
    match main0FastpathContract funcDef aliases with
    | some (tokenEmbBi, posEmbBi) =>
      let outputs ← buildMain0OutputsFastpath env funcDef inputs aliases tokenEmbBi posEmbBi
      .ok (.fastpath outputs, cache)
    | none =>
      let outputs := (range funcDef.outputs.length).map
        (env.execute funcDef.symbol (inputs.map (·.buffer)))
      .ok (.executed outputs, cache)

/-- A pass-through output reuses its input tensor. -/
def aliased (inputs : List BoundInput) (oi : Nat) (v : Value) : Value :=
  match (main0WeightPassthroughMap funcDef).lookup oi with
  | some inputIdx => (inputTensor inputs inputIdx).getD v
  | none => v

/-! ## `run_function_graph` -/

/-- The weight cache and the outputs of the functions so far. -/
structure GraphState where
  funcOutputs : List (List Value)
  weightCache : WeightCache

/-- An output of an earlier function. -/
def readFuncOutput {α : Type} (funcOutputs : List (List α)) (p o : Nat) : Except Failure α :=
  match funcOutputs[p]? with
  | none => .error .funcOutputsRange
  | some outputs =>
    match outputs[o]? with
    | none => .error .funcOutputsRange
    | some v => .ok v

def pushFuncOutputs {α : Type} (funcOutputs : List (List α)) (fi : Nat) (values : List α) :
    Except Failure (List (List α)) :=
  if fi < funcOutputs.length then .ok (funcOutputs.modify fi (· ++ values))
  else if values = [] then .ok funcOutputs
  else .error .funcOutputsRange

/-- One function of `run_function_graph`. -/
def graphStep (s : GraphState) (funcDef : FuncDef) : Except Failure GraphState := do
  let (inputs, cache) ← bindInputs env (readFuncOutput s.funcOutputs) funcDef.numInputs
    s.weightCache 0 funcDef.inputs
  let (produced, cache) ← runFunction env computeGraph funcDef false inputs cache
  let values :=
    match produced with
    | .fastpath outputs => outputs
    | .executed outputs => outputs.zipIdx.map fun e => aliased funcDef inputs e.2 e.1
  let funcOutputs ← pushFuncOutputs s.funcOutputs funcDef.index values
  .ok ⟨funcOutputs, cache⟩

def runFunctionGraph (weightCache : WeightCache) : Except Failure Value := do
  let init : GraphState := ⟨replicate computeGraph.functions.length [], weightCache⟩
  let s ← computeGraph.functions.foldlM (graphStep env computeGraph) init
  readFuncOutput s.funcOutputs computeGraph.globalOutput.1 computeGraph.globalOutput.2

/-! ## `run_function_graph_with_kv_intercept` -/

/-- A pushed tensor with the function and output that produced it. -/
structure OutputSlot where
  value : Value
  origin : Nat × Nat
deriving DecidableEq, Repr

def outputSlots (fi : Nat) (values : List (Value × Nat)) : List OutputSlot :=
  values.map fun e => ⟨e.1, (fi, e.2)⟩

/-- The same with the pool, and each output with the function that produced it, which the code does
    not keep. -/
structure KvGraphState where
  funcOutputs : List (List OutputSlot)
  kvNew : AList fun _ : Nat × Nat => Value
  blockManager : Option BlockManager
  weightCache : WeightCache

/-- A tensor of `kv_new` as the cache hooks see it; only `f32` elements can be read. -/
def kvTensor (v : Value) : Tensor := ⟨v.shape, (v.asTensor.map (·.data)).getD []⟩

/-- `intercept_consumed_output` on any storage; only with a block manager is it read. -/
def interceptOutput (requestId : Option String) (funcDef : FuncDef) (slab : Option SlabSpec)
    (oi : Nat) (v : Value) (s : KvGraphState) : Except Failure KvGraphState := do
  let kvNew := s.kvNew.insert (funcDef.index, oi) v
  match s.blockManager with
  | none => .ok { s with kvNew }
  | some bm =>
    let defs := funcDef.outputs.map (·.toIOTensorDef)
    let kvIdx := (defs.zipIdx.filter fun o => o.1.consumedInternally).map Prod.snd
    let isKey := kvIdx.head? = some oi
    match requestId with
    | none =>
      .error (.error
        "intercept_consumed_output: request_id required when block_manager is set")
    | some rid =>
      let t ← orPanic v.asTensor
      let isDecode := env.inputIds.length = 1
      let (result, _, bm) ← orPanic (interceptConsumedOutput funcDef.index oi t ∅ (some bm)
        (some rid) env.positions isDecode defs slab isKey)
      match result with
      | .error e => .error (.error e)
      | .ok () => .ok { s with kvNew, blockManager := bm }

/-- `intercept_consumed_input`; in decode with a block manager the tensor is read. -/
def interceptInput (requestId : Option String) (producer : FuncDef)
    (slab : Option SlabSpec) (s : KvGraphState) (p o : Nat) : Except Failure Value := do
  let v ← orError (s!"intercept_consumed_input: func_{p} output_{o} is consumed_internally " ++
    "but no KV data available (funcs must execute in topological order)") (s.kvNew.lookup (p, o))
  if env.inputIds.length ≠ 1 ∨ s.blockManager.isNone then .ok v
  else
    let t ← ofResult (interceptConsumedInput p o (producer.outputs.map (·.toIOTensorDef))
      ((∅ : KvNew).insert (p, o) (kvTensor v)) s.blockManager requestId env.positions true slab
      none)
    let _ ← orPanic v.asTensor
    .ok (.f32 t)

/-- The outputs of a function before `o` that are consumed inside it. -/
def consumedBefore (o : Nat) : Nat :=
  (funcDef.outputs.take o).countP (·.consumedInternally)

/-- The tensor an edge reads: intercepted outputs from the cache, others from where they are. -/
def readStored (funcOutputs : List (List OutputSlot)) (p o : Nat) : Except Failure OutputSlot := do
  let producer ← orPanic computeGraph.functions[p]?
  -- consumed outputs are not pushed, so they are subtracted
  readFuncOutput funcOutputs p (o - consumedBefore producer o)

variable (cachePolicy : CachePolicy) (requestId : Option String) (s : KvGraphState)

/-- An output as a later function reads it, behind the KV hook. -/
def readSsaKv (p o : Nat) : Except Failure Value := do
  let producer ← orPanic computeGraph.functions[p]?
  let outputDef ← orPanic producer.outputs[o]?
  if shouldInterceptConsumed p o cachePolicy outputDef then
    let slab := findSlabForIntercept cachePolicy p o
    interceptInput env requestId producer (slab.map (·.toSlabSpec)) s p o
  else
    let st ← readStored computeGraph s.funcOutputs p o
    .ok st.value

/-- An output is stored unless the KV cache takes it. -/
def storeOutput (funcDef : FuncDef) (inputs : List BoundInput) (s : KvGraphState)
    (e : Value × Nat) : Except Failure KvGraphState := do
  let ioDef ← orPanic funcDef.outputs[e.2]?
  if shouldInterceptConsumed funcDef.index e.2 cachePolicy ioDef then
    let slab := findSlabForIntercept cachePolicy funcDef.index e.2
    interceptOutput env requestId funcDef (slab.map (·.toSlabSpec)) e.2 e.1 s
  else
    let funcOutputs ← pushFuncOutputs s.funcOutputs funcDef.index
      (outputSlots funcDef.index [(aliased funcDef inputs e.2 e.1, e.2)])
    .ok { s with funcOutputs }

/-- One function of `run_function_graph_with_kv_intercept`. -/
def kvGraphStep (funcDef : FuncDef) : Except Failure KvGraphState := do
  let (inputs, cache) ← bindInputs env (readSsaKv env computeGraph cachePolicy requestId s)
    funcDef.numInputs s.weightCache 0 funcDef.inputs
  let (produced, cache) ← runFunction env computeGraph funcDef true inputs cache
  let s := { s with weightCache := cache }
  match produced with
  | .fastpath outputs =>
    let funcOutputs ← pushFuncOutputs s.funcOutputs funcDef.index
      (outputSlots funcDef.index outputs.zipIdx)
    .ok { s with funcOutputs }
  | .executed outputs =>
    outputs.zipIdx.foldlM (storeOutput env cachePolicy requestId funcDef inputs) s

def KvGraphState.init (blockManager : Option BlockManager)
    (weightCache : WeightCache) : KvGraphState :=
  ⟨replicate computeGraph.functions.length [], ∅, blockManager, weightCache⟩

/-- The loop over the functions `funcs`. -/
def runKvFunctions (funcs : List FuncDef) : Except Failure KvGraphState :=
  funcs.foldlM (kvGraphStep env computeGraph cachePolicy requestId) s

/-- `&func_outputs[g_func][g_idx]`. -/
def readGlobalOutput : Except Failure OutputSlot :=
  readFuncOutput s.funcOutputs computeGraph.globalOutput.1 computeGraph.globalOutput.2

def runFunctionGraphWithKvIntercept (blockManager : Option BlockManager) (requestId : Option String)
    (cachePolicy : CachePolicy) (weightCache : WeightCache) : Except Failure Value := do
  let s ← runKvFunctions env computeGraph cachePolicy requestId
    (.init computeGraph blockManager weightCache) computeGraph.functions
  let st ← readGlobalOutput computeGraph s
  .ok st.value

end CompileForge.Runtime
