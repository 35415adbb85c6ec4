/-
  The inference runner (`runtime/src/engine/runner.rs`): scheduling steps, one
  forward pass for each scheduled request, sampling, the prefix cache of finished
  requests and the `generate` loop.

  A call that panics has no outcome (`none`).  In the runner itself this is the
  slice of the radix tree's `insert`.  Timing, accounting and `KVCacheState` are not
  part of the model: nothing reads them.
-/

import CompileForge.Runtime.Cache.BlockStore
import CompileForge.Runtime.Cache.Intercept
import CompileForge.Runtime.Cache.Radix
import CompileForge.Runtime.Engine.Sampler
import CompileForge.Runtime.Engine.Scheduler
import Mathlib.Data.List.Destutter

namespace CompileForge.Runtime

open Lib

structure StepResult where
  requestId : String
  tokenId : UInt32
  text : String
  finished : Bool
deriving DecidableEq, Repr

structure GenerationResult where
  text : String
  tokens : List UInt32
deriving DecidableEq, Repr

structure RunnerConfig where
  maxBatchSize : Nat
  maxTokensPerStep : Nat
  chunkSize : Nat
  numBlocks : Nat
  blockSize : Nat
  maxTokensPerRequest : Nat
  useKvCache : Bool
  numKvHeads : Nat
  headDim : Nat
deriving DecidableEq, Repr

/-- What the runner calls: executor, tokenizer and random draws over a state. -/
structure Backend (ω : Type) where
  forwardWithKv : ω → List UInt32 → List UInt32 → (bm : BlockManager) → String →
    Option (Except String (List F32) × { bm' // BlockManager.SameLedger bm bm' } × ω)
  forwardWithPositions : ω → List UInt32 → List UInt32 → Option (Except String (List F32) × ω)
  draw : ω → List F32 → SamplerConfig → UInt32 × ω
  stopTokenIds : List UInt32
  decode : List UInt32 → Except String String
  decodeToken : UInt32 → String
  vocabSize : Nat
  /-- The `func_index` of the intercepts (or of the functions with consumed outputs). -/
  kvFunctions : List Nat

/-- Inference runner: scheduler, pool and prefix cache around an executor. -/
structure InferenceRunner (heap : MaxHeap QueueEntry QueueEntry.rank) (ω : Type) where
  executor : ω
  scheduler : Scheduler heap
  blockManager : BlockManager
  radixCache : RadixCache
  config : RunnerConfig
  cacheHits : List PrefixCacheHit
  kvLayerIds : List Nat

instance : ToString OutOfMemoryError where
  toString e := s!"OutOfMemory: need {e.needed} blocks but only {e.free} free " ++
    s!"(total pool: {e.total})"

/-! ## Layer tables -/

/-- Number of token slots a scheduled KV write needs to cover. -/
def kvTargetTokens (req : ScheduledRequest) : Nat :=
  if req.nTokens = 1 then (req.positions.head?.map (·.toNat + 2)).getD 1
  else (req.positions.getLast?.map (·.toNat + 1)).getD req.nTokens

/-- Grows the table of each layer of the request; stops at the first that fails. -/
def ensureKvLayerBlocks (requestId : String) (targetTokens : Nat) :
    List Nat → BlockManager → Except String Unit × BlockManager
  | [], bm => (.ok (), bm)
  | fi :: rest, bm =>
    match reservePrompt bm (layerRid requestId fi) targetTokens with
    | (.error e, bm') => (.error s!"KV layer {layerRid requestId fi} OOM: {e}", bm')
    | (.ok (), bm') => ensureKvLayerBlocks requestId targetTokens rest bm'

/-- Frees the layer tables of a request. -/
def flushKvLayerBlocks (requestId : String) (layers : List Nat) (bm : BlockManager) :
    BlockManager :=
  layers.foldl (fun bm fi => bm.flushRequest (layerRid requestId fi)) bm

variable {heap : MaxHeap QueueEntry QueueEntry.rank} {ω : Type}

namespace InferenceRunner

/-! ## Construction and requests -/

/-- The layers whose tables the runner keeps, only with a KV cache. -/
def layerIds (useKvCache : Bool) (kvFunctions : List Nat) : List Nat :=
  if useKvCache then (kvFunctions.insertionSort (· ≤ ·)).destutter (· ≠ ·) else []

def new (heap : MaxHeap QueueEntry QueueEntry.rank) (backend : Backend ω) (executor : ω)
    (config : RunnerConfig) : Except String (InferenceRunner heap ω) :=
  match Scheduler.new heap config.maxBatchSize config.maxTokensPerStep config.chunkSize
      config.useKvCache with
  | .error e => .error s!"scheduler init: {e}"
  | .ok scheduler =>
    let withCache := config.useKvCache && decide (0 < config.numKvHeads) &&
      decide (0 < config.headDim)
    let pool :=
      if withCache then
        BlockManager.newWithCache config.numBlocks config.blockSize config.numKvHeads
          config.headDim
      else BlockManager.new config.numBlocks config.blockSize
    match pool with
    | .error e =>
      .error (if withCache then s!"block_manager init (with cache): {e}"
        else s!"block_manager init: {e}")
    | .ok blockManager => .ok
        { executor, scheduler, blockManager
          -- the pool has refused a `block_size` of zero
          radixCache := .new blockManager.blockSize blockManager.blockSize_pos
          config
          cacheHits := []
          kvLayerIds := layerIds config.useKvCache backend.kvFunctions }

/-- Queues a request, looks its prompt up and assigns the blocks of a hit. -/
def addRequestTokens (backend : Backend ω) (r : InferenceRunner heap ω) (inputIds : List UInt32)
    (sampling : SamplerConfig) : Except String String × InferenceRunner heap ω :=
  if inputIds.isEmpty then (.error "empty prompt token ids", r)
  else
    let (rid, scheduler) := r.scheduler.addRequest inputIds 0
      (sampling.maxTokens.getD r.config.maxTokensPerRequest) backend.stopTokenIds none
    -- the new request is waiting, not running
    let promptTokens := ((scheduler.runningRequest rid).map Request.promptTokens).getD []
    let (matchedBlocks, matchedTokens) := r.radixCache.matchPrefix promptTokens
    if matchedBlocks.isEmpty then (.ok rid, { r with scheduler })
    else
      (.ok rid, { r with
          scheduler
          blockManager := r.blockManager.assignCachedBlocks rid matchedBlocks
          cacheHits := r.cacheHits ++ [{ requestId := rid, matchedBlocks, matchedTokens }] })

variable (backend : Backend ω) (sampling : SamplerConfig) (r : InferenceRunner heap ω)

def hasWork : Bool := r.scheduler.hasWork

/-! ## One step -/

/-- The first part of `step_inner`: take the hits and schedule. -/
def scheduleStep : Batch × InferenceRunner heap ω :=
  let out := r.scheduler.schedule r.blockManager r.cacheHits
  (out.1, { r with scheduler := out.2.1, blockManager := out.2.2, cacheHits := [] })

variable (req : ScheduledRequest)

/-- The forward pass of one scheduled request, in KV mode behind the growth of its tables. -/
def forward : Option (Except String (List F32) × InferenceRunner heap ω) :=
  if r.config.useKvCache then
    match ensureKvLayerBlocks req.requestId (kvTargetTokens req) r.kvLayerIds r.blockManager with
    | (.error e, bm) => some (.error e, { r with blockManager := bm })
    | (.ok (), bm) =>
      match backend.forwardWithKv r.executor req.inputIds req.positions bm req.requestId with
      | none => none
      | some (logits, bm', executor) =>
        some (logits, { r with blockManager := bm'.1, executor })
  else
    match backend.forwardWithPositions r.executor req.inputIds req.positions with
    | none => none
    | some (logits, executor) => some (logits, { r with executor })

/-- Neither empty logits nor an intermediate prefill chunk are sampled. -/
def sampleToken (allLogits : List F32) : Option UInt32 × InferenceRunner heap ω :=
  if allLogits.isEmpty then (none, r)
  else if req.state = .prefill then (none, r)
  else
    -- both branches of the source take the last `vocab` entries
    let logits := allLogits.drop (allLogits.length - backend.vocabSize)
    let (tokenId, executor) := Sampler.sample backend.draw r.executor logits sampling
    (some tokenId, { r with executor })

variable (requestId : String)

/-- What `step` inserts for a finished request: its tokens and its blocks. -/
def cacheEntry (request : Request) : List UInt32 × List Nat :=
  (request.promptTokens ++ request.outputTokens, match r.blockManager.getBlocks requestId with
    | .ok blocks => blocks
    | .error _ => [])

/-- The finished branch: take the request out, cache its blocks, flush its tables. -/
def finishRequest : Option (InferenceRunner heap ω) := do
  let taken := r.scheduler.getFinishedRequest requestId
  let r := { r with scheduler := taken.2 }
  let r ← match taken.1 with
    | none => some r
    | some request =>
      let entry := r.cacheEntry requestId request
      if entry.1.isEmpty then some r
      else
        (r.radixCache.insert entry.1 entry.2 r.blockManager).map fun inserted =>
          { r with radixCache := inserted.1, blockManager := inserted.2 }
  if r.config.useKvCache then
    some { r with blockManager :=
      flushKvLayerBlocks requestId r.kvLayerIds (r.blockManager.flushRequest requestId) }
  else some r

/-- Record a sampled token, and finish the request if it was its last. -/
def recordToken (tokenId : UInt32) : Option (StepResult × InferenceRunner heap ω) :=
  let (finished, scheduler) := r.scheduler.recordOutput requestId tokenId
  let r := { r with scheduler }
  (if finished then r.finishRequest requestId else some r).map fun r =>
    ({ requestId, tokenId, text := backend.decodeToken tokenId, finished }, r)

/-- The body of the loop over the batch. -/
def processRequest : Option (Except String (Option StepResult) × InferenceRunner heap ω) :=
  if req.inputIds.isEmpty then some (.ok none, r)
  else
    match r.forward backend req with
    | none => none
    | some (.error e, r) => some (.error e, r)
    | some (.ok allLogits, r) =>
      match r.sampleToken backend sampling req allLogits with
      | (none, r) => some (.ok none, r)
      | (some tokenId, r) =>
        (r.recordToken backend req.requestId tokenId).map fun out => (.ok (some out.1), out.2)

/-- `for req in &batch.requests`. -/
def processBatch (backend : Backend ω) (sampling : SamplerConfig) :
    List ScheduledRequest → InferenceRunner heap ω →
      Option (Except String (List StepResult) × InferenceRunner heap ω)
  | [], r => some (.ok [], r)
  | req :: rest, r =>
    match r.processRequest backend sampling req with
    | none => none
    | some (.error e, r) => some (.error e, r)
    | some (.ok result, r) =>
      (processBatch backend sampling rest r).map fun out =>
        (out.1.map (result.toList ++ ·), out.2)

/-- One scheduling step: the batch, its forward passes, and the requests that finished. -/
def step : Option (Except String (List StepResult) × InferenceRunner heap ω) :=
  processBatch backend sampling r.scheduleStep.1.requests r.scheduleStep.2

/-! ## The generate loop -/

def collectTokens (rid : String) : List StepResult → List UInt32
  | [] => []
  | res :: rest =>
    if res.requestId = rid then
      res.tokenId :: (if res.finished then [] else collectTokens rid rest)
    else collectTokens rid rest

/-- How a `generate` call stands after a number of turns of its loop. -/
inductive Generation (heap : MaxHeap QueueEntry QueueEntry.rank) (ω : Type) where
  | looping
  | panicked
  | returned (result : Except String GenerationResult) (r : InferenceRunner heap ω)

/-- The loop of `generate_request`, for at most the given number of turns. -/
def generateLoop (backend : Backend ω) (sampling : SamplerConfig) (rid : String) :
    Nat → List UInt32 → InferenceRunner heap ω → Generation heap ω
  | turns, outputTokens, r =>
    if r.hasWork then
      match turns with
      | 0 => .looping
      | turns + 1 =>
        match r.step backend sampling with
        | none => .panicked
        | some (.error e, r) => .returned (.error e) r
        | some (.ok results, r) =>
          generateLoop backend sampling rid turns
            (outputTokens ++ collectTokens rid results) r
    else
      match backend.decode outputTokens with
      | .error e => .returned (.error s!"decode error: {e}") r
      | .ok text => .returned (.ok { text, tokens := outputTokens }) r

/-- A request of its own, driven to its end. -/
def generateFromTokens (promptIds : List UInt32) (temperature topP : F32) (topK turns : Nat) :
    Generation heap ω :=
  let sampling := { SamplerConfig.default with temperature, topP, topK }
  match sampling.validate with
  | .error e => .returned (.error s!"invalid sampling config: {e}") r
  | .ok () =>
    match r.addRequestTokens backend promptIds sampling with
    | (.error e, r) => .returned (.error e) r
    | (.ok rid, r) => generateLoop backend sampling rid turns [] r

end InferenceRunner

end CompileForge.Runtime
