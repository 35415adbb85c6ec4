/-
  The Python engine (`python_runtime/engine/llm_engine.py`, `_inference_loop.py`,
  `_scheduling_bridge.py`).  A step evicts from the prefix cache, schedules with its hits,
  runs the executor on what was scheduled, samples and records.  Scheduler and block manager
  are the Rust ones behind the bindings, the prefix cache is the Python one.
-/

import CompileForge.Lib.Stream
import CompileForge.PythonRuntime.RadixCache
import CompileForge.Runtime.Engine.Scheduler

namespace CompileForge.PythonRuntime

open Lib CompileForge.Runtime

/-- From the rows of the tokens before it, the row of a fed token and the logits there. -/
structure CausalModel (Row Logits : Type) where
  step : List Row → UInt32 × UInt32 → Row × Logits

/-- A pass over fed tokens behind cached rows: the rows, and the logits at each token. -/
def CausalModel.forward {Row Logits : Type} (m : CausalModel Row Logits) (cached : List Row)
    (fed : List (UInt32 × UInt32)) : List Row × List Logits :=
  run (fun rows token => (rows ++ [(m.step rows token).1], (m.step rows token).2)) cached fed

/-- What the engine needs of an executor; `blockSize` is the one of its cache policy. -/
structure Executor (Row Logits : Type) where
  model : CausalModel Row Logits
  usesCacheManager : Bool
  blockSize : Nat
  argmax : Logits → UInt32

/-- A row is the K/V of one token over all slabs and layers, so the slabs are one memory, addressed
    by block and offset. -/
abbrev Slab (Row : Type) := Nat → Nat → Row

variable {Row Logits : Type}

def Slab.write (slab : Slab Row) (blockId offset : Nat) (row : Row) : Slab Row :=
  fun b o => if b = blockId ∧ o = offset then row else slab b o

/-- One turn of `write_paged`; a position beyond the table is skipped with a warning. -/
def writeRowAt (blockSize : Nat) (table : List Nat) (slab : Slab Row) (pos : Nat) (row : Row) :
    Slab Row :=
  match table[pos / blockSize]? with
  | none => slab
  | some b => slab.write b (pos % blockSize) row

/-- Rows written at their positions through a block table. -/
def writePaged (blockSize : Nat) (table : List Nat) (slab : Slab Row)
    (rows : List (UInt32 × Row)) : Slab Row :=
  rows.foldl (fun slab row => writeRowAt blockSize table slab row.1.toNat row.2) slab

/-- The rows of the first positions, through a block table. -/
def readPaged [Zero Row] (blockSize : Nat) (table : List Nat) (slab : Slab Row)
    (maxSeqLen : Nat) : List Row :=
  (List.range maxSeqLen).map fun pos =>
    match table[pos / blockSize]? with
    | none => 0
    | some b => slab b (pos % blockSize)

/-- One pass: a causal model behind the cache manager (`mlir_executor.py`, `cache_manager.py`), or
    plain. -/
def Executor.forward [Zero Row] (ex : Executor Row Logits) (slab : Slab Row)
    (sr : ScheduledRequest) : Option Logits × Slab Row :=
  let fed := sr.inputIds.zip sr.positions
  if ex.usesCacheManager then
    -- `is_decode`: only then the rows before the token are read back
    let cached := if sr.nTokens = 1 then
        readPaged ex.blockSize sr.blockTable slab
          ((sr.positions.getLast?.map UInt32.toNat).getD 0)
      else []
    let out := ex.model.forward cached fed
    (out.2.getLast?,
      writePaged ex.blockSize sr.blockTable slab (sr.positions.zip (out.1.drop cached.length)))
  else ((ex.model.forward [] fed).2.getLast?, slab)

/-! ## The engine -/

structure GenerationResult where
  requestId : String
  newTokens : List UInt32
  isFinished : Bool
deriving DecidableEq, Repr

/-- The scheduling bridge and the request state; without `enable_prefix_cache` there is no tree. -/
structure Engine (heap : MaxHeap QueueEntry QueueEntry.rank) (Row : Type) where
  sched : Scheduler heap
  bm : BlockManager
  radixCache : Option RadixTreeNode
  slab : Slab Row
  promptTokens : AList fun _ : String => List UInt32
  outputTokens : AList fun _ : String => List UInt32

variable {heap : MaxHeap QueueEntry QueueEntry.rank}

namespace Engine

def new [Zero Row] (sched : Scheduler heap) (bm : BlockManager) (enablePrefixCache : Bool) :
    Engine heap Row :=
  { sched, bm
    radixCache := if enablePrefixCache then some (.new []) else none
    slab := fun _ _ => 0
    promptTokens := ∅
    outputTokens := ∅ }

variable (e : Engine heap Row) (rid : String)

/-- Every request is added with priority 0. -/
def addRequest (promptTokens : List UInt32) (maxTokens : Nat)
    (stopTokenIds : List UInt32) : Engine heap Row :=
  { e with
    sched := (e.sched.addRequest promptTokens 0 maxTokens stopTokenIds (some rid)).2
    promptTokens := e.promptTokens.insert rid promptTokens }

/-- The output tokens of a request, empty when it has none. -/
def outputs : List UInt32 := (e.outputTokens.lookup rid).getD []

/-! ### Scheduling bridge -/

/-- What the prefix cache has for a prompt: nothing when there is no cache. -/
def matchPrefix (prompt : List UInt32) : List Nat × Nat :=
  match e.radixCache with
  | none => ([], 0)
  | some root => PyRadix.matchPrefix root e.bm prompt

/-- `build_cache_hits`: the requests without output whose prompt has a match. -/
def buildCacheHits : List PrefixCacheHit :=
  e.promptTokens.entries.filterMap fun entry =>
    if e.outputs entry.1 = [] ∧ 0 < (e.matchPrefix entry.2).2 then
      some { requestId := entry.1
             matchedBlocks := (e.matchPrefix entry.2).1
             matchedTokens := (e.matchPrefix entry.2).2 }
    else none

/-- Evicts from the prefix cache until a tenth of the blocks is free. -/
def evictCacheIfNeeded : Engine heap Row :=
  match e.radixCache with
  | none => e
  | some root =>
    let free := e.bm.numFreeBlocks
    if free < max 1 (e.bm.numBlocks / 10) then
      let evicted := PyRadix.evict root e.bm (max 1 (e.bm.numBlocks / 10 - free))
      { e with radixCache := some evicted.1, bm := evicted.2.1 }
    else e

/-- A finished request goes into the prefix cache, which takes its own references. -/
def insertFinishedToCache : Engine heap Row :=
  match e.radixCache with
  | none => e
  | some root =>
    match e.promptTokens.lookup rid with
    | none => e
    | some prompt =>
      match e.bm.getBlocks rid with
      | .error _ => e
      | .ok blocks =>
        let inserted := PyRadix.insert root e.bm (prompt ++ e.outputs rid) blocks
        { e with radixCache := some inserted.1, bm := inserted.2 }

def cleanupRequest : Engine heap Row :=
  { e with
    bm := e.bm.free rid
    promptTokens := e.promptTokens.erase rid
    outputTokens := e.outputTokens.erase rid }

/-! ### Inference loop -/

/-- Record a sampled token; a finished request goes to the cache and is cleaned up. -/
def recordSampled (token : UInt32) : Engine heap Row × GenerationResult :=
  let recorded := e.sched.recordOutput rid token
  let e : Engine heap Row := { e with
    sched := recorded.2
    outputTokens := e.outputTokens.insert rid (e.outputs rid ++ [token]) }
  (if recorded.1 then (e.insertFinishedToCache rid).cleanupRequest rid else e,
    { requestId := rid, newTokens := [token], isFinished := recorded.1 })

/-- `sample` at temperature 0 is `argmax` of the last logits. -/
def sampleFromLogits (ex : Executor Row Logits) (sr : ScheduledRequest)
    (logits : Option Logits) : Engine heap Row × List GenerationResult :=
  if sr.state = .prefill then (e, [])
  else
    match logits with
    | none => (e, [])
    | some logits =>
      let recorded := e.recordSampled sr.requestId (ex.argmax logits)
      (recorded.1, [recorded.2])

/-- A step without batching: each request is run and recorded before the next. -/
def stepPerRequest [Zero Row] (ex : Executor Row Logits) :
    Engine heap Row → List ScheduledRequest → Engine heap Row × List GenerationResult
  | e, [] => (e, [])
  | e, sr :: rest =>
    let out := ex.forward e.slab sr
    let sampled := sampleFromLogits { e with slab := out.2 } ex sr out.1
    let others := stepPerRequest ex sampled.1 rest
    (others.1, sampled.2 ++ others.2)

/-- The passes of a batch, before anything is sampled. -/
def forwardBatch [Zero Row] (ex : Executor Row Logits) :
    Slab Row → List ScheduledRequest → List (Option Logits) × Slab Row
  | slab, [] => ([], slab)
  | slab, sr :: rest =>
    let out := ex.forward slab sr
    let others := forwardBatch ex out.2 rest
    (out.1 :: others.1, others.2)

/-- What a batched pass gave is sampled and recorded in order. -/
def sampleBatch (ex : Executor Row Logits) :
    Engine heap Row → List (ScheduledRequest × Option Logits) →
      Engine heap Row × List GenerationResult
  | e, [] => (e, [])
  | e, (sr, logits) :: rest =>
    let sampled := e.sampleFromLogits ex sr logits
    let others := sampleBatch ex sampled.1 rest
    (others.1, sampled.2 ++ others.2)

def stepBatch [Zero Row] (ex : Executor Row Logits) (batch : List ScheduledRequest) :
    Engine heap Row × List GenerationResult :=
  let out := forwardBatch ex e.slab batch
  sampleBatch ex { e with slab := out.2 } (batch.zip out.1)

/-- `can_batch`: one request, or as many tokens of each and no cache manager. -/
def canBatchForward (ex : Executor Row Logits) (batch : List ScheduledRequest) : Bool :=
  match batch with
  | [] => false
  | [_] => true
  | first :: rest =>
    !ex.usesCacheManager && rest.all fun sr => sr.inputIds.length = first.inputIds.length

def scheduleBatch : Engine heap Row × List ScheduledRequest :=
  let scheduled := e.sched.schedule e.bm e.buildCacheHits
  ({ e with sched := scheduled.2.1, bm := scheduled.2.2 }, scheduled.1.requests)

/-- `InferenceLoop.step`. -/
def step [Zero Row] (ex : Executor Row Logits) : Engine heap Row × List GenerationResult :=
  let scheduled := e.evictCacheIfNeeded.scheduleBatch
  if canBatchForward ex scheduled.2 then scheduled.1.stepBatch ex scheduled.2
  else stepPerRequest ex scheduled.1 scheduled.2

/-! ### A batched forward -/

variable {e}

theorem insertFinishedToCache_slab (slab : Slab Row) (rid : String) :
    insertFinishedToCache { e with slab } rid = { e.insertFinishedToCache rid with slab } := by
  obtain ⟨sched, bm, radixCache, _, promptTokens, outputTokens⟩ := e
  cases radixCache with
  | none => rfl
  | some =>
    simp only [insertFinishedToCache, outputs]
    cases promptTokens.lookup rid with
    | none => rfl
    | some =>
      cases bm.getBlocks rid with
      | error => rfl
      | ok => rfl

theorem sampleFromLogits_slab (ex : Executor Row Logits) (slab : Slab Row)
    (sr : ScheduledRequest) (logits : Option Logits) :
    sampleFromLogits { e with slab } ex sr logits =
      ({ (e.sampleFromLogits ex sr logits).1 with slab }, (e.sampleFromLogits ex sr logits).2) := by
  unfold sampleFromLogits
  split
  case isTrue => rfl
  case isFalse =>
    cases logits with
    | none => rfl
    | some logits =>
      simp only [recordSampled]
      cases (e.sched.recordOutput sr.requestId (ex.argmax logits)).1 with
      | false => rfl
      | true =>
        simp only [if_true]
        have hinsert := insertFinishedToCache_slab (e := { e with
          sched := (e.sched.recordOutput sr.requestId (ex.argmax logits)).2
          outputTokens := e.outputTokens.insert sr.requestId
            (e.outputs sr.requestId ++ [ex.argmax logits]) }) slab sr.requestId
        exact congrArg (fun e' => (cleanupRequest e' sr.requestId, _)) hinsert

theorem stepBatch_eq [Zero Row] (ex : Executor Row Logits) (batch : List ScheduledRequest) :
    e.stepBatch ex batch = stepPerRequest ex e batch := by
  induction batch generalizing e with
  | nil => rfl
  | cons sr rest ih =>
    have hslab := sampleFromLogits_slab (e := e) ex
      (forwardBatch ex (ex.forward e.slab sr).2 rest).2 sr (ex.forward e.slab sr).1
    have hnext := sampleFromLogits_slab (e := e) ex (ex.forward e.slab sr).2 sr
      (ex.forward e.slab sr).1
    have hrest := ih (e := { (e.sampleFromLogits ex sr (ex.forward e.slab sr).1).1 with
      slab := (ex.forward e.slab sr).2 })
    rw [stepBatch] at hrest ⊢
    simp only [forwardBatch, List.zip_cons_cons, sampleBatch, stepPerRequest, hslab, hnext]
    rw [← hrest]

theorem step_eq [Zero Row] (ex : Executor Row Logits) :
    e.step ex = stepPerRequest ex e.evictCacheIfNeeded.scheduleBatch.1
      e.evictCacheIfNeeded.scheduleBatch.2 := by
  rw [step]
  split
  · exact stepBatch_eq ex _
  · rfl

end Engine

end CompileForge.PythonRuntime
