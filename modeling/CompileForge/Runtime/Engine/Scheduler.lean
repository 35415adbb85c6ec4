/-
  The continuous-batching scheduler (`runtime/src/engine/scheduler.rs`):
  admission from the waiting heap, chunked prefill, one token per decode step.
-/

import CompileForge.Lib.MaxHeap
import CompileForge.Runtime.Cache.Block
import CompileForge.Runtime.Engine.Types

namespace CompileForge.Runtime

open Lib

/-- An entry of the waiting heap; the order of entries of equal priority is left open. -/
structure QueueEntry where
  priority : Int
  request : Request
deriving DecidableEq, Repr

/-- The reversed order of `Ord for QueueEntry`: a smaller priority is greater. -/
def QueueEntry.rank (e : QueueEntry) : Int := -e.priority

/-- `new` refuses a zero `max_batch_size` or `chunk_size`, so a configuration carries both facts. -/
structure SchedulerConfig where
  maxBatchSize : Nat
  maxTokensPerStep : Nat
  chunkSize : Nat
  useKvCache : Bool
  maxBatchSize_pos : 0 < maxBatchSize
  chunkSize_pos : 0 < chunkSize

structure Scheduler (heap : MaxHeap QueueEntry QueueEntry.rank) where
  config : SchedulerConfig
  waiting : heap.Carrier
  running : List Request
  requestCounter : Nat

/-- The update of the element that `iter_mut().find(..)` finds. -/
def updateFirst {α : Type} (p : α → Bool) (f : α → α) : List α → List α
  | [] => []
  | a :: l => if p a then f a :: l else a :: updateFirst p f l

/-! ## One turn of the batch loop -/

/-- The two counters of `build_batch`. -/
structure Budget where
  totalPrefillTokens : Nat
  numDecode : Nat
deriving DecidableEq, Repr

/-- Why a turn of the loop schedules nothing. -/
inductive SkipReason where
  | notLive
  | promptExhausted
  | noBudget
  | outOfMemory
  | noBlockTable
deriving DecidableEq, Repr

/-- A turn of the body of `build_batch`: scheduled, or one of its `continue`s. -/
inductive SlotResult where
  | scheduled (sr : ScheduledRequest)
  | skipped (why : SkipReason)
deriving DecidableEq, Repr

/-- A running request before and after its turn. -/
structure Slot where
  before : Request
  after : Request
  result : SlotResult
deriving DecidableEq, Repr

/-- The batch consists of the scheduled slots. -/
def Slot.scheduled? (slot : Slot) : Option ScheduledRequest :=
  match slot.result with
  | .scheduled sr => some sr
  | .skipped _ => none

/-- What a turn leaves: the request, its slot, the budget and the pool. -/
structure Turn where
  slot : Slot
  budget : Budget
  bm : BlockManager

/-- The blocks of the whole prompt: a growing table, or a first allocation. -/
def reservePrompt (bm : BlockManager) (requestId : String) (numTokens : Nat) :
    Except OutOfMemoryError Unit × BlockManager :=
  if requestId ∈ bm.blockTables then bm.ensureBlocks requestId numTokens
  else
    match bm.allocate requestId numTokens with
    | (.ok _, bm') => (.ok (), bm')
    | (.error e, bm') => (.error e, bm')

variable (cfg : SchedulerConfig) (budget : Budget) (req : Request) (bm : BlockManager)

/-- `n_tokens` of the `Prefill` arm. -/
def chunkLen : Nat :=
  min (min req.tokensRemaining cfg.chunkSize)
    (cfg.maxTokensPerStep - budget.totalPrefillTokens)

/-- The request once its cursor has moved past a chunk. -/
def Request.advance (nTokens : Nat) : Request :=
  { req with prefillPos := req.prefillPos + nTokens }

/-- The state flips when the whole prompt has been cut. -/
def Request.settlePrefill : Request :=
  if req.promptTokens.length ≤ req.prefillPos then { req with state := .decode } else req

def prefillRequest (req after : Request) (nTokens : Nat) (blocks : List Nat) : ScheduledRequest :=
  { requestId := req.requestId
    inputIds := slice req.promptTokens req.prefillPos nTokens
    positions := u32Range req.prefillPos (req.prefillPos + nTokens)
    state := after.state
    blockTable := blocks
    useKvCache := false
    kvCacheBlockTable := []
    nTokens }

/-- The cursor moves before the blocks are allocated. -/
def prefillTurn : Turn :=
  if req.tokensRemaining = 0 then
    ⟨⟨req, { req with state := .decode }, .skipped .promptExhausted⟩, budget, bm⟩
  else
    if cfg.maxTokensPerStep - budget.totalPrefillTokens = 0 then
      ⟨⟨req, req, .skipped .noBudget⟩, budget, bm⟩
    else
      let nTokens := chunkLen cfg budget req
      -- the cursor moves before the blocks are there
      let moved := req.advance nTokens
      match reservePrompt bm req.requestId req.promptTokens.length with
      | (.error _, bm') => ⟨⟨req, moved, .skipped .outOfMemory⟩, budget, bm'⟩
      | (.ok (), bm') =>
        match bm'.getBlocks req.requestId with
        | .error _ => ⟨⟨req, moved, .skipped .noBlockTable⟩, budget, bm'⟩
        | .ok blocks =>
          let after := moved.settlePrefill
          ⟨⟨req, after, .scheduled (prefillRequest req after nTokens blocks)⟩,
            { budget with totalPrefillTokens := budget.totalPrefillTokens + nTokens }, bm'⟩

/-- What a decode step feeds: the last token alone, or the whole sequence. -/
def decodeRequest (useKvCache : Bool) (req : Request) (blocks : List Nat) : ScheduledRequest :=
  if useKvCache then
    let currentSeqLen := req.promptTokens.length + req.outputTokens.length
    let lastToken := (req.outputTokens.getLast?).getD ((req.promptTokens.getLast?).getD 0)
    { requestId := req.requestId
      inputIds := [lastToken]
      positions := [UInt32.ofNat (currentSeqLen - 1)]
      state := req.state
      blockTable := blocks
      useKvCache := true
      kvCacheBlockTable := blocks
      nTokens := 1 }
  else
    let fullInputIds := req.promptTokens ++ req.outputTokens
    { requestId := req.requestId
      inputIds := fullInputIds
      positions := u32Range 0 fullInputIds.length
      state := req.state
      blockTable := blocks
      useKvCache := false
      kvCacheBlockTable := []
      nTokens := 1 }

def decodeTurn : Turn :=
  if cfg.maxTokensPerStep < budget.totalPrefillTokens + budget.numDecode + 1 then
    ⟨⟨req, req, .skipped .noBudget⟩, budget, bm⟩
  else
    -- counted even if the request is skipped below
    let budget' := { budget with numDecode := budget.numDecode + 1 }
    let grown :=
      if cfg.useKvCache then
        bm.ensureBlocks req.requestId (req.promptTokens.length + req.outputTokens.length + 1)
      else (.ok (), bm)
    match grown with
    | (.error _, bm') => ⟨⟨req, req, .skipped .outOfMemory⟩, budget', bm'⟩
    | (.ok (), bm') =>
      match bm'.getBlocks req.requestId with
      | .error _ => ⟨⟨req, req, .skipped .noBlockTable⟩, budget', bm'⟩
      | .ok blocks =>
        ⟨⟨req, req, .scheduled (decodeRequest cfg.useKvCache req blocks)⟩, budget', bm'⟩

/-- The body of the loop of `build_batch`. -/
def buildSlot : Turn :=
  match req.state with
  | .prefill => prefillTurn cfg budget req bm
  | .decode => decodeTurn cfg budget req bm
  | _ => ⟨⟨req, req, .skipped .notLive⟩, budget, bm⟩

/-- `for i in 0..self.running.len()`. -/
def buildSlots (cfg : SchedulerConfig) :
    Budget → List Request → BlockManager → List Slot × BlockManager
  | _, [], bm => ([], bm)
  | budget, req :: rest, bm =>
    let turn := buildSlot cfg budget req bm
    let slots := buildSlots cfg turn.budget rest turn.bm
    (turn.slot :: slots.1, slots.2)

def batchOf (slots : List Slot) : Batch :=
  let requests := slots.filterMap Slot.scheduled?
  { requests, totalTokens := (requests.map ScheduledRequest.nTokens).sum }

/-- A request becomes running: the cursor is set by its prefix-cache hit. -/
def admitRequest (cacheHits : List PrefixCacheHit) (bm : BlockManager) (req : Request) :
    Request × BlockManager :=
  let req := { req with state := .prefill }
  match cacheHits.find? (fun h => h.requestId = req.requestId) with
  | none => (req, bm)
  | some hit =>
    if 0 < hit.matchedTokens then
      let state :=
        if req.promptTokens.length ≤ hit.matchedTokens then .decode else req.state
      ({ req with prefillPos := hit.matchedTokens, state },
        bm.assignCachedBlocks req.requestId hit.matchedBlocks)
    else (req, bm)

variable {heap : MaxHeap QueueEntry QueueEntry.rank}

/-- `while let Some(entry) = self.waiting.pop()`. -/
def admitLoop (maxBatchSize : Nat) (cacheHits : List PrefixCacheHit) (waiting : heap.Carrier)
    (running : List Request) (bm : BlockManager) : heap.Carrier × List Request × BlockManager :=
  match h : heap.pop waiting with
  | none => (waiting, running, bm)
  | some (entry, rest) =>
    if maxBatchSize ≤ running.length then (heap.push rest entry, running, bm)
    else
      let admitted := admitRequest cacheHits bm entry.request
      have : (heap.items rest).length < (heap.items waiting).length := by
        rw [heap.length_pop h]
        exact Nat.lt_succ_self _
      admitLoop maxBatchSize cacheHits rest (running ++ [admitted.1]) admitted.2
termination_by (heap.items waiting).length

namespace Scheduler

/-! ## The public operations -/

def new (heap : MaxHeap QueueEntry QueueEntry.rank) (maxBatchSize maxTokensPerStep chunkSize : Nat)
    (useKvCache : Bool) : Except String (Scheduler heap) :=
  if hb : maxBatchSize = 0 then .error "max_batch_size must be positive"
  else if hc : chunkSize = 0 then .error "chunk_size must be positive"
  else .ok
    { config :=
        { maxBatchSize, maxTokensPerStep, chunkSize, useKvCache
          maxBatchSize_pos := Nat.pos_of_ne_zero hb
          chunkSize_pos := Nat.pos_of_ne_zero hc }
      waiting := heap.empty
      running := []
      requestCounter := 0 }

variable (s : Scheduler heap)

def addRequest (promptTokens : List UInt32) (priority : Int)
    (maxTokens : Nat) (stopTokenIds : List UInt32) (requestId : Option String) :
    String × Scheduler heap :=
  let (rid, counter) :=
    match requestId with
    | some rid => (rid, s.requestCounter)
    | none => (s!"req_{s.requestCounter + 1}", s.requestCounter + 1)
  let req := Request.new rid promptTokens priority maxTokens stopTokenIds
  (rid, { s with waiting := heap.push s.waiting ⟨priority, req⟩, requestCounter := counter })

/-- The requests left after reaping, and the pool without the tables of the others. -/
def reap (running : List Request) (bm : BlockManager) : List Request × BlockManager :=
  let finishedRequestIds := (running.filter (·.isFinished)).map Request.requestId
  (running.filter (!·.isFinished), finishedRequestIds.foldl BlockManager.free bm)

variable (bm : BlockManager)

/-- `schedule` up to `build_batch`: reap finished requests, admit new ones. -/
def admitRequests (cacheHits : List PrefixCacheHit) : Scheduler heap × BlockManager :=
  let live := reap s.running bm
  let admitted := admitLoop s.config.maxBatchSize cacheHits s.waiting live.1 live.2
  ({ s with waiting := admitted.1, running := admitted.2.1 }, admitted.2.2)

/-- One slot for each running request, in order. -/
def buildBatch : List Slot × Scheduler heap × BlockManager :=
  let slots := buildSlots s.config ⟨0, 0⟩ s.running bm
  (slots.1, { s with running := slots.1.map Slot.after }, slots.2)

def schedule (cacheHits : List PrefixCacheHit) : Batch × Scheduler heap × BlockManager :=
  let admitted := s.admitRequests bm cacheHits
  let built := admitted.1.buildBatch admitted.2
  (batchOf built.1, built.2)

def hasWork : Bool :=
  !(heap.items s.waiting).isEmpty || !s.running.isEmpty

variable (requestId : String)

def runningRequest : Option Request :=
  s.running.find? fun r => r.requestId = requestId

def getFinishedRequest : Option Request × Scheduler heap :=
  (s.runningRequest requestId,
    { s with running := s.running.eraseP fun r => r.requestId = requestId })

/-- A request after one more output token, and whether that finished it. -/
def recordToken (req : Request) (tokenId : UInt32) : Request × Bool :=
  let req := req.appendToken tokenId
  if req.maxTokens ≤ req.outputTokens.length then (req.markFinished, true)
  else if tokenId ∈ req.stopTokenIds then (req.markFinished, true)
  else (req, false)

/-- Appends a token to a running request and tells whether it finished. -/
def recordOutput (tokenId : UInt32) : Bool × Scheduler heap :=
  match s.runningRequest requestId with
  | none => (false, s)
  | some req =>
    ((recordToken req tokenId).2, { s with
        running := updateFirst (fun r => r.requestId = requestId)
          (fun r => (recordToken r tokenId).1) s.running })

end Scheduler

abbrev listHeap : MaxHeap QueueEntry QueueEntry.rank := MaxHeap.ofList QueueEntry.rank

end CompileForge.Runtime
