/-
  The paged KV cache block manager (`runtime/src/cache/block.rs`): a fixed
  pool of physical blocks with reference counts, a stack of free block ids and
  one block table per request id.  `f32` values are only copied and zeroed here.
-/

import CompileForge.Lib.Slice
import Mathlib.Algebra.Order.Floor.Div
import Mathlib.Data.List.AList

namespace CompileForge.Runtime

open Lib List

/-- A 32-bit IEEE float as its bit pattern. -/
structure F32 where
  bits : UInt32
deriving DecidableEq, Repr

/-- `0.0f32`. -/
instance : Zero F32 := ⟨⟨0⟩⟩

/-- A physical block without tensor data. -/
structure Block where
  blockId : Nat
  refCount : Nat
deriving DecidableEq, Repr

/-- A physical block that owns its key and value buffers. -/
structure KVCacheBlock where
  blockId : Nat
  keyCache : List F32
  valueCache : List F32
  refCount : Nat
deriving DecidableEq, Repr

def KVCacheBlock.new (blockId blockSize numKvHeads headDim : Nat) : KVCacheBlock :=
  let cacheSize := blockSize * numKvHeads * headDim
  { blockId, keyCache := replicate cacheSize 0, valueCache := replicate cacheSize 0,
    refCount := 0 }

/-- The buffer selected by `is_key`. -/
def KVCacheBlock.cache (kv : KVCacheBlock) (isKey : Bool) : List F32 :=
  if isKey then kv.keyCache else kv.valueCache

def KVCacheBlock.setCache (kv : KVCacheBlock) (isKey : Bool) (data : List F32) : KVCacheBlock :=
  if isKey then { kv with keyCache := data } else { kv with valueCache := data }

/-- A value of the map `blocks`. -/
inductive BlockEntry where
  | plain (b : Block)
  | cached (kv : KVCacheBlock)
deriving DecidableEq, Repr

def BlockEntry.refCount : BlockEntry → Nat
  | .plain b => b.refCount
  | .cached kv => kv.refCount

def BlockEntry.mapRefCount (f : Nat → Nat) : BlockEntry → BlockEntry
  | .plain b => .plain { b with refCount := f b.refCount }
  | .cached kv => .cached { kv with refCount := f kv.refCount }

def BlockEntry.zeroFill : BlockEntry → BlockEntry
  | .plain b => .plain b
  | .cached kv => .cached
      { kv with
        keyCache := replicate kv.keyCache.length 0
        valueCache := replicate kv.valueCache.length 0 }

/-- Error returned when the block pool is exhausted. -/
structure OutOfMemoryError where
  needed : Nat
  free : Nat
  total : Nat
deriving DecidableEq, Repr

/-- `block_tables`: the blocks of a request id in order. -/
abbrev BlockTables := AList (fun _ : String => List Nat)

/-- The pool.  `blocks : HashMap<usize, BlockEntry>` has the keys `0..num_blocks` for good, so it
    is the list of its entries by id; `free_blocks` is a stack with its top at the end, and holds
    ids of existing blocks, which discharges the `expect`s of the allocation loops. -/
structure BlockManager where
  blockSize : Nat
  blocks : List BlockEntry
  freeBlocks : List Nat
  blockTables : BlockTables
  blockSize_pos : 0 < blockSize
  free_lt : ∀ b ∈ freeBlocks, b < blocks.length

namespace BlockManager

variable (bm : BlockManager) (requestId : String)

def numBlocks : Nat := bm.blocks.length

/-- The pool both constructors build, with one entry per id. -/
def ofEntries (numBlocks blockSize : Nat) (entry : Nat → BlockEntry) :
    Except String BlockManager :=
  if numBlocks = 0 then .error "num_blocks must be positive"
  else if h : blockSize = 0 then .error "block_size must be positive"
  else .ok
    { blockSize, blocks := (range numBlocks).map entry
      freeBlocks := range numBlocks, blockTables := ∅
      blockSize_pos := Nat.pos_of_ne_zero h
      free_lt := fun b hb => by simpa using hb }

def new (numBlocks blockSize : Nat) : Except String BlockManager :=
  ofEntries numBlocks blockSize fun i => .plain { blockId := i, refCount := 0 }

def newWithCache (numBlocks blockSize numKvHeads headDim : Nat) : Except String BlockManager :=
  ofEntries numBlocks blockSize fun i => .cached (KVCacheBlock.new i blockSize numKvHeads headDim)

/-! ## Primitive updates -/

/-- `blocks.get_mut(&bid)` followed by an update of the entry found. -/
def modifyBlock (bid : Nat) (f : BlockEntry → BlockEntry) : BlockManager :=
  { bm with
    blocks := bm.blocks.modify bid f
    free_lt := fun b hb => by simpa using bm.free_lt b hb }

def modifyRef (bid : Nat) (f : Nat → Nat) : BlockManager :=
  bm.modifyBlock bid (BlockEntry.mapRefCount f)

/-- `block_tables.insert(request_id, table)`. -/
def setTable (table : List Nat) : BlockManager :=
  { bm with blockTables := bm.blockTables.insert requestId table }

def removeTable : BlockManager :=
  { bm with blockTables := bm.blockTables.erase requestId }

/-- `free_blocks.push(bid)`. -/
def pushFree (bid : Nat) (h : bid < bm.blocks.length) : BlockManager :=
  { bm with
    freeBlocks := bm.freeBlocks ++ [bid]
    free_lt := fun b hb => by
      rcases mem_append.1 hb with hb | hb
      · exact bm.free_lt b hb
      · exact mem_singleton.1 hb ▸ h }

/-- The reference count of a block (`0` for an id outside the pool). -/
def refCount (bid : Nat) : Nat :=
  (bm.blocks[bid]?.map BlockEntry.refCount).getD 0

/-! ## Allocation -/

/-- One turn of the allocation loops: pop a free id and count the reference. -/
def popBlock (h : bm.freeBlocks ≠ []) : Nat × BlockManager :=
  let bid := bm.freeBlocks.getLast h
  (bid, { bm with
      freeBlocks := bm.freeBlocks.dropLast
      blocks := bm.blocks.modify bid (BlockEntry.mapRefCount (· + 1))
      free_lt := fun b hb => by
        simpa using bm.free_lt b (dropLast_subset _ hb) })

/-- `for _ in 0..n` of the allocation loops: the ids in the order popped. -/
def popBlocks : (n : Nat) → (bm : BlockManager) → n ≤ bm.freeBlocks.length → List Nat × BlockManager
  | 0, bm, _ => ([], bm)
  | n + 1, bm, h =>
    have hne : bm.freeBlocks ≠ [] := by rintro h0; simp [h0] at h
    let first := bm.popBlock hne
    let rest := popBlocks n first.2 (by
      change n ≤ bm.freeBlocks.dropLast.length
      rw [length_dropLast]
      omega)
    (first.1 :: rest.1, rest.2)

/-- The error every allocation path reports. -/
def oom (needed : Nat) : OutOfMemoryError :=
  { needed, free := bm.freeBlocks.length, total := bm.numBlocks }

/-- The blocks of `num_tokens` more tokens, or an error that leaves the pool as it was. -/
def allocate (numTokens : Nat) : Except OutOfMemoryError (List Nat) × BlockManager :=
  if requestId ∈ bm.blockTables then (.error (bm.oom 0), bm)
  else
    let needed := numTokens ⌈/⌉ bm.blockSize
    if h : needed ≤ bm.freeBlocks.length then
      let popped := bm.popBlocks needed h
      (.ok popped.1, popped.2.setTable requestId popped.1)
    else (.error (bm.oom needed), bm)

def freeBlock (blockId : Nat) : BlockManager :=
  if h : blockId < bm.blocks.length then
    let bm' := bm.modifyRef blockId (· - 1)
    if bm'.refCount blockId = 0 then
      bm'.pushFree blockId (by simpa [bm', modifyRef, modifyBlock] using h)
    else bm'
  else bm

/-- Release all blocks of a request; a block that stays shared is only decremented. -/
def free : BlockManager :=
  match bm.blockTables.lookup requestId with
  | none => bm
  | some table => table.foldl freeBlock (bm.removeTable requestId)

def incrementRefCount (blockId : Nat) : BlockManager :=
  bm.modifyRef blockId (· + 1)

/-- Blocks found in the prefix cache become the table of the request. -/
def assignCachedBlocks (blockIds : List Nat) : BlockManager :=
  let bm' := blockIds.foldl incrementRefCount bm
  bm'.setTable requestId (blockIds ++ (bm.blockTables.lookup requestId).getD [])

/-- Grows the table of the request to `target_tokens` positions. -/
def ensureBlocks (targetTokens : Nat) : Except OutOfMemoryError Unit × BlockManager :=
  let table := (bm.blockTables.lookup requestId).getD []
  let existing := table.length * bm.blockSize
  if targetTokens ≤ existing then (.ok (), bm)
  else
    let nExtra := (targetTokens - existing) ⌈/⌉ bm.blockSize
    if h : nExtra ≤ bm.freeBlocks.length then
      let popped := bm.popBlocks nExtra h
      (.ok (), popped.2.setTable requestId (table ++ popped.1))
    else (.error (bm.oom nExtra), bm)

/-- The counting loop of `share_prefix`, which stops at the first id without a block. -/
def shareRefs : List Nat → BlockManager → Except String Unit × BlockManager
  | [], bm => (.ok (), bm)
  | bid :: rest, bm =>
    if bid < bm.blocks.length then shareRefs rest (bm.incrementRefCount bid)
    else (.error s!"block {bid} not found in share_prefix", bm)

/-- The first blocks of one request as the table of another. -/
def sharePrefix (srcRequestId dstRequestId : String) (prefixLen : Nat) :
    Except String (List Nat) × BlockManager :=
  match bm.blockTables.lookup srcRequestId with
  | none => (.error s!"Source request '{srcRequestId}' not found", bm)
  | some srcBlocks =>
    if dstRequestId ∈ bm.blockTables then
      (.error s!"Destination request '{dstRequestId}' already has blocks", bm)
    else
      let nBlocks := prefixLen ⌈/⌉ bm.blockSize
      if srcBlocks.length < nBlocks then
        (.error (s!"Source has {srcBlocks.length} blocks, cannot share {nBlocks} " ++
          s!"(prefix_len={prefixLen}, block_size={bm.blockSize})"), bm)
      else
        let shared := srcBlocks.take nBlocks
        match shareRefs shared bm with
        | (.error e, bm') => (.error e, bm')
        | (.ok (), bm') => (.ok shared, bm'.setTable dstRequestId shared)

/-! ## Queries -/

def getBlocks : Except String (List Nat) :=
  match bm.blockTables.lookup requestId with
  | none => .error s!"Unknown request_id: {requestId}"
  | some table => .ok table

def numFreeBlocks : Nat := bm.freeBlocks.length

def numAllocatedBlocks : Nat := bm.numBlocks - bm.freeBlocks.length

/-! ## KV cache read and write -/

/-- One row of `write_kv`.  The outer `Option` is `none` exactly where the code panics. -/
def writeRow (blockIds : List Nat) (requestId : String) (startPos : Nat) (data : List F32)
    (hiddenDim : Nat) (isKey : Bool) (bm : BlockManager) (offset : Nat) :
    Option (Except String Unit × BlockManager) :=
  let pos := startPos + offset
  let blockIdx := pos / bm.blockSize
  let intraPos := pos % bm.blockSize
  match blockIds[blockIdx]? with
  | none =>
    some (.error (s!"write_kv: position {pos} (block_idx={blockIdx}) out of range for " ++
      s!"'{requestId}' ({blockIds.length} blocks)"), bm)
  | some bid =>
    match bm.blocks[bid]? with
    | none => some (.error s!"write_kv: block {bid} not found", bm)
    | some (.plain _) =>
      some (.error s!"write_kv: block {bid} is Plain, not Cached. Use new_with_cache.", bm)
    | some (.cached kv) =>
      let src := offset * hiddenDim
      let dst := intraPos * hiddenDim
      if dst + hiddenDim ≤ (kv.cache isKey).length ∧ src + hiddenDim ≤ data.length then
        some (.ok (), bm.modifyBlock bid fun _ => .cached
          (kv.setCache isKey (overwrite (kv.cache isKey) dst (slice data src hiddenDim))))
      else none

/-- `for offset in 0..num_tokens`, leaving the loop at the first error. -/
def writeRows (blockIds : List Nat) (requestId : String) (startPos : Nat) (data : List F32)
    (hiddenDim : Nat) (isKey : Bool) : List Nat → BlockManager →
    Option (Except String Unit × BlockManager)
  | [], bm => some (.ok (), bm)
  | offset :: rest, bm =>
    match writeRow blockIds requestId startPos data hiddenDim isKey bm offset with
    | some (.ok (), bm') =>
      writeRows blockIds requestId startPos data hiddenDim isKey rest bm'
    | stopped => stopped

/-- Write one tensor's worth of rows into the cache blocks of a request. -/
def writeKv (startPos : Nat) (data : List F32)
    (hiddenDim : Nat) (isKey : Bool) : Option (Except String Unit × BlockManager) :=
  match bm.getBlocks requestId with
  | .error e => some (.error e, bm)
  | .ok blockIds =>
    if hiddenDim = 0 then none
    else if data.length % hiddenDim ≠ 0 then
      some (.error (s!"write_kv: data.len()={data.length} not divisible by " ++
        s!"hidden_dim={hiddenDim}"), bm)
    else writeRows blockIds requestId startPos data hiddenDim isKey
      (range (data.length / hiddenDim)) bm

/-- `for pos in 0..up_to_pos` of `read_kv`, filling both output buffers. -/
def readRows (bm : BlockManager) (blockIds : List Nat) (hiddenDim : Nat) :
    List Nat → List F32 × List F32 → Option (Except String (List F32 × List F32))
  | [], out => some (.ok out)
  | pos :: rest, out =>
    let intraPos := pos % bm.blockSize
    match blockIds[pos / bm.blockSize]? with
    | none => some (.ok out)
    | some bid =>
      match bm.blocks[bid]? with
      | none => some (.error s!"read_kv: block {bid} not found")
      | some (.plain _) => some (.error s!"read_kv: block {bid} is Plain, not Cached.")
      | some (.cached kv) =>
        let src := intraPos * hiddenDim
        let dst := pos * hiddenDim
        if src + hiddenDim ≤ kv.keyCache.length ∧ src + hiddenDim ≤ kv.valueCache.length then
          readRows bm blockIds hiddenDim rest
            (overwrite out.1 dst (slice kv.keyCache src hiddenDim),
              overwrite out.2 dst (slice kv.valueCache src hiddenDim))
        else none

/-- Read all cached K/V up to (but not including) `upToPos`. -/
def readKv (upToPos hiddenDim : Nat) : Option (Except String (List F32 × List F32)) :=
  match bm.getBlocks requestId with
  | .error e => some (.error e)
  | .ok blockIds =>
    let zeros := replicate (upToPos * hiddenDim) (0 : F32)
    readRows bm blockIds hiddenDim (range upToPos) (zeros, zeros)

/-- Zero the cached data of a finished request and release its blocks. -/
def flushRequest : BlockManager :=
  match bm.blockTables.lookup requestId with
  | none => bm
  | some blockIds =>
    (blockIds.foldl (fun bm bid => bm.modifyBlock bid BlockEntry.zeroFill) bm).free requestId

end BlockManager

end CompileForge.Runtime
