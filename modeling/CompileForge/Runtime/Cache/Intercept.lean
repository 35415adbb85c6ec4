/-
  The KV cache hooks of the graph executor (`runtime/src/cache/intercept.rs`):
  what is written to the block manager when a function produces a K or V
  tensor, and what a consumer of that tensor is given.  The outer `Option` is `none`
  where the code panics.
-/

import CompileForge.Runtime.Cache.Block

namespace CompileForge.Runtime

open Lib List

/-- An `f32` tensor: `as_slice()` is the data, with as many elements as its shape says. -/
structure Tensor where
  shape : List Nat
  data : List F32
deriving DecidableEq, Repr

/-- Of a slab only `dims` is read. -/
structure SlabSpec where
  dims : AList (fun _ : String => Nat)

/-- A function output descriptor. -/
structure IOTensorDef where
  consumedInternally : Bool
deriving DecidableEq, Repr

/-- `kv_new`: the K/V tensors of this forward pass by function and output. -/
abbrev KvNew := AList (fun _ : Nat × Nat => Tensor)

/-- The table of a request for one function. -/
def layerRid (requestId : String) (fi : Nat) : String := s!"{requestId}_f{fi}"

/-! ## Transposition -/

/-- The copy of one head of one position, `none` if the source is too short. -/
def copyHead (nh hd : Nat) (srcOff : Nat → Nat → Nat) (src : List F32) (p : Nat)
    (dst : List F32) (h : Nat) : Option (List F32) :=
  if srcOff p h + hd ≤ src.length then
    some (overwrite dst (p * (nh * hd) + h * hd) (slice src (srcOff p h) hd))
  else none

/-- The loops that all three transpositions share; they differ in the source offset. -/
def copyHeads (numTokens nh hd : Nat) (srcOff : Nat → Nat → Nat) (src : List F32) :
    Option (List F32) :=
  (range numTokens).foldlM
    (fun dst p => (range nh).foldlM (copyHead nh hd srcOff src p) dst)
    (replicate (numTokens * (nh * hd)) 0)

/-- The source offset in a BNSD tensor whose position axis has length `sl`. -/
def bnsdOffset (sl hd p h : Nat) : Nat := h * (sl * hd) + p * hd

/-- The first axis after the batch axis whose size satisfies `ok`. -/
def findAxis (shape : List Nat) (ok : Nat → Bool) : Option Nat :=
  ((shape.zipIdx.drop 1).find? fun e => ok e.1).map Prod.snd

def strides : List Nat → List Nat
  | [] => []
  | _ :: rest => rest.prod :: strides rest

/-- One row of `nh * hd` elements for each token; a copy out of range panics. -/
def transposeToBnldFromSlab (tensor : Tensor) (numTokens nh hd : Nat) : Option (List F32) :=
  if tensor.shape.length < 4 then some tensor.data
  else if tensor.shape.headD 0 ≠ 1 then some tensor.data
  else
    let axisSeq := findAxis tensor.shape fun s => s = numTokens ∧ s ≠ nh ∧ s ≠ hd
    let axisHeads := findAxis tensor.shape fun s => s = nh
    let axisDim := findAxis tensor.shape fun s => s = hd
    match axisSeq, axisHeads, axisDim with
    | some s, some h, some d =>
      if s ≠ h ∧ s ≠ d ∧ h ≠ d then
        let st := strides tensor.shape
        copyHeads numTokens nh hd (fun p i => p * st.getD s 0 + i * st.getD h 0) tensor.data
      else copyHeads numTokens nh hd (bnsdOffset (tensor.shape.getD 2 0) hd) tensor.data
    | _, _, _ => copyHeads numTokens nh hd (bnsdOffset (tensor.shape.getD 2 0) hd) tensor.data

/-! ## Producing a K or V tensor -/

def isKeyOutput (funcDefOutputs : List IOTensorDef) (oi : Nat) (overrideIsKey : Bool) : Bool :=
  let kvIndices := (funcDefOutputs.zipIdx.filter fun o => o.1.consumedInternally).map Prod.snd
  if kvIndices.length = 1 ∧ funcDefOutputs.length = 1 ∧
      funcDefOutputs.any (·.consumedInternally) then overrideIsKey
  else kvIndices.head? = some oi

/-- The head count and dimension the hooks work with: the slab's where given. -/
def headDims (slab : Option SlabSpec) (tensor : Tensor) : Option (Nat × Nat) := do
  -- `unwrap_or` evaluates the two shape entries in every case
  let shapeHeads ← tensor.shape[1]?
  let shapeDim ← tensor.shape[3]?
  match slab with
  | some s => some ((s.dims.lookup "heads").getD shapeHeads, (s.dims.lookup "dim").getD shapeDim)
  | none => some (shapeHeads, shapeDim)

/-- The rows handed to `write_kv`. -/
def writeData (tensor : Tensor) (slab : Option SlabSpec) (numTokens nh hd : Nat) :
    Option (List F32) :=
  if slab.isSome ∧ 4 ≤ tensor.shape.length ∧ 0 < numTokens then
    transposeToBnldFromSlab tensor numTokens nh hd
  else if 4 ≤ tensor.shape.length ∧ 1 < numTokens then
    copyHeads numTokens nh hd (bnsdOffset (tensor.shape.getD 2 0) hd) tensor.data
  else some tensor.data

/-- The first position that is written; an empty `positions` panics in decode. -/
def writeStart (positions : List UInt32) (isDecode : Bool) : Option Nat :=
  if isDecode then positions.head?.map UInt32.toNat else some 0

/-- Called after a `consumed_internally` output has been produced. -/
def interceptConsumedOutput (fi oi : Nat) (tensor : Tensor) (kvNew : KvNew)
    (blockManager : Option BlockManager) (requestId : Option String) (positions : List UInt32)
    (isDecode : Bool) (funcDefOutputs : List IOTensorDef) (slab : Option SlabSpec)
    (overrideIsKey : Bool) : Option (Except String Unit × KvNew × Option BlockManager) :=
  let kvNew' := kvNew.insert (fi, oi) tensor
  match blockManager, requestId with
  | none, _ => some (.ok (), kvNew', none)
  | some bm, none =>
    some (.error "intercept_consumed_output: request_id required when block_manager is set",
      kvNew', some bm)
  | some bm, some rid => do
      let (nh, hd) ← headDims slab tensor
      let startPos ← writeStart positions isDecode
      let data ← writeData tensor slab positions.length nh hd
      let isKey := isKeyOutput funcDefOutputs oi overrideIsKey
      -- an `Err` of `write_kv` is only logged
      let written ← bm.writeKv (layerRid rid fi) startPos data (nh * hd) isKey
      some (.ok (), kvNew', some written.2)

/-! ## Consuming a K or V tensor -/

/-- Whether output `oi` is the K output: by the packed flags, else by the descriptors. -/
def readsKey (producerOutputs : List IOTensorDef) (outputIdx : Nat)
    (consumedSubFlags : Option (List Bool)) : Bool :=
  match consumedSubFlags with
  | some flags => flags.findIdx? id = some outputIdx
  | none =>
    let kvIndices := (producerOutputs.zipIdx.filter fun o => o.1.consumedInternally).map Prod.snd
    kvIndices.head? = some outputIdx

/-- Head `h` of position `p` of flat rows, `none` if they are too short. -/
def headRow (nh hd : Nat) (bnld : List F32) (h p : Nat) : Option (List F32) :=
  let off := p * (nh * hd) + h * hd
  if off + hd ≤ bnld.length then some (slice bnld off hd) else none

def toBnsd (nh hd totalTokens : Nat) (bnld : List F32) : Option (List F32) := do
  let heads ← (range nh).mapM fun h => (range totalTokens).mapM (headRow nh hd bnld h)
  some (heads.map flatten).flatten

/-- The cached rows before the new ones, as BNSD where the new tensor has four axes. -/
def concatCached (newTensor : Tensor) (nh hd : Nat) (cachedData : List F32) : Option Tensor :=
  let hiddenDim := nh * hd
  let cachedTokens := cachedData.length / max hiddenDim 1
  let newTokens := newTensor.shape.prod / max hiddenDim 1
  let totalTokens := cachedTokens + newTokens
  let bnld := cachedData ++ newTensor.data
  if 4 ≤ newTensor.shape.length then
    (toBnsd nh hd totalTokens bnld).map fun data => ⟨[1, nh, totalTokens, hd], data⟩
  else some ⟨[1, totalTokens, hiddenDim], bnld⟩

/-- What a consumer is given: the cached rows and the new ones, or the stored tensor. -/
def interceptConsumedInput (producerFunc outputIdx : Nat) (producerOutputs : List IOTensorDef)
    (kvNew : KvNew) (blockManager : Option BlockManager) (requestId : Option String)
    (positions : List UInt32) (isDecode : Bool) (slab : Option SlabSpec)
    (consumedSubFlags : Option (List Bool)) : Option (Except String Tensor) :=
  match kvNew.lookup (producerFunc, outputIdx) with
  | none =>
    some (.error (s!"intercept_consumed_input: func_{producerFunc} output_{outputIdx} is " ++
      "consumed_internally but no KV data available (funcs must execute in topological order)"))
  | some newTensor =>
    if isDecode = false then some (.ok newTensor)
    else
      match blockManager with
      | none => some (.ok newTensor)
      | some bm => do
          let pos ← positions.head?
          let (nh, hd) ← headDims slab newTensor
          match requestId with
          | none =>
            some (.error ("intercept_consumed_input: request_id required when " ++
              "block_manager is set"))
          | some rid =>
            match ← bm.readKv (layerRid rid producerFunc) pos.toNat (nh * hd) with
            | .error e => some (.error s!"intercept_consumed_input: read_kv: {e}")
            | .ok (cachedKey, cachedVal) =>
              let isK := readsKey producerOutputs outputIdx consumedSubFlags
              let concat ← concatCached newTensor nh hd (if isK then cachedKey else cachedVal)
              some (.ok concat)

end CompileForge.Runtime
