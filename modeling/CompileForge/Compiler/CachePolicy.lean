/-
  The cache policies of the compiler (`compiler/cache_policy.py`): the factories for the
  model families, `bind_cache_policy` and `serialize_cache_policy`.
-/

import CompileForge.Compiler.Split
import CompileForge.Lib.Outcome

namespace CompileForge.Compiler

open Abi

def SlabSpec.float32 (slabId storage : String) (dims : List (String × Nat)) (layout : String) :
    SlabSpec := ⟨slabId, storage, dims, layout, "float32"⟩

/-- An intercept that reads and writes, layer by layer, not bound to an output. -/
def InterceptSpec.unbound (slabId opName source : String) : InterceptSpec :=
  ⟨slabId, opName, "read_write", source, "sequential", none, none⟩

def kvSlab (slabId : String) (numLayers numKvHeads headDim : Nat) : SlabSpec :=
  .float32 slabId "paged" [("layers", numLayers), ("heads", numKvHeads), ("dim", headDim)] "BNLD"

def kvIntercepts : List InterceptSpec :=
  [.unbound "k" sdpaName "operand[1]", .unbound "v" sdpaName "operand[2]"]

def CachePolicy.forLlama (numLayers numKvHeads headDim blockSize : Nat) : CachePolicy where
  slabs := [kvSlab "k" numLayers numKvHeads headDim, kvSlab "v" numLayers numKvHeads headDim]
  intercepts := kvIntercepts
  blockSize := blockSize
  maxRequests := 256

/-- The numbers `CachePolicy.for_mixed_linear` is called with. -/
structure MixedLinear where
  numFullLayers : Nat
  numLinearLayers : Nat
  numKvHeads : Nat
  headDim : Nat
  linearNumKeyHeads : Nat
  linearNumValueHeads : Nat
  linearKeyHeadDim : Nat
  linearValueHeadDim : Nat
  linearConvKernelDim : Nat
  blockSize : Nat

def CachePolicy.forMixedLinear (m : MixedLinear) : CachePolicy where
  slabs :=
    [kvSlab "k" m.numFullLayers m.numKvHeads m.headDim,
      kvSlab "v" m.numFullLayers m.numKvHeads m.headDim,
      .float32 "recurrent_state" "fixed"
        [("layers", m.numLinearLayers), ("heads", m.linearNumValueHeads),
          ("key_dim", m.linearKeyHeadDim), ("value_dim", m.linearValueHeadDim)] "BHKV",
      .float32 "conv_state" "fixed"
        [("layers", m.numLinearLayers), ("channels", m.linearNumKeyHeads * m.linearKeyHeadDim * 2 +
            m.linearNumValueHeads * m.linearValueHeadDim),
          ("kernel", m.linearConvKernelDim)] "BCK"]
  intercepts := kvIntercepts ++ [.unbound "recurrent_state" "linear_attn" "recurrent_state",
      .unbound "conv_state" "linear_attn" "conv_state"]
  blockSize := m.blockSize
  maxRequests := 256

def CachePolicy.forRwkv (numLayers stateDim maxRequests : Nat) : CachePolicy where
  slabs := [.float32 "state" "fixed" [("layers", numLayers), ("dim", stateDim)] "RLD"]
  intercepts := [.unbound "state" "state_evolve" "output"]
  blockSize := 16
  maxRequests := maxRequests

variable (policy : CachePolicy)

def boundIntercept (b : Nat × Nat × String) : InterceptSpec :=
  let template := policy.intercepts.reverse.find? fun i => i.opName = sdpaName ∧ i.slabId = b.2.2
  { slabId := b.2.2
    opName := sdpaName
    direction := (template.map (·.direction)).getD "read_write"
    source := (template.map (·.source)).getD "operand[1]"
    layer := (template.map (·.layer)).getD "sequential"
    funcIndex := some b.1
    outputIndex := some b.2.1 }

/-- The attention intercepts are expanded into the bound ones. -/
def bindCachePolicy (bindings : List (Nat × Nat × String)) : CachePolicy :=
  if bindings = [] then policy
  else
    { policy with
      intercepts := (policy.intercepts.filter fun i => i.opName ≠ sdpaName) ++
        bindings.map (boundIntercept policy) }

/-! ## Serialization -/

/-- Serializing fails on a number that does not fit a `uint32`. -/
def uint32 (n : Nat) : Option Nat := if n < 2 ^ 32 then some n else none

variable (slab : SlabSpec)

def SlabSpec.dim (key : String) : Nat := (slab.dims.lookup key).getD 0

def serializeSlab : Option SfaSlabSpec := do
  let numBlocks ← uint32 (slab.dim "blocks")
  let blockSize ← uint32 policy.blockSize
  let numLayers ← uint32 (slab.dim "layers")
  let numHeads ← uint32 (slab.dim "heads")
  let headDim ← uint32 (slab.dim "dim")
  some ⟨slab.slabId, slab.storage, slab.layout, slab.dtype, numBlocks, blockSize, numLayers,
    numHeads, headDim⟩

variable (i : InterceptSpec)

/-- An intercept; an index that is not set is left out of `param_indices`. -/
def serializeIntercept : Option SfaInterceptSpec := do
  let paramIndices ← (i.funcIndex.toList ++ i.outputIndex.toList).mapM uint32
  some ⟨i.slabId, i.opName, i.direction, i.source, i.layer, paramIndices⟩

def serializeCachePolicy : Option SfaCachePolicy := do
  let slabs ← policy.slabs.mapM (serializeSlab policy)
  let intercepts ← policy.intercepts.mapM serializeIntercept
  let blockSize ← uint32 policy.blockSize
  let maxRequests ← uint32 policy.maxRequests
  some ⟨slabs, intercepts, blockSize, maxRequests⟩

/-! ## What is serialized -/

def InterceptSpec.indices : List Nat :=
  i.funcIndex.toList ++ i.outputIndex.toList

def SlabSpec.Fits : Prop :=
  slab.dim "blocks" < 2 ^ 32 ∧ slab.dim "layers" < 2 ^ 32 ∧ slab.dim "heads" < 2 ^ 32 ∧
    slab.dim "dim" < 2 ^ 32
deriving Decidable

structure CachePolicy.Fits : Prop where
  slabs : ∀ slab ∈ policy.slabs, slab.Fits
  intercepts : ∀ i ∈ policy.intercepts, ∀ n ∈ i.indices, n < 2 ^ 32
  blockSize : policy.blockSize < 2 ^ 32
  maxRequests : policy.maxRequests < 2 ^ 32

def SlabSpec.message (blockSize : Nat) (slab : SlabSpec) : SfaSlabSpec :=
  ⟨slab.slabId, slab.storage, slab.layout, slab.dtype, slab.dim "blocks", blockSize,
    slab.dim "layers", slab.dim "heads", slab.dim "dim"⟩

def InterceptSpec.message : SfaInterceptSpec :=
  ⟨i.slabId, i.opName, i.direction, i.source, i.layer, i.indices⟩

def CachePolicy.message : SfaCachePolicy :=
  ⟨policy.slabs.map (·.message policy.blockSize), policy.intercepts.map (·.message),
    policy.blockSize, policy.maxRequests⟩

theorem uint32_eq_some (n k : Nat) : uint32 n = some k ↔ n < 2 ^ 32 ∧ k = n := by
  unfold uint32
  by_cases h : n < 2 ^ 32
  · rw [if_pos h, Option.some_inj, and_iff_right h, eq_comm]
  · rw [if_neg h]
    constructor
    · intro hk
      cases hk
    · exact fun hk => absurd hk.1 h

theorem serializeIntercept_eq_some (c : SfaInterceptSpec) :
    serializeIntercept i = some c ↔ (∀ n ∈ i.indices, n < 2 ^ 32) ∧ c = i.message := by
  have hindices : ∀ ps, i.indices.mapM uint32 = some ps ↔
      (∀ n ∈ i.indices, n < 2 ^ 32) ∧ ps = i.indices := fun ps => by
    rw [Lib.mapM_eq_some_iff uint32_eq_some, List.map_id']
  refine (Lib.bind_fits hindices).trans ?_
  rw [Option.some_inj, eq_comm]
  rfl

theorem serializeSlab_eq_some (c : SfaSlabSpec) : serializeSlab policy slab = some c ↔
      (policy.blockSize < 2 ^ 32 ∧ slab.Fits) ∧ c = slab.message policy.blockSize := by
  simp only [serializeSlab, Lib.bind_fits (uint32_eq_some _), Option.some_inj, SlabSpec.Fits,
    and_assoc, eq_comm (b := c)]
  exact and_left_comm

theorem serializeCachePolicy_eq_some {policy : CachePolicy} {m : SfaCachePolicy} :
    serializeCachePolicy policy = some m ↔ policy.Fits ∧ m = policy.message := by
  rw [serializeCachePolicy,
    Lib.bind_fits fun _ => Lib.mapM_eq_some_iff (serializeSlab_eq_some policy),
    Lib.bind_fits fun _ => Lib.mapM_eq_some_iff serializeIntercept_eq_some,
    Lib.bind_fits (uint32_eq_some _), Lib.bind_fits (uint32_eq_some _), Option.some_inj]
  constructor
  · rintro ⟨hslabs, hintercepts, hblock, hrequests, rfl⟩
    exact ⟨⟨fun slab hslab => (hslabs slab hslab).2, hintercepts, hblock, hrequests⟩, rfl⟩
  · rintro ⟨hfits, rfl⟩
    exact ⟨fun slab hslab => ⟨hfits.blockSize, hfits.slabs slab hslab⟩, hfits.intercepts,
      hfits.blockSize, hfits.maxRequests, rfl⟩

end CompileForge.Compiler
