/-
  The cache policy a model carries (`runtime/src/cache/policy.rs`), and the two
  questions the graph runner asks it about a function output.
-/

import CompileForge.Runtime.Model.ComputeGraph

namespace CompileForge.Runtime

structure CacheSlab extends SlabSpec where
  slabId : String
  storage : String
  layout : String
  dtype : String

/-- When and how the executor intercepts an output for cache I/O. -/
structure InterceptSpec where
  slabId : String
  opName : String
  direction : String
  source : String
  layer : String
  funcIndex : Nat
  outputIndex : Nat
deriving DecidableEq, Repr

structure CachePolicy where
  slabs : List CacheSlab
  intercepts : List InterceptSpec
  blockSize : Nat
  maxRequests : Nat

def CachePolicy.none : CachePolicy where
  slabs := []
  intercepts := []
  blockSize := 16
  maxRequests := 256

/-- The intercepts decide where there are any, else the flag of the output. -/
def shouldInterceptConsumed (fi oi : Nat) (cachePolicy : CachePolicy) (ioDef : GraphTensorDef) :
    Bool :=
  if cachePolicy.intercepts.isEmpty then ioDef.consumedInternally
  else cachePolicy.intercepts.any fun i => i.funcIndex = fi ∧ i.outputIndex = oi

/-- `find_slab_for_intercept` of `engine/compute_graph_runner.rs`. -/
def findSlabForIntercept (cachePolicy : CachePolicy) (fi oi : Nat) : Option CacheSlab := do
  let intercept ← cachePolicy.intercepts.find? fun i => i.funcIndex = fi ∧ i.outputIndex = oi
  cachePolicy.slabs.find? fun s => s.slabId = intercept.slabId

end CompileForge.Runtime
