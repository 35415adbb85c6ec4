/-
  The op plan of `include/sfa_abi.proto`: the nodes that replace the covered functions.  The
  tensor descriptors and lifetimes of the outputs, and `global_output`, are written by the
  compiler and read by nobody.
-/

import Mathlib.Data.List.Basic

namespace CompileForge.Abi

structure OpTensorSpec where
  rank : Nat
  dims : List Nat
  dtype : String
deriving DecidableEq, Repr

/-- Output `outputIndex` of node `nodeIndex`. -/
structure OpPlanRef where
  nodeIndex : Nat
  outputIndex : Nat
deriving DecidableEq, Repr

/-- Output `outputIndex` of function `funcIndex`. -/
structure OpPlanFuncRef where
  funcIndex : Nat
  outputIndex : Nat
deriving DecidableEq, Repr

inductive OpPlanSource where
  | global
  | weight
  | ssa
  | constant
  | funcOutput
deriving DecidableEq, Repr

/-- An open enumeration is the integer on the wire; this is prost's reading of it. -/
def OpPlanSource.tryFrom (n : Int) : Option OpPlanSource :=
  if n = 0 then some .global
  else if n = 1 then some .weight
  else if n = 2 then some .ssa
  else if n = 3 then some .constant
  else if n = 4 then some .funcOutput
  else none

inductive OpPlanBinding where
  | globalIndex (idx : Nat)
  | weightName (name : String)
  | producer (ref : OpPlanRef)
  | constantName (name : String)
  | funcProducer (ref : OpPlanFuncRef)
deriving DecidableEq, Repr

structure OpPlanInput where
  source : Int
  binding : Option OpPlanBinding
  spec : Option OpTensorSpec
deriving DecidableEq, Repr

/-- The function output that the K/V hooks see in place of a node output. -/
structure OpPlanCacheIntercept where
  slabId : String
  sourceFuncIndex : Nat
  sourceOutputIndex : Nat
deriving DecidableEq, Repr

structure OpPlanOutput where
  cache : Option OpPlanCacheIntercept
deriving DecidableEq, Repr

structure OpPlanNode where
  index : Nat
  opName : String
  inputs : List OpPlanInput
  outputs : List OpPlanOutput
  sourceFuncIndices : List Nat
  attributes : List (String × String)
deriving DecidableEq, Repr

structure OpPlanFuncOutput where
  funcIndex : Nat
  outputIndex : Nat
  value : Option OpPlanRef
  consumedInternally : Bool
deriving DecidableEq, Repr

structure OpPlan where
  globalInputs : List String
  nodes : List OpPlanNode
  funcOutputs : List OpPlanFuncOutput
deriving DecidableEq, Repr

end CompileForge.Abi
