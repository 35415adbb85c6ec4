/-
  The messages of `include/sfa_abi.proto` that the compiler writes into a dylib and
  the runtime reads back.  What is decoded is the message that was encoded; an enumeration has
  no unknown values, and a `oneof` is an `Option`.
-/

import Mathlib.Algebra.Group.Nat.Defs
import Mathlib.Data.List.Basic

namespace CompileForge.Abi

inductive SfaInputKind where
  | global
  | weight
  | ssa
deriving DecidableEq, Repr

/-- A producer function's output: an index into `SfaAbiHeader.funcs`, and one of its outputs. -/
structure SfaSsaRef where
  producerFunc : Nat
  producerOut : Nat
deriving DecidableEq, Repr

inductive Binding where
  | weightName (name : String)
  | ssa (ref : SfaSsaRef)
deriving DecidableEq, Repr

structure SfaInputField where
  kind : SfaInputKind
  binding : Option Binding
  rank : Nat
  dims : List Nat
  dtype : String
deriving DecidableEq, Repr

/-- A single output tensor of a function; a dimension of 0 is dynamic. -/
structure OutputDescriptor where
  rank : Nat
  dims : List Nat
  consumedInternally : Bool
  dtype : String
deriving DecidableEq, Repr

structure SfaFuncMeta where
  symbol : String
  numInputs : Nat
  outputRank : Nat
  inputFields : List SfaInputField
  outputs : List OutputDescriptor
  consumedSubOutputFlags : List Bool
deriving DecidableEq, Repr

structure SfaAbiHeader where
  magic : Nat
  version : Nat
  funcs : List SfaFuncMeta
deriving DecidableEq, Repr

/-! ## The execution plan -/

inductive EdgeSource where
  | globalInput
  | stepOutput
deriving DecidableEq, Repr

/-- One function argument: an index into the global inputs, or a step and its output index. -/
structure EdgeInput where
  source : EdgeSource
  sourceIndex : Nat
  producerStep : Nat
deriving DecidableEq, Repr

structure ExecutionStep where
  funcName : String
  inputs : List EdgeInput
deriving DecidableEq, Repr

structure ExecutionPlan where
  globalInputs : List String
  steps : List ExecutionStep
deriving DecidableEq, Repr

/-! ## The weight data -/

structure SfaWeightEntry where
  compiledName : String
  hfKey : String
deriving DecidableEq, Repr

/-- An embedded constant tensor.  Its data fit in memory. -/
structure SfaConstant where
  name : String
  dtypeCode : Nat
  shape : List Nat
  data : List UInt8
  dataFits : data.length < 2 ^ 63
deriving DecidableEq, Repr

structure SfaWeightData where
  weightEntries : List SfaWeightEntry
  constantEntries : List SfaConstant
deriving DecidableEq, Repr

/-! ## The cache policy -/

structure SfaSlabSpec where
  name : String
  slabType : String
  layout : String
  dtype : String
  numBlocks : Nat
  blockSize : Nat
  numLayers : Nat
  numHeads : Nat
  headDim : Nat
deriving DecidableEq, Repr

structure SfaInterceptSpec where
  slabId : String
  opNamePattern : String
  interceptType : String
  source : String
  layer : String
  paramIndices : List Nat
deriving DecidableEq, Repr

structure SfaCachePolicy where
  slabs : List SfaSlabSpec
  intercepts : List SfaInterceptSpec
  blockSize : Nat
  maxRequests : Nat
deriving DecidableEq, Repr

end CompileForge.Abi
