/-
  The compiler's side of the function ABI (`compiler/sfa_abi.py`):
  `merge_with_semantics` routes the inputs of each function along the execution plan,
  and `serialize_abi` writes the header.
-/

import CompileForge.Abi.Messages
import Mathlib.Data.List.AList

namespace CompileForge.Compiler

open Abi

def sfaMagic : Nat := 0x41464253

def sfaVersion : Nat := 1

/-- `(rank, dims, dtype)` of a lowered tensor type. -/
structure LoweredType where
  rank : Nat
  dims : List Nat
  dtype : String
deriving DecidableEq, Repr

/-- An entry `(name, type, consumed)` of a function's outputs. -/
structure FuncOutput where
  name : String
  typeStr : String
  consumed : Bool
deriving DecidableEq, Repr

/-- A table that may be `None` in the code is empty here. -/
structure PreLoweringFunc where
  name : String
  outputs : List FuncOutput
deriving DecidableEq, Repr

inductive InputFieldKind where
  | global
  | weight (weightName : String)
  | ssa (producerFunc producerOut : Nat)
deriving DecidableEq, Repr

/-- `spec` holds `rank`, `dims` and `dtype` where these keys are set. -/
structure InputField where
  kind : InputFieldKind
  spec : Option LoweredType
deriving DecidableEq, Repr

structure FuncMeta where
  symbol : String
  outputRank : Nat
  inputFields : List InputField
  outputs : List OutputDescriptor
  consumedSubOutputFlags : List Bool
deriving DecidableEq, Repr

/-- The C interface wrapper of a function. -/
def cifaceSymbol (name : String) : String := "_mlir_ciface_" ++ name

/-! ## Merging -/

/-- An input is a global one, or an output of an earlier function. -/
def edgeField (edge : EdgeInput) : InputField :=
  match edge.source with
  | .globalInput => { kind := .global, spec := none }
  | .stepOutput => { kind := .ssa edge.sourceIndex edge.producerStep, spec := none }

/-- Promoted weights, each name once; embedded constants are not arguments. -/
def weightFields (names : List String) : List InputField :=
  (names.eraseDups.filter fun wname => !wname.startsWith "_const_").map fun wname =>
    { kind := .weight wname, spec := none }

def populateTypes (types : List LoweredType) (fields : List InputField) : List InputField :=
  fields.zipIdx.map fun e =>
    match types[e.2]? with
    | some t => { e.1 with spec := some t }
    | none => e.1

/-- Descriptors of the outputs, with the consumed flags, by position where the counts agree. -/
def outputDescs (outputRank : Nat) (lowered : Option (List LoweredType))
    (preOutputs : List FuncOutput) : List OutputDescriptor :=
  let descs : List OutputDescriptor :=
    match lowered with
    | some types => types.map fun t => ⟨t.rank, t.dims, false, t.dtype⟩
    | none => [⟨outputRank, List.replicate outputRank 0, false, "f32"⟩]
  if preOutputs = [] then descs
  else if preOutputs.length = descs.length then
    descs.zipWith (fun d out => { d with consumedInternally := out.consumed }) preOutputs
  else
    match descs with
    | [] => []
    | d :: rest => { d with consumedInternally := preOutputs.any (·.consumed) } :: rest

/-- The tables `merge_with_semantics` combines with the functions and the plan. -/
structure LoweredTables where
  signatures : AList fun _ : String => Nat × Nat
  argTypes : AList fun _ : String => List LoweredType
  outputTypes : AList fun _ : String => List LoweredType
  weightNames : AList fun _ : String => List String

variable (tables : LoweredTables)

def inputFields (plan : ExecutionPlan) (fi : Nat) (func : PreLoweringFunc) : List InputField :=
  let fields :=
    match plan.steps.find? fun s => s.funcName = func.name with
    | some step =>
      step.inputs.map edgeField ++
        if fi = 0 then weightFields ((tables.weightNames.lookup func.name).getD []) else []
    | none => []
  match tables.argTypes.lookup func.name with
  | some types => populateTypes types fields
  | none => fields

def funcMeta (plan : ExecutionPlan) (fi : Nat) (func : PreLoweringFunc)
    (signature : Nat × Nat) : FuncMeta where
  symbol := cifaceSymbol func.name
  outputRank := signature.2
  inputFields := inputFields tables plan fi func
  outputs := outputDescs signature.2 (tables.outputTypes.lookup func.name) func.outputs
  consumedSubOutputFlags := func.outputs.map (·.consumed)

/-- The path with `execution_plan_bytes`; the name matching used without a plan is left out. -/
def mergeWithSemantics (functions : List PreLoweringFunc) (plan : ExecutionPlan) : List FuncMeta :=
  functions.zipIdx.filterMap fun e =>
    (tables.signatures.lookup (cifaceSymbol e.1.name)).map (funcMeta tables plan e.2 e.1)

def serializeField (field : InputField) : SfaInputField :=
  let kind : SfaInputKind × Option Binding :=
    match field.kind with
    | .global => (.global, none)
    | .weight name => (.weight, some (.weightName name))
    | .ssa f o => (.ssa, some (.ssa ⟨f, o⟩))
  let spec := field.spec.getD ⟨0, [], ""⟩
  ⟨kind.1, kind.2, spec.rank, spec.dims, spec.dtype⟩

def serializeAbi (metas : List FuncMeta) : SfaAbiHeader where
  magic := sfaMagic
  version := sfaVersion
  funcs := metas.map fun m =>
    { symbol := m.symbol
      numInputs := m.inputFields.length
      outputRank := m.outputRank
      inputFields := m.inputFields.map serializeField
      outputs := m.outputs
      consumedSubOutputFlags := m.consumedSubOutputFlags }

end CompileForge.Compiler
