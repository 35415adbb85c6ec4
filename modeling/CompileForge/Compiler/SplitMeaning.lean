/-
  What a split program means: the functions are evaluated in order, and the plan's edges bind
  their inputs.
-/

import CompileForge.Compiler.Split
import CompileForge.Lib.StraightLine

namespace CompileForge.Compiler

open Abi Lib.StraightLine

/-! ## Evaluation -/

/-- What the meaning of an op depends on besides its operands. -/
abbrev OpCode := String × List (String × Attr)

/-- An op as an instruction. A weight's operand is its own name. -/
def MlirOp.instr (op : MlirOp) : Instr String OpCode where
  op := (op.opName, op.attributes)
  args := if op.opName = "weight" then [] else op.operands.map ssaKey
  results := op.results.map ssaKey

def program (ops : List MlirOp) : List (Instr String OpCode) := ops.map MlirOp.instr

variable {V : Type}

/-- Every op is an arbitrary function of its operands and attributes. -/
abbrev Interp (V : Type) := OpCode → List V → Nat → V

def bindNames (names : List String) (values : List V) : Env String V := fun n =>
  values[names.idxOf n]?

theorem isSome_bindNames {names : List String} {values : List V}
    (hlen : values.length = names.length) {n : String} :
    (bindNames names values n).isSome = true ↔ n ∈ names := by
  rw [bindNames, Option.isSome_iff_ne_none, ne_eq, List.getElem?_eq_none_iff, hlen, not_le,
    List.idxOf_lt_length_iff]

def inputKeys (inputs : List (String × String)) : List String := inputs.map fun i => ssaKey i.1

variable (interp : Interp V) (values : List V) (outs : List (List V))

def evalOps (env : Env String V) (ops : List MlirOp) : Option (Env String V) :=
  run interp env (program ops)

def outputAt (f o : Nat) : Option V :=
  outs[f]?.bind fun (vs : List V) => vs[o]?

/-- The value an edge delivers, from the global inputs and the outputs of the functions before. -/
def deliver (edge : EdgeInput) : Option V :=
  match edge.source with
  | .globalInput => values[edge.sourceIndex]?
  | .stepOutput => outputAt outs edge.sourceIndex edge.producerStep

def evalBody (func : MlirFunction) (step : ExecutionStep) : Option (Env String V) := do
  let args ← step.inputs.mapM (deliver values outs)
  evalOps interp (bindNames (inputKeys func.inputs) args) func.ops

def evalFunction (func : MlirFunction) (step : ExecutionStep) : Option (List V) := do
  let env ← evalBody interp values outs func step
  func.outputs.mapM fun o => env (ssaKey o.name)

/-- The functions in order, each bound by its step of the plan. -/
def evalSteps (steps : List (MlirFunction × ExecutionStep)) : Option (List (List V)) :=
  steps.foldlM (fun outs e => do
    let o ← evalFunction interp values outs e.1 e.2
    some (outs ++ [o])) outs

def evalFunctions (r : SplitResult) : Option (List (List V)) :=
  evalSteps interp values [] (r.functions.zip r.plan.steps)

/-- Every name is defined once, before its uses. -/
structure SsaProgram (blocks : List (List MlirOp)) (args : SplitArgs) : Prop where
  distinct : (inputKeys args.globalInputs ++ defined (program blocks.flatten)).Nodup
  inScope : Scoped (· ∈ inputKeys args.globalInputs) (program blocks.flatten)
  outputs : ∀ g ∈ args.globalOutputs, ssaKey g.name ∈ defined (program blocks.flatten)
  weightsFirst : ∀ f block, blocks[f]? = some block → ∀ op ∈ block, op.opName = "weight" → f = 0
  /-- The dictionary holds the weights of weight ops. -/
  weights : ∀ w ∈ args.weights, ∃ op ∈ blocks.flatten, op.opName = "weight" ∧
    w ∈ op.results.map ssaKey
  /-- A weight is not called like a global input. -/
  weightNames : ∀ op ∈ blocks.flatten, op.opName = "weight" →
    op.weightName ∉ inputKeys args.globalInputs

/-- The functions and the plan compute what the ops compute. -/
structure Preserves (blocks : List (List MlirOp)) (args : SplitArgs) (r : SplitResult) : Prop where
  /-- Every operand is a declared input or a result of an earlier op of the function. -/
  inScope : ∀ func ∈ r.functions, Scoped (· ∈ inputKeys func.inputs) (program func.ops)
  /-- The functions evaluate, every edge delivers its value, and every global output is returned. -/
  values : ∀ (V : Type) (interp : Interp V) (values : List V) (u : Env String V),
    values.length = args.globalInputs.length →
    evalOps interp (bindNames (inputKeys args.globalInputs) values) blocks.flatten = some u →
    ∃ outs, evalFunctions interp values r = some outs ∧
      (∀ (f : Nat) (func : MlirFunction) (step : ExecutionStep), r.functions[f]? = some func →
        r.plan.steps[f]? = some step →
        step.inputs.map (deliver values (outs.take f)) = (inputKeys func.inputs).map u) ∧
      (∀ g ∈ args.globalOutputs, ∃ (f : Nat) (func : MlirFunction) (o : Nat) (out : FuncOutput),
        r.functions[f]? = some func ∧ func.outputs[o]? = some out ∧
          ssaKey out.name = ssaKey g.name) ∧
      (∀ (f : Nat) (func : MlirFunction) (o : Nat) (out : FuncOutput), r.functions[f]? = some func →
        func.outputs[o]? = some out →
        (∃ g ∈ args.globalOutputs, ssaKey out.name = ssaKey g.name) →
        outputAt outs f o = u (ssaKey out.name))
  /-- Output 0 of the last function is the first global output. -/
  last : ∃ (func : MlirFunction) (out g : FuncOutput),
    r.functions.getLast? = some func ∧ func.outputs[0]? = some out ∧
    args.globalOutputs[0]? = some g ∧ ssaKey out.name = ssaKey g.name

/-! ## The condition -/

/-- The values that a global output or an edge depends on. -/
inductive Contributes (blocks : List (List MlirOp)) (args : SplitArgs) : String → Prop where
  | output {g : FuncOutput} (h : g ∈ args.globalOutputs) : Contributes blocks args (ssaKey g.name)
  | crossing {f p : Nat} {block other : List MlirOp} {n : String} (hblock : blocks[f]? = some block)
      (hother : blocks[p]? = some other) (hne : p ≠ f) (hread : n ∈ blockOperands block)
      (hmade : n ∈ blockResults other) (hf : f ≠ 0) : Contributes blocks args n
  | operand {block : List MlirOp} {op : MlirOp} {r n : String} (hblock : block ∈ blocks)
      (hop : op ∈ block) (hr : r ∈ op.instr.results) (h : Contributes blocks args r)
      (hn : n ∈ op.instr.args) : Contributes blocks args n

def outerRank (blocks : List (List MlirOp)) (args : SplitArgs) (f : Nat) (n : String) :
    Option Nat :=
  if f = 0 then inputRankMap args.globalInputs n
  else
    match producer blocks n with
    | some p => if p = f then none else some (typeRank (typeOf blocks n))
    | none => none

/-- The condition on the program under which the functions compute what the list of ops computes. -/
structure Splittable (blocks : List (List MlirOp)) (args : SplitArgs) : Prop where
  /-- Every block defines a value. -/
  results : ∀ block ∈ blocks, blockResults block ≠ []
  /-- Only the first block reads global inputs. -/
  globals : ∀ f block, blocks[f]? = some block → f ≠ 0 →
    ∀ n ∈ blockOperands block, n ∉ inputKeys args.globalInputs
  /-- The attributes of an op that counts are in range for the ranks from outside. -/
  attributes : ∀ f block, blocks[f]? = some block → ∀ op ∈ block, ∀ r ∈ op.instr.results,
    Contributes blocks args r → adjustOpAttributes op (outerRank blocks args f) = op
  /-- The first global output is the least of those made in the last block. -/
  last : ∃ (g : FuncOutput) (block : List MlirOp), args.globalOutputs[0]? = some g ∧
    blocks.getLast? = some block ∧
    ssaKey g.name ∈ blockResults block ∧
    ∀ g' ∈ args.globalOutputs, ssaKey g'.name ∈ blockResults block → ssaKey g.name ≤ ssaKey g'.name

end CompileForge.Compiler
