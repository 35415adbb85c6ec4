/-
  `@main` of a split module: `SfPromoteWeightsPass` (`SfPromoteWeights.cpp`) turns the
  weight and constant ops of a function into arguments, and `SfChainWrapperPass`
  (`SfChainWrapper.cpp`) parses the flat execution plan and adds a function that calls
  the others in order.  A type is the text it is printed as.
-/

import CompileForge.Compiler.SplitMeaning

namespace CompileForge.SfDialect

open Abi Compiler Lib.StraightLine

def isRankedTensor (tp : String) : Bool := tp.startsWith "tensor<" && !tp.startsWith "tensor<*"

def opResultType (op : MlirOp) : String := op.outputTypes.headD "tensor<f32>"

def opResultKey (op : MlirOp) : String := ssaKey (op.results.headD "")

/-- A function of the module once its weights are arguments. -/
structure IrFunction where
  name : String
  /-- The arguments it had before. -/
  numInputs : Nat
  inputTypes : List String
  resultTypes : List String
  /-- The values of its weight and constant ops, in op order. -/
  weightKeys : List String
  /-- The same values, in the order of their arguments. -/
  promoted : List String
deriving DecidableEq, Repr

variable (sets : SetOrder)

/-- The ops that `sf.weight_names` lists, then the others; the last of one name counts. -/
def orderedOps (wnames : List String) (ops : List MlirOp) : List MlirOp :=
  let nameToOp := (ops.filter fun op => op.weightName ≠ "").map fun op => (op.weightName, op)
  let names := nameToOp.map Prod.fst
  (wnames.eraseDups.filter (· ∈ names) ++ sets.order (names.filter (· ∉ wnames))).filterMap
    (dictGet nameToOp)

/-- The `sf.weight` ops; that `ir.py` bakes one-element `_const_` weights is not in the model. -/
def weightOps (func : MlirFunction) : List MlirOp := func.ops.filter (·.opName = "weight")

def constOps (func : MlirFunction) : List MlirOp := func.ops.filter (·.opName = "constant")

/-- The ops that become arguments; without weight names there is no `sf.weight_names`. -/
def promotedOps (func : MlirFunction) : List MlirOp :=
  let ops := weightOps func
  let ops := if func.weightNames = [] then ops else orderedOps sets func.weightNames ops
  (ops ++ constOps func).filter fun op => isRankedTensor (opResultType op)

/-- `SfPromoteWeightsPass` on one function; it fails when a weight or constant op is left. -/
def promoteWeights (func : MlirFunction) : Option IrFunction :=
  let promoted := promotedOps sets func
  if promoted.length = (weightOps func ++ constOps func).length then
    some
      { name := func.name
        numInputs := func.inputs.length
        inputTypes := func.inputs.map Prod.snd ++ promoted.map opResultType
        resultTypes := func.outputs.map (·.typeStr)
        weightKeys := (weightOps func ++ constOps func).map opResultKey
        promoted := promoted.map opResultKey }
  else none

/-! ## Parsing the plan -/

/-- An entry of the plan attribute read as `unsigned`. -/
def unsigned (entry : Int) : Nat := (entry % 2 ^ 32).toNat

/-- `numInputs` edges, and the entries behind them. -/
def parseEdges : Nat → List Nat → Option (List EdgeInput × List Nat)
  | 0, data => some ([], data)
  | n + 1, source :: sourceIdx :: outputIdx :: data =>
    if 1 < source then none
    else
      (parseEdges n data).map fun (edges, rest) =>
        (⟨if source = 0 then .globalInput else .stepOutput, sourceIdx, outputIdx⟩ :: edges, rest)
  | _ + 1, _ => none

/-- A step for each name of the chain, and the entries behind them. -/
def parseSteps : List String → List Nat → Option (List ExecutionStep × List Nat)
  | [], data => some ([], data)
  | _ :: _, [] => none
  | name :: chain, numInputs :: data =>
    (parseEdges numInputs data).bind fun (edges, rest) =>
      (parseSteps chain rest).map fun (steps, rest) => (⟨name, edges⟩ :: steps, rest)

/-- `parseExecPlan`; the number of global inputs is not used. -/
def parseExecPlan (planAttr : List (Option Int)) (chainOrder : List String) :
    Option (List ExecutionStep) :=
  (planAttr.mapM id).bind fun entries =>
    match entries.map unsigned with
    | numSteps :: _ :: data =>
      if numSteps ≠ chainOrder.length then none
      else
        match parseSteps chainOrder data with
        | some (steps, []) => some steps
        | _ => none
    | _ => none

/-! ## The wrapper -/

/-- A value in the body of `@main`: one of its arguments, or a result of a call. -/
inductive Operand where
  | arg (i : Nat)
  | result (step output : Nat)
deriving DecidableEq, Repr

/-- The `@main` the pass adds; without `returned` its block has no terminator. -/
structure MainFunc where
  argTypes : List String
  resultTypes : List String
  calls : List (IrFunction × List Operand)
  returned : Option (List Operand)
deriving DecidableEq, Repr

/-- What becomes of the module: nothing, a pass failure, a new `@main`. -/
inductive Wrapped where
  | untouched
  | failed
  | added (main : MainFunc)
deriving DecidableEq, Repr

/-- The function of a symbol. -/
def nameToFunc (funcs : List IrFunction) : String → Option IrFunction :=
  dictGet (funcs.map fun f => (f.name, f))

def edgeOperand (numArgs : Nat) (called : List IrFunction) (edge : EdgeInput) : Option Operand :=
  match edge.source with
  | .globalInput => if edge.sourceIndex < numArgs then some (.arg edge.sourceIndex) else none
  | .stepOutput =>
    match called[edge.sourceIndex]? with
    | some func =>
      if edge.producerStep < func.resultTypes.length then
        some (.result edge.sourceIndex edge.producerStep)
      else none
    | none => none

/-- The calls behind `called`; `none` is a reference out of range. -/
def laterCalls (numArgs : Nat) (called : List IrFunction) :
    List (IrFunction × ExecutionStep) → Option (List (IrFunction × List Operand))
  | [] => some []
  | (func, step) :: rest =>
    (step.inputs.mapM (edgeOperand numArgs called)).bind fun callArgs =>
      (laterCalls numArgs (called ++ [func]) rest).map fun calls => (func, callArgs) :: calls

variable (main0 : IrFunction)

/-- Every argument of `@main`, in order. -/
def mainArgs : List Operand :=
  (List.range main0.inputTypes.length).map .arg

def singleMain : MainFunc where
  argTypes := main0.inputTypes
  resultTypes := main0.resultTypes
  calls := [(main0, mainArgs main0)]
  returned := some ((List.range main0.resultTypes.length).map (.result 0))

/-- Of a longer chain: the edges of step 0 are not read, one result of the last call is returned. -/
def chainMain (funcs : List IrFunction) (steps : List ExecutionStep) : Wrapped :=
  match laterCalls main0.inputTypes.length [main0] ((funcs.zip steps).drop 1) with
  | none => .failed
  | some calls =>
    let resultTypes := (funcs.getLast?.map (·.resultTypes)).getD []
    .added
      { argTypes := main0.inputTypes
        resultTypes
        calls := (main0, mainArgs main0) :: calls
        returned := if resultTypes = [] then none else some [.result calls.length 0] }

variable (chainOrder : List String)

/-- `SfChainWrapperPass::runOnOperation`, on a module of functions `funcs`. -/
def chainWrapper (planAttr : Option (List (Option Int))) (funcs : List IrFunction) : Wrapped :=
  match chainOrder with
  | [] => .untouched
  | first :: rest =>
    match nameToFunc funcs first with
    | none => .untouched
    | some main0 =>
      if rest = [] then .added (singleMain main0)
      else
        match planAttr.bind fun attr => parseExecPlan attr chainOrder with
        | none => .untouched
        | some steps =>
          match steps.mapM fun step => nameToFunc funcs step.funcName with
          | none => .untouched
          | some chained => chainMain main0 chained steps

def MainFunc.operandType (main : MainFunc) : Operand → Option String
  | .arg i => main.argTypes[i]?
  | .result step output => main.calls[step]?.bind fun call => call.1.resultTypes[output]?

/-- Every call and the return of `@main` have the types of the functions. -/
structure TypeCorrect (funcs : List IrFunction) (main : MainFunc) : Prop where
  symbol : ∀ func ∈ funcs, func.name ≠ "main"
  calls : ∀ call ∈ main.calls, call.2.map main.operandType = call.1.inputTypes.map some
  returns : ∃ values, main.returned = some values ∧
    values.map main.operandType = main.resultTypes.map some

/-! ## Meaning -/

/-- Result `o` of a function, by its name, its inputs and the values of its weight ops. -/
abbrev Body (V : Type) := String → List V → List V → Nat → V

variable {V : Type} (body : Body V) (weights : String → V)

def IrFunction.call (func : IrFunction) (args : List V) : Option (List V) := do
  let weights ← func.weightKeys.mapM fun key => args[func.numInputs + func.promoted.idxOf key]?
  some ((List.range func.resultTypes.length).map
    (body func.name (args.take func.numInputs) weights))

def operandValue (args : List V) (outs : List (List V)) : Operand → Option V
  | .arg i => args[i]?
  | .result step output => outputAt outs step output

/-- The calls in order, behind those that gave `outs`. -/
def evalCalls (args : List V) (outs : List (List V))
    (calls : List (IrFunction × List Operand)) : Option (List (List V)) :=
  calls.foldlM (fun outs call => do
    let values ← call.2.mapM (operandValue args outs)
    let results ← call.1.call body values
    some (outs ++ [results])) outs

/-- The results of `@main`: its calls in order, each on arguments and earlier results. -/
def MainFunc.eval (main : MainFunc) (args : List V) : Option (List V) := do
  let outs ← evalCalls body args [] main.calls
  (← main.returned).mapM (operandValue args outs)

/-- A step of the plan on its inputs, before promotion. -/
def planCall (func : MlirFunction) (inputs : List V) : List V :=
  (List.range func.outputs.length).map
    (body func.name inputs
      ((weightOps func ++ constOps func).map fun op => weights (opResultKey op)))

/-- The steps of the plan in order. -/
def evalPlanSteps (globals : List V) (outs : List (List V))
    (steps : List (MlirFunction × ExecutionStep)) : Option (List (List V)) :=
  steps.foldlM (fun outs e => do
    let inputs ← e.2.inputs.mapM (deliver globals outs)
    some (outs ++ [planCall body weights e.1 inputs])) outs

/-- The plan with `values` as the program's inputs; other global inputs are weights. -/
def evalPlan (values : List V) (r : SplitResult) : Option (List (List V)) :=
  evalPlanSteps body weights (values ++ (r.plan.globalInputs.drop values.length).map weights) []
    (r.functions.zip r.plan.steps)

/-- The attribute `sf.exec_plan_data`, absent when there are no entries. -/
def planAttrOf (r : SplitResult) : Option (List (Option Int)) :=
  if r.execPlanData = [] then none else some (r.execPlanData.map fun n => some (Int.ofNat n))

/-- The split module gets a type correct `@main` that returns what the plan gives. -/
def MainIsPlan (args : SplitArgs) (r : SplitResult) : Prop :=
  ∃ funcs main, r.functions.mapM (promoteWeights sets) = some funcs ∧
    chainWrapper r.chainOrder (planAttrOf r) funcs = .added main ∧ TypeCorrect funcs main ∧
    ∀ (V : Type) (body : Body V) (weights : String → V) (values : List V),
      values.length = args.globalInputs.length →
      ∃ outs, evalPlan body weights values r = some outs ∧
        main.eval body (values ++ ((funcs.head?.map (·.promoted)).getD []).map weights) =
          outs.getLast?

/-! ## Malformed plans -/

def EdgeInRange (numGlobals : Nat) (funcs : List IrFunction) (chainOrder : List String) (s : Nat)
    (edge : EdgeInput) : Prop :=
  match edge.source with
  | .globalInput => edge.sourceIndex < numGlobals
  | .stepOutput => edge.sourceIndex < s ∧ ∃ name func, chainOrder[edge.sourceIndex]? = some name ∧
      nameToFunc funcs name = some func ∧ edge.producerStep < func.resultTypes.length

/-- As many steps as functions, an edge for each input, every edge in range. -/
structure WellFormed (planAttr : Option (List (Option Int)))
    (funcs : List IrFunction) (plan : ExecutionPlan) : Prop where
  encoded : planAttr = some ((flattenExecutionPlan plan).map fun n => some (Int.ofNat n))
  names : plan.steps.map (·.funcName) = chainOrder
  counts : ∀ step ∈ plan.steps, ∃ func, nameToFunc funcs step.funcName = some func ∧
    step.inputs.length = func.numInputs
  edges : ∀ s step, plan.steps[s]? = some step → ∀ edge ∈ step.inputs,
    EdgeInRange plan.globalInputs.length funcs chainOrder s edge

/-- A parsed plan for the chain has an edge behind step 0 that is out of range. -/
structure EdgeReported (entries : List Int) (funcs : List IrFunction)
    (plan : ExecutionPlan) : Prop where
  chain : 2 ≤ chainOrder.length
  encoded : entries.map unsigned = flattenExecutionPlan plan
  names : plan.steps.map (·.funcName) = chainOrder
  found : ∀ name ∈ chainOrder, (nameToFunc funcs name).isSome = true
  edge : ∃ main0 s step edge, nameToFunc funcs (chainOrder.headD "") = some main0 ∧
    plan.steps[s]? = some step ∧ 0 < s ∧ edge ∈ step.inputs ∧
    ¬ EdgeInRange main0.inputTypes.length funcs chainOrder s edge

/-- A program as the converter builds it, with weight ops named after their weights. -/
structure Converted (blocks : List (List MlirOp)) (args : SplitArgs) : Prop where
  distinct : (inputKeys args.globalInputs ++ blockResults blocks.flatten).Nodup
  inScope : Scoped (· ∈ inputKeys args.globalInputs) (program blocks.flatten)
  weights : ∀ w ∈ args.weights, ∃ op ∈ blocks.flatten, op.opName = "weight" ∧
    w ∈ op.results.map ssaKey
  weightOps : ∀ op ∈ blocks.flatten, op.opName = "weight" →
    op.weightName ≠ "" ∧ op.operands = [op.weightName] ∧
      op.results.map ssaKey = [op.weightName] ∧ isRankedTensor (opResultType op) = true
  constOps : ∀ op ∈ blocks.flatten, op.opName = "constant" →
    op.results.length = 1 ∧ isRankedTensor (opResultType op) = true

/-- One function that is not `main`, or several with one output and early weights. -/
def ChainFits (blocks : List (List MlirOp)) (args : SplitArgs) : Prop :=
  if blocks.length ≤ 1 then
    args.baseName ≠ "main" ∧ (args.globalInputs.length ≤ 1 ∨ args.globalOutputs = [])
  else
    (∀ last, blocks.getLast? = some last → ((blockResults last).filter
        fun v => v ∈ args.globalOutputs.map fun o => ssaKey o.name).length ≤ 1) ∧
    ∀ block ∈ blocks.drop 1, ∀ op ∈ block, op.opName ≠ "weight" ∧ op.opName ≠ "constant"

end CompileForge.SfDialect
