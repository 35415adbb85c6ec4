/-
  The generated `@main` against the execution plan.
-/

import CompileForge.SfDialect.ChainPlan
import CompileForge.Lib.Outcome

namespace CompileForge.SfDialect

open Abi Compiler Lib Lib.StraightLine List

/-! ## Calls -/

/-- An edge points to the output that its input is named after, so the operand has the type of the
    parameter and the value that the plan delivers. -/
def operandOf (edge : EdgeInput) : Operand :=
  match edge.source with
  | .globalInput => .arg edge.sourceIndex
  | .stepOutput => .result edge.sourceIndex edge.producerStep

def InRange (numArgs : Nat) (called : List IrFunction) (edge : EdgeInput) : Prop :=
  match edge.source with
  | .globalInput => edge.sourceIndex < numArgs
  | .stepOutput => ∃ func, called[edge.sourceIndex]? = some func ∧
      edge.producerStep < func.resultTypes.length

variable {α β : Type} {numArgs i j : Nat} {called : List IrFunction}
  {calls : List (IrFunction × List Operand)} {l : List α} {l' : List β} {main0 g last : IrFunction}
  {resultType : String}

theorem edgeOperand_eq_some {edge : EdgeInput} {operand : Operand} :
    edgeOperand numArgs called edge = some operand ↔
      InRange numArgs called edge ∧ operand = operandOf edge := by
  obtain ⟨source, sourceIndex, producerStep⟩ := edge
  cases source with
  | globalInput =>
    show (if sourceIndex < numArgs then some (Operand.arg sourceIndex) else none) = some operand ↔
      sourceIndex < numArgs ∧ operand = .arg sourceIndex
    by_cases hlt : sourceIndex < numArgs
    · rw [if_pos hlt, Option.some_inj]
      exact ⟨fun h => ⟨hlt, h.symm⟩, fun h => h.2.symm⟩
    · rw [if_neg hlt]
      exact ⟨fun h => (nomatch h), fun h => absurd h.1 hlt⟩
  | stepOutput =>
    simp only [edgeOperand, InRange, operandOf]
    cases hcalled : called[sourceIndex]? with
    | none =>
      constructor
      · intro h
        cases h
      · rintro ⟨⟨_, hfunc, _⟩, _⟩
        cases hfunc
    | some func =>
      simp only
      by_cases hlt : producerStep < func.resultTypes.length
      · rw [if_pos hlt, Option.some_inj]
        exact ⟨fun h => ⟨⟨func, rfl, hlt⟩, h.symm⟩, fun h => h.2.symm⟩
      · rw [if_neg hlt]
        constructor
        · intro h
          cases h
        · rintro ⟨⟨_, hfunc, hlt'⟩, _⟩
          cases hfunc
          exact absurd hlt' hlt

theorem callArgs_eq_some {edges : List EdgeInput} {operands : List Operand} :
    edges.mapM (edgeOperand numArgs called) = some operands ↔
      (∀ edge ∈ edges, InRange numArgs called edge) ∧ operands = edges.map operandOf :=
  mapM_eq_some_iff fun _ _ => edgeOperand_eq_some

theorem laterCalls_eq_some {later : List (IrFunction × ExecutionStep)} :
    laterCalls numArgs called later = some calls ↔ (∀ i e, later[i]? = some e → ∀ edge ∈ e.2.inputs,
        InRange numArgs (called ++ (later.map Prod.fst).take i) edge) ∧
      calls = later.map fun e => (e.1, e.2.inputs.map operandOf) := by
  induction later generalizing called calls with
  | nil =>
    rw [laterCalls, Option.some_inj]
    exact ⟨fun h => ⟨fun i e he => (nomatch he), h.symm⟩, fun h => h.2.symm⟩
  | cons e later ih =>
    obtain ⟨func, step⟩ := e
    rw [laterCalls, Option.bind_eq_some_iff]
    constructor
    · rintro ⟨callArgs, hargs, h⟩
      obtain ⟨calls', hcalls, rfl⟩ := Option.map_eq_some_iff.1 h
      obtain ⟨hin, rfl⟩ := callArgs_eq_some.1 hargs
      obtain ⟨hlater, rfl⟩ := ih.1 hcalls
      refine ⟨fun i e he => ?_, rfl⟩
      cases i with
      | zero =>
        cases he
        rw [take_zero, append_nil]
        exact hin
      | succ i =>
        rw [map_cons, take_succ_cons, append_cons]
        exact hlater i e he
    · rintro ⟨hin, rfl⟩
      have hhead := hin 0 (func, step) rfl
      rw [take_zero, append_nil] at hhead
      refine ⟨step.inputs.map operandOf, callArgs_eq_some.2 ⟨hhead, rfl⟩, ?_⟩
      refine Option.map_eq_some_iff.2 ⟨_, ih.2 ⟨fun i e he => ?_, rfl⟩, rfl⟩
      have htail := hin (i + 1) e he
      rwa [map_cons, take_succ_cons, append_cons] at htail

/-! ## The wrapper of a split module -/

variable {sets : SetOrder} {args : SplitArgs} {mlirOps : List MlirOp} {r : SplitResult}
  {funcs : List IrFunction}

section Promoted

variable (hfuncs : r.functions.mapM (promoteWeights sets) = some funcs)
include hfuncs

theorem promoteAll_getElem? {func : MlirFunction} (hfunc : r.functions[i]? = some func) :
    ∃ f, funcs[i]? = some f ∧ promoteWeights sets func = some f :=
  getElem?_of_map_eq (mapM_eq_some.1 hfuncs) hfunc

theorem promoteAll_length : funcs.length = r.functions.length := by
  have hlen := congrArg List.length (mapM_eq_some.1 hfuncs)
  rw [length_map, length_map] at hlen
  exact hlen.symm

theorem promoteAll_names : funcs.map (·.name) = r.functions.map (·.name) := by
  refine ext_getElem? fun i => ?_
  rw [getElem?_map, getElem?_map]
  cases hfunc : r.functions[i]? with
  | none =>
    rw [getElem?_eq_none (by
      rw [promoteAll_length hfuncs]
      exact getElem?_eq_none_iff.1 hfunc)]
    rfl
  | some =>
    obtain ⟨f, hf, hpromote⟩ := promoteAll_getElem? hfuncs hfunc
    rw [hf, Option.map_some, Option.map_some, (promoteWeights_spec hpromote).1]

end Promoted

theorem chainWrapper_eq (htwo : 2 ≤ (partitionBlocks [] mlirOps).length)
    (h : makeMultiFunctions sets mlirOps args = some r) (hfits : ∀ n ∈ r.execPlanData, n < 2 ^ 32)
    (hfuncs : r.functions.mapM (promoteWeights sets) = some funcs) :
    ∃ main0, funcs[0]? = some main0 ∧
      chainWrapper r.chainOrder (planAttrOf r) funcs = chainMain main0 funcs r.plan.steps := by
  have hb := (returned_of_makeMultiFunctions htwo h).built
  obtain ⟨hchain, hsteps, hdata, -⟩ := plan_of_makeMultiFunctions htwo h
  have hnames := promoteAll_names hfuncs
  have hnodup : (funcs.map (·.name)).Nodup := by
    rw [hnames]
    exact names_nodup hb
  have hlen : funcs.length = (partitionBlocks [] mlirOps).length := by
    rw [promoteAll_length hfuncs, hb.length]
  obtain ⟨main0, second, rest, rfl⟩ : ∃ main0 second rest, funcs = main0 :: second :: rest := by
    rcases funcs with _ | ⟨main0, _ | ⟨second, rest⟩⟩
    · rw [← hlen] at htwo
      exact absurd htwo (by decide)
    · rw [← hlen] at htwo
      exact absurd htwo (by simp)
    · exact ⟨main0, second, rest, rfl⟩
  have hattr : planAttrOf r = some (r.execPlanData.map fun n => some (Int.ofNat n)) := by
    unfold planAttrOf
    rw [if_neg]
    rw [hdata]
    exact cons_ne_nil _ _
  have hparse : parseExecPlan (r.execPlanData.map fun n => some (Int.ofNat n)) r.chainOrder =
      some r.plan.steps := by
    rw [hdata] at hfits ⊢
    rw [hchain, ← hsteps]
    exact parseExecPlan_flatten hfits
  have hfound : r.plan.steps.mapM (fun step => nameToFunc (main0 :: second :: rest) step.funcName) =
      some (main0 :: second :: rest) := by
    refine mapM_eq_some.2 ?_
    have hcomp := congrArg (List.map (nameToFunc (main0 :: second :: rest)))
      (hsteps.trans hnames.symm)
    rw [map_map, map_map] at hcomp
    refine hcomp.trans (map_congr_left fun f hf => ?_)
    exact nameToFunc_eq_some hnodup hf
  refine ⟨main0, rfl, ?_⟩
  rw [hattr]
  have horder : r.chainOrder = main0.name :: second.name :: rest.map (·.name) := by
    rw [hchain, ← hnames]
    rfl
  rw [horder] at hparse ⊢
  unfold chainWrapper
  simp only [nameToFunc_eq_some hnodup mem_cons_self, Option.bind_some, hparse, hfound,
    reduceCtorEq, if_false]

/-! ## Edges -/

variable {blocks : List (List MlirOp)} {func : MlirFunction} {step : ExecutionStep} {f : Nat}

theorem typeStr_of_funcOutputs {block : List MlirOp} {outputs : List FuncOutput}
    (h : funcOutputs sets args blocks f block = some outputs) {out : FuncOutput}
    (hout : out ∈ outputs) : out.typeStr = typeOf blocks (ssaKey out.name) := by
  unfold funcOutputs at h
  simp only at h
  by_cases hnil : orderedOutputs args blocks f block ≠ []
  · rw [if_pos hnil] at h
    cases h
    obtain ⟨v, hv, rfl⟩ := mem_map.1 hout
    rw [ssaKey_percent (ssaKey_of_mem_exported (mem_orderedOutputs.1 hv))]
  · rw [if_neg hnil] at h
    obtain ⟨v, hv, rfl⟩ := Option.map_eq_some_iff.1 h
    cases mem_singleton.1 hout
    have hmem := (sets.mem_order).1 (mem_of_mem_head? hv)
    rw [ssaKey_percent (ssaKey_of_mem_blockResults hmem)]

theorem edges_length (hr : Returned sets args blocks r) (hfunc : r.functions[f]? = some func)
    (hstep : r.plan.steps[f]? = some step) : step.inputs.length = func.inputs.length := by
  obtain ⟨first, step', _, hstep', hmap⟩ := hr.edges f func hfunc
  cases hstep.symm.trans hstep'
  have hlen := congrArg List.length hmap
  rw [length_map, length_map] at hlen
  exact hlen.symm

theorem later_edge (hp : SsaBlocks blocks args) (hr : Returned sets args blocks r) (hf : f ≠ 0)
    (hfunc : r.functions[f]? = some func) (hstep : r.plan.steps[f]? = some step)
    {edge : EdgeInput} (hedge : step.inputs[j]? = some edge) :
    ∃ p o other out input, edge = ⟨.stepOutput, p, o⟩ ∧ p < f ∧ r.functions[p]? = some other ∧
      other.outputs[o]? = some out ∧ func.inputs[j]? = some input ∧ out.typeStr = input.2 := by
  obtain ⟨first, step', _, hstep', hmap⟩ := hr.edges f func hfunc
  cases hstep.symm.trans hstep'
  have hj : j < func.inputs.length := by
    rw [← edges_length hr hfunc hstep]
    exact (List.getElem?_eq_some_iff.1 hedge).1
  obtain ⟨edge', hedge', hinput⟩ := getElem?_of_map_eq hmap (getElem?_eq_getElem hj)
  cases hedge.symm.trans hedge'
  obtain ⟨block, hblock, hbuild⟩ := hr.built.block_of hfunc
  -- the input is a value that the block needs
  have hmem : func.inputs[j] ∈ funcInputs sets args blocks f block := by
    rw [← (buildFunction_spec hbuild).1]
    exact getElem_mem hj
  rw [funcInputs, if_neg hf] at hmem
  obtain ⟨v, hv, hname⟩ := mem_map.1 hmem
  have hneeded := mem_laterInputs.1 hv
  obtain ⟨_, _, maker, _, _, hmade⟩ := (mem_needed hp.nodup).1 hneeded
  have hkey : ssaKey func.inputs[j].1 = v := by
    rw [← hname]
    exact ssaKey_percent (ssaKey_of_mem_blockResults hmade)
  obtain ⟨p, other, producer, o, out, hlt, hother, _, hproducer, hout, houtKey, hpoints⟩ :=
    inputEdge_later (globalNames args first) hp hr.built hblock hf hneeded hkey
  rw [hpoints] at hinput
  cases hinput
  refine ⟨p, o, producer, out, func.inputs[j], rfl, hlt, hproducer, hout,
    getElem?_eq_getElem hj, ?_⟩
  obtain ⟨block', _, hbuild'⟩ := hr.built.block_of hproducer
  rw [typeStr_of_funcOutputs (buildFunction_spec hbuild').2.1 (mem_of_getElem? hout), houtKey,
    ← hname]

theorem first_edges (hp : SsaBlocks blocks args) (hr : Returned sets args blocks r)
    (hfunc : r.functions[0]? = some func) (hstep : r.plan.steps[0]? = some step) :
    func.inputs = args.globalInputs ∧
      step.inputs = (range args.globalInputs.length).map fun i => ⟨.globalInput, i, 0⟩ := by
  obtain ⟨block, _, hbuild⟩ := hr.built.block_of hfunc
  have hinputs : func.inputs = args.globalInputs := (buildFunction_spec hbuild).1
  refine ⟨hinputs, ?_⟩
  obtain ⟨first, step', hfirst, hstep', hmap⟩ := hr.edges 0 func hfunc
  cases hstep.symm.trans hstep'
  cases hfunc.symm.trans hfirst
  rw [hinputs] at hmap
  have hlen := congrArg List.length hmap
  rw [length_map, length_map] at hlen
  refine ext_getElem? fun i => ?_
  rw [getElem?_map]
  by_cases hi : i < args.globalInputs.length
  · obtain ⟨edge, hedge, hinput⟩ := getElem?_of_map_eq hmap (getElem?_eq_getElem hi)
    rw [inputEdge_first hp hr.built hfunc (getElem?_eq_getElem hi)] at hinput
    cases hinput
    rw [hedge, getElem?_range hi, Option.map_some]
  · rw [getElem?_eq_none (by omega), getElem?_eq_none (by rw [length_range]; omega),
      Option.map_none]

/-! ## Meaning -/

variable {V : Type}

/-- The call of a later function: no weights of its own, operands from earlier calls. -/
structure Follows (sets : SetOrder) (e : MlirFunction × ExecutionStep)
    (call : IrFunction × List Operand) : Prop where
  promotable : Promotable e.1
  function : promoteWeights sets e.1 = some call.1
  weightless : call.1.promoted = []
  operands : call.2 = e.2.inputs.map operandOf
  inputs : e.2.inputs.length = e.1.inputs.length
  edges : ∀ edge ∈ e.2.inputs, edge.source = .stepOutput

/-- A call that follows a step is given what the plan delivers. -/
theorem Follows.values {e : MlirFunction × ExecutionStep} {call : IrFunction × List Operand}
    (h : Follows sets e call) (margs globals : List V) (outs : List (List V)) :
    call.2.mapM (operandValue margs outs) = e.2.inputs.mapM (deliver globals outs) := by
  have hmap : call.2.map (operandValue margs outs) = e.2.inputs.map (deliver globals outs) := by
    rw [h.operands, map_map]
    refine map_congr_left fun edge hedge => ?_
    have hsource := h.edges edge hedge
    simp only [Function.comp_apply, operandOf, deliver, hsource, operandValue]
  exact Option.ext fun values => by rw [mapM_eq_some, mapM_eq_some, hmap]

theorem evalCalls_eq_evalPlanSteps (body : Body V) (weights : String → V) (margs globals : List V)
    {steps : List (MlirFunction × ExecutionStep)}
    (h : List.Forall₂ (Follows sets) steps calls) (outs : List (List V)) :
    evalCalls body margs outs calls = evalPlanSteps body weights globals outs steps := by
  induction h generalizing outs with
  | nil => rfl
  | @cons e call _ _ hhead _ ih =>
    unfold evalCalls evalPlanSteps at ih ⊢
    rw [foldlM_cons, foldlM_cons, hhead.values margs globals outs]
    cases hvalues : e.2.inputs.mapM (deliver globals outs) with
    | none => rfl
    | some values =>
      have hlen : values.length = e.1.inputs.length := by
        have hmap := congrArg List.length (mapM_eq_some.1 hvalues)
        rw [length_map, length_map] at hmap
        rw [← hmap, hhead.inputs]
      -- without weights the operands are the inputs
      have hcall : call.1.call body values = some (planCall body weights e.1 values) := by
        have hargs := hhead.promotable.call hhead.function body weights hlen
        rwa [hhead.weightless, map_nil, append_nil] at hargs
      simp only [Option.bind_eq_bind, Option.bind_some, hcall]
      exact ih _

/-- Each step reads outputs of steps before it, so all of them are evaluated. -/
theorem evalPlanSteps_isSome (body : Body V) (weights : String → V) (globals : List V)
    {earlier later : List (MlirFunction × ExecutionStep)} {outs : List (List V)}
    (hedges : ∀ i e, later[i]? = some e → ∀ edge ∈ e.2.inputs, edge.source = .stepOutput ∧
      edge.sourceIndex < earlier.length + i ∧
      ∃ e', (earlier ++ later)[edge.sourceIndex]? = some e' ∧
        edge.producerStep < e'.1.outputs.length)
    (houts : outs.map List.length = earlier.map (·.1.outputs.length)) :
    ∃ outs', evalPlanSteps body weights globals outs later = some outs' ∧
      outs'.map List.length = (earlier ++ later).map (·.1.outputs.length) := by
  induction later generalizing earlier outs with
  | nil => exact ⟨outs, rfl, by rw [append_nil]; exact houts⟩
  | cons e later ih =>
    have hdeliver : ∀ edge ∈ e.2.inputs, (deliver globals outs edge).isSome = true := by
      intro edge hedge
      obtain ⟨hsource, hlt, e', he', houtput⟩ := hedges 0 e rfl edge hedge
      rw [add_zero] at hlt
      rw [getElem?_append_left hlt] at he'
      have hlen : (outs.map List.length)[edge.sourceIndex]? = some e'.1.outputs.length := by
        rw [houts, getElem?_map, he', Option.map_some]
      rw [getElem?_map] at hlen
      obtain ⟨vs, hvs, hvslen⟩ := Option.map_eq_some_iff.1 hlen
      simp only [deliver, hsource, outputAt, hvs, Option.bind_some]
      rw [getElem?_eq_getElem (by rw [hvslen]; exact houtput)]
      rfl
    obtain ⟨values, hvalues⟩ := exists_values hdeliver
    have hnext : (outs ++ [planCall body weights e.1 values]).map List.length =
        (earlier ++ [e]).map (·.1.outputs.length) := by
      rw [map_append, map_append, houts, map_singleton, map_singleton, planCall,
        length_map, length_range]
    have hrest : ∀ i e', later[i]? = some e' → ∀ edge ∈ e'.2.inputs, edge.source = .stepOutput ∧
        edge.sourceIndex < (earlier ++ [e]).length + i ∧
        ∃ e'', ((earlier ++ [e]) ++ later)[edge.sourceIndex]? = some e'' ∧
          edge.producerStep < e''.1.outputs.length := by
      intro i e' he' edge hedge
      obtain ⟨hsource, hlt, hfound⟩ := hedges (i + 1) e' he' edge hedge
      rw [length_append, length_singleton, append_assoc]
      exact ⟨hsource, by omega, hfound⟩
    obtain ⟨outs', houts', hlens⟩ := ih hrest hnext
    refine ⟨outs', ?_, by rw [hlens, append_assoc]; rfl⟩
    unfold evalPlanSteps at houts' ⊢
    rw [foldlM_cons, mapM_eq_some.2 hvalues]
    exact houts'

/-! ## The `@main` of a chain -/

/-- A split module whose later functions have no weights of their own. -/
structure Chained (sets : SetOrder) (args : SplitArgs) (blocks : List (List MlirOp))
    (r : SplitResult) (funcs : List IrFunction) : Prop where
  ssa : SsaBlocks blocks args
  returned : Returned sets args blocks r
  promoted : r.functions.mapM (promoteWeights sets) = some funcs
  promotable : ∀ func ∈ r.functions, Promotable func
  weightless : ∀ f g, f ≠ 0 → funcs[f]? = some g → g.promoted = []

/-- The calls behind the first. -/
def callsOf (funcs : List IrFunction) (steps : List ExecutionStep) :
    List (IrFunction × List Operand) :=
  ((funcs.zip steps).drop 1).map fun e => (e.1, e.2.inputs.map operandOf)

theorem zip_drop_one {a : α} {b : β} :
    ((l.zip l').drop 1)[i]? = some (a, b) ↔ l[i + 1]? = some a ∧ l'[i + 1]? = some b := by
  rw [getElem?_drop, add_comm 1 i, getElem?_zip_eq_some]

theorem map_fst_drop_zip (h : l.length = l'.length) :
    ((l.zip l').drop 1).map Prod.fst = l.drop 1 := by
  rw [map_drop, map_fst_zip (le_of_eq h)]

theorem called_eq_take {steps : List ExecutionStep} (hlen : funcs.length = steps.length)
    (hmain0 : funcs[0]? = some main0) (i : Nat) :
    [main0] ++ (((funcs.zip steps).drop 1).map Prod.fst).take i = funcs.take (i + 1) := by
  rw [map_fst_drop_zip hlen]
  cases funcs with
  | nil => cases hmain0
  | cons head =>
    cases hmain0
    rw [drop_one, tail_cons, take_succ_cons, singleton_append]

theorem Chained.length (h : Chained sets args blocks r funcs) :
    funcs.length = r.plan.steps.length := by
  rw [promoteAll_length h.promoted, h.returned.steps]

theorem Chained.source (h : Chained sets args blocks r funcs) (hg : funcs[f]? = some g) :
    ∃ func, r.functions[f]? = some func ∧ promoteWeights sets func = some g := by
  have hlt : f < r.functions.length := by
    rw [← promoteAll_length h.promoted]
    exact (List.getElem?_eq_some_iff.1 hg).1
  have hfunc := getElem?_eq_getElem hlt
  obtain ⟨g', hg', hpromote⟩ := promoteAll_getElem? h.promoted hfunc
  cases hg.symm.trans hg'
  exact ⟨_, hfunc, hpromote⟩

theorem Chained.edge (h : Chained sets args blocks r funcs) (hf : f ≠ 0)
    (hg : funcs[f]? = some g) (hstep : r.plan.steps[f]? = some step) {edge : EdgeInput}
    (hedge : step.inputs[j]? = some edge) :
    ∃ p o other, edge = ⟨.stepOutput, p, o⟩ ∧ p < f ∧ funcs[p]? = some other ∧
      other.resultTypes[o]? = g.inputTypes[j]? ∧ o < other.resultTypes.length := by
  obtain ⟨func, hfunc, hpromote⟩ := h.source hg
  obtain ⟨p, o, producer, out, input, hpoints, hlt, hproducer, hout, hinput, htype⟩ :=
    later_edge h.ssa h.returned hf hfunc hstep hedge
  obtain ⟨other, hother, hpromote'⟩ := promoteAll_getElem? h.promoted hproducer
  obtain ⟨-, -, hinputs, -⟩ := promoteWeights_spec hpromote
  obtain ⟨-, -, -, hresults, -⟩ := promoteWeights_spec hpromote'
  have hresult : other.resultTypes[o]? = some out.typeStr := by
    rw [hresults, getElem?_map, hout, Option.map_some]
  refine ⟨p, o, other, hpoints, hlt, hother, ?_, (List.getElem?_eq_some_iff.1 hresult).1⟩
  have hj : j < (func.inputs.map Prod.snd).length := by
    rw [length_map]
    exact (List.getElem?_eq_some_iff.1 hinput).1
  rw [hresult, hinputs, getElem?_append_left hj, getElem?_map, hinput, Option.map_some, htype]

theorem Chained.laterCalls (h : Chained sets args blocks r funcs)
    (hmain0 : funcs[0]? = some main0) (numArgs : Nat) :
    laterCalls numArgs [main0] ((funcs.zip r.plan.steps).drop 1) =
      some (callsOf funcs r.plan.steps) := by
  refine laterCalls_eq_some.2 ⟨fun i e he edge hedge => ?_, rfl⟩
  obtain ⟨g, step⟩ := e
  obtain ⟨hg, hstep⟩ := zip_drop_one.1 he
  obtain ⟨j, hj⟩ := mem_iff_getElem?.mp hedge
  obtain ⟨p, o, other, rfl, hlt, hother, -, ho⟩ := h.edge (Nat.succ_ne_zero i) hg hstep hj
  refine ⟨other, ?_, ho⟩
  show ([main0] ++ _)[p]? = some other
  rw [called_eq_take h.length hmain0, getElem?_take, if_pos hlt, hother]

/-- Step 0 is called with every argument of `@main`: the global inputs in order and the weights. -/
def chainedMain (main0 : IrFunction) (funcs : List IrFunction) (steps : List ExecutionStep)
    (resultType : String) : MainFunc where
  argTypes := main0.inputTypes
  resultTypes := [resultType]
  calls := (main0, mainArgs main0) :: callsOf funcs steps
  returned := some [.result (callsOf funcs steps).length 0]

theorem Chained.chainMain (h : Chained sets args blocks r funcs)
    (hmain0 : funcs[0]? = some main0) (hlast : funcs.getLast? = some last)
    (hresult : last.resultTypes = [resultType]) :
    chainMain main0 funcs r.plan.steps =
      .added (chainedMain main0 funcs r.plan.steps resultType) := by
  unfold SfDialect.chainMain
  simp only [h.laterCalls hmain0, hlast, Option.map_some, Option.getD_some, hresult,
    cons_ne_nil, if_false, chainedMain]

theorem Chained.map_fst_calls (h : Chained sets args blocks r funcs)
    (hmain0 : funcs[0]? = some main0) (resultType : String) :
    (chainedMain main0 funcs r.plan.steps resultType).calls.map Prod.fst = funcs := by
  show main0 :: (callsOf funcs r.plan.steps).map Prod.fst = funcs
  rw [callsOf, map_map]
  show main0 :: ((funcs.zip r.plan.steps).drop 1).map Prod.fst = funcs
  rw [map_fst_drop_zip h.length]
  cases funcs with
  | nil => cases hmain0
  | cons head =>
    cases hmain0
    rfl

theorem Chained.length_calls (h : Chained sets args blocks r funcs)
    (hmain0 : funcs[0]? = some main0) :
    funcs.length = (callsOf funcs r.plan.steps).length + 1 := by
  have hpos := (List.getElem?_eq_some_iff.1 hmain0).1
  rw [callsOf, length_map, length_drop, length_zip, ← h.length, Nat.min_self]
  omega

theorem map_range_getElem? (l : List α) :
    (range l.length).map (fun i => l[i]?) = l.map some := by
  refine ext_getElem? fun i => ?_
  rw [getElem?_map, getElem?_map]
  by_cases hi : i < l.length
  · rw [getElem?_range hi, getElem?_eq_getElem hi, Option.map_some, Option.map_some,
      getElem?_eq_getElem hi]
  · rw [getElem?_eq_none (by rw [length_range]; omega), getElem?_eq_none (by omega),
      Option.map_none, Option.map_none]

theorem operandType_result (main : MainFunc) (p o : Nat) :
    main.operandType (.result p o) =
      (main.calls.map Prod.fst)[p]?.bind fun g : IrFunction => g.resultTypes[o]? := by
  rw [getElem?_map, Option.bind_map]
  rfl

theorem Chained.typeCorrect (h : Chained sets args blocks r funcs)
    (hmain0 : funcs[0]? = some main0) (hlast : funcs.getLast? = some last)
    (hresult : last.resultTypes = [resultType]) :
    TypeCorrect funcs (chainedMain main0 funcs r.plan.steps resultType) where
  symbol := by
    intro g hg
    obtain ⟨f, hf⟩ := mem_iff_getElem?.mp hg
    obtain ⟨func, hfunc, hpromote⟩ := h.source hf
    rw [(promoteWeights_spec hpromote).1]
    exact name_ne_main h.returned.built (mem_of_getElem? hfunc)
  calls := by
    intro call hcall
    rcases mem_cons.1 hcall with rfl | hcall
    · show (mainArgs main0).map _ = main0.inputTypes.map some
      rw [mainArgs, map_map]
      exact map_range_getElem? main0.inputTypes
    · obtain ⟨⟨g, step⟩, he, rfl⟩ := mem_map.1 hcall
      obtain ⟨i, hi⟩ := mem_iff_getElem?.mp he
      obtain ⟨hg, hstep⟩ := zip_drop_one.1 hi
      obtain ⟨func, hfunc, hpromote⟩ := h.source hg
      obtain ⟨-, -, hinputs, -, -, hpromoted, -⟩ := promoteWeights_spec hpromote
      have hnone := h.weightless (i + 1) g (Nat.succ_ne_zero i) hg
      have hlen : g.inputTypes.length = step.inputs.length := by
        rw [hnone, eq_comm, map_eq_nil_iff] at hpromoted
        rw [hinputs, hpromoted, map_nil, append_nil, length_map,
          edges_length h.returned hfunc hstep]
      refine ext_getElem? fun j => ?_
      rw [map_map, getElem?_map, getElem?_map]
      cases hedge : step.inputs[j]? with
      | none =>
        rw [getElem?_eq_none (by
          rw [hlen]
          exact getElem?_eq_none_iff.1 hedge)]
        rfl
      | some =>
        obtain ⟨p, o, other, rfl, -, hother, htype, ho⟩ :=
          h.edge (Nat.succ_ne_zero i) hg hstep hedge
        have hj : j < g.inputTypes.length := by
          rw [hlen]
          exact (List.getElem?_eq_some_iff.1 hedge).1
        show some (MainFunc.operandType _ (.result p o)) = _
        rw [operandType_result, h.map_fst_calls hmain0, hother, Option.bind_some, htype,
          getElem?_eq_getElem hj, Option.map_some]
  returns := by
    refine ⟨_, rfl, ?_⟩
    have hlen := h.length_calls hmain0
    have hlast' : funcs[(callsOf funcs r.plan.steps).length]? = some last := by
      rw [getLast?_eq_getElem?] at hlast
      rwa [show (callsOf funcs r.plan.steps).length = funcs.length - 1 by omega]
    show [MainFunc.operandType _ (.result (callsOf funcs r.plan.steps).length 0)] =
      [some resultType]
    rw [operandType_result, h.map_fst_calls hmain0, hlast', Option.bind_some, hresult]
    rfl

theorem Chained.follows (h : Chained sets args blocks r funcs) :
    List.Forall₂ (Follows sets) ((r.functions.zip r.plan.steps).drop 1)
      (callsOf funcs r.plan.steps) := by
  have hfunctions := promoteAll_length h.promoted
  have hsteps := h.length
  refine forall₂_iff_get.2 ⟨?_, fun i hi hi' => ?_⟩
  · rw [callsOf, length_map, length_drop, length_drop, length_zip, length_zip, hfunctions]
  · obtain ⟨⟨func, step⟩, he⟩ : ∃ e, ((r.functions.zip r.plan.steps).drop 1)[i]? = some e :=
      ⟨_, getElem?_eq_getElem hi⟩
    obtain ⟨hfunc, hstep⟩ := zip_drop_one.1 he
    obtain ⟨g, hg, hpromote⟩ := promoteAll_getElem? h.promoted hfunc
    have hcall : (callsOf funcs r.plan.steps)[i]? = some (g, step.inputs.map operandOf) := by
      rw [callsOf, getElem?_map, zip_drop_one.2 ⟨hg, hstep⟩, Option.map_some]
    rw [List.get_eq_getElem, List.get_eq_getElem, (List.getElem?_eq_some_iff.1 he).2,
      (List.getElem?_eq_some_iff.1 hcall).2]
    refine ⟨h.promotable func (mem_of_getElem? hfunc), hpromote,
      h.weightless (i + 1) g (Nat.succ_ne_zero i) hg, rfl, edges_length h.returned hfunc hstep,
      fun edge hedge => ?_⟩
    obtain ⟨j, hj⟩ := mem_iff_getElem?.mp hedge
    obtain ⟨p, o, other, rfl, -⟩ := h.edge (Nat.succ_ne_zero i) hg hstep hj
    rfl

theorem Chained.edges_evaluated (h : Chained sets args blocks r funcs)
    {e0 : MlirFunction × ExecutionStep} (he0 : (r.functions.zip r.plan.steps)[0]? = some e0) :
    ∀ i e, ((r.functions.zip r.plan.steps).drop 1)[i]? = some e → ∀ edge ∈ e.2.inputs,
      edge.source = .stepOutput ∧ edge.sourceIndex < [e0].length + i ∧
        ∃ e', ([e0] ++ (r.functions.zip r.plan.steps).drop 1)[edge.sourceIndex]? = some e' ∧
          edge.producerStep < e'.1.outputs.length := by
  rintro i ⟨func, step⟩ he edge hedge
  obtain ⟨hfunc, hstep⟩ := zip_drop_one.1 he
  obtain ⟨g, hg, -⟩ := promoteAll_getElem? h.promoted hfunc
  obtain ⟨j, hj⟩ := mem_iff_getElem?.mp hedge
  obtain ⟨p, o, other, rfl, hlt, hother, -, ho⟩ := h.edge (Nat.succ_ne_zero i) hg hstep hj
  obtain ⟨source, hsource, hpromote⟩ := h.source hother
  obtain ⟨-, -, -, hresults, -⟩ := promoteWeights_spec hpromote
  have hp : p < r.plan.steps.length := by
    have hlen := (List.getElem?_eq_some_iff.1 hstep).1
    omega
  have hcount : p < [e0].length + i := by
    rw [length_singleton]
    omega
  refine ⟨rfl, hcount, (source, r.plan.steps[p]), ?_, ?_⟩
  · have hwhole : [e0] ++ (r.functions.zip r.plan.steps).drop 1 = r.functions.zip r.plan.steps := by
      obtain ⟨hpos, hget⟩ := List.getElem?_eq_some_iff.1 he0
      rw [singleton_append, ← hget, ← drop_eq_getElem_cons hpos, drop_zero]
    rw [hwhole, getElem?_zip_eq_some]
    exact ⟨hsource, getElem?_eq_getElem hp⟩
  · show o < source.outputs.length
    rwa [hresults, length_map] at ho

theorem mainArgs_values (hpromote : promoteWeights sets func = some g)
    (weights : String → V) {values : List V} (hvalues : values.length = func.inputs.length) :
    (mainArgs g).mapM (operandValue (values ++ g.promoted.map weights) []) =
      some (values ++ g.promoted.map weights) := by
  obtain ⟨-, -, htypes, -, -, hpromoted, -⟩ := promoteWeights_spec hpromote
  have hlen : g.inputTypes.length = (values ++ g.promoted.map weights).length := by
    rw [htypes, hpromoted, length_append, length_append, length_map,
      length_map, length_map, length_map, hvalues]
  refine mapM_eq_some.2 ?_
  rw [mainArgs, map_map, hlen]
  exact map_range_getElem? _

/-- `@main` evaluates to the last result of the plan. -/
theorem Chained.eval (h : Chained sets args blocks r funcs)
    (hmain0 : funcs[0]? = some main0) (hlast : funcs.getLast? = some last)
    (hresult : last.resultTypes = [resultType]) (body : Body V) (weights : String → V)
    {values : List V} (hvalues : values.length = args.globalInputs.length) :
    ∃ outs, evalPlan body weights values r = some outs ∧
      (chainedMain main0 funcs r.plan.steps resultType).eval body
        (values ++ main0.promoted.map weights) = outs.getLast? := by
  obtain ⟨first, hfirst, hpromote⟩ := h.source hmain0
  obtain ⟨step0, hstep0⟩ : ∃ step0, r.plan.steps[0]? = some step0 := by
    have hpos := (List.getElem?_eq_some_iff.1 hmain0).1
    rw [h.length] at hpos
    exact ⟨_, getElem?_eq_getElem hpos⟩
  obtain ⟨hinputs, hedges0⟩ := first_edges h.ssa h.returned hfirst hstep0
  have hfirstLen : values.length = first.inputs.length := by rw [hvalues, hinputs]
  have hcall0 := (h.promotable first (mem_of_getElem? hfirst)).call hpromote body weights hfirstLen
  -- the first step takes the global inputs
  have hdeliver0 : step0.inputs.mapM
      (deliver (values ++ (r.plan.globalInputs.drop values.length).map weights) []) =
        some values := by
    refine mapM_eq_some.2 ?_
    rw [hedges0, map_map, ← hvalues, ← map_range_getElem? values]
    refine map_congr_left fun i hi => ?_
    exact getElem?_append_left (mem_range.1 hi)
  have hargs0 := mainArgs_values hpromote weights hfirstLen
  have he0 : (r.functions.zip r.plan.steps)[0]? = some (first, step0) :=
    getElem?_zip_eq_some.2 ⟨hfirst, hstep0⟩
  have hwhole : r.functions.zip r.plan.steps =
      (first, step0) :: (r.functions.zip r.plan.steps).drop 1 := by
    obtain ⟨hpos, hget⟩ := List.getElem?_eq_some_iff.1 he0
    rw [← hget, ← drop_eq_getElem_cons hpos, drop_zero]
  -- the later steps are evaluated behind the first
  have hlen0 : [planCall body weights first values].map List.length =
      [(first, step0)].map (·.1.outputs.length) := by
    rw [map_singleton, map_singleton, planCall, length_map, length_range]
  obtain ⟨outs, houts, hlens⟩ := evalPlanSteps_isSome body weights
    (values ++ (r.plan.globalInputs.drop values.length).map weights) (h.edges_evaluated he0) hlen0
  refine ⟨outs, ?_, ?_⟩
  · rw [evalPlan, evalPlanSteps, hwhole, foldlM_cons, hdeliver0]
    exact houts
  · have hcalls : evalCalls body (values ++ main0.promoted.map weights) []
        (chainedMain main0 funcs r.plan.steps resultType).calls = some outs := by
      rw [evalCalls, chainedMain, foldlM_cons]
      simp only [hargs0, hcall0, Option.bind_eq_bind, Option.bind_some, nil_append]
      exact (evalCalls_eq_evalPlanSteps body weights _ _ h.follows _).trans houts
    -- the last outputs are one value
    have hlenFuncs := h.length_calls hmain0
    have houtsLen : outs.length = (callsOf funcs r.plan.steps).length + 1 := by
      have hlen := congrArg List.length hlens
      rw [length_map, length_map, singleton_append, ← hwhole, length_zip,
        ← promoteAll_length h.promoted, ← h.length, Nat.min_self] at hlen
      rw [hlen, hlenFuncs]
    have hindex : (callsOf funcs r.plan.steps).length = funcs.length - 1 := by
      rw [hlenFuncs]
      rfl
    rw [getLast?_eq_getElem?, ← hindex] at hlast
    obtain ⟨lastFunc, hlastFunc, hlastPromote⟩ := h.source hlast
    obtain ⟨-, -, -, hresults, -⟩ := promoteWeights_spec hlastPromote
    obtain ⟨vs, hvs⟩ : ∃ vs, outs[(callsOf funcs r.plan.steps).length]? = some vs :=
      ⟨_, getElem?_eq_getElem (by omega)⟩
    have hone : vs.length = 1 := by
      have hat := congrArg (fun l : List Nat => l[(callsOf funcs r.plan.steps).length]?) hlens
      simp only [singleton_append, ← hwhole, getElem?_map, hvs, Option.map_some] at hat
      obtain ⟨e, he, hlen⟩ := Option.map_eq_some_iff.1 hat.symm
      cases (getElem?_zip_eq_some.1 he).1.symm.trans hlastFunc
      rw [← hlen, ← length_map (f := fun o : FuncOutput => o.typeStr), ← hresults, hresult]
      rfl
    obtain ⟨v, rfl⟩ := length_eq_one_iff.1 hone
    rw [MainFunc.eval, hcalls, getLast?_eq_getElem?, houtsLen, Nat.add_sub_cancel, hvs]
    show [Operand.result (callsOf funcs r.plan.steps).length 0].mapM
      (operandValue (values ++ main0.promoted.map weights) outs) = some [v]
    refine mapM_eq_some.2 ?_
    show [outputAt outs (callsOf funcs r.plan.steps).length 0] = [some v]
    rw [outputAt, hvs]
    rfl

end CompileForge.SfDialect
