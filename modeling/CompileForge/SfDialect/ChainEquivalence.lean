/-
  When the generated `@main` is the execution plan, and which malformed plans are reported.

  The wrapper returns the first result of the last call only, and it passes a later call
  no more operands than the function had before promotion: `ChainFits` excludes both, and
  in the single function case a second symbol `main` and the plan's constant edge index.
-/

import CompileForge.SfDialect.ChainMain

namespace CompileForge.SfDialect

open Abi Compiler Lib Lib.StraightLine List

variable {sets : SetOrder} {args : SplitArgs} {mlirOps : List MlirOp} {r : SplitResult}
  {funcs : List IrFunction} {blocks : List (List MlirOp)}

/-! ## Several functions -/

theorem last_outputs_length (hnodup : (blockResults blocks.flatten).Nodup)
    (hr : Returned sets args blocks r) {f : Nat} {block : List MlirOp} {func : MlirFunction}
    (hlast : f + 1 = blocks.length) (hblock : blocks[f]? = some block)
    (hfunc : r.functions[f]? = some func) :
    func.outputs.length = max 1 ((blockResults block).filter
      fun v => v ∈ args.globalOutputs.map fun o => ssaKey o.name).length := by
  obtain ⟨block', hblock', hbuild⟩ := hr.built.block_of hfunc
  cases hblock.symm.trans hblock'
  have houtputs := (buildFunction_spec hbuild).2.1
  have hown : (blockResults block).Nodup :=
    hnodup.sublist ((sublist_flatten_of_mem (mem_of_getElem? hblock)).flatMap _)
  have hnone : blocks[f + 1]? = none := getElem?_eq_none (by omega)
  have hdrop : blocks.drop (f + 1) = [] := drop_eq_nil_of_le (by omega)
  have hordered : orderedOutputs args blocks f block = exported args blocks f block := by
    have hA : isABlock blocks f = false := by
      rw [isABlock, hnone]
    rw [orderedOutputs, hA]
    rfl
  have hlen : (exported args blocks f block).length = ((blockResults block).filter
      fun v => v ∈ args.globalOutputs.map fun o => ssaKey o.name).length := by
    rw [exported, length_mergeSort, hown.dedup, hdrop]
    simp only [flatMap_nil, not_mem_nil, false_or]
  unfold funcOutputs at houtputs
  simp only [hordered] at houtputs
  rw [← hlen]
  by_cases hnil : exported args blocks f block ≠ []
  · rw [if_pos hnil] at houtputs
    rw [← Option.some.inj houtputs, length_map]
    have hpos := length_pos_of_ne_nil hnil
    omega
  · rw [if_neg hnil] at houtputs
    obtain ⟨p, _, hp⟩ := Option.map_eq_some_iff.1 houtputs
    rw [not_not.1 hnil, ← hp]
    rfl

theorem filter_of_promoted_nil {f : Nat} {block : List MlirOp} {func : MlirFunction}
    {g : IrFunction}
    (hbuild : buildFunction sets args blocks f block = some func)
    (hpromote : promoteWeights sets func = some g) :
    g.promoted = [] ↔ ∀ op ∈ block, op.opName ≠ "weight" ∧ op.opName ≠ "constant" := by
  obtain ⟨-, -, -, -, -, hpromoted, hlen⟩ := promoteWeights_spec hpromote
  have hops := (buildFunction_spec hbuild).2.2
  have hweight : weightOps func = block.filter (·.opName = "weight") := by
    rw [weightOps, hops, filter_adjust _ (by decide)]
  have hconst : constOps func = block.filter (·.opName = "constant") := by
    rw [constOps, hops, filter_adjust _ (by decide)]
  rw [hpromoted, map_eq_nil_iff, ← length_eq_zero_iff, hlen, length_eq_zero_iff,
    append_eq_nil_iff, hweight, hconst, filter_eq_nil_iff, filter_eq_nil_iff]
  simp only [decide_eq_true_eq]
  exact forall₂_and.symm

theorem exists_promoted (hc : Converted blocks args) (hb : Built sets args blocks r.functions) :
    ∃ funcs, r.functions.mapM (promoteWeights sets) = some funcs := by
  obtain ⟨funcs, hfuncs⟩ := exists_values fun func (hfunc : func ∈ r.functions) => by
    obtain ⟨i, hi⟩ := mem_iff_getElem?.mp hfunc
    obtain ⟨g, hg⟩ := (hc.promotable hb hi).promoteWeights sets
    exact Option.isSome_iff_exists.2 ⟨g, hg⟩
  exact ⟨funcs, mapM_eq_some.2 hfuncs⟩

theorem getLast?_eq_some {α : Type} {l : List α} {a : α} :
    l.getLast? = some a ↔ ∃ i, i + 1 = l.length ∧ l[i]? = some a := by
  rw [getLast?_eq_getElem?]
  constructor
  · intro h
    have hlt := (List.getElem?_eq_some_iff.1 h).1
    exact ⟨l.length - 1, by omega, h⟩
  · rintro ⟨i, hi, h⟩
    rw [← hi, Nat.add_sub_cancel]
    exact h

theorem mainIsPlan_of_fits (hc : Converted blocks args) (htwo : 2 ≤ blocks.length)
    (hr : Returned sets args blocks r)
    (hwrapper : ∀ funcs, r.functions.mapM (promoteWeights sets) = some funcs →
      ∃ main0, funcs[0]? = some main0 ∧
        chainWrapper r.chainOrder (planAttrOf r) funcs = chainMain main0 funcs r.plan.steps)
    (hlast : ∀ last, blocks.getLast? = some last → ((blockResults last).filter
        fun v => v ∈ args.globalOutputs.map fun o => ssaKey o.name).length ≤ 1)
    (hlater : ∀ block ∈ blocks.drop 1, ∀ op ∈ block,
      op.opName ≠ "weight" ∧ op.opName ≠ "constant") :
    MainIsPlan sets args r := by
  obtain ⟨funcs, hfuncs⟩ := exists_promoted hc hr.built
  obtain ⟨main0, hmain0, heq⟩ := hwrapper funcs hfuncs
  have hchained : Chained sets args blocks r funcs :=
    { ssa := hc.ssaBlocks fun block hblock op hop => (hlater block hblock op hop).1
      returned := hr
      promoted := hfuncs
      promotable := fun func hfunc => by
        obtain ⟨i, hi⟩ := mem_iff_getElem?.mp hfunc
        exact hc.promotable hr.built hi
      weightless := fun f g hf hg => by
        have hlt : f < r.functions.length := by
          rw [← promoteAll_length hfuncs]
          exact (List.getElem?_eq_some_iff.1 hg).1
        have hfunc := getElem?_eq_getElem hlt
        obtain ⟨g', hg', hpromote⟩ := promoteAll_getElem? hfuncs hfunc
        cases hg.symm.trans hg'
        obtain ⟨block, hblock, hbuild⟩ := hr.built.block_of hfunc
        refine (filter_of_promoted_nil hbuild hpromote).2 (hlater block ?_)
        refine mem_of_getElem? (i := f - 1) ?_
        rw [getElem?_drop, show 1 + (f - 1) = f by omega, hblock] }
  -- the last function has one result
  have hlen : funcs.length = blocks.length := by rw [promoteAll_length hfuncs, hr.built.length]
  obtain ⟨last, hlastFunc⟩ : ∃ last, funcs[blocks.length - 1]? = some last :=
    ⟨_, getElem?_eq_getElem (by omega)⟩
  obtain ⟨func, hfunc, hpromote⟩ := hchained.source hlastFunc
  obtain ⟨block, hblock, -⟩ := hr.built.block_of hfunc
  have hcount := hlast block (getLast?_eq_some.2 ⟨blocks.length - 1, by omega, hblock⟩)
  have houtputs := last_outputs_length hc.nodup hr (by omega) hblock hfunc
  obtain ⟨-, -, -, hresults, -⟩ := promoteWeights_spec hpromote
  obtain ⟨resultType, hresult⟩ : ∃ resultType, last.resultTypes = [resultType] := by
    refine length_eq_one_iff.1 ?_
    rw [hresults, length_map, houtputs]
    omega
  have hlast? : funcs.getLast? = some last :=
    getLast?_eq_some.2 ⟨blocks.length - 1, by omega, hlastFunc⟩
  refine ⟨funcs, _, hfuncs, heq.trans (hchained.chainMain hmain0 hlast? hresult),
    hchained.typeCorrect hmain0 hlast? hresult, fun V body weights values hvalues => ?_⟩
  have hhead : funcs.head? = some main0 := by
    rw [head?_eq_getElem?]
    exact hmain0
  rw [hhead]
  exact hchained.eval hmain0 hlast? hresult body weights hvalues

/-- A `@main` that the verifier accepts returns the last function's results. -/
theorem fits_of_typeCorrect (hnodup : (blockResults blocks.flatten).Nodup)
    (hr : Returned sets args blocks r)
    (hfuncs : r.functions.mapM (promoteWeights sets) = some funcs) {main0 : IrFunction}
    {main : MainFunc} (hmain : chainMain main0 funcs r.plan.steps = .added main)
    (htype : TypeCorrect funcs main) :
    (∀ last, blocks.getLast? = some last → ((blockResults last).filter
        fun v => v ∈ args.globalOutputs.map fun o => ssaKey o.name).length ≤ 1) ∧
    ∀ block ∈ blocks.drop 1, ∀ op ∈ block, op.opName ≠ "weight" ∧ op.opName ≠ "constant" := by
  unfold chainMain at hmain
  split at hmain
  · cases hmain
  next calls hcalls =>
  cases hmain
  have hlen : funcs.length = blocks.length := by rw [promoteAll_length hfuncs, hr.built.length]
  refine ⟨fun last hlast => ?_, fun block hblock => ?_⟩
  · obtain ⟨f, hf, hblock⟩ := getLast?_eq_some.1 hlast
    obtain ⟨func, hfunc, -⟩ := hr.built.func f last hblock
    obtain ⟨g, hg, hpromote⟩ := promoteAll_getElem? hfuncs hfunc
    obtain ⟨-, -, -, hresults, -⟩ := promoteWeights_spec hpromote
    have hlast? : funcs.getLast? = some g := getLast?_eq_some.2 ⟨f, by omega, hg⟩
    -- the one operand of the return has one type
    obtain ⟨values, hvalues, htypes⟩ := htype.returns
    simp only [hlast?, Option.map_some, Option.getD_some] at hvalues htypes
    by_cases hnil : g.resultTypes = []
    · rw [if_pos hnil] at hvalues
      cases hvalues
    · rw [if_neg hnil] at hvalues
      have hone := congrArg length htypes
      rw [← Option.some.inj hvalues, length_map, length_map, length_singleton,
        hresults, length_map, last_outputs_length hnodup hr hf hblock hfunc] at hone
      omega
  · obtain ⟨i, hi⟩ := mem_iff_getElem?.mp hblock
    rw [getElem?_drop, add_comm 1 i] at hi
    obtain ⟨func, hfunc, hbuild⟩ := hr.built.func (i + 1) block hi
    obtain ⟨g, hg, hpromote⟩ := promoteAll_getElem? hfuncs hfunc
    obtain ⟨-, -, hinputs, -, -, hpromoted, -⟩ := promoteWeights_spec hpromote
    obtain ⟨step, hstep⟩ : ∃ step, r.plan.steps[i + 1]? = some step := by
      refine ⟨_, getElem?_eq_getElem ?_⟩
      rw [hr.steps]
      exact (List.getElem?_eq_some_iff.1 hfunc).1
    -- the call has an operand for each edge, the function a parameter for each weight too
    have hmem : (g, step.inputs.map operandOf) ∈ calls := by
      rw [(laterCalls_eq_some.1 hcalls).2]
      exact mem_map.2 ⟨(g, _), mem_of_getElem? (zip_drop_one.2 ⟨hg, hstep⟩), rfl⟩
    have hcall := congrArg length (htype.calls _ (mem_cons_of_mem _ hmem))
    rw [length_map, length_map, length_map, hinputs, length_append,
      length_map, length_map, edges_length hr hfunc hstep] at hcall
    refine (filter_of_promoted_nil hbuild hpromote).1 ?_
    rw [hpromoted, map_eq_nil_iff, ← length_eq_zero_iff]
    omega

theorem mainIsPlan_iff_of_chain (hc : Converted (partitionBlocks [] mlirOps) args)
    (htwo : 2 ≤ (partitionBlocks [] mlirOps).length)
    (h : makeMultiFunctions sets mlirOps args = some r) (hfits : ∀ n ∈ r.execPlanData, n < 2 ^ 32) :
    MainIsPlan sets args r ↔ ChainFits (partitionBlocks [] mlirOps) args := by
  have hr := returned_of_makeMultiFunctions htwo h
  have hwrapper : ∀ funcs, r.functions.mapM (promoteWeights sets) = some funcs →
      ∃ main0, funcs[0]? = some main0 ∧
        chainWrapper r.chainOrder (planAttrOf r) funcs = chainMain main0 funcs r.plan.steps :=
    fun _ hfuncs => chainWrapper_eq htwo h hfits hfuncs
  rw [ChainFits, if_neg (by omega)]
  constructor
  · rintro ⟨funcs, main, hfuncs, hmain, htype, -⟩
    obtain ⟨main0, -, heq⟩ := hwrapper funcs hfuncs
    exact fits_of_typeCorrect hc.nodup hr hfuncs (heq.symm.trans hmain) htype
  · rintro ⟨hlast, hlater⟩
    exact mainIsPlan_of_fits hc htwo hr hwrapper hlast hlater

/-! ## One function -/

variable {func : MlirFunction} {f : IrFunction} {V : Type}

theorem singleMain_eval (hpromotable : Promotable func) (hf : promoteWeights sets func = some f)
    (body : Body V) (weights : String → V) {values : List V}
    (hvalues : values.length = func.inputs.length) :
    (singleMain f).eval body (values ++ f.promoted.map weights) =
      some (planCall body weights func values) := by
  obtain ⟨-, -, -, hresults, -⟩ := promoteWeights_spec hf
  have hcalls : evalCalls body (values ++ f.promoted.map weights) [] (singleMain f).calls =
      some [planCall body weights func values] := by
    show [(f, mainArgs f)].foldlM _ [] = _
    simp only [foldlM_cons, foldlM_nil, mainArgs_values hf weights hvalues,
      hpromotable.call hf body weights hvalues, Option.bind_eq_bind, Option.bind_some,
      nil_append]
    rfl
  rw [MainFunc.eval, hcalls]
  show ((range f.resultTypes.length).map (Operand.result 0)).mapM
    (operandValue (values ++ f.promoted.map weights) [planCall body weights func values]) = _
  refine mapM_eq_some.2 ?_
  have hlen : f.resultTypes.length = (planCall body weights func values).length := by
    rw [hresults, planCall, length_map, length_map, length_range]
  rw [map_map, hlen]
  exact map_range_getElem? _

theorem singleMain_typeCorrect (f : IrFunction) (funcs : List IrFunction) :
    TypeCorrect funcs (singleMain f) ↔ ∀ g ∈ funcs, g.name ≠ "main" := by
  refine ⟨fun h => h.symbol, fun h => ⟨h, fun call hcall => ?_, _, rfl, ?_⟩⟩
  · cases mem_singleton.1 hcall
    show (mainArgs f).map _ = f.inputTypes.map some
    rw [mainArgs, map_map]
    exact map_range_getElem? f.inputTypes
  · rw [map_map]
    exact map_range_getElem? f.resultTypes

theorem single_of_makeMultiFunctions (hone : (partitionBlocks [] mlirOps).length ≤ 1)
    (h : makeMultiFunctions sets mlirOps args = some r) :
    ∃ func, func.name = args.baseName ∧ func.inputs = args.globalInputs ∧
      func.outputs = args.globalOutputs ∧ func.ops = mlirOps ∧ r.functions = [func] ∧
      r.chainOrder = [args.baseName] ∧ r.plan = emptyExecutionPlan args func := by
  unfold makeMultiFunctions at h
  simp only at h
  rw [if_pos hone] at h
  cases h
  exact ⟨_, rfl, rfl, rfl, rfl, rfl, rfl, rfl⟩

theorem evalPlan_single (hfunctions : r.functions = [func])
    (hplan : r.plan = emptyExecutionPlan args func) (hinputs : func.inputs = args.globalInputs)
    (body : Body V) (weights : String → V) {values : List V}
    (hvalues : values.length = args.globalInputs.length) :
    evalPlan body weights values r = some [planCall body weights func
      (values.map fun v => values.headD v)] := by
  have hglobals : (r.plan.globalInputs.drop values.length).map weights = [] := by
    rw [hplan, emptyExecutionPlan, drop_eq_nil_of_le, map_nil]
    rw [length_map, hvalues]
  have hdeliver : (func.inputs.map fun _ => (⟨.globalInput, 0, 0⟩ : EdgeInput)).mapM
      (deliver values []) = some (values.map fun v => values.headD v) := by
    refine mapM_eq_some.2 (ext_getElem? fun i => ?_)
    simp only [getElem?_map, map_map]
    rcases lt_or_ge i values.length with hi | hi
    · rw [getElem?_eq_getElem (by rw [hinputs, ← hvalues]; exact hi), getElem?_eq_getElem hi]
      cases values with
      | nil => exact absurd hi (Nat.not_lt_zero i)
      | cons => rfl
    · rw [getElem?_eq_none (by rw [hinputs, ← hvalues]; exact hi), getElem?_eq_none hi]
      rfl
  rw [evalPlan, hglobals, append_nil, hfunctions, hplan, emptyExecutionPlan]
  show [(func, (⟨func.name, _⟩ : ExecutionStep))].foldlM _ [] = _
  simp only [foldlM_cons, foldlM_nil, hdeliver, Option.bind_eq_bind, Option.bind_some, nil_append]
  rfl

theorem mainIsPlan_iff_of_single (hc : Converted (partitionBlocks [] mlirOps) args)
    (hone : (partitionBlocks [] mlirOps).length ≤ 1)
    (h : makeMultiFunctions sets mlirOps args = some r) :
    MainIsPlan sets args r ↔ ChainFits (partitionBlocks [] mlirOps) args := by
  obtain ⟨func, hname, hinputs, houtputs, hops, hfunctions, hchain, hplan⟩ :=
    single_of_makeMultiFunctions hone h
  -- the ops are those of the one block, and sentinels
  have hflatten : (partitionBlocks [] mlirOps).flatten =
      mlirOps.filter fun op => op.opName ≠ "_func_boundary" := partitionBlocks_flatten [] mlirOps
  have hmem : ∀ op ∈ func.ops, op.opName ≠ "_func_boundary" →
      op ∈ (partitionBlocks [] mlirOps).flatten := by
    intro op hop hne
    rw [hflatten, ← hops]
    exact mem_filter.2 ⟨hop, decide_eq_true hne⟩
  have hpromotable : Promotable func := by
    refine promotable_of_ops (fun op hop hweight => ?_) (fun op hop hconst => ?_) ?_
    · have hop := hc.weightOps op (hmem op hop (by rw [hweight]; decide)) hweight
      exact ⟨hop.1, hop.2.2⟩
    · exact (hc.constOps op (hmem op hop (by rw [hconst]; decide)) hconst).2
    · have hsub : (weightOps func).Sublist (partitionBlocks [] mlirOps).flatten := by
        rw [hflatten, weightOps, hops]
        refine monotone_filter_right mlirOps fun op hop => ?_
        rw [of_decide_eq_true hop]
        rfl
      exact hc.nodup.sublist (hsub.flatMap _)
  obtain ⟨f, hf⟩ := hpromotable.promoteWeights sets
  have hfuncs : r.functions.mapM (promoteWeights sets) = some [f] := by
    rw [hfunctions, mapM_cons, hf]
    rfl
  have hwrapper : chainWrapper r.chainOrder (planAttrOf r) [f] = .added (singleMain f) := by
    have hfound : nameToFunc [f] args.baseName = some f := by
      have hnodup : ([f].map (·.name)).Nodup := nodup_singleton _
      rw [← hname, ← (promoteWeights_spec hf).1]
      exact nameToFunc_eq_some hnodup mem_cons_self
    rw [hchain]
    unfold chainWrapper
    simp only [hfound, if_true]
  have hsymbol : (∀ g ∈ [f], g.name ≠ "main") ↔ args.baseName ≠ "main" := by
    rw [forall_mem_singleton, (promoteWeights_spec hf).1, hname]
  rw [ChainFits, if_pos hone]
  constructor
  · rintro ⟨funcs, main, hfuncs', hmain, htype, heval⟩
    cases hfuncs.symm.trans hfuncs'
    cases hwrapper.symm.trans hmain
    refine ⟨hsymbol.1 ((singleMain_typeCorrect f [f]).1 htype), ?_⟩
    by_contra hnot
    obtain ⟨htwo, hsome⟩ := not_or.1 hnot
    -- a function of its second input tells the first input from the second
    let body : Body Nat := fun _ inputs _ _ => inputs.getD 1 0
    have hvalues : (range args.globalInputs.length).length = args.globalInputs.length :=
      length_range
    obtain ⟨outs, houts, hsame⟩ := heval Nat body (fun _ => 0) (range args.globalInputs.length)
      hvalues
    rw [evalPlan_single hfunctions hplan hinputs body (fun _ => 0) hvalues] at houts
    cases houts
    have hcall :=
      (singleMain_eval hpromotable hf body (fun _ => 0) (by rw [hvalues, hinputs])).symm.trans
      hsame
    rw [planCall, planCall, getLast?_singleton, Option.some_inj] at hcall
    obtain ⟨n, hn⟩ := Nat.exists_eq_add_of_le' (Nat.lt_of_not_le htwo)
    have hpos : 0 < func.outputs.length := by
      rw [houtputs]
      exact length_pos_of_ne_nil hsome
    have hat := congrArg (fun l : List Nat => l[0]?) hcall
    simp only [getElem?_map, getElem?_range hpos, Option.map_some, body, hn] at hat
    rw [Option.some_inj, getD_eq_getElem?_getD, getD_eq_getElem?_getD, getElem?_map,
      getElem?_range (by omega)] at hat
    rw [range_succ_eq_map] at hat
    exact absurd hat (by simp)
  · rintro ⟨hbase, hcase⟩
    refine ⟨[f], singleMain f, hfuncs, hwrapper, (singleMain_typeCorrect f [f]).2 (hsymbol.2 hbase),
      fun V body weights values hvalues => ?_⟩
    refine ⟨_, evalPlan_single hfunctions hplan hinputs body weights hvalues, ?_⟩
    rw [getLast?_singleton]
    refine (singleMain_eval hpromotable hf body weights (by rw [hvalues, hinputs])).trans ?_
    rcases hcase with hcase | hcase
    · have hsame : (values.map fun v => values.headD v) = values := by
        rcases values with _ | ⟨v, _ | ⟨w, values⟩⟩
        · rfl
        · rfl
        · rw [← hvalues] at hcase
          exact absurd hcase (by simp)
      rw [hsame]
    · rw [planCall, planCall, houtputs, hcase]
      rfl

/-! ## Malformed plans -/

section Reports

variable {chainOrder : List String} {chained : List IrFunction}

theorem inRange_iff (hchained : chainOrder.map (nameToFunc funcs) = chained.map some)
    (numArgs s : Nat) (edge : EdgeInput) :
    InRange numArgs (chained.take s) edge ↔ EdgeInRange numArgs funcs chainOrder s edge := by
  obtain ⟨source, sourceIndex, producerStep⟩ := edge
  cases source with
  | globalInput => exact Iff.rfl
  | stepOutput =>
    have hat : ∀ func, chained[sourceIndex]? = some func ↔
        ∃ name, chainOrder[sourceIndex]? = some name ∧ nameToFunc funcs name = some func := by
      intro func
      have hget := congrArg (fun l : List (Option IrFunction) => l[sourceIndex]?) hchained
      simp only [getElem?_map] at hget
      constructor
      · intro hfunc
        rw [hfunc, Option.map_some] at hget
        obtain ⟨name, hname, hfound⟩ := Option.map_eq_some_iff.1 hget
        exact ⟨name, hname, hfound⟩
      · rintro ⟨name, hname, hfound⟩
        rw [hname, Option.map_some, hfound] at hget
        obtain ⟨func', hfunc', heq⟩ := Option.map_eq_some_iff.1 hget.symm
        cases heq
        exact hfunc'
    show (∃ func, (chained.take s)[sourceIndex]? = some func ∧
      producerStep < func.resultTypes.length) ↔
      sourceIndex < s ∧ ∃ name func, chainOrder[sourceIndex]? = some name ∧
        nameToFunc funcs name = some func ∧ producerStep < func.resultTypes.length
    rw [getElem?_take]
    constructor
    · rintro ⟨func, hfunc, hlt⟩
      by_cases hs : sourceIndex < s
      · rw [if_pos hs] at hfunc
        obtain ⟨name, hname, hfound⟩ := (hat func).1 hfunc
        exact ⟨hs, name, func, hname, hfound, hlt⟩
      · rw [if_neg hs] at hfunc
        cases hfunc
    · rintro ⟨hs, name, func, hname, hfound, hlt⟩
      rw [if_pos hs]
      exact ⟨func, (hat func).2 ⟨name, hname, hfound⟩, hlt⟩

theorem chainMain_eq_failed {main0 : IrFunction} {steps : List ExecutionStep}
    (hlen : chained.length = steps.length) (hmain0 : chained[0]? = some main0) :
    chainMain main0 chained steps = .failed ↔
      ∃ s step edge, 0 < s ∧ steps[s]? = some step ∧ edge ∈ step.inputs ∧
        ¬ InRange main0.inputTypes.length (chained.take s) edge := by
  have hfailed : chainMain main0 chained steps = .failed ↔
      laterCalls main0.inputTypes.length [main0] ((chained.zip steps).drop 1) = none := by
    unfold chainMain
    cases laterCalls main0.inputTypes.length [main0] ((chained.zip steps).drop 1) with
    | none => exact ⟨fun _ => rfl, fun _ => rfl⟩
    | some => exact ⟨fun h => (nomatch h), fun h => (nomatch h)⟩
  rw [hfailed]
  constructor
  · intro hnone
    by_contra hall
    push Not at hall
    -- with every edge in range the calls exist
    have hcalls : laterCalls main0.inputTypes.length [main0] ((chained.zip steps).drop 1) =
        some (callsOf chained steps) := by
      refine laterCalls_eq_some.2 ⟨fun i e he edge hedge => ?_, rfl⟩
      obtain ⟨-, hstep⟩ := zip_drop_one.1 he
      rw [called_eq_take hlen hmain0]
      exact hall (i + 1) e.2 edge (Nat.succ_pos i) hstep hedge
    rw [hnone] at hcalls
    cases hcalls
  · rintro ⟨s, step, edge, hs, hstep, hedge, hnot⟩
    cases hcalls : laterCalls main0.inputTypes.length [main0] ((chained.zip steps).drop 1) with
    | none => rfl
    | some =>
      obtain ⟨i, rfl⟩ : ∃ i, s = i + 1 := ⟨s - 1, by omega⟩
      obtain ⟨func, hfunc⟩ : ∃ func, chained[i + 1]? = some func := by
        refine ⟨_, getElem?_eq_getElem ?_⟩
        rw [hlen]
        exact (List.getElem?_eq_some_iff.1 hstep).1
      have hin := (laterCalls_eq_some.1 hcalls).1 i (func, step) (zip_drop_one.2 ⟨hfunc, hstep⟩)
        edge hedge
      rw [called_eq_take hlen hmain0] at hin
      exact absurd hin hnot

/-- The pass fails on a plan that parses and has an edge out of range. -/
theorem chainWrapper_eq_failed {planAttr : Option (List (Option Int))} :
    chainWrapper chainOrder planAttr funcs = .failed ↔
      ∃ entries plan, planAttr = some (entries.map some) ∧
        EdgeReported chainOrder entries funcs plan := by
  constructor
  · intro h
    unfold chainWrapper at h
    split at h
    · cases h
    next first rest =>
    split at h
    · cases h
    next main0 hmain0 =>
    by_cases hrest : rest = []
    · rw [if_pos hrest] at h
      cases h
    rw [if_neg hrest] at h
    split at h
    · cases h
    next steps hsteps =>
    split at h
    · cases h
    next chained hchained =>
    obtain ⟨attr, rfl, hparse⟩ := Option.bind_eq_some_iff.1 hsteps
    obtain ⟨hnames, entries, globals, rfl, hdata⟩ := parseExecPlan_eq_some.1 hparse
    have hfound : (first :: rest).map (nameToFunc funcs) = chained.map some := by
      rw [← hnames, map_map]
      exact mapM_eq_some.1 hchained
    have hlen : chained.length = steps.length := by
      have hmap := congrArg length (mapM_eq_some.1 hchained)
      rw [length_map, length_map] at hmap
      exact hmap.symm
    have hhead : chained[0]? = some main0 := by
      have hget := congrArg (fun l : List (Option IrFunction) => l[0]?) hfound
      rw [map_cons, hmain0, getElem?_map] at hget
      obtain ⟨func, hfunc, heq⟩ := Option.map_eq_some_iff.1 hget.symm
      cases heq
      exact hfunc
    obtain ⟨s, step, edge, hs, hstep, hedge, hnot⟩ := (chainMain_eq_failed hlen hhead).1 h
    refine ⟨entries, ⟨globals, steps⟩, rfl, ?_, hdata, hnames, fun name hname => ?_, ?_⟩
    · have hpos := length_pos_of_ne_nil hrest
      rw [length_cons]
      omega
    · have hmem := mem_map_of_mem (f := nameToFunc funcs) hname
      rw [hfound] at hmem
      obtain ⟨func, _, hfunc⟩ := mem_map.1 hmem
      rw [← hfunc]
      rfl
    · refine ⟨main0, s, step, edge, hmain0, hstep, hs, hedge, fun hin => hnot ?_⟩
      exact (inRange_iff hfound main0.inputTypes.length s edge).2 hin
  · rintro ⟨entries, plan, rfl, hreport⟩
    obtain ⟨main0, s, step, edge, hmain0, hstep, hs, hedge, hnot⟩ := hreport.edge
    obtain ⟨first, second, rest, rfl⟩ :
        ∃ first second rest, chainOrder = first :: second :: rest := by
      have hchain := hreport.chain
      rcases chainOrder with _ | ⟨first, _ | ⟨second, rest⟩⟩
      · exact absurd hchain (by decide)
      · rw [length_singleton] at hchain
        omega
      · exact ⟨first, second, rest, rfl⟩
    obtain ⟨chained, hfound⟩ := exists_values fun name hname => hreport.found name hname
    have hparse : parseExecPlan (entries.map some) (first :: second :: rest) = some plan.steps :=
      parseExecPlan_eq_some.2 ⟨hreport.names, entries, plan.globalInputs, rfl, hreport.encoded⟩
    have hsteps : plan.steps.map (fun step => nameToFunc funcs step.funcName) =
        chained.map some := by
      rw [← hfound, ← hreport.names, map_map]
      rfl
    have hlen : chained.length = plan.steps.length := by
      have hmap := congrArg length hsteps
      rw [length_map, length_map] at hmap
      exact hmap.symm
    have hhead : chained[0]? = some main0 := by
      have hget := congrArg (fun l : List (Option IrFunction) => l[0]?) hfound
      rw [map_cons, getElem?_map] at hget
      obtain ⟨func, hfunc, heq⟩ := Option.map_eq_some_iff.1 hget.symm
      rw [hfunc]
      exact heq.trans hmain0
    unfold chainWrapper
    have hfirst : nameToFunc funcs first = some main0 := hmain0
    simp only [hfirst, Option.bind_some, hparse, mapM_eq_some.2 hsteps, reduceCtorEq, if_false]
    refine (chainMain_eq_failed hlen hhead).2 ⟨s, step, edge, hs, hstep, hedge, fun hin => hnot ?_⟩
    exact (inRange_iff hfound main0.inputTypes.length s edge).1 hin

end Reports

/-! ## The plan and `@main` -/

/-- `@main` is the plan exactly when the chain fits, and malformed plans are reported. -/
theorem chainWrapper_plan_iff (sets : SetOrder) (args : SplitArgs) (mlirOps : List MlirOp)
    (r : SplitResult) (chainOrder : List String) (planAttr : Option (List (Option Int)))
    (funcs : List IrFunction) :
    (Converted (partitionBlocks [] mlirOps) args → makeMultiFunctions sets mlirOps args = some r →
      (∀ n ∈ r.execPlanData, n < 2 ^ 32) →
      (MainIsPlan sets args r ↔ ChainFits (partitionBlocks [] mlirOps) args)) ∧
    ((¬ ∃ plan, WellFormed chainOrder planAttr funcs plan) →
      (chainWrapper chainOrder planAttr funcs = .failed ↔
        ∃ entries plan, planAttr = some (entries.map some) ∧
          EdgeReported chainOrder entries funcs plan)) := by
  refine ⟨fun hc h hfits => ?_, fun _ => chainWrapper_eq_failed⟩
  by_cases hone : (partitionBlocks [] mlirOps).length ≤ 1
  · exact mainIsPlan_iff_of_single hc hone h
  · exact mainIsPlan_iff_of_chain hc (by omega) h hfits

theorem softmax_converted :
    Converted (partitionBlocks [] (splitIntoFunctions softmaxOps 500 [2]).1) softmaxArgs where
  distinct := by decide
  inScope := by decide
  weights := by decide
  weightOps := by decide +kernel
  constOps := by decide +kernel

/-- Two functions of one argument, and a plan whose last edge is argument 7. -/
def pairFuncs : List IrFunction :=
  [⟨"main_0", 1, ["tensor<4xf32>"], ["tensor<4xf32>"], [], []⟩,
    ⟨"main_1", 1, ["tensor<4xf32>"], ["tensor<4xf32>"], [], []⟩]

/-- A plan that does not parse leaves the module as it was; only an edge out of range makes the
    pass fail. -/
def outOfRangePlan : ExecutionPlan where
  globalInputs := ["x"]
  steps := [⟨"main_0", [⟨.globalInput, 0, 0⟩]⟩, ⟨"main_1", [⟨.globalInput, 7, 0⟩]⟩]

def outOfRangeEntries : List Int := [2, 1, 1, 0, 0, 0, 1, 0, 7, 0]

theorem outOfRange_reported :
    EdgeReported ["main_0", "main_1"] outOfRangeEntries pairFuncs outOfRangePlan where
  chain := by decide
  encoded := by decide
  names := by decide
  found := by decide
  edge := ⟨_, 1, _, ⟨.globalInput, 7, 0⟩, rfl, rfl, by decide, by decide, by
    show ¬ 7 < 1
    decide⟩

theorem outOfRange_malformed : ¬ ∃ plan, WellFormed ["main_0", "main_1"]
    (some (outOfRangeEntries.map some)) pairFuncs plan := by
  rintro ⟨plan, h⟩
  have hflat : flattenExecutionPlan plan = [2, 1, 1, 0, 0, 0, 1, 0, 7, 0] := by
    have hentries := congrArg (map fun e : Option Int => (e.getD 0).toNat)
      (Option.some.inj h.encoded)
    rw [map_map, map_map] at hentries
    refine ((map_congr_left fun n _ => ?_).trans (map_id _)).symm.trans hentries.symm
    exact Int.toNat_natCast n
  have hsteps : plan.steps = outOfRangePlan.steps := by
    have hfits : ∀ n ∈ flattenExecutionPlan plan, n < 2 ^ 32 := by
      rw [hflat]
      decide
    have hparse := parseExecPlan_flatten hfits
    rw [hflat, h.names] at hparse
    exact Option.some.inj (hparse.symm.trans (by decide +kernel))
  have hglobals : plan.globalInputs.length = 1 := by
    rw [flattenExecutionPlan] at hflat
    exact (List.cons.inj (List.cons.inj hflat).2).1
  have hedge : EdgeInRange plan.globalInputs.length pairFuncs ["main_0", "main_1"] 1
      ⟨.globalInput, 7, 0⟩ := by
    refine h.edges 1 ⟨"main_1", [⟨.globalInput, 7, 0⟩]⟩ ?_ _ mem_cons_self
    rw [hsteps]
    rfl
  rw [hglobals] at hedge
  exact absurd (show 7 < 1 from hedge) (by decide)

theorem softmax_fits :
    ChainFits (partitionBlocks [] (splitIntoFunctions softmaxOps 500 [2]).1) softmaxArgs := by
  rw [ChainFits, if_neg (by decide)]
  refine ⟨fun last hlast => ?_, by decide⟩
  cases hlast
  decide

theorem exists_split (args : SplitArgs) (ops : List MlirOp) (data : List Nat)
    (h : (makeMultiFunctions .insertion ops args).map (·.execPlanData) = some data)
    (hdata : ∀ n ∈ data, n < 2 ^ 32) :
    ∃ r, makeMultiFunctions .insertion ops args = some r ∧ ∀ n ∈ r.execPlanData, n < 2 ^ 32 := by
  obtain ⟨r, hr, rfl⟩ := Option.map_eq_some_iff.1 h
  exact ⟨r, hr, hdata⟩

theorem chainWrapper_plan_iff_witness :
    (∃ r, makeMultiFunctions .insertion (splitIntoFunctions softmaxOps 500 [2]).1 softmaxArgs =
      some r ∧ MainIsPlan .insertion softmaxArgs r) ∧
    chainWrapper ["main_0", "main_1"] (some (outOfRangeEntries.map some)) pairFuncs = .failed := by
  constructor
  · obtain ⟨r, hr, hfits⟩ := exists_split softmaxArgs (splitIntoFunctions softmaxOps 500 [2]).1
      [2, 2, 1, 0, 0, 0, 1, 1, 0, 0] (by decide +kernel) (by decide)
    exact ⟨r, hr, ((chainWrapper_plan_iff .insertion softmaxArgs _ r [] none []).1
      softmax_converted hr hfits).2 softmax_fits⟩
  · obtain ⟨r, -, -⟩ := exists_split softmaxArgs (splitIntoFunctions softmaxOps 500 [2]).1
      [2, 2, 1, 0, 0, 0, 1, 1, 0, 0] (by decide +kernel) (by decide)
    exact ((chainWrapper_plan_iff .insertion softmaxArgs softmaxOps r ["main_0", "main_1"]
      (some (outOfRangeEntries.map some)) pairFuncs).2 outOfRange_malformed).2
        ⟨_, _, rfl, outOfRange_reported⟩

/-- A product, and behind the boundary a weight with a product of its own. -/
def laterWeightOps : List MlirOp :=
  [⟨"sf.relu", "sf", "relu", ["%x"], ["%h"], [], [], ["tensor<4x8xf32>"]⟩,
    ⟨"sf.weight", "sf", "weight", ["w"], ["%w"], [("name", .scalar (.str "w"))], [],
      ["tensor<8x8xf32>"]⟩,
    ⟨"sf.linear", "sf", "linear", ["%h", "%w"], ["%y"], [], [], ["tensor<4x8xf32>"]⟩]

theorem laterWeight_converted :
    Converted (partitionBlocks [] (splitIntoFunctions laterWeightOps 500 [1]).1) softmaxArgs where
  distinct := by decide
  inScope := by decide
  weights := by decide
  weightOps := by decide +kernel
  constOps := by decide +kernel

/-- A promoted parameter has no operand, and a plan cut off leaves no `@main`. -/
theorem chainWrapper_plan_fails :
    (Converted (partitionBlocks [] (splitIntoFunctions laterWeightOps 500 [1]).1) softmaxArgs ∧
      ∃ r, makeMultiFunctions .insertion (splitIntoFunctions laterWeightOps 500 [1]).1 softmaxArgs =
        some r ∧ (∀ n ∈ r.execPlanData, n < 2 ^ 32) ∧ ¬ MainIsPlan .insertion softmaxArgs r) ∧
    (¬ ∃ plan, WellFormed ["main_0", "main_1"] (some [some 2]) pairFuncs plan) ∧
      chainWrapper ["main_0", "main_1"] (some [some 2]) pairFuncs = .untouched := by
  refine ⟨⟨laterWeight_converted, ?_⟩, ?_, by decide +kernel⟩
  · obtain ⟨r, hr, hfits⟩ := exists_split softmaxArgs (splitIntoFunctions laterWeightOps 500 [1]).1
      [2, 1, 1, 0, 0, 0, 1, 1, 0, 0] (by decide +kernel) (by decide)
    refine ⟨r, hr, hfits, fun h => ?_⟩
    have hchain := (mainIsPlan_iff_of_chain laterWeight_converted (by decide) hr hfits).1 h
    rw [ChainFits, if_neg (by decide)] at hchain
    exact absurd hchain.2 (by decide)
  · rintro ⟨plan, h⟩
    have hlen := congrArg length (Option.some.inj h.encoded)
    rw [length_map, flattenExecutionPlan, length_append, length_singleton,
      length_cons, length_singleton] at hlen
    omega

end CompileForge.SfDialect
