/-
  What the wrapper finds in a split module.  Promotion keeps the declared inputs in front and
  gives every weight of the function an argument: a call with the weights bound to these returns
  what the function returns.
-/

import CompileForge.SfDialect.ChainWrapper
import CompileForge.Compiler.SplitNames
import CompileForge.Compiler.SplitPreserves
import Mathlib.Data.List.Flatten

namespace CompileForge.SfDialect

open Abi Compiler Lib Lib.StraightLine List

/-! ## Reading the flat array back -/

theorem edgeCode_source (edge : EdgeInput) :
    ∃ source, source ≤ 1 ∧ edge.source = (if source = 0 then .globalInput else .stepOutput) ∧
      edgeCode edge = [source, edge.sourceIndex, edge.producerStep] := by
  obtain ⟨source, sourceIndex, producerStep⟩ := edge
  cases source with
  | globalInput => exact ⟨0, Nat.zero_le 1, rfl, rfl⟩
  | stepOutput => exact ⟨1, Nat.le_refl 1, rfl, rfl⟩

variable {α : Type} {data rest : List Nat} {chain : List String} {steps : List ExecutionStep}

theorem parseEdges_eq_some {n : Nat} {edges : List EdgeInput} :
    parseEdges n data = some (edges, rest) ↔
      edges.length = n ∧ data = edges.flatMap edgeCode ++ rest := by
  induction n generalizing data rest edges with
  | zero =>
    rw [parseEdges, Option.some_inj, Prod.mk.injEq, length_eq_zero_iff]
    constructor
    · rintro ⟨rfl, rfl⟩
      exact ⟨rfl, rfl⟩
    · rintro ⟨rfl, rfl⟩
      exact ⟨rfl, rfl⟩
  | succ n ih =>
    constructor
    · intro h
      rcases data with _ | ⟨source, _ | ⟨sourceIdx, _ | ⟨outputIdx, data⟩⟩⟩
      · cases h
      · cases h
      · cases h
      rw [parseEdges] at h
      by_cases hsource : 1 < source
      · rw [if_pos hsource] at h
        cases h
      · rw [if_neg hsource] at h
        obtain ⟨⟨tail, rest'⟩, htail, heq⟩ := Option.map_eq_some_iff.1 h
        obtain ⟨hlen, rfl⟩ := ih.1 htail
        simp only [Prod.mk.injEq] at heq
        obtain ⟨rfl, rfl⟩ := heq
        refine ⟨congrArg Nat.succ hlen, ?_⟩
        -- the code of the edge read is the code that was there
        rcases (by omega : source = 0 ∨ source = 1) with rfl | rfl
        · rfl
        · rfl
    · rintro ⟨hlen, rfl⟩
      cases edges with
      | nil => cases hlen
      | cons edge edges =>
        obtain ⟨source, hsource, hkind, hcode⟩ := edgeCode_source edge
        have htail : parseEdges n (edges.flatMap edgeCode ++ rest) = some (edges, rest) :=
          ih.2 ⟨Nat.succ.inj hlen, rfl⟩
        rw [flatMap_cons, hcode, append_assoc]
        show parseEdges (n + 1) (source :: edge.sourceIndex :: edge.producerStep ::
          (edges.flatMap edgeCode ++ rest)) = _
        rw [parseEdges, if_neg (by omega), htail, Option.map_some, ← hkind]

/-- A step in the flat array, which determines the steps and their edges. -/
def stepCode (step : ExecutionStep) : List Nat :=
  step.inputs.length :: step.inputs.flatMap edgeCode

theorem parseSteps_eq_some :
    parseSteps chain data = some (steps, rest) ↔
      steps.map (·.funcName) = chain ∧ data = steps.flatMap stepCode ++ rest := by
  induction chain generalizing data rest steps with
  | nil =>
    rw [parseSteps, Option.some_inj, Prod.mk.injEq, map_eq_nil_iff]
    constructor
    · rintro ⟨rfl, rfl⟩
      exact ⟨rfl, rfl⟩
    · rintro ⟨rfl, rfl⟩
      exact ⟨rfl, rfl⟩
  | cons name chain ih =>
    constructor
    · intro h
      cases data with
      | nil => cases h
      | cons =>
        rw [parseSteps] at h
        obtain ⟨⟨edges, middle⟩, hedges, h⟩ := Option.bind_eq_some_iff.1 h
        obtain ⟨⟨tail, rest'⟩, htail, heq⟩ := Option.map_eq_some_iff.1 h
        obtain ⟨rfl, rfl⟩ := parseEdges_eq_some.1 hedges
        obtain ⟨hnames, rfl⟩ := ih.1 htail
        simp only [Prod.mk.injEq] at heq
        obtain ⟨rfl, rfl⟩ := heq
        refine ⟨by rw [map_cons, hnames], ?_⟩
        rw [flatMap_cons, stepCode, append_assoc, cons_append]
    · rintro ⟨hnames, rfl⟩
      cases steps with
      | nil => cases hnames
      | cons step steps =>
        obtain ⟨rfl, hrest⟩ := List.cons.inj hnames
        have htail : parseSteps chain (steps.flatMap stepCode ++ rest) = some (steps, rest) :=
          ih.2 ⟨hrest, rfl⟩
        rw [flatMap_cons, stepCode, append_assoc, cons_append, parseSteps,
          parseEdges_eq_some.2 ⟨rfl, rfl⟩, Option.bind_some]
        simp only [htail, Option.map_some]

theorem mapM_id_eq_some {l : List (Option α)} {values : List α} :
    l.mapM id = some values ↔ l = values.map some := by
  rw [mapM_eq_some, map_id]

/-- Exactly when the entries, cut to 32 bits, are the flat form of its steps. -/
theorem parseExecPlan_eq_some {planAttr : List (Option Int)} :
    parseExecPlan planAttr chain = some steps ↔
      steps.map (·.funcName) = chain ∧ ∃ (entries : List Int) (globals : List String),
        planAttr = entries.map some ∧
          entries.map unsigned = flattenExecutionPlan ⟨globals, steps⟩ := by
  rw [parseExecPlan, Option.bind_eq_some_iff]
  constructor
  · rintro ⟨entries, hentries, h⟩
    rcases hdata : entries.map unsigned with _ | ⟨numSteps, _ | ⟨numGlobal, data⟩⟩
    · rw [hdata] at h
      cases h
    · rw [hdata] at h
      cases h
    rw [hdata] at h
    simp only at h
    by_cases hnum : numSteps ≠ chain.length
    · rw [if_pos hnum] at h
      cases h
    · rw [if_neg hnum] at h
      split at h
      · next steps' hsteps =>
        cases h
        obtain ⟨hnames, hcode⟩ := parseSteps_eq_some.1 hsteps
        rw [append_nil] at hcode
        refine ⟨hnames, entries, replicate numGlobal "", mapM_id_eq_some.1 hentries, ?_⟩
        have hlen : steps.length = numSteps := by
          rw [Decidable.not_not.1 hnum, ← hnames, length_map]
        rw [hdata, hcode, flattenExecutionPlan, hlen, length_replicate]
        rfl
      · cases h
  · rintro ⟨hnames, entries, globals, rfl, hdata⟩
    refine ⟨entries, mapM_id_eq_some.2 rfl, ?_⟩
    have hlen : steps.length = chain.length := by rw [← hnames, length_map]
    have hsteps : parseSteps chain (steps.flatMap stepCode) = some (steps, []) :=
      parseSteps_eq_some.2 ⟨hnames, (append_nil _).symm⟩
    have hflat : flattenExecutionPlan ⟨globals, steps⟩ =
        steps.length :: globals.length :: steps.flatMap stepCode := rfl
    rw [hdata, hflat]
    simp only
    rw [if_neg (not_not.2 hlen), hsteps]

theorem parseExecPlan_flatten {plan : ExecutionPlan}
    (hfits : ∀ n ∈ flattenExecutionPlan plan, n < 2 ^ 32) :
    parseExecPlan ((flattenExecutionPlan plan).map fun n => some (Int.ofNat n))
      (plan.steps.map (·.funcName)) = some plan.steps := by
  refine parseExecPlan_eq_some.2 ⟨rfl, (flattenExecutionPlan plan).map Int.ofNat,
    plan.globalInputs, (map_map ..).symm, ?_⟩
  rw [map_map]
  refine (map_congr_left fun n hn => ?_).trans (map_id _)
  have hlt := hfits n hn
  show ((n : Int) % 2 ^ 32).toNat = n
  omega

/-! ## The functions of the module -/

variable {sets : SetOrder} {args : SplitArgs} {mlirOps : List MlirOp} {r : SplitResult}

theorem plan_of_makeMultiFunctions (htwo : 2 ≤ (partitionBlocks [] mlirOps).length)
    (h : makeMultiFunctions sets mlirOps args = some r) :
    r.chainOrder = r.functions.map (·.name) ∧
      r.plan.steps.map (·.funcName) = r.functions.map (·.name) ∧
      r.execPlanData = flattenExecutionPlan r.plan ∧
      ∃ first, r.functions[0]? = some first ∧ r.plan.globalInputs = globalNames args first := by
  unfold makeMultiFunctions at h
  simp only at h
  rw [if_neg (by omega)] at h
  obtain ⟨funcs, hfuncs, h⟩ := Option.bind_eq_some_iff.1 h
  obtain ⟨first, hfirst, h⟩ := Option.bind_eq_some_iff.1 h
  obtain ⟨steps, hsteps, h⟩ := Option.bind_eq_some_iff.1 h
  cases h
  refine ⟨rfl, ?_, rfl, first, hfirst, rfl⟩
  have hmap := mapM_eq_some.1 hsteps
  have hname : ∀ e step, planStep args (partitionBlocks [] mlirOps) funcs
      (globalNames args first) e = some step → step.funcName = e.1.name := by
    intro e step hstep
    obtain ⟨inputs, _, hstep⟩ := Option.bind_eq_some_iff.1 hstep
    cases hstep
    rfl
  refine ext_getElem? fun i => ?_
  rw [getElem?_map, getElem?_map]
  cases hfunc : funcs[i]? with
  | none =>
    have hlen := congrArg length hmap
    rw [length_map, length_map, length_zipIdx] at hlen
    rw [getElem?_eq_none (by rw [← hlen]; exact getElem?_eq_none_iff.1 hfunc)]
    rfl
  | some func =>
    obtain ⟨step, hstep, hat⟩ := getElem?_of_map_eq hmap (a := (func, i)) (by
      rw [getElem?_zipIdx, hfunc, Option.map_some, zero_add])
    show steps[i]?.map (·.funcName) = some func.name
    rw [hstep, Option.map_some, hname _ step hat]

variable {blocks : List (List MlirOp)} {functions : List MlirFunction}

theorem first_not_bBlock (blocks : List (List MlirOp)) :
    (blocks.zipIdx.map fun e => isBBlock e.2 e.1).getD 0 false = false := by
  cases blocks with
  | nil => rfl
  | cons block =>
    show isBBlock 0 block = false
    unfold isBBlock
    split
    · exact decide_eq_false fun h => absurd h.1 (lt_irrefl 0)
    · rfl

theorem names_of_built (hb : Built sets args blocks functions) :
    functions.map (·.name) =
      funcNames args.baseName (blocks.zipIdx.map fun e => isBBlock e.2 e.1) := by
  obtain ⟨hlen, hsome, _⟩ := funcNames_named args.baseName (first_not_bBlock blocks)
  refine ext_getElem? fun f => ?_
  rw [getElem?_map]
  cases hfunc : functions[f]? with
  | none =>
    have hle := getElem?_eq_none_iff.1 hfunc
    rw [Option.map_none, getElem?_eq_none]
    rw [hlen, length_map, length_zipIdx, ← hb.length]
    exact hle
  | some =>
    obtain ⟨block, hblock, hbuild⟩ := hb.block_of hfunc
    have hlt : f < (blocks.zipIdx.map fun e => isBBlock e.2 e.1).length := by
      rw [length_map, length_zipIdx]
      exact (List.getElem?_eq_some_iff.1 hblock).1
    obtain ⟨n, suffix, hname⟩ := hsome f hlt
    unfold buildFunction at hbuild
    obtain ⟨outputs, _, hbuild⟩ := Option.bind_eq_some_iff.1 hbuild
    cases hbuild
    rw [Option.map_some, getD_eq_getElem?_getD, hname, Option.getD_some]

theorem names_nodup (hb : Built sets args blocks functions) :
    (functions.map (·.name)).Nodup := by
  rw [names_of_built hb]
  exact (funcNames_named args.baseName (first_not_bBlock blocks)).2.2

theorem name_ne_main (hb : Built sets args blocks functions) {func : MlirFunction}
    (hfunc : func ∈ functions) : func.name ≠ "main" := by
  obtain ⟨hlen, hsome, _⟩ := funcNames_named args.baseName (first_not_bBlock blocks)
  have hmem : func.name ∈ functions.map (·.name) := mem_map_of_mem hfunc
  rw [names_of_built hb] at hmem
  obtain ⟨j, hj⟩ := mem_iff_getElem?.mp hmem
  have hlt := (List.getElem?_eq_some_iff.1 hj).1
  rw [hlen] at hlt
  obtain ⟨n, suffix, hname⟩ := hsome j hlt
  rw [Option.some.inj (hj.symm.trans hname)]
  exact layerName_ne_main _ n suffix

theorem nameToFunc_eq_some {funcs : List IrFunction} (hnodup : (funcs.map (·.name)).Nodup)
    {func : IrFunction} (hfunc : func ∈ funcs) : nameToFunc funcs func.name = some func := by
  refine (dictGet_eq_some ?_).2 (mem_map_of_mem hfunc)
  rw [map_map]
  exact hnodup

/-! ## Promotion -/

variable {func : MlirFunction} {f : IrFunction}

theorem promoteWeights_spec (h : promoteWeights sets func = some f) :
    f.name = func.name ∧ f.numInputs = func.inputs.length ∧
      f.inputTypes = func.inputs.map Prod.snd ++ (promotedOps sets func).map opResultType ∧
      f.resultTypes = func.outputs.map (·.typeStr) ∧
      f.weightKeys = (weightOps func ++ constOps func).map opResultKey ∧
      f.promoted = (promotedOps sets func).map opResultKey ∧
      (promotedOps sets func).length = (weightOps func ++ constOps func).length := by
  unfold promoteWeights at h
  simp only at h
  by_cases hlen : (promotedOps sets func).length = (weightOps func ++ constOps func).length
  · rw [if_pos hlen] at h
    cases h
    exact ⟨rfl, rfl, rfl, rfl, rfl, rfl, hlen⟩
  · rw [if_neg hlen] at h
    cases h

theorem nodup_eraseDups [BEq α] [LawfulBEq α] (l : List α) : l.eraseDups.Nodup := by
  induction hlen : l.length using Nat.strongRecOn generalizing l with
  | ind n ih =>
    cases l with
    | nil => exact nodup_nil
    | cons a l =>
      have hle := length_filter_le (fun b => !b == a) l
      rw [length_cons] at hlen
      rw [eraseDups_cons, nodup_cons]
      refine ⟨fun hmem => ?_, ih _ (by omega) _ rfl⟩
      have hne := (mem_filter.1 (mem_eraseDups.1 hmem)).2
      rw [beq_self_eq_true] at hne
      cases hne

theorem orderedOps_perm (sets : SetOrder) (wnames : List String) {ops : List MlirOp}
    (hnames : (ops.map (·.weightName)).Nodup) (hne : ∀ op ∈ ops, op.weightName ≠ "") :
    (orderedOps sets wnames ops).Perm ops := by
  have hfilter : ops.filter (fun op => op.weightName ≠ "") = ops :=
    filter_eq_self.2 fun op hop => decide_eq_true (hne op hop)
  have hfst : (ops.map fun op => (op.weightName, op)).map Prod.fst = ops.map (·.weightName) :=
    map_map ..
  unfold orderedOps
  simp only [hfilter, hfst]
  have hsets := sets.perm ((ops.map (·.weightName)).filter (· ∉ wnames))
  have horder : (wnames.eraseDups.filter (· ∈ ops.map (·.weightName)) ++
      sets.order ((ops.map (·.weightName)).filter (· ∉ wnames))).Perm
        (ops.map (·.weightName)) := by
    refine (perm_ext_iff_of_nodup ?_ hnames).2 fun name => ?_
    · refine nodup_append.2 ⟨(nodup_eraseDups _).filter _,
        hsets.nodup_iff.2 (nodup_dedup _), fun a ha b hb hab => ?_⟩
      subst hab
      have hlisted := mem_eraseDups.1 (mem_filter.1 ha).1
      have hnot := (mem_filter.1 ((sets.mem_order).1 hb)).2
      exact of_decide_eq_true hnot hlisted
    · rw [mem_append, mem_filter, sets.mem_order, mem_filter, mem_eraseDups]
      by_cases hlisted : name ∈ wnames
      · simp [hlisted]
      · simp [hlisted]
  refine (horder.filterMap _).trans ?_
  -- each name gives its op
  rw [filterMap_map, Function.comp_def]
  have hget : ∀ op ∈ ops,
      dictGet (ops.map fun op => (op.weightName, op)) op.weightName = some op := by
    intro op hop
    refine (dictGet_eq_some ?_).2 (mem_map_of_mem hop)
    rw [hfst]
    exact hnames
  rw [filterMap_congr hget, filterMap_some]

/-- A function all of whose weight and constant ops become arguments. -/
structure Promotable (func : MlirFunction) : Prop where
  distinct : ((weightOps func).map (·.weightName)).Nodup
  named : ∀ op ∈ weightOps func, op.weightName ≠ ""
  ranked : ∀ op ∈ weightOps func ++ constOps func, isRankedTensor (opResultType op) = true

theorem Promotable.perm (h : Promotable func) (sets : SetOrder) :
    (promotedOps sets func).Perm (weightOps func ++ constOps func) := by
  have horder : (if func.weightNames = [] then weightOps func
      else orderedOps sets func.weightNames (weightOps func)).Perm (weightOps func) := by
    by_cases hnil : func.weightNames = []
    · rw [if_pos hnil]
    · rw [if_neg hnil]
      exact orderedOps_perm sets func.weightNames h.distinct h.named
  have hperm := horder.append_right (constOps func)
  unfold promotedOps
  simp only
  rw [filter_eq_self.2 fun op hop => h.ranked op (hperm.mem_iff.1 hop)]
  exact hperm

theorem Promotable.promoteWeights (h : Promotable func) (sets : SetOrder) :
    ∃ f, promoteWeights sets func = some f := by
  unfold SfDialect.promoteWeights
  simp only
  rw [if_pos (h.perm sets).length_eq]
  exact ⟨_, rfl⟩

theorem Promotable.mem_promoted (h : Promotable func)
    (hf : SfDialect.promoteWeights sets func = some f)
    {key : String} (hkey : key ∈ f.weightKeys) : key ∈ f.promoted := by
  obtain ⟨-, -, -, -, hkeys, hpromoted, -⟩ := promoteWeights_spec hf
  rw [hkeys] at hkey
  rw [hpromoted]
  exact ((h.perm sets).map opResultKey).mem_iff.2 hkey

variable {V : Type}

theorem Promotable.call (h : Promotable func) (hf : SfDialect.promoteWeights sets func = some f)
    (body : Body V) (weights : String → V) {inputs : List V}
    (hinputs : inputs.length = func.inputs.length) :
    f.call body (inputs ++ f.promoted.map weights) = some (planCall body weights func inputs) := by
  obtain ⟨hname, hnum, -, hresults, hkeys, -, -⟩ := promoteWeights_spec hf
  have hweights : f.weightKeys.mapM (fun key =>
      (inputs ++ f.promoted.map weights)[f.numInputs + f.promoted.idxOf key]?) =
        some (f.weightKeys.map weights) := by
    refine mapM_eq_some.2 ?_
    rw [map_map]
    refine map_congr_left fun key hkey => ?_
    have hlt := idxOf_lt_length_of_mem (h.mem_promoted hf hkey)
    rw [getElem?_append_right (by rw [hinputs, hnum]; exact Nat.le_add_right _ _),
      hinputs, hnum, Nat.add_sub_cancel_left, getElem?_map, getElem?_eq_getElem hlt,
      Option.map_some, getElem_idxOf hlt]
    rfl
  unfold IrFunction.call
  rw [hweights, Option.bind_eq_bind, Option.bind_some, hname, hresults, length_map,
    take_left' (by rw [hinputs, hnum]), hkeys, map_map]
  rfl

/-! ## A converted program -/

theorem promotable_of_ops (hweights : ∀ op ∈ func.ops, op.opName = "weight" → op.weightName ≠ "" ∧
      op.results.map ssaKey = [op.weightName] ∧ isRankedTensor (opResultType op) = true)
    (hconsts : ∀ op ∈ func.ops, op.opName = "constant" → isRankedTensor (opResultType op) = true)
    (hnodup : (blockResults (weightOps func)).Nodup) : Promotable func := by
  have hweight : ∀ op ∈ weightOps func, op.weightName ≠ "" ∧
      op.results.map ssaKey = [op.weightName] ∧ isRankedTensor (opResultType op) = true :=
    fun op hop => hweights op (mem_filter.1 hop).1 (of_decide_eq_true (mem_filter.1 hop).2)
  refine ⟨?_, fun op hop => (hweight op hop).1, fun op hop => ?_⟩
  · -- the names are the results of the weight ops
    have hkeys : (weightOps func).map (·.weightName) = blockResults (weightOps func) := by
      rw [blockResults, ← flatMap_singleton' ((weightOps func).map (·.weightName)), flatMap_map]
      exact flatMap_congr fun op hop => (hweight op hop).2.1.symm
    rw [hkeys]
    exact hnodup
  · rcases mem_append.1 hop with hop | hop
    · exact (hweight op hop).2.2
    · exact hconsts op (mem_filter.1 hop).1 (of_decide_eq_true (mem_filter.1 hop).2)

theorem filter_adjust (m : String → Option Nat) {name : String}
    (hname : name ∈ ["weight", "constant", "_func_boundary"]) (block : List MlirOp) :
    (block.map fun op => adjustOpAttributes op m).filter (·.opName = name) =
      block.filter (·.opName = name) := by
  have hsame : ∀ op : MlirOp, op.opName = name → adjustOpAttributes op m = op := by
    intro op hop
    rw [adjustOpAttributes, if_pos (by rw [hop]; exact hname)]
  rw [filter_map, Function.comp_def]
  simp only [(instr_adjust _ m).2.2]
  exact (map_congr_left fun op hop =>
    hsame op (of_decide_eq_true (mem_filter.1 hop).2)).trans (map_id _)

theorem Converted.nodup (hc : Converted blocks args) : (blockResults blocks.flatten).Nodup :=
  (nodup_append.1 hc.distinct).2.1

theorem Converted.promotable (hc : Converted blocks args) (hb : Built sets args blocks functions)
    {i : Nat} (hfunc : functions[i]? = some func) : Promotable func := by
  obtain ⟨block, hblock, hbuild⟩ := hb.block_of hfunc
  have hmem : ∀ op ∈ block, op ∈ blocks.flatten := fun op hop =>
    mem_flatten.2 ⟨block, mem_of_getElem? hblock, hop⟩
  have hops := (buildFunction_spec hbuild).2.2
  -- the ops in question stand in the block itself
  have hback : ∀ name ∈ ["weight", "constant", "_func_boundary"], ∀ op ∈ func.ops,
      op.opName = name → op ∈ block := by
    intro name hname op hop heq
    have hin : op ∈ func.ops.filter (·.opName = name) :=
      mem_filter.2 ⟨hop, decide_eq_true heq⟩
    rw [hops, filter_adjust _ hname] at hin
    exact (mem_filter.1 hin).1
  refine promotable_of_ops (fun op hop hweight => ?_) (fun op hop hconst => ?_) ?_
  · have hop := hc.weightOps op (hmem op (hback _ (by decide) op hop hweight)) hweight
    exact ⟨hop.1, hop.2.2⟩
  · exact (hc.constOps op (hmem op (hback _ (by decide) op hop hconst)) hconst).2
  · have hsub : (SfDialect.weightOps func).Sublist blocks.flatten := by
      rw [SfDialect.weightOps, hops, filter_adjust _ (by decide)]
      exact filter_sublist.trans (sublist_flatten_of_mem (mem_of_getElem? hblock))
    exact hc.nodup.sublist (hsub.flatMap _)

theorem Converted.ssaBlocks (hc : Converted blocks args)
    (hfirst : ∀ block ∈ blocks.drop 1, ∀ op ∈ block, op.opName ≠ "weight") :
    SsaBlocks blocks args where
  distinct := by
    rw [defined_program]
    exact hc.distinct
  inScope := hc.inScope
  weightsFirst := by
    intro f block hblock op hop hweight
    by_contra hf
    refine hfirst block (mem_of_getElem? (i := f - 1) ?_) op hop hweight
    rw [getElem?_drop, show 1 + (f - 1) = f by omega]
    exact hblock
  weights := hc.weights
  weightNames := by
    intro op hop hweight hglobal
    have hresult : op.weightName ∈ blockResults blocks.flatten := by
      refine mem_blockResults.2 ⟨op, hop, ?_⟩
      show op.weightName ∈ op.results.map ssaKey
      rw [(hc.weightOps op hop hweight).2.2.1]
      exact mem_singleton_self _
    exact (nodup_append.1 hc.distinct).2.2 _ hglobal _ hresult rfl

end CompileForge.SfDialect
