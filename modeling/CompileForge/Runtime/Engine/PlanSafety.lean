/-
  When an op plan that passes the load-time assertions can run.

  The assertions look at each reference by itself.  They do not follow the order in which
  the nodes store and the projections take values, they accept any output of a node where
  only the first is stored, and they do not ask that a projection exists.  `PlanOk` is
  what they leave open.
-/

import CompileForge.Runtime.Engine.PlanRun

namespace CompileForge.Runtime

open Abi Lib List

variable (plan : OpPlan)

/-- The function stands before all that the plan covers. -/
def Before (f : Nat) : Prop := ∀ c ∈ coveredFuncIndices plan, f < c
deriving Decidable

/-- Output `o` exists and is not consumed internally. -/
def Visible (func : FuncDef) (o : Nat) : Prop :=
  ∃ d ∈ func.outputs[o]?, d.consumedInternally = false
deriving Decidable

/-- Where a later function reads output `o` in `func_outputs`. -/
def storageIdx (func : FuncDef) (o : Nat) : Nat := o - consumedBefore func o

variable (g : ComputeGraph) (policy : CachePolicy)

def KvKept (key : Nat × Nat) : Prop :=
  ∃ func ∈ g.functions[key.1]?, ∃ d ∈ func.outputs[key.2]?,
    shouldInterceptConsumed key.1 key.2 policy d = true
deriving Decidable

/-- The pass when the plan is reached: the functions before the covered ones have run. -/
structure Started (s : KvGraphState) : Prop where
  length : s.funcOutputs.length = g.functions.length
  pushed : ∀ (f : Nat) (func : FuncDef), Before plan f → g.functions[f]? = some func →
    ∀ o, Visible func o → ∃ v, readStored g s.funcOutputs f o = .ok ⟨v, (f, o)⟩
  kept : ∀ key : Nat × Nat, Before plan key.1 → KvKept g policy key →
    (s.kvNew.lookup key).isSome = true
  free : ∀ f, ¬ Before plan f → s.funcOutputs.getD f [] = []

/-- Every visible output of a covered function is where later functions read it. -/
def Delivered (s : KvGraphState) : Prop :=
  ∀ f ∈ coveredFuncIndices plan, ∀ func : FuncDef, g.functions[f]? = some func →
    ∀ o, Visible func o → ∃ v, readStored g s.funcOutputs f o = .ok ⟨v, (f, o)⟩

variable (weights : WeightRegistry) (policy : CachePolicy)

/-- The plan does not fail for its structure, and a run that ends delivers. -/
def PlanSafe : Prop :=
  ∀ (env : PlanEnv) (rid : Option String) (s : KvGraphState), Started plan g policy s →
    match runOpPlan env plan g weights policy rid s with
    | .ok s' => Delivered plan g s'
    | .error (.tensors _) => True
    | .error (.structural _) => False

/-! ## The condition -/

/-- Before node `idx` the hooks have kept this function output. -/
def CachedBefore (idx : Nat) (key : Nat × Nat) : Prop :=
  (Before plan key.1 ∧ KvKept g policy key) ∨ ∃ node ∈ plan.nodes.take idx, cacheKey node = some key

/-- The function output can be read before node `idx`. -/
def FuncOutputOk (idx : Nat) (f : OpPlanFuncRef) : Prop :=
  if KvKept g policy (f.funcIndex, f.outputIndex) then
    CachedBefore plan g policy idx (f.funcIndex, f.outputIndex)
  else
    Before plan f.funcIndex ∧ ∃ func ∈ g.functions[f.funcIndex]?, ∃ o, Visible func o ∧
      storageIdx func o = storageIdx func f.outputIndex

/-- The input can be read before node `idx`. -/
def InputOk (idx : Nat) (input : OpPlanInput) : Prop :=
  match OpPlanSource.tryFrom input.source, input.binding with
  | some .ssa, some (.producer p) =>
    ∃ node ∈ plan.nodes[p.nodeIndex]?, ∃ output ∈ node.outputs[p.outputIndex]?,
      match output.cache with
      | some cache =>
        CachedBefore plan g policy idx (cache.sourceFuncIndex, cache.sourceOutputIndex)
      | none => p.outputIndex = 0
  | some .funcOutput, some (.funcProducer f) => FuncOutputOk plan g policy idx f
  | some .global, some (.globalIndex i) =>
    ∃ name ∈ plan.globalInputs[i]?, name ∈ weights.nameMapping ∨ name ∈ weights.constants
  | _, _ => True

/-- What a plan needs beyond the load-time assertions. -/
structure PlanOk : Prop where
  inputs : ∀ (idx : Nat) (node : OpPlanNode), plan.nodes[idx]? = some node →
    ∀ input ∈ node.inputs, InputOk plan g weights policy idx input
  operands : ∀ node ∈ plan.nodes, ∃ op ∈ HalOp.ofName? node.opName,
    op.Fits node.inputs.length node.attributes
  outputs : ∀ node ∈ plan.nodes, node.outputs ≠ []
  consumed : ∀ fo ∈ plan.funcOutputs, fo.consumedInternally = true →
    CachedBefore plan g policy plan.nodes.length (fo.funcIndex, fo.outputIndex)
  values : ∀ fo ∈ visibleOf plan.funcOutputs, ∃ r ∈ fo.value, r.outputIndex = 0 ∧
    ∃ node ∈ plan.nodes[r.nodeIndex]?, HeadPlain node
  refs : ((visibleOf plan.funcOutputs).map (·.value)).Nodup
  funcs : ((visibleOf plan.funcOutputs).map (·.funcIndex)).Nodup
  complete : ∀ f ∈ coveredFuncIndices plan, ∀ func : FuncDef, g.functions[f]? = some func →
    ∀ o, Visible func o → ∃ fo ∈ visibleOf plan.funcOutputs, fo.funcIndex = f ∧ fo.outputIndex = o

/-! ## What the assertions give -/

section Validated

variable {α : Type} {env : PlanEnv} {plan : OpPlan} {g : ComputeGraph} {weights : WeightRegistry}
  {policy : CachePolicy} {rid : Option String}

/-- The binding of an accepted input refers to something there is. -/
def BindingOk (plan : OpPlan) (g : ComputeGraph) (weights : WeightRegistry) (idx : Nat)
    (input : OpPlanInput) : Prop :=
  match OpPlanSource.tryFrom input.source, input.binding with
  | some .ssa, some (.producer p) =>
    p.nodeIndex < idx ∧ ∃ node ∈ plan.nodes[p.nodeIndex]?, p.outputIndex < node.outputs.length
  | some .funcOutput, some (.funcProducer f) =>
    ∃ func ∈ g.functions[f.funcIndex]?, f.outputIndex < func.outputs.length
  | some .weight, some (.weightName name) =>
    name ∈ weights.nameMapping ∨ name ∈ weights.constants
  | some .constant, some (.constantName name) => name ∈ weights.constants
  | some .global, some (.globalIndex i) => i < plan.globalInputs.length
  | _, _ => False

theorem bindingOk_of_validateInput {idx : Nat} {input : OpPlanInput}
    (h : validateInput plan g weights idx input = .ok ()) : BindingOk plan g weights idx input := by
  obtain ⟨_, h, -⟩ := bind_eq_ok h
  obtain ⟨source, hsource, h⟩ := bind_eq_ok h
  rw [BindingOk, okOr_eq_ok.1 hsource]
  cases hbinding : input.binding with
  | none =>
    rw [hbinding] at h
    cases source <;> cases h
  | some b =>
    rw [hbinding] at h
    cases source with
    | ssa =>
      cases b with
      | producer =>
        obtain ⟨_, hlt, h⟩ := bind_eq_ok h
        obtain ⟨node, hnode, h⟩ := bind_eq_ok h
        exact ⟨ensure_eq_ok.1 hlt, node, okOr_eq_ok.1 hnode, ensure_eq_ok.1 h⟩
      | _ => cases h
    | funcOutput =>
      cases b with
      | funcProducer =>
        obtain ⟨func, hfunc, h⟩ := bind_eq_ok h
        exact ⟨func, okOr_eq_ok.1 hfunc, ensure_eq_ok.1 h⟩
      | _ => cases h
    | weight =>
      cases b with
      | weightName => exact ensure_eq_ok.1 h
      | _ => cases h
    | constant =>
      cases b with
      | constantName => exact ensure_eq_ok.1 h
      | _ => cases h
    | «global» =>
      cases b with
      | globalIndex => exact ensure_eq_ok.1 h
      | _ => cases h

/-- What the assertions have checked. -/
structure Validated (plan : OpPlan) (g : ComputeGraph) (weights : WeightRegistry) : Prop where
  nonempty : plan.nodes ≠ []
  index : ∀ (idx : Nat) (node : OpPlanNode), plan.nodes[idx]? = some node → node.index = idx
  op : ∀ node ∈ plan.nodes, ∃ op, HalOp.ofName? node.opName = some op
  sources : ∀ node ∈ plan.nodes, node.sourceFuncIndices ≠ []
  bindings : ∀ (idx : Nat) (node : OpPlanNode), plan.nodes[idx]? = some node →
    ∀ input ∈ node.inputs, BindingOk plan g weights idx input
  caches : ∀ node ∈ plan.nodes, ∀ output ∈ node.outputs, ∀ cache ∈ output.cache,
    ∃ func, g.functions[cache.sourceFuncIndex]? = some func
  projections : ∀ fo ∈ plan.funcOutputs, fo.funcIndex ∈ coveredFuncIndices plan ∧
    ∃ func d r, g.functions[fo.funcIndex]? = some func ∧ func.outputs[fo.outputIndex]? = some d ∧
      fo.consumedInternally = d.consumedInternally ∧ fo.value = some r ∧
      r.nodeIndex < plan.nodes.length

theorem validated_of_ok (h : validateOpPlan plan g weights policy = .ok ()) :
    Validated plan g weights := by
  obtain ⟨_, hnonempty, h⟩ := bind_eq_ok h
  obtain ⟨_, -, h⟩ := bind_eq_ok h
  obtain ⟨_, hnodes, h⟩ := bind_eq_ok h
  obtain ⟨_, hcaches, hprojections⟩ := bind_eq_ok h
  obtain ⟨_, -, hcaches⟩ := bind_eq_ok hcaches
  obtain ⟨_, -, hcaches⟩ := bind_eq_ok hcaches
  obtain ⟨seen, hseen, -⟩ := bind_eq_ok hprojections
  have hnode : ∀ (idx : Nat) (node : OpPlanNode), plan.nodes[idx]? = some node →
      node.index = idx ∧ (∃ op, HalOp.ofName? node.opName = some op) ∧ node.sourceFuncIndices ≠ [] ∧
        ∀ input ∈ node.inputs, BindingOk plan g weights idx input := by
    intro idx node hidx
    have hmem : (node, idx) ∈ plan.nodes.zipIdx := mk_mem_zipIdx_iff_getElem?.mpr hidx
    have h := forM_eq_ok.1 hnodes (node, idx) hmem
    obtain ⟨_, hindex, h⟩ := bind_eq_ok h
    obtain ⟨_, hop, h⟩ := bind_eq_ok h
    obtain ⟨_, hsources, h⟩ := bind_eq_ok h
    obtain ⟨_, -, hinputs⟩ := bind_eq_ok h
    refine ⟨ensure_eq_ok.1 hindex, Option.ne_none_iff_exists'.1 (ensure_eq_ok.1 hop),
      ensure_eq_ok.1 hsources, fun input hinput => ?_⟩
    exact bindingOk_of_validateInput (forM_eq_ok.1 hinputs input hinput)
  have hat : ∀ node ∈ plan.nodes, ∃ idx : Nat, plan.nodes[idx]? = some node :=
    fun node hmem => mem_iff_getElem?.mp hmem
  have hturns := (foldlM_eq_ok (P := fun _ _ => True) trivial (fun _ _ _ _ _ _ _ => trivial)
    hseen).2
  refine ⟨ensure_eq_ok.1 hnonempty, fun idx node hidx => (hnode idx node hidx).1,
    fun node hmem => ?_, fun node hmem => ?_, fun idx node hidx => (hnode idx node hidx).2.2.2,
    fun node hmem output houtput cache hcache => ?_, fun fo hmem => ?_⟩
  · obtain ⟨idx, hidx⟩ := hat node hmem
    exact (hnode idx node hidx).2.1
  · obtain ⟨idx, hidx⟩ := hat node hmem
    exact (hnode idx node hidx).2.2.1
  · have hin : cache ∈ cacheIntercepts plan :=
      mem_flatMap.2 ⟨node, hmem, mem_filterMap.2 ⟨output, houtput, hcache⟩⟩
    obtain ⟨func, hfunc, -⟩ := bind_eq_ok (forM_eq_ok.1 hcaches cache hin)
    exact ⟨func, okOr_eq_ok.1 hfunc⟩
  · obtain ⟨j, hj⟩ := mem_iff_getElem?.mp hmem
    obtain ⟨seen', _, -, h⟩ := hturns j fo hj
    obtain ⟨_, hcovered, h⟩ := bind_eq_ok h
    obtain ⟨func, hfunc, h⟩ := bind_eq_ok h
    obtain ⟨d, hd, h⟩ := bind_eq_ok h
    obtain ⟨_, hflag, h⟩ := bind_eq_ok h
    obtain ⟨_, hvalue, -⟩ := bind_eq_ok h
    obtain ⟨r, hr, hlt⟩ := ensure_eq_ok.1 hvalue
    exact ⟨ensure_eq_ok.1 hcovered, func, d, r, okOr_eq_ok.1 hfunc, okOr_eq_ok.1 hd,
      ensure_eq_ok.1 hflag, hr, hlt⟩

end Validated

/-! ## A plan that meets the condition -/

def OfTensors : PlanFailure → Prop
  | .tensors _ => True
  | .structural _ => False

section Progress

variable {α : Type} {env : PlanEnv} {plan : OpPlan} {g : ComputeGraph} {weights : WeightRegistry}
  {policy : CachePolicy} {rid : Option String} {base : KvGraphState} {s t : PlanState}
  {node : OpPlanNode} {idx : Nat}

theorem lands_onTensors (x : Except Failure α) : Lands OfTensors (fun _ => True) (onTensors x) := by
  cases x <;> trivial

variable {β : Type} {tolerated : PlanFailure → Prop} {name : String} {ioDef : GraphTensorDef}
  {key : Nat × Nat} {f o i : Nat} {func : FuncDef}

theorem lands_structurally {Q : β → Prop}
    {x : Except Failure α} {a : α} {f : α → Except PlanFailure β} (hx : x = .ok a)
    (h : Lands tolerated Q (f a)) : Lands tolerated Q (structurally x >>= f) := by
  rw [hx]
  exact h

theorem lands_ok (a : α) :
    Lands tolerated (fun _ => True) (.ok a) := trivial

theorem lands_loadPlanWeight (hknown : name ∈ weights.nameMapping ∨ name ∈ weights.constants) :
    Lands OfTensors (fun _ => True) (loadPlanWeight env weights s name ioDef) := by
  rw [loadPlanWeight]
  simp only [if_pos hknown]
  refine (lands_onTensors _).bind fun e _ _ => ?_
  exact lands_ok _

theorem lands_loadPlanWeightForMode
    (hknown : name ∈ weights.nameMapping ∨ name ∈ weights.constants) :
    Lands OfTensors (fun _ => True) (loadPlanWeightForMode env weights s name ioDef) := by
  rw [loadPlanWeightForMode]
  simp only [if_pos hknown]
  exact (lands_onTensors _).bind fun _ _ _ => lands_loadPlanWeight hknown

theorem lands_readCached (hfunc : ∃ func, g.functions[key.1]? = some func)
    (hkey : (s.kvNew.lookup key).isSome = true) :
    Lands OfTensors (fun _ => True) (readCached env g policy rid s key.1 key.2) := by
  obtain ⟨func, hfunc⟩ := hfunc
  obtain ⟨v, hv⟩ := Option.isSome_iff_exists.1 hkey
  refine lands_structurally (orPanic_eq_ok.2 hfunc) ?_
  refine lands_structurally (orError_eq_ok.2 hv) ?_
  exact lands_onTensors _

theorem CachedBefore.available (hs : Started plan g policy base)
    (hr : Reached plan base idx s) (h : CachedBefore plan g policy idx key) :
    (s.kvNew.lookup key).isSome = true := by
  rw [hr.kvNew]
  rcases h with ⟨hbefore, hkept⟩ | hnode
  · exact .inl (hs.kept key hbefore hkept)
  · exact .inr hnode

theorem Started.slot (hs : Started plan g policy base)
    (hf : Before plan f) (hfunc : g.functions[f]? = some func) (ho : Visible func o) :
    ∃ outputs v, base.funcOutputs[f]? = some outputs ∧ outputs[storageIdx func o]? = some v := by
  obtain ⟨v, hv⟩ := hs.pushed f func hf hfunc o ho
  rw [readStored, orPanic_eq_ok.2 hfunc] at hv
  obtain ⟨outputs, houtputs, hslot⟩ := readFuncOutput_eq_ok.1 hv
  exact ⟨outputs, _, houtputs, hslot⟩

theorem lands_resolveSsa (hv : Validated plan g weights) (hs : Started plan g policy base)
    (hr : Reached plan base idx s) {p : OpPlanRef} {producer : OpPlanNode}
    {output : OpPlanOutput} (hlt : p.nodeIndex < idx)
    (hproducer : plan.nodes[p.nodeIndex]? = some producer)
    (houtput : producer.outputs[p.outputIndex]? = some output) (hcached : match output.cache with
      | some cache =>
        CachedBefore plan g policy idx (cache.sourceFuncIndex, cache.sourceOutputIndex)
      | none => p.outputIndex = 0) :
    Lands OfTensors (fun _ => True) (resolveSsa env plan g policy rid s i p) := by
  refine lands_structurally (orPanic_eq_ok.2 hproducer) ?_
  refine lands_structurally (orPanic_eq_ok.2 houtput) ?_
  cases hcache : output.cache with
  | some cache =>
    rw [hcache] at hcached
    have hfunc := hv.caches producer (mem_of_getElem? hproducer) output
      (mem_of_getElem? houtput) cache hcache
    exact lands_readCached hfunc (hcached.available hs hr)
  | none =>
    rw [hcache] at hcached
    have hhead : HeadPlain producer := by
      have h0 : producer.outputs[0]? = some output := by
        rw [← hcached]
        exact houtput
      exact ⟨output, by rw [Option.mem_def, head?_eq_getElem?, h0], hcache⟩
    have hmem : producer ∈ plan.nodes.take idx := by
      refine mem_of_getElem? (i := p.nodeIndex) ?_
      rw [getElem?_take_of_lt hlt]
      exact hproducer
    have hsome : (s.values.lookup (p.nodeIndex, p.outputIndex)).isSome = true :=
      (hr.values _).2 ⟨hcached, producer, hmem, hv.index _ _ hproducer, hhead⟩
    obtain ⟨v, hval⟩ := Option.isSome_iff_exists.1 hsome
    simp only [orError_eq_ok.2 hval]
    exact lands_ok v

theorem lands_resolveFuncOutput (hs : Started plan g policy base) (hr : Reached plan base idx s)
    {f : OpPlanFuncRef} (hfunc : g.functions[f.funcIndex]? = some func)
    (hlt : f.outputIndex < func.outputs.length) (hcond : FuncOutputOk plan g policy idx f) :
    Lands OfTensors (fun _ => True) (resolveFuncOutput env g policy rid s f) := by
  have hd := getElem?_eq_getElem hlt
  refine lands_structurally (orPanic_eq_ok.2 hfunc) ?_
  refine lands_structurally (orPanic_eq_ok.2 hd) ?_
  have hkept : KvKept g policy (f.funcIndex, f.outputIndex) ↔
      shouldInterceptConsumed f.funcIndex f.outputIndex policy func.outputs[f.outputIndex] =
        true := by
    simp only [KvKept, hfunc, hd, Option.mem_def, Option.some_inj, exists_eq_left']
  by_cases hkv : KvKept g policy (f.funcIndex, f.outputIndex)
  · rw [FuncOutputOk, if_pos hkv] at hcond
    simp only [if_pos (hkept.1 hkv)]
    exact lands_readCached ⟨func, hfunc⟩ (hcond.available hs hr)
  · rw [FuncOutputOk, if_neg hkv] at hcond
    simp only [if_neg (mt hkept.2 hkv)]
    obtain ⟨hbefore, func', hfunc', o, hvisible, hidx⟩ := hcond
    have hsame : func' = func := Option.some_inj.1 (hfunc'.symm.trans hfunc)
    subst hsame
    obtain ⟨outputs, v, houtputs, hslot⟩ := hs.slot hbefore hfunc hvisible
    rw [hidx] at hslot
    rw [hr.funcOutputs]
    refine lands_structurally (orPanic_eq_ok.2 houtputs) ?_
    refine lands_structurally (orError_eq_ok.2 hslot) ?_
    exact lands_ok _

section Inputs

variable (hv : Validated plan g weights) (hs : Started plan g policy base)
  (hr : Reached plan base idx s)
include hv hs hr

theorem lands_resolveInput {input : OpPlanInput} (hbinding : BindingOk plan g weights idx input)
    (hinput : InputOk plan g weights policy idx input) :
    Lands OfTensors (fun _ => True)
      (resolveInput env plan g weights policy rid node s (input, i)) := by
  rw [BindingOk] at hbinding
  rw [InputOk] at hinput
  cases hsource : OpPlanSource.tryFrom input.source with
  | none =>
    rw [hsource] at hbinding
    exact hbinding.elim
  | some =>
    rw [hsource] at hbinding hinput
    refine lands_structurally (orError_eq_ok.2 hsource) ?_
    split at hbinding
    case h_1 p hsrc hbind =>
      cases hsrc
      rw [hbind] at hinput ⊢
      obtain ⟨producer, hproducer, output, houtput, hcached⟩ := hinput
      exact (lands_resolveSsa hv hs hr hbinding.1 hproducer houtput hcached).bind
        fun _ _ _ => lands_ok _
    case h_2 f hsrc hbind =>
      cases hsrc
      rw [hbind] at hinput ⊢
      obtain ⟨func, hfunc, hlt⟩ := hbinding
      exact (lands_resolveFuncOutput hs hr hfunc hlt hinput).bind fun _ _ _ => lands_ok _
    case h_3 name hsrc hbind =>
      cases hsrc
      rw [hbind]
      show Lands OfTensors _ (if _ then _ else _)
      split_ifs
      · exact lands_loadPlanWeightForMode hbinding
      · exact lands_loadPlanWeight hbinding
    case h_4 name hsrc hbind =>
      cases hsrc
      rw [hbind]
      exact lands_loadPlanWeight (.inr hbinding)
    case h_5 j hsrc hbind =>
      cases hsrc
      rw [hbind] at hinput ⊢
      obtain ⟨name, hname, hknown⟩ := hinput
      refine lands_structurally (orPanic_eq_ok.2 hname) ?_
      rw [if_pos hknown]
      exact lands_loadPlanWeight hknown
    case h_6 => exact hbinding.elim

theorem lands_resolveInputs (hnode : plan.nodes[idx]? = some node)
    (hinputs : ∀ input ∈ node.inputs, InputOk plan g weights policy idx input) :
    Lands OfTensors (fun _ => True) (resolveInputs env plan g weights policy rid node s) := by
  refine Lands.mono (Lands.foldlM (I := fun _ acc => Reached plan base idx acc.2) hr ?_)
    fun _ _ _ => trivial
  rintro k ⟨input, i⟩ acc hk hacc
  have hmem : input ∈ node.inputs :=
    mem_of_getElem? (mk_mem_zipIdx_iff_getElem?.mp (mem_of_getElem? hk))
  refine (lands_resolveInput hv hs hacc (hv.bindings idx node hnode input hmem)
    (hinputs input hmem)).bind fun e he _ => ?_
  exact hacc.sameData (resolveInput_frame he)

end Inputs

theorem lands_runKernel {op : HalOp} {vs : List Value} (hop : HalOp.ofName? node.opName = some op)
    (hfits : op.Fits vs.length node.attributes) :
    Lands OfTensors (fun _ => True) (runKernel env node vs) := by
  obtain ⟨hshape, hkernel⟩ := operands_eq_ok.2 hfits
  refine lands_structurally (orError_eq_ok.2 hop) ?_
  refine lands_structurally hshape ?_
  refine (lands_onTensors _).bind fun _ _ _ => ?_
  refine lands_structurally hkernel ?_
  exact (lands_onTensors _).bind fun _ _ _ => lands_ok _

theorem lands_runNode (hv : Validated plan g weights) (hok : PlanOk plan g weights policy)
    (hs : Started plan g policy base) (hr : Reached plan base idx s)
    (hnode : plan.nodes[idx]? = some node) :
    Lands OfTensors (Reached plan base (idx + 1))
      (runNode env plan g weights policy rid s node) := by
  have hmem := mem_of_getElem? hnode
  refine Lands.mono (P := fun _ => True) ?_ fun t ht _ => hr.step hnode ht
  refine (lands_resolveInputs hv hs hr hnode (hok.inputs idx node hnode)).bind fun e he _ => ?_
  obtain ⟨-, hlength, -⟩ := resolveInputs_spec he
  obtain ⟨op, hop, hfits⟩ := hok.operands node hmem
  rw [← hlength] at hfits
  refine (lands_runKernel hop hfits).bind fun v _ _ => ?_
  obtain ⟨output, rest, houtputs⟩ := exists_cons_of_ne_nil (hok.outputs node hmem)
  have hhead : node.outputs.head? = some output := by
    rw [houtputs]
    rfl
  refine lands_structurally (orError_eq_ok.2 hhead) ?_
  cases hcache : output.cache with
  | none => exact lands_ok _
  | some cache =>
    have houtput : output ∈ node.outputs := mem_of_head? hhead
    obtain ⟨func, hfunc⟩ := hv.caches node hmem output houtput cache hcache
    refine lands_structurally (orPanic_eq_ok.2 hfunc) ?_
    exact (lands_onTensors _).bind fun _ _ _ => lands_ok _

/-! ### The projections -/

variable {start : PlanState} {fo : OpPlanFuncOutput} {j : Nat}

theorem visibleOf_split (hj : plan.funcOutputs[j]? = some fo)
    (hfo : fo.consumedInternally = false) :
    visibleOf plan.funcOutputs = visibleOf (plan.funcOutputs.take j) ++
      fo :: visibleOf (plan.funcOutputs.drop (j + 1)) := by
  obtain ⟨hlt, hget⟩ := List.getElem?_eq_some_iff.1 hj
  have hsplit : plan.funcOutputs =
      plan.funcOutputs.take j ++ fo :: plan.funcOutputs.drop (j + 1) := by
    rw [← hget, cons_getElem_drop_succ, take_append_drop]
  conv_lhs => rw [hsplit]
  rw [visibleOf, filter_append, filter_cons_of_pos (by rw [hfo]; decide), visibleOf, visibleOf]

theorem not_before {f : OpPlanFuncOutput → β}
    (hnodup : ((visibleOf plan.funcOutputs).map f).Nodup) (hj : plan.funcOutputs[j]? = some fo)
    (hfo : fo.consumedInternally = false) :
    ∀ fo' ∈ visibleOf (plan.funcOutputs.take j), f fo' ≠ f fo := by
  rw [visibleOf_split hj hfo, map_append, map_cons] at hnodup
  intro fo' hmem heq
  have hdisjoint := (nodup_append.1 hnodup).2.2
  exact hdisjoint (f fo') (mem_map_of_mem hmem) (f fo) mem_cons_self heq

theorem not_before_of_covered (hf : f ∈ coveredFuncIndices plan) : ¬ Before plan f :=
  fun h => lt_irrefl f (h f hf)

/-- A projection that the condition covers finds its value and its slot. -/
theorem lands_projectFuncOutput (hv : Validated plan g weights) (hok : PlanOk plan g weights policy)
    (hs : Started plan g policy base) (hstart : Reached plan base plan.nodes.length start)
    (ht : Projected start (plan.funcOutputs.take j) t) (hj : plan.funcOutputs[j]? = some fo) :
    Lands OfTensors (Projected start (plan.funcOutputs.take (j + 1))) (projectFuncOutput t fo) := by
  have hnext : ∀ t', projectFuncOutput t fo = .ok t' →
      Projected start (plan.funcOutputs.take (j + 1)) t' := by
    intro t' hrun
    rw [take_add_one, hj]
    exact ht.step hrun
  refine Lands.mono (P := fun _ => True) ?_ fun t' ht' _ => hnext t' ht'
  have hmem := mem_of_getElem? hj
  obtain ⟨hcovered, func, d, -, hfunc, -⟩ := hv.projections fo hmem
  cases hfo : fo.consumedInternally with
  | true =>
    have hkept := (hok.consumed fo hmem hfo).available hs hstart
    rw [← ht.kvNew] at hkept
    rw [projectFuncOutput]
    simp only [hfo, if_true, ensureOr_eq_ok.2 hkept]
    exact lands_ok _
  | false =>
    obtain ⟨r, hr, hzero, node, hnode, hplain⟩ := hok.values fo (mem_visibleOf.2 ⟨hmem, hfo⟩)
    have hvalue : (t.values.lookup (r.nodeIndex, r.outputIndex)).isSome = true := by
      rw [ht.values, hstart.values, take_length]
      refine ⟨⟨hzero, node, mem_of_getElem? hnode, hv.index _ _ hnode, hplain⟩, ?_⟩
      intro fo' hbefore
      have hne := not_before hok.refs hj hfo fo' hbefore
      rw [Option.mem_def] at hr
      rw [hr] at hne
      exact hne
    obtain ⟨v, hval⟩ := Option.isSome_iff_exists.1 hvalue
    have hslots : slotsOf (plan.funcOutputs.take j) fo.funcIndex = [] := by
      rw [slotsOf, map_eq_nil_iff, filter_eq_nil_iff]
      intro fo' hbefore heq
      exact not_before hok.funcs hj hfo fo' hbefore (of_decide_eq_true heq)
    have hempty : t.funcOutputs.getD fo.funcIndex [] = [] := by
      have horigins := ht.origins fo.funcIndex
      rw [hslots, hstart.funcOutputs, hs.free _ (not_before_of_covered hcovered)] at horigins
      exact map_eq_nil_iff.1 horigins
    have hslot : t.funcOutputs[fo.funcIndex]? = some [] := by
      have hlt : fo.funcIndex < t.funcOutputs.length := by
        rw [ht.length, hstart.funcOutputs, hs.length]
        exact (List.getElem?_eq_some_iff.1 hfunc).1
      rw [getD_eq_getElem?_getD, getElem?_eq_getElem hlt] at hempty
      rw [getElem?_eq_getElem hlt]
      exact congrArg some hempty
    have hinner : ∀ message, orError message fo.value = .ok r := fun _ => orError_eq_ok.2 hr
    have htensor : ∀ message,
        orError message (t.values.lookup (r.nodeIndex, r.outputIndex)) = .ok v :=
      fun _ => orError_eq_ok.2 hval
    rw [projectFuncOutput, hfo]
    simp only [Bool.false_eq_true, if_false, hinner, bind, Except.bind, htensor,
      orPanic_eq_ok.2 hslot, ensureOr, if_true]
    exact lands_ok _

theorem slotsOf_eq_singleton {fos : List OpPlanFuncOutput}
    (hnodup : ((visibleOf fos).map (·.funcIndex)).Nodup) (hmem : fo ∈ visibleOf fos) :
    slotsOf fos fo.funcIndex = [(fo.funcIndex, fo.outputIndex)] := by
  obtain ⟨l₁, l₂, hsplit⟩ := append_of_mem hmem
  rw [slotsOf, hsplit]
  rw [hsplit, map_append, map_cons] at hnodup
  obtain ⟨-, htail, hdisjoint⟩ := nodup_append.1 hnodup
  have hleft : l₁.filter (fun fo' => decide (fo'.funcIndex = fo.funcIndex)) = [] := by
    rw [filter_eq_nil_iff]
    intro fo' h' heq
    exact hdisjoint _ (mem_map_of_mem h') _ mem_cons_self (of_decide_eq_true heq)
  have hright : l₂.filter (fun fo' => decide (fo'.funcIndex = fo.funcIndex)) = [] := by
    rw [filter_eq_nil_iff]
    intro fo' h' heq
    have hsame : fo'.funcIndex = fo.funcIndex := of_decide_eq_true heq
    exact (nodup_cons.1 htail).1 (hsame ▸ mem_map_of_mem h')
  have hself : decide (fo.funcIndex = fo.funcIndex) = true := decide_eq_true rfl
  rw [filter_append, filter_cons, if_pos hself, hleft, hright]
  rfl

theorem storageIdx_eq_zero (ho : Visible func o)
    (honly : ∀ o', Visible func o' → o' = o) : storageIdx func o = 0 := by
  obtain ⟨d, hd, -⟩ := ho
  have hlt : o < func.outputs.length := (List.getElem?_eq_some_iff.1 hd).1
  have hall : ∀ d' ∈ func.outputs.take o, d'.consumedInternally = true := by
    intro d' hd'
    obtain ⟨i, hi⟩ := mem_iff_getElem?.mp hd'
    have hio : i < o := by
      have hlt := (List.getElem?_eq_some_iff.1 hi).1
      rw [length_take] at hlt
      omega
    rw [getElem?_take_of_lt hio] at hi
    by_contra hflag
    have hsame := honly i ⟨d', hi, by simpa using hflag⟩
    omega
  have hcount : consumedBefore func o = o := by
    rw [consumedBefore, countP_eq_length.2 hall, length_take]
    omega
  rw [storageIdx, hcount, Nat.sub_self]

theorem delivered_of_projected (hok : PlanOk plan g weights policy)
    (hs : Started plan g policy base) (hstart : Reached plan base plan.nodes.length start)
    (ht : Projected start plan.funcOutputs t) : Delivered plan g t.toKvGraphState := by
  intro f hf func hfunc o ho
  obtain ⟨fo, hfo, rfl, rfl⟩ := hok.complete f hf func hfunc o ho
  have honly : ∀ o', Visible func o' → o' = fo.outputIndex := by
    intro o' ho'
    obtain ⟨fo', hfo', hfunc', rfl⟩ := hok.complete _ hf func hfunc o' ho'
    have hsame := inj_on_of_nodup_map hok.funcs hfo' hfo hfunc'
    rw [hsame]
  have horigins := ht.origins fo.funcIndex
  rw [hstart.funcOutputs, hs.free _ (not_before_of_covered hf),
    slotsOf_eq_singleton hok.funcs hfo] at horigins
  obtain ⟨slot, hslot, horigin⟩ := map_eq_singleton_iff.1 horigins
  obtain ⟨v, origin⟩ := slot
  cases horigin
  refine ⟨v, ?_⟩
  have hzero := storageIdx_eq_zero ho honly
  rw [storageIdx] at hzero
  rw [readStored, orPanic_eq_ok.2 hfunc]
  show readFuncOutput t.funcOutputs _ (fo.outputIndex - consumedBefore func fo.outputIndex) = _
  rw [hzero, readFuncOutput_eq_ok]
  have hlt : fo.funcIndex < t.funcOutputs.length := by
    rw [ht.length, hstart.funcOutputs, hs.length]
    exact (List.getElem?_eq_some_iff.1 hfunc).1
  rw [getD_eq_getElem?_getD, getElem?_eq_getElem hlt] at hslot
  have hslot : t.funcOutputs[fo.funcIndex] = [⟨v, (fo.funcIndex, fo.outputIndex)⟩] := hslot
  exact ⟨_, getElem?_eq_getElem hlt, by rw [hslot]; rfl⟩

theorem planSafe_of_planOk (hv : Validated plan g weights) (hok : PlanOk plan g weights policy) :
    PlanSafe plan g weights policy := by
  intro env rid s hs
  have hlands : Lands OfTensors (Delivered plan g) (runOpPlan env plan g weights policy rid s) := by
    refine (Lands.foldlM (I := Reached plan s) reached_start fun k node t hk ht =>
      lands_runNode hv hok hs ht hk).bind fun start _ hstart => ?_
    have hfirst : Projected start (plan.funcOutputs.take 0) start := by
      rw [take_zero]
      exact projected_start
    refine (Lands.foldlM (I := fun j => Projected start (plan.funcOutputs.take j)) hfirst
      fun j fo t hj ht => lands_projectFuncOutput hv hok hs hstart ht hj).bind fun t _ ht => ?_
    rw [take_length] at ht
    exact delivered_of_projected hok hs hstart ht
  cases hrun : runOpPlan env plan g weights policy rid s with
  | ok =>
    rw [hrun] at hlands
    exact hlands
  | error e =>
    rw [hrun] at hlands
    cases e with
    | tensors => trivial
    | structural => exact hlands.elim

end Progress

end CompileForge.Runtime
