/-
  The run in which only the plan can fail.  A plan that is safe gets through it, and each step
  of it shows one part of the condition.
-/

import CompileForge.Runtime.Engine.PlanSafety

namespace CompileForge.Runtime

open Abi Lib List

def probeValue : Value := .f32 ⟨[], []⟩

/-- Every weight is loaded, and every kernel gives the empty tensor. -/
def probeEnv : PlanEnv where
  execute _ _ _ := probeValue
  provider _ := some ([], [])
  sgemm _ _ _ := []
  add a _ := a
  ofUsize _ := 0
  inputIds := []
  positions := []
  resolveShape _ _ _ := .ok []
  kernel _ _ _ _ _ := .ok []

def outputKeys (g : ComputeGraph) : List (Nat × Nat) :=
  g.functions.zipIdx.flatMap fun e => (range e.1.outputs.length).map fun o => (e.2, o)

def visibleSlots (func : FuncDef) (f : Nat) : List OutputSlot :=
  ((range func.outputs.length).filter fun o => Visible func o).map fun o =>
    ⟨probeValue, (f, o)⟩

/-- The functions before the covered ones have left exactly what they must, and there is no block
    manager. -/
def probeState (plan : OpPlan) (g : ComputeGraph) (weights : WeightRegistry)
    (policy : CachePolicy) : KvGraphState where
  funcOutputs := g.functions.zipIdx.map fun e =>
    if Before plan e.2 then visibleSlots e.1 e.2 else []
  kvNew := tableOf ((outputKeys g).filter fun key => Before plan key.1 ∧ KvKept g policy key)
    probeValue
  blockManager := none
  weightCache := tableOf (weights.nameMapping ++ weights.constants) ⟨[], []⟩

variable {plan : OpPlan} {g : ComputeGraph} {weights : WeightRegistry} {policy : CachePolicy}
  {rid : Option String}

/-! ## Its start -/

variable {func : FuncDef} {o : Nat}

theorem consumedBefore_succ {d : GraphTensorDef}
    (hd : func.outputs[o]? = some d) :
    consumedBefore func (o + 1) =
      consumedBefore func o + if d.consumedInternally then 1 else 0 := by
  rw [consumedBefore, take_add_one, hd, countP_append]
  show _ + [d].countP _ = _
  rw [countP_singleton]
  rfl

theorem storageIdx_eq (ho : o ≤ func.outputs.length) :
    storageIdx func o = (range o).countP fun k => decide (Visible func k) := by
  have hcount : consumedBefore func o =
      (range o).countP fun k => !decide (Visible func k) := by
    induction o with
    | zero => rfl
    | succ o ih =>
      have hd := getElem?_eq_getElem (l := func.outputs) (i := o) (by omega)
      rw [consumedBefore_succ hd, ih (by omega), range_succ, countP_append, countP_singleton]
      have hvisible : Visible func o ↔ func.outputs[o].consumedInternally = false := by
        simp only [Visible, hd, Option.mem_def, Option.some_inj, exists_eq_left']
      cases hflag : func.outputs[o].consumedInternally with
      | true => rw [decide_eq_false (by rw [hvisible, hflag]; decide)]; rfl
      | false => rw [decide_eq_true (by rw [hvisible, hflag])]; rfl
  have hle := countP_range_le (fun k => decide (Visible func k)) o
  rw [storageIdx, hcount, countP_range_not]
  omega

theorem getElem?_visibleSlots {f i : Nat} {slot : OutputSlot} :
    (visibleSlots func f)[i]? = some slot ↔
      ∃ o, Visible func o ∧ storageIdx func o = i ∧ slot = ⟨probeValue, (f, o)⟩ := by
  rw [visibleSlots, getElem?_map, Option.map_eq_some_iff]
  simp only [getElem?_filter_range_iff, decide_eq_true_eq]
  constructor
  · rintro ⟨o, ⟨hlt, hvisible, hi⟩, rfl⟩
    exact ⟨o, hvisible, by rw [storageIdx_eq (by omega), hi], rfl⟩
  · rintro ⟨o, hvisible, hi, rfl⟩
    have hlt : o < func.outputs.length := by
      obtain ⟨d, hd, -⟩ := hvisible
      exact (List.getElem?_eq_some_iff.1 hd).1
    exact ⟨o, ⟨hlt, hvisible, by rw [← hi, storageIdx_eq (by omega)]⟩, rfl⟩

theorem probeState_funcOutputs (f : Nat) :
    (probeState plan g weights policy).funcOutputs[f]? =
      g.functions[f]?.map fun func => if Before plan f then visibleSlots func f else [] := by
  rw [probeState, getElem?_map, getElem?_zipIdx, Option.map_map, zero_add]
  rfl

theorem mem_outputKeys {key : Nat × Nat} :
    key ∈ outputKeys g ↔ ∃ func, g.functions[key.1]? = some func ∧ key.2 < func.outputs.length := by
  obtain ⟨f, o⟩ := key
  rw [outputKeys, mem_flatMap]
  constructor
  · rintro ⟨⟨func, f'⟩, hfunc, hmem⟩
    obtain ⟨o', ho, heq⟩ := mem_map.1 hmem
    cases heq
    exact ⟨func, mk_mem_zipIdx_iff_getElem?.mp hfunc, mem_range.1 ho⟩
  · rintro ⟨func, hfunc, ho⟩
    exact ⟨(func, f), mk_mem_zipIdx_iff_getElem?.mpr hfunc, mem_map.2 ⟨o, mem_range.2 ho, rfl⟩⟩

theorem probeState_kvNew (key : Nat × Nat) :
    ((probeState plan g weights policy).kvNew.lookup key).isSome = true ↔
      Before plan key.1 ∧ KvKept g policy key := by
  show ((tableOf _ _).lookup key).isSome = true ↔ _
  rw [isSome_lookup_tableOf, mem_filter, decide_eq_true_eq]
  refine and_iff_right_of_imp fun ⟨_, func, hfunc, d, hd, _⟩ => ?_
  exact mem_outputKeys.2 ⟨func, hfunc, (List.getElem?_eq_some_iff.1 hd).1⟩

theorem started_probeState : Started plan g policy (probeState plan g weights policy) where
  length := by rw [probeState, length_map, List.length_zipIdx]
  pushed f func hf hfunc o ho := by
    refine ⟨probeValue, ?_⟩
    rw [readStored, orPanic_eq_ok.2 hfunc]
    refine readFuncOutput_eq_ok.2 ⟨visibleSlots func f, ?_, ?_⟩
    · rw [probeState_funcOutputs, hfunc, Option.map_some, if_pos hf]
    · exact getElem?_visibleSlots.2 ⟨o, ho, rfl, rfl⟩
  kept key hf hkept := (probeState_kvNew key).2 ⟨hf, hkept⟩
  free f hf := by
    rw [getD_eq_getElem?_getD, probeState_funcOutputs]
    cases g.functions[f]? with
    | none => rfl
    | some => rw [Option.map_some, if_neg hf]; rfl

/-! ## Nothing else fails -/

section Quiet

variable {α : Type} {s : PlanState} {node : OpPlanNode}

/-- No block manager, and every weight that the registry maps is loaded. -/
structure Quiet (weights : WeightRegistry) (s : KvGraphState) : Prop where
  blockManager : s.blockManager = none
  loaded : ∀ name, name ∈ weights.nameMapping ∨ name ∈ weights.constants →
    (s.weightCache.lookup name).isSome = true

abbrev OfPlan (e : PlanFailure) : Prop := ¬ OfTensors e

theorem plan_structurally (x : Except Failure α) :
    Lands OfPlan (fun _ => True) (structurally x) := by
  cases x with
  | ok => trivial
  | error => exact fun h => h

theorem quiet_probeState : Quiet weights (probeState plan g weights policy) where
  blockManager := rfl
  loaded _ hname := isSome_lookup_tableOf.2 (List.mem_append.2 hname)

theorem loadWeightTensor_keeps {genv : GraphEnv} {cache cache' : WeightCache} {key name : String}
    {ioDef : GraphTensorDef} {t : Tensor}
    (h : loadWeightTensor genv cache key ioDef = .ok (t, cache'))
    (hname : (cache.lookup name).isSome = true) : (cache'.lookup name).isSome = true := by
  rw [loadWeightTensor] at h
  cases hkey : cache.lookup key with
  | some =>
    rw [hkey] at h
    cases h
    exact hname
  | none =>
    rw [hkey] at h
    obtain ⟨⟨sizes, data⟩, -, h⟩ := bind_eq_ok h
    obtain ⟨_, -, h⟩ := bind_eq_ok h
    cases h
    exact isSome_lookup_insert.2 (.inl hname)

theorem plan_loadPlanWeight (hs : Quiet weights s.toKvGraphState) (name : String)
    (ioDef : GraphTensorDef) :
    Lands OfPlan (fun e => Quiet weights e.2.toKvGraphState)
      (loadPlanWeight probeEnv weights s name ioDef) := by
  rw [loadPlanWeight]
  by_cases hknown : name ∈ weights.nameMapping ∨ name ∈ weights.constants
  · simp only [if_pos hknown]
    obtain ⟨t, ht⟩ := Option.isSome_iff_exists.1 (hs.loaded name hknown)
    rw [loadWeightTensor, ht]
    exact hs
  · simp only [if_neg hknown]
    refine (plan_structurally (loadWeightTensor probeEnv.toGraphEnv s.weightCache name ioDef)).bind
      fun e he _ => ?_
    have hload := structurally_eq_ok.1 he
    exact ⟨hs.blockManager, fun other hother => loadWeightTensor_keeps hload
      (hs.loaded other hother)⟩

theorem plan_readCached (hs : Quiet weights s.toKvGraphState) (fi oi : Nat) :
    Lands OfPlan (fun _ => True) (readCached probeEnv g policy rid s fi oi) := by
  refine (plan_structurally _).bind fun producer _ _ => ?_
  refine (plan_structurally _).bind fun v hv _ => ?_
  have hlookup := orError_eq_ok.1 (structurally_eq_ok.1 hv)
  have hread : ∀ slab, interceptInput probeEnv.hooks rid producer slab s.toKvGraphState fi oi =
      .ok v := by
    intro slab
    have hnone : probeEnv.hooks.inputIds.length ≠ 1 ∨ s.blockManager.isNone = true :=
      .inr (by rw [hs.blockManager]; rfl)
    rw [interceptInput, orError_eq_ok.2 hlookup]
    simp only [bind, Except.bind, if_pos hnone]
  rw [hread]
  trivial

theorem plan_resolveInput (hs : Quiet weights s.toKvGraphState) (e : OpPlanInput × Nat) :
    Lands OfPlan (fun r => Quiet weights r.2.toKvGraphState)
      (resolveInput probeEnv plan g weights policy rid node s e) := by
  obtain ⟨input, i⟩ := e
  refine (plan_structurally _).bind fun source _ _ => ?_
  dsimp only
  split
  · refine Lands.bind (P := fun _ => True) ?_ fun v _ _ => hs
    refine (plan_structurally _).bind fun producer _ _ => ?_
    refine (plan_structurally _).bind fun output _ _ => ?_
    cases output.cache with
    | some => exact plan_readCached hs _ _
    | none => exact plan_structurally _
  · refine Lands.bind (P := fun _ => True) ?_ fun v _ _ => hs
    refine (plan_structurally _).bind fun producer _ _ => ?_
    refine (plan_structurally _).bind fun outDef _ _ => ?_
    split_ifs
    · exact plan_readCached hs _ _
    · refine (plan_structurally _).bind fun outputs _ _ => ?_
      exact (plan_structurally _).bind fun _ _ _ => trivial
  · split_ifs
    · refine Lands.bind (P := fun _ => True) trivial fun _ _ _ => ?_
      exact plan_loadPlanWeight hs _ _
    · exact plan_loadPlanWeight hs _ _
  · exact plan_loadPlanWeight hs _ _
  · refine (plan_structurally _).bind fun name _ _ => ?_
    split_ifs
    · exact plan_loadPlanWeight hs _ _
    · exact fun h => h
  · exact fun h => h

theorem plan_runNode (hs : Quiet weights s.toKvGraphState) :
    Lands OfPlan (fun t => Quiet weights t.toKvGraphState)
      (runNode probeEnv plan g weights policy rid s node) := by
  have hinputs : Lands OfPlan (fun e => Quiet weights e.2.toKvGraphState)
      (resolveInputs probeEnv plan g weights policy rid node s) :=
    Lands.foldlM (I := fun _ (acc : List Value × PlanState) => Quiet weights acc.2.toKvGraphState)
      hs fun _ e acc _ hacc => (plan_resolveInput hacc e).bind fun _ _ hr => hr
  refine hinputs.bind fun e _ he => ?_
  have hkernel : Lands OfPlan (fun _ => True) (runKernel probeEnv node e.1) := by
    refine (plan_structurally _).bind fun op _ _ => ?_
    refine (plan_structurally _).bind fun _ _ _ => ?_
    refine Lands.bind (P := fun _ => True) trivial fun shape _ _ => ?_
    exact (plan_structurally _).bind fun _ _ _ => trivial
  refine hkernel.bind fun v _ _ => ?_
  refine (plan_structurally _).bind fun output _ _ => ?_
  cases output.cache with
  | none => exact he
  | some =>
    refine (plan_structurally _).bind fun func _ _ => ?_
    rw [interceptOutput, he.blockManager]
    exact ⟨rfl, he.loaded⟩

theorem plan_runOpPlan :
    Lands OfPlan (fun _ => True) (runOpPlan probeEnv plan g weights policy rid
      (probeState plan g weights policy)) := by
  refine (Lands.foldlM (I := fun _ s => Quiet weights s.toKvGraphState) quiet_probeState
    fun k node t _ ht => plan_runNode ht).bind fun s _ _ => ?_
  refine Lands.bind (P := fun _ => True) ?_ fun _ _ _ => trivial
  exact Lands.foldlM (I := fun _ _ => True) trivial fun j fo t _ _ => plan_structurally _

theorem PlanSafe.probe (h : PlanSafe plan g weights policy) :
    ∃ s, runOpPlan probeEnv plan g weights policy none (probeState plan g weights policy) = .ok s ∧
      Delivered plan g s := by
  have hsafe := h probeEnv none (probeState plan g weights policy) started_probeState
  have hlands : Lands OfTensors (Delivered plan g)
      (runOpPlan probeEnv plan g weights policy none (probeState plan g weights policy)) := by
    cases hrun : runOpPlan probeEnv plan g weights policy none
        (probeState plan g weights policy) with
    | ok s =>
      rw [hrun] at hsafe
      exact hsafe
    | error e =>
      rw [hrun] at hsafe
      cases e with
      | tensors => trivial
      | structural => exact hsafe.elim
  exact hlands.ok_of_not plan_runOpPlan

end Quiet

/-! ## What each step shows -/

section Shown

variable {t t' : PlanState} {node : OpPlanNode} {idx : Nat}

theorem cachedBefore_of_available {key : Nat × Nat}
    (ht : Reached plan (probeState plan g weights policy) idx t)
    (hkey : (t.kvNew.lookup key).isSome = true) : CachedBefore plan g policy idx key := by
  rw [ht.kvNew, probeState_kvNew] at hkey
  exact hkey

theorem available_of_readCached {fi oi : Nat} {v : Value}
    (h : readCached probeEnv g policy rid t fi oi = .ok v) :
    (t.kvNew.lookup (fi, oi)).isSome = true := by
  obtain ⟨_, -, h⟩ := bind_eq_ok h
  obtain ⟨u, hu, -⟩ := bind_eq_ok h
  rw [orError_eq_ok.1 (structurally_eq_ok.1 hu)]
  rfl

theorem inputOk_of_resolved (ht : Reached plan (probeState plan g weights policy) idx t)
    {input : OpPlanInput} {i : Nat} {r : Value × PlanState}
    (h : resolveInput probeEnv plan g weights policy rid node t (input, i) = .ok r) :
    InputOk plan g weights policy idx input := by
  obtain ⟨source, hsource, h⟩ := bind_eq_ok h
  rw [InputOk, orError_eq_ok.1 (structurally_eq_ok.1 hsource)]
  dsimp only at h
  split at h
  case h_1 _ p hbind =>
    rw [hbind]
    obtain ⟨v, h, -⟩ := bind_eq_ok h
    obtain ⟨producer, hproducer, h⟩ := bind_eq_ok h
    obtain ⟨output, houtput, h⟩ := bind_eq_ok h
    refine ⟨producer, orPanic_eq_ok.1 (structurally_eq_ok.1 hproducer), output,
      orPanic_eq_ok.1 (structurally_eq_ok.1 houtput), ?_⟩
    cases hcache : output.cache with
    | some =>
      rw [hcache] at h
      exact cachedBefore_of_available ht (available_of_readCached h)
    | none =>
      rw [hcache] at h
      have hvalue := orError_eq_ok.1 (structurally_eq_ok.1 h)
      exact ((ht.values _).1 (by rw [hvalue]; rfl)).1
  case h_2 _ f hbind =>
    rw [hbind]
    obtain ⟨v, h, -⟩ := bind_eq_ok h
    obtain ⟨func, hfunc, h⟩ := bind_eq_ok h
    obtain ⟨d, hd, h⟩ := bind_eq_ok h
    have hfunc := orPanic_eq_ok.1 (structurally_eq_ok.1 hfunc)
    have hd := orPanic_eq_ok.1 (structurally_eq_ok.1 hd)
    have hkept : KvKept g policy (f.funcIndex, f.outputIndex) ↔
        shouldInterceptConsumed f.funcIndex f.outputIndex policy d = true := by
      simp only [KvKept, hfunc, hd, Option.mem_def, Option.some_inj, exists_eq_left']
    by_cases hkv : KvKept g policy (f.funcIndex, f.outputIndex)
    · rw [if_pos (hkept.1 hkv)] at h
      show FuncOutputOk plan g policy idx f
      rw [FuncOutputOk, if_pos hkv]
      exact cachedBefore_of_available ht (available_of_readCached h)
    · rw [if_neg (mt hkept.2 hkv)] at h
      show FuncOutputOk plan g policy idx f
      rw [FuncOutputOk, if_neg hkv]
      obtain ⟨outputs, houtputs, h⟩ := bind_eq_ok h
      obtain ⟨slot, hslot, -⟩ := bind_eq_ok h
      have houtputs := orPanic_eq_ok.1 (structurally_eq_ok.1 houtputs)
      have hslot := orError_eq_ok.1 (structurally_eq_ok.1 hslot)
      rw [ht.funcOutputs, probeState_funcOutputs, hfunc, Option.map_some] at houtputs
      by_cases hbefore : Before plan f.funcIndex
      · rw [if_pos hbefore] at houtputs
        cases houtputs
        obtain ⟨o, hvisible, hidx, -⟩ := getElem?_visibleSlots.1 hslot
        exact ⟨hbefore, func, hfunc, o, hvisible, hidx⟩
      · rw [if_neg hbefore] at houtputs
        cases houtputs
        cases hslot
  case h_3 _ name hbind =>
    rw [hbind]
    trivial
  case h_4 _ name hbind =>
    rw [hbind]
    trivial
  case h_5 _ j hbind =>
    rw [hbind]
    obtain ⟨name, hname, h⟩ := bind_eq_ok h
    refine ⟨name, orPanic_eq_ok.1 (structurally_eq_ok.1 hname), ?_⟩
    by_contra hunknown
    rw [if_neg hunknown] at h
    cases h
  case h_6 => cases h

theorem fits_of_runKernel {vs : List Value} {v : Value} {env : PlanEnv}
    (h : runKernel env node vs = .ok v) :
    ∃ op ∈ HalOp.ofName? node.opName, op.Fits vs.length node.attributes := by
  obtain ⟨op, hop, h⟩ := bind_eq_ok h
  obtain ⟨_, hshape, h⟩ := bind_eq_ok h
  obtain ⟨_, -, h⟩ := bind_eq_ok h
  obtain ⟨_, hkernel, -⟩ := bind_eq_ok h
  exact ⟨op, orError_eq_ok.1 (structurally_eq_ok.1 hop),
    operands_eq_ok.1 ⟨structurally_eq_ok.1 hshape, structurally_eq_ok.1 hkernel⟩⟩

theorem nodup_map_visibleOf {β : Type} {f : OpPlanFuncOutput → β}
    (h : ∀ (j : Nat) (fo : OpPlanFuncOutput), plan.funcOutputs[j]? = some fo →
      fo.consumedInternally = false → ∀ fo' ∈ visibleOf (plan.funcOutputs.take j), f fo' ≠ f fo) :
    ((visibleOf plan.funcOutputs).map f).Nodup := by
  have hprefix : ∀ j, ((visibleOf (plan.funcOutputs.take j)).map f).Nodup := by
    intro j
    induction j with
    | zero => exact nodup_nil
    | succ j ih =>
      rw [take_add_one]
      cases hj : plan.funcOutputs[j]? with
      | none =>
        rw [Option.toList_none, append_nil]
        exact ih
      | some fo =>
        rw [Option.toList_some]
        cases hfo : fo.consumedInternally with
        | true =>
          rw [visibleOf_append_consumed hfo]
          exact ih
        | false =>
          rw [visibleOf_append_visible hfo, map_append]
          refine nodup_append.2 ⟨ih, nodup_singleton _, ?_⟩
          intro a ha b hb
          obtain ⟨fo', hfo', rfl⟩ := mem_map.1 ha
          rw [map_singleton, mem_singleton] at hb
          rw [hb]
          exact h j fo hj hfo fo' hfo'
  have hall := hprefix plan.funcOutputs.length
  rwa [take_length] at hall

theorem PlanSafe.planOk (h : PlanSafe plan g weights policy) (hv : Validated plan g weights) :
    PlanOk plan g weights policy := by
  obtain ⟨kv, hrun, hdelivered⟩ := h.probe
  obtain ⟨start, s, hstart, hlast, rfl, hturns, hmoves⟩ := runOpPlan_spec hrun
  have hfree : ∀ f ∈ coveredFuncIndices plan, start.funcOutputs.getD f [] = [] := fun f hf => by
    rw [hstart.funcOutputs]
    exact started_probeState.free f (not_before_of_covered hf)
  have hnode : ∀ node ∈ plan.nodes, ∃ vs output, vs.length = node.inputs.length ∧
      node.outputs.head? = some output ∧ ∃ v, runKernel probeEnv node vs = .ok v := by
    intro node hmem
    obtain ⟨idx, hidx⟩ := mem_iff_getElem?.mp hmem
    obtain ⟨t, t', -, hnode⟩ := hturns idx node hidx
    obtain ⟨vs, _, v, output, hinputs, hkernel, hhead, -⟩ := runNode_spec hnode
    exact ⟨vs, output, (resolveInputs_spec hinputs).2.1, hhead, v, hkernel⟩
  have hvisible : ∀ (j : Nat) (fo : OpPlanFuncOutput), plan.funcOutputs[j]? = some fo →
      fo.consumedInternally = false → ∃ t r v, Projected start (plan.funcOutputs.take j) t ∧
        fo.value = some r ∧ t.values.lookup (r.nodeIndex, r.outputIndex) = some v ∧
        t.funcOutputs[fo.funcIndex]? = some [] := by
    intro j fo hj hfo
    obtain ⟨t, t', ht, hmove⟩ := hmoves j fo hj
    have hspec := projectFuncOutput_spec hmove
    rw [if_neg (by rw [hfo]; decide)] at hspec
    obtain ⟨r, v, hr, hval, hslot, -⟩ := hspec
    exact ⟨t, r, v, ht, hr, hval, hslot⟩
  constructor
  case inputs =>
    intro idx node hidx input hinput
    obtain ⟨t, t', ht, hnode⟩ := hturns idx node hidx
    obtain ⟨vs, _, _, _, hinputs, -, -, -⟩ := runNode_spec hnode
    obtain ⟨i, hi⟩ := mem_iff_getElem?.mp hinput
    obtain ⟨u, v, u', hu, hread⟩ := (resolveInputs_spec hinputs).2.2 i input hi
    exact inputOk_of_resolved (ht.sameData hu) hread
  case operands =>
    intro node hmem
    obtain ⟨vs, _, hlength, -, v, hkernel⟩ := hnode node hmem
    rw [← hlength]
    exact fits_of_runKernel hkernel
  case outputs =>
    intro node hmem hnil
    obtain ⟨_, output, -, hhead, -⟩ := hnode node hmem
    rw [hnil] at hhead
    cases hhead
  case consumed =>
    intro fo hmem hfo
    obtain ⟨j, hj⟩ := mem_iff_getElem?.mp hmem
    obtain ⟨t, t', ht, hmove⟩ := hmoves j fo hj
    have hspec := projectFuncOutput_spec hmove
    rw [if_pos hfo] at hspec
    have hkept := hspec.2
    rw [ht.kvNew] at hkept
    exact cachedBefore_of_available hstart hkept
  case values =>
    intro fo hmem
    obtain ⟨hmem, hfo⟩ := mem_visibleOf.1 hmem
    obtain ⟨j, hj⟩ := mem_iff_getElem?.mp hmem
    obtain ⟨t, r, v, ht, hr, hval, -⟩ := hvisible j fo hj hfo
    have hsome : (t.values.lookup (r.nodeIndex, r.outputIndex)).isSome = true := by
      rw [hval]
      rfl
    obtain ⟨hzero, node, hnode, hindex, hplain⟩ := (hstart.values _).1 ((ht.values _).1 hsome).1
    rw [take_length] at hnode
    obtain ⟨idx, hidx⟩ := mem_iff_getElem?.mp hnode
    have hpos : idx = r.nodeIndex := (hv.index idx node hidx).symm.trans hindex
    subst hpos
    exact ⟨r, hr, hzero, node, hidx, hplain⟩
  case refs =>
    refine nodup_map_visibleOf fun j fo hj hfo fo' hfo' heq => ?_
    obtain ⟨t, r, v, ht, hr, hval, -⟩ := hvisible j fo hj hfo
    have hsome : (t.values.lookup (r.nodeIndex, r.outputIndex)).isSome = true := by
      rw [hval]
      rfl
    exact ((ht.values _).1 hsome).2 fo' hfo' (heq.trans hr)
  case funcs =>
    refine nodup_map_visibleOf fun j fo hj hfo fo' hfo' heq => ?_
    obtain ⟨t, r, v, ht, -, -, hslot⟩ := hvisible j fo hj hfo
    have horigins := ht.origins fo.funcIndex
    rw [getD_eq_getElem?_getD, hslot, hfree _ (hv.projections fo (mem_of_getElem? hj)).1]
      at horigins
    have hmem : (fo'.funcIndex, fo'.outputIndex) ∈ slotsOf (plan.funcOutputs.take j) fo.funcIndex :=
      mem_map_of_mem (mem_filter.2 ⟨hfo', decide_eq_true heq⟩)
    have hnil : slotsOf (plan.funcOutputs.take j) fo.funcIndex = [] := horigins.symm
    rw [hnil] at hmem
    cases hmem
  case complete =>
    intro f hf func hfunc o ho
    obtain ⟨v, hread⟩ := hdelivered f hf func hfunc o ho
    rw [readStored, orPanic_eq_ok.2 hfunc] at hread
    obtain ⟨outputs, houtputs, hslot⟩ := readFuncOutput_eq_ok.1 hread
    have horigins := hlast.origins f
    rw [getD_eq_getElem?_getD, houtputs, hfree f hf] at horigins
    have hmem : (f, o) ∈ outputs.map (·.origin) :=
      mem_map.2 ⟨_, mem_of_getElem? hslot, rfl⟩
    have horigins : outputs.map (·.origin) = slotsOf plan.funcOutputs f := horigins
    rw [horigins] at hmem
    obtain ⟨fo, hfilter, heq⟩ := mem_map.1 hmem
    have hfo := (mem_filter.1 hfilter).1
    cases heq
    exact ⟨fo, hfo, rfl, rfl⟩

end Shown

def visibleFunc (index n : Nat) : FuncDef where
  index := index
  symbol := s!"main_{index}"
  numInputs := 0
  numOutputs := n
  inputs := []
  outputs := replicate n
    { consumedInternally := false, rank := 3, shape := [1, 0, 8], dtype := .f32 }
  consumedSubOutputFlags := []

/-- An embedding, and a function with `n` outputs. -/
def twoFuncs (n : Nat) : ComputeGraph where
  functions := [visibleFunc 0 1, visibleFunc 1 n]
  globalInput := (0, 0)
  globalOutput := (1, 0)

def float32Spec : OpTensorSpec where
  rank := 3
  dims := [1, 0, 8]
  dtype := "float32"

def reluNode (index : Nat) (source : Int) (binding : OpPlanBinding) : OpPlanNode where
  index := index
  opName := "relu"
  inputs := [{ source, binding := some binding, spec := some float32Spec }]
  outputs := [{ cache := none }]
  sourceFuncIndices := [1]
  attributes := []

def reluOutput (o : Nat) : OpPlanFuncOutput where
  funcIndex := 1
  outputIndex := o
  value := some ⟨o, 0⟩
  consumedInternally := false

def reluPlan : OpPlan where
  globalInputs := []
  nodes := [reluNode 0 4 (.funcProducer ⟨0, 0⟩)]
  funcOutputs := [reluOutput 0]

/-- `relu` of the embedding, and `relu` of that: two outputs of one function. -/
def reluTwicePlan : OpPlan where
  globalInputs := []
  nodes := [reluNode 0 4 (.funcProducer ⟨0, 0⟩), reluNode 1 2 (.producer ⟨0, 0⟩)]
  funcOutputs := [reluOutput 0, reluOutput 1]

end CompileForge.Runtime
