/-
  What a run of an op plan has at hand before each node and each projection.
-/

import CompileForge.Runtime.Engine.OpPlan
import CompileForge.Runtime.Engine.GraphWiring
import CompileForge.Lib.AssocTable

namespace CompileForge.Runtime

open Abi Lib List

variable {α : Type} {env : PlanEnv} {plan : OpPlan} {g : ComputeGraph} {weights : WeightRegistry}
  {policy : CachePolicy} {rid : Option String}

variable {x : Except Failure α} {a : α} {v : Value}

theorem structurally_eq_ok :
    structurally x = .ok a ↔ x = .ok a := mapError_eq_ok

/-- The function output that a node's first output is kept as by the hooks. -/
def cacheKey (node : OpPlanNode) : Option (Nat × Nat) := do
  let output ← node.outputs.head?
  let cache ← output.cache
  some (cache.sourceFuncIndex, cache.sourceOutputIndex)

/-- A node that ran is found under its first output: in `values`, unless that output is a cache
    projection. -/
def HeadPlain (node : OpPlanNode) : Prop := ∃ output ∈ node.outputs.head?, output.cache = none

/-! ## One node -/

theorem loadPlanWeight_frame {s s' : PlanState} {name : String} {ioDef : GraphTensorDef}
    (h : loadPlanWeight env weights s name ioDef = .ok (v, s')) :
    s' = { s with weightCache := s'.weightCache } := by
  obtain ⟨⟨t, cache⟩, -, h⟩ := bind_eq_ok h
  cases h
  rfl

theorem resolveInput_frame {node : OpPlanNode} {s s' : PlanState} {e : OpPlanInput × Nat}
    (h : resolveInput env plan g weights policy rid node s e = .ok (v, s')) :
    s' = { s with weightCache := s'.weightCache } := by
  obtain ⟨input, i⟩ := e
  obtain ⟨source, -, h⟩ := bind_eq_ok h
  dsimp only at h
  split at h
  · obtain ⟨v', -, h⟩ := bind_eq_ok h
    cases h
    rfl
  · obtain ⟨v', -, h⟩ := bind_eq_ok h
    cases h
    rfl
  · split_ifs at h
    · obtain ⟨_, -, h⟩ := bind_eq_ok h
      exact loadPlanWeight_frame h
    · exact loadPlanWeight_frame h
  · exact loadPlanWeight_frame h
  · obtain ⟨name, -, h⟩ := bind_eq_ok h
    split_ifs at h
    · exact loadPlanWeight_frame h
  · cases h

theorem resolveInputs_spec {node : OpPlanNode} {s s' : PlanState} {vs : List Value}
    (h : resolveInputs env plan g weights policy rid node s = .ok (vs, s')) :
    s' = { s with weightCache := s'.weightCache } ∧ vs.length = node.inputs.length ∧
      ∀ (i : Nat) (input : OpPlanInput), node.inputs[i]? = some input →
        ∃ t v t', t = { s with weightCache := t.weightCache } ∧
          resolveInput env plan g weights policy rid node t (input, i) = .ok (v, t') := by
  have hrun := foldlM_eq_ok
    (P := fun k acc => acc.1.length = k ∧ acc.2 = { s with weightCache := acc.2.weightCache })
    ⟨rfl, rfl⟩ ?_ h
  · obtain ⟨⟨hlen, hframe⟩, hreads⟩ := hrun
    rw [length_zipIdx] at hlen
    refine ⟨hframe, hlen, fun i input hi => ?_⟩
    have he : node.inputs.zipIdx[i]? = some (input, i) := by
      rw [getElem?_zipIdx, hi, zero_add]
      rfl
    obtain ⟨acc, acc', ⟨-, hacc⟩, hturn⟩ := hreads i (input, i) he
    obtain ⟨⟨v, t'⟩, hread, -⟩ := bind_eq_ok hturn
    exact ⟨acc.2, v, t', hacc, hread⟩
  · rintro k e acc acc' - ⟨hlen, hacc⟩ hturn
    obtain ⟨⟨v, t'⟩, hread, hnext⟩ := bind_eq_ok hturn
    cases hnext
    have hframe := resolveInput_frame hread
    refine ⟨by rw [length_append, hlen, length_singleton], ?_⟩
    show t' = { s with weightCache := t'.weightCache }
    rw [hframe, hacc]

theorem interceptOutput_frame {genv : GraphEnv} {fd : FuncDef} {slab : Option SlabSpec} {oi : Nat}
    {s s' : KvGraphState} (h : interceptOutput genv rid fd slab oi v s = .ok s') :
    s'.funcOutputs = s.funcOutputs ∧ s'.kvNew = s.kvNew.insert (fd.index, oi) v := by
  rw [interceptOutput] at h
  cases hbm : s.blockManager with
  | none =>
    rw [hbm] at h
    cases h
    exact ⟨rfl, rfl⟩
  | some =>
    rw [hbm] at h
    cases rid with
    | none => cases h
    | some =>
      obtain ⟨t, -, h⟩ := bind_eq_ok h
      obtain ⟨⟨result, kv, bm'⟩, -, h⟩ := bind_eq_ok h
      cases result with
      | error => cases h
      | ok =>
        cases h
        exact ⟨rfl, rfl⟩

/-- Nothing else is added and nothing is taken away before the projections. -/
structure Reached (plan : OpPlan) (base : KvGraphState) (k : Nat) (s : PlanState) : Prop where
  funcOutputs : s.funcOutputs = base.funcOutputs
  kvNew : ∀ key : Nat × Nat, (s.kvNew.lookup key).isSome = true ↔
    (base.kvNew.lookup key).isSome = true ∨ ∃ node ∈ plan.nodes.take k, cacheKey node = some key
  values : ∀ key : Nat × Nat, (s.values.lookup key).isSome = true ↔
    key.2 = 0 ∧ ∃ node ∈ plan.nodes.take k, node.index = key.1 ∧ HeadPlain node

variable {base : KvGraphState} {k : Nat} {s s' t : PlanState} {node : OpPlanNode}

theorem reached_start : Reached plan base 0 ⟨base, ∅⟩ where
  funcOutputs := rfl
  kvNew key := by
    rw [take_zero]
    constructor
    · exact fun h => .inl h
    · rintro (h | ⟨node, hmem, -⟩)
      · exact h
      · cases hmem
  values key := by
    rw [take_zero, AList.lookup_empty]
    constructor
    · exact nofun
    · rintro ⟨-, node, hmem, -⟩
      cases hmem

theorem Reached.sameData (h : Reached plan base k s)
    (ht : t = { s with weightCache := t.weightCache }) : Reached plan base k t := by
  rw [ht]
  exact ⟨h.funcOutputs, h.kvNew, h.values⟩

theorem exists_mem_take_succ (hk : plan.nodes[k]? = some node) {p : OpPlanNode → Prop} :
    (∃ n ∈ plan.nodes.take (k + 1), p n) ↔ (∃ n ∈ plan.nodes.take k, p n) ∨ p node := by
  rw [take_add_one, hk]
  show (∃ n ∈ plan.nodes.take k ++ [node], p n) ↔ _
  constructor
  · rintro ⟨n, hmem, hp⟩
    rcases mem_append.1 hmem with hmem | hmem
    · exact .inl ⟨n, hmem, hp⟩
    · rw [mem_singleton] at hmem
      subst hmem
      exact .inr hp
  · rintro (⟨n, hmem, hp⟩ | hp)
    · exact ⟨n, mem_append_left _ hmem, hp⟩
    · exact ⟨node, mem_append_right _ (mem_singleton_self _), hp⟩

theorem isSome_lookup_insert {κ β : Type} [DecidableEq κ] {m : AList fun _ : κ => β}
    {key key' : κ} {v : β} :
    ((m.insert key v).lookup key').isSome = true ↔ (m.lookup key').isSome = true ∨ key = key' := by
  by_cases hkey : key' = key
  · subst hkey
    rw [AList.lookup_insert]
    exact iff_of_true rfl (.inr rfl)
  · rw [AList.lookup_insert_ne hkey, or_iff_left fun h => hkey h.symm]

theorem runNode_spec (h : runNode env plan g weights policy rid s node = .ok s') :
    ∃ vs t v output, resolveInputs env plan g weights policy rid node s = .ok (vs, t) ∧
      runKernel env node vs = .ok v ∧ node.outputs.head? = some output ∧
      match output.cache with
      | some cache => storeCached env g policy rid t cache v = .ok s'
      | none => s' = { t with values := t.values.insert (node.index, 0) v } := by
  obtain ⟨⟨vs, t⟩, hinputs, h⟩ := bind_eq_ok h
  obtain ⟨v, hkernel, h⟩ := bind_eq_ok h
  obtain ⟨output, houtput, h⟩ := bind_eq_ok h
  refine ⟨vs, t, v, output, hinputs, hkernel, orError_eq_ok.1 (structurally_eq_ok.1 houtput), ?_⟩
  cases hcache : output.cache with
  | none =>
    rw [hcache] at h
    cases h
    rfl
  | some =>
    rw [hcache] at h
    exact h

theorem storeCached_spec {cache : OpPlanCacheIntercept}
    (h : storeCached env g policy rid s cache v = .ok s') :
    s'.funcOutputs = s.funcOutputs ∧ s'.values = s.values ∧
      s'.kvNew = s.kvNew.insert (cache.sourceFuncIndex, cache.sourceOutputIndex) v := by
  obtain ⟨fd, -, h⟩ := bind_eq_ok h
  obtain ⟨kv, hkv, h⟩ := bind_eq_ok h
  cases h
  obtain ⟨houtputs, hkv⟩ := interceptOutput_frame (mapError_eq_ok.1 hkv)
  exact ⟨houtputs, rfl, hkv⟩

theorem Reached.step (h : Reached plan base k s) (hk : plan.nodes[k]? = some node)
    (hrun : runNode env plan g weights policy rid s node = .ok s') :
    Reached plan base (k + 1) s' := by
  obtain ⟨vs, t, v, output, hinputs, -, houtput, hstore⟩ := runNode_spec hrun
  have ht := h.sameData (resolveInputs_spec hinputs).1
  cases hcache : output.cache with
  | some cache =>
    rw [hcache] at hstore
    obtain ⟨hout, hvalues, hkv⟩ := storeCached_spec hstore
    have hkey : cacheKey node = some (cache.sourceFuncIndex, cache.sourceOutputIndex) := by
      rw [cacheKey, houtput]
      show (output.cache.bind fun c => some (c.sourceFuncIndex, c.sourceOutputIndex)) = _
      rw [hcache]
      rfl
    have hplain : ¬ HeadPlain node := by
      rintro ⟨output', hmem, hnone⟩
      rw [Option.mem_def, houtput] at hmem
      cases hmem
      rw [hcache] at hnone
      cases hnone
    refine ⟨hout.trans ht.funcOutputs, fun key => ?_, fun key => ?_⟩
    · rw [hkv, isSome_lookup_insert, ht.kvNew, exists_mem_take_succ hk, or_assoc, hkey,
        Option.some_inj]
    · rw [hvalues, ht.values, exists_mem_take_succ hk, or_iff_left fun hp => hplain hp.2]
  | none =>
    rw [hcache] at hstore
    subst hstore
    have hkey : cacheKey node = none := by
      rw [cacheKey, houtput]
      show (output.cache.bind fun c => some (c.sourceFuncIndex, c.sourceOutputIndex)) = _
      rw [hcache]
      rfl
    have hplain : HeadPlain node := ⟨output, houtput, hcache⟩
    refine ⟨ht.funcOutputs, fun key => ?_, fun key => ?_⟩
    · rw [ht.kvNew, exists_mem_take_succ hk, hkey, or_iff_left (a := ∃ _ ∈ _, _)
        nofun]
    · show ((t.values.insert (node.index, 0) v).lookup key).isSome = true ↔ _
      rw [isSome_lookup_insert, ht.values, exists_mem_take_succ hk, and_or_left]
      refine or_congr_right ?_
      constructor
      · rintro rfl
        exact ⟨rfl, rfl, hplain⟩
      · rintro ⟨hzero, hindex, -⟩
        rw [hindex, ← hzero]

/-! ## The projections -/

def visibleOf (fos : List OpPlanFuncOutput) : List OpPlanFuncOutput :=
  fos.filter fun fo => !fo.consumedInternally

theorem mem_visibleOf {fos : List OpPlanFuncOutput} {fo : OpPlanFuncOutput} :
    fo ∈ visibleOf fos ↔ fo ∈ fos ∧ fo.consumedInternally = false := by
  rw [visibleOf, mem_filter, Bool.not_eq_true']

def slotsOf (fos : List OpPlanFuncOutput) (f : Nat) : List (Nat × Nat) :=
  ((visibleOf fos).filter fun fo => fo.funcIndex = f).map fun fo => (fo.funcIndex, fo.outputIndex)

/-- A projection takes one value and leaves it in the slots of its function. -/
structure Projected (start : PlanState) (fos : List OpPlanFuncOutput) (s : PlanState) : Prop where
  length : s.funcOutputs.length = start.funcOutputs.length
  kvNew : s.kvNew = start.kvNew
  values : ∀ key : Nat × Nat, (s.values.lookup key).isSome = true ↔
    (start.values.lookup key).isSome = true ∧ ∀ fo ∈ visibleOf fos, fo.value ≠ some ⟨key.1, key.2⟩
  origins : ∀ f : Nat, (s.funcOutputs.getD f []).map (·.origin) =
    (start.funcOutputs.getD f []).map (·.origin) ++ slotsOf fos f

variable {start : PlanState} {fos : List OpPlanFuncOutput} {fo : OpPlanFuncOutput}

theorem projected_start : Projected start [] start where
  length := rfl
  kvNew := rfl
  values _ := (and_iff_left nofun).symm
  origins _ := (append_nil _).symm

theorem projectFuncOutput_spec (h : projectFuncOutput s fo = .ok s') :
    if fo.consumedInternally then
      s' = s ∧ (s.kvNew.lookup (fo.funcIndex, fo.outputIndex)).isSome = true
    else
      ∃ r v, fo.value = some r ∧ s.values.lookup (r.nodeIndex, r.outputIndex) = some v ∧
        s.funcOutputs[fo.funcIndex]? = some [] ∧
        s' = { s with
          values := s.values.erase (r.nodeIndex, r.outputIndex)
          funcOutputs := s.funcOutputs.modify fo.funcIndex
            (· ++ [⟨v, (fo.funcIndex, fo.outputIndex)⟩]) } := by
  have h := structurally_eq_ok.1 h
  split_ifs at h ⊢
  · obtain ⟨_, hsome, h⟩ := bind_eq_ok h
    cases h
    exact ⟨rfl, ensureOr_eq_ok.1 hsome⟩
  · obtain ⟨r, hr, h⟩ := bind_eq_ok h
    obtain ⟨v, hv, h⟩ := bind_eq_ok h
    obtain ⟨outputs, houtputs, h⟩ := bind_eq_ok h
    obtain ⟨_, hempty, h⟩ := bind_eq_ok h
    cases h
    have hnil := ensureOr_eq_ok.1 hempty
    subst hnil
    exact ⟨r, v, orError_eq_ok.1 hr, orError_eq_ok.1 hv, orPanic_eq_ok.1 houtputs, rfl⟩

theorem visibleOf_append_consumed (hfo : fo.consumedInternally = true) :
    visibleOf (fos ++ [fo]) = visibleOf fos := by
  rw [visibleOf, filter_append, filter_cons_of_neg (by rw [hfo]; decide),
    filter_nil, append_nil, visibleOf]

theorem visibleOf_append_visible (hfo : fo.consumedInternally = false) :
    visibleOf (fos ++ [fo]) = visibleOf fos ++ [fo] := by
  rw [visibleOf, filter_append, filter_cons_of_pos (by rw [hfo]; decide), filter_nil, visibleOf]

theorem Projected.step (h : Projected start fos s) (hrun : projectFuncOutput s fo = .ok s') :
    Projected start (fos ++ [fo]) s' := by
  have hspec := projectFuncOutput_spec hrun
  cases hfo : fo.consumedInternally with
  | true =>
    rw [if_pos hfo] at hspec
    obtain ⟨rfl, -⟩ := hspec
    have hslots : ∀ f, slotsOf (fos ++ [fo]) f = slotsOf fos f := fun f => by
      rw [slotsOf, visibleOf_append_consumed hfo, slotsOf]
    refine ⟨h.length, h.kvNew, fun key => ?_, fun f => ?_⟩
    · rw [visibleOf_append_consumed hfo]
      exact h.values key
    · rw [hslots]
      exact h.origins f
  | false =>
    rw [if_neg (by rw [hfo]; decide)] at hspec
    obtain ⟨r, v, hr, -, hslot, rfl⟩ := hspec
    refine ⟨?_, h.kvNew, fun key => ?_, fun f => ?_⟩
    · rw [← h.length]
      exact length_modify _ _ _
    · rw [visibleOf_append_visible hfo]
      show ((s.values.erase (r.nodeIndex, r.outputIndex)).lookup key).isSome = true ↔ _
      have hlast : (∀ fo' ∈ visibleOf fos ++ [fo], fo'.value ≠ some ⟨key.1, key.2⟩) ↔
          (∀ fo' ∈ visibleOf fos, fo'.value ≠ some ⟨key.1, key.2⟩) ∧
            key ≠ (r.nodeIndex, r.outputIndex) := by
        rw [forall_mem_append, forall_mem_singleton, hr]
        refine and_congr_right' (not_congr ?_)
        rw [Option.some_inj, OpPlanRef.mk.injEq, Prod.ext_iff]
        exact ⟨fun h => ⟨h.1.symm, h.2.symm⟩, fun h => ⟨h.1.symm, h.2.symm⟩⟩
      rw [hlast, ← and_assoc, ← h.values]
      by_cases hkey : key = (r.nodeIndex, r.outputIndex)
      · rw [hkey, AList.lookup_erase]
        exact iff_of_false (nofun) fun h => h.2 rfl
      · rw [AList.lookup_erase_ne hkey, and_iff_left hkey]
    · have hslots : slotsOf (fos ++ [fo]) f = slotsOf fos f ++
          if fo.funcIndex = f then [(fo.funcIndex, fo.outputIndex)] else [] := by
        rw [slotsOf, visibleOf_append_visible hfo, filter_append, map_append, slotsOf]
        refine congrArg _ ?_
        split_ifs with hf
        · rw [filter_cons_of_pos (by simpa using hf)]
          rfl
        · rw [filter_cons_of_neg (by simpa using hf)]
          rfl
      rw [hslots, ← append_assoc, ← h.origins]
      show ((s.funcOutputs.modify fo.funcIndex _).getD f []).map _ = _
      rw [getD_eq_getElem?_getD, getD_eq_getElem?_getD, getElem?_modify]
      split_ifs with hf
      · subst hf
        rw [hslot]
        rfl
      · have hsame : (fun a => a) <$> s.funcOutputs[f]? = s.funcOutputs[f]? := id_map _
        rw [append_nil, hsame]

/-- A run that succeeds: what is at hand before each node and each projection, and in the end. -/
theorem runOpPlan_spec {kv : KvGraphState}
    (h : runOpPlan env plan g weights policy rid base = .ok kv) :
    ∃ start s, Reached plan base plan.nodes.length start ∧
      Projected start plan.funcOutputs s ∧ kv = s.toKvGraphState ∧
      (∀ k node, plan.nodes[k]? = some node → ∃ t t', Reached plan base k t ∧
        runNode env plan g weights policy rid t node = .ok t') ∧
      ∀ j fo, plan.funcOutputs[j]? = some fo → ∃ t t', Projected start (plan.funcOutputs.take j) t ∧
        projectFuncOutput t fo = .ok t' := by
  obtain ⟨start, hnodes, h⟩ := bind_eq_ok h
  obtain ⟨s, hprojections, h⟩ := bind_eq_ok h
  cases h
  obtain ⟨hstart, hturns⟩ := foldlM_eq_ok (P := fun k s => Reached plan base k s) reached_start
    (fun k node t t' hk ht hrun => ht.step hk hrun) hnodes
  have hfirst : Projected start (plan.funcOutputs.take 0) start := by
    rw [take_zero]
    exact projected_start
  have hmove : ∀ (j : Nat) (fo : OpPlanFuncOutput) (t t' : PlanState),
      plan.funcOutputs[j]? = some fo → Projected start (plan.funcOutputs.take j) t →
      projectFuncOutput t fo = .ok t' → Projected start (plan.funcOutputs.take (j + 1)) t' := by
    intro j fo t t' hj ht hrun
    rw [take_add_one, hj]
    exact ht.step hrun
  obtain ⟨hlast, hmoves⟩ := foldlM_eq_ok
    (P := fun j s => Projected start (plan.funcOutputs.take j) s) hfirst hmove hprojections
  rw [take_length] at hlast
  exact ⟨start, s, hstart, hlast, rfl, hturns, hmoves⟩

end CompileForge.Runtime
