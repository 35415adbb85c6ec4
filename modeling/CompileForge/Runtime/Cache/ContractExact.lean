/-
  How far the assertion decides that the compute graph and the cache policy agree.  It goes over
  the outputs and looks their intercepts up, so it never sees an intercept that names no output,
  a flag of an output that is not consumed, a slab that is missing or has no heads, or a second
  intercept of one output.
-/

import CompileForge.Runtime.Cache.Contract

namespace CompileForge.Runtime

open Lib List

variable (graph : ComputeGraph)

def consumedOutputs : Set (Nat × Nat) :=
  { place | ∃ func ∈ graph.functions, ∃ out, func.index = place.1 ∧
    func.outputs[place.2]? = some out ∧ out.consumedInternally = true }

variable (policy : CachePolicy)

def interceptedOutputs : Set (Nat × Nat) :=
  { place | ∃ i ∈ policy.intercepts, (i.funcIndex, i.outputIndex) = place }

def slabHeads (i : InterceptSpec) : Option Nat := do
  let slab ← policy.slabs.find? fun s => s.slabId = i.slabId
  slab.dims.lookup "heads"

/-- The number of heads is static: it is the second dim, and not open. -/
def StaticHeads (out : GraphTensorDef) (dim : Nat) : Prop :=
  2 ≤ out.rank ∧ out.shape[1]? = some dim ∧ 0 < dim

/-- The consumed outputs are the intercepted ones, and flags and static heads agree. -/
structure ContractsAgree : Prop where
  outputs : consumedOutputs graph = interceptedOutputs policy
  flags : ∀ func ∈ graph.functions, func.consumedSubOutputFlags ≠ [] →
    func.consumedSubOutputFlags.length = func.outputs.length ∧
    ∀ (o : Nat) out flag, func.outputs[o]? = some out →
      func.consumedSubOutputFlags[o]? = some flag → flag = out.consumedInternally
  heads : ∀ func ∈ graph.functions, ∀ (o : Nat) out, func.outputs[o]? = some out →
    ∀ i ∈ policy.intercepts, (i.funcIndex, i.outputIndex) = (func.index, o) →
      ∀ dim, StaticHeads out dim → slabHeads policy i = some dim

/-! ## What the assertion looks at -/

/-- What the assertion compares is in order. -/
structure ChecksPass : Prop where
  length : ∀ func ∈ graph.functions, func.consumedSubOutputFlags = [] ∨
    func.consumedSubOutputFlags.length = func.outputs.length
  bound : ∀ func ∈ graph.functions, ∀ (o : Nat) out, func.outputs[o]? = some out →
    (out.consumedInternally = true ↔ (func.index, o) ∈ interceptedOutputs policy)
  flags : ∀ func ∈ graph.functions, ∀ (o : Nat) out, func.outputs[o]? = some out →
    out.consumedInternally = true → func.consumedSubOutputFlags[o]? ≠ some false
  heads : ∀ func ∈ graph.functions, ∀ (o : Nat) out, func.outputs[o]? = some out →
    ∀ i, interceptOf policy func.index o = some i → ∀ dim heads, StaticHeads out dim →
      slabHeads policy i = some heads → 0 < heads → dim = heads

/-- Nothing is left that the assertion does not look at. -/
structure NothingUnchecked : Prop where
  /-- every intercept names an output -/
  placed : ∀ i ∈ policy.intercepts, ∃ func ∈ graph.functions, ∃ out,
    func.index = i.funcIndex ∧ func.outputs[i.outputIndex]? = some out
  /-- no flag is set at an output that is not consumed -/
  flags : ∀ func ∈ graph.functions, ∀ (o : Nat) out, func.outputs[o]? = some out →
    out.consumedInternally = false → func.consumedSubOutputFlags[o]? ≠ some true
  /-- an intercept of an output with static heads names a slab with heads -/
  slabs : ∀ func ∈ graph.functions, ∀ (o : Nat) out, func.outputs[o]? = some out →
    ∀ i ∈ policy.intercepts, (i.funcIndex, i.outputIndex) = (func.index, o) →
      ∀ dim, StaticHeads out dim → ∃ heads, slabHeads policy i = some heads ∧ 0 < heads
  /-- two intercepts of it name slabs with the same heads -/
  repeated : ∀ func ∈ graph.functions, ∀ (o : Nat) out, func.outputs[o]? = some out →
    ∀ i ∈ policy.intercepts, (i.funcIndex, i.outputIndex) = (func.index, o) →
    ∀ j ∈ policy.intercepts, (j.funcIndex, j.outputIndex) = (func.index, o) →
      ∀ dim, StaticHeads out dim → slabHeads policy i = slabHeads policy j

section

variable {graph : ComputeGraph} {policy : CachePolicy} {func : FuncDef} {out : GraphTensorDef}
  {i : InterceptSpec} {fi oi : Nat}

theorem interceptOf_isSome_iff_mem :
    (interceptOf policy fi oi).isSome = true ↔ (fi, oi) ∈ interceptedOutputs policy := by
  rw [interceptOf, List.find?_isSome]
  refine exists_congr fun i => and_congr_right fun _ => ?_
  rw [decide_eq_true_iff, Prod.mk.injEq]

theorem interceptOf_eq_some (h : interceptOf policy fi oi = some i) :
    i ∈ policy.intercepts ∧ (i.funcIndex, i.outputIndex) = (fi, oi) := by
  rw [interceptOf] at h
  have hplace := List.find?_some h
  rw [decide_eq_true_iff] at hplace
  exact ⟨mem_of_find?_eq_some h, by rw [hplace.1, hplace.2]⟩

theorem headMismatch_eq_none_iff : headMismatch policy i out = none ↔
    ∀ dim heads, StaticHeads out dim → slabHeads policy i = some heads → 0 < heads →
      dim = heads := by
  have hbind : headMismatch policy i out = (slabHeads policy i).bind fun heads =>
      out.shape[1]?.bind fun dim =>
        if 2 ≤ out.rank ∧ 0 < dim ∧ 0 < heads ∧ dim ≠ heads then some (dim, heads) else none := by
    simp only [headMismatch, slabHeads, Option.bind_eq_bind, Option.bind_assoc]
  rw [hbind]
  simp only [Option.bind_eq_none_iff, ite_eq_right_iff, reduceCtorEq, imp_false, not_and, not_not]
  constructor
  · exact fun h dim heads ⟨hrank, hdim, hpos⟩ hheads hpos' =>
      h heads hheads dim hdim hrank hpos hpos'
  · exact fun h heads hheads dim hdim hrank hpos hpos' =>
      h dim heads ⟨hrank, hdim, hpos⟩ hheads hpos'

theorem crossAssert_eq_ok_iff_checks (hslabs : policy.slabs ≠ []) :
    crossAssertCacheContract graph policy = .ok () ↔ ChecksPass graph policy := by
  simp only [crossAssert_eq_ok_iff hslabs, assertFunc_eq_ok_iff, assertOutput_eq_ok_iff,
    interceptOf_isSome_iff_mem, headMismatch_eq_none_iff]
  constructor
  · intro h
    refine ⟨fun func hf => (h func hf).1, fun func hf o out hout => ((h func hf).2 o out hout).1,
      fun func hf o out hout hconsumed => ?_, fun func hf o out hout i hi =>
        (((h func hf).2 o out hout).2 i hi).2⟩
    -- a consumed output has an intercept
    obtain ⟨hbound, hall⟩ := (h func hf).2 o out hout
    obtain ⟨i, hi⟩ := Option.isSome_iff_exists.1
      (interceptOf_isSome_iff_mem.2 (hbound.1 hconsumed))
    exact (hall i hi).1
  · intro h func hf
    refine ⟨h.length func hf, fun o out hout => ⟨h.bound func hf o out hout, fun i hi => ?_⟩⟩
    have hmem := interceptOf_isSome_iff_mem.1 (Option.isSome_of_eq_some hi)
    exact ⟨h.flags func hf o out hout ((h.bound func hf o out hout).2 hmem),
      h.heads func hf o out hout i hi⟩

/-! ## Exactness -/

theorem ContractsAgree.checksPass (hindex : (graph.functions.map (·.index)).Nodup)
    (h : ContractsAgree graph policy) : ChecksPass graph policy where
  length func hf := by
    by_cases hnil : func.consumedSubOutputFlags = []
    · exact .inl hnil
    · exact .inr (h.flags func hf hnil).1
  bound func hf o out hout := by
    rw [← h.outputs]
    constructor
    · exact fun hconsumed => ⟨func, hf, out, rfl, hout, hconsumed⟩
    · rintro ⟨func', hf', out', hidx, hout', hconsumed⟩
      cases inj_on_of_nodup_map hindex hf' hf hidx
      cases hout.symm.trans hout'
      exact hconsumed
  flags func hf o out hout hconsumed hflag := by
    have hne : func.consumedSubOutputFlags ≠ [] := by
      intro hnil
      rw [hnil] at hflag
      cases hflag
    have hsame := (h.flags func hf hne).2 o out false hout hflag
    rw [hconsumed] at hsame
    cases hsame
  heads func hf o out hout i hi dim heads hdim hheads _ := by
    obtain ⟨hmem, hplace⟩ := interceptOf_eq_some hi
    have hslab := h.heads func hf o out hout i hmem hplace dim hdim
    exact Option.some.inj (hslab.symm.trans hheads)

theorem ContractsAgree.nothingUnchecked (h : ContractsAgree graph policy) :
    NothingUnchecked graph policy where
  placed i hi := by
    have hmem : (i.funcIndex, i.outputIndex) ∈ consumedOutputs graph := by
      rw [h.outputs]
      exact ⟨i, hi, rfl⟩
    obtain ⟨func, hf, out, hidx, hout, -⟩ := hmem
    exact ⟨func, hf, out, hidx, hout⟩
  flags func hf o out hout hconsumed hflag := by
    have hne : func.consumedSubOutputFlags ≠ [] := by
      intro hnil
      rw [hnil] at hflag
      cases hflag
    have hsame := (h.flags func hf hne).2 o out true hout hflag
    rw [hconsumed] at hsame
    cases hsame
  slabs func hf o out hout i hi hplace dim hdim :=
    ⟨dim, h.heads func hf o out hout i hi hplace dim hdim, hdim.2.2⟩
  repeated func hf o out hout i hi hplace j hj hplace' dim hdim :=
    (h.heads func hf o out hout i hi hplace dim hdim).trans
      (h.heads func hf o out hout j hj hplace' dim hdim).symm

theorem ChecksPass.agree (h : ChecksPass graph policy) (hrest : NothingUnchecked graph policy) :
    ContractsAgree graph policy where
  outputs := by
    refine Set.ext fun ⟨fi, o⟩ => ⟨?_, ?_⟩
    · rintro ⟨func, hf, out, rfl, hout, hconsumed⟩
      exact (h.bound func hf o out hout).1 hconsumed
    · rintro ⟨i, hi, hplace⟩
      obtain ⟨func, hf, out, hidx, hout⟩ := hrest.placed i hi
      cases hplace
      refine ⟨func, hf, out, hidx, hout, (h.bound func hf _ out hout).2 ⟨i, hi, ?_⟩⟩
      rw [hidx]
  flags func hf hne := by
    refine ⟨(h.length func hf).resolve_left hne, fun o out flag hout hflag => ?_⟩
    cases hconsumed : out.consumedInternally with
    | true =>
      cases flag with
      | true => rfl
      | false => exact absurd hflag (h.flags func hf o out hout hconsumed)
    | false =>
      cases flag with
      | true => exact absurd hflag (hrest.flags func hf o out hout hconsumed)
      | false => rfl
  heads func hf o out hout i hi hplace dim hdim := by
    -- the intercept that is compared names a slab of the same heads
    have hsome := interceptOf_isSome_iff_mem.2 ⟨i, hi, hplace⟩
    obtain ⟨first, hfirst⟩ := Option.isSome_iff_exists.1 hsome
    obtain ⟨hmem, hplace'⟩ := interceptOf_eq_some hfirst
    obtain ⟨heads, hheads, hpos⟩ := hrest.slabs func hf o out hout first hmem hplace' dim hdim
    rw [hrest.repeated func hf o out hout i hi hplace first hmem hplace' dim hdim, hheads,
      h.heads func hf o out hout first hfirst dim heads hdim hheads hpos]

/-- The assertion is exact where nothing is left that it does not look at. -/
theorem crossAssert_exact_iff (hindex : (graph.functions.map (·.index)).Nodup)
    (hslabs : policy.slabs ≠ []) :
    (crossAssertCacheContract graph policy = .ok () ↔ ContractsAgree graph policy) ↔
      (ChecksPass graph policy → NothingUnchecked graph policy) := by
  rw [crossAssert_eq_ok_iff_checks hslabs]
  constructor
  · exact fun hiff hpass => (hiff.1 hpass).nothingUnchecked
  · exact fun hrest => ⟨fun hpass => hpass.agree (hrest hpass), fun h => h.checksPass hindex⟩

end

/-! ## An attention function -/

/-- Outputs Q, K and V of twelve heads; K and V are consumed. -/
def aBlockFunc (flags : List Bool) : FuncDef where
  index := 0
  symbol := "_mlir_ciface_main_0a"
  numInputs := 0
  numOutputs := 3
  inputs := []
  outputs := [⟨⟨false⟩, 4, [1, 12, 0, 64], .f32⟩, ⟨⟨true⟩, 4, [1, 12, 0, 64], .f32⟩,
    ⟨⟨true⟩, 4, [1, 12, 0, 64], .f32⟩]
  consumedSubOutputFlags := flags

def aBlockGraph (flags : List Bool) : ComputeGraph where
  functions := [aBlockFunc flags]
  globalInput := (0, 0)
  globalOutput := (0, 0)

def paged (slabId : String) : CacheSlab where
  dims := (AList.singleton "heads" 12).insert "dim" 64
  slabId
  storage := "paged"
  layout := "BNLD"
  dtype := "float32"

def attentionIntercept (fi oi : Nat) (slabId : String) : InterceptSpec where
  slabId
  opName := "scaled_dot_product_attention"
  direction := "read_write"
  source := "operand[1]"
  layer := "sequential"
  funcIndex := fi
  outputIndex := oi

def attentionPolicy (intercepts : List InterceptSpec) : CachePolicy where
  slabs := [paged "k", paged "v"]
  intercepts
  blockSize := 16
  maxRequests := 256

/-- With K and V bound and the flags of the descriptors, the assertion is exact. -/
theorem crossAssert_exact_iff_witness :
    crossAssertCacheContract (aBlockGraph [false, true, true])
        (attentionPolicy [attentionIntercept 0 1 "k", attentionIntercept 0 2 "v"]) = .ok () ↔
      ContractsAgree (aBlockGraph [false, true, true])
        (attentionPolicy [attentionIntercept 0 1 "k", attentionIntercept 0 2 "v"]) := by
  refine (crossAssert_exact_iff (by decide) (cons_ne_nil _ _)).2 fun _ => ?_
  have hslab : ∀ i ∈ [attentionIntercept 0 1 "k", attentionIntercept 0 2 "v"],
      slabHeads (attentionPolicy [attentionIntercept 0 1 "k", attentionIntercept 0 2 "v"]) i =
        some 12 := by
    intro i hi
    rcases mem_cons.1 hi with rfl | hi
    · rfl
    · rw [mem_singleton.1 hi]
      rfl
  refine ⟨fun i hi => ?_, fun func hf o out hout hconsumed => ?_,
    fun func _ o out _ i hi _ dim _ => ⟨12, hslab i hi, by decide⟩,
    fun func _ o out _ i hi _ j hj _ dim _ => (hslab i hi).trans (hslab j hj).symm⟩
  · rcases mem_cons.1 hi with rfl | hi
    · exact ⟨_, mem_singleton.2 rfl, _, rfl, rfl⟩
    · rw [mem_singleton.1 hi]
      exact ⟨_, mem_singleton.2 rfl, _, rfl, rfl⟩
  · rw [mem_singleton.1 hf] at hout ⊢
    -- only Q is not consumed
    rcases o with _ | _ | _ | o
    · decide
    · cases hout
      cases hconsumed
    · cases hout
      cases hconsumed
    · cases hout

/-- A third intercept names no function, and the flag of Q is set: the assertion passes. -/
theorem crossAssert_exact_fails :
    crossAssertCacheContract (aBlockGraph [true, true, true])
        (attentionPolicy [attentionIntercept 0 1 "k", attentionIntercept 0 2 "v",
          attentionIntercept 5 0 "k"]) = .ok () ∧
      ¬ ContractsAgree (aBlockGraph [true, true, true])
        (attentionPolicy [attentionIntercept 0 1 "k", attentionIntercept 0 2 "v",
          attentionIntercept 5 0 "k"]) := by
  refine ⟨by decide, fun h => ?_⟩
  have hmem : (5, 0) ∈ consumedOutputs (aBlockGraph [true, true, true]) := by
    rw [h.outputs]
    exact ⟨attentionIntercept 5 0 "k", by simp [attentionPolicy], rfl⟩
  obtain ⟨func, hf, out, hidx, -⟩ := hmem
  rw [mem_singleton.1 hf] at hidx
  cases hidx

end CompileForge.Runtime
