/-
  The cache contract from the split program to the loaded model.

  The split flags the outputs that the cache consumes and binds each to a slab; the
  policy is expanded by these bindings, serialized, and read back.
-/

import CompileForge.Compiler.CachePolicy
import CompileForge.Compiler.SplitWiring
import CompileForge.Runtime.Cache.ContractExact

namespace CompileForge.Abi

open List

open Lib Lib.StraightLine Compiler CompileForge.Runtime

/-- The graph has the flags of the split. -/
structure FlagsOf (r : SplitResult) (g : ComputeGraph) : Prop where
  length : g.functions.length = r.functions.length
  index : ∀ (f : Nat) (fd : FuncDef), g.functions[f]? = some fd → fd.index = f
  outputs : ∀ (f : Nat) (fd : FuncDef) (func : MlirFunction), g.functions[f]? = some fd →
    r.functions[f]? = some func →
    fd.outputs.map (·.consumedInternally) = func.outputs.map (·.consumed)
  subFlags : ∀ (f : Nat) (fd : FuncDef) (func : MlirFunction), g.functions[f]? = some fd →
    r.functions[f]? = some func →
    fd.consumedSubOutputFlags = [] ∨ fd.consumedSubOutputFlags = func.outputs.map (·.consumed)

/-- The policy intercepts the bound outputs and no others, each with the slab of its binding. -/
def CacheContract (policy : Compiler.CachePolicy) (bindings : List (Nat × Nat × String))
    (g : ComputeGraph) : Prop :=
  ∃ m, serializeCachePolicy (bindCachePolicy policy bindings) = some m ∧
    (∀ f o d, shouldInterceptConsumed f o (.fromProto m) d = true ↔
      ∃ slab, (f, o, slab) ∈ bindings) ∧
    (∀ f o slab, (f, o, slab) ∈ bindings →
      ∃ s, findSlabForIntercept (.fromProto m) f o = some s ∧ s.slabId = slab) ∧
    crossAssertCacheContract g (.fromProto m) = .ok ()

/-! ## Bindings of a split program -/

variable {sets : SetOrder} {args : SplitArgs} {blocks : List (List MlirOp)} {f o : Nat}
  {block : List MlirOp} {v slab : String} {r : SplitResult} {func : MlirFunction}

variable {b : Nat × Nat × String} {policy : Compiler.CachePolicy} {i : Compiler.InterceptSpec}
  {rest : List Compiler.InterceptSpec}

theorem mem_funcBindings :
    b ∈ funcBindings args blocks f block ↔ b.1 = f ∧
      ∃ v, (orderedOutputs args blocks f block)[b.2.1]? = some v ∧ v ∈ kvToMark blocks f ∧
        slabForSsa args blocks f v = some b.2.2 := by
  obtain ⟨f', o, slab⟩ := b
  rw [funcBindings, mem_filterMap]
  constructor
  · rintro ⟨⟨v, i⟩, hmem, h⟩
    by_cases hmark : v ∈ kvToMark blocks f
    · rw [if_pos hmark] at h
      obtain ⟨s, hs, heq⟩ := Option.map_eq_some_iff.1 h
      cases heq
      exact ⟨rfl, v, mem_zipIdx_iff_getElem?.mp hmem, hmark, hs⟩
    · rw [if_neg hmark] at h
      cases h
  · rintro ⟨rfl, v, hv, hmark, hs⟩
    refine ⟨(v, o), mem_zipIdx_iff_getElem?.mpr hv, ?_⟩
    rw [if_pos hmark, hs]
    rfl

/-- The policy has slabs for the K and the V operand of an attention. -/
def SlabsKv (args : SplitArgs) : Prop :=
  operandSlab args.cachePolicy 1 = some "k" ∧ operandSlab args.cachePolicy 2 = some "v"

theorem mem_kvToMark : v ∈ kvToMark blocks f ↔ isABlock blocks f = true ∧ v ≠ "" ∧
    (v = (sdpaKvSsa (blocks.getD (f + 1) [])).2.1 ∨
      v = (sdpaKvSsa (blocks.getD (f + 1) [])).2.2) := by
  unfold kvToMark
  by_cases ha : isABlock blocks f = true
  · rw [if_pos ha, and_iff_right ha, mem_filter, decide_eq_true_eq, mem_cons,
      mem_singleton, and_comm]
  · rw [if_neg ha]
    constructor
    · intro h
      cases h
    · exact fun h => absurd h.1 ha

theorem slabForSsa_of_mem (hslabs : SlabsKv args) (hv : v ∈ kvToMark blocks f) :
    ∃ slab, slabForSsa args blocks f v = some slab ∧ (slab = "k" ∨ slab = "v") := by
  obtain ⟨ha, hne, hkv⟩ := mem_kvToMark.1 hv
  unfold slabForSsa
  simp only [ha, true_and, hslabs.1, hslabs.2]
  rw [if_pos hne]
  by_cases hval : v = (sdpaKvSsa (blocks.getD (f + 1) [])).2.2
  · rw [if_pos hval]
    exact ⟨"v", rfl, .inr rfl⟩
  · rw [if_neg hval]
    exact ⟨"k", if_pos (hkv.resolve_right hval), .inl rfl⟩

theorem slabForSsa_none (h1 : operandSlab args.cachePolicy 1 = none)
    (h2 : operandSlab args.cachePolicy 2 = none) : slabForSsa args blocks f v = none := by
  unfold slabForSsa
  simp only [h1, h2, ite_self]

theorem consumed_iff (hslabs : SlabsKv args)
    (h : funcOutputs sets args blocks f block = some func.outputs) {out : FuncOutput}
    (hout : func.outputs[o]? = some out) :
    out.consumed = true ↔ ∃ slab, (f, o, slab) ∈ funcBindings args blocks f block := by
  rw [funcOutputs] at h
  simp only [mem_funcBindings, true_and]
  by_cases hne : orderedOutputs args blocks f block = []
  · rw [if_neg (by simpa using hne)] at h
    obtain ⟨w, _, hw⟩ := Option.map_eq_some_iff.1 h
    have hfalse : out.consumed = false := by
      have hmem := mem_of_getElem? hout
      rw [← hw, mem_singleton] at hmem
      rw [hmem]
    rw [hfalse, hne]
    constructor
    · intro h
      cases h
    · rintro ⟨_, _, h, _⟩
      cases h
  · rw [if_pos hne] at h
    have houts := Option.some.inj h
    rw [← houts, getElem?_map] at hout
    obtain ⟨v, hv, rfl⟩ := Option.map_eq_some_iff.1 hout
    show decide (v ∈ kvToMark blocks f) = true ↔ _
    rw [decide_eq_true_eq]
    constructor
    · intro hmark
      obtain ⟨slab, hslab, _⟩ := slabForSsa_of_mem hslabs hmark
      exact ⟨slab, v, hv, hmark, hslab⟩
    · rintro ⟨_, w, hw, hmark, _⟩
      rw [hv] at hw
      cases hw
      exact hmark

structure Bound (r : SplitResult) : Prop where
  /-- A bound output is an output. -/
  output : ∀ b ∈ r.bindings, ∃ (func : MlirFunction) (out : FuncOutput),
    r.functions[b.1]? = some func ∧ func.outputs[b.2.1]? = some out
  /-- The bound outputs are those that the cache consumes. -/
  consumed : ∀ (f o : Nat) (func : MlirFunction) (out : FuncOutput), r.functions[f]? = some func →
    func.outputs[o]? = some out → (out.consumed = true ↔ ∃ slab, (f, o, slab) ∈ r.bindings)
  slab : ∀ b ∈ r.bindings, b.2.2 = "k" ∨ b.2.2 = "v"
  unique : ∀ f o slab slab', (f, o, slab) ∈ r.bindings → (f, o, slab') ∈ r.bindings → slab = slab'

theorem mem_bindings (hr : Returned sets args blocks r) :
    b ∈ r.bindings ↔ ∃ block, blocks[b.1]? = some block ∧
      b ∈ funcBindings args blocks b.1 block := by
  rw [hr.bindings, mem_flatMap]
  constructor
  · rintro ⟨⟨block, f⟩, hmem, hb⟩
    have hf := (mem_funcBindings.1 hb).1
    refine ⟨block, ?_, by rw [hf]; exact hb⟩
    rw [hf]
    exact mem_zipIdx_iff_getElem?.mp hmem
  · rintro ⟨block, hblock, hb⟩
    exact ⟨(block, b.1), mem_zipIdx_iff_getElem?.mpr hblock, hb⟩

theorem bound_of_returned (hslabs : SlabsKv args) (hr : Returned sets args blocks r) : Bound r where
  output := by
    intro b hb
    obtain ⟨block, hblock, hb⟩ := (mem_bindings hr).1 hb
    obtain ⟨func, hfunc, hbuild⟩ := hr.built.func b.1 block hblock
    obtain ⟨_, v, hv, _⟩ := mem_funcBindings.1 hb
    have houtputs := (buildFunction_spec hbuild).2.1
    have hne : orderedOutputs args blocks b.1 block ≠ [] := by
      intro hnil
      rw [hnil] at hv
      cases hv
    rw [funcOutputs, if_pos hne] at houtputs
    have hlt : b.2.1 < func.outputs.length := by
      rw [← Option.some.inj houtputs, length_map]
      exact (List.getElem?_eq_some_iff.1 hv).1
    exact ⟨func, _, hfunc, getElem?_eq_getElem hlt⟩
  consumed := by
    intro f o func out hfunc hout
    obtain ⟨block, hblock, hbuild⟩ := hr.built.block_of hfunc
    rw [consumed_iff hslabs (buildFunction_spec hbuild).2.1 hout]
    refine exists_congr fun slab => ?_
    rw [mem_bindings hr]
    constructor
    · exact fun h => ⟨block, hblock, h⟩
    · rintro ⟨block', hblock', h⟩
      rw [show blocks[(f, o, slab).1]? = blocks[f]? from rfl, hblock] at hblock'
      cases hblock'
      exact h
  slab := by
    intro b hb
    obtain ⟨block, _, hb⟩ := (mem_bindings hr).1 hb
    obtain ⟨_, v, _, hmark, hslab⟩ := mem_funcBindings.1 hb
    obtain ⟨slab, hslab', hkv⟩ := slabForSsa_of_mem hslabs hmark
    rw [hslab] at hslab'
    cases hslab'
    exact hkv
  unique := by
    intro f o slab slab' hb hb'
    obtain ⟨block, hblock, hb⟩ := (mem_bindings hr).1 hb
    obtain ⟨block', hblock', hb'⟩ := (mem_bindings hr).1 hb'
    cases hblock.symm.trans hblock'
    obtain ⟨_, v, hv, _, hslab⟩ := mem_funcBindings.1 hb
    obtain ⟨_, v', hv', _, hslab'⟩ := mem_funcBindings.1 hb'
    cases hv.symm.trans hv'
    exact Option.some.inj (hslab.symm.trans hslab')

theorem bindings_single {mlirOps : List MlirOp} (h : makeMultiFunctions sets mlirOps args = some r)
    (hone : (partitionBlocks [] mlirOps).length ≤ 1) : r.bindings = [] := by
  unfold makeMultiFunctions at h
  simp only at h
  rw [if_pos hone] at h
  cases h
  rfl

/-! ## The intercepts that the runtime reads -/

section Lookup

variable {p : Runtime.CachePolicy} {bindings : List (Nat × Nat × String)}

/-- The intercepts are those of the bindings, one for each. -/
def InterceptsBound (p : Runtime.CachePolicy) (bindings : List (Nat × Nat × String)) : Prop :=
  ∃ entry : Nat × Nat × String → Runtime.InterceptSpec, p.intercepts = bindings.map entry ∧
    ∀ b, (entry b).slabId = b.2.2 ∧ (entry b).funcIndex = b.1 ∧ (entry b).outputIndex = b.2.1

theorem interceptOf_isSome :
    (interceptOf p f o).isSome = true ↔
      ∃ i ∈ p.intercepts, i.funcIndex = f ∧ i.outputIndex = o := by
  rw [interceptOf, find?_isSome]
  simp only [decide_eq_true_eq]

theorem shouldIntercept_iff (hne : p.intercepts ≠ []) {d : GraphTensorDef} :
    shouldInterceptConsumed f o p d = true ↔ (interceptOf p f o).isSome = true := by
  have hempty : ¬ p.intercepts.isEmpty = true := fun h => hne (isEmpty_iff.1 h)
  rw [shouldInterceptConsumed, if_neg hempty, any_eq_true, interceptOf_isSome]
  simp only [decide_eq_true_eq]

theorem interceptOf_isSome_iff (h : InterceptsBound p bindings) :
    (interceptOf p f o).isSome = true ↔ ∃ slab, (f, o, slab) ∈ bindings := by
  obtain ⟨entry, hmap, hentry⟩ := h
  rw [interceptOf_isSome, hmap]
  constructor
  · rintro ⟨i, hi, rfl, rfl⟩
    obtain ⟨b, hb, rfl⟩ := mem_map.1 hi
    refine ⟨b.2.2, ?_⟩
    rw [(hentry b).2.1, (hentry b).2.2]
    exact hb
  · rintro ⟨slab, hb⟩
    exact ⟨_, mem_map_of_mem hb, (hentry _).2.1, (hentry _).2.2⟩

theorem interceptOf_slab (h : InterceptsBound p bindings)
    (hunique : ∀ slab', (f, o, slab') ∈ bindings → slab' = slab) {i : Runtime.InterceptSpec}
    (hi : interceptOf p f o = some i) : i.slabId = slab := by
  obtain ⟨entry, hmap, hentry⟩ := h
  have hmem := mem_of_find?_eq_some hi
  have hkey := find?_some hi
  rw [decide_eq_true_eq] at hkey
  rw [hmap] at hmem
  obtain ⟨b, hb, rfl⟩ := mem_map.1 hmem
  rw [(hentry b).1]
  refine hunique _ ?_
  rw [← hkey.1, ← hkey.2, (hentry b).2.1, (hentry b).2.2]
  exact hb

end Lookup

/-! ## The attention policy -/

variable {numLayers numKvHeads headDim blockSize : Nat} {bindings : List (Nat × Nat × String)}
  {g : ComputeGraph}

/-- The policy as the runtime reads it: an intercept that carries no indices reads as one at `(0,
    0)`. -/
def received (policy : Compiler.CachePolicy) (bindings : List (Nat × Nat × String)) :
    Runtime.CachePolicy := .fromProto (bindCachePolicy policy bindings).message

theorem bind_llama (hne : bindings ≠ []) :
    bindCachePolicy (.forLlama numLayers numKvHeads headDim blockSize) bindings =
      { Compiler.CachePolicy.forLlama numLayers numKvHeads headDim blockSize with
        intercepts := bindings.map
          (boundIntercept (.forLlama numLayers numKvHeads headDim blockSize)) } := by
  rw [bindCachePolicy, if_neg hne]
  rfl

theorem received_llama_bound (numLayers numKvHeads headDim blockSize : Nat) (hne : bindings ≠ []) :
    InterceptsBound (received (.forLlama numLayers numKvHeads headDim blockSize) bindings)
      bindings := by
  refine ⟨fun b => interceptFromProto (boundIntercept
    (.forLlama numLayers numKvHeads headDim blockSize) b).message, ?_, fun b => ⟨rfl, rfl, rfl⟩⟩
  rw [received, bind_llama hne]
  show List.map _ (List.map _ (List.map _ bindings)) = _
  rw [map_map, map_map]
  rfl

theorem slabFromProto_heads (s : SfaSlabSpec) :
    (slabFromProto s).dims.lookup "heads" = some s.numHeads := by
  unfold slabFromProto
  rw [AList.lookup_insert_ne (by decide), AList.lookup_insert]

theorem received_llama_slab (numLayers numKvHeads headDim blockSize : Nat)
    (hne : bindings ≠ []) (hslab : slab = "k" ∨ slab = "v") :
    ∃ s : CacheSlab,
      (received (.forLlama numLayers numKvHeads headDim blockSize) bindings).slabs.find?
        (fun s => s.slabId = slab) = some s ∧
      s.slabId = slab ∧ s.dims.lookup "heads" = some numKvHeads := by
  have hslabs : (received (.forLlama numLayers numKvHeads headDim blockSize) bindings).slabs =
      [slabFromProto ((kvSlab "k" numLayers numKvHeads headDim).message blockSize),
        slabFromProto ((kvSlab "v" numLayers numKvHeads headDim).message blockSize)] := by
    rw [received, bind_llama hne]
    rfl
  rw [hslabs]
  rcases hslab with rfl | rfl
  · exact ⟨_, find?_cons_of_pos rfl, rfl, slabFromProto_heads _⟩
  · refine ⟨_, ?_, rfl, slabFromProto_heads
      ((kvSlab "v" numLayers numKvHeads headDim).message blockSize)⟩
    have hother : decide ((slabFromProto ((kvSlab "k" numLayers numKvHeads headDim).message
        blockSize)).slabId = "v") = false := rfl
    rw [find?_cons, hother]
    exact find?_cons_of_pos rfl

/-- A static head dimension of a bound output is the heads of the policy. -/
def HeadsAgree (numKvHeads : Nat) (bindings : List (Nat × Nat × String)) (g : ComputeGraph) :
    Prop :=
  ∀ (f o : Nat) (slab : String) (fd : FuncDef) (out : GraphTensorDef) (dim : Nat),
    (f, o, slab) ∈ bindings → g.functions[f]? = some fd → fd.outputs[o]? = some out →
    out.shape[1]? = some dim → 2 ≤ out.rank → 0 < dim → 0 < numKvHeads → dim = numKvHeads

theorem headMismatch_eq_none {p : Runtime.CachePolicy} {i : Runtime.InterceptSpec}
    {out : GraphTensorDef} {s : CacheSlab}
    (hslab : p.slabs.find? (fun s => s.slabId = i.slabId) = some s)
    (hheads : s.dims.lookup "heads" = some numKvHeads) :
    headMismatch p i out = none ↔ ∀ dim, out.shape[1]? = some dim → 2 ≤ out.rank → 0 < dim →
      0 < numKvHeads → dim = numKvHeads := by
  have hslabHeads : slabHeads p i = some numKvHeads := by
    rw [slabHeads, hslab]
    exact hheads
  rw [headMismatch_eq_none_iff]
  constructor
  · exact fun h dim hdim hrank hpos hheads' =>
      h dim numKvHeads ⟨hrank, hdim, hpos⟩ hslabHeads hheads'
  · rintro h dim heads ⟨hrank, hdim, hpos⟩ hheads' hpos'
    obtain rfl : numKvHeads = heads := Option.some.inj (hslabHeads.symm.trans hheads')
    exact h dim hdim hrank hpos hpos'

section Assertion

variable {p : Runtime.CachePolicy} {fd : FuncDef} {out : GraphTensorDef}

theorem assertOutput_eq_ok
    (hflag : out.consumedInternally = true ↔ (interceptOf p fd.index o).isSome = true)
    (hsub : out.consumedInternally = true → fd.consumedSubOutputFlags[o]? ≠ some false) :
    assertOutput p fd out o = .ok () ↔
      ∀ i, interceptOf p fd.index o = some i → headMismatch p i out = none := by
  rw [assertOutput_eq_ok_iff, and_iff_right hflag]
  refine forall_congr' fun i => forall_congr' fun hi => and_iff_right ?_
  -- the flag of the sub-output agrees, so only the heads are compared
  exact hsub (hflag.2 (Option.isSome_of_eq_some hi))

theorem assertFunc_eq_ok (hlen : fd.consumedSubOutputFlags = [] ∨
    fd.consumedSubOutputFlags.length = fd.outputs.length) :
    assertFunc p fd = .ok () ↔ ∀ (o : Nat) (out : GraphTensorDef), fd.outputs[o]? = some out →
        assertOutput p fd out o = .ok () := by
  rw [assertFunc_eq_ok_iff, and_iff_right hlen]

end Assertion

theorem FlagsOf.function {fd : FuncDef} (hflags : FlagsOf r g) (hfd : g.functions[f]? = some fd) :
    ∃ func : MlirFunction, r.functions[f]? = some func ∧
      fd.outputs.map (·.consumedInternally) = func.outputs.map (·.consumed) ∧
      (fd.consumedSubOutputFlags = [] ∨
        fd.consumedSubOutputFlags = func.outputs.map (·.consumed)) := by
  have hlt : f < r.functions.length := by
    rw [← hflags.length]
    exact (List.getElem?_eq_some_iff.1 hfd).1
  have hfunc := getElem?_eq_getElem hlt
  exact ⟨_, hfunc, hflags.outputs f fd _ hfd hfunc, hflags.subFlags f fd _ hfd hfunc⟩

theorem FlagsOf.length_subFlags {fd : FuncDef} (hflags : FlagsOf r g)
    (hfd : g.functions[f]? = some fd) : fd.consumedSubOutputFlags = [] ∨
      fd.consumedSubOutputFlags.length = fd.outputs.length := by
  obtain ⟨func, _, hcons, hsub⟩ := hflags.function hfd
  have hlen := congrArg List.length hcons
  rw [length_map, length_map] at hlen
  refine hsub.imp id fun h => ?_
  rw [h, length_map, hlen]

section Llama

variable {fd : FuncDef} {out : GraphTensorDef} {p : Runtime.CachePolicy}

theorem assertOutput_bound (hbound : Bound r) (hflags : FlagsOf r g)
    (hread : InterceptsBound p r.bindings) (hfd : g.functions[f]? = some fd)
    (hout : fd.outputs[o]? = some out) :
    assertOutput p fd out o = .ok () ↔
      ∀ i, interceptOf p f o = some i → headMismatch p i out = none := by
  obtain ⟨func, hfunc, hcons, hsub⟩ := hflags.function hfd
  have hindex := hflags.index f fd hfd
  have hat := congrArg (·[o]?) hcons
  simp only [getElem?_map, hout, Option.map_some] at hat
  obtain ⟨fout, hfout, heq⟩ := Option.map_eq_some_iff.1 hat.symm
  have hflag := hbound.consumed f o func fout hfunc hfout
  rw [← hindex]
  refine assertOutput_eq_ok ?_ fun hc => ?_
  · rw [← heq, hflag, hindex, interceptOf_isSome_iff hread]
  · rcases hsub with hsub | hsub
    · rw [hsub]
      exact nofun
    · rw [hsub, getElem?_map, hfout, Option.map_some, heq, hc]
      exact nofun

theorem headMismatch_llama (hbound : Bound r) (hne : r.bindings ≠ [])
    (hb : (f, o, slab) ∈ r.bindings) {i : Runtime.InterceptSpec}
    (hi : interceptOf (received (.forLlama numLayers numKvHeads headDim blockSize) r.bindings)
      f o = some i) :
    headMismatch (received (.forLlama numLayers numKvHeads headDim blockSize) r.bindings) i out =
      none ↔ ∀ dim, out.shape[1]? = some dim → 2 ≤ out.rank → 0 < dim → 0 < numKvHeads →
        dim = numKvHeads := by
  have hid : i.slabId = slab := interceptOf_slab (received_llama_bound _ _ _ _ hne)
    (fun slab' hb' => hbound.unique f o slab' slab hb' hb) hi
  obtain ⟨s, hs, _, hheads⟩ := received_llama_slab numLayers numKvHeads headDim blockSize
    hne (hbound.slab _ hb)
  rw [← hid] at hs
  exact headMismatch_eq_none hs hheads

theorem crossAssert_llama (numLayers numKvHeads headDim blockSize : Nat)
    (hbound : Bound r) (hflags : FlagsOf r g) (hne : r.bindings ≠ []) :
    crossAssertCacheContract g
      (received (.forLlama numLayers numKvHeads headDim blockSize) r.bindings) = .ok () ↔
      HeadsAgree numKvHeads r.bindings g := by
  have hread := received_llama_bound numLayers numKvHeads headDim blockSize hne
  have hslabs : ¬ (received (.forLlama numLayers numKvHeads headDim blockSize)
      r.bindings).slabs.isEmpty = true := by
    rw [received, bind_llama hne]
    exact Bool.false_ne_true
  rw [crossAssertCacheContract, if_neg hslabs, forM_eq_ok]
  constructor
  · intro hall f o slab fd out dim hb hfd hout
    have hok := (assertFunc_eq_ok (hflags.length_subFlags hfd)).1
      (hall fd (mem_of_getElem? hfd)) o out hout
    obtain ⟨i, hi⟩ := Option.isSome_iff_exists.1
      ((interceptOf_isSome_iff hread).2 ⟨slab, hb⟩)
    have hnone := (assertOutput_bound hbound hflags hread hfd hout).1 hok i hi
    exact (headMismatch_llama hbound hne hb hi).1 hnone dim
  · intro hagree fd hmem
    obtain ⟨f, hfd⟩ := mem_iff_getElem?.mp hmem
    refine (assertFunc_eq_ok (hflags.length_subFlags hfd)).2 fun o out hout => ?_
    refine (assertOutput_bound hbound hflags hread hfd hout).2 fun i hi => ?_
    obtain ⟨slab, hb⟩ := (interceptOf_isSome_iff hread).1 (Option.isSome_iff_exists.2 ⟨i, hi⟩)
    exact (headMismatch_llama hbound hne hb hi).2 fun dim =>
      hagree f o slab fd out dim hb hfd hout

end Llama

theorem interceptOf_unbound (hpolicy : (bindCachePolicy policy bindings).intercepts =
      i :: rest) (hindices : i.indices = []) :
    interceptOf (received policy bindings) 0 0 = some (interceptFromProto i.message) := by
  have hcons : (received policy bindings).intercepts = interceptFromProto i.message ::
      (rest.map (·.message)).map interceptFromProto := by
    show (List.map _ (List.map _ (bindCachePolicy policy bindings).intercepts)) = _
    rw [hpolicy]
    rfl
  rw [interceptOf, hcons, find?_cons_of_pos]
  rw [decide_eq_true_eq]
  show ((i.indices[0]?).getD 0 = 0 ∧ (i.indices[1]?).getD 0 = 0)
  rw [hindices]
  exact ⟨rfl, rfl⟩

theorem not_contract_of_unbound (hpolicy : (bindCachePolicy policy bindings).intercepts =
      i :: rest) (hindices : i.indices = []) (hslab : ∀ b ∈ bindings, b.2.2 ≠ i.slabId) :
    ¬ CacheContract policy bindings g := by
  let d : GraphTensorDef := { consumedInternally := false, rank := 0, shape := [], dtype := .f32 }
  rintro ⟨m, hm, hintercept, hfind, _⟩
  obtain ⟨_, rfl⟩ := serializeCachePolicy_eq_some.1 hm
  have hzero := interceptOf_unbound hpolicy hindices
  have hne : (received policy bindings).intercepts ≠ [] := by
    intro hnil
    rw [interceptOf, hnil] at hzero
    cases hzero
  have htrue : shouldInterceptConsumed 0 0 (received policy bindings) d = true :=
    (shouldIntercept_iff hne).2 (by rw [hzero]; rfl)
  obtain ⟨slab, hb⟩ := (hintercept 0 0 d).1 htrue
  obtain ⟨s, hs, hid⟩ := hfind 0 0 slab hb
  have hlookup : findSlabForIntercept (received policy bindings) 0 0 =
      (received policy bindings).slabs.find? fun s => s.slabId = i.slabId := by
    show ((interceptOf (received policy bindings) 0 0).bind _) = _
    rw [hzero]
    rfl
  have hs' := find?_some (hlookup ▸ hs)
  rw [decide_eq_true_eq] at hs'
  exact hslab _ hb (hid.symm.trans hs')

/-! ## The contract holds of the bound attention policies -/

section Returned

variable {ops : List MlirOp}

theorem bound_or_unbound (hslabs : SlabsKv args) (h : makeMultiFunctions sets ops args = some r) :
    r.bindings = [] ∨ Bound r := by
  by_cases hone : (partitionBlocks [] ops).length ≤ 1
  · exact .inl (bindings_single h hone)
  · exact .inr (bound_of_returned hslabs (returned_of_makeMultiFunctions (by omega) h))

theorem contract_llama
    (hpolicy : args.cachePolicy = some (.forLlama numLayers numKvHeads headDim blockSize))
    (h : makeMultiFunctions sets ops args = some r) (hflags : FlagsOf r g) :
    CacheContract (.forLlama numLayers numKvHeads headDim blockSize) r.bindings g ↔
      r.bindings ≠ [] ∧
      (bindCachePolicy (.forLlama numLayers numKvHeads headDim blockSize) r.bindings).Fits ∧
      HeadsAgree numKvHeads r.bindings g := by
  have hslabs : SlabsKv args := by
    rw [SlabsKv, hpolicy]
    exact ⟨rfl, rfl⟩
  by_cases hne : r.bindings = []
  · -- nothing replaces the templates of the policy
    refine iff_of_false ?_ fun hw => hw.1 hne
    rw [hne]
    exact not_contract_of_unbound (i := .unbound "k" sdpaName "operand[1]") rfl rfl
      nofun
  · have hbound := (bound_or_unbound hslabs h).resolve_left hne
    have hread := received_llama_bound numLayers numKvHeads headDim blockSize hne
    have hassert := crossAssert_llama numLayers numKvHeads headDim blockSize hbound hflags hne
    constructor
    · rintro ⟨m, hm, _, _, hok⟩
      obtain ⟨hfits, rfl⟩ := serializeCachePolicy_eq_some.1 hm
      exact ⟨hne, hfits, hassert.1 hok⟩
    · rintro ⟨_, hfits, hheads⟩
      refine ⟨_, serializeCachePolicy_eq_some.2 ⟨hfits, rfl⟩, fun f o d => ?_,
        fun f o slab hb => ?_, hassert.2 hheads⟩
      · have hsome : (received (.forLlama numLayers numKvHeads headDim blockSize)
            r.bindings).intercepts ≠ [] := by
          obtain ⟨_, hmap, _⟩ := hread
          rw [hmap]
          exact fun hnil => hne (map_eq_nil_iff.1 hnil)
        exact (shouldIntercept_iff hsome).trans (interceptOf_isSome_iff hread)
      · obtain ⟨i, hi⟩ := Option.isSome_iff_exists.1
          ((interceptOf_isSome_iff hread).2 ⟨slab, hb⟩)
        have hid : i.slabId = slab := interceptOf_slab hread
          (fun slab' hb' => hbound.unique f o slab' slab hb' hb) hi
        obtain ⟨s, hs, hslab, _⟩ := received_llama_slab numLayers numKvHeads headDim blockSize hne
          (hbound.slab _ hb)
        refine ⟨s, ?_, hslab⟩
        show (interceptOf (received _ _) f o).bind _ = _
        rw [hi, Option.bind_some, hid]
        exact hs

theorem not_contract_mixed {m : MixedLinear} (hpolicy : args.cachePolicy = some (.forMixedLinear m))
    (h : makeMultiFunctions sets ops args = some r) :
    ¬ CacheContract (.forMixedLinear m) r.bindings g := by
  have hslabs : SlabsKv args := by
    rw [SlabsKv, hpolicy]
    exact ⟨rfl, rfl⟩
  by_cases hne : r.bindings = []
  · rw [hne]
    exact not_contract_of_unbound (i := .unbound "k" sdpaName "operand[1]") rfl rfl
      nofun
  · have hbound := (bound_or_unbound hslabs h).resolve_left hne
    have hbind : (bindCachePolicy (.forMixedLinear m) r.bindings).intercepts =
        .unbound "recurrent_state" "linear_attn" "recurrent_state" ::
          (.unbound "conv_state" "linear_attn" "conv_state" ::
            r.bindings.map (boundIntercept (.forMixedLinear m))) := by
      rw [bindCachePolicy, if_neg hne]
      rfl
    refine not_contract_of_unbound hbind rfl fun b hb heq => ?_
    rcases hbound.slab b hb with hk | hv
    · exact absurd (hk.symm.trans heq) (by decide)
    · exact absurd (hv.symm.trans heq) (by decide)

theorem not_contract_rwkv {stateDim maxRequests : Nat}
    (hpolicy : args.cachePolicy = some (.forRwkv numLayers stateDim maxRequests))
    (h : makeMultiFunctions sets ops args = some r) :
    ¬ CacheContract (.forRwkv numLayers stateDim maxRequests) r.bindings g := by
  have hnone : r.bindings = [] := by
    by_cases hone : (partitionBlocks [] ops).length ≤ 1
    · exact bindings_single h hone
    · have hr : Returned sets args (partitionBlocks [] ops) r :=
        returned_of_makeMultiFunctions (by omega) h
      refine eq_nil_iff_forall_not_mem.2 fun b hb => ?_
      obtain ⟨block, _, hb⟩ := (mem_bindings hr).1 hb
      obtain ⟨_, v, _, _, hslab⟩ := mem_funcBindings.1 hb
      rw [slabForSsa_none (by rw [hpolicy]; rfl) (by rw [hpolicy]; rfl)] at hslab
      cases hslab
  rw [hnone]
  exact not_contract_of_unbound (i := .unbound "state" "state_evolve" "output") rfl rfl
    nofun

end Returned

/-- The attention policies keep the contract if bindings fit and are of outputs with their heads. -/
theorem cacheContract_iff (sets : SetOrder) (ops : List MlirOp) (args : SplitArgs)
    (r : SplitResult) (g : ComputeGraph) (h : makeMultiFunctions sets ops args = some r)
    (hflags : FlagsOf r g) :
    (∀ numLayers numKvHeads headDim blockSize,
      args.cachePolicy = some (.forLlama numLayers numKvHeads headDim blockSize) →
      (CacheContract (.forLlama numLayers numKvHeads headDim blockSize) r.bindings g ↔
        r.bindings ≠ [] ∧
        (bindCachePolicy (.forLlama numLayers numKvHeads headDim blockSize) r.bindings).Fits ∧
        HeadsAgree numKvHeads r.bindings g)) ∧
    (∀ m, args.cachePolicy = some (.forMixedLinear m) →
      ¬ CacheContract (.forMixedLinear m) r.bindings g) ∧
    (∀ numLayers stateDim maxRequests,
      args.cachePolicy = some (.forRwkv numLayers stateDim maxRequests) →
      ¬ CacheContract (.forRwkv numLayers stateDim maxRequests) r.bindings g) :=
  ⟨fun _ _ _ _ hpolicy => contract_llama hpolicy h hflags,
    fun _ hpolicy => not_contract_mixed hpolicy h,
    fun _ _ _ hpolicy => not_contract_rwkv hpolicy h⟩

/-! ### An attention split off its projections -/

/-- The projections of K, Q and V, and the attention behind them. -/
def attentionOps : List MlirOp :=
  [⟨"sf.linear", "sf", "linear", ["%x"], ["%k"], [], [], ["tensor<4x2x8xf32>"]⟩,
    ⟨"sf.linear", "sf", "linear", ["%x"], ["%q"], [], [], ["tensor<4x2x8xf32>"]⟩,
    ⟨"sf.linear", "sf", "linear", ["%x"], ["%v"], [], [], ["tensor<4x2x8xf32>"]⟩,
    ⟨"sf._func_boundary", "sf", "_func_boundary", [], [], [], [], []⟩,
    ⟨"sf.scaled_dot_product_attention", "sf", "scaled_dot_product_attention", ["%q", "%k", "%v"],
      ["%y"], [], [], ["tensor<4x2x8xf32>"]⟩]

def attentionProgram : SplitArgs where
  globalInputs := [("%x", "tensor<4x16xf32>")]
  globalOutputs := [⟨"%y", "tensor<4x2x8xf32>", false⟩]
  weights := []
  paramNames := []
  constNames := []
  baseName := "main"
  cachePolicy := none

def attentionArgs (policy : Compiler.CachePolicy) : SplitArgs :=
  { attentionProgram with cachePolicy := some policy }

/-- The graph of a split program whose outputs all have one shape. -/
def graphOf (shape : List Nat) (r : SplitResult) : ComputeGraph where
  functions := r.functions.zipIdx.map fun e =>
    { index := e.2
      symbol := e.1.name
      numInputs := 0
      numOutputs := e.1.outputs.length
      inputs := []
      outputs := e.1.outputs.map fun out =>
        { consumedInternally := out.consumed
          rank := shape.length
          shape
          dtype := .f32 }
      consumedSubOutputFlags := e.1.outputs.map (·.consumed) }
  globalInput := (0, 0)
  globalOutput := (0, 0)

theorem graphOf_function {shape : List Nat} {fd : FuncDef}
    (hfd : (graphOf shape r).functions[f]? = some fd) :
    ∃ func : MlirFunction, r.functions[f]? = some func ∧ fd.index = f ∧
      fd.outputs.map (·.consumedInternally) = func.outputs.map (·.consumed) ∧
      fd.consumedSubOutputFlags = func.outputs.map (·.consumed) ∧
      ∀ out ∈ fd.outputs, out.shape = shape := by
  obtain ⟨e, he, rfl⟩ := Option.map_eq_some_iff.1 ((getElem?_map ..).symm.trans hfd)
  obtain ⟨func, hfunc, rfl⟩ := Option.map_eq_some_iff.1 ((getElem?_zipIdx ..).symm.trans he)
  refine ⟨func, hfunc, zero_add f, ?_, rfl, fun out hout => ?_⟩
  · rw [map_map]
    rfl
  · obtain ⟨_, _, rfl⟩ := mem_map.1 hout
    rfl

theorem graphOf_flags (shape : List Nat) (r : SplitResult) : FlagsOf r (graphOf shape r) where
  length := by rw [graphOf, List.length_map, List.length_zipIdx]
  index := fun f fd hfd => by
    obtain ⟨_, _, hindex, _⟩ := graphOf_function hfd
    exact hindex
  outputs := fun f fd func hfd hfunc => by
    obtain ⟨func', hfunc', _, houtputs, _⟩ := graphOf_function hfd
    cases hfunc.symm.trans hfunc'
    exact houtputs
  subFlags := fun f fd func hfd hfunc => by
    obtain ⟨func', hfunc', _, _, hsub, _⟩ := graphOf_function hfd
    cases hfunc.symm.trans hfunc'
    exact .inr hsub

theorem attention_ssa : SsaProgram [attentionOps.take 3, attentionOps.drop 4] attentionProgram where
  distinct := by decide
  inScope := by decide
  outputs := by decide
  weightsFirst := by
    intro f block hblock op hop hweight
    have hnone : ∀ block ∈ [attentionOps.take 3, attentionOps.drop 4], ∀ op ∈ block,
        op.opName ≠ "weight" := by decide
    exact absurd hweight (hnone block (mem_of_getElem? hblock) op hop)
  weights := nofun
  weightNames := by decide

/-- The bindings of the projections, if the policy has slabs for both operands. -/
theorem attention_bindings (policy : Compiler.CachePolicy)
    (hslabs : SlabsKv (attentionArgs policy)) :
    ∃ r, makeMultiFunctions .insertion attentionOps (attentionArgs policy) = some r ∧
      r.bindings = [(0, 1, "k"), (0, 2, "v")] := by
  have hblocks : partitionBlocks [] attentionOps =
      [attentionOps.take 3, attentionOps.drop 4] := by decide
  have hssa : SsaProgram (partitionBlocks [] attentionOps) (attentionArgs policy) := by
    rw [hblocks]
    exact ⟨attention_ssa.distinct, attention_ssa.inScope, attention_ssa.outputs,
      attention_ssa.weightsFirst, attention_ssa.weights, attention_ssa.weightNames⟩
  have htwo : 2 ≤ (partitionBlocks [] attentionOps).length := by decide
  obtain ⟨r, hr⟩ := Option.isSome_iff_exists.1
    ((makeMultiFunctions_isSome .insertion hssa htwo).2 (by decide))
  refine ⟨r, hr, ?_⟩
  -- the policy has no part in what is exported
  have hexported : exported attentionProgram [attentionOps.take 3, attentionOps.drop 4] 0
      (attentionOps.take 3) = ["k", "q", "v"] := mergeSort_of_pairwise (by decide)
  have hordered : orderedOutputs (attentionArgs policy)
      [attentionOps.take 3, attentionOps.drop 4] 0 (attentionOps.take 3) = ["q", "k", "v"] := by
    show orderedOutputs attentionProgram _ 0 _ = _
    rw [orderedOutputs, hexported]
    rfl
  have hfirst : funcBindings (attentionArgs policy) [attentionOps.take 3, attentionOps.drop 4] 0
      (attentionOps.take 3) = [(0, 1, "k"), (0, 2, "v")] := by
    have hk : slabForSsa (attentionArgs policy) [attentionOps.take 3, attentionOps.drop 4] 0 "k" =
        some "k" := by
      unfold slabForSsa
      simp only [hslabs.1, hslabs.2]
      rfl
    have hv : slabForSsa (attentionArgs policy) [attentionOps.take 3, attentionOps.drop 4] 0 "v" =
        some "v" := by
      unfold slabForSsa
      simp only [hslabs.1, hslabs.2]
      rfl
    have hmarked : kvToMark [attentionOps.take 3, attentionOps.drop 4] 0 = ["k", "v"] := by decide
    rw [funcBindings, hordered, hmarked]
    simp [hk, hv]
  have hlast : funcBindings (attentionArgs policy) [attentionOps.take 3, attentionOps.drop 4] 1
      (attentionOps.drop 4) = [] := by
    have hmarked : kvToMark [attentionOps.take 3, attentionOps.drop 4] 1 = [] := by decide
    refine eq_nil_iff_forall_not_mem.2 fun b hb => ?_
    obtain ⟨_, v, _, hmark, _⟩ := mem_funcBindings.1 hb
    rw [hmarked] at hmark
    cases hmark
  rw [(returned_of_makeMultiFunctions htwo hr).bindings, hblocks]
  show funcBindings _ _ 0 (attentionOps.take 3) ++
    (funcBindings _ _ 1 (attentionOps.drop 4) ++ []) = _
  rw [hfirst, hlast]
  rfl

theorem cacheContract_iff_witness :
    ∃ r, makeMultiFunctions .insertion attentionOps (attentionArgs (.forLlama 1 2 8 16)) = some r ∧
      CacheContract (.forLlama 1 2 8 16) r.bindings (graphOf [4, 2, 8] r) := by
  obtain ⟨r, hr, hbindings⟩ := attention_bindings (.forLlama 1 2 8 16) ⟨rfl, rfl⟩
  refine ⟨r, hr, ((cacheContract_iff .insertion attentionOps _ r _ hr
    (graphOf_flags [4, 2, 8] r)).1 1 2 8 16 rfl).2 ⟨?_, ?_, ?_⟩⟩
  · rw [hbindings]
    exact cons_ne_nil _ _
  · rw [hbindings]
    exact ⟨by decide, by decide, by decide, by decide⟩
  · intro f o slab fd out dim _ hfd hout hdim _ _ _
    obtain ⟨_, _, _, _, _, hshape⟩ := graphOf_function hfd
    rw [hshape out (mem_of_getElem? hout)] at hdim
    cases hdim
    rfl

/-- With linear attention besides, the runtime intercepts the Q output for the recurrent state. -/
theorem cacheContract_fails :
    ∃ r, makeMultiFunctions .insertion attentionOps
        (attentionArgs (.forMixedLinear ⟨1, 1, 2, 8, 2, 2, 4, 4, 3, 16⟩)) = some r ∧
      FlagsOf r (graphOf [4, 2, 8] r) ∧
      ¬ CacheContract (.forMixedLinear ⟨1, 1, 2, 8, 2, 2, 4, 4, 3, 16⟩) r.bindings
        (graphOf [4, 2, 8] r) := by
  obtain ⟨r, hr, _⟩ := attention_bindings
    (.forMixedLinear ⟨1, 1, 2, 8, 2, 2, 4, 4, 3, 16⟩) ⟨rfl, rfl⟩
  exact ⟨r, hr, graphOf_flags _ r, not_contract_mixed rfl hr⟩

end CompileForge.Abi
