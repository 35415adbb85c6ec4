/-
  The cache policy as the runtime reads it from its message (`CachePolicy::from_proto` of
  `runtime/src/cache/policy.rs`), and the assertion that it agrees with the compute graph
  (`runtime/src/cache/contract.rs`).
-/

import CompileForge.Lib.Outcome
import CompileForge.Runtime.Cache.Policy

namespace CompileForge.Runtime

open Abi Lib

def slabFromProto (s : SfaSlabSpec) : CacheSlab where
  dims := ((((∅ : AList fun _ : String => Nat).insert "blocks" s.numBlocks).insert "layers"
    s.numLayers).insert "heads" s.numHeads).insert "dim" s.headDim
  slabId := s.name
  storage := s.slabType
  layout := s.layout
  dtype := if s.dtype = "" then "float32" else s.dtype

/-- A missing index reads as 0. -/
def interceptFromProto (i : SfaInterceptSpec) : InterceptSpec where
  slabId := i.slabId
  opName := i.opNamePattern
  direction := i.interceptType
  source := i.source
  layer := if i.layer = "" then "sequential" else i.layer
  funcIndex := (i.paramIndices[0]?).getD 0
  outputIndex := (i.paramIndices[1]?).getD 0

def CachePolicy.fromProto (p : SfaCachePolicy) : CachePolicy where
  slabs := p.slabs.map slabFromProto
  intercepts := p.intercepts.map interceptFromProto
  blockSize := if 0 < p.blockSize then p.blockSize else 16
  maxRequests := if 0 < p.maxRequests then p.maxRequests else 256

/-! ## The assertion -/

variable (policy : CachePolicy)

/-- The first intercept of an output. -/
def interceptOf (fi oi : Nat) : Option InterceptSpec :=
  policy.intercepts.find? fun i => i.funcIndex = fi ∧ i.outputIndex = oi

def headMismatch (i : InterceptSpec) (out : GraphTensorDef) : Option (Nat × Nat) := do
  let slab ← policy.slabs.find? fun s => s.slabId = i.slabId
  let heads ← slab.dims.lookup "heads"
  let dim ← out.shape[1]?
  if 2 ≤ out.rank ∧ 0 < dim ∧ 0 < heads ∧ dim ≠ heads then some (dim, heads) else none

/-- The checks of one output. -/
def assertOutput (func : FuncDef) (out : GraphTensorDef) (oi : Nat) : Except String Unit :=
  match out.consumedInternally, interceptOf policy func.index oi with
  | true, none =>
    .error (s!"cache contract: func[{func.index}] output[{oi}] is consumed_internally but " ++
      "sfa_cache_policy has no matching intercept")
  | false, some i =>
    .error (s!"cache contract: intercept (func={func.index}, output={oi}, slab={i.slabId}) " ++
      "exists but the ABI output is not consumed_internally")
  | false, none => .ok ()
  | true, some i =>
    match func.consumedSubOutputFlags[oi]? with
    | some false =>
      .error (s!"cache contract: func[{func.index}] output[{oi}] " ++
        "consumed_sub_output_flags=false disagrees with consumed_internally=true")
    | _ =>
      match headMismatch policy i out with
      | some (dim, heads) =>
        .error (s!"cache contract: func[{func.index}] output[{oi}] ABI dims[1]={dim} != " ++
          s!"slab '{i.slabId}' num_heads={heads} (head-count mismatch)")
      | none => .ok ()

/-- The checks of one function. -/
def assertFunc (func : FuncDef) : Except String Unit :=
  if func.consumedSubOutputFlags ≠ [] ∧
      func.consumedSubOutputFlags.length ≠ func.outputs.length then
    .error (s!"cache contract: func[{func.index}] has {func.consumedSubOutputFlags.length} " ++
      s!"consumed_sub_output_flags but {func.outputs.length} output descriptors — packed-sret " ++
      "ABI no longer supported")
  else func.outputs.zipIdx.forM fun e => assertOutput policy func e.1 e.2

def crossAssertCacheContract (graph : ComputeGraph) (policy : CachePolicy) : Except String Unit :=
  if policy.slabs.isEmpty then .ok () else graph.functions.forM (assertFunc policy)

/-! ## What passes -/

section

variable {policy : CachePolicy} {func : FuncDef} {out : GraphTensorDef} {oi : Nat}

theorem assertOutput_eq_ok_iff :
    assertOutput policy func out oi = .ok () ↔
      (out.consumedInternally = true ↔ (interceptOf policy func.index oi).isSome = true) ∧
      ∀ i, interceptOf policy func.index oi = some i →
        func.consumedSubOutputFlags[oi]? ≠ some false ∧ headMismatch policy i out = none := by
  have herror : ∀ e : String, ¬ (Except.error e : Except String Unit) = .ok () := fun e h => by
    cases h
  unfold assertOutput
  cases out.consumedInternally with
  | false =>
    cases interceptOf policy func.index oi with
    | none => simp
    | some => simp [herror]
  | true =>
    cases interceptOf policy func.index oi with
    | none => simp [herror]
    | some i =>
      simp only [Option.isSome_some, true_and, Option.some_inj, forall_eq']
      cases func.consumedSubOutputFlags[oi]? with
      | none => cases headMismatch policy i out <;> simp
      | some flag =>
        cases flag with
        | false => simp
        | true => cases headMismatch policy i out <;> simp

theorem assertFunc_eq_ok_iff :
    assertFunc policy func = .ok () ↔ (func.consumedSubOutputFlags = [] ∨
        func.consumedSubOutputFlags.length = func.outputs.length) ∧
      ∀ (o : Nat) (out : GraphTensorDef), func.outputs[o]? = some out →
        assertOutput policy func out o = .ok () := by
  rw [assertFunc]
  split
  · next h => exact iff_of_false (nofun) fun h' => h'.1.elim h.1 h.2
  · next h =>
    rw [forM_eq_ok]
    constructor
    · intro hall
      refine ⟨?_, fun o out hout => hall (out, o) (List.mem_zipIdx_iff_getElem?.mpr hout)⟩
      by_contra hno
      exact h ⟨fun hnil => hno (.inl hnil), fun hne => hno (.inr hne)⟩
    · exact fun hall e he => hall.2 e.2 e.1 (List.mem_zipIdx_iff_getElem?.mp he)

theorem crossAssert_eq_ok_iff {graph : ComputeGraph} (hslabs : policy.slabs ≠ []) :
    crossAssertCacheContract graph policy = .ok () ↔
      ∀ func ∈ graph.functions, assertFunc policy func = .ok () := by
  have hempty : ¬ policy.slabs.isEmpty = true := fun h => hslabs (List.isEmpty_iff.1 h)
  rw [crossAssertCacheContract, if_neg hempty, forM_eq_ok]

end

end CompileForge.Runtime
