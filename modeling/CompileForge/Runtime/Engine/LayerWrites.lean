/-
  No K/V row of a forward pass is lost.  `InferenceRunner::new` collects the functions whose
  layer tables it grows apart from the test of the graph runner; before a pass the runner grows
  these tables to `kv_target_tokens`.
-/

import CompileForge.Runtime.Cache.Buffers
import CompileForge.Runtime.Engine.GraphWiring
import CompileForge.Runtime.Engine.RunnerRelease

namespace CompileForge.Runtime

open Lib List

/-! ## The write of a hook -/

/-- A `write_kv` call; a failure of it would only be logged. -/
structure KvWrite where
  requestId : String
  startPos : Nat
  data : List F32
  hiddenDim : Nat
  isKey : Bool

def BlockManager.apply (bm : BlockManager) (w : KvWrite) :
    Option (Except String Unit × BlockManager) :=
  bm.writeKv w.requestId w.startPos w.data w.hiddenDim w.isKey

/-- The call `intercept_consumed_output` issues, `none` where it panics before. -/
def kvWrite (fi oi : Nat) (tensor : Tensor) (rid : String) (positions : List UInt32)
    (isDecode : Bool) (funcDefOutputs : List IOTensorDef) (slab : Option SlabSpec)
    (overrideIsKey : Bool) : Option KvWrite := do
  let (nh, hd) ← headDims slab tensor
  let startPos ← writeStart positions isDecode
  let data ← writeData tensor slab positions.length nh hd
  some ⟨layerRid rid fi, startPos, data, nh * hd, isKeyOutput funcDefOutputs oi overrideIsKey⟩

variable {nh hd numTokens : Nat} {srcOff : Nat → Nat → Nat} {src out data : List F32}
  {tensor : Tensor} {sr : ScheduledRequest}

theorem length_copyHead {n p h : Nat} {dst : List F32}
    (hp : p < n) (hh : h < nh) (hdst : dst.length = n * (nh * hd))
    (hout : copyHead nh hd srcOff src p dst h = some out) : out.length = n * (nh * hd) := by
  unfold copyHead at hout
  split at hout
  · rename_i hfit
    cases hout
    have hslice : (slice src (srcOff p h) hd).length = hd := length_slice hfit
    have hrow : h * hd + hd ≤ nh * hd := BlockManager.row_fits hh
    have hall : p * (nh * hd) + nh * hd ≤ n * (nh * hd) := BlockManager.row_fits hp
    rw [length_overwrite (by rw [hslice, hdst]; omega), hdst]
  · cases hout

theorem length_copyHeads (hout : copyHeads numTokens nh hd srcOff src = some out) :
    out.length = numTokens * (nh * hd) := by
  refine foldlM_rule (I := fun dst => dst.length = numTokens * (nh * hd))
    (fun p hp dst mid hdst hrow => ?_) length_replicate hout
  exact foldlM_rule (I := fun dst => dst.length = numTokens * (nh * hd))
    (fun h hh dst mid hdst hcopy =>
      length_copyHead (mem_range.1 hp) (mem_range.1 hh) hdst hcopy) hdst hrow

/-- A slab tells the axes apart, or a row of all heads stands for each position. -/
def RowPerPosition (slab : Option SlabSpec) (tensor : Tensor) (numTokens hiddenDim : Nat) : Prop :=
  (slab.isSome ∧ tensor.shape.headD 0 = 1 ∧ 0 < numTokens) ∨
    tensor.data.length = numTokens * hiddenDim

theorem length_transposeToBnldFromSlab (hrank : 4 ≤ tensor.shape.length)
    (hrows : tensor.shape.headD 0 = 1 ∨ tensor.data.length = numTokens * (nh * hd))
    (h : transposeToBnldFromSlab tensor numTokens nh hd = some data) :
    data.length = numTokens * (nh * hd) := by
  unfold transposeToBnldFromSlab at h
  rw [if_neg (not_lt.2 hrank)] at h
  split at h
  · rename_i hbatch
    cases h
    exact hrows.resolve_left hbatch
  · dsimp only at h
    split at h
    · split at h
      · exact length_copyHeads h
      · exact length_copyHeads h
    · exact length_copyHeads h

theorem length_writeData {slab : Option SlabSpec} (hdims : headDims slab tensor = some (nh, hd))
    (hrows : RowPerPosition slab tensor numTokens (nh * hd))
    (h : writeData tensor slab numTokens nh hd = some data) :
    data.length = numTokens * (nh * hd) := by
  have hrank : 4 ≤ tensor.shape.length := by
    -- the hook indexes axis 3
    unfold headDims at hdims
    simp only [Option.bind_eq_bind] at hdims
    obtain ⟨_, -, hdims⟩ := Option.bind_eq_some_iff.1 hdims
    obtain ⟨_, hdim, -⟩ := Option.bind_eq_some_iff.1 hdims
    exact (List.getElem?_eq_some_iff.1 hdim).1
  unfold writeData at h
  split at h
  · refine length_transposeToBnldFromSlab hrank ?_ h
    rcases hrows with ⟨-, hbatch, -⟩ | hlen
    · exact .inl hbatch
    · exact .inr hlen
  · rename_i hslab
    split at h
    · exact length_copyHeads h
    · cases h
      rcases hrows with ⟨hsome, -, hpos⟩ | hlen
      · exact absurd ⟨hsome, hrank, hpos⟩ hslab
      · exact hlen

/-! ## The layers -/

/-- The functions `InferenceRunner::new` collects. -/
def kvFunctions (cachePolicy : CachePolicy) (computeGraph : ComputeGraph) : List Nat :=
  if cachePolicy.intercepts.isEmpty then
    (computeGraph.functions.filter fun f => f.outputs.any (·.consumedInternally)).map FuncDef.index
  else cachePolicy.intercepts.map InterceptSpec.funcIndex

/-- Output `oi` of the function is one the graph runner intercepts. -/
def Intercepted (cachePolicy : CachePolicy) (computeGraph : ComputeGraph) (funcDef : FuncDef)
    (oi : Nat) : Prop :=
  funcDef ∈ computeGraph.functions ∧ ∃ ioDef, funcDef.outputs[oi]? = some ioDef ∧
    shouldInterceptConsumed funcDef.index oi cachePolicy ioDef = true

theorem Intercepted.mem_kvFunctions {cachePolicy : CachePolicy} {computeGraph : ComputeGraph}
    {funcDef : FuncDef} {oi : Nat} (h : Intercepted cachePolicy computeGraph funcDef oi) :
    funcDef.index ∈ kvFunctions cachePolicy computeGraph := by
  obtain ⟨hmem, ioDef, hio, hshould⟩ := h
  unfold shouldInterceptConsumed at hshould
  unfold kvFunctions
  split at hshould
  · rename_i hempty
    rw [if_pos hempty]
    have hany : funcDef.outputs.any (·.consumedInternally) = true :=
      any_eq_true.2 ⟨ioDef, mem_of_getElem? hio, hshould⟩
    exact mem_map_of_mem (mem_filter.2 ⟨hmem, hany⟩)
  · rename_i hsome
    rw [if_neg hsome]
    obtain ⟨intercept, hintercept, hmatch⟩ := any_eq_true.1 hshould
    have hindex : intercept.funcIndex = funcDef.index := (of_decide_eq_true hmatch).1
    exact hindex ▸ mem_map_of_mem hintercept

theorem mem_destutter_ne {l : List Nat} {x : Nat} (h : x ∈ l) : x ∈ l.destutter (· ≠ ·) := by
  have hrest : ∀ (l : List Nat) (a : Nat), x ∈ a :: l → x ∈ l.destutter' (· ≠ ·) a := by
    intro l
    induction l with
    | nil => exact fun a hx => hx
    | cons b l ih =>
      intro a hx
      rw [destutter'_cons]
      split
      · rcases mem_cons.1 hx with rfl | hx
        · exact mem_cons_self
        · exact mem_cons_of_mem a (ih b hx)
      · rename_i hab
        obtain rfl : a = b := not_not.1 hab
        rcases mem_cons.1 hx with rfl | hx
        · exact mem_destutter' _ _ _
        · exact ih a hx
  cases l with
  | nil => cases h
  | cons a l => exact hrest l a h

theorem mem_layerIds {kvFunctions : List Nat} {fi : Nat} (h : fi ∈ kvFunctions) :
    fi ∈ InferenceRunner.layerIds true kvFunctions := by
  refine mem_destutter_ne ?_
  rwa [mem_insertionSort]

/-! ## Growing the layer tables -/

section Growth

open BlockManager

variable {bm bm' : BlockManager} {rid key : String} {n fi : Nat}

/-- The table covers the first positions. -/
def Reaches (bm : BlockManager) (key : String) (n : Nat) : Prop := ∃ ids, bm.Covers key n ids

theorem Reaches.grows (h : Reaches bm key n) (hgrows : bm.Grows rid bm') : Reaches bm' key n := by
  obtain ⟨ids, hlookup, hcover⟩ := h
  rcases hgrows with rfl | ⟨k, hfree, rfl⟩
  · exact ⟨ids, hlookup, hcover⟩
  · by_cases hkey : key = rid
    · subst hkey
      refine ⟨_, lookup_grow key k hfree, ?_⟩
      rw [blockSize_grow, table_eq hlookup, length_append, mul_add]
      exact le_trans hcover (Nat.le_add_right ..)
    · refine ⟨ids, ?_, by rwa [blockSize_grow]⟩
      have hother : (bm.grow rid k hfree).blockTables.lookup key =
          (popBlocks k bm hfree).2.blockTables.lookup key := lookup_setTable_ne hkey _
      rw [hother, (popBlocks_frame k bm hfree).1]
      exact hlookup

theorem reservePrompt_reaches (hn : 0 < n) (h : reservePrompt bm key n = (.ok (), bm')) :
    Reaches bm' key n := by
  unfold reservePrompt at h
  split at h
  · rcases bm.ensureBlocks_spec key hn with ⟨e, heq⟩ | ⟨pool, ids, heq, -, hcover⟩
    · rw [heq] at h
      cases h
    · rw [heq] at h
      cases h
      exact ⟨ids, hcover⟩
  · rcases bm.allocate_spec key n with ⟨e, heq⟩ | ⟨pool, ids, heq, -, hcover⟩
    · rw [heq] at h
      cases h
    · rw [heq] at h
      cases h
      exact ⟨ids, hcover⟩

theorem ensureKvLayerBlocks_keeps {layers : List Nat} (h : Reaches bm key n) (target : Nat) :
    Reaches (ensureKvLayerBlocks rid target layers bm).2 key n :=
  ensureKvLayerBlocks_rule (P := fun pool => Reaches pool key n)
    (fun _ _ _ _ hreach hgrows => hreach.grows hgrows) h target

theorem ensureKvLayerBlocks_reaches {layers : List Nat} (hn : 0 < n)
    (h : ensureKvLayerBlocks rid n layers bm = (.ok (), bm')) (hfi : fi ∈ layers) :
    Reaches bm' (layerRid rid fi) n := by
  induction layers generalizing bm with
  | nil => cases hfi
  | cons fj layers ih =>
    rw [ensureKvLayerBlocks] at h
    split at h
    · cases h
    · rename_i pool hreserve
      rcases mem_cons.1 hfi with rfl | hfi
      · have hkept : Reaches (ensureKvLayerBlocks rid n layers pool).2 (layerRid rid fi) n :=
          ensureKvLayerBlocks_keeps (reservePrompt_reaches hn hreserve) n
        rwa [h] at hkept
      · exact ih h hfi

theorem ensureKvLayerBlocks_sameBuffers (rid : String) (n : Nat) (layers : List Nat)
    (bm : BlockManager) : SameBuffers bm (ensureKvLayerBlocks rid n layers bm).2 :=
  ensureKvLayerBlocks_rule (P := fun pool => SameBuffers bm pool)
    (fun _ _ _ _ hsame hgrows => hsame.trans hgrows.sameBuffers) (.refl bm) n

end Growth

/-! ## What is scheduled -/

theorem length_le_last_u32Range (startPos endPos : Nat) {last : UInt32}
    (h : (u32Range startPos endPos).getLast? = some last) :
    (u32Range startPos endPos).length ≤ last.toNat + 1 := by
  have hlt := (UInt32.ofNat endPos).toNat_lt
  unfold u32Range at h ⊢
  generalize (UInt32.ofNat startPos).toNat = first at h ⊢
  generalize (UInt32.ofNat endPos).toNat = stop at h hlt ⊢
  rw [length_map, length_range']
  rw [getLast?_map] at h
  obtain ⟨p, hp, rfl⟩ := Option.map_eq_some_iff.1 h
  rw [getLast?_range'] at hp
  split at hp
  · cases hp
  · rename_i hcount
    cases hp
    have hin : first + (stop - first) - 1 < 2 ^ 32 := by omega
    have hlast : (UInt32.ofNat (first + (stop - first) - 1)).toNat = first + (stop - first) - 1 :=
      UInt32.toNat_ofNat_of_lt' hin
    rw [hlast]
    omega

theorem length_u32Range_one (p : Nat) : (u32Range p (p + 1)).length ≤ 1 := by
  have hnext : (UInt32.ofNat (p + 1)).toNat ≤ (UInt32.ofNat p).toNat + 1 := by
    rw [UInt32.toNat_ofNat', UInt32.toNat_ofNat']
    omega
  rw [u32Range, length_map, length_range']
  omega

/-- What the scheduler hands to a forward pass in KV mode. -/
structure ScheduledRequest.Chunked (sr : ScheduledRequest) : Prop where
  tokens : sr.inputIds.length = sr.nTokens
  pos : 0 < sr.nTokens
  single : sr.nTokens = 1 → sr.positions.length ≤ 1
  range : sr.nTokens ≠ 1 → ∃ startPos endPos, sr.positions = u32Range startPos endPos

theorem Turned.chunked {cfg : SchedulerConfig} {budget : Budget} {req : Request}
    {bm : BlockManager} {turn : Turn} (h : Turned cfg budget req bm turn)
    (hkv : cfg.useKvCache = true) (hsr : turn.slot.scheduled? = some sr) : sr.Chunked := by
  cases h with
  | chunk hstate hrest hbudget hreserve hgrows hcovers =>
    cases hsr
    have hle := chunkLen_le cfg budget req
    have hmore := tokensRemaining_ne_zero_iff.1 hrest
    refine ⟨length_slice (by omega), chunkLen_pos hrest hbudget, fun hone => ?_,
      fun _ => ⟨_, _, rfl⟩⟩
    have hone : chunkLen cfg budget req = 1 := hone
    show (u32Range req.prefillPos (req.prefillPos + chunkLen cfg budget req)).length ≤ 1
    rw [hone]
    exact length_u32Range_one req.prefillPos
  | decodeCached hstate hbudget hcached hreserve hgrows hcovers =>
    cases hsr
    exact ⟨rfl, one_pos, fun _ => Nat.le_refl 1, fun hne => absurd rfl hne⟩
  | decodeFull hstate hbudget hplain htable =>
    rw [hkv] at hplain
    cases hplain
  | _ => cases hsr

theorem kvTargetTokens_pos (h : 0 < sr.nTokens) :
    0 < kvTargetTokens sr := by
  unfold kvTargetTokens
  split
  · cases sr.positions.head? with
    | none => exact one_pos
    | some => exact Nat.succ_pos _
  · cases sr.positions.getLast? with
    | none => exact h
    | some => exact Nat.succ_pos _

/-- The target reaches over every position that the hook writes to. -/
theorem writeStart_le_target (h : sr.Chunked) {startPos : Nat}
    (hstart : writeStart sr.positions (sr.inputIds.length = 1) = some startPos) :
    startPos + sr.positions.length ≤ kvTargetTokens sr := by
  unfold writeStart at hstart
  unfold kvTargetTokens
  rw [h.tokens] at hstart
  by_cases hone : sr.nTokens = 1
  · rw [if_pos (decide_eq_true hone)] at hstart
    have hlen := h.single hone
    obtain ⟨p, hp, rfl⟩ := Option.map_eq_some_iff.1 hstart
    rw [if_pos hone, hp, Option.map_some, Option.getD_some]
    omega
  · have hprefill : decide (sr.nTokens = 1) = false := decide_eq_false hone
    rw [hprefill] at hstart
    cases hstart
    obtain ⟨first, stop, hrange⟩ := h.range hone
    rw [if_neg hone, zero_add]
    cases hlast : sr.positions.getLast? with
    | none =>
      rw [getLast?_eq_none_iff.1 hlast]
      exact Nat.zero_le _
    | some =>
      rw [hrange] at hlast ⊢
      exact length_le_last_u32Range first stop hlast

/-! ## What the runner keeps -/

/-- The executor changes a pool by `write_kv` calls only. -/
def Backend.WritesKv {ω : Type} (backend : Backend ω) : Prop :=
  ∀ e inputIds positions bm rid logits bm' e',
    backend.forwardWithKv e inputIds positions bm rid = some (logits, bm', e') → bm.KvWritten bm'.1

variable {heap : MaxHeap QueueEntry QueueEntry.rank} {ω : Type}

namespace InferenceRunner

open BlockManager

variable {r r' r₁ r₀ : InferenceRunner heap ω} {backend : Backend ω} {sampling : SamplerConfig}
  {req : ScheduledRequest} {rid : String} {tokenId : UInt32}

/-- The layers stay, and the buffers of the pool keep their sizes. -/
structure LayersKept (r r' : InferenceRunner heap ω) : Prop where
  layers_eq : r'.kvLayerIds = r.kvLayerIds
  buffers : SameBuffers r.blockManager r'.blockManager

theorem LayersKept.refl (r : InferenceRunner heap ω) : LayersKept r r := ⟨rfl, .refl _⟩

theorem LayersKept.trans (h : LayersKept r r₁) (h' : LayersKept r₁ r') : LayersKept r r' :=
  ⟨h'.layers_eq.trans h.layers_eq, h.buffers.trans h'.buffers⟩

theorem Inv.scheduleStep_layersKept (h : r.Inv) : LayersKept r r.scheduleStep.2 := by
  obtain ⟨entries, -, -, hpool, -⟩ := h.admitted_spec
  have hbuilt : SameBuffers r.admitted.2 r.built.2.2 :=
    buildSlots_invariant (I := fun bm => SameBuffers r.admitted.2 bm)
      (fun _ _ _ _ hsame hturn => hsame.trans hturn.grows.sameBuffers) (.refl _)
  rw [hpool] at hbuilt
  rw [h.scheduleStep_eq]
  exact ⟨rfl, hbuilt⟩

theorem forward_layersKept (hwrites : backend.WritesKv) {result : Except String (List F32)}
    (hout : r.forward backend req = some (result, r')) : LayersKept r r' := by
  unfold forward at hout
  split at hout
  · have hgrown := ensureKvLayerBlocks_sameBuffers req.requestId (kvTargetTokens req)
      r.kvLayerIds r.blockManager
    split at hout
    · rename_i e bm heq
      rw [heq] at hgrown
      cases hout
      exact ⟨rfl, hgrown⟩
    · rename_i bm heq
      rw [heq] at hgrown
      split at hout
      · cases hout
      · rename_i logits bm' executor hforward
        cases hout
        exact ⟨rfl, hgrown.trans (hwrites _ _ _ _ _ _ _ _ hforward).spec.2⟩
  · split at hout
    · cases hout
    · cases hout
      exact ⟨rfl, .refl _⟩

theorem sampleToken_layersKept (backend : Backend ω) (sampling : SamplerConfig)
    (r : InferenceRunner heap ω) (req : ScheduledRequest) (allLogits : List F32) :
    LayersKept r (r.sampleToken backend sampling req allLogits).2 := by
  unfold sampleToken
  split
  · exact .refl r
  · split
    · exact .refl r
    · exact ⟨rfl, .refl _⟩

theorem sameBuffers_insert {cache cache' : RadixCache} {tokens : List UInt32} {blocks : List Nat}
    {bm bm' : BlockManager} (h : cache.insert tokens blocks bm = some (cache', bm')) :
    SameBuffers bm bm' := by
  obtain ⟨calls, -, hpair⟩ := Option.map_eq_some_iff.1 h
  cases hpair
  exact sameBuffers_foldl (fun bm bid => sameBuffers_modifyRef bm bid (· + 1)) calls.2 bm

theorem recordToken_layersKept (hrid : rid ∈ r.runningIds) {res : StepResult}
    (hout : r.recordToken backend rid tokenId = some (res, r')) : LayersKept r r' := by
  obtain ⟨request, -, -, ⟨-, heq⟩ | ⟨-, heq⟩⟩ := recordToken_cases hrid
  · rw [heq] at hout
    cases hout
    exact ⟨rfl, .refl _⟩
  · rw [heq] at hout
    obtain ⟨⟨cache', bm'⟩, hinsert, hpair⟩ := Option.map_eq_some_iff.1 hout
    cases hpair
    have hinserted := sameBuffers_insert hinsert
    refine ⟨rfl, hinserted.trans ?_⟩
    show SameBuffers bm' (if r.config.useKvCache then
      flushKvLayerBlocks rid r.kvLayerIds (bm'.flushRequest rid) else bm')
    split
    · exact (sameBuffers_flushRequest bm' rid).trans (sameBuffers_foldl
        (fun bm fi => sameBuffers_flushRequest bm (layerRid rid fi)) _ _)
    · exact .refl bm'

theorem Inv.processRequest_layersKept (h : r.Inv) (hwrites : backend.WritesKv)
    (hrid : req.requestId ∈ r.runningIds) {result : Except String (Option StepResult)}
    (hout : r.processRequest backend sampling req = some (result, r')) : LayersKept r r' := by
  cases processRequest_outcome hout with
  | skipped hempty => exact .refl r
  | failed hforward => exact forward_layersKept hwrites hforward
  | @unsampled allLogits r₁ _ hforward hsample =>
    have hsampled := sampleToken_layersKept backend sampling r₁ req allLogits
    rw [hsample] at hsampled
    exact (forward_layersKept hwrites hforward).trans hsampled
  | @sampled allLogits tokenId r₁ r₂ _ res hforward hsample hrecord =>
    have hsampled := sampleToken_layersKept backend sampling r₁ req allLogits
    rw [hsample] at hsampled
    have hids := (forwarded_sampled h hrid hforward hsample).runningIds_eq
    exact ((forward_layersKept hwrites hforward).trans hsampled).trans
      (recordToken_layersKept (hids ▸ hrid) hrecord)

theorem Inv.processBatch_layersKept {batch : List ScheduledRequest} (h : r.Inv)
    (hwrites : backend.WritesKv) (hrunning : ∀ sr ∈ batch, sr.requestId ∈ r.runningIds)
    (hnodup : (batch.map ScheduledRequest.requestId).Nodup)
    {result : Except String (List StepResult)}
    (hout : InferenceRunner.processBatch backend sampling batch r = some (result, r')) :
    LayersKept r r' :=
  h.processBatch_rule (I := fun m => LayersKept r m)
    (fun _ _ _ _ _ hm hrid hkept hreq =>
      hkept.trans (hm.processRequest_layersKept hwrites hrid hreq))
    hrunning hnodup (.refl r) hout

theorem Inv.called_layersKept {c : RunnerCall} (h : r.Inv) (hwrites : backend.WritesKv)
    (hcall : r.Called backend c r') : LayersKept r r' := by
  cases c with
  | add inputIds =>
    obtain rfl : _ = r' := Option.some.inj hcall
    by_cases hne : inputIds = []
    · subst hne
      exact .refl r
    · rw [h.addRequestTokens_eq hne rfl]
      exact ⟨rfl, .refl _⟩
  | step =>
    obtain ⟨⟨result, r''⟩, hstep, rfl⟩ := Option.map_eq_some_iff.1 hcall
    obtain ⟨hrunning, hnodup⟩ := h.scheduleStep_running
    exact h.scheduleStep_layersKept.trans
      (h.scheduleStep.1.processBatch_layersKept hwrites hrunning hnodup hstep)

variable {executor : ω} {config : RunnerConfig}

theorem layersKept_of_run {calls : List RunnerCall}
    (hnew : InferenceRunner.new heap backend executor config = .ok r₀)
    (hwrites : backend.WritesKv) (hrun : Run (Called backend) r₀ calls r) :
    r.Inv ∧ r.config = config ∧ LayersKept r₀ r := by
  refine hrun.invariant (I := fun m => m.Inv ∧ m.config = config ∧ LayersKept r₀ m)
    ⟨Inv.new hnew, (inv_of_run hnew .nil).2, .refl r₀⟩ fun m c m' hm hcall => ?_
  obtain ⟨hinv, hconfig⟩ := hm.1.called hcall
  exact ⟨hinv, hconfig.trans hm.2.1, hm.2.2.trans (hm.1.called_layersKept hwrites hcall)⟩

theorem new_layers (hnew : InferenceRunner.new heap backend executor config = .ok r₀)
    (hkv : config.useKvCache = true) (hheads : 0 < config.numKvHeads) (hdim : 0 < config.headDim) :
    r₀.kvLayerIds = layerIds true backend.kvFunctions ∧
      r₀.blockManager.Buffered (config.numKvHeads * config.headDim) := by
  unfold InferenceRunner.new at hnew
  split at hnew
  · cases hnew
  · simp only [hkv, hheads, hdim, decide_true, Bool.and_self, if_true] at hnew
    split at hnew
    · cases hnew
    · rename_i bm hpool
      cases hnew
      exact ⟨rfl, buffered_newWithCache hpool⟩

/-! ## The forward passes of a run -/

/-- The turn of `req` comes in a step of `r`, with its blocks, and starts from the pool `bm`. -/
def Forwards (backend : Backend ω) (sampling : SamplerConfig) (r : InferenceRunner heap ω)
    (req : ScheduledRequest) (bm : BlockManager) : Prop :=
  ∃ done rest results r₁, r.scheduleStep.1.requests = done ++ req :: rest ∧
    processBatch backend sampling done r.scheduleStep.2 = some (.ok results, r₁) ∧
    ensureKvLayerBlocks req.requestId (kvTargetTokens req) r₁.kvLayerIds r₁.blockManager =
      (.ok (), bm)

theorem Inv.scheduled_chunked (h : r.Inv) (hkv : r.config.useKvCache = true) :
    ∀ sr ∈ r.scheduleStep.1.requests, sr.Chunked := by
  obtain ⟨entries, -, -, -, hconfig⟩ := h.admitted_spec
  have hmode : r.admitted.1.config.useKvCache = true := by
    rw [hconfig, h.kv_eq]
    exact hkv
  rw [h.scheduleStep_eq]
  intro sr hsr
  obtain ⟨slot, hslot, hscheduled⟩ := mem_filterMap.1 hsr
  obtain ⟨_, _, turn, hturn, rfl⟩ := turned_of_mem_buildSlots _ _ _ _ slot hslot
  exact hturn.chunked hmode hscheduled

theorem Inv.forwards_spec {hiddenDim : Nat} (h : r.Inv) (hkv : r.config.useKvCache = true)
    (hbuffered : r.blockManager.Buffered hiddenDim) (hwrites : backend.WritesKv)
    {bm : BlockManager} (hforwards : r.Forwards backend sampling req bm) :
    req.Chunked ∧ (∃ held, bm.Exact held) ∧ bm.Buffered hiddenDim ∧
      ∀ fi ∈ r.kvLayerIds, Reaches bm (layerRid req.requestId fi) (kvTargetTokens req) := by
  obtain ⟨done, rest, results, r₁, hbatch, hdone, hgrown⟩ := hforwards
  obtain ⟨hinv, hsub, -⟩ := h.scheduleStep
  have hchunked := h.scheduled_chunked hkv
  rw [hbatch] at hsub hchunked
  have hreq : req ∈ done ++ req :: rest := mem_append_right _ mem_cons_self
  have hnodup := hsub.nodup hinv.runningIds_nodup
  -- the requests before `req` leave it running
  have hrunning : ∀ sr ∈ done, sr.requestId ∈ r.scheduleStep.2.runningIds := fun sr hsr =>
    hsub.subset (mem_map_of_mem (mem_append_left _ hsr))
  have hnodupDone : (done.map ScheduledRequest.requestId).Nodup := by
    rw [map_append] at hnodup
    exact (nodup_append.1 hnodup).1
  have hserved := hinv.processBatch hrunning hnodupDone hdone
  have hkept := h.scheduleStep_layersKept.trans
    (hinv.processBatch_layersKept hwrites hrunning hnodupDone hdone)
  have hreqRunning : req.requestId ∈ r₁.runningIds := by
    refine hserved.others _ (hsub.subset (mem_map_of_mem hreq)) fun hmem => ?_
    rw [map_append, map_cons] at hnodup
    exact (nodup_append.1 hnodup).2.2 _ hmem _ mem_cons_self rfl
  have hpool := hserved.inv.pool.ensureLayers hreqRunning (kvTargetTokens req)
  have hbuffers := ensureKvLayerBlocks_sameBuffers req.requestId (kvTargetTokens req)
    r₁.kvLayerIds r₁.blockManager
  rw [hgrown] at hpool hbuffers
  refine ⟨hchunked req hreq, ⟨_, hpool.exact⟩, (hkept.buffers.trans hbuffers).buffered hbuffered,
    fun fi hfi => ?_⟩
  rw [← hkept.layers_eq] at hfi
  exact ensureKvLayerBlocks_reaches (kvTargetTokens_pos (hchunked req hreq).pos) hgrown hfi

/-- Every write of an intercepted output finds a long enough layer table, and succeeds. -/
def WritesStored (cachePolicy : CachePolicy) (computeGraph : ComputeGraph)
    (numKvHeads headDim : Nat)
    (req : ScheduledRequest) (bm : BlockManager) : Prop :=
  ∀ bm₁, bm.KvWritten bm₁ → ∀ funcDef oi, Intercepted cachePolicy computeGraph funcDef oi →
    ∀ slab, slab = (findSlabForIntercept cachePolicy funcDef.index oi).map (·.toSlabSpec) →
    ∀ tensor, headDims slab tensor = some (numKvHeads, headDim) →
      RowPerPosition slab tensor req.positions.length (numKvHeads * headDim) →
    ∀ overrideIsKey w, kvWrite funcDef.index oi tensor req.requestId req.positions
        (req.inputIds.length = 1) (funcDef.outputs.map (·.toIOTensorDef)) slab overrideIsKey =
          some w →
      w.requestId = layerRid req.requestId funcDef.index ∧
      (∃ ids, bm₁.Covers w.requestId (w.startPos + req.positions.length) ids) ∧
      ∃ bm₂, bm₁.apply w = some (.ok (), bm₂)

/-- No write is dropped in any forward pass of any run in KV mode that finds its blocks. -/
theorem writesStored_of_run {executor : ω} {config : RunnerConfig} {calls : List RunnerCall}
    {cachePolicy : CachePolicy} {computeGraph : ComputeGraph}
    (hnew : InferenceRunner.new heap backend executor config = .ok r₀)
    (hkv : config.useKvCache = true) (hheads : 0 < config.numKvHeads) (hdim : 0 < config.headDim)
    (hfunctions : backend.kvFunctions = kvFunctions cachePolicy computeGraph)
    (hwrites : backend.WritesKv) (hrun : Run (Called backend) r₀ calls r) :
    (∀ funcDef oi, Intercepted cachePolicy computeGraph funcDef oi → funcDef.index ∈ r.kvLayerIds) ∧
    ∀ sampling req bm, r.Forwards backend sampling req bm →
      WritesStored cachePolicy computeGraph config.numKvHeads config.headDim req bm := by
  obtain ⟨hinv, hconfig, hkept⟩ := layersKept_of_run hnew hwrites hrun
  obtain ⟨hlayers, hbuffered⟩ := new_layers hnew hkv hheads hdim
  have hmem : ∀ funcDef oi, Intercepted cachePolicy computeGraph funcDef oi →
      funcDef.index ∈ r.kvLayerIds := by
    intro funcDef oi hintercepted
    rw [hkept.layers_eq, hlayers, hfunctions]
    exact mem_layerIds hintercepted.mem_kvFunctions
  refine ⟨hmem, fun sampling req bm hforwards => ?_⟩
  obtain ⟨hchunked, ⟨held, hexact⟩, hpool, hreaches⟩ := hinv.forwards_spec
    (by rw [hconfig]; exact hkv) (hkept.buffers.buffered hbuffered) hwrites hforwards
  intro bm₁ hwritten funcDef oi hintercepted slab hslab tensor hdims hrows overrideIsKey w hw
  obtain ⟨hledger, hbuffers⟩ := hwritten.spec
  obtain ⟨ids, hlookup, hcover⟩ := hreaches _ (hmem funcDef oi hintercepted)
  -- the call of the hook
  simp only [kvWrite, Option.bind_eq_bind, hdims, Option.bind_some] at hw
  obtain ⟨startPos, hstart, hw⟩ := Option.bind_eq_some_iff.1 hw
  obtain ⟨data, hdata, hw⟩ := Option.bind_eq_some_iff.1 hw
  cases hw
  have hreach := writeStart_le_target hchunked hstart
  have hlen := length_writeData hdims hrows hdata
  have hcovers : bm₁.Covers (layerRid req.requestId funcDef.index)
      (startPos + req.positions.length) ids := by
    refine ⟨by rw [hledger.blockTables_eq]; exact hlookup, ?_⟩
    rw [hledger.blockSize_eq]
    exact le_trans hreach hcover
  have hcached : ∀ bid ∈ ids, bm₁.CachedBlock (config.numKvHeads * config.headDim) bid :=
    fun bid hbid => hbuffers.buffered hpool bid
      ((hledger.exact hexact).mem_table_lt (BlockManager.table_eq hcovers.1 ▸ hbid))
  exact ⟨rfl, ⟨ids, hcovers⟩, writeKv_ok hcovers.1 hcached (Nat.mul_pos hheads hdim) hlen
    hcovers.2⟩

end InferenceRunner

/-! ## One prompt through a cached function -/

/-- The graph of one function with a K and a V output of one head of size one. -/
def kvGraph : ComputeGraph where
  functions := [
    { index := 0
      symbol := "main_0"
      numInputs := 0
      numOutputs := 2
      inputs := []
      outputs := [⟨⟨true⟩, 4, [1, 1, 0, 1], .f32⟩, ⟨⟨true⟩, 4, [1, 1, 0, 1], .f32⟩]
      consumedSubOutputFlags := [] }]
  globalInput := (0, 0)
  globalOutput := (0, 0)

/-- An executor that hands a K tensor of zeros to the hook and returns fixed logits. -/
def hookedBackend : Backend Unit where
  forwardWithKv _ _ positions bm rid :=
    let tensor : Tensor := ⟨[1, 1, positions.length, 1], replicate positions.length 0⟩
    match kvWrite 0 0 tensor rid positions (positions.length = 1) [⟨true⟩, ⟨true⟩] none true with
    | none => none
    | some w =>
      match h : bm.apply w with
      | none => none
      | some (_, bm') => some (.ok [0], ⟨bm', (BlockManager.writeKv_frame h).1⟩, ())
  forwardWithPositions _ _ _ := some (.ok [0], ())
  draw _ _ _ := (0, ())
  stopTokenIds := []
  decode _ := .ok ""
  decodeToken _ := ""
  vocabSize := 1
  kvFunctions := kvFunctions .none kvGraph

theorem hookedBackend_writesKv : hookedBackend.WritesKv := by
  intro e inputIds positions bm rid logits bm' e' h
  simp only [hookedBackend] at h
  split at h
  · cases h
  · rename_i w _
    split at h
    · cases h
    · rename_i result pool hwrite
      cases h
      exact .single ⟨_, _, _, _, _, _, hwrite⟩

theorem writesStored_of_run_witness :
    ∃ r₀ r : InferenceRunner listHeap Unit,
      InferenceRunner.new listHeap hookedBackend () (smallConfig true) = .ok r₀ ∧
      Run (InferenceRunner.Called hookedBackend) r₀ [.add [5, 6, 7] .default] r ∧
      (∀ funcDef oi, Intercepted .none kvGraph funcDef oi → funcDef.index ∈ r.kvLayerIds) ∧
      ∃ req bm, r.Forwards hookedBackend .default req bm ∧
        InferenceRunner.WritesStored .none kvGraph 1 1 req bm := by
  obtain ⟨r₀, hnew⟩ : ∃ r₀ : InferenceRunner listHeap Unit,
    InferenceRunner.new listHeap hookedBackend () (smallConfig true) = .ok r₀ := ⟨_, rfl⟩
  have hcalls : (([.add [5, 6, 7] .default] : List RunnerCall).foldlM
      (InferenceRunner.call hookedBackend) r₀).any (fun r =>
        r.scheduleStep.1.requests.head?.any fun req =>
          (ensureKvLayerBlocks req.requestId (kvTargetTokens req) r.scheduleStep.2.kvLayerIds
            r.scheduleStep.2.blockManager).1.toOption.isSome) = true := by
    cases hnew
    decide +kernel
  obtain ⟨r, hfold, hany⟩ := (Option.any_eq_true ..).1 hcalls
  obtain ⟨req, hhead, hgrown⟩ := (Option.any_eq_true ..).1 hany
  have hrun : Run (InferenceRunner.Called hookedBackend) r₀ _ r :=
    Run.of_foldlM (fun _ _ _ h => h) hfold
  have hfunctions : hookedBackend.kvFunctions = kvFunctions .none kvGraph := rfl
  obtain ⟨hmem, hstored⟩ := InferenceRunner.writesStored_of_run hnew rfl one_pos one_pos
    hfunctions hookedBackend_writesKv hrun
  have hforwards : ∃ bm, r.Forwards hookedBackend .default req bm := by
    obtain ⟨rest, hbatch⟩ : ∃ rest, r.scheduleStep.1.requests = req :: rest :=
      head?_eq_some_iff.1 hhead
    cases hout : ensureKvLayerBlocks req.requestId (kvTargetTokens req)
        r.scheduleStep.2.kvLayerIds r.scheduleStep.2.blockManager with
    | mk result bm =>
      rw [hout] at hgrown
      cases result with
      | error => cases hgrown
      | ok => exact ⟨bm, [], rest, [], _, hbatch, rfl, hout⟩
  obtain ⟨bm, hforwards⟩ := hforwards
  exact ⟨r₀, r, hnew, hrun, hmem, req, bm, hforwards, hstored .default req bm hforwards⟩

end CompileForge.Runtime
