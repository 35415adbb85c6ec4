/-
  What a finished request leaves in the pool.  In KV mode a step that reports a request as
  finished has flushed all its tables.  Otherwise nothing frees the main table: the request has
  left `running`, where `schedule` looks for tables to free.
-/

import CompileForge.Runtime.Engine.RunnerStep

namespace CompileForge.Runtime

open Lib List

variable {heap : MaxHeap QueueEntry QueueEntry.rank} {ω : Type}

/-! ## Runs of a runner -/

/-- A call of the runner's users. -/
inductive RunnerCall where
  | add (inputIds : List UInt32) (sampling : SamplerConfig)
  | step (sampling : SamplerConfig)
deriving DecidableEq, Repr

namespace InferenceRunner

variable {r r' r₀ : InferenceRunner heap ω} {backend : Backend ω} {config : RunnerConfig}
  {sampling : SamplerConfig} {rid : String}

def call (backend : Backend ω) (r : InferenceRunner heap ω) :
    RunnerCall → Option (InferenceRunner heap ω)
  | .add inputIds sampling => some (r.addRequestTokens backend inputIds sampling).2
  | .step sampling => (r.step backend sampling).map Prod.snd

/-- The call returns, with or without an error. -/
def Called (backend : Backend ω) (r : InferenceRunner heap ω) (c : RunnerCall)
    (r' : InferenceRunner heap ω) : Prop := r.call backend c = some r'

theorem Inv.addRequestTokens (h : r.Inv) (inputIds : List UInt32) (sampling : SamplerConfig) :
    (r.addRequestTokens backend inputIds sampling).2.Inv ∧
      (r.addRequestTokens backend inputIds sampling).2.config = r.config := by
  by_cases hne : inputIds = []
  · subst hne
    exact ⟨h, rfl⟩
  · rw [h.addRequestTokens_eq hne rfl]
    exact ⟨h.addRequest hne _ _, rfl⟩

theorem fresh_name_ne {k n : Nat} (hk : k ≤ n) : s!"req_{k}" ≠ s!"req_{n + 1}" := by
  intro heq
  have := request_name_inj heq
  omega

/-- An addition queues one request, under the next number. -/
theorem Inv.added_spec (h : r.Inv) (backend : Backend ω) {inputIds : List UInt32}
    (hne : inputIds ≠ []) (hadd : (r.addRequestTokens backend inputIds sampling).2 = r') :
    r'.scheduler.running = r.scheduler.running ∧
      r'.scheduler.requestCounter = r.scheduler.requestCounter + 1 ∧
      ∀ req ∈ r'.waitingRequests, req ∈ r.waitingRequests ∨
        (req.requestId = s!"req_{r.scheduler.requestCounter + 1}" ∧
          req.promptTokens = inputIds ∧ req.prefillPos = 0 ∧ req.outputTokens = []) := by
  rw [h.addRequestTokens_eq hne rfl] at hadd
  subst hadd
  refine ⟨rfl, rfl, fun req hreq => ?_⟩
  obtain ⟨q, hq, rfl⟩ := mem_map.1 hreq
  rcases heap.mem_push.1 hq with rfl | hold
  · exact .inr ⟨rfl, rfl, rfl, rfl⟩
  · exact .inl (mem_map_of_mem hold)

theorem Inv.scheduleStep_config (h : r.Inv) : r.scheduleStep.2.config = r.config := by
  rw [h.scheduleStep_eq]

theorem Inv.called {c : RunnerCall} (h : r.Inv) (hcall : r.Called backend c r') :
    r'.Inv ∧ r'.config = r.config := by
  cases c with
  | add inputIds sampling =>
    obtain rfl : _ = r' := Option.some.inj hcall
    exact h.addRequestTokens inputIds sampling
  | step =>
    obtain ⟨⟨result, r''⟩, hstep, rfl⟩ := Option.map_eq_some_iff.1 hcall
    have hserved := h.step hstep
    exact ⟨hserved.inv, hserved.config_eq.trans h.scheduleStep_config⟩

theorem inv_of_run {executor : ω} {calls : List RunnerCall}
    (hnew : InferenceRunner.new heap backend executor config = .ok r₀)
    (hrun : Run (Called backend) r₀ calls r) : r.Inv ∧ r.config = config := by
  have hconfig : r₀.config = config := by
    unfold InferenceRunner.new at hnew
    split at hnew
    · cases hnew
    · dsimp only at hnew
      split at hnew
      · cases hnew
      · cases hnew
        rfl
  refine hrun.invariant (I := fun r => r.Inv ∧ r.config = config) ⟨Inv.new hnew, hconfig⟩
    fun m c m' hm hcall => ?_
  obtain ⟨hinv, hsame⟩ := hm.1.called hcall
  exact ⟨hinv, hsame.trans hm.2⟩

/-! ## Release -/

/-- Nothing of the request is left in the pool, and running requests and cache have the rest. -/
structure Released (r : InferenceRunner heap ω) (rid : String) : Prop where
  noTable : rid ∉ r.blockManager.blockTables
  noLayerTable : ∀ fi, layerRid rid fi ∉ r.blockManager.blockTables
  live : ∀ key ∈ r.blockManager.blockTables, ∃ other ∈ r.runningIds, other ≠ rid ∧
    Owns r.kvLayerIds other key
  counts : ∀ b < r.blockManager.numBlocks,
    r.blockManager.refCount b = r.blockManager.tableRefs b + r.held b
  drained : r.hasWork = false →
    r.blockManager.numFreeBlocks + r.radixCache.root.heldBlocks.dedup.length =
      r.blockManager.numBlocks

theorem Inv.name_of_running (h : r.Inv) (hrid : rid ∈ r.runningIds) :
    ∃ k : Nat, rid = s!"req_{k}" := by
  obtain ⟨req, hreq, rfl⟩ := mem_map.1 hrid
  obtain ⟨k, -, hname⟩ := h.named req (mem_append_left _ hreq)
  exact ⟨k, hname⟩

theorem runningIds_of_noWork (h : r.hasWork = false) : r.runningIds = [] := by
  have hempty : r.scheduler.running = [] := by
    unfold hasWork Scheduler.hasWork at h
    simp only [Bool.or_eq_false_iff, Bool.not_eq_false'] at h
    exact List.isEmpty_iff.1 h.2
  rw [runningIds, hempty, map_nil]

theorem Inv.noTables (h : r.Inv) (hkv : r.config.useKvCache = true) (hwork : r.hasWork = false) :
    r.blockManager.blockTables = ∅ := by
  refine AList.ext (eq_nil_iff_forall_not_mem.2 fun entry hentry => ?_)
  have hkey : entry.1 ∈ r.blockManager.blockTables :=
    AList.mem_keys.2 (mem_map_of_mem hentry)
  obtain ⟨rid, hrid, -⟩ := h.pool.owned hkv entry.1 hkey
  rw [runningIds_of_noWork hwork] at hrid
  exact not_mem_nil hrid

theorem Inv.drained (h : r.Inv) (hkv : r.config.useKvCache = true) (hwork : r.hasWork = false) :
    r.blockManager.numFreeBlocks + r.radixCache.root.heldBlocks.dedup.length =
      r.blockManager.numBlocks := by
  refine Balanced.length_free_add h.pool.exact (nodup_dedup _) fun b => ?_
  rw [mem_dedup, BlockManager.tableRefs, h.noTables hkv hwork, tableSum_empty, Nat.zero_add]
  exact (count_pos_iff.symm.trans Nat.pos_iff_ne_zero)

/-- In KV mode a request that is gone has no table. -/
theorem Inv.released (h : r.Inv) (hkv : r.config.useKvCache = true) {k : Nat}
    (hname : rid = s!"req_{k}") (hgone : rid ∉ r.runningIds) : r.Released rid := by
  have hother : ∀ key ∈ r.blockManager.blockTables, ∃ other ∈ r.runningIds, other ≠ rid ∧
      Owns r.kvLayerIds other key := by
    intro key hkey
    obtain ⟨other, hmem, howns⟩ := h.pool.owned hkv key hkey
    exact ⟨other, hmem, fun heq => hgone (heq ▸ hmem), howns⟩
  refine ⟨fun hkey => ?_, fun fi hkey => ?_, hother, Balanced.toCounted h.pool.exact |>.counts,
    h.drained hkv⟩
  · obtain ⟨other, -, hne, rfl | ⟨fi, -, heq⟩⟩ := hother rid hkey
    · exact hne rfl
    · -- a layer table is not named like a request
      exact layerRid_ne_request other fi k (heq.symm.trans hname)
  · obtain ⟨other, hmem, hne, heq | ⟨fj, -, heq⟩⟩ := hother _ hkey
    · obtain ⟨j, hj⟩ := h.name_of_running hmem
      exact layerRid_ne_request rid fi j (heq.trans hj)
    · exact hne (layerRid_inj heq).symm

/-- A step that finishes a request has released it in KV mode, and only there. -/
theorem released_iff {executor : ω} {calls : List RunnerCall} {results : List StepResult}
    {res : StepResult} (hnew : InferenceRunner.new heap backend executor config = .ok r₀)
    (hrun : Run (Called backend) r₀ calls r)
    (hstep : r.step backend sampling = some (.ok results, r')) (hres : res ∈ results)
    (hfinished : res.finished = true) :
    r'.Released res.requestId ↔ config.useKvCache = true := by
  obtain ⟨hinv, hconfig⟩ := inv_of_run hnew hrun
  obtain ⟨hscheduled, hsub, htables⟩ := hinv.scheduleStep
  have hserved := hinv.step hstep
  obtain ⟨hid, hgone⟩ := hserved.result_eq results rfl res hres
  have hsame : r'.config = config :=
    hserved.config_eq.trans (hinv.scheduleStep_config.trans hconfig)
  constructor
  · intro hreleased
    by_contra hkv
    -- the table that was scheduled is still there
    obtain ⟨sr, hsr, hname⟩ := mem_map.1 hid
    have hmode : r.scheduleStep.2.config.useKvCache = false := by
      rw [hinv.scheduleStep_config, hconfig]
      exact Bool.eq_false_iff.2 hkv
    have htable := hserved.tables hmode _ (htables sr hsr).1
    rw [hname] at htable
    exact hreleased.noTable htable
  · intro hkv
    obtain ⟨k, hname⟩ := hscheduled.name_of_running (hsub.subset hid)
    exact hserved.inv.released (hsame ▸ hkv) hname (hgone hfinished)

end InferenceRunner

/-! ## One request in KV mode, two without -/

/-- An executor of one token: every forward pass returns the same logits. -/
def constantBackend : Backend Unit where
  forwardWithKv _ _ _ bm _ := some (.ok [0], ⟨bm, .refl bm⟩, ())
  forwardWithPositions _ _ _ := some (.ok [0], ())
  draw _ _ _ := (0, ())
  stopTokenIds := []
  decode _ := .ok ""
  decodeToken _ := ""
  vocabSize := 1
  kvFunctions := [0]

/-- One output token per request, in a pool of two blocks. -/
def smallConfig (useKvCache : Bool) : RunnerConfig where
  maxBatchSize := 1
  maxTokensPerStep := 4
  chunkSize := 4
  numBlocks := 2
  blockSize := 4
  maxTokensPerRequest := 1
  useKvCache := useKvCache
  numKvHeads := 1
  headDim := 1

/-- Two requests at a time, in a pool of four blocks. -/
def pairConfig (chunkSize maxTokensPerRequest : Nat) : RunnerConfig :=
  { smallConfig true with maxBatchSize := 2, numBlocks := 4, chunkSize, maxTokensPerRequest }

theorem smallConfig_new (useKvCache : Bool) : ∃ r₀ : InferenceRunner listHeap Unit,
    InferenceRunner.new listHeap constantBackend () (smallConfig useKvCache) = .ok r₀ := by
  cases useKvCache <;> exact ⟨_, rfl⟩

theorem released_iff_witness :
    ∃ r₀ r r' : InferenceRunner listHeap Unit,
      InferenceRunner.new listHeap constantBackend () (smallConfig true) = .ok r₀ ∧
      Run (InferenceRunner.Called constantBackend) r₀ [.add [5] .default] r ∧
      r.step constantBackend .default = some (.ok [⟨"req_1", 0, "", true⟩], r') ∧
      (r'.Released "req_1" ↔ (smallConfig true).useKvCache = true) := by
  obtain ⟨r₀, hnew⟩ := smallConfig_new true
  have hcalls : (([.add [5] .default] : List RunnerCall).foldlM
      (InferenceRunner.call constantBackend) r₀).any (fun r =>
        (r.step constantBackend .default).any fun out =>
          out.1.toOption = some [⟨"req_1", 0, "", true⟩]) = true := by
    cases hnew
    decide +kernel
  obtain ⟨r, hfold, hany⟩ := (Option.any_eq_true ..).1 hcalls
  obtain ⟨⟨result, r'⟩, hstep, hresult⟩ := (Option.any_eq_true ..).1 hany
  cases result with
  | error => exact absurd (of_decide_eq_true hresult) (by simp [Except.toOption])
  | ok results =>
    obtain rfl : results = _ := Option.some.inj (of_decide_eq_true hresult)
    have hrun : Run (InferenceRunner.Called constantBackend) r₀ _ r :=
      Run.of_foldlM (fun _ _ _ h => h) hfold
    exact ⟨r₀, r, r', hnew, hrun, hstep, InferenceRunner.released_iff hnew hrun hstep
      (mem_singleton.2 rfl) rfl⟩

/-- Without KV mode both finished requests keep their table. -/
theorem released_fails :
    ∃ r₀ r r' : InferenceRunner listHeap Unit,
      InferenceRunner.new listHeap constantBackend () (smallConfig false) = .ok r₀ ∧
      Run (InferenceRunner.Called constantBackend) r₀
        [.add [5] .default, .step .default, .add [5] .default] r ∧
      r.step constantBackend .default = some (.ok [⟨"req_2", 0, "", true⟩], r') ∧
      ("req_1" ∈ r'.blockManager.blockTables ∧ "req_2" ∈ r'.blockManager.blockTables ∧
        r'.hasWork = false ∧
        r'.blockManager.numFreeBlocks + r'.radixCache.root.heldBlocks.dedup.length ≠
          r'.blockManager.numBlocks) ∧
      ¬ r'.Released "req_2" := by
  obtain ⟨r₀, hnew⟩ := smallConfig_new false
  have hcalls : (([.add [5] .default, .step .default, .add [5] .default] :
      List RunnerCall).foldlM (InferenceRunner.call constantBackend) r₀).any (fun r =>
        (r.step constantBackend .default).any fun out =>
          decide (out.1.toOption = some [⟨"req_2", 0, "", true⟩]) &&
          decide ("req_1" ∈ out.2.blockManager.blockTables ∧
            "req_2" ∈ out.2.blockManager.blockTables ∧ out.2.hasWork = false ∧
            out.2.blockManager.numFreeBlocks + out.2.radixCache.root.heldBlocks.dedup.length ≠
              out.2.blockManager.numBlocks)) = true := by
    cases hnew
    decide +kernel
  obtain ⟨r, hfold, hany⟩ := (Option.any_eq_true ..).1 hcalls
  obtain ⟨⟨result, r'⟩, hstep, hresult⟩ := (Option.any_eq_true ..).1 hany
  obtain ⟨hresult, hleft⟩ := Bool.and_eq_true_iff.1 hresult
  cases result with
  | error => exact absurd (of_decide_eq_true hresult) (by simp [Except.toOption])
  | ok results =>
    obtain rfl : results = _ := Option.some.inj (of_decide_eq_true hresult)
    have hleft := of_decide_eq_true hleft
    exact ⟨r₀, r, r', hnew, Run.of_foldlM (fun _ _ _ h => h) hfold, hstep, hleft,
      fun hreleased => hreleased.noTable hleft.2.1⟩

end CompileForge.Runtime
