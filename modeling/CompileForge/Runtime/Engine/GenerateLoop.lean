/-
  When `generate_request` returns.  A starved runner stays starved, so its loop turns for ever.
  Where no state of the loop is starved and every step fits the prefix cache the work decreases
  with each turn, so the loop ends with a result or an error.
-/

import CompileForge.Runtime.Engine.StepProgress

namespace CompileForge.Runtime

open Lib

variable {heap : MaxHeap QueueEntry QueueEntry.rank} {ω : Type}

namespace InferenceRunner

variable {r r' s r₀ : InferenceRunner heap ω} {backend : Backend ω} {sampling : SamplerConfig}
  {rid : String}

theorem Starved.step (hstarved : r.Starved) (h : r.Inv) :
    ∃ r', r.step backend sampling = some (.ok [], r') ∧ r'.Starved ∧ r'.Inv := by
  obtain ⟨entries, -, -, hpool, hconfig⟩ := h.admitted_spec
  obtain ⟨hsame, hwaiting⟩ := h.admitted_closed hstarved.closed
  obtain ⟨hbm, hafter, hnone⟩ : (buildSlots r.admitted.1.config ⟨0, 0⟩ r.scheduler.running
        r.blockManager).2 = r.blockManager ∧
      (buildSlots r.admitted.1.config ⟨0, 0⟩ r.scheduler.running r.blockManager).1.map
        Slot.after = r.scheduler.running ∧
      (buildSlots r.admitted.1.config ⟨0, 0⟩ r.scheduler.running
        r.blockManager).1.filterMap Slot.scheduled? = [] := by
    rw [hconfig]
    exact buildSlots_blocked ⟨0, 0⟩ hstarved.decode hstarved.blocked
  have hbuilt : r.built = ((buildSlots r.admitted.1.config ⟨0, 0⟩ r.scheduler.running
      r.blockManager).1, { r.admitted.1 with running := r.scheduler.running }, r.blockManager) := by
    simp only [built, Scheduler.buildBatch, hsame, hpool, hafter, hbm]
  have hstep : r.scheduleStep = (⟨[], 0⟩, { r with
        scheduler := { r.admitted.1 with running := r.scheduler.running }
        cacheHits := [] }) := by
    rw [h.scheduleStep_eq, hbuilt]
    simp only [batchOf, hnone, List.map_nil, List.sum_nil]
  refine ⟨r.scheduleStep.2, ?_, ?_, h.scheduleStep.1⟩
  · unfold InferenceRunner.step
    rw [hstep]
    rfl
  rw [hstep]
  refine ⟨hstarved.busy, hstarved.decode, ?_, ?_⟩
  · show (heap.items r.admitted.1.waiting).map QueueEntry.request = [] ∨
      r.admitted.1.config.maxBatchSize ≤ r.scheduler.running.length
    rw [hconfig]
    exact hstarved.closed.imp_left fun hempty => (hempty ▸ hwaiting).eq_nil
  · show ∀ req ∈ r.scheduler.running.take r.admitted.1.config.maxTokensPerStep,
      Blocked r.admitted.1.config r.blockManager req
    rw [hconfig]
    exact hstarved.blocked

theorem Starved.hasWork (h : r.Starved) : r.hasWork = true := by
  have hbusy : r.scheduler.running.isEmpty = false := List.isEmpty_eq_false_iff.2 h.busy
  unfold InferenceRunner.hasWork Scheduler.hasWork
  rw [hbusy]
  exact Bool.or_true _

theorem Starved.looping (hstarved : r.Starved) (h : r.Inv) (turns : Nat)
    (outputTokens : List UInt32) :
    generateLoop backend sampling rid turns outputTokens r = .looping := by
  induction turns generalizing r outputTokens with
  | zero =>
    rw [generateLoop, hstarved.hasWork]
    rfl
  | succ turns ih =>
    obtain ⟨r', hstep, hstarved', hinv⟩ := @Starved.step _ _ r backend sampling hstarved h
    rw [generateLoop, hstarved.hasWork, if_pos rfl]
    simp only [hstep]
    exact ih hstarved' hinv _

/-! ## The loop -/

section Turns

variable (backend : Backend ω) (sampling : SamplerConfig)

/-- A turn of the loop of `generate_request` after which it goes on. -/
def LoopTurn (r s : InferenceRunner heap ω) : Prop :=
  r.hasWork = true ∧ ∃ results, r.step backend sampling = some (.ok results, s)

/-- The loop returns a result or an error after some number of turns. -/
def Ends (rid : String) (outputTokens : List UInt32) (r : InferenceRunner heap ω) : Prop :=
  ∃ turns result r', generateLoop backend sampling rid turns outputTokens r = .returned result r'

/-- Something to do, and room in the prefix cache for what the turn finishes. -/
def Proceeds (r : InferenceRunner heap ω) :
    Prop := ¬ r.Starved ∧ r.StepFits backend sampling

end Turns

theorem LoopTurn.inv (hturn : LoopTurn backend sampling r s) (h : r.Inv) :
    s.Inv ∧ s.config = r.config := by
  obtain ⟨-, results, hstep⟩ := hturn
  have hserved := h.step hstep
  exact ⟨hserved.inv, hserved.config_eq.trans h.scheduleStep_config⟩

theorem LoopTurn.of_step {result : Except String (List StepResult)} (hwork : r.hasWork = true)
    (hstep : r.step backend sampling = some (result, s)) (hok : result.toOption.isSome = true) :
    LoopTurn backend sampling r s := by
  cases result with
  | error => cases hok
  | ok results => exact ⟨hwork, results, hstep⟩

variable {outputTokens promptIds : List UInt32} {temperature topP : F32} {topK turns : Nat}
  {result : Except String GenerationResult}

theorem Ends.turn (hends : Ends backend sampling rid outputTokens r)
    (hturn : LoopTurn backend sampling r s) : ∃ tokens, Ends backend sampling rid tokens s := by
  obtain ⟨turns, result, r', hout⟩ := hends
  obtain ⟨hwork, results, hstep⟩ := hturn
  cases turns with
  | zero =>
    rw [generateLoop, hwork] at hout
    cases hout
  | succ turns =>
    rw [generateLoop, hwork, if_pos rfl] at hout
    simp only [hstep] at hout
    exact ⟨_, turns, result, r', hout⟩

theorem Starved.looping_of_path (hstarved : s.Starved) (hs : s.Inv)
    (hpath : Relation.ReflTransGen (LoopTurn backend sampling) r s) :
    ∀ turns outputTokens, generateLoop backend sampling rid turns outputTokens r = .looping := by
  induction hpath using Relation.ReflTransGen.head_induction_on with
  | refl => exact hstarved.looping hs
  | head hturn _ ih =>
    intro turns outputTokens
    obtain ⟨hwork, results, hstep⟩ := hturn
    cases turns with
    | zero =>
      rw [generateLoop, hwork]
      rfl
    | succ turns =>
      rw [generateLoop, hwork, if_pos rfl]
      simp only [hstep]
      exact ih turns _

theorem Ends.along (hends : Ends backend sampling rid outputTokens r)
    (h : r.Inv) (hpath : Relation.ReflTransGen (LoopTurn backend sampling) r s) :
    s.Inv ∧ ∃ tokens, Ends backend sampling rid tokens s := by
  induction hpath with
  | refl => exact ⟨h, outputTokens, hends⟩
  | tail _ hturn ih =>
    obtain ⟨hm, tokens, hends'⟩ := ih
    exact ⟨(hturn.inv hm).1, hends'.turn hturn⟩

theorem Ends.proceeds
    (hends : Ends backend sampling rid outputTokens r) (h : r.Inv) (htotal : backend.Total)
    (hwork : r.hasWork = true) : Proceeds backend sampling r := by
  obtain ⟨turns, result, r', hout⟩ := hends
  refine ⟨fun hstarved => ?_, ?_⟩
  · rw [hstarved.looping h] at hout
    cases hout
  · by_contra hfits
    rw [← h.step_isSome htotal, Bool.not_eq_true, Option.isSome_eq_false_iff,
      Option.isNone_iff_eq_none] at hfits
    cases turns with
    | zero =>
      rw [generateLoop, hwork] at hout
      cases hout
    | succ =>
      rw [generateLoop, hwork, if_pos rfl] at hout
      simp only [hfits] at hout
      cases hout

/-- A loop all of whose states proceed ends. -/
theorem Inv.ends (h : r.Inv) (htotal : backend.Total) (hperStep : 0 < r.config.maxTokensPerStep)
    (hall : ∀ s, Relation.ReflTransGen (LoopTurn backend sampling) r s → s.hasWork = true →
      Proceeds backend sampling s) (outputTokens : List UInt32) :
    Ends backend sampling rid outputTokens r := by
  -- by induction on the work left
  induction hn : r.work using Nat.strongRecOn generalizing r outputTokens with
  | ind n ih =>
    cases hwork : r.hasWork with
    | false =>
      refine ⟨0, ?_⟩
      rw [generateLoop, hwork]
      rw [if_neg (by decide)]
      cases backend.decode outputTokens with
      | error => exact ⟨_, r, rfl⟩
      | ok => exact ⟨_, r, rfl⟩
    | true =>
      obtain ⟨hfed, hfits⟩ := hall r .refl hwork
      obtain ⟨⟨result, s⟩, hstep⟩ :=
        Option.isSome_iff_exists.1 ((h.step_isSome htotal).2 hfits)
      cases result with
      | error e =>
        refine ⟨1, .error e, s, ?_⟩
        rw [generateLoop, hwork, if_pos rfl]
        simp only [hstep]
      | ok results =>
        have hturn : LoopTurn backend sampling r s := ⟨hwork, results, hstep⟩
        obtain ⟨hinv, hconfig⟩ := hturn.inv h
        have hlt := h.step_work htotal hwork (h.perStep_eq ▸ hperStep) hfed hstep
        obtain ⟨turns, result, r', hout⟩ := ih s.work (hn ▸ hlt) hinv (hconfig ▸ hperStep)
          (fun t ht => hall t (.head hturn ht)) (outputTokens ++ collectTokens rid results) rfl
        refine ⟨turns + 1, result, r', ?_⟩
        rw [generateLoop, hwork, if_pos rfl]
        simp only [hstep]
        exact hout

/-! ## Generating -/

/-- A state the loop of a call of `generate_from_tokens` passes. -/
def LoopState (backend : Backend ω) (r : InferenceRunner heap ω) (promptIds : List UInt32)
    (sampling : SamplerConfig) (s : InferenceRunner heap ω) : Prop :=
  sampling.validate = .ok () ∧ Relation.ReflTransGen (LoopTurn backend sampling)
      (r.addRequestTokens backend promptIds sampling).2 s

theorem Inv.generateFromTokens_eq (h : r.Inv) (hne : promptIds ≠ [])
    (hsampling : { SamplerConfig.default with temperature, topP, topK } = sampling)
    (hvalid : sampling.validate = .ok ()) :
    ∃ rid, ∀ turns, r.generateFromTokens backend promptIds temperature topP topK turns =
      generateLoop backend sampling rid turns []
        (r.addRequestTokens backend promptIds sampling).2 := by
  refine ⟨s!"req_{r.scheduler.requestCounter + 1}", fun turns => ?_⟩
  unfold generateFromTokens
  simp only [hsampling, hvalid, h.addRequestTokens_eq hne rfl]
  rfl

/-- A call returns a result or an error exactly when each state of its loop proceeds. -/
theorem generate_returns_iff {executor : ω} {config : RunnerConfig} {calls : List RunnerCall}
    (hnew : InferenceRunner.new heap backend executor config = .ok r₀)
    (hrun : Run (Called backend) r₀ calls r) (hperStep : 0 < config.maxTokensPerStep)
    (htotal : backend.Total) {promptIds : List UInt32} (hne : promptIds ≠ [])
    (temperature topP : F32) (topK : Nat) :
    (∃ turns result r',
      r.generateFromTokens backend promptIds temperature topP topK turns = .returned result r') ↔
    ∀ s, LoopState backend r promptIds { SamplerConfig.default with temperature, topP, topK } s →
      s.hasWork = true →
        Proceeds backend { SamplerConfig.default with temperature, topP, topK } s := by
  obtain ⟨hinv, hconfig⟩ := inv_of_run hnew hrun
  generalize hsampling : ({ SamplerConfig.default with temperature, topP, topK } :
    SamplerConfig) = sampling
  cases hvalid : sampling.validate with
  | error e =>
    -- refused before the loop
    refine ⟨fun _ s hs => ?_, fun _ => ⟨0, .error s!"invalid sampling config: {e}", r, ?_⟩⟩
    · have hok := hs.1
      rw [hvalid] at hok
      cases hok
    · unfold generateFromTokens
      simp only [hsampling, hvalid]
  | ok =>
    obtain ⟨hadded, hsame⟩ : (r.addRequestTokens backend promptIds sampling).2.Inv ∧ _ :=
      hinv.addRequestTokens promptIds sampling
    obtain ⟨rid, heq⟩ : ∃ rid, ∀ turns, r.generateFromTokens backend promptIds temperature topP
        topK turns = _ := hinv.generateFromTokens_eq hne hsampling hvalid
    simp only [heq]
    constructor
    · intro hreturns s hs hwork
      have hstart : Ends backend sampling rid [] _ := hreturns
      obtain ⟨hs', tokens, hends⟩ := hstart.along hadded hs.2
      exact hends.proceeds hs' htotal hwork
    · intro hall
      refine hadded.ends htotal ?_ (fun s hs => hall s ⟨hvalid, hs⟩) []
      rw [hsame, hconfig]
      exact hperStep

/-! ## What a call leaves -/

theorem run_of_generateLoop
    (hout : generateLoop backend sampling rid turns outputTokens r = .returned result r') :
    (∃ calls, Run (Called backend) r calls r') ∧
      ∀ res, result = .ok res → r'.hasWork = false := by
  fun_induction generateLoop backend sampling rid turns outputTokens r with
  | case1 => cases hout
  | case2 => cases hout
  | case3 outputTokens r hwork turns e s hstep =>
    have hcall : Called backend r (.step sampling) s := congrArg (Option.map Prod.snd) hstep
    cases hout
    exact ⟨⟨_, Run.cons hcall .nil⟩, fun _ hok => by cases hok⟩
  | case4 outputTokens r hwork turns results s hstep ih =>
    have hcall : Called backend r (.step sampling) s := congrArg (Option.map Prod.snd) hstep
    obtain ⟨⟨calls, hrun⟩, hidle⟩ := ih hout
    exact ⟨⟨_, Run.cons hcall hrun⟩, hidle⟩
  | case5 turns outputTokens r hidle e hdecode =>
    cases hout
    exact ⟨⟨[], .nil⟩, fun _ _ => Bool.eq_false_iff.2 hidle⟩
  | case6 turns outputTokens r hidle text hdecode =>
    cases hout
    exact ⟨⟨[], .nil⟩, fun _ _ => Bool.eq_false_iff.2 hidle⟩

theorem run_of_generate
    (hout : r.generateFromTokens backend promptIds temperature topP topK turns =
      .returned result r') :
    (∃ calls, Run (Called backend) r calls r') ∧
      ∀ res, result = .ok res → r'.hasWork = false := by
  unfold generateFromTokens at hout
  dsimp only at hout
  split at hout
  · cases hout
    exact ⟨⟨[], .nil⟩, fun _ hok => by cases hok⟩
  · generalize hadd : r.addRequestTokens backend promptIds
      { SamplerConfig.default with temperature, topP, topK } = added at hout
    have hcall : Called backend r (.add promptIds
        { SamplerConfig.default with temperature, topP, topK }) added.2 := by
      rw [Called, call, hadd]
    obtain ⟨rid, s⟩ := added
    cases rid with
    | error =>
      cases hout
      exact ⟨⟨_, Run.cons hcall .nil⟩, fun _ hok => by cases hok⟩
    | ok =>
      obtain ⟨⟨calls, hrun⟩, hidle⟩ := run_of_generateLoop hout
      exact ⟨⟨_, Run.cons hcall hrun⟩, hidle⟩

/-- A call that returns a result has finished all requests there were: what is not free is held by
    the prefix cache. -/
theorem generate_drains {executor : ω} {config : RunnerConfig} {calls : List RunnerCall}
    (hnew : InferenceRunner.new heap backend executor config = .ok r₀)
    (hkv : config.useKvCache = true) (hrun : Run (Called backend) r₀ calls r)
    {res : GenerationResult}
    (hout : r.generateFromTokens backend promptIds temperature topP topK turns =
      .returned (.ok res) r') :
    (∃ calls', Run (Called backend) r₀ calls' r') ∧ r'.hasWork = false ∧
      r'.blockManager.blockTables = ∅ ∧
      r'.blockManager.numFreeBlocks + r'.radixCache.root.heldBlocks.dedup.length =
        r'.blockManager.numBlocks := by
  obtain ⟨⟨turnCalls, hturns⟩, hidle⟩ := run_of_generate hout
  have hall := hrun.trans hturns
  obtain ⟨hinv, hconfig⟩ := inv_of_run hnew hall
  have hmode : r'.config.useKvCache = true := hconfig ▸ hkv
  have hwork := hidle res rfl
  exact ⟨⟨_, hall⟩, hwork, hinv.noTables hmode hwork, hinv.drained hmode hwork⟩

end InferenceRunner

/-! ## A call that returns, one that does not and one that panics -/

theorem constantBackend_total : constantBackend.Total where
  kv _ _ _ bm _ := ⟨.ok [0], ⟨bm, .refl bm⟩, (), rfl, fun logits h => by cases h; decide⟩
  positions _ _ _ := ⟨.ok [0], (), rfl, fun logits h => by cases h; decide⟩

theorem generate_returns_iff_witness :
    ∃ r₀ : InferenceRunner listHeap Unit,
      InferenceRunner.new listHeap constantBackend () (smallConfig true) = .ok r₀ ∧
      ((∃ turns result r', r₀.generateFromTokens constantBackend [5] .one .one 0 turns =
          .returned result r') ↔
        ∀ s, InferenceRunner.LoopState constantBackend r₀ [5] .default s → s.hasWork = true →
          InferenceRunner.Proceeds constantBackend .default s) := by
  obtain ⟨r₀, hnew⟩ := smallConfig_new true
  exact ⟨r₀, hnew, InferenceRunner.generate_returns_iff hnew .nil (by decide)
    constantBackend_total (by decide) .one .one 0⟩

def drainConfig : RunnerConfig := { smallConfig true with numBlocks := 4 }

/-- The call also serves the request that was waiting. -/
theorem generate_drains_witness :
    ∃ r₀ r r' : InferenceRunner listHeap Unit, ∃ res,
      InferenceRunner.new listHeap constantBackend () drainConfig = .ok r₀ ∧
      Run (InferenceRunner.Called constantBackend) r₀ [.add [5] .default] r ∧
      r.generateFromTokens constantBackend [6] .one .one 0 4 = .returned (.ok res) r' ∧
      r'.hasWork = false ∧ r'.blockManager.blockTables = ∅ ∧
      r'.blockManager.numFreeBlocks + r'.radixCache.root.heldBlocks.dedup.length =
        r'.blockManager.numBlocks := by
  obtain ⟨r₀, hnew⟩ : ∃ r₀ : InferenceRunner listHeap Unit,
    InferenceRunner.new listHeap constantBackend () drainConfig = .ok r₀ := ⟨_, rfl⟩
  have hserved : (([.add [5] .default] : List RunnerCall).foldlM
      (InferenceRunner.call constantBackend) r₀).any (fun r =>
        (r.generateFromTokens constantBackend [6] .one .one 0 4).casesOn false false
          fun result _ => result.isOk) = true := by
    cases hnew
    decide +kernel
  obtain ⟨r, hfold, hout⟩ := (Option.any_eq_true ..).1 hserved
  rcases hcall : r.generateFromTokens constantBackend [6] .one .one 0 4 with
    _ | _ | ⟨_ | res, r'⟩ <;> rw [hcall] at hout
  · cases hout
  · cases hout
  · cases hout
  · exact ⟨r₀, r, r', res, hnew, Run.of_foldlM (fun _ _ _ h => h) hfold, hcall,
      (InferenceRunner.generate_drains hnew rfl (Run.of_foldlM (fun _ _ _ h => h) hfold) hcall).2⟩

/-- A prompt of three tokens in a pool of one block. -/
def starvedConfig : RunnerConfig := { smallConfig true with numBlocks := 1, blockSize := 1 }

/-- A pool large enough for the panic below. -/
def panicConfig : RunnerConfig :=
  { smallConfig true with numBlocks := 40, blockSize := 1, maxTokensPerStep := 8, chunkSize := 8 }

def InferenceRunner.Generation.runner? :
    InferenceRunner.Generation heap ω → Option (InferenceRunner heap ω)
  | .returned _ r => some r
  | _ => none

theorem InferenceRunner.Generation.eq_returned {g : InferenceRunner.Generation heap ω}
    {r : InferenceRunner heap ω} (h : g.runner? = some r) : ∃ result, g = .returned result r := by
  cases g with
  | looping => cases h
  | panicked => cases h
  | returned result =>
    cases h
    exact ⟨result, rfl⟩

/-- A chunk without blocks never gets a decode step; a branch with too many blocks panics. -/
theorem generate_fails :
    ∃ r₀ r₁ r₂ r₃ : InferenceRunner listHeap Unit,
      InferenceRunner.new listHeap constantBackend () starvedConfig = .ok r₀ ∧
      (∀ turns, r₀.generateFromTokens constantBackend [5, 6, 7] .one .one 0 turns = .looping) ∧
      InferenceRunner.new listHeap constantBackend () panicConfig = .ok r₁ ∧
      (∃ result, r₁.generateFromTokens constantBackend [1, 2] .one .one 0 8 = .returned result r₂) ∧
      (∃ result, r₂.generateFromTokens constantBackend [1, 2, 3] .one .one 0 8 =
        .returned result r₃) ∧
      ∃ turns, r₃.generateFromTokens constantBackend [1, 2, 3, 0] .one .one 0 turns =
        .panicked := by
  obtain ⟨r₀, hnew⟩ : ∃ r₀ : InferenceRunner listHeap Unit,
    InferenceRunner.new listHeap constantBackend () starvedConfig = .ok r₀ := ⟨_, rfl⟩
  obtain ⟨r₁, hnew₁⟩ : ∃ r₁ : InferenceRunner listHeap Unit,
    InferenceRunner.new listHeap constantBackend () panicConfig = .ok r₁ := ⟨_, rfl⟩
  -- two turns of the loop, then every request is blocked
  have hloops : (r₀.addRequestTokens constantBackend [5, 6, 7] .default).2.hasWork = true ∧
      ((r₀.addRequestTokens constantBackend [5, 6, 7] .default).2.step constantBackend
        .default).any (fun o => o.1.toOption.isSome && (o.2.hasWork &&
          (o.2.step constantBackend .default).any fun o' =>
            o'.1.toOption.isSome && decide o'.2.Starved)) = true := by
    cases hnew
    decide +kernel
  have hreturns : (r₁.generateFromTokens constantBackend [1, 2] .one .one 0 8).runner?.any (fun r =>
      (r.generateFromTokens constantBackend [1, 2, 3] .one .one 0 8).runner?.any fun r =>
        match r.generateFromTokens constantBackend [1, 2, 3, 0] .one .one 0 8 with
        | .panicked => true
        | _ => false) = true := by
    cases hnew₁
    decide +kernel
  obtain ⟨hwork, hany⟩ := hloops
  obtain ⟨⟨result, s⟩, hstep, hs⟩ := (Option.any_eq_true ..).1 hany
  obtain ⟨hok, hs⟩ := Bool.and_eq_true_iff.1 hs
  obtain ⟨hwork', hany⟩ := Bool.and_eq_true_iff.1 hs
  obtain ⟨⟨result', t⟩, hstep', ht⟩ := (Option.any_eq_true ..).1 hany
  obtain ⟨hok', hstarved⟩ := Bool.and_eq_true_iff.1 ht
  have hturn := InferenceRunner.LoopTurn.of_step hwork hstep hok
  have hturn' := InferenceRunner.LoopTurn.of_step hwork' hstep' hok'
  obtain ⟨r₂, hfirst, hany⟩ := (Option.any_eq_true ..).1 hreturns
  obtain ⟨r₃, hsecond, hthird⟩ := (Option.any_eq_true ..).1 hany
  refine ⟨r₀, r₁, r₂, r₃, hnew, ?_, hnew₁, InferenceRunner.Generation.eq_returned hfirst,
    InferenceRunner.Generation.eq_returned hsecond, 8, ?_⟩
  · have hinv := InferenceRunner.Inv.new hnew
    obtain ⟨rid, heq⟩ : ∃ rid, ∀ turns,
        r₀.generateFromTokens constantBackend [5, 6, 7] .one .one 0 turns = _ :=
      hinv.generateFromTokens_eq (by decide) rfl rfl
    intro turns
    rw [heq]
    have hadded : (r₀.addRequestTokens constantBackend [5, 6, 7] .default).2.Inv :=
      (hinv.addRequestTokens [5, 6, 7] .default).1
    exact (of_decide_eq_true hstarved).looping_of_path (hturn'.inv (hturn.inv hadded).1).1
      (.head hturn (.single hturn')) turns []
  · split at hthird
    · assumption
    · cases hthird

end CompileForge.Runtime
