/-
  The prefix cache of the Python engine does not change what greedy decoding emits, as long as
  the executor can serve its hits.
-/

import CompileForge.PythonRuntime.EngineServe

namespace CompileForge.PythonRuntime

open Lib CompileForge.Runtime List

variable {Row Logits : Type} {heap : MaxHeap QueueEntry QueueEntry.rank}
  {ex : Executor Row Logits} {e : Engine heap Row} {submitted : List Submission}
  {results : List GenerationResult} {sr : ScheduledRequest} {pending : List ScheduledRequest}

/-! ## One request of a batch -/

/-- A scheduled request decodes; a plain executor is fed its whole sequence. -/
structure Engine.Scheduled (ex : Executor Row Logits) (e : Engine heap Row)
    (sr : ScheduledRequest) (req : Request) : Prop where
  running : req ∈ e.sched.running
  requestId : req.requestId = sr.requestId
  decode : req.state = .decode
  lt : req.sequence.length < 2 ^ 32
  whole : ex.usesCacheManager = false → sr.inputIds.zip sr.positions = placed req.sequence

/-- The engine while the requests `pending` of a batch are still to be served. -/
structure BatchInv (ex : Executor Row Logits) (e : Engine heap Row)
    (pending : List ScheduledRequest) (submitted : List Submission)
    (results : List GenerationResult) : Prop where
  tokens : TokenInv ex e submitted results
  ids : (pending.map ScheduledRequest.requestId).Nodup
  sampled : ∀ sr ∈ pending, sr.state ≠ .prefill
  scheduled : ∀ sr ∈ pending, ∃ req, e.Scheduled ex sr req
  rows : ex.usesCacheManager = true → ∃ held shared, RowInv ex e pending held shared

theorem plain_forward [Zero Row] (slab : Slab Row) {req : Request}
    (hplain : ex.usesCacheManager = false)
    (hwhole : sr.inputIds.zip sr.positions = placed req.sequence) :
    (ex.forward slab sr).2 = slab ∧ ∀ logits, (ex.forward slab sr).1 = some logits →
        ex.greedyNext req.sequence = some (ex.argmax logits) := by
  have hforward : ex.forward slab sr =
      ((ex.model.forward [] (placed req.sequence)).2.getLast?, slab) := by
    rw [Executor.forward, if_neg (by rw [hplain]; decide), hwhole]
  rw [hforward]
  refine ⟨rfl, fun logits hlogits => ?_⟩
  have hne : req.sequence ≠ [] := by
    intro hnil
    rw [hnil] at hlogits
    cases hlogits
  rw [Executor.greedyNext, fedSequence, if_neg hne]
  exact congrArg (Option.map ex.argmax) hlogits

theorem sampleFromLogits_some (e : Engine heap Row) (ex : Executor Row Logits)
    (h : sr.state ≠ .prefill) (logits : Logits) :
    e.sampleFromLogits ex sr (some logits) = ((e.recordSampled sr.requestId (ex.argmax logits)).1,
        [(e.recordSampled sr.requestId (ex.argmax logits)).2]) := if_neg h

theorem BatchInv.serve [Zero Row] (h : BatchInv ex e (sr :: pending) submitted results) :
    BatchInv ex (Engine.sampleFromLogits { e with slab := (ex.forward e.slab sr).2 } ex sr
        (ex.forward e.slab sr).1).1 pending submitted
      (results ++ (Engine.sampleFromLogits { e with slab := (ex.forward e.slab sr).2 } ex sr
        (ex.forward e.slab sr).1).2) := by
  obtain ⟨req, hreq⟩ := h.scheduled sr mem_cons_self
  obtain ⟨hother, hids⟩ := nodup_cons.1 h.ids
  have hsampled : ∀ sr' ∈ pending, sr'.state ≠ .prefill := fun sr' hsr' =>
    h.sampled sr' (mem_cons_of_mem sr hsr')
  have hframe := h.tokens.frame e.radixCache e.bm (ex.forward e.slab sr).2
  have hstate := h.sampled sr mem_cons_self
  -- recording the greedy token
  have hrecord : ∀ logits, ex.greedyNext req.sequence = some (ex.argmax logits) →
      BatchInv ex (Engine.recordSampled { e with slab := (ex.forward e.slab sr).2 }
          req.requestId (ex.argmax logits)).1 pending submitted
        (results ++ [(Engine.recordSampled { e with slab := (ex.forward e.slab sr).2 }
          req.requestId (ex.argmax logits)).2]) := by
    intro logits hnext
    refine ⟨hframe.recordSampled hreq.running hreq.decode hnext, hids, hsampled,
      fun sr' hsr' => ?_, fun hkv => ?_⟩
    · obtain ⟨req', hreq'⟩ := h.scheduled sr' (mem_cons_of_mem sr hsr')
      have hne : req'.requestId ≠ req.requestId := by
        rw [hreq'.requestId, hreq.requestId]
        exact fun heq => hother (heq ▸ mem_map_of_mem hsr')
      obtain ⟨-, -, -, hstays⟩ := running_recordOutput h.tokens.runningIds hreq.running
        (ex.argmax logits)
      refine ⟨req', ?_, hreq'.requestId, hreq'.decode, hreq'.lt, hreq'.whole⟩
      rw [(frame_recordSampled _ req.requestId (ex.argmax logits)).1]
      exact hstays req' hreq'.running hne
    · obtain ⟨held, shared, hrows⟩ := h.rows hkv
      exact hrows.serve h.tokens hkv hreq.running hreq.requestId hreq.decode hreq.lt hother hnext
  cases hkv : ex.usesCacheManager with
  | true =>
    obtain ⟨held, shared, hrows⟩ := h.rows hkv
    obtain ⟨c, hready⟩ := hrows.ready sr mem_cons_self req hreq.running hreq.requestId
    obtain ⟨token, htoken⟩ := greedyNext_isSome ex hreq.lt
    have hlogits := (hready.forward hkv).1
    rw [htoken] at hlogits
    obtain ⟨logits, hsome, rfl⟩ := Option.map_eq_some_iff.1 hlogits
    rw [hsome, sampleFromLogits_some _ ex hstate, ← hreq.requestId]
    exact hrecord logits htoken
  | false =>
    obtain ⟨hslab, hgreedy⟩ := plain_forward e.slab hkv (hreq.whole hkv)
    cases hsome : (ex.forward e.slab sr).1 with
    | some logits =>
      rw [sampleFromLogits_some _ ex hstate, ← hreq.requestId]
      exact hrecord logits (hgreedy logits hsome)
    | none =>
      rw [Engine.sampleFromLogits, if_neg hstate]
      dsimp only
      rw [append_nil]
      refine ⟨hframe, hids, hsampled, fun sr' hsr' => ?_, fun hkv' => ?_⟩
      · obtain ⟨req', hreq'⟩ := h.scheduled sr' (mem_cons_of_mem sr hsr')
        exact ⟨req', hreq'.running, hreq'.requestId, hreq'.decode, hreq'.lt, hreq'.whole⟩
      · rw [hkv] at hkv'
        cases hkv'

/-- The whole batch is served, one request after the other. -/
theorem BatchInv.stepPerRequest [Zero Row] (h : BatchInv ex e pending submitted results) :
    BatchInv ex (Engine.stepPerRequest ex e pending).1 [] submitted
      (results ++ (Engine.stepPerRequest ex e pending).2) := by
  induction pending generalizing e results with
  | nil =>
    rw [Engine.stepPerRequest, append_nil]
    exact h
  | cons sr pending ih =>
    have hrest := ih h.serve
    rw [append_assoc] at hrest
    exact hrest

/-! ## Steps of a session -/

theorem BatchInv.schedule (h : BatchInv ex e [] submitted results)
    (hserved : ∀ req ∈ e.admitted, e.HitServed ex req) (hcalm : e.Undisturbed) :
    BatchInv ex e.scheduleBatch.1 e.scheduleBatch.2 submitted results := by
  obtain ⟨hids, -, -⟩ := h.tokens.admission hserved
  have hconfig : e.admission.1.config.useKvCache = ex.usesCacheManager := by
    rw [(admission_spec e).choose_spec.2.2.2.1]
    exact h.tokens.config
  have hslots : ∀ slot ∈ e.slots, ∀ sr, slot.scheduled? = some sr →
      sr.requestId = slot.before.requestId ∧ e.scheduleBatch.1.Scheduled ex sr slot.after := by
    intro slot hslot sr hsr
    have hbatch : sr ∈ e.scheduleBatch.2 := mem_filterMap.2 ⟨slot, hslot, hsr⟩
    have hwhole := hcalm.2.1 sr hbatch
    have hbefore : slot.before ∈ e.admission.1.running := by
      rw [← slots_before]
      exact mem_map_of_mem hslot
    have hlt := hcalm.2.2 _ hbefore
    have hafter : slot.after ∈ e.scheduleBatch.1.sched.running := by
      rw [(scheduleBatch_eq e).1]
      exact mem_map_of_mem hslot
    have hrest := (h.tokens.slot hserved hcalm hslot).1.rest
    obtain ⟨budget, bm, turn, hturn, rfl⟩ := turned_of_mem_buildSlots _ _ _ _ slot hslot
    have hid := hturn.requestId_eq.2 sr hsr
    have hmoved := after_eq_of_turned hturn
    have hsame : turn.slot.after.requestId = turn.slot.before.requestId := by rw [hmoved]
    have hseq : turn.slot.after.sequence = turn.slot.before.sequence := by
      rw [hmoved]
      rfl
    refine ⟨hid, hafter, hsame.trans hid.symm, ?_, hseq ▸ hlt, fun hplain => ?_⟩
    · cases hkv : ex.usesCacheManager with
      | true =>
        rw [hkv] at hrest hconfig
        exact (feedsEnd_of_turned hturn hconfig hrest hlt hsr hwhole).1
      | false =>
        rw [hkv] at hrest hconfig
        exact (feedsAll_of_turned hturn hconfig hrest hsr hwhole).1
    · rw [hplain] at hrest hconfig
      rw [hseq]
      exact (feedsAll_of_turned hturn hconfig hrest hsr hwhole).2.2
  refine ⟨h.tokens.schedule hserved hcalm, ?_, hcalm.2.1, fun sr hsr => ?_, fun hkv => ?_⟩
  · -- the batch lists running requests in order
    have hnodup : (e.slots.map fun slot => slot.before.requestId).Nodup := by
      have hrunning := (nodup_append.1 hids).1
      rw [← slots_before, map_map] at hrunning
      exact hrunning
    exact (sublist_batchOf fun slot hslot sr hsr => (hslots slot hslot sr hsr).1).nodup hnodup
  · obtain ⟨slot, hslot, hsome⟩ := mem_filterMap.1 hsr
    exact ⟨slot.after, (hslots slot hslot sr hsome).2⟩
  · obtain ⟨held, shared, hrows⟩ := h.rows hkv
    exact ⟨held, e.sharedAfter shared, hrows.schedule h.tokens hserved hkv hcalm⟩

/-- Every step of a session keeps what the engine knows of its requests and the rows in the slab. -/
def SessionInv (ex : Executor Row Logits) (s : Session heap Row) : Prop :=
  BatchInv ex s.engine [] s.submitted s.results

variable {sub : Submission} {rid : String}

theorem SessionInv.addRequest [Zero Row] {s : Session heap Row} (h : SessionInv ex s)
    (hfresh : sub.requestId ∉ s.submitted.map Submission.requestId) :
    SessionInv ex (s.apply ex (.addRequest sub)) where
  tokens := h.tokens.addRequest hfresh
  ids := nodup_nil
  sampled := nofun
  scheduled := nofun
  rows := fun hkv => by
    obtain ⟨held, shared, hrows⟩ := h.rows hkv
    exact ⟨held, shared, hrows.addRequest h.tokens hfresh⟩

theorem SessionInv.step [Zero Row] {s s' : Session heap Row} {event : EngineEvent}
    (h : SessionInv ex s) (hstep : s.ServedStep ex event s') : SessionInv ex s' := by
  obtain ⟨⟨hpermitted, hserved⟩, rfl⟩ := hstep
  cases event with
  | addRequest => exact h.addRequest hpermitted
  | step =>
    have hevict : BatchInv ex s.engine.evictCacheIfNeeded [] s.submitted s.results := by
      refine ⟨h.tokens.evict, nodup_nil, nofun,
        nofun, fun hkv => ?_⟩
      obtain ⟨held, shared, hrows⟩ := h.rows hkv
      rw [hrows.evict_eq]
      exact ⟨held, shared, hrows⟩
    have hdone := (hevict.schedule hserved hpermitted).stepPerRequest
    rw [← Engine.step_eq] at hdone
    exact hdone

/-! ## A session without the cache -/

theorem radixCache_insertFinished (h : e.radixCache = none) :
    (e.insertFinishedToCache rid).radixCache = none := by
  rw [Engine.insertFinishedToCache, h]
  exact h

theorem radixCache_recordSampled {token : UInt32} (h : e.radixCache = none) :
    (e.recordSampled rid token).1.radixCache = none := by
  rw [Engine.recordSampled]
  dsimp only
  split
  · exact radixCache_insertFinished h
  · exact h

theorem radixCache_sampleFromLogits {logits : Option Logits} (h : e.radixCache = none) :
    (e.sampleFromLogits ex sr logits).1.radixCache = none := by
  unfold Engine.sampleFromLogits
  split
  · exact h
  · cases logits with
    | none => exact h
    | some => exact radixCache_recordSampled h

theorem radixCache_stepPerRequest [Zero Row] (h : e.radixCache = none) :
    (Engine.stepPerRequest ex e pending).1.radixCache = none := by
  induction pending generalizing e with
  | nil => exact h
  | cons sr pending ih => exact ih (radixCache_sampleFromLogits h)

theorem uncached_step [Zero Row] {s s' : Session heap Row} {event : EngineEvent}
    (h : s.engine.radixCache = none) (hstep : s.Step ex event s') :
    s.ServedStep ex event s' ∧ s'.engine.radixCache = none := by
  obtain ⟨hpermitted, rfl⟩ := hstep
  cases event with
  | addRequest => exact ⟨⟨⟨hpermitted, trivial⟩, rfl⟩, h⟩
  | step =>
    have hevict : s.engine.evictCacheIfNeeded.radixCache = none := by
      rw [Engine.evictCacheIfNeeded, h]
      exact h
    refine ⟨⟨⟨hpermitted, fun req _ => .inl ?_⟩, rfl⟩, ?_⟩
    · rw [Engine.matchPrefix, hevict]
    · show (s.engine.step ex).1.radixCache = none
      rw [Engine.step_eq]
      exact radixCache_stepPerRequest hevict

/-! ## Whole sessions -/

theorem GreedySoFar.agree {results' : List GenerationResult}
    (h : GreedySoFar ex results sub) (h' : GreedySoFar ex results' sub) :
    (tokensOf results sub.requestId <+: tokensOf results' sub.requestId ∨
        tokensOf results' sub.requestId <+: tokensOf results sub.requestId) ∧
      (FinishedIn results sub.requestId → FinishedIn results' sub.requestId →
        tokensOf results sub.requestId = tokensOf results' sub.requestId) :=
  ⟨h.generated.comparable h'.generated, fun hfin hfin' =>
    h.generated.eq_of_stopsFirst h'.generated (h.finished hfin) (h'.finished hfin')⟩

section Sessions

variable [Zero Row] {maxBatchSize maxTokensPerStep chunkSize : Nat} {sched : Scheduler heap}
  {bm : BlockManager} {events : List EngineEvent} {s : Session heap Row}
  (hnew : Scheduler.new heap maxBatchSize maxTokensPerStep chunkSize ex.usesCacheManager =
    .ok sched)
  (hfresh : bm.Fresh) (hsize : ex.usesCacheManager = true → ex.blockSize = bm.blockSize)

include hnew hfresh hsize

theorem SessionInv.start (enablePrefixCache : Bool) :
    SessionInv ex (.start sched bm enablePrefixCache) := by
  obtain ⟨hconfig, hrunning, hwaiting, -⟩ := Scheduler.new_spec hnew
  refine ⟨.start hconfig hrunning hwaiting enablePrefixCache, nodup_nil,
    nofun, nofun,
    fun hkv => ?_⟩
  rw [hkv] at hnew
  exact ⟨_, _, .start hnew hfresh (hsize hkv) hrunning enablePrefixCache⟩

theorem greedy_of_served
    (hrun : Run (Session.ServedStep ex) (.start sched bm true) events s) :
    ∀ sub ∈ s.submitted, GreedySoFar ex s.results sub := by
  have hinv : SessionInv ex s := hrun.invariant (SessionInv.start hnew hfresh hsize true)
    fun _ _ _ h => h.step
  exact hinv.tokens.greedy

theorem greedy_of_uncached
    (hrun : Run (Session.Step ex) (.start sched bm false) events s) :
    ∀ sub ∈ s.submitted, GreedySoFar ex s.results sub := by
  have hinv : SessionInv ex s ∧ s.engine.radixCache = none :=
    hrun.invariant (I := fun s => SessionInv ex s ∧ s.engine.radixCache = none)
      ⟨SessionInv.start hnew hfresh hsize false, rfl⟩ fun _ _ _ ⟨h, hnone⟩ hstep =>
        have ⟨hserved, hnone'⟩ := uncached_step hnone hstep
        ⟨h.step hserved, hnone'⟩
  exact hinv.1.tokens.greedy

end Sessions

/-- With and without the cache, one token list is a prefix of the other, and equal in the end. -/
theorem prefixCache_transparent [Zero Row] {maxBatchSize maxTokensPerStep chunkSize : Nat}
    {sched : Scheduler heap} {bm : BlockManager} {events events' : List EngineEvent}
    {cached uncached : Session heap Row}
    (hnew : Scheduler.new heap maxBatchSize maxTokensPerStep chunkSize ex.usesCacheManager =
      .ok sched)
    (hfresh : bm.Fresh) (hsize : ex.usesCacheManager = true → ex.blockSize = bm.blockSize)
    (hcached : Run (Session.ServedStep ex) (.start sched bm true) events cached)
    (huncached : Run (Session.Step ex) (.start sched bm false) events' uncached) :
    ∀ sub ∈ cached.submitted, sub ∈ uncached.submitted →
      (tokensOf cached.results sub.requestId <+: tokensOf uncached.results sub.requestId ∨
        tokensOf uncached.results sub.requestId <+: tokensOf cached.results sub.requestId) ∧
      (FinishedIn cached.results sub.requestId → FinishedIn uncached.results sub.requestId →
        tokensOf cached.results sub.requestId = tokensOf uncached.results sub.requestId) := by
  intro sub hsub hsub'
  have hgreedy := greedy_of_served hnew hfresh hsize hcached sub hsub
  exact hgreedy.agree (greedy_of_uncached hnew hfresh hsize huncached sub hsub')

/-! ## Hits that can be served, and hits that cannot -/

/-- A row is its token, and the next token the sum of all tokens. -/
def sumExecutor (usesCacheManager : Bool) : Executor Nat UInt32 where
  model := ⟨fun rows token => (token.1.toNat, UInt32.ofNat (rows.sum + token.1.toNat))⟩
  usesCacheManager := usesCacheManager
  blockSize := 2
  argmax := id

def promptTwice (more : List UInt32) : List EngineEvent :=
  [.addRequest ⟨"a", [1, 2], 1, []⟩, .step, .addRequest ⟨"b", [1, 2] ++ more, 1, []⟩, .step]

/-- The cache manager serves a hit of one block that leaves one token. -/
theorem prefixCache_transparent_witness :
    ∃ sched bm cached uncached, Scheduler.new listHeap 2 16 16 true = .ok sched ∧
      BlockManager.new 8 2 = .ok bm ∧
      Run (Session.ServedStep (sumExecutor true)) (.start sched bm true) (promptTwice [9])
        cached ∧
      Run (Session.Step (sumExecutor true)) (.start sched bm false) (promptTwice [9])
        uncached ∧
      FinishedIn cached.results "b" ∧ FinishedIn uncached.results "b" ∧
      tokensOf cached.results "b" = tokensOf uncached.results "b" := by
  obtain ⟨sched, hsched⟩ : ∃ sched, Scheduler.new listHeap 2 16 16 true = .ok sched := ⟨_, rfl⟩
  obtain ⟨bm, hbm⟩ : ∃ bm, BlockManager.new 8 2 = .ok bm := ⟨_, rfl⟩
  have hserved : Enabled (fun s e => s.Permitted e ∧ s.HitsServed (sumExecutor true) e)
      (Session.apply (sumExecutor true)) (.start sched bm true) (promptTwice [9]) := by
    cases hsched
    cases hbm
    decide +kernel
  have hpermitted : Enabled Session.Permitted (Session.apply (sumExecutor true))
      (.start sched bm false) (promptTwice [9]) := by
    cases hsched
    cases hbm
    decide +kernel
  have hcached : Run (Session.ServedStep (sumExecutor true)) (.start sched bm true)
      (promptTwice [9]) _ := Run.of_enabled (fun _ _ h => ⟨h, rfl⟩) hserved
  have huncached : Run (Session.Step (sumExecutor true)) (.start sched bm false)
      (promptTwice [9]) _ := Run.of_enabled (fun _ _ h => ⟨h, rfl⟩) hpermitted
  have hfinished : FinishedIn ((promptTwice [9]).foldl (Session.apply (sumExecutor true))
        (.start sched bm true)).results "b" ∧
      FinishedIn ((promptTwice [9]).foldl (Session.apply (sumExecutor true))
        (.start sched bm false)).results "b" := by
    cases hsched
    cases hbm
    decide +kernel
  have hsize : (sumExecutor true).blockSize = bm.blockSize := by
    cases hbm
    rfl
  have hagree := prefixCache_transparent hsched (.inl ⟨8, 2, hbm⟩) (fun _ => hsize) hcached
    huncached ⟨"b", [1, 2, 9], 1, []⟩ (by simp [promptTwice, Session.apply])
    (by simp [promptTwice, Session.apply])
  exact ⟨sched, bm, _, _, hsched, hbm, hcached, huncached, hfinished.1, hfinished.2,
    hagree.2 hfinished.1 hfinished.2⟩

/-- With and without the cache the request gets different tokens. -/
def TokensDiffer (usesCacheManager : Bool) (events : List EngineEvent) (rid : String) : Prop :=
  ∃ sched bm cached uncached, Scheduler.new listHeap 2 16 16 usesCacheManager = .ok sched ∧
    BlockManager.new 8 2 = .ok bm ∧
    Run (Session.Step (sumExecutor usesCacheManager)) (.start sched bm true) events cached ∧
    Run (Session.Step (sumExecutor usesCacheManager)) (.start sched bm false) events uncached ∧
    FinishedIn cached.results rid ∧ FinishedIn uncached.results rid ∧
    tokensOf cached.results rid ≠ tokensOf uncached.results rid

theorem TokensDiffer.of_enabled {usesCacheManager : Bool} {events : List EngineEvent}
    {sched : Scheduler listHeap} {bm : BlockManager}
    (hsched : Scheduler.new listHeap 2 16 16 usesCacheManager = .ok sched)
    (hbm : BlockManager.new 8 2 = .ok bm) (henabled : ∀ enablePrefixCache, Enabled Session.Permitted
      (Session.apply (sumExecutor usesCacheManager)) (.start sched bm enablePrefixCache) events)
    (hfinished : ∀ enablePrefixCache, FinishedIn
      (events.foldl (Session.apply (sumExecutor usesCacheManager))
        (.start sched bm enablePrefixCache)).results rid)
    (hne : tokensOf (events.foldl (Session.apply (sumExecutor usesCacheManager))
        (.start sched bm true)).results rid ≠
      tokensOf (events.foldl (Session.apply (sumExecutor usesCacheManager))
        (.start sched bm false)).results rid) :
    TokensDiffer usesCacheManager events rid :=
  have hrun : ∀ enablePrefixCache, Run (Session.Step (sumExecutor usesCacheManager))
      (.start sched bm enablePrefixCache) events _ := fun enablePrefixCache =>
    Run.of_enabled (fun _ _ h => ⟨h, rfl⟩) (henabled enablePrefixCache)
  ⟨sched, bm, _, _, hsched, hbm, hrun true, hrun false, hfinished true, hfinished false, hne⟩

/-- A plain executor misses the tokens of a hit; the cache manager where more than one is left. -/
theorem prefixCache_fails :
    TokensDiffer false (promptTwice [9]) "b" ∧ TokensDiffer true (promptTwice [9, 8]) "b" := by
  obtain ⟨plain, hplain⟩ : ∃ sched, Scheduler.new listHeap 2 16 16 false = .ok sched := ⟨_, rfl⟩
  obtain ⟨sched, hsched⟩ : ∃ sched, Scheduler.new listHeap 2 16 16 true = .ok sched := ⟨_, rfl⟩
  obtain ⟨bm, hbm⟩ : ∃ bm, BlockManager.new 8 2 = .ok bm := ⟨_, rfl⟩
  refine ⟨.of_enabled hplain hbm ?_ ?_ ?_, .of_enabled hsched hbm ?_ ?_ ?_⟩
  all_goals
    cases hplain
    cases hsched
    cases hbm
    decide +kernel

end CompileForge.PythonRuntime
