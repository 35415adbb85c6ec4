/-
  What one step of the runner does to its work: scheduling and a batch add none, and
  a step of a runner that is not `Starved` uses some up if it returns results.
-/

import CompileForge.Runtime.Cache.RadixFit
import CompileForge.Runtime.Engine.RunnerProgress

namespace CompileForge.Runtime

open Lib List

variable {heap : MaxHeap QueueEntry QueueEntry.rank} {ω : Type}

theorem admitLoop_full {maxBatchSize : Nat} {running : List Request}
    (h : maxBatchSize ≤ running.length) (cacheHits : List PrefixCacheHit)
    (waiting : heap.Carrier) (bm : BlockManager) :
    (heap.items (admitLoop maxBatchSize cacheHits waiting running bm).1).Perm (heap.items waiting) ∧
      (admitLoop maxBatchSize cacheHits waiting running bm).2 = (running, bm) := by
  rw [admitLoop]
  split
  · exact ⟨.refl _, rfl⟩
  · rename_i entry rest hpop
    rw [if_pos h]
    exact ⟨heap.push_pop hpop, rfl⟩

section Lists

variable {p : Request → Bool} {f : Request → Request} {l : List Request}

theorem totalWork_updateFirst_lt (hex : ∃ req ∈ l, p req = true)
    (hlt : ∀ req ∈ l, p req = true → (f req).work < req.work) :
    totalWork (updateFirst p f l) < totalWork l := by
  induction l with
  | nil =>
    obtain ⟨req, hreq, -⟩ := hex
    cases hreq
  | cons a l ih =>
    unfold totalWork at ih ⊢
    rw [updateFirst]
    by_cases ha : p a = true
    · have := hlt a mem_cons_self ha
      rw [if_pos ha, map_cons, map_cons, sum_cons, sum_cons]
      omega
    · have hrest : ∃ req ∈ l, p req = true := by
        obtain ⟨req, hreq, hp⟩ := hex
        rcases mem_cons.1 hreq with rfl | hreq
        · exact absurd hp ha
        · exact ⟨req, hreq, hp⟩
      have := ih hrest fun req hreq => hlt req (mem_cons_of_mem a hreq)
      rw [if_neg ha, map_cons, map_cons, sum_cons, sum_cons]
      omega

theorem totalWork_eraseP_lt (hex : ∃ req ∈ l, p req = true)
    (hpos : ∀ req ∈ l, p req = true → 0 < req.work) : totalWork (l.eraseP p) < totalWork l := by
  obtain ⟨req, hreq, hp⟩ := hex
  obtain ⟨a, l₁, l₂, -, hpa, rfl, herase⟩ := exists_of_eraseP hreq hp
  have := hpos a (mem_append_right _ mem_cons_self) hpa
  rw [herase, totalWork_append, totalWork_append]
  show totalWork l₁ + totalWork l₂ < totalWork l₁ + (a.work + totalWork l₂)
  omega

end Lists

theorem work_pos {req : Request} (h : req.state = .prefill ∨ req.state = .decode) :
    0 < req.work := by
  rcases h with hstate | hstate
  · rw [work_of_prefill hstate]
    omega
  · rw [work_of_decode hstate]
    omega

theorem work_appendToken {req : Request} (h : req.state = .prefill ∨ req.state = .decode)
    {tokenId : UInt32} (hmore : req.outputTokens.length + 1 < req.maxTokens) :
    (req.appendToken tokenId).work < req.work := by
  have hlength : (req.appendToken tokenId).outputTokens.length = req.outputTokens.length + 1 := by
    simp [Request.appendToken]
  rcases h with hstate | hstate
  · have happended : (req.appendToken tokenId).work = 2 + req.tokensRemaining +
        (req.maxTokens + 1 - (req.appendToken tokenId).outputTokens.length) :=
      work_of_prefill hstate
    rw [happended, work_of_prefill hstate, hlength]
    omega
  · have happended : (req.appendToken tokenId).work =
        1 + (req.maxTokens + 1 - (req.appendToken tokenId).outputTokens.length) :=
      work_of_decode hstate
    rw [happended, work_of_decode hstate, hlength]
    omega

/-- What the loop relies on in executor and tokenizer: calls return, with logits. -/
structure Backend.Total (backend : Backend ω) : Prop where
  kv : ∀ state inputIds positions bm rid, ∃ result bm' state',
    backend.forwardWithKv state inputIds positions bm rid = some (result, bm', state') ∧
      ∀ logits, result = .ok logits → logits ≠ []
  positions : ∀ state inputIds positions, ∃ result state',
    backend.forwardWithPositions state inputIds positions = some (result, state') ∧
      ∀ logits, result = .ok logits → logits ≠ []

namespace InferenceRunner

variable {r r' : InferenceRunner heap ω} {backend : Backend ω} {sampling : SamplerConfig}

variable (r)

/-- No decode step of the next step has blocks, and no request can be admitted. -/
@[mk_iff]
structure Starved : Prop where
  busy : r.scheduler.running ≠ []
  decode : ∀ req ∈ r.scheduler.running, req.state = .decode
  closed : r.waitingRequests = [] ∨ r.scheduler.config.maxBatchSize ≤ r.scheduler.running.length
  blocked : ∀ req ∈ r.scheduler.running.take r.scheduler.config.maxTokensPerStep,
    Blocked r.scheduler.config r.blockManager req

instance decidableStarved : Decidable r.Starved :=
  decidable_of_iff' _ (starved_iff r)

def work : Nat := totalWork r.liveRequests

variable {r}

theorem Inv.admitted_closed (h : r.Inv) (hclosed : r.waitingRequests = [] ∨
      r.scheduler.config.maxBatchSize ≤ r.scheduler.running.length) :
    r.admitted.1.running = r.scheduler.running ∧
      ((heap.items r.admitted.1.waiting).map QueueEntry.request).Perm r.waitingRequests := by
  obtain ⟨entries, hperm, hrunning, -, -⟩ := h.admitted_spec
  have hnone : entries = [] := by
    rcases hclosed with hempty | hfull
    · have hitems : heap.items r.scheduler.waiting = [] := map_eq_nil_iff.1 hempty
      rw [hitems] at hperm
      exact (append_eq_nil_iff.1 hperm.symm.eq_nil).1
    · have hkept : (Scheduler.reap r.scheduler.running r.blockManager).1 = r.scheduler.running := by
        refine filter_eq_self.2 fun req hreq => ?_
        rcases h.active req hreq with hstate | hstate
        · simp [Request.isFinished, hstate]
        · simp [Request.isFinished, hstate]
      have hsame : r.admitted.1.running = r.scheduler.running := by
        have hloop := (admitLoop_full (hkept.symm ▸ hfull) [] r.scheduler.waiting
          (Scheduler.reap r.scheduler.running r.blockManager).2).2
        exact (congrArg Prod.fst hloop).trans hkept
      rw [hsame] at hrunning
      have hlength := congrArg length hrunning
      rw [length_append, length_map] at hlength
      exact eq_nil_of_length_eq_zero (by omega)
  rw [hnone, map_nil, append_nil] at hrunning
  rw [hnone, nil_append] at hperm
  exact ⟨hrunning, (hperm.map QueueEntry.request).symm⟩

theorem Inv.admitted_work (h : r.Inv) :
    totalWork (r.admitted.1.running ++
        (heap.items r.admitted.1.waiting).map QueueEntry.request) ≤ r.work ∧
      (r.admitted.1.running ≠ r.scheduler.running → totalWork (r.admitted.1.running ++
          (heap.items r.admitted.1.waiting).map QueueEntry.request) < r.work) := by
  obtain ⟨entries, hperm, hrunning, -, -⟩ := h.admitted_spec
  have hqueued : ∀ e ∈ entries, e.request.state = .waiting := fun e he =>
    (h.queued _ (mem_map_of_mem (hperm.mem_iff.2 (mem_append_left _ he)))).1
  have hstarted : totalWork (entries.map fun e => e.request.startPrefill) + entries.length =
      totalWork (entries.map QueueEntry.request) := by
    clear hperm hrunning
    induction entries with
    | nil => rfl
    | cons e entries ih =>
      have hone := work_startPrefill (hqueued e mem_cons_self)
      have hrest := ih fun e' he' => hqueued e' (mem_cons_of_mem e he')
      unfold totalWork at hrest ⊢
      simp only [map_cons, sum_cons, length_cons]
      omega
  have hwaiting : totalWork r.waitingRequests = totalWork (entries.map QueueEntry.request) +
      totalWork ((heap.items r.admitted.1.waiting).map QueueEntry.request) := by
    rw [← totalWork_append, ← map_append]
    exact ((hperm.map QueueEntry.request).map Request.work).sum_eq
  have hall : r.work = totalWork r.scheduler.running + totalWork r.waitingRequests :=
    totalWork_append _ _
  rw [totalWork_append, hrunning, totalWork_append, hall, hwaiting]
  refine ⟨by omega, fun hne => ?_⟩
  have hsome : entries ≠ [] := by
    rintro rfl
    rw [map_nil, append_nil] at hne
    exact hne rfl
  have := length_pos_iff.2 hsome
  omega

theorem Inv.work_scheduleStep (h : r.Inv) : r.scheduleStep.2.work =
    totalWork (r.built.1.map Slot.after ++
      (heap.items r.admitted.1.waiting).map QueueEntry.request) := by
  rw [h.scheduleStep_eq]
  rfl

/-- Scheduling uses up work, unless all running requests decode and none is admitted. -/
theorem Inv.scheduleStep_work (h : r.Inv) (hperStep : 0 < r.scheduler.config.maxTokensPerStep) :
    r.scheduleStep.2.work ≤ r.work ∧ (r.scheduleStep.2.work < r.work ∨
        r.admitted.1.running = r.scheduler.running ∧
          (∀ req ∈ r.scheduler.running, req.state = .decode) ∧
          (r.waitingRequests = [] ∨
            r.scheduler.config.maxBatchSize ≤ r.scheduler.running.length)) := by
  obtain ⟨entries, hperm, hrunning, -, hconfig⟩ := h.admitted_spec
  obtain ⟨hadmitted, hadmission⟩ := h.admitted_work
  rw [totalWork_append] at hadmitted hadmission
  have hslots := buildSlots_work_le r.admitted.1.config ⟨0, 0⟩ r.admitted.1.running r.admitted.2
  rw [h.work_scheduleStep, totalWork_append]
  have hbuilt : r.built.1 = (buildSlots r.admitted.1.config ⟨0, 0⟩ r.admitted.1.running
    r.admitted.2).1 := rfl
  rw [← hbuilt] at hslots
  refine ⟨by omega, ?_⟩
  by_cases hsame : r.admitted.1.running = r.scheduler.running
  · by_cases hdecode : ∀ req ∈ r.scheduler.running, req.state = .decode
    · refine .inr ⟨hsame, hdecode, ?_⟩
      -- nobody was admitted: the queue is empty or the batch full
      have hstop := (r.scheduler.admitRequests_spec r.blockManager []).choose_spec.2.2.2.2
      rcases hstop with hempty | hfull
      · have hnone : entries = [] := by
          rw [hsame] at hrunning
          have hlength := congrArg length hrunning
          rw [length_append, length_map] at hlength
          exact eq_nil_of_length_eq_zero (by omega)
        have hitems : heap.items r.admitted.1.waiting = [] := hempty
        rw [hnone, hitems] at hperm
        exact .inl (map_eq_nil_iff.2 hperm.eq_nil)
      · have hfull : r.scheduler.config.maxBatchSize ≤ r.admitted.1.running.length := hfull
        rw [hsame] at hfull
        exact .inr hfull
    · refine .inl ?_
      push Not at hdecode
      obtain ⟨req, hreq, hstate⟩ := hdecode
      have hprefill : req.state = .prefill := (h.active req hreq).resolve_right hstate
      have hlt : totalWork (r.built.1.map Slot.after) < totalWork r.admitted.1.running :=
        buildSlots_work_lt _ (hconfig ▸ hperStep) rfl (hsame ▸ hreq) hprefill
      omega
  · have := hadmission hsame
    exact .inl (by omega)

/-! ## The batch -/

variable {req : ScheduledRequest} {rid : String} {tokenId : UInt32}

theorem Forwarded.work_eq (hf : Forwarded r r') : r'.work = r.work := by
  rw [hf.eq]
  rfl

theorem Inv.recordToken_work (h : r.Inv) (hrid : rid ∈ r.runningIds) {res : StepResult}
    (hout : r.recordToken backend rid tokenId = some (res, r')) : r'.work < r.work := by
  obtain ⟨request, hmem, hid, hcase⟩ := @recordToken_cases _ _ r backend rid tokenId hrid
  have hex : ∃ req ∈ r.scheduler.running, decide (req.requestId = rid) = true :=
    ⟨request, hmem, decide_eq_true hid⟩
  -- ids are distinct, so only this request has the id
  have honly : ∀ req ∈ r.scheduler.running, decide (req.requestId = rid) = true → req = request :=
    fun req hreq hsame => inj_on_of_nodup_map h.runningIds_nodup hreq hmem
      ((of_decide_eq_true hsame).trans hid.symm)
  have hactive := h.active request hmem
  have hsplit : ∀ running, totalWork (running ++ r.waitingRequests) =
      totalWork running + totalWork r.waitingRequests := fun running => totalWork_append _ _
  rcases hcase with ⟨hmore, heq⟩ | ⟨-, heq⟩
  · rw [heq] at hout
    cases hout
    have hlt : totalWork (r.recorded rid tokenId) < totalWork r.scheduler.running := by
      refine totalWork_updateFirst_lt hex fun req hreq hsame => ?_
      rw [honly req hreq hsame]
      rcases Scheduler.recordToken_cases request tokenId with ⟨hlast, -⟩ | ⟨hnext, hroom, -⟩
      · rw [hlast] at hmore
        cases hmore
      · rw [hnext]
        exact work_appendToken hactive hroom
    show totalWork (r.recorded rid tokenId ++ r.waitingRequests) <
      totalWork (r.scheduler.running ++ r.waitingRequests)
    rw [hsplit, hsplit]
    omega
  · rw [heq] at hout
    obtain ⟨inserted, -, hpair⟩ := Option.map_eq_some_iff.1 hout
    cases hpair
    have hlt : totalWork (r.scheduler.running.eraseP fun req => req.requestId = rid) <
        totalWork r.scheduler.running := by
      refine totalWork_eraseP_lt hex fun req hreq hsame => ?_
      rw [honly req hreq hsame]
      exact work_pos hactive
    show totalWork ((r.scheduler.running.eraseP fun req => req.requestId = rid) ++
      r.waitingRequests) < totalWork (r.scheduler.running ++ r.waitingRequests)
    rw [hsplit, hsplit]
    omega

theorem forward_logits (htotal : backend.Total) {logits : List F32}
    (hout : r.forward backend req = some (.ok logits, r')) : logits ≠ [] := by
  unfold InferenceRunner.forward at hout
  split at hout
  · split at hout
    · cases hout
    · rename_i bm heq
      obtain ⟨result, bm', state', hcall, hlogits⟩ :=
        htotal.kv r.executor req.inputIds req.positions bm req.requestId
      rw [hcall] at hout
      cases hout
      exact hlogits logits rfl
  · obtain ⟨result, state', hcall, hlogits⟩ :=
      htotal.positions r.executor req.inputIds req.positions
    rw [hcall] at hout
    cases hout
    exact hlogits logits rfl

theorem forward_isSome (htotal : backend.Total) (r : InferenceRunner heap ω)
    (req : ScheduledRequest) : ∃ out, r.forward backend req = some out := by
  unfold InferenceRunner.forward
  split
  · split
    · exact ⟨_, rfl⟩
    · rename_i bm heq
      obtain ⟨result, bm', state', hcall, -⟩ :=
        htotal.kv r.executor req.inputIds req.positions bm req.requestId
      rw [hcall]
      exact ⟨_, rfl⟩
  · obtain ⟨result, state', hcall, -⟩ :=
      htotal.positions r.executor req.inputIds req.positions
    rw [hcall]
    exact ⟨_, rfl⟩

theorem Inv.processRequest_work (h : r.Inv) (hrid : req.requestId ∈ r.runningIds)
    {result : Except String (Option StepResult)}
    (hout : r.processRequest backend sampling req = some (result, r')) :
    r'.work ≤ r.work ∧ (backend.Total → req.state = .decode → req.inputIds ≠ [] →
      ∀ res, result = .ok res → r'.work < r.work) := by
  cases processRequest_outcome hout with
  | skipped hempty => exact ⟨Nat.le_refl _, fun _ _ hne => absurd hempty hne⟩
  | failed hforward =>
    exact ⟨(forward_spec h hrid hforward).work_eq.le, fun _ _ _ res heq => by cases heq⟩
  | unsampled hforward hsample =>
    have hf := forwarded_sampled h hrid hforward hsample
    refine ⟨hf.work_eq.le, fun htotal hdecode _ res _ => ?_⟩
    -- logits of a decode step are always sampled
    have hnonempty := isEmpty_eq_false_iff.2 (forward_logits htotal hforward)
    unfold InferenceRunner.sampleToken at hsample
    rw [hnonempty, hdecode] at hsample
    cases hsample
  | sampled hforward hsample hrecord =>
    have hf := forwarded_sampled h hrid hforward hsample
    have hlt := (hf.inv h).recordToken_work (hf.runningIds_eq ▸ hrid) hrecord
    rw [hf.work_eq] at hlt
    exact ⟨hlt.le, fun _ _ _ _ _ => hlt⟩

theorem Inv.processBatch_work {batch : List ScheduledRequest} (h : r.Inv)
    (hrunning : ∀ sr ∈ batch, sr.requestId ∈ r.runningIds)
    (hnodup : (batch.map ScheduledRequest.requestId).Nodup)
    {result : Except String (List StepResult)}
    (hout : InferenceRunner.processBatch backend sampling batch r = some (result, r')) :
    r'.work ≤ r.work :=
  h.processBatch_rule (I := fun m => m.work ≤ r.work)
    (fun _ _ _ _ _ hm hrid hle hreq => (hm.processRequest_work hrid hreq).1.trans hle)
    hrunning hnodup le_rfl hout

/-- A runner with work that is not starved uses some up in a step that returns results. -/
theorem Inv.step_work (h : r.Inv) (htotal : backend.Total) (hwork : r.hasWork = true)
    (hperStep : 0 < r.scheduler.config.maxTokensPerStep) (hfed : ¬ r.Starved)
    {results : List StepResult} (hstep : r.step backend sampling = some (.ok results, r')) :
    r'.work < r.work := by
  obtain ⟨hinv, -, htables⟩ := h.scheduleStep
  obtain ⟨hrunning, hnodup⟩ := h.scheduleStep_running
  obtain ⟨hle, hlt | ⟨hsame, hdecode, hclosed⟩⟩ := h.scheduleStep_work hperStep
  · exact lt_of_le_of_lt (hinv.processBatch_work hrunning hnodup hstep) hlt
  -- nobody was admitted and all running requests decode: one of them is not blocked
  obtain ⟨entries, -, -, hpool, hconfig⟩ := h.admitted_spec
  have hbusy : r.scheduler.running ≠ [] := by
    intro hempty
    rcases hclosed with hwaiting | hfull
    · have hitems : heap.items r.scheduler.waiting = [] := map_eq_nil_iff.1 hwaiting
      unfold hasWork Scheduler.hasWork at hwork
      rw [hempty, hitems] at hwork
      cases hwork
    · have := r.scheduler.config.maxBatchSize_pos
      rw [hempty, length_nil] at hfull
      omega
  obtain ⟨req, hreq, hfree⟩ : ∃ req ∈ r.scheduler.running.take
      r.scheduler.config.maxTokensPerStep, ¬ Blocked r.scheduler.config r.blockManager req := by
    by_contra hnone
    push Not at hnone
    exact hfed ⟨hbusy, hdecode, hclosed, hnone⟩
  obtain ⟨sr, rest, hbatch, hsr⟩ : ∃ sr rest, (buildSlots r.admitted.1.config ⟨0, 0⟩
      r.scheduler.running r.admitted.2).1.filterMap Slot.scheduled? = sr :: rest ∧
        sr.state = .decode := by
    rw [hconfig, hpool]
    exact buildSlots_unblocked ⟨0, 0⟩ hdecode hreq hfree
  have hrequests : r.scheduleStep.1.requests = sr :: rest := by
    rw [h.scheduleStep_eq]
    show (buildSlots r.admitted.1.config ⟨0, 0⟩ r.admitted.1.running r.admitted.2).1.filterMap
      Slot.scheduled? = sr :: rest
    rw [hsame]
    exact hbatch
  rw [hrequests] at hrunning hnodup htables
  unfold InferenceRunner.step at hstep
  rw [hrequests, InferenceRunner.processBatch] at hstep
  rw [map_cons, nodup_cons] at hnodup
  have hrid := hrunning sr mem_cons_self
  split at hstep
  · cases hstep
  · cases hstep
  · rename_i first r₁ hfirst
    obtain ⟨⟨result', r₂⟩, hrest, hpair⟩ := Option.map_eq_some_iff.1 hstep
    obtain ⟨-, rfl⟩ := Prod.mk.inj hpair
    have hp := hinv.processRequest hrid hfirst
    have hspent := (hinv.processRequest_work hrid hfirst).2 htotal hsr
      (htables sr mem_cons_self).2 first rfl
    have hlater := hp.inv.processBatch_work (hp.still_running hrunning hnodup.1) hnodup.2 hrest
    exact lt_of_le_of_lt hlater (lt_of_lt_of_le hspent hle)

/-! ## Panics -/

/-- If its token finishes the request, its blocks fit the prefix cache. -/
def RequestFits (backend : Backend ω) (sampling : SamplerConfig) (r : InferenceRunner heap ω)
    (sr : ScheduledRequest) : Prop :=
  ∀ allLogits r₁ tokenId r₂, r.forward backend sr = some (.ok allLogits, r₁) →
    r₁.sampleToken backend sampling sr allLogits = (some tokenId, r₂) →
    ∀ request ∈ r₂.scheduler.running, request.requestId = sr.requestId →
      (Scheduler.recordToken request tokenId).2 = true →
      r₂.radixCache.Fits (request.promptTokens ++ (request.outputTokens ++ [tokenId]))
        (r₂.blockManager.table sr.requestId)

/-- Every request that the batch finishes fits the prefix cache; else the step panics. -/
def BatchFits (backend : Backend ω) (sampling : SamplerConfig) :
    List ScheduledRequest → InferenceRunner heap ω → Prop
  | [], _ => True
  | sr :: rest, r => r.RequestFits backend sampling sr ∧
      ∀ result r', r.processRequest backend sampling sr = some (.ok result, r') →
        BatchFits backend sampling rest r'

/-- Every request that finishes in the step fits the prefix cache. -/
def StepFits (backend : Backend ω) (sampling : SamplerConfig) (r : InferenceRunner heap ω) :
    Prop := r.scheduleStep.2.BatchFits backend sampling r.scheduleStep.1.requests

theorem Inv.recordToken_isSome (h : r.Inv) (hrid : rid ∈ r.runningIds) :
    (r.recordToken backend rid tokenId).isSome = true ↔
      ∀ request ∈ r.scheduler.running, request.requestId = rid →
        (Scheduler.recordToken request tokenId).2 = true →
        r.radixCache.Fits (request.promptTokens ++ (request.outputTokens ++ [tokenId]))
          (r.blockManager.table rid) := by
  obtain ⟨request, hmem, hid, hcase⟩ := @recordToken_cases _ _ r backend rid tokenId hrid
  have honly : ∀ req ∈ r.scheduler.running, req.requestId = rid → req = request :=
    fun req hreq hsame => inj_on_of_nodup_map h.runningIds_nodup hreq hmem
      (hsame.trans hid.symm)
  rcases hcase with ⟨hmore, heq⟩ | ⟨hlast, heq⟩
  · rw [heq]
    refine ⟨fun _ req hreq hsame hlast => ?_, fun _ => rfl⟩
    rw [honly req hreq hsame, hmore] at hlast
    cases hlast
  · rw [heq, Option.isSome_map, RadixCache.insert_isSome]
    constructor
    · intro hfits req hreq hsame _
      rw [honly req hreq hsame]
      exact hfits
    · intro hall
      exact hall request hmem hid hlast

theorem Inv.processRequest_isSome (h : r.Inv) (htotal : backend.Total)
    (hrid : req.requestId ∈ r.runningIds) (hne : req.inputIds ≠ []) :
    (r.processRequest backend sampling req).isSome = true ↔ r.RequestFits backend sampling req := by
  obtain ⟨⟨result, r₁⟩, hforward⟩ := forward_isSome htotal r req
  unfold InferenceRunner.processRequest RequestFits
  rw [isEmpty_eq_false_iff.2 hne, if_neg (by decide), hforward]
  have hf := forward_spec h hrid hforward
  cases result with
  | error => exact ⟨fun _ allLogits r₁ tokenId r₂ heq => (by cases heq), fun _ => rfl⟩
  | ok allLogits =>
    have hsampled := sampleToken_forwarded (hf.inv h) backend sampling req allLogits
    dsimp only
    generalize hsample : r₁.sampleToken backend sampling req allLogits = sampled at hsampled
    obtain ⟨token, r₂⟩ := sampled
    have hrid' : req.requestId ∈ r₂.runningIds := by
      rw [hsampled.runningIds_eq, hf.runningIds_eq]
      exact hrid
    cases token with
    | none =>
      refine ⟨fun _ logits r₁' tokenId r₂' heq hsome => ?_, fun _ => rfl⟩
      cases heq
      rw [hsample] at hsome
      cases hsome
    | some tokenId =>
      dsimp only
      rw [Option.isSome_map, (hsampled.inv (hf.inv h)).recordToken_isSome hrid']
      constructor
      · intro hfits logits r₁' tokenId' r₂' heq hsome
        cases heq
        rw [hsample] at hsome
        cases hsome
        exact hfits
      · intro hall
        exact hall allLogits r₁ tokenId r₂ rfl hsample

theorem Inv.processBatch_isSome {batch : List ScheduledRequest} (h : r.Inv)
    (htotal : backend.Total) (hrunning : ∀ sr ∈ batch, sr.requestId ∈ r.runningIds)
    (hnodup : (batch.map ScheduledRequest.requestId).Nodup) (hne : ∀ sr ∈ batch, sr.inputIds ≠ []) :
    (InferenceRunner.processBatch backend sampling batch r).isSome = true ↔
      r.BatchFits backend sampling batch := by
  induction batch generalizing r with
  | nil => exact ⟨fun _ => trivial, fun _ => rfl⟩
  | cons sr rest ih =>
    rw [map_cons, nodup_cons] at hnodup
    have hrid := hrunning sr mem_cons_self
    have hfirst : (r.processRequest backend sampling sr).isSome = true ↔ _ :=
      h.processRequest_isSome htotal hrid (hne sr mem_cons_self)
    rw [InferenceRunner.processBatch, BatchFits, ← hfirst]
    cases hprocess : r.processRequest backend sampling sr with
    | none => exact ⟨fun hsome => (by cases hsome), fun hfits => (by cases hfits.1)⟩
    | some out =>
      obtain ⟨result, r₁⟩ := out
      cases result with
      | error => exact ⟨fun _ => ⟨rfl, fun result r' heq => (by cases heq)⟩, fun _ => rfl⟩
      | ok first =>
        have hp := h.processRequest hrid hprocess
        have hrest := ih hp.inv (hp.still_running hrunning hnodup.1) hnodup.2
          fun sr' hsr' => hne sr' (mem_cons_of_mem sr hsr')
        dsimp only
        rw [Option.isSome_map, hrest]
        constructor
        · intro hfits
          refine ⟨rfl, fun result r' heq => ?_⟩
          cases heq
          exact hfits
        · intro hfits
          exact hfits.2 first r₁ rfl

theorem Inv.step_isSome (h : r.Inv) (htotal : backend.Total) :
    (r.step backend sampling).isSome = true ↔ r.StepFits backend sampling := by
  obtain ⟨hinv, -, htables⟩ := h.scheduleStep
  obtain ⟨hrunning, hnodup⟩ := h.scheduleStep_running
  exact hinv.processBatch_isSome htotal hrunning hnodup fun sr hsr => (htables sr hsr).2

end InferenceRunner

end CompileForge.Runtime
