/-
  What a step of the runner records, and which requests it leaves live.
-/

import CompileForge.Runtime.Engine.RunnerStep

namespace CompileForge.Runtime

open Lib List

variable {heap : MaxHeap QueueEntry QueueEntry.rank} {ω : Type}

namespace InferenceRunner

variable {r r' : InferenceRunner heap ω} {backend : Backend ω} {sampling : SamplerConfig}
  {req : ScheduledRequest} {rid : String} {tokenId : UInt32}

/-- What one request of a batch leaves of the queue and of the running requests. -/
structure Kept (r r' : InferenceRunner heap ω) (rid : String)
    (result : Except String (Option StepResult)) : Prop where
  waiting : r'.scheduler.waiting = r.scheduler.waiting
  counter : r'.scheduler.requestCounter = r.scheduler.requestCounter
  stays : rid ∈ r.runningIds → (∀ res, result = .ok (some res) → res.finished = false) →
    rid ∈ r'.runningIds

theorem Forwarded.kept (hf : Forwarded r r') (result : Except String (Option StepResult)) :
    Kept r r' rid result where
  waiting := by rw [hf.eq]
  counter := by rw [hf.eq]
  stays := fun hrid _ => by
    rw [hf.runningIds_eq]
    exact hrid

variable {result : Except String (Option StepResult)} {results : List StepResult}

theorem Forwarded.andKept {r₁ r₂ : InferenceRunner heap ω} (hf : Forwarded r r₁)
    (hk : Kept r₁ r₂ rid result) :
    Kept r r₂ rid result where
  waiting := by rw [hk.waiting, hf.eq]
  counter := by rw [hk.counter, hf.eq]
  stays := fun hrid => hk.stays (by rw [hf.runningIds_eq]; exact hrid)

theorem recordToken_kept (hrid : rid ∈ r.runningIds) {res : StepResult}
    (hout : r.recordToken backend rid tokenId = some (res, r')) :
    Kept r r' rid (.ok (some res)) := by
  obtain ⟨request, hmem, hid, ⟨_, heq⟩ | ⟨_, heq⟩⟩ := recordToken_cases hrid
  · rw [heq] at hout
    cases hout
    refine ⟨rfl, rfl, fun hmem _ => ?_⟩
    show rid ∈ (r.recorded rid tokenId).map Request.requestId
    rw [runningIds_recorded]
    exact hmem
  · rw [heq] at hout
    obtain ⟨inserted, _, hpair⟩ := Option.map_eq_some_iff.1 hout
    cases hpair
    -- the request leaves, and its result says so
    refine ⟨rfl, rfl, fun _ hmore => ?_⟩
    have hfalse := hmore _ rfl
    cases hfalse

theorem Inv.processRequest_kept (h : r.Inv) (hrid : req.requestId ∈ r.runningIds)
    (hout : r.processRequest backend sampling req = some (result, r')) :
    Kept r r' req.requestId result ∧
      ∀ res, result = .ok (some res) → res.requestId = req.requestId ∧ req.state ≠ .prefill := by
  have hname := (h.processRequest hrid hout).result_eq
  cases processRequest_outcome hout with
  | skipped hempty => exact ⟨⟨rfl, rfl, fun hmem _ => hmem⟩, fun res heq => by cases heq⟩
  | failed hforward =>
    exact ⟨(forward_spec h hrid hforward).kept _, fun res heq => by cases heq⟩
  | unsampled hforward hsample =>
    exact ⟨(forwarded_sampled h hrid hforward hsample).kept _, fun res heq => by cases heq⟩
  | sampled hforward hsample hrecord =>
    have hf := forwarded_sampled h hrid hforward hsample
    exact ⟨hf.andKept (recordToken_kept (hf.runningIds_eq ▸ hrid) hrecord),
      fun res heq => ⟨(hname res heq).1, state_of_sampled hsample⟩⟩

/-! ## A batch -/

/-- The results of the requests of a batch, up to the first that fails. -/
def recordedBatch (backend : Backend ω) (sampling : SamplerConfig) :
    List ScheduledRequest → InferenceRunner heap ω → List StepResult
  | [], _ => []
  | req :: rest, r =>
    match r.processRequest backend sampling req with
    | some (.ok result, r) => result.toList ++ recordedBatch backend sampling rest r
    | _ => []

/-- The tokens that a step records, also if it fails behind them. -/
def recordedStep (backend : Backend ω) (sampling : SamplerConfig) (r : InferenceRunner heap ω) :
    List StepResult :=
  recordedBatch backend sampling r.scheduleStep.1.requests r.scheduleStep.2

/-- A request of the batch records at most one token, an intermediate prefill chunk none; a live
    request leaves only with a result that says so. -/
structure Recorded (r r' : InferenceRunner heap ω) (batch : List ScheduledRequest)
    (results : List StepResult) : Prop where
  waiting : r'.scheduler.waiting = r.scheduler.waiting
  counter : r'.scheduler.requestCounter = r.scheduler.requestCounter
  inOrder : (results.map StepResult.requestId).Sublist (batch.map ScheduledRequest.requestId)
  source : ∀ res ∈ results, ∃ sr ∈ batch, sr.requestId = res.requestId ∧ sr.state ≠ .prefill
  stays : ∀ id ∈ r.runningIds, (∀ res ∈ results, res.requestId = id → res.finished = false) →
    id ∈ r'.runningIds

theorem Inv.processBatch_recorded {batch : List ScheduledRequest} (h : r.Inv)
    (hrunning : ∀ sr ∈ batch, sr.requestId ∈ r.runningIds)
    (hnodup : (batch.map ScheduledRequest.requestId).Nodup)
    (hout : InferenceRunner.processBatch backend sampling batch r = some (.ok results, r')) :
    Recorded r r' batch results ∧ recordedBatch backend sampling batch r = results := by
  induction batch generalizing r results with
  | nil =>
    cases hout
    exact ⟨⟨rfl, rfl, .slnil, nofun, fun id hid _ => hid⟩, rfl⟩
  | cons sr rest ih =>
    rw [InferenceRunner.processBatch] at hout
    rw [map_cons, nodup_cons] at hnodup
    have hrid := hrunning sr mem_cons_self
    split at hout
    · cases hout
    · cases hout
    · rename_i first r₁ hfirst
      have hp := h.processRequest hrid hfirst
      obtain ⟨hkept, hname⟩ := h.processRequest_kept hrid hfirst
      obtain ⟨⟨result', r₂⟩, hrest, hpair⟩ := Option.map_eq_some_iff.1 hout
      cases result' with
      | error => cases hpair
      | ok =>
        cases hpair
        obtain ⟨hr, hlog⟩ := ih hp.inv (hp.still_running hrunning hnodup.1) hnodup.2 hrest
        refine ⟨⟨hr.waiting.trans hkept.waiting, hr.counter.trans hkept.counter, ?_, ?_, ?_⟩, ?_⟩
        · rw [map_append, map_cons]
          cases first with
          | none => exact hr.inOrder.cons _
          | some res =>
            rw [← (hname res rfl).1]
            exact hr.inOrder.cons_cons _
        · intro res hres
          rcases mem_append.1 hres with hhere | hlater
          · obtain ⟨hid, hstate⟩ := hname res (congrArg _ (Option.mem_toList.1 hhere))
            exact ⟨sr, mem_cons_self, hid.symm, hstate⟩
          · obtain ⟨sr', hmem, hsr'⟩ := hr.source res hlater
            exact ⟨sr', mem_cons_of_mem sr hmem, hsr'⟩
        · intro id hid hmore
          refine hr.stays id ?_ fun res hres => hmore res (mem_append_right _ hres)
          by_cases hsame : id = sr.requestId
          · subst hsame
            refine hkept.stays hid fun res hres => ?_
            have hsome : first = some res := Except.ok.inj hres
            refine hmore res (mem_append_left _ (Option.mem_toList.2 hsome)) ?_
            exact (hname res hres).1
          · exact hp.others id hid hsame
        · rw [recordedBatch, hfirst]
          show first.toList ++ recordedBatch backend sampling rest r₁ = _
          rw [hlog]

/-! ## A step -/

def liveIds (r : InferenceRunner heap ω) : List String := r.liveRequests.map Request.requestId

theorem hasWork_of_live (h : rid ∈ r.liveIds) : r.hasWork = true := by
  obtain ⟨req, hreq, _⟩ := mem_map.1 h
  unfold hasWork Scheduler.hasWork
  rw [Bool.or_eq_true]
  rcases mem_append.1 hreq with hrun | hwait
  · refine .inr ?_
    rw [Bool.not_eq_true', isEmpty_eq_false_iff]
    exact ne_nil_of_mem hrun
  · obtain ⟨entry, hentry, _⟩ := mem_map.1 hwait
    refine .inl ?_
    rw [Bool.not_eq_true', isEmpty_eq_false_iff]
    exact ne_nil_of_mem hentry

theorem Inv.scheduleStep_live (h : r.Inv) : (r.scheduleStep.2.liveIds).Perm r.liveIds := by
  obtain ⟨live, hlive, hids, _, _⟩ := h.admitted_live
  obtain ⟨hbefore, _, hslots⟩ := h.built_spec
  have hafter : (r.built.1.map Slot.after).map Request.requestId =
      r.admitted.1.running.map Request.requestId := by
    rw [← hbefore, map_map, map_map]
    exact map_congr_left fun slot hslot => (hslots slot hslot).2.1
  rw [h.scheduleStep_eq]
  show ((r.built.1.map Slot.after ++ (heap.items r.admitted.1.waiting).map
    QueueEntry.request).map Request.requestId).Perm _
  rw [map_append, hafter, ← map_append, hlive]
  exact hids

/-- What a step that succeeds records, and which requests it leaves live. -/
structure Stepped (r r' : InferenceRunner heap ω) (results : List StepResult) : Prop where
  inv : r'.Inv
  counter : r'.scheduler.requestCounter = r.scheduler.requestCounter
  distinct : (results.map StepResult.requestId).Nodup
  source : ∀ res ∈ results, ∃ sr ∈ r.scheduleStep.1.requests,
    sr.requestId = res.requestId ∧ sr.state ≠ .prefill
  stays : ∀ id ∈ r.liveIds, (∀ res ∈ results, res.requestId = id → res.finished = false) →
    id ∈ r'.liveIds

theorem Inv.stepped (h : r.Inv) (hout : r.step backend sampling = some (.ok results, r')) :
    Stepped r r' results ∧ r.recordedStep backend sampling = results := by
  obtain ⟨hrunning, hnodup⟩ := h.scheduleStep_running
  obtain ⟨hrecorded, hlog⟩ := h.scheduleStep.1.processBatch_recorded hrunning hnodup hout
  refine ⟨⟨(h.step hout).inv, hrecorded.counter.trans h.requestCounter_scheduleStep,
    hrecorded.inOrder.nodup hnodup, hrecorded.source, fun id hid hmore => ?_⟩, hlog⟩
  have hlive := h.scheduleStep_live.mem_iff.2 hid
  rw [liveIds, liveRequests, map_append, mem_append] at hlive ⊢
  rcases hlive with hrun | hwait
  · exact .inl (hrecorded.stays id hrun hmore)
  · refine .inr ?_
    rw [waitingRequests, hrecorded.waiting]
    exact hwait

end InferenceRunner

end CompileForge.Runtime
