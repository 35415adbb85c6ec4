/-
  The log of a runner: the forward passes that returned, and the tokens recorded
  behind them.  Scheduling moves the cursors of a whole batch before its first request runs.
-/

import CompileForge.Runtime.Engine.PrefillCoverage
import CompileForge.Runtime.Engine.RunnerRelease
import CompileForge.Runtime.Engine.StepRecord

namespace CompileForge.Runtime

open Lib List

/-! ## The log of a runner -/

/-- A forward pass that returned, or a token that was recorded behind one. -/
inductive ServedEntry where
  | executed (e : Emission)
  | recorded (res : StepResult)
deriving DecidableEq, Repr

variable (rid : String)

/-- The prompt tokens that a scheduled chunk feeds for a request. -/
def Emission.chunkFor (e : Emission) : List UInt32 :=
  if e.phase = .prefill ∧ e.request.requestId = rid then e.request.inputIds else []

def chunksFor (es : List Emission) : List UInt32 := es.flatMap (·.chunkFor rid)

namespace ServedEntry

def chunkFor : ServedEntry → List UInt32
  | .executed e => e.chunkFor rid
  | .recorded _ => []

def result? : ServedEntry → Option StepResult
  | .executed _ => none
  | .recorded res => some res

def requestId : ServedEntry → String
  | .executed e => e.request.requestId
  | .recorded res => res.requestId

end ServedEntry

/-- The prompt tokens that the executed chunks of a request have fed, in order. -/
def fedFor (log : List ServedEntry) : List UInt32 := log.flatMap (·.chunkFor rid)

def resultsOf (log : List ServedEntry) : List StepResult := log.filterMap ServedEntry.result?

/-- The tokens of a request among the results. -/
def tokensFor (results : List StepResult) : List UInt32 :=
  (results.filter fun res => res.requestId = rid).map StepResult.tokenId

/-- Before a token of a request is recorded, its whole prompt was fed. -/
def WholeBefore (prompts : List (String × List UInt32)) (log : List ServedEntry) : Prop :=
  ∀ pre res post, log = pre ++ .recorded res :: post →
    ∀ prompt, (res.requestId, prompt) ∈ prompts → fedFor res.requestId pre = prompt

section Log

variable {rid : String} {log : List ServedEntry} {es : List Emission} {e : Emission}
  {prompts : List (String × List UInt32)}

theorem Emission.chunkFor_of_ne (h : e.request.requestId ≠ rid) : e.chunkFor rid = [] :=
  if_neg fun hboth => h hboth.2

theorem chunksFor_of_notMem (h : rid ∉ es.map fun e => e.request.requestId) :
    chunksFor rid es = [] := by
  refine flatMap_eq_nil_iff.2 fun e he => Emission.chunkFor_of_ne fun heq => h ?_
  exact heq ▸ mem_map_of_mem he

theorem chunksFor_of_decode (h : ∀ e ∈ es, e.phase ≠ .prefill) : chunksFor rid es = [] :=
  flatMap_eq_nil_iff.2 fun e he => if_neg fun hboth => h e he hboth.1

theorem fedFor_append (rid : String) (log log' : List ServedEntry) :
    fedFor rid (log ++ log') = fedFor rid log ++ fedFor rid log' := List.flatMap_append ..

variable (rid log e)

theorem fedFor_executed : fedFor rid (log ++ [.executed e]) = fedFor rid log ++ e.chunkFor rid := by
  rw [fedFor_append]
  simp [fedFor, ServedEntry.chunkFor]

theorem fedFor_recorded (res : StepResult) :
    fedFor rid (log ++ [.recorded res]) = fedFor rid log := by
  rw [fedFor_append]
  simp [fedFor, ServedEntry.chunkFor]

variable {rid log e}

theorem resultsOf_append (log log' : List ServedEntry) :
    resultsOf (log ++ log') = resultsOf log ++ resultsOf log' := List.filterMap_append ..

theorem tokensFor_append (rid : String) (results results' : List StepResult) :
    tokensFor rid (results ++ results') = tokensFor rid results ++ tokensFor rid results' := by
  rw [tokensFor, filter_append, map_append]
  rfl

theorem of_notLogged (h : ∀ entry ∈ log, entry.requestId ≠ rid) :
    fedFor rid log = [] ∧ tokensFor rid (resultsOf log) = [] := by
  constructor
  · refine flatMap_eq_nil_iff.2 fun entry hentry => ?_
    cases entry with
    | executed => exact Emission.chunkFor_of_ne (h _ hentry)
    | recorded => rfl
  · rw [tokensFor, map_eq_nil_iff, filter_eq_nil_iff]
    intro res hres
    obtain ⟨entry, hentry, heq⟩ := mem_filterMap.1 hres
    cases entry with
    | executed => cases heq
    | recorded =>
      cases heq
      exact fun hid => h _ hentry (of_decide_eq_true hid)

theorem WholeBefore.snoc (h : WholeBefore prompts log) {x : ServedEntry}
    (hx : ∀ res, x = .recorded res → ∀ prompt, (res.requestId, prompt) ∈ prompts →
      fedFor res.requestId log = prompt) : WholeBefore prompts (log ++ [x]) := by
  intro pre res post heq
  rcases snoc_eq_append_cons heq with ⟨rfl, hlast, -⟩ | ⟨post', -, hlog⟩
  · exact hx res hlast
  · exact h pre res post' hlog

end Log

section Turn

variable {cfg : SchedulerConfig} {budget : Budget} {req : Request} {bm : BlockManager}

/-- Behind a request in state `Decode` lies its whole prompt. -/
def Request.Complete (req : Request) : Prop :=
  req.state ≠ .prefill → req.promptTokens.length ≤ req.prefillPos

/-- A turn feeds what it moves the cursor over, and a sampled request is complete. -/
structure Slot.Feeds (slot : Slot) : Prop where
  cursor : slot.before.promptTokens.take slot.before.prefillPos ++
      chunksFor slot.before.requestId slot.emitted =
    slot.after.promptTokens.take slot.after.prefillPos
  outputs : slot.after.outputTokens = slot.before.outputTokens
  complete : slot.after.Complete
  emitted : ∀ e ∈ slot.emitted, e.request.requestId = slot.before.requestId ∧
    (e.request.state ≠ .prefill → slot.after.promptTokens.length ≤ slot.after.prefillPos)

theorem Slot.feeds_skipped (hcomplete : req.Complete) (why : SkipReason) :
    Slot.Feeds ⟨req, req, .skipped why⟩ :=
  ⟨append_nil _, rfl, hcomplete, nofun⟩

theorem Slot.feeds_decode (hcomplete : req.Complete) (hstate : req.state = .decode)
    (useKvCache : Bool) (blocks : List Nat) :
    Slot.Feeds ⟨req, req, .scheduled (decodeRequest useKvCache req blocks)⟩ := by
  have hne : req.state ≠ .prefill := by simp [hstate]
  refine ⟨?_, rfl, hcomplete, fun e he => ?_⟩
  · rw [chunksFor_of_decode, append_nil]
    intro e he
    rw [mem_singleton.1 he]
    exact hne
  · rw [mem_singleton.1 he]
    refine ⟨?_, fun _ => hcomplete hne⟩
    cases useKvCache <;> rfl

theorem Turned.feeds {turn : Turn} (h : Turned cfg budget req bm turn)
    (hfits : PromptFits cfg budget req bm) (hcomplete : req.Complete) : turn.slot.Feeds := by
  cases h with
  | exhausted hstate hrest =>
    -- nothing is left of the prompt
    refine ⟨append_nil _, rfl, fun _ => ?_, nofun⟩
    exact Nat.sub_eq_zero_iff_le.1 hrest
  | promptUnreserved hstate hrest hbudget hoom =>
    have hok := hfits hstate hrest hbudget
    rw [hoom] at hok
    cases hok
  | chunk hstate hrest hbudget hreserve hgrows hcovers =>
    have hsettled : (req.advance (chunkLen cfg budget req)).settlePrefill.Complete := by
      intro hne
      rw [state_settlePrefill] at hne
      rw [promptTokens_settlePrefill, prefillPos_settlePrefill]
      split at hne
      · assumption
      · exact absurd hstate hne
    refine ⟨?_, outputTokens_settlePrefill _, hsettled, fun e he => ?_⟩
    · simp only [Slot.emitted, Slot.scheduled?, Option.map_some, Option.toList_some, chunksFor,
        flatMap_singleton, Emission.chunkFor, hstate, prefillRequest, and_self, if_true,
        promptTokens_settlePrefill, prefillPos_settlePrefill, Request.advance, slice]
      exact take_add.symm
    · rw [mem_singleton.1 he]
      exact ⟨rfl, fun hne => hsettled hne⟩
  | decodeCached hstate => exact Slot.feeds_decode hcomplete hstate true _
  | decodeFull hstate => exact Slot.feeds_decode hcomplete hstate false _
  | idle => exact Slot.feeds_skipped hcomplete _
  | noPrefillBudget => exact Slot.feeds_skipped hcomplete _
  | noDecodeBudget => exact Slot.feeds_skipped hcomplete _
  | tableUngrown => exact Slot.feeds_skipped hcomplete _
  | noTable => exact Slot.feeds_skipped hcomplete _

theorem Turned.resumes {turn : Turn} (h : Turned cfg budget req bm turn) :
    ∀ e ∈ turn.slot.emitted, e.phase = .prefill →
      e.request.requestId = req.requestId ∧ req.prefillPos ≤ req.promptTokens.length ∧
        e.request.inputIds <+: req.promptTokens.drop req.prefillPos := by
  intro e he hphase
  cases h with
  | chunk hstate hrest =>
    rw [mem_singleton.1 he]
    refine ⟨rfl, (tokensRemaining_ne_zero_iff.1 hrest).le, ?_⟩
    simp only [prefillRequest, slice, Request.advance]
    exact take_prefix ..
  | decodeCached hstate =>
    rw [mem_singleton.1 he] at hphase
    exact absurd (hstate.symm.trans hphase) (by decide)
  | decodeFull hstate =>
    rw [mem_singleton.1 he] at hphase
    exact absurd (hstate.symm.trans hphase) (by decide)
  | _ => cases he

theorem chunksFor_flatMap {slots : List Slot}
    (hids : ∀ slot ∈ slots, ∀ e ∈ slot.emitted, e.request.requestId = slot.before.requestId)
    (hnodup : (slots.map fun slot => slot.before.requestId).Nodup) {slot : Slot}
    (hslot : slot ∈ slots) :
    chunksFor slot.before.requestId (slots.flatMap Slot.emitted) =
      chunksFor slot.before.requestId slot.emitted := by
  induction slots with
  | nil => cases hslot
  | cons head rest ih =>
    rw [map_cons, nodup_cons] at hnodup
    have happend : ∀ id, chunksFor id ((head :: rest).flatMap Slot.emitted) =
        chunksFor id head.emitted ++ chunksFor id (rest.flatMap Slot.emitted) :=
      fun id => flatMap_append ..
    rw [happend]
    rcases mem_cons.1 hslot with rfl | hrest
    · have hlater : chunksFor slot.before.requestId (rest.flatMap Slot.emitted) = [] := by
        refine chunksFor_of_notMem fun hmem => ?_
        obtain ⟨e, he, hid⟩ := mem_map.1 hmem
        obtain ⟨other, hother, hemitted⟩ := mem_flatMap.1 he
        rw [hids other (mem_cons_of_mem _ hother) e hemitted] at hid
        exact hnodup.1 (hid ▸ mem_map_of_mem hother)
      rw [hlater, append_nil]
    · have hearlier : chunksFor slot.before.requestId head.emitted = [] := by
        refine chunksFor_of_notMem fun hmem => ?_
        obtain ⟨e, he, hid⟩ := mem_map.1 hmem
        rw [hids head mem_cons_self e he] at hid
        exact hnodup.1 (hid ▸ mem_map_of_mem hrest)
      rw [ih (fun other hother => hids other (mem_cons_of_mem _ hother)) hnodup.2 hrest,
        hearlier, nil_append]

end Turn

/-! ## One step -/

variable {heap : MaxHeap QueueEntry QueueEntry.rank} {ω : Type}

namespace InferenceRunner

variable {r r' : InferenceRunner heap ω} {backend : Backend ω} {sampling : SamplerConfig}
  {req : ScheduledRequest} {rid : String} {tokenId : UInt32}
  {prompts : List (String × List UInt32)} {log : List ServedEntry} {pending : List Emission}
  {e : Emission}

/-- The batch of the next step, each request with the state it was in before. -/
def emissions (r : InferenceRunner heap ω) : List Emission := r.built.1.flatMap Slot.emitted

/-- What the loop of a step records, and the batch from the request that fails on. -/
def servedBatch (backend : Backend ω) (sampling : SamplerConfig) :
    List Emission → InferenceRunner heap ω → List ServedEntry × List Emission
  | [], _ => ([], [])
  | e :: rest, r =>
    match r.processRequest backend sampling e.request with
    | some (.ok result, r) =>
      let served := servedBatch backend sampling rest r
      (.executed e :: (result.toList.map ServedEntry.recorded ++ served.1), served.2)
    | _ => ([], e :: rest)

/-- What a step adds to the log, and the part of the batch from the request that fails on. -/
def servedStep (backend : Backend ω) (sampling : SamplerConfig) (r : InferenceRunner heap ω) :
    List ServedEntry × List Emission :=
  servedBatch backend sampling r.emissions r.scheduleStep.2

theorem Inv.requests_eq (h : r.Inv) :
    r.scheduleStep.1.requests = r.emissions.map Emission.request := by
  rw [h.scheduleStep_eq, emissions, map_flatMap]
  show r.built.1.filterMap Slot.scheduled? = _
  rw [filterMap_eq_flatMap_toList]
  refine flatMap_congr fun slot _ => ?_
  unfold Slot.emitted
  cases slot.scheduled? <;> rfl

theorem recordToken_running (hnodup : r.runningIds.Nodup) (hrid : rid ∈ r.runningIds)
    {res : StepResult} (hout : r.recordToken backend rid tokenId = some (res, r')) :
    res.requestId = rid ∧ res.tokenId = tokenId ∧ ∀ req ∈ r'.scheduler.running,
      (req ∈ r.scheduler.running ∧ req.requestId ≠ rid) ∨
      ∃ old ∈ r.scheduler.running, old.requestId = rid ∧
        req = (Scheduler.recordToken old tokenId).1 := by
  obtain ⟨request, hmem, hid, ⟨-, heq⟩ | ⟨-, heq⟩⟩ := recordToken_cases hrid
  · rw [heq] at hout
    cases hout
    exact ⟨rfl, rfl, fun req hreq => Driver.mem_updateFirst_key hnodup hreq⟩
  · rw [heq] at hout
    obtain ⟨inserted, -, hpair⟩ := Option.map_eq_some_iff.1 hout
    cases hpair
    refine ⟨rfl, rfl, fun req hreq => .inl ⟨mem_of_mem_eraseP hreq, fun hname => ?_⟩⟩
    exact key_notMem_eraseP hnodup (hname ▸ mem_map_of_mem hreq)

theorem Inv.processRequest_running (h : r.Inv) (hrid : req.requestId ∈ r.runningIds)
    {result : Except String (Option StepResult)}
    (hout : r.processRequest backend sampling req = some (result, r')) :
    (result.toOption.getD none = none ∧ r'.scheduler.running = r.scheduler.running) ∨
    ∃ res, result = .ok (some res) ∧ res.requestId = req.requestId ∧ req.state ≠ .prefill ∧
      ∀ req' ∈ r'.scheduler.running, (req' ∈ r.scheduler.running ∧ req'.requestId ≠ req.requestId) ∨
        ∃ old ∈ r.scheduler.running, old.requestId = req.requestId ∧
          req' = (Scheduler.recordToken old res.tokenId).1 := by
  cases processRequest_outcome hout with
  | skipped hempty => exact .inl ⟨rfl, rfl⟩
  | failed hforward =>
    exact .inl ⟨rfl, congrArg _ (forward_spec h hrid hforward).scheduler_eq⟩
  | unsampled hforward hsample =>
    exact .inl ⟨rfl, congrArg _ (forwarded_sampled h hrid hforward hsample).scheduler_eq⟩
  | sampled hforward hsample hrecord =>
    have hf := forwarded_sampled h hrid hforward hsample
    obtain ⟨hname, htoken, hreqs⟩ := recordToken_running
      (hf.runningIds_eq ▸ h.runningIds_nodup) (hf.runningIds_eq ▸ hrid) hrecord
    rw [hf.scheduler_eq] at hreqs
    exact .inr ⟨_, rfl, hname, state_of_sampled hsample, htoken ▸ hreqs⟩

/-! ## What the log says -/

/-- The log accounts for the requests, with the part `pending` of the batch still to come. -/
structure Logged (prompts : List (String × List UInt32)) (log : List ServedEntry)
    (pending : List Emission) (r : InferenceRunner heap ω) : Prop where
  inv : r.Inv
  keys : (prompts.map Prod.fst).Nodup
  numbered : ∀ entry ∈ prompts, ∃ k ≤ r.scheduler.requestCounter, entry.1 = s!"req_{k}"
  known : ∀ req ∈ r.liveRequests, (req.requestId, req.promptTokens) ∈ prompts
  named : ∀ entry ∈ log, ∃ k ≤ r.scheduler.requestCounter, entry.requestId = s!"req_{k}"
  fed : ∀ req ∈ r.liveRequests, fedFor req.requestId log ++ chunksFor req.requestId pending =
    req.promptTokens.take req.prefillPos
  outputs : ∀ req ∈ r.liveRequests, tokensFor req.requestId (resultsOf log) = req.outputTokens
  complete : ∀ req ∈ r.scheduler.running, req.Complete
  whole : WholeBefore prompts log
  running : ∀ e ∈ pending, e.request.requestId ∈ r.runningIds
  distinct : (pending.map fun e => e.request.requestId).Nodup
  behind : ∀ e ∈ pending, e.request.state ≠ .prefill → ∀ req ∈ r.scheduler.running,
    req.requestId = e.request.requestId → req.promptTokens.length ≤ req.prefillPos

theorem Logged.sameRequests (h : Logged prompts log pending r) (hinv : r'.Inv)
    (hrunning : r'.scheduler.running = r.scheduler.running)
    (hwaiting : r'.scheduler.waiting = r.scheduler.waiting)
    (hcounter : r'.scheduler.requestCounter = r.scheduler.requestCounter) :
    Logged prompts log pending r' := by
  have hlive : r'.liveRequests = r.liveRequests := by
    rw [liveRequests, waitingRequests, hrunning, hwaiting]
    rfl
  have hids : r'.runningIds = r.runningIds := by
    rw [runningIds, hrunning]
    rfl
  refine ⟨hinv, h.keys, ?_, ?_, ?_, ?_, ?_, ?_, h.whole, ?_, h.distinct, ?_⟩
  · exact hcounter ▸ h.numbered
  · exact hlive ▸ h.known
  · exact hcounter ▸ h.named
  · exact hlive ▸ h.fed
  · exact hlive ▸ h.outputs
  · exact hrunning ▸ h.complete
  · exact hids ▸ h.running
  · exact hrunning ▸ h.behind

theorem Logged.execute (h : Logged prompts log (e :: pending) r) :
    Logged prompts (log ++ [.executed e]) pending r := by
  have hdistinct := h.distinct
  rw [map_cons, nodup_cons] at hdistinct
  refine ⟨h.inv, h.keys, h.numbered, h.known, fun entry hentry => ?_, fun req hreq => ?_,
    fun req hreq => ?_, h.complete, h.whole.snoc (fun res heq => by cases heq),
    fun e' he' => h.running e' (mem_cons_of_mem e he'), hdistinct.2,
    fun e' he' => h.behind e' (mem_cons_of_mem e he')⟩
  · rcases mem_append.1 hentry with hold | hnew
    · exact h.named entry hold
    · rw [mem_singleton.1 hnew]
      -- a running request has a numbered name
      obtain ⟨req, hreq, hid⟩ := mem_map.1 (h.running e mem_cons_self)
      show ∃ k ≤ _, e.request.requestId = _
      rw [← hid]
      exact h.inv.named req (mem_append_left _ hreq)
  · rw [fedFor_executed, append_assoc]
    exact h.fed req hreq
  · rw [resultsOf_append]
    show tokensFor _ (resultsOf log ++ []) = _
    rw [append_nil]
    exact h.outputs req hreq

theorem Logged.record (h : Logged prompts log pending r) (hinv : r'.Inv)
    (hwaiting : r'.scheduler.waiting = r.scheduler.waiting)
    (hcounter : r'.scheduler.requestCounter = r.scheduler.requestCounter)
    (hothers : ∀ id ∈ r.runningIds, id ≠ rid → id ∈ r'.runningIds)
    (hrid : rid ∈ r.runningIds) (hdone : rid ∉ pending.map fun e => e.request.requestId)
    (hwhole : ∀ req ∈ r.scheduler.running, req.requestId = rid →
      req.promptTokens.length ≤ req.prefillPos) {res : StepResult} (hname : res.requestId = rid)
    (hreqs : ∀ req ∈ r'.scheduler.running, (req ∈ r.scheduler.running ∧ req.requestId ≠ rid) ∨
      ∃ old ∈ r.scheduler.running, old.requestId = rid ∧
        req = (Scheduler.recordToken old res.tokenId).1) :
    Logged prompts (log ++ [.recorded res]) pending r' := by
  obtain ⟨request, hmem, hid⟩ := mem_map.1 hrid
  -- every live request is as it was, or it has the token
  have hlive : ∀ req ∈ r'.liveRequests, (req ∈ r.liveRequests ∧ req.requestId ≠ rid) ∨
      ∃ old ∈ r.liveRequests, old.requestId = rid ∧
        req = (Scheduler.recordToken old res.tokenId).1 := by
    intro req hreq
    rcases mem_append.1 hreq with hrun | hwait
    · rcases hreqs req hrun with ⟨hsame, hne⟩ | ⟨old, hold, hkey, heq⟩
      · exact .inl ⟨mem_append_left _ hsame, hne⟩
      · exact .inr ⟨old, mem_append_left _ hold, hkey, heq⟩
    · rw [waitingRequests, hwaiting] at hwait
      exact .inl ⟨mem_append_right _ hwait, (h.inv.ne_waiting hrid hwait).symm⟩
  have hfed : fedFor rid log = request.promptTokens := by
    have hboth := h.fed request (mem_append_left _ hmem)
    rw [hid, chunksFor_of_notMem hdone, append_nil] at hboth
    rw [hboth, take_of_length_le (hwhole request hmem hid)]
  refine ⟨hinv, h.keys, hcounter ▸ h.numbered, fun req hreq => ?_, fun entry hentry => ?_,
    fun req hreq => ?_, fun req hreq => ?_, fun req hreq => ?_, ?_, fun e he => ?_, h.distinct,
    fun e he hstate req hreq hkey => ?_⟩
  · rcases hlive req hreq with ⟨hsame, -⟩ | ⟨old, hold, -, rfl⟩
    · exact h.known req hsame
    · rw [Scheduler.requestId_recordToken, (Driver.recordToken_frame old res.tokenId).1]
      exact h.known old hold
  · rw [hcounter]
    rcases mem_append.1 hentry with hold | hnew
    · exact h.named entry hold
    · rw [mem_singleton.1 hnew]
      show ∃ k ≤ _, res.requestId = _
      rw [hname, ← hid]
      exact h.inv.named request (mem_append_left _ hmem)
  · rw [fedFor_recorded]
    rcases hlive req hreq with ⟨hsame, -⟩ | ⟨old, hold, -, rfl⟩
    · exact h.fed req hsame
    · obtain ⟨hprompt, hcursor, -⟩ := Driver.recordToken_frame old res.tokenId
      rw [Scheduler.requestId_recordToken, hprompt, hcursor]
      exact h.fed old hold
  · rw [resultsOf_append, tokensFor_append]
    rcases hlive req hreq with ⟨hsame, hne⟩ | ⟨old, hold, hkey, rfl⟩
    · have hother : tokensFor req.requestId [res] = [] := by
        rw [tokensFor, filter_cons_of_neg (by simpa [hname] using hne.symm)]
        rfl
      show _ ++ tokensFor req.requestId [res] = _
      rw [hother, append_nil]
      exact h.outputs req hsame
    · rw [Scheduler.requestId_recordToken, h.outputs old hold, outputTokens_recordToken]
      show _ ++ tokensFor old.requestId [res] = _
      rw [tokensFor, filter_cons_of_pos (by simpa [hname] using hkey.symm)]
      rfl
  · rcases hreqs req hreq with ⟨hsame, -⟩ | ⟨old, hold, hkey, rfl⟩
    · exact h.complete req hsame
    · obtain ⟨hprompt, hcursor, -⟩ := Driver.recordToken_frame old res.tokenId
      intro _
      rw [hprompt, hcursor]
      exact hwhole old hold hkey
  · refine h.whole.snoc fun res' heq prompt hprompt => ?_
    cases heq
    rw [hname] at hprompt ⊢
    have hknown := h.known request (mem_append_left _ hmem)
    rw [hid] at hknown
    rw [hfed]
    exact congrArg Prod.snd (inj_on_of_nodup_map h.keys hknown hprompt rfl)
  · refine hothers _ (h.running e he) fun hkey => hdone ?_
    exact hkey ▸ mem_map_of_mem he
  · rcases hreqs req hreq with ⟨hsame, -⟩ | ⟨old, hold, hold', rfl⟩
    · exact h.behind e he hstate req hsame hkey
    · -- the request with the token is not pending
      rw [Scheduler.requestId_recordToken] at hkey
      exact absurd (hold'.symm.trans hkey ▸ mem_map_of_mem he) hdone

/-- A request that does not fail moves from the pending part to the log. -/
theorem Logged.processRequest (h : Logged prompts log (e :: pending) r) {result : Option StepResult}
    (hout : r.processRequest backend sampling e.request = some (.ok result, r')) :
    Logged prompts (log ++ .executed e :: result.toList.map ServedEntry.recorded) pending r' := by
  have hrid := h.running e mem_cons_self
  have hp := h.inv.processRequest hrid hout
  have hkept := (h.inv.processRequest_kept hrid hout).1
  have hexecuted := h.execute
  rcases h.inv.processRequest_running hrid hout with ⟨hnone, hrunning⟩ |
    ⟨res, hres, hname, hstate, hreqs⟩
  · obtain rfl : result = none := hnone
    exact hexecuted.sameRequests hp.inv hrunning hkept.waiting hkept.counter
  · obtain rfl : result = some res := Except.ok.inj hres
    have hdone := h.distinct
    rw [map_cons, nodup_cons] at hdone
    have hrecorded := hexecuted.record hp.inv hkept.waiting hkept.counter hp.others hrid hdone.1
      (h.behind e mem_cons_self hstate) hname hreqs
    rw [append_assoc] at hrecorded
    exact hrecorded

theorem Logged.processBatch {batch : List Emission} (h : Logged prompts log batch r)
    {result : Except String (List StepResult)}
    (hout : InferenceRunner.processBatch backend sampling (batch.map Emission.request) r =
      some (result, r')) :
    Logged prompts (log ++ (servedBatch backend sampling batch r).1)
        (servedBatch backend sampling batch r).2 r' ∧
      ∀ results, result = .ok results →
        resultsOf (servedBatch backend sampling batch r).1 = results ∧
          (servedBatch backend sampling batch r).2 = [] := by
  induction batch generalizing r log result with
  | nil =>
    cases hout
    refine ⟨?_, fun results hok => ?_⟩
    · rw [servedBatch, append_nil]
      exact h
    · cases hok
      exact ⟨rfl, rfl⟩
  | cons e rest ih =>
    rw [map_cons, InferenceRunner.processBatch] at hout
    split at hout
    · cases hout
    · -- the request fails: it and all behind it are left
      rename_i message r₁ hfirst
      cases hout
      have hrid := h.running e mem_cons_self
      have hp := h.inv.processRequest hrid hfirst
      have hkept := (h.inv.processRequest_kept hrid hfirst).1
      rw [servedBatch, hfirst]
      refine ⟨?_, fun results hok => by cases hok⟩
      rcases h.inv.processRequest_running hrid hfirst with ⟨-, hrunning⟩ | ⟨res, hres, -⟩
      · rw [append_nil]
        exact h.sameRequests hp.inv hrunning hkept.waiting hkept.counter
      · cases hres
    · rename_i first r₁ hfirst
      obtain ⟨⟨result', r₂⟩, hrest, hpair⟩ := Option.map_eq_some_iff.1 hout
      cases hpair
      obtain ⟨hlogged, hok⟩ := ih (h.processRequest hfirst) hrest
      rw [servedBatch, hfirst]
      refine ⟨?_, fun results heq => ?_⟩
      · rw [append_assoc] at hlogged
        exact hlogged
      · cases result' with
        | error => cases heq
        | ok later =>
          cases heq
          obtain ⟨hresults, hempty⟩ := hok later rfl
          refine ⟨?_, hempty⟩
          rw [← hresults]
          cases first <;> rfl

/-! ## Runs -/

/-- Along the batch loop of a step, no chunk is cut without blocks. -/
def ChunksFit (r : InferenceRunner heap ω) : Prop :=
  AlongSlots r.admitted.1.config (PromptFits r.admitted.1.config) ⟨0, 0⟩ r.admitted.1.running
    r.admitted.2
deriving Decidable

/-- A forward pass for the request returns logits. -/
def returnsLogits (backend : Backend ω) (r : InferenceRunner heap ω) (req : ScheduledRequest) :
    Bool :=
  match r.forward backend req with
  | some (.ok allLogits, _) => !req.inputIds.isEmpty && !allLogits.isEmpty
  | _ => false

/-- Where a batch fails: the requests before that place that had logits, and those from it on. -/
def failure? (backend : Backend ω) (sampling : SamplerConfig) :
    List Emission → InferenceRunner heap ω → Option (List Emission × List Emission)
  | [], _ => none
  | e :: rest, r =>
    match r.processRequest backend sampling e.request with
    | none => none
    | some (.error _, _) => some ([], e :: rest)
    | some (.ok _, r') =>
      (failure? backend sampling rest r').map fun cut =>
        (if r.returnsLogits backend e.request then e :: cut.1 else cut.1, cut.2)

/-- Where a step fails, only `Prefill` was scheduled before, and nothing was in it from there on. -/
def FailsClean (backend : Backend ω) (sampling : SamplerConfig) (r : InferenceRunner heap ω) :
    Prop :=
  ∀ cut ∈ failure? backend sampling r.emissions r.scheduleStep.2,
    (∀ e ∈ cut.1, e.request.state = .prefill) ∧ ∀ e ∈ cut.2, e.phase ≠ .prefill
deriving Decidable

theorem processRequest_recorded {res : StepResult}
    (hout : r.processRequest backend sampling req = some (.ok (some res), r')) :
    r.returnsLogits backend req = true ∧ req.state ≠ .prefill := by
  unfold InferenceRunner.processRequest at hout
  split at hout
  · cases hout
  · rename_i hinput
    split at hout
    · cases hout
    · cases hout
    · rename_i allLogits r₁ hforward
      split at hout
      · cases hout
      · rename_i tokenId r₂ hsample
        refine ⟨?_, state_of_sampled hsample⟩
        have hlogits : allLogits.isEmpty = false := by
          by_contra hempty
          rw [sampleToken, if_pos (by simpa using hempty)] at hsample
          cases hsample
        rw [returnsLogits, hforward]
        simp [hinput, hlogits]

/-- The failing place parts the batch, and only behind logits was a token recorded before it. -/
theorem failure?_of_error {batch : List Emission} {message : String}
    (hout : InferenceRunner.processBatch backend sampling (batch.map Emission.request) r =
      some (.error message, r')) :
    ∃ cut, failure? backend sampling batch r = some cut ∧
      cut.2 = (servedBatch backend sampling batch r).2 ∧
      ((∀ e ∈ cut.1, e.request.state = .prefill) →
        resultsOf (servedBatch backend sampling batch r).1 = []) := by
  induction batch generalizing r r' message with
  | nil => cases hout
  | cons e rest ih =>
    rw [map_cons, InferenceRunner.processBatch] at hout
    rw [failure?, servedBatch]
    split at hout
    · cases hout
    · rename_i hfirst
      rw [hfirst]
      exact ⟨_, rfl, rfl, fun _ => rfl⟩
    · rename_i first r₁ hfirst
      obtain ⟨⟨result, r₂⟩, hrest, hpair⟩ := Option.map_eq_some_iff.1 hout
      cases result with
      | ok => cases hpair
      | error =>
        obtain ⟨cut, hcut, hback, hnone⟩ := ih hrest
        rw [hfirst]
        dsimp only
        rw [hcut]
        refine ⟨(if r.returnsLogits backend e.request then e :: cut.1 else cut.1, cut.2),
          rfl, hback,
          fun hfront => ?_⟩
        dsimp only at hfront
        cases first with
        | none =>
          refine hnone fun e' he' => hfront e' ?_
          split
          · exact mem_cons_of_mem e he'
          · exact he'
        | some =>
          obtain ⟨hlogits, hstate⟩ := processRequest_recorded hfirst
          rw [if_pos hlogits] at hfront
          exact absurd (hfront e mem_cons_self) hstate

theorem Inv.admitted_origin (h : r.Inv) : ∀ req ∈ r.admitted.1.running,
    (req ∈ r.scheduler.running ∨ req.state = .prefill) ∧ ∃ old ∈ r.liveRequests,
      old.requestId = req.requestId ∧ old.promptTokens = req.promptTokens ∧
        old.prefillPos = req.prefillPos ∧ old.outputTokens = req.outputTokens := by
  obtain ⟨entries, hperm, hrunning, -⟩ := h.admitted_spec
  intro req hreq
  rw [hrunning] at hreq
  rcases mem_append.1 hreq with hold | hnew
  · exact ⟨.inl hold, req, mem_append_left _ hold, rfl, rfl, rfl, rfl⟩
  · obtain ⟨q, hq, rfl⟩ := mem_map.1 hnew
    refine ⟨.inr rfl, q.request, mem_append_right _ ?_, rfl, rfl, rfl, rfl⟩
    exact mem_map_of_mem (hperm.mem_iff.2 (mem_append_left _ hq))

theorem Inv.runningIds_scheduled (h : r.Inv) :
    r.scheduleStep.2.runningIds = r.built.1.map fun slot => slot.before.requestId := by
  rw [h.scheduleStep_eq]
  show (r.built.1.map Slot.after).map Request.requestId = _
  rw [map_map]
  exact map_congr_left fun slot hslot => (h.built_spec.2.2 slot hslot).2.1

/-- Scheduling moves the cursors over the chunks that it leaves pending. -/
theorem Logged.scheduleStep (h : Logged prompts log [] r) (hfits : r.ChunksFit) :
    Logged prompts log r.emissions r.scheduleStep.2 := by
  obtain ⟨entries, hperm, -⟩ := h.inv.admitted_spec
  obtain ⟨-, -, hbuilt⟩ := h.inv.built_spec
  obtain ⟨hinv, hsub, -⟩ := h.inv.scheduleStep
  have hadmitted := h.inv.admitted_origin
  rw [h.inv.requests_eq, map_map] at hsub
  have hslots : ∀ slot ∈ r.built.1, slot.Feeds :=
    (buildSlots_rule (I := fun _ => True) (Q := Request.Complete)
      (fun _ _ _ _ hcomplete _ hfits hturn => ⟨trivial, hturn.feeds hfits hcomplete⟩)
      (fun req hreq => (hadmitted req hreq).1.elim (h.complete req) fun hstate hne =>
        absurd hstate hne) trivial hfits).2
  have hids := h.inv.runningIds_scheduled
  have hnodup := hinv.runningIds_nodup
  have hlive : ∀ req ∈ r.scheduleStep.2.liveRequests, (∃ slot ∈ r.built.1, slot.after = req) ∨
        (req ∈ r.liveRequests ∧ req.requestId ∉ r.scheduleStep.2.runningIds) := by
    intro req hreq
    rcases mem_append.1 hreq with hrun | hwait
    · rw [h.inv.scheduleStep_eq] at hrun
      exact .inl (mem_map.1 hrun)
    · refine .inr ⟨?_, fun hmem => hinv.ne_waiting hmem hwait rfl⟩
      rw [h.inv.scheduleStep_eq] at hwait
      obtain ⟨q, hq, rfl⟩ := mem_map.1 hwait
      exact mem_append_right _ (mem_map_of_mem
        (hperm.mem_iff.2 (mem_append_right _ hq)))
  have hcounter := h.inv.requestCounter_scheduleStep
  rw [hids] at hnodup
  refine ⟨hinv, h.keys, hcounter ▸ h.numbered, fun req hreq => ?_, hcounter ▸ h.named,
    fun req hreq => ?_, fun req hreq => ?_, fun req hreq => ?_, h.whole, fun e he => ?_,
    hsub.nodup hinv.runningIds_nodup, fun e he hstate req hreq hid => ?_⟩
  · rcases hlive req hreq with ⟨slot, hslot, rfl⟩ | ⟨hold, -⟩
    · obtain ⟨hmem, hname, hprompt, -⟩ := hbuilt slot hslot
      obtain ⟨-, old, hold, hid, hsame, -⟩ := hadmitted _ hmem
      rw [hname, hprompt, ← hid, ← hsame]
      exact h.known old hold
    · exact h.known req hold
  · rcases hlive req hreq with ⟨slot, hslot, rfl⟩ | ⟨hold, hnew⟩
    · obtain ⟨hmem, hname, -⟩ := hbuilt slot hslot
      obtain ⟨-, old, hold, hid, hsame, hcursor, -⟩ := hadmitted _ hmem
      have hfed := h.fed old hold
      rw [hid, hsame, hcursor] at hfed
      rw [← (hslots slot hslot).cursor, hname, ← hfed, emissions, chunksFor_flatMap
        (fun slot hslot e he => ((hslots slot hslot).emitted e he).1) hnodup hslot]
      simp [chunksFor]
    · rw [chunksFor_of_notMem fun hmem => hnew (hsub.subset hmem)]
      exact h.fed req hold
  · rcases hlive req hreq with ⟨slot, hslot, rfl⟩ | ⟨hold, -⟩
    · obtain ⟨hmem, hname, -⟩ := hbuilt slot hslot
      obtain ⟨-, old, hold, hid, -, -, houtputs⟩ := hadmitted _ hmem
      rw [hname, ← hid, (hslots slot hslot).outputs, ← houtputs]
      exact h.outputs old hold
    · exact h.outputs req hold
  · rw [h.inv.scheduleStep_eq] at hreq
    obtain ⟨slot, hslot, rfl⟩ := mem_map.1 hreq
    exact (hslots slot hslot).complete
  · exact hsub.subset (mem_map_of_mem he)
  · obtain ⟨slot, hslot, hemitted⟩ := mem_flatMap.1 he
    rw [h.inv.scheduleStep_eq] at hreq
    obtain ⟨other, hother, rfl⟩ := mem_map.1 hreq
    obtain ⟨hname, hbehind⟩ := (hslots slot hslot).emitted e hemitted
    -- the request of the slot is the only one with its id
    obtain rfl : other = slot := inj_on_of_nodup_map hnodup hother hslot
      ((hbuilt other hother).2.1.symm.trans (hid.trans hname))
    exact hbehind hstate

theorem Logged.dropPending (h : Logged prompts log pending r)
    (hdecode : ∀ e ∈ pending, e.phase ≠ .prefill) : Logged prompts log [] r := by
  refine ⟨h.inv, h.keys, h.numbered, h.known, h.named, fun req hreq => ?_, h.outputs, h.complete,
    h.whole, nofun, nodup_nil, nofun⟩
  rw [← h.fed req hreq, chunksFor_of_decode hdecode]
  rfl

theorem Logged.resumes (h : Logged prompts log [] r) : ∀ e ∈ r.emissions, e.phase = .prefill →
    ∃ prompt, (e.request.requestId, prompt) ∈ prompts ∧
      e.request.inputIds <+: prompt.drop (fedFor e.request.requestId log).length := by
  have hslots : ∀ slot ∈ r.built.1, slot.before ∈ r.admitted.1.running ∧
      ∀ e ∈ slot.emitted, e.phase = .prefill → e.request.requestId = slot.before.requestId ∧
          slot.before.prefillPos ≤ slot.before.promptTokens.length ∧
          e.request.inputIds <+: slot.before.promptTokens.drop slot.before.prefillPos :=
    (buildSlots_rule (I := fun _ => True) (Q := fun req => req ∈ r.admitted.1.running)
      (fun _ _ _ _ hmem _ _ hturn => ⟨trivial, hturn.before_eq ▸ ⟨hmem, hturn.resumes⟩⟩)
      (fun _ hreq => hreq) trivial (alongSlots_true ..)).2
  intro e he hphase
  obtain ⟨slot, hslot, hemitted⟩ := mem_flatMap.1 he
  obtain ⟨hmem, hresumes⟩ := hslots slot hslot
  obtain ⟨hname, hle, hchunk⟩ := hresumes e hemitted hphase
  obtain ⟨-, old, hold, hid, hprompt, hcursor, -⟩ := h.inv.admitted_origin _ hmem
  have hfed := h.fed old hold
  rw [hid, hprompt, hcursor, chunksFor, flatMap_nil, append_nil] at hfed
  refine ⟨slot.before.promptTokens, ?_, ?_⟩
  · rw [hname, ← hid, ← hprompt]
    exact h.known old hold
  · rw [hname, hfed, length_take, Nat.min_eq_left hle]
    exact hchunk

theorem Logged.addRequest (h : Logged prompts log [] r) {inputIds : List UInt32}
    (hne : inputIds ≠ []) :
    Logged (prompts ++ [(s!"req_{r.scheduler.requestCounter + 1}", inputIds)]) log []
      (r.addRequestTokens backend inputIds sampling).2 := by
  have hinv : (r.addRequestTokens backend inputIds sampling).2.Inv :=
    (h.inv.addRequestTokens inputIds sampling).1
  generalize hrunner : (r.addRequestTokens backend inputIds sampling).2 = r' at hinv ⊢
  obtain ⟨hrunning, hcounter, hwaiting⟩ := h.inv.added_spec _ hne hrunner
  have hlive : ∀ req ∈ r'.liveRequests, req ∈ r.liveRequests ∨
      (req.requestId = s!"req_{r.scheduler.requestCounter + 1}" ∧ req.promptTokens = inputIds ∧
        req.prefillPos = 0 ∧ req.outputTokens = []) := by
    intro req hreq
    rcases mem_append.1 hreq with hrun | hwait
    · exact .inl (mem_append_left _ (hrunning ▸ hrun))
    · exact (hwaiting req hwait).imp_left (mem_append_right _)
  -- no key and no entry of the log has the new number
  have hlog : ∀ entry ∈ log, entry.requestId ≠ s!"req_{r.scheduler.requestCounter + 1}" := by
    intro entry hentry heq
    obtain ⟨k, hk, hname⟩ := h.named entry hentry
    exact fresh_name_ne hk (hname.symm.trans heq)
  refine ⟨hinv, ?_, fun entry hentry => ?_, fun req hreq => ?_, fun entry hentry => ?_,
    fun req hreq => ?_, fun req hreq => ?_, hrunning ▸ h.complete, ?_,
    nofun, nodup_nil, nofun⟩
  · rw [map_append, nodup_append]
    refine ⟨h.keys, nodup_singleton _, fun id hid id' hid' heq => ?_⟩
    obtain ⟨entry, hentry, rfl⟩ := mem_map.1 hid
    obtain ⟨k, hk, hname⟩ := h.numbered entry hentry
    exact fresh_name_ne hk (hname.symm.trans (heq.trans (mem_singleton.1 hid')))
  · rw [hcounter]
    rcases mem_append.1 hentry with hold | hnew
    · obtain ⟨k, hk, hname⟩ := h.numbered entry hold
      exact ⟨k, Nat.le_succ_of_le hk, hname⟩
    · rw [mem_singleton.1 hnew]
      exact ⟨_, le_rfl, rfl⟩
  · rcases hlive req hreq with hold | ⟨hid, hprompt, -⟩
    · exact mem_append_left _ (h.known req hold)
    · rw [hid, hprompt]
      exact mem_append_right _ (mem_singleton.2 rfl)
  · obtain ⟨k, hk, hname⟩ := h.named entry hentry
    exact ⟨k, hcounter ▸ Nat.le_succ_of_le hk, hname⟩
  · rcases hlive req hreq with hold | ⟨hid, -, hcursor, -⟩
    · exact h.fed req hold
    · rw [hid, (of_notLogged hlog).1, hcursor]
      rfl
  · rcases hlive req hreq with hold | ⟨hid, -, -, houtputs⟩
    · exact h.outputs req hold
    · rw [hid, (of_notLogged hlog).2, houtputs]
  · intro pre res post heq prompt hprompt
    rcases mem_append.1 hprompt with hold | hnew
    · exact h.whole pre res post heq prompt hold
    · have hentry : ServedEntry.recorded res ∈ log := by
        rw [heq]
        exact mem_append_right _ mem_cons_self
      exact absurd (congrArg Prod.fst (mem_singleton.1 hnew)) (hlog _ hentry)

theorem liveRequests_new {executor : ω} {config : RunnerConfig}
    (h : InferenceRunner.new heap backend executor config = .ok r) : r.liveRequests = [] := by
  unfold InferenceRunner.new at h
  split at h
  · cases h
  · rename_i scheduler hsched
    obtain ⟨-, hrunning, hwaiting, -⟩ := Scheduler.new_spec hsched
    dsimp only at h
    split at h
    · cases h
    · cases h
      show scheduler.running ++ (heap.items scheduler.waiting).map QueueEntry.request = []
      rw [hrunning, hwaiting]
      rfl

end InferenceRunner

end CompileForge.Runtime
