/-
  What an engine knows of its requests.
-/

import CompileForge.PythonRuntime.EngineSession
import CompileForge.Runtime.Engine.SharingRun

namespace CompileForge.PythonRuntime

open Lib CompileForge.Runtime List

variable {Row Logits : Type} {heap : MaxHeap QueueEntry QueueEntry.rank}

section Results

variable {results : List GenerationResult} {r : GenerationResult} {rid : String}

theorem tokensOf_append (results more : List GenerationResult) (rid : String) :
    tokensOf (results ++ more) rid = tokensOf results rid ++ tokensOf more rid := by
  rw [tokensOf, tokensOf, tokensOf, filter_append, flatMap_append]

theorem tokensOf_self (r : GenerationResult) : tokensOf [r] r.requestId = r.newTokens := by
  simp [tokensOf]

theorem tokensOf_ne (h : rid ≠ r.requestId) : tokensOf [r] rid = [] := by
  have hne : r.requestId ≠ rid := h.symm
  simp [tokensOf, hne]

theorem finishedIn_append (more : List GenerationResult) :
    FinishedIn (results ++ more) rid ↔ FinishedIn results rid ∨ FinishedIn more rid := by
  simp only [FinishedIn, mem_append, or_and_right, exists_or]

theorem finishedIn_singleton : FinishedIn [r] rid ↔ r.requestId = rid ∧ r.isFinished = true := by
  simp [FinishedIn]

theorem tokensOf_unknown (h : ∀ r ∈ results, r.requestId ≠ rid) :
    tokensOf results rid = [] ∧ ¬ FinishedIn results rid := by
  refine ⟨?_, fun ⟨r, hr, hid, _⟩ => h r hr hid⟩
  have hnone : results.filter (fun r => r.requestId = rid) = [] :=
    filter_eq_nil_iff.2 fun r hr => by simpa using h r hr
  rw [tokensOf, hnone]
  rfl

end Results

/-! ## The invariant -/

/-- The scheduler has the tokens emitted for the request. -/
structure Tracks (results : List GenerationResult) (sub : Submission) (req : Request) : Prop where
  requestId : req.requestId = sub.requestId
  promptTokens : req.promptTokens = sub.promptTokens
  maxTokens : req.maxTokens = sub.maxTokens
  stopTokenIds : req.stopTokenIds = sub.stopTokenIds
  outputTokens : req.outputTokens = tokensOf results sub.requestId

variable {sub : Submission} {req : Request} {bm : BlockManager} {s : Scheduler heap}
  {token : UInt32}

theorem Tracks.sequence {results : List GenerationResult} (h : Tracks results sub req) :
    req.sequence = sub.promptTokens ++ tokensOf results sub.requestId := by
  rw [Request.sequence, h.promptTokens, h.outputTokens]

def Submission.Ends (sub : Submission) : List UInt32 → Prop :=
  PythonRuntime.Ends sub.maxTokens sub.stopTokenIds

/-- What was emitted for a submission is greedy, and ended where it had to. -/
structure GreedySoFar (ex : Executor Row Logits) (results : List GenerationResult)
    (sub : Submission) : Prop where
  generated : Generated (fun outs => ex.greedyNext (sub.promptTokens ++ outs))
    (tokensOf results sub.requestId)
  finished : FinishedIn results sub.requestId → StopsFirst sub.Ends (tokensOf results sub.requestId)
  unfinished : ¬ FinishedIn results sub.requestId →
    Unstopped sub.Ends (tokensOf results sub.requestId)

/-- The ids the scheduler has, running ones first. -/
def Engine.liveIds (e : Engine heap Row) : List String :=
  e.sched.running.map Request.requestId ++
    (heap.items e.sched.waiting).map fun q => q.request.requestId

structure Engine.Awaits (e : Engine heap Row) (req : Request) : Prop where
  queued : req.Queued
  outputTokens : req.outputTokens = []
  prompt : e.promptTokens.lookup req.requestId = some req.promptTokens
  outputs : e.outputs req.requestId = []

/-- Each submission waits, runs or is gone, and the tokens emitted for it are a greedy output that
    ended where it had to. -/
structure TokenInv (ex : Executor Row Logits) (e : Engine heap Row)
    (submitted : List Submission) (results : List GenerationResult) : Prop where
  config : e.sched.config.useKvCache = ex.usesCacheManager
  ids : e.liveIds.Nodup
  submittedIds : (submitted.map Submission.requestId).Nodup
  known : ∀ r ∈ results, r.requestId ∈ submitted.map Submission.requestId
  unknown : ∀ rid ∉ submitted.map Submission.requestId, e.outputs rid = []
  greedy : ∀ sub ∈ submitted, GreedySoFar ex results sub
  waiting : ∀ q ∈ heap.items e.sched.waiting,
    e.Awaits q.request ∧ ∃ sub ∈ submitted, Tracks results sub q.request
  running : ∀ req ∈ e.sched.running, req.state ≠ .waiting ∧
    (req.state = .finished ↔ FinishedIn results req.requestId) ∧
    AtRest ex.usesCacheManager req ∧ ∃ sub ∈ submitted, Tracks results sub req

variable {ex : Executor Row Logits} {e : Engine heap Row} {submitted : List Submission}
  {results : List GenerationResult}

theorem TokenInv.runningIds (h : TokenInv ex e submitted results) :
    (e.sched.running.map Request.requestId).Nodup := (List.nodup_append.1 h.ids).1

theorem TokenInv.submitted_of_live (h : TokenInv ex e submitted results) {rid : String}
    (hrid : rid ∈ e.liveIds) : rid ∈ submitted.map Submission.requestId := by
  have htracks : ∀ req, (∃ sub ∈ submitted, Tracks results sub req) → req.requestId = rid →
      rid ∈ submitted.map Submission.requestId := by
    rintro req ⟨sub, hsub, htrack⟩ rfl
    rw [htrack.requestId]
    exact mem_map_of_mem hsub
  rcases mem_append.1 hrid with hrun | hwait
  · obtain ⟨req, hreq, hid⟩ := mem_map.1 hrun
    exact htracks req (h.running req hreq).2.2.2 hid
  · obtain ⟨q, hq, hid⟩ := mem_map.1 hwait
    exact htracks q.request (h.waiting q hq).2 hid

theorem TokenInv.start [Zero Row] {sched : Scheduler heap}
    (hconfig : sched.config.useKvCache = ex.usesCacheManager) (hrunning : sched.running = [])
    (hwaiting : heap.items sched.waiting = []) (enablePrefixCache : Bool) :
    TokenInv ex (.new sched bm enablePrefixCache) [] [] where
  config := hconfig
  ids := by
    show (sched.running.map _ ++ (heap.items sched.waiting).map _).Nodup
    rw [hrunning, hwaiting]
    exact nodup_nil
  submittedIds := nodup_nil
  known := nofun
  unknown := fun _ _ => rfl
  greedy := nofun
  waiting := fun q hq => absurd (hwaiting ▸ hq) not_mem_nil
  running := fun req hreq => absurd (hrunning ▸ hreq) not_mem_nil

theorem TokenInv.tokensOf_fresh (h : TokenInv ex e submitted results) {rid : String}
    (hfresh : rid ∉ submitted.map Submission.requestId) :
    tokensOf results rid = [] ∧ ¬ FinishedIn results rid :=
  tokensOf_unknown fun r hr heq => hfresh (heq ▸ h.known r hr)

theorem TokenInv.addRequest (h : TokenInv ex e submitted results)
    (hfresh : sub.requestId ∉ submitted.map Submission.requestId) :
    TokenInv ex (e.addRequest sub.requestId sub.promptTokens sub.maxTokens sub.stopTokenIds)
      (submitted ++ [sub]) results where
  config := h.config
  ids := by
    have hperm := (heap.items_push e.sched.waiting ⟨0, Request.new sub.requestId
      sub.promptTokens 0 sub.maxTokens sub.stopTokenIds⟩).map fun q => q.request.requestId
    show (e.sched.running.map Request.requestId ++ _).Nodup
    refine (hperm.append_left _).nodup_iff.2 ?_
    rw [map_cons, nodup_middle]
    exact nodup_cons.2 ⟨fun hmem => hfresh (h.submitted_of_live hmem), h.ids⟩
  submittedIds := by
    rw [map_append, map_singleton, ← concat_eq_append]
    exact h.submittedIds.concat hfresh
  known := fun r hr => by
    rw [map_append]
    exact mem_append_left _ (h.known r hr)
  unknown := fun rid hrid => h.unknown rid fun hmem => hrid (by
    rw [map_append]
    exact mem_append_left _ hmem)
  greedy := fun sub' hsub' => by
    rcases mem_append.1 hsub' with hold | hnew
    · exact h.greedy sub' hold
    · rw [mem_singleton.1 hnew]
      obtain ⟨htokens, hunfinished⟩ := h.tokensOf_fresh hfresh
      refine ⟨?_, fun hfin => absurd hfin hunfinished, fun _ => ?_⟩
      · rw [htokens]
        exact .nil
      · rw [htokens]
        exact .nil (not_ends_nil _ _)
  waiting := fun q hq => by
    rcases heap.mem_push.1 hq with rfl | hold
    · refine ⟨⟨⟨rfl, rfl⟩, rfl, AList.lookup_insert _, h.unknown _ hfresh⟩, sub, by simp, ?_⟩
      exact ⟨rfl, rfl, rfl, rfl, (h.tokensOf_fresh hfresh).1.symm⟩
    · obtain ⟨hawaits, sub', hsub', htrack⟩ := h.waiting q hold
      refine ⟨⟨hawaits.queued, hawaits.outputTokens, ?_, hawaits.outputs⟩, sub',
        mem_append_left _ hsub', htrack⟩
      have hne : q.request.requestId ≠ sub.requestId := by
        rw [htrack.requestId]
        exact fun heq => hfresh (heq ▸ mem_map_of_mem hsub')
      exact (AList.lookup_insert_ne hne).trans hawaits.prompt
  running := fun req hreq => by
    obtain ⟨hstate, hfinished, hrest, sub', hsub', htrack⟩ := h.running req hreq
    exact ⟨hstate, hfinished, hrest, sub', mem_append_left _ hsub', htrack⟩

/-! ## Recording -/

theorem runningRequest_eq (hids : (s.running.map Request.requestId).Nodup)
    (hreq : req ∈ s.running) : s.runningRequest req.requestId = some req := by
  cases hfind : s.runningRequest req.requestId with
  | none =>
    have hne := find?_eq_none.1 hfind req hreq
    simp at hne
  | some req' =>
    have hmem := mem_of_find?_eq_some hfind
    have hid : req'.requestId = req.requestId := by simpa using find?_some hfind
    rw [inj_on_of_nodup_map hids hmem hreq hid]

theorem frame_insertFinishedToCache (e : Engine heap Row) (rid : String) :
    (e.insertFinishedToCache rid).sched = e.sched ∧ (e.insertFinishedToCache rid).slab = e.slab ∧
      (e.insertFinishedToCache rid).promptTokens = e.promptTokens ∧
      (e.insertFinishedToCache rid).outputTokens = e.outputTokens := by
  unfold Engine.insertFinishedToCache
  cases e.radixCache with
  | none => exact ⟨rfl, rfl, rfl, rfl⟩
  | some =>
    cases e.promptTokens.lookup rid with
    | none => exact ⟨rfl, rfl, rfl, rfl⟩
    | some =>
      cases e.bm.getBlocks rid with
      | error => exact ⟨rfl, rfl, rfl, rfl⟩
      | ok => exact ⟨rfl, rfl, rfl, rfl⟩

theorem outputs_congr {e' : Engine heap Row} {rid : String}
    (h : e'.outputTokens.lookup rid = e.outputTokens.lookup rid) :
    e'.outputs rid = e.outputs rid := by
  rw [Engine.outputs, Engine.outputs, h]

theorem frame_recordSampled (e : Engine heap Row) (rid : String) (token : UInt32) :
    (e.recordSampled rid token).1.sched = (e.sched.recordOutput rid token).2 ∧
      (e.recordSampled rid token).1.slab = e.slab ∧
      (e.recordSampled rid token).2 =
        { requestId := rid, newTokens := [token],
          isFinished := (e.sched.recordOutput rid token).1 } ∧
      ∀ rid' ≠ rid, (e.recordSampled rid token).1.promptTokens.lookup rid' =
          e.promptTokens.lookup rid' ∧
        (e.recordSampled rid token).1.outputs rid' = e.outputs rid' := by
  rw [Engine.recordSampled]
  dsimp only
  cases (e.sched.recordOutput rid token).1 with
  | false =>
    refine ⟨rfl, rfl, rfl, fun rid' hne => ⟨rfl, ?_⟩⟩
    exact outputs_congr (AList.lookup_insert_ne hne)
  | true =>
    rw [if_pos rfl]
    obtain ⟨hsched, hslab, hprompts, houtputs⟩ := frame_insertFinishedToCache (e := { e with
      sched := (e.sched.recordOutput rid token).2
      outputTokens := e.outputTokens.insert rid (e.outputs rid ++ [token]) }) rid
    refine ⟨hsched, hslab, rfl, fun rid' hne => ⟨?_, ?_⟩⟩
    · refine (AList.lookup_erase_ne hne).trans ?_
      rw [hprompts]
    · refine outputs_congr ((AList.lookup_erase_ne hne).trans ?_)
      rw [houtputs]
      exact AList.lookup_insert_ne hne

theorem recordToken_finished (req : Request) (token : UInt32) :
    (Scheduler.recordToken req token).1.outputTokens = req.outputTokens ++ [token] ∧
      ((Scheduler.recordToken req token).2 = true ↔
        Ends req.maxTokens req.stopTokenIds (req.outputTokens ++ [token])) ∧
      (Scheduler.recordToken req token).1.state =
        (if (Scheduler.recordToken req token).2 then .finished else req.state) := by
  rw [ends_snoc_iff]
  rcases Scheduler.recordToken_cases req token with ⟨heq, hends⟩ | ⟨heq, hlen, hstop⟩
  · rw [heq]
    exact ⟨rfl, iff_of_true rfl hends, rfl⟩
  · rw [heq]
    refine ⟨rfl, iff_of_false Bool.false_ne_true ?_, rfl⟩
    rintro (hle | hmem)
    · omega
    · exact hstop hmem

theorem recordToken_same (req : Request) (token : UInt32) :
    (Scheduler.recordToken req token).1.requestId = req.requestId ∧
      (Scheduler.recordToken req token).1.promptTokens = req.promptTokens ∧
      (Scheduler.recordToken req token).1.maxTokens = req.maxTokens ∧
      (Scheduler.recordToken req token).1.stopTokenIds = req.stopTokenIds := by
  rcases Scheduler.recordToken_cases req token with ⟨heq, -⟩ | ⟨heq, -⟩
  · rw [heq]
    exact ⟨rfl, rfl, rfl, rfl⟩
  · rw [heq]
    exact ⟨rfl, rfl, rfl, rfl⟩

theorem running_recordOutput
    (hids : (s.running.map Request.requestId).Nodup) (hreq : req ∈ s.running) (token : UInt32) :
    (∀ req' ∈ (s.recordOutput req.requestId token).2.running,
        (req' ∈ s.running ∧ req'.requestId ≠ req.requestId) ∨
          req' = (Scheduler.recordToken req token).1) ∧
      (s.recordOutput req.requestId token).2.running.map Request.requestId =
        s.running.map Request.requestId ∧
      (Scheduler.recordToken req token).1 ∈ (s.recordOutput req.requestId token).2.running ∧
      ∀ req' ∈ s.running, req'.requestId ≠ req.requestId →
        req' ∈ (s.recordOutput req.requestId token).2.running := by
  have hids' : (s.recordOutput req.requestId token).2.running.map Request.requestId =
      s.running.map Request.requestId := by
    rw [Driver.running_recordOutput,
      Driver.map_updateFirst (q := fun rid => rid = req.requestId) (g := id) Request.requestId
        (fun _ => rfl) (fun r => (recordToken_same r token).1), Driver.updateFirst_id]
  have hcases : ∀ req' ∈ (s.recordOutput req.requestId token).2.running,
      (req' ∈ s.running ∧ req'.requestId ≠ req.requestId) ∨
        req' = (Scheduler.recordToken req token).1 := by
    intro req' hreq'
    rw [Driver.running_recordOutput] at hreq'
    rcases Driver.mem_updateFirst_key hids hreq' with hold | ⟨req₀, hmem, hsame, rfl⟩
    · exact .inl hold
    · rw [inj_on_of_nodup_map hids hmem hreq hsame]
      exact .inr rfl
  -- every id is still there
  have hstays : ∀ req₀ ∈ s.running, ∃ req' ∈ (s.recordOutput req.requestId token).2.running,
      req'.requestId = req₀.requestId := fun req₀ hreq₀ =>
    mem_map.1 (hids'.symm ▸ mem_map_of_mem hreq₀)
  refine ⟨hcases, hids', ?_, fun req₀ hreq₀ hne => ?_⟩
  · obtain ⟨req', hreq', hid⟩ := hstays req hreq
    rcases hcases req' hreq' with ⟨-, hne⟩ | rfl
    · exact absurd hid hne
    · exact hreq'
  · obtain ⟨req', hreq', hid⟩ := hstays req₀ hreq₀
    rcases hcases req' hreq' with ⟨hold, -⟩ | rfl
    · rw [← inj_on_of_nodup_map hids hold hreq₀ hid]
      exact hreq'
    · exact absurd (hid.symm.trans (recordToken_same req token).1) hne

theorem Tracks.recordToken {done : Bool} (h : Tracks results sub req) :
    Tracks (results ++ [⟨sub.requestId, [token], done⟩]) sub
      (Scheduler.recordToken req token).1 := by
  obtain ⟨hid, hprompt, hmax, hstops⟩ := recordToken_same req token
  refine ⟨hid.trans h.requestId, hprompt.trans h.promptTokens, hmax.trans h.maxTokens,
    hstops.trans h.stopTokenIds, ?_⟩
  rw [(recordToken_finished req token).1, tokensOf_append, h.outputTokens]
  exact congrArg _ (tokensOf_self ⟨sub.requestId, [token], done⟩).symm

theorem Tracks.of_ne {r : GenerationResult}
    (h : Tracks results sub req) (hne : sub.requestId ≠ r.requestId) :
    Tracks (results ++ [r]) sub req := by
  refine ⟨h.requestId, h.promptTokens, h.maxTokens, h.stopTokenIds, ?_⟩
  rw [tokensOf_append, tokensOf_ne hne, append_nil]
  exact h.outputTokens

theorem GreedySoFar.of_ne {r : GenerationResult}
    (h : GreedySoFar ex results sub) (hne : sub.requestId ≠ r.requestId) :
    GreedySoFar ex (results ++ [r]) sub := by
  have htokens : tokensOf (results ++ [r]) sub.requestId = tokensOf results sub.requestId := by
    rw [tokensOf_append, tokensOf_ne hne, append_nil]
  have hfinished : FinishedIn (results ++ [r]) sub.requestId ↔
      FinishedIn results sub.requestId := by
    rw [finishedIn_append, finishedIn_singleton]
    exact or_iff_left fun hr => hne hr.1.symm
  exact ⟨htokens ▸ h.generated, fun hfin => htokens ▸ h.finished (hfinished.1 hfin),
    fun hfin => htokens ▸ h.unfinished fun hold => hfin (hfinished.2 hold)⟩

theorem GreedySoFar.snoc {sub : Submission} {token : UInt32} {done : Bool}
    (h : GreedySoFar ex results sub) (hlive : ¬ FinishedIn results sub.requestId)
    (hnext : ex.greedyNext (sub.promptTokens ++ tokensOf results sub.requestId) = some token)
    (hdone : done = true ↔ sub.Ends (tokensOf results sub.requestId ++ [token])) :
    GreedySoFar ex (results ++ [⟨sub.requestId, [token], done⟩]) sub := by
  have htokens : tokensOf (results ++ [⟨sub.requestId, [token], done⟩]) sub.requestId =
      tokensOf results sub.requestId ++ [token] := by
    rw [tokensOf_append]
    exact congrArg _ (tokensOf_self ⟨sub.requestId, [token], done⟩)
  have hfinished : FinishedIn (results ++ [⟨sub.requestId, [token], done⟩]) sub.requestId ↔
      done = true := by
    rw [finishedIn_append, finishedIn_singleton, or_iff_right hlive]
    exact and_iff_right rfl
  rw [hdone] at hfinished
  refine ⟨?_, fun hfin => ?_, fun hfin => ?_⟩
  · rw [htokens]
    exact h.generated.snoc hnext
  · rw [htokens]
    exact (h.unfinished hlive).stopsFirst (hfinished.1 hfin)
  · rw [htokens]
    exact (h.unfinished hlive).snoc fun hends => hfin (hfinished.2 hends)

theorem TokenInv.recordSampled (h : TokenInv ex e submitted results)
    (hreq : req ∈ e.sched.running) (hstate : req.state = .decode)
    (hnext : ex.greedyNext req.sequence = some token) :
    TokenInv ex (e.recordSampled req.requestId token).1 submitted
      (results ++ [(e.recordSampled req.requestId token).2]) := by
  obtain ⟨-, hfinished, -, sub, hsub, htrack⟩ := h.running req hreq
  obtain ⟨hsched, -, hresult, hframe⟩ := frame_recordSampled e req.requestId token
  obtain ⟨hwaiting, hconfig⟩ := Scheduler.waiting_recordOutput e.sched req.requestId token
  have hlive : ¬ FinishedIn results req.requestId := by
    rw [← hfinished, hstate]
    decide
  have hrecorded : (e.sched.recordOutput req.requestId token).1 =
      (Scheduler.recordToken req token).2 := by
    rw [Scheduler.recordOutput, runningRequest_eq h.runningIds hreq]
  obtain ⟨houtputs, hends, hafter⟩ := recordToken_finished req token
  rw [htrack.outputTokens, htrack.maxTokens, htrack.stopTokenIds] at hends
  rw [hresult, hrecorded]
  obtain ⟨hrunning, hrunningIds, -⟩ := running_recordOutput h.runningIds hreq token
  have hitems : (e.recordSampled req.requestId token).1.sched.waiting = e.sched.waiting := by
    rw [hsched, hwaiting]
  have hsubUnique : ∀ sub' ∈ submitted, sub'.requestId = req.requestId → sub' = sub :=
    fun sub' hsub' hid => inj_on_of_nodup_map h.submittedIds hsub' hsub
      (hid.trans htrack.requestId)
  have hwaitNe : ∀ q ∈ heap.items e.sched.waiting, q.request.requestId ≠ req.requestId := by
    intro q hq heq
    exact (nodup_append.1 h.ids).2.2 _ (mem_map_of_mem hreq) _
      (mem_map_of_mem (f := fun q : QueueEntry => q.request.requestId) hq) heq.symm
  rw [htrack.requestId] at hlive
  refine ⟨?_, ?_, h.submittedIds, fun r hr => ?_, fun rid hrid => ?_, fun sub' hsub' => ?_,
    fun q hq => ?_, fun req' hreq' => ?_⟩
  · rw [hsched, hconfig]
    exact h.config
  · rw [Engine.liveIds, hitems, hsched, hrunningIds]
    exact h.ids
  · rcases mem_append.1 hr with hold | hnew
    · exact h.known r hold
    · rw [mem_singleton.1 hnew, htrack.requestId]
      exact mem_map_of_mem hsub
  · have hne : rid ≠ req.requestId := by
      rintro rfl
      rw [htrack.requestId] at hrid
      exact hrid (mem_map_of_mem hsub)
    rw [(hframe rid hne).2]
    exact h.unknown rid hrid
  · by_cases hid : sub'.requestId = req.requestId
    · rw [hsubUnique sub' hsub' hid, htrack.requestId]
      exact (h.greedy sub hsub).snoc hlive (htrack.sequence ▸ hnext) hends
    · exact (h.greedy sub' hsub').of_ne hid
  · rw [hitems] at hq
    obtain ⟨hawaits, sub', hsub', htrack'⟩ := h.waiting q hq
    have hne := hwaitNe q hq
    refine ⟨⟨hawaits.queued, hawaits.outputTokens, ?_, ?_⟩, sub', hsub', htrack'.of_ne ?_⟩
    · rw [(hframe _ hne).1]
      exact hawaits.prompt
    · rw [(hframe _ hne).2]
      exact hawaits.outputs
    · exact fun heq => hne (htrack'.requestId.trans heq)
  · rw [hsched] at hreq'
    rcases hrunning req' hreq' with ⟨hold, hne⟩ | rfl
    · obtain ⟨hwait, hfin, hrest, sub', hsub', htrack'⟩ := h.running req' hold
      refine ⟨hwait, ?_, hrest, sub', hsub', htrack'.of_ne fun heq =>
        hne (htrack'.requestId.trans heq)⟩
      rw [hfin, finishedIn_append, finishedIn_singleton]
      exact (or_iff_left fun hr => hne hr.1.symm).symm
    · have hid' : (Scheduler.recordToken req token).1.requestId = req.requestId :=
        (recordToken_same req token).1
      refine ⟨?_, ?_, ?_, sub, hsub, ?_⟩
      · rw [hafter, hstate]
        split <;> decide
      · rw [hafter, hstate, hid', finishedIn_append, finishedIn_singleton, htrack.requestId,
          or_iff_right hlive]
        cases (Scheduler.recordToken req token).2 <;> simp
      · intro hprefill
        rw [hafter, hstate] at hprefill
        split at hprefill <;> cases hprefill
      · rw [htrack.requestId]
        exact htrack.recordToken

/-! ## Scheduling -/

theorem TokenInv.frame (h : TokenInv ex e submitted results) (radixCache : Option RadixTreeNode)
    (bm : BlockManager) (slab : Slab Row) :
    TokenInv ex { e with radixCache, bm, slab } submitted results where
  config := h.config
  ids := h.ids
  submittedIds := h.submittedIds
  known := h.known
  unknown := h.unknown
  greedy := h.greedy
  waiting := fun q hq =>
    have ⟨hawaits, htracks⟩ := h.waiting q hq
    ⟨⟨hawaits.queued, hawaits.outputTokens, hawaits.prompt, hawaits.outputs⟩, htracks⟩
  running := h.running

theorem evictCacheIfNeeded_frame (e : Engine heap Row) : ∃ radixCache bm,
    e.evictCacheIfNeeded = { e with radixCache, bm } := by
  rw [Engine.evictCacheIfNeeded]
  split
  · exact ⟨e.radixCache, e.bm, rfl⟩
  · dsimp only
    split
    · exact ⟨_, _, rfl⟩
    · exact ⟨e.radixCache, e.bm, rfl⟩

theorem TokenInv.evict (h : TokenInv ex e submitted results) :
    TokenInv ex e.evictCacheIfNeeded submitted results := by
  obtain ⟨radixCache, bm, heq⟩ := evictCacheIfNeeded_frame e
  rw [heq]
  exact h.frame radixCache bm e.slab

theorem find_buildCacheHits {rid : String} {prompt : List UInt32} {hit : PrefixCacheHit}
    (hprompt : e.promptTokens.lookup rid = some prompt)
    (hfind : e.buildCacheHits.find? (fun h => h.requestId = rid) = some hit) :
    hit.matchedBlocks = (e.matchPrefix prompt).1 ∧
      hit.matchedTokens = (e.matchPrefix prompt).2 := by
  have hid : hit.requestId = rid := by simpa using find?_some hfind
  obtain ⟨⟨rid', prompt'⟩, hentry, hsome⟩ :=
    mem_filterMap.1 (mem_of_find?_eq_some hfind)
  split at hsome
  case isTrue =>
    cases hsome
    cases hid
    have hlookup : e.promptTokens.lookup rid' = some prompt' := AList.mem_lookup_iff.2 hentry
    cases hlookup.symm.trans hprompt
    exact ⟨rfl, rfl⟩
  case isFalse => cases hsome

theorem withHit_cases (hits : List PrefixCacheHit) (req : Request) :
    req.withHit hits = req.startPrefill ∨
      ∃ hit, hits.find? (fun h => h.requestId = req.requestId) = some hit ∧ 0 < hit.matchedTokens ∧
        req.withHit hits = { req with
          prefillPos := hit.matchedTokens
          state := if req.promptTokens.length ≤ hit.matchedTokens then .decode else .prefill } := by
  rw [Request.withHit]
  cases hits.find? (fun h => h.requestId = req.requestId) with
  | none => exact .inl rfl
  | some hit =>
    dsimp only
    split
    case isTrue hpos => exact .inr ⟨hit, rfl, hpos, rfl⟩
    case isFalse => exact .inl rfl

theorem atRest_withHit (hawaits : e.Awaits req)
    (hserved : e.HitServed ex (req.withHit e.buildCacheHits)) :
    ((req.withHit e.buildCacheHits).state = .prefill ∨
        (req.withHit e.buildCacheHits).state = .decode) ∧
      AtRest ex.usesCacheManager (req.withHit e.buildCacheHits) := by
  rcases withHit_cases e.buildCacheHits req with heq | ⟨hit, hfind, hpos, heq⟩
  · rw [heq]
    exact ⟨.inl rfl, fun _ => ⟨hawaits.outputTokens, .inl hawaits.queued.2⟩⟩
  · rw [heq] at hserved ⊢
    have hmatched := (find_buildCacheHits hawaits.prompt hfind).2
    refine ⟨?_, fun hprefill => ⟨hawaits.outputTokens, .inr ?_⟩⟩
    · dsimp only
      split
      · exact .inr rfl
      · exact .inl rfl
    · dsimp only at hprefill ⊢
      have hpart : ¬ req.promptTokens.length ≤ hit.matchedTokens := by
        intro hwhole
        rw [if_pos hwhole] at hprefill
        cases hprefill
      rcases hserved with hzero | hserved
      · exact absurd (hmatched.trans hzero) (ne_of_gt hpos)
      · dsimp only at hserved
        rw [← hmatched] at hserved
        split at hserved
        case isTrue hkv => exact ⟨hkv, by omega⟩
        case isFalse => exact absurd hserved hpart

theorem atRest_of_turned {cfg : SchedulerConfig} {budget : Budget}
    {turn : Turn} {kv : Bool} (h : Turned cfg budget req bm turn)
    (hrest : AtRest kv req) (hwait : req.state ≠ .waiting)
    (hoom : turn.slot.result ≠ .skipped .outOfMemory)
    (hwhole : ∀ sr, turn.slot.scheduled? = some sr → sr.state ≠ .prefill) :
    turn.slot.after.state ≠ .waiting ∧ (turn.slot.after.state = .finished ↔ req.state = .finished) ∧
      AtRest kv turn.slot.after ∧
      (turn.slot.scheduled? = none → turn.slot.after = req ∨
        req.promptTokens = [] ∧ req.outputTokens = [] ∧
          turn.slot.after = { req with state := .decode }) := by
  have hdecode : ∀ after : Request, after.state = .decode → req.state ≠ .finished →
      after.state ≠ .waiting ∧ (after.state = .finished ↔ req.state = .finished) ∧
        AtRest kv after := by
    intro after hafter hlive
    refine ⟨by rw [hafter]; decide, iff_of_false (by rw [hafter]; decide) hlive, fun hprefill => ?_⟩
    rw [hafter] at hprefill
    cases hprefill
  cases h with
  | exhausted hstate hremains =>
    obtain ⟨hnil, hpos⟩ := hrest hstate
    have hle : req.promptTokens.length ≤ req.prefillPos := by
      by_contra hnot
      exact tokensRemaining_ne_zero_iff.2 (Nat.lt_of_not_le hnot) hremains
    have hempty : req.promptTokens = [] := by
      rw [← length_eq_zero_iff]
      omega
    obtain ⟨h₁, h₂, h₃⟩ := hdecode { req with state := .decode } rfl
      (by rw [hstate]; decide)
    exact ⟨h₁, h₂, h₃, fun _ => .inr ⟨hempty, hnil, rfl⟩⟩
  | promptUnreserved => exact absurd rfl hoom
  | @chunk hstate hremains =>
    obtain ⟨-, hafter⟩ := chunk_whole hremains (hwhole _ rfl) hstate
    obtain ⟨h₁, h₂, h₃⟩ := hdecode _ hafter (by rw [hstate]; decide)
    exact ⟨h₁, h₂, h₃, fun hnone => nomatch hnone⟩
  | _ => exact ⟨hwait, Iff.rfl, hrest, fun _ => .inl rfl⟩

theorem scheduleBatch_eq (e : Engine heap Row) :
    e.scheduleBatch.1.sched = { e.admission.1 with running := e.slots.map Slot.after } ∧
      e.scheduleBatch.2 = e.slots.filterMap Slot.scheduled? := ⟨rfl, rfl⟩

theorem slots_before (e : Engine heap Row) :
    e.slots.map Slot.before = e.admission.1.running :=
  buildSlots_before e.admission.1.config ⟨0, 0⟩ e.admission.1.running e.admission.2

theorem withHit_same (hits : List PrefixCacheHit) (req : Request) :
    (req.withHit hits).requestId = req.requestId ∧
      (req.withHit hits).promptTokens = req.promptTokens ∧
      (req.withHit hits).outputTokens = req.outputTokens ∧
      (req.withHit hits).maxTokens = req.maxTokens ∧
      (req.withHit hits).stopTokenIds = req.stopTokenIds := by
  rcases withHit_cases hits req with heq | ⟨hit, -, -, heq⟩
  · rw [heq]
    exact ⟨rfl, rfl, rfl, rfl, rfl⟩
  · rw [heq]
    exact ⟨rfl, rfl, rfl, rfl, rfl⟩

/-- A running request as the engine knows it. -/
structure Entering (ex : Executor Row Logits) (results : List GenerationResult)
    (submitted : List Submission) (req : Request) : Prop where
  ne_waiting : req.state ≠ .waiting
  finished_iff : req.state = .finished ↔ FinishedIn results req.requestId
  rest : AtRest ex.usesCacheManager req
  tracked : ∃ sub ∈ submitted, Tracks results sub req

theorem admission_spec (e : Engine heap Row) : ∃ entries,
    (heap.items e.sched.waiting).Perm (entries ++ heap.items e.admission.1.waiting) ∧
      e.admitted = entries.map (fun q => q.request.withHit e.buildCacheHits) ∧
      e.admission.1.running = e.sched.running.filter (!·.isFinished) ++ e.admitted ∧
      e.admission.1.config = e.sched.config ∧
      e.admission.2 = entries.foldl (fun bm q => (admitRequest e.buildCacheHits bm q.request).2)
        (Scheduler.reap e.sched.running e.bm).2 := by
  obtain ⟨entries, hwait, hrunning, hpool, hconfig, -⟩ := e.sched.admitRequests_spec e.bm
    e.buildCacheHits
  have hadmitted : e.admitted = entries.map fun q => q.request.withHit e.buildCacheHits := by
    rw [Engine.admitted, Engine.admission, hrunning]
    exact drop_left
  refine ⟨entries, hwait, hadmitted, ?_, hconfig, hpool⟩
  rw [hadmitted]
  exact hrunning

theorem slots_after_ids (h : ∀ slot ∈ e.slots, slot.after.requestId = slot.before.requestId) :
    (e.slots.map Slot.after).map Request.requestId =
      e.admission.1.running.map Request.requestId := by
  rw [← slots_before, map_map, map_map]
  exact map_congr_left h

section Scheduled

variable (h : TokenInv ex e submitted results) (hserved : ∀ req ∈ e.admitted, e.HitServed ex req)
include h hserved

theorem TokenInv.admission :
    (e.admission.1.running.map Request.requestId ++
        (heap.items e.admission.1.waiting).map fun q => q.request.requestId).Nodup ∧
      (∀ q ∈ heap.items e.admission.1.waiting, q ∈ heap.items e.sched.waiting) ∧
      ∀ req ∈ e.admission.1.running, Entering ex results submitted req := by
  obtain ⟨entries, hwait, hadmitted, hrun, -⟩ := admission_spec e
  have hentry : ∀ q, q ∈ entries ∨ q ∈ heap.items e.admission.1.waiting →
      q ∈ heap.items e.sched.waiting := fun q hq => hwait.mem_iff.2 (mem_append.2 hq)
  refine ⟨?_, fun q hq => hentry q (.inr hq), fun req hreq => ?_⟩
  · -- the ids are those of before, without the reaped ones
    have hadmittedIds : e.admitted.map Request.requestId =
        entries.map fun q => q.request.requestId := by
      rw [hadmitted, map_map]
      exact map_congr_left fun q _ => (withHit_same _ q.request).1
    have hids := ((hwait.map fun q => q.request.requestId).append_left _).nodup_iff.1 h.ids
    rw [map_append] at hids
    rw [hrun, map_append, hadmittedIds, append_assoc]
    exact hids.sublist (.append (filter_sublist.map _) (.refl _))
  · rw [hrun] at hreq
    rcases mem_append.1 hreq with hold | hnew
    · obtain ⟨hwaiting, hfin, hrest, htracked⟩ := h.running req (mem_filter.1 hold).1
      exact ⟨hwaiting, hfin, hrest, htracked⟩
    · have hmap := hnew
      rw [hadmitted] at hmap
      obtain ⟨q, hq, rfl⟩ := mem_map.1 hmap
      obtain ⟨hawaits, sub, hsub, htrack⟩ := h.waiting q (hentry q (.inl hq))
      obtain ⟨hstate, hrest⟩ := atRest_withHit hawaits (hserved _ hnew)
      obtain ⟨hid, hprompt, houtputs, hmax, hstops⟩ := withHit_same e.buildCacheHits q.request
      have hunfinished : ¬ FinishedIn results q.request.requestId := by
        intro hfin
        rw [htrack.requestId] at hfin
        -- a finished output is not empty
        have hends := ((h.greedy sub hsub).finished hfin).1
        rw [← htrack.outputTokens, hawaits.outputTokens] at hends
        exact not_ends_nil _ _ hends
      refine ⟨?_, ?_, hrest, sub, hsub, hid.trans htrack.requestId,
        hprompt.trans htrack.promptTokens, hmax.trans htrack.maxTokens,
        hstops.trans htrack.stopTokenIds, houtputs.trans htrack.outputTokens⟩
      · rcases hstate with hstate | hstate
        · rw [hstate]
          decide
        · rw [hstate]
          decide
      · rw [hid]
        refine iff_of_false ?_ hunfinished
        rcases hstate with hstate | hstate
        · rw [hstate]
          decide
        · rw [hstate]
          decide

theorem TokenInv.slot (hcalm : e.Undisturbed) {slot : Slot} (hslot : slot ∈ e.slots) :
    Entering ex results submitted slot.before ∧ Entering ex results submitted slot.after ∧
      slot.after.requestId = slot.before.requestId ∧
      (slot.scheduled? = none → slot.after = slot.before ∨ slot.before.promptTokens = [] ∧
        slot.before.outputTokens = [] ∧ slot.after = { slot.before with state := .decode }) := by
  obtain ⟨-, -, hentering⟩ := h.admission hserved
  have hbefore : slot.before ∈ e.admission.1.running := by
    rw [← slots_before]
    exact mem_map_of_mem hslot
  obtain ⟨budget, bm, turn, hturn, rfl⟩ := turned_of_mem_buildSlots _ _ _ _ slot hslot
  have henter := hentering _ hbefore
  obtain ⟨hwait, hfin, hrest, hidle⟩ := atRest_of_turned hturn henter.rest henter.ne_waiting
    (hcalm.1 _ hslot) fun sr hsr => hcalm.2.1 sr (mem_filterMap.2 ⟨_, hslot, hsr⟩)
  have hafter := after_eq_of_turned hturn
  have hid : turn.slot.after.requestId = turn.slot.before.requestId := by rw [hafter]
  obtain ⟨sub, hsub, htrack⟩ := henter.tracked
  refine ⟨henter, ⟨hwait, ?_, hrest, sub, hsub, ?_⟩, hid, hidle⟩
  · rw [hfin, hid]
    exact henter.finished_iff
  · rw [hafter]
    exact ⟨htrack.requestId, htrack.promptTokens, htrack.maxTokens, htrack.stopTokenIds,
      htrack.outputTokens⟩

theorem TokenInv.schedule (hcalm : e.Undisturbed) :
    TokenInv ex e.scheduleBatch.1 submitted results := by
  obtain ⟨hids, hqueue, -⟩ := h.admission hserved
  have hconfig : e.admission.1.config = e.sched.config := (admission_spec e).choose_spec.2.2.2.1
  have hslots := fun slot (hslot : slot ∈ e.slots) => h.slot hserved hcalm hslot
  refine ⟨(congrArg SchedulerConfig.useKvCache hconfig).trans h.config, ?_, h.submittedIds,
    h.known, h.unknown, h.greedy, fun q hq => ?_, fun req hreq => ?_⟩
  · rw [Engine.liveIds, (scheduleBatch_eq e).1,
      slots_after_ids fun slot hslot => (hslots slot hslot).2.2.1]
    exact hids
  · obtain ⟨hawaits, htracks⟩ := h.waiting q (hqueue q hq)
    exact ⟨⟨hawaits.queued, hawaits.outputTokens, hawaits.prompt, hawaits.outputs⟩, htracks⟩
  · obtain ⟨slot, hslot, rfl⟩ := mem_map.1 hreq
    obtain ⟨-, henter, -⟩ := hslots slot hslot
    exact ⟨henter.ne_waiting, henter.finished_iff, henter.rest, henter.tracked⟩

end Scheduled

end CompileForge.PythonRuntime
