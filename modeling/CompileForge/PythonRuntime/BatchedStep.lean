/-
  A step of the Python engine without a cache manager (`_inference_loop.py`): the batch is
  forwarded as one tensor (`_step_batch`) or request by request (`_step_per_request`), and both
  ways share the sampling loop.
-/

import CompileForge.PythonRuntime.EngineRows
import CompileForge.Runtime.Engine.RequestNames
import CompileForge.Lib.Known
import Mathlib.Algebra.Group.PUnit

namespace CompileForge.PythonRuntime.Batched

open Lib CompileForge.Runtime List

/-! ## The step -/

/-- What `sample` is given; a float is its bit pattern. -/
structure SamplingParams where
  temperature : UInt64 := 0x3FF0000000000000
  topP : UInt64 := 0x3FF0000000000000
  topK : Int := 0
deriving DecidableEq, Repr

/-- `forward` on the rows of a batch: the logits of every token of each row. -/
structure RowExecutor (Logits : Type) where
  row : List UInt32 → List UInt32 → List Logits
  length_row : ∀ inputIds positions, (row inputIds positions).length = inputIds.length

variable {Logits Seed : Type} {heap : MaxHeap QueueEntry QueueEntry.rank}

/-- Every row of the input is acted on apart, and nothing is raised. -/
def RowExecutor.forward (ex : RowExecutor Logits) (inputs positions : List (List UInt32)) :
    List (List Logits) := inputs.zipWith ex.row positions

/-- The engine with the sampling parameters, and the seed of each request. -/
structure Loop (heap : MaxHeap QueueEntry QueueEntry.rank) (Seed : Type) where
  engine : Engine heap Unit
  samplingParams : AList fun _ : String => SamplingParams
  seeds : String → Seed

/-- What a step raises: sizes that `torch.stack` refuses, and the last of no logits. -/
inductive StepError where
  | stack | index
deriving DecidableEq, Repr

/-- An exception keeps what the loop has recorded before it. -/
abbrev StepResult (heap : MaxHeap QueueEntry QueueEntry.rank) (Seed : Type) :=
  Loop heap Seed × Except StepError (List GenerationResult)

/-- A loop that extends `results` in every turn, until one raises. -/
def extendLoop {α : Type} (turn : Loop heap Seed → α → StepResult heap Seed) :
    Loop heap Seed → List α → StepResult heap Seed
  | l, [] => (l, .ok [])
  | l, a :: rest =>
    match turn l a with
    | (l', .error e) => (l', .error e)
    | (l', .ok results) =>
      let others := extendLoop turn l' rest
      (others.1, others.2.map (results ++ ·))

namespace Loop

variable (ex : RowExecutor Logits) (draw : SamplingParams → Logits → Seed → UInt32 × Seed)
  (l : Loop heap Seed)

def record (rid : String) (token : UInt32) : Loop heap Seed × GenerationResult :=
  let recorded := l.engine.recordSampled rid token
  ({ l with
      engine := recorded.1
      samplingParams := if recorded.2.isFinished then l.samplingParams.erase rid
        else l.samplingParams }, recorded.2)

/-- One turn of the sampling loop, on the last of the logits of a row. -/
def sampleLast (sr : ScheduledRequest) (logits : List Logits) : StepResult heap Seed :=
  if sr.state = .prefill then (l, .ok [])
  else
    match logits.getLast? with
    | none => (l, .error .index)
    | some last =>
      let rid := sr.requestId
      let drawn := draw ((l.samplingParams.lookup rid).getD {}) last (l.seeds rid)
      let recorded := record { l with seeds := Function.update l.seeds rid drawn.2 } rid drawn.1
      (recorded.1, .ok [recorded.2])

/-- `_sample_from_logits`; a row that the tensor does not have has no logits. -/
def sampleFromLogits (logits : List (List Logits)) (batch : List ScheduledRequest)
    (singleReq : Option Nat) : StepResult heap Seed :=
  let reqStart := singleReq.getD 0
  let reqEnd := match singleReq with
    | none => reqStart + logits.length
    | some i => i + 1
  extendLoop (fun l e => sampleLast draw l e.1 (logits.getD e.2 [])) l
    ((batch.take reqEnd).drop reqStart).zipIdx

/-- `torch.stack` of vectors. -/
def stack (rows : List (List UInt32)) : Except StepError (List (List UInt32)) :=
  if ∀ row ∈ rows, row.length = (rows.headD []).length then .ok rows else .error .stack

def stepBatch (batch : List ScheduledRequest) : StepResult heap Seed :=
  match stack (batch.map ScheduledRequest.inputIds), stack (batch.map ScheduledRequest.positions)
    with
  | .ok input, .ok positions => sampleFromLogits draw l (ex.forward input positions) batch none
  | _, _ => (l, .error .stack)

def stepPerRequest (batch : List ScheduledRequest) : StepResult heap Seed :=
  extendLoop (fun l e => sampleFromLogits draw l
    (ex.forward [e.1.inputIds] [e.1.positions]) batch (some e.2)) l batch.zipIdx

def canBatchForward : List ScheduledRequest → Bool
  | [] => false
  | [_] => true
  | first :: rest => rest.all fun sr => sr.inputIds.length = first.inputIds.length

/-- The step up to the forward pass, with the batch it leads to. -/
def scheduled : Loop heap Seed × List ScheduledRequest :=
  let scheduled := l.engine.evictCacheIfNeeded.scheduleBatch
  ({ l with engine := scheduled.1 }, scheduled.2)

def step : StepResult heap Seed :=
  let scheduled := l.scheduled
  if scheduled.2 = [] then (scheduled.1, .ok [])
  else if canBatchForward scheduled.2 then stepBatch ex draw scheduled.1 scheduled.2
  else stepPerRequest ex draw scheduled.1 scheduled.2

end Loop

section Forwarding

variable {ex : RowExecutor Logits} {draw : SamplingParams → Logits → Seed → UInt32 × Seed}
  {l : Loop heap Seed} {batch : List ScheduledRequest} {α β : Type}

/-- The turn of a request that is forwarded and sampled alone. -/
def ownTurn (ex : RowExecutor Logits) (draw : SamplingParams → Logits → Seed → UInt32 × Seed)
    (l : Loop heap Seed) (sr : ScheduledRequest) : StepResult heap Seed :=
  l.sampleLast draw sr (ex.row sr.inputIds sr.positions)

theorem extendLoop_congr {turn turn' : Loop heap Seed → α → StepResult heap Seed} {as : List α}
    (h : ∀ a ∈ as, ∀ l, turn l a = turn' l a) : extendLoop turn l as = extendLoop turn' l as := by
  induction as generalizing l with
  | nil => rfl
  | cons a as ih =>
    have hrest := fun l => ih (l := l) fun b hb => h b (mem_cons_of_mem a hb)
    simp only [extendLoop, h a mem_cons_self, hrest]

theorem extendLoop_map (f : α → β) (turn : Loop heap Seed → β → StepResult heap Seed)
    (as : List α) : extendLoop (fun l a => turn l (f a)) l as = extendLoop turn l (as.map f) := by
  induction as generalizing l with
  | nil => rfl
  | cons a as ih => simp only [extendLoop, map_cons, ih]

theorem extendLoop_singleton (turn : Loop heap Seed → α → StepResult heap Seed) (a : α) :
    extendLoop turn l [a] = turn l a := by
  rw [extendLoop]
  rcases turn l a with ⟨l', e | results⟩
  · rfl
  · show (l', Except.ok (results ++ [])) = _
    rw [append_nil]

/-- A loop over the requests and their places that gives each its own turn. -/
theorem extendLoop_zipIdx
    {turn : Loop heap Seed → ScheduledRequest × Nat → StepResult heap Seed}
    (h : ∀ sr i, batch[i]? = some sr → ∀ l, turn l (sr, i) = ownTurn ex draw l sr) :
    extendLoop turn l batch.zipIdx = extendLoop (ownTurn ex draw) l batch := by
  have hown : extendLoop turn l batch.zipIdx =
      extendLoop (fun l e => ownTurn ex draw l e.1) l batch.zipIdx :=
    extendLoop_congr fun e he => h e.1 e.2 (mem_zipIdx_iff_getElem?.mp he)
  rw [hown, extendLoop_map Prod.fst (ownTurn ex draw), zipIdx_map_fst]

theorem stepPerRequest_eq (l : Loop heap Seed) (batch : List ScheduledRequest) :
    l.stepPerRequest ex draw batch = extendLoop (ownTurn ex draw) l batch := by
  refine extendLoop_zipIdx fun sr i hsr l => ?_
  have hone : (batch.take (i + 1)).drop i = [sr] := by
    obtain ⟨hi, -⟩ := List.getElem?_eq_some_iff.1 hsr
    rw [take_add_one, hsr, drop_append_of_le_length (by rw [length_take]; omega),
      drop_of_length_le (length_take_le i batch)]
    rfl
  show extendLoop _ l ((batch.take (i + 1)).drop i).zipIdx = _
  rw [hone]
  exact extendLoop_singleton _ (sr, 0)

theorem stepBatch_eq (hinput : ∀ a ∈ batch, ∀ b ∈ batch, a.inputIds.length = b.inputIds.length)
    (hpositions : ∀ sr ∈ batch, sr.positions.length = sr.inputIds.length) :
    l.stepBatch ex draw batch = extendLoop (ownTurn ex draw) l batch := by
  have hstack : ∀ f : ScheduledRequest → List UInt32,
      (∀ sr ∈ batch, (f sr).length = sr.inputIds.length) →
      Loop.stack (batch.map f) = .ok (batch.map f) := by
    intro f hf
    refine if_pos fun row hrow => ?_
    obtain ⟨sr, hsr, rfl⟩ := mem_map.1 hrow
    cases batch with
    | nil => cases hsr
    | cons first =>
      rw [map_cons, headD_cons, hf sr hsr, hf first mem_cons_self]
      exact hinput sr hsr first mem_cons_self
  rw [Loop.stepBatch, hstack _ fun _ _ => rfl, hstack _ hpositions]
  have hforward : ex.forward (batch.map ScheduledRequest.inputIds)
      (batch.map ScheduledRequest.positions) =
      batch.map fun sr => ex.row sr.inputIds sr.positions := by
    rw [RowExecutor.forward, zipWith_map, zipWith_self]
  show extendLoop _ l ((batch.take (0 + (ex.forward _ _).length)).drop 0).zipIdx = _
  rw [hforward, length_map, zero_add, take_length, drop_zero]
  refine extendLoop_zipIdx fun sr i hsr l => ?_
  rw [getD_eq_getElem?_getD, getElem?_map, hsr]
  rfl

theorem lengths_of_canBatch (h : Loop.canBatchForward batch = true) :
    ∀ a ∈ batch, ∀ b ∈ batch, a.inputIds.length = b.inputIds.length := by
  rcases batch with _ | ⟨first, _ | ⟨second, rest⟩⟩
  · cases h
  · exact fun a ha b hb => by rw [mem_singleton.1 ha, mem_singleton.1 hb]
  · have hfirst : ∀ sr ∈ first :: second :: rest, sr.inputIds.length = first.inputIds.length := by
      intro sr hsr
      rcases mem_cons.1 hsr with rfl | hsr
      · rfl
      · simpa using all_eq_true.1 h sr hsr
    exact fun a ha b hb => (hfirst a ha).trans (hfirst b hb).symm

theorem step_eq (hpositions : ∀ sr ∈ l.scheduled.2, sr.positions.length = sr.inputIds.length) :
    l.step ex draw = extendLoop (ownTurn ex draw) l.scheduled.1 l.scheduled.2 := by
  rw [Loop.step]
  split
  case isTrue hempty => rw [hempty]; rfl
  case isFalse =>
    split
    case isTrue hbatch => exact stepBatch_eq (lengths_of_canBatch hbatch) hpositions
    case isFalse => exact stepPerRequest_eq _ _

end Forwarding

section Results

variable {ex : RowExecutor Logits} {draw : SamplingParams → Logits → Seed → UInt32 × Seed}
  {l l' : Loop heap Seed} {batch : List ScheduledRequest} {rid rid' : String}

/-- The result of a request alone: one token, from the last of its logits, its parameters and its
    seed as they are in the state `l`. -/
def OwnResult (ex : RowExecutor Logits) (draw : SamplingParams → Logits → Seed → UInt32 × Seed)
    (l : Loop heap Seed) (r : GenerationResult) (sr : ScheduledRequest) : Prop :=
  ∃ last token, (ex.row sr.inputIds sr.positions).getLast? = some last ∧
    (draw ((l.samplingParams.lookup sr.requestId).getD {}) last (l.seeds sr.requestId)).1 = token ∧
    r = { requestId := sr.requestId, newTokens := [token]
          isFinished := (l.engine.sched.recordOutput sr.requestId token).1 }

/-- Two states in which sampling for the request does the same. -/
structure SameFor (rid : String) (l l' : Loop heap Seed) : Prop where
  params : l'.samplingParams.lookup rid = l.samplingParams.lookup rid
  seed : l'.seeds rid = l.seeds rid
  request : l'.engine.sched.runningRequest rid = l.engine.sched.runningRequest rid

theorem SameFor.ownResult {sr : ScheduledRequest} {r : GenerationResult}
    (h : SameFor sr.requestId l l') (hr : OwnResult ex draw l' r sr) :
    OwnResult ex draw l r sr := by
  obtain ⟨last, token, hlast, htoken, rfl⟩ := hr
  refine ⟨last, token, hlast, ?_, ?_⟩
  · rw [← h.params, ← h.seed, htoken]
  · rw [Scheduler.recordOutput, Scheduler.recordOutput, h.request]
    cases l.engine.sched.runningRequest sr.requestId <;> rfl

theorem runningRequest_recordOutput_ne (s : Scheduler heap) (hne : rid' ≠ rid) (token : UInt32) :
    (s.recordOutput rid token).2.runningRequest rid' = s.runningRequest rid' := by
  rw [Scheduler.runningRequest, Driver.running_recordOutput, Scheduler.runningRequest]
  induction s.running with
  | nil => rfl
  | cons req rest ih =>
    rw [updateFirst]
    split
    case isTrue hid =>
      have hid : req.requestId ≠ rid' := (of_decide_eq_true hid).trans_ne hne.symm
      simp only [find?_cons, (recordToken_same req token).1, decide_eq_false hid]
    case isFalse => rw [find?_cons, find?_cons, ih]

theorem sameFor_record (hne : rid' ≠ rid) (token : UInt32) (seed : Seed) :
    SameFor rid' l (({ l with seeds := Function.update l.seeds rid seed } :
      Loop heap Seed).record rid token).1 where
  params := by
    rw [Loop.record]
    dsimp only
    split
    · exact AList.lookup_erase_ne hne
    · rfl
  seed := Function.update_of_ne hne _ _
  request := by
    show (l.engine.recordSampled rid token).1.sched.runningRequest rid' = _
    rw [(frame_recordSampled l.engine rid token).1]
    exact runningRequest_recordOutput_ne _ hne token

/-- A turn is the own result of its request, and nothing to sampling for the others. -/
theorem ownTurn_spec {sr : ScheduledRequest} (hstate : sr.state ≠ .prefill)
    (hinput : sr.inputIds ≠ []) : ∃ l' r, ownTurn ex draw l sr = (l', .ok [r]) ∧
      OwnResult ex draw l r sr ∧ ∀ rid ≠ sr.requestId, SameFor rid l l' := by
  obtain ⟨last, hlast⟩ : ∃ last, (ex.row sr.inputIds sr.positions).getLast? = some last := by
    have hlen := ex.length_row sr.inputIds sr.positions
    refine ⟨_, getLast?_eq_some_getLast fun hnil => hinput ?_⟩
    rwa [hnil, length_nil, eq_comm, length_eq_zero_iff] at hlen
  let drawn := draw ((l.samplingParams.lookup sr.requestId).getD {}) last (l.seeds sr.requestId)
  refine ⟨_, _, ?_, ⟨last, drawn.1, hlast, rfl,
    (frame_recordSampled l.engine sr.requestId drawn.1).2.2.1⟩,
    fun rid hne => sameFor_record hne drawn.1 drawn.2⟩
  rw [ownTurn, Loop.sampleLast, if_neg hstate, hlast]
  rfl

theorem extendLoop_own (hids : (batch.map ScheduledRequest.requestId).Nodup)
    (hinput : ∀ sr ∈ batch, sr.inputIds ≠ []) :
    ∃ results, (extendLoop (ownTurn ex draw) l batch).2 = .ok results ∧
      Forall₂ (OwnResult ex draw l) results (batch.filter (·.state ≠ .prefill)) := by
  induction batch generalizing l with
  | nil => exact ⟨[], rfl, .nil⟩
  | cons sr rest ih =>
    rw [map_cons, nodup_cons] at hids
    have hrest := fun l => ih (l := l) hids.2 fun sr' hsr' => hinput sr' (mem_cons_of_mem sr hsr')
    rw [extendLoop]
    by_cases hstate : sr.state = .prefill
    · obtain ⟨results, hresults, hown⟩ := hrest l
      rw [filter_cons_of_neg (by simpa using hstate)]
      refine ⟨results, ?_, hown⟩
      rw [ownTurn, Loop.sampleLast, if_pos hstate]
      show Except.map ([] ++ ·) _ = _
      rw [hresults]
      rfl
    · obtain ⟨l', r, hturn, hr, hsame⟩ := ownTurn_spec hstate (hinput sr mem_cons_self)
      obtain ⟨results, hresults, hown⟩ := hrest l'
      rw [filter_cons_of_pos (by simpa using hstate), hturn]
      refine ⟨r :: results, ?_, .cons hr (forall₂_imp_mem hown fun r' sr' hsr' hr' => ?_)⟩
      · show Except.map _ _ = _
        rw [hresults]
        rfl
      · have hne : sr'.requestId ≠ sr.requestId := fun heq =>
          hids.1 (heq ▸ mem_map_of_mem (mem_of_mem_filter hsr'))
        exact (hsame _ hne).ownResult hr'

end Results

/-! ## What an engine knows of its requests -/

variable (submitted : List Submission)

/-- The request was submitted with the prompt. -/
def Known (rid : String) (prompt : List UInt32) : Prop :=
  ∃ sub ∈ submitted, sub.requestId = rid ∧ sub.promptTokens = prompt

/-- The tables are those of requests with a prompt, where no K/V cache makes others. -/
def Tabled (cfg : SchedulerConfig) (bm : BlockManager) : Prop :=
  cfg.useKvCache = false → ∀ rid ∈ bm.blockTables, ∃ prompt ≠ [], Known submitted rid prompt

structure Kept (e : Engine heap Unit) : Prop where
  submittedIds : (submitted.map Submission.requestId).Nodup
  ids : e.sched.liveIds.Nodup
  running : ∀ req ∈ e.sched.running, Known submitted req.requestId req.promptTokens
  waiting : ∀ q ∈ heap.items e.sched.waiting,
    Known submitted q.request.requestId q.request.promptTokens
  prompts : ∀ rid, ∀ prompt ∈ e.promptTokens.lookup rid, Known submitted rid prompt
  tables : Tabled submitted e.sched.config e.bm

section Kept

variable {submitted : List Submission} {rid : String} {prompt prompt' : List UInt32}
  {cfg : SchedulerConfig} {bm bm' : BlockManager} {e e' : Engine heap Unit}

theorem Known.inj (hids : (submitted.map Submission.requestId).Nodup)
    (h : Known submitted rid prompt) (h' : Known submitted rid prompt') : prompt = prompt' := by
  obtain ⟨sub, hsub, rfl, rfl⟩ := h
  obtain ⟨sub', hsub', hid, rfl⟩ := h'
  rw [inj_on_of_nodup_map hids hsub' hsub hid]

theorem Known.append (h : Known submitted rid prompt) (more : List Submission) :
    Known (submitted ++ more) rid prompt := by
  obtain ⟨sub, hsub, hknown⟩ := h
  exact ⟨sub, mem_append_left more hsub, hknown⟩

theorem Tabled.of_lookup (h : Tabled submitted cfg bm)
    (hsame : ∀ rid', rid' ≠ rid → bm'.blockTables.lookup rid' = bm.blockTables.lookup rid')
    (hrid : cfg.useKvCache = false → rid ∈ bm'.blockTables →
      ∃ prompt ≠ [], Known submitted rid prompt) : Tabled submitted cfg bm' := by
  intro hkv rid' hmem
  by_cases hid : rid' = rid
  · exact hid ▸ hrid hkv (hid ▸ hmem)
  · refine h hkv rid' ?_
    rwa [← AList.lookup_isSome, ← hsame rid' hid, AList.lookup_isSome]

theorem Tabled.foldl_free (h : Tabled submitted cfg bm) (rids : List String) :
    Tabled submitted cfg (rids.foldl BlockManager.free bm) := by
  induction rids generalizing bm with
  | nil => exact h
  | cons rid rids ih =>
    refine ih (h.of_lookup (fun rid' (hne : rid' ≠ rid) => ?_) fun _ hmem => ?_)
    · rw [BlockManager.lookup_free, if_neg hne]
    · rw [← AList.lookup_isSome, BlockManager.lookup_free, if_pos rfl] at hmem
      cases hmem

section Engine

variable (h : Kept submitted e)
include h

theorem Kept.of_blockTables (hsched : e'.sched = e.sched)
    (hprompts : e'.promptTokens = e.promptTokens) (htables : e'.bm.blockTables = e.bm.blockTables) :
    Kept submitted e' where
  submittedIds := h.submittedIds
  ids := hsched ▸ h.ids
  running := hsched ▸ h.running
  waiting := hsched ▸ h.waiting
  prompts := hprompts ▸ h.prompts
  tables := by
    rw [hsched, Tabled, htables]
    exact h.tables

theorem Kept.evict : Kept submitted e.evictCacheIfNeeded := by
  rw [Engine.evictCacheIfNeeded]
  split
  · exact h
  · dsimp only
    split
    · refine h.of_blockTables rfl rfl ?_
      rw [PyRadix.evict]
      split
      · rfl
      · exact BlockManager.blockTables_foldl_freeBlock _
    · exact h

theorem Kept.insertFinished (rid : String) : Kept submitted (e.insertFinishedToCache rid) := by
  rw [Engine.insertFinishedToCache]
  split
  · exact h
  · split
    · exact h
    · split
      · exact h
      · exact h.of_blockTables rfl rfl (BlockManager.blockTables_foldl_increment _)

theorem Kept.cleanup (rid : String) : Kept submitted (e.cleanupRequest rid) where
  submittedIds := h.submittedIds
  ids := h.ids
  running := h.running
  waiting := h.waiting
  prompts := fun rid' prompt hprompt => by
    refine h.prompts rid' prompt ?_
    by_cases hid : rid' = rid
    · rw [hid] at hprompt
      cases (AList.lookup_erase rid e.promptTokens).symm.trans hprompt
    · exact (AList.lookup_erase_ne hid).symm.trans hprompt
  tables := h.tables.foldl_free [rid]

theorem Kept.recordOutput (rid : String) (token : UInt32)
    (outputTokens : AList fun _ : String => List UInt32) :
    Kept submitted { e with sched := (e.sched.recordOutput rid token).2, outputTokens } := by
  obtain ⟨hwaiting, hconfig⟩ := Scheduler.waiting_recordOutput e.sched rid token
  have hrunning := Driver.running_recordOutput e.sched rid token
  refine ⟨h.submittedIds, ?_, fun req hreq => ?_, ?_, h.prompts, ?_⟩
  · rw [Scheduler.liveIds, hwaiting, hrunning, InferenceRunner.map_requestId_updateFirst]
    exact h.ids
  · rw [hrunning] at hreq
    rcases Driver.mem_updateFirst hreq with hold | ⟨req, hold, -, rfl⟩
    · exact h.running req hold
    · obtain ⟨hid, hprompt, -⟩ := recordToken_same req token
      rw [hid, hprompt]
      exact h.running req hold
  · rw [hwaiting]
    exact h.waiting
  · rw [hconfig]
    exact h.tables

theorem Kept.recordSampled (rid : String) (token : UInt32) :
    Kept submitted (e.recordSampled rid token).1 := by
  have hrecord := h.recordOutput rid token (e.outputTokens.insert rid (e.outputs rid ++ [token]))
  rw [Engine.recordSampled]
  dsimp only
  split
  · exact (hrecord.insertFinished rid).cleanup rid
  · exact hrecord

theorem Kept.submitted_of_live (hrid : rid ∈ e.sched.liveIds) :
    rid ∈ submitted.map Submission.requestId := by
  have hknown : ∃ prompt, Known submitted rid prompt := by
    rcases mem_append.1 hrid with hrun | hwait
    · obtain ⟨req, hreq, rfl⟩ := mem_map.1 hrun
      exact ⟨_, h.running req hreq⟩
    · obtain ⟨q, hq, rfl⟩ := mem_map.1 hwait
      exact ⟨_, h.waiting q hq⟩
  obtain ⟨prompt, sub, hsub, rfl, -⟩ := hknown
  exact mem_map_of_mem hsub

theorem Kept.addRequest {sub : Submission}
    (hfresh : sub.requestId ∉ submitted.map Submission.requestId) :
    Kept (submitted ++ [sub])
      (e.addRequest sub.requestId sub.promptTokens sub.maxTokens sub.stopTokenIds) := by
  have hnew : Known (submitted ++ [sub]) sub.requestId sub.promptTokens :=
    ⟨sub, mem_append_right _ (mem_singleton_self sub), rfl, rfl⟩
  refine ⟨?_, ?_, fun req hreq => (h.running req hreq).append _, fun q hq => ?_,
    fun rid prompt hprompt => ?_, fun hkv rid hrid => ?_⟩
  · rw [map_append, map_singleton, ← concat_eq_append]
    exact h.submittedIds.concat hfresh
  · refine (Registry.liveIds_addRequest e.sched sub.promptTokens 0 sub.maxTokens
      sub.stopTokenIds (some sub.requestId)).nodup_iff.2
        (nodup_cons.2 ⟨fun hmem => hfresh (h.submitted_of_live hmem), h.ids⟩)
  · rcases heap.mem_push.1 hq with rfl | hold
    · exact hnew
    · exact (h.waiting q hold).append _
  · by_cases hid : rid = sub.requestId
    · rw [hid] at hprompt ⊢
      cases (AList.lookup_insert e.promptTokens).symm.trans hprompt
      exact hnew
    · exact (h.prompts rid prompt ((AList.lookup_insert_ne hid).symm.trans hprompt)).append _
  · obtain ⟨prompt, hprompt, hold⟩ := h.tables hkv rid hrid
    exact ⟨prompt, hprompt, hold.append _⟩

/-! ## Scheduling -/

theorem Kept.prompt_of_hit {hit : PrefixCacheHit}
    (hhit : hit ∈ e.buildCacheHits) : ∃ prompt ≠ [], Known submitted hit.requestId prompt := by
  obtain ⟨⟨rid, prompt⟩, hentry, hsome⟩ := mem_filterMap.1 hhit
  obtain ⟨hmatch, ⟨⟩⟩ := Option.ite_none_right_eq_some.1 hsome
  refine ⟨prompt, ?_, h.prompts rid prompt (AList.mem_lookup_iff.2 hentry)⟩
  rintro rfl
  have hnone : (e.matchPrefix []).2 = 0 := by
    rw [Engine.matchPrefix]
    split
    · rfl
    · rw [PyRadix.matchPrefix, matchLoop_nil]
  exact absurd hmatch.2 (not_lt.2 hnone.le)

theorem Kept.tabled_admit (hbm : Tabled submitted cfg bm) (entries : List QueueEntry) :
    Tabled submitted cfg
    (entries.foldl (fun bm q => (admitRequest e.buildCacheHits bm q.request).2) bm) := by
  induction entries generalizing bm with
  | nil => exact hbm
  | cons q entries ih =>
    refine ih (hbm.of_lookup (fun rid hne => lookup_admitRequest_ne _ hne) fun hkv hmem => ?_)
    simp only [admitRequest] at hmem
    split at hmem
    · exact hbm hkv _ hmem
    case h_2 hit hfind =>
      split at hmem
      · obtain ⟨prompt, hprompt, hknown⟩ := h.prompt_of_hit (mem_of_find?_eq_some hfind)
        have hid : hit.requestId = q.request.requestId := by simpa using find?_some hfind
        exact ⟨prompt, hprompt, hid ▸ hknown⟩
      · exact hbm hkv _ hmem

end Engine

theorem Tabled.turned {budget : Budget} {req : Request} {turn : Turn}
    (h : Tabled submitted cfg bm) (hids : (submitted.map Submission.requestId).Nodup)
    (hreq : Known submitted req.requestId req.promptTokens)
    (hturn : Turned cfg budget req bm turn) :
    Tabled submitted cfg turn.bm ∧ ∀ sr, turn.slot.scheduled? = some sr → sr.inputIds ≠ [] ∧
      (req.sequence.length < 2 ^ 32 → sr.positions.length = sr.inputIds.length) := by
  have hspec : ∀ sr, turn.slot.scheduled? = some sr → _ := fun sr hsr => hturn.scheduled_spec hsr
  have hlen : req.sequence.length = req.promptTokens.length + req.outputTokens.length :=
    length_append
  cases hturn with
  | chunk hstate hrest hbudget hreserve hgrows hcovers =>
    have hpos := tokensRemaining_ne_zero_iff.1 hrest
    have hprompt : req.promptTokens ≠ [] := ne_nil_of_length_pos (Nat.zero_lt_of_lt hpos)
    refine ⟨h.of_lookup (fun rid hne => lookup_of_grows hgrows hne) fun _ _ =>
      ⟨_, hprompt, hreq⟩, fun sr hsr => ⟨(hspec sr hsr hprompt).2, fun hlt => ?_⟩⟩
    cases hsr
    have hchunk := chunkLen_le cfg budget req
    show (u32Range _ _).length = (slice _ _ _).length
    rw [length_u32Range (Nat.le_add_right _ _) (by omega), length_slice (by omega),
      Nat.add_sub_cancel_left]
  | decodeCached hstate hbudget hkv =>
    refine ⟨fun hfull => absurd (hkv.symm.trans hfull) (by decide), fun sr hsr => ?_⟩
    cases hsr
    exact ⟨cons_ne_nil _ _, fun _ => rfl⟩
  | decodeFull hstate hbudget hkv htable =>
    have hmem : req.requestId ∈ bm.blockTables := AList.lookup_isSome.1 (by rw [htable]; rfl)
    obtain ⟨prompt, hprompt, hknown⟩ := h hkv _ hmem
    rw [hknown.inj hids hreq] at hprompt
    refine ⟨h, fun sr hsr => ⟨(hspec sr hsr hprompt).2, fun hlt => ?_⟩⟩
    cases hsr
    show (u32Range 0 req.sequence.length).length = req.sequence.length
    rw [length_u32Range (Nat.zero_le _) hlt, Nat.sub_zero]
  | _ => exact ⟨h, fun sr hsr => by cases hsr⟩

theorem Kept.schedule (h : Kept submitted e) : Kept submitted e.scheduleBatch.1 ∧
    (e.scheduleBatch.2.map ScheduledRequest.requestId).Nodup ∧
    ∀ sr ∈ e.scheduleBatch.2, sr.inputIds ≠ [] ∧
      ((∀ req ∈ e.admission.1.running, req.sequence.length < 2 ^ 32) →
        sr.positions.length = sr.inputIds.length) := by
  obtain ⟨entries, hwait, hadmitted, hrun, hconfig, hpool⟩ := admission_spec e
  have hentry : ∀ q, q ∈ entries ∨ q ∈ heap.items e.admission.1.waiting →
      q ∈ heap.items e.sched.waiting := fun q hq => hwait.mem_iff.2 (mem_append.2 hq)
  have hrunning : ∀ req ∈ e.admission.1.running,
      Known submitted req.requestId req.promptTokens := by
    intro req hreq
    rw [hrun, mem_append, hadmitted, mem_map] at hreq
    rcases hreq with hold | ⟨q, hq, rfl⟩
    · exact h.running req (mem_filter.1 hold).1
    · obtain ⟨hid, hprompt, -⟩ := withHit_same e.buildCacheHits q.request
      rw [hid, hprompt]
      exact h.waiting q (hentry q (.inl hq))
  have htables : Tabled submitted e.admission.1.config e.admission.2 := by
    rw [hpool, hconfig]
    exact h.tabled_admit (h.tables.foldl_free _) entries
  obtain ⟨hfinal, hslots⟩ := buildSlots_rule
    (P := fun slot => slot.before ∈ e.admission.1.running ∧
      slot.after.requestId = slot.before.requestId ∧
      slot.after.promptTokens = slot.before.promptTokens ∧
      ∀ sr, slot.scheduled? = some sr → sr.requestId = slot.before.requestId ∧
        sr.inputIds ≠ [] ∧ (slot.before.sequence.length < 2 ^ 32 →
          sr.positions.length = sr.inputIds.length))
    (fun budget req bm turn hreq hbm _ hturn => by
      obtain ⟨hbm', hfed⟩ := Tabled.turned hbm h.submittedIds (hrunning req hreq) hturn
      obtain ⟨hid, hids⟩ := hturn.requestId_eq
      have hbefore := hturn.before_eq
      refine ⟨hbm', hbefore ▸ hreq, hid, hbefore ▸ hturn.live_eq.1, fun sr hsr => ?_⟩
      exact ⟨hids sr hsr, hbefore ▸ hfed sr hsr⟩)
    (fun req hreq => hreq) htables (alongSlots_true _ ⟨0, 0⟩ _ _)
  obtain ⟨ids, hperm, hsub⟩ := e.sched.liveIds_schedule e.bm e.buildCacheHits
  have hids : e.scheduleBatch.1.sched.liveIds.Nodup := hperm.nodup_iff.1 (h.ids.sublist hsub)
  have hafter : (e.slots.map Slot.after).map Request.requestId =
      e.slots.map fun slot => slot.before.requestId := by
    rw [map_map]
    exact map_congr_left fun slot hslot => (hslots slot hslot).2.1
  refine ⟨⟨h.submittedIds, hids, fun req hreq => ?_, fun q hq => h.waiting q (hentry q (.inr hq)),
    h.prompts, hfinal⟩, ?_, fun sr hsr => ?_⟩
  · obtain ⟨slot, hslot, rfl⟩ := mem_map.1 hreq
    obtain ⟨hbefore, hid, hprompt, -⟩ := hslots slot hslot
    rw [hid, hprompt]
    exact hrunning _ hbefore
  · refine (sublist_batchOf fun slot hslot sr hsr => ?_).nodup (hafter ▸ (nodup_append.1 hids).1)
    exact ((hslots slot hslot).2.2.2 sr hsr).1
  · obtain ⟨slot, hslot, hsr⟩ := mem_filterMap.1 hsr
    obtain ⟨hbefore, -, -, hfed⟩ := hslots slot hslot
    exact ⟨(hfed sr hsr).2.1, fun hfits => (hfed sr hsr).2.2 (hfits _ hbefore)⟩

end Kept

/-! ## Histories -/

inductive LoopEvent where
  | addRequest (sub : Submission) (params : SamplingParams)
  | step
deriving DecidableEq, Repr

structure LoopSession (heap : MaxHeap QueueEntry QueueEntry.rank) (Seed : Type) where
  loop : Loop heap Seed
  submitted : List Submission

namespace LoopSession

def start (sched : Scheduler heap) (bm : BlockManager) (enablePrefixCache : Bool)
    (seeds : String → Seed) : LoopSession heap Seed :=
  { loop := { engine := .new sched bm enablePrefixCache, samplingParams := ∅, seeds }
    submitted := [] }

variable (ex : RowExecutor Logits) (draw : SamplingParams → Logits → Seed → UInt32 × Seed)

variable (s : LoopSession heap Seed)

def apply : LoopEvent → LoopSession heap Seed
  | .addRequest sub params =>
    { loop :=
        { s.loop with
          engine := s.loop.engine.addRequest sub.requestId sub.promptTokens sub.maxTokens
            sub.stopTokenIds
          samplingParams := s.loop.samplingParams.insert sub.requestId params }
      submitted := s.submitted ++ [sub] }
  | .step => { s with loop := (s.loop.step ex draw).1 }

/-- A new id for every request, as the monotonic clock gives. -/
def Fresh : LoopEvent → Prop
  | .addRequest sub _ => sub.requestId ∉ s.submitted.map Submission.requestId
  | .step => True

instance : (e : LoopEvent) → Decidable (s.Fresh e)
  | .addRequest sub _ =>
    inferInstanceAs (Decidable (sub.requestId ∉ s.submitted.map Submission.requestId))
  | .step => isTrue trivial

def Step (e : LoopEvent) (s' : LoopSession heap Seed) : Prop :=
  s.Fresh e ∧ s' = s.apply ex draw e

end LoopSession

section Histories

variable {ex : RowExecutor Logits} {draw : SamplingParams → Logits → Seed → UInt32 × Seed}
  {submitted : List Submission} {α : Type}

theorem extendLoop_invariant {P : Loop heap Seed → Prop}
    {turn : Loop heap Seed → α → StepResult heap Seed} (hturn : ∀ l a, P l → P (turn l a).1)
    {l : Loop heap Seed} (h : P l) (as : List α) : P (extendLoop turn l as).1 := by
  induction as generalizing l with
  | nil => exact h
  | cons a as ih =>
    have hone := hturn l a h
    rw [extendLoop]
    generalize turn l a = out at hone ⊢
    rcases out with ⟨l', e | results⟩
    · exact hone
    · exact ih hone

/-- Whatever is forwarded, sampling keeps what the engine knows. -/
theorem Kept.sampleFromLogits {l : Loop heap Seed} (h : Kept submitted l.engine)
    (logits : List (List Logits)) (batch : List ScheduledRequest) (singleReq : Option Nat) :
    Kept submitted (l.sampleFromLogits draw logits batch singleReq).1.engine := by
  refine extendLoop_invariant (P := fun l => Kept submitted l.engine) (fun l e hl => ?_) h _
  rw [Loop.sampleLast]
  split
  · exact hl
  · split
    · exact hl
    · exact hl.recordSampled _ _

theorem Kept.step {l : Loop heap Seed} (h : Kept submitted l.engine) :
    Kept submitted (l.step ex draw).1.engine := by
  have hscheduled : Kept submitted l.scheduled.1.engine := h.evict.schedule.1
  rw [Loop.step]
  split
  · exact hscheduled
  · split
    · rw [Loop.stepBatch]
      split
      · exact hscheduled.sampleFromLogits _ _ _
      · exact hscheduled
    · exact extendLoop_invariant (P := fun l => Kept submitted l.engine)
        (fun l e hl => hl.sampleFromLogits _ _ _) hscheduled _

theorem Kept.start {maxBatchSize maxTokensPerStep chunkSize : Nat} {useKvCache : Bool}
    {sched : Scheduler heap} {bm : BlockManager}
    (hnew : Scheduler.new heap maxBatchSize maxTokensPerStep chunkSize useKvCache = .ok sched)
    (hfresh : bm.Fresh) (enablePrefixCache : Bool) :
    Kept [] (Engine.new sched bm enablePrefixCache) := by
  obtain ⟨-, hrunning, hempty, -⟩ := Scheduler.new_spec hnew
  refine ⟨nodup_nil, ?_, fun req hreq => ?_, fun q hq => ?_, fun rid prompt hprompt => ?_,
    fun _ rid hrid => ?_⟩
  · show sched.liveIds.Nodup
    rw [Scheduler.liveIds, hrunning, hempty]
    exact nodup_nil
  · exact absurd (hrunning ▸ hreq) not_mem_nil
  · exact absurd (hempty ▸ hq) not_mem_nil
  · cases hprompt
  · have hrid : rid ∈ bm.blockTables := hrid
    rw [hfresh.blockTables_eq] at hrid
    exact absurd hrid (AList.notMem_empty rid)

theorem Kept.of_run {s s' : LoopSession heap Seed} {events : List LoopEvent}
    (hrun : Run (LoopSession.Step ex draw) s events s') (h : Kept s.submitted s.loop.engine) :
    Kept s'.submitted s'.loop.engine := by
  refine hrun.invariant (I := fun s => Kept s.submitted s.loop.engine) h fun m e m' hm hstep => ?_
  obtain ⟨hfresh, rfl⟩ := hstep
  cases e with
  | addRequest => exact hm.addRequest hfresh
  | step => exact hm.step

/-- A step gives every request what it gets when it is forwarded and sampled alone. -/
theorem step_eq_alone_of_run {maxBatchSize maxTokensPerStep chunkSize : Nat} {useKvCache : Bool}
    {sched : Scheduler heap} {bm : BlockManager} {enablePrefixCache : Bool}
    {seeds : String → Seed} {events : List LoopEvent} {s : LoopSession heap Seed}
    (hnew : Scheduler.new heap maxBatchSize maxTokensPerStep chunkSize useKvCache = .ok sched)
    (hfresh : bm.Fresh)
    (hrun : Run (LoopSession.Step ex draw) (.start sched bm enablePrefixCache seeds) events s)
    (hfits : ∀ req ∈ s.loop.engine.evictCacheIfNeeded.admission.1.running,
      req.sequence.length < 2 ^ 32) :
    s.loop.step ex draw = s.loop.scheduled.1.stepPerRequest ex draw s.loop.scheduled.2 ∧
      s.loop.step ex draw = extendLoop (ownTurn ex draw) s.loop.scheduled.1 s.loop.scheduled.2 ∧
      ∃ results, (s.loop.step ex draw).2 = .ok results ∧
        Forall₂ (OwnResult ex draw s.loop.scheduled.1) results
          (s.loop.scheduled.2.filter (·.state ≠ .prefill)) := by
  have hkept : Kept s.submitted s.loop.engine := .of_run hrun (.start hnew hfresh enablePrefixCache)
  obtain ⟨-, hids, hfed⟩ := hkept.evict.schedule
  have hstep := @step_eq _ _ _ ex draw s.loop fun sr hsr => (hfed sr hsr).2 hfits
  refine ⟨hstep.trans (stepPerRequest_eq _ _).symm, hstep, ?_⟩
  rw [hstep]
  exact extendLoop_own hids fun sr hsr => (hfed sr hsr).1

/-- Logits are the token itself, and its successor is drawn. -/
def successorRows : RowExecutor UInt32 :=
  { row := fun inputIds _ => inputIds, length_row := fun _ _ => rfl }

/-- Two whole prompts, the first of which ends with one token, and a chunk of a third. -/
def mixedCalls : List LoopEvent :=
  [.addRequest ⟨"a", [1, 2], 1, []⟩ {}, .addRequest ⟨"b", [3, 4], 4, []⟩ {},
    .addRequest ⟨"c", [5, 6, 7], 4, []⟩ {}]

theorem step_eq_alone_of_run_witness :
    let draw := fun (_ : SamplingParams) (token : UInt32) (seed : Unit) => (token + 1, seed)
    ∃ sched bm s, Scheduler.new listHeap 4 16 2 false = .ok sched ∧
      BlockManager.new 8 2 = .ok bm ∧
      Run (LoopSession.Step successorRows draw) (.start sched bm true fun _ => ()) mixedCalls s ∧
      Loop.canBatchForward s.loop.scheduled.2 = true ∧
      s.loop.scheduled.2.map (fun sr => (sr.requestId, decide (sr.state = .prefill))) =
        [("a", false), ("b", false), ("c", true)] ∧
      (s.loop.step successorRows draw).2.toOption =
        some [⟨"a", [3], true⟩, ⟨"b", [5], false⟩] ∧
      s.loop.step successorRows draw =
        s.loop.scheduled.1.stepPerRequest successorRows draw s.loop.scheduled.2 := by
  intro draw
  obtain ⟨sched, hsched⟩ : ∃ sched, Scheduler.new listHeap 4 16 2 false = .ok sched := ⟨_, rfl⟩
  obtain ⟨bm, hbm⟩ : ∃ bm, BlockManager.new 8 2 = .ok bm := ⟨_, rfl⟩
  have henabled : Enabled LoopSession.Fresh (LoopSession.apply successorRows draw)
      (.start sched bm true fun _ => ()) mixedCalls := by
    cases hsched
    cases hbm
    decide +kernel
  have hrun : Run (LoopSession.Step successorRows draw) (.start sched bm true fun _ => ())
      mixedCalls _ := Run.of_enabled (fun _ _ h => ⟨h, rfl⟩) henabled
  refine ⟨sched, bm, _, hsched, hbm, hrun, ?_, ?_, ?_,
    (step_eq_alone_of_run hsched (.inl ⟨8, 2, hbm⟩) hrun ?_).1⟩
  all_goals
    cases hsched
    cases hbm
    decide +kernel

end Histories

end CompileForge.PythonRuntime.Batched
