/-
  In KV mode a request is fed its own sequence, one position after the other, if the driver
  calls `record_output` for every scheduled request whose state is `Decode`, before the next
  batch.
-/

import CompileForge.Runtime.Engine.PrefillCoverage

namespace CompileForge.Runtime

open Lib List

/-- The prompt with what was generated. -/
def Request.sequence (req : Request) : List UInt32 := req.promptTokens ++ req.outputTokens

namespace Feed

/-- The tokens that were fed, with their positions. -/
def fed (feed : Feed) : List (UInt32 × Nat) :=
  feed.flatMap fun e => e.request.inputIds.zip (e.request.positions.map UInt32.toNat)

theorem fed_snoc (feed : Feed) (e : Emission) : fed (feed ++ [e]) =
    fed feed ++ e.request.inputIds.zip (e.request.positions.map UInt32.toNat) := by
  simp [fed]

end Feed

/-- One position for every token, each inside the block table. -/
def ScheduledRequest.Placed (sr : ScheduledRequest) (blockSize : Nat) : Prop :=
  sr.positions.length = sr.inputIds.length ∧
    ∀ p ∈ sr.positions, p.toNat / blockSize < sr.blockTable.length

/-- The request was fed its sequence in order; with the prompt complete one token may be missing. -/
structure Track.FedInOrder (blockSize : Nat) (t : Track) : Prop where
  fed : t.feed.fed = (t.request.sequence.take t.feed.fed.length).zipIdx
  reach : t.request.state ≠ .prefill → t.request.sequence.length ≤ t.feed.fed.length + 1
  placed : ∀ e ∈ t.feed, e.request.Placed blockSize

/-- The invariant of a live request that owes an output, or does not. -/
structure Track.Fed (blockSize : Nat) (owes : Prop) (t : Track) : Prop where
  fed : t.feed.fed = (t.request.sequence.take t.feed.fed.length).zipIdx
  placed : ∀ e ∈ t.feed, e.request.Placed blockSize
  prefilling : t.request.state = .prefill → t.request.outputTokens = [] ∧
    t.request.prefillPos < t.request.promptTokens.length ∧
    t.feed.fed.length = t.request.prefillPos ∧ ¬ owes
  owing : t.request.state ≠ .prefill → owes → t.feed.fed.length = t.request.sequence.length
  settled : t.request.state ≠ .prefill → ¬ owes →
    t.feed.fed.length + 1 = t.request.sequence.length ∧ t.request.outputTokens ≠ []

variable {blockSize : Nat} {owes : Prop} {t : Track}

theorem Track.Fed.inOrder (h : t.Fed blockSize owes) : t.FedInOrder blockSize := by
  refine ⟨h.fed, fun hstate => ?_, h.placed⟩
  by_cases howes : owes
  · rw [h.owing hstate howes]
    exact Nat.le_succ _
  · exact le_of_eq (h.settled hstate howes).1.symm

theorem Track.Fed.congr_owes {owes' : Prop} (h : t.Fed blockSize owes) (heq : owes' ↔ owes) :
    t.Fed blockSize owes' := by
  rwa [propext heq]

/-! ## One turn -/

variable {l : List UInt32} {before after : Request}

theorem zipIdx_take_append {n m : Nat} (h : n + m ≤ l.length) :
    (l.take n).zipIdx ++ (slice l n m).zip (range' n m) = (l.take (n + m)).zipIdx := by
  have hlen : (l.take n).length = n := length_take_of_le (by omega)
  have hslice : (slice l n m).length = m := length_slice h
  have hwindow : (slice l n m).zipIdx n = (slice l n m).zip (range' n m) := by
    rw [zipIdx_eq_zip_range', hslice]
  rw [← hwindow, take_add, zipIdx_append, hlen, zero_add, slice]

theorem slice_last {x : UInt32} (h : l.getLast? = some x) :
    slice l (l.length - 1) 1 = [x] := by
  obtain ⟨init, rfl⟩ := getLast?_eq_some_iff.1 h
  simp [slice]

/-- The driver owes an output exactly while the last position has been fed. -/
def Slot.Owes (slot : Slot) : Prop := ∃ sr, slot.scheduled? = some sr ∧ sr.state = .decode

variable {cfg : SchedulerConfig} {budget : Budget} {req : Request} {bm : BlockManager}
  {feed : Feed}

/-- A chunk: the next positions of the prompt, all covered by the table. -/
theorem Track.Fed.chunk (h : (Track.mk req feed).Fed blockSize False)
    (hstate : req.state = .prefill) (hlt : req.sequence.length < 2 ^ 32)
    (cfg : SchedulerConfig) (budget : Budget) {blocks : List Nat}
    (hcovers : req.promptTokens.length ≤ blockSize * blocks.length) :
    (Track.mk (req.advance (chunkLen cfg budget req)).settlePrefill
      (feed ++ [⟨.prefill, prefillRequest req (req.advance (chunkLen cfg budget req)).settlePrefill
        (chunkLen cfg budget req) blocks⟩])).Fed blockSize
      ((req.advance (chunkLen cfg budget req)).settlePrefill.state = .decode) := by
  obtain ⟨hout, hcursor, hcount, -⟩ := h.prefilling hstate
  dsimp only at hout hcursor hcount
  have hseq : req.sequence = req.promptTokens := by rw [Request.sequence, hout, append_nil]
  have hle : req.prefillPos + chunkLen cfg budget req ≤ req.promptTokens.length := by
    have := chunkLen_le cfg budget req
    omega
  rw [hseq] at hlt
  have hend : req.prefillPos + chunkLen cfg budget req < 2 ^ 32 := lt_of_le_of_lt hle hlt
  have hafter : ((req.advance (chunkLen cfg budget req)).settlePrefill).sequence =
      req.promptTokens := by
    rw [Request.sequence, promptTokens_settlePrefill, outputTokens_settlePrefill]
    exact hseq
  have hpositions := toNat_u32Range (Nat.le_add_right req.prefillPos (chunkLen cfg budget req)) hend
  rw [Nat.add_sub_cancel_left] at hpositions
  have hfed : Feed.fed (feed ++ [⟨.prefill, prefillRequest req
      (req.advance (chunkLen cfg budget req)).settlePrefill (chunkLen cfg budget req) blocks⟩]) =
        (req.promptTokens.take (req.prefillPos + chunkLen cfg budget req)).zipIdx := by
    have hold : feed.fed = (req.promptTokens.take req.prefillPos).zipIdx := by
      have hfed := h.fed
      rwa [hcount, hseq] at hfed
    rw [Feed.fed_snoc, hold]
    simp only [prefillRequest, hpositions]
    exact zipIdx_take_append hle
  have hlen : ((req.promptTokens.take (req.prefillPos + chunkLen cfg budget req)).zipIdx).length =
      req.prefillPos + chunkLen cfg budget req := by
    rw [length_zipIdx, length_take_of_le hle]
  have hsettled := state_settlePrefill (req.advance (chunkLen cfg budget req))
  refine ⟨?_, fun e he => ?_, fun hprefill => ?_, fun _ howes => ?_, fun hne howes => ?_⟩
  · rw [hfed, hlen, hafter]
  · rcases mem_append.1 he with he | he
    · exact h.placed e he
    · rw [mem_singleton.1 he]
      refine ⟨?_, fun p hp => ?_⟩
      · simp only [prefillRequest]
        rw [length_u32Range (Nat.le_add_right ..) hend, length_slice hle, Nat.add_sub_cancel_left]
      · have hmem : p.toNat ∈ (u32Range req.prefillPos
            (req.prefillPos + chunkLen cfg budget req)).map UInt32.toNat := mem_map_of_mem hp
        rw [hpositions, mem_range'_1] at hmem
        refine Nat.div_lt_of_lt_mul ?_
        simp only [prefillRequest]
        omega
  · -- still in `Prefill`: the prompt is not complete
    have hstate' := hsettled ▸ hprefill
    rw [hfed, hlen]
    refine ⟨?_, ?_, by rw [prefillPos_settlePrefill]; rfl, fun howes => ?_⟩
    · rw [outputTokens_settlePrefill]
      exact hout
    · rw [promptTokens_settlePrefill, prefillPos_settlePrefill]
      split at hstate'
      · cases hstate'
      · rename_i hmore
        exact Nat.lt_of_not_le hmore
    · rw [hprefill] at howes
      cases howes
  · rw [hfed, hlen, hafter]
    rw [hsettled] at howes
    split at howes
    · rename_i hall
      exact le_antisymm hle hall
    · have hkept : (req.advance (chunkLen cfg budget req)).state = .prefill := hstate
      rw [hkept] at howes
      cases howes
  · -- neither `Prefill` nor `Decode` is not an outcome
    rw [hsettled] at hne howes
    split at howes
    · exact absurd rfl howes
    · rename_i hmore
      rw [if_neg hmore] at hne
      exact absurd hstate hne

theorem Track.Fed.decode (h : (Track.mk req feed).Fed blockSize False)
    (hstate : req.state = .decode) (hlt : req.sequence.length < 2 ^ 32) {blocks : List Nat}
    (hcovers : req.promptTokens.length + req.outputTokens.length + 1 ≤ blockSize * blocks.length) :
    (Track.mk req (feed ++ [⟨.decode, decodeRequest true req blocks⟩])).Fed blockSize True := by
  have hne : req.state ≠ .prefill := by
    rw [hstate]
    decide
  obtain ⟨hcount, hout⟩ := h.settled hne not_false
  dsimp only at hcount hout
  have hlen : req.sequence.length = req.promptTokens.length + req.outputTokens.length :=
    length_append
  obtain ⟨last, hlast⟩ : ∃ last, req.outputTokens.getLast? = some last :=
    ⟨_, getLast?_eq_some_getLast hout⟩
  have hseqlast : req.sequence.getLast? = some last := by
    rw [Request.sequence, getLast?_append, hlast]
    rfl
  have hposition : (UInt32.ofNat (req.promptTokens.length + req.outputTokens.length - 1)).toNat =
      feed.fed.length := by
    have hsmall : req.promptTokens.length + req.outputTokens.length - 1 < 2 ^ 32 := by omega
    have hcast := UInt32.toNat_ofNat_of_lt' hsmall
    omega
  have hfed : Feed.fed (feed ++ [⟨.decode, decodeRequest true req blocks⟩]) =
      (req.sequence.take (feed.fed.length + 1)).zipIdx := by
    have hnext := zipIdx_take_append (le_of_eq hcount)
    have hwindow := slice_last hseqlast
    rw [← hcount, Nat.add_sub_cancel] at hwindow
    have hold : feed.fed = (req.sequence.take feed.fed.length).zipIdx := h.fed
    rw [hwindow, ← hold] at hnext
    rw [Feed.fed_snoc, ← hnext]
    simp only [decodeRequest, if_true, hlast, Option.getD_some, map_cons, map_nil, hposition]
    rfl
  have hfedlen : (Feed.fed (feed ++ [⟨.decode, decodeRequest true req blocks⟩])).length =
      feed.fed.length + 1 := by
    rw [hfed, length_zipIdx, length_take_of_le (le_of_eq hcount)]
  refine ⟨?_, fun e he => ?_, fun hprefill => absurd hprefill hne, fun _ _ => ?_,
    fun _ hnot => absurd trivial hnot⟩
  · rw [hfedlen, hfed]
  · rcases mem_append.1 he with he | he
    · exact h.placed e he
    · rw [mem_singleton.1 he]
      refine ⟨rfl, fun p hp => ?_⟩
      have hp' : p = UInt32.ofNat (req.promptTokens.length + req.outputTokens.length - 1) :=
        mem_singleton.1 hp
      rw [hp', hposition]
      refine Nat.div_lt_of_lt_mul ?_
      simp only [decodeRequest, if_true]
      omega
  · rw [hfedlen]
    exact hcount

theorem Slot.owes_scheduled {sr : ScheduledRequest} :
    Slot.Owes ⟨before, after, .scheduled sr⟩ ↔ sr.state = .decode := by
  constructor
  · rintro ⟨sr', hsr, hstate⟩
    cases hsr
    exact hstate
  · intro hstate
    exact ⟨sr, rfl, hstate⟩

theorem Slot.not_owes_skipped {why : SkipReason} :
    ¬ Slot.Owes ⟨before, after, .skipped why⟩ := by
  rintro ⟨sr, hsr, -⟩
  cases hsr

theorem Track.Fed.turned {turn : Turn} (h : (Track.mk req feed).Fed blockSize False)
    (hkv : cfg.useKvCache = true) (hlt : req.sequence.length < 2 ^ 32)
    (hfits : PromptFits cfg budget req bm) (hsize : bm.blockSize = blockSize)
    (hturn : Turned cfg budget req bm turn) :
    (Track.mk turn.slot.after (feed ++ turn.slot.emitted)).Fed blockSize turn.slot.Owes := by
  have hskip : ∀ why, (Track.mk req (feed ++ [])).Fed blockSize
      (Slot.Owes ⟨req, req, .skipped why⟩) := by
    intro why
    rw [append_nil]
    exact h.congr_owes (iff_of_false Slot.not_owes_skipped not_false)
  cases hturn with
  | exhausted hstate hrest =>
    -- a request in `Prefill` has prompt tokens left
    obtain ⟨-, hcursor, -, -⟩ := h.prefilling hstate
    exact absurd hrest (tokensRemaining_ne_zero_iff.2 hcursor)
  | promptUnreserved hstate hrest hbudget hoom =>
    have hok := hfits hstate hrest hbudget
    rw [hoom] at hok
    cases hok
  | @chunk hstate hrest hbudget bm' blocks hreserve hgrows hcovers =>
    obtain ⟨-, hcover⟩ := hcovers
    rw [hgrows.blockSize_eq, hsize] at hcover
    have howes : Slot.Owes ⟨req, (req.advance (chunkLen cfg budget req)).settlePrefill,
        .scheduled (prefillRequest req (req.advance (chunkLen cfg budget req)).settlePrefill
          (chunkLen cfg budget req) blocks)⟩ ↔
        (req.advance (chunkLen cfg budget req)).settlePrefill.state = .decode :=
      Slot.owes_scheduled
    have hchunk := (h.chunk hstate hlt cfg budget hcover).congr_owes howes
    simpa only [Slot.emitted, Slot.scheduled?, Option.map_some, Option.toList_some, hstate]
      using hchunk
  | @decodeCached hstate hbudget _ bm' blocks hreserve hgrows hcovers =>
    obtain ⟨-, hcover⟩ := hcovers
    rw [hgrows.blockSize_eq, hsize] at hcover
    have howes : Slot.Owes ⟨req, req, .scheduled (decodeRequest true req blocks)⟩ ↔ True :=
      iff_of_true (Slot.owes_scheduled.2 hstate) trivial
    have hdecode := (h.decode hstate hlt hcover).congr_owes howes
    simpa only [Slot.emitted, Slot.scheduled?, Option.map_some, Option.toList_some, hstate]
      using hdecode
  | decodeFull hstate hbudget hfull htable =>
    rw [hkv] at hfull
    cases hfull
  | idle => exact hskip _
  | noPrefillBudget => exact hskip _
  | noDecodeBudget => exact hskip _
  | tableUngrown => exact hskip _
  | noTable => exact hskip _

theorem Track.Fed.record (h : t.Fed blockSize True) (tokenId : UInt32) :
    (Track.mk (Scheduler.recordToken t.request tokenId).1 t.feed).Fed blockSize False := by
  have hne : t.request.state ≠ .prefill := fun hstate => (h.prefilling hstate).2.2.2 trivial
  have hcount := h.owing hne trivial
  -- the sequence grows by the token, and the request does not return to `Prefill`
  have hrecorded : (Scheduler.recordToken t.request tokenId).1.sequence =
        t.request.sequence ++ [tokenId] ∧
      (Scheduler.recordToken t.request tokenId).1.outputTokens =
        t.request.outputTokens ++ [tokenId] ∧
      (Scheduler.recordToken t.request tokenId).1.state ≠ .prefill := by
    rcases Scheduler.recordToken_cases t.request tokenId with ⟨heq, -⟩ | ⟨heq, -⟩
    · rw [heq]
      exact ⟨(append_assoc ..).symm, rfl, nofun⟩
    · rw [heq]
      exact ⟨(append_assoc ..).symm, rfl, hne⟩
  obtain ⟨hseq, hout, hstate⟩ := hrecorded
  refine ⟨?_, h.placed, fun hprefill => absurd hprefill hstate, fun _ hfalse => hfalse.elim,
    fun _ _ => ⟨?_, ?_⟩⟩
  · have hfed := h.fed
    rw [hcount, take_length] at hfed
    show t.feed.fed = ((Scheduler.recordToken t.request tokenId).1.sequence.take
      t.feed.fed.length).zipIdx
    rw [hcount, hseq, take_left, hfed]
  · show t.feed.fed.length + 1 = (Scheduler.recordToken t.request tokenId).1.sequence.length
    rw [hcount, hseq, length_append, length_singleton]
  · show (Scheduler.recordToken t.request tokenId).1.outputTokens ≠ []
    rw [hout]
    exact append_ne_nil_of_right_ne_nil _ (cons_ne_nil _ _)

/-! ## The ids of a batch -/

/-- The ids a driver has to call `record_output` for. -/
def Batch.awaiting (batch : Batch) : List String :=
  (batch.requests.filter fun sr => sr.state = .decode).map ScheduledRequest.requestId

section Awaiting

variable {slots : List Slot}

theorem mem_awaiting {rid : String} : rid ∈ (batchOf slots).awaiting ↔
    ∃ slot ∈ slots, ∃ sr, slot.scheduled? = some sr ∧ sr.state = .decode ∧ sr.requestId = rid := by
  simp only [Batch.awaiting, batchOf, mem_map, mem_filter, mem_filterMap, decide_eq_true_eq]
  constructor
  · rintro ⟨sr, ⟨⟨slot, hslot, hsr⟩, hstate⟩, hrid⟩
    exact ⟨slot, hslot, sr, hsr, hstate, hrid⟩
  · rintro ⟨slot, hslot, sr, hsr, hstate, hrid⟩
    exact ⟨sr, ⟨⟨slot, hslot, hsr⟩, hstate⟩, hrid⟩

theorem mem_awaiting_iff_owes (hids : ∀ slot ∈ slots, ∀ sr, slot.scheduled? = some sr →
      sr.requestId = slot.before.requestId)
    (hnodup : (slots.map fun slot => slot.before.requestId).Nodup) {slot : Slot}
    (hslot : slot ∈ slots) : slot.before.requestId ∈ (batchOf slots).awaiting ↔ slot.Owes := by
  rw [mem_awaiting]
  constructor
  · rintro ⟨slot', hslot', sr, hsr, hstate, hrid⟩
    have hsame : slot'.before.requestId = slot.before.requestId :=
      (hids slot' hslot' sr hsr).symm.trans hrid
    have heq : slot' = slot := inj_on_of_nodup_map hnodup hslot' hslot hsame
    exact ⟨sr, heq ▸ hsr, hstate⟩
  · rintro ⟨sr, hsr, hstate⟩
    exact ⟨slot, hslot, sr, hsr, hstate, hids slot hslot sr hsr⟩

end Awaiting

/-! ## Sessions -/

variable {heap : MaxHeap QueueEntry QueueEntry.rank}

/-- A driver that still has to record the outputs of `pending`. -/
structure Session (heap : MaxHeap QueueEntry QueueEntry.rank) where
  driver : Driver heap
  pending : List String

namespace Session

def start (sched : Scheduler heap) (bm : BlockManager) : Session heap :=
  { driver := .start sched bm, pending := [] }

variable (s : Session heap)

def apply (e : DriverEvent) : Session heap :=
  { driver := s.driver.apply e
    pending :=
      match e with
      | .schedule _ => (batchOf (s.driver.apply e).lastSlots).awaiting
      | .recordOutput requestId _ => s.pending.erase requestId
      | _ => s.pending }

/-- `record_output` once for each scheduled decode before the next batch, and no hits. -/
def Follows : DriverEvent → Prop
  | .schedule cacheHits => cacheHits = [] ∧ s.pending = [] ∧
      s.driver.KeepsChunks (.schedule cacheHits)
  | .recordOutput requestId _ => requestId ∈ s.pending
  | _ => True

def liveIds : List String :=
  s.driver.sched.running.map Request.requestId ++
    (heap.items s.driver.sched.waiting).map fun e => e.request.requestId

/-- Prompts are not empty, ids are not shared, and sequences stay below `2^32` tokens. -/
def WellPosed : DriverEvent → Prop
  | .addRequest promptTokens priority maxTokens stopTokenIds requestId => promptTokens ≠ [] ∧
      (s.driver.sched.addRequest promptTokens priority maxTokens stopTokenIds requestId).1 ∉
        s.liveIds
  | .schedule cacheHits => ∀ req ∈ (s.driver.beforeBatch cacheHits).1.running,
      req.sequence.length < 2 ^ 32
  | _ => True

def Followed (e : DriverEvent) (s' : Session heap) : Prop :=
  s.Follows e ∧ s' = s.apply e

def Step (e : DriverEvent) (s' : Session heap) : Prop :=
  (s.Follows e ∧ s.WellPosed e) ∧ s' = s.apply e

instance : DecidablePred s.Follows
  | .schedule _ => inferInstanceAs (Decidable (_ ∧ _ ∧ _))
  | .recordOutput requestId _ => inferInstanceAs (Decidable (requestId ∈ s.pending))
  | .addRequest .. => isTrue trivial
  | .getFinishedRequest _ => isTrue trivial

instance : DecidablePred s.WellPosed
  | .addRequest promptTokens .. =>
    inferInstanceAs (Decidable (promptTokens ≠ [] ∧ _ ∉ s.liveIds))
  | .schedule cacheHits =>
    inferInstanceAs (Decidable (∀ req ∈ (s.driver.beforeBatch cacheHits).1.running, _))
  | .recordOutput .. => isTrue trivial
  | .getFinishedRequest _ => isTrue trivial

structure Inv (blockSize : Nat) (s : Session heap) : Prop where
  synced : s.driver.Synced
  blockSize_eq : s.driver.bm.blockSize = blockSize
  kv : s.driver.sched.config.useKvCache = true
  ids : s.liveIds.Nodup
  pending : s.pending.Nodup
  tracks : ∀ t ∈ s.driver.tracks, t.Fed blockSize (t.request.requestId ∈ s.pending)
  retired : ∀ t ∈ s.driver.retired, t.FedInOrder blockSize
  queued : ∀ e ∈ heap.items s.driver.sched.waiting, e.request.prefillPos = 0 ∧
    e.request.outputTokens = [] ∧ e.request.promptTokens ≠ []

end Session

namespace Session

variable {s : Session heap}

theorem Inv.addRequest (h : s.Inv blockSize) {promptTokens : List UInt32} {priority : Int}
    {maxTokens : Nat} {stopTokenIds : List UInt32} {requestId : Option String}
    (hwell : s.WellPosed (.addRequest promptTokens priority maxTokens stopTokenIds requestId)) :
    (s.apply (.addRequest promptTokens priority maxTokens stopTokenIds requestId)).Inv
      blockSize := by
  obtain ⟨hprompt, hfresh⟩ := hwell
  refine ⟨h.synced, h.blockSize_eq, h.kv, ?_, h.pending, h.tracks, h.retired, fun q hq => ?_⟩
  · have hperm := (heap.items_push s.driver.sched.waiting ⟨priority, Request.new
      (s.driver.sched.addRequest promptTokens priority maxTokens stopTokenIds requestId).1
      promptTokens priority maxTokens stopTokenIds⟩).map fun e => e.request.requestId
    have hids : ((s.apply
        (.addRequest promptTokens priority maxTokens stopTokenIds requestId)).liveIds).Perm
        ((s.driver.sched.addRequest promptTokens priority maxTokens stopTokenIds requestId).1 ::
          s.liveIds) :=
      (hperm.append_left (s.driver.sched.running.map Request.requestId)).trans
        perm_middle
    exact hids.nodup_iff.2 (nodup_cons.2 ⟨hfresh, h.ids⟩)
  · rcases heap.mem_push.1 hq with rfl | hq
    · exact ⟨rfl, rfl, hprompt⟩
    · exact h.queued q hq

theorem Inv.getFinishedRequest (h : s.Inv blockSize) (rid : String) :
    (s.apply (.getFinishedRequest rid)).Inv blockSize := by
  have hsynced := Driver.apply_synced h.synced (.getFinishedRequest rid)
  have hsub : (s.driver.sched.running.eraseP fun r => r.requestId = rid).Sublist
      s.driver.sched.running := eraseP_sublist
  refine ⟨hsynced, h.blockSize_eq, h.kv, ?_, h.pending,
    fun t ht => h.tracks t (mem_of_mem_eraseP ht), fun t ht => ?_, h.queued⟩
  · exact h.ids.sublist ((hsub.map Request.requestId).append_right _)
  · rcases mem_append.1 ht with ht | ht
    · exact h.retired t ht
    · rw [Option.mem_toList] at ht
      exact (h.tracks t (mem_of_find?_eq_some ht)).inOrder

theorem Inv.recordOutput (h : s.Inv blockSize) {rid : String} (tokenId : UInt32)
    (hmem : rid ∈ s.pending) : (s.apply (.recordOutput rid tokenId)).Inv blockSize := by
  have hsynced := Driver.apply_synced h.synced (.recordOutput rid tokenId)
  have htrackids : (s.driver.tracks.map fun t => t.request.requestId).Nodup := by
    have hrunning := (nodup_append.1 h.ids).1
    rwa [← h.synced, map_map] at hrunning
  have hrid := fun req => Scheduler.requestId_recordToken req tokenId
  have hsched := s.driver.sched.waiting_recordOutput rid tokenId
  have hids : (s.apply (.recordOutput rid tokenId)).liveIds = s.liveIds := by
    show (s.driver.sched.recordOutput rid tokenId).2.running.map Request.requestId ++
      (heap.items (s.driver.sched.recordOutput rid tokenId).2.waiting).map _ = _
    rw [hsched.1, Driver.running_recordOutput,
      Driver.map_updateFirst (q := fun i => i = rid) (g := id) Request.requestId
        (fun _ => rfl) hrid,
      Driver.updateFirst_id]
    rfl
  refine ⟨hsynced, h.blockSize_eq, hsched.2 ▸ h.kv, hids ▸ h.ids, h.pending.erase rid,
    fun t ht => ?_, h.retired, fun q hq => h.queued q (hsched.1 ▸ hq)⟩
  rcases Driver.mem_updateFirst_key htrackids ht with ⟨hold, hne⟩ | ⟨t', ht', hkey, rfl⟩
  · -- another request: whether it owes an output has not changed
    refine (h.tracks t hold).congr_owes ?_
    exact mem_erase_of_ne hne
  · have howes : t'.Fed blockSize True := by
      refine (h.tracks t' ht').congr_owes (iff_of_true trivial ?_)
      rw [hkey]
      exact hmem
    refine (howes.record tokenId).congr_owes (iff_of_false ?_ not_false)
    show (Scheduler.recordToken t'.request tokenId).1.requestId ∉ s.pending.erase rid
    rw [hrid, hkey]
    exact h.pending.not_mem_erase

theorem Inv.schedule (h : s.Inv blockSize) (hfollows : s.Follows (.schedule []))
    (hwell : s.WellPosed (.schedule [])) : (s.apply (.schedule [])).Inv blockSize := by
  obtain ⟨-, hpending, hkeeps⟩ := hfollows
  have hsynced := Driver.apply_synced h.synced (.schedule [])
  obtain ⟨entries, hperm, hrunning, hbm, -⟩ := s.driver.sched.admitRequests_nil_spec s.driver.bm
  -- what every turn of the loop does to a request that owes nothing
  have hrule : (s.apply (.schedule [])).driver.bm.blockSize = blockSize ∧
      ∀ slot ∈ (s.apply (.schedule [])).driver.lastSlots,
        (slot.after.requestId = slot.before.requestId ∧
          ∀ sr, slot.scheduled? = some sr → sr.requestId = slot.before.requestId) ∧
        ∀ feed, (Track.mk slot.before feed).Fed blockSize False →
          (Track.mk slot.after (feed ++ slot.emitted)).Fed blockSize slot.Owes := by
    refine buildSlots_rule (I := fun bm => bm.blockSize = blockSize)
      (Q := fun req => req.sequence.length < 2 ^ 32)
      (fun budget req bm turn hlt hsize hfits hturn =>
        ⟨?_, hturn.requestId_eq, fun feed hfeed => ?_⟩)
      hwell ?_ hkeeps
    · rw [hturn.grows.blockSize_eq]
      exact hsize
    · rw [hturn.before_eq] at hfeed
      exact hfeed.turned h.kv hlt hfits hsize hturn
    · show (s.driver.beforeBatch []).2.blockSize = blockSize
      rw [← h.blockSize_eq, ← blockSize_reap s.driver.sched.running s.driver.bm]
      exact congrArg BlockManager.blockSize hbm
  obtain ⟨hsize, hslots⟩ := hrule
  have hslotids : ∀ slot ∈ (s.apply (.schedule [])).driver.lastSlots, ∀ sr,
      slot.scheduled? = some sr → sr.requestId = slot.before.requestId :=
    fun slot hslot => (hslots slot hslot).1.2
  have hbeforeids : (s.apply (.schedule [])).driver.lastSlots.map (fun slot =>
      slot.before.requestId) = (s.driver.beforeBatch []).1.running.map Request.requestId := by
    rw [← buildSlots_before s.driver.sched.config ⟨0, 0⟩ (s.driver.beforeBatch []).1.running
      (s.driver.beforeBatch []).2, map_map]
    rfl
  have hlive : ((s.driver.beforeBatch []).1.running.map Request.requestId ++
      (heap.items (s.driver.beforeBatch []).1.waiting).map fun e => e.request.requestId).Nodup := by
    have hids : (s.driver.sched.running.map Request.requestId ++ (entries ++
        heap.items (s.driver.beforeBatch []).1.waiting).map fun e => e.request.requestId).Nodup :=
      ((hperm.map _).append_left _).nodup_iff.1 h.ids
    have hkept : ((s.driver.sched.running.filter (!·.isFinished)).map Request.requestId).Sublist
        (s.driver.sched.running.map Request.requestId) := filter_sublist.map _
    rw [map_append] at hids
    have hrun : (s.driver.beforeBatch []).1.running.map Request.requestId =
        (s.driver.sched.running.filter (!·.isFinished)).map Request.requestId ++
          entries.map fun e => e.request.requestId := by
      refine (congrArg (map Request.requestId) hrunning).trans ?_
      rw [map_append, map_map]
      rfl
    rw [hrun, append_assoc]
    exact hids.sublist (hkept.append_right _)
  have hnodup : ((s.apply (.schedule [])).driver.lastSlots.map fun slot =>
      slot.before.requestId).Nodup := by
    rw [hbeforeids]
    exact (nodup_append.1 hlive).1
  refine ⟨hsynced, hsize, h.kv, ?_, ((filter_sublist.map _).trans
    (sublist_batchOf hslotids)).nodup hnodup, fun t ht => ?_, fun t ht => ?_,
    fun q hq => h.queued q (hperm.mem_iff.2 (mem_append_right _ hq))⟩
  · -- a batch renames nobody
    have hafter : (s.apply (.schedule [])).driver.sched.running.map Request.requestId =
        (s.driver.beforeBatch []).1.running.map Request.requestId := by
      rw [← hbeforeids]
      show ((s.apply (.schedule [])).driver.lastSlots.map Slot.after).map Request.requestId = _
      rw [map_map]
      exact map_congr_left fun slot hslot => (hslots slot hslot).1.1
    show ((s.apply (.schedule [])).driver.sched.running.map Request.requestId ++ _).Nodup
    rw [hafter]
    exact hlive
  · obtain ⟨slot, hslot, feed, rfl, horigin⟩ := Driver.mem_tracks_schedule h.synced ht
    have howes : slot.after.requestId ∈ (s.apply (.schedule [])).pending ↔ slot.Owes := by
      rw [(hslots slot hslot).1.1]
      exact mem_awaiting_iff_owes hslotids hnodup hslot
    refine ((hslots slot hslot).2 feed ?_).congr_owes howes
    rcases horigin with hkept | ⟨rfl, q, hq, heq⟩
    · refine (h.tracks _ hkept).congr_owes (iff_of_false not_false ?_)
      rw [hpending]
      exact not_mem_nil
    · obtain ⟨hpos, hout, hprompt⟩ := h.queued q hq
      rw [heq]
      refine ⟨rfl, nofun, fun _ => ⟨hout, ?_, hpos.symm, id⟩,
        fun hne => absurd rfl hne, fun hne => absurd rfl hne⟩
      have hcursor : q.request.startPrefill.prefillPos = 0 := hpos
      rw [hcursor]
      exact length_pos_iff.2 hprompt
  · rcases mem_append.1 ht with ht | ht
    · exact h.retired t ht
    · exact (h.tracks t (mem_filter.1 ht).1).inOrder

theorem Inv.step {e : DriverEvent} {s' : Session heap} (h : s.Inv blockSize)
    (hstep : s.Step e s') : s'.Inv blockSize := by
  obtain ⟨⟨hfollows, hwell⟩, rfl⟩ := hstep
  cases e with
  | addRequest => exact h.addRequest hwell
  | schedule cacheHits =>
    obtain rfl : cacheHits = [] := hfollows.1
    exact h.schedule hfollows hwell
  | recordOutput rid tokenId => exact h.recordOutput tokenId hfollows
  | getFinishedRequest rid => exact h.getFinishedRequest rid

end Session

/-- In KV mode every request is fed its own sequence in order, each position once. -/
theorem decodePositions_of_run {maxBatchSize maxTokensPerStep chunkSize : Nat}
    {sched : Scheduler heap} {bm : BlockManager} {s : Session heap} {events : List DriverEvent}
    (hnew : Scheduler.new heap maxBatchSize maxTokensPerStep chunkSize true = .ok sched)
    (hrun : Run Session.Step (.start sched bm) events s) :
    s.driver.tracks.map Track.request = s.driver.sched.running ∧
    ∀ t ∈ s.driver.tracks ++ s.driver.retired, t.FedInOrder bm.blockSize := by
  have hstart : (Session.start sched bm).Inv bm.blockSize := by
    obtain ⟨hkv, hrunning, hempty, -⟩ := Scheduler.new_spec hnew
    refine ⟨hrunning.symm, rfl, hkv, ?_, nodup_nil, ?_, ?_, ?_⟩
    · show (sched.running.map _ ++ (heap.items sched.waiting).map _).Nodup
      rw [hrunning, hempty]
      exact nodup_nil
    · exact nofun
    · exact nofun
    · exact fun q hq => absurd (hempty ▸ hq) not_mem_nil
  have hinv : s.Inv bm.blockSize := hrun.invariant hstart fun m e m' hm hstep => hm.step hstep
  refine ⟨hinv.synced, fun t ht => ?_⟩
  rcases mem_append.1 ht with ht | ht
  · exact (hinv.tracks t ht).inOrder
  · exact hinv.retired t ht

/-! ## Runs -/

/-- Three prompt tokens in two chunks and two decode steps. -/
def generateCalls : List DriverEvent :=
  [.addRequest [1, 2, 3] 0 4 [] none, .schedule [], .schedule [], .recordOutput "req_1" 9,
    .schedule [], .recordOutput "req_1" 8, .schedule []]

theorem decodePositions_of_run_witness :
    ∃ sched bm s, Scheduler.new listHeap 2 8 2 true = .ok sched ∧ BlockManager.new 4 2 = .ok bm ∧
      Run Session.Step (.start sched bm) generateCalls s ∧
      (∀ t ∈ s.driver.tracks ++ s.driver.retired, t.FedInOrder bm.blockSize) ∧
      s.driver.tracks.map (fun t => t.feed.fed) = [[(1, 0), (2, 1), (3, 2), (9, 3), (8, 4)]] := by
  obtain ⟨sched, hsched⟩ : ∃ sched, Scheduler.new listHeap 2 8 2 true = .ok sched := ⟨_, rfl⟩
  obtain ⟨bm, hbm⟩ : ∃ bm, BlockManager.new 4 2 = .ok bm := ⟨_, rfl⟩
  have henabled : Enabled (fun (s : Session listHeap) e => s.Follows e ∧ s.WellPosed e)
      Session.apply (.start sched bm) generateCalls := by
    cases hsched
    cases hbm
    decide +kernel
  have hrun : Run Session.Step (.start sched bm) generateCalls _ :=
    Run.of_enabled (fun _ _ h => ⟨h, rfl⟩) henabled
  refine ⟨sched, bm, _, hsched, hbm, hrun, (decodePositions_of_run hsched hrun).2, ?_⟩
  cases hsched
  cases hbm
  decide +kernel

/-- An empty prompt: the first decode step feeds token `0` at position `0`. -/
def emptyPromptCalls : List DriverEvent :=
  [.addRequest [] 0 4 [] none, .schedule [], .schedule [], .recordOutput "req_1" 7, .schedule []]

/-- Two requests under one id: both outputs are recorded for the first. -/
def sharedIdCalls : List DriverEvent :=
  [.addRequest [1] 0 4 [] (some "x"), .addRequest [2] 1 4 [] (some "x"), .schedule [],
    .recordOutput "x" 5, .recordOutput "x" 6, .schedule []]

/-- Both outputs of a request recorded after its second batch. -/
def lateRecordCalls : List DriverEvent :=
  [.addRequest [1] 0 4 [] none, .schedule [], .schedule [], .recordOutput "req_1" 5,
    .recordOutput "req_1" 6]

theorem exists_not_fedInOrder {tracks : List Track} {sequence : List UInt32}
    {fed : List (UInt32 × Nat)} (h : ∃ t ∈ tracks, t.request.sequence = sequence ∧ t.feed.fed = fed)
    (hne : fed ≠ (sequence.take fed.length).zipIdx) :
    ∃ t ∈ tracks, t.request.sequence = sequence ∧ t.feed.fed = fed ∧ ¬ t.FedInOrder blockSize := by
  obtain ⟨t, ht, hseq, hfed⟩ := h
  refine ⟨t, ht, hseq, hfed, fun horder => hne ?_⟩
  have heq := horder.fed
  rwa [hseq, hfed] at heq

/-- For an empty prompt, for shared ids, and where outputs are recorded later than a batch. -/
theorem decodePositions_fails :
    ∃ sched bm, Scheduler.new listHeap 2 8 2 true = .ok sched ∧ BlockManager.new 4 2 = .ok bm ∧
      (∃ s, Run Session.Followed (.start sched bm) emptyPromptCalls s ∧
        ∃ t ∈ s.driver.tracks, t.request.sequence = [7] ∧ t.feed.fed = [(0, 0), (7, 0)] ∧
          ¬ t.FedInOrder bm.blockSize) ∧
      (∃ s, Run Session.Followed (.start sched bm) sharedIdCalls s ∧
        ∃ t ∈ s.driver.tracks, t.request.sequence = [1, 5, 6] ∧ t.feed.fed = [(1, 0), (6, 2)] ∧
          ¬ t.FedInOrder bm.blockSize) ∧
      ∃ d, Run Driver.Served (.start sched bm) lateRecordCalls d ∧
        ∃ t ∈ d.tracks, t.request.sequence = [1, 5, 6] ∧ t.feed.fed = [(1, 0), (1, 0)] ∧
          ¬ t.FedInOrder bm.blockSize := by
  obtain ⟨sched, hsched⟩ : ∃ sched, Scheduler.new listHeap 2 8 2 true = .ok sched := ⟨_, rfl⟩
  obtain ⟨bm, hbm⟩ : ∃ bm, BlockManager.new 4 2 = .ok bm := ⟨_, rfl⟩
  have hfollowed : ∀ calls, Enabled (fun (s : Session listHeap) e => s.Follows e) Session.apply
      (.start sched bm) calls → Run Session.Followed (.start sched bm) calls
        (calls.foldl Session.apply (.start sched bm)) :=
    fun calls h => Run.of_enabled (fun _ _ hf => ⟨hf, rfl⟩) h
  have hserved : Enabled (fun (d : Driver listHeap) e => Driver.NoHits e ∧ d.KeepsChunks e)
      Driver.apply (.start sched bm) lateRecordCalls := by
    cases hsched
    cases hbm
    decide +kernel
  refine ⟨sched, bm, hsched, hbm,
    ⟨_, hfollowed emptyPromptCalls ?_, exists_not_fedInOrder ?_ (by decide)⟩,
    ⟨_, hfollowed sharedIdCalls ?_, exists_not_fedInOrder ?_ (by decide)⟩,
    ⟨_, Run.of_enabled (fun _ _ h => ⟨h, rfl⟩) hserved, exists_not_fedInOrder ?_ (by decide)⟩⟩
  all_goals
    cases hsched
    cases hbm
    decide +kernel

end CompileForge.Runtime
