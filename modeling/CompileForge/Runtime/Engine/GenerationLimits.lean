/-
  How many tokens a request receives.  `record_output` appends before it tests, and it finds every
  request of the running list, also one that is finished and not yet reaped.
-/

import CompileForge.Runtime.Engine.DecodePositions

namespace CompileForge.Runtime

open Lib List

/-! ## Journals -/

variable {α : Type} {p : α → Bool} {l : List α} {a : α}

theorem updateFirst_mem {f : α → α} (h : a ∈ l) :
    a ∈ updateFirst p f l ∨ f a ∈ updateFirst p f l := by
  induction l with
  | nil => cases h
  | cons b l ih =>
    rw [updateFirst]
    rcases mem_cons.1 h with rfl | hrest
    · split
      · exact .inr mem_cons_self
      · exact .inl mem_cons_self
    · split
      · exact .inl (mem_cons_of_mem _ hrest)
      · exact (ih hrest).imp (mem_cons_of_mem b) (mem_cons_of_mem b)

theorem mem_eraseP_or_find? (h : a ∈ l) :
    a ∈ l.eraseP p ∨ l.find? p = some a := by
  induction l with
  | nil => cases h
  | cons b l ih =>
    by_cases hb : p b = true
    · rw [eraseP_cons_of_pos hb, find?_cons_of_pos hb, Option.some.injEq]
      exact (mem_cons.1 h).symm.imp_right Eq.symm
    · rw [eraseP_cons_of_neg hb, find?_cons_of_neg hb]
      rcases mem_cons.1 h with rfl | hrest
      · exact .inl mem_cons_self
      · exact (ih hrest).imp_left (mem_cons_of_mem b)

/-- A batch that contained a request, or an output recorded for it. -/
inductive JournalEntry where
  | emitted (sr : ScheduledRequest)
  | recorded (tokenId : UInt32) (finished : Bool)
deriving DecidableEq, Repr

/-- A request with all that happened to it. -/
structure Journal where
  request : Request
  entries : List JournalEntry
deriving DecidableEq, Repr

namespace Journal

def start (req : Request) : Journal := ⟨req, []⟩

def turn (j : Journal) (slot : Slot) : Journal :=
  ⟨slot.after, j.entries ++ (slot.scheduled?.map JournalEntry.emitted).toList⟩

def record (j : Journal) (tokenId : UInt32) : Journal :=
  ⟨(Scheduler.recordToken j.request tokenId).1,
    j.entries ++ [.recorded tokenId (Scheduler.recordToken j.request tokenId).2]⟩

/-- At most `max_tokens` outputs, none behind a stop token, no batch once finished. -/
structure Limited (j : Journal) : Prop where
  length_le : j.request.outputTokens.length ≤ j.request.maxTokens
  stops : ∀ pre tokenId post, j.request.outputTokens = pre ++ tokenId :: post →
    tokenId ∈ j.request.stopTokenIds → post = []
  silent : ∀ pre tokenId post, j.entries = pre ++ .recorded tokenId true :: post →
    ∀ sr, .emitted sr ∉ post

/-- A journal goes on behind another. -/
structure Extends (j j' : Journal) : Prop where
  outputs : j.request.outputTokens <+: j'.request.outputTokens
  maxTokens_eq : j'.request.maxTokens = j.request.maxTokens
  stopTokenIds_eq : j'.request.stopTokenIds = j.request.stopTokenIds
  entries : j.entries <+: j'.entries

variable {j j' : Journal} {tokenId : UInt32}

theorem Extends.refl (j : Journal) : j.Extends j :=
  ⟨prefix_rfl, rfl, rfl, prefix_rfl⟩

theorem Limited.of_extends (h : j'.Limited) (hext : j.Extends j') : j.Limited := by
  obtain ⟨outputs, houtputs⟩ := hext.outputs
  obtain ⟨entries, hentries⟩ := hext.entries
  refine ⟨?_, fun pre tokenId post heq hstop => ?_, fun pre tokenId post heq sr hsr => ?_⟩
  · have hle := h.length_le
    rw [hext.maxTokens_eq] at hle
    exact hext.outputs.length_le.trans hle
  · have hpost := h.stops pre tokenId (post ++ outputs)
      (by rw [← houtputs, heq, append_assoc, cons_append])
      (hext.stopTokenIds_eq ▸ hstop)
    exact (append_eq_nil_iff.1 hpost).1
  · exact h.silent pre tokenId (post ++ entries)
      (by rw [← hentries, heq, append_assoc, cons_append]) sr
      (mem_append_left _ hsr)

/-! ## Recording -/

theorem outputTokens_record (j : Journal) (tokenId : UInt32) :
    (j.record tokenId).request.outputTokens = j.request.outputTokens ++ [tokenId] ∧
      (j.record tokenId).request.maxTokens = j.request.maxTokens ∧
      (j.record tokenId).request.stopTokenIds = j.request.stopTokenIds := by
  rcases Scheduler.recordToken_cases j.request tokenId with ⟨heq, -⟩ | ⟨heq, -⟩ <;>
    simp only [record, heq, Request.markFinished, Request.appendToken, and_self]

theorem extends_record (j : Journal) (tokenId : UInt32) : j.Extends (j.record tokenId) := by
  obtain ⟨houtputs, hmax, hstops⟩ := outputTokens_record j tokenId
  exact ⟨houtputs ▸ prefix_append _ _, hmax, hstops, prefix_append _ _⟩

/-- A request that is not finished may receive another token, unless its limit is zero. -/
structure Open (j : Journal) : Prop where
  room : j.request.outputTokens.length < j.request.maxTokens ∨ j.request.outputTokens = []
  noStop : ∀ tokenId ∈ j.request.outputTokens, tokenId ∉ j.request.stopTokenIds
  unreported : ∀ tokenId, .recorded tokenId true ∉ j.entries

theorem open_start {req : Request} (h : req.outputTokens = []) : (start req).Open := by
  refine ⟨.inr h, fun t ht => ?_, nofun⟩
  exact absurd (h ▸ ht) not_mem_nil

theorem Open.limited (h : j.Open) : j.Limited := by
  refine ⟨?_, fun pre tokenId post heq hstop => ?_, fun pre tokenId post heq sr hsr => ?_⟩
  · rcases h.room with hlt | hnil
    · exact hlt.le
    · rw [hnil]
      exact Nat.zero_le _
  · refine absurd hstop (h.noStop tokenId ?_)
    rw [heq]
    exact mem_append_right _ mem_cons_self
  · refine absurd ?_ (h.unreported tokenId)
    rw [heq]
    exact mem_append_right _ mem_cons_self

/-- The request has what it asked for. -/
def Ended (req : Request) : Prop :=
  req.maxTokens ≤ req.outputTokens.length ∨ ∃ t ∈ req.outputTokens, t ∈ req.stopTokenIds

theorem ended_record (h : j.request.isFinished = true → Ended j.request) (tokenId : UInt32)
    (hfinished : (j.record tokenId).request.isFinished = true) :
    Ended (j.record tokenId).request := by
  obtain ⟨houtputs, hmax, hstops⟩ := outputTokens_record j tokenId
  rw [Ended, houtputs, hmax, hstops, length_append, length_singleton]
  rcases Scheduler.recordToken_cases j.request tokenId with ⟨-, hlong | hstop⟩ | ⟨heq, -⟩
  · exact .inl hlong
  · exact .inr ⟨tokenId, by simp, hstop⟩
  · -- the state is what it was before
    rw [record, heq] at hfinished
    rcases h hfinished with hlong | ⟨t, ht, hstop⟩
    · exact .inl (Nat.le_succ_of_le hlong)
    · exact .inr ⟨t, mem_append_left _ ht, hstop⟩

theorem not_limited_record (h : j.request.isFinished = true → Ended j.request)
    (hbad : ¬ (j.request.isFinished = false ∧ 0 < j.request.maxTokens)) :
    ¬ (j.record tokenId).Limited := by
  intro hlimited
  obtain ⟨houtputs, hmax, hstops⟩ := outputTokens_record j tokenId
  have hle := hlimited.length_le
  rw [houtputs, hmax, length_append, length_singleton] at hle
  have hfinished : j.request.isFinished = true := by
    by_contra hlive
    exact hbad ⟨Bool.eq_false_iff.2 hlive, by omega⟩
  rcases h hfinished with hlong | ⟨t, ht, hstop⟩
  · omega
  · -- the stop token is followed by the new token
    obtain ⟨pre, post, heq⟩ := append_of_mem ht
    have hnil := hlimited.stops pre t (post ++ [tokenId])
      (by rw [houtputs, heq, append_assoc, cons_append]) (hstops ▸ hstop)
    exact append_ne_nil_of_right_ne_nil post (cons_ne_nil tokenId []) hnil

theorem Open.record (h : j.Open) (hpos : 0 < j.request.maxTokens) (tokenId : UInt32) :
    (j.record tokenId).Limited ∧
      ((j.record tokenId).request.isFinished = false → (j.record tokenId).Open) := by
  obtain ⟨houtputs, hmax, hstops⟩ := outputTokens_record j tokenId
  have hroom : j.request.outputTokens.length < j.request.maxTokens := by
    rcases h.room with hlt | hnil
    · exact hlt
    · rwa [hnil]
  constructor
  · refine ⟨?_, fun pre t post heq hstop => ?_, fun pre t post heq sr hsr => ?_⟩
    · rw [houtputs, hmax, length_append, length_singleton]
      exact hroom
    · -- a stop token can only be the last one
      rw [houtputs] at heq
      rw [hstops] at hstop
      rcases snoc_eq_append_cons heq with ⟨-, -, hlast⟩ | ⟨post', -, hold⟩
      · exact hlast
      · exact absurd hstop (h.noStop t (hold ▸ mem_append_right pre mem_cons_self))
    · -- the report is the last entry
      rcases snoc_eq_append_cons heq with ⟨-, -, rfl⟩ | ⟨post', -, hold⟩
      · exact not_mem_nil hsr
      · exact h.unreported t (hold ▸ mem_append_right pre mem_cons_self)
  · intro hmore
    rcases Scheduler.recordToken_cases j.request tokenId with ⟨heq, -⟩ | ⟨heq, hlt, hgo⟩
    · rw [Journal.record, heq] at hmore
      simp [Request.isFinished, Request.markFinished] at hmore
    · refine ⟨.inl ?_, fun t ht => ?_, fun t ht => ?_⟩
      · rw [houtputs, hmax, length_append, length_singleton]
        exact hlt
      · rw [houtputs] at ht
        rw [hstops]
        rcases mem_append.1 ht with ht | ht
        · exact h.noStop t ht
        · rw [mem_singleton.1 ht]
          exact hgo
      · rcases mem_append.1 ht with ht | ht
        · exact h.unreported t ht
        · rw [heq, mem_singleton] at ht
          cases ht

/-! ## Turns -/

theorem Open.turn {slot : Slot} (h : j.Open)
    (houtputs : slot.after.outputTokens = j.request.outputTokens)
    (hmax : slot.after.maxTokens = j.request.maxTokens)
    (hstops : slot.after.stopTokenIds = j.request.stopTokenIds) : (j.turn slot).Open := by
  refine ⟨?_, fun t ht => ?_, fun t ht => ?_⟩
  · rw [Journal.turn, houtputs, hmax]
    exact h.room
  · rw [Journal.turn, houtputs] at ht
    rw [Journal.turn, hstops]
    exact h.noStop t ht
  · rcases mem_append.1 ht with hold | hnew
    · exact h.unreported t hold
    · -- a turn records nothing
      obtain ⟨sr, -, heq⟩ := Option.map_eq_some_iff.1 (Option.mem_toList.1 hnew)
      cases heq

end Journal

theorem Request.withHit_limits (cacheHits : List PrefixCacheHit) (req : Request) :
    (req.withHit cacheHits).outputTokens = req.outputTokens ∧
      (req.withHit cacheHits).isFinished = false := by
  unfold withHit
  split
  · exact ⟨rfl, rfl⟩
  · split
    · refine ⟨rfl, ?_⟩
      simp only [isFinished]
      split <;> rfl
    · exact ⟨rfl, rfl⟩

section Slots

variable {journals : List Journal} {slots : List Slot} {j : Journal}

variable (hbefore : slots.map Slot.before = journals.map Journal.request)
include hbefore

theorem mem_zipWith_turn (hj : j ∈ zipWith Journal.turn journals slots) :
    ∃ old ∈ journals, ∃ slot ∈ slots, slot.before = old.request ∧ j = old.turn slot := by
  induction journals generalizing slots with
  | nil => cases hj
  | cons first journals ih =>
    cases slots with
    | nil => cases hbefore
    | cons slot =>
      rw [map_cons, map_cons, List.cons.injEq] at hbefore
      rcases mem_cons.1 hj with rfl | hj
      · exact ⟨first, mem_cons_self, slot, mem_cons_self, hbefore.1, rfl⟩
      · obtain ⟨old, hold, slot', hslot', hpair⟩ := ih hbefore.2 hj
        exact ⟨old, mem_cons_of_mem first hold, slot', mem_cons_of_mem slot hslot', hpair⟩

theorem map_request_zipWith :
    (zipWith Journal.turn journals slots).map Journal.request = slots.map Slot.after := by
  induction journals generalizing slots with
  | nil =>
    rw [map_nil, map_eq_nil_iff] at hbefore
    rw [hbefore]
    rfl
  | cons first journals ih =>
    cases slots with
    | nil => rfl
    | cons =>
      rw [map_cons, map_cons, List.cons.injEq] at hbefore
      rw [zipWith_cons_cons, map_cons, map_cons, ih hbefore.2]
      rfl

theorem turn_mem_zipWith (hj : j ∈ journals) :
    ∃ slot ∈ slots, slot.before = j.request ∧
      j.turn slot ∈ zipWith Journal.turn journals slots := by
  induction journals generalizing slots with
  | nil => cases hj
  | cons first journals ih =>
    cases slots with
    | nil => cases hbefore
    | cons slot =>
      rw [map_cons, map_cons, List.cons.injEq] at hbefore
      rcases mem_cons.1 hj with rfl | hj
      · exact ⟨slot, mem_cons_self, hbefore.1, mem_cons_self⟩
      · obtain ⟨slot', hslot', heq, hmem⟩ := ih hbefore.2 hj
        exact ⟨slot', mem_cons_of_mem slot hslot', heq, mem_cons_of_mem _ hmem⟩

end Slots

/-! ## A scheduler under any driver -/

variable {heap : MaxHeap QueueEntry QueueEntry.rank}

/-- A scheduler and its pool, with the journals of requests and the ids still to record for. -/
structure Recorder (heap : MaxHeap QueueEntry QueueEntry.rank) where
  sched : Scheduler heap
  bm : BlockManager
  journals : List Journal
  retired : List Journal
  owed : List String

namespace Recorder

def start (sched : Scheduler heap) (bm : BlockManager) : Recorder heap :=
  { sched, bm, journals := [], retired := [], owed := [] }

variable (s : Recorder heap)

/-- The journals `build_batch` goes through: those that stay, then the admitted ones. -/
def admittedJournals (running : List Request) : List Journal :=
  let live := s.journals.filter (!·.request.isFinished)
  live ++ (running.drop live.length).map Journal.start

def apply : DriverEvent → Recorder heap
  | .addRequest promptTokens priority maxTokens stopTokenIds requestId =>
    { s with
      sched := (s.sched.addRequest promptTokens priority maxTokens stopTokenIds requestId).2 }
  | .schedule cacheHits =>
    let admitted := s.sched.admitRequests s.bm cacheHits
    let built := admitted.1.buildBatch admitted.2
    { sched := built.2.1
      bm := built.2.2
      journals := zipWith Journal.turn (s.admittedJournals admitted.1.running) built.1
      retired := s.retired ++ s.journals.filter (·.request.isFinished)
      -- every scheduled request in state `Decode` is owed an output
      owed := s.owed ++ (batchOf built.1).awaiting }
  | .recordOutput requestId tokenId =>
    { s with
      sched := (s.sched.recordOutput requestId tokenId).2
      journals := updateFirst (fun j => j.request.requestId = requestId)
        (fun j => j.record tokenId) s.journals
      owed := s.owed.erase requestId }
  | .getFinishedRequest requestId =>
    { s with
      sched := (s.sched.getFinishedRequest requestId).2
      journals := s.journals.eraseP fun j => j.request.requestId = requestId
      retired := s.retired ++ (s.journals.find? fun j => j.request.requestId = requestId).toList }

/-- An output is recorded at most once for every `Decode` request that was scheduled. -/
def Owes : DriverEvent → Prop
  | .recordOutput requestId _ => requestId ∈ s.owed
  | _ => True

instance : (e : DriverEvent) → Decidable (s.Owes e)
  | .addRequest .. => isTrue trivial
  | .schedule _ => isTrue trivial
  | .recordOutput requestId _ => inferInstanceAs (Decidable (requestId ∈ s.owed))
  | .getFinishedRequest _ => isTrue trivial

def Step (e : DriverEvent) (s' : Recorder heap) : Prop :=
  s.Owes e ∧ s' = s.apply e

/-- The request that `record_output` finds is unfinished and may have outputs. -/
def Unfinished : DriverEvent → Prop
  | .recordOutput requestId _ =>
    ∀ req ∈ s.sched.runningRequest requestId, req.isFinished = false ∧ 0 < req.maxTokens
  | _ => True

/-- All requests, running or gone, are within their limits. -/
def Limited : Prop := ∀ j ∈ s.journals ++ s.retired, j.Limited

/-! ### What holds in every run -/

/-- The journals are the running list, and what is finished has reached a limit. -/
structure Kept : Prop where
  synced : s.journals.map Journal.request = s.sched.running
  ended : ∀ j ∈ s.journals, j.request.isFinished = true → Journal.Ended j.request
  queued : ∀ entry ∈ heap.items s.sched.waiting, entry.request.outputTokens = []

variable {s : Recorder heap}

theorem Kept.batch_spec (h : s.Kept) (cacheHits : List PrefixCacheHit) :
    (((s.sched.admitRequests s.bm cacheHits).1.buildBatch
        (s.sched.admitRequests s.bm cacheHits).2).1.map Slot.before =
      (s.admittedJournals (s.sched.admitRequests s.bm cacheHits).1.running).map
        Journal.request) ∧
    (∀ slot ∈ ((s.sched.admitRequests s.bm cacheHits).1.buildBatch
        (s.sched.admitRequests s.bm cacheHits).2).1,
      slot.after.outputTokens = slot.before.outputTokens ∧
      slot.after.maxTokens = slot.before.maxTokens ∧
      slot.after.stopTokenIds = slot.before.stopTokenIds ∧
      slot.after.isFinished = slot.before.isFinished) ∧
    (∀ j ∈ s.admittedJournals (s.sched.admitRequests s.bm cacheHits).1.running,
      j.request.isFinished = false ∧ (j ∈ s.journals ∨
        ∃ req, req.outputTokens = [] ∧ j = Journal.start req)) ∧
    ∀ entry ∈ heap.items (s.sched.admitRequests s.bm cacheHits).1.waiting,
      entry ∈ heap.items s.sched.waiting := by
  obtain ⟨entries, hperm, hrunning, -, hconfig, -⟩ :=
    s.sched.admitRequests_spec s.bm cacheHits
  have hlive : (s.sched.running.filter (!·.isFinished)) =
      (s.journals.filter (!·.request.isFinished)).map Journal.request := by
    rw [← h.synced, filter_map]
    rfl
  have hjournals : s.admittedJournals (s.sched.admitRequests s.bm cacheHits).1.running =
      s.journals.filter (!·.request.isFinished) ++
        (entries.map fun e => e.request.withHit cacheHits).map Journal.start := by
    rw [admittedJournals, hrunning, hlive, drop_left' (length_map ..)]
  refine ⟨?_, ?_, fun j hj => ?_, fun entry hentry => ?_⟩
  · rw [hjournals, map_append, ← hlive, map_map, map_map,
      Scheduler.buildBatch, buildSlots_before, hrunning]
    rfl
  · intro slot hslot
    obtain ⟨_, _, turn, hturned, rfl⟩ := turned_of_mem_buildSlots _ _ _ _ slot hslot
    exact hturned.limits_eq
  · rw [hjournals] at hj
    rcases mem_append.1 hj with hold | hnew
    · obtain ⟨hmem, hgoing⟩ := mem_filter.1 hold
      exact ⟨by simpa using hgoing, .inl hmem⟩
    · obtain ⟨req, hreq, rfl⟩ := mem_map.1 hnew
      obtain ⟨entry, hentry, rfl⟩ := mem_map.1 hreq
      have hempty := h.queued entry (hperm.mem_iff.2 (mem_append_left _ hentry))
      obtain ⟨houtputs, hgoing⟩ := entry.request.withHit_limits cacheHits
      exact ⟨hgoing, .inr ⟨_, houtputs.trans hempty, rfl⟩⟩
  · exact hperm.mem_iff.2 (mem_append_right _ hentry)

theorem Kept.apply (h : s.Kept) (e : DriverEvent) : (s.apply e).Kept := by
  cases e with
  | addRequest promptTokens priority maxTokens stopTokenIds requestId =>
    refine ⟨h.synced, h.ended, fun entry hentry => ?_⟩
    -- a new request has no outputs, whoever named it
    cases requestId with
    | none =>
      rcases heap.mem_push.1 hentry with rfl | hold
      · rfl
      · exact h.queued entry hold
    | some =>
      rcases heap.mem_push.1 hentry with rfl | hold
      · rfl
      · exact h.queued entry hold
  | schedule cacheHits =>
    obtain ⟨hbefore, hturns, horigin, hwaiting⟩ := h.batch_spec cacheHits
    refine ⟨map_request_zipWith hbefore, fun j hj hfinished => ?_,
      fun entry hentry => h.queued entry (hwaiting entry hentry)⟩
    -- no turn finishes a request
    obtain ⟨old, hold, slot, hslot, heq, rfl⟩ := mem_zipWith_turn hbefore hj
    obtain ⟨-, -, -, hstate⟩ := hturns slot hslot
    have hgoing := (horigin old hold).1
    rw [← heq, ← hstate] at hgoing
    exact absurd hfinished (Bool.eq_false_iff.1 hgoing)
  | recordOutput rid tokenId =>
    refine ⟨?_, fun j hj hfinished => ?_, fun entry hentry => ?_⟩
    · show (updateFirst _ _ s.journals).map Journal.request =
        (s.sched.recordOutput rid tokenId).2.running
      rw [Driver.running_recordOutput, ← h.synced]
      refine Driver.map_updateFirst Journal.request (fun j => ?_) (fun j => ?_) s.journals
      · rfl
      · rfl
    · rcases Driver.mem_updateFirst hj with hmem | ⟨old, hold, -, rfl⟩
      · exact h.ended j hmem hfinished
      · exact Journal.ended_record (h.ended old hold) tokenId hfinished
    · have hsame := (Scheduler.waiting_recordOutput s.sched rid tokenId).1
      exact h.queued entry (hsame ▸ hentry)
  | getFinishedRequest =>
    refine ⟨?_, fun j hj => h.ended j (mem_of_mem_eraseP hj), h.queued⟩
    show (s.journals.eraseP _).map Journal.request = s.sched.running.eraseP _
    rw [← h.synced, eraseP_map]
    rfl

theorem Kept.extends_apply (h : s.Kept) (e : DriverEvent) {j : Journal}
    (hj : j ∈ s.journals ++ s.retired) :
    ∃ j' ∈ (s.apply e).journals ++ (s.apply e).retired, j.Extends j' := by
  have hkeep : j ∈ (s.apply e).journals ++ (s.apply e).retired →
      ∃ j' ∈ (s.apply e).journals ++ (s.apply e).retired, j.Extends j' :=
    fun hmem => ⟨j, hmem, .refl j⟩
  rcases mem_append.1 hj with hj | hgone
  · cases e with
    | addRequest => exact hkeep (mem_append_left _ hj)
    | schedule cacheHits =>
      obtain ⟨hbefore, hturns, -, -⟩ := h.batch_spec cacheHits
      cases hfinished : j.request.isFinished with
      | true =>
        refine hkeep (mem_append_right _ (mem_append_right _ ?_))
        exact mem_filter.2 ⟨hj, hfinished⟩
      | false =>
        have hlive : j ∈ s.admittedJournals
            (s.sched.admitRequests s.bm cacheHits).1.running :=
          mem_append_left _ (mem_filter.2 ⟨hj, by rw [hfinished]; rfl⟩)
        obtain ⟨slot, hslot, heq, hmem⟩ := turn_mem_zipWith hbefore hlive
        obtain ⟨houtputs, hmax, hstops, -⟩ := hturns slot hslot
        rw [heq] at houtputs hmax hstops
        exact ⟨_, mem_append_left _ hmem, houtputs ▸ prefix_rfl, hmax, hstops, prefix_append _ _⟩
    | recordOutput rid tokenId =>
      rcases updateFirst_mem hj with hmem | hmem
      · exact hkeep (mem_append_left _ hmem)
      · exact ⟨_, mem_append_left _ hmem, Journal.extends_record j tokenId⟩
    | getFinishedRequest =>
      rcases mem_eraseP_or_find? hj with hmem | hfound
      · exact hkeep (mem_append_left _ hmem)
      · refine hkeep (mem_append_right _ (mem_append_right _ ?_))
        exact Option.mem_toList.2 hfound
  · -- what has left stays as it is
    cases e with
    | addRequest => exact hkeep (mem_append_right _ hgone)
    | recordOutput => exact hkeep (mem_append_right _ hgone)
    | schedule => exact hkeep (mem_append_right _ (mem_append_left _ hgone))
    | getFinishedRequest => exact hkeep (mem_append_right _ (mem_append_left _ hgone))

theorem Kept.runningRequest_eq (h : s.Kept) (rid : String) : s.sched.runningRequest rid =
    (s.journals.find? fun j => j.request.requestId = rid).map Journal.request := by
  rw [Scheduler.runningRequest, ← h.synced, find?_map]
  rfl

variable {e : DriverEvent}

theorem Kept.unfinished_of_limited (h : s.Kept) (hlim : (s.apply e).Limited) :
    s.Unfinished e := by
  cases e with
  | recordOutput rid tokenId =>
    intro req hreq
    rw [h.runningRequest_eq] at hreq
    obtain ⟨j, hfound, rfl⟩ := Option.map_eq_some_iff.1 hreq
    by_contra hbad
    exact Journal.not_limited_record (h.ended j (mem_of_find?_eq_some hfound)) hbad
      (hlim (j.record tokenId) (mem_append_left _ (Driver.updateFirst_found hfound)))
  | addRequest => trivial
  | schedule => trivial
  | getFinishedRequest => trivial

theorem Kept.limited_of_apply (h : s.Kept) (hlim : (s.apply e).Limited) :
    s.Limited := by
  intro j hj
  obtain ⟨j', hj', hext⟩ := h.extends_apply e hj
  exact (hlim j' hj').of_extends hext

/-! ### What holds as long as no finished request is given a token -/

/-- Every request is within its limits, and open unless it is finished. -/
structure Within : Prop where
  kept : s.Kept
  live : ∀ j ∈ s.journals, j.Limited ∧ (j.request.isFinished = false → j.Open)
  gone : ∀ j ∈ s.retired, j.Limited

theorem Within.limited (h : s.Within) : s.Limited := by
  intro j hj
  rcases mem_append.1 hj with hj | hj
  · exact (h.live j hj).1
  · exact h.gone j hj

theorem Within.apply (h : s.Within) (hgood : s.Unfinished e) :
    (s.apply e).Within := by
  refine ⟨h.kept.apply e, fun j hj => ?_, fun j hj => ?_⟩
  · cases e with
    | addRequest => exact h.live j hj
    | schedule cacheHits =>
      obtain ⟨hbefore, hturns, horigin, -⟩ := h.kept.batch_spec cacheHits
      obtain ⟨old, hold, slot, hslot, heq, rfl⟩ := mem_zipWith_turn hbefore hj
      obtain ⟨houtputs, hmax, hstops, -⟩ := hturns slot hslot
      rw [heq] at houtputs hmax hstops
      have hopen : old.Open := by
        obtain ⟨hgoing, hmem | ⟨req, hempty, rfl⟩⟩ := horigin old hold
        · exact (h.live old hmem).2 hgoing
        · exact Journal.open_start hempty
      have hturned := hopen.turn houtputs hmax hstops
      exact ⟨hturned.limited, fun _ => hturned⟩
    | recordOutput rid tokenId =>
      rcases Driver.mem_updateFirst_found hj with hmem | ⟨old, hfound, rfl⟩
      · exact h.live j hmem
      · have hreq : s.sched.runningRequest rid = some old.request := by
          rw [h.kept.runningRequest_eq, hfound]
          rfl
        obtain ⟨hgoing, hpos⟩ := hgood old.request hreq
        exact ((h.live old (mem_of_find?_eq_some hfound)).2 hgoing).record hpos tokenId
    | getFinishedRequest => exact h.live j (mem_of_mem_eraseP hj)
  · cases e with
    | addRequest => exact h.gone j hj
    | recordOutput => exact h.gone j hj
    | schedule =>
      rcases mem_append.1 hj with hj | hj
      · exact h.gone j hj
      · exact (h.live j (mem_filter.1 hj).1).1
    | getFinishedRequest =>
      rcases mem_append.1 hj with hj | hj
      · exact h.gone j hj
      · exact (h.live j (mem_of_find?_eq_some (Option.mem_toList.1 hj))).1

end Recorder

/-- Within limits exactly if every `record_output` found an open request with a limit. -/
theorem limited_iff_of_run {maxBatchSize maxTokensPerStep chunkSize : Nat} {useKvCache : Bool}
    {sched : Scheduler heap} {bm : BlockManager} {s : Recorder heap} {events : List DriverEvent}
    (hnew : Scheduler.new heap maxBatchSize maxTokensPerStep chunkSize useKvCache = .ok sched)
    (hrun : Run Recorder.Step (.start sched bm) events s) :
    s.Limited ↔ Run (fun m e m' => m.Unfinished e ∧ m.Step e m') (.start sched bm) events s := by
  obtain ⟨-, hrunning, hempty, -⟩ := Scheduler.new_spec hnew
  have hstart : (Recorder.start sched bm).Kept :=
    ⟨hrunning.symm, nofun,
      fun entry hentry => absurd (hempty ▸ hentry) not_mem_nil⟩
  constructor
  · intro hlimited
    refine hrun.with_guard hstart (fun m e m' hm hstep => hstep.2 ▸ hm.apply e)
      (fun m e m' hm hstep hlim => ?_) hlimited
    obtain ⟨-, rfl⟩ := hstep
    exact ⟨hm.limited_of_apply hlim, hm.unfinished_of_limited hlim⟩
  · intro hguarded
    have hwithin : (Recorder.start sched bm).Within :=
      ⟨hstart, nofun, nofun⟩
    refine (hguarded.invariant hwithin fun m e m' hm hstep => ?_).limited
    obtain ⟨hgood, -, rfl⟩ := hstep
    exact hm.apply hgood

/-! ## Runs within the limits, and past them -/

/-- A prompt of one token and two outputs, the limit of the request. -/
def limitedCalls : List DriverEvent :=
  [.addRequest [1] 0 2 [] none, .schedule [], .recordOutput "req_1" 5, .schedule [],
    .recordOutput "req_1" 6, .schedule []]

/-- A request whose `max_tokens` is zero. -/
def zeroLimitCalls : List DriverEvent :=
  [.addRequest [1] 0 0 [] none, .schedule [], .recordOutput "req_1" 5]

/-- Two batches, and both outputs recorded behind them; the first is a stop token. -/
def pastStopCalls : List DriverEvent :=
  [.addRequest [1] 0 4 [5] none, .schedule [], .schedule [], .recordOutput "req_1" 5,
    .recordOutput "req_1" 6]

/-- Two batches, and both outputs recorded behind them; the limit is one. -/
def pastLimitCalls : List DriverEvent :=
  [.addRequest [1] 0 1 [] none, .schedule [], .schedule [], .recordOutput "req_1" 5,
    .recordOutput "req_1" 6]

theorem limited_iff_of_run_witness :
    ∃ sched bm s, Scheduler.new listHeap 2 8 2 true = .ok sched ∧ BlockManager.new 4 2 = .ok bm ∧
      Run Recorder.Step (.start sched bm) limitedCalls s ∧
      s.retired.map (fun j => j.request.outputTokens) = [[5, 6]] ∧
      (s.Limited ↔ Run (fun m e m' => m.Unfinished e ∧ m.Step e m') (.start sched bm)
        limitedCalls s) := by
  obtain ⟨sched, hsched⟩ : ∃ sched, Scheduler.new listHeap 2 8 2 true = .ok sched := ⟨_, rfl⟩
  obtain ⟨bm, hbm⟩ : ∃ bm, BlockManager.new 4 2 = .ok bm := ⟨_, rfl⟩
  have henabled : Enabled Recorder.Owes Recorder.apply (.start sched bm) limitedCalls := by
    cases hsched
    cases hbm
    decide +kernel
  have hrun : Run Recorder.Step (.start sched bm) limitedCalls _ :=
    Run.of_enabled (fun _ _ h => ⟨h, rfl⟩) henabled
  refine ⟨sched, bm, _, hsched, hbm, hrun, ?_, limited_iff_of_run hsched hrun⟩
  cases hsched
  cases hbm
  decide +kernel

/-- An output under a limit of zero, one behind a stop token, and one past a limit of one. -/
theorem limited_fails :
    ∃ sched bm, Scheduler.new listHeap 2 8 2 true = .ok sched ∧ BlockManager.new 4 2 = .ok bm ∧
      (∃ s, Run Recorder.Step (.start sched bm) zeroLimitCalls s ∧ ¬ s.Limited ∧
        s.journals.map (fun j => (j.request.outputTokens, j.request.maxTokens)) = [([5], 0)]) ∧
      (∃ s, Run Recorder.Step (.start sched bm) pastStopCalls s ∧ ¬ s.Limited ∧
        s.journals.map (fun j => (j.request.outputTokens, j.request.stopTokenIds)) =
          [([5, 6], [5])]) ∧
      ∃ s, Run Recorder.Step (.start sched bm) pastLimitCalls s ∧ ¬ s.Limited ∧
        s.journals.map (fun j => (j.request.outputTokens, j.request.maxTokens)) =
          [([5, 6], 1)] := by
  obtain ⟨sched, hsched⟩ : ∃ sched, Scheduler.new listHeap 2 8 2 true = .ok sched := ⟨_, rfl⟩
  obtain ⟨bm, hbm⟩ : ∃ bm, BlockManager.new 4 2 = .ok bm := ⟨_, rfl⟩
  have hrun : ∀ calls, Enabled Recorder.Owes Recorder.apply (.start sched bm) calls →
      Run Recorder.Step (.start sched bm) calls (calls.foldl Recorder.apply (.start sched bm)) :=
    fun calls h => Run.of_enabled (fun _ _ howed => ⟨howed, rfl⟩) h
  have hlong : ∀ {s : Recorder listHeap} {outputs : List UInt32} {limit : Nat},
      s.journals.map (fun j => (j.request.outputTokens, j.request.maxTokens)) =
        [(outputs, limit)] → limit < outputs.length → ¬ s.Limited := by
    intro s outputs limit hpairs hlt hlimited
    obtain ⟨j, hjournals, hpair⟩ := map_eq_singleton_iff.1 hpairs
    have hle := (hlimited j (by simp [hjournals])).length_le
    rw [Prod.mk.injEq] at hpair
    rw [hpair.1, hpair.2] at hle
    omega
  have hstopped : ∀ {s : Recorder listHeap},
      s.journals.map (fun j => (j.request.outputTokens, j.request.stopTokenIds)) =
        [([5, 6], [5])] → ¬ s.Limited := by
    intro s hpairs hlimited
    obtain ⟨j, hjournals, hpair⟩ := map_eq_singleton_iff.1 hpairs
    rw [Prod.mk.injEq] at hpair
    have hnil := (hlimited j (by simp [hjournals])).stops [] 5 [6] hpair.1 (by rw [hpair.2]; simp)
    exact absurd hnil (by decide)
  have hzero : (zeroLimitCalls.foldl Recorder.apply (.start sched bm)).journals.map
      (fun j => (j.request.outputTokens, j.request.maxTokens)) = [([5], 0)] := by
    cases hsched
    cases hbm
    decide +kernel
  have hstop : (pastStopCalls.foldl Recorder.apply (.start sched bm)).journals.map
      (fun j => (j.request.outputTokens, j.request.stopTokenIds)) = [([5, 6], [5])] := by
    cases hsched
    cases hbm
    decide +kernel
  have hlimit : (pastLimitCalls.foldl Recorder.apply (.start sched bm)).journals.map
      (fun j => (j.request.outputTokens, j.request.maxTokens)) = [([5, 6], 1)] := by
    cases hsched
    cases hbm
    decide +kernel
  refine ⟨sched, bm, hsched, hbm, ⟨_, hrun zeroLimitCalls ?_, hlong hzero (by decide), hzero⟩,
    ⟨_, hrun pastStopCalls ?_, hstopped hstop, hstop⟩,
    ⟨_, hrun pastLimitCalls ?_, hlong hlimit (by decide), hlimit⟩⟩
  all_goals
    cases hsched
    cases hbm
    decide +kernel

end CompileForge.Runtime
