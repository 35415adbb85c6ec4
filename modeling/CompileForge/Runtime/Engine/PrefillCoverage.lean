/-
  What the prefill chunks of a request cover over a whole run.

  The `Prefill` arm moves the cursor before it asks for blocks, so a chunk whose
  allocation fails is lost: the retry starts behind it.
-/

import CompileForge.Runtime.Engine.Driver

namespace CompileForge.Runtime

open Lib List

namespace Feed

variable (feed : Feed)

/-- What was emitted in `Prefill`. -/
def prefills : Feed := feed.filter fun e => e.phase = .prefill

def prefillTokens : List UInt32 :=
  (prefills feed).flatMap fun e => e.request.inputIds

def prefillPositions : List Nat :=
  (prefills feed).flatMap fun e => e.request.positions.map UInt32.toNat

/-- Before the first decode step the whole prompt was fed. -/
def WholeFirst (prompt : List UInt32) : Prop :=
  ∀ pre e post, feed = pre ++ e :: post → e.phase = .decode → prefillTokens pre = prompt

variable {feed : Feed} {prompt : List UInt32} {e : Emission}

theorem prefillTokens_snoc (h : e.phase = .prefill) :
    prefillTokens (feed ++ [e]) = prefillTokens feed ++ e.request.inputIds := by
  simp [prefillTokens, prefills, h]

theorem prefillPositions_snoc (h : e.phase = .prefill) :
    prefillPositions (feed ++ [e]) =
      prefillPositions feed ++ e.request.positions.map UInt32.toNat := by
  simp [prefillPositions, prefills, h]

theorem prefills_snoc_of_ne (h : e.phase ≠ .prefill) : prefills (feed ++ [e]) = prefills feed := by
  simp [prefills, h]

theorem WholeFirst.snoc (h : WholeFirst feed prompt)
    (he : e.phase = .decode → prefillTokens feed = prompt) : WholeFirst (feed ++ [e]) prompt := by
  intro pre e' post heq hphase
  rcases snoc_eq_append_cons heq with ⟨rfl, rfl, -⟩ | ⟨post', -, hfeed⟩
  · exact he hphase
  · exact h pre e' post' hfeed hphase

end Feed

/-- The prefill chunks cut the prompt in order, before any decode step. -/
structure Track.PrefillCovered (t : Track) : Prop where
  tokens : t.feed.prefillTokens <+: t.request.promptTokens
  positions : t.feed.prefillPositions = range t.feed.prefillTokens.length
  whole : t.feed.WholeFirst t.request.promptTokens

/-- The invariant of a live request: its cursor is where the chunks end. -/
structure Track.Covering (t : Track) : Prop where
  tokens : t.feed.prefillTokens = t.request.promptTokens.take t.request.prefillPos
  positions : t.feed.prefillPositions = range t.request.prefillPos
  cursor_le : t.request.prefillPos ≤ t.request.promptTokens.length
  prompt_lt : t.request.promptTokens.length < 2 ^ 32
  decoding : t.request.state = .decode → t.request.prefillPos = t.request.promptTokens.length
  whole : t.feed.WholeFirst t.request.promptTokens

theorem Track.Covering.covered {t : Track} (h : t.Covering) : t.PrefillCovered := by
  refine ⟨?_, ?_, h.whole⟩
  · rw [h.tokens]
    exact take_prefix _ _
  · rw [h.positions, h.tokens, length_take, min_eq_left h.cursor_le]

/-! ## One turn -/

/-- The blocks a `Prefill` turn asks for can be had. -/
def PromptFits (cfg : SchedulerConfig) (budget : Budget) (req : Request) (bm : BlockManager) :
    Prop :=
  req.state = .prefill → req.tokensRemaining ≠ 0 →
    budget.totalPrefillTokens < cfg.maxTokensPerStep →
      (reservePrompt bm req.requestId req.promptTokens.length).1.isOk = true
deriving Decidable

variable {cfg : SchedulerConfig} {budget : Budget} {req : Request} {bm : BlockManager}

theorem Track.Covering.chunk {feed : Feed} (h : (Track.mk req feed).Covering)
    (cfg : SchedulerConfig) (budget : Budget) (hstate : req.state = .prefill) (blocks : List Nat) :
    (Track.mk (req.advance (chunkLen cfg budget req)).settlePrefill
      (feed ++ [⟨.prefill, prefillRequest req (req.advance (chunkLen cfg budget req)).settlePrefill
        (chunkLen cfg budget req) blocks⟩])).Covering := by
  have hle : req.prefillPos + chunkLen cfg budget req ≤ req.promptTokens.length := by
    have hcursor : req.prefillPos ≤ req.promptTokens.length := h.cursor_le
    have hchunk := chunkLen_le cfg budget req
    omega
  have hlt : req.prefillPos + chunkLen cfg budget req < 2 ^ 32 :=
    lt_of_le_of_lt hle h.prompt_lt
  refine ⟨?_, ?_, ?_, ?_, ?_, ?_⟩
  · rw [Feed.prefillTokens_snoc rfl, h.tokens]
    simp only [promptTokens_settlePrefill, prefillPos_settlePrefill, Request.advance,
      prefillRequest, slice]
    exact take_add.symm
  · rw [Feed.prefillPositions_snoc rfl, h.positions]
    simp only [prefillPos_settlePrefill, Request.advance, prefillRequest]
    rw [toNat_u32Range (Nat.le_add_right ..) hlt, Nat.add_sub_cancel_left, range_eq_range',
      range_eq_range', ← range'_append_1, zero_add]
  · simpa [Request.advance] using hle
  · simpa [Request.advance] using h.prompt_lt
  · intro hdecode
    rw [state_settlePrefill] at hdecode
    split at hdecode
    · rename_i hall
      simp only [promptTokens_settlePrefill, prefillPos_settlePrefill]
      exact le_antisymm hle hall
    · simp [Request.advance, hstate] at hdecode
  · rw [promptTokens_settlePrefill]
    exact h.whole.snoc fun hphase => by cases hphase

theorem Track.Covering.turned {feed : Feed} {turn : Turn} (h : (Track.mk req feed).Covering)
    (hfits : PromptFits cfg budget req bm) (hturn : Turned cfg budget req bm turn) :
    (Track.mk turn.slot.after (feed ++ turn.slot.emitted)).Covering := by
  have hskip : (Track.mk req (feed ++ [])).Covering := by rwa [append_nil]
  have hdecode : ∀ sr, req.state = .decode → (Track.mk req (feed ++ [⟨.decode, sr⟩])).Covering := by
    intro sr hstate
    have hne : (Emission.mk .decode sr).phase ≠ .prefill := nofun
    refine ⟨?_, ?_, h.cursor_le, h.prompt_lt, h.decoding, h.whole.snoc fun _ => ?_⟩
    · rw [Feed.prefillTokens, Feed.prefills_snoc_of_ne hne]
      exact h.tokens
    · rw [Feed.prefillPositions, Feed.prefills_snoc_of_ne hne]
      exact h.positions
    · have hcursor : req.prefillPos = req.promptTokens.length := h.decoding hstate
      have htokens : feed.prefillTokens = req.promptTokens.take req.prefillPos := h.tokens
      rw [htokens, hcursor, take_length]
  cases hturn with
  | exhausted hstate hrest =>
    -- nothing left of the prompt: the cursor is at its end
    have hcursor : req.prefillPos ≤ req.promptTokens.length := h.cursor_le
    have hend : req.prefillPos = req.promptTokens.length := by
      unfold Request.tokensRemaining at hrest
      omega
    exact ⟨hskip.tokens, hskip.positions, h.cursor_le, h.prompt_lt, fun _ => hend, hskip.whole⟩
  | promptUnreserved hstate hrest hbudget hoom =>
    have hok := hfits hstate hrest hbudget
    rw [hoom] at hok
    cases hok
  | chunk hstate hrest hbudget hreserve hgrows hcovers =>
    have hchunk := h.chunk cfg budget hstate
    simpa only [Slot.emitted, Slot.scheduled?, Option.map_some, Option.toList_some, hstate]
      using hchunk _
  | decodeCached hstate =>
    simpa only [Slot.emitted, Slot.scheduled?, Option.map_some, Option.toList_some, hstate]
      using hdecode _ hstate
  | decodeFull hstate =>
    simpa only [Slot.emitted, Slot.scheduled?, Option.map_some, Option.toList_some, hstate]
      using hdecode _ hstate
  | _ => exact hskip

theorem Turned.oom_unchanged {turn : Turn} (hturn : Turned cfg budget req bm turn)
    (hfits : PromptFits cfg budget req bm)
    (hoom : turn.slot.result = .skipped .outOfMemory) : turn.slot.after = turn.slot.before := by
  cases hturn with
  | promptUnreserved hstate hrest hbudget hfail =>
    have hok := hfits hstate hrest hbudget
    rw [hfail] at hok
    cases hok
  | tableUngrown => rfl
  | _ => cases hoom

/-! ## Whole runs -/

variable {heap : MaxHeap QueueEntry QueueEntry.rank}

namespace Driver

/-- No prefix hits: the runs the coverage is about. -/
def NoHits : DriverEvent → Prop
  | .schedule cacheHits => cacheHits = []
  | _ => True

instance : DecidablePred NoHits
  | .schedule cacheHits => inferInstanceAs (Decidable (cacheHits = []))
  | .addRequest .. => isTrue trivial
  | .recordOutput .. => isTrue trivial
  | .getFinishedRequest _ => isTrue trivial

variable (d : Driver heap)

/-- A call at which no chunk is lost: every `Prefill` turn gets its blocks. -/
def KeepsChunks : DriverEvent → Prop
  | .addRequest promptTokens _ _ _ _ => promptTokens.length < 2 ^ 32
  | .schedule cacheHits =>
    AlongSlots d.sched.config (PromptFits d.sched.config) ⟨0, 0⟩
      (d.beforeBatch cacheHits).1.running (d.beforeBatch cacheHits).2
  | _ => True

instance : DecidablePred d.KeepsChunks
  | .addRequest promptTokens .. => inferInstanceAs (Decidable (promptTokens.length < 2 ^ 32))
  | .schedule _ => inferInstanceAs (Decidable (AlongSlots _ _ _ _ _))
  | .recordOutput .. => isTrue trivial
  | .getFinishedRequest _ => isTrue trivial

/-- The steps of runs without prefix hits. -/
def Unhinted (e : DriverEvent) (d' : Driver heap) : Prop :=
  NoHits e ∧ d' = d.apply e

/-- Such steps at which moreover no chunk is lost. -/
def Served (e : DriverEvent) (d' : Driver heap) : Prop :=
  (NoHits e ∧ d.KeepsChunks e) ∧ d' = d.apply e

/-- The invariant of a run. -/
structure CoverInv : Prop where
  synced : d.Synced
  tracks : ∀ t ∈ d.tracks, t.Covering
  retired : ∀ t ∈ d.retired, t.PrefillCovered
  queued : ∀ e ∈ heap.items d.sched.waiting,
    e.request.prefillPos = 0 ∧ e.request.promptTokens.length < 2 ^ 32
  skipped : ∀ slot ∈ d.lastSlots, slot.result = .skipped .outOfMemory → slot.after = slot.before

theorem covering_startPrefill {req : Request} (hpos : req.prefillPos = 0)
    (hlt : req.promptTokens.length < 2 ^ 32) : (Track.mk req.startPrefill []).Covering := by
  have hcursor : req.startPrefill.prefillPos = 0 := hpos
  refine ⟨?_, ?_, ?_, hlt, fun hstate => ?_, fun pre e post heq => ?_⟩
  · rw [hcursor]
    rfl
  · rw [hcursor]
    rfl
  · rw [hcursor]
    exact Nat.zero_le _
  · cases hstate
  · exact absurd heq (by simp)

theorem recordToken_frame (req : Request) (tokenId : UInt32) :
    (Scheduler.recordToken req tokenId).1.promptTokens = req.promptTokens ∧
    (Scheduler.recordToken req tokenId).1.prefillPos = req.prefillPos ∧
    ((Scheduler.recordToken req tokenId).1.state = .finished ∨
      (Scheduler.recordToken req tokenId).1.state = req.state) := by
  rcases Scheduler.recordToken_cases req tokenId with ⟨heq, -⟩ | ⟨heq, -⟩
  · rw [heq]
    exact ⟨rfl, rfl, .inl rfl⟩
  · rw [heq]
    exact ⟨rfl, rfl, .inr rfl⟩

theorem covering_recordToken {t : Track} (h : t.Covering) (tokenId : UInt32) :
    (Track.mk (Scheduler.recordToken t.request tokenId).1 t.feed).Covering := by
  obtain ⟨hprompt, hcursor, hstate⟩ := recordToken_frame t.request tokenId
  refine ⟨?_, ?_, ?_, ?_, fun hdecode => ?_, ?_⟩
  · rw [hprompt, hcursor]
    exact h.tokens
  · rw [hcursor]
    exact h.positions
  · rw [hprompt, hcursor]
    exact h.cursor_le
  · rw [hprompt]
    exact h.prompt_lt
  · rcases hstate with hfin | hsame
    · have hboth := hfin.symm.trans hdecode
      cases hboth
    · rw [hprompt, hcursor]
      exact h.decoding (hsame.symm.trans hdecode)
  · rw [hprompt]
    exact h.whole

theorem CoverInv.apply {d : Driver heap} (h : d.CoverInv) {e : DriverEvent} (hhits : NoHits e)
    (hkeeps : d.KeepsChunks e) : (d.apply e).CoverInv := by
  have hsynced := apply_synced h.synced e
  cases e with
  | addRequest =>
    refine ⟨hsynced, h.tracks, h.retired, fun q hq => ?_, h.skipped⟩
    rcases heap.mem_push.1 hq with rfl | hq
    · exact ⟨rfl, hkeeps⟩
    · exact h.queued q hq
  | schedule cacheHits =>
    obtain rfl : cacheHits = [] := hhits
    obtain ⟨entries, hperm, -⟩ := d.sched.admitRequests_nil_spec d.bm
    have hslots : ∀ slot ∈ (buildSlots d.sched.config ⟨0, 0⟩ (d.beforeBatch []).1.running
        (d.beforeBatch []).2).1,
        (∀ feed, (Track.mk slot.before feed).Covering →
          (Track.mk slot.after (feed ++ slot.emitted)).Covering) ∧
        (slot.result = .skipped .outOfMemory → slot.after = slot.before) := by
      refine (buildSlots_rule (I := fun _ => True) (Q := fun _ => True)
        (fun budget req bm turn _ _ hfits hturn => ⟨trivial, fun feed hfeed => ?_, ?_⟩)
        (fun _ _ => trivial) trivial hkeeps).2
      · rw [hturn.before_eq] at hfeed
        exact hfeed.turned hfits hturn
      · exact hturn.oom_unchanged hfits
    refine ⟨hsynced, fun t ht => ?_, fun t ht => ?_,
      fun q hq => h.queued q (hperm.mem_iff.2 (mem_append_right _ hq)),
      fun slot hslot => (hslots slot hslot).2⟩
    · obtain ⟨slot, hslot, feed, rfl, horigin⟩ := mem_tracks_schedule h.synced ht
      refine (hslots slot hslot).1 feed ?_
      rcases horigin with hkept | ⟨rfl, q, hq, heq⟩
      · exact h.tracks _ hkept
      · obtain ⟨hpos, hlt⟩ := h.queued q hq
        rw [heq]
        exact covering_startPrefill hpos hlt
    · rcases mem_append.1 ht with ht | ht
      · exact h.retired t ht
      · exact (h.tracks t (mem_filter.1 ht).1).covered
  | recordOutput rid tokenId =>
    have hwaiting := (Scheduler.waiting_recordOutput d.sched rid tokenId).1
    refine ⟨hsynced, fun t ht => ?_, h.retired, fun q hq => ?_, h.skipped⟩
    · rcases mem_updateFirst ht with hmem | ⟨t', ht', -, rfl⟩
      · exact h.tracks t hmem
      · exact covering_recordToken (h.tracks t' ht') tokenId
    · exact h.queued q (hwaiting ▸ hq)
  | getFinishedRequest =>
    refine ⟨hsynced, fun t ht => h.tracks t (mem_of_mem_eraseP ht), fun t ht => ?_,
      h.queued, h.skipped⟩
    rcases mem_append.1 ht with ht | ht
    · exact h.retired t ht
    · rw [Option.mem_toList] at ht
      exact (h.tracks t (mem_of_find?_eq_some ht)).covered

end Driver

/-- Without hits and lost chunks, the chunks of every request cut its prompt in order. -/
theorem prefillCoverage_of_run {maxBatchSize maxTokensPerStep chunkSize : Nat} {useKvCache : Bool}
    {sched : Scheduler heap} {bm : BlockManager} {d : Driver heap} {events : List DriverEvent}
    (hnew : Scheduler.new heap maxBatchSize maxTokensPerStep chunkSize useKvCache = .ok sched)
    (hrun : Run Driver.Served (.start sched bm) events d) :
    d.tracks.map Track.request = d.sched.running ∧
    (∀ t ∈ d.tracks ++ d.retired, t.PrefillCovered) ∧
    ∀ slot ∈ d.lastSlots, slot.result = .skipped .outOfMemory → slot.after = slot.before := by
  have hstart : (Driver.start sched bm).CoverInv := by
    obtain ⟨-, hrunning, hempty, -⟩ := Scheduler.new_spec hnew
    refine ⟨hrunning.symm, ?_, ?_, ?_, ?_⟩
    · exact nofun
    · exact nofun
    · exact fun q hq => absurd (hempty ▸ hq) not_mem_nil
    · exact nofun
  have hinv : d.CoverInv := by
    refine hrun.invariant hstart fun m e m' hm hstep => ?_
    obtain ⟨⟨hhits, hkeeps⟩, rfl⟩ := hstep
    exact hm.apply hhits hkeeps
  refine ⟨hinv.synced, fun t ht => ?_, hinv.skipped⟩
  rcases mem_append.1 ht with ht | ht
  · exact (hinv.tracks t ht).covered
  · exact hinv.retired t ht

/-! ## A run that fits its pool, and one that does not -/

/-- Three prompt tokens in chunks of two, then a decode step. -/
def servedCalls : List DriverEvent :=
  [.addRequest [1, 2, 3] 0 4 [] none, .schedule [], .schedule [], .recordOutput "req_1" 9,
    .schedule []]

theorem prefillCoverage_of_run_witness :
    ∃ sched bm d, Scheduler.new listHeap 2 8 2 true = .ok sched ∧ BlockManager.new 4 2 = .ok bm ∧
      Run Driver.Served (.start sched bm) servedCalls d ∧
      (∀ t ∈ d.tracks ++ d.retired, t.PrefillCovered) ∧
      d.tracks.map (fun t => t.feed.prefillTokens) = [[1, 2, 3]] := by
  obtain ⟨sched, hsched⟩ : ∃ sched, Scheduler.new listHeap 2 8 2 true = .ok sched := ⟨_, rfl⟩
  obtain ⟨bm, hbm⟩ : ∃ bm, BlockManager.new 4 2 = .ok bm := ⟨_, rfl⟩
  have henabled : Enabled (fun (m : Driver listHeap) e => Driver.NoHits e ∧ m.KeepsChunks e)
      Driver.apply (.start sched bm) servedCalls := by
    cases hsched
    cases hbm
    decide +kernel
  have hrun : Run Driver.Served (.start sched bm) servedCalls _ :=
    Run.of_enabled (fun _ _ h => ⟨h, rfl⟩) henabled
  refine ⟨sched, bm, _, hsched, hbm, hrun, (prefillCoverage_of_run hsched hrun).2.1, ?_⟩
  cases hsched
  cases hbm
  decide +kernel

/-- Two requests for two blocks: the second waits until the first has been reaped. -/
def contendedCalls : List DriverEvent :=
  [.addRequest [1, 2] 0 1 [] none, .addRequest [3, 4, 5, 6] 1 4 [] none, .schedule [],
    .recordOutput "req_1" 9, .schedule []]

/-- The skipped chunk `[3, 4]` is never emitted, and the request goes on to decode. -/
theorem prefillCoverage_fails_on_oom :
    ∃ sched bm d, Scheduler.new listHeap 2 8 2 false = .ok sched ∧ BlockManager.new 2 2 = .ok bm ∧
      Run Driver.Unhinted (.start sched bm) contendedCalls d ∧
      ∃ t ∈ d.tracks, t.request.promptTokens = [3, 4, 5, 6] ∧ t.request.state = .decode ∧
        t.feed.prefillTokens = [5, 6] ∧ t.feed.prefillPositions = [2, 3] ∧ ¬ t.PrefillCovered := by
  obtain ⟨sched, hsched⟩ : ∃ sched, Scheduler.new listHeap 2 8 2 false = .ok sched := ⟨_, rfl⟩
  obtain ⟨bm, hbm⟩ : ∃ bm, BlockManager.new 2 2 = .ok bm := ⟨_, rfl⟩
  have henabled : Enabled (fun (_ : Driver listHeap) e => Driver.NoHits e) Driver.apply
      (.start sched bm) contendedCalls := by
    cases hsched
    cases hbm
    decide +kernel
  have hrun : Run Driver.Unhinted (.start sched bm) contendedCalls _ :=
    Run.of_enabled (fun _ _ h => ⟨h, rfl⟩) henabled
  have htracks : (contendedCalls.foldl Driver.apply (.start sched bm)).tracks.map
      (fun t => ((t.request.promptTokens, t.request.state),
        (t.feed.prefillTokens, t.feed.prefillPositions))) =
      [(([3, 4, 5, 6], .decode), ([5, 6], [2, 3]))] := by
    cases hsched
    cases hbm
    decide +kernel
  obtain ⟨t, htracks, ht⟩ := map_eq_singleton_iff.1 htracks
  simp only [Prod.mk.injEq] at ht
  obtain ⟨⟨hprompt, hstate⟩, htokens, hpositions⟩ := ht
  refine ⟨sched, bm, _, hsched, hbm, hrun, t, ?_, hprompt, hstate, htokens, hpositions, ?_⟩
  · rw [htracks]
    exact mem_cons_self
  · intro hcovered
    have hpre := hcovered.tokens
    rw [hprompt, htokens] at hpre
    exact absurd hpre (by decide)

end CompileForge.Runtime
