/-
  What `add_request_tokens` does with the prefix cache.

  The lookup happens when a request is added, its cursor is set when it is
  admitted, and a hit carries the one to the other.  The tokens to look up are
  those of the *running* request with the new id; a request that was just queued
  is not running, so the prompt starts at position zero whatever the cache holds.
-/

import CompileForge.Runtime.Cache.RadixLongest
import CompileForge.Runtime.Engine.ServedLog

namespace CompileForge.Runtime

open Lib List

theorem matchLoop_fst_of_consumed {blockSize : Nat} {node : RadixTreeNode}
    {remaining : List UInt32} {matchedBlocks : List Nat} {consumed : Nat} (hwf : node.WF)
    (h : (matchLoop blockSize node remaining matchedBlocks consumed).2 = consumed) :
    (matchLoop blockSize node remaining matchedBlocks consumed).1 = matchedBlocks := by
  cases remaining with
  | nil => rw [matchLoop_nil]
  | cons first rest =>
    cases hget : node.children.get first with
    | none => rw [matchLoop_none hget]
    | some child =>
      obtain ⟨tail, hedge⟩ := head?_eq_some_iff.1 (hwf.child hget).1
      have hcommon : commonPrefixLen (first :: rest) child.tokenIds ≠ 0 := by
        rw [hedge]
        exact commonPrefixLen_pos rest rfl
      by_cases hlt : commonPrefixLen (first :: rest) child.tokenIds < child.tokenIds.length
      · rw [matchLoop_within hget hlt] at h
        dsimp only at h
        omega
      · rw [matchLoop_descend hget hlt, matchLoop_snd, hedge, length_cons] at h
        omega

/-! ## The turns of a request -/

/-- What a request was fed in its turns. -/
def fedIn (turns : List Slot) : Feed := turns.flatMap Slot.emitted

/-- The positions of the chunks among the turns of a request. -/
def chunkPositions (turns : List Slot) : List Nat := (fedIn turns).prefillPositions

/-- A turn is refused its blocks only behind a chunk. -/
def GetsBlocks (turns : List Slot) : Prop :=
  ∀ pre slot post, turns = pre ++ slot :: post → slot.result = .skipped .outOfMemory →
    chunkPositions pre ≠ []

variable (prompt : List UInt32)

/-- The first output comes behind a chunk, and from the last position of the prompt. -/
def FirstFromLast (feed : Feed) : Prop :=
  ∀ pre e post, feed = pre ++ e :: post → e.request.state ≠ .prefill →
    (∀ e' ∈ pre, e'.request.state = .prefill) →
      Feed.prefillPositions (pre ++ [e]) ≠ [] ∧
        e.request.positions.getLast? = some (UInt32.ofNat (prompt.length - 1))

/-- What the turns of a request say, once it was scheduled. -/
structure Accounts (turns : List Slot) : Prop where
  first : fedIn turns ≠ [] → ((chunkPositions turns).head? = some 0 ↔ GetsBlocks turns)
  sampled : GetsBlocks turns → FirstFromLast prompt (fedIn turns)

/-- The invariant of a running request: without a chunk its cursor tells of a refused turn. -/
structure Tracked (req : Request) (turns : List Slot) : Prop where
  prompt_eq : req.promptTokens = prompt
  unchunked : chunkPositions turns = [] →
    (GetsBlocks turns ∧ req.prefillPos = 0 ∧ req.state = .prefill) ∨
      (¬ GetsBlocks turns ∧ 0 < req.prefillPos)
  unsampled : (∀ e ∈ fedIn turns, e.request.state = .prefill) → req.outputTokens = []

section Turns

variable {prompt : List UInt32} {turns : List Slot} {slot : Slot} {feed : Feed} {e : Emission}

variable (turns slot)

theorem fedIn_snoc : fedIn (turns ++ [slot]) = fedIn turns ++ slot.emitted := by
  simp [fedIn]

theorem chunkPositions_snoc :
    chunkPositions (turns ++ [slot]) = chunkPositions turns ++ slot.emitted.prefillPositions := by
  simp [chunkPositions, fedIn, Feed.prefillPositions, Feed.prefills]

theorem getsBlocks_snoc : GetsBlocks (turns ++ [slot]) ↔ GetsBlocks turns ∧
    (slot.result = .skipped .outOfMemory → chunkPositions turns ≠ []) := by
  constructor
  · intro h
    refine ⟨fun pre slot' post heq => h pre slot' (post ++ [slot]) ?_, h turns slot [] rfl⟩
    rw [heq, append_assoc, cons_append]
  · rintro ⟨hturns, hlast⟩ pre slot' post heq
    rcases snoc_eq_append_cons heq with ⟨rfl, rfl, -⟩ | ⟨post', -, hpre⟩
    · exact hlast
    · exact hturns pre slot' post' hpre

variable {turns slot}

theorem getsBlocks_scheduled {req after : Request} {sr : ScheduledRequest} :
    GetsBlocks (turns ++ [⟨req, after, .scheduled sr⟩]) ↔ GetsBlocks turns := by
  rw [getsBlocks_snoc]
  exact and_iff_left nofun

theorem FirstFromLast.snoc (h : FirstFromLast prompt feed)
    (he : e.request.state ≠ .prefill → (∀ e' ∈ feed, e'.request.state = .prefill) →
      Feed.prefillPositions (feed ++ [e]) ≠ [] ∧
        e.request.positions.getLast? = some (UInt32.ofNat (prompt.length - 1))) :
    FirstFromLast prompt (feed ++ [e]) := by
  intro pre e' post heq hstate hpre
  rcases snoc_eq_append_cons heq with ⟨rfl, rfl, -⟩ | ⟨post', -, hfeed⟩
  · exact he hstate hpre
  · exact h pre e' post' hfeed hstate hpre

theorem getLast?_u32Range {a b : Nat} (hlt : a < b) (h : b < 2 ^ 32) :
    (u32Range a b).getLast? = some (UInt32.ofNat (b - 1)) := by
  obtain ⟨n, rfl⟩ := Nat.exists_eq_add_of_lt hlt
  rw [u32Range_eq hlt.le h, getLast?_map, show a + n + 1 - a = n + 1 by omega, range'_concat]
  simp

variable {req after : Request} {why : SkipReason}

theorem Accounts.skipped (h : Accounts prompt turns) :
    Accounts prompt (turns ++ [⟨req, after, .skipped why⟩]) := by
  have hfed : fedIn (turns ++ [⟨req, after, .skipped why⟩]) = fedIn turns :=
    (fedIn_snoc ..).trans (append_nil _)
  have hchunks : chunkPositions (turns ++ [⟨req, after, .skipped why⟩]) = chunkPositions turns :=
    (chunkPositions_snoc ..).trans (append_nil _)
  refine ⟨fun hne => ?_, fun hgets => ?_⟩
  · rw [hfed] at hne
    rw [hchunks, getsBlocks_snoc]
    refine ⟨fun hhead => ⟨(h.first hne).1 hhead, fun _ hnil => ?_⟩,
      fun hgets => (h.first hne).2 hgets.1⟩
    rw [hnil] at hhead
    cases hhead
  · rw [hfed]
    exact h.sampled ((getsBlocks_snoc ..).1 hgets).1

/-- A skipped turn leaves a fresh cursor alone, or it was refused its blocks. -/
theorem Tracked.skipped (h : Tracked prompt req turns)
    (hprompt : after.promptTokens = req.promptTokens)
    (houtputs : after.outputTokens = req.outputTokens) (hcursor : req.prefillPos ≤ after.prefillPos)
    (hfresh : req.prefillPos = 0 → req.state = .prefill →
      (why = .outOfMemory ∧ 0 < after.prefillPos) ∨
        (why ≠ .outOfMemory ∧ after.prefillPos = 0 ∧ after.state = .prefill)) :
    Tracked prompt after (turns ++ [⟨req, after, .skipped why⟩]) := by
  refine ⟨hprompt.trans h.prompt_eq, fun hnil => ?_, fun hall => ?_⟩
  · have hbefore : chunkPositions turns = [] := by
      rw [chunkPositions_snoc] at hnil
      exact (append_eq_nil_iff.1 hnil).1
    rw [getsBlocks_snoc]
    rcases h.unchunked hbefore with ⟨hgets, hzero, hstate⟩ | ⟨hrefused, hpos⟩
    · rcases hfresh hzero hstate with ⟨rfl, hpos⟩ | ⟨hwhy, hkept⟩
      · exact .inr ⟨fun hboth => hboth.2 rfl hbefore, hpos⟩
      · exact .inl ⟨⟨hgets, fun heq => absurd (SlotResult.skipped.inj heq) hwhy⟩, hkept⟩
    · exact .inr ⟨fun hboth => hrefused hboth.1, hpos.trans_le hcursor⟩
  · rw [fedIn_snoc] at hall
    exact houtputs.trans (h.unsampled fun e he => hall e (mem_append_left _ he))

/-- A decode step: the first output, if it is one, comes from the end of the prompt. -/
theorem Tracked.decoded (h : Tracked prompt req turns) (ha : Accounts prompt turns)
    (hstate : req.state = .decode) {sr : ScheduledRequest} (hsr : sr.state ≠ .prefill)
    (hlast : req.outputTokens = [] →
      sr.positions.getLast? = some (UInt32.ofNat (prompt.length - 1))) :
    Tracked prompt req (turns ++ [⟨req, req, .scheduled sr⟩]) ∧
      Accounts prompt (turns ++ [⟨req, req, .scheduled sr⟩]) := by
  have hemitted : Slot.emitted ⟨req, req, .scheduled sr⟩ = [⟨.decode, sr⟩] := by
    simp [Slot.emitted, Slot.scheduled?, hstate]
  have hchunks : chunkPositions (turns ++ [⟨req, req, .scheduled sr⟩]) = chunkPositions turns := by
    rw [chunkPositions_snoc, hemitted]
    exact append_nil _
  -- without a chunk a decoding request was refused its blocks
  have hrefused : chunkPositions turns = [] → ¬ GetsBlocks turns := by
    intro hnil
    rcases h.unchunked hnil with ⟨-, -, hprefill⟩ | ⟨hno, -⟩
    · exact absurd (hstate.symm.trans hprefill) (by decide)
    · exact hno
  refine ⟨⟨h.prompt_eq, ?_, fun hall => ?_⟩, fun _ => ?_, fun hblocks => ?_⟩
  · rw [hchunks, getsBlocks_scheduled]
    exact h.unchunked
  · rw [fedIn_snoc, hemitted] at hall
    exact absurd (hall _ (mem_append_right _ (mem_singleton.2 rfl))) hsr
  · rw [hchunks, getsBlocks_scheduled]
    by_cases hfed : fedIn turns = []
    · have hnil : chunkPositions turns = [] := by rw [chunkPositions, hfed]; rfl
      rw [hnil]
      exact iff_of_false (by simp) (hrefused hnil)
    · exact ha.first hfed
  · rw [getsBlocks_scheduled] at hblocks
    rw [fedIn_snoc, hemitted]
    refine (ha.sampled hblocks).snoc fun _ hall => ⟨fun hnil => ?_, hlast (h.unsampled hall)⟩
    have hpositions : chunkPositions (turns ++ [⟨req, req, .scheduled sr⟩]) = [] := by
      rw [chunkPositions, fedIn_snoc, hemitted]
      exact hnil
    exact hrefused (hchunks ▸ hpositions) hblocks

variable {cfg : SchedulerConfig} {budget : Budget} {bm : BlockManager} {turn : Turn}

/-- A chunk: the first one starts at a fresh cursor, and one that is sampled ends the prompt. -/
theorem Tracked.chunk (h : Tracked prompt req turns) (ha : Accounts prompt turns)
    (hlt : prompt.length < 2 ^ 32) (hstate : req.state = .prefill) (hrest : req.tokensRemaining ≠ 0)
    (hbudget : budget.totalPrefillTokens < cfg.maxTokensPerStep) (blocks : List Nat) :
    let after := (req.advance (chunkLen cfg budget req)).settlePrefill
    let slot : Slot := ⟨req, after, .scheduled
      (prefillRequest req after (chunkLen cfg budget req) blocks)⟩
    Tracked prompt after (turns ++ [slot]) ∧ Accounts prompt (turns ++ [slot]) := by
  intro after slot
  have hchunk := chunkLen_pos hrest hbudget
  have hmore := tokensRemaining_ne_zero_iff.1 hrest
  have hend := chunkLen_le cfg budget req
  rw [h.prompt_eq] at hmore hend
  have hemitted : slot.emitted =
      [⟨.prefill, prefillRequest req after (chunkLen cfg budget req) blocks⟩] := by
    simp [slot, Slot.emitted, Slot.scheduled?, hstate]
  have hpositions : Feed.prefillPositions slot.emitted =
      req.prefillPos :: range' (req.prefillPos + 1) (chunkLen cfg budget req - 1) := by
    rw [hemitted, ← nil_append [_], Feed.prefillPositions_snoc rfl, prefillRequest,
      toNat_u32Range (Nat.le_add_right ..) (by omega), Nat.add_sub_cancel_left, ← range'_succ,
      Nat.sub_add_cancel hchunk]
    rfl
  have hne : chunkPositions (turns ++ [slot]) ≠ [] := by
    rw [chunkPositions_snoc, hpositions]
    simp
  refine ⟨⟨?_, fun hnil => absurd hnil hne, fun hall => ?_⟩, fun _ => ?_, fun hblocks => ?_⟩
  · rw [promptTokens_settlePrefill]
    exact h.prompt_eq
  · rw [fedIn_snoc] at hall
    rw [outputTokens_settlePrefill]
    exact h.unsampled fun e he => hall e (mem_append_left _ he)
  · rw [getsBlocks_scheduled, chunkPositions_snoc, hpositions]
    by_cases hnil : chunkPositions turns = []
    · rw [hnil, nil_append, head?_cons, Option.some.injEq]
      rcases h.unchunked hnil with ⟨hblocks, hzero, -⟩ | ⟨hrefused, hpos⟩
      · exact iff_of_true hzero hblocks
      · exact iff_of_false hpos.ne' hrefused
    · rw [head?_append_of_ne_nil _ hnil]
      refine ha.first fun hfed => hnil ?_
      rw [chunkPositions, hfed]
      rfl
  · rw [getsBlocks_scheduled] at hblocks
    rw [fedIn_snoc, hemitted]
    refine (ha.sampled hblocks).snoc fun hsampled _ => ⟨?_, ?_⟩
    · rw [chunkPositions, fedIn_snoc, hemitted] at hne
      exact hne
    · -- the chunk was settled, so it reaches the end of the prompt
      have hsettled : prompt.length ≤ req.prefillPos + chunkLen cfg budget req := by
        by_contra hshort
        refine hsampled ?_
        show after.state = .prefill
        rw [state_settlePrefill, if_neg]
        · exact hstate
        · show ¬ req.promptTokens.length ≤ req.prefillPos + chunkLen cfg budget req
          rwa [h.prompt_eq]
      have hall : req.prefillPos + chunkLen cfg budget req = prompt.length := by omega
      show (u32Range req.prefillPos (req.prefillPos + chunkLen cfg budget req)).getLast? = _
      rw [hall]
      exact getLast?_u32Range hmore hlt

/-- One turn of a request that is in `Prefill` or `Decode`. -/
theorem Tracked.turned (h : Tracked prompt req turns) (ha : Accounts prompt turns)
    (hprompt : prompt ≠ []) (hlt : prompt.length < 2 ^ 32)
    (hlive : req.state = .prefill ∨ req.state = .decode) (hturn : Turned cfg budget req bm turn) :
    Tracked prompt turn.slot.after (turns ++ [turn.slot]) ∧
      Accounts prompt (turns ++ [turn.slot]) := by
  have hpos : 0 < prompt.length := length_pos_iff.2 hprompt
  have hquiet : ∀ why : SkipReason, why ≠ .outOfMemory →
      Tracked prompt req (turns ++ [⟨req, req, .skipped why⟩]) ∧
        Accounts prompt (turns ++ [⟨req, req, .skipped why⟩]) := fun why hwhy =>
    ⟨h.skipped rfl rfl le_rfl fun hzero hstate => .inr ⟨hwhy, hzero, hstate⟩, ha.skipped⟩
  cases hturn with
  | idle hprefill hdecode => exact absurd hlive (not_or.2 ⟨hprefill, hdecode⟩)
  | exhausted hstate hrest =>
    refine ⟨h.skipped rfl rfl le_rfl fun hzero _ => ?_, ha.skipped⟩
    unfold Request.tokensRemaining at hrest
    rw [h.prompt_eq] at hrest
    omega
  | noPrefillBudget => exact hquiet _ (by decide)
  | promptUnreserved hstate hrest hbudget hoom =>
    refine ⟨h.skipped rfl rfl (Nat.le_add_right ..) fun _ _ => .inl ⟨rfl, ?_⟩, ha.skipped⟩
    exact Nat.add_pos_right _ (chunkLen_pos hrest hbudget)
  | chunk hstate hrest hbudget => exact h.chunk ha hlt hstate hrest hbudget _
  | noDecodeBudget => exact hquiet _ (by decide)
  | tableUngrown hstate =>
    refine ⟨h.skipped rfl rfl le_rfl fun _ hprefill => ?_, ha.skipped⟩
    exact absurd (hstate.symm.trans hprefill) (by decide)
  | noTable => exact hquiet _ (by decide)
  | decodeCached hstate =>
    refine h.decoded ha hstate (show req.state ≠ .prefill by simp [hstate]) fun houtputs => ?_
    show [UInt32.ofNat (req.promptTokens.length + req.outputTokens.length - 1)].getLast? = _
    rw [h.prompt_eq, houtputs]
    rfl
  | decodeFull hstate =>
    refine h.decoded ha hstate (show req.state ≠ .prefill by simp [hstate]) fun houtputs => ?_
    show (u32Range 0 (req.promptTokens ++ req.outputTokens).length).getLast? = _
    rw [h.prompt_eq, houtputs, append_nil]
    exact getLast?_u32Range hpos hlt

/-- A token is recorded behind an emission that is sampled. -/
theorem Tracked.recordToken (h : Tracked prompt req turns) (ha : Accounts prompt turns)
    (he : e ∈ fedIn turns) (hstate : e.request.state ≠ .prefill) (tokenId : UInt32) :
    Tracked prompt (Scheduler.recordToken req tokenId).1 turns := by
  obtain ⟨hprompt, hcursor, -⟩ := Driver.recordToken_frame req tokenId
  refine ⟨hprompt.trans h.prompt_eq, fun hnil => ?_, fun hall => absurd (hall e he) hstate⟩
  rcases h.unchunked hnil with ⟨hgets, -⟩ | ⟨hrefused, hpos⟩
  · have hhead := (ha.first (ne_nil_of_mem he)).2 hgets
    rw [hnil] at hhead
    cases hhead
  · exact .inr ⟨hrefused, hcursor ▸ hpos⟩

end Turns

variable {heap : MaxHeap QueueEntry QueueEntry.rank} {ω : Type}

namespace InferenceRunner

variable {r r' r₀ r₁ r₂ : InferenceRunner heap ω} {backend : Backend ω} {config : RunnerConfig}
  {sampling sampling' : SamplerConfig} {rid : String} {prompt : List UInt32}

/-! ## Reuse of a prefix -/

/-- The turn of `rid` in the batch loop of a call. -/
def turnOf (rid : String) (r : InferenceRunner heap ω) : RunnerCall → List Slot
  | .add .. => []
  | .step _ => (r.built.1.find? fun slot => slot.before.requestId = rid).toList

/-- A call, with the turns of `rid` so far next to the runner. -/
def follow (backend : Backend ω) (rid : String) (s : InferenceRunner heap ω × List Slot)
    (c : RunnerCall) : Option (InferenceRunner heap ω × List Slot) :=
  (s.1.call backend c).map fun r => (r, s.2 ++ s.1.turnOf rid c)

/-- A request is followed through its turns.  A `Prefill` turn that is refused its blocks has moved
    the cursor: the first chunk then starts behind it. -/
def Followed (backend : Backend ω) (rid : String) (s : InferenceRunner heap ω × List Slot)
    (c : RunnerCall) (s' : InferenceRunner heap ω × List Slot) : Prop :=
  follow backend rid s c = some s'

/-- The next step of `r` admits `rid` with the blocks and the tokens of `hit` reused, and in its
    `turns` the prompt is fed from there on. -/
structure PrefixReused (r : InferenceRunner heap ω) (rid : String) (prompt : List UInt32)
    (hit : List Nat × Nat) (turns : List Slot) : Prop where
  starts : hit.1 <+: (r.scheduler.admitRequests r.blockManager r.cacheHits).2.table rid
  once : ∀ b ∈ hit.1,
    ((r.scheduler.admitRequests r.blockManager r.cacheHits).2.table rid).count b = 1
  /-- One reference of the request, next to those of the other tables and the cache. -/
  counted : ∀ b ∈ hit.1, (r.scheduler.admitRequests r.blockManager r.cacheHits).2.refCount b =
      ((r.scheduler.admitRequests r.blockManager r.cacheHits).2.removeTable rid).tableRefs b +
        r.held b + 1
  cursor : ∃ req ∈ (r.scheduler.admitRequests r.blockManager r.cacheHits).1.running,
    req.requestId = rid ∧ req.state = .prefill ∧ req.prefillPos = hit.2
  /-- The first position of a chunk is the one behind the hit. -/
  first : (chunkPositions turns).head? = some hit.2
  sampled : FirstFromLast prompt (fedIn turns)

theorem Inv.admitted_cursor (h : r.Inv) {req : Request} (hreq : req ∈ r.admitted.1.running)
    (hid : req.requestId = rid) (hwaiting : rid ∈ r.waitingRequests.map Request.requestId) :
    req.state = .prefill ∧ req.prefillPos = 0 := by
  obtain ⟨entries, hperm, hrunning, -, -⟩ := h.admitted_spec
  rw [hrunning] at hreq
  rcases mem_append.1 hreq with hold | hnew
  · obtain ⟨q, hq, rfl⟩ := mem_map.1 hwaiting
    exact absurd hid (h.ne_waiting (mem_map_of_mem hold) hq)
  · obtain ⟨entry, hentry, rfl⟩ := mem_map.1 hnew
    have hqueued := h.queued entry.request
      (mem_map_of_mem (hperm.mem_iff.2 (mem_append_left _ hentry)))
    exact ⟨rfl, hqueued.2⟩

/-- The invariant of a runner next to the turns of `rid`. -/
structure Traced (rid : String) (prompt : List UInt32)
    (s : InferenceRunner heap ω × List Slot) : Prop where
  inv : s.1.Inv
  named : ∃ k ≤ s.1.scheduler.requestCounter, rid = s!"req_{k}"
  running : ∀ req ∈ s.1.scheduler.running, req.requestId = rid → Tracked prompt req s.2
  waiting : ∀ req ∈ s.1.waitingRequests, req.requestId = rid →
    req.promptTokens = prompt ∧ req.outputTokens = [] ∧ s.2 = []
  accounts : Accounts prompt s.2

variable {s s' : InferenceRunner heap ω × List Slot}

theorem turnOf_eq (h : r.Inv) {slot : Slot} (hslot : slot ∈ r.built.1)
    (hid : slot.before.requestId = rid) : r.turnOf rid (.step sampling) = [slot] := by
  have hnodup := h.scheduleStep.1.runningIds_nodup
  rw [h.runningIds_scheduled] at hnodup
  unfold turnOf
  cases hfind : r.built.1.find? fun slot => slot.before.requestId = rid with
  | none => exact absurd (decide_eq_true hid) (find?_eq_none.1 hfind slot hslot)
  | some other =>
    have hother : other.before.requestId = rid := by simpa using find?_some hfind
    rw [inj_on_of_nodup_map hnodup (mem_of_find?_eq_some hfind) hslot (hother.trans hid.symm)]
    rfl

/-- Scheduling: the request is admitted if it was waiting, and its turn goes into the journal. -/
theorem Traced.scheduleStep (h : Traced rid prompt s) (hprompt : prompt ≠ [])
    (hlt : prompt.length < 2 ^ 32) (sampling : SamplerConfig) :
    Traced rid prompt (s.1.scheduleStep.2, s.2 ++ s.1.turnOf rid (.step sampling)) := by
  obtain ⟨entries, hperm, hrunning, -⟩ := h.inv.admitted_spec
  obtain ⟨hbefore, -, hbuilt⟩ := h.inv.built_spec
  have hadmitted : ∀ req ∈ s.1.admitted.1.running, req.requestId = rid →
      Tracked prompt req s.2 ∧ (req.state = .prefill ∨ req.state = .decode) := by
    intro req hreq hid
    rw [hrunning] at hreq
    rcases mem_append.1 hreq with hold | hnew
    · exact ⟨h.running req hold hid, h.inv.active req hold⟩
    · obtain ⟨q, hq, rfl⟩ := mem_map.1 hnew
      have hmem : q.request ∈ s.1.waitingRequests :=
        mem_map_of_mem (hperm.mem_iff.2 (mem_append_left _ hq))
      obtain ⟨hsame, houtputs, hturns⟩ := h.waiting _ hmem hid
      rw [hturns]
      exact ⟨⟨hsame, fun _ => .inl ⟨fun pre _ _ heq => absurd heq (by simp),
        (h.inv.queued _ hmem).2, rfl⟩, fun _ => houtputs⟩, .inl rfl⟩
  have hslots : ∀ slot ∈ s.1.built.1, slot.before.requestId = rid →
      Tracked prompt slot.after (s.2 ++ [slot]) ∧ Accounts prompt (s.2 ++ [slot]) := by
    intro slot hslot hid
    obtain ⟨budget, bm, turn, hturn, rfl⟩ := turned_of_mem_buildSlots _ _ _ _ slot hslot
    obtain ⟨htracked, hlive⟩ := hadmitted _ (hbuilt _ hslot).1 hid
    exact htracked.turned h.accounts hprompt hlt hlive hturn
  refine ⟨h.inv.scheduleStep.1, h.inv.requestCounter_scheduleStep ▸ h.named, fun req hreq hid => ?_,
    fun req hreq hid => ?_, ?_⟩
  · rw [h.inv.scheduleStep_eq] at hreq
    obtain ⟨slot, hslot, rfl⟩ := mem_map.1 hreq
    have hname := (hbuilt slot hslot).2.1.symm.trans hid
    rw [turnOf_eq h.inv hslot hname]
    exact (hslots slot hslot hname).1
  · -- a request that still waits has no turn
    have hquiet : s.1.turnOf rid (.step sampling) = [] := by
      refine Option.toList_eq_nil_iff.2 (find?_eq_none.2 fun slot hslot hname => ?_)
      refine h.inv.scheduleStep.1.ne_waiting ?_ hreq hid.symm
      rw [h.inv.runningIds_scheduled, ← of_decide_eq_true hname]
      exact mem_map_of_mem hslot
    rw [h.inv.scheduleStep_eq] at hreq
    obtain ⟨q, hq, rfl⟩ := mem_map.1 hreq
    obtain ⟨hsame, houtputs, hturns⟩ := h.waiting q.request
      (mem_map_of_mem (hperm.mem_iff.2 (mem_append_right _ hq))) hid
    exact ⟨hsame, houtputs, by rw [hturns, hquiet]; rfl⟩
  · cases hfind : s.1.built.1.find? fun slot => slot.before.requestId = rid with
    | none =>
      rw [turnOf, hfind]
      simpa using h.accounts
    | some slot =>
      have hname : slot.before.requestId = rid := by simpa using find?_some hfind
      rw [turnOf, hfind]
      exact (hslots slot (mem_of_find?_eq_some hfind) hname).2

theorem Traced.called {c : RunnerCall} (h : Traced rid prompt s) (hprompt : prompt ≠ [])
    (hlt : prompt.length < 2 ^ 32) (hstep : Followed backend rid s c s') :
    Traced rid prompt s' := by
  obtain ⟨r', hcall, rfl⟩ := Option.map_eq_some_iff.1 hstep
  cases c with
  | add inputIds =>
    obtain rfl : _ = r' := Option.some.inj hcall
    rw [turnOf, append_nil]
    by_cases hne : inputIds = []
    · -- an empty prompt is refused
      subst hne
      exact ⟨h.inv, h.named, h.running, h.waiting, h.accounts⟩
    · obtain ⟨hrunning, hcounter, hwaiting⟩ := h.inv.added_spec backend hne rfl
      obtain ⟨k, hk, hname⟩ := h.named
      refine ⟨(h.inv.addRequestTokens _ _).1, ⟨k, ?_, hname⟩, fun req hreq => ?_,
        fun req hreq hid => ?_, h.accounts⟩
      · rw [hcounter]
        exact Nat.le_succ_of_le hk
      · exact h.running req (hrunning ▸ hreq)
      · rcases hwaiting req hreq with hold | ⟨hfresh, -⟩
        · exact h.waiting req hold hid
        · exact absurd (hname.symm.trans (hid.symm.trans hfresh)) (fresh_name_ne hk)
  | step sampling =>
    obtain ⟨⟨result, r''⟩, hout, rfl⟩ := Option.map_eq_some_iff.1 hcall
    have hscheduled := h.scheduleStep hprompt hlt sampling
    obtain ⟨hids, hnodup⟩ := h.inv.scheduleStep_running
    generalize hturns : s.2 ++ s.1.turnOf rid (.step sampling) = turns at hscheduled ⊢
    -- a request of the batch was fed in its turn
    have hfed : ∀ sr ∈ s.1.scheduleStep.1.requests, sr.requestId = rid →
        ∃ e ∈ fedIn turns, e.request = sr := by
      intro sr hsr hid
      rw [h.inv.requests_eq] at hsr
      obtain ⟨e, he, rfl⟩ := mem_map.1 hsr
      obtain ⟨slot, hslot, hemitted⟩ := mem_flatMap.1 he
      obtain ⟨sr, hscheduled, rfl⟩ := Option.map_eq_some_iff.1 (Option.mem_toList.1 hemitted)
      have hname := ((h.inv.built_spec.2.2 slot hslot).2.2.2.2 sr hscheduled).1.symm.trans hid
      refine ⟨_, ?_, rfl⟩
      rw [← hturns, turnOf_eq h.inv hslot hname, fedIn_snoc]
      exact mem_append_right _ hemitted
    obtain ⟨hwaiting, hcounter, hkept⟩ :
        r''.scheduler.waiting = s.1.scheduleStep.2.scheduler.waiting ∧
        r''.scheduler.requestCounter = s.1.scheduleStep.2.scheduler.requestCounter ∧
        ∀ req ∈ r''.scheduler.running, req.requestId = rid → Tracked prompt req turns := by
      refine hscheduled.inv.processBatch_rule
        (I := fun m => m.scheduler.waiting = s.1.scheduleStep.2.scheduler.waiting ∧
          m.scheduler.requestCounter = s.1.scheduleStep.2.scheduler.requestCounter ∧
          ∀ req ∈ m.scheduler.running, req.requestId = rid → Tracked prompt req turns)
        (fun sr hsr m result m' hm hrid hI hreq => ?_) hids hnodup
        ⟨rfl, rfl, hscheduled.running⟩ hout
      obtain ⟨hkept, -⟩ := hm.processRequest_kept hrid hreq
      refine ⟨hkept.waiting.trans hI.1, hkept.counter.trans hI.2.1, fun req hmem hid => ?_⟩
      rcases hm.processRequest_running hrid hreq with ⟨-, hrunning⟩ | ⟨res, -, -, hstate, hreqs⟩
      · exact hI.2.2 req (hrunning ▸ hmem) hid
      · rcases hreqs req hmem with ⟨hold, -⟩ | ⟨old, hold, hname, rfl⟩
        · exact hI.2.2 req hold hid
        · rw [Scheduler.requestId_recordToken] at hid
          obtain ⟨e, he, rfl⟩ := hfed sr hsr (hname.symm.trans hid)
          exact (hI.2.2 old hold hid).recordToken hscheduled.accounts he hstate res.tokenId
    refine ⟨(h.inv.called hcall).1, hcounter ▸ hscheduled.named, hkept, fun req hreq => ?_,
      hscheduled.accounts⟩
    unfold waitingRequests at hreq
    rw [hwaiting] at hreq
    exact hscheduled.waiting req hreq

end InferenceRunner

/-! ## A second prompt -/

/-- A first request leaves `[5, 0]` in the cache; a second is added and served by one step. -/
def servedSecond (r₀ : InferenceRunner listHeap Unit) (prompt : List UInt32) :
    Option (InferenceRunner listHeap Unit × InferenceRunner listHeap Unit ×
      InferenceRunner listHeap Unit × List Slot) := do
  let r ← [.add [5] .default, .step .default].foldlM (InferenceRunner.call constantBackend) r₀
  let added := r.addRequestTokens constantBackend prompt .default
  if added.1.toOption = some "req_2" then
    let served ← InferenceRunner.follow constantBackend "req_2" (added.2, []) (.step .default)
    some (r, added.2, served)
  else none

theorem of_servedSecond {r₀ r r₁ r' : InferenceRunner listHeap Unit} {prompt : List UInt32}
    {turns : List Slot} (h : servedSecond r₀ prompt = some (r, r₁, r', turns)) :
    Run (InferenceRunner.Called constantBackend) r₀ [.add [5] .default, .step .default] r ∧
      r.addRequestTokens constantBackend prompt .default = (.ok "req_2", r₁) ∧
      Run (InferenceRunner.Followed constantBackend "req_2") (r₁, []) [.step .default]
        (r', turns) := by
  obtain ⟨m, hfold, h⟩ := Option.bind_eq_some_iff.1 h
  obtain ⟨hrid, h⟩ := Option.ite_none_right_eq_some.1 h
  obtain ⟨served, hserved, h⟩ := Option.bind_eq_some_iff.1 h
  cases h
  refine ⟨Run.of_foldlM (fun _ _ _ h => h) hfold, Prod.ext ?_ rfl, .snoc .nil hserved⟩
  cases hadd : (r.addRequestTokens constantBackend prompt .default).1 with
  | error => rw [hadd] at hrid; cases hrid
  | ok => rw [hadd] at hrid; cases hrid; rfl

end CompileForge.Runtime
