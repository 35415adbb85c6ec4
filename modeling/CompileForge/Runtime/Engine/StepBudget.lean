/-
  The tokens of a batch against `max_tokens_per_step`.

  The `Decode` arm of `build_batch` checks both counters, the `Prefill` arm only its own:
  a chunk may use up what a decode step before it has already taken.
-/

import CompileForge.Runtime.Engine.SchedulerTurn

namespace CompileForge.Runtime

open Lib List

variable (cfg : SchedulerConfig)

/-- The tokens a request would be given in the `Prefill` arm with an unlimited budget. -/
def wantedTokens (req : Request) : Nat :=
  if req.state = .prefill then min req.tokensRemaining cfg.chunkSize else 0

variable (running : List Request)

/-- The chunks depend on each other alone: what the prefilling requests want. -/
def totalWanted : Nat :=
  (running.map (wantedTokens cfg)).sum

def numDecoding : Nat := running.countP fun req => req.state = .decode

/-- Every decoding request has no chunk behind it, or fits together with all of them. -/
def DecodesClear : Prop :=
  ∀ before req after, running = before ++ req :: after → req.state = .decode →
    totalWanted cfg after = 0 ∨
      totalWanted cfg running + numDecoding before + 1 ≤ cfg.maxTokensPerStep

/-- A decode step that fits behind what came before it fits together with all chunks. -/
def DecodesFit : Prop :=
  ∀ before req after, running = before ++ req :: after → req.state = .decode →
    totalWanted cfg before + numDecoding before + 1 ≤ cfg.maxTokensPerStep →
    totalWanted cfg running + numDecoding before + 1 ≤ cfg.maxTokensPerStep

def Request.Covered (bm : BlockManager) (req : Request) : Prop :=
  match req.state with
  | .prefill => req.tokensRemaining = 0 ∨
    ∃ table, bm.blockTables.lookup req.requestId = some table ∧
      req.promptTokens.length ≤ table.length * bm.blockSize
  | .decode => ∃ table, bm.blockTables.lookup req.requestId = some table ∧ (cfg.useKvCache = true →
        req.promptTokens.length + req.outputTokens.length + 1 ≤ table.length * bm.blockSize)
  | _ => True

/-! ## The tokens of a turn -/

def Slot.tokens (slot : Slot) : Nat := (slot.scheduled?.map ScheduledRequest.nTokens).getD 0

theorem batchOf_totalTokens (slots : List Slot) :
    (batchOf slots).totalTokens = (slots.map Slot.tokens).sum := by
  show ((slots.filterMap Slot.scheduled?).map ScheduledRequest.nTokens).sum = _
  induction slots with
  | nil => rfl
  | cons slot slots ih =>
    rw [map_cons, sum_cons, ← ih, Slot.tokens]
    cases hs : slot.scheduled? with
    | none => rw [filterMap_cons_none hs, Option.map_none, Option.getD_none, zero_add]
    | some =>
      rw [filterMap_cons_some hs, map_cons, sum_cons, Option.map_some, Option.getD_some]

section Turn

variable {cfg : SchedulerConfig} {budget : Budget} {req : Request} {bm : BlockManager}
  {turn : Turn}

theorem Turned.tokens_cases (h : Turned cfg budget req bm turn) :
    (req.state ≠ .decode ∧ ∃ n, n ≤ wantedTokens cfg req ∧
        (n = 0 ∨ budget.totalPrefillTokens + n ≤ cfg.maxTokensPerStep) ∧
        turn.budget = ⟨budget.totalPrefillTokens + n, budget.numDecode⟩ ∧ turn.slot.tokens = n) ∨
      (req.state = .decode ∧ turn.budget = budget ∧ turn.slot.tokens = 0) ∨
      (req.state = .decode ∧
        budget.totalPrefillTokens + budget.numDecode + 1 ≤ cfg.maxTokensPerStep ∧
        turn.budget = ⟨budget.totalPrefillTokens, budget.numDecode + 1⟩ ∧
        turn.slot.tokens ≤ 1) := by
  have hprefilling : req.state = .prefill → req.state ≠ .decode := by
    intro hstate
    rw [hstate]
    decide
  cases h with
  | idle hprefill hdecode => exact .inl ⟨hdecode, 0, Nat.zero_le _, .inl rfl, rfl, rfl⟩
  | exhausted hstate hrest =>
    exact .inl ⟨hprefilling hstate, 0, Nat.zero_le _, .inl rfl, rfl, rfl⟩
  | noPrefillBudget hstate hrest hbudget =>
    exact .inl ⟨hprefilling hstate, 0, Nat.zero_le _, .inl rfl, rfl, rfl⟩
  | promptUnreserved hstate hrest hbudget hoom =>
    exact .inl ⟨hprefilling hstate, 0, Nat.zero_le _, .inl rfl, rfl, rfl⟩
  | chunk hstate hrest hbudget hreserve hgrows hcovers =>
    refine .inl ⟨hprefilling hstate, chunkLen cfg budget req, ?_, .inr ?_, rfl, rfl⟩
    · rw [wantedTokens, if_pos hstate, chunkLen]
      omega
    · rw [chunkLen]
      omega
  | noDecodeBudget hstate hbudget => exact .inr (.inl ⟨hstate, rfl, rfl⟩)
  | tableUngrown hstate hbudget hkv hoom =>
    exact .inr (.inr ⟨hstate, hbudget, rfl, Nat.zero_le 1⟩)
  | noTable hstate hbudget hkv hlookup =>
    exact .inr (.inr ⟨hstate, hbudget, rfl, Nat.zero_le 1⟩)
  | decodeCached hstate hbudget hkv hreserve hgrows hcovers =>
    exact .inr (.inr ⟨hstate, hbudget, rfl, Nat.le_refl 1⟩)
  | decodeFull hstate hbudget hkv htable =>
    exact .inr (.inr ⟨hstate, hbudget, rfl, Nat.le_refl 1⟩)

/-- With its table at hand a request gets all that the budget leaves it, and the pool stays. -/
theorem Request.Covered.turned (hc : req.Covered cfg bm) (h : Turned cfg budget req bm turn) :
    turn.bm = bm ∧ (req.state ≠ .decode ∧
          turn.budget = ⟨budget.totalPrefillTokens + turn.slot.tokens, budget.numDecode⟩ ∧
          turn.slot.tokens = min (wantedTokens cfg req)
            (cfg.maxTokensPerStep - budget.totalPrefillTokens) ∨
        req.state = .decode ∧
          turn.budget = ⟨budget.totalPrefillTokens, budget.numDecode + turn.slot.tokens⟩ ∧
          turn.slot.tokens =
            if budget.totalPrefillTokens + budget.numDecode + 1 ≤ cfg.maxTokensPerStep then 1
            else 0) := by
  have hprefilling : req.state = .prefill → req.state ≠ .decode := by
    intro hstate
    rw [hstate]
    decide
  -- a table that covers the tokens is left alone
  have hensure : ∀ {table : List Nat} {n : Nat}, bm.blockTables.lookup req.requestId = some table →
      n ≤ table.length * bm.blockSize → bm.ensureBlocks req.requestId n = (.ok (), bm) := by
    intro table n hlookup hle
    simp only [BlockManager.ensureBlocks, hlookup, Option.getD_some, if_pos hle]
  have hreserved : req.state = .prefill → req.tokensRemaining ≠ 0 →
      reservePrompt bm req.requestId req.promptTokens.length = (.ok (), bm) := by
    intro hstate hrest
    simp only [Request.Covered, hstate] at hc
    obtain ⟨table, hlookup, hle⟩ := hc.resolve_left hrest
    have hmem : req.requestId ∈ bm.blockTables := AList.lookup_isSome.1 (by rw [hlookup]; rfl)
    rw [reservePrompt, if_pos hmem]
    exact hensure hlookup hle
  have hgrown : req.state = .decode → cfg.useKvCache = true →
      bm.ensureBlocks req.requestId (req.promptTokens.length + req.outputTokens.length + 1) =
        (.ok (), bm) := by
    intro hstate hkv
    simp only [Request.Covered, hstate] at hc
    obtain ⟨table, hlookup, hle⟩ := hc
    exact hensure hlookup (hle hkv)
  cases h with
  | idle hprefill hdecode =>
    refine ⟨rfl, .inl ⟨hdecode, rfl, ?_⟩⟩
    rw [wantedTokens, if_neg hprefill, Nat.zero_min]
    rfl
  | exhausted hstate hrest =>
    refine ⟨rfl, .inl ⟨hprefilling hstate, rfl, ?_⟩⟩
    rw [wantedTokens, if_pos hstate, hrest, Nat.zero_min, Nat.zero_min]
    rfl
  | noPrefillBudget hstate hrest hbudget =>
    refine ⟨rfl, .inl ⟨hprefilling hstate, rfl, ?_⟩⟩
    rw [Nat.sub_eq_zero_of_le hbudget, Nat.min_zero]
    rfl
  | promptUnreserved hstate hrest hbudget hoom =>
    rw [hreserved hstate hrest] at hoom
    cases hoom
  | chunk hstate hrest hbudget hreserve hgrows hcovers =>
    rw [hreserved hstate hrest] at hreserve
    cases hreserve
    refine ⟨rfl, .inl ⟨hprefilling hstate, rfl, ?_⟩⟩
    rw [wantedTokens, if_pos hstate]
    rfl
  | noDecodeBudget hstate hbudget =>
    refine ⟨rfl, .inr ⟨hstate, rfl, ?_⟩⟩
    rw [if_neg (not_le.2 hbudget)]
    rfl
  | tableUngrown hstate hbudget hkv hoom =>
    rw [hgrown hstate hkv] at hoom
    cases hoom
  | noTable hstate hbudget hkv hlookup =>
    simp only [Request.Covered, hstate] at hc
    obtain ⟨table, htable, _⟩ := hc
    rw [hlookup] at htable
    cases htable
  | decodeCached hstate hbudget hkv hreserve hgrows hcovers =>
    rw [hgrown hstate hkv] at hreserve
    cases hreserve
    refine ⟨rfl, .inr ⟨hstate, rfl, ?_⟩⟩
    rw [if_pos hbudget]
    rfl
  | decodeFull hstate hbudget hkv htable =>
    refine ⟨rfl, .inr ⟨hstate, rfl, ?_⟩⟩
    rw [if_pos hbudget]
    rfl

end Turn

section Loop

variable {cfg : SchedulerConfig} {running : List Request} {bm : BlockManager} {budget : Budget}

theorem totalWanted_cons (cfg : SchedulerConfig) (req : Request) (rest : List Request) :
    totalWanted cfg (req :: rest) = wantedTokens cfg req + totalWanted cfg rest := by
  rw [totalWanted, map_cons, sum_cons]
  rfl

theorem wantedTokens_decode (cfg : SchedulerConfig) {req : Request} (h : req.state = .decode) :
    wantedTokens cfg req = 0 := by
  rw [wantedTokens, if_neg]
  rw [h]
  decide

theorem numDecoding_cons_decode {req : Request} (h : req.state = .decode) (rest : List Request) :
    numDecoding (req :: rest) = numDecoding rest + 1 :=
  countP_cons_of_pos (decide_eq_true h)

theorem numDecoding_cons_other {req : Request} (h : req.state ≠ .decode) (rest : List Request) :
    numDecoding (req :: rest) = numDecoding rest :=
  countP_cons_of_neg (by simpa using h)

theorem tokens_le_of_clear (hfit : budget.totalPrefillTokens + budget.numDecode ≤
      cfg.maxTokensPerStep) (hcounted : budget.numDecode = 0 ∨ totalWanted cfg running = 0 ∨
      budget.totalPrefillTokens + totalWanted cfg running + budget.numDecode ≤ cfg.maxTokensPerStep)
    (hclear : ∀ before req after, running = before ++ req :: after → req.state = .decode →
      totalWanted cfg after = 0 ∨ budget.totalPrefillTokens + totalWanted cfg running +
        budget.numDecode + numDecoding before + 1 ≤ cfg.maxTokensPerStep) :
    budget.totalPrefillTokens + budget.numDecode +
      ((buildSlots cfg budget running bm).1.map Slot.tokens).sum ≤ cfg.maxTokensPerStep := by
  induction running generalizing budget bm with
  | nil => exact hfit
  | cons req rest ih =>
    rw [buildSlots, map_cons, sum_cons]
    have hturned := buildSlot_turned cfg budget req bm
    generalize buildSlot cfg budget req bm = turn at hturned
    have hwanted := totalWanted_cons cfg req rest
    have hrest : ∀ before req' after, rest = before ++ req' :: after →
        req :: rest = (req :: before) ++ req' :: after := by
      rintro before req' after rfl
      rfl
    rcases hturned.tokens_cases with ⟨hstate, n, hn, hroom, hbudget, htokens⟩ |
      ⟨hstate, hbudget, htokens⟩ | ⟨hstate, hroom, hbudget, htokens⟩
    · have h := @ih turn.bm turn.budget (by rw [hbudget]; dsimp only; omega)
        (by rw [hbudget]; dsimp only; omega) (fun before req' after heq hreq' => by
          have := hclear _ _ _ (hrest before req' after heq) hreq'
          rw [numDecoding_cons_other hstate] at this
          rw [hbudget]
          dsimp only
          omega)
      rw [hbudget] at h ⊢
      dsimp only at h
      omega
    · have hzero := wantedTokens_decode cfg hstate
      have h := @ih turn.bm turn.budget (by rw [hbudget]; exact hfit)
        (by rw [hbudget]; omega) (fun before req' after heq hreq' => by
          have := hclear _ _ _ (hrest before req' after heq) hreq'
          rw [numDecoding_cons_decode hstate] at this
          rw [hbudget]
          omega)
      rw [hbudget] at h ⊢
      omega
    · have hzero := wantedTokens_decode cfg hstate
      have hhere := hclear [] req rest rfl hstate
      have hnil : numDecoding [] = 0 := rfl
      have h := @ih turn.bm turn.budget (by rw [hbudget]; dsimp only; omega)
        (by rw [hbudget]; dsimp only; omega) (fun before req' after heq hreq' => by
          have := hclear _ _ _ (hrest before req' after heq) hreq'
          rw [numDecoding_cons_decode hstate] at this
          rw [hbudget]
          dsimp only
          omega)
      rw [hbudget] at h ⊢
      dsimp only at h
      omega

theorem tokens_le_iff_of_covered (hcovered : ∀ req ∈ running, req.Covered cfg bm)
    (hprefill : budget.totalPrefillTokens ≤ cfg.maxTokensPerStep) :
    budget.totalPrefillTokens + budget.numDecode +
        ((buildSlots cfg budget running bm).1.map Slot.tokens).sum ≤ cfg.maxTokensPerStep ↔
      min (budget.totalPrefillTokens + totalWanted cfg running) cfg.maxTokensPerStep +
          budget.numDecode ≤ cfg.maxTokensPerStep ∧
        ∀ before req after, running = before ++ req :: after → req.state = .decode →
          budget.totalPrefillTokens + totalWanted cfg before + budget.numDecode +
            numDecoding before + 1 ≤ cfg.maxTokensPerStep →
          budget.totalPrefillTokens + totalWanted cfg running + budget.numDecode +
            numDecoding before + 1 ≤ cfg.maxTokensPerStep := by
  induction running generalizing budget with
  | nil =>
    show _ + _ + 0 ≤ _ ↔ min (_ + 0) _ + _ ≤ _ ∧ _
    rw [add_zero, add_zero, min_eq_left hprefill]
    refine (and_iff_left fun before req after heq => ?_).symm
    exact absurd heq (by simp)
  | cons req rest ih =>
    rw [buildSlots, map_cons, sum_cons]
    have hturned := buildSlot_turned cfg budget req bm
    generalize buildSlot cfg budget req bm = turn at hturned
    obtain ⟨hpool, hturn⟩ := (hcovered req mem_cons_self).turned hturned
    have htail := @ih turn.budget fun r hr => hcovered r (mem_cons_of_mem req hr)
    rw [hpool]
    have hwanted := totalWanted_cons cfg req rest
    -- the decoding requests of the list: the first, or those of the rest
    have hsplits : ∀ Q : List Request → Prop,
        (∀ before r after, req :: rest = before ++ r :: after → r.state = .decode → Q before) ↔
          (req.state = .decode → Q []) ∧
          ∀ before r after, rest = before ++ r :: after → r.state = .decode →
            Q (req :: before) := by
      intro Q
      constructor
      · intro h
        refine ⟨h [] req rest rfl, fun before r after heq => h (req :: before) r after ?_⟩
        rw [heq]
        rfl
      · rintro ⟨hhead, htail⟩ before r after heq hr
        cases before with
        | nil =>
          obtain ⟨rfl, -⟩ := List.cons.inj heq
          exact hhead hr
        | cons b before =>
          obtain ⟨rfl, hrest⟩ := List.cons.inj heq
          exact htail before r after hrest hr
    rw [hsplits fun before => budget.totalPrefillTokens + totalWanted cfg before +
      budget.numDecode + numDecoding before + 1 ≤ cfg.maxTokensPerStep →
      budget.totalPrefillTokens + totalWanted cfg (req :: rest) + budget.numDecode +
        numDecoding before + 1 ≤ cfg.maxTokensPerStep]
    rcases hturn with ⟨hstate, hbudget, htokens⟩ | ⟨hstate, hbudget, htokens⟩
    · -- a chunk: what it is cut by is cut from all that follows
      rw [hbudget] at htail ⊢
      dsimp only at htail
      have htail := htail (by omega)
      have hsum : ∀ s, budget.totalPrefillTokens + budget.numDecode + (turn.slot.tokens + s) =
          budget.totalPrefillTokens + turn.slot.tokens + budget.numDecode + s := by omega
      rw [hsum, htail]
      refine and_congr (by omega) ?_
      rw [and_iff_right (fun h => absurd h hstate)]
      refine forall_congr' fun before => forall_congr' fun r => forall_congr' fun after =>
        forall_congr' fun _ => forall_congr' fun _ => ?_
      rw [totalWanted_cons, numDecoding_cons_other hstate]
      omega
    · have hzero := wantedTokens_decode cfg hstate
      have hnil : totalWanted cfg [] = 0 := rfl
      have hnone : numDecoding [] = 0 := rfl
      rw [hbudget] at htail ⊢
      dsimp only at htail
      have htail := htail hprefill
      have hsum : ∀ s, budget.totalPrefillTokens + budget.numDecode + (turn.slot.tokens + s) =
          budget.totalPrefillTokens + (budget.numDecode + turn.slot.tokens) + s := by omega
      rw [hsum, htail]
      by_cases hroom : budget.totalPrefillTokens + budget.numDecode + 1 ≤ cfg.maxTokensPerStep
      · -- let in: from now on it counts
        rw [if_pos hroom] at htokens
        have hcons : (∀ before r after, rest = before ++ r :: after → r.state = .decode →
            budget.totalPrefillTokens + totalWanted cfg before +
              (budget.numDecode + turn.slot.tokens) + numDecoding before + 1 ≤
                cfg.maxTokensPerStep →
            budget.totalPrefillTokens + totalWanted cfg rest +
              (budget.numDecode + turn.slot.tokens) + numDecoding before + 1 ≤
                cfg.maxTokensPerStep) ↔
          ∀ before r after, rest = before ++ r :: after → r.state = .decode →
            budget.totalPrefillTokens + totalWanted cfg (req :: before) + budget.numDecode +
              numDecoding (req :: before) + 1 ≤ cfg.maxTokensPerStep →
            budget.totalPrefillTokens + totalWanted cfg (req :: rest) + budget.numDecode +
              numDecoding (req :: before) + 1 ≤ cfg.maxTokensPerStep := by
          refine forall_congr' fun before => forall_congr' fun r => forall_congr' fun after =>
            forall_congr' fun _ => forall_congr' fun _ => ?_
          rw [totalWanted_cons, numDecoding_cons_decode hstate]
          omega
        rw [hcons, ← and_assoc]
        refine and_congr_left fun _ => ?_
        constructor
        · intro h
          exact ⟨by omega, fun _ _ => by omega⟩
        · rintro ⟨_, h⟩
          have := h hstate (by omega)
          omega
      · -- refused: so are all decode steps behind it
        rw [if_neg hroom] at htokens
        rw [and_iff_left fun before r after _ _ h => by omega, and_iff_left ⟨fun _ h => by omega,
          fun before r after _ _ h => by omega⟩]
        omega

end Loop

/-! ## Runs -/

variable {heap : MaxHeap QueueEntry QueueEntry.rank}

inductive SchedulerCall where
  | addRequest (promptTokens : List UInt32) (priority : Int) (maxTokens : Nat)
      (stopTokenIds : List UInt32) (requestId : Option String)
  | schedule (bm : BlockManager) (cacheHits : List PrefixCacheHit)
  | recordOutput (requestId : String) (tokenId : UInt32)
  | getFinishedRequest (requestId : String)

structure Batched (heap : MaxHeap QueueEntry QueueEntry.rank) where
  sched : Scheduler heap
  batches : List Batch

namespace Batched

def apply (s : Batched heap) : SchedulerCall → Batched heap
  | .addRequest promptTokens priority maxTokens stopTokenIds requestId =>
    { s with
      sched := (s.sched.addRequest promptTokens priority maxTokens stopTokenIds requestId).2 }
  | .schedule bm cacheHits =>
    let called := s.sched.schedule bm cacheHits
    ⟨called.2.1, s.batches ++ [called.1]⟩
  | .recordOutput requestId tokenId =>
    { s with sched := (s.sched.recordOutput requestId tokenId).2 }
  | .getFinishedRequest requestId =>
    { s with sched := (s.sched.getFinishedRequest requestId).2 }

def LeavesRoom (s : Batched heap) : SchedulerCall → Prop
  | .schedule bm cacheHits =>
    let admitted := s.sched.admitRequests bm cacheHits
    DecodesClear s.sched.config admitted.1.running ∨
      (∀ req ∈ admitted.1.running, req.Covered s.sched.config admitted.2) ∧
        DecodesFit s.sched.config admitted.1.running
  | _ => True

end Batched

theorem schedule_totalTokens_iff (s : Scheduler heap) (bm : BlockManager)
    (cacheHits : List PrefixCacheHit) (hcovered : ∀ req ∈ (s.admitRequests bm cacheHits).1.running,
      req.Covered s.config (s.admitRequests bm cacheHits).2) :
    (s.schedule bm cacheHits).1.totalTokens ≤ s.config.maxTokensPerStep ↔
      DecodesFit s.config (s.admitRequests bm cacheHits).1.running := by
  have hnone : (⟨0, 0⟩ : Budget).totalPrefillTokens ≤ s.config.maxTokensPerStep := Nat.zero_le _
  have h := tokens_le_iff_of_covered hcovered hnone
  show (batchOf _).totalTokens ≤ _ ↔ _
  rw [batchOf_totalTokens]
  simp only [zero_add, add_zero] at h
  exact h.trans (and_iff_right (Nat.min_le_right _ _))

theorem schedule_totalTokens_le (s : Scheduler heap) (bm : BlockManager)
    (cacheHits : List PrefixCacheHit)
    (hclear : DecodesClear s.config (s.admitRequests bm cacheHits).1.running) :
    (s.schedule bm cacheHits).1.totalTokens ≤ s.config.maxTokensPerStep := by
  show (batchOf _).totalTokens ≤ _
  rw [batchOf_totalTokens]
  have hstart : (⟨0, 0⟩ : Budget).totalPrefillTokens + 0 ≤ s.config.maxTokensPerStep :=
    Nat.zero_le _
  have h := @tokens_le_of_clear _ _ (s.admitRequests bm cacheHits).2 _ hstart (.inl rfl)
    fun before req after heq hreq => by
      have := hclear before req after heq hreq
      dsimp only
      omega
  simp only [zero_add] at h
  exact h

namespace Batched

theorem config_apply (s : Batched heap) (call : SchedulerCall) :
    (s.apply call).sched.config = s.sched.config := by
  cases call with
  | addRequest => rfl
  | schedule => rfl
  | recordOutput requestId tokenId =>
    show (s.sched.recordOutput requestId tokenId).2.config = _
    unfold Scheduler.recordOutput
    split
    · rfl
    · rfl
  | getFinishedRequest => rfl

end Batched

/-- Every batch stays within the budget while the calls leave room for their chunks. -/
theorem stepBudget_of_run {sched : Scheduler heap} {calls : List SchedulerCall} {s : Batched heap}
    (hrun : Run (fun (m : Batched heap) call m' => m.LeavesRoom call ∧ m' = m.apply call)
      ⟨sched, []⟩ calls s) :
    (∀ batch ∈ s.batches, batch.totalTokens ≤ sched.config.maxTokensPerStep) ∧
      ∀ bm cacheHits, (∀ req ∈ (s.sched.admitRequests bm cacheHits).1.running,
          req.Covered s.sched.config (s.sched.admitRequests bm cacheHits).2) →
        ((s.sched.schedule bm cacheHits).1.totalTokens ≤ s.sched.config.maxTokensPerStep ↔
          s.LeavesRoom (.schedule bm cacheHits)) := by
  have hinv : s.sched.config = sched.config ∧
      ∀ batch ∈ s.batches, batch.totalTokens ≤ sched.config.maxTokensPerStep := by
    refine hrun.invariant (I := fun m => m.sched.config = sched.config ∧
      ∀ batch ∈ m.batches, batch.totalTokens ≤ sched.config.maxTokensPerStep)
      ⟨rfl, nofun⟩ ?_
    rintro m call m' ⟨hconfig, hbatches⟩ ⟨hroom, rfl⟩
    refine ⟨(m.config_apply call).trans hconfig, ?_⟩
    cases call with
    | addRequest => exact hbatches
    | recordOutput => exact hbatches
    | getFinishedRequest => exact hbatches
    | schedule =>
      intro batch hbatch
      rcases mem_append.1 hbatch with hbatch | hbatch
      · exact hbatches batch hbatch
      · rw [mem_singleton.1 hbatch, ← hconfig]
        rcases hroom with hclear | ⟨hcovered, hfit⟩
        · exact schedule_totalTokens_le _ _ _ hclear
        · exact (schedule_totalTokens_iff _ _ _ hcovered).2 hfit
  refine ⟨hinv.2, fun bm cacheHits hcovered => ?_⟩
  refine ⟨fun h => .inr ⟨hcovered, (schedule_totalTokens_iff _ _ _ hcovered).1 h⟩, ?_⟩
  rintro (hclear | ⟨-, hfit⟩)
  · exact schedule_totalTokens_le _ _ _ hclear
  · exact (schedule_totalTokens_iff _ _ _ hcovered).2 hfit

/-! ## A run within the budget, and one beyond it -/

/-- Two steps of one request; the pool of the second is what the first left. -/
def loneCalls (sched : Scheduler listHeap) (bm : BlockManager) : List SchedulerCall :=
  let added := (sched.addRequest [1] 0 4 [] none).2
  [.addRequest [1] 0 4 [] none, .schedule bm [], .recordOutput "req_1" 7,
    .schedule (added.schedule bm []).2.2 []]

theorem stepBudget_of_run_witness :
    ∃ sched bm s, Scheduler.new listHeap 4 2 2 false = .ok sched ∧ BlockManager.new 8 2 = .ok bm ∧
      Run (fun (m : Batched listHeap) call m' => m.LeavesRoom call ∧ m' = m.apply call)
        ⟨sched, []⟩ (loneCalls sched bm) s ∧
      s.batches.map Batch.totalTokens = [1, 1] ∧
      ∀ batch ∈ s.batches, batch.totalTokens ≤ sched.config.maxTokensPerStep := by
  obtain ⟨sched, hsched⟩ : ∃ sched, Scheduler.new listHeap 4 2 2 false = .ok sched := ⟨_, rfl⟩
  obtain ⟨bm, hbm⟩ : ∃ bm, BlockManager.new 8 2 = .ok bm := ⟨_, rfl⟩
  -- one request alone has no chunk behind a decode step
  have hlone : ∀ (cfg : SchedulerConfig) (running : List Request), running.length ≤ 1 →
      DecodesClear cfg running := by
    rintro cfg running hlen before req after rfl -
    rw [length_append, length_cons] at hlen
    have hafter : after = [] := length_eq_zero_iff.1 (by omega)
    exact .inl (by rw [hafter]; rfl)
  have henabled : Enabled (fun (m : Batched listHeap) call => m.LeavesRoom call) Batched.apply
      ⟨sched, []⟩ (loneCalls sched bm) := by
    refine ⟨trivial, .inl (hlone _ _ ?_), trivial, .inl (hlone _ _ ?_), trivial⟩
    · cases hsched
      cases hbm
      decide +kernel
    · cases hsched
      cases hbm
      decide +kernel
  have hrun : Run (fun (m : Batched listHeap) call m' => m.LeavesRoom call ∧ m' = m.apply call)
      ⟨sched, []⟩ (loneCalls sched bm) _ := Run.of_enabled (fun _ _ h => ⟨h, rfl⟩) henabled
  refine ⟨sched, bm, _, hsched, hbm, hrun, ?_, (stepBudget_of_run hrun).1⟩
  cases hsched
  cases hbm
  decide +kernel

/-- A second request's chunk uses the whole budget, which a decode step has tapped already. -/
theorem stepBudget_fails :
    ∃ sched bm bm' s, Scheduler.new listHeap 4 2 2 false = .ok sched ∧
      BlockManager.new 8 2 = .ok bm ∧
      Run (fun (m : Batched listHeap) call m' => m' = m.apply call) ⟨sched, []⟩
        [.addRequest [1] 0 4 [] none, .schedule bm [], .recordOutput "req_1" 7,
          .addRequest [2, 3] 0 4 [] none, .schedule bm' []] s ∧
      sched.config.maxTokensPerStep = 2 ∧ s.batches.map Batch.totalTokens = [1, 3] := by
  obtain ⟨sched, hsched⟩ : ∃ sched, Scheduler.new listHeap 4 2 2 false = .ok sched := ⟨_, rfl⟩
  obtain ⟨bm, hbm⟩ : ∃ bm, BlockManager.new 8 2 = .ok bm := ⟨_, rfl⟩
  refine ⟨sched, bm, ((sched.addRequest [1] 0 4 [] none).2.schedule bm []).2.2, _, hsched, hbm,
    Run.of_foldl Batched.apply _ _, ?_, ?_⟩
  · cases hsched
    rfl
  · cases hsched
    cases hbm
    decide +kernel

end CompileForge.Runtime
