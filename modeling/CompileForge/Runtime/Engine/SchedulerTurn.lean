/-
  What one scheduling step can do, said once.
-/

import CompileForge.Runtime.Cache.BlockTables
import CompileForge.Runtime.Engine.Scheduler

namespace CompileForge.Runtime

open Lib List

/-! ## The outcomes of a turn -/

theorem reservePrompt_spec (bm : BlockManager) (rid : String) {n : Nat} (hn : 0 < n) :
    (∃ e, reservePrompt bm rid n = (.error e, bm)) ∨
    ∃ bm' blocks, reservePrompt bm rid n = (.ok (), bm') ∧ bm.Grows rid bm' ∧
      bm'.Covers rid n blocks := by
  unfold reservePrompt
  by_cases hmem : rid ∈ bm.blockTables
  · rw [if_pos hmem]
    exact bm.ensureBlocks_spec rid hn
  · rw [if_neg hmem]
    rcases bm.allocate_spec rid n with ⟨e, heq⟩ | ⟨bm', blocks, heq, hgrows, hcovers⟩
    · exact .inl ⟨e, by rw [heq]⟩
    · exact .inr ⟨bm', blocks, by rw [heq], hgrows, hcovers⟩

section Chunk

variable {cfg : SchedulerConfig} {budget : Budget} {req : Request}

theorem chunkLen_le (cfg : SchedulerConfig) (budget : Budget) (req : Request) :
    req.prefillPos + chunkLen cfg budget req ≤ max req.prefillPos req.promptTokens.length := by
  unfold chunkLen Request.tokensRemaining
  omega

theorem chunkLen_pos (hrest : req.tokensRemaining ≠ 0)
    (hbudget : budget.totalPrefillTokens < cfg.maxTokensPerStep) : 0 < chunkLen cfg budget req := by
  have := cfg.chunkSize_pos
  unfold chunkLen
  omega

variable (req)

@[simp] theorem promptTokens_settlePrefill : req.settlePrefill.promptTokens = req.promptTokens := by
  unfold Request.settlePrefill
  split <;> rfl

@[simp] theorem prefillPos_settlePrefill : req.settlePrefill.prefillPos = req.prefillPos := by
  unfold Request.settlePrefill
  split <;> rfl

@[simp] theorem outputTokens_settlePrefill : req.settlePrefill.outputTokens = req.outputTokens := by
  unfold Request.settlePrefill
  split <;> rfl

theorem state_settlePrefill : req.settlePrefill.state =
    if req.promptTokens.length ≤ req.prefillPos then .decode else req.state := by
  unfold Request.settlePrefill
  split <;> rfl

theorem requestId_settlePrefill : req.settlePrefill.requestId = req.requestId := by
  unfold Request.settlePrefill
  split <;> rfl

end Chunk

section Turn

variable (cfg : SchedulerConfig) (budget : Budget) (req : Request) (bm : BlockManager)

/-- Everything a turn of the batch loop can do. -/
inductive Turned : Turn → Prop
  | idle (hprefill : req.state ≠ .prefill) (hdecode : req.state ≠ .decode) :
      Turned ⟨⟨req, req, .skipped .notLive⟩, budget, bm⟩
  | exhausted (hstate : req.state = .prefill) (hrest : req.tokensRemaining = 0) :
      Turned ⟨⟨req, { req with state := .decode }, .skipped .promptExhausted⟩, budget, bm⟩
  | noPrefillBudget (hstate : req.state = .prefill) (hrest : req.tokensRemaining ≠ 0)
      (hbudget : cfg.maxTokensPerStep ≤ budget.totalPrefillTokens) :
      Turned ⟨⟨req, req, .skipped .noBudget⟩, budget, bm⟩
  | promptUnreserved (hstate : req.state = .prefill) (hrest : req.tokensRemaining ≠ 0)
      (hbudget : budget.totalPrefillTokens < cfg.maxTokensPerStep) {e : OutOfMemoryError}
      (hoom : reservePrompt bm req.requestId req.promptTokens.length = (.error e, bm)) :
      Turned
        ⟨⟨req, req.advance (chunkLen cfg budget req), .skipped .outOfMemory⟩, budget, bm⟩
  | chunk (hstate : req.state = .prefill) (hrest : req.tokensRemaining ≠ 0)
      (hbudget : budget.totalPrefillTokens < cfg.maxTokensPerStep) {bm' : BlockManager}
      {blocks : List Nat}
      (hreserve : reservePrompt bm req.requestId req.promptTokens.length = (.ok (), bm'))
      (hgrows : bm.Grows req.requestId bm')
      (hcovers : bm'.Covers req.requestId req.promptTokens.length blocks) :
      Turned
        ⟨⟨req, (req.advance (chunkLen cfg budget req)).settlePrefill,
          .scheduled (prefillRequest req (req.advance (chunkLen cfg budget req)).settlePrefill
            (chunkLen cfg budget req) blocks)⟩,
          { budget with
            totalPrefillTokens := budget.totalPrefillTokens + chunkLen cfg budget req }, bm'⟩
  | noDecodeBudget (hstate : req.state = .decode)
      (hbudget : cfg.maxTokensPerStep < budget.totalPrefillTokens + budget.numDecode + 1) :
      Turned ⟨⟨req, req, .skipped .noBudget⟩, budget, bm⟩
  | tableUngrown (hstate : req.state = .decode)
      (hbudget : budget.totalPrefillTokens + budget.numDecode + 1 ≤ cfg.maxTokensPerStep)
      (hkv : cfg.useKvCache = true) {e : OutOfMemoryError}
      (hoom : bm.ensureBlocks req.requestId
        (req.promptTokens.length + req.outputTokens.length + 1) = (.error e, bm)) :
      Turned ⟨⟨req, req, .skipped .outOfMemory⟩,
        { budget with numDecode := budget.numDecode + 1 }, bm⟩
  | noTable (hstate : req.state = .decode)
      (hbudget : budget.totalPrefillTokens + budget.numDecode + 1 ≤ cfg.maxTokensPerStep)
      (hkv : cfg.useKvCache = false) (hnone : bm.blockTables.lookup req.requestId = none) :
      Turned ⟨⟨req, req, .skipped .noBlockTable⟩,
        { budget with numDecode := budget.numDecode + 1 }, bm⟩
  | decodeCached (hstate : req.state = .decode)
      (hbudget : budget.totalPrefillTokens + budget.numDecode + 1 ≤ cfg.maxTokensPerStep)
      (hkv : cfg.useKvCache = true) {bm' : BlockManager} {blocks : List Nat}
      (hreserve : bm.ensureBlocks req.requestId
        (req.promptTokens.length + req.outputTokens.length + 1) = (.ok (), bm'))
      (hgrows : bm.Grows req.requestId bm')
      (hcovers : bm'.Covers req.requestId
        (req.promptTokens.length + req.outputTokens.length + 1) blocks) :
      Turned ⟨⟨req, req, .scheduled (decodeRequest true req blocks)⟩,
        { budget with numDecode := budget.numDecode + 1 }, bm'⟩
  | decodeFull (hstate : req.state = .decode)
      (hbudget : budget.totalPrefillTokens + budget.numDecode + 1 ≤ cfg.maxTokensPerStep)
      (hkv : cfg.useKvCache = false) {blocks : List Nat}
      (htable : bm.blockTables.lookup req.requestId = some blocks) :
      Turned ⟨⟨req, req, .scheduled (decodeRequest false req blocks)⟩,
        { budget with numDecode := budget.numDecode + 1 }, bm⟩

variable {req}

theorem tokensRemaining_ne_zero_iff :
    req.tokensRemaining ≠ 0 ↔ req.prefillPos < req.promptTokens.length := by
  unfold Request.tokensRemaining
  omega

theorem prefillTurn_turned (hstate : req.state = .prefill) :
    Turned cfg budget req bm (prefillTurn cfg budget req bm) := by
  unfold prefillTurn
  by_cases hrest : req.tokensRemaining = 0
  · rw [if_pos hrest]
    exact .exhausted hstate hrest
  · rw [if_neg hrest]
    by_cases hbudget : cfg.maxTokensPerStep - budget.totalPrefillTokens = 0
    · rw [if_pos hbudget]
      exact .noPrefillBudget hstate hrest (Nat.sub_eq_zero_iff_le.1 hbudget)
    · rw [if_neg hbudget]
      have hlt : budget.totalPrefillTokens < cfg.maxTokensPerStep := by omega
      have hprompt : 0 < req.promptTokens.length :=
        Nat.lt_of_le_of_lt (Nat.zero_le _) (tokensRemaining_ne_zero_iff.1 hrest)
      rcases reservePrompt_spec bm req.requestId hprompt with
        ⟨e, heq⟩ | ⟨bm', blocks, heq, hgrows, hcovers⟩
      · simp only [heq]
        exact .promptUnreserved hstate hrest hlt heq
      · simp only [heq, BlockManager.getBlocks, hcovers.1]
        exact .chunk hstate hrest hlt heq hgrows hcovers

theorem decodeTurn_turned (hstate : req.state = .decode) :
    Turned cfg budget req bm (decodeTurn cfg budget req bm) := by
  unfold decodeTurn
  by_cases hbudget : cfg.maxTokensPerStep < budget.totalPrefillTokens + budget.numDecode + 1
  · rw [if_pos hbudget]
    exact .noDecodeBudget hstate hbudget
  · rw [if_neg hbudget]
    have hle : budget.totalPrefillTokens + budget.numDecode + 1 ≤ cfg.maxTokensPerStep := by omega
    cases hkv : cfg.useKvCache with
    | true =>
      rcases bm.ensureBlocks_spec req.requestId
          (Nat.succ_pos (req.promptTokens.length + req.outputTokens.length)) with
        ⟨e, heq⟩ | ⟨bm', blocks, heq, hgrows, hcovers⟩
      · simp only [if_true, heq]
        exact .tableUngrown hstate hle hkv heq
      · simp only [if_true, heq, BlockManager.getBlocks, hcovers.1]
        exact .decodeCached hstate hle hkv heq hgrows hcovers
    | false =>
      cases htable : bm.blockTables.lookup req.requestId with
      | none =>
        simp only [Bool.false_eq_true, if_false, BlockManager.getBlocks, htable]
        exact .noTable hstate hle hkv htable
      | some =>
        simp only [Bool.false_eq_true, if_false, BlockManager.getBlocks, htable]
        exact .decodeFull hstate hle hkv htable

variable (req)

theorem buildSlot_turned : Turned cfg budget req bm (buildSlot cfg budget req bm) := by
  cases hstate : req.state with
  | waiting =>
    simp only [buildSlot, hstate]
    exact .idle (by rw [hstate]; decide) (by rw [hstate]; decide)
  | prefill =>
    simp only [buildSlot, hstate]
    exact prefillTurn_turned cfg budget bm hstate
  | decode =>
    simp only [buildSlot, hstate]
    exact decodeTurn_turned cfg budget bm hstate
  | finished =>
    simp only [buildSlot, hstate]
    exact .idle (by rw [hstate]; decide) (by rw [hstate]; decide)

variable {cfg budget req bm} {turn : Turn}

theorem Turned.before_eq (h : Turned cfg budget req bm turn) : turn.slot.before = req := by
  cases h <;> rfl

theorem Turned.grows (h : Turned cfg budget req bm turn) : bm.Grows req.requestId turn.bm := by
  cases h with
  | chunk _ _ _ _ hgrows => exact hgrows
  | decodeCached _ _ _ _ hgrows => exact hgrows
  | _ => exact .inl rfl

theorem Turned.requestId_eq (h : Turned cfg budget req bm turn) :
    turn.slot.after.requestId = turn.slot.before.requestId ∧
      ∀ sr, turn.slot.scheduled? = some sr → sr.requestId = turn.slot.before.requestId := by
  cases h with
  | chunk hstate hrest hbudget hreserve hgrows hcovers =>
    refine ⟨requestId_settlePrefill _, fun sr hsr => ?_⟩
    cases hsr
    rfl
  | decodeCached hstate hbudget hkv hreserve hgrows hcovers =>
    refine ⟨rfl, fun sr hsr => ?_⟩
    cases hsr
    rfl
  | decodeFull hstate hbudget hkv htable =>
    refine ⟨rfl, fun sr hsr => ?_⟩
    cases hsr
    rfl
  | _ => exact ⟨rfl, fun sr hsr => by cases hsr⟩

theorem sublist_batchOf {slots : List Slot}
    (hids : ∀ slot ∈ slots, ∀ sr, slot.scheduled? = some sr →
      sr.requestId = slot.before.requestId) :
    ((batchOf slots).requests.map ScheduledRequest.requestId).Sublist
      (slots.map fun slot => slot.before.requestId) := by
  induction slots with
  | nil => exact .slnil
  | cons slot slots ih =>
    have hrest := ih fun s hs => hids s (mem_cons_of_mem slot hs)
    simp only [batchOf, map_cons] at hrest ⊢
    cases hslot : slot.scheduled? with
    | none =>
      rw [filterMap_cons_none hslot]
      exact hrest.cons _
    | some sr =>
      rw [filterMap_cons_some hslot, map_cons, hids slot mem_cons_self sr hslot]
      exact hrest.cons_cons _

theorem Turned.live_eq (h : Turned cfg budget req bm turn) :
    turn.slot.after.promptTokens = req.promptTokens ∧ (req.state = .prefill ∨ req.state = .decode →
        turn.slot.after.state = .prefill ∨ turn.slot.after.state = .decode) := by
  cases h with
  | exhausted => exact ⟨rfl, fun _ => .inr rfl⟩
  | chunk hstate =>
    refine ⟨promptTokens_settlePrefill _, fun _ => ?_⟩
    rw [state_settlePrefill]
    split
    · exact .inr rfl
    · exact .inl hstate
  | _ => exact ⟨rfl, id⟩

theorem Turned.limits_eq (h : Turned cfg budget req bm turn) :
    turn.slot.after.outputTokens = req.outputTokens ∧ turn.slot.after.maxTokens = req.maxTokens ∧
      turn.slot.after.stopTokenIds = req.stopTokenIds ∧
      turn.slot.after.isFinished = req.isFinished := by
  cases h with
  | exhausted hstate hrest => simp [Request.isFinished, hstate]
  | chunk hstate hrest hbudget hreserve hgrows hcovers =>
    simp only [Request.settlePrefill, Request.isFinished, hstate, Request.advance]
    split <;> simp
  | _ => exact ⟨rfl, rfl, rfl, rfl⟩

theorem Turned.scheduled_spec (h : Turned cfg budget req bm turn) {sr : ScheduledRequest}
    (hsr : turn.slot.scheduled? = some sr) (hprompt : req.promptTokens ≠ []) :
    sr.requestId ∈ turn.bm.blockTables ∧ sr.inputIds ≠ [] := by
  have hmem : ∀ {pool : BlockManager} {blocks : List Nat},
      pool.blockTables.lookup req.requestId = some blocks → req.requestId ∈ pool.blockTables :=
    fun hlookup => AList.lookup_isSome.1 (by rw [hlookup]; rfl)
  cases h with
  | chunk hstate hrest hbudget hreserve hgrows hcovers =>
    cases hsr
    refine ⟨hmem hcovers.1, fun hempty => ?_⟩
    have hpos := chunkLen_pos hrest hbudget
    have hle := chunkLen_le cfg budget req
    have hmore := tokensRemaining_ne_zero_iff.1 hrest
    have hlen : (slice req.promptTokens req.prefillPos (chunkLen cfg budget req)).length =
        chunkLen cfg budget req := length_slice (by omega)
    have hnil : slice req.promptTokens req.prefillPos (chunkLen cfg budget req) = [] := hempty
    rw [hnil, length_nil] at hlen
    omega
  | decodeCached hstate hbudget hkv hreserve hgrows hcovers =>
    cases hsr
    exact ⟨hmem hcovers.1, cons_ne_nil _ _⟩
  | decodeFull hstate hbudget hkv htable =>
    cases hsr
    refine ⟨hmem htable, fun hempty => hprompt ?_⟩
    exact (append_eq_nil_iff.1 hempty).1
  | _ => cases hsr

end Turn

/-! ## The batch loop -/

/-- A condition on the state before every turn of the loop. -/
def AlongSlots (cfg : SchedulerConfig) (C : Budget → Request → BlockManager → Prop) :
    Budget → List Request → BlockManager → Prop
  | _, [], _ => True
  | budget, req :: rest, bm =>
    C budget req bm ∧
      AlongSlots cfg C (buildSlot cfg budget req bm).budget rest (buildSlot cfg budget req bm).bm

instance decidableAlongSlots {cfg : SchedulerConfig} {C : Budget → Request → BlockManager → Prop}
    [∀ budget req bm, Decidable (C budget req bm)] :
    ∀ budget running bm, Decidable (AlongSlots cfg C budget running bm)
  | _, [], _ => isTrue trivial
  | budget, req :: rest, bm =>
    have : Decidable (AlongSlots cfg C (buildSlot cfg budget req bm).budget rest
        (buildSlot cfg budget req bm).bm) := decidableAlongSlots _ rest _
    inferInstanceAs (Decidable (C budget req bm ∧ AlongSlots cfg C _ rest _))

variable {cfg : SchedulerConfig} {C : Budget → Request → BlockManager → Prop} {budget : Budget}
  {running : List Request} {bm : BlockManager}

theorem buildSlots_before (cfg : SchedulerConfig) (budget : Budget) (running : List Request)
    (bm : BlockManager) : (buildSlots cfg budget running bm).1.map Slot.before = running := by
  induction running generalizing budget bm with
  | nil => rfl
  | cons req rest ih =>
    have hbefore : (buildSlot cfg budget req bm).slot.before = req :=
      (buildSlot_turned cfg budget req bm).before_eq
    rw [buildSlots, map_cons, hbefore, ih]

variable {I : BlockManager → Prop} {Q : Request → Prop}

theorem buildSlots_stable_rule
    {R : Slot → BlockManager → Prop} (hturn : ∀ budget req bm turn, Q req → I bm → C budget req bm →
      Turned cfg budget req bm turn → I turn.bm ∧ R turn.slot turn.bm)
    (hstable : ∀ budget req bm turn slot, I bm → Turned cfg budget req bm turn → R slot bm →
      R slot turn.bm)
    (hQ : ∀ req ∈ running, Q req) (hI : I bm) (hC : AlongSlots cfg C budget running bm) :
    I (buildSlots cfg budget running bm).2 ∧
      (∀ slot, R slot bm → R slot (buildSlots cfg budget running bm).2) ∧
      ∀ slot ∈ (buildSlots cfg budget running bm).1,
        R slot (buildSlots cfg budget running bm).2 := by
  induction running generalizing budget bm with
  | nil => exact ⟨hI, fun _ h => h, nofun⟩
  | cons req rest ih =>
    have hturned := buildSlot_turned cfg budget req bm
    obtain ⟨hbm, hslot⟩ := hturn budget req bm _ (hQ req mem_cons_self) hI hC.1 hturned
    obtain ⟨hfinal, hkept, hrest⟩ :=
      ih (fun r hr => hQ r (mem_cons_of_mem req hr)) hbm hC.2
    refine ⟨hfinal, fun slot h => hkept slot (hstable _ _ _ _ slot hI hturned h),
      fun slot hmem => ?_⟩
    rcases mem_cons.1 hmem with rfl | hmem
    · exact hkept _ hslot
    · exact hrest slot hmem

/-- What each turn keeps of the pool, the loop keeps. -/
theorem buildSlots_rule {P : Slot → Prop}
    (hturn : ∀ budget req bm turn, Q req → I bm → C budget req bm →
      Turned cfg budget req bm turn → I turn.bm ∧ P turn.slot)
    (hQ : ∀ req ∈ running, Q req) (hI : I bm) (hC : AlongSlots cfg C budget running bm) :
    I (buildSlots cfg budget running bm).2 ∧
      ∀ slot ∈ (buildSlots cfg budget running bm).1, P slot := by
  obtain ⟨hfinal, -, hslots⟩ := buildSlots_stable_rule (R := fun slot _ => P slot) hturn
    (fun _ _ _ _ _ _ _ h => h) hQ hI hC
  exact ⟨hfinal, hslots⟩

variable (cfg budget running bm)

theorem alongSlots_true : AlongSlots cfg (fun _ _ _ => True) budget running bm := by
  induction running generalizing budget bm with
  | nil => trivial
  | cons req rest ih => exact ⟨trivial, ih _ _⟩

/-- Every slot of a batch is such a turn. -/
theorem turned_of_mem_buildSlots : ∀ slot ∈ (buildSlots cfg budget running bm).1, ∃ budget' bm'
    turn, Turned cfg budget' slot.before bm' turn ∧ turn.slot = slot :=
  (buildSlots_rule (I := fun _ => True) (Q := fun _ => True)
    (fun budget' _ bm' turn _ _ _ hturn =>
      ⟨trivial, budget', bm', turn, hturn.before_eq ▸ hturn, rfl⟩)
    (fun _ _ => trivial) trivial (alongSlots_true ..)).2

variable {cfg budget running bm}

theorem buildSlots_invariant {I : BlockManager → Prop}
    (hturn : ∀ budget req bm turn, I bm → Turned cfg budget req bm turn → I turn.bm) (hI : I bm) :
    I (buildSlots cfg budget running bm).2 :=
  (buildSlots_rule (Q := fun _ => True) (P := fun _ => True)
    (fun _ _ _ _ _ hbm _ hturned => ⟨hturn _ _ _ _ hbm hturned, trivial⟩)
    (fun _ _ => trivial) hI (alongSlots_true ..)).1

/-! ## Reaping and admission -/

theorem blockSize_reap (running : List Request) (bm : BlockManager) :
    (Scheduler.reap running bm).2.blockSize = bm.blockSize :=
  foldl_frame fun bm rid => bm.blockSize_free rid

variable {heap : MaxHeap QueueEntry QueueEntry.rank} (cacheHits : List PrefixCacheHit)

/-- The admission loop is a fold over the entries it admits. -/
def admitEntry (st : List Request × BlockManager)
    (entry : QueueEntry) : List Request × BlockManager :=
  (st.1 ++ [(admitRequest cacheHits st.2 entry.request).1],
    (admitRequest cacheHits st.2 entry.request).2)

/-- Entries leave the queue in the order of their priorities, as many as there are places. -/
theorem admitLoop_spec (maxBatchSize : Nat) (cacheHits : List PrefixCacheHit)
    (waiting : heap.Carrier) (running : List Request) (bm : BlockManager) :
    ∃ entries, (heap.items waiting).Perm (entries ++
        heap.items (admitLoop maxBatchSize cacheHits waiting running bm).1) ∧
      (admitLoop maxBatchSize cacheHits waiting running bm).2 =
        entries.foldl (admitEntry cacheHits) (running, bm) ∧
      (heap.items (admitLoop maxBatchSize cacheHits waiting running bm).1 = [] ∨
        maxBatchSize ≤ (admitLoop maxBatchSize cacheHits waiting running bm).2.1.length) ∧
      (entries = [] ∨ running.length + entries.length ≤ maxBatchSize) ∧
      entries.Pairwise (fun a b => a.priority ≤ b.priority) ∧
      ∀ a ∈ entries, ∀ b ∈ heap.items (admitLoop maxBatchSize cacheHits waiting running bm).1,
        a.priority ≤ b.priority := by
  induction hn : (heap.items waiting).length using Nat.strongRecOn generalizing waiting running bm
    with
  | ind n ih =>
    rw [admitLoop]
    split
    · rename_i hpop
      exact ⟨[], by simp, rfl, .inl (heap.pop_none _ hpop), .inl rfl, .nil,
        fun a ha => absurd ha not_mem_nil⟩
    · rename_i entry rest hpop
      have hlen := heap.length_pop hpop
      split
      · -- a full batch: the entry goes back
        rename_i hfull
        exact ⟨[], by simpa using (heap.push_pop hpop).symm, rfl, .inr hfull, .inl rfl, .nil,
          fun a ha => absurd ha not_mem_nil⟩
      · rename_i hplace
        obtain ⟨entries, hperm, hfold, hstop, hlength, hsorted, hleft⟩ := ih _ (by omega) rest
          (running ++ [(admitRequest cacheHits bm entry.request).1])
          (admitRequest cacheHits bm entry.request).2 rfl
        -- the entry popped is a maximum of all that were in the queue
        have hmax : ∀ b ∈ heap.items rest, entry.priority ≤ b.priority := by
          intro b hb
          have hrank := heap.pop_max _ _ _ hpop b ((heap.mem_pop hpop).2 (.inr hb))
          unfold QueueEntry.rank at hrank
          omega
        refine ⟨entry :: entries, (heap.pop_perm _ _ _ hpop).trans (hperm.cons entry), hfold,
          hstop, ?_, pairwise_cons.2 ⟨fun b hb => ?_, hsorted⟩, ?_⟩
        · rw [length_append, length_singleton] at hlength
          rw [length_cons]
          rcases hlength with rfl | hlength
          · exact .inr (by rw [length_nil]; omega)
          · exact .inr (by omega)
        · exact hmax b (hperm.mem_iff.2 (mem_append_left _ hb))
        · intro a ha b hb
          rcases mem_cons.1 ha with rfl | ha
          · exact hmax b (hperm.mem_iff.2 (mem_append_right _ hb))
          · exact hleft a ha b hb

variable (req : Request)

/-- A request as `add_request` leaves it. -/
def Request.Queued : Prop := req.state = .waiting ∧ req.prefillPos = 0

/-- A request as it enters the running list without a prefix hit. -/
def Request.startPrefill : Request := { req with state := .prefill }

/-- The request part of an admission does not depend on the pool. -/
def Request.withHit : Request :=
  match cacheHits.find? (fun h => h.requestId = req.requestId) with
  | none => req.startPrefill
  | some hit =>
    if 0 < hit.matchedTokens then
      { req with
        prefillPos := hit.matchedTokens
        state := if req.promptTokens.length ≤ hit.matchedTokens then .decode else .prefill }
    else req.startPrefill

theorem requestId_withHit : (req.withHit cacheHits).requestId = req.requestId := by
  unfold Request.withHit
  split
  · rfl
  · split <;> rfl

theorem admitRequest_fst (bm : BlockManager) (req : Request) :
    (admitRequest cacheHits bm req).1 = req.withHit cacheHits := by
  simp only [admitRequest, Request.withHit]
  cases cacheHits.find? (fun h => h.requestId = req.requestId) with
  | none => rfl
  | some hit =>
    dsimp only
    split <;> rfl

theorem foldl_admitEntry (entries : List QueueEntry) (running : List Request) (bm : BlockManager) :
    entries.foldl (admitEntry cacheHits) (running, bm) =
      (running ++ entries.map (fun e => e.request.withHit cacheHits),
        entries.foldl (fun bm e => (admitRequest cacheHits bm e.request).2) bm) := by
  induction entries generalizing running bm with
  | nil => rw [map_nil, append_nil]; rfl
  | cons e entries ih =>
    rw [foldl_cons, admitEntry, ih, admitRequest_fst, map_cons, append_assoc]
    rfl

namespace Scheduler

theorem new_spec {maxBatchSize maxTokensPerStep chunkSize : Nat} {useKvCache : Bool}
    {s : Scheduler heap}
    (h : Scheduler.new heap maxBatchSize maxTokensPerStep chunkSize useKvCache = .ok s) :
    s.config.useKvCache = useKvCache ∧ s.running = [] ∧ heap.items s.waiting = [] ∧
      s.requestCounter = 0 := by
  unfold Scheduler.new at h
  split at h
  · cases h
  · split at h
    · cases h
    · cases h
      exact ⟨rfl, rfl, heap.items_empty, rfl⟩

theorem recordToken_cases (req : Request) (tokenId : UInt32) :
    (recordToken req tokenId = ((req.appendToken tokenId).markFinished, true) ∧
      (req.maxTokens ≤ req.outputTokens.length + 1 ∨ tokenId ∈ req.stopTokenIds)) ∨
    (recordToken req tokenId = (req.appendToken tokenId, false) ∧
      req.outputTokens.length + 1 < req.maxTokens ∧ tokenId ∉ req.stopTokenIds) := by
  have hlen : (req.appendToken tokenId).outputTokens.length = req.outputTokens.length + 1 := by
    simp [Request.appendToken]
  have hmax : (req.appendToken tokenId).maxTokens = req.maxTokens := rfl
  have hstop : (req.appendToken tokenId).stopTokenIds = req.stopTokenIds := rfl
  simp only [recordToken, hlen, hmax, hstop]
  split
  · rename_i hfull
    exact .inl ⟨rfl, .inl hfull⟩
  · rename_i hroom
    split
    · rename_i hmem
      exact .inl ⟨rfl, .inr hmem⟩
    · rename_i hmem
      exact .inr ⟨rfl, by omega, hmem⟩

theorem requestId_recordToken (req : Request) (tokenId : UInt32) :
    (recordToken req tokenId).1.requestId = req.requestId := by
  rcases recordToken_cases req tokenId with ⟨heq, -⟩ | ⟨heq, -⟩
  · rw [heq]
    rfl
  · rw [heq]
    rfl

variable (s : Scheduler heap)

theorem waiting_recordOutput (rid : String) (tokenId : UInt32) :
    (s.recordOutput rid tokenId).2.waiting = s.waiting ∧
      (s.recordOutput rid tokenId).2.config = s.config := by
  unfold recordOutput
  split <;> exact ⟨rfl, rfl⟩

variable (bm : BlockManager)

theorem admitRequests_spec (cacheHits : List PrefixCacheHit) :
    ∃ entries, (heap.items s.waiting).Perm
        (entries ++ heap.items (s.admitRequests bm cacheHits).1.waiting) ∧
      (s.admitRequests bm cacheHits).1.running = s.running.filter (!·.isFinished) ++
        entries.map (fun e => e.request.withHit cacheHits) ∧
      (s.admitRequests bm cacheHits).2 = entries.foldl
        (fun bm e => (admitRequest cacheHits bm e.request).2) (reap s.running bm).2 ∧
      (s.admitRequests bm cacheHits).1.config = s.config ∧
      (heap.items (s.admitRequests bm cacheHits).1.waiting = [] ∨
        s.config.maxBatchSize ≤ (s.admitRequests bm cacheHits).1.running.length) := by
  obtain ⟨entries, hperm, hfold, hstop, -⟩ :=
    admitLoop_spec s.config.maxBatchSize cacheHits s.waiting
    (reap s.running bm).1 (reap s.running bm).2
  rw [foldl_admitEntry] at hfold
  exact ⟨entries, hperm, congrArg Prod.fst hfold, congrArg Prod.snd hfold, rfl, hstop⟩

def liveIds : List String :=
  s.running.map Request.requestId ++ (heap.items s.waiting).map fun e => e.request.requestId

theorem liveIds_schedule (cacheHits : List PrefixCacheHit) :
    (s.schedule bm cacheHits).2.1.liveIds.Subperm s.liveIds := by
  obtain ⟨entries, hperm, hrunning, -, -, -⟩ := s.admitRequests_spec bm cacheHits
  have hslots : ∀ slot ∈ (buildSlots (s.admitRequests bm cacheHits).1.config ⟨0, 0⟩
      (s.admitRequests bm cacheHits).1.running (s.admitRequests bm cacheHits).2).1,
      slot.after.requestId = slot.before.requestId := by
    intro slot hslot
    obtain ⟨_, _, turn, hturn, rfl⟩ := turned_of_mem_buildSlots _ _ _ _ slot hslot
    exact hturn.requestId_eq.1
  have hbatch : (s.schedule bm cacheHits).2.1.running.map Request.requestId =
      (s.running.filter (!·.isFinished)).map Request.requestId ++
        entries.map fun e => e.request.requestId := by
    show (map Slot.after _).map Request.requestId = _
    have hrenamed : (map (Request.requestId ∘ Slot.after) _) =
        map (Request.requestId ∘ Slot.before) _ := map_congr_left hslots
    rw [map_map, hrenamed, ← map_map, buildSlots_before, hrunning, map_append, map_map]
    exact congrArg _ (map_congr_left fun e _ => requestId_withHit cacheHits e.request)
  have hids : (s.schedule bm cacheHits).2.1.liveIds.Perm
      ((s.running.filter (!·.isFinished)).map Request.requestId ++
        (heap.items s.waiting).map fun e => e.request.requestId) := by
    rw [liveIds, hbatch, append_assoc, ← map_append]
    exact (hperm.map _).symm.append_left _
  refine hids.subperm.trans (List.Sublist.subperm ?_)
  exact (filter_sublist.map _).append_right _

theorem admitRequests_nil_spec : ∃ entries, (heap.items s.waiting).Perm
        (entries ++ heap.items (s.admitRequests bm []).1.waiting) ∧
      (s.admitRequests bm []).1.running = s.running.filter (!·.isFinished) ++
        entries.map (fun e => e.request.startPrefill) ∧
      (s.admitRequests bm []).2 = (reap s.running bm).2 ∧
      (s.admitRequests bm []).1.config = s.config := by
  obtain ⟨entries, hperm, hrunning, hpool, hconfig, -⟩ := s.admitRequests_spec bm []
  have hsame : entries.foldl (fun bm e => (admitRequest [] bm e.request).2) (reap s.running bm).2 =
      (reap s.running bm).2 := foldl_frame (g := id) fun _ _ => rfl
  exact ⟨entries, hperm, hrunning, hpool.trans hsame, hconfig⟩

end Scheduler

end CompileForge.Runtime
