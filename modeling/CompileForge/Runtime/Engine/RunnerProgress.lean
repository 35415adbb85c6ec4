/-
  Whether the loop of `generate_request` ends.  A step that neither fails nor panics uses up
  work, or does nothing at all: then the runner is `Starved`, it stays as it is, and the loop
  turns for ever.
-/

import CompileForge.Runtime.Engine.RunnerRelease

namespace CompileForge.Runtime

open Lib List

/-! ## Work -/

/-- An upper bound for the turns a request still needs. -/
def Request.work (req : Request) : Nat :=
  match req.state with
  | .waiting => 3 + req.tokensRemaining + (req.maxTokens + 1 - req.outputTokens.length)
  | .prefill => 2 + req.tokensRemaining + (req.maxTokens + 1 - req.outputTokens.length)
  | .decode => 1 + (req.maxTokens + 1 - req.outputTokens.length)
  | .finished => 0

/-- Work is used up by admitting a request, moving a prompt cursor or recording a token. -/
def totalWork (requests : List Request) : Nat := (requests.map Request.work).sum

theorem totalWork_append (l l' : List Request) :
    totalWork (l ++ l') = totalWork l + totalWork l' := by
  unfold totalWork
  rw [map_append, sum_append]

section States

variable {req : Request}

theorem work_of_waiting (h : req.state = .waiting) : req.work =
    3 + req.tokensRemaining + (req.maxTokens + 1 - req.outputTokens.length) := by
  unfold Request.work
  rw [h]

theorem work_of_prefill (h : req.state = .prefill) : req.work =
    2 + req.tokensRemaining + (req.maxTokens + 1 - req.outputTokens.length) := by
  unfold Request.work
  rw [h]

theorem work_of_decode (h : req.state = .decode) :
    req.work = 1 + (req.maxTokens + 1 - req.outputTokens.length) := by
  unfold Request.work
  rw [h]

theorem work_startPrefill (h : req.state = .waiting) : req.startPrefill.work + 1 = req.work := by
  have hstarted : req.startPrefill.work =
      2 + req.tokensRemaining + (req.maxTokens + 1 - req.outputTokens.length) :=
    work_of_prefill rfl
  rw [hstarted, work_of_waiting h]
  omega

end States

section Turn

variable {cfg : SchedulerConfig} {budget : Budget} {req : Request} {bm : BlockManager} {turn : Turn}

theorem work_advance (hstate : req.state = .prefill) {n : Nat} (hpos : 0 < n)
    (hle : n ≤ req.tokensRemaining) : (req.advance n).work < req.work := by
  have hmoved : (req.advance n).work = 2 + (req.promptTokens.length - (req.prefillPos + n)) +
      (req.maxTokens + 1 - req.outputTokens.length) := work_of_prefill hstate
  rw [hmoved, work_of_prefill hstate]
  unfold Request.tokensRemaining at hle ⊢
  omega

theorem work_settlePrefill (hstate : req.state = .prefill) : req.settlePrefill.work ≤ req.work := by
  unfold Request.settlePrefill
  split
  · have hflipped : ({ req with state := .decode } : Request).work =
        1 + (req.maxTokens + 1 - req.outputTokens.length) := work_of_decode rfl
    rw [hflipped, work_of_prefill hstate]
    omega
  · exact Nat.le_refl _

theorem chunkLen_le_remaining (cfg : SchedulerConfig) (budget : Budget) (req : Request) :
    chunkLen cfg budget req ≤ req.tokensRemaining := by
  unfold chunkLen
  omega

theorem Turned.work_le (h : Turned cfg budget req bm turn) :
    turn.slot.after.work ≤ req.work ∧
      (req.state = .prefill → budget.totalPrefillTokens < cfg.maxTokensPerStep →
        turn.slot.after.work < req.work) := by
  cases h with
  | exhausted hstate hrest =>
    have hflipped : ({ req with state := .decode } : Request).work =
        1 + (req.maxTokens + 1 - req.outputTokens.length) := work_of_decode rfl
    have hlt : ({ req with state := .decode } : Request).work < req.work := by
      rw [hflipped, work_of_prefill hstate]
      omega
    exact ⟨le_of_lt hlt, fun _ _ => hlt⟩
  | promptUnreserved hstate hrest hbudget =>
    have hlt := work_advance hstate (chunkLen_pos hrest hbudget)
      (chunkLen_le_remaining cfg budget req)
    exact ⟨le_of_lt hlt, fun _ _ => hlt⟩
  | chunk hstate hrest hbudget =>
    have hmoved : (req.advance (chunkLen cfg budget req)).state = .prefill := hstate
    have hlt := lt_of_le_of_lt (work_settlePrefill hmoved)
      (work_advance hstate (chunkLen_pos hrest hbudget) (chunkLen_le_remaining cfg budget req))
    exact ⟨le_of_lt hlt, fun _ _ => hlt⟩
  | idle hprefill => exact ⟨Nat.le_refl _, fun hstate => absurd hstate hprefill⟩
  | noPrefillBudget hstate hrest hbudget =>
    exact ⟨Nat.le_refl _, fun _ hlt => absurd hlt (not_lt.2 hbudget)⟩
  | noDecodeBudget hstate => exact ⟨Nat.le_refl _, fun h => by rw [hstate] at h; cases h⟩
  | tableUngrown hstate => exact ⟨Nat.le_refl _, fun h => by rw [hstate] at h; cases h⟩
  | noTable hstate => exact ⟨Nat.le_refl _, fun h => by rw [hstate] at h; cases h⟩
  | decodeCached hstate => exact ⟨Nat.le_refl _, fun h => by rw [hstate] at h; cases h⟩
  | decodeFull hstate => exact ⟨Nat.le_refl _, fun h => by rw [hstate] at h; cases h⟩

theorem Turned.totalPrefillTokens_eq (h : Turned cfg budget req bm turn)
    (hstate : req.state ≠ .prefill) :
    turn.budget.totalPrefillTokens = budget.totalPrefillTokens := by
  cases h with
  | chunk hprefill => exact absurd hprefill hstate
  | _ => rfl

end Turn

section Slots

variable {cfg : SchedulerConfig} {budget : Budget} {running : List Request} {bm : BlockManager}

theorem buildSlots_work_le (cfg : SchedulerConfig) (budget : Budget) (running : List Request)
    (bm : BlockManager) :
    totalWork ((buildSlots cfg budget running bm).1.map Slot.after) ≤ totalWork running := by
  induction running generalizing budget bm with
  | nil => exact Nat.le_refl _
  | cons req rest ih =>
    have hturn := (buildSlot_turned cfg budget req bm).work_le.1
    have hrest := ih (buildSlot cfg budget req bm).budget (buildSlot cfg budget req bm).bm
    unfold totalWork at hrest ⊢
    rw [buildSlots, map_cons, map_cons, map_cons, sum_cons, sum_cons]
    omega

theorem buildSlots_work_lt (bm : BlockManager) (hperStep : 0 < cfg.maxTokensPerStep)
    (hbudget : budget.totalPrefillTokens = 0) {req : Request} (hmem : req ∈ running)
    (hstate : req.state = .prefill) :
    totalWork ((buildSlots cfg budget running bm).1.map Slot.after) < totalWork running := by
  induction running generalizing budget bm with
  | nil => cases hmem
  | cons head rest ih =>
    have hturned := buildSlot_turned cfg budget head bm
    obtain ⟨hle, hlt⟩ := hturned.work_le
    have hrest := buildSlots_work_le cfg (buildSlot cfg budget head bm).budget rest
      (buildSlot cfg budget head bm).bm
    by_cases hhead : head.state = .prefill
    · have hhead := hlt hhead (by omega)
      unfold totalWork at hrest ⊢
      rw [buildSlots, map_cons, map_cons, map_cons, sum_cons, sum_cons]
      omega
    · have hlater : req ∈ rest := by
        rcases mem_cons.1 hmem with rfl | hlater
        · exact absurd hstate hhead
        · exact hlater
      have hsame := hturned.totalPrefillTokens_eq hhead
      have hrest := ih (buildSlot cfg budget head bm).bm (hsame.trans hbudget) hlater
      unfold totalWork at hrest ⊢
      rw [buildSlots, map_cons, map_cons, map_cons, sum_cons, sum_cons]
      omega

end Slots

/-! ## Decode steps without blocks -/

/-- A decode step for which no blocks can be had. -/
def Blocked (cfg : SchedulerConfig) (bm : BlockManager) (req : Request) : Prop :=
  if cfg.useKvCache then
    ∃ e, (bm.ensureBlocks req.requestId
      (req.promptTokens.length + req.outputTokens.length + 1)).1 = .error e
  else req.requestId ∉ bm.blockTables

instance decidableIsError {ε α : Type} : ∀ x : Except ε α, Decidable (∃ e, x = .error e)
  | .error e => isTrue ⟨e, rfl⟩
  | .ok _ => isFalse fun ⟨_, h⟩ => nomatch h

instance decidableBlocked (cfg : SchedulerConfig) (bm : BlockManager) (req : Request) :
    Decidable (Blocked cfg bm req) :=
  inferInstanceAs (Decidable (if cfg.useKvCache then
    ∃ e, (bm.ensureBlocks req.requestId
      (req.promptTokens.length + req.outputTokens.length + 1)).1 = .error e
  else req.requestId ∉ bm.blockTables))

section Decode

variable {cfg : SchedulerConfig} {budget : Budget} {req : Request} {bm : BlockManager} {turn : Turn}
  {running : List Request}

theorem Turned.decode_cases (h : Turned cfg budget req bm turn) (hstate : req.state = .decode)
    (hroom : budget.totalPrefillTokens + budget.numDecode + 1 ≤ cfg.maxTokensPerStep) :
    turn.budget = { budget with numDecode := budget.numDecode + 1 } ∧ turn.slot.after = req ∧
      ((Blocked cfg bm req ∧ turn.slot.scheduled? = none ∧ turn.bm = bm) ∨
        (¬ Blocked cfg bm req ∧ ∃ sr, turn.slot.scheduled? = some sr ∧ sr.state = .decode)) := by
  cases h with
  | idle hprefill hdecode => exact absurd hstate hdecode
  | exhausted hprefill => rw [hstate] at hprefill; cases hprefill
  | noPrefillBudget hprefill => rw [hstate] at hprefill; cases hprefill
  | promptUnreserved hprefill => rw [hstate] at hprefill; cases hprefill
  | chunk hprefill => rw [hstate] at hprefill; cases hprefill
  | noDecodeBudget _ hbudget => exact absurd hroom (not_le.2 hbudget)
  | tableUngrown _ _ hkv hoom =>
    refine ⟨rfl, rfl, .inl ⟨?_, rfl, rfl⟩⟩
    rw [Blocked, if_pos hkv, hoom]
    exact ⟨_, rfl⟩
  | noTable _ _ hkv hnone =>
    refine ⟨rfl, rfl, .inl ⟨?_, rfl, rfl⟩⟩
    rw [Blocked, hkv, if_neg (by decide), ← AList.lookup_isSome, hnone]
    exact nofun
  | decodeCached _ _ hkv hreserve =>
    refine ⟨rfl, rfl, .inr ⟨fun hblocked => ?_, _, rfl, ?_⟩⟩
    · rw [Blocked, if_pos hkv, hreserve] at hblocked
      obtain ⟨e, heq⟩ := hblocked
      cases heq
    · exact hstate
  | decodeFull _ _ hkv htable =>
    refine ⟨rfl, rfl, .inr ⟨fun hblocked => ?_, _, rfl, ?_⟩⟩
    · rw [Blocked, hkv, if_neg (by decide), ← AList.lookup_isSome, htable] at hblocked
      exact hblocked rfl
    · exact hstate

theorem Turned.decode_beyond (h : Turned cfg budget req bm turn) (hstate : req.state = .decode)
    (hfull : cfg.maxTokensPerStep < budget.totalPrefillTokens + budget.numDecode + 1) :
    turn = ⟨⟨req, req, .skipped .noBudget⟩, budget, bm⟩ := by
  cases h with
  | idle hprefill hdecode => exact absurd hstate hdecode
  | exhausted hprefill => rw [hstate] at hprefill; cases hprefill
  | noPrefillBudget => rfl
  | promptUnreserved hprefill => rw [hstate] at hprefill; cases hprefill
  | chunk hprefill => rw [hstate] at hprefill; cases hprefill
  | noDecodeBudget => rfl
  | tableUngrown _ hroom => exact absurd hroom (not_le.2 hfull)
  | noTable _ hroom => exact absurd hroom (not_le.2 hfull)
  | decodeCached _ hroom => exact absurd hroom (not_le.2 hfull)
  | decodeFull _ hroom => exact absurd hroom (not_le.2 hfull)

/-- If the requests the budget reaches are blocked, the loop does nothing. -/
theorem buildSlots_blocked (budget : Budget) (hdecode : ∀ req ∈ running, req.state = .decode)
    (hblocked : ∀ req ∈ running.take
      (cfg.maxTokensPerStep - (budget.totalPrefillTokens + budget.numDecode)),
      Blocked cfg bm req) :
    (buildSlots cfg budget running bm).2 = bm ∧
      (buildSlots cfg budget running bm).1.map Slot.after = running ∧
      (buildSlots cfg budget running bm).1.filterMap Slot.scheduled? = [] := by
  induction running generalizing budget with
  | nil => exact ⟨rfl, rfl, rfl⟩
  | cons req rest ih =>
    have hstate := hdecode req mem_cons_self
    have hrest : ∀ r ∈ rest, r.state = .decode := fun r hr =>
      hdecode r (mem_cons_of_mem req hr)
    have hturned := buildSlot_turned cfg budget req bm
    rw [buildSlots]
    by_cases hroom : budget.totalPrefillTokens + budget.numDecode + 1 ≤ cfg.maxTokensPerStep
    · obtain ⟨k, hk⟩ : ∃ k, cfg.maxTokensPerStep -
          (budget.totalPrefillTokens + budget.numDecode) = k + 1 :=
        Nat.exists_eq_succ_of_ne_zero (by omega)
      rw [hk, take_succ_cons] at hblocked
      obtain ⟨hbudget, hafter, ⟨-, hnone, hbm⟩ | ⟨hfree, -⟩⟩ := hturned.decode_cases hstate hroom
      · have hnext := ih (buildSlot cfg budget req bm).budget hrest (by
          rw [hbudget]
          show ∀ r ∈ rest.take (cfg.maxTokensPerStep -
            (budget.totalPrefillTokens + (budget.numDecode + 1))), _
          have hk' : cfg.maxTokensPerStep -
              (budget.totalPrefillTokens + (budget.numDecode + 1)) = k := by omega
          rw [hk']
          exact fun r hr => hblocked r (mem_cons_of_mem req hr))
        dsimp only
        rw [hbm, map_cons, filterMap_cons_none hnone, hafter, hnext.2.1]
        exact ⟨hnext.1, rfl, hnext.2.2⟩
      · exact absurd (hblocked req mem_cons_self) hfree
    · -- no budget for this request, nor for the rest
      have hskip := hturned.decode_beyond hstate (not_le.1 hroom)
      have hzero : cfg.maxTokensPerStep -
          (budget.totalPrefillTokens + budget.numDecode) = 0 := by omega
      have hnext := ih budget hrest (by
        rw [hzero, take_zero]
        exact fun r hr => absurd hr not_mem_nil)
      rw [hskip]
      refine ⟨hnext.1, ?_, hnext.2.2⟩
      rw [map_cons, hnext.2.1]

/-- If a request the budget reaches is not blocked, something is scheduled. -/
theorem buildSlots_unblocked (budget : Budget) (hdecode : ∀ req ∈ running, req.state = .decode)
    {req : Request} (hmem : req ∈ running.take
      (cfg.maxTokensPerStep - (budget.totalPrefillTokens + budget.numDecode)))
    (hfree : ¬ Blocked cfg bm req) :
    ∃ sr rest, (buildSlots cfg budget running bm).1.filterMap Slot.scheduled? = sr :: rest ∧
      sr.state = .decode := by
  induction running generalizing budget with
  | nil =>
    rw [take_nil] at hmem
    cases hmem
  | cons head rest ih =>
    have hstate := hdecode head mem_cons_self
    have hturned := buildSlot_turned cfg budget head bm
    by_cases hroom : budget.totalPrefillTokens + budget.numDecode + 1 ≤ cfg.maxTokensPerStep
    · obtain ⟨k, hk⟩ : ∃ k, cfg.maxTokensPerStep -
          (budget.totalPrefillTokens + budget.numDecode) = k + 1 :=
        Nat.exists_eq_succ_of_ne_zero (by omega)
      rw [hk, take_succ_cons] at hmem
      rw [buildSlots]
      obtain ⟨hbudget, -, ⟨hhead, hnone, hbm⟩ | ⟨-, sr, hsome, hsr⟩⟩ :=
        hturned.decode_cases hstate hroom
      · have hlater : req ∈ rest.take k := by
          rcases mem_cons.1 hmem with rfl | hlater
          · exact absurd hhead hfree
          · exact hlater
        have hk' : cfg.maxTokensPerStep -
            (budget.totalPrefillTokens + (budget.numDecode + 1)) = k := by omega
        have hnext := ih (buildSlot cfg budget head bm).budget
          (fun r hr => hdecode r (mem_cons_of_mem head hr)) (by
            rw [hbudget]
            show req ∈ rest.take (cfg.maxTokensPerStep -
              (budget.totalPrefillTokens + (budget.numDecode + 1)))
            rw [hk']
            exact hlater)
        dsimp only
        rw [hbm, filterMap_cons_none hnone]
        exact hnext
      · exact ⟨sr, _, filterMap_cons_some hsome, hsr⟩
    · have hzero : cfg.maxTokensPerStep -
          (budget.totalPrefillTokens + budget.numDecode) = 0 := by omega
      rw [hzero, take_zero] at hmem
      cases hmem

end Decode

end CompileForge.Runtime
