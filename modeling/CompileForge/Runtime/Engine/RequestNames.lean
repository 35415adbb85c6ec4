/-
  Requests that share an id, and requests that do not.  Ids key the block tables, `record_output`
  and the reaping, and nobody checks them.
-/

import CompileForge.Runtime.Engine.RunnerStep

namespace CompileForge.Runtime

open Lib List

theorem updateFirst_eq_set {α : Type} {key : α → String} {f : α → α} {l : List α}
    (hnodup : (l.map key).Nodup) {i : Nat} {a : α} (ha : l[i]? = some a) :
    updateFirst (fun b => key b = key a) f l = l.set i (f a) := by
  induction l generalizing i with
  | nil => cases ha
  | cons b l ih =>
    rw [map_cons, nodup_cons] at hnodup
    rw [updateFirst]
    cases i with
    | zero =>
      obtain rfl : b = a := Option.some.inj ha
      rw [if_pos (decide_eq_true rfl), set_cons_zero]
    | succ =>
      have hmem : a ∈ l := mem_of_getElem? ha
      have hne : key b ≠ key a := fun heq =>
        hnodup.1 (heq ▸ mem_map_of_mem hmem)
      rw [if_neg (by simpa using hne), set_cons_succ, ih hnodup.2 ha]

variable {heap : MaxHeap QueueEntry QueueEntry.rank}

/-! ## A scheduler whose callers may choose ids -/

/-- A scheduler and its pool, with the ids its callers chose. -/
structure Registry (heap : MaxHeap QueueEntry QueueEntry.rank) where
  sched : Scheduler heap
  bm : BlockManager
  given : List String

namespace Registry

def start (sched : Scheduler heap) (bm : BlockManager) : Registry heap :=
  { sched, bm, given := [] }

variable (s : Registry heap)

/-- `add_request` takes an id that the caller gives as it is, and makes its own ids from a counter
    that does not know the given ones. -/
def apply : DriverEvent → Registry heap
  | .addRequest promptTokens priority maxTokens stopTokenIds requestId =>
    { s with
      sched := (s.sched.addRequest promptTokens priority maxTokens stopTokenIds requestId).2
      given := requestId.toList ++ s.given }
  | .schedule cacheHits =>
    { s with
      sched := (s.sched.schedule s.bm cacheHits).2.1
      bm := (s.sched.schedule s.bm cacheHits).2.2 }
  | .recordOutput requestId tokenId =>
    { s with sched := (s.sched.recordOutput requestId tokenId).2 }
  | .getFinishedRequest requestId =>
    { s with sched := (s.sched.getFinishedRequest requestId).2 }

def Step (e : DriverEvent) (s' : Registry heap) : Prop := s' = s.apply e

/-- A request is added under an id that no live request has. -/
def Apart : DriverEvent → Prop
  | .addRequest _ _ _ _ (some rid) => rid ∉ s.sched.liveIds
  | .addRequest _ _ _ _ none =>
    ∀ rid ∈ s.given, rid ∈ s.sched.liveIds → rid ≠ s!"req_{s.sched.requestCounter + 1}"
  | _ => True

instance : (e : DriverEvent) → Decidable (s.Apart e)
  | .addRequest _ _ _ _ (some rid) => inferInstanceAs (Decidable (rid ∉ s.sched.liveIds))
  | .addRequest _ _ _ _ none => inferInstanceAs (Decidable (∀ rid ∈ s.given, _ → _))
  | .schedule _ => isTrue trivial
  | .recordOutput _ _ => isTrue trivial
  | .getFinishedRequest _ => isTrue trivial

/-- Reaping leaves a request its table, and its blocks off the free list. -/
def Spared (rid : String) : Prop :=
  (Scheduler.reap s.sched.running s.bm).2.blockTables.lookup rid = s.bm.blockTables.lookup rid ∧
    ∀ b ∈ s.bm.table rid, (Scheduler.reap s.sched.running s.bm).2.freeBlocks.count b =
      s.bm.freeBlocks.count b

/-- Live requests do not touch each other. -/
structure Independent : Prop where
  distinct : s.sched.liveIds.Nodup
  /-- A token recorded for the `i`-th request is recorded for no other one. -/
  recorded : ∀ (i : Nat) (req : Request) (tokenId : UInt32), s.sched.running[i]? = some req →
    (s.sched.recordOutput req.requestId tokenId).2.running =
        s.sched.running.set i (Scheduler.recordToken req tokenId).1 ∧
      (s.sched.recordOutput req.requestId tokenId).2.waiting = s.sched.waiting
  sparedRunning : ∀ req ∈ s.sched.running, req.isFinished = false → s.Spared req.requestId
  sparedWaiting : ∀ entry ∈ heap.items s.sched.waiting, s.Spared entry.request.requestId

/-! ## The invariant -/

/-- Live ids are distinct, each given or generated, and the counters are the references. -/
structure Kept (held : Nat → Nat) (s : Registry heap) : Prop where
  distinct : s.sched.liveIds.Nodup
  named : ∀ rid ∈ s.sched.liveIds, rid ∈ s.given ∨ ∃ k ≤ s.sched.requestCounter, rid = s!"req_{k}"
  counted : s.bm.Counted fun b => s.bm.tableRefs b + held b

variable {held : Nat → Nat} {s : Registry heap}

theorem Kept.notMem_finished (h : s.Kept held) {rid : String}
    (hlive : (∃ req ∈ s.sched.running, req.isFinished = false ∧ req.requestId = rid) ∨
      ∃ entry ∈ heap.items s.sched.waiting, entry.request.requestId = rid) :
    rid ∉ (s.sched.running.filter (·.isFinished)).map Request.requestId := by
  intro hmem
  obtain ⟨done, hdone, hid⟩ := mem_map.1 hmem
  obtain ⟨hrunning, hfinished⟩ := mem_filter.1 hdone
  have hdistinct := h.distinct
  rw [Scheduler.liveIds, nodup_append] at hdistinct
  obtain ⟨hnodup, -, hdisjoint⟩ := hdistinct
  rcases hlive with ⟨req, hreq, hgoing, hname⟩ | ⟨entry, hentry, hname⟩
  · have hsame := inj_on_of_nodup_map hnodup hreq hrunning (hname.trans hid.symm)
    rw [hsame, hfinished] at hgoing
    cases hgoing
  · exact hdisjoint rid (hid ▸ mem_map_of_mem hrunning) rid
      (hname ▸ mem_map_of_mem (f := fun e : QueueEntry => e.request.requestId) hentry) rfl

theorem Kept.independent (h : s.Kept held) : s.Independent := by
  have hspared : ∀ rid,
      rid ∉ (s.sched.running.filter (·.isFinished)).map Request.requestId → s.Spared rid :=
    fun rid hrid => h.counted.foldl_free_other hrid
  refine ⟨h.distinct, fun i req tokenId hreq => ⟨?_, ?_⟩, fun req hreq hgoing => ?_,
    fun entry hentry => ?_⟩
  · rw [Driver.running_recordOutput]
    exact updateFirst_eq_set (nodup_append.1 h.distinct).1 hreq
  · exact (Scheduler.waiting_recordOutput s.sched req.requestId tokenId).1
  · exact hspared _ (h.notMem_finished (.inl ⟨req, hreq, hgoing, rfl⟩))
  · exact hspared _ (h.notMem_finished (.inr ⟨entry, hentry, rfl⟩))

/-! ## Steps -/

variable {bm : BlockManager} {e : DriverEvent}

theorem counted_admitRequest
    (hc : bm.Counted fun b => bm.tableRefs b + held b) (cacheHits : List PrefixCacheHit)
    (req : Request) : (admitRequest cacheHits bm req).2.Counted
      fun b => (admitRequest cacheHits bm req).2.tableRefs b + held b := by
  unfold admitRequest
  dsimp only
  split
  · exact hc
  · split
    · exact hc.assignCachedBlocks _ _
    · exact hc

theorem counted_schedule
    (hc : bm.Counted fun b => bm.tableRefs b + held b) (sched : Scheduler heap)
    (cacheHits : List PrefixCacheHit) : (sched.schedule bm cacheHits).2.2.Counted
      fun b => (sched.schedule bm cacheHits).2.2.tableRefs b + held b := by
  obtain ⟨entries, -, -, hpool, -, -⟩ := sched.admitRequests_spec bm cacheHits
  have hadmitted : ∀ (entries : List QueueEntry) (bm : BlockManager),
      bm.Counted (fun b => bm.tableRefs b + held b) →
      (entries.foldl (fun bm e => (admitRequest cacheHits bm e.request).2) bm).Counted fun b =>
        (entries.foldl (fun bm e => (admitRequest cacheHits bm e.request).2) bm).tableRefs b +
          held b := by
    intro entries
    induction entries with
    | nil => exact fun bm hc => hc
    | cons e entries ih => exact fun bm hc => ih _ (counted_admitRequest hc cacheHits e.request)
  have hbefore : (sched.admitRequests bm cacheHits).2.Counted
      fun b => (sched.admitRequests bm cacheHits).2.tableRefs b + held b := by
    rw [hpool]
    exact hadmitted entries _ (hc.foldl_free _)
  exact buildSlots_invariant (I := fun bm => bm.Counted fun b => bm.tableRefs b + held b)
    (fun _ _ _ _ hbm hturn => hturn.grows.counted hbm) hbefore

theorem liveIds_addRequest (sched : Scheduler heap) (promptTokens : List UInt32) (priority : Int)
    (maxTokens : Nat) (stopTokenIds : List UInt32) (requestId : Option String) :
    (sched.addRequest promptTokens priority maxTokens stopTokenIds requestId).2.liveIds.Perm
      ((sched.addRequest promptTokens priority maxTokens stopTokenIds requestId).1 ::
        sched.liveIds) := by
  have hpush : ∀ entry, ((heap.items (heap.push sched.waiting entry)).map
      fun e => e.request.requestId).Perm
        (entry.request.requestId :: (heap.items sched.waiting).map fun e => e.request.requestId) :=
    fun entry => (heap.items_push sched.waiting entry).map _
  cases requestId with
  | none => exact ((hpush _).append_left _).trans perm_middle
  | some => exact ((hpush _).append_left _).trans perm_middle

theorem Kept.apply (h : s.Kept held) (hapart : s.Apart e) :
    (s.apply e).Kept held := by
  cases e with
  | addRequest promptTokens priority maxTokens stopTokenIds requestId =>
    have hperm := liveIds_addRequest s.sched promptTokens priority maxTokens stopTokenIds
      requestId
    cases requestId with
    | some rid =>
      refine ⟨hperm.nodup_iff.2 (nodup_cons.2 ⟨hapart, h.distinct⟩),
        fun other hother => ?_, h.counted⟩
      rcases mem_cons.1 (hperm.mem_iff.1 hother) with rfl | hold
      · exact .inl mem_cons_self
      · exact (h.named other hold).imp_left (mem_cons_of_mem rid)
    | none =>
      have hnew : s!"req_{s.sched.requestCounter + 1}" ∉ s.sched.liveIds := by
        intro hmem
        rcases h.named _ hmem with hgiven | ⟨k, hk, hname⟩
        · exact hapart _ hgiven hmem rfl
        · -- the counter has not been there before
          have hsame := request_name_inj hname
          omega
      refine ⟨hperm.nodup_iff.2 (nodup_cons.2 ⟨hnew, h.distinct⟩),
        fun other hother => ?_, h.counted⟩
      rcases mem_cons.1 (hperm.mem_iff.1 hother) with rfl | hold
      · exact .inr ⟨_, Nat.le_refl _, rfl⟩
      · exact (h.named other hold).imp_right
          fun ⟨k, hk, hname⟩ => ⟨k, Nat.le_succ_of_le hk, hname⟩
  | schedule cacheHits =>
    obtain ⟨ids, hperm, hsub⟩ := s.sched.liveIds_schedule s.bm cacheHits
    refine ⟨hperm.nodup_iff.1 (h.distinct.sublist hsub), fun rid hrid => ?_,
      counted_schedule h.counted s.sched cacheHits⟩
    exact h.named rid (hsub.subset (hperm.mem_iff.2 hrid))
  | recordOutput rid tokenId =>
    have hids : (s.apply (.recordOutput rid tokenId)).sched.liveIds = s.sched.liveIds := by
      show (s.sched.recordOutput rid tokenId).2.liveIds = _
      rw [Scheduler.liveIds, Driver.running_recordOutput,
        (Scheduler.waiting_recordOutput s.sched rid tokenId).1,
        InferenceRunner.map_requestId_updateFirst]
      rfl
    have hcounter : (s.apply (.recordOutput rid tokenId)).sched.requestCounter =
        s.sched.requestCounter := by
      show (s.sched.recordOutput rid tokenId).2.requestCounter = _
      unfold Scheduler.recordOutput
      split <;> rfl
    refine ⟨hids ▸ h.distinct, fun other hother => ?_, h.counted⟩
    rw [hcounter]
    exact h.named other (hids ▸ hother)
  | getFinishedRequest rid =>
    have hsub : (s.apply (.getFinishedRequest rid)).sched.liveIds.Sublist s.sched.liveIds :=
      (eraseP_sublist.map Request.requestId).append_right _
    exact ⟨h.distinct.sublist hsub, fun other hother => h.named other (hsub.subset hother),
      h.counted⟩

/-- Where all ids are still distinct after a call, it took no live id. -/
theorem apart_of_independent (h : (s.apply e).Independent) : s.Apart e := by
  cases e with
  | addRequest promptTokens priority maxTokens stopTokenIds requestId =>
    have hperm := liveIds_addRequest s.sched promptTokens priority maxTokens stopTokenIds
      requestId
    have hnew := (nodup_cons.1 (hperm.nodup_iff.1 h.distinct)).1
    cases requestId with
    | some => exact hnew
    | none =>
      rintro rid - hlive rfl
      exact hnew hlive
  | schedule => trivial
  | recordOutput => trivial
  | getFinishedRequest => trivial

end Registry

/-- Live requests are independent throughout exactly if no call took a live id. -/
theorem independent_iff_of_run {maxBatchSize maxTokensPerStep chunkSize : Nat} {useKvCache : Bool}
    {sched : Scheduler heap} {bm : BlockManager} {held : Nat → Nat} {s : Registry heap}
    {events : List DriverEvent}
    (hnew : Scheduler.new heap maxBatchSize maxTokensPerStep chunkSize useKvCache = .ok sched)
    (hpool : bm.Exact held) :
    Run (fun m e m' => m'.Independent ∧ m.Step e m') (.start sched bm) events s ↔
      Run (fun m e m' => m.Apart e ∧ m.Step e m') (.start sched bm) events s := by
  obtain ⟨-, hrunning, hempty, -⟩ := Scheduler.new_spec hnew
  have hnone : sched.liveIds = [] := by rw [Scheduler.liveIds, hrunning, hempty]; rfl
  have hstart : (Registry.start sched bm).Kept held := by
    refine ⟨?_, fun rid hrid => ?_, Balanced.toCounted hpool⟩
    · show sched.liveIds.Nodup
      rw [hnone]
      exact nodup_nil
    · have hrid : rid ∈ sched.liveIds := hrid
      rw [hnone] at hrid
      cases hrid
  constructor
  · intro hrun
    refine hrun.mono_of_invariant hstart fun m e m' hm hstep => ?_
    obtain ⟨hindependent, rfl⟩ := hstep
    have hapart := Registry.apart_of_independent hindependent
    exact ⟨hm.apply hapart, hapart, rfl⟩
  · intro hrun
    refine hrun.mono_of_invariant hstart fun m e m' hm hstep => ?_
    obtain ⟨hapart, rfl⟩ := hstep
    have hkept := hm.apply hapart
    exact ⟨hkept, hkept.independent, rfl⟩

/-! ## Given and generated ids -/

/-- A given and a generated id, and the given one again once its request is gone. -/
def apartCalls : List DriverEvent :=
  [.addRequest [1] 0 1 [] (some "a"), .addRequest [2] 1 4 [] none, .schedule [],
    .recordOutput "a" 5, .schedule [], .addRequest [3] 2 4 [] (some "a"), .schedule []]

/-- A given id that the counter reaches while its request is live. -/
def collidingCalls : List DriverEvent :=
  [.addRequest [1] 0 1 [] (some "req_1"), .addRequest [2] 1 4 [] none, .schedule [],
    .recordOutput "req_1" 5]

theorem independent_iff_of_run_witness :
    ∃ sched bm s, Scheduler.new listHeap 2 8 2 true = .ok sched ∧ BlockManager.new 4 2 = .ok bm ∧
      Run (fun m e m' => m.Apart e ∧ Registry.Step m e m') (.start sched bm) apartCalls s ∧
      s.sched.liveIds = ["req_1", "a"] ∧
      (Run (fun m e m' => m'.Independent ∧ Registry.Step m e m') (.start sched bm) apartCalls s ↔
        Run (fun m e m' => m.Apart e ∧ Registry.Step m e m') (.start sched bm) apartCalls s) := by
  obtain ⟨sched, hsched⟩ : ∃ sched, Scheduler.new listHeap 2 8 2 true = .ok sched := ⟨_, rfl⟩
  obtain ⟨bm, hbm⟩ : ∃ bm, BlockManager.new 4 2 = .ok bm := ⟨_, rfl⟩
  have henabled : Enabled Registry.Apart Registry.apply (.start sched bm) apartCalls := by
    cases hsched
    cases hbm
    decide +kernel
  have hrun : Run (fun m e m' => m.Apart e ∧ Registry.Step m e m') (.start sched bm) apartCalls _ :=
    Run.of_enabled (fun _ _ h => ⟨h, rfl⟩) henabled
  refine ⟨sched, bm, _, hsched, hbm, hrun, ?_,
    independent_iff_of_run hsched (BlockManager.Fresh.exact (.inl ⟨4, 2, hbm⟩))⟩
  cases hsched
  cases hbm
  decide +kernel

/-- The caller's `req_1` and the generated one are live together, and share their fate. -/
theorem independent_fails :
    ∃ sched bm s, Scheduler.new listHeap 2 8 2 true = .ok sched ∧ BlockManager.new 4 2 = .ok bm ∧
      Run Registry.Step (.start sched bm) collidingCalls s ∧
      s.sched.running.map (fun req => (req.requestId, req.outputTokens, req.isFinished)) =
        [("req_1", [5], true), ("req_1", [], false)] ∧
      s.bm.table "req_1" = [3] ∧
      (Scheduler.reap s.sched.running s.bm).2.table "req_1" = [] ∧
      3 ∈ (Scheduler.reap s.sched.running s.bm).2.freeBlocks ∧
      ¬ s.Independent := by
  obtain ⟨sched, hsched⟩ : ∃ sched, Scheduler.new listHeap 2 8 2 true = .ok sched := ⟨_, rfl⟩
  obtain ⟨bm, hbm⟩ : ∃ bm, BlockManager.new 4 2 = .ok bm := ⟨_, rfl⟩
  have hrunning : (collidingCalls.foldl Registry.apply (.start sched bm)).sched.running.map
      (fun req => (req.requestId, req.outputTokens, req.isFinished)) =
        [("req_1", [5], true), ("req_1", [], false)] := by
    cases hsched
    cases hbm
    decide +kernel
  refine ⟨sched, bm, _, hsched, hbm, Run.of_foldl Registry.apply _ collidingCalls, hrunning,
    ?_, ?_, ?_, fun h => ?_⟩
  · cases hsched
    cases hbm
    decide +kernel
  · cases hsched
    cases hbm
    decide +kernel
  · cases hsched
    cases hbm
    decide +kernel
  · have hids : (collidingCalls.foldl Registry.apply (.start sched bm)).sched.running.map
        Request.requestId = ["req_1", "req_1"] := by
      have hfirst := congrArg (map Prod.fst) hrunning
      rwa [map_map] at hfirst
    have hnodup := (nodup_append.1 h.distinct).1
    rw [hids] at hnodup
    exact absurd hnodup (by decide)

end CompileForge.Runtime
