/-
  The order in which `schedule` admits requests.  A request of smaller priority value never waits
  behind one of a larger, but among equals the heap decides: the order is first come, first served
  only where no two equals compete for a place.
-/

import CompileForge.Runtime.Engine.StepBudget

namespace CompileForge.Runtime

open Lib List

variable {heap : MaxHeap QueueEntry QueueEntry.rank}

/-- `a` leaves the queue rightly before `b`: it outranks `b`, or ties and was added first. -/
def AdmittedBefore (added : List String) (a b : Request) : Prop :=
  a.priority < b.priority ∨ a.priority = b.priority ∧
    ∃ i j : Nat, i < j ∧ added[i]? = some a.requestId ∧ added[j]? = some b.requestId

/-- Those admitted are in order, and all of them before those left. -/
def InOrder (added : List String) (admitted left : List Request) : Prop :=
  admitted.Pairwise (AdmittedBefore added) ∧ ∀ a ∈ admitted, ∀ b ∈ left, AdmittedBefore added a b

/-! ## Ties -/

variable (s : Scheduler heap)

def waitingRequests : List Request :=
  (heap.items s.waiting).map QueueEntry.request

/-- The queue hands out a maximum of `Ord for QueueEntry`, which compares priorities and nothing
    else. -/
def admittedRequests (bm : BlockManager) (cacheHits : List PrefixCacheHit) : List Request :=
  (s.admitRequests bm cacheHits).1.running.drop (s.running.filter (!·.isFinished)).length

/-- Where two waiting requests tie, those that outrank them fill the batch. -/
def TiesWait : Prop :=
  ∀ p : Int, 2 ≤ (waitingRequests s).countP (fun r => r.priority = p) →
    s.config.maxBatchSize ≤ (s.running.filter (!·.isFinished)).length +
      (waitingRequests s).countP fun r => r.priority < p

/-- The queue is sorted by the priorities of its requests. -/
def Labelled : Prop :=
  ∀ e ∈ heap.items s.waiting, e.priority = e.request.priority

theorem withHit_priority (cacheHits : List PrefixCacheHit) (req : Request) :
    (req.withHit cacheHits).priority = req.priority ∧
      (req.withHit cacheHits).requestId = req.requestId := by
  unfold Request.withHit
  split
  · exact ⟨rfl, rfl⟩
  · split
    · exact ⟨rfl, rfl⟩
    · exact ⟨rfl, rfl⟩

theorem pairwise_of_splits {α : Type} {R : α → α → Prop} {l : List α}
    (h : ∀ before a after, l = before ++ a :: after → ∀ b ∈ after, R a b) : l.Pairwise R := by
  induction l with
  | nil => exact .nil
  | cons a l ih =>
    refine pairwise_cons.2 ⟨h [] a l rfl, ih fun before c after heq => ?_⟩
    exact h (a :: before) c after (by rw [heq]; rfl)

theorem TiesWait.outranks {s : Scheduler heap} (hties : TiesWait s) {before rest : List Request}
    {a b : Request} {places : Nat} (hperm : (waitingRequests s).Perm (before ++ a :: rest))
    (hplaces : (s.running.filter (!·.isFinished)).length + places ≤ s.config.maxBatchSize)
    (hbefore : before.length < places) (hbehind : ∀ c ∈ rest, a.priority ≤ c.priority)
    (hb : b ∈ rest) : a.priority < b.priority := by
  rcases Int.lt_or_eq_of_le (hbehind b hb) with hlt | heq
  · exact hlt
  · exfalso
    -- the tie counts twice, so that the places go to requests before `a`
    have htwo : 2 ≤ (waitingRequests s).countP fun r => r.priority = a.priority := by
      rw [hperm.countP_eq, countP_append,
        countP_cons_of_pos (p := fun r : Request => r.priority = a.priority)
          (decide_eq_true rfl)]
      have hpos : 0 < rest.countP fun r => r.priority = a.priority :=
        countP_pos_iff.2 ⟨b, hb, decide_eq_true heq.symm⟩
      omega
    have hfull := hties a.priority htwo
    have hcount : ((waitingRequests s).countP fun r => r.priority < a.priority) ≤
        before.length := by
      rw [hperm.countP_eq, countP_append]
      have hzero : ((a :: rest).countP fun r => r.priority < a.priority) = 0 := by
        refine countP_eq_zero.2 fun c hc => ?_
        rw [decide_eq_true_eq]
        rcases mem_cons.1 hc with rfl | hc
        · exact Int.lt_irrefl _
        · exact Int.not_lt.2 (hbehind c hc)
      have hle := countP_le_length (p := fun r : Request => r.priority < a.priority)
        (l := before)
      omega
    omega

theorem inOrder_of_tiesWait {s : Scheduler heap} (hlabel : Labelled s) (hties : TiesWait s)
    (added : List String) (bm : BlockManager) (cacheHits : List PrefixCacheHit) :
    InOrder added (admittedRequests s bm cacheHits)
      (waitingRequests (s.admitRequests bm cacheHits).1) := by
  obtain ⟨entries, hperm, hfold, -, hplaces, hsorted, hleft⟩ := admitLoop_spec
    s.config.maxBatchSize cacheHits s.waiting (Scheduler.reap s.running bm).1
    (Scheduler.reap s.running bm).2
  have hlabelled : ∀ e, e ∈ entries ∨ e ∈ heap.items (s.admitRequests bm cacheHits).1.waiting →
      e.priority = e.request.priority := fun e he =>
    hlabel e (hperm.mem_iff.2 (mem_append.2 he))
  have hadmitted : admittedRequests s bm cacheHits =
      entries.map fun e => e.request.withHit cacheHits := by
    show List.drop _ (admitLoop _ _ _ _ _).2.1 = _
    rw [hfold, foldl_admitEntry]
    exact drop_left
  have houtranks : ∀ before e after, entries = before ++ e :: after →
      ∀ b ∈ after ++ heap.items (s.admitRequests bm cacheHits).1.waiting,
        e.request.priority < b.request.priority := by
    rintro before e after rfl b hb
    have hmem : e ∈ before ++ e :: after := mem_append_right _ mem_cons_self
    have hrequests := hperm.map QueueEntry.request
    rw [append_assoc, map_append, cons_append, map_cons] at hrequests
    refine hties.outranks hrequests (hplaces.resolve_left (by simp)) ?_ ?_ (mem_map_of_mem hb)
    · rw [length_map, length_append, length_cons]
      omega
    · intro c hc
      obtain ⟨c, hbehind, rfl⟩ := mem_map.1 hc
      rw [← hlabelled e (.inl hmem)]
      rcases mem_append.1 hbehind with hc | hc
      · rw [← hlabelled c (.inl (mem_append_right _ (mem_cons_of_mem e hc)))]
        exact (pairwise_cons.1 (pairwise_append.1 hsorted).2.1).1 c hc
      · rw [← hlabelled c (.inr hc)]
        exact hleft e hmem c hc
  rw [hadmitted]
  constructor
  · refine pairwise_map.2 (pairwise_of_splits fun before e after hsplit b hb => .inl ?_)
    rw [(withHit_priority _ _).1, (withHit_priority _ _).1]
    exact houtranks before e after hsplit b (mem_append_left _ hb)
  · intro a ha b hb
    obtain ⟨e, he, rfl⟩ := mem_map.1 ha
    obtain ⟨c, hc, rfl⟩ := mem_map.1 hb
    obtain ⟨before, after, hsplit⟩ := append_of_mem he
    refine .inl ?_
    rw [(withHit_priority _ _).1]
    exact houtranks before e after hsplit c (mem_append_right _ hc)

/-! ## Runs -/

/-- What one `schedule` call admitted, and what it left waiting, with the ids added so far. -/
structure AdmissionRecord where
  added : List String
  admitted : List Request
  left : List Request
deriving DecidableEq

/-- A scheduler, the ids in the order added, and the admissions of its calls. -/
structure Admitting (heap : MaxHeap QueueEntry QueueEntry.rank) where
  sched : Scheduler heap
  added : List String
  records : List AdmissionRecord

namespace Admitting

def apply (s : Admitting heap) : SchedulerCall → Admitting heap
  | .addRequest promptTokens priority maxTokens stopTokenIds requestId =>
    let called := s.sched.addRequest promptTokens priority maxTokens stopTokenIds requestId
    { s with sched := called.2, added := s.added ++ [called.1] }
  | .schedule bm cacheHits =>
    { s with
      sched := (s.sched.schedule bm cacheHits).2.1
      records := s.records ++ [⟨s.added, admittedRequests s.sched bm cacheHits,
        waitingRequests (s.sched.admitRequests bm cacheHits).1⟩] }
  | .recordOutput requestId tokenId =>
    { s with sched := (s.sched.recordOutput requestId tokenId).2 }
  | .getFinishedRequest requestId =>
    { s with sched := (s.sched.getFinishedRequest requestId).2 }

/-- No two requests of one priority compete for a place. -/
def Untied (s : Admitting heap) : SchedulerCall → Prop
  | .schedule _ _ => TiesWait s.sched
  | _ => True

theorem labelled_apply {s : Admitting heap} (h : Labelled s.sched) (call : SchedulerCall) :
    Labelled (s.apply call).sched := by
  cases call with
  | addRequest =>
    intro e he
    rcases heap.mem_push.1 he with rfl | he
    · rfl
    · exact h e he
  | schedule bm cacheHits =>
    intro e he
    obtain ⟨entries, hperm, -⟩ := s.sched.admitRequests_spec bm cacheHits
    exact h e (hperm.mem_iff.2 (mem_append_right _ he))
  | recordOutput requestId tokenId =>
    intro e he
    exact h e ((Scheduler.waiting_recordOutput s.sched requestId tokenId).1 ▸ he)
  | getFinishedRequest => exact h

end Admitting

/-- In every run in which no `schedule` call finds a tie for its places, calls admit in order. -/
theorem admissionOrder_of_run {sched : Scheduler heap}
    {maxBatchSize maxTokensPerStep chunkSize : Nat}
    {useKvCache : Bool} {calls : List SchedulerCall} {s : Admitting heap}
    (hnew : Scheduler.new heap maxBatchSize maxTokensPerStep chunkSize useKvCache = .ok sched)
    (hrun : Run (fun (m : Admitting heap) call m' => m.Untied call ∧ m' = m.apply call)
      ⟨sched, [], []⟩ calls s) :
    ∀ record ∈ s.records, InOrder record.added record.admitted record.left := by
  have hstart : Labelled sched := by
    intro e he
    obtain ⟨-, -, hempty, -⟩ := Scheduler.new_spec hnew
    exact absurd (hempty ▸ he) not_mem_nil
  refine (hrun.invariant (I := fun m => Labelled m.sched ∧
    ∀ record ∈ m.records, InOrder record.added record.admitted record.left)
    ⟨hstart, nofun⟩ ?_).2
  rintro m call m' ⟨hlabel, hrecords⟩ ⟨huntied, rfl⟩
  refine ⟨m.labelled_apply hlabel call, ?_⟩
  cases call with
  | addRequest => exact hrecords
  | recordOutput => exact hrecords
  | getFinishedRequest => exact hrecords
  | schedule bm cacheHits =>
    intro record hrecord
    rcases mem_append.1 hrecord with hrecord | hrecord
    · exact hrecords record hrecord
    · rw [mem_singleton.1 hrecord]
      exact inOrder_of_tiesWait hlabel huntied m.added bm cacheHits

/-! ## A run without ties, and a tie -/

/-- Three requests of different priorities for two places. -/
def rankedCalls (bm : BlockManager) : List SchedulerCall :=
  [.addRequest [1] 10 4 [] none, .addRequest [2] 0 4 [] none, .addRequest [3] 5 4 [] none,
    .schedule bm []]

theorem admissionOrder_of_run_witness :
    ∃ sched bm s, Scheduler.new listHeap 2 8 8 false = .ok sched ∧ BlockManager.new 4 2 = .ok bm ∧
      Run (fun (m : Admitting listHeap) call m' => m.Untied call ∧ m' = m.apply call)
        ⟨sched, [], []⟩ (rankedCalls bm) s ∧
      (s.records.map fun r => (r.admitted.map Request.requestId, r.left.map Request.requestId)) =
        [(["req_2", "req_3"], ["req_1"])] ∧
      ∀ record ∈ s.records, InOrder record.added record.admitted record.left := by
  obtain ⟨sched, hsched⟩ : ∃ sched, Scheduler.new listHeap 2 8 8 false = .ok sched := ⟨_, rfl⟩
  obtain ⟨bm, hbm⟩ : ∃ bm, BlockManager.new 4 2 = .ok bm := ⟨_, rfl⟩
  -- three requests of three priorities
  have hdistinct : ∀ (p : Int) (l : List Request), l.map Request.priority = [10, 0, 5] →
      ¬ 2 ≤ l.countP fun r => r.priority = p := by
    intro p l hl htwo
    have hcount : (l.countP fun r => r.priority = p) = [10, 0, 5].count p := by
      rw [← hl, count, countP_map]
      refine countP_congr fun r _ => ?_
      simp only [Function.comp_apply, decide_eq_true_eq, beq_iff_eq]
    have hnodup : ([10, 0, 5] : List Int).Nodup := by decide
    have := nodup_iff_count_le_one.1 hnodup p
    omega
  have henabled : Enabled (fun (m : Admitting listHeap) call => m.Untied call) Admitting.apply
      ⟨sched, [], []⟩ (rankedCalls bm) := by
    refine ⟨trivial, trivial, trivial, fun p htwo => absurd htwo (hdistinct p _ ?_), trivial⟩
    cases hsched
    rfl
  have hrun : Run (fun (m : Admitting listHeap) call m' => m.Untied call ∧ m' = m.apply call)
      ⟨sched, [], []⟩ (rankedCalls bm) _ := Run.of_enabled (fun _ _ h => ⟨h, rfl⟩) henabled
  refine ⟨sched, bm, _, hsched, hbm, hrun, ?_, admissionOrder_of_run hsched hrun⟩
  cases hsched
  cases hbm
  decide +kernel

def newestHeap : MaxHeap QueueEntry QueueEntry.rank :=
  { listHeap with
    push := fun q a => a :: q
    items_push := fun q a => .refl (a :: q) }

/-- Of two requests of one priority the second is admitted, the first left waiting. -/
theorem admissionOrder_fails :
    ∃ sched bm s, Scheduler.new newestHeap 1 8 8 false = .ok sched ∧ BlockManager.new 4 2 = .ok bm ∧
      Run (fun (m : Admitting newestHeap) call m' => m' = m.apply call) ⟨sched, [], []⟩
        [.addRequest [1] 0 4 [] none, .addRequest [2] 0 4 [] none, .schedule bm []] s ∧
      ∃ record ∈ s.records, ¬ InOrder record.added record.admitted record.left := by
  obtain ⟨sched, hsched⟩ : ∃ sched, Scheduler.new newestHeap 1 8 8 false = .ok sched := ⟨_, rfl⟩
  obtain ⟨bm, hbm⟩ : ∃ bm, BlockManager.new 4 2 = .ok bm := ⟨_, rfl⟩
  have hrecords : ([.addRequest [1] 0 4 [] none, .addRequest [2] 0 4 [] none,
      .schedule bm []].foldl Admitting.apply ⟨sched, [], []⟩).records.map
        (fun r => (r.added, r.admitted.map fun a => (a.requestId, a.priority),
          r.left.map fun b => (b.requestId, b.priority))) =
      [(["req_1", "req_2"], [("req_2", 0)], [("req_1", 0)])] := by
    cases hsched
    cases hbm
    decide +kernel
  obtain ⟨record, hrecord, hshape⟩ := map_eq_singleton_iff.1 hrecords
  simp only [Prod.mk.injEq] at hshape
  obtain ⟨hadded, hadmitted, hleft⟩ := hshape
  obtain ⟨a, ha, haid⟩ := map_eq_singleton_iff.1 hadmitted
  obtain ⟨b, hb, hbid⟩ := map_eq_singleton_iff.1 hleft
  simp only [Prod.mk.injEq] at haid hbid
  refine ⟨sched, bm, _, hsched, hbm, Run.of_foldl Admitting.apply _ _, record,
    by rw [hrecord]; exact mem_cons_self, fun hin => ?_⟩
  rcases hin.2 a (by rw [ha]; exact mem_cons_self) b
    (by rw [hb]; exact mem_cons_self) with hlt | ⟨-, i, j, hij, hi, hj⟩
  · rw [haid.2, hbid.2] at hlt
    exact Int.lt_irrefl _ hlt
  · -- `req_2` stands at 1 and `req_1` at 0
    rw [hadded, haid.1] at hi
    rw [hadded, hbid.1] at hj
    have hj2 : j < 2 := (List.getElem?_eq_some_iff.1 hj).1
    obtain rfl : i = 0 := by omega
    exact absurd hi (by decide)

end CompileForge.Runtime
