/-
  What holds between the calls of an inference runner.
-/

import CompileForge.Lib.Numbered
import CompileForge.Runtime.Cache.LedgerRun
import CompileForge.Runtime.Cache.RadixHold
import CompileForge.Runtime.Engine.Driver
import CompileForge.Runtime.Engine.Runner

namespace CompileForge.Runtime

open Lib List

theorem layerRid_toList (rid : String) (fi : Nat) :
    (layerRid rid fi).toList = rid.toList ++ '_' :: 'f' :: Nat.toDigits 10 fi := by
  have hname : layerRid rid fi = rid ++ "_f" ++ Nat.repr fi := rfl
  rw [hname, String.toList_append, String.toList_append, Nat.toList_repr, append_assoc]
  rfl

theorem underscore_notMem_layer (fi : Nat) : '_' ∉ 'f' :: Nat.toDigits 10 fi := by
  intro hmem
  rcases mem_cons.1 hmem with heq | hdigit
  · exact absurd heq (by decide)
  · exact notMem_digits (by decide) fi hdigit

theorem layerRid_inj {rid rid' : String} {fi fj : Nat} (h : layerRid rid fi = layerRid rid' fj) :
    rid = rid' := by
  have hlist := congrArg String.toList h
  rw [layerRid_toList, layerRid_toList] at hlist
  obtain ⟨hrid, -⟩ := append_cons_inj_of_last (underscore_notMem_layer fi)
    (underscore_notMem_layer fj) hlist
  exact String.toList_injective hrid

theorem layerRid_ne_request (rid : String) (fi k : Nat) : layerRid rid fi ≠ s!"req_{k}" := by
  intro h
  have hlist := congrArg String.toList h
  have hname : (s!"req_{k}").toList = ['r', 'e', 'q'] ++ '_' :: Nat.toDigits 10 k := by
    have hrepr : s!"req_{k}" = "req_" ++ Nat.repr k := rfl
    rw [hrepr, String.toList_append, Nat.toList_repr]
    rfl
  rw [layerRid_toList, hname] at hlist
  obtain ⟨-, hdigits⟩ := append_cons_inj_of_last (underscore_notMem_layer fi)
    (notMem_digits (by decide) k) hlist
  -- an `f` is no digit
  have hmem : 'f' ∈ Nat.toDigits 10 k := hdigits ▸ mem_cons_self
  exact notMem_digits (by decide) k hmem

theorem request_name_inj {m n : Nat} (h : s!"req_{m}" = s!"req_{n}") : m = n :=
  append_repr_injective "req_" h

/-! ## Tables of a pool -/

namespace BlockManager

variable {bm bm' : BlockManager} {rid key : String}

theorem Grows.mem_tables (h : bm.Grows rid bm') :
    (key ∈ bm.blockTables → key ∈ bm'.blockTables) ∧
      (key ∈ bm'.blockTables → key = rid ∨ key ∈ bm.blockTables) := by
  rcases h with rfl | ⟨n, h, rfl⟩
  · exact ⟨id, .inr⟩
  · have hmem : key ∈ (bm.grow rid n h).blockTables ↔ key = rid ∨ key ∈ bm.blockTables := by
      show key ∈ (popBlocks n bm h).2.blockTables.insert rid _ ↔ _
      rw [AList.mem_insert, (popBlocks_frame n bm h).1]
    exact ⟨fun hold => hmem.2 (.inr hold), hmem.1⟩

theorem mem_tables_flushRequest (bm : BlockManager) (rid key : String) :
    key ∈ (bm.flushRequest rid).blockTables ↔ key ≠ rid ∧ key ∈ bm.blockTables := by
  rw [blockTables_flushRequest, ← AList.lookup_isSome, ← AList.lookup_isSome, lookup_free]
  by_cases hkey : key = rid
  · simp [hkey]
  · simp [hkey]

end BlockManager

theorem mem_tables_flushKvLayerBlocks (rid key : String) (layers : List Nat) (bm : BlockManager) :
    key ∈ (flushKvLayerBlocks rid layers bm).blockTables ↔
      (∀ fi ∈ layers, key ≠ layerRid rid fi) ∧ key ∈ bm.blockTables := by
  induction layers generalizing bm with
  | nil => simp [flushKvLayerBlocks]
  | cons fi layers ih =>
    show key ∈ (flushKvLayerBlocks rid layers (bm.flushRequest (layerRid rid fi))).blockTables ↔ _
    rw [ih, BlockManager.mem_tables_flushRequest, forall_mem_cons]
    tauto

theorem reservePrompt_grows (bm : BlockManager) (rid : String) (n : Nat) :
    bm.Grows rid (reservePrompt bm rid n).2 := by
  unfold reservePrompt
  split
  · rcases bm.ensureBlocks_cases rid n with ⟨e, heq, -⟩ | ⟨heq, -⟩ | ⟨h, heq⟩
    · rw [heq]
      exact .inl rfl
    · rw [heq]
      exact .inl rfl
    · rw [heq]
      exact .inr ⟨_, h, rfl⟩
  · rcases bm.allocate_cases rid n with ⟨e, heq, -⟩ | ⟨h, -, heq⟩
    · rw [heq]
      exact .inl rfl
    · rw [heq]
      exact .inr ⟨_, h, rfl⟩

theorem ensureKvLayerBlocks_rule {P : BlockManager → Prop} {rid : String} {layers : List Nat}
    (hgrow : ∀ fi ∈ layers, ∀ bm bm', P bm → bm.Grows (layerRid rid fi) bm' → P bm')
    {bm : BlockManager} (h : P bm) (n : Nat) : P (ensureKvLayerBlocks rid n layers bm).2 := by
  induction layers generalizing bm with
  | nil => exact h
  | cons fi layers ih =>
    have hnext := hgrow fi mem_cons_self bm _ h (reservePrompt_grows bm (layerRid rid fi) n)
    rw [ensureKvLayerBlocks]
    split
    · rename_i e bm' heq
      rw [heq] at hnext
      exact hnext
    · rename_i bm' heq
      rw [heq] at hnext
      exact ih (fun fj hfj => hgrow fj (mem_cons_of_mem fi hfj)) hnext

/-- The table is one of the request: its own, or that of a layer. -/
def Owns (layers : List Nat) (rid key : String) : Prop :=
  key = rid ∨ ∃ fi ∈ layers, key = layerRid rid fi

/-- The pool between calls: exact, and in KV mode without tables of others than `live`. -/
structure Pooled (useKvCache : Bool) (layers : List Nat) (held : Nat → Nat) (live : List String)
    (bm : BlockManager) : Prop where
  exact : bm.Exact held
  owned : useKvCache = true → ∀ key ∈ bm.blockTables, ∃ rid ∈ live, Owns layers rid key

section Pooled

variable {useKvCache : Bool} {layers : List Nat} {held : Nat → Nat} {live live' : List String}
  {bm bm' : BlockManager}

theorem Pooled.mono (h : Pooled useKvCache layers held live bm) (hsub : ∀ rid ∈ live, rid ∈ live') :
    Pooled useKvCache layers held live' bm := by
  refine ⟨h.exact, fun hkv key hkey => ?_⟩
  obtain ⟨rid, hrid, howns⟩ := h.owned hkv key hkey
  exact ⟨rid, hsub rid hrid, howns⟩

theorem Pooled.grows (h : Pooled useKvCache layers held live bm) {rid key : String}
    (hrid : rid ∈ live) (howns : Owns layers rid key) (hgrows : bm.Grows key bm') :
    Pooled useKvCache layers held live bm' := by
  refine ⟨hgrows.exact h.exact, fun hkv key' hkey' => ?_⟩
  rcases hgrows.mem_tables.2 hkey' with rfl | hold
  · exact ⟨rid, hrid, howns⟩
  · exact h.owned hkv key' hold

theorem Pooled.sameLedger (h : Pooled useKvCache layers held live bm)
    (hsame : BlockManager.SameLedger bm bm') : Pooled useKvCache layers held live bm' := by
  refine ⟨hsame.exact h.exact, ?_⟩
  rw [hsame.blockTables_eq]
  exact h.owned

theorem Pooled.ensureLayers (h : Pooled useKvCache layers held live bm) {rid : String}
    (hrid : rid ∈ live) (n : Nat) :
    Pooled useKvCache layers held live (ensureKvLayerBlocks rid n layers bm).2 :=
  ensureKvLayerBlocks_rule (P := Pooled useKvCache layers held live)
    (fun fi hfi _ _ hpool hgrows => hpool.grows hrid (.inr ⟨fi, hfi, rfl⟩) hgrows) h n

theorem exact_flushKvLayerBlocks (h : bm.Exact held) (rid : String) (layers : List Nat) :
    (flushKvLayerBlocks rid layers bm).Exact held := by
  induction layers generalizing bm with
  | nil => exact h
  | cons fi layers ih => exact ih (h.flushRequest (layerRid rid fi))

theorem Pooled.flush (h : Pooled useKvCache layers held live bm) (rid : String)
    (hlive : ∀ other ∈ live, other ≠ rid → other ∈ live') :
    Pooled useKvCache layers held live' (flushKvLayerBlocks rid layers (bm.flushRequest rid)) := by
  refine ⟨exact_flushKvLayerBlocks (h.exact.flushRequest rid) rid layers, fun hkv key hkey => ?_⟩
  · rw [mem_tables_flushKvLayerBlocks, BlockManager.mem_tables_flushRequest] at hkey
    obtain ⟨hlayers, hmain, hold⟩ := hkey
    obtain ⟨other, hother, howns⟩ := h.owned hkv key hold
    refine ⟨other, hlive other hother ?_, howns⟩
    rintro rfl
    rcases howns with rfl | ⟨fi, hfi, rfl⟩
    · exact hmain rfl
    · exact hlayers fi hfi rfl

end Pooled

theorem exact_insert {cache cache' : RadixCache} {tokens : List UInt32} {blocks : List Nat}
    {bm bm' : BlockManager} (h : bm.Exact fun b => cache.root.heldBlocks.count b)
    (hwf : cache.root.WF) (hblocks : ∀ b ∈ blocks, bm.tableRefs b ≠ 0)
    (hins : cache.insert tokens blocks bm = some (cache', bm')) :
    bm'.Exact (fun b => cache'.root.heldBlocks.count b) ∧ cache'.root.WF ∧
      bm'.blockTables = bm.blockTables := by
  obtain ⟨calls, hcalls, hout⟩ := Option.map_eq_some_iff.1 hins
  obtain ⟨sub, hsub, heq⟩ := Option.map_eq_some_iff.1 hcalls
  cases heq
  cases hout
  obtain ⟨hwf', -, hcount⟩ := gainedBy_insertLoop _ _ _ hwf hsub
  have hsame : (sub.2.foldl BlockManager.incrementRefCount bm).blockTables = bm.blockTables :=
    BlockManager.blockTables_foldl_increment sub.2
  refine ⟨?_, hwf', hsame⟩
  have howed : ∀ b ∈ sub.2, bm.tableRefs b + cache.root.heldBlocks.count b ≠ 0 := by
    intro b hb
    have := hblocks b (insertLoop_subset _ _ _ hsub b hb)
    omega
  refine Lib.Balanced.congr_owed (BlockManager.Balanced.foldl_increment h howed) fun b => ?_
  have hgain := hcount b
  show (sub.2.foldl BlockManager.incrementRefCount bm).tableRefs b + sub.1.heldBlocks.count b =
    bm.tableRefs b + cache.root.heldBlocks.count b + sub.2.count b
  rw [BlockManager.tableRefs_congr hsame]
  omega

section UpdateFirst

variable {α : Type} {p : α → Bool} {g : α → α} {l : List α}

theorem find?_updateFirst (hp : ∀ a, p (g a) = p a) :
    (updateFirst p g l).find? p = (l.find? p).map g := by
  induction l with
  | nil => rfl
  | cons a l ih =>
    rw [updateFirst]
    by_cases ha : p a = true
    · rw [if_pos ha, find?_cons_of_pos (by rw [hp]; exact ha), find?_cons_of_pos ha]
      rfl
    · rw [if_neg ha, find?_cons_of_neg ha, find?_cons_of_neg ha, ih]

theorem eraseP_updateFirst (hp : ∀ a, p (g a) = p a) :
    (updateFirst p g l).eraseP p = l.eraseP p := by
  induction l with
  | nil => rfl
  | cons a l ih =>
    rw [updateFirst]
    by_cases ha : p a = true
    · rw [if_pos ha, eraseP_cons_of_pos (by rw [hp]; exact ha), eraseP_cons_of_pos ha]
    · rw [if_neg ha, eraseP_cons_of_neg ha, eraseP_cons_of_neg ha, ih]

end UpdateFirst

/-! ## The invariant -/

variable {heap : MaxHeap QueueEntry QueueEntry.rank} {ω : Type}

namespace InferenceRunner

variable (r : InferenceRunner heap ω)

def runningIds : List String :=
  r.scheduler.running.map Request.requestId

def waitingRequests : List Request :=
  (heap.items r.scheduler.waiting).map QueueEntry.request

/-- The running and the waiting requests. -/
def liveRequests : List Request :=
  r.scheduler.running ++ r.waitingRequests

/-- The prefix cache is the only holder besides the tables. -/
def held (b : Nat) : Nat := r.radixCache.root.heldBlocks.count b

/-- Request ids are distinct and numbered, no prefix hit is pending, the ledger is exact, and in KV
    mode every table belongs to a running request. -/
structure Inv : Prop where
  kv_eq : r.scheduler.config.useKvCache = r.config.useKvCache
  perStep_eq : r.scheduler.config.maxTokensPerStep = r.config.maxTokensPerStep
  noHits : r.cacheHits = []
  ids : (r.liveRequests.map Request.requestId).Nodup
  named : ∀ req ∈ r.liveRequests, ∃ k ≤ r.scheduler.requestCounter, req.requestId = s!"req_{k}"
  prompts : ∀ req ∈ r.liveRequests, req.promptTokens ≠ []
  queued : ∀ req ∈ r.waitingRequests, req.Queued
  active : ∀ req ∈ r.scheduler.running, req.state = .prefill ∨ req.state = .decode
  tree : r.radixCache.root.WF
  pool : Pooled r.config.useKvCache r.kvLayerIds r.held r.runningIds r.blockManager

variable {r r' : InferenceRunner heap ω} {backend : Backend ω} {sampling : SamplerConfig}

theorem Inv.runningIds_nodup (h : r.Inv) : r.runningIds.Nodup := by
  have hids := h.ids
  rw [liveRequests, map_append] at hids
  exact (nodup_append.1 hids).1

/-- A running request has no namesake in the queue. -/
theorem Inv.ne_waiting (h : r.Inv) {id : String} (hid : id ∈ r.runningIds) {req : Request}
    (hreq : req ∈ r.waitingRequests) : id ≠ req.requestId := by
  have hids := h.ids
  rw [liveRequests, map_append, nodup_append] at hids
  exact hids.2.2 id hid _ (mem_map_of_mem hreq)

theorem Inv.new {executor : ω} {config : RunnerConfig}
    (h : InferenceRunner.new heap backend executor config = .ok r) : r.Inv := by
  unfold InferenceRunner.new Scheduler.new at h
  have hitems : heap.items heap.empty = [] := heap.items_empty
  split at h
  · cases h
  · rename_i scheduler hsched
    split at hsched
    · cases hsched
    · split at hsched
      · cases hsched
      · cases hsched
        dsimp only at h
        split at h
        · cases h
        · rename_i bm hpool
          cases h
          have hfresh : bm.Fresh := by
            split at hpool
            · exact .inr ⟨_, _, _, _, hpool⟩
            · exact .inl ⟨_, _, hpool⟩
          have hlive : ∀ req, req ∉ ([] : List Request) ++
              (heap.items heap.empty).map QueueEntry.request := by
            rw [hitems]
            exact fun req => not_mem_nil
          refine ⟨rfl, rfl, rfl, ?_, fun req hreq => absurd hreq (hlive req),
            fun req hreq => absurd hreq (hlive req),
            fun req hreq => absurd (mem_append_right _ hreq) (hlive req),
            fun req hreq => absurd hreq not_mem_nil, ⟨rfl, trivial⟩, hfresh.exact,
            fun _ key hkey => ?_⟩
          · show ((([] : List Request) ++
              (heap.items heap.empty).map QueueEntry.request).map Request.requestId).Nodup
            rw [hitems]
            exact nodup_nil
          · -- a fresh pool has no tables
            have hempty : key ∈ bm.blockTables := hkey
            rw [hfresh.blockTables_eq] at hempty
            exact absurd hempty (AList.notMem_empty key)

theorem Inv.fresh_name (h : r.Inv) :
    ∀ req ∈ r.liveRequests, req.requestId ≠ s!"req_{r.scheduler.requestCounter + 1}" := by
  intro req hreq heq
  obtain ⟨k, hk, hname⟩ := h.named req hreq
  have := request_name_inj (hname.symm.trans heq)
  omega

theorem Inv.addRequestTokens_eq (h : r.Inv) {inputIds : List UInt32} (hne : inputIds ≠ [])
    {added : String × Scheduler heap} (hadded : r.scheduler.addRequest inputIds 0
      (sampling.maxTokens.getD r.config.maxTokensPerRequest) backend.stopTokenIds none = added) :
    r.addRequestTokens backend inputIds sampling =
      (.ok added.1, { r with scheduler := added.2 }) := by
  have hne' : inputIds.isEmpty = false := by
    cases inputIds with
    | nil => exact absurd rfl hne
    | cons => rfl
  have hfresh : added.2.runningRequest added.1 = none := by
    rw [← hadded]
    refine find?_eq_none.2 fun req hreq heq => ?_
    exact h.fresh_name req (mem_append_left _ hreq) (of_decide_eq_true heq)
  have hmatch : r.radixCache.matchPrefix [] = ([], 0) := matchLoop_nil
  unfold addRequestTokens
  rw [hne', hadded]
  simp only [Bool.false_eq_true, if_false, hfresh, Option.map_none, Option.getD_none, hmatch]
  rfl

theorem Inv.addRequest (h : r.Inv) {inputIds : List UInt32} (hne : inputIds ≠ []) (maxTokens : Nat)
    (stopTokenIds : List UInt32) :
    ({ r with scheduler := (r.scheduler.addRequest inputIds 0 maxTokens stopTokenIds none).2 } :
      InferenceRunner heap ω).Inv := by
  generalize hadded : r.scheduler.addRequest inputIds 0 maxTokens stopTokenIds none = added
  have hrunning : added.2.running = r.scheduler.running := by rw [← hadded]; rfl
  have hconfig : added.2.config = r.scheduler.config := by rw [← hadded]; rfl
  have hcounter : added.2.requestCounter = r.scheduler.requestCounter + 1 := by rw [← hadded]; rfl
  generalize hreq : Request.new s!"req_{r.scheduler.requestCounter + 1}" inputIds 0 maxTokens
    stopTokenIds = req
  have hid : req.requestId = s!"req_{r.scheduler.requestCounter + 1}" := by rw [← hreq]; rfl
  have hwaiting : ((heap.items added.2.waiting).map QueueEntry.request).Perm
      (req :: r.waitingRequests) := by
    rw [← hadded, ← hreq]
    exact (heap.items_push r.scheduler.waiting _).map QueueEntry.request
  have hmem : ∀ other, other ∈ r.scheduler.running ++
      (heap.items added.2.waiting).map QueueEntry.request →
      other = req ∨ other ∈ r.liveRequests := by
    intro other hother
    rcases mem_append.1 hother with hrun | hwait
    · exact .inr (mem_append_left _ hrun)
    · rcases mem_cons.1 (hwaiting.mem_iff.1 hwait) with heq | hold
      · exact .inl heq
      · exact .inr (mem_append_right _ hold)
  refine ⟨hconfig ▸ h.kv_eq, hconfig ▸ h.perStep_eq, h.noHits, ?_, fun other hother => ?_,
    fun other hother => ?_, fun other hother => ?_, ?_, h.tree, ?_⟩
  · show ((added.2.running ++ (heap.items added.2.waiting).map QueueEntry.request).map
      Request.requestId).Nodup
    have hperm : (added.2.running ++ (heap.items added.2.waiting).map QueueEntry.request).Perm
        (req :: r.liveRequests) := by
      rw [hrunning]
      exact (hwaiting.append_left _).trans perm_middle
    refine (hperm.map Request.requestId).nodup_iff.2 (nodup_cons.2 ⟨fun hin => ?_, h.ids⟩)
    obtain ⟨other, hother, hsame⟩ := mem_map.1 hin
    exact h.fresh_name other hother (hsame.trans hid)
  · rw [liveRequests, waitingRequests, hrunning] at hother
    show ∃ k ≤ added.2.requestCounter, _
    rw [hcounter]
    rcases hmem other hother with rfl | hold
    · exact ⟨_, Nat.le_refl _, hid⟩
    · obtain ⟨k, hk, hname⟩ := h.named other hold
      exact ⟨k, Nat.le_succ_of_le hk, hname⟩
  · rw [liveRequests, waitingRequests, hrunning] at hother
    rcases hmem other hother with rfl | hold
    · rw [← hreq]
      exact hne
    · exact h.prompts other hold
  · rcases mem_cons.1 (hwaiting.mem_iff.1 hother) with rfl | hold
    · rw [← hreq]
      exact ⟨rfl, rfl⟩
    · exact h.queued other hold
  · rw [hrunning]
    exact h.active
  · show Pooled _ _ _ (added.2.running.map Request.requestId) _
    rw [hrunning]
    exact h.pool

/-! ## Scheduling -/

/-- Scheduler and pool before the batch loop of a step. -/
def admitted : Scheduler heap × BlockManager :=
  r.scheduler.admitRequests r.blockManager []

/-- The slots of a step, with the scheduler and the pool after the batch loop. -/
def built : List Slot × Scheduler heap × BlockManager :=
  r.admitted.1.buildBatch r.admitted.2

/-- No hit is pending, so scheduling admits without hits. -/
theorem Inv.scheduleStep_eq (h : r.Inv) : r.scheduleStep = (batchOf r.built.1,
      { r with scheduler := r.built.2.1, blockManager := r.built.2.2, cacheHits := [] }) := by
  simp only [InferenceRunner.scheduleStep, Scheduler.schedule, h.noHits]
  rfl

theorem Inv.requestCounter_scheduleStep (h : r.Inv) :
    r.scheduleStep.2.scheduler.requestCounter = r.scheduler.requestCounter := by
  rw [h.scheduleStep_eq]
  rfl

theorem Inv.admitted_spec (h : r.Inv) :
    ∃ entries, (heap.items r.scheduler.waiting).Perm (entries ++ heap.items r.admitted.1.waiting) ∧
      r.admitted.1.running = r.scheduler.running ++ entries.map (fun e => e.request.startPrefill) ∧
      r.admitted.2 = r.blockManager ∧ r.admitted.1.config = r.scheduler.config := by
  obtain ⟨entries, hperm, hrunning, hpool, hconfig⟩ :=
    r.scheduler.admitRequests_nil_spec r.blockManager
  -- nothing to reap: finished requests leave at once
  have hlive : ∀ req ∈ r.scheduler.running, req.isFinished = false := by
    intro req hreq
    rcases h.active req hreq with hstate | hstate
    · simp [Request.isFinished, hstate]
    · simp [Request.isFinished, hstate]
  have hkept : r.scheduler.running.filter (!·.isFinished) = r.scheduler.running :=
    filter_eq_self.2 fun req hreq => by rw [hlive req hreq]; rfl
  have hnone : r.scheduler.running.filter (·.isFinished) = [] :=
    filter_eq_nil_iff.2 fun req hreq => by rw [hlive req hreq]; decide
  rw [hkept] at hrunning
  refine ⟨entries, hperm, hrunning, hpool.trans ?_, hconfig⟩
  simp only [Scheduler.reap, hnone, map_nil, foldl_nil]

theorem Inv.admitted_live (h : r.Inv) :
    ∃ live, (r.admitted.1.running ++ (heap.items r.admitted.1.waiting).map QueueEntry.request) =
        live ∧ (live.map Request.requestId).Perm (r.liveRequests.map Request.requestId) ∧
      (∀ req ∈ live, ∃ old ∈ r.liveRequests, old.requestId = req.requestId ∧
        old.promptTokens = req.promptTokens) ∧
      ∀ req ∈ r.admitted.1.running, req.state = .prefill ∨ req.state = .decode := by
  obtain ⟨entries, hperm, hrunning, -, -⟩ := h.admitted_spec
  have hqueue : ∀ e, e ∈ entries ∨ e ∈ heap.items r.admitted.1.waiting →
      e.request ∈ r.liveRequests := fun e he =>
    mem_append_right _ (mem_map_of_mem (hperm.mem_iff.2 (mem_append.2 he)))
  refine ⟨_, rfl, ?_, fun req hreq => ?_, fun req hreq => ?_⟩
  · have hids : (r.waitingRequests.map Request.requestId).Perm
        ((entries.map fun e => e.request.requestId) ++
          (heap.items r.admitted.1.waiting).map fun e => e.request.requestId) := by
      have hmap := (hperm.map QueueEntry.request).map Request.requestId
      simp only [map_append, map_map] at hmap
      rw [waitingRequests, map_map]
      exact hmap
    rw [hrunning, liveRequests]
    simp only [map_append, map_map, append_assoc]
    exact (hids.append_left _).symm
  · rw [hrunning] at hreq
    rcases mem_append.1 hreq with hlive | hwait
    · rcases mem_append.1 hlive with hold | hnew
      · exact ⟨req, mem_append_left _ hold, rfl, rfl⟩
      · obtain ⟨e, he, rfl⟩ := mem_map.1 hnew
        exact ⟨e.request, hqueue e (.inl he), rfl, rfl⟩
    · obtain ⟨e, he, rfl⟩ := mem_map.1 hwait
      exact ⟨e.request, hqueue e (.inr he), rfl, rfl⟩
  · rw [hrunning] at hreq
    rcases mem_append.1 hreq with hold | hnew
    · exact h.active req hold
    · obtain ⟨e, -, rfl⟩ := mem_map.1 hnew
      exact .inl rfl

/-- The batch loop grows tables of running requests only. -/
theorem Inv.built_spec (h : r.Inv) :
    r.built.1.map Slot.before = r.admitted.1.running ∧
    Pooled r.config.useKvCache r.kvLayerIds r.held (r.admitted.1.running.map Request.requestId)
      r.built.2.2 ∧
    ∀ slot ∈ r.built.1, slot.before ∈ r.admitted.1.running ∧
      slot.after.requestId = slot.before.requestId ∧
      slot.after.promptTokens = slot.before.promptTokens ∧
      (slot.after.state = .prefill ∨ slot.after.state = .decode) ∧
      ∀ sr, slot.scheduled? = some sr → sr.requestId = slot.before.requestId ∧
        sr.requestId ∈ r.built.2.2.blockTables ∧ sr.inputIds ≠ [] := by
  obtain ⟨entries, -, hrunning, hpool, -⟩ := h.admitted_spec
  obtain ⟨live, rfl, -, horigin, hactive⟩ := h.admitted_live
  have hstart : Pooled r.config.useKvCache r.kvLayerIds r.held
      (r.admitted.1.running.map Request.requestId) r.admitted.2 := by
    rw [hpool]
    refine h.pool.mono fun rid hrid => ?_
    rw [hrunning, map_append]
    exact mem_append_left _ hrid
  have hprompt : ∀ req ∈ r.admitted.1.running, req.promptTokens ≠ [] := by
    intro req hreq
    obtain ⟨old, hold, -, hsame⟩ := horigin req (mem_append_left _ hreq)
    rw [← hsame]
    exact h.prompts old hold
  have hrule := buildSlots_stable_rule
    (I := fun bm => Pooled r.config.useKvCache r.kvLayerIds r.held
      (r.admitted.1.running.map Request.requestId) bm)
    (Q := fun req => req ∈ r.admitted.1.running)
    (R := fun slot bm => slot.before ∈ r.admitted.1.running ∧
      slot.after.requestId = slot.before.requestId ∧
      slot.after.promptTokens = slot.before.promptTokens ∧
      (slot.after.state = .prefill ∨ slot.after.state = .decode) ∧
      ∀ sr, slot.scheduled? = some sr → sr.requestId = slot.before.requestId ∧
        sr.requestId ∈ bm.blockTables ∧ sr.inputIds ≠ [])
    (fun budget req bm turn hreq hI _ hturn => ?_)
    (fun budget req bm turn slot _ hturn hR => ?_) (fun req hreq => hreq) hstart
    (alongSlots_true r.admitted.1.config ⟨0, 0⟩ r.admitted.1.running r.admitted.2)
  · exact ⟨buildSlots_before _ _ _ _, hrule.1, hrule.2.2⟩
  · refine ⟨hI.grows (mem_map_of_mem hreq) (.inl rfl) hturn.grows, ?_, hturn.requestId_eq.1,
      ?_, hturn.live_eq.2 (hactive req hreq), fun sr hsr => ?_⟩
    · rw [hturn.before_eq]
      exact hreq
    · rw [hturn.before_eq]
      exact hturn.live_eq.1
    · exact ⟨hturn.requestId_eq.2 sr hsr, hturn.scheduled_spec hsr (hprompt req hreq)⟩
  · obtain ⟨hbefore, hid, hsame, hstate, hscheduled⟩ := hR
    refine ⟨hbefore, hid, hsame, hstate, fun sr hsr => ?_⟩
    obtain ⟨hname, htable, htokens⟩ := hscheduled sr hsr
    exact ⟨hname, hturn.grows.mem_tables.1 htable, htokens⟩

theorem Inv.scheduleStep (h : r.Inv) :
    r.scheduleStep.2.Inv ∧ (r.scheduleStep.1.requests.map ScheduledRequest.requestId).Sublist
        r.scheduleStep.2.runningIds ∧
      ∀ sr ∈ r.scheduleStep.1.requests,
        sr.requestId ∈ r.scheduleStep.2.blockManager.blockTables ∧ sr.inputIds ≠ [] := by
  obtain ⟨entries, hperm, hrunning, hpool, hconfig⟩ := h.admitted_spec
  obtain ⟨live, hlive, hids, horigin, hactive⟩ := h.admitted_live
  obtain ⟨hbefore, hpooled, hslots⟩ := h.built_spec
  rw [h.scheduleStep_eq]
  have hafter : (r.built.1.map Slot.after).map Request.requestId =
      r.admitted.1.running.map Request.requestId := by
    rw [← hbefore, map_map, map_map]
    exact map_congr_left fun slot hslot => (hslots slot hslot).2.1
  have hnames : ((r.built.1.map Slot.after ++ (heap.items r.admitted.1.waiting).map
      QueueEntry.request).map Request.requestId) = live.map Request.requestId := by
    rw [← hlive, map_append, map_append, hafter]
  have hold : ∀ req, req ∈ r.built.1.map Slot.after ++ (heap.items r.admitted.1.waiting).map
      QueueEntry.request → ∃ old ∈ r.liveRequests, old.requestId = req.requestId ∧
        old.promptTokens = req.promptTokens := by
    intro req hreq
    rcases mem_append.1 hreq with hrun | hwait
    · obtain ⟨slot, hslot, rfl⟩ := mem_map.1 hrun
      obtain ⟨hmem, hid, hprompt, -, -⟩ := hslots slot hslot
      rw [hid, hprompt]
      exact horigin _ (hlive ▸ mem_append_left _ hmem)
    · exact horigin req (hlive ▸ mem_append_right _ hwait)
  refine ⟨⟨?_, ?_, rfl, ?_, fun req hreq => ?_, fun req hreq => ?_, fun req hreq => ?_,
    fun req hreq => ?_, h.tree, ?_⟩, ?_, fun sr hsr => ?_⟩
  · show r.admitted.1.config.useKvCache = r.config.useKvCache
    rw [hconfig]
    exact h.kv_eq
  · show r.admitted.1.config.maxTokensPerStep = r.config.maxTokensPerStep
    rw [hconfig]
    exact h.perStep_eq
  · show ((r.built.1.map Slot.after ++ (heap.items r.admitted.1.waiting).map
      QueueEntry.request).map Request.requestId).Nodup
    rw [hnames]
    exact hids.nodup_iff.2 h.ids
  · obtain ⟨old, hmem, hid, -⟩ := hold req hreq
    rw [← hid]
    exact h.named old hmem
  · obtain ⟨old, hmem, -, hprompt⟩ := hold req hreq
    rw [← hprompt]
    exact h.prompts old hmem
  · obtain ⟨e, he, rfl⟩ := mem_map.1 hreq
    exact h.queued _ (mem_map_of_mem (hperm.mem_iff.2 (mem_append_right _ he)))
  · obtain ⟨slot, hslot, rfl⟩ := mem_map.1 hreq
    exact (hslots slot hslot).2.2.2.1
  · show Pooled _ _ _ ((r.built.1.map Slot.after).map Request.requestId) _
    rw [hafter]
    exact hpooled
  · have hids : r.built.1.map (fun slot => slot.before.requestId) =
        (r.built.1.map Slot.after).map Request.requestId := by
      rw [map_map]
      exact map_congr_left fun slot hslot => (hslots slot hslot).2.1.symm
    show (_ : List String).Sublist ((r.built.1.map Slot.after).map Request.requestId)
    rw [← hids]
    exact sublist_batchOf fun slot hslot sr hsr => ((hslots slot hslot).2.2.2.2 sr hsr).1
  · obtain ⟨slot, hslot, hscheduled⟩ := mem_filterMap.1 hsr
    exact ((hslots slot hslot).2.2.2.2 sr hscheduled).2

end InferenceRunner

end CompileForge.Runtime
