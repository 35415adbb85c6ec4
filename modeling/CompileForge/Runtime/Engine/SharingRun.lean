/-
  Runs of the scheduler over a pool whose blocks are shared: prefix hits at
  admission, `share_prefix`, and external holds.  There is no copy on write, so sharing must
  leave alone what is still to be written: a run is disciplined (`Permitted`) if only whole
  blocks are shared that no unfinished request will write again.
-/

import CompileForge.Runtime.Cache.LedgerRun
import CompileForge.Runtime.Engine.BlockStake

namespace CompileForge.Runtime

open Lib List

/-! ## Runs -/

variable {heap : MaxHeap QueueEntry QueueEntry.rank}

/-- A scheduler, its pool, the external holds and how much of each table is shared. -/
structure Sharing (heap : MaxHeap QueueEntry QueueEntry.rank) where
  sched : Scheduler heap
  bm : BlockManager
  held : Nat → Nat
  shared : String → Nat

inductive SharingEvent where
  | driver (e : DriverEvent)
  | sharePrefix (src dst : String) (prefixLen : Nat)
  | hold (blockId : Nat)
  | release (blockId : Nat)
  | free (requestId : String)
  | flush (requestId : String)
  | write (requestId : String) (startPos : Nat) (data : List F32) (hiddenDim : Nat) (isKey : Bool)

/-- A `write_kv` call. -/
def SharingEvent.IsWrite : SharingEvent → Prop
  | .write .. => True
  | _ => False

namespace Sharing

def start (sched : Scheduler heap) (bm : BlockManager) : Sharing heap :=
  { sched, bm, held := fun _ => 0, shared := fun _ => 0 }

variable (s : Sharing heap)

/-- The requests that may still be scheduled, and finished ones not yet reaped. -/
def liveRequests : List Request :=
  s.sched.running ++ (heap.items s.sched.waiting).map QueueEntry.request

def stake : String → Nat → Prop := Stake s.bm.blockSize s.shared s.liveRequests

/-- The state after `schedule` has reaped: pool and shared prefixes. -/
def reaped : Sharing heap :=
  { s with
    sched := { s.sched with running := (Scheduler.reap s.sched.running s.bm).1 }
    bm := (Scheduler.reap s.sched.running s.bm).2
    shared := clearShared s.shared
      ((s.sched.running.filter (·.isFinished)).map Request.requestId) }

def apply : SharingEvent → Sharing heap
  | .driver (.addRequest promptTokens priority maxTokens stopTokenIds requestId) =>
    { s with
      sched := (s.sched.addRequest promptTokens priority maxTokens stopTokenIds requestId).2 }
  | .driver (.schedule cacheHits) =>
    let before := s.sched.admitRequests s.bm cacheHits
    let built := before.1.buildBatch before.2
    { s with
      sched := built.2.1
      bm := built.2.2
      shared := markHits s.reaped.shared
        (before.1.running.drop s.reaped.sched.running.length) }
  | .driver (.recordOutput requestId tokenId) =>
    { s with sched := (s.sched.recordOutput requestId tokenId).2 }
  | .driver (.getFinishedRequest requestId) =>
    { s with sched := (s.sched.getFinishedRequest requestId).2 }
  | .sharePrefix src dst prefixLen =>
    { s with
      bm := (s.bm.sharePrefix src dst prefixLen).2
      shared :=
        if (s.bm.sharePrefix src dst prefixLen).1.isOk then
          Function.update s.shared dst prefixLen
        else s.shared }
  | .hold blockId =>
    { s with
      bm := s.bm.incrementRefCount blockId
      held := fun b => s.held b + if b = blockId then 1 else 0 }
  | .release blockId =>
    { s with
      bm := s.bm.freeBlock blockId
      held := fun b => s.held b - if b = blockId then 1 else 0 }
  | .free requestId =>
    { s with
      bm := s.bm.free requestId
      shared := Function.update s.shared requestId 0 }
  | .flush requestId =>
    { s with
      bm := s.bm.flushRequest requestId
      shared := Function.update s.shared requestId 0 }
  | .write requestId startPos data hiddenDim isKey =>
    { s with
      bm := ((s.bm.writeKv requestId startPos data hiddenDim isKey).map Prod.snd).getD s.bm }

/-- The sharing discipline: fresh ids, exclusive tables, hits and holds of settled whole blocks. -/
def Permitted : SharingEvent → Prop
  | .driver (.addRequest promptTokens priority maxTokens stopTokenIds requestId) =>
    let rid := (s.sched.addRequest promptTokens priority maxTokens stopTokenIds requestId).1
    (∀ i < (s.bm.table rid).length, s.shared rid ≤ i * s.bm.blockSize →
      ∀ b ∈ (s.bm.table rid)[i]?, s.bm.Sole s.held b) ∧
    rid ∉ (heap.items s.sched.waiting).map fun e => e.request.requestId
  | .driver (.schedule cacheHits) =>
    (∀ e ∈ heap.items s.sched.waiting,
      HitFits cacheHits s.reaped.bm s.held s.reaped.stake e.request) ∧
    ∀ req ∈ (s.sched.admitRequests s.bm cacheHits).1.running, req.sequence.length < 2 ^ 32
  | .sharePrefix src _ prefixLen => s.bm.blockSize ∣ prefixLen ∧
      ∀ b ∈ (s.bm.table src).take (prefixLen / s.bm.blockSize), s.bm.Settled s.stake b
  | .hold blockId => 0 < s.bm.refCount blockId ∧ s.bm.Settled s.stake blockId
  | .release blockId => s.held blockId ≠ 0
  | _ => True

instance decidableJoin (rid : String) : Decidable
    ((∀ i < (s.bm.table rid).length, s.shared rid ≤ i * s.bm.blockSize →
      ∀ b ∈ (s.bm.table rid)[i]?, s.bm.tableRefs b + s.held b = 1) ∧
    rid ∉ (heap.items s.sched.waiting).map fun e => e.request.requestId) :=
  inferInstance

instance decidablePermitted (e : SharingEvent) : Decidable (s.Permitted e) :=
  match e with
  | .driver (.addRequest promptTokens priority maxTokens stopTokenIds requestId) =>
    decidableJoin s (s.sched.addRequest promptTokens priority maxTokens stopTokenIds requestId).1
  | .driver (.schedule cacheHits) => inferInstanceAs (Decidable (
      (∀ e ∈ heap.items s.sched.waiting, HitFits cacheHits s.reaped.bm s.held
        (Stake s.reaped.bm.blockSize s.reaped.shared s.reaped.liveRequests) e.request) ∧
      ∀ req ∈ (s.sched.admitRequests s.bm cacheHits).1.running, req.sequence.length < 2 ^ 32))
  | .sharePrefix src _ prefixLen => inferInstanceAs (Decidable (s.bm.blockSize ∣ prefixLen ∧
      ∀ b ∈ (s.bm.table src).take (prefixLen / s.bm.blockSize),
        s.bm.Settled (Stake s.bm.blockSize s.shared s.liveRequests) b))
  | .hold blockId => inferInstanceAs (Decidable (0 < s.bm.refCount blockId ∧
      s.bm.Settled (Stake s.bm.blockSize s.shared s.liveRequests) blockId))
  | .release blockId => inferInstanceAs (Decidable (s.held blockId ≠ 0))
  | .driver (.recordOutput ..) | .driver (.getFinishedRequest ..) | .free .. | .flush ..
  | .write .. => isTrue trivial

def Step (e : SharingEvent) (s' : Sharing heap) : Prop :=
  s.Permitted e ∧ s' = s.apply e

/-- The invariant of a disciplined run. -/
structure Inv : Prop where
  exclusive : s.bm.Exclusive s.held s.stake
  dvd : ∀ rid, s.bm.blockSize ∣ s.shared rid
  kv : s.sched.config.useKvCache = true
  queued : ∀ e ∈ heap.items s.sched.waiting, e.request.Queued
  ids : ((heap.items s.sched.waiting).map fun e => e.request.requestId).Nodup

variable {s : Sharing heap}

theorem Inv.addRequest (h : s.Inv) {promptTokens : List UInt32} {priority : Int} {maxTokens : Nat}
    {stopTokenIds : List UInt32} {requestId : Option String} (hperm : s.Permitted
      (.driver (.addRequest promptTokens priority maxTokens stopTokenIds requestId))) :
    (s.apply
      (.driver (.addRequest promptTokens priority maxTokens stopTokenIds requestId))).Inv := by
  obtain ⟨htable, hfresh⟩ := hperm
  refine ⟨⟨h.exclusive.exact, fun rid i b hi hb => ?_⟩, h.dvd, h.kv, fun q hq => ?_, ?_⟩
  · obtain ⟨hshared, req, hreq, hid, hwrite⟩ := hi
    rcases mem_append.1 hreq with hrun | hwait
    · exact h.exclusive.sole rid i b ⟨hshared, req, mem_append_left _ hrun, hid, hwrite⟩ hb
    · obtain ⟨q, hq, rfl⟩ := mem_map.1 hwait
      rcases heap.mem_push.1 hq with rfl | hq
      · -- the new request: only a table from `share_prefix` can be there
        cases hid
        exact htable i (List.getElem?_eq_some_iff.1 hb).1 hshared b hb
      · have hold : q.request ∈ s.liveRequests :=
          mem_append_right _ (mem_map_of_mem hq)
        exact h.exclusive.sole rid i b ⟨hshared, _, hold, hid, hwrite⟩ hb
  · rcases heap.mem_push.1 hq with rfl | hq
    · exact ⟨rfl, rfl⟩
    · exact h.queued q hq
  · have hperm := (heap.items_push s.sched.waiting ⟨priority, Request.new
      (s.sched.addRequest promptTokens priority maxTokens stopTokenIds requestId).1
      promptTokens priority maxTokens stopTokenIds⟩).map fun e => e.request.requestId
    exact hperm.nodup_iff.2 (nodup_cons.2 ⟨hfresh, h.ids⟩)

theorem Inv.recordOutput (h : s.Inv) (rid : String) (tokenId : UInt32) :
    (s.apply (.driver (.recordOutput rid tokenId))).Inv := by
  have hsched := s.sched.waiting_recordOutput rid tokenId
  refine ⟨h.exclusive.mono fun r i hi => hi.mono fun req' hreq' => ?_, h.dvd, hsched.2 ▸ h.kv,
    fun q hq => h.queued q (hsched.1 ▸ hq), hsched.1 ▸ h.ids⟩
  rcases mem_append.1 hreq' with hrun | hwait
  · have hmem : req' ∈ (s.sched.recordOutput rid tokenId).2.running := hrun
    rw [Driver.running_recordOutput] at hmem
    rcases Driver.mem_updateFirst hmem with hold | ⟨req, hreq, -, rfl⟩
    · exact ⟨req', mem_append_left _ hold, rfl, fun _ hw => hw⟩
    · exact ⟨req, mem_append_left _ hreq, (Scheduler.requestId_recordToken req tokenId).symm,
        fun pos hw => mayWrite_recordToken hw⟩
  · have hmem : req' ∈ (heap.items (s.sched.recordOutput rid tokenId).2.waiting).map
        QueueEntry.request := hwait
    rw [hsched.1] at hmem
    exact ⟨req', mem_append_right _ hmem, rfl, fun _ hw => hw⟩

theorem Inv.getFinishedRequest (h : s.Inv) (rid : String) :
    (s.apply (.driver (.getFinishedRequest rid))).Inv := by
  refine ⟨h.exclusive.mono fun r i hi => hi.subset fun req hreq => ?_, h.dvd, h.kv, h.queued, h.ids⟩
  rcases mem_append.1 hreq with hrun | hwait
  · exact mem_append_left _ (mem_of_mem_eraseP hrun)
  · exact mem_append_right _ hwait

theorem Inv.sharePrefix (h : s.Inv) {src dst : String} {n : Nat}
    (hperm : s.Permitted (.sharePrefix src dst n)) : (s.apply (.sharePrefix src dst n)).Inv := by
  obtain ⟨hdvd, hsettled⟩ := hperm
  rcases h.exclusive.exact.sharePrefix_cases src dst n with ⟨e, heq⟩ | ⟨hnone, hlen, heq⟩
  · have hsame : s.apply (.sharePrefix src dst n) = s := by
      simp only [Sharing.apply, heq]
      rfl
    rw [hsame]
    exact h
  · -- a multiple of the block size is that many blocks
    obtain ⟨k, rfl⟩ := hdvd
    have hblocks : (s.bm.blockSize * k) ⌈/⌉ s.bm.blockSize = k :=
      mul_ceilDiv_self s.bm.blockSize_pos k
    rw [Nat.mul_div_cancel_left k s.bm.blockSize_pos] at hsettled
    have hshared : (s.apply (.sharePrefix src dst (s.bm.blockSize * k))).shared =
        Function.update s.shared dst (s.bm.blockSize * k) := by
      simp only [Sharing.apply, heq]
      rfl
    have hsize : (s.apply (.sharePrefix src dst (s.bm.blockSize * k))).bm.blockSize =
        s.bm.blockSize := by
      simp only [Sharing.apply, heq]
      show (foldl BlockManager.incrementRefCount s.bm _).blockSize = s.bm.blockSize
      exact foldl_frame fun _ _ => rfl
    have hstake : (s.apply (.sharePrefix src dst (s.bm.blockSize * k))).stake =
        Stake s.bm.blockSize (Function.update s.shared dst (s.bm.blockSize * k))
          s.liveRequests := by
      rw [Sharing.stake, hshared, hsize]
      rfl
    have hle : ∀ rid ≠ dst, ∀ i, Stake s.bm.blockSize
        (Function.update s.shared dst (s.bm.blockSize * k)) s.liveRequests rid i → s.stake rid i :=
      fun rid hne i hi => hi.update hne fun req hreq => ⟨req, hreq, rfl, fun _ hw => hw⟩
    refine ⟨?_, fun rid => ?_, h.kv, h.queued, h.ids⟩
    · rw [hstake]
      refine (h.exclusive.restake hnone hle).sharePrefix src dst (fun b hb => ?_) ?_
      · rw [hblocks] at hb
        exact (hsettled b hb).restake hnone hle
      · rintro i hi ⟨hle, -⟩
        rw [hblocks] at hi
        rw [Function.update_self, mul_comm] at hle
        have := Nat.mul_lt_mul_of_pos_right hi s.bm.blockSize_pos
        omega
    · rw [hshared, hsize]
      exact dvd_update h.dvd (Nat.dvd_mul_right ..) dst rid

variable {bid : Nat} {bm : BlockManager} {sr : ScheduledRequest} {cacheHits : List PrefixCacheHit}

theorem Inv.hold (h : s.Inv) (hperm : s.Permitted (.hold bid)) :
    (s.apply (.hold bid)).Inv := by
  obtain ⟨hpos, hsettled⟩ := hperm
  have hused : s.bm.tableRefs bid + s.held bid ≠ 0 := by
    intro hzero
    by_cases hvalid : bid < s.bm.numBlocks
    · have hcount : s.bm.refCount bid = s.bm.tableRefs bid + s.held bid :=
        h.exclusive.exact.counts bid hvalid
      omega
    · -- an id outside the pool has no counter
      have hnone : s.bm.blocks[bid]? = none := getElem?_eq_none (Nat.le_of_not_lt hvalid)
      rw [BlockManager.refCount, hnone] at hpos
      exact lt_irrefl 0 hpos
  exact ⟨h.exclusive.incrementRefCount hused hsettled, h.dvd, h.kv, h.queued, h.ids⟩

theorem Inv.holds (h : s.Inv) {ids : List Nat}
    (hids : ∀ b ∈ ids, 0 < s.bm.refCount b ∧ s.bm.Settled s.stake b) :
    Inv { s with bm := ids.foldl BlockManager.incrementRefCount s.bm
                 held := fun b => s.held b + ids.count b } := by
  induction ids generalizing s with
  | nil => exact h
  | cons bid ids ih =>
    have hfirst := h.hold (hids bid mem_cons_self)
    have hrest := ih hfirst fun b hb => by
      obtain ⟨hpos, hsettled⟩ := hids b (mem_cons_of_mem bid hb)
      refine ⟨?_, hsettled⟩
      -- a block in use has a counter
      have hvalid : b < s.bm.numBlocks := by
        by_contra hnot
        have hnone : s.bm.blocks[b]? = none := getElem?_eq_none (Nat.le_of_not_lt hnot)
        rw [BlockManager.refCount, hnone] at hpos
        exact lt_irrefl 0 hpos
      show 0 < (s.bm.incrementRefCount bid).refCount b
      rw [BlockManager.refCount_incrementRefCount hvalid]
      exact Nat.add_pos_left hpos _
    have hheld : (fun b => s.held b + (bid :: ids).count b) = fun b =>
        (s.held b + if b = bid then 1 else 0) + ids.count b := by
      funext b
      rw [count_cons]
      simp only [beq_iff_eq, eq_comm (a := bid)]
      omega
    rw [foldl_cons, hheld]
    exact hrest

theorem Inv.release (h : s.Inv) (hheld : s.held bid ≠ 0) :
    (s.apply (.release bid)).Inv := by
  have hsize : (s.bm.freeBlock bid).blockSize = s.bm.blockSize := by simp
  have hstake : (s.apply (.release bid)).stake = s.stake := by
    show Stake (s.bm.freeBlock bid).blockSize s.shared s.liveRequests = s.stake
    rw [hsize]
    rfl
  refine ⟨?_, fun rid => ?_, h.kv, h.queued, h.ids⟩
  · rw [hstake]
    exact h.exclusive.freeBlock hheld
  · show (s.bm.freeBlock bid).blockSize ∣ s.shared rid
    rw [hsize]
    exact h.dvd rid

theorem Inv.drop (h : s.Inv) {rid : String} (hsize : bm.blockSize = s.bm.blockSize)
    (hexclusive : bm.Exclusive s.held s.stake) (hnone : bm.blockTables.lookup rid = none) :
    ({ s with bm, shared := Function.update s.shared rid 0 } : Sharing heap).Inv := by
  refine ⟨?_, fun r => ?_, h.kv, h.queued, h.ids⟩
  · refine hexclusive.restake hnone fun rid' hne i hi => ?_
    show Stake s.bm.blockSize s.shared s.liveRequests rid' i
    rw [← hsize]
    exact Stake.update hne (fun req hreq => ⟨req, hreq, rfl, fun _ hw => hw⟩) hi
  · show bm.blockSize ∣ Function.update s.shared rid 0 r
    rw [hsize]
    exact dvd_update h.dvd (Nat.dvd_zero _) rid r

theorem Inv.free (h : s.Inv) (rid : String) : (s.apply (.free rid)).Inv := by
  refine h.drop (s.bm.blockSize_free rid) (h.exclusive.free rid) ?_
  rw [BlockManager.lookup_free, if_pos rfl]

theorem Inv.flush (h : s.Inv) (rid : String) : (s.apply (.flush rid)).Inv := by
  refine h.drop (s.bm.blockSize_flushRequest rid) (h.exclusive.flushRequest rid) ?_
  rw [BlockManager.blockTables_flushRequest, BlockManager.lookup_free, if_pos rfl]

theorem sameLedger_write (rid : String) (startPos : Nat) (data : List F32)
    (hiddenDim : Nat) (isKey : Bool) :
    BlockManager.SameLedger s.bm (s.apply (.write rid startPos data hiddenDim isKey)).bm := by
  cases hwrite : s.bm.writeKv rid startPos data hiddenDim isKey with
  | none =>
    simp only [Sharing.apply, hwrite]
    exact .refl s.bm
  | some =>
    simp only [Sharing.apply, hwrite]
    exact (BlockManager.writeKv_frame hwrite).1

theorem Inv.write (h : s.Inv) (rid : String) (startPos : Nat) (data : List F32) (hiddenDim : Nat)
    (isKey : Bool) : (s.apply (.write rid startPos data hiddenDim isKey)).Inv := by
  have hsame := s.sameLedger_write rid startPos data hiddenDim isKey
  refine ⟨?_, fun r => ?_, h.kv, h.queued, h.ids⟩
  · have hstake : (s.apply (.write rid startPos data hiddenDim isKey)).stake = s.stake := by
      unfold Sharing.stake
      rw [hsame.blockSize_eq]
      rfl
    rw [hstake]
    exact h.exclusive.sameLedger hsame
  · rw [hsame.blockSize_eq]
    exact h.dvd r

/-! ## A scheduling step -/

/-- The writes of a scheduled request change nothing that others read, and no held block. -/
structure ExclusiveWrites (sr : ScheduledRequest) : Prop where
  sole : ∀ p ∈ sr.positions, s.shared sr.requestId ≤ p.toNat →
    ∃ b, sr.blockTable[p.toNat / s.bm.blockSize]? = some b ∧ s.bm.refCount b = 1
  invisible : ∀ start data hiddenDim isKey result bm',
    (∀ off < data.length / hiddenDim, ∃ p ∈ sr.positions, p.toNat = start + off ∧
      s.shared sr.requestId ≤ p.toNat) →
    s.bm.writeKv sr.requestId start data hiddenDim isKey = some (result, bm') →
      (∀ rid ≠ sr.requestId, ∀ n hd, bm'.readKv rid n hd = s.bm.readKv rid n hd) ∧
      ∀ b, s.held b ≠ 0 → bm'.blocks[b]? = s.bm.blocks[b]?

theorem Inv.exclusiveWrites (h : s.Inv)
    (hsole : SolePositions s.held s.shared sr s.bm) : s.ExclusiveWrites sr where
  sole p hp hle := by
    obtain ⟨b, hblock, -, hone⟩ := hsole p hp hle
    exact ⟨b, hblock, h.exclusive.refCount_eq_one hone⟩
  invisible start data hiddenDim isKey result bm' hoffs hwrite := by
    refine BlockManager.write_invisible (fun off hoff b hb => ?_) hwrite
    obtain ⟨p, hp, hpos, hle⟩ := hoffs off hoff
    obtain ⟨b', -, htable, hone⟩ := hsole p hp hle
    -- the block `write_kv` finds is the scheduled one
    rw [hpos] at htable
    have hsame : b' = b := Option.some.inj (htable.symm.trans hb)
    rw [← hsame]
    exact hone

theorem Inv.admitRequests (h : s.Inv) {before : Scheduler heap × BlockManager}
    (hbefore : s.sched.admitRequests s.bm cacheHits = before)
    (hfits : ∀ e ∈ heap.items s.sched.waiting,
      e.request.withHit cacheHits ∈ before.1.running.drop s.reaped.sched.running.length →
        HitFits cacheHits s.reaped.bm s.held s.reaped.stake e.request) {shared : String → Nat}
    (hshared : shared = markHits s.reaped.shared
      (before.1.running.drop s.reaped.sched.running.length)) :
    before.2.blockSize = s.bm.blockSize ∧ (∀ rid, s.bm.blockSize ∣ shared rid) ∧
      before.2.Exclusive s.held (Stake s.bm.blockSize shared
        (before.1.running ++ (heap.items before.1.waiting).map QueueEntry.request)) ∧
      before.1.config = s.sched.config ∧
      (∀ q ∈ heap.items before.1.waiting, q ∈ heap.items s.sched.waiting) ∧
      ((heap.items before.1.waiting).map fun e => e.request.requestId).Nodup := by
  obtain ⟨entries, hwait, hrunning, hpool, hconfig, -⟩ := s.sched.admitRequests_spec s.bm cacheHits
  rw [hbefore] at hwait hrunning hpool hconfig
  have hentry : ∀ q, q ∈ entries ∨ q ∈ heap.items before.1.waiting →
      q ∈ heap.items s.sched.waiting := fun q hq => hwait.mem_iff.2 (mem_append.2 hq)
  -- the requests after reaping, before any of the entries is admitted
  have hlive : ∀ req, req ∈ s.sched.running.filter (!·.isFinished) ++
      (entries.map QueueEntry.request ++ (heap.items before.1.waiting).map QueueEntry.request) →
      req ∈ s.reaped.liveRequests := by
    intro req hreq
    rcases mem_append.1 hreq with hrun | hq
    · exact mem_append_left _ hrun
    · rw [← map_append] at hq
      obtain ⟨q, hmem, rfl⟩ := mem_map.1 hq
      exact mem_append_right _ (mem_map_of_mem (hentry q (mem_append.1 hmem)))
  have hsize : s.reaped.bm.blockSize = s.bm.blockSize := blockSize_reap s.sched.running s.bm
  have hreaped : s.reaped.bm.Exclusive s.held (Stake s.reaped.bm.blockSize s.reaped.shared
      (s.sched.running.filter (!·.isFinished) ++ (entries.map QueueEntry.request ++
        (heap.items before.1.waiting).map QueueEntry.request))) := by
    rw [hsize]
    refine (exclusive_foldl_free h.exclusive _).mono fun rid i hi => hi.subset fun req hreq => ?_
    rcases mem_append.1 (hlive req hreq) with hrun | hq
    · exact mem_append_left _ (mem_filter.1 hrun).1
    · exact mem_append_right _ hq
  have hreapedDvd : ∀ rid, s.reaped.bm.blockSize ∣ s.reaped.shared rid := by
    intro rid
    rw [hsize]
    exact dvd_clearShared h.dvd _ rid
  have hids := (hwait.map fun e => e.request.requestId).nodup_iff.1 h.ids
  rw [map_append] at hids
  obtain ⟨hnodup, hrest, -⟩ := nodup_append.1 hids
  have hdrop : before.1.running.drop s.reaped.sched.running.length =
      entries.map fun e => e.request.withHit cacheHits := by
    rw [hrunning]
    exact drop_left
  have hhits : ∀ e ∈ entries, HitFits cacheHits s.reaped.bm s.held
      (Stake s.reaped.bm.blockSize s.reaped.shared
        (s.sched.running.filter (!·.isFinished) ++ (entries.map QueueEntry.request ++
          (heap.items before.1.waiting).map QueueEntry.request))) e.request := by
    intro e he hit hfind hpos
    obtain ⟨hwhole, hnone, hblocks⟩ := hfits e (hentry e (.inl he))
      (hdrop ▸ mem_map_of_mem he) hit hfind hpos
    exact ⟨hwhole, hnone, fun b hb => ⟨(hblocks b hb).1, fun rid i hi =>
      (hblocks b hb).2 rid i (hi.subset hlive)⟩⟩
  obtain ⟨hadmitSize, hadmitDvd, hadmit⟩ := exclusive_admit hreaped
    (fun e he => h.queued e (hentry e (.inl he))) hnodup hhits hreapedDvd
  have hfold : entries.foldl (fun bm e => (admitRequest cacheHits bm e.request).2) s.reaped.bm =
      before.2 := hpool.symm
  rw [hfold, hsize] at hadmitSize hadmit
  rw [hsize, ← hdrop, ← hshared] at hadmitDvd
  rw [← append_assoc, ← hrunning, ← hdrop, ← hshared] at hadmit
  exact ⟨hadmitSize, hadmitDvd, hadmit, hconfig, fun q hq => hentry q (.inr hq), hrest⟩

theorem Inv.schedule_of_admitted (h : s.Inv)
    (hfits : ∀ e ∈ heap.items s.sched.waiting, e.request.withHit cacheHits ∈
      (s.sched.admitRequests s.bm cacheHits).1.running.drop s.reaped.sched.running.length →
        HitFits cacheHits s.reaped.bm s.held s.reaped.stake e.request)
    (hlt : ∀ req ∈ (s.sched.admitRequests s.bm cacheHits).1.running, req.sequence.length < 2 ^ 32) :
    let s' := s.apply (.driver (.schedule cacheHits))
    s'.Inv ∧ ∀ sr ∈ (s.sched.schedule s.bm cacheHits).1.requests,
      SolePositions s'.held s'.shared sr s'.bm := by
  generalize hbefore : s.sched.admitRequests s.bm cacheHits = before at hlt hfits
  generalize hshared : markHits s.reaped.shared
    (before.1.running.drop s.reaped.sched.running.length) = shared
  obtain ⟨hsize, hdvd, hadmit, hconfig, hentry, hids⟩ :=
    h.admitRequests hbefore hfits hshared.symm
  rw [← hsize] at hdvd hadmit
  obtain ⟨⟨hfinalSize, hfinal⟩, hslots⟩ := solePositions_buildSlots ⟨0, 0⟩ (hconfig ▸ h.kv) hlt
    (fun req hreq => mem_append_left _ hreq) hdvd hadmit
  have happly : s.apply (.driver (.schedule cacheHits)) =
      { s with sched := (before.1.buildBatch before.2).2.1,
               bm := (before.1.buildBatch before.2).2.2, shared } := by
    simp only [Sharing.apply, hbefore, hshared]
  have hbatch : (s.sched.schedule s.bm cacheHits).1 =
      batchOf (buildSlots before.1.config ⟨0, 0⟩ before.1.running before.2).1 := by
    simp only [Scheduler.schedule, hbefore]
    rfl
  dsimp only
  rw [happly, hbatch]
  refine ⟨⟨?_, fun rid => ?_, hconfig ▸ h.kv, fun q hq => h.queued q (hentry q hq), hids⟩,
    fun sr hsr => ?_⟩
  · show (buildSlots before.1.config ⟨0, 0⟩ before.1.running before.2).2.Exclusive s.held
      (Stake (buildSlots before.1.config ⟨0, 0⟩ before.1.running before.2).2.blockSize shared
        ((buildSlots before.1.config ⟨0, 0⟩ before.1.running before.2).1.map Slot.after ++
          (heap.items before.1.waiting).map QueueEntry.request))
    rw [hfinalSize]
    refine hfinal.mono fun rid i hi => hi.mono fun req' hreq' => ?_
    rcases mem_append.1 hreq' with hrun | hq
    · obtain ⟨slot, hslot, rfl⟩ := mem_map.1 hrun
      obtain ⟨-, hid, hbefore, hwrite⟩ := hslots slot hslot
      exact ⟨slot.before, mem_append_left _ hbefore, hid.symm, hwrite⟩
    · exact ⟨req', mem_append_right _ hq, rfl, fun _ hw => hw⟩
  · show (buildSlots before.1.config ⟨0, 0⟩ before.1.running before.2).2.blockSize ∣ shared rid
    rw [hfinalSize]
    exact hdvd rid
  · obtain ⟨slot, hslot, hscheduled⟩ := mem_filterMap.1 hsr
    exact (hslots slot hslot).1 sr hscheduled

theorem Inv.schedule (h : s.Inv) (hperm : s.Permitted (.driver (.schedule cacheHits))) :
    let s' := s.apply (.driver (.schedule cacheHits))
    s'.Inv ∧ ∀ sr ∈ (s.sched.schedule s.bm cacheHits).1.requests,
      SolePositions s'.held s'.shared sr s'.bm :=
  h.schedule_of_admitted (fun e he _ => hperm.1 e he) hperm.2

/-! ## Whole runs -/

theorem Inv.start {maxBatchSize maxTokensPerStep chunkSize : Nat} {sched : Scheduler heap}
    (hnew : Scheduler.new heap maxBatchSize maxTokensPerStep chunkSize true = .ok sched)
    (hfresh : bm.Fresh) : (Sharing.start sched bm).Inv := by
  obtain ⟨hkv, hrunning, hempty, -⟩ := Scheduler.new_spec hnew
  refine ⟨⟨hfresh.exact, ?_⟩, fun _ => Nat.dvd_zero _, hkv, fun q hq => ?_, ?_⟩
  · -- no request, so nothing is at stake
    rintro rid i b ⟨-, req, hreq, -⟩
    have hmem : req ∈ sched.running ++ (heap.items sched.waiting).map QueueEntry.request := hreq
    rw [hrunning, hempty] at hmem
    cases hmem
  · have hmem : q ∈ heap.items sched.waiting := hq
    rw [hempty] at hmem
    cases hmem
  · show ((heap.items sched.waiting).map _).Nodup
    rw [hempty]
    exact nodup_nil

theorem Inv.step {s' : Sharing heap} {e : SharingEvent} (h : s.Inv) (hstep : Step s e s') :
    s'.Inv := by
  obtain ⟨hperm, rfl⟩ := hstep
  cases e with
  | driver e =>
    cases e with
    | addRequest =>
      exact h.addRequest hperm
    | schedule => exact (h.schedule hperm).1
    | recordOutput rid tokenId => exact h.recordOutput rid tokenId
    | getFinishedRequest rid => exact h.getFinishedRequest rid
  | sharePrefix => exact h.sharePrefix hperm
  | hold => exact h.hold hperm
  | release => exact h.release hperm
  | free rid => exact h.free rid
  | flush rid => exact h.flush rid
  | write rid startPos data hiddenDim isKey => exact h.write rid startPos data hiddenDim isKey

theorem Inv.writes (h : s.Inv)
    (hsole : SolePositions s.held s.shared sr s.bm) {writes : List SharingEvent}
    (hwrites : ∀ e ∈ writes, e.IsWrite) :
    (writes.foldl Sharing.apply s).Inv ∧
      SolePositions (writes.foldl Sharing.apply s).held (writes.foldl Sharing.apply s).shared sr
        (writes.foldl Sharing.apply s).bm := by
  induction writes generalizing s with
  | nil => exact ⟨h, hsole⟩
  | cons e writes ih =>
    have hrest : ∀ e' ∈ writes, e'.IsWrite := fun e' he' =>
      hwrites e' (mem_cons_of_mem e he')
    have hfirst := hwrites e mem_cons_self
    cases e with
    | write rid startPos data hiddenDim isKey =>
      exact ih (h.write rid startPos data hiddenDim isKey)
        (hsole.sameLedger (s.sameLedger_write rid startPos data hiddenDim isKey)) hrest
    | _ => exact hfirst.elim

end Sharing

/-- In every disciplined run, what `schedule` emits writes only blocks with one holder. -/
theorem exclusiveWrites_of_run {maxBatchSize maxTokensPerStep chunkSize : Nat}
    {sched : Scheduler heap} {bm : BlockManager} {events writes : List SharingEvent}
    {s : Sharing heap} {cacheHits : List PrefixCacheHit}
    (hnew : Scheduler.new heap maxBatchSize maxTokensPerStep chunkSize true = .ok sched)
    (hfresh : bm.Fresh) (hrun : Run Sharing.Step (.start sched bm) events s)
    (hperm : s.Permitted (.driver (.schedule cacheHits))) (hwrites : ∀ e ∈ writes, e.IsWrite) :
    ∀ sr ∈ (s.sched.schedule s.bm cacheHits).1.requests,
      (writes.foldl Sharing.apply (s.apply (.driver (.schedule cacheHits)))).ExclusiveWrites
        sr := by
  intro sr hsr
  have hinv : s.Inv := hrun.invariant (Sharing.Inv.start hnew hfresh) fun _ _ _ h => h.step
  obtain ⟨hinv', hsole⟩ := hinv.schedule hperm
  obtain ⟨hfinal, hkept⟩ := hinv'.writes (hsole sr hsr) hwrites
  exact hfinal.exclusiveWrites hkept

/-- A request writes its first block; the block is held and then matched by a second request. -/
def sharedBlockCalls : List SharingEvent :=
  [.driver (.addRequest [1, 2, 3] 0 4 [] none), .driver (.schedule []), .hold 3,
    .driver (.addRequest [1, 2, 5] 0 4 [] none)]

theorem exclusiveWrites_of_run_witness :
    ∃ sched bm s, Scheduler.new listHeap 2 8 8 true = .ok sched ∧
      BlockManager.newWithCache 4 2 1 1 = .ok bm ∧
      Run Sharing.Step (.start sched bm) sharedBlockCalls s ∧
      ((s.sched.schedule s.bm [⟨"req_2", [3], 2⟩]).1.requests.map fun sr =>
        (sr.requestId, sr.positions, sr.blockTable)) =
          [("req_1", [2], [3, 2]), ("req_2", [2], [3, 1])] ∧
      ∀ sr ∈ (s.sched.schedule s.bm [⟨"req_2", [3], 2⟩]).1.requests,
        ([.write "req_1" 2 [⟨7⟩] 1 true].foldl Sharing.apply
          (s.apply (.driver (.schedule [⟨"req_2", [3], 2⟩])))).ExclusiveWrites sr := by
  obtain ⟨sched, hsched⟩ : ∃ sched, Scheduler.new listHeap 2 8 8 true = .ok sched := ⟨_, rfl⟩
  obtain ⟨bm, hbm⟩ : ∃ bm, BlockManager.newWithCache 4 2 1 1 = .ok bm := ⟨_, rfl⟩
  have henabled : Enabled Sharing.Permitted Sharing.apply (.start sched bm) sharedBlockCalls := by
    cases hsched
    cases hbm
    decide +kernel
  have hrun : Run Sharing.Step (.start sched bm) sharedBlockCalls _ :=
    Run.of_enabled (fun _ _ h => ⟨h, rfl⟩) henabled
  refine ⟨sched, bm, _, hsched, hbm, hrun, ?_,
    exclusiveWrites_of_run hsched (.inr ⟨4, 2, 1, 1, hbm⟩) hrun ?_ fun e he => ?_⟩
  · cases hsched
    cases hbm
    decide +kernel
  · cases hsched
    cases hbm
    decide +kernel
  · cases mem_singleton.1 he
    trivial

/-- A scheduled position at or beyond the shared prefix in a block with two holders. -/
def Sharing.Clash (s : Sharing listHeap) (cacheHits : List PrefixCacheHit) (rid : String)
    (pos : UInt32) : Prop :=
  ∃ sr ∈ (s.sched.schedule s.bm cacheHits).1.requests, sr.requestId = rid ∧ pos ∈ sr.positions ∧
    (s.apply (.driver (.schedule cacheHits))).shared rid ≤ pos.toNat ∧
    ∃ b ∈ sr.blockTable[pos.toNat / s.bm.blockSize]?,
      (s.apply (.driver (.schedule cacheHits))).bm.refCount b = 2
deriving Decidable

/-- A hit inside a block, a filled shared block, a whole prompt found, a non-KV decode step. -/
theorem exclusiveWrites_fails :
    ∃ sched full bm s after t u v found, Scheduler.new listHeap 2 8 1 true = .ok sched ∧
      Scheduler.new listHeap 2 8 8 false = .ok full ∧
      BlockManager.newWithCache 4 2 1 1 = .ok bm ∧
      s = [.driver (.addRequest [1, 2] 0 4 [] none), .driver (.schedule []),
        .driver (.schedule []), .driver (.addRequest [1, 9] 0 4 [] none)].foldl
          Sharing.apply (.start sched bm) ∧
      s.Clash [⟨"req_2", [3], 1⟩] "req_2" 1 ∧
      after = s.apply (.driver (.schedule [⟨"req_2", [3], 1⟩])) ∧
      (after.apply (.write "req_2" 1 [⟨7⟩] 1 true)).bm.readKv "req_1" 2 1 ≠
        after.bm.readKv "req_1" 2 1 ∧
      t = [.driver (.addRequest [1, 2, 3] 0 4 [] none), .driver (.schedule []),
        .sharePrefix "req_1" "x" 2].foldl Sharing.apply (.start sched bm) ∧
      t.Clash [] "req_1" 1 ∧
      u = [.driver (.addRequest [1, 2, 3] 0 4 [] none), .driver (.schedule []),
        .driver (.addRequest [1, 2, 5] 0 4 [] none)].foldl Sharing.apply (.start full bm) ∧
      u.Clash [⟨"req_2", [3], 2⟩] "req_1" 0 ∧
      v = [.driver (.addRequest [1, 2, 3] 0 4 [] none), .driver (.schedule []),
        .driver (.schedule []), .driver (.addRequest [1, 2] 0 4 [] none)].foldl
          Sharing.apply (.start sched bm) ∧
      v.Permitted (.driver (.schedule [⟨"req_2", [3], 2⟩])) ∧
      ((v.sched.schedule v.bm [⟨"req_2", [3], 2⟩]).1.requests.map fun sr =>
        (sr.requestId, sr.positions, sr.blockTable)) =
          [("req_1", [2], [3, 2]), ("req_2", [1], [3, 1])] ∧
      found = v.apply (.driver (.schedule [⟨"req_2", [3], 2⟩])) ∧ found.bm.refCount 3 = 2 ∧
      (found.apply (.write "req_2" 1 [⟨7⟩] 1 true)).bm.readKv "req_1" 2 1 ≠
        found.bm.readKv "req_1" 2 1 := by
  obtain ⟨sched, hsched⟩ : ∃ sched, Scheduler.new listHeap 2 8 1 true = .ok sched := ⟨_, rfl⟩
  obtain ⟨full, hfull⟩ : ∃ full, Scheduler.new listHeap 2 8 8 false = .ok full := ⟨_, rfl⟩
  obtain ⟨bm, hbm⟩ : ∃ bm, BlockManager.newWithCache 4 2 1 1 = .ok bm := ⟨_, rfl⟩
  refine ⟨sched, full, bm, _, _, _, _, _, _, hsched, hfull, hbm, rfl, ?_, rfl, ?_, rfl, ?_, rfl,
    ?_, rfl, ?_, ?_, rfl, ?_, ?_⟩
  all_goals
    cases hsched
    cases hfull
    cases hbm
    decide +kernel

end CompileForge.Runtime
