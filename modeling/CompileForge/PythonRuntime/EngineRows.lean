/-
  What an engine with a cache manager has in its slab.

  During a step a request of the batch may moreover write the positions it is fed, since
  their blocks have one holder or the rows already (`ReadyAt`).  The pool is the disciplined
  one of `Sharing`: blocks of the prefix cache are held, and nobody writes a held block.
-/

import CompileForge.PythonRuntime.EngineTokens
import CompileForge.PythonRuntime.SharedBlocks

namespace CompileForge.PythonRuntime

open Lib CompileForge.Runtime List

variable {Row Logits : Type} {heap : MaxHeap QueueEntry QueueEntry.rank}

variable {bm bm' : BlockManager} {rid : String} {cfg : SchedulerConfig} {budget : Budget}
  {req : Request} {turn : Turn} {sr : ScheduledRequest} {q : QueueEntry}

theorem lookup_of_grows {rid' : String} (h : bm.Grows rid bm')
    (hne : rid' ≠ rid) : bm'.blockTables.lookup rid' = bm.blockTables.lookup rid' := by
  rcases h with rfl | ⟨n, hn, rfl⟩
  · rfl
  · refine (AList.lookup_insert_ne hne).trans ?_
    rw [(BlockManager.popBlocks_frame n bm hn).1]

theorem table_prefix_of_grows (h : bm.Grows rid bm')
    (rid' : String) : bm.table rid' <+: bm'.table rid' :=
  prefix_iff_getElem?.mpr fun _ hi =>
    h.getElem?_table (getElem?_eq_getElem hi)

theorem lookup_of_scheduled (h : Turned cfg budget req bm turn)
    (hsr : turn.slot.scheduled? = some sr) :
    turn.bm.blockTables.lookup sr.requestId = some sr.blockTable := by
  cases h with
  | chunk hstate hremains hbudget hreserve hgrows hcovers =>
    cases hsr
    exact hcovers.1
  | decodeCached hstate hbudget hkv hreserve hgrows hcovers =>
    cases hsr
    exact hcovers.1
  | decodeFull hstate hbudget hkv htable =>
    cases hsr
    exact htable
  | _ => cases hsr

theorem buildSlots_tables (cfg : SchedulerConfig) (budget : Budget) (running : List Request)
    (bm : BlockManager) :
    ((buildSlots cfg budget running bm).2.blockSize = bm.blockSize ∧
      (∀ rid, bm.table rid <+: (buildSlots cfg budget running bm).2.table rid) ∧
      ∀ rid ∉ running.map Request.requestId,
        (buildSlots cfg budget running bm).2.blockTables.lookup rid = bm.blockTables.lookup rid) ∧
    ∀ slot ∈ (buildSlots cfg budget running bm).1,
      (∃ budget' bm' turn, Turned cfg budget' slot.before bm' turn ∧ turn.slot = slot ∧
        turn.bm.blockSize = bm.blockSize) ∧
      ∀ sr, slot.scheduled? = some sr →
        sr.blockTable <+: (buildSlots cfg budget running bm).2.table sr.requestId := by
  have hrule := buildSlots_stable_rule
    (I := fun bm' => bm'.blockSize = bm.blockSize ∧ (∀ rid, bm.table rid <+: bm'.table rid) ∧
      ∀ rid ∉ running.map Request.requestId, bm'.blockTables.lookup rid = bm.blockTables.lookup rid)
    (Q := fun req => req ∈ running)
    (R := fun slot bm' => (∃ budget' bm'' turn, Turned cfg budget' slot.before bm'' turn ∧
        turn.slot = slot ∧ turn.bm.blockSize = bm.blockSize) ∧
      ∀ sr, slot.scheduled? = some sr → sr.blockTable <+: bm'.table sr.requestId)
    (fun budget' req bm' turn hreq hI _ hturn => ?_)
    (fun budget' req bm' turn slot _ hturn hR => ?_)
    (fun req hreq => hreq) ⟨rfl, fun _ => prefix_refl _, fun _ _ => rfl⟩
    (alongSlots_true cfg budget running bm)
  · exact ⟨hrule.1, hrule.2.2⟩
  · obtain ⟨hsize, htables, habsent⟩ := hI
    have hgrows := hturn.grows
    have hsize' : turn.bm.blockSize = bm.blockSize := hgrows.blockSize_eq.trans hsize
    refine ⟨⟨hsize', fun rid => (htables rid).trans (table_prefix_of_grows hgrows rid),
      fun rid hrid => ?_⟩, ⟨budget', bm', turn, hturn.before_eq ▸ hturn, rfl, hsize'⟩,
      fun sr hsr => ?_⟩
    · have hne : rid ≠ req.requestId := by
        rintro rfl
        exact hrid (mem_map_of_mem hreq)
      rw [lookup_of_grows hgrows hne]
      exact habsent rid hrid
    · rw [BlockManager.table_eq (lookup_of_scheduled hturn hsr)]
  · exact ⟨hR.1, fun sr hsr => (hR.2 sr hsr).trans (table_prefix_of_grows hturn.grows _)⟩

/-! ## Rows of a request -/

/-- The tokens whose rows a request has when it waits: all but its last output. -/
def settled (req : Request) : List UInt32 := req.promptTokens ++ req.outputTokens.dropLast

/-- Up to where its rows are in place. -/
def filled (req : Request) : Nat :=
  if req.state = .prefill then req.prefillPos else (settled req).length

theorem settled_of_nil (h : req.outputTokens = []) :
    settled req = req.promptTokens ∧ req.sequence = req.promptTokens := by
  rw [settled, Request.sequence, h]
  exact ⟨append_nil _, append_nil _⟩

variable {ex : Executor Row Logits}

theorem rows_settled_grow (hne : settled req ≠ []) (hlt : req.sequence.length < 2 ^ 32) :
    ex.model.rows (fedSequence (settled req)) <+: ex.model.rows (fedSequence req.sequence) := by
  rcases eq_nil_or_concat req.outputTokens with hnil | ⟨outs, token, hsnoc⟩
  · obtain ⟨hsettled, hsequence⟩ := settled_of_nil hnil
    rw [hsettled, hsequence]
  · rw [concat_eq_append] at hsnoc
    have hsequence : req.sequence = settled req ++ [token] := by
      rw [Request.sequence, settled, hsnoc, dropLast_concat, append_assoc]
    rw [hsequence, length_append, length_singleton] at hlt
    rw [hsequence, fedSequence, fedSequence, if_neg hne, if_neg (by simp), placed_snoc hlt]
    exact ex.model.rows_grow _ _

theorem length_settled_ge (req : Request) :
    req.sequence.length ≤ (settled req).length + 1 ∧ (settled req).length ≤ req.sequence.length ∧
      req.promptTokens.length ≤ (settled req).length := by
  rw [Request.sequence, settled, length_append, length_append, length_dropLast]
  omega

variable (ex)

/-- The rows of a request are in its blocks, up to the token it has not been fed yet. -/
def InPlace (table : List Nat) (slab : Slab Row) (req : Request) : Prop :=
  ∀ p < filled req, RowAt ex.blockSize table slab (ex.model.rows (fedSequence (settled req))) p

/-- The request is fed the end of its sequence, the rows before it are in place, its own free. -/
structure ReadyAt (bm : BlockManager) (held : Nat → Nat)
    (slab : Slab Row) (sr : ScheduledRequest) (req : Request) (c : Nat) : Prop where
  feeds : FeedsEnd sr (fedSequence req.sequence) c
  table : sr.blockTable <+: bm.table req.requestId
  old : ∀ p < c, RowAt ex.blockSize sr.blockTable slab (ex.model.rows (fedSequence req.sequence)) p
  new : ∀ p, c ≤ p → p < (fedSequence req.sequence).length →
    Writable (bm.Sole held) ex.blockSize sr.blockTable slab
      (ex.model.rows (fedSequence req.sequence)) p

/-- The shared prefix of a request is a prefix of its prompt, behind its cursor. -/
def ReachedBy (shared : String → Nat) (req : Request) : Prop :=
  shared req.requestId ≤ req.promptTokens.length ∧
    (req.state = .prefill → shared req.requestId ≤ req.prefillPos)

/-- What the slab has; `held` counts the prefix cache's holds, `shared` the shared tokens. -/
structure RowInv (e : Engine heap Row)
    (pending : List ScheduledRequest) (held : Nat → Nat) (shared : String → Nat) : Prop where
  sharing : Sharing.Inv (⟨e.sched, e.bm, held, shared⟩ : Sharing heap)
  blockSize : ex.blockSize = e.bm.blockSize
  pinned : ∀ root, e.radixCache = some root → PyRadix.PinnedChildren root.children
  cached : ∀ root, e.radixCache = some root → ∀ b ∈ root.heldBlocks, held b ≠ 0
  absent : ∀ rid ∉ e.sched.running.map Request.requestId,
    e.bm.blockTables.lookup rid = none ∧ shared rid = 0
  reach : ∀ req ∈ e.sched.running, ReachedBy shared req
  rest : ∀ req ∈ e.sched.running, req.state ≠ .finished →
    req.requestId ∉ pending.map ScheduledRequest.requestId →
      InPlace ex (e.bm.table req.requestId) e.slab req
  ready : ∀ sr ∈ pending, ∀ req ∈ e.sched.running, req.requestId = sr.requestId →
    ∃ c, ReadyAt ex e.bm held e.slab sr req c

variable {ex}

variable {e : Engine heap Row} {submitted : List Submission} {results : List GenerationResult}
  {held : Nat → Nat} {shared : String → Nat}

theorem RowInv.start [Zero Row] {maxBatchSize maxTokensPerStep chunkSize : Nat}
    {sched : Scheduler heap}
    (hnew : Scheduler.new heap maxBatchSize maxTokensPerStep chunkSize true = .ok sched)
    (hfresh : bm.Fresh) (hsize : ex.blockSize = bm.blockSize) (hrunning : sched.running = [])
    (enablePrefixCache : Bool) :
    RowInv ex (Engine.new sched bm enablePrefixCache) [] (fun _ => 0) fun _ => 0 where
  sharing := Sharing.Inv.start hnew hfresh
  blockSize := hsize
  pinned := fun root hroot => by
    cases enablePrefixCache with
    | false => cases hroot
    | true =>
      cases hroot
      trivial
  cached := fun root hroot b hb => by
    cases enablePrefixCache with
    | false => cases hroot
    | true =>
      cases hroot
      cases hb
  absent := fun rid _ => by
    refine ⟨?_, rfl⟩
    show bm.blockTables.lookup rid = none
    rw [hfresh.blockTables_eq]
    exact AList.lookup_empty rid
  reach := fun req hreq => absurd (hrunning ▸ hreq) not_mem_nil
  rest := fun req hreq => absurd (hrunning ▸ hreq) not_mem_nil
  ready := nofun

theorem RowInv.addRequest (h : RowInv ex e [] held shared) (ht : TokenInv ex e submitted results)
    {sub : Submission} (hfresh : sub.requestId ∉ submitted.map Submission.requestId) :
    RowInv ex (e.addRequest sub.requestId sub.promptTokens sub.maxTokens sub.stopTokenIds) []
      held shared where
  sharing := by
    have hlive : sub.requestId ∉ e.liveIds := fun hmem => hfresh (ht.submitted_of_live hmem)
    rw [Engine.liveIds, mem_append, not_or] at hlive
    have hnone : e.bm.table sub.requestId = [] :=
      BlockManager.table_eq_nil (h.absent _ hlive.1).1
    have hperm : Sharing.Permitted ⟨e.sched, e.bm, held, shared⟩ (.driver (.addRequest
        sub.promptTokens 0 sub.maxTokens sub.stopTokenIds (some sub.requestId))) := by
      refine ⟨fun i hi => ?_, hlive.2⟩
      have hlen : i < (e.bm.table sub.requestId).length := hi
      rw [hnone] at hlen
      exact absurd hlen (Nat.not_lt_zero i)
    exact h.sharing.addRequest hperm
  blockSize := h.blockSize
  pinned := h.pinned
  cached := h.cached
  absent := h.absent
  reach := h.reach
  rest := h.rest
  ready := h.ready

theorem RowInv.evict_eq {pending : List ScheduledRequest} (h : RowInv ex e pending held shared) :
    e.evictCacheIfNeeded = e := by
  rw [Engine.evictCacheIfNeeded]
  cases hroot : e.radixCache with
  | none => rfl
  | some root =>
    dsimp only
    split
    · rw [PyRadix.evict_pinned (h.pinned root hroot), ← hroot]
    · rfl

/-! ## Admission -/

def Engine.reapedIds (e : Engine heap Row) : List String :=
  (e.sched.running.filter (·.isFinished)).map Request.requestId

theorem RowInv.match_spec (h : RowInv ex e [] held shared) (prompt : List UInt32) :
    (e.matchPrefix prompt).2 ≤ prompt.length ∧ ∀ b ∈ (e.matchPrefix prompt).1, held b ≠ 0 := by
  rw [Engine.matchPrefix]
  cases hroot : e.radixCache with
  | none => exact ⟨Nat.zero_le _, nofun⟩
  | some root =>
    obtain ⟨hblocks, htokens⟩ := matchLoop_within_tree e.bm.blockSize root prompt [] 0
    refine ⟨by rwa [zero_add] at htokens, fun b hb => ?_⟩
    have hcount := (hblocks b hb).resolve_left not_mem_nil
    exact h.cached root hroot b (count_pos_iff.1 hcount)

theorem RowInv.hitFits (h : RowInv ex e [] held shared) (ht : TokenInv ex e submitted results)
    (hserved : ∀ req ∈ e.admitted, e.HitServed ex req) (hkv : ex.usesCacheManager = true)
    (hq : q ∈ heap.items e.sched.waiting)
    (hadmitted : q.request.withHit e.buildCacheHits ∈ e.admitted) :
    let s : Sharing heap := ⟨e.sched, e.bm, held, shared⟩
    HitFits e.buildCacheHits s.reaped.bm held s.reaped.stake q.request := by
  intro s hit hfind hpos
  obtain ⟨hawaits, -⟩ := ht.waiting q hq
  obtain ⟨hblocks, htokens⟩ := find_buildCacheHits hawaits.prompt hfind
  have hsize : s.reaped.bm.blockSize = e.bm.blockSize := blockSize_reap e.sched.running e.bm
  have hexclusive : s.reaped.bm.Exclusive held s.reaped.stake := by
    have hfree := exclusive_foldl_free h.sharing.exclusive e.reapedIds
    show s.reaped.bm.Exclusive held (Stake s.reaped.bm.blockSize _ _)
    rw [hsize]
    refine hfree.mono fun rid i hi => hi.subset fun req hreq => ?_
    rcases mem_append.1 hreq with hrun | hwait
    · exact mem_append_left _ (mem_filter.1 hrun).1
    · exact mem_append_right _ hwait
  have hnone : s.reaped.bm.blockTables.lookup q.request.requestId = none := by
    have hrun : q.request.requestId ∉ e.sched.running.map Request.requestId := fun hmem =>
      (nodup_append.1 ht.ids).2.2 _ hmem _
        (mem_map_of_mem (f := fun q : QueueEntry => q.request.requestId) hq) rfl
    refine (lookup_reap e.sched.running e.bm q.request.requestId).trans ?_
    split
    · rfl
    · exact (h.absent _ hrun).1
  have hwhole : hit.matchedTokens = s.reaped.bm.blockSize * hit.matchedBlocks.length := by
    have hprompt := (withHit_same e.buildCacheHits q.request).2.1
    rcases hserved _ hadmitted with hzero | hserved
    · rw [hprompt, ← htokens] at hzero
      omega
    · rw [if_pos hkv, hprompt, ← htokens, ← hblocks] at hserved
      rw [hsize, ← h.blockSize]
      exact hserved.2.1
  refine ⟨hwhole, hnone, fun b hb => ?_⟩
  have hheld : held b ≠ 0 := (h.match_spec q.request.promptTokens).2 b (hblocks ▸ hb)
  exact ⟨fun hzero => hheld (Nat.eq_zero_of_add_eq_zero_left hzero),
    hexclusive.settled_of_held hheld⟩

/-- The shared prefixes once the finished requests are reaped and others admitted. -/
def Engine.sharedAfter (e : Engine heap Row) (shared : String → Nat) : String → Nat :=
  markHits (clearShared shared e.reapedIds) e.admitted

theorem notMem_reapedIds (hids : (e.sched.running.map Request.requestId).Nodup)
    (hreq : req ∈ e.sched.running) (hlive : req.isFinished = false) :
    req.requestId ∉ e.reapedIds := by
  intro hmem
  obtain ⟨req', hreq', hid⟩ := mem_map.1 hmem
  obtain ⟨hrun, hfin⟩ := mem_filter.1 hreq'
  rw [inj_on_of_nodup_map hids hrun hreq hid, hlive] at hfin
  cases hfin

section Admission

variable (h : RowInv ex e [] held shared) (ht : TokenInv ex e submitted results)
  (hserved : ∀ req ∈ e.admitted, e.HitServed ex req) (hkv : ex.usesCacheManager = true)
include h ht hserved hkv

/-- An admitted request has the rows of its hit, which its shared prefix reaches to. -/
theorem RowInv.admitted (hq : q ∈ heap.items e.sched.waiting)
    (hadmitted : q.request.withHit e.buildCacheHits ∈ e.admitted) {table : List Nat}
    (htable : ∀ hit, e.buildCacheHits.find? (fun h => h.requestId = q.request.requestId) = some
      hit → 0 < hit.matchedTokens → table = hit.matchedBlocks) {shared' : String → Nat}
    (hshared : shared' q.request.requestId = (q.request.withHit e.buildCacheHits).prefillPos) :
    ReachedBy shared' (q.request.withHit e.buildCacheHits) ∧
      InPlace ex table e.slab (q.request.withHit e.buildCacheHits) := by
  obtain ⟨hawaits, -⟩ := ht.waiting q hq
  have hserved := hserved _ hadmitted
  obtain ⟨hid, hprompt, houtputs, -⟩ := withHit_same e.buildCacheHits q.request
  rw [ReachedBy, hid, hshared, hprompt]
  rw [Engine.HitServed, hprompt] at hserved
  rcases withHit_cases e.buildCacheHits q.request with heq | ⟨hit, hfind, hpos, heq⟩
  · -- without a hit the cursor is at the start
    have hcursor : q.request.startPrefill.prefillPos = 0 := hawaits.queued.2
    rw [heq, hcursor]
    refine ⟨⟨Nat.zero_le _, fun _ => Nat.le_refl 0⟩, fun p hp => ?_⟩
    have hfilled : filled q.request.startPrefill = 0 := (if_pos rfl).trans hcursor
    rw [hfilled] at hp
    exact absurd hp (Nat.not_lt_zero p)
  · obtain ⟨hblocks, htokens⟩ := find_buildCacheHits hawaits.prompt hfind
    have hcursor : (q.request.withHit e.buildCacheHits).prefillPos = hit.matchedTokens := by
      rw [heq]
    have hwithin : hit.matchedTokens ≤ q.request.promptTokens.length := by
      rw [htokens]
      exact (h.match_spec q.request.promptTokens).1
    have hsettled : settled (q.request.withHit e.buildCacheHits) = q.request.promptTokens :=
      (settled_of_nil (houtputs.trans hawaits.outputTokens)).1.trans hprompt
    have hfilled : filled (q.request.withHit e.buildCacheHits) ≤ hit.matchedTokens := by
      rw [filled, hsettled, hcursor]
      split
      · exact Nat.le_refl _
      case isFalse hstate =>
        rw [heq] at hstate
        dsimp only at hstate
        split at hstate
        case isTrue hwhole => exact hwhole
        case isFalse => exact absurd rfl hstate
    rw [hcursor]
    refine ⟨⟨hwithin, fun _ => Nat.le_refl _⟩, fun p hp => ?_⟩
    have hp' : p < (e.matchPrefix q.request.promptTokens).2 := by
      rw [← htokens]
      exact lt_of_lt_of_le hp hfilled
    have hne : q.request.promptTokens ≠ [] := by
      intro hnil
      rw [hnil, length_nil] at hwithin
      omega
    rw [hsettled, fedSequence, if_neg hne, htable hit hfind hpos, hblocks]
    rcases hserved with hzero | hserved
    · omega
    · rw [if_pos hkv] at hserved
      exact hserved.2.2 p hp'

theorem RowInv.admission :
    e.admission.2.blockSize = e.bm.blockSize ∧ (∀ rid ∉ e.admission.1.running.map Request.requestId,
        e.admission.2.blockTables.lookup rid = none ∧ e.sharedAfter shared rid = 0) ∧
      ∀ req ∈ e.admission.1.running, ReachedBy (e.sharedAfter shared) req ∧
        InPlace ex (e.admission.2.table req.requestId) e.slab req := by
  obtain ⟨entries, hwait, hadmitted, hrun, -, hpool⟩ := admission_spec e
  have hentry : ∀ q ∈ entries, q ∈ heap.items e.sched.waiting := fun q hq =>
    hwait.mem_iff.2 (mem_append_left _ hq)
  have hadmittedIds : e.admitted.map Request.requestId =
      entries.map fun q => q.request.requestId := by
    rw [hadmitted, map_map]
    exact map_congr_left fun q _ => (withHit_same _ q.request).1
  have hids := ((hwait.map fun q => q.request.requestId).append_left _).nodup_iff.1 ht.ids
  rw [map_append, ← append_assoc] at hids
  have hids := (nodup_append.1 hids).1
  obtain ⟨-, hentryIds, hdisjoint⟩ := nodup_append.1 hids
  have hreaped : ∀ rid, (Scheduler.reap e.sched.running e.bm).2.blockTables.lookup rid =
      if rid ∈ e.reapedIds then none else e.bm.blockTables.lookup rid :=
    lookup_reap e.sched.running e.bm
  refine ⟨?_, fun rid hrid => ?_, fun req hreq => ?_⟩
  · rw [hpool, blockSize_admit]
    exact blockSize_reap e.sched.running e.bm
  · rw [hrun, map_append, mem_append, not_or] at hrid
    have hentries : rid ∉ entries.map fun q => q.request.requestId := hadmittedIds ▸ hrid.2
    -- the id was reaped, or had no table before
    have hgone : rid ∈ e.reapedIds ∨ rid ∉ e.sched.running.map Request.requestId := by
      by_contra hnot
      rw [not_or, not_not] at hnot
      obtain ⟨req, hreq, hid⟩ := mem_map.1 hnot.2
      cases hfin : req.isFinished with
      | true => exact hnot.1 (mem_map.2 ⟨req, mem_filter.2 ⟨hreq, hfin⟩, hid⟩)
      | false =>
        exact hrid.1 (mem_map.2 ⟨req, mem_filter.2 ⟨hreq, by rw [hfin]; rfl⟩, hid⟩)
    refine ⟨?_, ?_⟩
    · rw [hpool, lookup_admit_ne _ hentries, hreaped]
      split
      case isTrue => rfl
      case isFalse hnot => exact (h.absent rid (hgone.resolve_left hnot)).1
    · rw [Engine.sharedAfter, markHits_of_notMem hrid.2]
      exact clearShared_of_mem (hgone.imp id fun hout => (h.absent rid hout).2)
  · rw [hrun] at hreq
    rcases mem_append.1 hreq with hold | hnew
    · obtain ⟨hmem, hlive⟩ := mem_filter.1 hold
      have hlive : req.isFinished = false := by simpa using hlive
      have hmemId : req.requestId ∈ e.sched.running.map Request.requestId :=
        mem_map_of_mem hmem
      have hnotReaped := notMem_reapedIds ht.runningIds hmem hlive
      have hnotEntry : req.requestId ∉ entries.map fun q => q.request.requestId := fun hq =>
        hdisjoint _ hmemId _ hq rfl
      have htable : e.admission.2.table req.requestId = e.bm.table req.requestId := by
        refine BlockManager.table_eq_of_lookup ?_
        rw [hpool, lookup_admit_ne _ hnotEntry, hreaped, if_neg hnotReaped]
      have hshared : e.sharedAfter shared req.requestId = shared req.requestId := by
        rw [Engine.sharedAfter, markHits_of_notMem (hadmittedIds ▸ hnotEntry),
          clearShared_of_notMem hnotReaped]
      rw [ReachedBy, hshared, htable]
      refine ⟨h.reach req hmem, h.rest req hmem ?_ not_mem_nil⟩
      rintro hstate
      rw [Request.isFinished, hstate] at hlive
      cases hlive
    · have hnew' := hnew
      rw [hadmitted] at hnew'
      obtain ⟨q, hq, rfl⟩ := mem_map.1 hnew'
      have hid := (withHit_same e.buildCacheHits q.request).1
      have hmemId : q.request.requestId ∈ entries.map fun q => q.request.requestId :=
        mem_map_of_mem (f := fun q : QueueEntry => q.request.requestId) hq
      have hout : q.request.requestId ∉ e.sched.running.map Request.requestId := fun hmem =>
        hdisjoint _ hmem _ hmemId rfl
      have hnone : (Scheduler.reap e.sched.running e.bm).2.blockTables.lookup
          q.request.requestId = none := by
        rw [hreaped]
        split
        · rfl
        · exact (h.absent _ hout).1
      refine h.admitted ht hserved hkv (hentry q hq) hnew (fun hit hfind hpos => ?_) ?_
      · rw [hid, hpool]
        exact table_admit e.buildCacheHits hentryIds hq hnone hfind hpos
      · have hzero : clearShared shared e.reapedIds q.request.requestId = 0 :=
          clearShared_of_mem (.inr (h.absent _ hout).2)
        rw [← hid] at hzero
        have hmark := markHits_of_mem (hadmittedIds ▸ hentryIds) hnew hzero
        rw [hid] at hmark
        exact hmark

end Admission

/-! ## The batch loop -/

theorem filled_le_settled {kv : Bool} (h : AtRest kv req) :
    filled req ≤ (settled req).length := by
  rw [filled]
  split
  case isTrue hstate =>
    obtain ⟨-, hpos⟩ := h hstate
    have hprompt := (length_settled_ge req).2.2
    omega
  case isFalse => exact Nat.le_refl _

theorem readyAt_of_turned {slab : Slab Row}
    (hturn : Turned cfg budget req bm turn) (hkv : cfg.useKvCache = true)
    (hrest : AtRest true req) (hlt : req.sequence.length < 2 ^ 32)
    (hsr : turn.slot.scheduled? = some sr) (hwhole : sr.state ≠ .prefill)
    (hsize : ex.blockSize = turn.bm.blockSize) (hsize' : ex.blockSize = bm'.blockSize)
    (htable : sr.blockTable <+: bm'.table req.requestId) (hreach : ReachedBy shared req)
    (hplace : InPlace ex (bm'.table req.requestId) slab req)
    (hsole : SolePositions held shared sr bm') :
    ∃ c, ReadyAt ex bm' held slab sr turn.slot.after c := by
  obtain ⟨-, hid, -, hcover, hfeeds⟩ := feedsEnd_of_turned hturn hkv hrest hlt hsr hwhole
  have hafter := after_eq_of_turned hturn
  have hafterId : turn.slot.after.requestId = req.requestId := by rw [hafter]
  have hseq : turn.slot.after.sequence = req.sequence := by rw [hafter]; rfl
  have hfed := length_fedSequence hlt
  obtain ⟨hmore, -, hprompt⟩ := length_settled_ge req
  -- what is filled is also in place for the table the request is served with
  have hplaced : ∀ p < filled req, p < (fedSequence req.sequence).length →
      RowAt ex.blockSize sr.blockTable slab (ex.model.rows (fedSequence req.sequence)) p := by
    intro p hp hlen
    have hne : settled req ≠ [] := by
      intro hnil
      have hle := filled_le_settled hrest
      rw [hnil, length_nil] at hle
      omega
    refine ((hplace p hp).of_rows (rows_settled_grow hne hlt)).restrict htable ?_
    rw [← hsize] at hcover
    exact Nat.div_lt_of_lt_mul (lt_of_lt_of_le hlen hcover)
  -- the request is fed from where it is filled up to, or again from its last token
  have hcursor : ∀ c, (if req.state = .prefill then req.prefillPos
      else (fedSequence req.sequence).length - 1) = c → c < (fedSequence req.sequence).length →
      c ≤ filled req ∧ (shared req.requestId ≤ c ∨ shared req.requestId ≤ filled req) := by
    rintro c rfl hlen
    rw [filled]
    split
    case isTrue hstate => exact ⟨Nat.le_refl _, .inl (hreach.2 hstate)⟩
    case isFalse => exact ⟨by omega, .inr (le_trans hreach.1 hprompt)⟩
  generalize (if req.state = .prefill then req.prefillPos
    else (fedSequence req.sequence).length - 1) = c at hcursor hfeeds
  obtain ⟨hle, hshared⟩ := hcursor c rfl hfeeds.lt
  refine ⟨c, hseq.symm ▸ hfeeds, hafterId.symm ▸ htable, fun p hp => ?_, fun p hfrom hlen => ?_⟩
  · rw [hseq]
    exact hplaced p (lt_of_lt_of_le hp hle) (lt_trans hp hfeeds.lt)
  · rw [hseq] at hlen ⊢
    by_cases hp : p < shared req.requestId
    · -- inside the shared prefix the row is there already
      obtain ⟨b, hb, hrow⟩ := hplaced p (by omega) hlen
      exact ⟨b, hb, .inr hrow⟩
    · have hmem : p ∈ sr.positions.map UInt32.toNat := by
        rw [hfeeds.positions_eq, mem_range'_1]
        omega
      obtain ⟨pos, hpos, rfl⟩ := mem_map.1 hmem
      obtain ⟨b, hb, -, halone⟩ := hsole pos hpos (hid ▸ Nat.le_of_not_lt hp)
      rw [← hsize'] at hb
      exact ⟨b, hb, .inl halone⟩

/-- Scheduling with hits that can be served makes the whole batch ready. -/
theorem RowInv.schedule (h : RowInv ex e [] held shared) (ht : TokenInv ex e submitted results)
    (hserved : ∀ req ∈ e.admitted, e.HitServed ex req) (hkv : ex.usesCacheManager = true)
    (hcalm : e.Undisturbed) :
    RowInv ex e.scheduleBatch.1 e.scheduleBatch.2 held (e.sharedAfter shared) := by
  obtain ⟨hsize, habsent, hstanding⟩ := h.admission ht hserved hkv
  obtain ⟨hids, -, hentering⟩ := ht.admission hserved
  have hconfig : e.admission.1.config = e.sched.config := (admission_spec e).choose_spec.2.2.2.1
  have hcached : e.admission.1.config.useKvCache = true := by
    rw [hconfig, ht.config, hkv]
  obtain ⟨⟨hfinalSize, htables, hothers⟩, hslots⟩ := buildSlots_tables e.admission.1.config
    ⟨0, 0⟩ e.admission.1.running e.admission.2
  have hstep := h.sharing.schedule_of_admitted
    (fun q hq hadm => h.hitFits ht hserved hkv hq hadm) hcalm.2.2
  obtain ⟨hsharing, hsole⟩ := hstep
  have hfinal : ex.blockSize = e.scheduleBatch.1.bm.blockSize :=
    h.blockSize.trans (hfinalSize.trans hsize).symm
  have hslotSpec := fun slot (hslot : slot ∈ e.slots) => ht.slot hserved hcalm hslot
  have hafterIds := slots_after_ids fun slot hslot => (hslotSpec slot hslot).2.2.1
  have hbefore : ∀ slot ∈ e.slots, slot.before ∈ e.admission.1.running := by
    intro slot hslot
    rw [← slots_before]
    exact mem_map_of_mem hslot
  -- what is in place before the loop is in place behind it
  have hplace : ∀ slot ∈ e.slots,
      InPlace ex (e.scheduleBatch.1.bm.table slot.before.requestId) e.slab slot.before :=
    fun slot hslot p hp => ((hstanding _ (hbefore slot hslot)).2 p hp).extend (htables _)
  -- a scheduled slot is a turn that makes its request ready
  have hready : ∀ slot ∈ e.slots, ∀ sr, slot.scheduled? = some sr →
      slot.after.state = .decode ∧ sr.requestId = slot.after.requestId ∧
        ∃ c, ReadyAt ex e.scheduleBatch.1.bm held e.slab sr slot.after c := by
    intro slot hslot sr hsr
    have hmem := hbefore slot hslot
    have hspec := hslotSpec slot hslot
    have hrest : AtRest true slot.before := hkv ▸ hspec.1.rest
    have hlt := hcalm.2.2 _ hmem
    have hbatch : sr ∈ e.scheduleBatch.2 := mem_filterMap.2 ⟨slot, hslot, hsr⟩
    have hstand := hstanding _ hmem
    have hplaced := hplace slot hslot
    obtain ⟨⟨budget, bm', turn, hturn, hturnSlot, hturnSize⟩, htable⟩ := hslots slot hslot
    subst hturnSlot
    obtain ⟨hdecode, hid, -⟩ := feedsEnd_of_turned hturn hcached hrest hlt hsr
      (hcalm.2.1 sr hbatch)
    refine ⟨hdecode, hid.trans hspec.2.2.1.symm, readyAt_of_turned hturn hcached hrest hlt hsr
      (hcalm.2.1 sr hbatch) ?_ hfinal (hid ▸ htable sr hsr) hstand.1 hplaced (hsole sr hbatch)⟩
    exact h.blockSize.trans (hturnSize.trans hsize).symm
  refine ⟨hsharing, hfinal, h.pinned, h.cached, fun rid hrid => ?_, fun req hreq => ?_,
    fun req hreq _ hpending => ?_, fun sr hsr req hreq hid => ?_⟩
  · have hout : rid ∉ e.admission.1.running.map Request.requestId := by
      rw [← hafterIds]
      exact hrid
    exact ⟨(hothers rid hout).trans (habsent rid hout).1, (habsent rid hout).2⟩
  · obtain ⟨slot, hslot, rfl⟩ := mem_map.1 hreq
    have hreach := (hstanding _ (hbefore slot hslot)).1
    obtain ⟨-, -, hid, hidle⟩ := hslotSpec slot hslot
    have hprompt : slot.after.promptTokens = slot.before.promptTokens := by
      obtain ⟨⟨_, _, turn, hturn, hturnSlot, -⟩, -⟩ := hslots slot hslot
      subst hturnSlot
      rw [after_eq_of_turned hturn]
    have hmoved : slot.after = slot.before ∨ slot.after.state = .decode := by
      cases hsr : slot.scheduled? with
      | none => exact (hidle hsr).imp id fun hempty => by rw [hempty.2.2]
      | some sr => exact .inr (hready slot hslot sr hsr).1
    refine ⟨?_, fun hprefill => ?_⟩
    · rw [hid, hprompt]
      exact hreach.1
    · rcases hmoved with heq | hdecode
      · rw [heq] at hprefill ⊢
        exact hreach.2 hprefill
      · rw [hdecode] at hprefill
        cases hprefill
  · obtain ⟨slot, hslot, rfl⟩ := mem_map.1 hreq
    obtain ⟨-, -, hid, hidle⟩ := hslotSpec slot hslot
    have hnone : slot.scheduled? = none := by
      cases hsr : slot.scheduled? with
      | none => rfl
      | some sr =>
        refine absurd ?_ hpending
        rw [← (hready slot hslot sr hsr).2.1]
        exact mem_map_of_mem (mem_filterMap.2 ⟨slot, hslot, hsr⟩)
    rw [hid]
    rcases hidle hnone with heq | ⟨hprompt, houtputs, heq⟩
    · rw [heq]
      exact hplace slot hslot
    · -- an empty prompt has no rows
      intro p hp
      have hfilled : filled slot.after = 0 := by
        rw [heq, filled, settled]
        dsimp only
        rw [hprompt, houtputs]
        rfl
      rw [hfilled] at hp
      exact absurd hp (Nat.not_lt_zero p)
  · obtain ⟨slot, hslot, hscheduled⟩ := mem_filterMap.1 hsr
    obtain ⟨-, hid', hat⟩ := hready slot hslot sr hscheduled
    have hsame : req = slot.after := by
      have hnodup : (e.scheduleBatch.1.sched.running.map Request.requestId).Nodup := by
        rw [(scheduleBatch_eq e).1]
        show ((e.slots.map Slot.after).map Request.requestId).Nodup
        rw [hafterIds]
        exact (nodup_append.1 hids).1
      exact inj_on_of_nodup_map hnodup hreq (mem_map_of_mem hslot) (hid.trans hid')
    rw [hsame]
    exact hat

end CompileForge.PythonRuntime
