/-
  Serving one request of a batch: the forward pass emits the greedy token and puts the rows of
  the request in place, the token is recorded, and a finished request leaves its blocks to the
  prefix cache.
-/

import CompileForge.PythonRuntime.EngineRows

namespace CompileForge.PythonRuntime

open Lib CompileForge.Runtime List

variable {Row Logits : Type} {heap : MaxHeap QueueEntry QueueEntry.rank}
  {ex : Executor Row Logits} {e e' : Engine heap Row} {submitted : List Submission}
  {results : List GenerationResult} {held held' : Nat → Nat} {shared shared' : String → Nat}
  {sr : ScheduledRequest} {pending : List ScheduledRequest} {req : Request}

/-- The others keep their tables, contents and sole blocks. -/
structure OthersKept (e e' : Engine heap Row) (held held' : Nat → Nat) (rid : String) : Prop where
  table : ∀ rid' ≠ rid, e'.bm.table rid' = e.bm.table rid'
  slab : ∀ rid' ≠ rid, ∀ b ∈ e.bm.table rid', e'.slab b = e.slab b
  sole : ∀ rid' ≠ rid, ∀ b ∈ e.bm.table rid', e.bm.Sole held b → e'.bm.Sole held' b

section Others

variable {rid : String}

theorem OthersKept.inPlace (h : OthersKept e e' held held' rid) (hne : req.requestId ≠ rid)
    (hplace : InPlace ex (e.bm.table req.requestId) e.slab req) :
    InPlace ex (e'.bm.table req.requestId) e'.slab req := by
  intro p hp
  rw [h.table _ hne]
  exact (hplace p hp).congr (h.slab _ hne)

theorem OthersKept.readyAt (h : OthersKept e e' held held' rid) (hne : req.requestId ≠ rid)
    {c : Nat} (hready : ReadyAt ex e.bm held e.slab sr req c) :
    ReadyAt ex e'.bm held' e'.slab sr req c := by
  have hmem : ∀ b ∈ sr.blockTable, b ∈ e.bm.table req.requestId := fun b hb =>
    hready.table.subset hb
  refine ⟨hready.feeds, ?_, fun p hp => ?_, fun p hle hp => ?_⟩
  · rw [h.table _ hne]
    exact hready.table
  · exact (hready.old p hp).congr fun b hb => h.slab _ hne b (hmem b hb)
  · exact (hready.new p hle hp).congr fun b hb =>
      ⟨h.slab _ hne b (hmem b hb), h.sole _ hne b (hmem b hb)⟩

end Others

theorem notMem_of_sole {bm : BlockManager} {rid rid' : String} (hne : rid' ≠ rid) {b : Nat}
    (hsole : bm.Sole held b) (hmem : b ∈ bm.table rid') : b ∉ bm.table rid := by
  intro hmem'
  have hone : bm.tableRefs b + held b = 1 := hsole
  have hboth := BlockManager.count_table_add_le bm hne b
  have hpos := count_pos_iff.2 hmem
  have hpos' := count_pos_iff.2 hmem'
  omega

/-! ## The forward pass -/

theorem ReadyAt.forward [Zero Row] {bm : BlockManager} {slab : Slab Row} {c : Nat}
    (h : ReadyAt ex bm held slab sr req c) (hkv : ex.usesCacheManager = true) :
    (ex.forward slab sr).1.map ex.argmax = ex.greedyNext req.sequence ∧
      (∀ p < (fedSequence req.sequence).length, RowAt ex.blockSize (bm.table req.requestId)
        (ex.forward slab sr).2 (ex.model.rows (fedSequence req.sequence)) p) ∧
      AgreeOutside (bm.Sole held) sr.blockTable slab (ex.forward slab sr).2 := by
  have hcount : ∀ b, bm.Sole held b → sr.blockTable.count b ≤ 1 := by
    intro b hsole
    have hone : bm.tableRefs b + held b = 1 := hsole
    have htable := BlockManager.count_table_le bm req.requestId b
    have hpre := h.table.sublist.count_le b
    omega
  obtain ⟨hlogits, hrows, hagree⟩ := forward_spec hkv h.feeds hcount h.old h.new
  refine ⟨?_, fun p hp => (hrows p hp).extend h.table, hagree⟩
  rw [hlogits, Executor.greedyNext]

theorem greedyNext_isSome (ex : Executor Row Logits) {tokens : List UInt32}
    (hlt : tokens.length < 2 ^ 32) : ∃ token, ex.greedyNext tokens = some token := by
  have hlen : (ex.model.forward [] (fedSequence tokens)).2.length = max 1 tokens.length := by
    rw [(ex.model.forward_rows [] _).2.2, length_fedSequence hlt]
  have hne : (ex.model.forward [] (fedSequence tokens)).2 ≠ [] :=
    ne_nil_of_length_pos (by omega)
  rw [Executor.greedyNext, getLast?_eq_getLast_of_ne_nil hne]
  exact ⟨_, rfl⟩

theorem RowInv.record [Zero Row] (h : RowInv ex e (sr :: pending) held shared)
    (hkv : ex.usesCacheManager = true)
    (hids : (e.sched.running.map Request.requestId).Nodup) (hreq : req ∈ e.sched.running)
    (hid : req.requestId = sr.requestId) (hstate : req.state = .decode)
    (hlt : req.sequence.length < 2 ^ 32)
    (hother : sr.requestId ∉ pending.map ScheduledRequest.requestId) (token : UInt32)
    (outputTokens : AList fun _ : String => List UInt32) :
    RowInv ex { e with slab := (ex.forward e.slab sr).2
                       sched := (e.sched.recordOutput req.requestId token).2
                       outputTokens } pending held shared := by
  obtain ⟨c, hready⟩ := h.ready sr mem_cons_self req hreq hid
  obtain ⟨-, hrows, hagree⟩ := hready.forward hkv
  obtain ⟨houtputs, -, hafter⟩ := recordToken_finished req token
  obtain ⟨hid', hprompt, -⟩ := recordToken_same req token
  obtain ⟨hlive, hrunningIds, -⟩ := running_recordOutput hids hreq token
  -- only blocks of the served request were written
  have hkept : OthersKept e { e with
      slab := (ex.forward e.slab sr).2
      sched := (e.sched.recordOutput req.requestId token).2
      outputTokens } held held req.requestId := by
    refine ⟨fun _ _ => rfl, fun rid' hne b hb => hagree b ?_, fun _ _ _ _ hsole => hsole⟩
    rintro ⟨hsole, hmem⟩
    exact notMem_of_sole hne hsole hb (hready.table.subset hmem)
  refine ⟨h.sharing.recordOutput req.requestId token, h.blockSize, h.pinned, h.cached,
    fun rid hrid => h.absent rid (hrunningIds ▸ hrid), fun req' hreq' => ?_,
    fun req' hreq' hunfinished hpending => ?_, fun sr' hsr' req' hreq' hsame => ?_⟩
  · rcases hlive req' hreq' with ⟨hold, -⟩ | rfl
    · exact h.reach req' hold
    · have hreach := h.reach req hreq
      rw [ReachedBy, hid', hprompt]
      refine ⟨hreach.1, fun hprefill => ?_⟩
      rw [hafter, hstate] at hprefill
      split at hprefill <;> cases hprefill
  · rcases hlive req' hreq' with ⟨hold, hne⟩ | rfl
    · refine hkept.inPlace hne (h.rest req' hold hunfinished ?_)
      rw [map_cons, mem_cons, not_or]
      exact ⟨hid ▸ hne, hpending⟩
    · -- all but the recorded token has been fed
      have hsettled : settled (Scheduler.recordToken req token).1 = req.sequence := by
        rw [settled, hprompt, houtputs, dropLast_concat, Request.sequence]
      have hne : (Scheduler.recordToken req token).1.state ≠ .prefill := by
        rw [hafter, hstate]
        split <;> decide
      intro p hp
      rw [filled, if_neg hne, hsettled] at hp
      rw [hid', hsettled]
      refine hrows p ?_
      rw [length_fedSequence hlt]
      exact lt_of_lt_of_le hp (Nat.le_max_right 1 _)
  · have hne : req'.requestId ≠ req.requestId := by
      rw [hid, hsame]
      exact fun heq => hother (heq ▸ mem_map_of_mem hsr')
    rcases hlive req' hreq' with ⟨hold, -⟩ | rfl
    · obtain ⟨c', hready'⟩ := h.ready sr' (mem_cons_of_mem sr hsr') req' hold hsame
      exact ⟨c', hkept.readyAt hne hready'⟩
    · exact absurd hid' hne

/-! ## A finished request -/

theorem insertFinishedToCache_spec (e : Engine heap Row) (rid : String) :
    ∃ retained : List Nat, (∀ b ∈ retained, b ∈ e.bm.table rid) ∧ (e.insertFinishedToCache rid).bm =
        retained.foldl BlockManager.incrementRefCount e.bm ∧
      ∀ root', (e.insertFinishedToCache rid).radixCache = some root' →
        ∃ root, e.radixCache = some root ∧
          (PyRadix.PinnedChildren root.children → PyRadix.PinnedChildren root'.children) ∧
          ∀ b, root'.heldBlocks.count b ≤ root.heldBlocks.count b + retained.count b := by
  have hsame : ∃ retained : List Nat, (∀ b ∈ retained, b ∈ e.bm.table rid) ∧
      e.bm = retained.foldl BlockManager.incrementRefCount e.bm ∧
      ∀ root', e.radixCache = some root' → ∃ root, e.radixCache = some root ∧
        (PyRadix.PinnedChildren root.children → PyRadix.PinnedChildren root'.children) ∧
        ∀ b, root'.heldBlocks.count b ≤ root.heldBlocks.count b + retained.count b :=
    ⟨[], nofun, rfl,
      fun root' hroot => ⟨root', hroot, id, fun b => Nat.le_refl _⟩⟩
  rw [Engine.insertFinishedToCache]
  split
  · exact hsame
  case h_2 root hroot =>
    split
    · exact hsame
    case h_2 prompt hprompt =>
      split
      · exact hsame
      case h_2 blocks hblocks =>
        have htable : e.bm.table rid = blocks := by
          rw [BlockManager.getBlocks] at hblocks
          split at hblocks
          case h_1 => cases hblocks
          case h_2 table hlookup =>
            cases hblocks
            exact BlockManager.table_eq hlookup
        refine ⟨(PyRadix.insertLoop e.bm.blockSize blocks root (prompt ++ e.outputs rid) 0).2,
          fun b hb => ?_, rfl, fun root' hroot' => ?_⟩
        · rw [htable]
          exact PyRadix.insertLoop_retained _ _ _ _ _ b hb
        · cases hroot'
          exact ⟨root, hroot, PyRadix.insertLoop_pinnedChildren,
            PyRadix.count_insertLoop_le _ _ _ _ _⟩

/-- A finished request leaves its blocks to the prefix cache and gives up its table. -/
theorem RowInv.finish (h : RowInv ex e pending held shared)
    (hids : e.liveIds.Nodup) (hreq : req ∈ e.sched.running) (hstate : req.state = .finished)
    (hother : req.requestId ∉ pending.map ScheduledRequest.requestId) :
    ∃ held' shared', RowInv ex ((e.insertFinishedToCache req.requestId).cleanupRequest
      req.requestId) pending held' shared' := by
  obtain ⟨retained, hsub, hbm, htree⟩ := insertFinishedToCache_spec e req.requestId
  obtain ⟨hsched, hslab, -, -⟩ := frame_insertFinishedToCache e req.requestId
  obtain ⟨hrunningIds, -, hdisjoint⟩ := nodup_append.1 hids
  let held' : Nat → Nat := fun b => held b + retained.count b
  let shared' := Function.update shared req.requestId 0
  have hpool : ((e.insertFinishedToCache req.requestId).cleanupRequest req.requestId).bm =
      (retained.foldl BlockManager.incrementRefCount e.bm).free req.requestId := by
    rw [← hbm]
    rfl
  have htables : ∀ rid, (retained.foldl BlockManager.incrementRefCount e.bm).table rid =
      e.bm.table rid := fun rid =>
    BlockManager.table_congr (BlockManager.blockTables_foldl_increment retained) rid
  have hlookup : ∀ rid, ((e.insertFinishedToCache req.requestId).cleanupRequest
      req.requestId).bm.blockTables.lookup rid =
        if rid = req.requestId then none else e.bm.blockTables.lookup rid := by
    intro rid
    rw [hpool, BlockManager.lookup_free, BlockManager.blockTables_foldl_increment]
  have hsched' : ((e.insertFinishedToCache req.requestId).cleanupRequest
      req.requestId).sched = e.sched := hsched
  -- blocks of the finished request are in use, and nothing of them is at stake
  have hretained : ∀ b ∈ retained, 0 < e.bm.refCount b ∧
      e.bm.Settled (Sharing.stake (⟨e.sched, e.bm, held, shared⟩ : Sharing heap)) b := by
    intro b hb
    have hmem := hsub b hb
    have hpos := BlockManager.tableRefs_pos hmem
    have hexact : e.bm.Exact held := h.sharing.exclusive.exact
    have hvalid : b < e.bm.numBlocks := hexact.owed_valid b (by omega)
    have href : e.bm.refCount b = e.bm.tableRefs b + held b := hexact.counts b hvalid
    refine ⟨by omega, fun rid i hi hb' => ?_⟩
    by_cases hrid : rid = req.requestId
    · obtain ⟨-, req', hreq', hid', hwrite⟩ := hi
      rw [hrid] at hid'
      rcases mem_append.1 hreq' with hrun | hwait
      · rw [inj_on_of_nodup_map hrunningIds hrun hreq hid', Request.MayWrite, hstate]
          at hwrite
        exact hwrite
      · obtain ⟨q, hq, rfl⟩ := mem_map.1 hwait
        exact hdisjoint _ (mem_map_of_mem hreq) _
          (mem_map_of_mem (f := fun q : QueueEntry => q.request.requestId) hq) hid'.symm
    · exact notMem_of_sole hrid (h.sharing.exclusive.sole rid i b hi hb')
        (mem_of_getElem? hb') hmem
  have hsharing := (h.sharing.holds hretained).free req.requestId
  have hkept : OthersKept e ((e.insertFinishedToCache req.requestId).cleanupRequest
      req.requestId) held held' req.requestId := by
    refine ⟨fun rid hne => BlockManager.table_eq_of_lookup (by rw [hlookup, if_neg hne]),
      fun rid hne b hb => congrFun hslab b, fun rid hne b hb hsole => ?_⟩
    have hout := notMem_of_sole hne hsole hb
    have hone : e.bm.tableRefs b + held b = 1 := hsole
    have hfresh : retained.count b = 0 := count_eq_zero.2 fun hmem => hout (hsub b hmem)
    have hrefs := BlockManager.tableRefs_free
      (retained.foldl BlockManager.incrementRefCount e.bm) req.requestId b
    rw [htables, count_eq_zero.2 hout, add_zero, BlockManager.tableRefs_congr
      (BlockManager.blockTables_foldl_increment retained)] at hrefs
    show _ + (held b + retained.count b) = 1
    rw [hpool, hrefs, hfresh]
    exact hone
  refine ⟨held', shared', ?_, ?_, fun root' hroot' => ?_, fun root' hroot' b hb => ?_,
    fun rid hrid => ?_, fun req' hreq' => ?_, fun req' hreq' hunfinished hpending => ?_,
    fun sr' hsr' req' hreq' hsame => ?_⟩
  · rw [hsched', hpool]
    exact hsharing
  · have hsize : (retained.foldl BlockManager.incrementRefCount e.bm).blockSize =
        e.bm.blockSize := foldl_frame fun _ _ => rfl
    rw [hpool, BlockManager.blockSize_free, hsize]
    exact h.blockSize
  · obtain ⟨root, hroot, hpin, -⟩ := htree root' hroot'
    exact hpin (h.pinned root hroot)
  · obtain ⟨root, hroot, -, hcount⟩ := htree root' hroot'
    have hpos := count_pos_iff.2 hb
    have hle := hcount b
    show held b + retained.count b ≠ 0
    by_cases hzero : root.heldBlocks.count b = 0
    · omega
    · have := h.cached root hroot b (count_pos_iff.1 (Nat.pos_of_ne_zero hzero))
      omega
  · rw [hsched'] at hrid
    have hne : rid ≠ req.requestId := by
      rintro rfl
      exact hrid (mem_map_of_mem hreq)
    rw [hlookup, if_neg hne]
    exact ⟨(h.absent rid hrid).1, (Function.update_of_ne hne _ _).trans (h.absent rid hrid).2⟩
  · rw [hsched'] at hreq'
    have hreach := h.reach req' hreq'
    have hle : shared' req'.requestId ≤ shared req'.requestId := by
      by_cases hid : req'.requestId = req.requestId
      · rw [hid]
        show Function.update shared req.requestId 0 req.requestId ≤ _
        rw [Function.update_self]
        exact Nat.zero_le _
      · exact le_of_eq (Function.update_of_ne hid _ _)
    exact ⟨le_trans hle hreach.1, fun hprefill => le_trans hle (hreach.2 hprefill)⟩
  · rw [hsched'] at hreq'
    have hne : req'.requestId ≠ req.requestId := by
      intro hid
      rw [inj_on_of_nodup_map hrunningIds hreq' hreq hid] at hunfinished
      exact hunfinished hstate
    exact hkept.inPlace hne (h.rest req' hreq' hunfinished hpending)
  · rw [hsched'] at hreq'
    have hne : req'.requestId ≠ req.requestId := by
      rw [hsame]
      exact fun heq => hother (heq ▸ mem_map_of_mem hsr')
    obtain ⟨c, hready⟩ := h.ready sr' hsr' req' hreq' hsame
    exact ⟨c, hkept.readyAt hne hready⟩

theorem RowInv.serve [Zero Row] (h : RowInv ex e (sr :: pending) held shared)
    (ht : TokenInv ex e submitted results) (hkv : ex.usesCacheManager = true)
    (hreq : req ∈ e.sched.running) (hid : req.requestId = sr.requestId)
    (hstate : req.state = .decode) (hlt : req.sequence.length < 2 ^ 32)
    (hother : sr.requestId ∉ pending.map ScheduledRequest.requestId) {token : UInt32}
    (hnext : ex.greedyNext req.sequence = some token) :
    ∃ held' shared', RowInv ex
      (Engine.recordSampled { e with slab := (ex.forward e.slab sr).2 } req.requestId token).1
      pending held' shared' := by
  have hrecord := h.record hkv ht.runningIds hreq hid hstate hlt hother token
    (e.outputTokens.insert req.requestId (e.outputs req.requestId ++ [token]))
  have hrecorded : (e.sched.recordOutput req.requestId token).1 =
      (Scheduler.recordToken req token).2 := by
    rw [Scheduler.recordOutput, runningRequest_eq ht.runningIds hreq]
  obtain ⟨-, -, hmem, -⟩ := running_recordOutput ht.runningIds hreq token
  have hafter := (recordToken_finished req token).2.2
  have hid' := (recordToken_same req token).1
  have hids := (ht.recordSampled hreq hstate hnext).ids
  rw [Engine.liveIds, (frame_recordSampled e req.requestId token).1] at hids
  rw [Engine.recordSampled]
  dsimp only
  rw [hrecorded]
  cases hdone : (Scheduler.recordToken req token).2 with
  | false => exact ⟨held, shared, hrecord⟩
  | true =>
    rw [hdone, if_pos rfl] at hafter
    have hfinish := hrecord.finish hids hmem hafter (by rwa [hid', hid])
    rw [hid'] at hfinish
    exact hfinish

end CompileForge.PythonRuntime
