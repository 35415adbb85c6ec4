/-
  Which blocks the requests of a scheduler may still write in KV mode, and how the steps of
  `schedule` move them: a turn never goes back, reaping drops tables, and admission with hits on
  settled blocks keeps `Exclusive`.
-/

import CompileForge.Runtime.Cache.Exclusive
import CompileForge.Runtime.Engine.DecodePositions

namespace CompileForge.Runtime

open Lib List

/-! ## What a request may still write -/

/-- The positions an unfinished request may still write in KV mode. -/
def Request.MayWrite (req : Request) (pos : Nat) : Prop :=
  match req.state with
  | .waiting => True
  | .prefill => min req.prefillPos (req.sequence.length - 1) ≤ pos
  | .decode => req.sequence.length - 1 ≤ pos
  | .finished => False

instance decidableMayWrite (req : Request) (pos : Nat) : Decidable (req.MayWrite pos) := by
  unfold Request.MayWrite
  cases req.state <;> infer_instance

variable {cfg : SchedulerConfig} {budget : Budget} {req : Request} {bm : BlockManager}

variable {pos i n : Nat} {rid : String} {running : List Request} {bm' : BlockManager}
  {sr : ScheduledRequest}

theorem Request.MayWrite.le {pos' : Nat} (h : req.MayWrite pos) (hle : pos ≤ pos') :
    req.MayWrite pos' := by
  unfold Request.MayWrite at h ⊢
  split at h
  · trivial
  · exact le_trans h hle
  · exact le_trans h hle
  · exact h

theorem Turned.mayWrite_anti {turn : Turn} (h : Turned cfg budget req bm turn)
    (hafter : turn.slot.after.MayWrite pos) : req.MayWrite pos := by
  have hlen : req.sequence.length = req.promptTokens.length + req.outputTokens.length :=
    length_append
  cases h with
  | exhausted hstate hrest =>
    -- nothing to cut: the cursor may stand behind the last token
    have hdecode : req.sequence.length - 1 ≤ pos := hafter
    unfold Request.MayWrite
    rw [hstate]
    exact le_trans (Nat.min_le_right ..) hdecode
  | promptUnreserved hstate hrest hbudget hoom =>
    unfold Request.MayWrite at hafter ⊢
    have hmoved : (req.advance (chunkLen cfg budget req)).state = .prefill := hstate
    simp only [hmoved] at hafter
    have hcursor : min (req.prefillPos + chunkLen cfg budget req) (req.sequence.length - 1) ≤
        pos := hafter
    rw [hstate]
    show min req.prefillPos (req.sequence.length - 1) ≤ pos
    omega
  | chunk hstate hrest hbudget hreserve hgrows hcovers =>
    have hmore := tokensRemaining_ne_zero_iff.1 hrest
    unfold Request.MayWrite at hafter ⊢
    have hseq : ((req.advance (chunkLen cfg budget req)).settlePrefill).sequence =
        req.sequence := by
      rw [Request.sequence, promptTokens_settlePrefill, outputTokens_settlePrefill]
      rfl
    have hmoved : (req.advance (chunkLen cfg budget req)).state = .prefill := hstate
    simp only [state_settlePrefill, hmoved, hseq, prefillPos_settlePrefill] at hafter
    rw [hstate]
    show min req.prefillPos (req.sequence.length - 1) ≤ pos
    split at hafter
    · rename_i heq
      split at heq <;> cases heq
    · have hcursor : min (req.prefillPos + chunkLen cfg budget req) (req.sequence.length - 1) ≤
          pos := hafter
      omega
    · exact le_trans (Nat.min_le_right ..) hafter
    · exact hafter.elim
  | _ => exact hafter

theorem mayWrite_recordToken {tokenId : UInt32}
    (h : (Scheduler.recordToken req tokenId).1.MayWrite pos) : req.MayWrite pos := by
  rcases Scheduler.recordToken_cases req tokenId with ⟨heq, -⟩ | ⟨heq, -⟩
  · rw [heq] at h
    exact h.elim
  · rw [heq] at h
    have hlen : (req.appendToken tokenId).sequence.length = req.sequence.length + 1 := by
      simp [Request.sequence, Request.appendToken, add_assoc]
    unfold Request.MayWrite at h ⊢
    have hstate : (req.appendToken tokenId).state = req.state := rfl
    rw [hstate, hlen] at h
    split at h
    · trivial
    · have hcursor : min req.prefillPos (req.sequence.length + 1 - 1) ≤ pos := h
      show min req.prefillPos (req.sequence.length - 1) ≤ pos
      omega
    · have hcursor : req.sequence.length + 1 - 1 ≤ pos := h
      show req.sequence.length - 1 ≤ pos
      omega
    · exact h

/-! ## Blocks at stake -/

/-- Some unfinished request `rid` may still write its block `i`, outside its shared prefix. -/
def Stake (blockSize : Nat) (shared : String → Nat) (live : List Request) (rid : String)
    (i : Nat) : Prop :=
  shared rid ≤ i * blockSize ∧
    ∃ req ∈ live, req.requestId = rid ∧ req.MayWrite (i * blockSize + (blockSize - 1))
deriving Decidable

variable {blockSize : Nat} {shared : String → Nat} {live live' : List Request}

theorem Stake.mono (hle : ∀ req' ∈ live', ∃ req ∈ live, req.requestId = req'.requestId ∧
      ∀ pos, req'.MayWrite pos → req.MayWrite pos)
    (h : Stake blockSize shared live' rid i) : Stake blockSize shared live rid i := by
  obtain ⟨hshared, req', hreq', hid, hwrite⟩ := h
  obtain ⟨req, hreq, hsame, himp⟩ := hle req' hreq'
  exact ⟨hshared, req, hreq, hsame.trans hid, himp _ hwrite⟩

theorem Stake.subset (hsub : ∀ req ∈ live', req ∈ live)
    (h : Stake blockSize shared live' rid i) : Stake blockSize shared live rid i :=
  h.mono fun req' hreq' => ⟨req', hsub req' hreq', rfl, fun _ hw => hw⟩

theorem Stake.of_position (hsize : 0 < blockSize) (hreq : req ∈ live)
    (hdvd : blockSize ∣ shared req.requestId) (hshared : shared req.requestId ≤ pos)
    (hwrite : req.MayWrite pos) :
    Stake blockSize shared live req.requestId (pos / blockSize) := by
  refine ⟨?_, req, hreq, rfl, hwrite.le ?_⟩
  · -- a whole number of blocks is shared
    obtain ⟨k, hk⟩ := hdvd
    rw [hk] at hshared ⊢
    have hle : k ≤ pos / blockSize := (Nat.le_div_iff_mul_le hsize).2 (by
      rw [mul_comm]
      exact hshared)
    rw [mul_comm (pos / blockSize)]
    exact Nat.mul_le_mul_left blockSize hle
  · have hmod := Nat.mod_lt pos hsize
    have hdiv := Nat.div_add_mod pos blockSize
    rw [mul_comm] at hdiv
    omega

theorem Stake.update {rid' : String} (hne : rid' ≠ rid)
    (hle : ∀ req' ∈ live', ∃ req ∈ live, req.requestId = req'.requestId ∧
      ∀ pos, req'.MayWrite pos → req.MayWrite pos)
    (h : Stake blockSize (Function.update shared rid n) live' rid' i) :
    Stake blockSize shared live rid' i := by
  obtain ⟨hshared, hreq⟩ := h.mono hle
  rw [Function.update_of_ne hne] at hshared
  exact ⟨hshared, hreq⟩

/-! ## Reaping -/

/-- The shared prefixes once the tables of `rids` are gone. -/
def clearShared (shared : String → Nat) (rids : List String) : String → Nat :=
  rids.foldl (fun shared rid => Function.update shared rid 0) shared

variable {held : Nat → Nat}

theorem exclusive_free (h : bm.Exclusive held (Stake blockSize shared live)) (rid : String) :
    (bm.free rid).Exclusive held (Stake blockSize (Function.update shared rid 0) live) := by
  have hnone : (bm.free rid).blockTables.lookup rid = none := by
    rw [BlockManager.lookup_free, if_pos rfl]
  exact (h.free rid).restake hnone fun rid' hne i hi =>
    hi.update hne fun req hreq => ⟨req, hreq, rfl, fun _ hw => hw⟩

theorem exclusive_foldl_free (h : bm.Exclusive held (Stake blockSize shared live))
    (rids : List String) :
    (rids.foldl BlockManager.free bm).Exclusive held
      (Stake blockSize (clearShared shared rids) live) := by
  induction rids generalizing bm shared with
  | nil => exact h
  | cons rid rids ih => exact ih (exclusive_free h rid)

theorem dvd_update (h : ∀ rid, blockSize ∣ shared rid) (hn : blockSize ∣ n)
    (r rid : String) : blockSize ∣ Function.update shared r n rid := by
  by_cases hrid : rid = r
  · rw [hrid, Function.update_self]
    exact hn
  · rw [Function.update_of_ne hrid]
    exact h rid

theorem dvd_clearShared (h : ∀ rid, blockSize ∣ shared rid) (rids : List String) (rid : String) :
    blockSize ∣ clearShared shared rids rid := by
  induction rids generalizing shared with
  | nil => exact h rid
  | cons r rids ih => exact ih fun rid' => dvd_update h (Nat.dvd_zero blockSize) r rid'

/-! ## Admission -/

/-- Admitted requests are marked with the cursor that their hit has set. -/
def markHits (shared : String → Nat) (admitted : List Request) : String → Nat :=
  admitted.foldl (fun shared req => if 0 < req.prefillPos then
    Function.update shared req.requestId req.prefillPos else shared) shared

/-- A hit that covers whole blocks, all in use and settled, for a request without a table. -/
def HitFits (cacheHits : List PrefixCacheHit) (bm : BlockManager) (held : Nat → Nat)
    (stake : String → Nat → Prop) (req : Request) : Prop :=
  ∀ hit, cacheHits.find? (fun h => h.requestId = req.requestId) = some hit → 0 < hit.matchedTokens →
      hit.matchedTokens = bm.blockSize * hit.matchedBlocks.length ∧
      bm.blockTables.lookup req.requestId = none ∧
      ∀ b ∈ hit.matchedBlocks, bm.tableRefs b + held b ≠ 0 ∧ bm.Settled stake b

instance decidableHitFits {cacheHits : List PrefixCacheHit} {stake : String → Nat → Prop}
    [∀ rid i, Decidable (stake rid i)] : Decidable (HitFits cacheHits bm held stake req) :=
  inferInstanceAs (Decidable (∀ hit ∈ cacheHits.find? (fun h => h.requestId = req.requestId),
    0 < hit.matchedTokens → hit.matchedTokens = bm.blockSize * hit.matchedBlocks.length ∧
      bm.blockTables.lookup req.requestId = none ∧
      ∀ b ∈ hit.matchedBlocks, bm.tableRefs b + held b ≠ 0 ∧ bm.Settled stake b))

theorem Request.Queued.mayWrite (h : req.Queued) (pos : Nat) : req.MayWrite pos := by
  unfold Request.MayWrite
  rw [h.1]
  trivial

theorem admitRequest_cases (cacheHits : List PrefixCacheHit) (bm : BlockManager)
    (hqueued : req.Queued) :
    ((admitRequest cacheHits bm req).2 = bm ∧ (req.withHit cacheHits).prefillPos = 0) ∨
    ∃ hit, cacheHits.find? (fun h => h.requestId = req.requestId) = some hit ∧
      0 < hit.matchedTokens ∧ (req.withHit cacheHits).prefillPos = hit.matchedTokens ∧
      (admitRequest cacheHits bm req).2 =
        bm.assignCachedBlocks req.requestId hit.matchedBlocks := by
  simp only [admitRequest, Request.withHit]
  cases hfind : cacheHits.find? (fun h => h.requestId = req.requestId) with
  | none => exact .inl ⟨rfl, hqueued.2⟩
  | some hit =>
    dsimp only
    by_cases hpos : 0 < hit.matchedTokens
    · rw [if_pos hpos, if_pos hpos]
      exact .inr ⟨hit, rfl, hpos, rfl, rfl⟩
    · rw [if_neg hpos, if_neg hpos]
      exact .inl ⟨rfl, hqueued.2⟩

theorem exclusive_admit {cacheHits : List PrefixCacheHit} {entries : List QueueEntry}
    {rest : List Request} (h : bm.Exclusive held
      (Stake bm.blockSize shared (running ++ (entries.map QueueEntry.request ++ rest))))
    (hqueued : ∀ e ∈ entries, e.request.Queued)
    (hids : (entries.map fun e => e.request.requestId).Nodup)
    (hfits : ∀ e ∈ entries, HitFits cacheHits bm held
      (Stake bm.blockSize shared (running ++ (entries.map QueueEntry.request ++ rest))) e.request)
    (hdvd : ∀ rid, bm.blockSize ∣ shared rid) :
    let admitted := entries.map fun e => e.request.withHit cacheHits
    let pool := entries.foldl (fun bm e => (admitRequest cacheHits bm e.request).2) bm
    pool.blockSize = bm.blockSize ∧ (∀ rid, bm.blockSize ∣ markHits shared admitted rid) ∧
      pool.Exclusive held
        (Stake bm.blockSize (markHits shared admitted) (running ++ (admitted ++ rest))) := by
  induction entries generalizing running bm shared with
  | nil => exact ⟨rfl, hdvd, h⟩
  | cons e entries ih =>
    have hq := hqueued e mem_cons_self
    have hid := requestId_withHit cacheHits e.request
    rw [map_cons, nodup_cons] at hids
    -- the admitted request takes the place of the queued one
    have hlive : ∀ req' ∈ (running ++ [e.request.withHit cacheHits]) ++
        (entries.map QueueEntry.request ++ rest),
        ∃ req ∈ running ++ ((e :: entries).map QueueEntry.request ++ rest),
          req.requestId = req'.requestId ∧ ∀ pos, req'.MayWrite pos → req.MayWrite pos := by
      intro req' hreq'
      rcases mem_append.1 hreq' with hmem | hmem
      · rcases mem_append.1 hmem with hmem | hmem
        · exact ⟨req', mem_append_left _ hmem, rfl, fun _ hw => hw⟩
        · rw [mem_singleton.1 hmem]
          exact ⟨e.request, by simp, hid.symm, fun pos _ => hq.mayWrite pos⟩
      · exact ⟨req', mem_append_right _ (mem_cons_of_mem _ hmem), rfl, fun _ hw => hw⟩
    have hassoc : ∀ l : List Request, (running ++ [e.request.withHit cacheHits]) ++ (l ++ rest) =
        running ++ ((e.request.withHit cacheHits :: l) ++ rest) := by
      intro l
      simp
    have hfold : ∀ pool, (e :: entries).foldl
        (fun bm e => (admitRequest cacheHits bm e.request).2) pool =
        entries.foldl (fun bm e => (admitRequest cacheHits bm e.request).2)
          (admitRequest cacheHits pool e.request).2 := fun _ => rfl
    dsimp only
    rw [hfold, map_cons, ← hassoc]
    have hmark : markHits shared (e.request.withHit cacheHits ::
        entries.map fun e => e.request.withHit cacheHits) =
        markHits (if 0 < (e.request.withHit cacheHits).prefillPos then
          Function.update shared e.request.requestId (e.request.withHit cacheHits).prefillPos
          else shared) (entries.map fun e => e.request.withHit cacheHits) := by
      rw [← hid]
      rfl
    rw [hmark]
    rcases admitRequest_cases cacheHits bm hq with ⟨hpool, hpos⟩ | ⟨hit, hfind, hpos, hcut, hpool⟩
    · rw [hpool, hpos, if_neg (lt_irrefl 0)]
      refine ih (h.mono fun rid i hi => hi.mono hlive)
        (fun q hmem => hqueued q (mem_cons_of_mem e hmem)) hids.2 (fun q hmem => ?_) hdvd
      intro hit hfind hmatched
      obtain ⟨hwhole, hnone, hblocks⟩ := hfits q (mem_cons_of_mem e hmem) hit hfind hmatched
      refine ⟨hwhole, hnone, fun b hb => ⟨(hblocks b hb).1, fun rid i hi => ?_⟩⟩
      exact (hblocks b hb).2 rid i (hi.mono hlive)
    · obtain ⟨hwhole, hnone, hblocks⟩ := hfits e mem_cons_self hit hfind hpos
      rw [hpool, hcut, if_pos hpos]
      have hstake : ∀ rid' ≠ e.request.requestId, ∀ i,
          Stake bm.blockSize (Function.update shared e.request.requestId hit.matchedTokens)
            ((running ++ [e.request.withHit cacheHits]) ++
              (entries.map QueueEntry.request ++ rest)) rid' i →
          Stake bm.blockSize shared
            (running ++ ((e :: entries).map QueueEntry.request ++ rest)) rid' i :=
        fun rid' hne i hi => hi.update hne hlive
      have hown : ∀ i < hit.matchedBlocks.length, ¬ Stake bm.blockSize
          (Function.update shared e.request.requestId hit.matchedTokens)
          ((running ++ [e.request.withHit cacheHits]) ++
            (entries.map QueueEntry.request ++ rest)) e.request.requestId i := by
        rintro i hi ⟨hshared, -⟩
        rw [Function.update_self, hwhole, mul_comm] at hshared
        have := Nat.mul_lt_mul_of_pos_right hi bm.blockSize_pos
        omega
      have hshare := (h.restake hnone hstake).assignCachedBlocks hnone
        (fun b hb => (hblocks b hb).1) (fun b hb => (hblocks b hb).2.restake hnone hstake) hown
      have htables : (bm.assignCachedBlocks e.request.requestId hit.matchedBlocks).blockTables =
          (bm.setTable e.request.requestId hit.matchedBlocks).blockTables :=
        BlockManager.blockTables_assignCachedBlocks hnone
      have hsize : (bm.assignCachedBlocks e.request.requestId hit.matchedBlocks).blockSize =
          bm.blockSize := BlockManager.blockSize_assignCachedBlocks ..
      rw [← hsize] at hshare ⊢
      refine ih hshare (fun q hmem => hqueued q (mem_cons_of_mem e hmem)) hids.2
        (fun q hmem hit' hfind' hpos' => ?_) (fun rid => ?_)
      · obtain ⟨hwhole', hnone', hblocks'⟩ :=
          hfits q (mem_cons_of_mem e hmem) hit' hfind' hpos'
        have hother : q.request.requestId ≠ e.request.requestId := by
          intro heq
          refine hids.1 ?_
          rw [← heq]
          exact mem_map_of_mem hmem
        rw [hsize]
        refine ⟨hwhole', ?_, fun b hb => ⟨?_, ?_⟩⟩
        · rw [htables, BlockManager.lookup_setTable_ne hother]
          exact hnone'
        · have hrefs := BlockManager.tableRefs_setTable bm e.request.requestId
            hit.matchedBlocks b
          rw [BlockManager.table_eq_nil hnone, count_nil, add_zero] at hrefs
          have hused := (hblocks' b hb).1
          rw [BlockManager.tableRefs_congr htables]
          omega
        · exact ((hblocks' b hb).2.restake hnone hstake).share htables hown
      · rw [hsize]
        refine dvd_update hdvd ?_ _ rid
        rw [hwhole]
        exact Nat.dvd_mul_right ..

/-! ## The batch loop -/

/-- A scheduled position beyond the shared prefix lies in a block with one holder. -/
def SolePositions (held : Nat → Nat) (shared : String → Nat) (sr : ScheduledRequest)
    (bm : BlockManager) : Prop :=
  ∀ p ∈ sr.positions, shared sr.requestId ≤ p.toNat →
    ∃ b, sr.blockTable[p.toNat / bm.blockSize]? = some b ∧
      (bm.table sr.requestId)[p.toNat / bm.blockSize]? = some b ∧ bm.Sole held b

variable {held : Nat → Nat} {turn : Turn}

theorem SolePositions.sameLedger
    (h : SolePositions held shared sr bm) (hsame : BlockManager.SameLedger bm bm') :
    SolePositions held shared sr bm' := by
  intro p hp hshared
  obtain ⟨b, hblock, htable, hsole⟩ := h p hp hshared
  refine ⟨b, ?_, ?_, ?_⟩
  · rw [hsame.blockSize_eq]
    exact hblock
  · rw [hsame.blockSize_eq, hsame.table_eq]
    exact htable
  · show bm'.tableRefs b + held b = 1
    rw [BlockManager.tableRefs_congr hsame.blockTables_eq]
    exact hsole

theorem SolePositions.grows {stake : String → Nat → Prop} (h : SolePositions held shared sr bm)
    (hx : bm.Exclusive held stake) (hgrows : bm.Grows rid bm') :
    SolePositions held shared sr bm' := by
  intro p hp hshared
  obtain ⟨b, hblock, htable, hsole⟩ := h p hp hshared
  rw [hgrows.blockSize_eq]
  exact ⟨b, hblock, hgrows.getElem?_table htable, hx.sole_of_grows hgrows hsole⟩

/-- What a turn schedules lies in blocks at stake, hence with one holder. -/
theorem Turned.solePositions (hturn : Turned cfg budget req bm turn)
    (hkv : cfg.useKvCache = true) (hlt : req.sequence.length < 2 ^ 32) (hreq : req ∈ live)
    (hdvd : ∀ rid, bm.blockSize ∣ shared rid)
    (hx : turn.bm.Exclusive held (Stake bm.blockSize shared live)) :
    ∀ sr, turn.slot.scheduled? = some sr → SolePositions held shared sr turn.bm := by
  have hlen : req.sequence.length = req.promptTokens.length + req.outputTokens.length :=
    length_append
  -- a position the request may write, inside its table
  have hposition : ∀ {bm' : BlockManager} {blocks : List Nat} {n pos : Nat},
      bm'.Exclusive held (Stake bm.blockSize shared live) → bm.Grows req.requestId bm' →
      bm'.Covers req.requestId n blocks → pos < n → req.MayWrite pos →
      shared req.requestId ≤ pos →
      ∃ b, blocks[pos / bm'.blockSize]? = some b ∧
        (bm'.table req.requestId)[pos / bm'.blockSize]? = some b ∧ bm'.Sole held b := by
    intro bm' blocks n pos hx hgrows hcovers hpos hwrite hshared
    obtain ⟨htable, hcover⟩ := hcovers
    have hpage : pos / bm'.blockSize < blocks.length := Nat.div_lt_of_lt_mul (by omega)
    have hb := getElem?_eq_getElem hpage
    have hstake := Stake.of_position bm.blockSize_pos hreq (hdvd req.requestId) hshared hwrite
    rw [← hgrows.blockSize_eq] at hstake hx
    have htab : (bm'.table req.requestId)[pos / bm'.blockSize]? =
        some blocks[pos / bm'.blockSize] := by
      rw [BlockManager.table_eq htable]
      exact hb
    exact ⟨_, hb, htab, hx.sole _ _ _ hstake htab⟩
  intro sr hsr p hp hshared
  cases hturn with
  | @chunk hstate hrest hbudget bm' blocks hreserve hgrows hcovers =>
    cases hsr
    have hle : req.prefillPos + chunkLen cfg budget req ≤ req.promptTokens.length := by
      have := chunkLen_le cfg budget req
      have := tokensRemaining_ne_zero_iff.1 hrest
      omega
    have hend : req.prefillPos + chunkLen cfg budget req < 2 ^ 32 := by omega
    have hmem : p.toNat ∈ (u32Range req.prefillPos
        (req.prefillPos + chunkLen cfg budget req)).map UInt32.toNat := mem_map_of_mem hp
    rw [toNat_u32Range (Nat.le_add_right ..) hend, mem_range'_1] at hmem
    refine hposition hx hgrows hcovers (by omega) ?_ hshared
    unfold Request.MayWrite
    rw [hstate]
    exact le_trans (Nat.min_le_left ..) hmem.1
  | @decodeCached hstate hbudget _ bm' blocks hreserve hgrows hcovers =>
    cases hsr
    have hp' : p = UInt32.ofNat (req.promptTokens.length + req.outputTokens.length - 1) :=
      mem_singleton.1 hp
    have hsmall : req.promptTokens.length + req.outputTokens.length - 1 < 2 ^ 32 := by omega
    have hcast : p.toNat = req.promptTokens.length + req.outputTokens.length - 1 := by
      rw [hp']
      exact UInt32.toNat_ofNat_of_lt' hsmall
    refine hposition hx hgrows hcovers (by omega) ?_ hshared
    unfold Request.MayWrite
    rw [hstate]
    show req.sequence.length - 1 ≤ p.toNat
    omega
  | decodeFull hstate hbudget hfull htable =>
    rw [hkv] at hfull
    cases hfull
  | _ => cases hsr

theorem solePositions_buildSlots (budget : Budget)
    (hkv : cfg.useKvCache = true) (hlt : ∀ req ∈ running, req.sequence.length < 2 ^ 32)
    (hsub : ∀ req ∈ running, req ∈ live) (hdvd : ∀ rid, bm.blockSize ∣ shared rid)
    (hx : bm.Exclusive held (Stake bm.blockSize shared live)) :
    ((buildSlots cfg budget running bm).2.blockSize = bm.blockSize ∧
      (buildSlots cfg budget running bm).2.Exclusive held (Stake bm.blockSize shared live)) ∧
    ∀ slot ∈ (buildSlots cfg budget running bm).1, (∀ sr, slot.scheduled? = some sr →
        SolePositions held shared sr (buildSlots cfg budget running bm).2) ∧
      slot.after.requestId = slot.before.requestId ∧ slot.before ∈ running ∧
      ∀ pos, slot.after.MayWrite pos → slot.before.MayWrite pos := by
  have hrule := buildSlots_stable_rule
    (I := fun bm' => bm'.blockSize = bm.blockSize ∧
      bm'.Exclusive held (Stake bm.blockSize shared live))
    (Q := fun req => req ∈ running)
    (R := fun slot bm' => (∀ sr, slot.scheduled? = some sr → SolePositions held shared sr bm') ∧
      slot.after.requestId = slot.before.requestId ∧ slot.before ∈ running ∧
      ∀ pos, slot.after.MayWrite pos → slot.before.MayWrite pos)
    (fun budget req bm' turn hreq hI _ hturn => ?_)
    (fun budget req bm' turn slot hI hturn hR =>
      ⟨fun sr hsr => (hR.1 sr hsr).grows hI.2 hturn.grows, hR.2⟩)
    (fun req hreq => hreq) ⟨rfl, hx⟩ (alongSlots_true cfg budget running bm)
  · exact ⟨hrule.1, hrule.2.2⟩
  · have hgrown := hI.2.grows hturn.grows
    refine ⟨⟨hturn.grows.blockSize_eq.trans hI.1, hgrown⟩, ?_, hturn.requestId_eq.1, ?_, ?_⟩
    · rw [← hI.1] at hgrown hdvd
      exact hturn.solePositions hkv (hlt req hreq) (hsub req hreq) hdvd hgrown
    · rw [hturn.before_eq]
      exact hreq
    · rw [hturn.before_eq]
      exact fun pos hw => hturn.mayWrite_anti hw

end CompileForge.Runtime
