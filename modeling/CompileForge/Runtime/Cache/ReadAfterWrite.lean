/-
  What `read_kv` returns after any sequence of writes, from a pool that holds zeros.
-/

import CompileForge.Lib.RowMajor
import CompileForge.Runtime.Cache.Buffers
import CompileForge.Runtime.Cache.LedgerRun

namespace CompileForge.Runtime

open Lib List

namespace BlockManager

variable {bm bm' : BlockManager} {hiddenDim : Nat}

/-! ## Pools nothing is written to -/

/-- Every block has its two buffers, filled with zeros. -/
def Blank (bm : BlockManager) (hiddenDim : Nat) : Prop :=
  ∀ (bid : Nat) (e : BlockEntry), bm.blocks[bid]? = some e → ∃ kv, e = BlockEntry.cached kv ∧
    ∀ isKey, kv.cache isKey = replicate (bm.blockSize * hiddenDim) 0

theorem blank_newWithCache {n bs heads dim : Nat} (h : newWithCache n bs heads dim = .ok bm) :
    bm.Blank (heads * dim) := by
  unfold newWithCache ofEntries at h
  split at h
  · cases h
  · split at h
    · cases h
    · cases h
      intro bid e he
      rw [getElem?_map] at he
      obtain ⟨i, -, rfl⟩ := Option.map_eq_some_iff.1 he
      refine ⟨_, rfl, fun isKey => ?_⟩
      have hsize : (KVCacheBlock.new i bs heads dim).cache isKey =
          replicate (bs * heads * dim) 0 := by
        cases isKey <;> rfl
      rw [hsize, mul_assoc]

theorem Blank.modifyRef (h : bm.Blank hiddenDim) (bid : Nat) (f : Nat → Nat) :
    (bm.modifyRef bid f).Blank hiddenDim := by
  intro i e he
  rw [BlockManager.modifyRef, getElem?_modifyBlock] at he
  split at he
  · obtain ⟨old, hold, rfl⟩ := Option.map_eq_some_iff.1 he
    obtain ⟨kv, rfl, hkv⟩ := h i old hold
    exact ⟨_, rfl, hkv⟩
  · exact h i e he

theorem Blank.zeroFill (h : bm.Blank hiddenDim) (bid : Nat) :
    (bm.modifyBlock bid BlockEntry.zeroFill).Blank hiddenDim := by
  intro i e he
  rw [getElem?_modifyBlock] at he
  split at he
  · obtain ⟨old, hold, rfl⟩ := Option.map_eq_some_iff.1 he
    obtain ⟨kv, rfl, hkv⟩ := h i old hold
    refine ⟨_, rfl, fun isKey => ?_⟩
    have hlen : (kv.cache isKey).length = bm.blockSize * hiddenDim := by
      rw [hkv, length_replicate]
    have hzero : ∀ l : List F32, l.length = bm.blockSize * hiddenDim →
        replicate l.length (0 : F32) = replicate (bm.blockSize * hiddenDim) 0 :=
      fun l hl => by rw [hl]
    cases isKey with
    | true => exact hzero kv.keyCache hlen
    | false => exact hzero kv.valueCache hlen
  · exact h i e he

theorem Blank.foldl {α : Type} {f : BlockManager → α → BlockManager}
    (hf : ∀ bm a, Blank bm hiddenDim → (f bm a).Blank hiddenDim) (l : List α)
    (h : bm.Blank hiddenDim) : (l.foldl f bm).Blank hiddenDim := by
  induction l generalizing bm with
  | nil => exact h
  | cons a l ih => exact ih (hf bm a h)

theorem Blank.popBlocks (n : Nat) (h : bm.Blank hiddenDim) (hn : n ≤ bm.freeBlocks.length) :
    (popBlocks n bm hn).2.Blank hiddenDim := by
  induction n generalizing bm with
  | zero => exact h
  | succ n ih =>
    have hne : bm.freeBlocks ≠ [] := by
      rintro h0
      simp [h0] at hn
    have hfirst : (bm.popBlock hne).2.Blank hiddenDim := h.modifyRef (bm.popBlock hne).1 (· + 1)
    exact ih hfirst _

theorem Blank.freeBlock (h : bm.Blank hiddenDim) (bid : Nat) :
    (bm.freeBlock bid).Blank hiddenDim := by
  have hcounted := h.modifyRef bid (· - 1)
  unfold BlockManager.freeBlock
  split
  · dsimp only
    split
    · exact hcounted
    · exact hcounted
  · exact h

theorem Blank.free (h : bm.Blank hiddenDim) (rid : String) : (bm.free rid).Blank hiddenDim := by
  unfold BlockManager.free
  split
  · exact h
  · rename_i table _
    have hremoved : (bm.removeTable rid).Blank hiddenDim := h
    exact Blank.foldl (fun _ b hb => hb.freeBlock b) table hremoved

theorem Blank.incrementRefCount (h : bm.Blank hiddenDim) (bid : Nat) :
    (bm.incrementRefCount bid).Blank hiddenDim := h.modifyRef bid _

theorem Blank.grow (h : bm.Blank hiddenDim) (rid : String) (n : Nat)
    (hn : n ≤ bm.freeBlocks.length) : (bm.grow rid n hn).Blank hiddenDim :=
  h.popBlocks n hn

theorem Blank.shareRefs (ids : List Nat) (h : bm.Blank hiddenDim) :
    (shareRefs ids bm).2.Blank hiddenDim := by
  induction ids generalizing bm with
  | nil => exact h
  | cons bid ids ih =>
    rw [BlockManager.shareRefs]
    split
    · exact ih (h.incrementRefCount bid)
    · exact h

theorem Blank.sharePrefix (h : bm.Blank hiddenDim) (src dst : String) (n : Nat) :
    (bm.sharePrefix src dst n).2.Blank hiddenDim := by
  unfold BlockManager.sharePrefix
  split
  · exact h
  · rename_i srcBlocks _
    split
    · exact h
    · dsimp only
      split
      · exact h
      · have hshared := h.shareRefs (srcBlocks.take (n ⌈/⌉ bm.blockSize))
        split
        · rename_i heq
          rw [heq] at hshared
          exact hshared
        · rename_i heq
          rw [heq] at hshared
          exact hshared

theorem Blank.buffered (h : bm.Blank hiddenDim) : bm.Buffered hiddenDim := by
  intro bid hbid
  obtain ⟨kv, hkv, hzero⟩ := h bid _ (getElem?_eq_getElem hbid)
  refine ⟨kv, (getElem?_eq_getElem hbid).trans (congrArg some hkv), fun isKey => ?_⟩
  rw [hzero, length_replicate]

theorem Blank.rowAt (h : bm.Blank hiddenDim) {ids : List Nat} (hids : ∀ b ∈ ids, b < bm.numBlocks)
    (isKey : Bool) {pos : Nat} (hpos : pos / bm.blockSize < ids.length) :
    bm.rowAt ids hiddenDim isKey pos = replicate hiddenDim 0 := by
  have hbid := hids _ (getElem_mem hpos)
  have hblock := getElem?_eq_getElem hbid
  obtain ⟨kv, hkv, hzero⟩ := h _ _ hblock
  rw [hkv] at hblock
  have hin : pos % bm.blockSize * hiddenDim + hiddenDim ≤ bm.blockSize * hiddenDim :=
    row_fits (Nat.mod_lt _ bm.blockSize_pos)
  simp only [BlockManager.rowAt, getElem?_eq_getElem hpos, blockRow, hblock]
  rw [hzero, slice, drop_replicate, take_replicate]
  congr 1
  omega

end BlockManager

theorem LedgerState.blank_apply {st : LedgerState} {hiddenDim : Nat} (h : st.bm.Blank hiddenDim)
    (op : LedgerOp) : (st.apply op).bm.Blank hiddenDim := by
  cases op with
  | allocate rid n =>
    rcases st.bm.allocate_cases rid n with ⟨e, heq, -⟩ | ⟨hn, -, heq⟩
    · exact (congrArg (fun out => BlockManager.Blank out.2 hiddenDim) heq).mpr h
    · exact (congrArg (fun out => BlockManager.Blank out.2 hiddenDim) heq).mpr (h.grow rid _ hn)
  | free rid => exact h.free rid
  | ensureBlocks rid n =>
    rcases st.bm.ensureBlocks_cases rid n with ⟨e, heq, -⟩ | ⟨heq, -⟩ | ⟨hn, heq⟩
    · exact (congrArg (fun out => BlockManager.Blank out.2 hiddenDim) heq).mpr h
    · exact (congrArg (fun out => BlockManager.Blank out.2 hiddenDim) heq).mpr h
    · exact (congrArg (fun out => BlockManager.Blank out.2 hiddenDim) heq).mpr (h.grow rid _ hn)
  | sharePrefix src dst n => exact h.sharePrefix src dst n
  | flushRequest rid =>
    show (st.bm.flushRequest rid).Blank hiddenDim
    unfold BlockManager.flushRequest
    split
    · exact h
    · rename_i ids _
      exact (BlockManager.Blank.foldl (fun _ b hb => hb.zeroFill b) ids h).free rid
  | assignCachedBlocks rid ids =>
    exact BlockManager.Blank.foldl (fun _ b hb => hb.incrementRefCount b) ids h
  | incrementRefCount b => exact h.incrementRefCount b
  | freeBlock b => exact h.freeBlock b

/-! ## Sequences of writes -/

structure WriteKvCall where
  requestId : String
  startPos : Nat
  data : List F32
  isKey : Bool

/-- The row that a call writes at a position. -/
def WriteKvCall.row (hiddenDim : Nat) (requestId : String) (isKey : Bool) (p : Nat)
    (w : WriteKvCall) :
    Option (List F32) :=
  if w.requestId = requestId ∧ isKey = w.isKey ∧ w.startPos ≤ p ∧
      p < w.startPos + w.data.length / hiddenDim then
    some (slice w.data ((p - w.startPos) * hiddenDim) hiddenDim)
  else none

/-- The row last written to a position of a request, zeros if there is none. -/
def lastRow (hiddenDim : Nat) (writes : List WriteKvCall) (requestId : String) (isKey : Bool)
    (p : Nat) : List F32 :=
  (writes.reverse.findSome? (WriteKvCall.row hiddenDim requestId isKey p)).getD
    (replicate hiddenDim 0)

theorem lastRow_append (hiddenDim : Nat) (writes : List WriteKvCall) (w : WriteKvCall)
    (requestId : String) (isKey : Bool) (p : Nat) :
    lastRow hiddenDim (writes ++ [w]) requestId isKey p =
      (w.row hiddenDim requestId isKey p).getD (lastRow hiddenDim writes requestId isKey p) := by
  rw [lastRow, reverse_append, reverse_singleton, singleton_append, findSome?_cons]
  cases w.row hiddenDim requestId isKey p with
  | none => rfl
  | some => rfl

namespace BlockManager

variable {bm bm' : BlockManager} {hiddenDim : Nat}

def Writes (hiddenDim : Nat) (bm : BlockManager) (w : WriteKvCall) (bm' : BlockManager) : Prop :=
  bm.writeKv w.requestId w.startPos w.data hiddenDim w.isKey = some (.ok (), bm')

/-- No block stands in the tables of two requests. -/
def TablesDisjoint (bm : BlockManager) : Prop :=
  ∀ r r', r ≠ r' → (bm.table r).Disjoint (bm.table r')

def TablesNodup (bm : BlockManager) : Prop := ∀ r, (bm.table r).Nodup

theorem rowAt_congr {ids : List Nat} (hsize : bm'.blockSize = bm.blockSize)
    (hblocks : ∀ b ∈ ids, bm'.blocks[b]? = bm.blocks[b]?) (isKey : Bool) (p : Nat) :
    bm'.rowAt ids hiddenDim isKey p = bm.rowAt ids hiddenDim isKey p := by
  rw [rowAt, rowAt, hsize]
  cases hb : ids[p / bm.blockSize]? with
  | none => rfl
  | some b =>
    simp only [blockRow, hblocks b (mem_of_getElem? hb)]

theorem Writes.covers {w : WriteKvCall} (h : Writes hiddenDim bm w bm') (hb : bm.Buffered hiddenDim)
    (hin : ∀ r, ∀ b ∈ bm.table r, b < bm.numBlocks) :
    ∃ ids, bm.blockTables.lookup w.requestId = some ids ∧ 0 < hiddenDim ∧
      w.data.length = w.data.length / hiddenDim * hiddenDim ∧
      (w.data.length / hiddenDim = 0 ∨
        w.startPos + w.data.length / hiddenDim ≤ bm.blockSize * ids.length) := by
  cases htable : bm.blockTables.lookup w.requestId with
  | none =>
    rw [Writes, writeKv, getBlocks, htable] at h
    cases h
  | some ids =>
    have hcached : ∀ bid ∈ ids, bm.CachedBlock hiddenDim bid := by
      intro bid hbid
      rw [← table_eq htable] at hbid
      exact hb bid (hin _ bid hbid)
    have hcall := h
    rw [Writes, writeKv, getBlocks, htable] at h
    dsimp only at h
    split at h
    · cases h
    · rename_i hdim
      have hpos : 0 < hiddenDim := Nat.pos_of_ne_zero hdim
      split at h
      · cases h
      · rename_i hmod
        have hdata : w.data.length = w.data.length / hiddenDim * hiddenDim :=
          (Nat.div_mul_cancel (Nat.dvd_of_mod_eq_zero (not_not.1 hmod))).symm
        refine ⟨ids, rfl, hpos, hdata, ?_⟩
        rcases Nat.eq_zero_or_pos (w.data.length / hiddenDim) with hn | hn
        · exact .inl hn
        · exact .inr ((writeKv_ok_iff htable hcached hpos hdata hn).1 ⟨bm', hcall⟩).2

theorem Writes.rows_self {w : WriteKvCall} (h : Writes hiddenDim bm w bm')
    (hb : bm.Buffered hiddenDim) (hin : ∀ r, ∀ b ∈ bm.table r, b < bm.numBlocks)
    (hnodup : bm.TablesNodup) (isKey : Bool) (p : Nat) :
    bm'.rowAt (bm.table w.requestId) hiddenDim isKey p =
        (w.row hiddenDim w.requestId isKey p).getD
          (bm.rowAt (bm.table w.requestId) hiddenDim isKey p) ∧
      (w.row hiddenDim w.requestId isKey p ≠ none →
        p / bm.blockSize < (bm.table w.requestId).length) := by
  obtain ⟨ids, htable, hpos, hdata, hcover⟩ := h.covers hb hin
  rw [WriteKvCall.row]
  rcases hcover with hn | hcover
  · rw [if_neg (by omega)]
    obtain ⟨hledger, hframe⟩ := writeKv_frame h
    exact ⟨rowAt_congr hledger.blockSize_eq (fun b _ => hframe b (by omega)) isKey p,
      fun hne => absurd rfl hne⟩
  · have hpaged : bm.Paged ids hiddenDim := by
      rw [← table_eq htable]
      exact ⟨hnodup _, fun bid hbid => hb bid (hin _ bid hbid)⟩
    obtain ⟨bm'', hwrite, -, -, hrows⟩ := writeKv_spec w.isKey htable hpaged hpos hdata hcover
    obtain rfl : bm'' = bm' := by
      have heq := hwrite.symm.trans h
      simpa using heq
    rw [table_eq htable, hrows isKey p]
    by_cases hrow : isKey = w.isKey ∧ w.startPos ≤ p ∧ p < w.startPos + w.data.length / hiddenDim
    · rw [if_pos hrow, if_pos ⟨rfl, hrow⟩]
      exact ⟨rfl, fun _ => Nat.div_lt_of_lt_mul (by omega)⟩
    · rw [if_neg hrow, if_neg fun hand => hrow hand.2]
      exact ⟨rfl, fun hne => absurd rfl hne⟩

theorem Writes.rows {w : WriteKvCall} (h : Writes hiddenDim bm w bm') (hb : bm.Buffered hiddenDim)
    (hin : ∀ r, ∀ b ∈ bm.table r, b < bm.numBlocks) (hdisjoint : bm.TablesDisjoint)
    (hnodup : bm.TablesNodup) (r : String) (isKey : Bool) (p : Nat) :
    bm'.rowAt (bm.table r) hiddenDim isKey p =
      (w.row hiddenDim r isKey p).getD (bm.rowAt (bm.table r) hiddenDim isKey p) := by
  by_cases hr : w.requestId = r
  · subst hr
    exact (h.rows_self hb hin hnodup isKey p).1
  · obtain ⟨hledger, hframe⟩ := writeKv_frame h
    rw [WriteKvCall.row, if_neg fun hand => hr hand.1]
    -- a table none of whose blocks is written shows what it showed before
    refine rowAt_congr hledger.blockSize_eq (fun b hbr => hframe b ?_) isKey p
    exact fun off _ hlisted => hdisjoint _ _ hr (mem_of_getElem? hlisted) hbr

theorem rows_of_writes (hblank : bm.Blank hiddenDim)
    (hin : ∀ r, ∀ b ∈ bm.table r, b < bm.numBlocks) (hdisjoint : bm.TablesDisjoint)
    (hnodup : bm.TablesNodup) {writes : List WriteKvCall}
    (hwrites : Run (Writes hiddenDim) bm writes bm') :
    SameLedger bm bm' ∧ SameBuffers bm bm' ∧ ∀ r isKey p, p / bm.blockSize < (bm.table r).length →
      bm'.rowAt (bm.table r) hiddenDim isKey p = lastRow hiddenDim writes r isKey p := by
  induction hwrites with
  | nil => exact ⟨.refl bm, .refl bm, fun r isKey p hp => hblank.rowAt (hin r) isKey hp⟩
  | @snoc writes m w m' _ hlast ih =>
    obtain ⟨hledger, hbuffers, hrows⟩ := ih
    have htables : ∀ r, m.table r = bm.table r := hledger.table_eq
    have hin' : ∀ r, ∀ b ∈ m.table r, b < m.numBlocks := by
      intro r b hb
      rw [htables] at hb
      rw [hledger.numBlocks_eq]
      exact hin r b hb
    have hdisjoint' : m.TablesDisjoint := by
      intro r r' hne
      rw [htables, htables]
      exact hdisjoint r r' hne
    have hnodup' : m.TablesNodup := by
      intro r
      rw [htables]
      exact hnodup r
    refine ⟨hledger.trans (writeKv_frame hlast).1, hbuffers.trans (writeKv_sameBuffers hlast),
      fun r isKey p hp => ?_⟩
    have hstep := hlast.rows (hbuffers.buffered hblank.buffered) hin' hdisjoint' hnodup' r isKey p
    rw [htables] at hstep
    rw [hstep, hrows r isKey p hp, lastRow_append]

end BlockManager

open BlockManager in
/-- A read returns the row the request last wrote at each position and side, or zeros. -/
theorem readKv_of_writes {numBlocks blockSize heads dim : Nat} {bm₀ bm' : BlockManager}
    (h₀ : newWithCache numBlocks blockSize heads dim = .ok bm₀) {ops : List LedgerOp}
    {st : LedgerState}
    (hrun : Run (LedgerState.Step fun bm b => 0 < bm.refCount b) ⟨bm₀, []⟩ ops st)
    (hdisjoint : st.bm.TablesDisjoint) (hnodup : st.bm.TablesNodup) {writes : List WriteKvCall}
    (hwrites : Run (Writes (heads * dim)) st.bm writes bm') {rid : String} {ids : List Nat}
    (htable : st.bm.blockTables.lookup rid = some ids) {n : Nat}
    (hn : n ≤ ids.length * st.bm.blockSize) :
    ∃ keys values, bm'.readKv rid n (heads * dim) = some (.ok (keys, values)) ∧
      keys.length = n * (heads * dim) ∧ values.length = n * (heads * dim) ∧
      ∀ p < n,
        slice keys (p * (heads * dim)) (heads * dim) = lastRow (heads * dim) writes rid true p ∧
        slice values (p * (heads * dim)) (heads * dim) =
          lastRow (heads * dim) writes rid false p := by
  have hblank : st.bm.Blank (heads * dim) :=
    hrun.invariant (I := fun st => st.bm.Blank (heads * dim)) (blank_newWithCache h₀)
      fun _ op _ hm hstep => hstep.2 ▸ LedgerState.blank_apply hm op
  have hexact : st.Exact := hrun.invariant (I := LedgerState.Exact)
    (BlockManager.Fresh.exact (.inr ⟨_, _, _, _, h₀⟩)) fun _ _ _ hm hstep => hm.step hstep
  -- the tables list blocks of the pool
  have hin : ∀ r, ∀ b ∈ st.bm.table r, b < st.bm.numBlocks := by
    intro r b hb
    exact Exact.mem_table_lt hexact hb
  obtain ⟨hledger, hbuffers, hrows⟩ := rows_of_writes hblank hin hdisjoint hnodup hwrites
  have htable' : bm'.blockTables.lookup rid = some ids := by
    rw [hledger.blockTables_eq]
    exact htable
  rw [table_eq htable |>.symm] at hn
  have hcached : ∀ bid ∈ ids, bm'.CachedBlock (heads * dim) bid := by
    intro bid hbid
    rw [← table_eq htable] at hbid
    refine hbuffers.buffered hblank.buffered bid ?_
    rw [hledger.numBlocks_eq]
    exact hin _ bid hbid
  have hpage : ∀ p < n, p / bm'.blockSize < ids.length := by
    intro p hp
    rw [table_eq htable] at hn
    rw [hledger.blockSize_eq]
    exact Nat.div_lt_of_lt_mul (by rw [mul_comm]; omega)
  have hcover : n ≤ bm'.blockSize * ids.length := by
    rw [hledger.blockSize_eq, mul_comm, ← table_eq htable]
    exact hn
  have hlen : ∀ isKey, ∀ p < n, (bm'.rowAt ids (heads * dim) isKey p).length = heads * dim :=
    fun isKey p hp => length_rowAt hcached (hpage p hp)
  have hlast : ∀ isKey, ∀ p < n,
      slice ((range n).flatMap (bm'.rowAt ids (heads * dim) isKey)) (p * (heads * dim))
        (heads * dim) = lastRow (heads * dim) writes rid isKey p := by
    intro isKey p hp
    have hrow := hrows rid isKey p
    rw [table_eq htable, ← hledger.blockSize_eq] at hrow
    rw [slice_rows (hlen isKey) hp]
    exact hrow (hpage p hp)
  exact ⟨_, _, readKv_spec htable' hcached hcover, length_rows (hlen true),
    length_rows (hlen false), fun p hp => ⟨hlast true p hp, hlast false p hp⟩⟩

namespace BlockManager

/-- The rows seen through the tables are those last written, as long as no block stands in two
    places of the tables. -/
def writeAll (hiddenDim : Nat) (bm : BlockManager) (writes : List WriteKvCall) :
    Option BlockManager :=
  writes.foldlM (fun bm w =>
    match bm.writeKv w.requestId w.startPos w.data hiddenDim w.isKey with
    | some (.ok (), bm') => some bm'
    | _ => none) bm

theorem writeAll_run {hiddenDim : Nat} {bm bm' : BlockManager} {writes : List WriteKvCall}
    (h : bm.writeAll hiddenDim writes = some bm') : Run (Writes hiddenDim) bm writes bm' := by
  refine Run.of_foldlM (fun m w m' hstep => ?_) h
  split at hstep
  · rename_i hwrite
    cases hstep
    exact hwrite
  · cases hstep

theorem tablesDisjoint_single {bm : BlockManager} {rid : String} {ids : List Nat}
    (h : bm.blockTables = AList.insert rid ids ∅) : bm.TablesDisjoint := by
  have hnone : ∀ r, r ≠ rid → bm.table r = [] := by
    intro r hr
    rw [table, h, AList.lookup_insert_ne hr]
    rfl
  intro r r' hne
  by_cases hr : r = rid
  · rw [hnone r' fun h => hne (hr.trans h.symm)]
    exact disjoint_nil_right _
  · rw [hnone r hr]
    exact disjoint_nil_left _

end BlockManager

/-- A key row and both rows of the next block, then the first again. -/
def exampleWrites : List WriteKvCall :=
  [⟨"a", 0, [⟨1⟩], true⟩, ⟨"a", 1, [⟨2⟩, ⟨3⟩], true⟩, ⟨"a", 2, [⟨4⟩], false⟩, ⟨"a", 0, [⟨5⟩], true⟩]

open BlockManager in
theorem readKv_of_writes_example :
    ∃ bm₀ st bm', newWithCache 4 2 1 1 = .ok bm₀ ∧
      Run (LedgerState.Step fun bm b => 0 < bm.refCount b) ⟨bm₀, []⟩ [.allocate "a" 3] st ∧
      Run (Writes 1) st.bm exampleWrites bm' ∧
      ∃ keys values, bm'.readKv "a" 3 1 = some (.ok (keys, values)) ∧
        keys.length = 3 * 1 ∧ values.length = 3 * 1 ∧
        ∀ p < 3, slice keys (p * 1) 1 = lastRow 1 exampleWrites "a" true p ∧
          slice values (p * 1) 1 = lastRow 1 exampleWrites "a" false p := by
  obtain ⟨bm₀, h₀⟩ : ∃ bm₀, newWithCache 4 2 1 1 = .ok bm₀ := ⟨_, rfl⟩
  have hrun : Run (LedgerState.Step fun bm b => 0 < bm.refCount b) ⟨bm₀, []⟩ [.allocate "a" 3]
      (LedgerState.apply ⟨bm₀, []⟩ (.allocate "a" 3)) := .cons ⟨trivial, rfl⟩ .nil
  have htables : (LedgerState.apply ⟨bm₀, []⟩ (.allocate "a" 3)).bm.blockTables =
      AList.insert "a" [3, 2] ∅ := by
    cases h₀
    rfl
  have hnodup : (LedgerState.apply ⟨bm₀, []⟩ (.allocate "a" 3)).bm.TablesNodup := by
    intro r
    rw [table, htables]
    by_cases hr : r = "a"
    · rw [hr, AList.lookup_insert]
      decide
    · rw [AList.lookup_insert_ne hr]
      exact nodup_nil
  have hsome : ((LedgerState.apply ⟨bm₀, []⟩ (.allocate "a" 3)).bm.writeAll 1
      exampleWrites).isSome = true := by
    cases h₀
    decide +kernel
  obtain ⟨bm', hwrites⟩ := Option.isSome_iff_exists.1 hsome
  have hsize : (LedgerState.apply ⟨bm₀, []⟩ (.allocate "a" 3)).bm.blockSize = 2 := by
    cases h₀
    rfl
  have hlookup : (LedgerState.apply ⟨bm₀, []⟩ (.allocate "a" 3)).bm.blockTables.lookup "a" =
      some [3, 2] := by
    rw [htables]
    exact AList.lookup_insert _
  exact ⟨bm₀, _, bm', h₀, hrun, writeAll_run hwrites,
    readKv_of_writes h₀ hrun (tablesDisjoint_single htables) hnodup (writeAll_run hwrites) hlookup
      (by rw [hsize]; decide)⟩

/-- A table of one request that lists the block of another twice, once that is gone. -/
def repeatedBlock : List LedgerOp :=
  [.allocate "a" 1, .assignCachedBlocks "r" [1, 1], .free "a"]

def twoRows : List WriteKvCall := [⟨"r", 0, [⟨1⟩], true⟩, ⟨"r", 1, [⟨2⟩], true⟩]

open BlockManager in
/-- In a table that lists a block twice the second write falls on the row of the first. -/
theorem readKv_of_writes_fails_repeated :
    ∃ bm₀ st bm', newWithCache 2 1 1 1 = .ok bm₀ ∧
      Run (LedgerState.Step fun bm b => 0 < bm.refCount b) ⟨bm₀, []⟩ repeatedBlock st ∧
      st.bm.TablesDisjoint ∧ st.bm.blockTables.lookup "r" = some [1, 1] ∧
      Run (Writes 1) st.bm twoRows bm' ∧
      ∃ keys values, bm'.readKv "r" 2 1 = some (.ok (keys, values)) ∧
        slice keys (0 * 1) 1 ≠ lastRow 1 twoRows "r" true 0 := by
  obtain ⟨bm₀, h₀⟩ : ∃ bm₀, newWithCache 2 1 1 1 = .ok bm₀ := ⟨_, rfl⟩
  have henabled : Enabled (LedgerState.Permitted fun bm b => 0 < bm.refCount b)
      LedgerState.apply ⟨bm₀, []⟩ repeatedBlock := by
    cases h₀
    decide +kernel
  have hrun : Run (LedgerState.Step fun bm b => 0 < bm.refCount b) ⟨bm₀, []⟩ repeatedBlock _ :=
    Run.of_enabled (fun _ _ h => ⟨h, rfl⟩) henabled
  have htables : (repeatedBlock.foldl LedgerState.apply ⟨bm₀, []⟩).bm.blockTables =
      AList.insert "r" [1, 1] ∅ := by
    cases h₀
    rfl
  have hread : ((repeatedBlock.foldl LedgerState.apply ⟨bm₀, []⟩).bm.writeAll 1 twoRows).map
      (·.readKv "r" 2 1) = some (some (.ok ([⟨2⟩, ⟨2⟩], [⟨0⟩, ⟨0⟩]))) := by
    cases h₀
    rfl
  obtain ⟨bm', hwrites, hkeys⟩ := Option.map_eq_some_iff.1 hread
  refine ⟨bm₀, _, bm', h₀, hrun, tablesDisjoint_single htables, ?_, writeAll_run hwrites, _, _,
    hkeys, by decide⟩
  rw [htables]
  exact AList.lookup_insert _

end CompileForge.Runtime
