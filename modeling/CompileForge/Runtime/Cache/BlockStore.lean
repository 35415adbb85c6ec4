/-
  The contents of the pool as its users see them.  `write_kv` and `read_kv` are flat writes and
  reads of rows: a paged table behaves like one array of positions, and a write is invisible
  through a table that does not list the block written.
-/

import CompileForge.Lib.Paging
import CompileForge.Runtime.Cache.BlockLedger

namespace CompileForge.Runtime.BlockManager

open Lib List

variable {bm bm' : BlockManager} {ids : List Nat} {hiddenDim : Nat} {isKey : Bool}
  {bid intra pos : Nat} {src : List F32}

/-- Nothing but the contents of blocks differs. -/
structure SameLedger (bm bm' : BlockManager) : Prop where
  blockSize_eq : bm'.blockSize = bm.blockSize
  freeBlocks_eq : bm'.freeBlocks = bm.freeBlocks
  blockTables_eq : bm'.blockTables = bm.blockTables
  refCounts_eq : bm'.blocks.map BlockEntry.refCount = bm.blocks.map BlockEntry.refCount

theorem SameLedger.refl (bm : BlockManager) : SameLedger bm bm := ⟨rfl, rfl, rfl, rfl⟩

theorem SameLedger.trans {bm'' : BlockManager} (h : SameLedger bm bm')
    (h' : SameLedger bm' bm'') : SameLedger bm bm'' :=
  ⟨h'.1.trans h.1, h'.2.trans h.2, h'.3.trans h.3, h'.4.trans h.4⟩

theorem SameLedger.numBlocks_eq (h : SameLedger bm bm') : bm'.numBlocks = bm.numBlocks := by
  have hlen := congrArg length h.refCounts_eq
  rwa [length_map, length_map] at hlen

theorem SameLedger.refCount_eq (h : SameLedger bm bm') : bm'.refCount = bm.refCount := by
  funext x
  have hx := congrArg (·[x]?) h.refCounts_eq
  simp only [getElem?_map] at hx
  rw [refCount, refCount, hx]

theorem SameLedger.table_eq (h : SameLedger bm bm') (rid : String) :
    bm'.table rid = bm.table rid := by
  rw [table, table, h.blockTables_eq]

variable {held : Nat → Nat} {bid' i start n : Nat} {data : List F32} {rid : String}

theorem SameLedger.exact (h : SameLedger bm bm') (he : bm.Exact held) :
    bm'.Exact held := by
  unfold Exact Balanced at he ⊢
  rw [h.numBlocks_eq, h.refCount_eq, h.freeBlocks_eq, tableRefs_congr h.blockTables_eq]
  exact he

/-! ## Rows -/

def blockRow (bm : BlockManager) (bid hiddenDim : Nat) (isKey : Bool) (intra : Nat) : List F32 :=
  match bm.blocks[bid]? with
  | some (.cached kv) => slice (kv.cache isKey) (intra * hiddenDim) hiddenDim
  | _ => []

/-- The key or value row of a position through a block table. -/
def rowAt (bm : BlockManager) (ids : List Nat) (hiddenDim : Nat) (isKey : Bool) (pos : Nat) :
    List F32 :=
  match ids[pos / bm.blockSize]? with
  | some bid => bm.blockRow bid hiddenDim isKey (pos % bm.blockSize)
  | none => []

/-- The block has buffers of whole rows. -/
def CachedBlock (bm : BlockManager) (hiddenDim bid : Nat) : Prop :=
  ∃ kv, bm.blocks[bid]? = some (.cached kv) ∧
    ∀ isKey, (kv.cache isKey).length = bm.blockSize * hiddenDim

/-- A block table that addresses every position once. -/
structure Paged (bm : BlockManager) (ids : List Nat) (hiddenDim : Nat) : Prop where
  nodup : ids.Nodup
  cached : ∀ bid ∈ ids, bm.CachedBlock hiddenDim bid

/-- Touches no counter, table or free list (`SameLedger`). -/
def putRow (bm : BlockManager) (bid hiddenDim : Nat) (isKey : Bool) (intra : Nat)
    (src : List F32) : BlockManager :=
  bm.modifyBlock bid fun
    | .cached kv =>
      .cached (kv.setCache isKey (overwrite (kv.cache isKey) (intra * hiddenDim) src))
    | .plain b => .plain b

@[simp] theorem cache_setCache (kv : KVCacheBlock) (isKey isKey' : Bool) (data : List F32) :
    (kv.setCache isKey data).cache isKey' = if isKey' = isKey then data else kv.cache isKey' := by
  cases isKey <;> cases isKey' <;> rfl

@[simp] theorem blockSize_putRow :
    (bm.putRow bid hiddenDim isKey intra src).blockSize = bm.blockSize := rfl

theorem sameLedger_putRow : SameLedger bm (bm.putRow bid hiddenDim isKey intra src) := by
  refine ⟨rfl, rfl, rfl, ?_⟩
  apply ext_getElem?
  intro i
  simp only [putRow, getElem?_map, getElem?_modifyBlock]
  split
  · cases bm.blocks[i]? with
    | none => rfl
    | some e =>
      cases e with
      | plain => rfl
      | cached => cases isKey <;> rfl
  · rfl

theorem row_fits {blockSize : Nat} (h : i < blockSize) :
    i * hiddenDim + hiddenDim ≤ blockSize * hiddenDim := by
  rw [← Nat.succ_mul]
  exact Nat.mul_le_mul_right hiddenDim h

theorem blockRow_putRow_self (hc : bm.CachedBlock hiddenDim bid) (hi : intra < bm.blockSize)
    (hsrc : src.length = hiddenDim) (isKey' : Bool) :
    (bm.putRow bid hiddenDim isKey intra src).blockRow bid hiddenDim isKey' i =
      if isKey' = isKey ∧ i = intra then src else bm.blockRow bid hiddenDim isKey' i := by
  obtain ⟨kv, hkv, hlen⟩ := hc
  have hfit : intra * hiddenDim + src.length ≤ (kv.cache isKey).length := by
    rw [hlen, hsrc]
    exact row_fits hi
  have hput : (bm.putRow bid hiddenDim isKey intra src).blockRow bid hiddenDim isKey' i =
      slice ((kv.setCache isKey
        (overwrite (kv.cache isKey) (intra * hiddenDim) src)).cache isKey')
          (i * hiddenDim) hiddenDim := by
    simp only [blockRow, putRow, getElem?_modifyBlock, if_pos, hkv, Option.map_some]
  have hold : bm.blockRow bid hiddenDim isKey' i =
      slice (kv.cache isKey') (i * hiddenDim) hiddenDim := by
    simp only [blockRow, hkv]
  rw [hput, hold, cache_setCache]
  by_cases hkey : isKey' = isKey
  · subst hkey
    by_cases hrow : i = intra
    · subst hrow
      rw [if_pos rfl, if_pos ⟨rfl, rfl⟩, ← hsrc]
      exact slice_overwrite_same (by rw [hsrc] at hfit ⊢; exact hfit)
    · -- another row of the same buffer is a window apart
      rw [if_pos rfl, if_neg (fun h => hrow h.2)]
      refine slice_overwrite_apart hfit ?_
      rw [hsrc]
      rcases Nat.lt_or_gt_of_ne hrow with h | h
      · exact .inl (row_fits h)
      · exact .inr (row_fits h)
  · rw [if_neg hkey, if_neg (fun h => hkey h.1)]

theorem CachedBlock.putRow (hc : bm.CachedBlock hiddenDim bid')
    (hi : intra < bm.blockSize) (hsrc : src.length = hiddenDim) :
    (bm.putRow bid hiddenDim isKey intra src).CachedBlock hiddenDim bid' := by
  obtain ⟨kv, hkv, hlen⟩ := hc
  by_cases h : bid = bid'
  · subst h
    refine ⟨kv.setCache isKey (overwrite (kv.cache isKey) (intra * hiddenDim) src), ?_, ?_⟩
    · simp only [BlockManager.putRow, getElem?_modifyBlock, if_pos, hkv, Option.map_some]
    · intro isKey'
      rw [cache_setCache]
      split
      · rw [length_overwrite (by rw [hlen, hsrc]; exact row_fits hi), hlen]
        rfl
      · exact hlen isKey'
  · refine ⟨kv, ?_, hlen⟩
    simp only [BlockManager.putRow, getElem?_modifyBlock, if_neg h, hkv]

theorem Paged.putRow (h : bm.Paged ids hiddenDim) (hi : intra < bm.blockSize)
    (hsrc : src.length = hiddenDim) :
    (bm.putRow bid hiddenDim isKey intra src).Paged ids hiddenDim :=
  ⟨h.nodup, fun b hb => (h.cached b hb).putRow hi hsrc⟩

theorem rowAt_putRow_of_ne (h : ids[pos / bm.blockSize]? ≠ some bid) (isKey' : Bool) :
    (bm.putRow bid hiddenDim isKey intra src).rowAt ids hiddenDim isKey' pos =
      bm.rowAt ids hiddenDim isKey' pos := by
  simp only [rowAt, blockSize_putRow]
  cases hb : ids[pos / bm.blockSize]? with
  | none => rfl
  | some bid' =>
    have hne : bid' ≠ bid := fun heq => h (by rw [hb, heq])
    simp only [blockRow, putRow, getElem?_modifyBlock, if_neg hne.symm]

theorem rowAt_putRow (h : bm.Paged ids hiddenDim) (hbid : ids[pos / bm.blockSize]? = some bid)
    (hsrc : src.length = hiddenDim) (isKey' : Bool) (p : Nat) :
    (bm.putRow bid hiddenDim isKey (pos % bm.blockSize) src).rowAt ids hiddenDim isKey' p =
      if isKey' = isKey ∧ p = pos then src else bm.rowAt ids hiddenDim isKey' p := by
  have hi : pos % bm.blockSize < bm.blockSize := Nat.mod_lt _ bm.blockSize_pos
  by_cases hsame : ids[p / bm.blockSize]? = some bid
  · -- the table lists the block once, so `p` is on the page of `pos`
    have hlt : pos / bm.blockSize < ids.length := (List.getElem?_eq_some_iff.1 hbid).1
    have hpage : p / bm.blockSize = pos / bm.blockSize :=
      ((getElem?_inj hlt h.nodup).1 (hbid.trans hsame.symm)).symm
    have hp : p = pos ↔ p % bm.blockSize = pos % bm.blockSize := by
      constructor
      · rintro rfl
        rfl
      · intro hmod
        rw [← Nat.div_add_mod p bm.blockSize, ← Nat.div_add_mod pos bm.blockSize, hpage, hmod]
    have hcached := h.cached bid (mem_of_getElem? hbid)
    simp only [rowAt, blockSize_putRow, hsame, hp]
    exact blockRow_putRow_self hcached hi hsrc isKey'
  · have hne : p ≠ pos := by
      rintro rfl
      exact hsame hbid
    rw [rowAt_putRow_of_ne hsame, if_neg (fun hand => hne hand.2)]

/-! ## Writing rows -/

theorem writeRow_eq (rid : String) (isKey : Bool) {off : Nat}
    (hcached : ∀ bid ∈ ids, bm.CachedBlock hiddenDim bid)
    (hpage : (start + off) / bm.blockSize < ids.length)
    (hdata : off * hiddenDim + hiddenDim ≤ data.length) :
    ∃ bid, ids[(start + off) / bm.blockSize]? = some bid ∧
      writeRow ids rid start data hiddenDim isKey bm off =
        some (.ok (), bm.putRow bid hiddenDim isKey ((start + off) % bm.blockSize)
          (slice data (off * hiddenDim) hiddenDim)) := by
  have hbid := getElem?_eq_getElem hpage
  obtain ⟨kv, hkv, hlen⟩ := hcached _ (getElem_mem hpage)
  have hi : (start + off) % bm.blockSize < bm.blockSize := Nat.mod_lt _ bm.blockSize_pos
  have hfit : (start + off) % bm.blockSize * hiddenDim + hiddenDim ≤ (kv.cache isKey).length ∧
      off * hiddenDim + hiddenDim ≤ data.length :=
    ⟨by rw [hlen]; exact row_fits hi, hdata⟩
  have hput : bm.putRow ids[(start + off) / bm.blockSize] hiddenDim isKey
      ((start + off) % bm.blockSize) (slice data (off * hiddenDim) hiddenDim) =
        bm.modifyBlock ids[(start + off) / bm.blockSize] fun _ =>
          .cached (kv.setCache isKey (overwrite (kv.cache isKey)
            ((start + off) % bm.blockSize * hiddenDim)
              (slice data (off * hiddenDim) hiddenDim))) := by
    refine modifyBlock_congr fun e he => ?_
    rw [hkv] at he
    cases he
    rfl
  refine ⟨_, hbid, ?_⟩
  rw [hput]
  simp only [writeRow, hbid, hkv, if_pos hfit]

theorem writeRows_spec (rid : String) (isKey : Bool) (offs : List Nat) (h : bm.Paged ids hiddenDim)
    (hoffs : ∀ off ∈ offs, (start + off) / bm.blockSize < ids.length ∧
      off * hiddenDim + hiddenDim ≤ data.length) :
    ∃ bm', writeRows ids rid start data hiddenDim isKey offs bm = some (.ok (), bm') ∧
      SameLedger bm bm' ∧ bm'.Paged ids hiddenDim ∧
      ∀ isKey' p, bm'.rowAt ids hiddenDim isKey' p =
        if isKey' = isKey ∧ start ≤ p ∧ p - start ∈ offs then
          slice data ((p - start) * hiddenDim) hiddenDim
        else bm.rowAt ids hiddenDim isKey' p := by
  induction offs generalizing bm with
  | nil => exact ⟨bm, rfl, .refl bm, h, fun isKey' p => by simp⟩
  | cons off offs ih =>
    obtain ⟨hpage, hdata⟩ := hoffs off mem_cons_self
    obtain ⟨bid, hbid, hrow⟩ := writeRow_eq rid isKey h.cached hpage hdata
    have hsrc : (slice data (off * hiddenDim) hiddenDim).length = hiddenDim :=
      length_slice hdata
    have hi : (start + off) % bm.blockSize < bm.blockSize := Nat.mod_lt _ bm.blockSize_pos
    obtain ⟨bm', hwrite, hledger, hpaged, hrows⟩ := ih (h.putRow hi hsrc)
      fun x hx => hoffs x (mem_cons_of_mem off hx)
    refine ⟨bm', ?_, sameLedger_putRow.trans hledger, hpaged, fun isKey' p => ?_⟩
    · simp only [writeRows, hrow]
      exact hwrite
    · rw [hrows isKey' p, rowAt_putRow h hbid hsrc isKey' p]
      -- the rest of the loop overwrites this turn, or leaves its row alone
      by_cases hrest : isKey' = isKey ∧ start ≤ p ∧ p - start ∈ offs
      · rw [if_pos hrest, if_pos ⟨hrest.1, hrest.2.1, mem_cons_of_mem off hrest.2.2⟩]
      · rw [if_neg hrest]
        by_cases hthis : isKey' = isKey ∧ p = start + off
        · obtain ⟨hkey, hp⟩ := hthis
          have hoff : p - start = off := by omega
          rw [if_pos ⟨hkey, hp⟩, if_pos ⟨hkey, by omega, by rw [hoff]; exact mem_cons_self⟩, hoff]
        · rw [if_neg hthis, if_neg]
          rintro ⟨hkey, hle, hmem⟩
          rcases mem_cons.1 hmem with hoff | hmem
          · exact hthis ⟨hkey, by omega⟩
          · exact hrest ⟨hkey, hle, hmem⟩

/-- A write through a paged table puts its rows at their positions, and changes no other. -/
theorem writeKv_spec (isKey : Bool)
    (htable : bm.blockTables.lookup rid = some ids) (h : bm.Paged ids hiddenDim)
    (hdim : 0 < hiddenDim) (hdata : data.length = n * hiddenDim)
    (hcover : start + n ≤ bm.blockSize * ids.length) :
    ∃ bm', bm.writeKv rid start data hiddenDim isKey = some (.ok (), bm') ∧
      SameLedger bm bm' ∧ bm'.Paged ids hiddenDim ∧
      ∀ isKey' p, bm'.rowAt ids hiddenDim isKey' p =
        if isKey' = isKey ∧ start ≤ p ∧ p < start + n then
          slice data ((p - start) * hiddenDim) hiddenDim
        else bm.rowAt ids hiddenDim isKey' p := by
  have hdiv : data.length / hiddenDim = n := by rw [hdata, Nat.mul_div_cancel n hdim]
  have hmod : data.length % hiddenDim = 0 := by rw [hdata, Nat.mul_mod_left]
  have hoffs : ∀ off ∈ range n, (start + off) / bm.blockSize < ids.length ∧
      off * hiddenDim + hiddenDim ≤ data.length := by
    intro off hoff
    have hlt : off < n := mem_range.1 hoff
    refine ⟨Nat.div_lt_of_lt_mul (by omega), ?_⟩
    rw [hdata]
    exact row_fits hlt
  obtain ⟨bm', hwrite, hledger, hpaged, hrows⟩ := writeRows_spec rid isKey _ h hoffs
  refine ⟨bm', ?_, hledger, hpaged, fun isKey' p => ?_⟩
  · simp only [writeKv, getBlocks, htable, if_neg (ne_of_gt hdim), hmod, hdiv]
    exact hwrite
  · rw [hrows isKey' p]
    refine if_congr ?_ rfl rfl
    rw [mem_range]
    exact and_congr_right fun _ => by omega

/-! ## Reading rows -/

theorem length_rowAt (h : ∀ bid ∈ ids, bm.CachedBlock hiddenDim bid)
    (hpage : pos / bm.blockSize < ids.length) :
    (bm.rowAt ids hiddenDim isKey pos).length = hiddenDim := by
  obtain ⟨kv, hkv, hlen⟩ := h _ (getElem_mem hpage)
  simp only [rowAt, getElem?_eq_getElem hpage, blockRow, hkv]
  refine length_slice ?_
  rw [hlen]
  exact row_fits (Nat.mod_lt _ bm.blockSize_pos)

/-- The loop of `read_kv` appends row after row to what it has read. -/
theorem readRows_spec (h : ∀ bid ∈ ids, bm.CachedBlock hiddenDim bid) (n k : Nat)
    (hcover : k + n ≤ bm.blockSize * ids.length) (keys values : List F32)
    {zeros zeros' : List F32} (hkeys : keys.length = k * hiddenDim)
    (hvalues : values.length = k * hiddenDim) (hzeros : zeros.length = n * hiddenDim)
    (hzeros' : zeros'.length = n * hiddenDim) :
    readRows bm ids hiddenDim (range' k n) (keys ++ zeros, values ++ zeros') =
      some (.ok (keys ++ (range' k n).flatMap (bm.rowAt ids hiddenDim true),
        values ++ (range' k n).flatMap (bm.rowAt ids hiddenDim false))) := by
  induction n generalizing k keys values zeros zeros' with
  | zero =>
    rw [zero_mul, length_eq_zero_iff] at hzeros hzeros'
    subst hzeros hzeros'
    simp [readRows]
  | succ n ih =>
    have hpage : k / bm.blockSize < ids.length := Nat.div_lt_of_lt_mul (by omega)
    have hbid := getElem?_eq_getElem hpage
    obtain ⟨kv, hkv, hlen⟩ := h _ (getElem_mem hpage)
    have hi : k % bm.blockSize < bm.blockSize := Nat.mod_lt _ bm.blockSize_pos
    have hfit : k % bm.blockSize * hiddenDim + hiddenDim ≤ kv.keyCache.length ∧
        k % bm.blockSize * hiddenDim + hiddenDim ≤ kv.valueCache.length := by
      have hkey : kv.keyCache.length = bm.blockSize * hiddenDim := hlen true
      have hvalue : kv.valueCache.length = bm.blockSize * hiddenDim := hlen false
      rw [hkey, hvalue]
      exact ⟨row_fits hi, row_fits hi⟩
    have hrow : ∀ isKey, bm.rowAt ids hiddenDim isKey k =
        slice (kv.cache isKey) (k % bm.blockSize * hiddenDim) hiddenDim := by
      intro isKey
      simp only [rowAt, hbid, blockRow, hkv]
    -- copying the row over the zeros extends what has been read by it
    have hcopy : ∀ {read zeros row : List F32}, read.length = k * hiddenDim →
        zeros.length = (n + 1) * hiddenDim → row.length = hiddenDim →
        overwrite (read ++ zeros) (k * hiddenDim) row = read ++ row ++ zeros.drop hiddenDim := by
      intro read zeros row hread hz hlenrow
      rw [overwrite, ← hread, take_left, hlenrow, drop_append]
      simp
    have hrest : ∀ {z : List F32}, z.length = (n + 1) * hiddenDim →
        (z.drop hiddenDim).length = n * hiddenDim := by
      intro z hz
      rw [length_drop, hz, Nat.succ_mul, Nat.add_sub_cancel]
    have hlenrow : ∀ isKey, (bm.rowAt ids hiddenDim isKey k).length = hiddenDim :=
      fun isKey => length_rowAt h hpage
    simp only [range'_succ, readRows, hbid, hkv, if_pos hfit, flatMap_cons]
    have hstep := ih (k + 1) (by omega) (keys ++ bm.rowAt ids hiddenDim true k)
      (values ++ bm.rowAt ids hiddenDim false k)
      (by rw [length_append, hkeys, hlenrow, Nat.succ_mul])
      (by rw [length_append, hvalues, hlenrow, Nat.succ_mul])
      (hrest hzeros) (hrest hzeros')
    rw [← hcopy hkeys hzeros (hlenrow true), ← hcopy hvalues hzeros' (hlenrow false), hrow true,
      hrow false, append_assoc, append_assoc] at hstep
    rw [hrow true, hrow false]
    exact hstep

/-- A read gives the rows of the first positions. -/
theorem readKv_spec (htable : bm.blockTables.lookup rid = some ids)
    (h : ∀ bid ∈ ids, bm.CachedBlock hiddenDim bid) (hcover : n ≤ bm.blockSize * ids.length) :
    bm.readKv rid n hiddenDim = some (.ok ((range n).flatMap (bm.rowAt ids hiddenDim true),
        (range n).flatMap (bm.rowAt ids hiddenDim false))) := by
  have hzeros : (replicate (n * hiddenDim) (0 : F32)).length = n * hiddenDim :=
    length_replicate
  have hread := readRows_spec h n 0 (by omega) [] [] (by simp) (by simp) hzeros hzeros
  simp only [nil_append, ← range_eq_range'] at hread
  simp only [readKv, getBlocks, htable]
  exact hread

/-! ## Pools with buffers -/

/-- Every block of the pool owns its buffers, as `new_with_cache` builds it. -/
def Buffered (bm : BlockManager) (hiddenDim : Nat) : Prop :=
  ∀ bid < bm.numBlocks, bm.CachedBlock hiddenDim bid

theorem buffered_newWithCache {bs heads dim : Nat}
    (h : newWithCache n bs heads dim = .ok bm) : bm.Buffered (heads * dim) := by
  unfold newWithCache ofEntries at h
  split at h
  · cases h
  · split at h
    · cases h
    · cases h
      intro bid hbid
      have hlt : bid < n := by simpa [numBlocks] using hbid
      refine ⟨KVCacheBlock.new bid bs heads dim, ?_, fun isKey => ?_⟩
      · simp only [getElem?_map, getElem?_range hlt, Option.map_some]
      · have hsize : ((KVCacheBlock.new bid bs heads dim).cache isKey).length =
            bs * heads * dim := by
          cases isKey <;> exact length_replicate
        rw [hsize, mul_assoc]

theorem CachedBlock.modifyRef (h : bm.CachedBlock hiddenDim bid) (bid' : Nat) (f : Nat → Nat) :
    (bm.modifyRef bid' f).CachedBlock hiddenDim bid := by
  obtain ⟨kv, hkv, hlen⟩ := h
  by_cases hsame : bid' = bid
  · refine ⟨{ kv with refCount := f kv.refCount }, ?_, hlen⟩
    rw [BlockManager.modifyRef, getElem?_modifyBlock, if_pos hsame, hkv]
    rfl
  · refine ⟨kv, ?_, hlen⟩
    rw [BlockManager.modifyRef, getElem?_modifyBlock, if_neg hsame, hkv]

theorem CachedBlock.popBlocks (n : Nat) (h : n ≤ bm.freeBlocks.length)
    (hc : bm.CachedBlock hiddenDim bid) : (popBlocks n bm h).2.CachedBlock hiddenDim bid := by
  induction n generalizing bm with
  | zero => exact hc
  | succ n ih => exact ih _ (hc.modifyRef _ _)

theorem Buffered.grow (hb : bm.Buffered hiddenDim) (rid : String) (n : Nat)
    (h : n ≤ bm.freeBlocks.length) : (bm.grow rid n h).Buffered hiddenDim := by
  intro bid hbid
  have hnum : (popBlocks n bm h).2.numBlocks = bm.numBlocks := (popBlocks_frame n bm h).2.2.1
  exact (hb bid (hnum ▸ hbid)).popBlocks n h

theorem paged_allocate (he : bm.Exact held) (hb : bm.Buffered hiddenDim)
    (hok : bm.allocate rid n = (.ok ids, bm')) :
    bm'.blockTables.lookup rid = some ids ∧ bm'.Paged ids hiddenDim := by
  have hfresh : ids.Nodup ∧ ∀ b ∈ ids, bm.tableRefs b + held b = 0 :=
    he.allocate_fresh (congrArg Prod.fst hok)
  have hexact := he.allocate rid n
  rcases bm.allocate_cases rid n with ⟨e, heq, -⟩ | ⟨h, hnone, heq⟩
  · rw [heq] at hok
    cases hok
  · rw [heq] at hok hexact
    cases hok
    have hlookup : (bm.grow rid (n ⌈/⌉ bm.blockSize) h).blockTables.lookup rid =
        some (bm.table rid ++ (popBlocks (n ⌈/⌉ bm.blockSize) bm h).1) := lookup_setTable ..
    rw [table_eq_nil hnone, nil_append] at hlookup
    exact ⟨hlookup, hfresh.1, fun bid hbid =>
      (hb.grow rid _ h) bid (hexact.mem_table_lt (table_eq hlookup ▸ hbid))⟩

end CompileForge.Runtime.BlockManager
