/-
  The sizes of the buffers in a pool: no operation changes them, and `write_kv` succeeds exactly
  when its rows lie inside the block table.
-/

import CompileForge.Runtime.Cache.WriteFrame

namespace CompileForge.Runtime

open Lib List

/-- The lengths of the two buffers of a block that has them. -/
def BlockEntry.sizes : BlockEntry → Option (Nat × Nat)
  | .plain _ => none
  | .cached kv => some (kv.keyCache.length, kv.valueCache.length)

theorem BlockEntry.sizes_mapRefCount (f : Nat → Nat) (e : BlockEntry) :
    (e.mapRefCount f).sizes = e.sizes := by
  cases e <;> rfl

theorem BlockEntry.sizes_zeroFill (e : BlockEntry) : e.zeroFill.sizes = e.sizes := by
  cases e with
  | plain => rfl
  | cached => simp only [zeroFill, sizes, length_replicate]

namespace BlockManager

variable {bm bm' bm'' : BlockManager} {ids : List Nat} {rid : String} {start hiddenDim n : Nat}
  {data : List F32} {isKey : Bool} {result : Except String Unit}

/-- Two pools with the same page size and buffers of the same sizes. -/
structure SameBuffers (bm bm' : BlockManager) : Prop where
  blockSize_eq : bm'.blockSize = bm.blockSize
  sizes_eq : bm'.blocks.map BlockEntry.sizes = bm.blocks.map BlockEntry.sizes

theorem SameBuffers.refl (bm : BlockManager) : SameBuffers bm bm := ⟨rfl, rfl⟩

theorem SameBuffers.trans (h : SameBuffers bm bm') (h' : SameBuffers bm' bm'') :
    SameBuffers bm bm'' :=
  ⟨h'.blockSize_eq.trans h.blockSize_eq, h'.sizes_eq.trans h.sizes_eq⟩

theorem SameBuffers.getElem? (h : SameBuffers bm bm') (bid : Nat) :
    bm'.blocks[bid]?.map BlockEntry.sizes = bm.blocks[bid]?.map BlockEntry.sizes := by
  have hat := congrArg (·[bid]?) h.sizes_eq
  simpa only [getElem?_map] using hat

theorem cachedBlock_iff (bid : Nat) : bm.CachedBlock hiddenDim bid ↔
    bm.blocks[bid]?.map BlockEntry.sizes =
      some (some (bm.blockSize * hiddenDim, bm.blockSize * hiddenDim)) := by
  rw [CachedBlock, Option.map_eq_some_iff]
  constructor
  · rintro ⟨kv, hkv, hlen⟩
    have hkey : kv.keyCache.length = bm.blockSize * hiddenDim := hlen true
    have hvalue : kv.valueCache.length = bm.blockSize * hiddenDim := hlen false
    exact ⟨_, hkv, by simp only [BlockEntry.sizes, hkey, hvalue]⟩
  · rintro ⟨e, he, hsizes⟩
    cases e with
    | plain => cases hsizes
    | cached kv =>
      simp only [BlockEntry.sizes, Option.some.injEq, Prod.mk.injEq] at hsizes
      refine ⟨kv, he, fun isKey => ?_⟩
      cases isKey with
      | true => exact hsizes.1
      | false => exact hsizes.2

variable {bid off : Nat} {offs : List Nat}

theorem SameBuffers.cachedBlock (h : SameBuffers bm bm')
    (hc : bm.CachedBlock hiddenDim bid) : bm'.CachedBlock hiddenDim bid := by
  rw [cachedBlock_iff, h.getElem?, h.blockSize_eq]
  exact (cachedBlock_iff bid).1 hc

theorem SameBuffers.buffered (h : SameBuffers bm bm') (hb : bm.Buffered hiddenDim) :
    bm'.Buffered hiddenDim := by
  have hnum : bm'.numBlocks = bm.numBlocks := by
    have hlen := congrArg length h.sizes_eq
    rwa [length_map, length_map] at hlen
  exact fun bid hbid => h.cachedBlock (hb bid (hnum ▸ hbid))

/-! ## Bookkeeping -/

theorem sameBuffers_modifyBlock {f : BlockEntry → BlockEntry}
    (hf : ∀ e, bm.blocks[bid]? = some e → (f e).sizes = e.sizes) :
    SameBuffers bm (bm.modifyBlock bid f) := by
  refine ⟨rfl, ext_getElem? fun i => ?_⟩
  rw [getElem?_map, getElem?_map, getElem?_modifyBlock]
  by_cases hi : bid = i
  · subst hi
    rw [if_pos rfl]
    cases he : bm.blocks[bid]? with
    | none => rfl
    | some e => exact congrArg some (hf e he)
  · rw [if_neg hi]

theorem sameBuffers_modifyRef (bm : BlockManager) (bid : Nat) (f : Nat → Nat) :
    SameBuffers bm (bm.modifyRef bid f) :=
  sameBuffers_modifyBlock fun e _ => e.sizes_mapRefCount f

theorem sameBuffers_foldl {α : Type} {f : BlockManager → α → BlockManager}
    (hf : ∀ bm a, SameBuffers bm (f bm a)) (l : List α) (bm : BlockManager) :
    SameBuffers bm (l.foldl f bm) := by
  induction l generalizing bm with
  | nil => exact .refl bm
  | cons a l ih => exact (hf bm a).trans (ih (f bm a))

theorem sameBuffers_popBlocks (n : Nat) (bm : BlockManager) (h : n ≤ bm.freeBlocks.length) :
    SameBuffers bm (popBlocks n bm h).2 := by
  induction n generalizing bm with
  | zero => exact .refl bm
  | succ n ih =>
    have hne : bm.freeBlocks ≠ [] := by
      rintro h0
      simp [h0] at h
    have hfirst : SameBuffers bm (bm.popBlock hne).2 :=
      ⟨rfl, (sameBuffers_modifyRef bm _ _).sizes_eq⟩
    exact hfirst.trans (ih _ _)

theorem Grows.sameBuffers (h : bm.Grows rid bm') : SameBuffers bm bm' := by
  rcases h with rfl | ⟨n, h, rfl⟩
  · exact .refl _
  · have hpopped := sameBuffers_popBlocks n bm h
    exact ⟨hpopped.blockSize_eq, hpopped.sizes_eq⟩

theorem sameBuffers_freeBlock (bm : BlockManager) (bid : Nat) :
    SameBuffers bm (bm.freeBlock bid) := by
  have hcounted := sameBuffers_modifyRef bm bid (· - 1)
  unfold freeBlock
  split
  · dsimp only
    split
    · exact ⟨hcounted.blockSize_eq, hcounted.sizes_eq⟩
    · exact hcounted
  · exact .refl bm

theorem sameBuffers_free (bm : BlockManager) (rid : String) : SameBuffers bm (bm.free rid) := by
  unfold free
  split
  · exact .refl bm
  · have hloop := sameBuffers_foldl sameBuffers_freeBlock
    rename_i table _
    exact ⟨(hloop table (bm.removeTable rid)).blockSize_eq,
      (hloop table (bm.removeTable rid)).sizes_eq⟩

theorem sameBuffers_flushRequest (bm : BlockManager) (rid : String) :
    SameBuffers bm (bm.flushRequest rid) := by
  unfold flushRequest
  split
  · exact .refl bm
  · have hzero : ∀ (pool : BlockManager) (bid : Nat),
        SameBuffers pool (pool.modifyBlock bid BlockEntry.zeroFill) :=
      fun pool bid => sameBuffers_modifyBlock fun e _ => e.sizes_zeroFill
    exact (sameBuffers_foldl hzero _ bm).trans (sameBuffers_free _ rid)

/-! ## Writes -/

theorem writeRow_sameBuffers
    (h : writeRow ids rid start data hiddenDim isKey bm off = some (result, bm')) :
    SameBuffers bm bm' := by
  unfold writeRow at h
  dsimp only at h
  split at h
  · cases h
    exact .refl bm
  · split at h
    · cases h
      exact .refl bm
    · cases h
      exact .refl bm
    · rename_i kv hkv
      split at h
      · rename_i hfit
        cases h
        -- the row is as long as what it replaces
        have hrow := length_slice hfit.2
        have hsame : ∀ {row : List F32}, row.length = hiddenDim →
            (overwrite (kv.cache isKey) ((start + off) % bm.blockSize * hiddenDim) row).length =
              (kv.cache isKey).length :=
          fun hlen => length_overwrite (by rw [hlen]; exact hfit.1)
        refine sameBuffers_modifyBlock fun e he => ?_
        obtain rfl : BlockEntry.cached kv = e := Option.some.inj (hkv.symm.trans he)
        cases isKey with
        | true => exact congrArg (fun len => some (len, kv.valueCache.length)) (hsame hrow)
        | false => exact congrArg (fun len => some (kv.keyCache.length, len)) (hsame hrow)
      · cases h

theorem writeRows_sameBuffers
    (h : writeRows ids rid start data hiddenDim isKey offs bm = some (result, bm')) :
    SameBuffers bm bm' := by
  induction offs generalizing bm with
  | nil =>
    cases h
    exact .refl _
  | cons off offs ih =>
    rw [writeRows] at h
    cases hrow : writeRow ids rid start data hiddenDim isKey bm off with
    | none =>
      rw [hrow] at h
      cases h
    | some out =>
      obtain ⟨res, bm1⟩ := out
      have hfirst := writeRow_sameBuffers hrow
      rw [hrow] at h
      cases res with
      | error =>
        cases h
        exact hfirst
      | ok => exact hfirst.trans (ih h)

theorem writeKv_sameBuffers (h : bm.writeKv rid start data hiddenDim isKey = some (result, bm')) :
    SameBuffers bm bm' := by
  unfold writeKv at h
  split at h
  · cases h
    exact .refl bm
  · split at h
    · cases h
    · split at h
      · cases h
        exact .refl bm
      · exact writeRows_sameBuffers h

/-- One `write_kv` call that does not panic. -/
def WriteCall (bm bm' : BlockManager) : Prop :=
  ∃ rid start data hiddenDim isKey result,
    bm.writeKv rid start data hiddenDim isKey = some (result, bm')

/-- What an executor may do with a pool: any number of `write_kv` calls, whatever they return. -/
def KvWritten : BlockManager → BlockManager → Prop := Relation.ReflTransGen WriteCall

theorem KvWritten.spec (h : KvWritten bm bm') : SameLedger bm bm' ∧ SameBuffers bm bm' := by
  induction h with
  | refl => exact ⟨.refl bm, .refl bm⟩
  | tail _ hlast ih =>
    obtain ⟨rid, start, data, hiddenDim, isKey, result, hwrite⟩ := hlast
    exact ⟨ih.1.trans (writeKv_frame hwrite).1, ih.2.trans (writeKv_sameBuffers hwrite)⟩

/-! ## When a write succeeds -/

theorem writeRow_ok_iff (hcached : ∀ bid ∈ ids, bm.CachedBlock hiddenDim bid)
    (hdata : off * hiddenDim + hiddenDim ≤ data.length) :
    (∃ bm', writeRow ids rid start data hiddenDim isKey bm off = some (.ok (), bm')) ↔
      (start + off) / bm.blockSize < ids.length := by
  constructor
  · rintro ⟨bm', h⟩
    by_contra hpage
    have hnone : ids[(start + off) / bm.blockSize]? = none :=
      getElem?_eq_none (Nat.le_of_not_lt hpage)
    simp only [writeRow, hnone] at h
    cases h
  · intro hpage
    obtain ⟨bid, -, hrow⟩ := writeRow_eq rid isKey hcached hpage hdata
    exact ⟨_, hrow⟩

theorem writeRows_ok_iff (hcached : ∀ bid ∈ ids, bm.CachedBlock hiddenDim bid)
    (hdata : ∀ off ∈ offs, off * hiddenDim + hiddenDim ≤ data.length) :
    (∃ bm', writeRows ids rid start data hiddenDim isKey offs bm = some (.ok (), bm')) ↔
      ∀ off ∈ offs, (start + off) / bm.blockSize < ids.length := by
  induction offs generalizing bm with
  | nil => exact ⟨nofun, fun _ => ⟨bm, rfl⟩⟩
  | cons off offs ih =>
    have hhead : (∃ bm1, writeRow ids rid start data hiddenDim isKey bm off =
        some (.ok (), bm1)) ↔ (start + off) / bm.blockSize < ids.length :=
      writeRow_ok_iff hcached (hdata off mem_cons_self)
    have hrest := fun o ho => hdata o (mem_cons_of_mem off ho)
    rw [forall_mem_cons, ← hhead]
    constructor
    · rintro ⟨bm', h⟩
      rw [writeRows] at h
      split at h
      · rename_i bm1 hrow
        have hsame := writeRow_sameBuffers hrow
        have htail := (ih (fun bid hbid => hsame.cachedBlock (hcached bid hbid)) hrest).1 ⟨bm', h⟩
        rw [hsame.blockSize_eq] at htail
        exact ⟨⟨bm1, hrow⟩, htail⟩
      · rename_i hstop
        exact absurd h (hstop bm')
    · rintro ⟨⟨bm1, hrow⟩, htail⟩
      have hsame := writeRow_sameBuffers hrow
      rw [← hsame.blockSize_eq] at htail
      obtain ⟨bm', h⟩ :=
        (ih (fun bid hbid => hsame.cachedBlock (hcached bid hbid)) hrest).2 htail
      refine ⟨bm', ?_⟩
      rw [writeRows, hrow]
      exact h

theorem writeKv_ok_iff (htable : bm.blockTables.lookup rid = some ids)
    (hcached : ∀ bid ∈ ids, bm.CachedBlock hiddenDim bid) (hdim : 0 < hiddenDim)
    (hdata : data.length = n * hiddenDim) (hn : 0 < n) :
    (∃ bm', bm.writeKv rid start data hiddenDim isKey = some (.ok (), bm')) ↔
      bm.Covers rid (start + n) ids := by
  have hdiv : data.length / hiddenDim = n := by rw [hdata, Nat.mul_div_cancel n hdim]
  have hmod : data.length % hiddenDim = 0 := by rw [hdata, Nat.mul_mod_left]
  have hrows : (∃ bm', writeRows ids rid start data hiddenDim isKey (range n) bm =
      some (.ok (), bm')) ↔ ∀ off ∈ range n, (start + off) / bm.blockSize < ids.length :=
    writeRows_ok_iff hcached fun off hoff => by
      rw [hdata]
      exact row_fits (mem_range.1 hoff)
  have hwrite : bm.writeKv rid start data hiddenDim isKey =
      writeRows ids rid start data hiddenDim isKey (range n) bm := by
    simp only [writeKv, getBlocks, htable, if_neg (ne_of_gt hdim), hmod, hdiv]
    rfl
  rw [hwrite, hrows]
  constructor
  · intro h
    have hlast := h (n - 1) (mem_range.2 (by omega))
    have hlt := (Nat.div_lt_iff_lt_mul bm.blockSize_pos).1 hlast
    refine ⟨htable, ?_⟩
    rw [mul_comm]
    omega
  · rintro ⟨-, hcover⟩ off hoff
    have hoff := mem_range.1 hoff
    exact Nat.div_lt_of_lt_mul (by omega)

theorem writeKv_ok (htable : bm.blockTables.lookup rid = some ids)
    (hcached : ∀ bid ∈ ids, bm.CachedBlock hiddenDim bid) (hdim : 0 < hiddenDim)
    (hdata : data.length = n * hiddenDim) (hcover : start + n ≤ bm.blockSize * ids.length) :
    ∃ bm', bm.writeKv rid start data hiddenDim isKey = some (.ok (), bm') := by
  cases n with
  | zero =>
    -- nothing to write
    have hempty : data.length = 0 := by rw [hdata, zero_mul]
    refine ⟨bm, ?_⟩
    simp only [writeKv, getBlocks, htable, if_neg (ne_of_gt hdim), hempty, Nat.zero_mod,
      Nat.zero_div, range_zero]
    rfl
  | succ n => exact (writeKv_ok_iff htable hcached hdim hdata n.succ_pos).2 ⟨htable, hcover⟩

end BlockManager

end CompileForge.Runtime
