/-
  The block tables under the operations: the references counted over all tables move with them.
-/

import CompileForge.Lib.Paging
import CompileForge.Runtime.Cache.BlockLedger

namespace CompileForge.Runtime.BlockManager

open Lib List

variable {bm bm' : BlockManager} {rid rid' : String} {n : Nat}

/-! ## Reserving -/

/-- The table of a request reaches over its first `n` positions. -/
def Covers (bm : BlockManager) (rid : String) (n : Nat) (blocks : List Nat) : Prop :=
  bm.blockTables.lookup rid = some blocks ∧ n ≤ bm.blockSize * blocks.length

/-- Reserving does nothing, or appends popped blocks to the table. -/
def Grows (bm : BlockManager) (rid : String) (bm' : BlockManager) : Prop :=
  bm' = bm ∨ ∃ n, ∃ h : n ≤ bm.freeBlocks.length, bm' = bm.grow rid n h

theorem blockSize_grow (rid : String) (n : Nat) (h : n ≤ bm.freeBlocks.length) :
    (bm.grow rid n h).blockSize = bm.blockSize := (popBlocks_frame n bm h).2.1

theorem lookup_grow (rid : String) (n : Nat) (h : n ≤ bm.freeBlocks.length) :
    (bm.grow rid n h).blockTables.lookup rid = some (bm.table rid ++ (popBlocks n bm h).1) :=
  lookup_setTable ..

theorem Grows.blockSize_eq (h : bm.Grows rid bm') : bm'.blockSize = bm.blockSize := by
  rcases h with rfl | ⟨n, h, rfl⟩
  · rfl
  · exact blockSize_grow rid n h

variable {held : Nat → Nat} {b : Nat}

theorem Grows.exact (h : bm.Grows rid bm') (he : bm.Exact held) :
    bm'.Exact held := by
  rcases h with rfl | ⟨n, h, rfl⟩
  · exact he
  · exact he.grow rid n h

theorem ensureBlocks_spec (bm : BlockManager) (rid : String) (hn : 0 < n) :
    (∃ e, bm.ensureBlocks rid n = (.error e, bm)) ∨
    ∃ bm' blocks, bm.ensureBlocks rid n = (.ok (), bm') ∧ bm.Grows rid bm' ∧
      bm'.Covers rid n blocks := by
  rcases bm.ensureBlocks_cases rid n with ⟨e, heq, -⟩ | ⟨heq, henough⟩ | ⟨h, heq⟩
  · exact .inl ⟨e, heq⟩
  · -- a table that is long enough for a positive target is there
    cases htable : bm.blockTables.lookup rid with
    | none =>
      rw [table_eq_nil htable, length_nil, zero_mul] at henough
      omega
    | some blocks =>
      rw [table_eq htable, mul_comm] at henough
      exact .inr ⟨bm, blocks, heq, .inl rfl, htable, henough⟩
  · refine .inr ⟨_, _, heq, .inr ⟨_, h, rfl⟩, lookup_grow rid _ h, ?_⟩
    have hextra := le_mul_ceilDiv bm.blockSize_pos (n - (bm.table rid).length * bm.blockSize)
    have hlen := (popBlocks_frame _ bm h).2.2.2
    rw [blockSize_grow, length_append, hlen, mul_add,
      mul_comm bm.blockSize (bm.table rid).length]
    omega

theorem allocate_spec (bm : BlockManager) (rid : String) (n : Nat) :
    (∃ e, bm.allocate rid n = (.error e, bm)) ∨
    ∃ bm' blocks, bm.allocate rid n = (.ok blocks, bm') ∧ bm.Grows rid bm' ∧
      bm'.Covers rid n blocks := by
  rcases bm.allocate_cases rid n with ⟨e, heq, -⟩ | ⟨h, hnone, heq⟩
  · exact .inl ⟨e, heq⟩
  · refine .inr ⟨_, _, heq, .inr ⟨_, h, rfl⟩, ?_, ?_⟩
    · rw [lookup_grow, table_eq_nil hnone, nil_append]
    · have hlen := (popBlocks_frame _ bm h).2.2.2
      rw [blockSize_grow, hlen]
      exact le_mul_ceilDiv bm.blockSize_pos n

theorem table_grow_ne (hne : rid' ≠ rid) (n : Nat) (h : n ≤ bm.freeBlocks.length) :
    (bm.grow rid n h).table rid' = bm.table rid' := by
  have hlookup : (bm.grow rid n h).blockTables.lookup rid' =
      (popBlocks n bm h).2.blockTables.lookup rid' := lookup_setTable_ne hne _
  rw [table, table, hlookup, (popBlocks_frame n bm h).1]

theorem Grows.getElem?_table (h : bm.Grows rid bm') {i : Nat}
    (hb : (bm.table rid')[i]? = some b) : (bm'.table rid')[i]? = some b := by
  rcases h with rfl | ⟨n, h, rfl⟩
  · exact hb
  · by_cases hrid : rid' = rid
    · rw [hrid] at hb ⊢
      have hi : i < (bm.table rid).length := (List.getElem?_eq_some_iff.1 hb).1
      rw [table_grow, getElem?_append_left hi]
      exact hb
    · rw [table_grow_ne hrid]
      exact hb

/-! ## Releasing -/

theorem table_eq_of_lookup {bm'' : BlockManager}
    (h : bm''.blockTables.lookup rid = bm.blockTables.lookup rid) :
    bm''.table rid = bm.table rid := by
  rw [table, table, h]

theorem lookup_free (bm : BlockManager) (rid rid' : String) :
    (bm.free rid).blockTables.lookup rid' =
      if rid' = rid then none else bm.blockTables.lookup rid' := by
  cases h : bm.blockTables.lookup rid with
  | none =>
    simp only [BlockManager.free, h]
    by_cases hrid : rid' = rid
    · rw [if_pos hrid, hrid, h]
    · rw [if_neg hrid]
  | some =>
    simp only [BlockManager.free, h, blockTables_foldl_freeBlock]
    show (bm.blockTables.erase rid).lookup rid' = _
    by_cases hrid : rid' = rid
    · rw [if_pos hrid, hrid, AList.lookup_erase]
    · rw [if_neg hrid, AList.lookup_erase_ne hrid]

theorem table_free_self (bm : BlockManager) (rid : String) : (bm.free rid).table rid = [] := by
  rw [table, lookup_free, if_pos rfl, Option.getD_none]

theorem table_free_ne (hne : rid' ≠ rid) : (bm.free rid).table rid' = bm.table rid' :=
  table_eq_of_lookup (by rw [lookup_free, if_neg hne])

theorem tableRefs_free (bm : BlockManager) (rid : String) (b : Nat) :
    (bm.free rid).tableRefs b + (bm.table rid).count b = bm.tableRefs b := by
  cases h : bm.blockTables.lookup rid with
  | none =>
    simp only [BlockManager.free, h]
    rw [table_eq_nil h, count_nil, add_zero]
  | some t =>
    simp only [BlockManager.free, h]
    rw [tableRefs_congr (blockTables_foldl_freeBlock t), table_eq h]
    exact tableRefs_removeTable h b

theorem blockSize_free (bm : BlockManager) (rid : String) :
    (bm.free rid).blockSize = bm.blockSize := by
  unfold BlockManager.free
  split
  · rfl
  · rw [blockSize_foldl_freeBlock]
    rfl

theorem blockTables_flushRequest (bm : BlockManager) (rid : String) :
    (bm.flushRequest rid).blockTables = (bm.free rid).blockTables := by
  cases h : bm.blockTables.lookup rid with
  | none => simp only [BlockManager.flushRequest, BlockManager.free, h]
  | some t =>
    have hzero : (t.foldl (fun bm b => bm.modifyBlock b BlockEntry.zeroFill) bm).blockTables =
        bm.blockTables := blockTables_foldl_zeroFill t
    simp only [BlockManager.flushRequest, BlockManager.free, h, hzero, blockTables_foldl_freeBlock]
    show (t.foldl _ bm).blockTables.erase rid = bm.blockTables.erase rid
    rw [hzero]

theorem blockSize_flushRequest (bm : BlockManager) (rid : String) :
    (bm.flushRequest rid).blockSize = bm.blockSize := by
  unfold BlockManager.flushRequest
  split
  · rfl
  · rw [blockSize_free]
    exact foldl_frame fun _ _ => rfl

/-! ## What a release leaves to others -/

theorem refCount_foldl_freeBlock_le (ids : List Nat) (hb : b < bm.numBlocks) :
    (ids.foldl freeBlock bm).refCount b ≤ bm.refCount b := by
  induction ids generalizing bm with
  | nil => exact Nat.le_refl _
  | cons id ids ih =>
    refine (ih (by rwa [numBlocks_freeBlock])).trans ?_
    by_cases hid : id < bm.numBlocks
    · rw [(freeBlock_of_lt hid).1 b hb]
      exact Nat.sub_le ..
    · rw [freeBlock_of_not_lt hid]

theorem count_freeBlocks_foldl_freeBlock (ids : List Nat)
    (h : b < bm.numBlocks → (ids.foldl freeBlock bm).refCount b ≠ 0) :
    (ids.foldl freeBlock bm).freeBlocks.count b = bm.freeBlocks.count b := by
  induction ids generalizing bm with
  | nil => rfl
  | cons id ids ih =>
    rw [foldl_cons] at h ⊢
    have hrest : b < (bm.freeBlock id).numBlocks →
        (ids.foldl freeBlock (bm.freeBlock id)).refCount b ≠ 0 := by
      rwa [numBlocks_freeBlock]
    rw [ih hrest]
    by_cases hid : id < bm.numBlocks
    · rw [(freeBlock_of_lt hid).2]
      split
      · -- the last reference to another block went
        rename_i hzero
        have hne : id ≠ b := by
          rintro rfl
          have hle := refCount_foldl_freeBlock_le ids (by rwa [numBlocks_freeBlock] :
            id < (bm.freeBlock id).numBlocks)
          exact h hid (Nat.le_zero.1 (hzero ▸ hle))
        rw [count_append, count_singleton, beq_false_of_ne hne]
        rfl
      · rfl
    · rw [freeBlock_of_not_lt hid]

theorem Counted.count_freeBlocks_free
    (hc : bm.Counted fun b => bm.tableRefs b + held b) (hne : rid' ≠ rid)
    (hb : b ∈ bm.table rid') : (bm.free rid).freeBlocks.count b = bm.freeBlocks.count b := by
  have hcounts := (hc.free rid).counts b
  have hrefs := count_table_le (bm.free rid) rid' b
  rw [table_free_ne hne] at hrefs
  have hpos := count_pos_iff.2 hb
  cases h : bm.blockTables.lookup rid with
  | none => simp only [BlockManager.free, h]
  | some t =>
    simp only [BlockManager.free, h] at hcounts hrefs ⊢
    refine count_freeBlocks_foldl_freeBlock t fun hlt => ?_
    have hvalid : b < (t.foldl BlockManager.freeBlock (bm.removeTable rid)).numBlocks := by
      rwa [numBlocks_foldl_freeBlock]
    have := hcounts hvalid
    omega

theorem Counted.foldl_free_other {ids : List String}
    (hc : bm.Counted fun b => bm.tableRefs b + held b) (hother : rid' ∉ ids) :
    (ids.foldl BlockManager.free bm).blockTables.lookup rid' = bm.blockTables.lookup rid' ∧
      ∀ b ∈ bm.table rid', (ids.foldl BlockManager.free bm).freeBlocks.count b =
        bm.freeBlocks.count b := by
  induction ids generalizing bm with
  | nil => exact ⟨rfl, fun _ _ => rfl⟩
  | cons id ids ih =>
    obtain ⟨hne, hrest⟩ := ne_and_not_mem_of_not_mem_cons hother
    obtain ⟨hlookup, hfree⟩ := ih (hc.free id) hrest
    refine ⟨hlookup.trans (by rw [lookup_free, if_neg hne]), fun b hb => ?_⟩
    rw [foldl_cons, hfree b (by rwa [table_free_ne hne])]
    exact hc.count_freeBlocks_free hne hb

theorem Counted.foldl_free (ids : List String) (hc : bm.Counted fun b => bm.tableRefs b + held b) :
    (ids.foldl BlockManager.free bm).Counted fun b =>
      (ids.foldl BlockManager.free bm).tableRefs b + held b := by
  induction ids generalizing bm with
  | nil => exact hc
  | cons id ids ih => exact ih (hc.free id)

theorem Grows.counted (h : bm.Grows rid bm') (hc : bm.Counted fun b => bm.tableRefs b + held b) :
    bm'.Counted fun b => bm'.tableRefs b + held b := by
  rcases h with rfl | ⟨n, hn, rfl⟩
  · exact hc
  · exact hc.grow rid n hn

theorem Counted.assignCachedBlocks
    (hc : bm.Counted fun b => bm.tableRefs b + held b) (rid : String) (ids : List Nat) :
    (bm.assignCachedBlocks rid ids).Counted
      fun b => (bm.assignCachedBlocks rid ids).tableRefs b + held b := by
  have hcounted := hc.foldl_increment ids
  refine Lib.Counted.congr_owed hcounted fun b => ?_
  have hrefs := tableRefs_setTable (ids.foldl BlockManager.incrementRefCount bm) rid
    (ids ++ bm.table rid) b
  rw [table_congr (blockTables_foldl_increment ids), count_append,
    tableRefs_congr (blockTables_foldl_increment ids)] at hrefs
  show ((ids.foldl BlockManager.incrementRefCount bm).setTable rid
    (ids ++ bm.table rid)).tableRefs b + _ = _
  omega

theorem count_table_add_le (bm : BlockManager) (hne : rid ≠ rid') (b : Nat) :
    (bm.table rid).count b + (bm.table rid').count b ≤ bm.tableRefs b := by
  cases h : bm.blockTables.lookup rid with
  | none =>
    rw [table_eq_nil h, count_nil, zero_add]
    exact count_table_le bm rid' b
  | some =>
    cases h' : bm.blockTables.lookup rid' with
    | none =>
      rw [table_eq_nil h', count_nil, add_zero]
      exact count_table_le bm rid b
    | some =>
      rw [table_eq h, table_eq h']
      exact add_le_tableSum h h' hne

end CompileForge.Runtime.BlockManager
