/-
  The blocks a prefix cache shares out.
-/

import CompileForge.PythonRuntime.RadixCache
import CompileForge.Runtime.Cache.RadixHold
import CompileForge.Runtime.Engine.SharingRun

namespace CompileForge.PythonRuntime

open Lib CompileForge.Runtime List

/-! ## Blocks of the tree -/

theorem count_child_le {node child : RadixTreeNode} {first : UInt32}
    (h : node.children.get first = some child) (b : Nat) :
    child.heldBlocks.count b ≤ node.heldBlocks.count b := by
  -- what is left when the child is emptied
  have hcount := RadixTreeNode.count_setChild_of_some h (.mk [] .nil [] 0) b
  have hempty : (RadixTreeNode.mk [] .nil [] 0).heldBlocks.count b = 0 := rfl
  omega

/-- What a lookup returns is in the tree. -/
theorem matchLoop_within_tree (blockSize : Nat) (node : RadixTreeNode) (remaining : List UInt32)
    (blocks : List Nat) (consumed : Nat) :
    (∀ b ∈ (matchLoop blockSize node remaining blocks consumed).1,
        b ∈ blocks ∨ 0 < node.heldBlocks.count b) ∧
      (matchLoop blockSize node remaining blocks consumed).2 ≤ consumed + remaining.length := by
  fun_induction matchLoop blockSize node remaining blocks consumed with
  | case1 => exact ⟨fun b hb => .inl hb, Nat.le_add_right _ _⟩
  | case2 => exact ⟨fun b hb => .inl hb, Nat.le_add_right _ _⟩
  | case3 node blocks consumed first rest child hget common hlt =>
    refine ⟨fun b hb => ?_, ?_⟩
    · rcases mem_append.1 hb with hb | hb
      · exact .inl hb
      · have hpos := count_pos_iff.2 (mem_of_mem_take hb)
        have hheld := child.count_heldBlocks b
        have hle := count_child_le hget b
        exact .inr (by omega)
    · have hle : common ≤ (first :: rest).length := commonPrefixLen_le_left _ _
      exact Nat.add_le_add_left hle consumed
  | case4 node blocks consumed first rest child hget common hge ih =>
    obtain ⟨hblocks, htokens⟩ := ih
    refine ⟨fun b hb => ?_, ?_⟩
    · have hle := count_child_le hget b
      rcases hblocks b hb with hmem | hpos
      · rcases mem_append.1 hmem with hb | hb
        · exact .inl hb
        · have hpos := count_pos_iff.2 hb
          have hheld := child.count_heldBlocks b
          exact .inr (by omega)
      · exact .inr (by omega)
    · have hle : common ≤ (first :: rest).length := commonPrefixLen_le_left _ _
      rw [length_drop] at htokens
      omega

namespace PyRadix

theorem count_addNode_le (node : RadixTreeNode) (first : UInt32) (remaining : List UInt32)
    (kvBlocks : List Nat) (off b : Nat) :
    (addNode node first remaining kvBlocks off).1.heldBlocks.count b ≤
      node.heldBlocks.count b + (addNode node first remaining kvBlocks off).2.count b := by
  have hleaf : (RadixTreeNode.mk remaining .nil (kvBlocks.drop off) 1).heldBlocks.count b =
      (kvBlocks.drop off).count b := by
    rw [RadixTreeNode.count_heldBlocks]
    exact zero_add _
  rw [addNode]
  dsimp only
  cases hget : node.children.get first with
  | none =>
    rw [RadixTreeNode.count_setChild_of_none hget, hleaf]
  | some =>
    have hcount := RadixTreeNode.count_setChild_of_some hget
      (.mk remaining .nil (kvBlocks.drop off) 1) b
    omega

/-- What an insertion adds to the tree it retains. -/
theorem count_insertLoop_le (blockSize : Nat) (kvBlocks : List Nat) (node : RadixTreeNode)
    (remaining : List UInt32) (off b : Nat) :
    (insertLoop blockSize kvBlocks node remaining off).1.heldBlocks.count b ≤
      node.heldBlocks.count b + (insertLoop blockSize kvBlocks node remaining off).2.count b := by
  fun_induction insertLoop blockSize kvBlocks node remaining off with
  | case1 => exact Nat.le_add_right _ _
  | case2 node off first => exact count_addNode_le node first _ kvBlocks off b
  | case3 node off first => exact count_addNode_le node first _ kvBlocks off b
  | case4 node off first rest child hget common hpos hlt sub ih =>
    have hsub : sub.1.heldBlocks.count b ≤ _ + sub.2.count b := ih
    have hset := RadixTreeNode.count_setChild_of_some hget sub.1 b
    have hsplit := count_splitNode blockSize child common hlt b
    show (node.setChild first sub.1).heldBlocks.count b ≤ _ + sub.2.count b
    omega
  | case5 node off first rest child hget common hpos hge sub ih =>
    have hsub : sub.1.heldBlocks.count b ≤ _ + sub.2.count b := ih
    have hset := RadixTreeNode.count_setChild_of_some hget sub.1 b
    show (node.setChild first sub.1).heldBlocks.count b ≤ _ + sub.2.count b
    omega

/-- Only blocks of the inserted sequence are retained. -/
theorem insertLoop_retained (blockSize : Nat) (kvBlocks : List Nat) (node : RadixTreeNode)
    (remaining : List UInt32) (off : Nat) :
    ∀ b ∈ (insertLoop blockSize kvBlocks node remaining off).2, b ∈ kvBlocks := by
  fun_induction insertLoop blockSize kvBlocks node remaining off with
  | case1 => exact fun b hb => absurd hb not_mem_nil
  | case2 => exact fun b hb => mem_of_mem_drop hb
  | case3 => exact fun b hb => mem_of_mem_drop hb
  | case4 node off first rest child hget common hpos hlt sub ih => exact ih
  | case5 node off first rest child hget common hpos hge sub ih => exact ih

end PyRadix

section Shared

variable {shared : String → Nat} {rid : String} {rids : List String} {admitted : List Request}

/-- Reaped requests share nothing any more. -/
theorem clearShared_of_mem (h : rid ∈ rids ∨ shared rid = 0) :
    clearShared shared rids rid = 0 := by
  induction rids generalizing shared with
  | nil => exact h.resolve_left not_mem_nil
  | cons r rids ih =>
    refine @ih (Function.update shared r 0) ?_
    by_cases hr : rid = r
    · rw [hr, Function.update_self]
      exact .inr rfl
    · rw [Function.update_of_ne hr]
      rcases h with hmem | hzero
      · exact .inl ((mem_cons.1 hmem).resolve_left hr)
      · exact .inr hzero

theorem clearShared_of_notMem (h : rid ∉ rids) :
    clearShared shared rids rid = shared rid := by
  induction rids generalizing shared with
  | nil => rfl
  | cons r rids ih =>
    rw [mem_cons, not_or] at h
    exact (@ih (Function.update shared r 0) h.2).trans (Function.update_of_ne h.1 _ _)

theorem markHits_of_notMem
    (h : rid ∉ admitted.map Request.requestId) : markHits shared admitted rid = shared rid := by
  induction admitted generalizing shared with
  | nil => rfl
  | cons req admitted ih =>
    rw [map_cons, mem_cons, not_or] at h
    refine (ih h.2).trans ?_
    dsimp only
    split
    · exact Function.update_of_ne h.1 _ _
    · rfl

/-- An admitted request shares the positions of its hit. -/
theorem markHits_of_mem (hids : (admitted.map Request.requestId).Nodup)
    {req : Request} (hreq : req ∈ admitted) (hzero : shared req.requestId = 0) :
    markHits shared admitted req.requestId = req.prefillPos := by
  induction admitted generalizing shared with
  | nil => cases hreq
  | cons r admitted ih =>
    rw [map_cons, nodup_cons] at hids
    rcases mem_cons.1 hreq with rfl | hmem
    · refine (markHits_of_notMem hids.1).trans ?_
      dsimp only
      split
      · exact Function.update_self _ _ _
      · omega
    · have hne : req.requestId ≠ r.requestId := fun heq =>
        hids.1 (heq ▸ mem_map_of_mem hmem)
      refine ih hids.2 hmem ?_
      dsimp only
      split
      · rw [Function.update_of_ne hne, hzero]
      · exact hzero

end Shared

section Tables

variable {bm : BlockManager} {rid : String}

/-- Reaping drops the tables of finished requests only. -/
theorem lookup_reap (running : List Request) (bm : BlockManager) (rid : String) :
    (Scheduler.reap running bm).2.blockTables.lookup rid =
      if rid ∈ (running.filter (·.isFinished)).map Request.requestId then none
      else bm.blockTables.lookup rid := by
  have hfold : ∀ (rids : List String) (bm : BlockManager),
      (rids.foldl BlockManager.free bm).blockTables.lookup rid =
        if rid ∈ rids then none else bm.blockTables.lookup rid := by
    intro rids
    induction rids with
    | nil => exact fun bm => (if_neg not_mem_nil).symm
    | cons r rids ih =>
      intro bm
      rw [foldl_cons, ih, BlockManager.lookup_free]
      by_cases hmem : rid ∈ rids
      · rw [if_pos hmem, if_pos (mem_cons_of_mem r hmem)]
      · rw [if_neg hmem]
        by_cases hr : rid = r
        · rw [if_pos hr, if_pos (hr ▸ mem_cons_self)]
        · rw [if_neg hr, if_neg]
          rw [mem_cons, not_or]
          exact ⟨hr, hmem⟩
  exact hfold _ bm

theorem lookup_admitRequest_ne (hits : List PrefixCacheHit) {req : Request}
    (hne : rid ≠ req.requestId) :
    (admitRequest hits bm req).2.blockTables.lookup rid = bm.blockTables.lookup rid := by
  rw [admitRequest]
  dsimp only
  split
  · rfl
  · split
    · have htables : ∀ (ids : List Nat) (bm : BlockManager),
          (ids.foldl BlockManager.incrementRefCount bm).blockTables = bm.blockTables := by
        intro ids
        induction ids with
        | nil => exact fun _ => rfl
        | cons b ids ih => exact fun bm => (ih (bm.incrementRefCount b)).trans rfl
      refine (AList.lookup_insert_ne hne).trans ?_
      rw [htables]
    · rfl

/-- Admission leaves the tables of the others. -/
theorem lookup_admit_ne (hits : List PrefixCacheHit) {entries : List QueueEntry}
    (h : rid ∉ entries.map fun q => q.request.requestId) :
    (entries.foldl (fun bm q => (admitRequest hits bm q.request).2) bm).blockTables.lookup rid =
      bm.blockTables.lookup rid := by
  induction entries generalizing bm with
  | nil => rfl
  | cons q entries ih =>
    rw [map_cons, mem_cons, not_or] at h
    exact (ih h.2).trans (lookup_admitRequest_ne hits h.1)

/-- The table of an admitted request is that of its hit. -/
theorem table_admit (hits : List PrefixCacheHit) {entries : List QueueEntry}
    (hids : (entries.map fun q => q.request.requestId).Nodup) {q : QueueEntry}
    (hq : q ∈ entries) (hnone : bm.blockTables.lookup q.request.requestId = none)
    {hit : PrefixCacheHit}
    (hfind : hits.find? (fun h => h.requestId = q.request.requestId) = some hit)
    (hpos : 0 < hit.matchedTokens) :
    (entries.foldl (fun bm q => (admitRequest hits bm q.request).2) bm).table
      q.request.requestId = hit.matchedBlocks := by
  induction entries generalizing bm with
  | nil => cases hq
  | cons q' entries ih =>
    rw [map_cons, nodup_cons] at hids
    rw [foldl_cons]
    rcases mem_cons.1 hq with rfl | hmem
    · have hadmit : (admitRequest hits bm q.request).2 =
          bm.assignCachedBlocks q.request.requestId hit.matchedBlocks := by
        rw [admitRequest]
        dsimp only
        rw [hfind]
        exact congrArg Prod.snd (if_pos hpos)
      rw [BlockManager.table, lookup_admit_ne hits hids.1, hadmit,
        BlockManager.blockTables_assignCachedBlocks hnone]
      exact congrArg (fun found : Option (List Nat) => found.getD [])
        (BlockManager.lookup_setTable _ _)
    · refine ih hids.2 hmem ?_
      rw [lookup_admitRequest_ne hits]
      · exact hnone
      · intro heq
        exact hids.1 (heq ▸ mem_map_of_mem
          (f := fun q : QueueEntry => q.request.requestId) hmem)

theorem blockSize_admit (hits : List PrefixCacheHit) (entries : List QueueEntry) :
    (entries.foldl (fun bm q => (admitRequest hits bm q.request).2) bm).blockSize =
      bm.blockSize := by
  induction entries generalizing bm with
  | nil => rfl
  | cons q entries ih =>
    refine ih.trans ?_
    unfold admitRequest
    dsimp only
    split
    · rfl
    · split
      · exact BlockManager.blockSize_assignCachedBlocks _ _
      · rfl

end Tables

end CompileForge.PythonRuntime
