/-
  The number `evict` returns.  The walk counts the references it gives back, a block is freed
  only with its last one, so the count is the growth of the free list exactly if each block
  released has the one reference that is given back.
-/

import CompileForge.Runtime.Cache.HoldLedger

namespace CompileForge.Runtime

open Lib List

/-! ## Releases that free -/

namespace BlockManager

variable {bm : BlockManager}

theorem refCount_of_not_lt {b : Nat} (h : ¬ b < bm.numBlocks) : bm.refCount b = 0 := by
  rw [refCount, getElem?_eq_none (Nat.le_of_not_lt h)]
  rfl

theorem length_foldl_freeBlock_le (ids : List Nat) (bm : BlockManager) :
    (ids.foldl freeBlock bm).freeBlocks.length ≤ bm.freeBlocks.length + ids.length := by
  induction ids generalizing bm with
  | nil => exact Nat.le_refl _
  | cons b ids ih =>
    have hrest := ih (bm.freeBlock b)
    have hone : (bm.freeBlock b).freeBlocks.length ≤ bm.freeBlocks.length + 1 := by
      by_cases hlt : b < bm.numBlocks
      · rw [(freeBlock_of_lt hlt).2]
        split
        · rw [length_append, length_singleton]
        · exact Nat.le_succ _
      · rw [freeBlock_of_not_lt hlt]
        exact Nat.le_succ _
    rw [foldl_cons, length_cons]
    omega

/-- Releases each free a block exactly if each takes the only reference of its block. -/
theorem foldl_freeBlock_frees_iff (ids : List Nat) {bm : BlockManager}
    (hle : ∀ b, b < bm.numBlocks → ids.count b ≤ bm.refCount b) :
    (ids.foldl freeBlock bm).freeBlocks.length = bm.freeBlocks.length + ids.length ↔
      ∀ b ∈ ids, bm.refCount b = 1 := by
  induction ids generalizing bm with
  | nil => exact ⟨nofun, fun _ => rfl⟩
  | cons a ids ih =>
    have hupper := length_foldl_freeBlock_le ids (bm.freeBlock a)
    rw [foldl_cons, length_cons, forall_mem_cons]
    by_cases ha : a < bm.numBlocks
    · obtain ⟨hrc, hfree⟩ := freeBlock_of_lt ha
      have hcount := hle a ha
      have hself := hrc a ha
      rw [if_pos rfl] at hself
      rw [count_cons_self] at hcount
      by_cases hlast : (bm.freeBlock a).refCount a = 0
      · have hone : bm.refCount a = 1 := by omega
        have hnot : a ∉ ids := fun hmem => by
          have := count_pos_iff.2 hmem
          omega
        -- the other counters stay as they are
        have hsame : ∀ b ∈ ids, (bm.freeBlock a).refCount b = bm.refCount b := by
          intro b hb
          by_cases hlt : b < bm.numBlocks
          · have hne : b ≠ a := by
              rintro rfl
              exact hnot hb
            rw [hrc b hlt, if_neg hne, Nat.sub_zero]
          · rw [refCount_of_not_lt hlt, refCount_of_not_lt (by rwa [numBlocks_freeBlock])]
        have hle' : ∀ b, b < (bm.freeBlock a).numBlocks →
            ids.count b ≤ (bm.freeBlock a).refCount b := by
          intro b hb
          rw [numBlocks_freeBlock] at hb
          have hb' := hle b hb
          rw [count_cons_ite] at hb'
          rw [hrc b hb]
          omega
        have hrest := ih hle'
        rw [hfree, if_pos hlast, length_append, length_singleton] at hrest
        have hall : (∀ b ∈ ids, (bm.freeBlock a).refCount b = 1) ↔ ∀ b ∈ ids, bm.refCount b = 1 :=
          forall₂_congr fun b hb => by rw [hsame b hb]
        rw [hall] at hrest
        constructor
        · intro h
          exact ⟨hone, hrest.1 (by omega)⟩
        · rintro ⟨-, h⟩
          have := hrest.2 h
          omega
      · rw [hfree, if_neg hlast] at hupper
        constructor
        · intro h
          omega
        · rintro ⟨h, -⟩
          omega
    · rw [freeBlock_of_not_lt ha] at hupper ⊢
      rw [refCount_of_not_lt ha]
      constructor
      · intro h
        omega
      · rintro ⟨h, -⟩
        omega

end BlockManager

/-! ## Every run -/

variable {node node' : RadixTreeNode} {st : CacheState} {cache : RadixCache}

theorem insertLoop_kvBlocks (blockSize : Nat) (kvBlocks : List Nat) (remaining : List UInt32)
    {off : Nat} {held : List Nat}
    (h : insertLoop blockSize kvBlocks node remaining off = some (node', held)) :
    node'.kvBlocks = node.kvBlocks := by
  have hadd : ∀ {first : UInt32}, addNode node first remaining kvBlocks off = some (node', held) →
      node'.kvBlocks = node.kvBlocks := by
    intro first h
    rw [addNode] at h
    split at h
    · cases h
      rfl
    · cases h
  cases remaining with
  | nil =>
    rw [insertLoop_nil] at h
    cases h
    rfl
  | cons =>
    rw [insertLoop] at h
    split at h
    · exact hadd h
    · dsimp only at h
      split at h
      · exact hadd h
      · split at h
        all_goals
          obtain ⟨sub, -, heq⟩ := Option.map_eq_some_iff.1 h
          cases heq
          rfl

/-- What every run keeps, whether or not its evictions stop inside nodes. -/
structure CacheState.Loose (st : CacheState) : Prop where
  wf : st.cache.root.WF
  root_empty : st.cache.root.kvBlocks = []
  held_le : ∀ b, st.frees.count b + st.cache.root.heldBlocks.count b ≤ st.increments.count b
  counted : st.bm.Counted fun b =>
    st.bm.tableRefs b + (st.increments.count b - st.frees.count b)

theorem CacheState.Loose.insert (h : st.Loose) {tokenIds : List UInt32}
    {kvBlocks calls : List Nat} {cache' : RadixCache}
    (hins : st.cache.insertCalls tokenIds kvBlocks = some (cache', calls)) :
    (st.inserted cache' calls).Loose := by
  obtain ⟨sub, hsub, heq⟩ := Option.map_eq_some_iff.1 hins
  cases heq
  obtain ⟨hwf, -, hcount⟩ := gainedBy_insertLoop _ _ _ h.wf hsub
  refine ⟨hwf, (insertLoop_kvBlocks _ _ _ hsub).trans h.root_empty, fun b => ?_, ?_⟩
  · have hheld := h.held_le b
    have hgain := hcount b
    show st.frees.count b + sub.1.heldBlocks.count b ≤ (st.increments ++ sub.2).count b
    rw [count_append]
    omega
  · refine Lib.Counted.congr_owed (h.counted.foldl_increment sub.2) fun b => ?_
    have hheld := h.held_le b
    show (sub.2.foldl BlockManager.incrementRefCount st.bm).tableRefs b +
      ((st.increments ++ sub.2).count b - st.frees.count b) = _
    rw [BlockManager.tableRefs_congr (BlockManager.blockTables_foldl_increment sub.2), count_append]
    omega

theorem Reorder.kvBlocks_eq (h : Reorder node node') :
    node'.kvBlocks = node.kvBlocks := by
  cases h with
  | mk => rfl

theorem RadixCache.evictCalls_kvBlocks (cache : RadixCache) (target : Nat) :
    (cache.evictCalls target).kept.root.kvBlocks = cache.root.kvBlocks := by
  rw [evictCalls]
  split
  · rfl
  · rfl

theorem RadixCache.evictCalls_freed (hwf : cache.root.WF) (target : Nat) :
    (cache.evictCalls target).freed = (cache.evictCalls target).released.length := by
  have hchildren : cache.root.children.WF := by
    cases h : cache.root with
    | mk => exact (h ▸ hwf).2
  rw [evictCalls]
  split
  · rfl
  · obtain ⟨-, hfreed⟩ :=
      evictChildren_eq_drain target cache.root.children 0 hchildren (Nat.zero_le _)
    exact hfreed.trans (zero_add _)

theorem CacheState.Loose.evictCalls (h : st.Loose) (target : Nat)
    (hre : Reorder st.cache.root cache.root) :
    (cache.evictCalls target).released = cache.root.children.heldBlocks.take target ∧
      (cache.evictCalls target).kept.root.WF ∧
      (cache.evictCalls target).kept.root.kvBlocks = [] ∧
      ∀ b, (cache.evictCalls target).released.count b +
        (cache.evictCalls target).kept.root.heldBlocks.count b ≤
          st.cache.root.heldBlocks.count b := by
  have hempty : cache.root.kvBlocks = [] := hre.kvBlocks_eq.trans h.root_empty
  obtain ⟨hreleased, hkept, hwf⟩ := evictCalls_spec cache (hre.spec.2.2 h.wf) target
  refine ⟨hreleased.trans (drain_released _ _), hwf,
    (cache.evictCalls_kvBlocks target).trans hempty, fun b => ?_⟩
  have hdrain := count_drain_le target cache.root.children.postorder b
  have hheld := cache.root.count_heldBlocks b
  have hsame := hre.count_heldBlocks b
  rw [hkept b, hreleased, hempty, count_nil]
  rw [hempty, count_nil, RadixChildren.heldBlocks] at hheld
  omega

theorem CacheState.Loose.evictCalls_short (h : st.Loose) {target : Nat}
    (hre : Reorder st.cache.root cache.root)
    (hshort : (cache.evictCalls target).released.length < target) :
    (cache.evictCalls target).kept.root.heldBlocks = [] := by
  have hempty : cache.root.kvBlocks = [] := hre.kvBlocks_eq.trans h.root_empty
  obtain ⟨hreleased, hkept, -⟩ := evictCalls_spec cache (hre.spec.2.2 h.wf) target
  rw [hreleased] at hshort
  have hgone := drain_eq_nil hshort
  refine eq_nil_iff_forall_not_mem.2 fun b hb => ?_
  have hpos := count_pos_iff.2 hb
  rw [hkept b, hgone, hempty] at hpos
  exact absurd hpos (lt_irrefl 0)

theorem CacheState.Loose.evict {st : CacheState} (h : st.Loose) {target : Nat}
    {cache : RadixCache} (hre : Reorder st.cache.root cache.root) :
    (st.evicted cache target).Loose := by
  obtain ⟨-, hwf, hempty, hle⟩ := h.evictCalls target hre
  refine ⟨hwf, hempty, fun b => ?_, ?_⟩
  · have hheld := h.held_le b
    have hmoved := hle b
    show (st.frees ++ (cache.evictCalls target).released).count b +
      (cache.evictCalls target).kept.root.heldBlocks.count b ≤ st.increments.count b
    rw [count_append]
    omega
  · have howed : ∀ b, (cache.evictCalls target).released.count b ≤
        st.bm.tableRefs b + (st.increments.count b - st.frees.count b) := by
      intro b
      have hheld := h.held_le b
      have hmoved := hle b
      omega
    refine Lib.Counted.congr_owed (h.counted.foldl_freeBlock howed) fun b => ?_
    show ((cache.evictCalls target).released.foldl BlockManager.freeBlock st.bm).tableRefs b +
      (st.increments.count b - (st.frees ++ (cache.evictCalls target).released).count b) = _
    have hheld := h.held_le b
    have hmoved := hle b
    rw [BlockManager.tableRefs_congr (BlockManager.blockTables_foldl_freeBlock _), count_append]
    omega

theorem CacheState.Loose.step {st st' : CacheState} {op : CacheOp} (h : st.Loose)
    (hstep : CacheStep st op st') : st'.Loose := by
  cases hstep with
  | insert hins => exact h.insert hins
  | evict hre hcache => exact h.evict (by rw [hcache]; exact hre)
  | allocate =>
    exact ⟨h.wf, h.root_empty, h.held_le, BlockManager.Counted.allocate h.counted _ _⟩
  | free => exact ⟨h.wf, h.root_empty, h.held_le, BlockManager.Counted.free h.counted _⟩

theorem CacheState.loose_of_run {bm : BlockManager} {blockSize : Nat} {hpos : 0 < blockSize}
    {ops : List CacheOp} (hfresh : bm.Fresh)
    (hrun : Run CacheStep (.init (.new blockSize hpos) bm) ops st) : st.Loose := by
  have hinit : CacheState.Loose (.init (.new blockSize hpos) bm) :=
    ⟨⟨rfl, trivial⟩, rfl, fun _ => Nat.le_refl _,
      Lib.Counted.congr_owed (Lib.Balanced.toCounted hfresh.exact) fun _ => rfl⟩
  exact hrun.invariant hinit fun _ _ _ hm hstep => hm.step hstep

/-! ## The count -/

variable (bm : BlockManager)

/-- The blocks freed are counted, and short of the target none is left to the tree alone. -/
def EvictionCounts (target : Nat) (after : RadixCache × BlockManager × Nat) : Prop :=
  after.2.1.numFreeBlocks = bm.numFreeBlocks + after.2.2 ∧
    (after.2.2 < target → ∀ b ∈ after.1.root.heldBlocks,
      after.2.1.refCount b ≠ after.1.root.heldBlocks.count b)

/-- Exactly if none of the first `target` ids it visits has another reference. -/
theorem evict_returns_freed_iff {bm : BlockManager} {blockSize : Nat} {hpos : 0 < blockSize}
    {ops : List CacheOp} {st : CacheState} {order : RadixTreeNode} (hfresh : bm.Fresh)
    (hrun : Run CacheStep (.init (.new blockSize hpos) bm) ops st)
    (hre : Reorder st.cache.root order) (target : Nat) :
    EvictionCounts st.bm target (RadixCache.evict { st.cache with root := order } target st.bm) ↔
      ∀ b ∈ order.heldBlocks.take target, st.bm.refCount b = 1 := by
  have hst := CacheState.loose_of_run hfresh hrun
  have hre' : Reorder st.cache.root (RadixCache.root { st.cache with root := order }) := hre
  obtain ⟨hreleased, -, hempty, hle⟩ := hst.evictCalls target hre'
  have hheld : order.heldBlocks = order.children.heldBlocks := by
    cases order with
    | mk tokenIds children kvBlocks =>
      have hroot : kvBlocks = [] := hre.kvBlocks_eq.trans hst.root_empty
      rw [RadixTreeNode.heldBlocks, RadixTreeNode.postorder, hroot, flatten_append]
      exact append_nil _
  -- no block has fewer references than are given back
  have hcount : ∀ b, b < st.bm.numBlocks →
      (RadixCache.evictCalls { st.cache with root := order } target).released.count b ≤
        st.bm.refCount b := by
    intro b hb
    have howed := hst.counted.counts b hb
    have hin := hst.held_le b
    have hmoved := hle b
    omega
  have hfrees := BlockManager.foldl_freeBlock_frees_iff _ hcount
  have hfreed := RadixCache.evictCalls_freed (hre'.spec.2.2 hst.wf) target
  rw [hheld, ← hreleased, ← hfrees]
  constructor
  · rintro ⟨h, -⟩
    rw [← hfreed]
    exact h
  · intro h
    refine ⟨h.trans (by rw [← hfreed]; rfl), fun hshort b hb => ?_⟩
    have hshort' := lt_of_le_of_lt hfreed.ge hshort
    have hnone := hst.evictCalls_short hre' hshort'
    exact absurd (eq_nil_iff_forall_not_mem.1 hnone b) (not_not_intro hb)

/-- The tree holds two blocks that their request still has. -/
def cacheLive : List CacheOp := [.allocate "a" 4, .insert [1, 2, 3, 4] [3, 2]]

def cacheLiveState : CacheState where
  cache := { root := twoBlockTree, blockSize := 2, blockSize_pos := by decide }
  bm := [3, 2].foldl BlockManager.incrementRefCount (bm.allocate "a" 4).2
  increments := [3, 2]
  frees := []

theorem run_cacheLive {later : List CacheOp} (h : Run CacheStep (cacheLiveState bm) later st) :
    Run CacheStep (.init (.new 2 (by decide)) bm) (cacheLive ++ later) st := by
  have hinsert : (RadixCache.new 2 (by decide)).insertCalls [1, 2, 3, 4] [3, 2] =
      some (RadixCache.mk twoBlockTree 2 (by decide), [3, 2]) := by
    rw [RadixCache.insertCalls, insertLoop_none rfl]
    rfl
  exact .cons .allocate (.cons (.insert hinsert) h)

/-- Evicting both while the request runs frees none of them and returns two. -/
theorem evict_returns_freed_fails :
    ∃ bm st, BlockManager.new 4 2 = .ok bm ∧
      Run CacheStep (.init (.new 2 (by decide)) bm) cacheLive st ∧
      (st.cache.evict 2 st.bm).2.2 = 2 ∧
      (st.cache.evict 2 st.bm).2.1.numFreeBlocks = st.bm.numFreeBlocks ∧
      ¬ EvictionCounts st.bm 2 (st.cache.evict 2 st.bm) := by
  obtain ⟨bm, hbm⟩ : ∃ bm, BlockManager.new 4 2 = .ok bm := ⟨_, rfl⟩
  have hrun := run_cacheLive bm .nil
  refine ⟨bm, _, hbm, hrun, ?_, ?_, ?_⟩
  · cases hbm
    decide
  · cases hbm
    decide
  · cases hbm
    rintro ⟨h, -⟩
    exact absurd h (by decide)

/-- Once the request is gone the same call counts what it frees. -/
theorem evict_returns_freed_iff_idle :
    ∃ bm st, BlockManager.new 4 2 = .ok bm ∧
      Run CacheStep (.init (.new 2 (by decide)) bm) (cacheLive ++ [.free "a"]) st ∧
      Reorder st.cache.root twoBlockTree ∧
      EvictionCounts st.bm 2 (RadixCache.evict { st.cache with root := twoBlockTree } 2 st.bm) := by
  obtain ⟨bm, hbm⟩ : ∃ bm, BlockManager.new 4 2 = .ok bm := ⟨_, rfl⟩
  have hfree : CacheStep (cacheLiveState bm) (.free "a")
      { cacheLiveState bm with bm := (cacheLiveState bm).bm.free "a" } := .free
  have hrun := run_cacheLive bm (.cons hfree .nil)
  have hre : Reorder twoBlockTree twoBlockTree := .mk (.cons (.mk .nil) .nil)
  refine ⟨bm, _, hbm, hrun, hre, (evict_returns_freed_iff (.inl ⟨4, 2, hbm⟩) hrun hre 2).2 ?_⟩
  cases hbm
  decide

end CompileForge.Runtime
