/-
  The references the prefix cache holds, over runs of insertions and evictions
  between the allocations of requests.
-/

import CompileForge.Runtime.Cache.LedgerRun
import CompileForge.Runtime.Cache.RadixHold

namespace CompileForge.Runtime

open Lib List

/-- A call on the cache, with the order an eviction iterates in, or on the pool. -/
inductive CacheOp where
  | insert (tokenIds : List UInt32) (kvBlocks : List Nat)
  | evict (targetBlocks : Nat) (order : RadixTreeNode)
  | allocate (requestId : String) (numTokens : Nat)
  | free (requestId : String)

/-- The cache and the pool, with the references taken and given back so far. -/
structure CacheState where
  cache : RadixCache
  bm : BlockManager
  increments : List Nat
  frees : List Nat

def CacheState.init (cache : RadixCache) (bm : BlockManager) : CacheState :=
  { cache, bm, increments := [], frees := [] }

def CacheState.inserted (st : CacheState) (cache' : RadixCache) (calls : List Nat) : CacheState :=
  { cache := cache', bm := calls.foldl BlockManager.incrementRefCount st.bm,
    increments := st.increments ++ calls, frees := st.frees }

/-- `dfs_evict_child` removes a node as soon as the target is reached, whether or not all its
    blocks were released. -/
def CacheState.evicted (st : CacheState) (cache : RadixCache) (target : Nat) : CacheState :=
  let result := cache.evictCalls target
  { cache := result.kept, bm := result.released.foldl BlockManager.freeBlock st.bm,
    increments := st.increments, frees := st.frees ++ result.released }

/-- The children are iterated in any order. -/
inductive CacheStep : CacheState → CacheOp → CacheState → Prop
  | insert {st : CacheState} {tokenIds : List UInt32} {kvBlocks : List Nat}
      {cache' : RadixCache} {calls : List Nat} :
      st.cache.insertCalls tokenIds kvBlocks = some (cache', calls) →
      CacheStep st (.insert tokenIds kvBlocks) (st.inserted cache' calls)
  | evict {st : CacheState} {target : Nat} {order : RadixTreeNode} {cache : RadixCache} :
      Reorder st.cache.root order → cache = { st.cache with root := order } →
      CacheStep st (.evict target order) (st.evicted cache target)
  | allocate {st : CacheState} {requestId : String} {numTokens : Nat} :
      CacheStep st (.allocate requestId numTokens)
        { st with bm := (st.bm.allocate requestId numTokens).2 }
  | free {st : CacheState} {requestId : String} :
      CacheStep st (.free requestId) { st with bm := st.bm.free requestId }

/-- The target of an eviction is not reached strictly inside a node. -/
def CacheOp.CutsNoNode : CacheOp → Prop
  | .evict target order => CutsNoGroup target order.children.postorder
  | _ => True

/-- What the cache retained and has not released is in its nodes; unused blocks are free. -/
structure CacheState.HoldLedger (st : CacheState) : Prop where
  held_eq : ∀ b, st.increments.count b = st.frees.count b + st.cache.root.heldBlocks.count b
  all_free : st.bm.blockTables = ∅ → st.cache.root.heldBlocks = [] →
    ∀ b, b < st.bm.numBlocks → b ∈ st.bm.freeBlocks

/-- The invariant behind the ledger. -/
structure CacheState.Inv (st : CacheState) : Prop where
  wf : st.cache.root.WF
  held_eq : ∀ b, st.increments.count b = st.frees.count b + st.cache.root.heldBlocks.count b
  counted : st.bm.Counted fun b => st.bm.tableRefs b + st.cache.root.heldBlocks.count b

variable {st st' : CacheState} {op : CacheOp}

theorem CacheState.Inv.holdLedger (h : st.Inv) : st.HoldLedger where
  held_eq := h.held_eq
  all_free htables htree b hb := by
    refine Lib.Counted.idle_mem h.counted b hb ?_
    rw [htree, BlockManager.tableRefs, htables, tableSum_empty, count_nil]

/-! ## One call -/

theorem evictCalls_spec (cache : RadixCache) (hwf : cache.root.WF) (target : Nat) :
    (cache.evictCalls target).released = (drain target cache.root.children.postorder).2 ∧
    (∀ b, (cache.evictCalls target).kept.root.heldBlocks.count b =
      (drain target cache.root.children.postorder).1.flatten.count b +
        cache.root.kvBlocks.count b) ∧
    (cache.evictCalls target).kept.root.WF := by
  have hchildren : cache.root.children.WF ∧ cache.root.refCount = 0 := by
    cases h : cache.root with
    | mk => exact ⟨(h ▸ hwf).2, (h ▸ hwf).1⟩
  by_cases hzero : target = 0
  · subst hzero
    refine ⟨by simp [RadixCache.evictCalls], fun b => ?_, hwf⟩
    rw [drain_zero]
    exact cache.root.count_heldBlocks b
  · obtain ⟨heq, -⟩ :=
      evictChildren_eq_drain target cache.root.children 0 hchildren.1 (Nat.zero_le _)
    simp only [RadixCache.evictCalls, if_neg hzero]
    rw [Nat.sub_zero] at heq
    refine ⟨by rw [← heq], fun b => ?_, hchildren.2, evictChildren_wf target _ 0 hchildren.1⟩
    rw [← heq]
    exact RadixTreeNode.count_heldBlocks _ b

theorem CacheState.Inv.insert (h : st.Inv) {tokenIds : List UInt32}
    {kvBlocks calls : List Nat} {cache' : RadixCache}
    (hins : st.cache.insertCalls tokenIds kvBlocks = some (cache', calls)) :
    (st.inserted cache' calls).Inv := by
  obtain ⟨sub, hsub, heq⟩ := Option.map_eq_some_iff.1 hins
  cases heq
  obtain ⟨hwf, -, hcount⟩ := gainedBy_insertLoop _ _ _ h.wf hsub
  refine ⟨hwf, fun b => ?_, ?_⟩
  · have hheld := h.held_eq b
    have hgain := hcount b
    show (st.increments ++ sub.2).count b = st.frees.count b + sub.1.heldBlocks.count b
    rw [count_append]
    omega
  · refine Lib.Counted.congr_owed (h.counted.foldl_increment sub.2) fun b => ?_
    have hgain := hcount b
    show (sub.2.foldl BlockManager.incrementRefCount st.bm).tableRefs b +
      sub.1.heldBlocks.count b = _
    rw [BlockManager.tableRefs_congr (BlockManager.blockTables_foldl_increment sub.2)]
    omega

theorem CacheState.Inv.evict {st : CacheState} (h : st.Inv) {target : Nat}
    {order : RadixTreeNode} {cache : RadixCache} (hre : Reorder st.cache.root order)
    (hcache : cache = { st.cache with root := order })
    (hcut : CutsNoGroup target order.children.postorder) :
    (st.evicted cache target).Inv := by
  have hroot : cache.root = order := by rw [hcache]
  obtain ⟨hreleased, hkept, hwf⟩ :=
    evictCalls_spec cache (by rw [hroot]; exact hre.spec.2.2 h.wf) target
  -- released and kept together are what the tree held
  have hsplit : ∀ b, (cache.evictCalls target).released.count b +
      (cache.evictCalls target).kept.root.heldBlocks.count b =
        st.cache.root.heldBlocks.count b := by
    intro b
    have hlossless := congrArg (count b) (drain_lossless hcut)
    have hheld := order.count_heldBlocks b
    have hsame := hre.count_heldBlocks b
    rw [hkept b, hreleased, hroot]
    rw [count_append] at hlossless
    simp only [RadixChildren.heldBlocks] at hheld
    omega
  refine ⟨hwf, fun b => ?_, ?_⟩
  · have hheld := h.held_eq b
    have := hsplit b
    show st.increments.count b = (st.frees ++ (cache.evictCalls target).released).count b +
      (cache.evictCalls target).kept.root.heldBlocks.count b
    rw [count_append]
    omega
  · have hle : ∀ b, (cache.evictCalls target).released.count b ≤
        st.bm.tableRefs b + st.cache.root.heldBlocks.count b := by
      intro b
      have := hsplit b
      omega
    refine Lib.Counted.congr_owed (h.counted.foldl_freeBlock hle) fun b => ?_
    have := hsplit b
    show ((cache.evictCalls target).released.foldl BlockManager.freeBlock st.bm).tableRefs b +
      (cache.evictCalls target).kept.root.heldBlocks.count b = _
    rw [BlockManager.tableRefs_congr (BlockManager.blockTables_foldl_freeBlock _)]
    omega

theorem CacheState.Inv.step {st st' : CacheState} {op : CacheOp} (h : st.Inv)
    (hcut : op.CutsNoNode) (hstep : CacheStep st op st') : st'.Inv := by
  cases hstep with
  | insert hins => exact h.insert hins
  | evict hre hcache => exact h.evict hre hcache hcut
  | allocate => exact ⟨h.wf, h.held_eq, BlockManager.Counted.allocate h.counted _ _⟩
  | free => exact ⟨h.wf, h.held_eq, BlockManager.Counted.free h.counted _⟩

theorem CacheStep.wf (hwf : st.cache.root.WF)
    (hstep : CacheStep st op st') : st'.cache.root.WF := by
  cases hstep with
  | insert hins =>
    obtain ⟨sub, hsub, heq⟩ := Option.map_eq_some_iff.1 hins
    cases heq
    exact (gainedBy_insertLoop _ _ _ hwf hsub).1
  | @evict target order cache hre hcache =>
    have hroot : cache.root = order := by rw [hcache]
    exact (evictCalls_spec cache (by rw [hroot]; exact hre.spec.2.2 hwf) target).2.2
  | allocate => exact hwf
  | free => exact hwf

theorem not_holdLedger_of_cut (h : st.HoldLedger)
    (hwf : st.cache.root.WF) (hcut : ¬ op.CutsNoNode) (hstep : CacheStep st op st') :
    ¬ st'.HoldLedger := by
  intro h'
  cases hstep with
  | insert hins => exact hcut trivial
  | allocate => exact hcut trivial
  | free => exact hcut trivial
  | @evict target order cache hre hcache =>
    have hroot : cache.root = order := by rw [hcache]
    obtain ⟨hreleased, hkept, -⟩ :=
      evictCalls_spec cache (by rw [hroot]; exact hre.spec.2.2 hwf) target
    have hlossy := drain_lossy hcut
    -- the ledger before and after would make released and kept a permutation of the tree
    have hperm : ((drain target order.children.postorder).2 ++
        (drain target order.children.postorder).1.flatten).Perm
          order.children.postorder.flatten := by
      refine perm_iff_count.2 fun b => ?_
      have hbefore := h.held_eq b
      have hafter : st.increments.count b =
          (st.frees ++ (cache.evictCalls target).released).count b +
            (cache.evictCalls target).kept.root.heldBlocks.count b := h'.held_eq b
      have hheld := order.count_heldBlocks b
      have hsame := hre.count_heldBlocks b
      rw [hkept b, hreleased, hroot, count_append] at hafter
      rw [count_append]
      simp only [RadixChildren.heldBlocks] at hheld
      omega
    have hlen := hperm.length_eq
    rw [length_append] at hlen
    omega

/-! ## Runs -/

/-- Every state of a run has its ledger without an eviction that stops inside a node, only then. -/
theorem holdLedger_iff {bm : BlockManager} {blockSize : Nat} {hpos : 0 < blockSize}
    {ops : List CacheOp} {st : CacheState} (hfresh : bm.Fresh)
    (hrun : Run CacheStep (.init (.new blockSize hpos) bm) ops st) :
    (∀ ops' st', ops' <+: ops → Run CacheStep (.init (.new blockSize hpos) bm) ops' st' →
      st'.HoldLedger) ↔ ∀ op ∈ ops, op.CutsNoNode := by
  have hinit : CacheState.Inv (.init (.new blockSize hpos) bm) :=
    ⟨⟨rfl, trivial⟩, fun _ => rfl,
      Lib.Counted.congr_owed (Lib.Balanced.toCounted hfresh.exact) fun _ => rfl⟩
  have hwf : ∀ {ops' st'}, Run CacheStep (.init (.new blockSize hpos) bm) ops' st' →
      st'.cache.root.WF := fun hrun' =>
    hrun'.invariant (I := fun st => st.cache.root.WF) ⟨rfl, trivial⟩
      fun _ _ _ hm hstep => hstep.wf hm
  constructor
  · intro hall op hop
    obtain ⟨pre, post, rfl⟩ := append_of_mem hop
    by_contra hcut
    rw [← singleton_append, ← append_assoc] at hrun
    obtain ⟨m', hrun', -⟩ := hrun.split
    obtain ⟨m, hpre, hstep⟩ := hrun'.last
    have hbefore := hall pre m ⟨op :: post, rfl⟩ hpre
    have hafter := hall (pre ++ [op]) m' ⟨post, by simp⟩ hrun'
    exact not_holdLedger_of_cut hbefore (hwf hpre) hcut hstep hafter
  · intro hcuts ops' st' hsub hrun'
    have hcuts' : ∀ op ∈ ops', op.CutsNoNode := fun op hop => hcuts op (hsub.subset hop)
    have hinv := (hrun'.with_events hcuts').invariant hinit
      fun _ _ _ hm hstep => hm.step hstep.1 hstep.2
    exact hinv.holdLedger

def twoBlockTree : RadixTreeNode := .mk [] (.cons 1 (.mk [1, 2, 3, 4] .nil [3, 2] 0) .nil) [] 0

/-- A freed request with two cached blocks, and an eviction of `target` blocks. -/
def cacheThenEvict (target : Nat) : List CacheOp :=
  [.allocate "a" 4, .insert [1, 2, 3, 4] [3, 2], .free "a", .evict target twoBlockTree]

theorem run_cacheThenEvict (target : Nat) (bm : BlockManager) :
    ∃ st, Run CacheStep (.init (.new 2 (by decide)) bm) (cacheThenEvict target) st ∧
      st.bm = ((RadixCache.mk twoBlockTree 2 (by decide)).evictCalls target).released.foldl
        BlockManager.freeBlock
          (([3, 2].foldl BlockManager.incrementRefCount (bm.allocate "a" 4).2).free "a") ∧
      st.cache = ((RadixCache.mk twoBlockTree 2 (by decide)).evictCalls target).kept := by
  have hinsert : (RadixCache.new 2 (by decide)).insertCalls [1, 2, 3, 4] [3, 2] =
      some (RadixCache.mk twoBlockTree 2 (by decide), [3, 2]) := by
    rw [RadixCache.insertCalls, insertLoop_none rfl]
    rfl
  refine ⟨_, .cons .allocate (.cons (.insert hinsert) (.cons .free (.cons (.evict
    (.mk (.cons (.mk .nil) .nil)) rfl) .nil))), rfl, rfl⟩

theorem holdLedger_iff_witness :
    ∃ bm st, BlockManager.new 4 2 = .ok bm ∧
      Run CacheStep (.init (.new 2 (by decide)) bm) (cacheThenEvict 2) st ∧
      st.HoldLedger ∧ st.bm.freeBlocks = [0, 1, 3, 2] := by
  obtain ⟨bm, hbm⟩ : ∃ bm, BlockManager.new 4 2 = .ok bm := ⟨_, rfl⟩
  obtain ⟨st, hrun, hpool, -⟩ := run_cacheThenEvict 2 bm
  have hcuts : ∀ op ∈ cacheThenEvict 2, op.CutsNoNode := by
    intro op hop
    simp only [cacheThenEvict, mem_cons, not_mem_nil, or_false] at hop
    rcases hop with rfl | rfl | rfl | rfl
    · trivial
    · trivial
    · trivial
    · exact .inl (by decide)
  refine ⟨bm, st, hbm, hrun,
    (holdLedger_iff (.inl ⟨4, 2, hbm⟩) hrun).2 hcuts _ _ (prefix_refl _) hrun, ?_⟩
  rw [hpool]
  cases hbm
  decide

/-- Evicting one block of a node that holds two drops the node and loses the other block. -/
theorem holdLedger_fails_inside_node :
    ∃ bm st, BlockManager.new 4 2 = .ok bm ∧
      Run CacheStep (.init (.new 2 (by decide)) bm) (cacheThenEvict 1) st ∧
      st.bm.blockTables = ∅ ∧ st.cache.root.heldBlocks = [] ∧ st.bm.freeBlocks = [0, 1, 3] ∧
      ¬ st.HoldLedger := by
  obtain ⟨bm, hbm⟩ : ∃ bm, BlockManager.new 4 2 = .ok bm := ⟨_, rfl⟩
  obtain ⟨st, hrun, hpool, hcache⟩ := run_cacheThenEvict 1 bm
  have htables : st.bm.blockTables = ∅ := by
    rw [hpool]
    cases hbm
    rfl
  have htree : st.cache.root.heldBlocks = [] := by
    rw [hcache]
    decide
  have hfree : st.bm.freeBlocks = [0, 1, 3] := by
    rw [hpool]
    cases hbm
    decide
  refine ⟨bm, st, hbm, hrun, htables, htree, hfree, fun h => ?_⟩
  have hnum : 2 < st.bm.numBlocks := by
    rw [hpool]
    cases hbm
    decide
  have hmem := h.all_free htables htree 2 hnum
  rw [hfree] at hmem
  exact absurd hmem (by decide)

end CompileForge.Runtime
