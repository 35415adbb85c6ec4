/-
  The radix-tree prefix cache (`runtime/src/cache/radix.rs`): token sequences
  mapped to the ids of the physical blocks that hold their keys and values.

  The tree walks never read the block manager.  They return the ids passed to
  `increment_ref_count` (insert) or `free_block` (evict), in order, and the
  two public operations apply them.
-/

import CompileForge.Runtime.Cache.Block

namespace CompileForge.Runtime

open List

/-! ## Nodes -/

mutual

/-- A node.  `children : HashMap<u32, RadixTreeNode>` is the list of its entries in iteration
    order. -/
inductive RadixTreeNode where
  | mk (tokenIds : List UInt32) (children : RadixChildren) (kvBlocks : List Nat)
      (refCount : Nat)

/-- The children of a node by first token, in iteration order. -/
inductive RadixChildren where
  | nil
  | cons (first : UInt32) (child : RadixTreeNode) (rest : RadixChildren)

end

deriving instance DecidableEq for RadixTreeNode, RadixChildren

namespace RadixTreeNode

def tokenIds : RadixTreeNode → List UInt32
  | .mk tokenIds _ _ _ => tokenIds

def children : RadixTreeNode → RadixChildren
  | .mk _ children _ _ => children

def kvBlocks : RadixTreeNode → List Nat
  | .mk _ _ kvBlocks _ => kvBlocks

def refCount : RadixTreeNode → Nat
  | .mk _ _ _ refCount => refCount

def new (tokenIds : List UInt32) : RadixTreeNode := .mk tokenIds .nil [] 0

end RadixTreeNode

namespace RadixChildren

def get (first : UInt32) : RadixChildren → Option RadixTreeNode
  | .nil => none
  | .cons k child rest => if k = first then some child else rest.get first

def insert (first : UInt32) (node : RadixTreeNode) : RadixChildren → RadixChildren
  | .nil => .cons first node .nil
  | .cons k child rest =>
    if k = first then .cons k node rest else .cons k child (rest.insert first node)

theorem sizeOf_get_lt {first : UInt32} {child : RadixTreeNode} {cs : RadixChildren}
    (h : cs.get first = some child) : sizeOf child < sizeOf cs := by
  match cs, h with
  | .cons k c rest, h =>
    rw [get] at h
    split at h
    · cases h
      simp only [RadixChildren.cons.sizeOf_spec]
      omega
    · have := sizeOf_get_lt h
      simp only [RadixChildren.cons.sizeOf_spec]
      omega

end RadixChildren

theorem RadixTreeNode.sizeOf_child_lt {first : UInt32} {node child : RadixTreeNode}
    (h : node.children.get first = some child) : sizeOf child < sizeOf node := by
  cases node with
  | mk tokenIds children =>
    have hlt : sizeOf child < sizeOf children := RadixChildren.sizeOf_get_lt h
    simp only [RadixTreeNode.mk.sizeOf_spec]
    omega

variable (node : RadixTreeNode)

def RadixTreeNode.setChild (first : UInt32) (child : RadixTreeNode) : RadixTreeNode :=
  .mk node.tokenIds (node.children.insert first child) node.kvBlocks node.refCount

/-- Prefix cache based on a radix tree of token sequences. -/
structure RadixCache where
  root : RadixTreeNode
  blockSize : Nat
  blockSize_pos : 0 < blockSize

def RadixCache.new (blockSize : Nat) (h : 0 < blockSize) : RadixCache :=
  { root := .new [], blockSize, blockSize_pos := h }

def commonPrefixLen : List UInt32 → List UInt32 → Nat
  | a :: as, b :: bs => if a = b then commonPrefixLen as bs + 1 else 0
  | _, _ => 0

theorem commonPrefixLen_le_right (a b : List UInt32) : commonPrefixLen a b ≤ b.length := by
  induction a generalizing b with
  | nil => simp [commonPrefixLen]
  | cons x as ih =>
    cases b with
    | nil => simp [commonPrefixLen]
    | cons y bs =>
      rw [commonPrefixLen, length_cons]
      split
      · exact Nat.succ_le_succ (ih bs)
      · exact Nat.zero_le _

theorem commonPrefixLen_le_left (a b : List UInt32) : commonPrefixLen a b ≤ a.length := by
  induction a generalizing b with
  | nil => simp [commonPrefixLen]
  | cons x as ih =>
    cases b with
    | nil => simp [commonPrefixLen]
    | cons y bs =>
      rw [commonPrefixLen, length_cons]
      split
      · exact Nat.succ_le_succ (ih bs)
      · exact Nat.zero_le _

theorem take_commonPrefixLen (a b : List UInt32) :
    a.take (commonPrefixLen a b) = b.take (commonPrefixLen a b) := by
  induction a generalizing b with
  | nil => simp [commonPrefixLen]
  | cons x as ih =>
    cases b with
    | nil => simp [commonPrefixLen]
    | cons y bs =>
      rw [commonPrefixLen]
      split
      · next hxy =>
          subst hxy
          rw [take_succ_cons, take_succ_cons, ih bs]
      · rfl

theorem commonPrefixLen_pos {first : UInt32} {tokens : List UInt32} (rest : List UInt32)
    (h : tokens.head? = some first) : commonPrefixLen (first :: rest) tokens ≠ 0 := by
  cases tokens with
  | nil => cases h
  | cons =>
    cases h
    simp [commonPrefixLen]

theorem append_drop_of_full {a b : List UInt32} (h : ¬ commonPrefixLen a b < b.length) :
    b ++ a.drop b.length = a := by
  have heq : commonPrefixLen a b = b.length :=
    Nat.le_antisymm (commonPrefixLen_le_right a b) (Nat.le_of_not_lt h)
  have htake := take_commonPrefixLen a b
  rw [heq, take_length] at htake
  conv_lhs => rw [← htake]
  rw [length_take, min_eq_left (heq ▸ commonPrefixLen_le_left a b)]
  exact take_append_drop _ _

theorem head_ne_of_commonPrefixLen {a b l : List UInt32} {x : UInt32}
    (hlt : commonPrefixLen a b < b.length) (h : a.drop (commonPrefixLen a b) = x :: l) :
    b[commonPrefixLen a b] ≠ x := by
  induction a generalizing b with
  | nil => simp at h
  | cons y as ih =>
    cases b with
    | nil => simp at hlt
    | cons z bs =>
      by_cases hyz : y = z
      · have hstep : commonPrefixLen (y :: as) (z :: bs) = commonPrefixLen as bs + 1 := by
          rw [commonPrefixLen, if_pos hyz]
        simp only [hstep, drop_succ_cons, getElem_cons_succ] at h ⊢
        rw [hstep, length_cons] at hlt
        exact ih (by omega) h
      · have hstep : commonPrefixLen (y :: as) (z :: bs) = 0 := by
          rw [commonPrefixLen, if_neg hyz]
        simp only [hstep, drop_zero, getElem_cons_zero] at h ⊢
        cases h
        exact Ne.symm hyz

/-! ## Lookup -/

/-- The walk of `match_prefix` from a node, with the blocks matched so far. -/
def matchLoop (blockSize : Nat) (node : RadixTreeNode) (remaining : List UInt32)
    (matchedBlocks : List Nat) (consumed : Nat) : List Nat × Nat :=
  match remaining with
  | [] => (matchedBlocks, consumed)
  | first :: rest =>
    match _hchild : node.children.get first with
    | none => (matchedBlocks, consumed)
    | some child =>
      let common := commonPrefixLen (first :: rest) child.tokenIds
      if common < child.tokenIds.length then
        -- `take` stops at the end, like `n_blocks.min(child.kv_blocks.len())`
        (matchedBlocks ++ child.kvBlocks.take (common ⌈/⌉ blockSize), consumed + common)
      else
        matchLoop blockSize child ((first :: rest).drop child.tokenIds.length)
          (matchedBlocks ++ child.kvBlocks) (consumed + child.tokenIds.length)
termination_by sizeOf node
decreasing_by exact RadixTreeNode.sizeOf_child_lt _hchild

section MatchLoop

variable {blockSize : Nat} {node child : RadixTreeNode} {first : UInt32} {rest : List UInt32}
  {matchedBlocks : List Nat} {consumed : Nat}

theorem matchLoop_nil :
    matchLoop blockSize node [] matchedBlocks consumed = (matchedBlocks, consumed) := by
  rw [matchLoop]

theorem matchLoop_none (h : node.children.get first = none) :
    matchLoop blockSize node (first :: rest) matchedBlocks consumed =
      (matchedBlocks, consumed) := by
  rw [matchLoop]
  split
  · rfl
  · next heq => rw [h] at heq; cases heq

theorem matchLoop_within (h : node.children.get first = some child)
    (hlt : commonPrefixLen (first :: rest) child.tokenIds < child.tokenIds.length) :
    matchLoop blockSize node (first :: rest) matchedBlocks consumed = (matchedBlocks ++
        child.kvBlocks.take (commonPrefixLen (first :: rest) child.tokenIds ⌈/⌉ blockSize),
        consumed + commonPrefixLen (first :: rest) child.tokenIds) := by
  rw [matchLoop]
  split
  · next heq => rw [h] at heq; cases heq
  · next child' heq =>
      rw [h] at heq
      cases heq
      exact if_pos hlt

theorem matchLoop_descend (h : node.children.get first = some child)
    (hge : ¬ commonPrefixLen (first :: rest) child.tokenIds < child.tokenIds.length) :
    matchLoop blockSize node (first :: rest) matchedBlocks consumed =
      matchLoop blockSize child ((first :: rest).drop child.tokenIds.length)
        (matchedBlocks ++ child.kvBlocks) (consumed + child.tokenIds.length) := by
  rw [matchLoop]
  split
  · next heq => rw [h] at heq; cases heq
  · next child' heq =>
      rw [h] at heq
      cases heq
      exact if_neg hge

end MatchLoop

variable (cache : RadixCache) (tokenIds : List UInt32)

def RadixCache.matchPrefix : List Nat × Nat :=
  matchLoop cache.blockSize cache.root tokenIds [] 0

/-! ## Insertion -/

/-- `add_node`, with the slice `kv_blocks[block_offset..]` of its callers. -/
def addNode (first : UInt32) (remaining : List UInt32)
    (kvBlocks : List Nat) (blockOffset : Nat) : Option (RadixTreeNode × List Nat) :=
  if blockOffset ≤ kvBlocks.length then
    let newBlocks := kvBlocks.drop blockOffset
    some (node.setChild first (.mk remaining .nil newBlocks 0), newBlocks)
  else none

/-- The node for `child` when only `common` tokens match; the rest becomes its only child. -/
def splitNode (blockSize : Nat) (child : RadixTreeNode) (common : Nat)
    (h : common < child.tokenIds.length) : RadixTreeNode :=
  let nShared := common ⌈/⌉ blockSize
  let lower : RadixTreeNode := .mk (child.tokenIds.drop common) child.children
    (child.kvBlocks.drop nShared) child.refCount
  .mk (child.tokenIds.take common) (.cons child.tokenIds[common] lower .nil)
    (child.kvBlocks.take nShared) child.refCount

/-- The walk of `insert`, which mutates in place; here the path is rebuilt on the way back. The
    result is `none` where the slice `kv_blocks[block_offset..]` is out of range and the code
    panics. -/
def insertLoop (blockSize : Nat) (kvBlocks : List Nat) (node : RadixTreeNode)
    (remaining : List UInt32) (blockOffset : Nat) : Option (RadixTreeNode × List Nat) :=
  match remaining with
  | [] => some (node, [])
  | first :: rest =>
    match node.children.get first with
    | none => addNode node first (first :: rest) kvBlocks blockOffset
    | some child =>
      let common := commonPrefixLen (first :: rest) child.tokenIds
      if _hz : common = 0 then addNode node first (first :: rest) kvBlocks blockOffset
      else if h : common < child.tokenIds.length then
        -- the split branch leaves `block_offset` as it is
        (insertLoop blockSize kvBlocks (splitNode blockSize child common h)
          ((first :: rest).drop common) blockOffset).map
            fun sub => (node.setChild first sub.1, sub.2)
      else
        (insertLoop blockSize kvBlocks child ((first :: rest).drop child.tokenIds.length)
          (blockOffset + child.kvBlocks.length)).map
            fun sub => (node.setChild first sub.1, sub.2)
termination_by remaining.length
decreasing_by all_goals
  have hle := commonPrefixLen_le_right (first :: rest) child.tokenIds
  simp only [length_drop, length_cons]
  omega

section InsertLoop

variable {blockSize : Nat} {kvBlocks : List Nat} {node child : RadixTreeNode} {first : UInt32}
  {rest : List UInt32} {blockOffset : Nat}

theorem insertLoop_nil : insertLoop blockSize kvBlocks node [] blockOffset = some (node, []) := by
  rw [insertLoop]

theorem insertLoop_none (h : node.children.get first = none) :
    insertLoop blockSize kvBlocks node (first :: rest) blockOffset =
      addNode node first (first :: rest) kvBlocks blockOffset := by
  rw [insertLoop, h]

theorem insertLoop_zero (h : node.children.get first = some child)
    (hzero : commonPrefixLen (first :: rest) child.tokenIds = 0) :
    insertLoop blockSize kvBlocks node (first :: rest) blockOffset =
      addNode node first (first :: rest) kvBlocks blockOffset := by
  rw [insertLoop, h]
  simp only [dif_pos hzero]

theorem insertLoop_split (h : node.children.get first = some child)
    (hpos : commonPrefixLen (first :: rest) child.tokenIds ≠ 0)
    (hlt : commonPrefixLen (first :: rest) child.tokenIds < child.tokenIds.length) :
    insertLoop blockSize kvBlocks node (first :: rest) blockOffset = (insertLoop blockSize kvBlocks
        (splitNode blockSize child (commonPrefixLen (first :: rest) child.tokenIds) hlt)
        ((first :: rest).drop (commonPrefixLen (first :: rest) child.tokenIds)) blockOffset).map
          fun sub => (node.setChild first sub.1, sub.2) := by
  rw [insertLoop, h]
  simp only [dif_neg hpos, dif_pos hlt]

theorem insertLoop_descend (h : node.children.get first = some child)
    (hpos : commonPrefixLen (first :: rest) child.tokenIds ≠ 0)
    (hge : ¬ commonPrefixLen (first :: rest) child.tokenIds < child.tokenIds.length) :
    insertLoop blockSize kvBlocks node (first :: rest) blockOffset =
      (insertLoop blockSize kvBlocks child ((first :: rest).drop child.tokenIds.length)
        (blockOffset + child.kvBlocks.length)).map
          fun sub => (node.setChild first sub.1, sub.2) := by
  rw [insertLoop, h]
  simp only [dif_neg hpos, dif_neg hge]

end InsertLoop

/-- The tree after `insert` and the ids it passes to `increment_ref_count`. -/
def RadixCache.insertCalls (kvBlocks : List Nat) : Option (RadixCache × List Nat) :=
  (insertLoop cache.blockSize kvBlocks cache.root tokenIds 0).map fun sub =>
    ({ cache with root := sub.1 }, sub.2)

/-- Insert a sequence and its blocks, taking a reference on every block a new node holds. -/
def RadixCache.insert (kvBlocks : List Nat)
    (bm : BlockManager) : Option (RadixCache × BlockManager) :=
  (cache.insertCalls tokenIds kvBlocks).map fun inserted =>
    (inserted.1, inserted.2.foldl BlockManager.incrementRefCount bm)

/-! ## Eviction -/

/-- The ids released and the counter, stopping once `freed` reaches the target. -/
def releaseLoop (targetBlocks : Nat) : List Nat → Nat → List Nat × Nat
  | [], freed => ([], freed)
  | bid :: rest, freed =>
    if freed + 1 ≥ targetBlocks then ([bid], freed + 1)
    else
      let released := releaseLoop targetBlocks rest (freed + 1)
      (bid :: released.1, released.2)

/-- What is left of a tree, the blocks freed and their number. -/
structure Evicted (α : Type) where
  kept : α
  freed : Nat
  released : List Nat

mutual

/-- `dfs_evict_child` on the child itself: `kept` is `none` when it is removed. -/
def evictNode (targetBlocks : Nat) :
    RadixTreeNode → Nat → Evicted (Option RadixTreeNode)
  | .mk tokenIds children kvBlocks refCount, freed =>
    -- leaves before parents
    let below := evictChildren targetBlocks children freed
    if below.freed ≥ targetBlocks ∨ refCount ≠ 0 then
      { kept := some (.mk tokenIds below.kept kvBlocks refCount), freed := below.freed,
        released := below.released }
    else
      let own := releaseLoop targetBlocks kvBlocks below.freed
      { kept := none, freed := own.2, released := below.released ++ own.1 }

/-- The post-order walk of `evict` over the children of a node. -/
def evictChildren (targetBlocks : Nat) : RadixChildren → Nat → Evicted RadixChildren
  | .nil, freed => { kept := .nil, freed, released := [] }
  | .cons first child rest, freed =>
    if freed ≥ targetBlocks then
      { kept := .cons first child rest, freed, released := [] }
    else
      let one := evictNode targetBlocks child freed
      let others := evictChildren targetBlocks rest one.freed
      { kept := match one.kept with
          | some child' => .cons first child' others.kept
          | none => others.kept
        freed := others.freed
        released := one.released ++ others.released }

end

/-- The tree after `evict`, the counter it returns and the ids it passes to `free_block`. -/
def RadixCache.evictCalls (targetBlocks : Nat) : Evicted RadixCache :=
  if targetBlocks = 0 then { kept := cache, freed := 0, released := [] }
  else
    let below := evictChildren targetBlocks cache.root.children 0
    { kept := { cache with
        root := .mk cache.root.tokenIds below.kept cache.root.kvBlocks cache.root.refCount }
      freed := below.freed
      released := below.released }

/-- Evict subtrees, releasing one reference for each id, and return how many. -/
def RadixCache.evict (targetBlocks : Nat) (bm : BlockManager) : RadixCache × BlockManager × Nat :=
  let evicted := cache.evictCalls targetBlocks
  (evicted.kept, evicted.released.foldl BlockManager.freeBlock bm, evicted.freed)

mutual

/-- The same tree with the children of its nodes iterated in another order. -/
inductive Reorder : RadixTreeNode → RadixTreeNode → Prop
  | mk {tokenIds : List UInt32} {cs cs' : RadixChildren} {kvBlocks : List Nat}
      {refCount : Nat} : ReorderChildren cs cs' →
      Reorder (.mk tokenIds cs kvBlocks refCount) (.mk tokenIds cs' kvBlocks refCount)

/-- The same tree iterated in another order: the order of a `HashMap` is unspecified. -/
inductive ReorderChildren : RadixChildren → RadixChildren → Prop
  | nil : ReorderChildren .nil .nil
  | cons {first : UInt32} {child child' : RadixTreeNode} {rest rest' : RadixChildren} :
      Reorder child child' → ReorderChildren rest rest' →
      ReorderChildren (.cons first child rest) (.cons first child' rest')
  | swap {k k' : UInt32} {c c' : RadixTreeNode} {rest : RadixChildren} :
      ReorderChildren (.cons k c (.cons k' c' rest)) (.cons k' c' (.cons k c rest))
  | trans {cs cs' cs'' : RadixChildren} :
      ReorderChildren cs cs' → ReorderChildren cs' cs'' → ReorderChildren cs cs''

end

/-! ## Counting -/

mutual

/-- The `kv_blocks` of the nodes, children before their parent: the order of an eviction. -/
def RadixTreeNode.postorder : RadixTreeNode → List (List Nat)
  | .mk _ children kvBlocks _ => children.postorder ++ [kvBlocks]

def RadixChildren.postorder : RadixChildren → List (List Nat)
  | .nil => []
  | .cons _ child rest => child.postorder ++ rest.postorder

end

/-- Every block id the nodes of the tree hold, with repetitions. -/
def RadixTreeNode.heldBlocks : List Nat := node.postorder.flatten

/-- The blocks that the tree holds, one entry for each reference. -/
def RadixChildren.heldBlocks (cs : RadixChildren) : List Nat := cs.postorder.flatten

end CompileForge.Runtime
