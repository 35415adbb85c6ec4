/-
  The Python prefix cache (`python_runtime/engine/cache/radix_cache.py`) over the nodes of the
  Rust one.  Its block manager is the Rust one behind the bindings, and its block size is the
  manager's.
-/

import CompileForge.Runtime.Cache.RadixFit

namespace CompileForge.PythonRuntime

open CompileForge.Runtime

namespace PyRadix

variable (root : RadixTreeNode) (bm : BlockManager)

/-- Line by line the Rust loop. -/
def matchPrefix (tokenIds : List UInt32) : List Nat × Nat :=
  matchLoop bm.blockSize root tokenIds [] 0

/-- A new node starts with `ref_count` 1, and the slice `kv_blocks[block_offset:]` is empty, not an
    error, past the end. -/
def addNode (node : RadixTreeNode) (first : UInt32) (remaining : List UInt32)
    (kvBlocks : List Nat) (blockOffset : Nat) : RadixTreeNode × List Nat :=
  let newBlocks := kvBlocks.drop blockOffset
  (node.setChild first (.mk remaining .nil newBlocks 1), newBlocks)

/-- The loop of `insert`; a split is the Rust one, which copies `child.ref_count` too. -/
def insertLoop (blockSize : Nat) (kvBlocks : List Nat) (node : RadixTreeNode)
    (remaining : List UInt32) (blockOffset : Nat) : RadixTreeNode × List Nat :=
  match remaining with
  | [] => (node, [])
  | first :: rest =>
    match node.children.get first with
    | none => addNode node first (first :: rest) kvBlocks blockOffset
    | some child =>
      let common := commonPrefixLen (first :: rest) child.tokenIds
      if _hz : common = 0 then addNode node first (first :: rest) kvBlocks blockOffset
      else if h : common < child.tokenIds.length then
        let sub := insertLoop blockSize kvBlocks (splitNode blockSize child common h)
          ((first :: rest).drop common) blockOffset
        (node.setChild first sub.1, sub.2)
      else
        let sub := insertLoop blockSize kvBlocks child
          ((first :: rest).drop child.tokenIds.length) (blockOffset + child.kvBlocks.length)
        (node.setChild first sub.1, sub.2)
termination_by remaining.length
decreasing_by all_goals
  have hle := commonPrefixLen_le_right (first :: rest) child.tokenIds
  simp only [List.length_drop, List.length_cons]
  omega

def insert (tokenIds : List UInt32) (kvBlocks : List Nat) : RadixTreeNode × BlockManager :=
  let sub := insertLoop bm.blockSize kvBlocks root tokenIds 0
  (sub.1, sub.2.foldl BlockManager.incrementRefCount bm)

/-! ## Eviction -/

/-- What `_dfs_evict` leaves: its count, the shared `freed` and the ids passed to `free_block`. -/
structure Evicted (α : Type) where
  kept : α
  localFreed : Nat
  freed : Nat
  released : List Nat

mutual

/-- `_dfs_evict` on a child: `kept` is `none` when it is deleted from its parent. -/
def evictNode (targetBlocks : Nat) : RadixTreeNode → Nat → Evicted (Option RadixTreeNode)
  | .mk tokenIds children kvBlocks refCount, freed =>
    let below := evictChildren targetBlocks children freed
    -- `local_freed >= target_blocks - freed`
    if targetBlocks ≤ below.localFreed + below.freed ∨ refCount ≠ 0 then
      { below with kept := some (.mk tokenIds below.kept kvBlocks refCount) }
    else
      { kept := none
        localFreed := below.localFreed + kvBlocks.length
        freed := below.freed + kvBlocks.length
        released := below.released ++ kvBlocks }

/-- The loop over the children of a node, which runs to its end. -/
def evictChildren (targetBlocks : Nat) : RadixChildren → Nat → Evicted RadixChildren
  | .nil, freed => { kept := .nil, localFreed := 0, freed, released := [] }
  | .cons first child rest, freed =>
    let one := evictNode targetBlocks child freed
    let others := evictChildren targetBlocks rest one.freed
    { kept := match one.kept with
        | some child' => .cons first child' others.kept
        | none => others.kept
      localFreed := one.localFreed + others.localFreed
      freed := others.freed
      released := one.released ++ others.released }

end

/-- The loop over the children of the root, which stops once enough is freed. -/
def evictRoot (targetBlocks : Nat) : RadixChildren → Nat → Evicted RadixChildren
  | .nil, freed => { kept := .nil, localFreed := 0, freed, released := [] }
  | .cons first child rest, freed =>
    let one := evictNode targetBlocks child freed
    let others := if targetBlocks ≤ one.freed then
        { kept := rest, localFreed := 0, freed := one.freed, released := [] }
      else evictRoot targetBlocks rest one.freed
    { kept := match one.kept with
        | some child' => .cons first child' others.kept
        | none => others.kept
      localFreed := one.localFreed + others.localFreed
      freed := others.freed
      released := one.released ++ others.released }

/-- Counts what a subtree freed and what all freed apart. -/
def evict (targetBlocks : Nat) : RadixTreeNode × BlockManager × Nat :=
  if targetBlocks = 0 then (root, bm, 0)
  else
    let below := evictRoot targetBlocks root.children 0
    (.mk root.tokenIds below.kept root.kvBlocks root.refCount,
      below.released.foldl BlockManager.freeBlock bm, below.freed)

/-! ## Pinned nodes -/

mutual

/-- The node and all below it have the `ref_count` of a new node, which nothing lowers. -/
def Pinned : RadixTreeNode → Prop
  | .mk _ children _ refCount => refCount = 1 ∧ PinnedChildren children

def PinnedChildren : RadixChildren → Prop
  | .nil => True
  | .cons _ child rest => Pinned child ∧ PinnedChildren rest

end

variable {first : UInt32} {child node : RadixTreeNode} {remaining : List UInt32}
  {kvBlocks : List Nat} {off blockSize : Nat}

theorem PinnedChildren.of_get :
    {cs : RadixChildren} → PinnedChildren cs → cs.get first = some child → Pinned child
  | .nil, _, h => by cases h
  | .cons k c rest, hpin, h => by
      rw [RadixChildren.get] at h
      rw [PinnedChildren] at hpin
      split at h
      · cases h
        exact hpin.1
      · exact PinnedChildren.of_get hpin.2 h

theorem PinnedChildren.insert (hnode : Pinned node) :
    {cs : RadixChildren} → PinnedChildren cs → PinnedChildren (cs.insert first node)
  | .nil, _ => ⟨hnode, trivial⟩
  | .cons k c rest, hpin => by
      rw [PinnedChildren] at hpin
      rw [RadixChildren.insert]
      split
      · exact ⟨hnode, hpin.2⟩
      · exact ⟨hpin.1, PinnedChildren.insert hnode hpin.2⟩

theorem Pinned.children (h : Pinned node) :
    PinnedChildren node.children := by
  cases node with
  | mk => exact h.2

theorem pinnedChildren_setChild (h : PinnedChildren node.children) (hchild : Pinned child) :
    PinnedChildren (node.setChild first child).children := by
  cases node with
  | mk => exact PinnedChildren.insert hchild h

theorem Pinned.setChild (h : Pinned node)
    (hchild : Pinned child) : Pinned (node.setChild first child) := by
  cases node with
  | mk => exact ⟨h.1, PinnedChildren.insert hchild h.2⟩

theorem Pinned.splitNode (h : Pinned child) (blockSize : Nat)
    {common : Nat} (hlt : common < child.tokenIds.length) :
    Pinned (splitNode blockSize child common hlt) := by
  cases child with
  | mk => exact ⟨h.1, ⟨h.1, h.2⟩, trivial⟩

theorem addNode_pinned (h : Pinned node) :
    Pinned (addNode node first remaining kvBlocks off).1 :=
  h.setChild ⟨rfl, trivial⟩

theorem insertLoop_pinned (h : Pinned node) :
    Pinned (insertLoop blockSize kvBlocks node remaining off).1 := by
  fun_induction insertLoop blockSize kvBlocks node remaining off with
  | case1 => exact h
  | case2 => exact addNode_pinned h
  | case3 => exact addNode_pinned h
  | case4 node off first rest child hget common hpos hlt sub ih =>
    exact h.setChild (ih ((h.children.of_get hget).splitNode blockSize hlt))
  | case5 node off first rest child hget common hpos hge sub ih =>
    exact h.setChild (ih (h.children.of_get hget))

theorem insertLoop_pinnedChildren (h : PinnedChildren node.children) :
    PinnedChildren (insertLoop blockSize kvBlocks node remaining off).1.children := by
  fun_cases insertLoop blockSize kvBlocks node remaining off with
  | case1 => exact h
  | case2 => exact pinnedChildren_setChild h ⟨rfl, trivial⟩
  | case3 => exact pinnedChildren_setChild h ⟨rfl, trivial⟩
  | case4 first rest child hget common hpos hlt =>
    exact pinnedChildren_setChild h
      (insertLoop_pinned ((h.of_get hget).splitNode blockSize hlt))
  | case5 first rest child hget common hpos hge =>
    exact pinnedChildren_setChild h (insertLoop_pinned (h.of_get hget))

mutual

theorem evictNode_pinned (target : Nat) :
    (node : RadixTreeNode) → (freed : Nat) → Pinned node → evictNode target node freed =
        { kept := some node, localFreed := 0, freed, released := [] }
  | .mk tokenIds children kvBlocks refCount, freed, hpin => by
      obtain ⟨hone, hchildren⟩ := hpin
      have hstay : refCount ≠ 0 := by omega
      rw [evictNode, evictChildren_pinned target children freed hchildren]
      exact if_pos (.inr hstay)

theorem evictChildren_pinned (target : Nat) :
    (cs : RadixChildren) → (freed : Nat) → PinnedChildren cs →
      evictChildren target cs freed = { kept := cs, localFreed := 0, freed, released := [] }
  | .nil, freed, _ => by rw [evictChildren]
  | .cons first child rest, freed, hpin => by
      rw [evictChildren, evictNode_pinned target child freed hpin.1,
        evictChildren_pinned target rest freed hpin.2]
      rfl

end

theorem evictRoot_pinned (target : Nat) :
    (cs : RadixChildren) → (freed : Nat) → PinnedChildren cs →
      evictRoot target cs freed = { kept := cs, localFreed := 0, freed, released := [] }
  | .nil, freed, _ => by rw [evictRoot]
  | .cons first child rest, freed, hpin => by
      rw [evictRoot, evictNode_pinned target child freed hpin.1,
        evictRoot_pinned target rest freed hpin.2]
      dsimp only
      split <;> rfl

theorem evict_pinned {root : RadixTreeNode} (h : PinnedChildren root.children)
    (bm : BlockManager) (target : Nat) : evict root bm target = (root, bm, 0) := by
  rw [evict]
  split
  case isTrue => rfl
  case isFalse =>
    rw [evictRoot_pinned target root.children 0 h]
    cases root
    rfl

end PyRadix

end CompileForge.PythonRuntime
