/-
  When `insert` stays in range: it panics if the nodes matched before hold more blocks than the
  sequence has.
-/

import CompileForge.Runtime.Cache.RadixInsert

namespace CompileForge.Runtime

open List

/-- `block_offset` where a node is added. -/
def newNodeOffset (node : RadixTreeNode) (remaining : List UInt32) (blockOffset : Nat) :
    Option Nat :=
  match remaining with
  | [] => none
  | first :: rest =>
    match node.children.get first with
    | none => some blockOffset
    | some child =>
      let common := commonPrefixLen (first :: rest) child.tokenIds
      if _hz : common = 0 then some blockOffset
      else if common < child.tokenIds.length then
        -- behind a split there is nothing but the rest of the split edge
        if common < (first :: rest).length then some blockOffset else none
      else
        newNodeOffset child ((first :: rest).drop child.tokenIds.length)
          (blockOffset + child.kvBlocks.length)
termination_by remaining.length
decreasing_by
  have hle := commonPrefixLen_le_right (first :: rest) child.tokenIds
  simp only [length_drop, length_cons]
  omega

section

variable {node child : RadixTreeNode} {first : UInt32} {rest : List UInt32} {blockOffset : Nat}

theorem newNodeOffset_nil : newNodeOffset node [] blockOffset = none := by
  rw [newNodeOffset]

theorem newNodeOffset_none (h : node.children.get first = none) :
    newNodeOffset node (first :: rest) blockOffset = some blockOffset := by
  rw [newNodeOffset, h]

theorem newNodeOffset_zero (h : node.children.get first = some child)
    (hzero : commonPrefixLen (first :: rest) child.tokenIds = 0) :
    newNodeOffset node (first :: rest) blockOffset = some blockOffset := by
  rw [newNodeOffset, h]
  simp only [dif_pos hzero]

theorem newNodeOffset_split (h : node.children.get first = some child)
    (hpos : commonPrefixLen (first :: rest) child.tokenIds ≠ 0)
    (hlt : commonPrefixLen (first :: rest) child.tokenIds < child.tokenIds.length) :
    newNodeOffset node (first :: rest) blockOffset =
      if commonPrefixLen (first :: rest) child.tokenIds < (first :: rest).length then
        some blockOffset
      else none := by
  rw [newNodeOffset, h]
  simp only [dif_neg hpos, if_pos hlt]

theorem newNodeOffset_descend (h : node.children.get first = some child)
    (hpos : commonPrefixLen (first :: rest) child.tokenIds ≠ 0)
    (hge : ¬ commonPrefixLen (first :: rest) child.tokenIds < child.tokenIds.length) :
    newNodeOffset node (first :: rest) blockOffset =
      newNodeOffset child ((first :: rest).drop child.tokenIds.length)
        (blockOffset + child.kvBlocks.length) := by
  rw [newNodeOffset, h]
  simp only [dif_neg hpos, if_neg hge]

end

theorem addNode_isSome {node : RadixTreeNode} {first : UInt32} {remaining : List UInt32}
    {kvBlocks : List Nat} {blockOffset : Nat} :
    (addNode node first remaining kvBlocks blockOffset).isSome = true ↔
      ∀ off ∈ some blockOffset, off ≤ kvBlocks.length := by
  rw [addNode]
  constructor
  · intro h off hoff
    obtain rfl : blockOffset = off := Option.some.inj hoff
    by_contra hlt
    rw [if_neg hlt] at h
    cases h
  · intro h
    rw [if_pos (h blockOffset rfl)]
    rfl

/-- An insertion does not panic if the blocks reach to where its new node starts. -/
theorem insertLoop_isSome (blockSize : Nat) (kvBlocks : List Nat) (remaining : List UInt32) :
    ∀ (node : RadixTreeNode) (blockOffset : Nat),
      (insertLoop blockSize kvBlocks node remaining blockOffset).isSome = true ↔
        ∀ off ∈ newNodeOffset node remaining blockOffset, off ≤ kvBlocks.length := by
  induction hlen : remaining.length using Nat.strong_induction_on generalizing remaining with
  | h n ih =>
    intro node blockOffset
    cases remaining with
    | nil =>
      rw [insertLoop_nil, newNodeOffset_nil]
      exact ⟨fun _ off hoff => absurd hoff (Option.not_mem_none off), fun _ => rfl⟩
    | cons first rest =>
      cases hget : node.children.get first with
      | none =>
        rw [insertLoop_none hget, newNodeOffset_none hget]
        exact addNode_isSome
      | some child =>
        by_cases hpos : commonPrefixLen (first :: rest) child.tokenIds = 0
        · rw [newNodeOffset_zero hget hpos, insertLoop, hget]
          simp only [dif_pos hpos]
          exact addNode_isSome
        · by_cases hlt : commonPrefixLen (first :: rest) child.tokenIds < child.tokenIds.length
          · rw [insertLoop_split hget hpos hlt, Option.isSome_map,
              newNodeOffset_split hget hpos hlt]
            cases hdrop : (first :: rest).drop
                (commonPrefixLen (first :: rest) child.tokenIds) with
            | nil =>
              have hend := drop_eq_nil_iff.1 hdrop
              rw [insertLoop_nil, if_neg (Nat.not_lt.2 hend)]
              exact ⟨fun _ off hoff => absurd hoff (Option.not_mem_none off), fun _ => rfl⟩
            | cons x l =>
              have hmore : commonPrefixLen (first :: rest) child.tokenIds <
                  (first :: rest).length := by
                rw [← drop_eq_nil_iff.not.trans Nat.not_le, hdrop]
                exact cons_ne_nil x l
              -- the node below the split has no child for the next token
              have hnone : (splitNode blockSize child _ hlt).children.get x = none :=
                get_splitNode_of_ne hlt (head_ne_of_commonPrefixLen hlt hdrop)
              rw [insertLoop_none hnone, if_pos hmore]
              exact addNode_isSome
          · have hle := commonPrefixLen_le_right (first :: rest) child.tokenIds
            rw [insertLoop_descend hget hpos hlt, Option.isSome_map,
              newNodeOffset_descend hget hpos hlt]
            refine ih _ ?_ _ rfl child _
            rw [length_cons] at hlen
            rw [length_drop, length_cons]
            omega

/-- The blocks of a sequence reach to where the prefix cache adds a node for it. -/
def RadixCache.Fits (cache : RadixCache) (tokenIds : List UInt32) (kvBlocks : List Nat) : Prop :=
  ∀ off ∈ newNodeOffset cache.root tokenIds 0, off ≤ kvBlocks.length

/-- An insertion panics exactly where it does not fit. -/
theorem RadixCache.insert_isSome {cache : RadixCache} {tokenIds : List UInt32}
    {kvBlocks : List Nat} {bm : BlockManager} :
    (cache.insert tokenIds kvBlocks bm).isSome = true ↔ cache.Fits tokenIds kvBlocks := by
  rw [RadixCache.insert, RadixCache.insertCalls, Option.isSome_map, Option.isSome_map]
  exact insertLoop_isSome _ _ _ _ _

end CompileForge.Runtime
