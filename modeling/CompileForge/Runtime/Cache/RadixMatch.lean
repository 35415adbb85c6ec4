/-
  Which blocks a prefix match returns.
-/

import CompileForge.Lib.Paging
import CompileForge.Runtime.Cache.Radix

namespace CompileForge.Runtime

open Lib List

/-- The blocks of a prefix: the `j`-th is that of a sequence that agrees with `q` so far. -/
structure Stored (blockSize : Nat) (seqs : List (List UInt32 × List Nat)) (q : List UInt32)
    (blocks : List Nat) : Prop where
  length_eq : blocks.length = q.length ⌈/⌉ blockSize
  owner : ∀ j b, blocks[j]? = some b →
    ∃ s ∈ seqs, s.2[j]? = some b ∧ q.take (blockSize * (j + 1)) <+: s.1

/-- An edge either starts at a block boundary and brings its own blocks, or lies inside the block
    its start is in and brings none. -/
def EdgeFits (blockSize d len : Nat) (kvBlocks : List Nat) : Prop :=
  (blockSize ∣ d ∧ kvBlocks.length = len ⌈/⌉ blockSize) ∨
    (¬ blockSize ∣ d ∧ kvBlocks = [] ∧ d + len ≤ blockSize * (d ⌈/⌉ blockSize))

mutual

/-- Every path from this node, reached by `path` with `blocks`, is stored. -/
def RadixTreeNode.Mapped (blockSize : Nat) (seqs : List (List UInt32 × List Nat)) :
    RadixTreeNode → List UInt32 → List Nat → Prop
  | .mk _ children _ _, path, blocks => children.Mapped blockSize seqs path blocks

/-- Along every path the blocks listed are those of inserted sequences that agree with the path up
    to the end of each block.  Insertion keeps this up only under `KeepsBlocks`. -/
def RadixChildren.Mapped (blockSize : Nat) (seqs : List (List UInt32 × List Nat)) :
    RadixChildren → List UInt32 → List Nat → Prop
  | .nil, _, _ => True
  | .cons first child rest, path, blocks =>
    child.tokenIds.head? = some first ∧
    EdgeFits blockSize path.length child.tokenIds.length child.kvBlocks ∧
    Stored blockSize seqs (path ++ child.tokenIds) (blocks ++ child.kvBlocks) ∧
    child.Mapped blockSize seqs (path ++ child.tokenIds) (blocks ++ child.kvBlocks) ∧
    rest.Mapped blockSize seqs path blocks

end

structure MappedChild (blockSize : Nat) (seqs : List (List UInt32 × List Nat))
    (path : List UInt32) (blocks : List Nat) (first : UInt32) (child : RadixTreeNode) : Prop where
  head : child.tokenIds.head? = some first
  fits : EdgeFits blockSize path.length child.tokenIds.length child.kvBlocks
  stored : Stored blockSize seqs (path ++ child.tokenIds) (blocks ++ child.kvBlocks)
  mapped : child.Mapped blockSize seqs (path ++ child.tokenIds) (blocks ++ child.kvBlocks)

variable {blockSize : Nat} {seqs : List (List UInt32 × List Nat)} {path q : List UInt32}
  {blocks : List Nat} {first : UInt32} {node child : RadixTreeNode}

/-! ## Reading and rebuilding mapped trees -/

theorem RadixChildren.Mapped.of_get :
    {cs : RadixChildren} → cs.Mapped blockSize seqs path blocks → cs.get first = some child →
      MappedChild blockSize seqs path blocks first child
  | .nil, _, h => by cases h
  | .cons k c rest, hm, h => by
      obtain ⟨hhead, hfits, hstored, hmapped, hrest⟩ := hm
      rw [RadixChildren.get] at h
      split at h
      · next hk =>
          cases h
          exact ⟨hk ▸ hhead, hfits, hstored, hmapped⟩
      · exact RadixChildren.Mapped.of_get hrest h

theorem RadixChildren.Mapped.insert (hc : MappedChild blockSize seqs path blocks first child) :
    {cs : RadixChildren} → cs.Mapped blockSize seqs path blocks →
      (cs.insert first child).Mapped blockSize seqs path blocks
  | .nil, _ => ⟨hc.head, hc.fits, hc.stored, hc.mapped, trivial⟩
  | .cons k c rest, hm => by
      obtain ⟨hhead, hfits, hstored, hmapped, hrest⟩ := hm
      rw [RadixChildren.insert]
      split
      · next hk => exact ⟨hk ▸ hc.head, hc.fits, hc.stored, hc.mapped, hrest⟩
      · exact ⟨hhead, hfits, hstored, hmapped, RadixChildren.Mapped.insert hc hrest⟩

theorem RadixTreeNode.Mapped.of_get (hm : node.Mapped blockSize seqs path blocks)
    (h : node.children.get first = some child) :
    MappedChild blockSize seqs path blocks first child := by
  cases node with
  | mk => exact RadixChildren.Mapped.of_get hm h

theorem RadixTreeNode.Mapped.setChild (hm : node.Mapped blockSize seqs path blocks)
    (hc : MappedChild blockSize seqs path blocks first child) :
    (node.setChild first child).Mapped blockSize seqs path blocks := by
  cases node with
  | mk => exact RadixChildren.Mapped.insert hc hm

theorem Stored.mono {seqs' : List (List UInt32 × List Nat)}
    (h : Stored blockSize seqs q blocks) (hsub : seqs ⊆ seqs') :
    Stored blockSize seqs' q blocks where
  length_eq := h.length_eq
  owner j b hj := by
    obtain ⟨s, hs, hrest⟩ := h.owner j b hj
    exact ⟨s, hsub hs, hrest⟩

mutual

variable {seqs' : List (List UInt32 × List Nat)}

theorem RadixTreeNode.Mapped.mono (hsub : seqs ⊆ seqs') :
    {node : RadixTreeNode} → {path : List UInt32} → {blocks : List Nat} →
      node.Mapped blockSize seqs path blocks → node.Mapped blockSize seqs' path blocks
  | .mk _ _ _ _, _, _, h => RadixChildren.Mapped.mono hsub h

theorem RadixChildren.Mapped.mono (hsub : seqs ⊆ seqs') :
    {cs : RadixChildren} → {path : List UInt32} → {blocks : List Nat} →
      cs.Mapped blockSize seqs path blocks → cs.Mapped blockSize seqs' path blocks
  | .nil, _, _, _ => trivial
  | .cons _ _ _, _, _, ⟨hhead, hfits, hstored, hmapped, hrest⟩ =>
    ⟨hhead, hfits, hstored.mono hsub, RadixTreeNode.Mapped.mono hsub hmapped,
      RadixChildren.Mapped.mono hsub hrest⟩

end

/-! ## Prefixes of stored paths -/

theorem Stored.nil : Stored blockSize seqs [] [] where
  length_eq := by simp
  owner j b h := by simp at h

theorem Stored.take (hs : 0 < blockSize) (h : Stored blockSize seqs q blocks) {n : Nat}
    (hn : n ≤ q.length) :
    Stored blockSize seqs (q.take n) (blocks.take (n ⌈/⌉ blockSize)) where
  length_eq := by
    have hmono := ceilDiv_mono hs hn
    rw [length_take, length_take, h.length_eq, Nat.min_eq_left hn]
    omega
  owner j b hj := by
    have hj' : blocks[j]? = some b := by
      rw [getElem?_take] at hj
      split at hj
      · exact hj
      · cases hj
    obtain ⟨s, hs, hb, hpre⟩ := h.owner j b hj'
    refine ⟨s, hs, hb, List.IsPrefix.trans ?_ hpre⟩
    rw [take_take, Nat.min_comm, ← take_take]
    exact take_prefix _ _

theorem EdgeFits.take_blocks (hs : 0 < blockSize) {d len c : Nat} {kvBlocks : List Nat}
    (h : EdgeFits blockSize d len kvBlocks) (hlen : blocks.length = d ⌈/⌉ blockSize)
    (hc : c ≤ len) :
    (blocks ++ kvBlocks).take ((d + c) ⌈/⌉ blockSize) =
      blocks ++ kvBlocks.take (c ⌈/⌉ blockSize) := by
  rcases h with ⟨hdvd, -⟩ | ⟨-, hnil, hwithin⟩
  · rw [ceilDiv_add_of_dvd hs hdvd, ← hlen, take_length_add_append]
  · subst hnil
    have hsame := ceilDiv_eq_of_same_page hs (Nat.le_add_right d c) (by omega)
    rw [hsame, ← hlen, append_nil, take_nil, append_nil, take_length]

theorem matchLoop_stored (hs : 0 < blockSize) (remaining : List UInt32) :
    ∀ {node : RadixTreeNode} {path : List UInt32} {blocks : List Nat},
      node.Mapped blockSize seqs path blocks → Stored blockSize seqs path blocks →
      ∃ k, k ≤ remaining.length ∧
        (matchLoop blockSize node remaining blocks path.length).2 = path.length + k ∧
        Stored blockSize seqs (path ++ remaining.take k)
          (matchLoop blockSize node remaining blocks path.length).1 := by
  induction hlen : remaining.length using Nat.strong_induction_on generalizing remaining with
  | h n ih =>
    intro node path blocks hm hstored
    have hstay : ∃ k, k ≤ n ∧ path.length = path.length + k ∧
        Stored blockSize seqs (path ++ remaining.take k) blocks :=
      ⟨0, Nat.zero_le _, rfl, by rwa [take_zero, append_nil]⟩
    cases remaining with
    | nil =>
      rw [matchLoop_nil]
      exact hstay
    | cons first rest =>
      cases hget : node.children.get first with
      | none =>
        rw [matchLoop_none hget]
        exact hstay
      | some child =>
        have hc := hm.of_get hget
        by_cases hlt : commonPrefixLen (first :: rest) child.tokenIds < child.tokenIds.length
        · rw [matchLoop_within hget hlt]
          refine ⟨commonPrefixLen (first :: rest) child.tokenIds,
            hlen ▸ commonPrefixLen_le_left _ _, rfl, ?_⟩
          have hcut := hc.stored.take hs
            (n := path.length + commonPrefixLen (first :: rest) child.tokenIds)
            (by rw [length_append]; omega)
          rw [hc.fits.take_blocks hs hstored.length_eq hlt.le,
            take_length_add_append, ← take_commonPrefixLen] at hcut
          exact hcut
        · rw [matchLoop_descend hget hlt]
          have hfull := append_drop_of_full hlt
          have hlenfull := congrArg length hfull
          rw [length_append] at hlenfull
          have hpos : child.tokenIds.length ≠ 0 := by
            intro h0
            have hhead := hc.head
            rw [length_eq_zero_iff.1 h0] at hhead
            cases hhead
          have hshort : ((first :: rest).drop child.tokenIds.length).length < n := by omega
          obtain ⟨k, hk, hcount, hstored'⟩ := ih _ hshort _ rfl hc.mapped hc.stored
          rw [length_append] at hcount hstored'
          refine ⟨child.tokenIds.length + k, by omega, by omega, ?_⟩
          rw [append_assoc] at hstored'
          have htake : (first :: rest).take (child.tokenIds.length + k) =
              child.tokenIds ++ ((first :: rest).drop child.tokenIds.length).take k := by
            conv_lhs => rw [← hfull]
            rw [take_length_add_append]
          rw [htake]
          exact hstored'

end CompileForge.Runtime
