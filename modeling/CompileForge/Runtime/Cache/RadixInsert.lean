/-
  When an insertion keeps the block mapping of the tree.  Runs of such insertions answer every
  query with stored blocks; where the condition fails a node is given the wrong blocks for good.
-/

import CompileForge.Lib.Run
import CompileForge.Runtime.Cache.RadixMatch

namespace CompileForge.Runtime

open Lib List

/-- The edge a walk stops inside: the length of the common part and the blocks of the edge. -/
def cutEdge (node : RadixTreeNode) (remaining : List UInt32) : Option (Nat × List Nat) :=
  match remaining with
  | [] => none
  | first :: rest =>
    match _hchild : node.children.get first with
    | none => none
    | some child =>
      let common := commonPrefixLen (first :: rest) child.tokenIds
      if common < child.tokenIds.length then some (common, child.kvBlocks)
      else cutEdge child ((first :: rest).drop child.tokenIds.length)
termination_by sizeOf node
decreasing_by exact RadixTreeNode.sizeOf_child_lt _hchild

/-- The sequence ends in the last block found, and brings this block. -/
def EndsInLastBlock (blockSize : Nat) (seq : List UInt32 × List Nat)
    (found : List Nat × Nat) : Prop :=
  seq.1.length ≤ blockSize * (found.2 ⌈/⌉ blockSize) ∧
    seq.2[found.2 ⌈/⌉ blockSize - 1]? = found.1[found.2 ⌈/⌉ blockSize - 1]?
deriving Decidable

/-- Inserting `seq` where `found` ends, cutting `cut`, gives every node the right blocks. -/
def KeepsBlocks (blockSize : Nat) (seq : List UInt32 × List Nat) (found : List Nat × Nat) :
    Option (Nat × List Nat) → Prop
  | none =>
    found.2 = seq.1.length ∨ blockSize ∣ found.2 ∨ EndsInLastBlock blockSize seq found
  | some (common, edge) =>
    if found.2 = seq.1.length then
      blockSize ∣ found.2 ∨ edge.length ≤ common ⌈/⌉ blockSize
    else edge = [] ∧ EndsInLastBlock blockSize seq found

instance (blockSize : Nat) (seq : List UInt32 × List Nat) (found : List Nat × Nat) :
    (cut : Option (Nat × List Nat)) → Decidable (KeepsBlocks blockSize seq found cut)
  | none => inferInstanceAs (Decidable (_ ∨ _ ∨ _))
  | some (common, edge) => inferInstanceAs (Decidable
      (if found.2 = seq.1.length then blockSize ∣ found.2 ∨ edge.length ≤ common ⌈/⌉ blockSize
        else edge = [] ∧ EndsInLastBlock blockSize seq found))

/-- The condition on a tree and a sequence under which `insert` leaves a mapped tree mapped. -/
def RadixCache.InsertKeepsBlocks (cache : RadixCache) (seq : List UInt32 × List Nat) : Prop :=
  KeepsBlocks cache.blockSize seq (cache.matchPrefix seq.1) (cutEdge cache.root seq.1)
deriving Decidable

section CutEdge

variable {node child : RadixTreeNode} {first : UInt32} {rest : List UInt32}

theorem cutEdge_none (h : node.children.get first = none) :
    cutEdge node (first :: rest) = none := by
  rw [cutEdge]
  split
  · rfl
  · next heq => rw [h] at heq; cases heq

theorem cutEdge_within (h : node.children.get first = some child)
    (hlt : commonPrefixLen (first :: rest) child.tokenIds < child.tokenIds.length) :
    cutEdge node (first :: rest) =
      some (commonPrefixLen (first :: rest) child.tokenIds, child.kvBlocks) := by
  rw [cutEdge]
  split
  · next heq => rw [h] at heq; cases heq
  · next child' heq =>
      rw [h] at heq
      cases heq
      exact if_pos hlt

theorem cutEdge_descend (h : node.children.get first = some child)
    (hge : ¬ commonPrefixLen (first :: rest) child.tokenIds < child.tokenIds.length) :
    cutEdge node (first :: rest) = cutEdge child ((first :: rest).drop child.tokenIds.length) := by
  rw [cutEdge]
  split
  · next heq => rw [h] at heq; cases heq
  · next child' heq =>
      rw [h] at heq
      cases heq
      exact if_neg hge

end CutEdge

variable {blockSize : Nat} {seqs : List (List UInt32 × List Nat)} {seq : List UInt32 × List Nat}
  {path remaining : List UInt32} {blocks : List Nat} {node child : RadixTreeNode}
  {first : UInt32} {rest : List UInt32}

/-- A leaf that takes the blocks of `seq` from `blocks.length` on is stored. -/
theorem mappedChild_leaf (hs : 0 < blockSize) (hstored : Stored blockSize seqs path blocks)
    (hmem : seq ∈ seqs) (hseq : seq.1 = path ++ first :: rest)
    (hlen : seq.2.length = seq.1.length ⌈/⌉ blockSize)
    (hkeep : blockSize ∣ path.length ∨ EndsInLastBlock blockSize seq (blocks, path.length)) :
    blocks.length ≤ seq.2.length ∧ MappedChild blockSize seqs path blocks first
        (.mk (first :: rest) .nil (seq.2.drop blocks.length) 0) := by
  have htotal : seq.1.length = path.length + (rest.length + 1) := by
    rw [hseq, length_append, length_cons]
  have hmono : path.length ⌈/⌉ blockSize ≤ seq.1.length ⌈/⌉ blockSize :=
    ceilDiv_mono hs (by omega)
  have hfit : blocks.length ≤ seq.2.length := by rw [hstored.length_eq, hlen]; exact hmono
  refine ⟨hfit, rfl, ?_, ?_, trivial⟩
  · -- the leaf starts at a boundary, or stays inside the last block
    show EdgeFits blockSize path.length (first :: rest).length (seq.2.drop blocks.length)
    by_cases hdvd : blockSize ∣ path.length
    · have hadd := ceilDiv_add_of_dvd hs hdvd (rest.length + 1)
      refine .inl ⟨hdvd, ?_⟩
      rw [length_drop, hlen, htotal, hadd, hstored.length_eq, length_cons]
      omega
    · obtain ⟨hwithin, -⟩ := hkeep.resolve_left hdvd
      have hsame := ceilDiv_eq_of_same_page hs (by omega) hwithin
      refine .inr ⟨hdvd, drop_eq_nil_of_le ?_, ?_⟩
      · rw [hlen, hsame, hstored.length_eq]
      · rw [length_cons, ← htotal]
        exact hwithin
  · show Stored blockSize seqs (path ++ first :: rest) (blocks ++ seq.2.drop blocks.length)
    rw [← hseq]
    refine ⟨?_, fun j b hj => ?_⟩
    · rw [length_append, length_drop, ← hlen]
      omega
    · -- a block of `seq` itself
      have hown : seq.2[j]? = some b → ∃ s ∈ seqs, s.2[j]? = some b ∧
          seq.1.take (blockSize * (j + 1)) <+: s.1 :=
        fun hj' => ⟨seq, hmem, hj', take_prefix _ _⟩
      rw [getElem?_append] at hj
      split at hj
      · next hjlt =>
          by_cases hbefore : blockSize * (j + 1) ≤ path.length
          · -- a block of the path that ends before the leaf begins
            obtain ⟨s, hs', hb, hpre⟩ := hstored.owner j b hj
            refine ⟨s, hs', hb, ?_⟩
            rwa [hseq, take_append_of_le_length hbefore]
          · -- the last block of the path, which the leaf continues
            have hlast : path.length ⌈/⌉ blockSize = j + 1 := by
              have hle : path.length ⌈/⌉ blockSize ≤ j + 1 :=
                (ceilDiv_le_iff_le_mul hs).2 (by omega)
              rw [hstored.length_eq] at hjlt
              omega
            have hdvd : ¬ blockSize ∣ path.length := by
              intro hdvd
              have hcover := mul_ceilDiv_of_dvd hs hdvd
              rw [hlast] at hcover
              omega
            obtain ⟨-, hshared⟩ := hkeep.resolve_left hdvd
            simp only [hlast, Nat.add_sub_cancel] at hshared
            exact hown (hshared.trans hj)
      · next hjge =>
          rw [getElem?_drop] at hj
          have hindex : blocks.length + (j - blocks.length) = j := by omega
          rw [hindex] at hj
          exact hown hj

/-! ## A split edge -/

variable {d len c common : Nat} {kv : List Nat} {cache : RadixCache}

theorem EdgeFits.upper (hs : 0 < blockSize) (h : EdgeFits blockSize d len kv) (hc : c ≤ len) :
    EdgeFits blockSize d c (kv.take (c ⌈/⌉ blockSize)) := by
  rcases h with ⟨hdvd, hlen⟩ | ⟨hdvd, hnil, hwithin⟩
  · have hmono := ceilDiv_mono hs hc
    refine .inl ⟨hdvd, ?_⟩
    rw [length_take, hlen]
    omega
  · exact .inr ⟨hdvd, by rw [hnil, take_nil], by omega⟩

theorem EdgeFits.lower (hs : 0 < blockSize) (h : EdgeFits blockSize d len kv) (hc : c < len)
    (hkeep : blockSize ∣ d + c ∨ kv.length ≤ c ⌈/⌉ blockSize) :
    EdgeFits blockSize (d + c) (len - c) (kv.drop (c ⌈/⌉ blockSize)) := by
  have hend : d + c + (len - c) = d + len := by omega
  rcases h with ⟨hdvd, hlen⟩ | ⟨hdvd, hnil, hwithin⟩
  · by_cases hcut : blockSize ∣ d + c
    · have hcdvd : blockSize ∣ c := (Nat.dvd_add_right hdvd).1 hcut
      have hadd := ceilDiv_add_of_dvd hs hcdvd (len - c)
      have hrest : c + (len - c) = len := by omega
      rw [hrest] at hadd
      refine .inl ⟨hcut, ?_⟩
      rw [length_drop, hlen]
      omega
    · have hnone := hkeep.resolve_left hcut
      have hpages := ceilDiv_add_of_dvd hs hdvd c
      have hcover := mul_ceilDiv_of_dvd hs hdvd
      have hlow : len ≤ blockSize * (c ⌈/⌉ blockSize) :=
        (ceilDiv_le_iff_le_mul hs).1 (hlen ▸ hnone)
      refine .inr ⟨hcut, drop_eq_nil_of_le hnone, ?_⟩
      rw [hpages, mul_add, hcover]
      omega
  · have hsame := ceilDiv_eq_of_same_page hs (Nat.le_add_right d c) (by omega)
    refine .inr ⟨not_dvd_of_same_page hs (Nat.le_add_right d c) (by omega), ?_, ?_⟩
    · rw [hnil, drop_nil]
    · rw [hsame, hend]
      exact hwithin

/-- A split child is a mapped child whose own subtree hangs below the cut. -/
theorem MappedChild.splitNode (hs : 0 < blockSize) (hstored : Stored blockSize seqs path blocks)
    (hc : MappedChild blockSize seqs path blocks first child)
    (hpos : common ≠ 0) (hlt : common < child.tokenIds.length)
    (hkeep : blockSize ∣ path.length + common ∨ child.kvBlocks.length ≤ common ⌈/⌉ blockSize) :
    MappedChild blockSize seqs path blocks first (splitNode blockSize child common hlt) := by
  have hrejoin : path ++ child.tokenIds.take common ++ child.tokenIds.drop common =
      path ++ child.tokenIds := by
    rw [append_assoc, take_append_drop]
  have hrejoin' : blocks ++ child.kvBlocks.take (common ⌈/⌉ blockSize) ++
      child.kvBlocks.drop (common ⌈/⌉ blockSize) = blocks ++ child.kvBlocks := by
    rw [append_assoc, take_append_drop]
  have htake : (child.tokenIds.take common).length = common :=
    length_take_of_le hlt.le
  refine ⟨?_, ?_, ?_, ?_, ?_, ?_, ?_, trivial⟩
  · obtain ⟨n, rfl⟩ := Nat.exists_eq_succ_of_ne_zero hpos
    rw [← hc.head]
    show (child.tokenIds.take (n + 1)).head? = _
    cases child.tokenIds <;> rfl
  · show EdgeFits blockSize path.length (child.tokenIds.take common).length _
    rw [htake]
    exact hc.fits.upper hs hlt.le
  · have hcut := hc.stored.take hs (n := path.length + common)
      (by rw [length_append]; omega)
    rwa [hc.fits.take_blocks hs hstored.length_eq hlt.le, take_length_add_append] at hcut
  · show (child.tokenIds.drop common).head? = some child.tokenIds[common]
    rw [head?_drop, getElem?_eq_getElem hlt]
  · show EdgeFits blockSize (path ++ child.tokenIds.take common).length
      (child.tokenIds.drop common).length _
    rw [length_append, htake, length_drop]
    exact hc.fits.lower hs hlt hkeep
  · show Stored blockSize seqs (path ++ child.tokenIds.take common ++ child.tokenIds.drop common)
      (blocks ++ child.kvBlocks.take (common ⌈/⌉ blockSize) ++
        child.kvBlocks.drop (common ⌈/⌉ blockSize))
    rw [hrejoin, hrejoin']
    exact hc.stored
  · show RadixChildren.Mapped blockSize seqs child.children
      (path ++ child.tokenIds.take common ++ child.tokenIds.drop common)
      (blocks ++ child.kvBlocks.take (common ⌈/⌉ blockSize) ++
        child.kvBlocks.drop (common ⌈/⌉ blockSize))
    rw [hrejoin, hrejoin']
    have hmapped := hc.mapped
    cases child with
    | mk => exact hmapped

/-! ## Insertion -/

theorem MappedChild.congr {child' : RadixTreeNode}
    (hc : MappedChild blockSize seqs path blocks first child)
    (htokens : child'.tokenIds = child.tokenIds) (hblocks : child'.kvBlocks = child.kvBlocks)
    (hm : child'.Mapped blockSize seqs (path ++ child.tokenIds) (blocks ++ child.kvBlocks)) :
    MappedChild blockSize seqs path blocks first child' where
  head := htokens ▸ hc.head
  fits := htokens ▸ hblocks ▸ hc.fits
  stored := htokens ▸ hblocks ▸ hc.stored
  mapped := htokens ▸ hblocks ▸ hm

theorem addNode_mapped (hs : 0 < blockSize) (hm : node.Mapped blockSize seqs path blocks)
    (hstored : Stored blockSize seqs path blocks) (hmem : seq ∈ seqs)
    (hlen : seq.2.length = seq.1.length ⌈/⌉ blockSize) (hseq : seq.1 = path ++ first :: rest)
    (hkeep : blockSize ∣ path.length ∨ EndsInLastBlock blockSize seq (blocks, path.length)) :
    ∃ node' held, addNode node first (first :: rest) seq.2 blocks.length = some (node', held) ∧
      node'.tokenIds = node.tokenIds ∧ node'.kvBlocks = node.kvBlocks ∧
      node'.Mapped blockSize seqs path blocks := by
  obtain ⟨hfit, hleaf⟩ := mappedChild_leaf hs hstored hmem hseq hlen hkeep
  refine ⟨node.setChild first (.mk (first :: rest) .nil (seq.2.drop blocks.length) 0),
    seq.2.drop blocks.length, ?_, rfl, rfl, hm.setChild hleaf⟩
  rw [addNode, if_pos hfit]

theorem get_splitNode_of_ne {x : UInt32} (h : common < child.tokenIds.length)
    (hne : child.tokenIds[common] ≠ x) :
    (splitNode blockSize child common h).children.get x = none := by
  show RadixChildren.get x (.cons child.tokenIds[common] _ .nil) = none
  rw [RadixChildren.get, if_neg hne]
  rfl

theorem insertLoop_split_mapped (hs : 0 < blockSize) (hmem : seq ∈ seqs)
    (hlen : seq.2.length = seq.1.length ⌈/⌉ blockSize) (hstored : Stored blockSize seqs path blocks)
    (hc : MappedChild blockSize seqs path blocks first child)
    (hpos : common ≠ 0) (hlt : common < child.tokenIds.length)
    (htake : (first :: rest).take common = child.tokenIds.take common)
    (hnext : ∀ x l, (first :: rest).drop common = x :: l → child.tokenIds[common] ≠ x)
    (hseq : seq.1 = path ++ first :: rest) (hkeep : KeepsBlocks blockSize seq
      (blocks ++ child.kvBlocks.take (common ⌈/⌉ blockSize), path.length + common)
      (some (common, child.kvBlocks))) :
    ∃ sub held, insertLoop blockSize seq.2 (splitNode blockSize child common hlt)
        ((first :: rest).drop common) blocks.length = some (sub, held) ∧
      MappedChild blockSize seqs path blocks first sub := by
  have htotal : seq.1.length = path.length + common + ((first :: rest).drop common).length := by
    have hfirst := congrArg length htake
    have hsplit := congrArg length (take_append_drop common (first :: rest))
    rw [length_append] at hsplit
    rw [length_take_of_le hlt.le] at hfirst
    rw [hseq, length_append]
    omega
  rw [KeepsBlocks] at hkeep
  cases hdrop : (first :: rest).drop common with
  | nil =>
    -- nothing is left: the tree is only cut
    rw [hdrop, length_nil, add_zero] at htotal
    rw [if_pos htotal.symm] at hkeep
    exact ⟨_, [], insertLoop_nil, hc.splitNode hs hstored hpos hlt hkeep⟩
  | cons x l =>
    rw [hdrop, length_cons] at htotal
    rw [if_neg (by simp only; omega)] at hkeep
    obtain ⟨hedge, hends⟩ := hkeep
    have hsplit := hc.splitNode hs hstored hpos hlt (.inr (by rw [hedge]; exact Nat.zero_le _))
    have hblocks : blocks ++ child.kvBlocks.take (common ⌈/⌉ blockSize) = blocks := by
      rw [hedge, take_nil, append_nil]
    have hpath : (path ++ child.tokenIds.take common).length = path.length + common := by
      rw [length_append, length_take_of_le hlt.le]
    have hseq' : seq.1 = path ++ child.tokenIds.take common ++ x :: l := by
      rw [append_assoc, ← htake, ← hdrop, take_append_drop, hseq]
    have hmapped := hsplit.mapped
    have hstored' := hsplit.stored
    have hends' : EndsInLastBlock blockSize seq
        (blocks ++ child.kvBlocks.take (common ⌈/⌉ blockSize),
          (path ++ child.tokenIds.take common).length) := by
      rw [hpath]
      exact hends
    rw [insertLoop_none (get_splitNode_of_ne hlt (hnext x l hdrop))]
    obtain ⟨sub, held, hadd, htokens, hkv, hsub⟩ :=
      addNode_mapped hs hmapped hstored' hmem hlen hseq' (.inr hends')
    refine ⟨sub, held, ?_, hsplit.congr htokens hkv hsub⟩
    have hoff : blocks.length =
        (blocks ++ (splitNode blockSize child common hlt).kvBlocks).length := by
      show blocks.length = (blocks ++ child.kvBlocks.take (common ⌈/⌉ blockSize)).length
      rw [hblocks]
    rw [hoff]
    exact hadd

/-- Under `KeepsBlocks` an insertion does not fail and leaves a mapped tree. -/
theorem insertLoop_mapped (hs : 0 < blockSize) (hmem : seq ∈ seqs)
    (hlen : seq.2.length = seq.1.length ⌈/⌉ blockSize) (remaining : List UInt32) :
    ∀ {node : RadixTreeNode} {path : List UInt32} {blocks : List Nat},
      node.Mapped blockSize seqs path blocks → Stored blockSize seqs path blocks →
      seq.1 = path ++ remaining →
      KeepsBlocks blockSize seq (matchLoop blockSize node remaining blocks path.length)
        (cutEdge node remaining) →
      ∃ node' held, insertLoop blockSize seq.2 node remaining blocks.length = some (node', held) ∧
        node'.tokenIds = node.tokenIds ∧ node'.kvBlocks = node.kvBlocks ∧
        node'.Mapped blockSize seqs path blocks := by
  induction hrem : remaining.length using Nat.strong_induction_on generalizing remaining with
  | h n ih =>
    intro node path blocks hm hstored hseq hkeep
    cases remaining with
    | nil => exact ⟨node, [], insertLoop_nil, rfl, rfl, hm⟩
    | cons first rest =>
      have htotal : seq.1.length = path.length + (rest.length + 1) := by
        rw [hseq, length_append, length_cons]
      cases hget : node.children.get first with
      | none =>
        rw [matchLoop_none hget, cutEdge_none hget] at hkeep
        rw [insertLoop_none hget]
        have hshort : path.length ≠ seq.1.length := by omega
        exact addNode_mapped hs hm hstored hmem hlen hseq (hkeep.resolve_left hshort)
      | some child =>
        have hc := hm.of_get hget
        have hpos := commonPrefixLen_pos rest hc.head
        by_cases hlt : commonPrefixLen (first :: rest) child.tokenIds < child.tokenIds.length
        · rw [matchLoop_within hget hlt, cutEdge_within hget hlt] at hkeep
          rw [insertLoop_split hget hpos hlt]
          obtain ⟨sub, held, hsub, hmapped⟩ := insertLoop_split_mapped hs hmem hlen hstored
            hc hpos hlt (take_commonPrefixLen _ _)
            (fun _ _ => head_ne_of_commonPrefixLen hlt) hseq hkeep
          refine ⟨node.setChild first sub, held, ?_, rfl, rfl, hm.setChild hmapped⟩
          rw [hsub]
          rfl
        · rw [matchLoop_descend hget hlt, cutEdge_descend hget hlt] at hkeep
          rw [insertLoop_descend hget hpos hlt]
          have hfull := append_drop_of_full hlt
          have hlenfull := congrArg length hfull
          rw [length_append] at hlenfull
          have hnonempty : child.tokenIds.length ≠ 0 := by
            intro h0
            have hhead := hc.head
            rw [length_eq_zero_iff.1 h0] at hhead
            cases hhead
          have hshort : ((first :: rest).drop child.tokenIds.length).length < n := by omega
          have hseq' : seq.1 = path ++ child.tokenIds ++
              (first :: rest).drop child.tokenIds.length := by
            rw [append_assoc, hfull, hseq]
          rw [← length_append] at hkeep
          obtain ⟨sub, held, hsub, htokens, hblocks, hmapped⟩ :=
            ih _ hshort _ rfl hc.mapped hc.stored hseq' hkeep
          refine ⟨node.setChild first sub, held, ?_, rfl, rfl,
            hm.setChild (hc.congr htokens hblocks hmapped)⟩
          rw [length_append] at hsub
          rw [hsub]
          rfl

/-! ## Runs of insertions -/

variable (st : RadixCache × BlockManager)

def InsertStep (seq : List UInt32 × List Nat) (st' : RadixCache × BlockManager) : Prop :=
  seq.2.length = seq.1.length ⌈/⌉ st.1.blockSize ∧ st.1.insert seq.1 seq.2 st.2 = some st'

/-- Every query is answered with the blocks that hold it, of sequences that agree with it. -/
def RadixCache.MatchesStored (cache : RadixCache) (seqs : List (List UInt32 × List Nat)) : Prop :=
  ∀ q : List UInt32, (cache.matchPrefix q).2 ≤ q.length ∧
    (cache.matchPrefix q).1.length = (cache.matchPrefix q).2 ⌈/⌉ cache.blockSize ∧
    ∀ j b, (cache.matchPrefix q).1[j]? = some b → ∃ s ∈ seqs, s.2[j]? = some b ∧
        q.take (min (cache.matchPrefix q).2 (cache.blockSize * (j + 1))) <+: s.1

theorem RadixTreeNode.Mapped.matchesStored
    (hm : cache.root.Mapped cache.blockSize seqs [] []) : cache.MatchesStored seqs := by
  intro q
  obtain ⟨k, hk, hcount, hstored⟩ := matchLoop_stored cache.blockSize_pos q hm Stored.nil
  rw [length_nil, zero_add] at hcount
  rw [length_nil, nil_append] at hstored
  have hn : (cache.matchPrefix q).2 = k := hcount
  rw [hn]
  refine ⟨hk, ?_, fun j b hj => ?_⟩
  · have hlen := hstored.length_eq
    rwa [length_take_of_le hk] at hlen
  · obtain ⟨s, hs, hb, hpre⟩ := hstored.owner j b hj
    rw [take_take, Nat.min_comm] at hpre
    exact ⟨s, hs, hb, hpre⟩

theorem insert_mapped (hm : cache.root.Mapped cache.blockSize seqs [] [])
    (hlen : seq.2.length = seq.1.length ⌈/⌉ cache.blockSize)
    (hkeep : cache.InsertKeepsBlocks seq) (bm : BlockManager) :
    ∃ cache' bm', cache.insert seq.1 seq.2 bm = some (cache', bm') ∧
      cache'.blockSize = cache.blockSize ∧
      cache'.root.Mapped cache'.blockSize (seqs ++ [seq]) [] [] := by
  have hmem : seq ∈ seqs ++ [seq] := by simp
  have hm' := hm.mono (subset_append_left seqs [seq])
  obtain ⟨root, held, hins, -, -, hmapped⟩ :=
    insertLoop_mapped cache.blockSize_pos hmem hlen seq.1 hm' Stored.nil rfl hkeep
  refine ⟨{ cache with root }, held.foldl BlockManager.incrementRefCount bm, ?_, rfl, hmapped⟩
  rw [length_nil] at hins
  rw [RadixCache.insert, RadixCache.insertCalls, hins]
  rfl

/-- In a run of insertions that keep the blocks, queries get the blocks that hold them. -/
theorem matchesStored_of_run {hpos : 0 < blockSize} {bm : BlockManager}
    {st : RadixCache × BlockManager}
    (hrun : Run (fun st seq st' => st.1.InsertKeepsBlocks seq ∧ InsertStep st seq st')
      (.new blockSize hpos, bm) seqs st) :
    st.1.MatchesStored seqs ∧
      ∀ seq : List UInt32 × List Nat, seq.2.length = seq.1.length ⌈/⌉ st.1.blockSize →
        st.1.InsertKeepsBlocks seq → ∃ st', InsertStep st seq st' := by
  have hmapped : st.1.root.Mapped st.1.blockSize seqs [] [] := by
    induction hrun with
    | nil => exact trivial
    | snoc _ hlast ih =>
      obtain ⟨hkeep, hlen, hins⟩ := hlast
      obtain ⟨cache', bm', hins', -, hm⟩ := insert_mapped ih hlen hkeep _
      rw [hins] at hins'
      cases hins'
      exact hm
  refine ⟨hmapped.matchesStored, fun seq hlen hkeep => ?_⟩
  obtain ⟨cache', bm', hins, -, -⟩ := insert_mapped hmapped hlen hkeep st.2
  exact ⟨(cache', bm'), hlen, hins⟩

/-- The state after an insertion, the same state if it fails. -/
def insertOrStay (seq : List UInt32 × List Nat) : RadixCache × BlockManager :=
  (st.1.insert seq.1 seq.2 st.2).getD st

/-- The guards of an insertion, as they can be evaluated. -/
def InsertEnabled (seq : List UInt32 × List Nat) : Prop :=
  seq.2.length = seq.1.length ⌈/⌉ st.1.blockSize ∧ (st.1.insert seq.1 seq.2 st.2).isSome
deriving Decidable

theorem InsertEnabled.step {st : RadixCache × BlockManager} {seq : List UInt32 × List Nat}
    (h : InsertEnabled st seq) : InsertStep st seq (insertOrStay st seq) := by
  obtain ⟨hlen, hsome⟩ := h
  obtain ⟨st', hst'⟩ := Option.isSome_iff_exists.1 hsome
  refine ⟨hlen, ?_⟩
  rw [insertOrStay, hst']
  rfl

/-- A sequence, its continuation from a block boundary and a prefix of both. -/
def nestedSeqs : List (List UInt32 × List Nat) :=
  [([1, 2, 3, 4], [0, 1]), ([1, 2, 3, 4, 5, 6], [0, 1, 2]), ([1, 2], [0])]

theorem matchesStored_of_run_witness :
    ∃ bm st, BlockManager.new 4 2 = .ok bm ∧
      Run (fun st seq st' => st.1.InsertKeepsBlocks seq ∧ InsertStep st seq st')
        (.new 2 (by decide), bm) nestedSeqs st ∧
      st.1.MatchesStored nestedSeqs ∧
      st.1.matchPrefix [1, 2, 3, 4, 5, 9] = ([0, 1, 2], 5) := by
  obtain ⟨bm, hbm⟩ : ∃ bm, BlockManager.new 4 2 = .ok bm := ⟨_, rfl⟩
  have henabled : Enabled (fun st seq => st.1.InsertKeepsBlocks seq ∧ InsertEnabled st seq)
      insertOrStay (.new 2 (by decide), bm) nestedSeqs := by
    cases hbm
    decide +kernel
  have hrun : Run (fun st seq st' => st.1.InsertKeepsBlocks seq ∧ InsertStep st seq st')
      (.new 2 (by decide), bm) nestedSeqs _ :=
    Run.of_enabled (fun _ _ h => ⟨h.1, h.2.step⟩) henabled
  refine ⟨bm, _, hbm, hrun, (matchesStored_of_run hrun).1, ?_⟩
  cases hbm
  decide +kernel

/-- Two sequences that part in the middle of an edge. -/
def forkedSeqs : List (List UInt32 × List Nat) :=
  [([1, 2, 3, 4], [0, 1]), ([1, 2, 5, 6], [2, 3])]

/-- `[5, 6]` is put below the split node with both blocks: three blocks for four tokens. -/
theorem matchesStored_fails_after_split :
    ∃ bm st, BlockManager.new 4 2 = .ok bm ∧ Run InsertStep (.new 2 (by decide), bm) forkedSeqs st ∧
      st.1.matchPrefix [1, 2, 5, 6] = ([0, 2, 3], 4) ∧ ¬ st.1.MatchesStored forkedSeqs := by
  obtain ⟨bm, hbm⟩ : ∃ bm, BlockManager.new 4 2 = .ok bm := ⟨_, rfl⟩
  have henabled : Enabled InsertEnabled insertOrStay (.new 2 (by decide), bm) forkedSeqs := by
    cases hbm
    decide +kernel
  have hrun : Run InsertStep (.new 2 (by decide), bm) forkedSeqs _ :=
    Run.of_enabled (fun _ _ h => h.step) henabled
  have hmatch : (forkedSeqs.foldl insertOrStay (.new 2 (by decide), bm)).1.matchPrefix
      [1, 2, 5, 6] = ([0, 2, 3], 4) := by
    cases hbm
    decide +kernel
  refine ⟨bm, _, hbm, hrun, hmatch, fun h => ?_⟩
  -- four tokens need two blocks
  obtain ⟨-, hlen, -⟩ := h [1, 2, 5, 6]
  rw [hmatch] at hlen
  cases hbm
  revert hlen
  decide +kernel

end CompileForge.Runtime
