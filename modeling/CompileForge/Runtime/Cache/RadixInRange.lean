/-
  Sequences of insertions none of which panics.

  `insert` counts the blocks of the nodes it passes and slices the new blocks behind them, so the
  calls of a history all return exactly if each finds its sequence in the tree, or room behind
  these nodes.
-/

import CompileForge.Runtime.Cache.RadixFit
import CompileForge.Runtime.Cache.RadixLongest
import Mathlib.GroupTheory.GroupAction.Ring

namespace CompileForge.Runtime

open Lib List

/-! ## Blocks on the way -/

mutual

/-- The blocks of the nodes whose whole path starts `tokens`. -/
def RadixTreeNode.blocksWithin : RadixTreeNode → List UInt32 → Nat
  | .mk tokenIds children kvBlocks _, tokens =>
    if tokenIds <+: tokens then
      kvBlocks.length + children.blocksWithin (tokens.drop tokenIds.length)
    else 0

/-- The blocks of the nodes whose whole path starts the sequence. -/
def RadixChildren.blocksWithin : RadixChildren → List UInt32 → Nat
  | .nil, _ => 0
  | .cons _ child rest, tokens => child.blocksWithin tokens + rest.blocksWithin tokens

end

theorem prefix_iff_commonPrefixLen {a b : List UInt32} :
    b <+: a ↔ ¬ commonPrefixLen a b < b.length := by
  constructor
  · intro h
    have hmem : b.length ∈ {n | ∃ p, p <+: a ∧ p <+: b ∧ p.length = n} :=
      ⟨b, h, prefix_refl b, rfl⟩
    exact not_lt.2 ((commonPrefixLen_isGreatest a b).2 hmem)
  · exact fun h => ⟨_, append_drop_of_full h⟩

section BlocksWithin

variable {node child : RadixTreeNode} {first : UInt32} {cs : RadixChildren} {tokens : List UInt32}

theorem RadixTreeNode.blocksWithin_of_prefix
    (h : node.tokenIds <+: tokens) : node.blocksWithin tokens =
      node.kvBlocks.length + node.children.blocksWithin (tokens.drop node.tokenIds.length) := by
  cases node with
  | mk => exact if_pos h

theorem RadixTreeNode.blocksWithin_of_not_prefix
    (h : ¬ node.tokenIds <+: tokens) : node.blocksWithin tokens = 0 := by
  cases node with
  | mk => exact if_neg h

theorem RadixTreeNode.blocksWithin_of_head
    (hhead : node.tokenIds.head? = some first) (h : tokens.head? ≠ some first) :
    node.blocksWithin tokens = 0 := by
  refine blocksWithin_of_not_prefix fun ⟨t, ht⟩ => h ?_
  rw [← ht, List.head?_append, hhead]
  rfl

theorem RadixChildren.blocksWithin_get (rest : List UInt32) :
    {cs : RadixChildren} → cs.Keyed → cs.blocksWithin (first :: rest) =
      ((cs.get first).map (·.blocksWithin (first :: rest))).getD 0
  | .nil, _ => rfl
  | .cons k c cs, hk => by
    obtain ⟨hhead, hfresh, -, hrest⟩ := hk
    rw [blocksWithin, RadixChildren.blocksWithin_get rest hrest, get]
    by_cases h : k = first
    · subst h
      rw [hfresh, if_pos rfl]
      rfl
    · have hc : c.blocksWithin (first :: rest) = 0 := by
        refine RadixTreeNode.blocksWithin_of_head hhead fun heq => h ?_
        exact (Option.some.inj heq).symm
      rw [hc, zero_add, if_neg h]

end BlocksWithin

theorem newNodeOffset_eq (remaining : List UInt32) :
    ∀ {node : RadixTreeNode} (blockOffset : Nat), node.Keyed →
      newNodeOffset node remaining blockOffset = if walk node remaining < remaining.length then
          some (blockOffset + node.children.blocksWithin remaining)
        else none := by
  induction hlen : remaining.length using Nat.strong_induction_on generalizing remaining with
  | h n ih =>
    intro node blockOffset hk
    have hkc : node.children.Keyed := by
      cases node with
      | mk => exact hk
    subst hlen
    cases remaining with
    | nil => rw [newNodeOffset_nil, walk_nil, length_nil, if_neg (lt_irrefl 0)]
    | cons first rest =>
      rw [RadixChildren.blocksWithin_get rest hkc]
      cases hget : node.children.get first with
      | none =>
        rw [newNodeOffset_none hget, walk_none hget, length_cons, if_pos (Nat.succ_pos _)]
        rfl
      | some child =>
        obtain ⟨hhead, hkchild⟩ := hk.of_get hget
        have hpos := commonPrefixLen_pos rest hhead
        rw [walk_some hget, along]
        by_cases hlt : commonPrefixLen (first :: rest) child.tokenIds < child.tokenIds.length
        · -- the edge is not matched whole, so its blocks do not count
          have hzero : child.blocksWithin (first :: rest) = 0 :=
            RadixTreeNode.blocksWithin_of_not_prefix fun h =>
              prefix_iff_commonPrefixLen.1 h hlt
          rw [newNodeOffset_split hget hpos hlt, if_pos hlt]
          simp only [Option.map_some, Option.getD_some, hzero, add_zero]
        · have hle := commonPrefixLen_le_right (first :: rest) child.tokenIds
          have hleft := commonPrefixLen_le_left (first :: rest) child.tokenIds
          have hshort : ((first :: rest).drop child.tokenIds.length).length <
              (first :: rest).length := by
            rw [length_drop, length_cons]
            omega
          have hdrop : ((first :: rest).drop child.tokenIds.length).length =
              (first :: rest).length - child.tokenIds.length := length_drop
          rw [newNodeOffset_descend hget hpos hlt, ih _ hshort _ rfl _ hkchild, if_neg hlt, hdrop]
          simp only [Option.map_some, Option.getD_some]
          rw [RadixTreeNode.blocksWithin_of_prefix (prefix_iff_commonPrefixLen.2 hlt)]
          by_cases hw : walk child ((first :: rest).drop child.tokenIds.length) <
              (first :: rest).length - child.tokenIds.length
          · rw [if_pos hw, if_pos (by omega), add_assoc]
          · rw [if_neg hw, if_neg (by omega)]

/-- The nodes on the way to a new one hold no more blocks than the sequence brings. -/
def RadixCache.Room (cache : RadixCache) (tokenIds : List UInt32) (kvBlocks : List Nat) : Prop :=
  (cache.matchPrefix tokenIds).2 < tokenIds.length →
    cache.root.children.blocksWithin tokenIds ≤ kvBlocks.length
deriving Decidable

variable {cache : RadixCache} {seqs : List (List UInt32 × List Nat)}

theorem RadixCache.Room.iff_fits (hk : cache.root.Keyed)
    (tokenIds : List UInt32) (kvBlocks : List Nat) :
    cache.Room tokenIds kvBlocks ↔ cache.Fits tokenIds kvBlocks := by
  rw [Room, Fits, newNodeOffset_eq _ _ hk, matchPrefix, matchLoop_snd, zero_add, zero_add]
  by_cases h : walk cache.root tokenIds < tokenIds.length
  · rw [if_pos h]
    constructor
    · intro hroom off hoff
      cases hoff
      exact hroom h
    · exact fun hfits _ => hfits _ rfl
  · rw [if_neg h]
    exact ⟨fun _ off hoff => absurd hoff (Option.not_mem_none off), fun _ hlt => absurd hlt h⟩

/-! ## Histories -/

/-- The calls in order, if none of them panics. -/
def insertAll (st : RadixCache × BlockManager) (seqs : List (List UInt32 × List Nat)) :
    Option (RadixCache × BlockManager) :=
  seqs.foldlM (fun st seq => st.1.insert seq.1 seq.2 st.2) st

theorem RadixCache.insert_blockSize {cache' : RadixCache} {tokenIds : List UInt32}
    {kvBlocks : List Nat} {bm bm' : BlockManager}
    (h : cache.insert tokenIds kvBlocks bm = some (cache', bm')) :
    cache'.blockSize = cache.blockSize := by
  obtain ⟨calls, hcalls, hpair⟩ := Option.map_eq_some_iff.1 h
  obtain ⟨sub, -, rfl⟩ := Option.map_eq_some_iff.1 hcalls
  cases hpair
  rfl

theorem insertAll_cons {st : RadixCache × BlockManager} {seq : List UInt32 × List Nat}
    : insertAll st (seq :: seqs) = (st.1.insert seq.1 seq.2 st.2).bind (insertAll · seqs) := rfl

theorem insertAll_isSome_of_keyed {blockSize : Nat} :
    ∀ {st : RadixCache × BlockManager}, st.1.root.Keyed → st.1.blockSize = blockSize →
      (∀ seq ∈ seqs, seq.2.length = seq.1.length ⌈/⌉ blockSize) →
      ((insertAll st seqs).isSome = true ↔ ∀ before seq after st', seqs = before ++ seq :: after →
        Run InsertStep st before st' → st'.1.Room seq.1 seq.2) := by
  induction seqs with
  | nil =>
    intro st _ _ _
    refine ⟨fun _ before seq after st' h => ?_, fun _ => rfl⟩
    have hlen := congrArg List.length h
    simp only [length_nil, length_append, length_cons] at hlen
    omega
  | cons seq seqs ih =>
    intro st hk hbs hlen
    have hseq := hlen seq mem_cons_self
    have hseqs := fun s hs => hlen s (mem_cons_of_mem seq hs)
    have hroom : (st.1.insert seq.1 seq.2 st.2).isSome = true ↔ st.1.Room seq.1 seq.2 :=
      RadixCache.insert_isSome.trans (RadixCache.Room.iff_fits hk _ _).symm
    rw [insertAll_cons]
    cases hins : st.1.insert seq.1 seq.2 st.2 with
    | none =>
      refine ⟨fun h => Bool.noConfusion h, fun h => ?_⟩
      have hsome := hroom.2 (h [] seq seqs st rfl .nil)
      rw [hins] at hsome
      cases hsome
    | some m =>
      have hfirst : InsertStep st seq m := ⟨hbs ▸ hseq, hins⟩
      obtain ⟨hkm, -⟩ := RadixCache.insert_walk hk hins
      rw [Option.bind_some, ih hkm ((RadixCache.insert_blockSize hins).trans hbs) hseqs]
      constructor
      · rintro h (_ | ⟨s, before⟩) seq' after st' heq hrun
        · cases heq
          cases hrun.eq_of_nil
          exact hroom.1 (by rw [hins]; rfl)
        · cases heq
          obtain ⟨m', hstep, hrest⟩ := hrun.uncons
          obtain rfl : m = m' := Option.some.inj (hins.symm.trans hstep.2)
          exact h before seq' after st' rfl hrest
      · intro h before seq' after st' heq hrun
        exact h (seq :: before) seq' after st' (by rw [heq]; rfl) (hrun.cons hfirst)

/-- Calls with enough blocks all return exactly if each finds room in the tree before it. -/
theorem insertAll_isSome_iff {blockSize : Nat} (hpos : 0 < blockSize) (bm : BlockManager)
    {seqs : List (List UInt32 × List Nat)}
    (hlen : ∀ seq ∈ seqs, seq.2.length = seq.1.length ⌈/⌉ blockSize) :
    (insertAll (.new blockSize hpos, bm) seqs).isSome = true ↔
      ∀ before seq after st, seqs = before ++ seq :: after →
        Run InsertStep (.new blockSize hpos, bm) before st → st.1.Room seq.1 seq.2 :=
  insertAll_isSome_of_keyed trivial rfl hlen

/-- Three sequences that part behind their first and second tokens. -/
def partedSeqs : List (List UInt32 × List Nat) := [([1, 2], [0]), ([1, 3], [1]), ([1, 3, 4], [2])]

/-- `[1, 3]` is put with its block behind `[1]`, which has another: the third call panics. -/
theorem insertAll_panics :
    ∃ bm, BlockManager.new 4 4 = .ok bm ∧ (∀ seq ∈ partedSeqs, seq.2.length = seq.1.length ⌈/⌉ 4) ∧
      insertAll (.new 4 (by decide), bm) partedSeqs = none := by
  obtain ⟨bm, hbm⟩ : ∃ bm, BlockManager.new 4 4 = .ok bm := ⟨_, rfl⟩
  refine ⟨bm, hbm, by decide, ?_⟩
  cases hbm
  decide +kernel

/-- Without the second of them there is room. -/
theorem insertAll_isSome_iff_nested :
    ∃ bm, BlockManager.new 4 4 = .ok bm ∧
      (insertAll (.new 4 (by decide), bm) [([1, 2], [0]), ([1, 3, 4], [2])]).isSome = true ∧
      ∀ before seq after st, [([1, 2], [0]), ([1, 3, 4], [2])] = before ++ seq :: after →
        Run InsertStep (.new 4 (by decide), bm) before st → st.1.Room seq.1 seq.2 := by
  obtain ⟨bm, hbm⟩ : ∃ bm, BlockManager.new 4 4 = .ok bm := ⟨_, rfl⟩
  have hsome : (insertAll (.new 4 (by decide), bm) [([1, 2], [0]), ([1, 3, 4], [2])]).isSome =
      true := by
    cases hbm
    decide +kernel
  exact ⟨bm, hbm, hsome, (insertAll_isSome_iff (by decide) bm (by decide)).1 hsome⟩

end CompileForge.Runtime
