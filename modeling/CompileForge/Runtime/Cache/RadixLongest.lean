/-
  How many tokens `match_prefix` finds: the longest common prefix with anything inserted.
-/

import CompileForge.Lib.Run
import CompileForge.Runtime.Cache.Radix

namespace CompileForge.Runtime

open Lib List

/-! ## Walks -/

/-- A walk follows an edge and then the subtree below it.  Cutting an edge in two changes none. -/
def along (edge : List UInt32) (below : List UInt32 → Nat) (w : List UInt32) : Nat :=
  if commonPrefixLen w edge < edge.length then commonPrefixLen w edge
  else edge.length + below (w.drop edge.length)

theorem along_nil (below : List UInt32 → Nat) (w : List UInt32) : along [] below w = below w := by
  rw [along, if_neg (by simp), length_nil, zero_add, drop_zero]

theorem along_cons (x : UInt32) (edge : List UInt32) (below : List UInt32 → Nat) (y : UInt32)
    (w : List UInt32) :
    along (x :: edge) below (y :: w) = if y = x then along edge below w + 1 else 0 := by
  by_cases h : y = x
  · rw [if_pos h, along, along, commonPrefixLen, if_pos h, length_cons, drop_succ_cons]
    by_cases hlt : commonPrefixLen w edge < edge.length
    · rw [if_pos hlt, if_pos (by omega)]
    · rw [if_neg hlt, if_neg (by omega)]
      omega
  · rw [if_neg h, along, commonPrefixLen, if_neg h, if_pos (by simp)]

theorem along_of_nil (x : UInt32) (edge : List UInt32) (below : List UInt32 → Nat) :
    along (x :: edge) below [] = 0 := by
  rw [along, commonPrefixLen, if_pos (by simp)]
  exact fun _ _ _ _ h => by cases h

theorem along_append (a b : List UInt32) (below : List UInt32 → Nat) (w : List UInt32) :
    along (a ++ b) below w = along a (along b below) w := by
  induction a generalizing w with
  | nil => rw [nil_append, along_nil]
  | cons x a ih =>
    cases w with
    | nil => rw [cons_append, along_of_nil, along_of_nil]
    | cons => rw [cons_append, along_cons, along_cons, ih]

theorem along_max (edge : List UInt32) (f g : List UInt32 → Nat) (w : List UInt32) :
    along edge (fun u => max (f u) (g u)) w = max (along edge f w) (along edge g w) := by
  unfold along
  split
  · exact (Nat.max_self _).symm
  · rw [Nat.add_max_add_left]

theorem commonPrefixLen_append (w a b : List UInt32) :
    commonPrefixLen w (a ++ b) = along a (fun u => commonPrefixLen u b) w := by
  induction a generalizing w with
  | nil => rw [nil_append, along_nil]
  | cons x a ih =>
    cases w with
    | nil =>
      rw [along_of_nil, commonPrefixLen]
      exact fun _ _ _ _ h => by cases h
    | cons => rw [cons_append, commonPrefixLen, along_cons, ih]

/-- After an insertion it is the longer of the walk before and the common prefix with the inserted
    sequence. -/
def walk (node : RadixTreeNode) (w : List UInt32) : Nat :=
  match w with
  | [] => 0
  | x :: w =>
    match _hchild : node.children.get x with
    | none => 0
    | some child => along child.tokenIds (fun u => walk child u) (x :: w)
termination_by sizeOf node
decreasing_by exact RadixTreeNode.sizeOf_child_lt _hchild

section Walk

variable {node child : RadixTreeNode} {x : UInt32} {w : List UInt32}

theorem walk_nil (node : RadixTreeNode) : walk node [] = 0 := by rw [walk]

theorem walk_none (h : node.children.get x = none) : walk node (x :: w) = 0 := by
  rw [walk]
  split
  · rfl
  · next heq => rw [h] at heq; cases heq

theorem walk_some (h : node.children.get x = some child) :
    walk node (x :: w) = along child.tokenIds (walk child) (x :: w) := by
  rw [walk]
  split
  · next heq => rw [h] at heq; cases heq
  · next child' heq =>
    rw [h] at heq
    cases heq
    rfl

theorem walk_congr (node node' : RadixTreeNode) (h : node'.children = node.children)
    (w : List UInt32) : walk node' w = walk node w := by
  cases w with
  | nil => rw [walk_nil, walk_nil]
  | cons x =>
    cases hget : node.children.get x with
    | none => rw [walk_none hget, walk_none (by rw [h]; exact hget)]
    | some => rw [walk_some hget, walk_some (by rw [h]; exact hget)]

theorem matchLoop_snd (blockSize : Nat) (node : RadixTreeNode) (w : List UInt32)
    (blocks : List Nat) (consumed : Nat) :
    (matchLoop blockSize node w blocks consumed).2 = consumed + walk node w := by
  fun_induction matchLoop blockSize node w blocks consumed with
  | case1 => rw [walk_nil, add_zero]
  | case2 node blocks consumed first rest hget => rw [walk_none hget, add_zero]
  | case3 node blocks consumed first rest child hget common hlt =>
    rw [walk_some hget, along, if_pos hlt]
  | case4 node blocks consumed first rest child hget common hge ih =>
    rw [walk_some hget, along, if_neg hge, ih, add_assoc]

end Walk

/-! ## Keyed trees -/

mutual

/-- Siblings are keyed by the first tokens of their edges, and all keys differ. -/
def RadixTreeNode.Keyed : RadixTreeNode → Prop
  | .mk _ children _ _ => children.Keyed

/-- Every child is found under the first token of its edge. -/
def RadixChildren.Keyed : RadixChildren → Prop
  | .nil => True
  | .cons first child rest =>
    child.tokenIds.head? = some first ∧ rest.get first = none ∧ child.Keyed ∧ rest.Keyed

end

section Keyed

variable {node child : RadixTreeNode} {first : UInt32} {cs : RadixChildren}

theorem RadixChildren.get_insert (cs : RadixChildren) (first x : UInt32) (child : RadixTreeNode) :
    (cs.insert first child).get x = if x = first then some child else cs.get x := by
  match cs with
  | .nil =>
    show (if first = x then some child else none) = if x = first then some child else none
    by_cases h : first = x
    · rw [if_pos h, if_pos h.symm]
    · rw [if_neg h, if_neg (Ne.symm h)]
  | .cons k c rest =>
    have ih := get_insert rest first x child
    by_cases hk : k = first
    · rw [insert, if_pos hk, get, get, hk]
      by_cases h : first = x
      · rw [if_pos h, if_pos h.symm]
      · rw [if_neg h, if_neg (Ne.symm h), if_neg h]
    · rw [insert, if_neg hk, get, get, ih]
      by_cases hkx : k = x
      · rw [if_pos hkx, if_pos hkx, if_neg (hkx ▸ hk)]
      · rw [if_neg hkx, if_neg hkx]

theorem RadixTreeNode.get_setChild (node : RadixTreeNode) (first x : UInt32)
    (child : RadixTreeNode) : (node.setChild first child).children.get x =
      if x = first then some child else node.children.get x :=
  RadixChildren.get_insert _ _ _ _

theorem RadixChildren.Keyed.of_get :
    {cs : RadixChildren} → cs.Keyed → cs.get first = some child →
      child.tokenIds.head? = some first ∧ child.Keyed
  | .nil, _, h => by cases h
  | .cons k c rest, hk, h => by
    obtain ⟨hhead, -, hchild, hrest⟩ := hk
    rw [RadixChildren.get] at h
    split at h
    · next heq =>
      cases h
      exact ⟨heq ▸ hhead, hchild⟩
    · exact RadixChildren.Keyed.of_get hrest h

theorem RadixChildren.Keyed.insert (hhead : child.tokenIds.head? = some first)
    (hchild : child.Keyed) : {cs : RadixChildren} → cs.Keyed → (cs.insert first child).Keyed
  | .nil, _ => ⟨hhead, rfl, hchild, trivial⟩
  | .cons k c rest, hk => by
    obtain ⟨hc, hfresh, hkeyed, hrest⟩ := hk
    rw [RadixChildren.insert]
    by_cases heq : k = first
    · rw [if_pos heq]
      subst heq
      exact ⟨hhead, hfresh, hchild, hrest⟩
    · rw [if_neg heq]
      refine ⟨hc, ?_, hkeyed, RadixChildren.Keyed.insert hhead hchild hrest⟩
      rw [RadixChildren.get_insert, if_neg heq]
      exact hfresh

theorem RadixTreeNode.Keyed.of_get (hk : node.Keyed) (h : node.children.get first = some child) :
    child.tokenIds.head? = some first ∧ child.Keyed := by
  cases node with
  | mk => exact RadixChildren.Keyed.of_get hk h

theorem RadixTreeNode.Keyed.setChild (hk : node.Keyed) (hhead : child.tokenIds.head? = some first)
    (hchild : child.Keyed) : (node.setChild first child).Keyed := by
  cases node with
  | mk => exact RadixChildren.Keyed.insert hhead hchild hk

theorem RadixTreeNode.Keyed.splitNode (hk : child.Keyed) (blockSize : Nat) {common : Nat}
    (h : common < child.tokenIds.length) : (splitNode blockSize child common h).Keyed := by
  refine ⟨?_, rfl, ?_, trivial⟩
  · show (child.tokenIds.drop common).head? = some child.tokenIds[common]
    rw [head?_drop, getElem?_eq_getElem h]
  · cases child with
    | mk => exact hk

end Keyed

section Insert

variable {node child sub : RadixTreeNode} {first : UInt32} {rest : List UInt32}

variable (node : RadixTreeNode)

theorem walk_setChild (first : UInt32) (child : RadixTreeNode) (x : UInt32)
    (w : List UInt32) : walk (node.setChild first child) (x :: w) =
      if x = first then along child.tokenIds (walk child) (x :: w) else walk node (x :: w) := by
  by_cases h : x = first
  · rw [if_pos h, walk_some (by rw [node.get_setChild, if_pos h])]
  · rw [if_neg h]
    have hget := node.get_setChild first x child
    rw [if_neg h] at hget
    cases hold : node.children.get x with
    | none => rw [walk_none hold, walk_none (hget.trans hold)]
    | some => rw [walk_some hold, walk_some (hget.trans hold)]

theorem along_splitNode (blockSize : Nat) (child : RadixTreeNode) {common : Nat}
    (h : common < child.tokenIds.length) (w : List UInt32) :
    along (splitNode blockSize child common h).tokenIds
      (walk (splitNode blockSize child common h)) w = along child.tokenIds (walk child) w := by
  have hlower : walk (splitNode blockSize child common h) =
      along (child.tokenIds.drop common) (walk child) := by
    funext u
    have hdrop : child.tokenIds.drop common =
        child.tokenIds[common] :: child.tokenIds.drop (common + 1) := drop_eq_getElem_cons h
    cases u with
    | nil => rw [walk_nil, hdrop, along_of_nil]
    | cons y =>
      by_cases hy : child.tokenIds[common] = y
      · have hget : (splitNode blockSize child common h).children.get y =
            some (.mk (child.tokenIds.drop common) child.children
              (child.kvBlocks.drop (common ⌈/⌉ blockSize)) child.refCount) := if_pos hy
        have hsame : walk (.mk (child.tokenIds.drop common) child.children
            (child.kvBlocks.drop (common ⌈/⌉ blockSize)) child.refCount) = walk child :=
          funext (walk_congr child (.mk _ _ _ _) rfl)
        rw [walk_some hget, hsame]
        rfl
      · have hget : (splitNode blockSize child common h).children.get y = none := if_neg hy
        rw [walk_none hget, hdrop, along_cons, if_neg (Ne.symm hy)]
  rw [hlower]
  show along (child.tokenIds.take common) _ w = _
  rw [← along_append, take_append_drop]

theorem walk_setChild_max (below : List UInt32 → Nat)
    {edge behind : List UInt32} (hedge : sub.tokenIds = edge) (hhead : edge.head? = some first)
    (hold : ∀ w, walk node (first :: w) = along edge below (first :: w))
    (hsub : ∀ w, walk sub w = max (below w) (commonPrefixLen w behind)) (w : List UInt32) :
    walk (node.setChild first sub) w = max (walk node w) (commonPrefixLen w (edge ++ behind)) := by
  have hsub' : walk sub = fun w => max (below w) (commonPrefixLen w behind) := funext hsub
  obtain ⟨tail, rfl⟩ : ∃ tail, edge = first :: tail := by
    cases edge with
    | nil => cases hhead
    | cons y tail =>
      cases hhead
      exact ⟨tail, rfl⟩
  cases w with
  | nil =>
    rw [walk_nil, walk_nil, commonPrefixLen]
    · rfl
    · exact fun _ _ _ _ h => by cases h
  | cons x =>
    rw [walk_setChild, hedge, hsub']
    by_cases h : x = first
    · subst h
      rw [if_pos rfl, along_max, hold, commonPrefixLen_append]
    · rw [if_neg h, cons_append, commonPrefixLen, if_neg h, Nat.max_zero]

theorem walk_setLeaf (kvBlocks : List Nat)
    (hget : node.children.get first = none) (w : List UInt32) :
    walk (node.setChild first (.mk (first :: rest) .nil kvBlocks 0)) w =
      max (walk node w) (commonPrefixLen w (first :: rest)) := by
  cases w with
  | nil =>
    rw [walk_nil, walk_nil, commonPrefixLen]
    · rfl
    · exact fun _ _ _ _ h => by cases h
  | cons x =>
    rw [walk_setChild]
    by_cases h : x = first
    · subst h
      have hleaf : walk (.mk (x :: rest) .nil kvBlocks 0) = fun u => commonPrefixLen u [] := by
        funext u
        have hzero : commonPrefixLen u [] = 0 := Nat.le_zero.1 (commonPrefixLen_le_right u [])
        cases u with
        | nil => rw [walk_nil, hzero]
        | cons => rw [walk_none rfl, hzero]
      rw [if_pos rfl, walk_none hget, Nat.zero_max, hleaf]
      show along (x :: rest) _ _ = _
      rw [← commonPrefixLen_append, append_nil]
    · rw [if_neg h, commonPrefixLen, if_neg h, Nat.max_zero]

/-- The longer of the walk before and the common prefix with what was inserted. -/
theorem walk_insertLoop (blockSize : Nat) (kvBlocks : List Nat) (remaining : List UInt32) :
    ∀ {node node' : RadixTreeNode} {off : Nat} {held : List Nat}, node.Keyed →
      insertLoop blockSize kvBlocks node remaining off = some (node', held) →
      node'.Keyed ∧ node'.tokenIds = node.tokenIds ∧
        ∀ w, walk node' w = max (walk node w) (commonPrefixLen w remaining) := by
  induction hlen : remaining.length using Nat.strong_induction_on generalizing remaining with
  | h n ih =>
    intro node node' off held hk h
    cases remaining with
    | nil =>
      rw [insertLoop_nil] at h
      cases h
      refine ⟨hk, rfl, fun w => ?_⟩
      have hzero : commonPrefixLen w [] = 0 := Nat.le_zero.1 (commonPrefixLen_le_right w [])
      rw [hzero, Nat.max_zero]
    | cons first rest =>
      cases hget : node.children.get first with
      | none =>
        rw [insertLoop_none hget, addNode] at h
        split at h
        · cases h
          exact ⟨hk.setChild rfl trivial, rfl, walk_setLeaf node _ hget⟩
        · cases h
      | some child =>
        obtain ⟨hhead, hkc⟩ := hk.of_get hget
        have hpos := commonPrefixLen_pos rest hhead
        by_cases hlt : commonPrefixLen (first :: rest) child.tokenIds < child.tokenIds.length
        · -- the common part of the edge stays, with the rest of it and what is new below
          rw [insertLoop_split hget hpos hlt] at h
          obtain ⟨sub, hsub, hpair⟩ := Option.map_eq_some_iff.1 h
          cases hpair
          have hshort : ((first :: rest).drop
              (commonPrefixLen (first :: rest) child.tokenIds)).length < n := by
            rw [length_drop, ← hlen, length_cons]
            omega
          obtain ⟨hks, hids, hwalk⟩ := ih _ hshort _ rfl (hkc.splitNode blockSize hlt) hsub
          have hedge : (child.tokenIds.take
              (commonPrefixLen (first :: rest) child.tokenIds)).head? = some first := by
            rw [head?_take, if_neg hpos]
            exact hhead
          refine ⟨hk.setChild (hids ▸ hedge) hks, rfl, fun w => ?_⟩
          have hold : ∀ w, walk node (first :: w) = along _ _ (first :: w) := fun w =>
            (walk_some hget).trans (along_splitNode blockSize child hlt (first :: w)).symm
          rw [walk_setChild_max node _ hids hedge hold hwalk w]
          show max _ (commonPrefixLen w (child.tokenIds.take _ ++ _)) = _
          rw [← take_commonPrefixLen, take_append_drop]
        · rw [insertLoop_descend hget hpos hlt] at h
          obtain ⟨sub, hsub, hpair⟩ := Option.map_eq_some_iff.1 h
          cases hpair
          have hle := commonPrefixLen_le_right (first :: rest) child.tokenIds
          have hshort : ((first :: rest).drop child.tokenIds.length).length < n := by
            rw [length_drop, ← hlen, length_cons]
            omega
          obtain ⟨hks, hids, hwalk⟩ := ih _ hshort _ rfl hkc hsub
          refine ⟨hk.setChild (hids ▸ hhead) hks, rfl, fun w => ?_⟩
          have hold : ∀ w, walk node (first :: w) = along _ _ (first :: w) := fun _ =>
            walk_some hget
          rw [walk_setChild_max node _ hids hhead hold hwalk w, append_drop_of_full hlt]

theorem RadixCache.insert_walk {cache cache' : RadixCache} {tokenIds : List UInt32}
    {kvBlocks : List Nat} {bm bm' : BlockManager} (hk : cache.root.Keyed)
    (h : cache.insert tokenIds kvBlocks bm = some (cache', bm')) :
    cache'.root.Keyed ∧ ∀ q, (cache'.matchPrefix q).2 =
      max (cache.matchPrefix q).2 (commonPrefixLen q tokenIds) := by
  obtain ⟨calls, hcalls, hpair⟩ := Option.map_eq_some_iff.1 h
  obtain ⟨sub, hsub, rfl⟩ := Option.map_eq_some_iff.1 hcalls
  cases hpair
  obtain ⟨hkeyed, -, hwalk⟩ := walk_insertLoop _ _ _ hk hsub
  refine ⟨hkeyed, fun q => ?_⟩
  rw [matchPrefix, matchLoop_snd, matchPrefix, matchLoop_snd, zero_add, zero_add]
  exact hwalk q

end Insert

/-! ## Any sequence of insertions -/

theorem commonPrefixLen_isGreatest (q s : List UInt32) :
    IsGreatest {n | ∃ p, p <+: q ∧ p <+: s ∧ p.length = n} (commonPrefixLen q s) := by
  constructor
  · refine ⟨q.take (commonPrefixLen q s), take_prefix _ _, ?_, ?_⟩
    · rw [take_commonPrefixLen]
      exact take_prefix _ _
    · rw [length_take, min_eq_left (commonPrefixLen_le_left q s)]
  · rintro n ⟨p, ⟨q', rfl⟩, ⟨s', rfl⟩, rfl⟩
    induction p with
    | nil => exact Nat.zero_le _
    | cons x p ih =>
      rw [cons_append, cons_append, commonPrefixLen, if_pos rfl, length_cons]
      exact Nat.succ_le_succ ih

/-- An insertion that returns, in whatever block manager it counts. -/
def Inserts (cache : RadixCache) (seq : List UInt32 × List Nat) (cache' : RadixCache) : Prop :=
  ∃ bm bm', cache.insert seq.1 seq.2 bm = some (cache', bm')

/-- A query matches the longest prefix it has in common with an inserted sequence. -/
theorem matchPrefix_longest {blockSize : Nat} (hpos : 0 < blockSize)
    {seqs : List (List UInt32 × List Nat)} {cache : RadixCache}
    (hrun : Run Inserts (RadixCache.new blockSize hpos) seqs cache) :
    cache.root.Keyed ∧ ∀ q, IsGreatest
      {n | n = 0 ∨ ∃ seq ∈ seqs, ∃ p, p <+: q ∧ p <+: seq.1 ∧ p.length = n}
      (cache.matchPrefix q).2 := by
  induction hrun with
  | nil =>
    refine ⟨trivial, fun q => ⟨.inl ?_, ?_⟩⟩
    · show (matchLoop _ _ q [] 0).2 = 0
      rw [matchLoop_snd, zero_add]
      cases q with
      | nil => exact walk_nil _
      | cons => exact walk_none rfl
    · rintro n (rfl | ⟨seq, hseq, -⟩)
      · exact Nat.zero_le _
      · cases hseq
  | @snoc seqs m seq cache hrun hlast ih =>
    obtain ⟨hk, hm⟩ := ih
    obtain ⟨bm, bm', hins⟩ := hlast
    obtain ⟨hk', hmax⟩ := RadixCache.insert_walk hk hins
    refine ⟨hk', fun q => ?_⟩
    have hset : {n | n = 0 ∨ ∃ s ∈ seqs ++ [seq], ∃ p, p <+: q ∧ p <+: s.1 ∧ p.length = n} =
        {n | n = 0 ∨ ∃ s ∈ seqs, ∃ p, p <+: q ∧ p <+: s.1 ∧ p.length = n} ∪
          {n | ∃ p, p <+: q ∧ p <+: seq.1 ∧ p.length = n} := by
      ext n
      simp only [mem_append, mem_singleton, Set.mem_ofPred_eq, Set.mem_union, or_assoc,
        or_and_right, exists_or, exists_eq_left]
    rw [hset, hmax]
    exact (hm q).union (commonPrefixLen_isGreatest q seq.1)

/-- Three sequences of two tokens or more that leave the first edge in three pieces. -/
theorem matchPrefix_longest_forked :
    ∃ bm cache, BlockManager.new 4 2 = .ok bm ∧ Run Inserts (RadixCache.new 2 (by decide))
        [([1, 2, 3], [0, 1]), ([1, 2, 4, 5], [2, 3]), ([1, 6], [0])]
        cache ∧
      cache.root.Keyed ∧ (cache.matchPrefix [1, 2, 4, 9]).2 = 3 := by
  obtain ⟨bm, hbm⟩ : ∃ bm, BlockManager.new 4 2 = .ok bm := ⟨_, rfl⟩
  have henabled : Enabled
      (fun c (seq : List UInt32 × List Nat) => (c.insert seq.1 seq.2 bm).isSome = true)
      (fun c seq => ((c.insert seq.1 seq.2 bm).map Prod.fst).getD c)
      (RadixCache.new 2 (by decide))
      [([1, 2, 3], [0, 1]), ([1, 2, 4, 5], [2, 3]), ([1, 6], [0])] := by
    cases hbm
    decide +kernel
  have hstep : ∀ c (seq : List UInt32 × List Nat), (c.insert seq.1 seq.2 bm).isSome = true →
      Inserts c seq (((c.insert seq.1 seq.2 bm).map Prod.fst).getD c) := by
    intro c seq h
    obtain ⟨st, hst⟩ := Option.isSome_iff_exists.1 h
    refine ⟨bm, st.2, ?_⟩
    rw [hst]
    rfl
  have hrun := Run.of_enabled hstep henabled
  refine ⟨bm, _, hbm, hrun, (matchPrefix_longest _ hrun).1, ?_⟩
  cases hbm
  decide +kernel

end CompileForge.Runtime
