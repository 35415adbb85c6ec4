/-
  What insertion and eviction do to the block ids a tree holds: children before parents they are
  one list of groups.  Insertion adds a group or cuts one in two, eviction drains the list from
  the front, and the iteration order of the children permutes it.
-/

import CompileForge.Lib.Drain
import CompileForge.Runtime.Cache.Radix

namespace CompileForge.Runtime

open Lib List

mutual

/-- Every key is the first token of its child, and no node is pinned. -/
def RadixTreeNode.WF : RadixTreeNode → Prop
  | .mk _ children _ refCount => refCount = 0 ∧ children.WF

def RadixChildren.WF : RadixChildren → Prop
  | .nil => True
  | .cons first child rest => child.tokenIds.head? = some first ∧ child.WF ∧ rest.WF

end

variable {first : UInt32} {node old node' : RadixTreeNode} {held kv released : List Nat}
  {off target freed freed' : Nat} {gs left : List (List Nat)}

theorem RadixChildren.WF.of_get {child : RadixTreeNode} :
    {cs : RadixChildren} → cs.WF → cs.get first = some child →
      child.tokenIds.head? = some first ∧ child.WF
  | .nil, _, h => by cases h
  | .cons k c rest, hwf, h => by
      rw [RadixChildren.WF] at hwf
      rw [RadixChildren.get] at h
      split at h
      · next hk =>
          cases h
          exact ⟨hk ▸ hwf.1, hwf.2.1⟩
      · exact RadixChildren.WF.of_get hwf.2.2 h

theorem RadixChildren.WF.insert (hhead : node.tokenIds.head? = some first) (hnode : node.WF) :
    {cs : RadixChildren} → cs.WF → (cs.insert first node).WF
  | .nil, _ => ⟨hhead, hnode, trivial⟩
  | .cons k c rest, hwf => by
      rw [RadixChildren.WF] at hwf
      rw [RadixChildren.insert]
      split
      · next hk => exact ⟨hk ▸ hhead, hnode, hwf.2.2⟩
      · exact ⟨hwf.1, hwf.2.1, RadixChildren.WF.insert hhead hnode hwf.2.2⟩

theorem RadixTreeNode.WF.child {child : RadixTreeNode} (h : node.WF)
    (hget : node.children.get first = some child) :
    child.tokenIds.head? = some first ∧ child.WF := by
  cases node with
  | mk => exact RadixChildren.WF.of_get h.2 hget

theorem RadixTreeNode.WF.setChild {child : RadixTreeNode} (h : node.WF)
    (hhead : child.tokenIds.head? = some first) (hchild : child.WF) :
    (node.setChild first child).WF := by
  cases node with
  | mk =>
    exact ⟨h.1, RadixChildren.WF.insert hhead hchild h.2⟩

/-! ## The groups a tree holds under `setChild` -/

theorem RadixChildren.count_insert_of_none (node : RadixTreeNode) (b : Nat) :
    {cs : RadixChildren} → cs.get first = none →
      (cs.insert first node).heldBlocks.count b = cs.heldBlocks.count b + node.heldBlocks.count b
  | .nil, _ => by
      simp [RadixChildren.insert, RadixChildren.heldBlocks, RadixTreeNode.heldBlocks,
        RadixChildren.postorder]
  | .cons k c rest, h => by
      rw [RadixChildren.get] at h
      split at h
      · cases h
      · next hk =>
          have ih := RadixChildren.count_insert_of_none node b h
          rw [RadixChildren.insert, if_neg hk]
          simp only [RadixChildren.heldBlocks, RadixChildren.postorder, flatten_append,
            count_append] at ih ⊢
          omega

theorem RadixChildren.count_insert_of_some (node : RadixTreeNode) (b : Nat) :
    {cs : RadixChildren} → cs.get first = some old →
      (cs.insert first node).heldBlocks.count b + old.heldBlocks.count b =
        cs.heldBlocks.count b + node.heldBlocks.count b
  | .nil, h => by cases h
  | .cons k c rest, h => by
      rw [RadixChildren.get] at h
      rw [RadixChildren.insert]
      split at h
      · next hk =>
          cases h
          rw [if_pos hk]
          simp only [RadixChildren.heldBlocks, RadixTreeNode.heldBlocks, RadixChildren.postorder,
            flatten_append, count_append]
          omega
      · next hk =>
          have ih := RadixChildren.count_insert_of_some node b h
          rw [if_neg hk]
          simp only [RadixChildren.heldBlocks, RadixChildren.postorder, flatten_append,
            count_append] at ih ⊢
          omega

theorem RadixTreeNode.count_heldBlocks (node : RadixTreeNode) (b : Nat) :
    node.heldBlocks.count b = node.children.heldBlocks.count b + node.kvBlocks.count b := by
  cases node with
  | mk =>
    simp [RadixTreeNode.heldBlocks, RadixTreeNode.postorder, RadixChildren.heldBlocks,
      RadixTreeNode.children, RadixTreeNode.kvBlocks]

theorem RadixTreeNode.count_setChild_of_none
    (h : node.children.get first = none) (child : RadixTreeNode) (b : Nat) :
    (node.setChild first child).heldBlocks.count b =
      node.heldBlocks.count b + child.heldBlocks.count b := by
  have hinsert := RadixChildren.count_insert_of_none child b h
  rw [count_heldBlocks, count_heldBlocks node]
  simp only [setChild, children, kvBlocks] at hinsert ⊢
  omega

theorem RadixTreeNode.count_setChild_of_some
    (h : node.children.get first = some old) (child : RadixTreeNode) (b : Nat) :
    (node.setChild first child).heldBlocks.count b + old.heldBlocks.count b =
      node.heldBlocks.count b + child.heldBlocks.count b := by
  have hinsert := RadixChildren.count_insert_of_some child b h
  rw [count_heldBlocks, count_heldBlocks node]
  simp only [setChild, children, kvBlocks] at hinsert ⊢
  omega

/-! ## Insertion: groups are added and cut, never lost -/

theorem head?_take_of_pos {l : List UInt32} {n : Nat} (hn : n ≠ 0) :
    (l.take n).head? = l.head? := by
  cases n with
  | zero => exact absurd rfl hn
  | succ => cases l <;> rfl

theorem count_splitNode (blockSize : Nat) (child : RadixTreeNode) (common : Nat)
    (h : common < child.tokenIds.length) (b : Nat) :
    (splitNode blockSize child common h).heldBlocks.count b = child.heldBlocks.count b := by
  have hcut := congrArg (count b)
    (take_append_drop (common ⌈/⌉ blockSize) child.kvBlocks)
  rw [count_append] at hcut
  rw [RadixTreeNode.count_heldBlocks, RadixTreeNode.count_heldBlocks child]
  simp only [splitNode, RadixTreeNode.children, RadixTreeNode.kvBlocks,
    RadixChildren.heldBlocks, RadixChildren.postorder, RadixTreeNode.postorder,
    append_nil, flatten_append, flatten_cons, flatten_nil,
    count_append] at hcut ⊢
  omega

theorem RadixTreeNode.WF.splitNode {child : RadixTreeNode} (hwf : child.WF) (blockSize : Nat)
    {common : Nat} (h : common < child.tokenIds.length) :
    (splitNode blockSize child common h).WF := by
  cases child with
  | mk =>
    obtain ⟨hpin, hchildren⟩ := hwf
    refine ⟨hpin, ?_, ⟨hpin, hchildren⟩, trivial⟩
    rw [RadixTreeNode.tokenIds, head?_drop, getElem?_eq_getElem]

/-- What an insertion does to the ids below a node. -/
def GainedBy (node node' : RadixTreeNode) (held : List Nat) : Prop :=
  node'.WF ∧ node'.tokenIds = node.tokenIds ∧
    ∀ b, node'.heldBlocks.count b = node.heldBlocks.count b + held.count b

theorem GainedBy.setChild {sub sub' : RadixTreeNode}
    (hwf : node.WF) (hget : node.children.get first = some old)
    (hhead : sub.tokenIds.head? = some first)
    (hsame : ∀ b, sub.heldBlocks.count b = old.heldBlocks.count b)
    (h : GainedBy sub sub' held) : GainedBy node (node.setChild first sub') held := by
  obtain ⟨hwf', htokens, hcount⟩ := h
  refine ⟨hwf.setChild (by rw [htokens, hhead]) hwf', rfl, fun b => ?_⟩
  have hset := RadixTreeNode.count_setChild_of_some hget sub' b
  have hgain := hcount b
  have hold := hsame b
  omega

theorem gainedBy_addNode {rest : List UInt32}
    (hwf : node.WF) (hnone : node.children.get first = none)
    (h : addNode node first (first :: rest) kv off = some (node', held)) :
    GainedBy node node' held := by
  rw [addNode] at h
  split at h
  · cases h
    refine ⟨hwf.setChild rfl ⟨rfl, trivial⟩, rfl, fun b => ?_⟩
    rw [RadixTreeNode.count_setChild_of_none hnone]
    simp [RadixTreeNode.heldBlocks, RadixTreeNode.postorder, RadixChildren.postorder]
  · cases h

/-- An insertion adds what it retains to what the tree holds. -/
theorem gainedBy_insertLoop (blockSize : Nat) (kv : List Nat) (remaining : List UInt32) :
    ∀ {node node' : RadixTreeNode} {off : Nat} {held : List Nat}, node.WF →
      insertLoop blockSize kv node remaining off = some (node', held) →
      GainedBy node node' held := by
  induction hlen : remaining.length using Nat.strong_induction_on generalizing remaining with
  | h n ih =>
    intro node node' off held hwf h
    cases remaining with
    | nil =>
      rw [insertLoop_nil] at h
      cases h
      exact ⟨hwf, rfl, by simp⟩
    | cons first rest =>
      cases hget : node.children.get first with
      | none =>
        rw [insertLoop_none hget] at h
        exact gainedBy_addNode hwf hget h
      | some child =>
        obtain ⟨hhead, hchild⟩ := hwf.child hget
        have hpos : commonPrefixLen (first :: rest) child.tokenIds ≠ 0 :=
          commonPrefixLen_pos rest hhead
        have hle := commonPrefixLen_le_right (first :: rest) child.tokenIds
        by_cases hlt : commonPrefixLen (first :: rest) child.tokenIds < child.tokenIds.length
        · rw [insertLoop_split hget hpos hlt] at h
          obtain ⟨sub, hsub, heq⟩ := Option.map_eq_some_iff.1 h
          cases heq
          -- the split child holds what the child held
          have hgain := ih _ (by simp at hlen ⊢; omega) _ rfl
            (hchild.splitNode blockSize hlt) hsub
          refine hgain.setChild hwf hget ?_ (count_splitNode blockSize child _ hlt)
          rw [← hhead]
          exact head?_take_of_pos hpos
        · rw [insertLoop_descend hget hpos hlt] at h
          obtain ⟨sub, hsub, heq⟩ := Option.map_eq_some_iff.1 h
          cases heq
          have hgain := ih _ (by simp at hlen ⊢; omega) _ rfl hchild hsub
          exact hgain.setChild hwf hget hhead fun _ => rfl

theorem addNode_subset {tokens : List UInt32}
    (h : addNode node first tokens kv off = some (node', held)) :
    ∀ b ∈ held, b ∈ kv := by
  rw [addNode] at h
  split at h
  · cases h
    exact fun b hb => mem_of_mem_drop hb
  · cases h

theorem insertLoop_subset (blockSize : Nat) (kv : List Nat) (remaining : List UInt32) :
    ∀ {node node' : RadixTreeNode} {off : Nat} {held : List Nat},
      insertLoop blockSize kv node remaining off = some (node', held) → ∀ b ∈ held, b ∈ kv := by
  induction hlen : remaining.length using Nat.strong_induction_on generalizing remaining with
  | h n ih =>
    intro node node' off held h
    cases remaining with
    | nil =>
      rw [insertLoop_nil] at h
      cases h
      exact nofun
    | cons first rest =>
      cases hget : node.children.get first with
      | none =>
        rw [insertLoop_none hget] at h
        exact addNode_subset h
      | some child =>
        have hle := commonPrefixLen_le_right (first :: rest) child.tokenIds
        rw [insertLoop, hget] at h
        dsimp only at h
        split at h
        · exact addNode_subset h
        · split at h
          all_goals
            obtain ⟨sub, hsub, heq⟩ := Option.map_eq_some_iff.1 h
            cases heq
            exact ih _ (by simp at hlen ⊢; omega) _ rfl hsub

/-! ## Eviction: the groups are drained from the front -/

theorem releaseLoop_eq (target : Nat) (kv : List Nat) (freed : Nat) (h : freed < target) :
    releaseLoop target kv freed =
      (kv.take (target - freed), freed + (kv.take (target - freed)).length) := by
  induction kv generalizing freed with
  | nil => simp [releaseLoop]
  | cons b kv ih =>
    rw [releaseLoop]
    by_cases hstop : freed + 1 ≥ target
    · have hone : target - freed = 1 := by omega
      rw [if_pos hstop, hone]
      rfl
    · obtain ⟨n, hn⟩ : ∃ n, target - freed = n + 1 := ⟨target - freed - 1, by omega⟩
      have hrest : target - (freed + 1) = n := by omega
      rw [if_neg hstop, ih (freed + 1) (by omega), hn, hrest]
      simp only [take_succ_cons, length_cons, Prod.mk.injEq, true_and]
      omega

/-- What is left of a node after an eviction walk. -/
def optPostorder : Option RadixTreeNode → List (List Nat)
  | none => []
  | some node => node.postorder

/-- What an eviction walk must have done to the groups `gs`. -/
def Drains (target freed : Nat) (gs left : List (List Nat)) (released : List Nat)
    (freed' : Nat) : Prop :=
  (left, released) = drain (target - freed) gs ∧ freed' = freed + released.length

theorem Drains.freed_le (h : Drains target freed gs left released freed')
    (hle : freed ≤ target) : freed' ≤ target := by
  obtain ⟨heq, hfreed⟩ := h
  have hlen := length_drain_le (target - freed) gs
  rw [← heq] at hlen
  simp only at hlen
  omega

theorem Drains.append {freed'' : Nat} {gs' left' : List (List Nat)} {released' : List Nat}
    (h : Drains target freed gs left released freed')
    (h' : Drains target freed' gs' left' released' freed'') :
    Drains target freed (gs ++ gs') (left ++ left') (released ++ released') freed'' := by
  obtain ⟨heq, hfreed⟩ := h
  obtain ⟨heq', hfreed'⟩ := h'
  have hbudget : target - freed - released.length = target - freed' := by omega
  refine ⟨?_, by rw [length_append]; omega⟩
  rw [drain_append, ← heq]
  simp only [hbudget, ← heq']

mutual

theorem evictNode_eq_drain (target : Nat) :
    (node : RadixTreeNode) → (freed : Nat) → node.WF → freed ≤ target →
      Drains target freed node.postorder (optPostorder (evictNode target node freed).kept)
        (evictNode target node freed).released (evictNode target node freed).freed
  | .mk tokenIds children kvBlocks refCount, freed, hwf, hle => by
      obtain ⟨hpin, hchildren⟩ := hwf
      have hbelow := evictChildren_eq_drain target children freed hchildren hle
      have hle' := hbelow.freed_le hle
      rw [RadixTreeNode.postorder, evictNode]
      by_cases hstop : (evictChildren target children freed).freed ≥ target
      · -- the target was reached below this node, which stays
        simp only [hstop, true_or, if_true]
        have hzero : target - (evictChildren target children freed).freed = 0 := by omega
        have hkeep : Drains target (evictChildren target children freed).freed [kvBlocks]
            [kvBlocks] [] (evictChildren target children freed).freed :=
          ⟨by rw [hzero, drain_zero], rfl⟩
        have happ := hbelow.append hkeep
        rw [append_nil] at happ
        exact happ
      · have hlt : (evictChildren target children freed).freed < target := by omega
        simp only [hstop, hpin, ne_eq, not_true_eq_false, or_self, if_false, optPostorder,
          releaseLoop_eq target kvBlocks _ hlt]
        -- with budget to spare the children are all gone
        have hgone : (evictChildren target children freed).kept.postorder = [] := by
          obtain ⟨heq, hfreed⟩ := hbelow
          have hspare : (drain (target - freed) children.postorder).2.length < target - freed := by
            rw [← heq]
            simp only
            omega
          have := drain_eq_nil hspare
          rwa [← heq] at this
        have hown : Drains target (evictChildren target children freed).freed [kvBlocks] []
            (kvBlocks.take (target - (evictChildren target children freed).freed))
            ((evictChildren target children freed).freed +
              (kvBlocks.take (target - (evictChildren target children freed).freed)).length) := by
          refine ⟨?_, rfl⟩
          rw [drain_cons (by omega)]
          simp
        have happ := hbelow.append hown
        rwa [hgone, append_nil] at happ

theorem evictChildren_eq_drain (target : Nat) :
    (cs : RadixChildren) → (freed : Nat) → cs.WF → freed ≤ target →
      Drains target freed cs.postorder (evictChildren target cs freed).kept.postorder
        (evictChildren target cs freed).released (evictChildren target cs freed).freed
  | .nil, freed, _, _ => by
      rw [evictChildren, RadixChildren.postorder]
      exact ⟨by rw [drain_nil], rfl⟩
  | .cons first child rest, freed, hwf, hle => by
      rw [evictChildren]
      by_cases hstop : freed ≥ target
      · rw [if_pos hstop]
        have hzero : target - freed = 0 := by omega
        exact ⟨by rw [hzero, drain_zero], rfl⟩
      · rw [if_neg hstop]
        have hone := evictNode_eq_drain target child freed hwf.2.1 hle
        have hothers := evictChildren_eq_drain target rest _ hwf.2.2 (hone.freed_le hle)
        have happ := hone.append hothers
        rw [RadixChildren.postorder]
        cases hkept : (evictNode target child freed).kept with
        | none =>
          simp only [hkept, optPostorder, nil_append] at happ ⊢
          exact happ
        | some =>
          simp only [hkept, optPostorder, RadixChildren.postorder] at happ ⊢
          exact happ

end

mutual

theorem evictNode_wf (target : Nat) :
    (node : RadixTreeNode) → (freed : Nat) → node.WF →
      ∀ kept, (evictNode target node freed).kept = some kept →
        kept.WF ∧ kept.tokenIds = node.tokenIds
  | .mk tokenIds children kvBlocks refCount, freed, hwf => by
      intro kept h
      have hbelow := evictChildren_wf target children freed hwf.2
      rw [evictNode] at h
      dsimp only at h
      split at h
      · cases h
        exact ⟨⟨hwf.1, hbelow⟩, rfl⟩
      · cases h

theorem evictChildren_wf (target : Nat) :
    (cs : RadixChildren) → (freed : Nat) → cs.WF → (evictChildren target cs freed).kept.WF
  | .nil, _, _ => trivial
  | .cons first child rest, freed, hwf => by
      rw [evictChildren]
      split
      · exact hwf
      · have hothers := evictChildren_wf target rest (evictNode target child freed).freed hwf.2.2
        cases hkept : (evictNode target child freed).kept with
        | none =>
          simp only [hkept]
          exact hothers
        | some child' =>
          obtain ⟨hchild, htokens⟩ := evictNode_wf target child freed hwf.2.1 child' hkept
          simp only [hkept]
          exact ⟨by rw [htokens]; exact hwf.1, hchild, hothers⟩

end

/-! ## Iteration order -/

mutual

theorem Reorder.spec : {node node' : RadixTreeNode} → Reorder node node' →
    node.postorder.Perm node'.postorder ∧ node'.tokenIds = node.tokenIds ∧ (node.WF → node'.WF)
  | _, _, .mk h => by
      obtain ⟨hperm, hwf⟩ := h.spec
      exact ⟨hperm.append_right _, rfl, fun hnode => ⟨hnode.1, hwf hnode.2⟩⟩

theorem ReorderChildren.spec : {cs cs' : RadixChildren} → ReorderChildren cs cs' →
    cs.postorder.Perm cs'.postorder ∧ (cs.WF → cs'.WF)
  | _, _, .nil => ⟨.refl _, id⟩
  | _, _, .cons hchild hrest => by
      obtain ⟨hperm, htokens, hwf⟩ := hchild.spec
      obtain ⟨hperm', hwf'⟩ := hrest.spec
      exact ⟨hperm.append hperm', fun h => ⟨by rw [htokens]; exact h.1, hwf h.2.1, hwf' h.2.2⟩⟩
  | _, _, .swap => by
      refine ⟨?_, fun h => ⟨h.2.2.1, h.2.2.2.1, h.1, h.2.1, h.2.2.2.2⟩⟩
      rw [RadixChildren.postorder, RadixChildren.postorder, RadixChildren.postorder,
        RadixChildren.postorder, ← append_assoc, ← append_assoc]
      exact List.perm_append_comm.append_right _
  | _, _, .trans h h' => by
      obtain ⟨hperm, hwf⟩ := h.spec
      obtain ⟨hperm', hwf'⟩ := h'.spec
      exact ⟨hperm.trans hperm', hwf' ∘ hwf⟩

end

theorem Reorder.count_heldBlocks (h : Reorder node node') (b : Nat) :
    node'.heldBlocks.count b = node.heldBlocks.count b :=
  (h.spec.1.flatten.count_eq b).symm

end CompileForge.Runtime
