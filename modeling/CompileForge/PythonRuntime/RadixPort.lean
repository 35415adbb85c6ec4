/-
  The Python prefix cache and its Rust port, issued the same calls over equal block managers.
  They part at the first eviction asked for a block while the tree has a node: the port removes
  a leaf, the Python cache, whose nodes all start pinned, nothing.
-/

import CompileForge.PythonRuntime.RadixCache
import CompileForge.Runtime.Cache.RadixHold

namespace CompileForge.Runtime

/-! ## Trees up to reference counts -/

mutual

/-- The tree without the reference counts of its nodes. -/
def RadixTreeNode.forget : RadixTreeNode → RadixTreeNode
  | .mk tokenIds children kvBlocks _ => .mk tokenIds children.forget kvBlocks 0

def RadixChildren.forget : RadixChildren → RadixChildren
  | .nil => .nil
  | .cons first child rest => .cons first child.forget rest.forget

end

namespace RadixTreeNode

variable (node : RadixTreeNode)

@[simp] theorem forget_tokenIds : node.forget.tokenIds = node.tokenIds := by
  cases node
  rfl

@[simp] theorem forget_kvBlocks : node.forget.kvBlocks = node.kvBlocks := by
  cases node
  rfl

@[simp] theorem forget_children : node.forget.children = node.children.forget := by
  cases node
  rfl

end RadixTreeNode

theorem RadixChildren.get_forget (first : UInt32) :
    (cs : RadixChildren) → cs.forget.get first = (cs.get first).map RadixTreeNode.forget
  | .nil => rfl
  | .cons k child rest => by
      rw [RadixChildren.forget, RadixChildren.get, RadixChildren.get]
      split
      · rfl
      · exact RadixChildren.get_forget first rest

theorem RadixChildren.insert_forget (first : UInt32) (node : RadixTreeNode) :
    (cs : RadixChildren) → (cs.insert first node).forget = cs.forget.insert first node.forget
  | .nil => rfl
  | .cons k child rest => by
      rw [RadixChildren.forget, RadixChildren.insert, RadixChildren.insert]
      split
      · rfl
      · rw [RadixChildren.forget, RadixChildren.insert_forget first node rest]

theorem RadixTreeNode.setChild_forget (node : RadixTreeNode) (first : UInt32)
    (child : RadixTreeNode) :
    (node.setChild first child).forget = node.forget.setChild first child.forget := by
  cases node with
  | mk =>
    simp only [RadixTreeNode.setChild, RadixTreeNode.forget, RadixTreeNode.tokenIds,
      RadixTreeNode.children, RadixTreeNode.kvBlocks, RadixTreeNode.refCount,
      RadixChildren.insert_forget]

variable {child : RadixTreeNode} {first : UInt32} {remaining : List UInt32} {kvBlocks : List Nat}
  {off : Nat}

theorem splitNode_forget (blockSize : Nat) {common : Nat}
    (h : common < child.tokenIds.length) (h' : common < child.forget.tokenIds.length) :
    (splitNode blockSize child common h).forget = splitNode blockSize child.forget common h' := by
  cases child
  rfl

mutual

theorem RadixTreeNode.forget_forget : (node : RadixTreeNode) → node.forget.forget = node.forget
  | .mk tokenIds children kvBlocks _ => by
      rw [RadixTreeNode.forget, RadixTreeNode.forget, RadixChildren.forget_forget children]

theorem RadixChildren.forget_forget : (cs : RadixChildren) → cs.forget.forget = cs.forget
  | .nil => rfl
  | .cons first child rest => by
      rw [RadixChildren.forget, RadixChildren.forget, RadixTreeNode.forget_forget child,
        RadixChildren.forget_forget rest]

end

mutual

theorem RadixTreeNode.postorder_forget :
    (node : RadixTreeNode) → node.forget.postorder = node.postorder
  | .mk tokenIds children kvBlocks _ => by
      rw [RadixTreeNode.forget, RadixTreeNode.postorder, RadixTreeNode.postorder,
        RadixChildren.postorder_forget children]

theorem RadixChildren.postorder_forget : (cs : RadixChildren) → cs.forget.postorder = cs.postorder
  | .nil => rfl
  | .cons first child rest => by
      rw [RadixChildren.forget, RadixChildren.postorder, RadixChildren.postorder,
        RadixTreeNode.postorder_forget child, RadixChildren.postorder_forget rest]

end

theorem RadixTreeNode.get_forget_none {node : RadixTreeNode}
    (h : node.children.get first = none) : node.forget.children.get first = none := by
  rw [forget_children, RadixChildren.get_forget, h]
  rfl

theorem RadixTreeNode.get_forget_some {node : RadixTreeNode}
    (h : node.children.get first = some child) :
    node.forget.children.get first = some child.forget := by
  rw [forget_children, RadixChildren.get_forget, h]
  rfl

theorem matchLoop_forget (blockSize : Nat) (node : RadixTreeNode) (remaining : List UInt32)
    (blocks : List Nat) (consumed : Nat) :
    matchLoop blockSize node.forget remaining blocks consumed =
      matchLoop blockSize node remaining blocks consumed := by
  fun_induction matchLoop blockSize node remaining blocks consumed with
  | case1 => exact matchLoop_nil
  | case2 node blocks consumed first rest hget =>
    exact matchLoop_none (RadixTreeNode.get_forget_none hget)
  | case3 node blocks consumed first rest child hget common hlt =>
    have hlt' : commonPrefixLen (first :: rest) child.forget.tokenIds <
        child.forget.tokenIds.length := by rwa [RadixTreeNode.forget_tokenIds]
    rw [matchLoop_within (RadixTreeNode.get_forget_some hget) hlt', RadixTreeNode.forget_tokenIds,
      RadixTreeNode.forget_kvBlocks]
  | case4 node blocks consumed first rest child hget common hge ih =>
    have hge' : ¬ commonPrefixLen (first :: rest) child.forget.tokenIds <
        child.forget.tokenIds.length := by rwa [RadixTreeNode.forget_tokenIds]
    rw [matchLoop_descend (RadixTreeNode.get_forget_some hget) hge', RadixTreeNode.forget_tokenIds,
      RadixTreeNode.forget_kvBlocks]
    exact ih

theorem newNodeOffset_forget (node : RadixTreeNode) (remaining : List UInt32) (blockOffset : Nat) :
    newNodeOffset node.forget remaining blockOffset = newNodeOffset node remaining blockOffset := by
  fun_induction newNodeOffset node remaining blockOffset with
  | case1 => exact newNodeOffset_nil
  | case2 node off first rest hget => exact newNodeOffset_none (RadixTreeNode.get_forget_none hget)
  | case3 node off first rest child hget common hzero =>
    apply newNodeOffset_zero (RadixTreeNode.get_forget_some hget)
    rw [RadixTreeNode.forget_tokenIds]
    exact hzero
  | case4 node off first rest child hget common hpos hlt hmore =>
    rw [newNodeOffset_split (RadixTreeNode.get_forget_some hget)
      (by rwa [RadixTreeNode.forget_tokenIds])
      (by rwa [RadixTreeNode.forget_tokenIds]), RadixTreeNode.forget_tokenIds]
    exact if_pos hmore
  | case5 node off first rest child hget common hpos hlt hend =>
    rw [newNodeOffset_split (RadixTreeNode.get_forget_some hget)
      (by rwa [RadixTreeNode.forget_tokenIds])
      (by rwa [RadixTreeNode.forget_tokenIds]), RadixTreeNode.forget_tokenIds]
    exact if_neg hend
  | case6 node off first rest child hget common hpos hge ih =>
    rw [newNodeOffset_descend (RadixTreeNode.get_forget_some hget)
      (by rwa [RadixTreeNode.forget_tokenIds])
      (by rwa [RadixTreeNode.forget_tokenIds]), RadixTreeNode.forget_tokenIds,
      RadixTreeNode.forget_kvBlocks]
    exact ih

theorem addNode_forget {node : RadixTreeNode} (h : off ≤ kvBlocks.length) :
    addNode node.forget first remaining kvBlocks off =
      some ((PythonRuntime.PyRadix.addNode node first remaining kvBlocks off).1.forget,
        (PythonRuntime.PyRadix.addNode node first remaining kvBlocks off).2) := by
  rw [addNode, if_pos h, PythonRuntime.PyRadix.addNode, RadixTreeNode.setChild_forget]
  rfl

/-- Where the port does not panic, both insertions build the same tree. -/
theorem insertLoop_forget {blockSize : Nat} {node : RadixTreeNode}
    (hfit : ∀ o ∈ newNodeOffset node remaining off, o ≤ kvBlocks.length) :
    insertLoop blockSize kvBlocks node.forget remaining off =
      some ((PythonRuntime.PyRadix.insertLoop blockSize kvBlocks node remaining off).1.forget,
        (PythonRuntime.PyRadix.insertLoop blockSize kvBlocks node remaining off).2) := by
  fun_induction PythonRuntime.PyRadix.insertLoop blockSize kvBlocks node remaining off with
  | case1 => exact insertLoop_nil
  | case2 node off first rest hget =>
    rw [insertLoop_none (RadixTreeNode.get_forget_none hget)]
    exact addNode_forget (hfit off (newNodeOffset_none hget))
  | case3 node off first rest child hget common hzero =>
    rw [insertLoop_zero (RadixTreeNode.get_forget_some hget)
      (by rwa [RadixTreeNode.forget_tokenIds])]
    exact addNode_forget (hfit off (newNodeOffset_zero hget hzero))
  | case4 node off first rest child hget common hpos hlt sub ih =>
    have hfit' : ∀ o ∈ newNodeOffset (splitNode blockSize child common hlt)
        ((first :: rest).drop common) off, o ≤ kvBlocks.length := by
      rw [newNodeOffset_split hget hpos hlt] at hfit
      cases hdrop : (first :: rest).drop common with
      | nil =>
        rw [newNodeOffset_nil]
        exact fun o ho => absurd ho (Option.not_mem_none o)
      | cons x l =>
        have hmore : common < (first :: rest).length := by
          rw [← List.drop_eq_nil_iff.not.trans not_le, hdrop]
          exact List.cons_ne_nil x l
        rw [if_pos hmore] at hfit
        rwa [newNodeOffset_none
          (get_splitNode_of_ne hlt (head_ne_of_commonPrefixLen hlt hdrop))]
    have hlt' : commonPrefixLen (first :: rest) child.forget.tokenIds <
        child.forget.tokenIds.length := by rwa [RadixTreeNode.forget_tokenIds]
    have hsplit := splitNode_forget blockSize hlt (by rwa [RadixTreeNode.forget_tokenIds])
    rw [insertLoop_split (RadixTreeNode.get_forget_some hget)
      (by rwa [RadixTreeNode.forget_tokenIds]) hlt']
    simp only [RadixTreeNode.forget_tokenIds]
    rw [← hsplit, ih hfit', RadixTreeNode.setChild_forget]
    rfl
  | case5 node off first rest child hget common hpos hge sub ih =>
    rw [newNodeOffset_descend hget hpos hge] at hfit
    rw [insertLoop_descend (RadixTreeNode.get_forget_some hget)
      (by rwa [RadixTreeNode.forget_tokenIds])
      (by rwa [RadixTreeNode.forget_tokenIds]), RadixTreeNode.forget_tokenIds,
      RadixTreeNode.forget_kvBlocks, ih hfit, RadixTreeNode.setChild_forget]
    rfl

theorem evictChildren_changes {target : Nat} {cs : RadixChildren} (hwf : cs.WF)
    (htarget : target ≠ 0) (hcs : cs ≠ .nil) :
    (evictChildren target cs 0).kept.postorder ≠ cs.postorder := by
  have hdrain := (evictChildren_eq_drain target cs 0 hwf (Nat.zero_le target)).1
  have hgroups : cs.postorder ≠ [] := by
    cases cs with
    | nil => exact absurd rfl hcs
    | cons first child =>
      cases child
      simp [RadixChildren.postorder, RadixTreeNode.postorder]
  obtain ⟨g, gs, hg⟩ := List.exists_cons_of_ne_nil hgroups
  have hbudget : target - 0 ≠ 0 := by omega
  rw [hg, CompileForge.Lib.drain_cons hbudget] at hdrain
  intro hsame
  rw [(Prod.mk.inj hdrain).1, hg] at hsame
  have hlen :=
    CompileForge.Lib.length_drain_groups_le (target - 0 - (g.take (target - 0)).length) gs
  rw [hsame, List.length_cons] at hlen
  omega

end CompileForge.Runtime

namespace CompileForge.PythonRuntime

open CompileForge.Runtime

/-! ## Calls -/

inductive RadixCall where
  | insert (tokenIds : List UInt32) (kvBlocks : List Nat)
  | matchPrefix (tokenIds : List UInt32)
  | evict (targetBlocks : Nat)

/-- What a call returns. -/
inductive RadixAnswer where
  | unit
  | matched (blocks : List Nat) (consumed : Nat)
  | freed (blocks : Nat)
deriving DecidableEq

/-- A call and the block manager's state it finds; requests may have used it since the last. -/
structure RadixCallAt (blockSize : Nat) where
  bm : BlockManager
  blockSize_eq : bm.blockSize = blockSize
  call : RadixCall

def RadixCall.onPython (call : RadixCall) (root : RadixTreeNode) (bm : BlockManager) :
    RadixTreeNode × BlockManager × RadixAnswer :=
  match call with
  | .insert tokenIds kvBlocks =>
    let inserted := PyRadix.insert root bm tokenIds kvBlocks
    (inserted.1, inserted.2, .unit)
  | .matchPrefix tokenIds =>
    let found := PyRadix.matchPrefix root bm tokenIds
    (root, bm, .matched found.1 found.2)
  | .evict targetBlocks =>
    let evicted := PyRadix.evict root bm targetBlocks
    (evicted.1, evicted.2.1, .freed evicted.2.2)

/-- `none` where the port panics. -/
def RadixCall.onRust (call : RadixCall) (cache : RadixCache) (bm : BlockManager) :
    Option (RadixCache × BlockManager × RadixAnswer) :=
  match call with
  | .insert tokenIds kvBlocks =>
    (cache.insert tokenIds kvBlocks bm).map fun inserted => (inserted.1, inserted.2, .unit)
  | .matchPrefix tokenIds =>
    let found := cache.matchPrefix tokenIds
    some (cache, bm, .matched found.1 found.2)
  | .evict targetBlocks =>
    let evicted := cache.evict targetBlocks bm
    some (evicted.1, evicted.2.1, .freed evicted.2.2)

/-- Every call has the same answer and leaves the same tree and references on both sides. -/
def AgreeAlong {blockSize : Nat} :
    List (RadixCallAt blockSize) → RadixTreeNode → RadixCache → Prop
  | [], _, _ => True
  | c :: rest, root, cache =>
    ∃ cache' bm' answer, c.call.onRust cache c.bm = some (cache', bm', answer) ∧
      (c.call.onPython root c.bm).2.2 = answer ∧
      (c.call.onPython root c.bm).1.forget = cache'.root.forget ∧
      (∀ b, (c.call.onPython root c.bm).2.1.refCount b = bm'.refCount b) ∧
      AgreeAlong rest (c.call.onPython root c.bm).1 cache'

/-- An insertion reaches where its new node starts; an eviction asks for or finds nothing. -/
def RadixCall.Handled (root : RadixTreeNode) : RadixCall → Prop
  | .insert tokenIds kvBlocks => ∀ off ∈ newNodeOffset root tokenIds 0, off ≤ kvBlocks.length
  | .matchPrefix _ => True
  | .evict targetBlocks => targetBlocks = 0 ∨ root.children = .nil

/-- No call evicts a block while the tree has a node. -/
def HandledAlong {blockSize : Nat} : List (RadixCallAt blockSize) → RadixTreeNode → Prop
  | [], _ => True
  | c :: rest, root => c.call.Handled root ∧ HandledAlong rest (c.call.onPython root c.bm).1

def pythonAfter {blockSize : Nat} (calls : List (RadixCallAt blockSize)) (root : RadixTreeNode) :
    RadixTreeNode :=
  calls.foldl (fun root c => (c.call.onPython root c.bm).1) root

/-! ## The agreement -/

/-- The two caches hold the same tree: unpinned in the port, pinned below the root in Python. -/
structure Ported (root : RadixTreeNode) (cache : RadixCache) : Prop where
  same : root.forget = cache.root
  wf : cache.root.WF
  pinned : PyRadix.PinnedChildren root.children

variable {root : RadixTreeNode} {cache : RadixCache} {call : RadixCall} {bm : BlockManager}
  {blockSize : Nat}

theorem onPython_pinned (h : PyRadix.PinnedChildren root.children)
    (call : RadixCall) (bm : BlockManager) :
    PyRadix.PinnedChildren (call.onPython root bm).1.children := by
  cases call with
  | insert => exact PyRadix.insertLoop_pinnedChildren h
  | matchPrefix => exact h
  | evict targetBlocks =>
    show PyRadix.PinnedChildren (PyRadix.evict root bm targetBlocks).1.children
    rw [PyRadix.evict_pinned h]
    exact h

theorem Ported.agree (h : Ported root cache) (hsize : bm.blockSize = cache.blockSize)
    (hcall : call.Handled root) :
    ∃ cache', call.onRust cache bm =
        some (cache', (call.onPython root bm).2.1, (call.onPython root bm).2.2) ∧
      cache'.blockSize = cache.blockSize ∧ Ported (call.onPython root bm).1 cache' := by
  have hpinned := onPython_pinned h.pinned call bm
  cases call with
  | insert tokenIds kvBlocks =>
    have hloop : insertLoop cache.blockSize kvBlocks root.forget tokenIds 0 = _ :=
      insertLoop_forget hcall
    rw [h.same] at hloop
    obtain ⟨hwf, -, -⟩ := gainedBy_insertLoop cache.blockSize kvBlocks tokenIds h.wf hloop
    have hpython : (RadixCall.insert tokenIds kvBlocks).onPython root bm =
        ((PyRadix.insertLoop cache.blockSize kvBlocks root tokenIds 0).1,
          (PyRadix.insertLoop cache.blockSize kvBlocks root tokenIds 0).2.foldl
            BlockManager.incrementRefCount bm, .unit) := by
      rw [RadixCall.onPython, PyRadix.insert, hsize]
    rw [hpython] at hpinned ⊢
    refine ⟨{ cache with
      root := (PyRadix.insertLoop cache.blockSize kvBlocks root tokenIds 0).1.forget },
      ?_, rfl, rfl, hwf, hpinned⟩
    rw [RadixCall.onRust, RadixCache.insert, RadixCache.insertCalls, hloop]
    rfl
  | matchPrefix =>
    refine ⟨cache, ?_, rfl, h⟩
    rw [RadixCall.onRust, RadixCall.onPython, RadixCache.matchPrefix, PyRadix.matchPrefix,
      hsize, ← h.same, matchLoop_forget]
  | evict targetBlocks =>
    have hpython : (RadixCall.evict targetBlocks).onPython root bm = (root, bm, .freed 0) := by
      rw [RadixCall.onPython, PyRadix.evict_pinned h.pinned]
    rw [hpython]
    refine ⟨cache, ?_, rfl, h⟩
    rw [RadixCall.onRust, RadixCache.evict, RadixCache.evictCalls]
    obtain rfl | hnil := hcall
    · rfl
    · have hchildren : cache.root.children = .nil := by
        rw [← h.same, RadixTreeNode.forget_children, hnil]
        rfl
      split
      case isTrue => rfl
      case isFalse =>
        obtain ⟨⟨tokenIds, children, kvBlocks, refCount⟩, blockSize, hpos⟩ := cache
        obtain rfl : children = .nil := hchildren
        rfl

/-- A call that is not handled panics in the port, or the trees differ after it. -/
theorem Ported.disagree (h : Ported root cache) (hcall : ¬ call.Handled root)
    {cache' : RadixCache} {bm' : BlockManager} {answer : RadixAnswer}
    (hrust : call.onRust cache bm = some (cache', bm', answer)) :
    (call.onPython root bm).1.forget ≠ cache'.root.forget := by
  cases call with
  | insert tokenIds kvBlocks =>
    exfalso
    apply hcall
    obtain ⟨inserted, hinserted, -⟩ := Option.map_eq_some_iff.1 hrust
    have hsome : (cache.insert tokenIds kvBlocks bm).isSome = true := by
      rw [hinserted]
      rfl
    have hfits := RadixCache.insert_isSome.1 hsome
    rw [RadixCache.Fits, ← h.same, newNodeOffset_forget] at hfits
    exact hfits
  | matchPrefix => exact absurd trivial hcall
  | evict targetBlocks =>
    obtain ⟨htarget, hnil⟩ := not_or.1 hcall
    have hpython : (RadixCall.evict targetBlocks).onPython root bm = (root, bm, .freed 0) := by
      rw [RadixCall.onPython, PyRadix.evict_pinned h.pinned]
    rw [hpython]
    intro hsame
    have hpost : cache.root.postorder = cache'.root.postorder := by
      rw [← h.same, RadixTreeNode.postorder_forget, ← RadixTreeNode.postorder_forget, hsame,
        RadixTreeNode.postorder_forget]
    have hroot : cache'.root = (cache.evictCalls targetBlocks).kept.root := by
      have heq := Option.some.inj hrust
      rw [← (Prod.mk.inj heq).1]
      rfl
    rw [hroot, RadixCache.evictCalls, if_neg htarget] at hpost
    obtain ⟨⟨tokenIds, children, kvBlocks, refCount⟩, blockSize, hpos⟩ := cache
    have hwf := h.wf.2
    have hne : children ≠ .nil := by
      rintro rfl
      have hchildren := congrArg RadixTreeNode.children h.same
      rw [RadixTreeNode.forget_children] at hchildren
      cases hroots : root.children with
      | nil => exact hnil hroots
      | cons =>
        rw [hroots] at hchildren
        cases hchildren
    exact evictChildren_changes hwf htarget hne (List.append_cancel_right hpost.symm)

theorem Ported.agreeAlong_iff (calls : List (RadixCallAt blockSize)) :
    ∀ {root : RadixTreeNode} {cache : RadixCache}, Ported root cache →
      cache.blockSize = blockSize → (AgreeAlong calls root cache ↔ HandledAlong calls root) := by
  induction calls with
  | nil => exact fun _ _ => Iff.rfl
  | cons c rest ih =>
    intro root cache h hsize
    have hbm : c.bm.blockSize = cache.blockSize := c.blockSize_eq.trans hsize.symm
    rw [AgreeAlong, HandledAlong]
    constructor
    · rintro ⟨cache', bm', answer, hrust, -, hsame, -, hrest⟩
      have hcall : c.call.Handled root := by
        by_contra hcall
        exact h.disagree hcall hrust hsame
      obtain ⟨cache'', hrust', hsize', hported⟩ := h.agree hbm hcall
      rw [hrust] at hrust'
      obtain rfl : cache' = cache'' := congrArg Prod.fst (Option.some.inj hrust')
      exact ⟨hcall, (ih hported (hsize'.trans hsize)).1 hrest⟩
    · rintro ⟨hcall, hrest⟩
      obtain ⟨cache', hrust, hsize', hported⟩ := h.agree hbm hcall
      refine ⟨cache', _, _, hrust, rfl, ?_, fun b => rfl, (ih hported (hsize'.trans hsize)).2 hrest⟩
      rw [← hported.same, RadixTreeNode.forget_forget]

theorem pythonAfter_pinned (calls : List (RadixCallAt blockSize))
    (h : PyRadix.PinnedChildren root.children) :
    PyRadix.PinnedChildren (pythonAfter calls root).children := by
  induction calls generalizing root with
  | nil => exact h
  | cons c rest ih => exact ih (onPython_pinned h c.call c.bm)

/-- Two new caches agree along a sequence of calls exactly when every call is handled. -/
theorem radixCaches_agree_iff (bm₀ : BlockManager) (calls : List (RadixCallAt bm₀.blockSize)) :
    (AgreeAlong calls (.new []) (.new bm₀.blockSize bm₀.blockSize_pos) ↔
        HandledAlong calls (.new [])) ∧
      ∀ (bm : BlockManager) (targetBlocks : Nat),
        PyRadix.evict (pythonAfter calls (.new [])) bm targetBlocks =
          (pythonAfter calls (.new []), bm, 0) := by
  have hnew : Ported (.new []) (.new bm₀.blockSize bm₀.blockSize_pos) :=
    ⟨rfl, ⟨rfl, trivial⟩, trivial⟩
  exact ⟨hnew.agreeAlong_iff calls rfl, PyRadix.evict_pinned (pythonAfter_pinned calls hnew.pinned)⟩

/-- A block cached under one token: the port evicts it, the Python cache does not. -/
theorem radixCaches_differ :
    ¬ ∀ (bm₀ : BlockManager) (calls : List (RadixCallAt bm₀.blockSize)),
      AgreeAlong calls (.new []) (.new bm₀.blockSize bm₀.blockSize_pos) := by
  intro h
  let bm : BlockManager :=
    { blockSize := 1, blocks := [.plain ⟨0, 1⟩], freeBlocks := []
      blockTables := AList.insert "r" [0] ∅, blockSize_pos := one_pos, free_lt := by simp }
  have hnew : Ported (.new []) (.new bm.blockSize bm.blockSize_pos) :=
    ⟨rfl, ⟨rfl, trivial⟩, trivial⟩
  obtain ⟨-, hevict, -⟩ := (hnew.agreeAlong_iff
    [⟨bm, rfl, .insert [7] [0]⟩, ⟨bm, rfl, .evict 1⟩] rfl).1 (h bm _)
  obtain hone | hnil := hevict
  · cases hone
  · simp only [RadixCall.onPython, PyRadix.insert] at hnil
    rw [PyRadix.insertLoop] at hnil
    cases hnil

end CompileForge.PythonRuntime
