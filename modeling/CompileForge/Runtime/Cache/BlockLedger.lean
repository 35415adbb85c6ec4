/-
  Who owns a block: the reference counts, the block tables and the free list
  of a `BlockManager` as one ledger.
-/

import CompileForge.Lib.AssocTable
import CompileForge.Lib.RefCount
import CompileForge.Lib.Run
import CompileForge.Runtime.Cache.Block

namespace CompileForge.Runtime.BlockManager

open Lib List

variable {bm : BlockManager} {owed held : Nat → Nat}

variable (bm owed held)

/-- How often a block occurs in all the block tables together. -/
def tableRefs (bid : Nat) : Nat := tableSum (count bid) bm.blockTables

def table (requestId : String) : List Nat :=
  (bm.blockTables.lookup requestId).getD []

/-- Every counter is what is owed; what nobody's table shows is `held` (the prefix cache's). -/
def Counted : Prop :=
  Lib.Counted (· < bm.numBlocks) bm.refCount owed bm.freeBlocks

/-- The counters are what is owed, and the free list is exact. -/
def Balanced : Prop :=
  Lib.Balanced (· < bm.numBlocks) bm.refCount owed bm.freeBlocks

/-- The ledger of the pool when `held` references are kept outside the tables. -/
def Exact : Prop :=
  bm.Balanced fun b => bm.tableRefs b + held b

variable {bm owed held}

theorem Exact.congr_held {held' : Nat → Nat} (h : bm.Exact held)
    (hh : ∀ b, held' b = held b) : bm.Exact held' := by
  obtain rfl : held' = held := funext hh
  exact h

/-! ## Frame facts of the primitive updates -/

@[simp] theorem numBlocks_modifyBlock (bid : Nat) (f : BlockEntry → BlockEntry) :
    (bm.modifyBlock bid f).numBlocks = bm.numBlocks := by
  simp [numBlocks, modifyBlock]

@[simp] theorem freeBlocks_modifyBlock (bid : Nat) (f : BlockEntry → BlockEntry) :
    (bm.modifyBlock bid f).freeBlocks = bm.freeBlocks := rfl

@[simp] theorem numBlocks_modifyRef (bid : Nat) (f : Nat → Nat) :
    (bm.modifyRef bid f).numBlocks = bm.numBlocks := numBlocks_modifyBlock ..

@[simp] theorem refCount_mapRefCount (f : Nat → Nat) (e : BlockEntry) :
    (e.mapRefCount f).refCount = f e.refCount := by
  cases e <;> rfl

theorem getElem?_modifyBlock (bm : BlockManager) (bid : Nat) (f : BlockEntry → BlockEntry)
    (i : Nat) :
    (bm.modifyBlock bid f).blocks[i]? = if bid = i then bm.blocks[i]?.map f else bm.blocks[i]? := by
  rw [modifyBlock, getElem?_modify]
  split
  · rfl
  · exact id_map _

variable {bid x b : Nat} {ids t : List Nat} {bm' : BlockManager} {rid : String}

theorem modifyBlock_congr {f g : BlockEntry → BlockEntry}
    (h : ∀ e, bm.blocks[bid]? = some e → f e = g e) :
    bm.modifyBlock bid f = bm.modifyBlock bid g := by
  have hblocks : bm.blocks.modify bid f = bm.blocks.modify bid g := by
    apply ext_getElem?
    intro i
    rw [getElem?_modify, getElem?_modify]
    split
    · next hi =>
        subst hi
        cases he : bm.blocks[bid]? with
        | none => rfl
        | some e => exact congrArg some (h e he)
    · rfl
  simp only [modifyBlock, hblocks]

theorem refCount_modifyRef (f : Nat → Nat) (hx : x < bm.numBlocks) :
    (bm.modifyRef bid f).refCount x = if x = bid then f (bm.refCount x) else bm.refCount x := by
  simp only [refCount, modifyRef, modifyBlock, getElem?_modify]
  rw [getElem?_eq_getElem hx]
  by_cases h : bid = x
  · simp [h]
  · simp [h, Ne.symm h]

@[simp] theorem refCount_modifyBlock_zeroFill (bid x : Nat) :
    (bm.modifyBlock bid BlockEntry.zeroFill).refCount x = bm.refCount x := by
  simp only [refCount, modifyBlock, getElem?_modify]
  by_cases h : bid = x
  · cases hx : bm.blocks[x]? with
    | none => simp [h]
    | some e => cases e <;> simp [h, BlockEntry.zeroFill, BlockEntry.refCount]
  · simp [h]

@[simp] theorem numBlocks_pushFree (bid : Nat) (h) :
    (bm.pushFree bid h).numBlocks = bm.numBlocks := rfl

theorem Balanced.zeroFill (h : bm.Balanced owed) (bid : Nat) :
    (bm.modifyBlock bid BlockEntry.zeroFill).Balanced owed := by
  have hrc : (bm.modifyBlock bid BlockEntry.zeroFill).refCount = bm.refCount :=
    funext fun x => refCount_modifyBlock_zeroFill bid x
  simpa only [Balanced, hrc, numBlocks_modifyBlock, freeBlocks_modifyBlock] using h

theorem Balanced.setTable (h : bm.Balanced owed) (rid : String) (t : List Nat) :
    (bm.setTable rid t).Balanced owed := h

/-! ## Popping free blocks -/

theorem refCount_popBlock (h : bm.freeBlocks ≠ []) (hx : x < bm.numBlocks) :
    (bm.popBlock h).2.refCount x = bm.refCount x + if x = (bm.popBlock h).1 then 1 else 0 := by
  have hmod : (bm.modifyRef (bm.popBlock h).1 (· + 1)).refCount x =
      if x = (bm.popBlock h).1 then bm.refCount x + 1 else bm.refCount x :=
    refCount_modifyRef _ hx
  show (bm.modifyRef (bm.popBlock h).1 (· + 1)).refCount x = _
  rw [hmod]
  split <;> rfl

theorem numBlocks_popBlock (h : bm.freeBlocks ≠ []) :
    (bm.popBlock h).2.numBlocks = bm.numBlocks := by
  simp [numBlocks, popBlock]

theorem freeBlocks_popBlock (h : bm.freeBlocks ≠ []) :
    bm.freeBlocks = (bm.popBlock h).2.freeBlocks ++ [(bm.popBlock h).1] :=
  (dropLast_concat_getLast h).symm

theorem length_freeBlocks_popBlock (h : bm.freeBlocks ≠ []) :
    (bm.popBlock h).2.freeBlocks.length + 1 = bm.freeBlocks.length := by
  conv_rhs => rw [freeBlocks_popBlock h, length_append, length_singleton]

theorem Counted.popBlock (hc : bm.Counted owed) (h : bm.freeBlocks ≠ []) :
    (bm.popBlock h).2.Counted fun x => owed x + if x = (bm.popBlock h).1 then 1 else 0 := by
  unfold Counted at hc ⊢
  rw [freeBlocks_popBlock h] at hc
  rw [numBlocks_popBlock h]
  exact hc.take (fun x hx => refCount_popBlock h hx) fun _ => rfl

/-- Popping a free block counts one more reference to it. -/
theorem Balanced.popBlock (hb : bm.Balanced owed) (h : bm.freeBlocks ≠ []) :
    (bm.popBlock h).2.Balanced fun x => owed x + if x = (bm.popBlock h).1 then 1 else 0 := by
  unfold Balanced at hb ⊢
  rw [freeBlocks_popBlock h] at hb
  rw [numBlocks_popBlock h]
  exact hb.take (fun x hx => refCount_popBlock h hx) fun _ => rfl

theorem Balanced.popBlock_idle (hb : bm.Balanced owed) (h : bm.freeBlocks ≠ []) :
    owed (bm.popBlock h).1 = 0 := by
  unfold Balanced at hb
  rw [freeBlocks_popBlock h] at hb
  exact hb.mem_idle _ (by simp)

theorem popBlocks_frame (n : Nat) (bm : BlockManager) (h : n ≤ bm.freeBlocks.length) :
    (popBlocks n bm h).2.blockTables = bm.blockTables ∧
    (popBlocks n bm h).2.blockSize = bm.blockSize ∧
    (popBlocks n bm h).2.numBlocks = bm.numBlocks ∧
    (popBlocks n bm h).1.length = n := by
  induction n generalizing bm with
  | zero => exact ⟨rfl, rfl, rfl, rfl⟩
  | succ n ih =>
    have hne : bm.freeBlocks ≠ [] := by rintro h0; simp [h0] at h
    have hpop := length_freeBlocks_popBlock hne
    obtain ⟨htab, hsize, hnum, hlen⟩ := ih (bm.popBlock hne).2 (by omega)
    refine ⟨htab, hsize, hnum.trans (numBlocks_popBlock hne), ?_⟩
    simp only [popBlocks, length_cons]
    exact congrArg (· + 1) hlen

theorem Counted.popBlocks (n : Nat) (hc : bm.Counted owed) (h : n ≤ bm.freeBlocks.length) :
    (popBlocks n bm h).2.Counted fun x => owed x + (popBlocks n bm h).1.count x := by
  induction n generalizing bm owed with
  | zero => simpa [BlockManager.popBlocks] using hc
  | succ n ih =>
    have hne : bm.freeBlocks ≠ [] := by rintro h0; simp [h0] at h
    have hpop := length_freeBlocks_popBlock hne
    have hrest := ih (hc.popBlock hne) (by omega)
    refine hrest.congr_owed fun x => ?_
    simp only [BlockManager.popBlocks, count_cons_ite]
    omega

theorem Balanced.popBlocks (n : Nat) (hb : bm.Balanced owed) (h : n ≤ bm.freeBlocks.length) :
    ((popBlocks n bm h).2.Balanced fun x => owed x + (popBlocks n bm h).1.count x) ∧
    (popBlocks n bm h).1.Nodup ∧ ∀ b ∈ (popBlocks n bm h).1, owed b = 0 := by
  induction n generalizing bm owed with
  | zero =>
    exact ⟨by simpa [BlockManager.popBlocks] using hb, nodup_nil, by simp [BlockManager.popBlocks]⟩
  | succ n ih =>
    have hne : bm.freeBlocks ≠ [] := by rintro h0; simp [h0] at h
    have hpop := length_freeBlocks_popBlock hne
    have hlen : n ≤ (bm.popBlock hne).2.freeBlocks.length := by omega
    obtain ⟨hrest, hnodup, hidle⟩ := ih (hb.popBlock hne) hlen
    -- a later id was idle after the first one had been counted, so it differs from it
    have hfirst : ∀ b ∈ (BlockManager.popBlocks n (bm.popBlock hne).2 hlen).1,
        b ≠ (bm.popBlock hne).1 := by
      intro b hb' heq
      have := hidle b hb'
      rw [if_pos heq] at this
      omega
    refine ⟨hrest.congr_owed fun x => ?_, ?_, ?_⟩
    · simp only [BlockManager.popBlocks, count_cons_ite]
      omega
    · exact nodup_cons.2 ⟨fun hmem => hfirst _ hmem rfl, hnodup⟩
    · intro b hb'
      rcases mem_cons.1 hb' with rfl | hb'
      · exact hb.popBlock_idle hne
      · have := hidle b hb'
        omega

/-! ## Retaining and releasing single blocks -/

theorem refCount_incrementRefCount (hx : x < bm.numBlocks) :
    (bm.incrementRefCount bid).refCount x = bm.refCount x + if x = bid then 1 else 0 := by
  rw [incrementRefCount, refCount_modifyRef _ hx]
  split <;> rfl

theorem Counted.incrementRefCount (hc : bm.Counted owed) (bid : Nat) :
    (bm.incrementRefCount bid).Counted fun x => owed x + if x = bid then 1 else 0 := by
  unfold Counted at hc ⊢
  rw [show (bm.incrementRefCount bid).numBlocks = bm.numBlocks from numBlocks_modifyRef ..]
  exact hc.retain (fun x hx => refCount_incrementRefCount hx) fun _ => rfl

theorem Balanced.incrementRefCount (hb : bm.Balanced owed) (h : owed bid ≠ 0) :
    (bm.incrementRefCount bid).Balanced fun x => owed x + if x = bid then 1 else 0 := by
  unfold Balanced at hb ⊢
  rw [show (bm.incrementRefCount bid).numBlocks = bm.numBlocks from numBlocks_modifyRef ..]
  exact hb.retain (fun x hx => refCount_incrementRefCount hx) (fun _ => rfl) h

@[simp] theorem numBlocks_freeBlock (bid : Nat) :
    (bm.freeBlock bid).numBlocks = bm.numBlocks := by
  unfold freeBlock
  split
  · dsimp only
    split <;> simp
  · rfl

@[simp] theorem blockTables_freeBlock (bid : Nat) :
    (bm.freeBlock bid).blockTables = bm.blockTables := by
  unfold freeBlock
  split
  · dsimp only
    split <;> rfl
  · rfl

@[simp] theorem blockSize_freeBlock (bid : Nat) :
    (bm.freeBlock bid).blockSize = bm.blockSize := by
  unfold freeBlock
  split
  · dsimp only
    split <;> rfl
  · rfl

/-- A block is free once its last reference is given back. -/
theorem freeBlock_of_lt (h : bid < bm.numBlocks) :
    (∀ x, x < bm.numBlocks →
      (bm.freeBlock bid).refCount x = bm.refCount x - if x = bid then 1 else 0) ∧
    (bm.freeBlock bid).freeBlocks =
      if (bm.freeBlock bid).refCount bid = 0 then bm.freeBlocks ++ [bid] else bm.freeBlocks := by
  have hlt : bid < bm.blocks.length := h
  have hrc : (bm.freeBlock bid).refCount = (bm.modifyRef bid (· - 1)).refCount := by
    unfold freeBlock
    rw [dif_pos hlt]
    dsimp only
    split <;> rfl
  constructor
  · intro x hx
    rw [hrc, refCount_modifyRef _ hx]
    split <;> rfl
  · rw [hrc]
    unfold freeBlock
    rw [dif_pos hlt]
    dsimp only
    split <;> rfl

theorem freeBlock_of_not_lt (h : ¬ bid < bm.numBlocks) : bm.freeBlock bid = bm := by
  unfold freeBlock
  exact dif_neg h

theorem Counted.freeBlock (hc : bm.Counted owed) (h : owed bid ≠ 0) :
    (bm.freeBlock bid).Counted fun x => owed x - if x = bid then 1 else 0 := by
  unfold Counted at hc ⊢
  rw [numBlocks_freeBlock]
  by_cases hlt : bid < bm.numBlocks
  · obtain ⟨hrc, hfree⟩ := freeBlock_of_lt hlt
    rw [hfree]
    exact hc.release hrc (fun _ => rfl) h
  · rw [freeBlock_of_not_lt hlt]
    have hsame : ∀ x, x < bm.numBlocks → (owed x - if x = bid then 1 else 0) = owed x := by
      intro x hx
      rw [if_neg (by omega), Nat.sub_zero]
    exact ⟨fun x hx => by rw [hc.counts x hx, hsame x hx],
      fun x hx h0 => hc.idle_mem x hx (by rwa [hsame x hx] at h0)⟩

theorem Balanced.freeBlock (hb : bm.Balanced owed) (h : owed bid ≠ 0) :
    (bm.freeBlock bid).Balanced fun x => owed x - if x = bid then 1 else 0 := by
  obtain ⟨hrc, hfree⟩ := freeBlock_of_lt (Lib.Balanced.owed_valid hb bid h)
  unfold Balanced at hb ⊢
  rw [numBlocks_freeBlock, hfree]
  exact hb.release hrc (fun _ => rfl) h

/-! ## Loops over block ids -/

theorem Counted.foldl_increment (hc : bm.Counted owed) (ids : List Nat) :
    (ids.foldl BlockManager.incrementRefCount bm).Counted fun x => owed x + ids.count x :=
  foldl_raise (P := Counted) (fun _ => True) (fun _ _ b _ h => h.incrementRefCount b)
    (fun _ _ => trivial) hc

theorem Balanced.foldl_increment (hb : bm.Balanced owed) (hids : ∀ b ∈ ids, owed b ≠ 0) :
    (ids.foldl BlockManager.incrementRefCount bm).Balanced fun x => owed x + ids.count x := by
  -- retaining only raises what is owed, so every id stays in use through the loop
  have hfold := foldl_raise (f := BlockManager.incrementRefCount)
    (P := fun bm owed => bm.Balanced owed ∧ ∀ b ∈ ids, owed b ≠ 0) (· ∈ ids)
    (fun bm owed b hmem h => ⟨h.1.incrementRefCount (h.2 b hmem),
      fun x hx => ne_of_gt (Nat.lt_add_right _ (Nat.pos_of_ne_zero (h.2 x hx)))⟩)
    (fun _ h => h) ⟨hb, hids⟩
  exact hfold.1

theorem Counted.foldl_freeBlock (hc : bm.Counted owed) (hle : ∀ x, ids.count x ≤ owed x) :
    (ids.foldl BlockManager.freeBlock bm).Counted fun x => owed x - ids.count x :=
  foldl_lower (P := Counted) (fun _ _ _ hne h => h.freeBlock hne) hle hc

theorem Balanced.foldl_freeBlock (hb : bm.Balanced owed) (hle : ∀ x, ids.count x ≤ owed x) :
    (ids.foldl BlockManager.freeBlock bm).Balanced fun x => owed x - ids.count x :=
  foldl_lower (P := Balanced) (fun _ _ _ hne h => h.freeBlock hne) hle hb

theorem Balanced.foldl_zeroFill (hb : bm.Balanced owed) (ids : List Nat) :
    (ids.foldl (fun bm bid => bm.modifyBlock bid BlockEntry.zeroFill) bm).Balanced owed := by
  induction ids generalizing bm with
  | nil => exact hb
  | cons b ids ih => exact ih (hb.zeroFill b)

variable (ids)

@[simp] theorem blockTables_foldl_zeroFill :
    (ids.foldl (fun bm bid => bm.modifyBlock bid BlockEntry.zeroFill) bm).blockTables =
      bm.blockTables :=
  foldl_frame fun _ _ => rfl

@[simp] theorem blockTables_foldl_increment :
    (ids.foldl BlockManager.incrementRefCount bm).blockTables = bm.blockTables :=
  foldl_frame fun _ _ => rfl

@[simp] theorem blockTables_foldl_freeBlock :
    (ids.foldl BlockManager.freeBlock bm).blockTables = bm.blockTables :=
  foldl_frame fun _ b => blockTables_freeBlock b

@[simp] theorem blockSize_foldl_freeBlock :
    (ids.foldl BlockManager.freeBlock bm).blockSize = bm.blockSize :=
  foldl_frame fun _ b => blockSize_freeBlock b

@[simp] theorem numBlocks_foldl_freeBlock :
    (ids.foldl BlockManager.freeBlock bm).numBlocks = bm.numBlocks :=
  foldl_frame fun _ b => numBlocks_freeBlock b

variable {ids}

/-! ## Tables and the references they show -/

theorem tableRefs_congr (h : bm'.blockTables = bm.blockTables) :
    bm'.tableRefs = bm.tableRefs := by
  funext b
  rw [tableRefs, tableRefs, h]

theorem table_congr (h : bm'.blockTables = bm.blockTables) (rid : String) :
    bm'.table rid = bm.table rid := by
  rw [table, table, h]

theorem table_eq_nil (h : bm.blockTables.lookup rid = none) :
    bm.table rid = [] := by
  rw [table, h, Option.getD_none]

theorem table_eq (h : bm.blockTables.lookup rid = some t) :
    bm.table rid = t := by
  rw [table, h, Option.getD_some]

/-- Writing a table moves the references by what it listed before. -/
theorem tableRefs_setTable (bm : BlockManager) (rid : String) (t : List Nat) (b : Nat) :
    (bm.setTable rid t).tableRefs b + (bm.table rid).count b = t.count b + bm.tableRefs b := by
  cases h : bm.blockTables.lookup rid with
  | none =>
    rw [table_eq_nil h, count_nil, add_zero]
    exact tableSum_insert_of_notMem h
  | some =>
    rw [table_eq h]
    exact tableSum_insert_of_mem h

theorem tableRefs_removeTable (h : bm.blockTables.lookup rid = some t) (b : Nat) :
    (bm.removeTable rid).tableRefs b + t.count b = bm.tableRefs b :=
  tableSum_erase h

theorem count_table_le (bm : BlockManager) (rid : String) (b : Nat) :
    (bm.table rid).count b ≤ bm.tableRefs b := by
  cases h : bm.blockTables.lookup rid with
  | none => simp [table_eq_nil h]
  | some =>
    rw [table_eq h]
    exact le_tableSum h

theorem tableRefs_pos (h : b ∈ bm.table rid) : 0 < bm.tableRefs b :=
  lt_of_lt_of_le (count_pos_iff.2 h) (count_table_le bm rid b)

theorem Exact.mem_table_lt (he : bm.Exact held) (h : b ∈ bm.table rid) : b < bm.numBlocks := by
  refine he.owed_valid b ?_
  have hpos := tableRefs_pos h
  show bm.tableRefs b + held b ≠ 0
  omega

@[simp] theorem lookup_setTable (rid : String) (t : List Nat) :
    (bm.setTable rid t).blockTables.lookup rid = some t := AList.lookup_insert _

theorem lookup_setTable_ne {rid' : String} (h : rid' ≠ rid) (t : List Nat) :
    (bm.setTable rid t).blockTables.lookup rid' = bm.blockTables.lookup rid' :=
  AList.lookup_insert_ne h

/-! ## Growing a table

`allocate` and `ensure_blocks` share their success path: pop `n` free ids and
append them to the table of the request. -/

variable (bm rid)

/-- The pool after `n` popped ids were appended to the table of `rid`. -/
def grow (n : Nat) (h : n ≤ bm.freeBlocks.length) : BlockManager :=
  (popBlocks n bm h).2.setTable rid (bm.table rid ++ (popBlocks n bm h).1)

theorem allocate_cases (numTokens : Nat) : (∃ e, bm.allocate rid numTokens = (.error e, bm) ∧ (rid ∈
    bm.blockTables ∨ bm.freeBlocks.length < numTokens ⌈/⌉ bm.blockSize)) ∨ ∃ h : numTokens ⌈/⌉
    bm.blockSize ≤ bm.freeBlocks.length, bm.blockTables.lookup rid = none ∧ bm.allocate rid
    numTokens = (.ok (popBlocks (numTokens ⌈/⌉ bm.blockSize) bm h).1, bm.grow rid (numTokens ⌈/⌉
    bm.blockSize) h) := by
  by_cases hmem : rid ∈ bm.blockTables
  · exact .inl ⟨bm.oom 0, by simp only [allocate, if_pos hmem], .inl hmem⟩
  · by_cases hfree : numTokens ⌈/⌉ bm.blockSize ≤ bm.freeBlocks.length
    · have hnone : bm.blockTables.lookup rid = none := AList.lookup_eq_none.2 hmem
      refine .inr ⟨hfree, hnone, ?_⟩
      simp only [allocate, if_neg hmem, dif_pos hfree, grow, table_eq_nil hnone, nil_append]
    · exact .inl ⟨bm.oom (numTokens ⌈/⌉ bm.blockSize),
        by simp only [allocate, if_neg hmem, dif_neg hfree], .inr (by omega)⟩

/-- A reservation changes nothing, or grows the table. -/
theorem ensureBlocks_cases (target : Nat) : (∃ e, bm.ensureBlocks rid target = (.error e, bm) ∧
    bm.freeBlocks.length < (target - (bm.table rid).length * bm.blockSize) ⌈/⌉ bm.blockSize) ∨
    (bm.ensureBlocks rid target = (.ok (), bm) ∧ target ≤ (bm.table rid).length * bm.blockSize) ∨ ∃
    h : (target - (bm.table rid).length * bm.blockSize) ⌈/⌉ bm.blockSize ≤ bm.freeBlocks.length,
    bm.ensureBlocks rid target =
    (.ok (), bm.grow rid ((target - (bm.table rid).length * bm.blockSize) ⌈/⌉ bm.blockSize) h) := by
  by_cases henough : target ≤ (bm.table rid).length * bm.blockSize
  · refine .inr (.inl ⟨?_, henough⟩)
    simp only [ensureBlocks]
    exact if_pos henough
  · by_cases hfree : (target - (bm.table rid).length * bm.blockSize) ⌈/⌉ bm.blockSize ≤
        bm.freeBlocks.length
    · refine .inr (.inr ⟨hfree, ?_⟩)
      simp only [ensureBlocks]
      exact (if_neg henough).trans (dif_pos hfree)
    · exact .inl ⟨_, by simp only [ensureBlocks]; exact (if_neg henough).trans (dif_neg hfree),
        Nat.lt_of_not_le hfree⟩

variable {bm rid}

theorem table_grow (rid : String) (n : Nat) (h : n ≤ bm.freeBlocks.length) :
    (bm.grow rid n h).table rid = bm.table rid ++ (popBlocks n bm h).1 :=
  table_eq (lookup_setTable ..)

theorem tableRefs_grow (rid : String) (n : Nat) (h : n ≤ bm.freeBlocks.length) (b : Nat) :
    (bm.grow rid n h).tableRefs b = bm.tableRefs b + (popBlocks n bm h).1.count b := by
  have hset := tableRefs_setTable (popBlocks n bm h).2 rid
    (bm.table rid ++ (popBlocks n bm h).1) b
  have htab : (popBlocks n bm h).2.blockTables = bm.blockTables := (popBlocks_frame n bm h).1
  rw [tableRefs_congr htab, table_congr htab, count_append] at hset
  change ((popBlocks n bm h).2.setTable rid _).tableRefs b = _
  omega

theorem Counted.grow (hc : bm.Counted fun b => bm.tableRefs b + held b) (rid : String) (n : Nat)
    (h : n ≤ bm.freeBlocks.length) :
    (bm.grow rid n h).Counted fun b => (bm.grow rid n h).tableRefs b + held b := by
  refine Lib.Counted.congr_owed (hc.popBlocks n h) fun b => ?_
  rw [tableRefs_grow]
  omega

theorem Exact.grow (he : bm.Exact held) (rid : String) (n : Nat)
    (h : n ≤ bm.freeBlocks.length) : (bm.grow rid n h).Exact held := by
  refine Lib.Balanced.congr_owed ((Balanced.popBlocks n he h).1.setTable rid _) fun b => ?_
  rw [tableRefs_grow]
  omega

/-! ## The operations on the ledger -/

theorem Counted.allocate (hc : bm.Counted fun b => bm.tableRefs b + held b) (rid : String)
    (n : Nat) :
    (bm.allocate rid n).2.Counted fun b => (bm.allocate rid n).2.tableRefs b + held b := by
  rcases bm.allocate_cases rid n with ⟨e, heq, -⟩ | ⟨h, -, heq⟩
  · rw [heq]
    exact hc
  · rw [heq]
    exact hc.grow rid _ h

theorem Exact.allocate (he : bm.Exact held) (rid : String) (n : Nat) :
    (bm.allocate rid n).2.Exact held := by
  rcases bm.allocate_cases rid n with ⟨e, heq, -⟩ | ⟨h, -, heq⟩
  · rw [heq]
    exact he
  · rw [heq]
    exact he.grow rid _ h

theorem Exact.allocate_fresh (he : bm.Exact held) {n : Nat}
    (hok : (bm.allocate rid n).1 = .ok ids) :
    ids.Nodup ∧ ∀ b ∈ ids, bm.tableRefs b + held b = 0 := by
  rcases bm.allocate_cases rid n with ⟨e, heq, -⟩ | ⟨h, -, heq⟩
  · rw [heq] at hok
    cases hok
  · rw [heq] at hok
    cases hok
    exact (Balanced.popBlocks _ he h).2

theorem Exact.ensureBlocks (he : bm.Exact held) (rid : String) (target : Nat) :
    (bm.ensureBlocks rid target).2.Exact held := by
  rcases bm.ensureBlocks_cases rid target with ⟨e, heq, -⟩ | ⟨heq, -⟩ | ⟨h, heq⟩
  · rw [heq]
    exact he
  · rw [heq]
    exact he
  · rw [heq]
    exact he.grow rid _ h

theorem Exact.ensureBlocks_fresh (he : bm.Exact held) (rid : String) (target : Nat) :
    ∃ extra, (bm.ensureBlocks rid target).2.table rid = bm.table rid ++ extra ∧
      extra.Nodup ∧ ∀ b ∈ extra, bm.tableRefs b + held b = 0 := by
  rcases bm.ensureBlocks_cases rid target with ⟨e, heq, -⟩ | ⟨heq, -⟩ | ⟨h, heq⟩
  · rw [heq]
    exact ⟨[], by simp⟩
  · rw [heq]
    exact ⟨[], by simp⟩
  · rw [heq]
    obtain ⟨-, hnodup, hidle⟩ := Balanced.popBlocks _ he h
    exact ⟨_, table_grow rid _ h, hnodup, hidle⟩

theorem Counted.free (hc : bm.Counted fun b => bm.tableRefs b + held b) (rid : String) :
    (bm.free rid).Counted fun b => (bm.free rid).tableRefs b + held b := by
  cases h : bm.blockTables.lookup rid with
  | none => simpa only [BlockManager.free, h] using hc
  | some t =>
    have hrefs := tableRefs_removeTable h
    have hremoved : (bm.removeTable rid).Counted fun b => bm.tableRefs b + held b := hc
    have hle : ∀ b, t.count b ≤ bm.tableRefs b + held b := fun b => by
      have := hrefs b
      omega
    have hreleased := hremoved.foldl_freeBlock hle
    simp only [BlockManager.free, h]
    refine Lib.Counted.congr_owed hreleased fun b => ?_
    rw [tableRefs_congr (blockTables_foldl_freeBlock t)]
    have := hrefs b
    omega

theorem Exact.free (he : bm.Exact held) (rid : String) : (bm.free rid).Exact held := by
  cases h : bm.blockTables.lookup rid with
  | none => simpa only [BlockManager.free, h] using he
  | some t =>
    have hrefs := tableRefs_removeTable h
    have hremoved : (bm.removeTable rid).Balanced fun b => bm.tableRefs b + held b := he
    have hle : ∀ b, t.count b ≤ bm.tableRefs b + held b := fun b => by
      have := hrefs b
      omega
    have hreleased := hremoved.foldl_freeBlock hle
    simp only [BlockManager.free, h]
    refine Lib.Balanced.congr_owed hreleased fun b => ?_
    rw [tableRefs_congr (blockTables_foldl_freeBlock t)]
    have := hrefs b
    omega

theorem Exact.flushRequest (he : bm.Exact held) (rid : String) :
    (bm.flushRequest rid).Exact held := by
  cases h : bm.blockTables.lookup rid with
  | none => simpa only [BlockManager.flushRequest, h] using he
  | some t =>
    have hzeroed := Balanced.foldl_zeroFill he t
    simp only [BlockManager.flushRequest, h]
    refine Exact.free (Lib.Balanced.congr_owed hzeroed fun b => ?_) rid
    rw [tableRefs_congr (blockTables_foldl_zeroFill t)]

theorem Exact.retainInto (he : bm.Exact held) (rid : String)
    (hids : ∀ b ∈ ids, bm.tableRefs b + held b ≠ 0) :
    ((ids.foldl BlockManager.incrementRefCount bm).setTable rid
      (ids ++ bm.table rid)).Exact held := by
  have hraised := Balanced.foldl_increment he hids
  refine Lib.Balanced.congr_owed (hraised.setTable rid _) fun b => ?_
  have hset := tableRefs_setTable (ids.foldl BlockManager.incrementRefCount bm) rid
    (ids ++ bm.table rid) b
  rw [tableRefs_congr (blockTables_foldl_increment ids),
    table_congr (blockTables_foldl_increment ids), count_append] at hset
  omega

theorem Exact.assignCachedBlocks (he : bm.Exact held) (rid : String)
    (hids : ∀ b ∈ ids, bm.tableRefs b + held b ≠ 0) :
    (bm.assignCachedBlocks rid ids).Exact held :=
  he.retainInto rid hids

theorem shareRefs_of_lt (h : ∀ b ∈ ids, b < bm.numBlocks) :
    shareRefs ids bm = (.ok (), ids.foldl BlockManager.incrementRefCount bm) := by
  induction ids generalizing bm with
  | nil => rfl
  | cons b ids ih =>
    have hb : b < bm.blocks.length := h b mem_cons_self
    simp only [shareRefs, if_pos hb, foldl_cons]
    refine ih fun x hx => ?_
    rw [show (bm.incrementRefCount b).numBlocks = bm.numBlocks from numBlocks_modifyRef ..]
    exact h x (mem_cons_of_mem b hx)

theorem Exact.sharePrefix_cases (he : bm.Exact held) (src dst : String) (n : Nat) :
    (∃ e, bm.sharePrefix src dst n = (.error e, bm)) ∨
    (bm.blockTables.lookup dst = none ∧ n ⌈/⌉ bm.blockSize ≤ (bm.table src).length ∧
      bm.sharePrefix src dst n = (.ok ((bm.table src).take (n ⌈/⌉ bm.blockSize)),
          (((bm.table src).take (n ⌈/⌉ bm.blockSize)).foldl
            BlockManager.incrementRefCount bm).setTable dst
              ((bm.table src).take (n ⌈/⌉ bm.blockSize)))) := by
  cases h : bm.blockTables.lookup src with
  | none => exact .inl ⟨_, by simp only [BlockManager.sharePrefix, h]; rfl⟩
  | some t =>
    by_cases hmem : dst ∈ bm.blockTables
    · exact .inl ⟨_, by simp only [BlockManager.sharePrefix, h]; exact if_pos hmem⟩
    · by_cases hlen : t.length < n ⌈/⌉ bm.blockSize
      · exact .inl ⟨_, by
          simp only [BlockManager.sharePrefix, h]
          exact (if_neg hmem).trans (if_pos hlen)⟩
      · have hlt : ∀ b ∈ t.take (n ⌈/⌉ bm.blockSize), b < bm.numBlocks := by
          intro b hb
          have hmem : b ∈ bm.table src := by
            rw [table_eq h]
            exact mem_of_mem_take hb
          exact he.mem_table_lt hmem
        refine .inr ⟨AList.lookup_eq_none.2 hmem, ?_⟩
        rw [table_eq h]
        refine ⟨by omega, ?_⟩
        simp only [BlockManager.sharePrefix, h]
        refine (if_neg hmem).trans ((if_neg hlen).trans ?_)
        simp only [shareRefs_of_lt hlt]

theorem Exact.sharePrefix (he : bm.Exact held) (src dst : String) (n : Nat) :
    (bm.sharePrefix src dst n).2.Exact held := by
  rcases he.sharePrefix_cases src dst n with ⟨e, heq⟩ | ⟨hdst, -, heq⟩
  · rw [heq]
    exact he
  · rw [heq]
    have hused : ∀ b ∈ (bm.table src).take (n ⌈/⌉ bm.blockSize), bm.tableRefs b + held b ≠ 0 := by
      intro b hb
      have hpos := tableRefs_pos (mem_of_mem_take hb)
      omega
    have hretained := he.retainInto dst hused
    rwa [table_eq_nil hdst, append_nil] at hretained

theorem Exact.incrementRefCount (he : bm.Exact held) (h : bm.tableRefs bid + held bid ≠ 0) :
    (bm.incrementRefCount bid).Exact fun b => held b + if b = bid then 1 else 0 := by
  refine Lib.Balanced.congr_owed (Balanced.incrementRefCount he h) fun b => ?_
  change bm.tableRefs b + (held b + if b = bid then 1 else 0) = _
  omega

theorem Exact.freeBlock (he : bm.Exact held) (h : held bid ≠ 0) :
    (bm.freeBlock bid).Exact fun b => held b - if b = bid then 1 else 0 := by
  have howed : bm.tableRefs bid + held bid ≠ 0 := by omega
  refine Lib.Balanced.congr_owed (Balanced.freeBlock he howed) fun b => ?_
  rw [tableRefs_congr (blockTables_freeBlock bid)]
  show bm.tableRefs b + (held b - if b = bid then 1 else 0) = _
  by_cases hb : b = bid
  · subst hb
    simp only [if_true]
    omega
  · simp only [if_neg hb, Nat.sub_zero]

end CompileForge.Runtime.BlockManager
