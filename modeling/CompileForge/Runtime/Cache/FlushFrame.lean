/-
  What `flush_request` does to the blocks that others still use.

  Every block of the table is filled with zeros before its references are given back, also
  one that another table lists or that keeps references afterwards.
-/

import CompileForge.Runtime.Cache.BlockTables

namespace CompileForge.Runtime.BlockManager

open Lib List

variable {bm bm' : BlockManager} {ids : List Nat} {rid : String} {hiddenDim : Nat}

/-! ## Contents -/

/-- Both buffers of a block, `none` inside for a block without buffers. -/
def contents (bm : BlockManager) (bid : Nat) : Option (Option (List F32 × List F32)) :=
  bm.blocks[bid]?.map fun
    | .plain _ => none
    | .cached kv => some (kv.keyCache, kv.valueCache)

theorem readRows_congr_contents {poss : List Nat} {out : List F32 × List F32}
    (hsize : bm'.blockSize = bm.blockSize) (hcontents : ∀ b ∈ ids, bm'.contents b = bm.contents b) :
    readRows bm' ids hiddenDim poss out = readRows bm ids hiddenDim poss out := by
  induction poss generalizing out with
  | nil => rfl
  | cons pos poss ih =>
    simp only [readRows, hsize]
    cases hb : ids[pos / bm.blockSize]? with
    | none => rfl
    | some b =>
      have hsame := hcontents b (mem_of_getElem? hb)
      unfold contents at hsame
      simp only
      -- the two entries are of one kind and hold the same
      rcases h : bm.blocks[b]? with _ | ⟨block⟩ | ⟨kv⟩ <;>
        rcases h' : bm'.blocks[b]? with _ | ⟨block'⟩ | ⟨kv'⟩ <;>
        simp only [h, h', Option.map_none, Option.map_some, reduceCtorEq, Option.some_inj,
          Prod.mk.injEq] at hsame
      · rfl
      · rfl
      · simp only [hsame.1, hsame.2, ih]

theorem readKv_congr_contents {n : Nat} (hsize : bm'.blockSize = bm.blockSize)
    (htable : bm'.blockTables.lookup rid = bm.blockTables.lookup rid)
    (hcontents : ∀ b ∈ bm.table rid, bm'.contents b = bm.contents b) :
    bm'.readKv rid n hiddenDim = bm.readKv rid n hiddenDim := by
  unfold readKv getBlocks
  rw [htable]
  cases hlookup : bm.blockTables.lookup rid with
  | none => rfl
  | some =>
    rw [table_eq hlookup] at hcontents
    exact readRows_congr_contents hsize hcontents

theorem contents_modifyRef (bid : Nat) (f : Nat → Nat) (b : Nat) :
    (bm.modifyRef bid f).contents b = bm.contents b := by
  rw [contents, contents, modifyRef, getElem?_modifyBlock]
  split
  · rw [Option.map_map]
    refine congrArg (fun g => bm.blocks[b]?.map g) (funext fun e => ?_)
    cases e <;> rfl
  · rfl

theorem contents_freeBlock (bid b : Nat) : (bm.freeBlock bid).contents b = bm.contents b := by
  unfold freeBlock
  split
  · dsimp only
    split <;> exact contents_modifyRef bid (· - 1) b
  · rfl

variable (ids : List Nat)

theorem contents_foldl_freeBlock (bm : BlockManager) (b : Nat) :
    (ids.foldl freeBlock bm).contents b = bm.contents b := by
  induction ids generalizing bm with
  | nil => rfl
  | cons id ids ih => rw [foldl_cons, ih, contents_freeBlock]

theorem refCount_foldl_freeBlock (bm : BlockManager) {b : Nat}
    (hb : b < bm.numBlocks) :
    (ids.foldl freeBlock bm).refCount b = bm.refCount b - ids.count b := by
  induction ids generalizing bm with
  | nil => rfl
  | cons id ids ih =>
    rw [foldl_cons, ih _ (by rwa [numBlocks_freeBlock]), count_cons]
    by_cases hid : id < bm.numBlocks
    · rw [(freeBlock_of_lt hid).1 b hb]
      by_cases heq : b = id
      · subst heq
        simp only [beq_self_eq_true, if_true]
        omega
      · have hne : (id == b) = false := beq_eq_false_iff_ne.2 (Ne.symm heq)
        simp only [hne, Bool.false_eq_true, if_false, if_neg heq]
        omega
    · rw [freeBlock_of_not_lt hid]
      have hne : (id == b) = false := beq_eq_false_iff_ne.2 fun h => hid (h ▸ hb)
      simp only [hne, Bool.false_eq_true, if_false, Nat.add_zero]

/-! ## Zero filling -/

/-- The contents behind `fill(0.0)`. -/
def zeroes : Option (List F32 × List F32) → Option (List F32 × List F32) :=
  Option.map fun c => (replicate c.1.length 0, replicate c.2.length 0)

theorem zeroes_zeroes (c : Option (List F32 × List F32)) : zeroes (zeroes c) = zeroes c := by
  cases c with
  | none => rfl
  | some => simp only [zeroes, Option.map_some, length_replicate]

/-- The buffers of a block, if it has any, hold zeros. -/
def Zeroed (bm : BlockManager) (b : Nat) : Prop :=
  ∀ keys values, bm.contents b = some (some (keys, values)) →
    (∀ x ∈ keys, x = 0) ∧ ∀ x ∈ values, x = 0

theorem zeroed_iff (b : Nat) : bm.Zeroed b ↔ (bm.contents b).map zeroes = bm.contents b := by
  unfold Zeroed
  rcases bm.contents b with _ | _ | ⟨keys, values⟩
  · exact ⟨fun _ => rfl, fun _ _ _ h => (nomatch h)⟩
  · exact ⟨fun _ => rfl, fun _ _ _ h => (nomatch h)⟩
  · simp only [zeroes, Option.map_some, Option.some_inj, Prod.mk.injEq, eq_comm (b := keys),
      eq_comm (b := values), eq_replicate_iff, true_and]
    exact ⟨fun h => h keys values ⟨rfl, rfl⟩, fun h _ _ heq => heq.1 ▸ heq.2 ▸ h⟩

theorem contents_foldl_zeroFill (bm : BlockManager) (b : Nat) :
    (ids.foldl (fun bm bid => bm.modifyBlock bid BlockEntry.zeroFill) bm).contents b =
      if b ∈ ids then (bm.contents b).map zeroes else bm.contents b := by
  induction ids generalizing bm with
  | nil => rfl
  | cons id ids ih =>
    have hone : (bm.modifyBlock id BlockEntry.zeroFill).contents b =
        if id = b then (bm.contents b).map zeroes else bm.contents b := by
      rw [contents, contents, getElem?_modifyBlock]
      split
      · rw [Option.map_map, Option.map_map]
        refine congrArg (fun g => bm.blocks[b]?.map g) (funext fun e => ?_)
        cases e <;> rfl
      · rfl
    rw [foldl_cons, ih, hone]
    by_cases hid : id = b
    · subst hid
      rw [if_pos rfl, if_pos mem_cons_self, Option.map_map]
      split
      · exact congrArg (fun g => (bm.contents id).map g) (funext zeroes_zeroes)
      · rfl
    · rw [if_neg hid]
      by_cases hmem : b ∈ ids
      · rw [if_pos hmem, if_pos (mem_cons_of_mem id hmem)]
      · rw [if_neg hmem, if_neg]
        intro h
        rcases mem_cons.1 h with rfl | h
        · exact hid rfl
        · exact hmem h

theorem refCount_foldl_zeroFill (bm : BlockManager) (b : Nat) :
    (ids.foldl (fun bm bid => bm.modifyBlock bid BlockEntry.zeroFill) bm).refCount b =
      bm.refCount b := by
  induction ids generalizing bm with
  | nil => rfl
  | cons id ids ih => rw [foldl_cons, ih, refCount_modifyBlock_zeroFill]

theorem numBlocks_foldl_zeroFill (bm : BlockManager) :
    (ids.foldl (fun bm bid => bm.modifyBlock bid BlockEntry.zeroFill) bm).numBlocks =
      bm.numBlocks := by
  induction ids generalizing bm with
  | nil => rfl
  | cons id ids ih => rw [foldl_cons, ih, numBlocks_modifyBlock]

/-! ## The flush -/

theorem contents_flushRequest (bm : BlockManager) (rid : String) (b : Nat) :
    (bm.flushRequest rid).contents b =
      if b ∈ bm.table rid then (bm.contents b).map zeroes else bm.contents b := by
  cases h : bm.blockTables.lookup rid with
  | none =>
    simp only [flushRequest, h, table_eq_nil h, not_mem_nil, if_false]
  | some ids =>
    simp only [flushRequest, free, h, blockTables_foldl_zeroFill, table_eq h]
    rw [contents_foldl_freeBlock]
    exact contents_foldl_zeroFill ids bm b

theorem refCount_flushRequest (bm : BlockManager) (rid : String) {b : Nat} (hb : b < bm.numBlocks) :
    (bm.flushRequest rid).refCount b = bm.refCount b - (bm.table rid).count b := by
  cases h : bm.blockTables.lookup rid with
  | none =>
    simp only [flushRequest, h, table_eq_nil h, count_nil, Nat.sub_zero]
  | some ids =>
    simp only [flushRequest, free, h, blockTables_foldl_zeroFill, table_eq h]
    have hpool := numBlocks_foldl_zeroFill ids bm
    rw [refCount_foldl_freeBlock ids _ (hpool ▸ hb)]
    exact congrArg (· - ids.count b) (refCount_foldl_zeroFill ids bm b)

theorem table_flushRequest (bm : BlockManager) (rid rid' : String) :
    (bm.flushRequest rid).table rid' = if rid' = rid then [] else bm.table rid' := by
  have hfree : (bm.flushRequest rid).table rid' = (bm.free rid).table rid' := by
    rw [table, table, blockTables_flushRequest]
  rw [hfree]
  split
  · next h => rw [h, table_free_self]
  · next h => exact table_free_ne h

/-- A block somebody holds: a table lists it, or references to it are counted. -/
def HasHolder (bm : BlockManager) (b : Nat) : Prop :=
  (∃ r, b ∈ bm.table r) ∨ 0 < bm.refCount b

/-- The reads of the others, and the blocks that keep a holder, are as they were. -/
def FlushIsolated (bm : BlockManager) (rid : String) : Prop :=
  (∀ r, r ≠ rid → ∀ n hiddenDim,
    (bm.flushRequest rid).readKv r n hiddenDim = bm.readKv r n hiddenDim) ∧
  ∀ b, (bm.flushRequest rid).HasHolder b → (bm.flushRequest rid).contents b = bm.contents b

/-- The blocks that keep a holder hold zeros. -/
def FlushSafe (bm : BlockManager) (rid : String) : Prop :=
  ∀ b ∈ bm.table rid,
    ((∃ r, r ≠ rid ∧ b ∈ bm.table r) ∨ (bm.table rid).count b < bm.refCount b) → bm.Zeroed b

theorem hasHolder_flushRequest {b : Nat} (hb : b < bm.numBlocks) :
    (bm.flushRequest rid).HasHolder b ↔
      (∃ r, r ≠ rid ∧ b ∈ bm.table r) ∨ (bm.table rid).count b < bm.refCount b := by
  unfold HasHolder
  rw [refCount_flushRequest bm rid hb, Nat.sub_pos_iff_lt]
  refine or_congr_left (exists_congr fun r => ?_)
  rw [table_flushRequest]
  split
  · next h => simp only [h, not_mem_nil, ne_eq, not_true, false_and]
  · next h => exact ⟨fun hmem => ⟨h, hmem⟩, fun hmem => hmem.2⟩

theorem zeroed_of_not_lt {b : Nat} (hb : ¬ b < bm.numBlocks) : bm.Zeroed b := by
  intro keys values h
  rw [contents, getElem?_eq_none (Nat.le_of_not_lt hb)] at h
  exact nomatch h

/-- `flush_request` disturbs no other holder exactly when the blocks that keep one were zero. -/
theorem flushRequest_isolated_iff (bm : BlockManager) (rid : String) :
    bm.FlushIsolated rid ↔ bm.FlushSafe rid := by
  constructor
  · rintro ⟨-, hkept⟩ b hmem hholder
    by_cases hb : b < bm.numBlocks
    · have hsame := hkept b ((hasHolder_flushRequest hb).2 hholder)
      rw [contents_flushRequest, if_pos hmem] at hsame
      exact (zeroed_iff b).2 hsame
    · exact zeroed_of_not_lt hb
  · intro hsafe
    have hkept : ∀ b, (bm.flushRequest rid).HasHolder b →
        (bm.flushRequest rid).contents b = bm.contents b := by
      intro b hholder
      rw [contents_flushRequest]
      split
      · next hmem =>
        refine (zeroed_iff b).1 ?_
        by_cases hb : b < bm.numBlocks
        · exact hsafe b hmem ((hasHolder_flushRequest hb).1 hholder)
        · exact zeroed_of_not_lt hb
      · rfl
    -- another request reads only blocks that its own table holds
    refine ⟨fun r hr n hiddenDim => ?_, hkept⟩
    have htable : (bm.flushRequest rid).table r = bm.table r := by
      rw [table_flushRequest, if_neg hr]
    refine readKv_congr_contents (blockSize_flushRequest bm rid) ?_ fun b hmem => ?_
    · rw [blockTables_flushRequest, lookup_free, if_neg hr]
    · exact hkept b (.inl ⟨r, htable ▸ hmem⟩)

/-- Request `b` shares the only block of request `a`; the flush of `a` zeroes what `b` reads. -/
theorem flushRequest_isolated_fails :
    ∃ bm₀ ids bm₁ bm₂ shared bm₃, newWithCache 2 1 1 1 = .ok bm₀ ∧
      bm₀.allocate "a" 1 = (.ok ids, bm₁) ∧
      bm₁.writeKv "a" 0 [⟨7⟩] 1 true = some (.ok (), bm₂) ∧
      bm₂.sharePrefix "a" "b" 1 = (.ok shared, bm₃) ∧ ¬ bm₃.FlushIsolated "a" := by
  obtain ⟨bm₀, ids, bm₁, bm₂, shared, bm₃, hnew, hallocate, hwrite, hshare, hbefore, hafter⟩ :
      ∃ bm₀ ids bm₁ bm₂ shared bm₃, newWithCache 2 1 1 1 = .ok bm₀ ∧
      bm₀.allocate "a" 1 = (.ok ids, bm₁) ∧
      bm₁.writeKv "a" 0 [⟨7⟩] 1 true = some (.ok (), bm₂) ∧
      bm₂.sharePrefix "a" "b" 1 = (.ok shared, bm₃) ∧
      bm₃.readKv "b" 1 1 = some (.ok ([⟨7⟩], [0])) ∧
      (bm₃.flushRequest "a").readKv "b" 1 1 = some (.ok ([0], [0])) :=
    ⟨_, _, _, _, _, _, rfl, rfl, rfl, rfl, rfl, rfl⟩
  refine ⟨bm₀, ids, bm₁, bm₂, shared, bm₃, hnew, hallocate, hwrite, hshare, ?_⟩
  rintro ⟨hread, -⟩
  have hsame := hread "b" (by decide) 1 1
  rw [hafter, hbefore] at hsame
  exact absurd hsame (by decide)

end CompileForge.Runtime.BlockManager
