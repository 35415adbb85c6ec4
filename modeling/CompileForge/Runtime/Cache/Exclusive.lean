/-
  Blocks that may still be written have one holder.  This is kept by every operation, the
  sharing ones on condition that the blocks to be shared are `Settled`.  A write through a
  table into blocks with one holder is invisible everywhere else.
-/

import CompileForge.Runtime.Cache.WriteFrame

namespace CompileForge.Runtime.BlockManager

open Lib List

variable {bm bm' : BlockManager} {held : Nat → Nat} {stake stake' : String → Nat → Prop}
  {rid : String} {ids : List Nat}

variable (bm held stake)

/-- The block has one holder among the tables and the external holds. -/
def Sole (b : Nat) : Prop := bm.tableRefs b + held b = 1

/-- The ledger is exact, and every block at stake has one holder. -/
structure Exclusive : Prop where
  exact : bm.Exact held
  sole : ∀ rid i b, stake rid i → (bm.table rid)[i]? = some b → bm.Sole held b

/-- The block is at stake for nobody. -/
def Settled (b : Nat) : Prop :=
  ∀ rid i, stake rid i → (bm.table rid)[i]? ≠ some b

variable {bm held stake}

theorem Exclusive.mono (h : bm.Exclusive held stake) (hle : ∀ rid i, stake' rid i → stake rid i) :
    bm.Exclusive held stake' :=
  ⟨h.exact, fun rid i b hi hb => h.sole rid i b (hle rid i hi) hb⟩

theorem Exclusive.restake (h : bm.Exclusive held stake) (hnone : bm.blockTables.lookup rid = none)
    (hle : ∀ rid' ≠ rid, ∀ i, stake' rid' i → stake rid' i) : bm.Exclusive held stake' := by
  refine ⟨h.exact, fun rid' i b hi hb => ?_⟩
  by_cases hrid : rid' = rid
  · rw [hrid, table_eq_nil hnone] at hb
    cases hb
  · exact h.sole rid' i b (hle rid' hrid i hi) hb

variable {b bid : Nat}

theorem Settled.restake (h : bm.Settled stake b)
    (hnone : bm.blockTables.lookup rid = none)
    (hle : ∀ rid' ≠ rid, ∀ i, stake' rid' i → stake rid' i) : bm.Settled stake' b := by
  intro rid' i hi hb
  by_cases hrid : rid' = rid
  · rw [hrid, table_eq_nil hnone] at hb
    cases hb
  · exact h rid' i (hle rid' hrid i hi) hb

instance decidableSettled {b : Nat} [∀ rid i, Decidable (stake rid i)] :
    Decidable (bm.Settled stake b) :=
  decidable_of_iff (∀ rid ∈ bm.blockTables.keys, ∀ i < (bm.table rid).length,
      stake rid i → (bm.table rid)[i]? ≠ some b) <| by
    constructor
    · intro h rid i hi hb
      have hlt : i < (bm.table rid).length := (List.getElem?_eq_some_iff.1 hb).1
      refine h rid ?_ i hlt hi hb
      by_contra hkey
      rw [table_eq_nil (AList.lookup_eq_none.2 (mt AList.mem_keys.1 hkey))] at hlt
      exact Nat.not_lt_zero i hlt
    · intro h rid _ i _ hi
      exact h rid i hi

section Exclusive

variable (h : bm.Exclusive held stake)
include h

theorem Exclusive.settled_of_held (hheld : held b ≠ 0) : bm.Settled stake b := by
  intro rid i hi hb
  have hsole : bm.tableRefs b + held b = 1 := h.sole rid i b hi hb
  have hpos := tableRefs_pos (mem_of_getElem? hb)
  omega

theorem Exclusive.sameLedger (hsame : SameLedger bm bm') : bm'.Exclusive held stake := by
  refine ⟨hsame.exact h.exact, fun rid i b hi hb => ?_⟩
  rw [hsame.table_eq] at hb
  have hsole : bm.tableRefs b + held b = 1 := h.sole rid i b hi hb
  show bm'.tableRefs b + held b = 1
  rw [tableRefs_congr hsame.blockTables_eq]
  exact hsole

theorem Exclusive.refCount_eq_one (hb : bm.Sole held b) : bm.refCount b = 1 := by
  have hsole : bm.tableRefs b + held b = 1 := hb
  have hvalid : b < bm.numBlocks := by
    refine h.exact.owed_valid b ?_
    show bm.tableRefs b + held b ≠ 0
    omega
  exact (h.exact.counts b hvalid).trans hsole

/-! ## Reserving and releasing -/

theorem Exclusive.grows (hgrows : bm.Grows rid bm') : bm'.Exclusive held stake := by
  refine ⟨hgrows.exact h.exact, fun rid' i b hi hb => ?_⟩
  rcases hgrows with rfl | ⟨n, hn, rfl⟩
  · exact h.sole rid' i b hi hb
  · obtain ⟨-, hnodup, hidle⟩ := Balanced.popBlocks n h.exact hn
    show (bm.grow rid n hn).tableRefs b + held b = 1
    rw [tableRefs_grow]
    have hold : (bm.table rid')[i]? = some b →
        bm.tableRefs b + (popBlocks n bm hn).1.count b + held b = 1 := by
      intro hb
      have hsole : bm.tableRefs b + held b = 1 := h.sole rid' i b hi hb
      have hfresh : (popBlocks n bm hn).1.count b = 0 := by
        refine count_eq_zero.2 fun hmem => ?_
        have := hidle b hmem
        omega
      omega
    by_cases hrid : rid' = rid
    · subst hrid
      rw [table_grow] at hb
      by_cases hlt : i < (bm.table rid').length
      · rw [getElem?_append_left hlt] at hb
        exact hold hb
      · rw [getElem?_append_right (Nat.le_of_not_lt hlt)] at hb
        have hmem := mem_of_getElem? hb
        have hzero := hidle b hmem
        have hone := count_eq_one_of_mem hnodup hmem
        omega
    · rw [table_grow_ne hrid] at hb
      exact hold hb

theorem Exclusive.sole_of_grows (hgrows : bm.Grows rid bm')
    (hb : bm.Sole held b) : bm'.Sole held b := by
  rcases hgrows with rfl | ⟨n, hn, rfl⟩
  · exact hb
  · obtain ⟨-, -, hidle⟩ := Balanced.popBlocks n h.exact hn
    have hsole : bm.tableRefs b + held b = 1 := hb
    show (bm.grow rid n hn).tableRefs b + held b = 1
    have hfresh : (popBlocks n bm hn).1.count b = 0 := by
      refine count_eq_zero.2 fun hmem => ?_
      have := hidle b hmem
      omega
    rw [tableRefs_grow]
    omega

theorem Exclusive.release (hexact : bm'.Exact held)
    (htables : bm'.blockTables = (bm.free rid).blockTables) : bm'.Exclusive held stake := by
  refine ⟨hexact, fun rid' i b hi hb => ?_⟩
  rw [table_congr htables] at hb
  have hrefs := tableRefs_free bm rid b
  show bm'.tableRefs b + held b = 1
  rw [tableRefs_congr htables]
  by_cases hrid : rid' = rid
  · rw [hrid, table_free_self] at hb
    cases hb
  · rw [table_free_ne hrid] at hb
    have hsole : bm.tableRefs b + held b = 1 := h.sole rid' i b hi hb
    -- the other table holds the only reference
    have hboth := count_table_add_le bm hrid b
    have hpos := count_pos_iff.2 (mem_of_getElem? hb)
    omega

theorem Exclusive.free (rid : String) :
    (bm.free rid).Exclusive held stake := h.release (h.exact.free rid) rfl

theorem Exclusive.flushRequest (rid : String) : (bm.flushRequest rid).Exclusive held stake :=
  h.release (h.exact.flushRequest rid) (blockTables_flushRequest bm rid)

/-! ## Sharing -/

theorem Exclusive.share (hexact : bm'.Exact held) (hnone : bm.blockTables.lookup rid = none)
    (htables : bm'.blockTables = (bm.setTable rid ids).blockTables)
    (hsettled : ∀ b ∈ ids, bm.Settled stake b) (hown : ∀ i < ids.length, ¬ stake rid i) :
    bm'.Exclusive held stake := by
  refine ⟨hexact, fun rid' i b hi hb => ?_⟩
  have hrefs := tableRefs_setTable bm rid ids b
  rw [table_eq_nil hnone, count_nil, add_zero] at hrefs
  rw [table_congr htables] at hb
  show bm'.tableRefs b + held b = 1
  rw [tableRefs_congr htables, hrefs]
  by_cases hrid : rid' = rid
  · subst hrid
    rw [table_eq (lookup_setTable ..)] at hb
    exact absurd hi (hown i (List.getElem?_eq_some_iff.1 hb).1)
  · have hold : (bm.setTable rid ids).table rid' = bm.table rid' :=
      table_eq_of_lookup (lookup_setTable_ne hrid ids)
    rw [hold] at hb
    have hsole : bm.tableRefs b + held b = 1 := h.sole rid' i b hi hb
    have hfresh : ids.count b = 0 :=
      count_eq_zero.2 fun hmem => hsettled b hmem rid' i hi hb
    omega

end Exclusive

theorem blockTables_assignCachedBlocks (hnone : bm.blockTables.lookup rid = none) :
    (bm.assignCachedBlocks rid ids).blockTables = (bm.setTable rid ids).blockTables := by
  show (ids.foldl incrementRefCount bm).blockTables.insert rid (ids ++ bm.table rid) =
    bm.blockTables.insert rid ids
  rw [blockTables_foldl_increment, table_eq_nil hnone, append_nil]

theorem blockSize_assignCachedBlocks (rid : String) (ids : List Nat) :
    (bm.assignCachedBlocks rid ids).blockSize = bm.blockSize := by
  show (ids.foldl incrementRefCount bm).blockSize = bm.blockSize
  exact foldl_frame fun _ _ => rfl

theorem Exclusive.assignCachedBlocks (h : bm.Exclusive held stake)
    (hnone : bm.blockTables.lookup rid = none) (hused : ∀ b ∈ ids, bm.tableRefs b + held b ≠ 0)
    (hsettled : ∀ b ∈ ids, bm.Settled stake b) (hown : ∀ i < ids.length, ¬ stake rid i) :
    (bm.assignCachedBlocks rid ids).Exclusive held stake := by
  exact h.share (h.exact.assignCachedBlocks rid hused) hnone
    (blockTables_assignCachedBlocks hnone) hsettled hown

theorem Exclusive.sharePrefix (h : bm.Exclusive held stake) (src dst : String) {n : Nat}
    (hsettled : ∀ b ∈ (bm.table src).take (n ⌈/⌉ bm.blockSize), bm.Settled stake b)
    (hown : ∀ i < n ⌈/⌉ bm.blockSize, ¬ stake dst i) :
    (bm.sharePrefix src dst n).2.Exclusive held stake := by
  have hexact := h.exact.sharePrefix src dst n
  rcases h.exact.sharePrefix_cases src dst n with ⟨e, heq⟩ | ⟨hnone, hlen, heq⟩
  · rw [heq]
    exact h
  · rw [heq] at hexact ⊢
    refine h.share hexact hnone ?_ hsettled fun i hi => hown i ?_
    · show AList.insert dst _ (foldl incrementRefCount bm _).blockTables = _
      rw [blockTables_foldl_increment]
      rfl
    · exact lt_of_lt_of_le hi (length_take_le _ _)

theorem Settled.share (h : bm.Settled stake b)
    (htables : bm'.blockTables = (bm.setTable rid ids).blockTables)
    (hown : ∀ i < ids.length, ¬ stake rid i) : bm'.Settled stake b := by
  intro rid' i hi hb
  rw [table_congr htables] at hb
  by_cases hrid : rid' = rid
  · subst hrid
    rw [table_eq (lookup_setTable ..)] at hb
    exact hown i (List.getElem?_eq_some_iff.1 hb).1 hi
  · have hold : (bm.setTable rid ids).table rid' = bm.table rid' :=
      table_eq_of_lookup (lookup_setTable_ne hrid ids)
    rw [hold] at hb
    exact h rid' i hi hb

theorem Exclusive.incrementRefCount (h : bm.Exclusive held stake)
    (hused : bm.tableRefs bid + held bid ≠ 0) (hsettled : bm.Settled stake bid) :
    (bm.incrementRefCount bid).Exclusive (fun b => held b + if b = bid then 1 else 0) stake := by
  refine ⟨h.exact.incrementRefCount hused, fun rid i b hi hb => ?_⟩
  have hne : b ≠ bid := by
    rintro rfl
    exact hsettled rid i hi hb
  have hsole : bm.tableRefs b + held b = 1 := h.sole rid i b hi hb
  show bm.tableRefs b + (held b + if b = bid then 1 else 0) = 1
  rw [if_neg hne, add_zero]
  exact hsole

theorem Exclusive.freeBlock (h : bm.Exclusive held stake) (hheld : held bid ≠ 0) :
    (bm.freeBlock bid).Exclusive (fun b => held b - if b = bid then 1 else 0) stake := by
  refine ⟨h.exact.freeBlock hheld, fun rid i b hi hb => ?_⟩
  rw [table_congr (blockTables_freeBlock bid)] at hb
  have hsole : bm.tableRefs b + held b = 1 := h.sole rid i b hi hb
  have hpos := tableRefs_pos (mem_of_getElem? hb)
  have hne : b ≠ bid := by
    rintro rfl
    omega
  show (bm.freeBlock bid).tableRefs b + (held b - if b = bid then 1 else 0) = 1
  rw [tableRefs_congr (blockTables_freeBlock bid), if_neg hne, Nat.sub_zero]
  exact hsole

/-- A write into blocks with one holder changes no block of another table and none that is held. -/
theorem write_invisible {start hiddenDim : Nat} {data : List F32} {isKey : Bool}
    {result : Except String Unit} (hsole : ∀ off < data.length / hiddenDim, ∀ b,
      (bm.table rid)[(start + off) / bm.blockSize]? = some b → bm.Sole held b)
    (h : bm.writeKv rid start data hiddenDim isKey = some (result, bm')) :
    (∀ rid' ≠ rid, ∀ n hd, bm'.readKv rid' n hd = bm.readKv rid' n hd) ∧
      ∀ b, held b ≠ 0 → bm'.blocks[b]? = bm.blocks[b]? := by
  obtain ⟨hledger, hframe⟩ := writeKv_frame h
  refine ⟨fun rid' hne n hd => ?_, fun b hheld => hframe b fun off hoff hb => ?_⟩
  · refine readKv_congr_contents hledger.blockSize_eq (by rw [hledger.blockTables_eq])
      fun b hmem => ?_
    rw [contents, contents, hframe b fun off hoff hb => ?_]
    have hone : bm.tableRefs b + held b = 1 := hsole off hoff b hb
    have hboth := count_table_add_le bm hne b
    have hpos := count_pos_iff.2 (mem_of_getElem? hb)
    have hpos' := count_pos_iff.2 hmem
    omega
  · have hone : bm.tableRefs b + held b = 1 := hsole off hoff b hb
    have hpos := tableRefs_pos (mem_of_getElem? hb)
    omega

end CompileForge.Runtime.BlockManager
