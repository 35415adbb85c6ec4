/-
  What a write leaves alone.
-/

import CompileForge.Runtime.Cache.BlockStore
import CompileForge.Runtime.Cache.FlushFrame

namespace CompileForge.Runtime.BlockManager

open Lib

variable {bm bm' : BlockManager} {ids : List Nat} {rid : String} {start hiddenDim : Nat}
  {data : List F32} {isKey : Bool} {result : Except String Unit}

/-- Replacing the data of a buffer touches no counter, table or free list. -/
theorem sameLedger_setCache {bid : Nat} {kv : KVCacheBlock}
    (hkv : bm.blocks[bid]? = some (.cached kv))
    (data : List F32) :
    SameLedger bm (bm.modifyBlock bid fun _ => .cached (kv.setCache isKey data)) := by
  refine ⟨rfl, rfl, rfl, ?_⟩
  apply List.ext_getElem?
  intro i
  simp only [List.getElem?_map, getElem?_modifyBlock]
  by_cases hi : bid = i
  · subst hi
    rw [if_pos rfl, hkv]
    cases isKey <;> rfl
  · rw [if_neg hi]

/-- One row touches only the block that its position falls into. -/
theorem writeRow_frame {off : Nat}
    (h : writeRow ids rid start data hiddenDim isKey bm off = some (result, bm')) :
    SameLedger bm bm' ∧
      ∀ b, ids[(start + off) / bm.blockSize]? ≠ some b → bm'.blocks[b]? = bm.blocks[b]? := by
  have hsame : SameLedger bm bm ∧
      ∀ b, ids[(start + off) / bm.blockSize]? ≠ some b → bm.blocks[b]? = bm.blocks[b]? :=
    ⟨.refl bm, fun _ _ => rfl⟩
  unfold writeRow at h
  dsimp only at h
  split at h
  · cases h
    exact hsame
  · rename_i bid hbid
    split at h
    · cases h
      exact hsame
    · cases h
      exact hsame
    · rename_i kv hkv
      split at h
      · cases h
        refine ⟨sameLedger_setCache hkv _, fun b hb => ?_⟩
        rw [getElem?_modifyBlock, if_neg]
        rintro rfl
        exact hb hbid
      · cases h

/-- A loop over rows touches only the blocks that their positions fall into. -/
theorem writeRows_frame {offs : List Nat}
    (h : writeRows ids rid start data hiddenDim isKey offs bm = some (result, bm')) :
    SameLedger bm bm' ∧ ∀ b, (∀ off ∈ offs, ids[(start + off) / bm.blockSize]? ≠ some b) →
        bm'.blocks[b]? = bm.blocks[b]? := by
  induction offs generalizing bm with
  | nil =>
    cases h
    exact ⟨.refl _, fun _ _ => rfl⟩
  | cons off offs ih =>
    rw [writeRows] at h
    cases hrow : writeRow ids rid start data hiddenDim isKey bm off with
    | none =>
      rw [hrow] at h
      cases h
    | some out =>
      obtain ⟨res, bm1⟩ := out
      obtain ⟨hledger1, hframe1⟩ := writeRow_frame hrow
      rw [hrow] at h
      cases res with
      | error =>
        -- the loop stops here
        cases h
        exact ⟨hledger1, fun b hb => hframe1 b (hb off List.mem_cons_self)⟩
      | ok =>
        obtain ⟨hledger, hframe⟩ := ih h
        refine ⟨hledger1.trans hledger, fun b hb => ?_⟩
        have hrest : ∀ o ∈ offs, ids[(start + o) / bm1.blockSize]? ≠ some b := by
          intro o ho
          rw [hledger1.blockSize_eq]
          exact hb o (List.mem_cons_of_mem off ho)
        rw [hframe b hrest, hframe1 b (hb off List.mem_cons_self)]

/-- `write_kv` of any data touches only the blocks its positions fall into. -/
theorem writeKv_frame (h : bm.writeKv rid start data hiddenDim isKey = some (result, bm')) :
    SameLedger bm bm' ∧ ∀ b, (∀ off < data.length / hiddenDim,
        (bm.table rid)[(start + off) / bm.blockSize]? ≠ some b) →
          bm'.blocks[b]? = bm.blocks[b]? := by
  have hsame : SameLedger bm bm ∧ ∀ b, (∀ off < data.length / hiddenDim,
      (bm.table rid)[(start + off) / bm.blockSize]? ≠ some b) → bm.blocks[b]? = bm.blocks[b]? :=
    ⟨.refl bm, fun _ _ => rfl⟩
  unfold writeKv getBlocks at h
  cases htable : bm.blockTables.lookup rid with
  | none =>
    rw [htable] at h
    cases h
    exact hsame
  | some =>
    rw [htable] at h
    dsimp only at h
    split at h
    · cases h
    · split at h
      · cases h
        exact hsame
      · obtain ⟨hledger, hframe⟩ := writeRows_frame h
        refine ⟨hledger, fun b hb => hframe b fun off hoff => ?_⟩
        have hlt := hb off (List.mem_range.1 hoff)
        rwa [table_eq htable] at hlt

end CompileForge.Runtime.BlockManager
