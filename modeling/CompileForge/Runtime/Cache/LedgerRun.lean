/-
  Runs of a block manager under its users.
-/

import CompileForge.Runtime.Cache.BlockLedger

namespace CompileForge.Runtime

open Lib List

/-- A call on the block manager. -/
inductive LedgerOp where
  | allocate (requestId : String) (numTokens : Nat)
  | free (requestId : String)
  | ensureBlocks (requestId : String) (targetTokens : Nat)
  | sharePrefix (srcRequestId dstRequestId : String) (prefixLen : Nat)
  | flushRequest (requestId : String)
  | assignCachedBlocks (requestId : String) (blockIds : List Nat)
  | incrementRefCount (blockId : Nat)
  | freeBlock (blockId : Nat)
deriving DecidableEq, Repr

/-- A pool and the external holds outstanding on its blocks. -/
structure LedgerState where
  bm : BlockManager
  holds : List Nat

namespace LedgerState

def apply (st : LedgerState) : LedgerOp → LedgerState
  | .allocate rid n => { st with bm := (st.bm.allocate rid n).2 }
  | .free rid => { st with bm := st.bm.free rid }
  | .ensureBlocks rid n => { st with bm := (st.bm.ensureBlocks rid n).2 }
  | .sharePrefix src dst n => { st with bm := (st.bm.sharePrefix src dst n).2 }
  | .flushRequest rid => { st with bm := st.bm.flushRequest rid }
  | .assignCachedBlocks rid ids => { st with bm := st.bm.assignCachedBlocks rid ids }
  | .incrementRefCount b => { bm := st.bm.incrementRefCount b, holds := b :: st.holds }
  | .freeBlock b => { bm := st.bm.freeBlock b, holds := st.holds.erase b }

variable (mayHold : BlockManager → Nat → Prop)

/-- The users keep two rules, and the code checks neither: a reference is only taken on a block
    that is in use, and a hold is given back only while it is outstanding. -/
def Permitted (st : LedgerState) : LedgerOp → Prop
  | .assignCachedBlocks _ ids => ∀ b ∈ ids, 0 < st.bm.refCount b
  | .incrementRefCount b => mayHold st.bm b
  | .freeBlock b => b ∈ st.holds
  | _ => True

instance [∀ bm b, Decidable (mayHold bm b)]
    (st : LedgerState) : (op : LedgerOp) → Decidable (st.Permitted mayHold op)
  | .assignCachedBlocks _ ids => inferInstanceAs (Decidable (∀ b ∈ ids, 0 < st.bm.refCount b))
  | .incrementRefCount b => inferInstanceAs (Decidable (mayHold st.bm b))
  | .freeBlock b => inferInstanceAs (Decidable (b ∈ st.holds))
  | .allocate .. | .free .. | .ensureBlocks .. | .sharePrefix .. | .flushRequest .. =>
    isTrue trivial

def Step (st : LedgerState) (op : LedgerOp) (st' : LedgerState) : Prop :=
  st.Permitted mayHold op ∧ st' = st.apply op

/-- Counters, tables, holds and the free list agree, and growing hands out blocks nobody has. -/
structure Ledger (st : LedgerState) : Prop where
  refCount_eq : ∀ b, b < st.bm.numBlocks → st.bm.refCount b = st.bm.tableRefs b + st.holds.count b
  mem_free_iff : ∀ b, b ∈ st.bm.freeBlocks ↔ b < st.bm.numBlocks ∧ st.bm.refCount b = 0
  nodup_free : st.bm.freeBlocks.Nodup
  allocate_fresh : ∀ rid n ids, (st.bm.allocate rid n).1 = .ok ids →
    ids.Nodup ∧ ∀ b ∈ ids, st.bm.tableRefs b = 0 ∧ b ∉ st.holds
  ensureBlocks_fresh : ∀ rid n, ∃ extra,
    (st.bm.ensureBlocks rid n).2.table rid = st.bm.table rid ++ extra ∧
      extra.Nodup ∧ ∀ b ∈ extra, st.bm.tableRefs b = 0 ∧ b ∉ st.holds

/-- The counters are the tables and the outstanding holds: `increment_ref_count` takes one,
    `free_block` gives one back. -/
def Exact (st : LedgerState) : Prop := st.bm.Exact fun b => st.holds.count b

variable {st st' : LedgerState} {op : LedgerOp}

theorem Exact.ledger (h : st.Exact) : st.Ledger where
  refCount_eq b hb := Lib.Balanced.toCounted h |>.counts b hb
  mem_free_iff b := Lib.Balanced.mem_free_iff_rc h b
  nodup_free := Lib.Balanced.nodup h
  allocate_fresh rid n ids hok := by
    obtain ⟨hnodup, hidle⟩ := BlockManager.Exact.allocate_fresh h hok
    refine ⟨hnodup, fun b hb => ?_⟩
    obtain ⟨htables, hholds⟩ := Nat.add_eq_zero_iff.1 (hidle b hb)
    exact ⟨htables, count_eq_zero.1 hholds⟩
  ensureBlocks_fresh rid n := by
    obtain ⟨extra, htable, hnodup, hidle⟩ := BlockManager.Exact.ensureBlocks_fresh h rid n
    refine ⟨extra, htable, hnodup, fun b hb => ?_⟩
    obtain ⟨htables, hholds⟩ := Nat.add_eq_zero_iff.1 (hidle b hb)
    exact ⟨htables, count_eq_zero.1 hholds⟩

theorem Exact.owed_of_inUse (h : st.Exact) {b : Nat} (hb : 0 < st.bm.refCount b) :
    st.bm.tableRefs b + st.holds.count b ≠ 0 := by
  have hlt : b < st.bm.numBlocks := by
    by_contra hge
    have hnone : st.bm.blocks[b]? = none := getElem?_eq_none (Nat.le_of_not_lt hge)
    simp [BlockManager.refCount, hnone] at hb
  have hcount : st.bm.refCount b = st.bm.tableRefs b + st.holds.count b :=
    Lib.Balanced.toCounted h |>.counts b hlt
  omega

theorem Exact.step (h : st.Exact) (hstep : st.Step (fun bm b => 0 < bm.refCount b) op st') :
    st'.Exact := by
  obtain ⟨hperm, rfl⟩ := hstep
  cases op with
  | allocate rid n => exact BlockManager.Exact.allocate h rid n
  | free rid => exact BlockManager.Exact.free h rid
  | ensureBlocks rid n => exact BlockManager.Exact.ensureBlocks h rid n
  | sharePrefix src dst n => exact BlockManager.Exact.sharePrefix h src dst n
  | flushRequest rid => exact BlockManager.Exact.flushRequest h rid
  | assignCachedBlocks rid =>
    exact BlockManager.Exact.assignCachedBlocks h rid fun b hb => h.owed_of_inUse (hperm b hb)
  | incrementRefCount b =>
    have hheld := BlockManager.Exact.incrementRefCount h (h.owed_of_inUse hperm)
    exact hheld.congr_held fun x => count_cons_ite x b st.holds
  | freeBlock b =>
    have hheld : st.holds.count b ≠ 0 := Nat.ne_of_gt (count_pos_iff.2 hperm)
    refine (BlockManager.Exact.freeBlock h hheld).congr_held fun x => ?_
    show (st.holds.erase b).count x = st.holds.count x - if x = b then 1 else 0
    by_cases hx : x = b
    · simp [hx]
    · simp [hx, count_erase_of_ne hx]

end LedgerState

/-- A pool as one of the constructors returns it. -/
def BlockManager.Fresh (bm : BlockManager) : Prop :=
  (∃ n bs, BlockManager.new n bs = .ok bm) ∨
    ∃ n bs heads dim, BlockManager.newWithCache n bs heads dim = .ok bm

variable {bm : BlockManager}

theorem BlockManager.exact_ofEntries {n bs : Nat} {entry : Nat → BlockEntry}
    (hentry : ∀ i, (entry i).refCount = 0) (h : ofEntries n bs entry = .ok bm) :
    bm.Exact fun _ => 0 := by
  unfold ofEntries at h
  split at h
  · cases h
  · split at h
    · cases h
    · cases h
      have hrc : ∀ x : Nat,
          ((((range n).map entry)[x]?).map BlockEntry.refCount).getD 0 = 0 := by
        intro x
        rw [getElem?_map]
        cases (range n)[x]? with
        | none => rfl
        | some i => exact hentry i
      refine ⟨⟨fun x _ => hrc x, fun x hx _ => ?_⟩, nodup_range, fun x hx => ?_,
        fun _ _ => rfl, fun x hx => absurd rfl hx⟩
      · simpa [numBlocks] using hx
      · simpa [numBlocks] using hx

theorem BlockManager.Fresh.exact (h : bm.Fresh) : bm.Exact fun _ => 0 := by
  rcases h with ⟨n, bs, h⟩ | ⟨n, bs, heads, dim, h⟩
  · exact exact_ofEntries (fun _ => rfl) h
  · exact exact_ofEntries (fun _ => rfl) h

theorem BlockManager.Fresh.blockTables_eq (h : bm.Fresh) :
    bm.blockTables = ∅ := by
  have hentries : ∀ {n bs : Nat} {entry : Nat → BlockEntry}, ofEntries n bs entry = .ok bm →
      bm.blockTables = ∅ := by
    intro n bs entry h
    unfold ofEntries at h
    split at h
    · cases h
    · split at h
      · cases h
      · cases h
        rfl
  rcases h with ⟨n, bs, h⟩ | ⟨n, bs, heads, dim, h⟩
  · exact hentries h
  · exact hentries h

/-- Every state that permitted calls reach from a fresh pool has its ledger. -/
theorem ledger_of_run {bm : BlockManager} {ops : List LedgerOp} {st : LedgerState}
    (hfresh : bm.Fresh)
    (hrun : Run (LedgerState.Step fun bm b => 0 < bm.refCount b) ⟨bm, []⟩ ops st) :
    st.Ledger :=
  (hrun.invariant (I := LedgerState.Exact) hfresh.exact
    fun _ _ _ h hstep => h.step hstep).ledger

/-- The calls of the example run: allocate, retain, share and release. -/
def exampleCalls : List LedgerOp :=
  [.allocate "a" 3, .incrementRefCount 3, .sharePrefix "a" "b" 2, .free "a", .freeBlock 3]

theorem ledger_of_run_witness :
    ∃ bm st, BlockManager.new 4 2 = .ok bm ∧
      Run (LedgerState.Step fun bm b => 0 < bm.refCount b) ⟨bm, []⟩ exampleCalls st ∧
      st.Ledger ∧ st.bm.freeBlocks = [0, 1, 2] := by
  obtain ⟨bm, hbm⟩ : ∃ bm, BlockManager.new 4 2 = .ok bm := ⟨_, rfl⟩
  have henabled : Enabled (LedgerState.Permitted fun bm b => 0 < bm.refCount b)
      LedgerState.apply ⟨bm, []⟩ exampleCalls := by
    cases hbm
    decide
  have hrun : Run (LedgerState.Step fun bm b => 0 < bm.refCount b) ⟨bm, []⟩ exampleCalls _ :=
    Run.of_enabled (fun _ _ h => ⟨h, rfl⟩) henabled
  refine ⟨bm, _, hbm, hrun, ledger_of_run (.inl ⟨4, 2, hbm⟩) hrun, ?_⟩
  cases hbm
  decide

/-- A hold taken on an idle block leaves it on the free list, from where it is handed out. -/
theorem ledger_fails_on_idle_hold :
    ∃ bm st, BlockManager.new 1 1 = .ok bm ∧
      Run (LedgerState.Step fun bm b => b < bm.numBlocks) ⟨bm, []⟩ [.incrementRefCount 0] st ∧
      st.bm.refCount 0 = 1 ∧ 0 ∈ st.bm.freeBlocks ∧ 0 ∈ st.holds ∧
      (st.bm.allocate "a" 1).1 = .ok [0] ∧ ¬ st.Ledger := by
  obtain ⟨bm, hbm⟩ : ∃ bm, BlockManager.new 1 1 = .ok bm := ⟨_, rfl⟩
  have hrun : Run (LedgerState.Step fun bm b => b < bm.numBlocks) ⟨bm, []⟩
      [.incrementRefCount 0] _ :=
    Run.of_enabled (fun _ _ h => ⟨h, rfl⟩) (by cases hbm; decide)
  refine ⟨bm, _, hbm, hrun, ?_⟩
  cases hbm
  refine ⟨by decide, by decide, by decide, by decide, fun h => ?_⟩
  -- block 0 is on the free list with a positive counter
  exact absurd ((h.mem_free_iff 0).1 (by decide)).2 (by decide)

end CompileForge.Runtime
