/-
  The paged pool as a store of rows, over whole runs.  Blocks with more than one reference must
  not be written or flushed; the pool does not check this.
-/

import CompileForge.Runtime.Cache.ReadAfterWrite

namespace CompileForge.Runtime

open Lib List

/-- The row a request sees on a side at a position, if it was given one. -/
abbrev RowStore := String → Bool → Nat → Option (List F32)

inductive StoreEvent where
  | allocate (requestId : String) (numTokens : Nat)
  | ensureBlocks (requestId : String) (targetTokens : Nat)
  | free (requestId : String)
  | flushRequest (requestId : String)
  | sharePrefix (srcRequestId dstRequestId : String) (prefixLen : Nat)
  | writeKv (w : WriteKvCall)

/-- A request reads back its own writes, and behind a shared prefix those of its source. -/
def StoreEvent.record (hiddenDim : Nat) (store : RowStore) : StoreEvent → RowStore
  | .allocate _ _ | .ensureBlocks _ _ => store
  | .free rid | .flushRequest rid => fun r isKey p => if r = rid then none else store r isKey p
  | .sharePrefix src dst n => fun r isKey p =>
    if r = dst then (if p < n then store src isKey p else none) else store r isKey p
  | .writeKv w => fun r isKey p => (w.row hiddenDim r isKey p).or (store r isKey p)

/-- The rows the requests hold after a sequence of events on an empty pool. -/
def storedRows (hiddenDim : Nat) (events : List StoreEvent) : RowStore :=
  events.foldl (StoreEvent.record hiddenDim) fun _ _ _ => none

namespace BlockManager

variable {bm bm' : BlockManager} {hiddenDim p : Nat} {store : RowStore} {rid r r' : String}
  {isKey : Bool} {row : List F32}

/-- One call that succeeds, or an allocation of any outcome.  A block that is written or zeroed has
    one reference. -/
def StoreStep (hiddenDim : Nat) (bm : BlockManager) (e : StoreEvent) (bm' : BlockManager) : Prop :=
  match e with
  | .allocate rid n => bm' = (bm.allocate rid n).2
  | .ensureBlocks rid n => bm' = (bm.ensureBlocks rid n).2
  | .free rid => bm' = bm.free rid
  | .flushRequest rid => bm' = bm.flushRequest rid ∧ ∀ b ∈ bm.table rid, bm.refCount b = 1
  | .sharePrefix src dst n => ∃ ids, bm.sharePrefix src dst n = (.ok ids, bm')
  | .writeKv w => Writes hiddenDim bm w bm' ∧ ∀ off < w.data.length / hiddenDim,
      ∀ b ∈ (bm.table w.requestId)[(w.startPos + off) / bm.blockSize]?, bm.refCount b = 1

/-! ## Contents under the other operations -/

theorem Grows.contents (h : bm.Grows rid bm') (b : Nat) : bm'.contents b = bm.contents b := by
  rcases h with rfl | ⟨n, h, rfl⟩
  · rfl
  · have hpop : (popBlocks n bm h).2.contents b = bm.contents b := by
      induction n generalizing bm with
      | zero => rfl
      | succ n ih => exact (ih _).trans (contents_modifyRef _ (· + 1) b)
    exact hpop

theorem contents_free (rid : String) (b : Nat) : (bm.free rid).contents b = bm.contents b := by
  unfold BlockManager.free
  split
  · rfl
  · exact contents_foldl_freeBlock _ (bm.removeTable rid) b

theorem contents_foldl_increment (ids : List Nat) (b : Nat) :
    (ids.foldl incrementRefCount bm).contents b = bm.contents b := by
  induction ids generalizing bm with
  | nil => rfl
  | cons id ids ih => exact ih.trans (contents_modifyRef id (· + 1) b)

theorem blockRow_eq (b : Nat) : bm.blockRow b hiddenDim isKey p =
    ((bm.contents b).bind id).elim [] fun kv =>
      slice (if isKey then kv.1 else kv.2) (p * hiddenDim) hiddenDim := by
  unfold blockRow contents
  rcases bm.blocks[b]? with _ | _ | _ <;> rfl

theorem allocate_grows (bm : BlockManager) (rid : String) (n : Nat) :
    bm.Grows rid (bm.allocate rid n).2 := by
  rcases bm.allocate_cases rid n with ⟨e, heq, -⟩ | ⟨h, -, heq⟩
  · exact .inl (congrArg Prod.snd heq)
  · exact .inr ⟨_, h, congrArg Prod.snd heq⟩

theorem ensureBlocks_grows (bm : BlockManager) (rid : String) (n : Nat) :
    bm.Grows rid (bm.ensureBlocks rid n).2 := by
  rcases bm.ensureBlocks_cases rid n with ⟨e, heq, -⟩ | ⟨heq, -⟩ | ⟨h, heq⟩
  · exact .inl (congrArg Prod.snd heq)
  · exact .inl (congrArg Prod.snd heq)
  · exact .inr ⟨_, h, congrArg Prod.snd heq⟩

theorem Grows.tablesNodup (h : bm.Grows rid bm') (he : bm.Exact fun _ => 0)
    (hnodup : bm.TablesNodup) : bm'.TablesNodup := by
  rcases h with rfl | ⟨n, h, rfl⟩
  · exact hnodup
  · obtain ⟨-, hpopped, hidle⟩ := Balanced.popBlocks n he h
    intro r
    by_cases hr : r = rid
    · subst hr
      rw [table_grow]
      refine (hnodup r).append hpopped fun b hb hpop => ?_
      have hpos := tableRefs_pos hb
      have := hidle b hpop
      omega
    · rw [table_grow_ne hr]
      exact hnodup r

/-! ## One step -/

/-- The pool holds the rows of the store. -/
structure Refines (hiddenDim : Nat) (store : RowStore) (bm : BlockManager) : Prop where
  exact : bm.Exact fun _ => 0
  buffered : bm.Buffered hiddenDim
  nodup : bm.TablesNodup
  rows : ∀ {r isKey p row}, store r isKey p = some row →
    p / bm.blockSize < (bm.table r).length ∧ bm.rowAt (bm.table r) hiddenDim isKey p = row

section Step

variable (h : Refines hiddenDim store bm)
include h

/-- A position keeps its row when its page keeps its block, and the block its contents. -/
theorem Refines.kept (hrow : store r isKey p = some row) (hsize : bm'.blockSize = bm.blockSize)
    (hpage : ∀ b, (bm.table r)[p / bm.blockSize]? = some b → (bm'.table r')[p / bm.blockSize]? =
      some b ∧ bm'.contents b = bm.contents b) :
    p / bm'.blockSize < (bm'.table r').length ∧
      bm'.rowAt (bm'.table r') hiddenDim isKey p = row := by
  obtain ⟨hlt, rfl⟩ := h.rows hrow
  have hb := getElem?_eq_getElem hlt
  obtain ⟨hb', hcontents⟩ := hpage _ hb
  rw [hsize]
  refine ⟨(List.getElem?_eq_some_iff.1 hb').1, ?_⟩
  simp only [rowAt, hsize, hb, hb', blockRow_eq, hcontents]

theorem Refines.grows (hgrows : bm.Grows rid bm') : Refines hiddenDim store bm' :=
  ⟨hgrows.exact h.exact, hgrows.sameBuffers.buffered h.buffered, hgrows.tablesNodup h.exact h.nodup,
    fun hrow => h.kept hrow hgrows.blockSize_eq fun b hb =>
      ⟨hgrows.getElem?_table hb, hgrows.contents b⟩⟩

/-- A request that goes takes its rows along, if those of the others are left alone. -/
theorem Refines.release (hexact : bm'.Exact fun _ => 0) (hsame : SameBuffers bm bm')
    (htable : ∀ r, bm'.table r = if r = rid then [] else bm.table r)
    (hcontents : ∀ r, r ≠ rid → ∀ b ∈ bm.table r, bm'.contents b = bm.contents b) :
    Refines hiddenDim (fun r isKey p => if r = rid then none else store r isKey p) bm' := by
  refine ⟨hexact, hsame.buffered h.buffered, fun r => ?_, fun {r isKey p row} hrow => ?_⟩
  · rw [htable]
    split
    · exact nodup_nil
    · exact h.nodup r
  · split at hrow
    · cases hrow
    · rename_i hr
      exact h.kept hrow hsame.blockSize_eq fun b hb =>
        ⟨by rwa [htable, if_neg hr], hcontents r hr b (mem_of_getElem? hb)⟩

theorem Refines.notMem_table {b : Nat} (hone : bm.refCount b = 1)
    (hmem : b ∈ bm.table rid) (hne : r ≠ rid) : b ∉ bm.table r := by
  intro hb
  have hcount : bm.refCount b = bm.tableRefs b + 0 :=
    h.exact.counts b (h.exact.mem_table_lt hmem)
  have hle := count_table_add_le bm hne b
  have hpos := count_pos_iff.2 hmem
  have hpos' := count_pos_iff.2 hb
  omega

theorem Refines.share {src dst : String} {n : Nat}
    {ids : List Nat} (hok : bm.sharePrefix src dst n = (.ok ids, bm')) :
    Refines hiddenDim ((StoreEvent.sharePrefix src dst n).record hiddenDim store) bm' := by
  have hexact := h.exact.sharePrefix src dst n
  rcases h.exact.sharePrefix_cases src dst n with ⟨e, heq⟩ | ⟨-, hlen, heq⟩
  · rw [heq] at hok
    cases hok
  · rw [heq] at hok hexact
    cases hok
    set shared := (bm.table src).take (n ⌈/⌉ bm.blockSize)
    have hsame : SameBuffers bm (shared.foldl incrementRefCount bm) :=
      sameBuffers_foldl (fun bm b => sameBuffers_modifyRef bm b (· + 1)) shared bm
    have hdst : ((shared.foldl incrementRefCount bm).setTable dst shared).table dst = shared :=
      table_eq (lookup_setTable ..)
    have hother : ∀ r, r ≠ dst →
        ((shared.foldl incrementRefCount bm).setTable dst shared).table r = bm.table r :=
      fun r hr => (table_eq_of_lookup (lookup_setTable_ne hr shared)).trans
        (table_congr (blockTables_foldl_increment shared) r)
    refine ⟨hexact, hsame.buffered h.buffered, fun r => ?_, fun {r isKey p row} hrow => ?_⟩
    · by_cases hr : r = dst
      · rw [hr, hdst]
        exact (h.nodup src).sublist (take_sublist _ _)
      · rw [hother r hr]
        exact h.nodup r
    · simp only [StoreEvent.record] at hrow
      split at hrow
      · rename_i hr
        split at hrow
        · rename_i hp
          -- the page of a shared position is among those handed over
          have hpage : p / bm.blockSize < n ⌈/⌉ bm.blockSize := by
            rw [lt_ceilDiv_iff bm.blockSize_pos]
            exact lt_of_le_of_lt (Nat.mul_div_le p bm.blockSize) hp
          refine h.kept hrow hsame.blockSize_eq fun b hb => ⟨?_, contents_foldl_increment shared b⟩
          rw [hr, hdst]
          exact (getElem?_take_of_lt hpage).trans hb
        · cases hrow
      · rename_i hr
        exact h.kept hrow hsame.blockSize_eq fun b hb =>
          ⟨by rwa [hother r hr], contents_foldl_increment shared b⟩

theorem Refines.write {w : WriteKvCall} (hw : Writes hiddenDim bm w bm')
    (hone : ∀ off < w.data.length / hiddenDim, ∀ b ∈ (bm.table w.requestId)[(w.startPos + off) /
      bm.blockSize]?, bm.refCount b = 1) :
    Refines hiddenDim ((StoreEvent.writeKv w).record hiddenDim store) bm' := by
  obtain ⟨hledger, hframe⟩ := writeKv_frame hw
  have htables : ∀ r, bm'.table r = bm.table r := hledger.table_eq
  refine ⟨hledger.exact h.exact, (writeKv_sameBuffers hw).buffered h.buffered, fun r => ?_,
    fun {r isKey p row} hrow => ?_⟩
  · rw [htables]
    exact h.nodup r
  · simp only [StoreEvent.record] at hrow
    by_cases hr : r = w.requestId
    · rw [hledger.blockSize_eq, htables, hr]
      rw [hr] at hrow
      obtain ⟨hrows, hcovered⟩ := hw.rows_self h.buffered
        (fun r b hb => h.exact.mem_table_lt hb) h.nodup isKey p
      rw [hrows]
      cases hnew : w.row hiddenDim w.requestId isKey p with
      | some =>
        rw [hnew, Option.some_or] at hrow
        cases hrow
        exact ⟨hcovered (by simp [hnew]), rfl⟩
      | none =>
        rw [hnew, Option.none_or] at hrow
        exact h.rows hrow
    · -- the blocks written are listed by the writing request only
      have hnone : w.row hiddenDim r isKey p = none := if_neg fun hand => hr hand.1.symm
      rw [hnone, Option.none_or] at hrow
      refine h.kept hrow hledger.blockSize_eq fun b hb => ⟨by rwa [htables], ?_⟩
      have hapart : ∀ off < w.data.length / hiddenDim,
          (bm.table w.requestId)[(w.startPos + off) / bm.blockSize]? ≠ some b :=
        fun off hoff hat => h.notMem_table (hone off hoff b hat) (mem_of_getElem? hat) hr
          (mem_of_getElem? hb)
      rw [contents, contents, hframe b hapart]

theorem Refines.step {e : StoreEvent}
    (hstep : StoreStep hiddenDim bm e bm') : Refines hiddenDim (e.record hiddenDim store) bm' := by
  cases e with
  | allocate rid n => exact hstep ▸ h.grows (bm.allocate_grows rid n)
  | ensureBlocks rid n => exact hstep ▸ h.grows (bm.ensureBlocks_grows rid n)
  | free rid =>
    obtain rfl : bm' = bm.free rid := hstep
    refine h.release (h.exact.free rid) (sameBuffers_free bm rid) (fun r => ?_)
      fun r _ b _ => contents_free rid b
    split
    · rename_i hr
      rw [hr, table_free_self]
    · rename_i hr
      exact table_free_ne hr
  | flushRequest rid =>
    obtain ⟨rfl, hone⟩ := hstep
    refine h.release (h.exact.flushRequest rid) (sameBuffers_flushRequest bm rid)
      (table_flushRequest bm rid) fun r hr b hb => ?_
    rw [contents_flushRequest, if_neg]
    exact fun hmem => h.notMem_table (hone b hmem) hmem hr hb
  | sharePrefix =>
    obtain ⟨ids, hok⟩ := hstep
    exact h.share hok
  | writeKv => exact h.write hstep.1 hstep.2

end Step

/-! ## Runs -/

variable {n bs heads dim : Nat} {bm₀ : BlockManager} {events : List StoreEvent}

theorem refines_of_run (h₀ : newWithCache n bs heads dim = .ok bm₀)
    (hrun : Run (StoreStep (heads * dim)) bm₀ events bm) :
    Refines (heads * dim) (storedRows (heads * dim) events) bm := by
  induction hrun with
  | nil =>
    have htable : ∀ r, bm₀.table r = [] := by
      intro r
      rw [table, Fresh.blockTables_eq (.inr ⟨_, _, _, _, h₀⟩)]
      rfl
    exact ⟨Fresh.exact (.inr ⟨_, _, _, _, h₀⟩), buffered_newWithCache h₀,
      fun r => by rw [htable]; exact nodup_nil, fun hrow => by cases hrow⟩
  | snoc _ hlast ih =>
    rw [storedRows, foldl_append]
    exact ih.step hlast

/-- A read of positions that all hold rows returns these rows in order. -/
theorem readKv_of_run (h₀ : newWithCache n bs heads dim = .ok bm₀)
    (hrun : Run (StoreStep (heads * dim)) bm₀ events bm) {m : Nat} (hm : 0 < m)
    {keys values : Nat → List F32}
    (hrows : ∀ p < m, storedRows (heads * dim) events r true p = some (keys p) ∧
      storedRows (heads * dim) events r false p = some (values p)) :
    bm.readKv r m (heads * dim) =
      some (.ok ((range m).flatMap keys, (range m).flatMap values)) := by
  have h := refines_of_run h₀ hrun
  -- the last position read lies on a page of the table
  have hlast := (h.rows (hrows (m - 1) (by omega)).1).1
  have hcover : m ≤ bm.blockSize * (bm.table r).length := by
    have := (Nat.div_lt_iff_lt_mul bm.blockSize_pos).1 hlast
    rw [mul_comm]
    omega
  have htable : bm.blockTables.lookup r = some (bm.table r) := by
    cases hlookup : bm.blockTables.lookup r with
    | none =>
      rw [table_eq_nil hlookup] at hlast
      exact absurd hlast (Nat.not_lt_zero _)
    | some => rw [table_eq hlookup]
  rw [readKv_spec htable (fun b hb => h.buffered b (h.exact.mem_table_lt hb)) hcover]
  have hkeys : (range m).flatMap (bm.rowAt (bm.table r) (heads * dim) true) =
      (range m).flatMap keys :=
    flatMap_congr fun p hp => (h.rows (hrows p (mem_range.1 hp)).1).2
  have hvalues : (range m).flatMap (bm.rowAt (bm.table r) (heads * dim) false) =
      (range m).flatMap values :=
    flatMap_congr fun p hp => (h.rows (hrows p (mem_range.1 hp)).2).2
  rw [hkeys, hvalues]

end BlockManager

/-- A request goes on behind the block of another, which is gone by then. -/
def exampleEvents : List StoreEvent :=
  [.allocate "a" 2, .writeKv ⟨"a", 0, [⟨1⟩, ⟨2⟩], true⟩, .writeKv ⟨"a", 0, [⟨3⟩, ⟨4⟩], false⟩,
    .sharePrefix "a" "b" 2, .ensureBlocks "b" 3, .free "a", .writeKv ⟨"b", 2, [⟨5⟩], true⟩,
    .writeKv ⟨"b", 2, [⟨6⟩], false⟩]

open BlockManager in
theorem readKv_of_run_example :
    ∃ bm₀ bm, newWithCache 4 2 1 1 = .ok bm₀ ∧ Run (StoreStep (1 * 1)) bm₀ exampleEvents bm ∧
      bm.readKv "b" 3 (1 * 1) = some (.ok ([⟨1⟩, ⟨2⟩, ⟨5⟩], [⟨3⟩, ⟨4⟩, ⟨6⟩])) := by
  obtain ⟨bm₀, h₀⟩ : ∃ bm₀, newWithCache 4 2 1 1 = .ok bm₀ := ⟨_, rfl⟩
  have hrun : ∃ bm, Run (StoreStep (1 * 1)) bm₀ exampleEvents bm := by
    cases h₀
    exact ⟨_, .cons rfl <| .cons ⟨rfl, by decide +kernel⟩ <| .cons ⟨rfl, by decide +kernel⟩ <|
      .cons ⟨_, rfl⟩ <| .cons rfl <| .cons rfl <| .cons ⟨rfl, by decide +kernel⟩ <|
      .cons ⟨rfl, by decide +kernel⟩ .nil⟩
  obtain ⟨bm, hrun⟩ := hrun
  have hrows : ∀ p < 3,
      storedRows (1 * 1) exampleEvents "b" true p = some ([[⟨1⟩], [⟨2⟩], [⟨5⟩]].getD p []) ∧
      storedRows (1 * 1) exampleEvents "b" false p = some ([[⟨3⟩], [⟨4⟩], [⟨6⟩]].getD p []) := by
    decide
  exact ⟨bm₀, bm, h₀, hrun, readKv_of_run h₀ hrun (by decide) hrows⟩

end CompileForge.Runtime
