/-
  What `write_kv` leaves behind when it fails.

  The loop copies row after row and leaves at the first position that has no buffer, so
  an error comes with the rows before it written.  The divisor 0 and a row longer than its
  buffer are not errors but panics.
-/

import CompileForge.Runtime.Cache.BlockStore

namespace CompileForge.Runtime.BlockManager

open Lib List

variable {bm bm' : BlockManager} {ids : List Nat} {rid : String} {start hiddenDim : Nat}
  {data : List F32} {isKey : Bool}

def buffer (bm : BlockManager) (bid : Nat) (isKey : Bool) : Option (List F32) :=
  match bm.blocks[bid]? with
  | some (.cached kv) => some (kv.cache isKey)
  | _ => none

variable {buf : List F32} {off pos i j k b o n : Nat}

theorem buffer_eq_some {bid : Nat} :
    bm.buffer bid isKey = some buf ↔
      ∃ kv, bm.blocks[bid]? = some (.cached kv) ∧ kv.cache isKey = buf := by
  unfold buffer
  constructor
  · intro h
    split at h
    · next kv hkv => exact ⟨kv, hkv, Option.some.inj h⟩
    · cases h
  · rintro ⟨kv, hkv, rfl⟩
    rw [hkv]

variable (bm ids hiddenDim isKey pos)

/-- The buffer of a position lies in a block with buffers and has room for its row. -/
def RowFits : Prop :=
  ∃ bid buf, ids[pos / bm.blockSize]? = some bid ∧ bm.buffer bid isKey = some buf ∧
    pos % bm.blockSize * hiddenDim + hiddenDim ≤ buf.length

/-- The position has no block in the table, or one without buffers. -/
def RowFails : Prop :=
  ∀ bid, ids[pos / bm.blockSize]? = some bid → bm.buffer bid isKey = none

def place : Option (Nat × Nat) :=
  ids[pos / bm.blockSize]?.map fun bid => (bid, pos % bm.blockSize)

variable {bm ids hiddenDim isKey pos}

/-! ## One row -/

theorem writeRow_of_fits (rid : String) (hfits : bm.RowFits ids hiddenDim isKey (start + off))
    (hdata : off * hiddenDim + hiddenDim ≤ data.length) :
    ∃ bid bm', ids[(start + off) / bm.blockSize]? = some bid ∧
      writeRow ids rid start data hiddenDim isKey bm off = some (.ok (), bm') ∧
      bm'.blockSize = bm.blockSize ∧
      ∀ b isKey', bm'.buffer b isKey' =
        if b = bid ∧ isKey' = isKey then (bm.buffer b isKey').map fun buf => overwrite buf
            ((start + off) % bm.blockSize * hiddenDim) (slice data (off * hiddenDim) hiddenDim)
        else bm.buffer b isKey' := by
  obtain ⟨bid, buf, hbid, hbuf, hroom⟩ := hfits
  obtain ⟨kv, hkv, rfl⟩ := buffer_eq_some.1 hbuf
  refine ⟨bid, bm.modifyBlock bid fun _ => .cached (kv.setCache isKey (overwrite (kv.cache isKey)
      ((start + off) % bm.blockSize * hiddenDim) (slice data (off * hiddenDim) hiddenDim))), hbid,
    ?_, rfl, fun b isKey' => ?_⟩
  · unfold writeRow
    simp only [hbid, hkv]
    rw [if_pos ⟨hroom, hdata⟩]
  · unfold buffer
    rw [getElem?_modifyBlock]
    by_cases hb : b = bid
    · subst hb
      rw [if_pos rfl, hkv]
      simp only [Option.map_some, cache_setCache, true_and]
      by_cases hkey : isKey' = isKey
      · rw [if_pos hkey, if_pos hkey, hkey]
      · rw [if_neg hkey, if_neg hkey]
    · rw [if_neg (Ne.symm hb), if_neg fun h => hb h.1]

theorem writeRow_of_fails (rid : String) (data : List F32) (hiddenDim : Nat)
    (hfails : bm.RowFails ids isKey (start + off)) :
    ∃ e, writeRow ids rid start data hiddenDim isKey bm off = some (.error e, bm) := by
  unfold writeRow
  dsimp only
  split
  · exact ⟨_, rfl⟩
  · next bid hbid =>
    have hnone := hfails bid hbid
    unfold buffer at hnone
    split
    · exact ⟨_, rfl⟩
    · exact ⟨_, rfl⟩
    · next kv hkv =>
      rw [hkv] at hnone
      cases hnone

theorem writeRow_of_long (rid : String) (data : List F32)
    (hfits : ¬ bm.RowFits ids hiddenDim isKey (start + off))
    (hfails : ¬ bm.RowFails ids isKey (start + off)) :
    writeRow ids rid start data hiddenDim isKey bm off = none := by
  unfold RowFails at hfails
  push Not at hfails
  obtain ⟨bid, hbid, hsome⟩ := hfails
  obtain ⟨buf, hbuf⟩ := Option.ne_none_iff_exists'.1 hsome
  obtain ⟨kv, hkv, rfl⟩ := buffer_eq_some.1 hbuf
  unfold writeRow
  simp only [hbid, hkv]
  rw [if_neg]
  rintro ⟨hroom, -⟩
  exact hfits ⟨bid, _, hbid, hbuf, hroom⟩

/-! ## The rows before a failure -/

/-- What a buffer holds at a place: behind a failed call the last row that falls on it. -/
def cell (bm : BlockManager) (bid : Nat) (isKey : Bool) (j : Nat) : Option F32 :=
  (bm.buffer bid isKey).bind fun buf => buf[j]?

/-- Cell `j` of a buffer after the first rows are written: of the last row that falls on it. -/
def lastCell (bm : BlockManager) (ids : List Nat) (start : Nat) (data : List F32) (hiddenDim : Nat)
    (isKey : Bool) (bid j : Nat) : Nat → Option F32
  | 0 => bm.cell bid isKey j
  | k + 1 =>
    if bm.place ids (start + k) = some (bid, j / hiddenDim) then
      data[k * hiddenDim + j % hiddenDim]?
    else lastCell bm ids start data hiddenDim isKey bid j k

theorem writeRows_append (offs offs' : List Nat) (bm : BlockManager) :
    writeRows ids rid start data hiddenDim isKey (offs ++ offs') bm =
      match writeRows ids rid start data hiddenDim isKey offs bm with
      | some (.ok (), bm') => writeRows ids rid start data hiddenDim isKey offs' bm'
      | stopped => stopped := by
  induction offs generalizing bm with
  | nil => rfl
  | cons off offs ih =>
    rw [cons_append, writeRows, writeRows]
    cases writeRow ids rid start data hiddenDim isKey bm off with
    | none => rfl
    | some out =>
      obtain ⟨result, bm'⟩ := out
      cases result with
      | error => rfl
      | ok => exact ih bm'

/-- Two pools whose buffers have the same lengths. -/
structure SameLengths (bm bm' : BlockManager) : Prop where
  blockSize : bm'.blockSize = bm.blockSize
  length : ∀ b isKey, (bm'.buffer b isKey).map List.length = (bm.buffer b isKey).map List.length

theorem SameLengths.rowFits (h : SameLengths bm bm')
    (hfits : bm.RowFits ids hiddenDim isKey pos) : bm'.RowFits ids hiddenDim isKey pos := by
  obtain ⟨bid, buf, hbid, hbuf, hroom⟩ := hfits
  have hlen := h.length bid isKey
  rw [hbuf, Option.map_some] at hlen
  obtain ⟨buf', hbuf', hlen'⟩ := Option.map_eq_some_iff.1 hlen
  refine ⟨bid, buf', ?_, hbuf', ?_⟩
  · rwa [h.blockSize]
  · rwa [h.blockSize, hlen']

theorem SameLengths.symm (h : SameLengths bm bm') : SameLengths bm' bm :=
  ⟨h.blockSize.symm, fun b isKey => (h.length b isKey).symm⟩

theorem SameLengths.rowFails (h : SameLengths bm bm')
    (hfails : bm.RowFails ids isKey pos) : bm'.RowFails ids isKey pos := by
  intro bid hbid
  rw [h.blockSize] at hbid
  have hlen := h.length bid isKey
  rw [hfails bid hbid, Option.map_none] at hlen
  exact Option.map_eq_none_iff.1 hlen

theorem cell_overwrite {row : List F32} (hdim : 0 < hiddenDim)
    (hrow : row.length = hiddenDim) (hroom : i * hiddenDim + hiddenDim ≤ buf.length) :
    (overwrite buf (i * hiddenDim) row)[j]? =
      if i = j / hiddenDim then row[j % hiddenDim]? else buf[j]? := by
  have hj : j / hiddenDim * hiddenDim + j % hiddenDim = j := Nat.div_add_mod' j hiddenDim
  have hlt := Nat.mod_lt j hdim
  rw [getElem?_overwrite (by rw [hrow]; exact hroom), hrow]
  by_cases hi : i = j / hiddenDim
  · have hin : i * hiddenDim ≤ j ∧ j < i * hiddenDim + hiddenDim := by
      rw [hi]
      omega
    rw [if_pos hin, if_pos hi]
    congr 1
    rw [hi]
    omega
  · rw [if_neg hi, if_neg]
    rintro ⟨hle, hlt'⟩
    refine hi ((Nat.div_eq_of_lt_le hle ?_).symm)
    rw [Nat.succ_mul]
    exact hlt'

theorem writeRows_of_fits (rid : String) (hdim : 0 < hiddenDim)
    (hfits : ∀ o < k, bm.RowFits ids hiddenDim isKey (start + o))
    (hdata : ∀ o < k, o * hiddenDim + hiddenDim ≤ data.length) :
    ∃ bm', writeRows ids rid start data hiddenDim isKey (range k) bm = some (.ok (), bm') ∧
      SameLengths bm bm' ∧
      (∀ b isKey', isKey' ≠ isKey → bm'.buffer b isKey' = bm.buffer b isKey') ∧
      ∀ b j, bm'.cell b isKey j = bm.lastCell ids start data hiddenDim isKey b j k := by
  induction k with
  | zero => exact ⟨bm, rfl, ⟨rfl, fun _ _ => rfl⟩, fun _ _ _ => rfl, fun _ _ => rfl⟩
  | succ k ih =>
    obtain ⟨bm1, hrun, hsame, hother, hcells⟩ := ih (fun o ho => hfits o (Nat.lt_succ_of_lt ho))
      (fun o ho => hdata o (Nat.lt_succ_of_lt ho))
    have hfitsK := hsame.rowFits (hfits k (Nat.lt_succ_self k))
    have hdataK := hdata k (Nat.lt_succ_self k)
    obtain ⟨bid, bm2, hbid, hwrite, hsize, hbuffer⟩ := writeRow_of_fits rid hfitsK hdataK
    have hrow : (slice data (k * hiddenDim) hiddenDim).length = hiddenDim := length_slice hdataK
    -- the buffer that row `k` falls on
    obtain ⟨_, buf, hbid', hbuf, hroom⟩ := hfitsK
    cases hbid.symm.trans hbid'
    refine ⟨bm2, ?_, ⟨hsize.trans hsame.blockSize, fun b isKey' => ?_⟩, fun b isKey' hne => ?_,
      fun b j => ?_⟩
    · rw [range_succ, writeRows_append, hrun]
      simp only [writeRows, hwrite]
    · rw [← hsame.length b isKey', hbuffer]
      by_cases hb : b = bid ∧ isKey' = isKey
      · obtain ⟨rfl, rfl⟩ := hb
        rw [if_pos ⟨rfl, rfl⟩, hbuf, Option.map_some, Option.map_some, Option.map_some,
          length_overwrite (by rw [hrow]; exact hroom)]
      · rw [if_neg hb]
    · rw [hbuffer, if_neg fun h => hne h.2, hother b isKey' hne]
    · have hplace : bm.place ids (start + k) = some (bid, (start + k) % bm1.blockSize) := by
        rw [place, ← hsame.blockSize, hbid, Option.map_some]
      rw [lastCell, ← hcells, hplace, cell, cell, hbuffer]
      by_cases hb : b = bid
      · subst hb
        rw [if_pos ⟨rfl, rfl⟩, hbuf, Option.map_some, Option.bind_some, Option.bind_some,
          cell_overwrite hdim hrow hroom]
        simp only [Option.some_inj, Prod.mk.injEq, true_and]
        rw [getElem?_slice, if_pos (Nat.mod_lt j hdim)]
      · rw [if_neg fun h => hb h.1, if_neg]
        rw [Option.some_inj, Prod.mk.injEq]
        exact fun h => hb h.1.symm

/-! ## What the rows before a failure change -/

/-- Of the first `k` rows, those that are the last at their place are stored already. -/
def StoredBefore (bm : BlockManager) (ids : List Nat) (start : Nat) (data : List F32)
    (hiddenDim : Nat) (isKey : Bool) (k : Nat) : Prop :=
  ∀ o < k, (∀ o', o < o' → o' < k → bm.place ids (start + o') ≠ bm.place ids (start + o)) →
    bm.rowAt ids hiddenDim isKey (start + o) = slice data (o * hiddenDim) hiddenDim

theorem lastCell_of_notHit (h : ∀ o < k, bm.place ids (start + o) ≠ some (b, j / hiddenDim)) :
    bm.lastCell ids start data hiddenDim isKey b j k = bm.cell b isKey j := by
  induction k with
  | zero => rfl
  | succ k ih =>
    rw [lastCell, if_neg (h k (Nat.lt_succ_self k)), ih fun o ho => h o (Nat.lt_succ_of_lt ho)]

theorem lastCell_of_last (ho : o < k) (hit : bm.place ids (start + o) = some (b, j / hiddenDim))
    (hlast : ∀ o', o < o' → o' < k → bm.place ids (start + o') ≠ some (b, j / hiddenDim)) :
    bm.lastCell ids start data hiddenDim isKey b j k = data[o * hiddenDim + j % hiddenDim]? := by
  induction k with
  | zero => exact absurd ho (Nat.not_lt_zero o)
  | succ k ih =>
    rw [lastCell]
    rcases Nat.eq_or_lt_of_le (Nat.le_of_lt_succ ho) with rfl | hlt
    · rw [if_pos hit]
    · rw [if_neg (hlast k hlt (Nat.lt_succ_self k)),
        ih hlt fun o' ho' hk => hlast o' ho' (Nat.lt_succ_of_lt hk)]

theorem exists_last (P : Nat → Prop) (k : Nat) :
    (∀ o < k, ¬ P o) ∨ ∃ o < k, P o ∧ ∀ o', o < o' → o' < k → ¬ P o' := by
  induction k with
  | zero => exact .inl fun o ho => absurd ho (Nat.not_lt_zero o)
  | succ k ih =>
    by_cases hk : P k
    · exact .inr ⟨k, Nat.lt_succ_self k, hk, fun o' ho ho' => by omega⟩
    · rcases ih with hnone | ⟨o, ho, hP, hlast⟩
      · refine .inl fun o ho => ?_
        rcases Nat.eq_or_lt_of_le (Nat.le_of_lt_succ ho) with rfl | hlt
        · exact hk
        · exact hnone o hlt
      · refine .inr ⟨o, Nat.lt_succ_of_lt ho, hP, fun o' hlt ho' => ?_⟩
        rcases Nat.eq_or_lt_of_le (Nat.le_of_lt_succ ho') with rfl | hlt'
        · exact hk
        · exact hlast o' hlt hlt'

theorem getElem?_rowAt (hplace : bm.place ids pos = some (b, i)) (j : Nat) :
    (bm.rowAt ids hiddenDim isKey pos)[j]? =
      if j < hiddenDim then bm.cell b isKey (i * hiddenDim + j) else none := by
  obtain ⟨bid, hbid, hpair⟩ := Option.map_eq_some_iff.1 hplace
  obtain ⟨hb, hi⟩ := Prod.mk.inj hpair
  unfold rowAt blockRow cell buffer
  simp only [hbid, hb, hi]
  cases bm.blocks[b]? with
  | none => simp
  | some e =>
    cases e with
    | plain => simp
    | cached => exact getElem?_slice _ _ _ _

theorem lastCell_eq_cell_iff (hdim : 0 < hiddenDim)
    (hfits : ∀ o < k, bm.RowFits ids hiddenDim isKey (start + o)) :
    (∀ b j, bm.lastCell ids start data hiddenDim isKey b j k = bm.cell b isKey j) ↔
      bm.StoredBefore ids start data hiddenDim isKey k := by
  constructor
  · intro h o ho hlast
    obtain ⟨b, buf, hb, -, -⟩ := hfits o ho
    have hplace : bm.place ids (start + o) = some (b, (start + o) % bm.blockSize) := by
      rw [place, hb, Option.map_some]
    refine List.ext_getElem? fun j => ?_
    rw [getElem?_rowAt hplace, getElem?_slice]
    by_cases hj : j < hiddenDim
    · have hdiv : ((start + o) % bm.blockSize * hiddenDim + j) / hiddenDim =
          (start + o) % bm.blockSize := by
        rw [add_comm, Nat.add_mul_div_right _ _ hdim, Nat.div_eq_of_lt hj, zero_add]
      have hmod : ((start + o) % bm.blockSize * hiddenDim + j) % hiddenDim = j := by
        rw [add_comm, Nat.add_mul_mod_self_right, Nat.mod_eq_of_lt hj]
      rw [if_pos hj, if_pos hj, ← h]
      rw [lastCell_of_last ho (by rw [hdiv]; exact hplace) (by
        rw [hdiv, ← hplace]
        exact hlast), hmod]
    · rw [if_neg hj, if_neg hj]
  · intro h b j
    rcases exists_last (fun o => bm.place ids (start + o) = some (b, j / hiddenDim)) k with
      hnone | ⟨o, ho, hit, hlast⟩
    · exact lastCell_of_notHit hnone
    · rw [lastCell_of_last ho hit hlast]
      have hstored := h o ho (by
        rw [hit]
        exact hlast)
      have hat := congrArg (fun row : List F32 => row[j % hiddenDim]?) hstored
      simp only [getElem?_rowAt hit, getElem?_slice, if_pos (Nat.mod_lt j hdim),
        Nat.div_add_mod'] at hat
      exact hat.symm

/-! ## The whole call -/

variable (bm rid start data)

/-- The call returns, and if it returns an error every buffer is as it was. -/
def WriteAtomic (hiddenDim : Nat) (isKey : Bool) : Prop :=
  ∃ result bm', bm.writeKv rid start data hiddenDim isKey = some (result, bm') ∧
    ∀ e, result = .error e → ∀ b isKey', bm'.buffer b isKey' = bm.buffer b isKey'

/-- The first position without room is one without a buffer, its rows stored already. -/
def WriteSafe (hiddenDim : Nat) (isKey : Bool) : Prop :=
  ∀ ids, bm.blockTables.lookup rid = some ids →
    0 < hiddenDim ∧ (data.length % hiddenDim = 0 → ∀ k < data.length / hiddenDim,
      (∀ o < k, bm.RowFits ids hiddenDim isKey (start + o)) →
        bm.RowFits ids hiddenDim isKey (start + k) ∨
          bm.RowFails ids isKey (start + k) ∧ bm.StoredBefore ids start data hiddenDim isKey k)

variable {bm rid start data}

theorem SameLengths.buffer_eq_iff (h : SameLengths bm bm')
    (hother : ∀ b isKey', isKey' ≠ isKey → bm'.buffer b isKey' = bm.buffer b isKey') :
    (∀ b isKey', bm'.buffer b isKey' = bm.buffer b isKey') ↔
      ∀ b j, bm'.cell b isKey j = bm.cell b isKey j := by
  constructor
  · intro heq b j
    rw [cell, cell, heq]
  · intro heq b isKey'
    by_cases hkey : isKey' = isKey
    · subst hkey
      have hlen := h.length b isKey'
      cases hbuf : bm.buffer b isKey' with
      | none =>
        rw [hbuf, Option.map_none] at hlen
        exact Option.map_eq_none_iff.1 hlen
      | some =>
        rw [hbuf, Option.map_some] at hlen
        obtain ⟨buf', hbuf', -⟩ := Option.map_eq_some_iff.1 hlen
        rw [hbuf', Option.some_inj]
        refine List.ext_getElem? fun j => ?_
        have hj := heq b j
        rwa [cell, cell, hbuf, hbuf', Option.bind_some, Option.bind_some] at hj
    · exact hother b isKey' hkey

theorem row_in_data (hdata : data.length % hiddenDim = 0)
    (hn : n = data.length / hiddenDim) (ho : o < n) :
    o * hiddenDim + hiddenDim ≤ data.length := by
  have hlen : data.length = n * hiddenDim := by
    rw [hn]
    exact (Nat.div_mul_cancel (Nat.dvd_of_mod_eq_zero hdata)).symm
  rw [hlen]
  exact row_fits ho

theorem writeRows_at (rid : String) (hdim : 0 < hiddenDim) (hk : k < n)
    (hfits : ∀ o < k, bm.RowFits ids hiddenDim isKey (start + o))
    (hdata : ∀ o < n, o * hiddenDim + hiddenDim ≤ data.length)
    (hstop : ¬ bm.RowFits ids hiddenDim isKey (start + k)) :
    (∃ result bm', writeRows ids rid start data hiddenDim isKey (range n) bm =
        some (result, bm') ∧
      ∀ e, result = .error e → ∀ b isKey', bm'.buffer b isKey' = bm.buffer b isKey') ↔
      bm.RowFails ids isKey (start + k) ∧ bm.StoredBefore ids start data hiddenDim isKey k := by
  obtain ⟨bm1, hrun, hsame, hother, hcells⟩ := writeRows_of_fits rid hdim hfits
    (fun o ho => hdata o (lt_trans ho hk))
  obtain ⟨m, rfl⟩ : ∃ m, n = k + (m + 1) := ⟨n - (k + 1), by omega⟩
  have hrange : range (k + (m + 1)) = range k ++ (k :: range' (k + 1) m) := by
    rw [← range'_succ, range_eq_range', range_eq_range', ← range'_append_1,
      zero_add]
  have hstop1 : ¬ bm1.RowFits ids hiddenDim isKey (start + k) := fun h =>
    hstop (hsame.symm.rowFits h)
  have hunchanged : (∀ b isKey', bm1.buffer b isKey' = bm.buffer b isKey') ↔
      bm.StoredBefore ids start data hiddenDim isKey k := by
    rw [hsame.buffer_eq_iff hother, ← lastCell_eq_cell_iff hdim hfits]
    simp only [hcells]
  have htail : writeRows ids rid start data hiddenDim isKey (range (k + (m + 1))) bm =
      match writeRow ids rid start data hiddenDim isKey bm1 k with
      | some (.ok (), bm') => writeRows ids rid start data hiddenDim isKey
          (range' (k + 1) m) bm'
      | stopped => stopped := by
    rw [hrange, writeRows_append, hrun]
    rfl
  by_cases hfails : bm.RowFails ids isKey (start + k)
  · -- an error, with the state of the rows before it
    obtain ⟨e, he⟩ := writeRow_of_fails rid data hiddenDim (hsame.rowFails hfails)
    rw [he] at htail
    rw [htail, ← hunchanged]
    constructor
    · rintro ⟨result, bm', heq, hsafe⟩
      cases heq
      exact ⟨hfails, hsafe e rfl⟩
    · rintro ⟨-, heq⟩
      exact ⟨_, _, rfl, fun _ _ => heq⟩
  · -- a panic
    have hnone := writeRow_of_long rid data hstop1 fun h => hfails (hsame.symm.rowFails h)
    rw [hnone] at htail
    rw [htail]
    constructor
    · rintro ⟨_, _, heq, _⟩
      cases heq
    · rintro ⟨h, -⟩
      exact absurd h hfails

/-- `write_kv` is atomic exactly when it is safe. -/
theorem writeKv_atomic_iff (bm : BlockManager) (rid : String) (start : Nat) (data : List F32)
    (hiddenDim : Nat) (isKey : Bool) :
    bm.WriteAtomic rid start data hiddenDim isKey ↔
      bm.WriteSafe rid start data hiddenDim isKey := by
  unfold WriteAtomic WriteSafe writeKv getBlocks
  cases htable : bm.blockTables.lookup rid with
  | none =>
    refine ⟨fun _ ids hids => (nomatch hids), fun _ => ⟨_, _, rfl, fun _ _ _ _ => rfl⟩⟩
  | some ids =>
    simp only [Option.some_inj, forall_eq']
    rcases Nat.eq_zero_or_pos hiddenDim with rfl | hdim
    · simp
    rw [if_neg (ne_of_gt hdim)]
    by_cases hdata : data.length % hiddenDim = 0
    · rw [if_neg (not_not.2 hdata)]
      have hrows : ∀ o < data.length / hiddenDim, o * hiddenDim + hiddenDim ≤ data.length :=
        fun o ho => row_in_data hdata rfl ho
      by_cases hall : ∀ o < data.length / hiddenDim, bm.RowFits ids hiddenDim isKey (start + o)
      · -- every row fits
        obtain ⟨bm', hrun, -⟩ := writeRows_of_fits rid hdim hall hrows
        rw [hrun]
        exact ⟨fun _ => ⟨hdim, fun _ k hk _ => .inl (hall k hk)⟩,
          fun _ => ⟨_, _, rfl, fun e he => (nomatch he)⟩⟩
      · -- the first row that does not
        push Not at hall
        classical
        obtain ⟨hk, hstop⟩ := Nat.find_spec hall
        have hbefore : ∀ o < Nat.find hall, bm.RowFits ids hiddenDim isKey (start + o) := by
          intro o ho
          by_contra hno
          exact Nat.find_min hall ho ⟨lt_trans ho hk, hno⟩
        rw [writeRows_at rid hdim hk hbefore hrows hstop]
        constructor
        · rintro ⟨hfails, hstored⟩
          refine ⟨hdim, fun _ k hk' hbefore' => ?_⟩
          rcases Nat.lt_trichotomy k (Nat.find hall) with hlt | rfl | hgt
          · exact .inl (hbefore k hlt)
          · exact .inr ⟨hfails, hstored⟩
          · exact absurd (hbefore' _ hgt) hstop
        · rintro ⟨-, hsafe⟩
          exact (hsafe hdata _ hk hbefore).resolve_left hstop
    · rw [if_pos hdata]
      exact ⟨fun _ => ⟨hdim, fun h => absurd h hdata⟩, fun _ => ⟨_, _, rfl, fun _ _ _ _ => rfl⟩⟩

/-- The first of two rows is written before the second is out of range. -/
theorem writeKv_atomic_fails :
    ∃ bm₀ ids bm, newWithCache 1 2 1 1 = .ok bm₀ ∧ bm₀.allocate "a" 2 = (.ok ids, bm) ∧
      ¬ bm.WriteAtomic "a" 1 [⟨7⟩, ⟨8⟩] 1 true ∧ ¬ bm.WriteAtomic "a" 0 [] 0 true := by
  obtain ⟨bm₀, h₀⟩ : ∃ bm₀, newWithCache 1 2 1 1 = .ok bm₀ := ⟨_, rfl⟩
  obtain ⟨bm, bm', e, hok, hwrite, hbefore, hafter, hzero⟩ : ∃ bm bm' e,
      bm₀.allocate "a" 2 = (.ok [0], bm) ∧
      bm.writeKv "a" 1 [⟨7⟩, ⟨8⟩] 1 true = some (.error e, bm') ∧
      bm.buffer 0 true = some [0, 0] ∧ bm'.buffer 0 true = some [0, ⟨7⟩] ∧
      bm.writeKv "a" 0 [] 0 true = none := by
    cases h₀
    exact ⟨_, _, _, rfl, rfl, rfl, rfl, rfl⟩
  refine ⟨bm₀, [0], bm, h₀, hok, ?_, ?_⟩
  · rintro ⟨result, bm'', heq, hsafe⟩
    cases hwrite.symm.trans heq
    have hsame := (hafter.symm.trans (hsafe e rfl 0 true)).trans hbefore
    exact absurd hsame (by decide)
  · rintro ⟨result, bm'', heq, -⟩
    cases hzero.symm.trans heq

end CompileForge.Runtime.BlockManager
