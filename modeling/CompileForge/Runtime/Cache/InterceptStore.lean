/-
  What the producer hook stores: for a BNSD tensor that holds the rows of some
  positions, `write_data` is those rows one after the other,
  whichever of the three transpositions runs, so the hook writes them into the
  layer's table from its start position on.
-/

import CompileForge.Runtime.Cache.BlockStore
import CompileForge.Runtime.Cache.Intercept

namespace CompileForge.Runtime

open Lib List

variable {nh hd : Nat}

/-- The tensor that holds these rows head-major. -/
def bnsd (nh hd : Nat) (rows : List (List F32)) : Tensor :=
  { shape := [1, nh, rows.length, hd]
    data := (range nh).flatMap fun h => rows.flatMap fun r => slice r (h * hd) hd }

/-! ## The copy loops -/

variable {n fi start : Nat} {srcOff : Nat → Nat → Nat} {rows : List (List F32)}
  {slab : Option SlabSpec} {bm : BlockManager} {rid : String} {ids : List Nat}
  {positions : List UInt32} {isDecode : Bool}

theorem copyHeads_eq {src : List F32}
    (hsrc : ∀ p h, p < n → h < nh → srcOff p h + hd ≤ src.length) :
    copyHeads n nh hd srcOff src = some ((range n).flatMap fun p =>
        (range nh).flatMap fun h => slice src (srcOff p h) hd) := by
  have hrowlen : ∀ p, p < n →
      ((range nh).flatMap fun h => slice src (srcOff p h) hd).length = nh * hd := by
    intro p hp
    rw [length_flatMap_windows fun h hh => length_slice (hsrc p h hp (mem_range.1 hh)),
      length_range]
  -- the inner loop overwrites the row of `p`
  have hrow : ∀ dst p, p < n → 0 + p * (nh * hd) ≤ dst.length →
      (range nh).foldlM (copyHead nh hd srcOff src p) dst =
        some (overwrite dst (0 + p * (nh * hd))
          ((range nh).flatMap fun h => slice src (srcOff p h) hd)) := by
    intro dst p hp hfits
    refine foldlM_overwrite_eq nh (fun dst h hh _ => ?_)
      (fun h hh => length_slice (hsrc p h hp hh)) hfits
    rw [copyHead, if_pos (hsrc p h hp hh), zero_add]
  have hall := foldlM_overwrite_eq n hrow hrowlen (Nat.zero_le
    (replicate (n * (nh * hd)) (0 : F32)).length)
  rw [copyHeads, hall, overwrite]
  rw [length_flatMap_windows fun p hp => hrowlen p (mem_range.1 hp), length_range]
  simp

theorem slice_bnsd (hrows : ∀ r ∈ rows, r.length = nh * hd) {p h : Nat}
    {r : List F32} (hr : rows[p]? = some r) (hh : h < nh) :
    slice (bnsd nh hd rows).data (bnsdOffset rows.length hd p h) hd = slice r (h * hd) hd := by
  have hp : p < rows.length := (List.getElem?_eq_some_iff.1 hr).1
  have hhead : ∀ i, i < nh → ∀ r ∈ rows, (slice r (i * hd) hd).length = hd := by
    intro i hi r hr
    refine length_slice ?_
    rw [hrows r hr]
    exact BlockManager.row_fits hi
  have hplane : ∀ i ∈ range nh,
      (rows.flatMap fun r => slice r (i * hd) hd).length = rows.length * hd :=
    fun i hi => length_flatMap_windows (hhead i (mem_range.1 hi))
  have hrange : (range nh)[h]? = some h := getElem?_range hh
  have hfits : p * hd + hd ≤ rows.length * hd := BlockManager.row_fits hp
  rw [bnsdOffset, bnsd, ← slice_slice _ hfits, slice_flatMap_window hplane hrange,
    slice_flatMap_window (hhead h hh) hr]

theorem length_bnsd (hrows : ∀ r ∈ rows, r.length = nh * hd) :
    (bnsd nh hd rows).data.length = nh * (rows.length * hd) := by
  rw [bnsd, length_flatMap_windows, length_range]
  intro h hh
  refine length_flatMap_windows fun r hr => length_slice ?_
  rw [hrows r hr]
  exact BlockManager.row_fits (mem_range.1 hh)

theorem copyHeads_bnsd (hrows : ∀ r ∈ rows, r.length = nh * hd)
    (hoff : ∀ p h, srcOff p h = bnsdOffset rows.length hd p h) :
    copyHeads rows.length nh hd srcOff (bnsd nh hd rows).data = some rows.flatten := by
  have hsrc : ∀ p h, p < rows.length → h < nh →
      srcOff p h + hd ≤ (bnsd nh hd rows).data.length := by
    intro p h hp hh
    have hplane : h * (rows.length * hd) + rows.length * hd ≤ nh * (rows.length * hd) :=
      BlockManager.row_fits hh
    have hrow : p * hd + hd ≤ rows.length * hd := BlockManager.row_fits hp
    rw [hoff, length_bnsd hrows, bnsdOffset]
    omega
  rw [copyHeads_eq hsrc]
  have hrow : ∀ p ∈ range rows.length,
      ((range nh).flatMap fun h => slice (bnsd nh hd rows).data (srcOff p h) hd) =
        rows.getD p [] := by
    intro p hp
    have hp' : p < rows.length := mem_range.1 hp
    have hr := getElem?_eq_getElem hp'
    have hheads : ∀ h ∈ range nh, slice (bnsd nh hd rows).data (srcOff p h) hd =
        slice rows[p] (h * hd) hd := by
      intro h hh
      rw [hoff, slice_bnsd hrows hr (mem_range.1 hh)]
    rw [flatMap_congr hheads, flatMap_slices _ nh (hrows _ (getElem_mem hp')),
      getD_eq_getElem?_getD, hr, Option.getD_some]
  rw [flatMap_congr hrow]
  congr 1
  rw [List.flatMap, range_eq_range']
  congr 1
  apply ext_getElem
  · simp
  · intro i h1 h2
    simp [getD_eq_getElem?_getD, getElem?_eq_getElem h2]

/-! ## What is written -/

/-- The contract of a slab agrees with the tensors it stores. -/
def SlabFits (slab : Option SlabSpec) (nh hd : Nat) : Prop :=
  ∀ s, slab = some s → (s.dims.lookup "heads").getD nh = nh ∧ (s.dims.lookup "dim").getD hd = hd

theorem slabFits_none (nh hd : Nat) : SlabFits none nh hd := fun _ h => by cases h

theorem headDims_bnsd (hslab : SlabFits slab nh hd)
    (rows : List (List F32)) : headDims slab (bnsd nh hd rows) = some (nh, hd) := by
  cases slab with
  | none => rfl
  | some s =>
    obtain ⟨hheads, hdim⟩ := hslab s rfl
    show some ((s.dims.lookup "heads").getD nh, (s.dims.lookup "dim").getD hd) = some (nh, hd)
    rw [hheads, hdim]

theorem findAxis_four (batch a b c : Nat) (ok : Nat → Bool) :
    findAxis [batch, a, b, c] ok =
      if ok a then some 1 else if ok b then some 2 else if ok c then some 3 else none := by
  simp only [findAxis, zipIdx, drop_succ_cons, drop_zero, List.find?]
  cases ok a with
  | true => rfl
  | false =>
    cases ok b with
    | true => rfl
    | false => cases ok c <;> rfl

/-- The axes inferred for a BNSD tensor give its own offsets, and so does the fallback. -/
theorem transposeToBnldFromSlab_bnsdShape (nh n hd : Nat) (data : List F32) :
    transposeToBnldFromSlab ⟨[1, nh, n, hd], data⟩ n nh hd =
      copyHeads n nh hd (bnsdOffset n hd) data := by
  have hstrided : (fun p i => p * (strides [1, nh, n, hd]).getD 2 0 +
      i * (strides [1, nh, n, hd]).getD 1 0) = bnsdOffset n hd := by
    funext p h
    have hseq : (strides [1, nh, n, hd]).getD 2 0 = hd := by simp [strides]
    have hhead : (strides [1, nh, n, hd]).getD 1 0 = n * hd := by simp [strides]
    rw [hseq, hhead, bnsdOffset, add_comm]
  rw [transposeToBnldFromSlab, if_neg (by simp), if_neg (by simp)]
  simp only [findAxis_four]
  by_cases hseq : n ≠ nh ∧ n ≠ hd
  · by_cases hdim : nh = hd
    · -- heads and dim have one size and are both found on axis 1
      simp only [hseq, hdim, ne_eq, not_true_eq_false, and_false, not_false_eq_true, and_self,
        decide_true, decide_false, if_true, Bool.false_eq_true, if_false]
      rfl
    · simp only [hseq, hdim, Ne.symm hseq.1, ne_eq, not_true_eq_false, false_and,
        and_false, not_false_eq_true, and_self, decide_true, decide_false, if_true,
        Bool.false_eq_true, if_false]
      exact congrArg (fun off => copyHeads n nh hd off data) hstrided
  · -- no position axis was found
    have hnone : decide (¬ n = nh ∧ ¬ n = hd) = false := decide_eq_false hseq
    simp only [ne_eq, not_true_eq_false, false_and, and_false, true_and, hnone, decide_false,
      Bool.false_eq_true, if_false]
    rfl

theorem transposeToBnldFromSlab_bnsd (hrows : ∀ r ∈ rows, r.length = nh * hd) :
    transposeToBnldFromSlab (bnsd nh hd rows) rows.length nh hd = some rows.flatten :=
  (transposeToBnldFromSlab_bnsdShape nh rows.length hd _).trans
    (copyHeads_bnsd hrows fun _ _ => rfl)

theorem writeData_bnsd (slab : Option SlabSpec)
    (hrows : ∀ r ∈ rows, r.length = nh * hd) (hne : rows ≠ []) :
    writeData (bnsd nh hd rows) slab rows.length nh hd = some rows.flatten := by
  have hpos : 0 < rows.length := length_pos_iff.2 hne
  have hshape : 4 ≤ (bnsd nh hd rows).shape.length := by simp [bnsd]
  rw [writeData]
  by_cases hslab : slab.isSome
  · rw [if_pos ⟨hslab, hshape, hpos⟩]
    exact transposeToBnldFromSlab_bnsd hrows
  · rw [if_neg fun h => hslab h.1]
    by_cases hmany : 1 < rows.length
    · rw [if_pos ⟨hshape, hmany⟩]
      exact copyHeads_bnsd hrows fun _ _ => rfl
    · -- one position: the heads in order are its row
      rw [if_neg fun h => hmany h.2]
      obtain ⟨r, rfl⟩ := length_eq_one_iff.1 (show rows.length = 1 by omega)
      have hr := hrows r mem_cons_self
      simp only [bnsd, flatMap_cons, flatMap_nil, append_nil, flatten_cons, flatten_nil]
      rw [flatMap_slices r nh hr]

theorem interceptConsumedOutput_of_writeData
    (htable : bm.blockTables.lookup (layerRid rid fi) = some ids)
    (hpaged : bm.Paged ids (nh * hd)) (hdim : 0 < nh * hd)
    {tensor : Tensor} (hdims : headDims slab tensor = some (nh, hd))
    {data : List F32} (hdata : writeData tensor slab positions.length nh hd = some data)
    (hlen : data.length = n * (nh * hd)) (hstart : writeStart positions isDecode = some start)
    (hcover : start + n ≤ bm.blockSize * ids.length) (oi : Nat) (kvNew : KvNew)
    (outs : List IOTensorDef) (overrideIsKey : Bool) :
    ∃ bm', interceptConsumedOutput fi oi tensor kvNew (some bm) (some rid) positions
        isDecode outs slab overrideIsKey = some (.ok (), kvNew.insert (fi, oi) tensor, some bm') ∧
      BlockManager.SameLedger bm bm' ∧ bm'.Paged ids (nh * hd) ∧
      ∀ isKey p, bm'.rowAt ids (nh * hd) isKey p =
        if isKey = isKeyOutput outs oi overrideIsKey ∧ start ≤ p ∧ p < start + n then
          slice data ((p - start) * (nh * hd)) (nh * hd)
        else bm.rowAt ids (nh * hd) isKey p := by
  obtain ⟨bm', hwrite, hledger, hpaged', hrowsAt⟩ := BlockManager.writeKv_spec
    (isKeyOutput outs oi overrideIsKey) htable hpaged hdim hlen hcover
  refine ⟨bm', ?_, hledger, hpaged', hrowsAt⟩
  simp only [interceptConsumedOutput, hdims, hstart, hdata, hwrite, Option.bind_eq_bind,
    Option.bind_some]

theorem interceptConsumedOutput_spec (htable : bm.blockTables.lookup (layerRid rid fi) = some ids)
    (hpaged : bm.Paged ids (nh * hd)) (hdim : 0 < nh * hd) (hslab : SlabFits slab nh hd)
    (hrows : ∀ r ∈ rows, r.length = nh * hd) (hne : rows ≠ [])
    (hpositions : positions.length = rows.length)
    (hstart : writeStart positions isDecode = some start)
    (hcover : start + rows.length ≤ bm.blockSize * ids.length) (oi : Nat) (kvNew : KvNew)
    (outs : List IOTensorDef) (overrideIsKey : Bool) :
    ∃ bm', interceptConsumedOutput fi oi (bnsd nh hd rows) kvNew (some bm) (some rid) positions
        isDecode outs slab overrideIsKey =
          some (.ok (), kvNew.insert (fi, oi) (bnsd nh hd rows), some bm') ∧
      BlockManager.SameLedger bm bm' ∧ bm'.Paged ids (nh * hd) ∧
      ∀ isKey p, bm'.rowAt ids (nh * hd) isKey p =
        if isKey = isKeyOutput outs oi overrideIsKey ∧ start ≤ p ∧ p < start + rows.length then
          rows.getD (p - start) []
        else bm.rowAt ids (nh * hd) isKey p := by
  have hlen := length_flatten_rows hrows
  have hdata : writeData (bnsd nh hd rows) slab positions.length nh hd = some rows.flatten := by
    rw [hpositions]
    exact writeData_bnsd slab hrows hne
  obtain ⟨bm', hhook, hledger, hpaged', hrowsAt⟩ := interceptConsumedOutput_of_writeData htable
    hpaged hdim (headDims_bnsd hslab rows) hdata hlen hstart hcover oi kvNew outs overrideIsKey
  refine ⟨bm', hhook, hledger, hpaged', fun isKey p => ?_⟩
  rw [hrowsAt isKey p]
  by_cases hin : isKey = isKeyOutput outs oi overrideIsKey ∧ start ≤ p ∧ p < start + rows.length
  · rw [if_pos hin, if_pos hin]
    have hi : p - start < rows.length := by omega
    have hr := getElem?_eq_getElem hi
    rw [slice_flatten_row hrows hr, getD_eq_getElem?_getD, hr, Option.getD_some]
  · rw [if_neg hin, if_neg hin]

end CompileForge.Runtime
