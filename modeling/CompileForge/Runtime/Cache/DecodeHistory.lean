/-
  A prompt and any number of decode steps through the two hooks of a function that
  produces keys and values.
-/

import CompileForge.Lib.Outcome
import CompileForge.Runtime.Cache.InterceptStore
import CompileForge.Runtime.Cache.LedgerRun

namespace CompileForge.Runtime

open Lib List

variable {nh hd : Nat}

/-! ## Tensors and their rows -/

/-- The producer hook turns BNSD tensors into rows, and the pool keeps the rows by position. -/
def rowsOf (nh hd n : Nat) (data : List F32) : List (List F32) :=
  (range n).map fun p => (range nh).flatMap fun h => slice data (bnsdOffset n hd p h) hd

@[simp] theorem length_rowsOf (nh hd n : Nat) (data : List F32) :
    (rowsOf nh hd n data).length = n := by
  rw [rowsOf, length_map, length_range]

variable {n p h : Nat} {data : List F32} {rows : List (List F32)}

theorem bnsdOffset_fits (hp : p < n) (hh : h < nh) :
    bnsdOffset n hd p h + hd ≤ nh * (n * hd) := by
  have hplane : h * (n * hd) + n * hd ≤ nh * (n * hd) := BlockManager.row_fits hh
  have hrow : p * hd + hd ≤ n * hd := BlockManager.row_fits hp
  rw [bnsdOffset]
  omega

theorem length_of_mem_rowsOf (hdata : data.length = nh * (n * hd)) :
    ∀ r ∈ rowsOf nh hd n data, r.length = nh * hd := by
  intro r hr
  obtain ⟨p, hp, rfl⟩ := mem_map.1 hr
  rw [length_flatMap_windows fun h hh => length_slice ?_, length_range]
  rw [hdata]
  exact bnsdOffset_fits (mem_range.1 hp) (mem_range.1 hh)

theorem bnsd_rowsOf (hdata : data.length = nh * (n * hd)) :
    bnsd nh hd (rowsOf nh hd n data) = ⟨[1, nh, n, hd], data⟩ := by
  have hplanes : ∀ h ∈ range nh, (rowsOf nh hd n data).flatMap (fun r => slice r (h * hd) hd) =
        slice data (h * (n * hd)) (n * hd) := by
    intro h hh
    have hlt : h < nh := mem_range.1 hh
    have hplane : h * (n * hd) + n * hd ≤ data.length := by
      rw [hdata]
      exact BlockManager.row_fits hlt
    rw [← flatMap_slices (slice data (h * (n * hd)) (n * hd)) n (length_slice hplane), rowsOf,
      flatMap_map]
    refine flatMap_congr fun p hp => ?_
    have hpn : p < n := mem_range.1 hp
    have hparts : ∀ i ∈ range nh, (slice data (bnsdOffset n hd p i) hd).length = hd := by
      intro i hi
      refine length_slice ?_
      rw [hdata]
      exact bnsdOffset_fits hpn (mem_range.1 hi)
    rw [slice_flatMap_window hparts (getElem?_range hlt), bnsdOffset,
      slice_slice _ (BlockManager.row_fits hpn)]
  have hdata' : (range nh).flatMap (fun h => slice data (h * (n * hd)) (n * hd)) = data :=
    flatMap_slices data nh hdata
  rw [bnsd, length_rowsOf, flatMap_congr hplanes, hdata']

theorem bnsd_singleton {row : List F32} (hrow : row.length = nh * hd) :
    bnsd nh hd [row] = ⟨[1, nh, 1, hd], row⟩ := by
  simp only [bnsd, flatMap_cons, flatMap_nil, append_nil, length_singleton]
  rw [flatMap_slices row nh hrow]

theorem getElem?_bnsd (hrows : ∀ r ∈ rows, r.length = nh * hd)
    {d : Nat} {r : List F32} (hr : rows[p]? = some r) (hh : h < nh) (hd' : d < hd) :
    (bnsd nh hd rows).data[h * (rows.length * hd) + p * hd + d]? = r[h * hd + d]? := by
  have helement := congrArg (·[d]?) (slice_bnsd hrows hr hh)
  simpa only [getElem?_slice, if_pos hd', bnsdOffset] using helement

theorem toBnsd_flatten (hrows : ∀ r ∈ rows, r.length = nh * hd) :
    toBnsd nh hd rows.length rows.flatten = some (bnsd nh hd rows).data := by
  have hlen := length_flatten_rows hrows
  -- one window of the flat rows
  have hwindow : ∀ h < nh, ∀ p ∈ range rows.length,
      headRow nh hd rows.flatten h p = some (slice (rows.getD p []) (h * hd) hd) := by
    intro h hh p hp
    have hpn : p < rows.length := mem_range.1 hp
    have hr := getElem?_eq_getElem hpn
    have hrow := slice_flatten_row hrows hr
    have hin : h * hd + hd ≤ nh * hd := BlockManager.row_fits hh
    have hfits : p * (nh * hd) + nh * hd ≤ rows.length * (nh * hd) := BlockManager.row_fits hpn
    rw [headRow, if_pos (by omega), ← slice_slice _ hin, hrow, getD_eq_getElem?_getD, hr]
    rfl
  have hplane : ∀ h ∈ range nh, (range rows.length).mapM (headRow nh hd rows.flatten h) =
        some (rows.map fun r => slice r (h * hd) hd) := by
    intro h hh
    rw [mapM_eq_map (hwindow h (mem_range.1 hh))]
    congr 1
    refine ext_getElem? fun i => ?_
    rw [getElem?_map, getElem?_map]
    by_cases hi : i < rows.length
    · rw [getElem?_range hi, getElem?_eq_getElem hi, Option.map_some, Option.map_some,
        getD_eq_getElem?_getD, getElem?_eq_getElem hi]
      rfl
    · rw [getElem?_eq_none (by rw [length_range]; omega), getElem?_eq_none (by omega)]
      rfl
  rw [toBnsd, mapM_eq_map hplane]
  simp only [Option.bind_eq_bind, Option.bind_some, bnsd, map_map, Option.some_inj]
  rfl

theorem concatCached_bnsd (hdim : 0 < nh * hd) {new : List F32}
    (hrows : ∀ r ∈ rows, r.length = nh * hd) (hnew : new.length = nh * hd) :
    concatCached (bnsd nh hd [new]) nh hd rows.flatten = some (bnsd nh hd (rows ++ [new])) := by
  have hall : ∀ r ∈ rows ++ [new], r.length = nh * hd := by
    intro r hr
    rcases mem_append.1 hr with hr | hr
    · exact hrows r hr
    · rw [mem_singleton.1 hr, hnew]
  have hlen := length_flatten_rows hrows
  have hcached : rows.flatten.length / max (nh * hd) 1 = rows.length := by
    rw [hlen, max_eq_left hdim, Nat.mul_div_cancel _ hdim]
  have hshape : (bnsd nh hd [new]).shape.prod / max (nh * hd) 1 = 1 := by
    have hprod : (bnsd nh hd [new]).shape.prod = nh * hd := by simp [bnsd]
    rw [hprod, max_eq_left hdim, Nat.div_self hdim]
  have hdata : (bnsd nh hd [new]).data = new := congrArg Tensor.data (bnsd_singleton hnew)
  have htotal : rows.length + 1 = (rows ++ [new]).length := by simp
  have hflat : rows.flatten ++ new = (rows ++ [new]).flatten := by simp
  have hrank : 4 ≤ (bnsd nh hd [new]).shape.length := Nat.le_refl 4
  rw [concatCached, hcached, hshape, if_pos hrank, hdata, htotal, hflat, toBnsd_flatten hall]
  rfl

/-! ## A function that produces keys and values -/

/-- Of the flags of some outputs two are set, that of the keys first. -/
structure ConsumedPair (flags : List Bool) (keyIdx valueIdx : Nat) : Prop where
  key : flags[keyIdx]? = some true
  value : flags[valueIdx]? = some true
  lt : keyIdx < valueIdx
  only : ∀ i : Nat, flags[i]? = some true → i = keyIdx ∨ i = valueIdx

theorem ConsumedPair.findIdx? {flags : List Bool} {keyIdx valueIdx : Nat}
    (h : ConsumedPair flags keyIdx valueIdx) : flags.findIdx? id = some keyIdx := by
  rw [findIdx?_eq_some_iff_getElem]
  obtain ⟨hlt, hkey⟩ := List.getElem?_eq_some_iff.1 h.key
  refine ⟨hlt, hkey, fun j hj hset => ?_⟩
  have hj' : flags[j]? = some true := List.getElem?_eq_some_iff.2 ⟨by omega, hset⟩
  have hlt' := h.lt
  rcases h.only j hj' with rfl | rfl <;> omega

/-- A function with consumed keys (`idx true`) and values, as two outputs or one packed. -/
structure KvFunction where
  fi : Nat
  heads : Nat
  dim : Nat
  outs : List IOTensorDef
  idx : Bool → Nat
  overrideIsKey : Bool → Bool
  subFlags : Option (List Bool)
  slab : Option SlabSpec
  slab_fits : SlabFits slab heads dim
  declared :
    (ConsumedPair (outs.map (·.consumedInternally)) (idx true) (idx false) ∧
      (subFlags = none ∨ subFlags = some (outs.map (·.consumedInternally)))) ∨
    (outs = [⟨true⟩] ∧ (∀ isKey, overrideIsKey isKey = isKey) ∧
      ∃ flags, subFlags = some flags ∧ ConsumedPair flags (idx true) (idx false))

theorem head?_kvIndices (outs : List IOTensorDef) :
    ((outs.zipIdx.filter fun o => o.1.consumedInternally).map Prod.snd).head? =
      (outs.map (·.consumedInternally)).findIdx? id := by
  rw [head?_map, head?_filter, findIdx?_map, findIdx?_eq_fst_find?_zipIdx]
  rfl

namespace KvFunction

variable {f : KvFunction} {bm : BlockManager} {rid : String} {ids : List Nat}

variable (f rid)

/-- The width of a row. -/
def hiddenDim : Nat := f.heads * f.dim

theorem idx_ne : f.idx true ≠ f.idx false := by
  rcases f.declared with ⟨hpair, -⟩ | ⟨-, -, flags, -, hpair⟩
  · exact ne_of_lt hpair.lt
  · exact ne_of_lt hpair.lt

theorem decide_idx (isKey : Bool) :
    decide (some (f.idx true) = some (f.idx isKey)) = isKey := by
  cases isKey with
  | true => exact decide_eq_true rfl
  | false => exact decide_eq_false fun h => f.idx_ne (Option.some.inj h)

theorem isKeyOutput_idx (isKey : Bool) :
    isKeyOutput f.outs (f.idx isKey) (f.overrideIsKey isKey) = isKey := by
  rcases f.declared with ⟨hpair, -⟩ | ⟨houts, hoverride, -⟩
  · -- two flags are set, so there is more than one output
    have hlen : f.idx false < f.outs.length := by
      have h := (List.getElem?_eq_some_iff.1 hpair.value).1
      rwa [length_map] at h
    have hlt := hpair.lt
    rw [isKeyOutput, if_neg fun h => by omega, head?_kvIndices, hpair.findIdx?]
    exact f.decide_idx isKey
  · rw [houts, isKeyOutput, if_pos ⟨rfl, rfl, rfl⟩, hoverride]

theorem readsKey_idx (isKey : Bool) : readsKey f.outs (f.idx isKey) f.subFlags = isKey := by
  rcases f.declared with ⟨hpair, hflags | hflags⟩ | ⟨-, -, flags, hflags, hpair⟩
  · rw [hflags, readsKey, head?_kvIndices, hpair.findIdx?]
    exact f.decide_idx isKey
  · rw [hflags, readsKey, hpair.findIdx?]
    exact f.decide_idx isKey
  · rw [hflags, readsKey, hpair.findIdx?]
    exact f.decide_idx isKey

/-! ## The hooks of a forward pass -/

/-- `intercept_consumed_output` for the keys or the values, `none` where it fails. -/
def produceOne (tensor : Tensor) (positions : List UInt32) (isDecode isKey : Bool)
    (fed : KvNew × BlockManager) : Option (KvNew × BlockManager) :=
  match interceptConsumedOutput f.fi (f.idx isKey) tensor fed.1 (some fed.2) (some rid) positions
      isDecode f.outs f.slab (f.overrideIsKey isKey) with
  | some (.ok (), kvNew, some bm) => some (kvNew, bm)
  | _ => none

/-- The keys, then the values, with a fresh `kv_new`. -/
def produce (tensor : Bool → Tensor) (positions : List UInt32) (isDecode : Bool)
    (bm : BlockManager) : Option (KvNew × BlockManager) := do
  let fed ← f.produceOne rid (tensor true) positions isDecode true (∅, bm)
  f.produceOne rid (tensor false) positions isDecode false fed

/-- `intercept_consumed_input` of a decode step at `pos`. -/
def consume (pos : UInt32) (fed : KvNew × BlockManager) (isKey : Bool) : Option Tensor :=
  match interceptConsumedInput f.fi (f.idx isKey) f.outs fed.1 (some fed.2) (some rid) [pos]
      true f.slab f.subFlags with
  | some (.ok tensor) => some tensor
  | _ => none

/-- The consumer hook turns the rows read back and the new one into a BNSD tensor again. -/
def decodeStep (tensor : Bool → Tensor) (pos : UInt32) (bm : BlockManager) :
    Option ((Bool → Tensor) × BlockManager) := do
  let fed ← f.produce rid tensor [pos] true bm
  let keys ← f.consume rid pos fed true
  let values ← f.consume rid pos fed false
  some (fun isKey => bif isKey then keys else values, fed.2)

def decodeSteps :
    Nat → List (Bool → Tensor) → BlockManager → Option (List (Bool → Tensor) × BlockManager)
  | _, [], bm => some ([], bm)
  | pos, tensor :: rest, bm => do
      let (out, bm) ← f.decodeStep rid tensor (UInt32.ofNat pos) bm
      let (outs, bm) ← decodeSteps (pos + 1) rest bm
      some (out :: outs, bm)

variable {f rid}

/-! ## What the pool holds -/

/-- The pool holds the rows of the first positions. -/
def Holds (bm : BlockManager) (ids : List Nat) (hiddenDim : Nat)
    (history : Bool → List (List F32)) : Prop :=
  ∀ isKey (p : Nat) r, (history isKey)[p]? = some r → bm.rowAt ids hiddenDim isKey p = r

variable {positions : List UInt32} {isDecode : Bool} {start : Nat}
  {history : Bool → List (List F32)} {pos : UInt32}

theorem produceOne_spec (hdim : 0 < f.hiddenDim)
    (htable : bm.blockTables.lookup (layerRid rid f.fi) = some ids)
    (hpaged : bm.Paged ids f.hiddenDim) {rows : List (List F32)}
    (hrows : ∀ r ∈ rows, r.length = f.hiddenDim) (hne : rows ≠ [])
    (hpositions : positions.length = rows.length)
    (hstart : writeStart positions isDecode = some start)
    (hcover : start + rows.length ≤ bm.blockSize * ids.length) (isKey : Bool) (kvNew : KvNew) :
    ∃ bm', f.produceOne rid (bnsd f.heads f.dim rows) positions isDecode isKey (kvNew, bm) =
        some (kvNew.insert (f.fi, f.idx isKey) (bnsd f.heads f.dim rows), bm') ∧
      BlockManager.SameLedger bm bm' ∧ bm'.Paged ids f.hiddenDim ∧
      ∀ isKey' p, bm'.rowAt ids f.hiddenDim isKey' p =
        if isKey' = isKey ∧ start ≤ p ∧ p < start + rows.length then rows.getD (p - start) []
        else bm.rowAt ids f.hiddenDim isKey' p := by
  obtain ⟨bm', hhook, hledger, hpaged', hrowsAt⟩ := interceptConsumedOutput_spec htable hpaged
    hdim f.slab_fits hrows hne hpositions hstart hcover (f.idx isKey) kvNew f.outs
    (f.overrideIsKey isKey)
  refine ⟨bm', ?_, hledger, hpaged', fun isKey' p => ?_⟩
  · simp only [produceOne, hhook]
  · have hrow := hrowsAt isKey' p
    rwa [f.isKeyOutput_idx isKey] at hrow

/-- Producing both sides puts their rows behind what the pool holds. -/
theorem produce_spec (hdim : 0 < f.hiddenDim)
    (htable : bm.blockTables.lookup (layerRid rid f.fi) = some ids)
    (hpaged : bm.Paged ids f.hiddenDim) {n : Nat} (hn : 0 < n) (rows : Bool → List (List F32))
    (hlen : ∀ isKey, (rows isKey).length = n)
    (hrows : ∀ isKey, ∀ r ∈ rows isKey, r.length = f.hiddenDim) (hpositions : positions.length = n)
    (hstart : writeStart positions isDecode = some start)
    (hcover : start + n ≤ bm.blockSize * ids.length)
    (hhistory : ∀ isKey, (history isKey).length = start)
    (hholds : Holds bm ids f.hiddenDim history) :
    ∃ kvNew bm', f.produce rid (fun isKey => bnsd f.heads f.dim (rows isKey)) positions isDecode
        bm = some (kvNew, bm') ∧
      BlockManager.SameLedger bm bm' ∧ bm'.Paged ids f.hiddenDim ∧
      Holds bm' ids f.hiddenDim (fun isKey => history isKey ++ rows isKey) ∧
      ∀ isKey, kvNew.lookup (f.fi, f.idx isKey) = some (bnsd f.heads f.dim (rows isKey)) := by
  have hne : ∀ isKey, rows isKey ≠ [] := by
    intro isKey
    rw [← length_pos_iff, hlen]
    exact hn
  obtain ⟨bmK, hK, hledgerK, hpagedK, hrowsK⟩ := produceOne_spec hdim htable hpaged (hrows true)
    (hne true) (hpositions.trans (hlen true).symm) hstart (by rwa [hlen]) true ∅
  have htableK : bmK.blockTables.lookup (layerRid rid f.fi) = some ids := by
    rw [hledgerK.blockTables_eq, htable]
  have hcoverK : start + (rows false).length ≤ bmK.blockSize * ids.length := by
    rw [hledgerK.blockSize_eq, hlen]
    exact hcover
  obtain ⟨bmV, hV, hledgerV, hpagedV, hrowsV⟩ := produceOne_spec hdim htableK hpagedK
    (hrows false) (hne false) (hpositions.trans (hlen false).symm) hstart hcoverK false
    ((∅ : KvNew).insert (f.fi, f.idx true) (bnsd f.heads f.dim (rows true)))
  have hproduce : f.produce rid (fun isKey => bnsd f.heads f.dim (rows isKey)) positions isDecode
      bm = some (((∅ : KvNew).insert (f.fi, f.idx true) (bnsd f.heads f.dim (rows true))).insert
        (f.fi, f.idx false) (bnsd f.heads f.dim (rows false)), bmV) := by
    simp only [produce, hK, Option.bind_eq_bind, Option.bind_some]
    exact hV
  refine ⟨_, bmV, hproduce, hledgerK.trans hledgerV, hpagedV, fun isKey p r hr => ?_,
    fun isKey => ?_⟩
  · -- the new rows of a side are at their positions, the old ones stay
    have hrow : bmV.rowAt ids f.hiddenDim isKey p =
        if start ≤ p ∧ p < start + n then (rows isKey).getD (p - start) []
        else bm.rowAt ids f.hiddenDim isKey p := by
      rw [hrowsV, hrowsK, hlen, hlen]
      cases isKey with
      | true => simp
      | false => simp
    rw [hrow]
    by_cases hp : p < start
    · rw [getElem?_append_left (by rwa [hhistory])] at hr
      rw [if_neg fun h => by omega]
      exact hholds isKey p r hr
    · rw [getElem?_append_right (by rw [hhistory]; omega), hhistory] at hr
      have hin : p - start < (rows isKey).length := (List.getElem?_eq_some_iff.1 hr).1
      rw [hlen] at hin
      rw [if_pos (by omega), getD_eq_getElem?_getD, hr, Option.getD_some]
  · cases isKey with
    | true =>
      have hne' : (f.fi, f.idx true) ≠ (f.fi, f.idx false) :=
        fun h => f.idx_ne (Prod.mk.inj h).2
      rw [AList.lookup_insert_ne hne', AList.lookup_insert]
    | false => rw [AList.lookup_insert]

theorem Holds.map_rowAt {hiddenDim n : Nat} {isKey : Bool} (hholds : Holds bm ids hiddenDim history)
    (hn : (history isKey).length = n) :
    (range n).map (bm.rowAt ids hiddenDim isKey) = history isKey := by
  refine ext_getElem? fun p => ?_
  rw [getElem?_map]
  by_cases hp : p < n
  · have hr := getElem?_eq_getElem (l := history isKey) (by rwa [hn])
    rw [getElem?_range hp, hr, Option.map_some, hholds isKey p _ hr]
  · rw [getElem?_eq_none (by rw [length_range]; omega),
      getElem?_eq_none (by rw [hn]; omega), Option.map_none]

theorem consume_spec (hdim : 0 < f.hiddenDim)
    (htable : bm.blockTables.lookup (layerRid rid f.fi) = some ids)
    (hpaged : bm.Paged ids f.hiddenDim) (isKey : Bool)
    (hwidth : ∀ r ∈ history isKey, r.length = f.hiddenDim)
    (hhistory : (history isKey).length = pos.toNat)
    (hcover : pos.toNat ≤ bm.blockSize * ids.length) (hholds : Holds bm ids f.hiddenDim history)
    {new : List F32} (hnew : new.length = f.hiddenDim) {kvNew : KvNew}
    (hkvNew : kvNew.lookup (f.fi, f.idx isKey) = some (bnsd f.heads f.dim [new])) :
    f.consume rid pos (kvNew, bm) isKey = some (bnsd f.heads f.dim (history isKey ++ [new])) := by
  have hread := BlockManager.readKv_spec htable hpaged.cached hcover
  -- the side asked for reads back its rows
  have hside : (if isKey then (range pos.toNat).flatMap (bm.rowAt ids f.hiddenDim true)
      else (range pos.toNat).flatMap (bm.rowAt ids f.hiddenDim false)) =
        (history isKey).flatten := by
    rw [← hholds.map_rowAt hhistory]
    cases isKey <;> rfl
  have hdims : headDims f.slab (bnsd f.heads f.dim [new]) = some (f.heads, f.dim) :=
    headDims_bnsd f.slab_fits [new]
  have hconcat := concatCached_bnsd hdim hwidth hnew
  rw [← hside] at hconcat
  have hread' : bm.readKv (layerRid rid f.fi) pos.toNat (f.heads * f.dim) = _ := hread
  simp only [consume, interceptConsumedInput, hkvNew, Bool.true_eq_false, if_false,
    head?_cons, Option.bind_eq_bind, Option.bind_some, hdims, hread', f.readsKey_idx, hconcat]

theorem decodeStep_spec (hdim : 0 < f.hiddenDim)
    (htable : bm.blockTables.lookup (layerRid rid f.fi) = some ids)
    (hpaged : bm.Paged ids f.hiddenDim)
    (hwidth : ∀ isKey, ∀ r ∈ history isKey, r.length = f.hiddenDim)
    (hhistory : ∀ isKey, (history isKey).length = pos.toNat)
    (hcover : pos.toNat + 1 ≤ bm.blockSize * ids.length)
    (hholds : Holds bm ids f.hiddenDim history) {new : Bool → List F32}
    (hnew : ∀ isKey, (new isKey).length = f.hiddenDim) :
    ∃ out bm', f.decodeStep rid (fun isKey => bnsd f.heads f.dim [new isKey]) pos bm =
        some (out, bm') ∧
      BlockManager.SameLedger bm bm' ∧ bm'.Paged ids f.hiddenDim ∧
      Holds bm' ids f.hiddenDim (fun isKey => history isKey ++ [new isKey]) ∧
      ∀ isKey, out isKey = bnsd f.heads f.dim (history isKey ++ [new isKey]) := by
  have hpositions : [pos].length = 1 := rfl
  have hstart : writeStart [pos] true = some pos.toNat := rfl
  obtain ⟨kvNew, bm', hproduce, hledger, hpaged', hholds', hkvNew⟩ := produce_spec hdim htable
    hpaged one_pos (fun isKey => [new isKey]) (fun _ => rfl)
    (fun isKey r hr => mem_singleton.1 hr ▸ hnew isKey) hpositions hstart hcover hhistory
    hholds
  have htable' : bm'.blockTables.lookup (layerRid rid f.fi) = some ids := by
    rw [hledger.blockTables_eq, htable]
  have hcover' : pos.toNat ≤ bm'.blockSize * ids.length := by
    rw [hledger.blockSize_eq]
    omega
  -- the old rows are still held
  have hold : Holds bm' ids f.hiddenDim history := by
    intro isKey p r hr
    refine hholds' isKey p r ?_
    rwa [getElem?_append_left (List.getElem?_eq_some_iff.1 hr).1]
  have hconsume := fun isKey => consume_spec hdim htable' hpaged' isKey (hwidth isKey)
    (hhistory isKey) hcover' hold (hnew isKey) (hkvNew isKey)
  have hstep : f.decodeStep rid (fun isKey => bnsd f.heads f.dim [new isKey]) pos bm =
      some (fun isKey => bif isKey then bnsd f.heads f.dim (history true ++ [new true])
        else bnsd f.heads f.dim (history false ++ [new false]), bm') := by
    simp only [decodeStep, hproduce, hconsume, Option.bind_eq_bind, Option.bind_some]
  refine ⟨_, bm', hstep, hledger, hpaged', hholds', fun isKey => ?_⟩
  cases isKey <;> rfl

/-- A run of decode steps returns at each step the tensors of the history so far. -/
theorem decodeSteps_spec (hdim : 0 < f.hiddenDim) {steps : List (Bool → List F32)}
    (hsteps : ∀ new ∈ steps, ∀ isKey, (new isKey).length = f.hiddenDim) {pos : Nat}
    (htable : bm.blockTables.lookup (layerRid rid f.fi) = some ids)
    (hpaged : bm.Paged ids f.hiddenDim)
    (hwidth : ∀ isKey, ∀ r ∈ history isKey, r.length = f.hiddenDim)
    (hhistory : ∀ isKey, (history isKey).length = pos)
    (hcover : pos + steps.length ≤ bm.blockSize * ids.length)
    (hu32 : pos + steps.length ≤ 2 ^ 32) (hholds : Holds bm ids f.hiddenDim history) :
    ∃ outs bm', f.decodeSteps rid pos
        (steps.map fun new isKey => bnsd f.heads f.dim [new isKey]) bm = some (outs, bm') ∧
      outs.length = steps.length ∧
      ∀ (i : Nat) out, outs[i]? = some out → ∀ isKey, out isKey =
        bnsd f.heads f.dim (history isKey ++ (steps.take (i + 1)).map (· isKey)) := by
  induction steps generalizing bm pos history with
  | nil => exact ⟨[], bm, rfl, rfl, fun i out h => by simp at h⟩
  | cons new steps ih =>
    rw [length_cons] at hcover hu32
    have hlt : pos < 2 ^ 32 := by omega
    have hpos : (UInt32.ofNat pos).toNat = pos := UInt32.toNat_ofNat_of_lt' hlt
    obtain ⟨out, bm₁, hstep, hledger, hpaged₁, hholds₁, hout⟩ := decodeStep_spec hdim htable
      hpaged hwidth (fun isKey => by rw [hpos, hhistory]) (by rw [hpos]; omega) hholds
      (hsteps new mem_cons_self)
    have htable₁ : bm₁.blockTables.lookup (layerRid rid f.fi) = some ids := by
      rw [hledger.blockTables_eq, htable]
    have hwidth₁ : ∀ isKey, ∀ r ∈ history isKey ++ [new isKey], r.length = f.hiddenDim := by
      intro isKey r hr
      rcases mem_append.1 hr with hr | hr
      · exact hwidth isKey r hr
      · exact mem_singleton.1 hr ▸ hsteps new mem_cons_self isKey
    obtain ⟨outs, bm₂, hrest, hlen, houts⟩ := ih
      (fun n hn => hsteps n (mem_cons_of_mem new hn)) htable₁ hpaged₁ hwidth₁
      (fun isKey => by rw [length_append, hhistory, length_singleton])
      (by rw [hledger.blockSize_eq]; omega) (by omega) hholds₁
    refine ⟨out :: outs, bm₂, ?_, by rw [length_cons, hlen, length_cons], fun i out' hi isKey => ?_⟩
    · simp only [decodeSteps, map_cons, hstep, hrest, Option.bind_eq_bind, Option.bind_some]
    · cases i with
      | zero =>
        rw [getElem?_cons_zero, Option.some_inj] at hi
        rw [← hi, hout isKey]
        rfl
      | succ i =>
        rw [getElem?_cons_succ] at hi
        rw [houts i out' hi isKey, take_succ_cons, map_cons, append_assoc]
        rfl

/-! ## The whole history -/

/-- The element `(h, p, d)` of the prompt, or of the decode step at position `p`. -/
def producedElement (f : KvFunction) (promptLen : Nat) (prefill : Bool → List F32)
    (steps : List (Bool → List F32)) (isKey : Bool) (h p d : Nat) : Option F32 :=
  if p < promptLen then (prefill isKey)[h * (promptLen * f.dim) + p * f.dim + d]?
  else steps[p - promptLen]?.bind fun new => (new isKey)[h * f.dim + d]?

/-- Every decode step gets for the keys and the values the whole history produced so far. -/
def ReadsHistory (f : KvFunction) (rid : String) (bm : BlockManager) (promptLen : Nat)
    (positions : List UInt32) (prefill : Bool → List F32) (steps : List (Bool → List F32)) :
    Prop :=
  ∃ kvNew bm₁ outs bm₂,
    f.produce rid (fun isKey => ⟨[1, f.heads, promptLen, f.dim], prefill isKey⟩) positions false
      bm = some (kvNew, bm₁) ∧
    f.decodeSteps rid promptLen
      (steps.map fun new isKey => ⟨[1, f.heads, 1, f.dim], new isKey⟩) bm₁ = some (outs, bm₂) ∧
    outs.length = steps.length ∧
    ∀ (i : Nat) out, outs[i]? = some out → ∀ isKey,
      (out isKey).shape = [1, f.heads, promptLen + i + 1, f.dim] ∧
      ∀ h < f.heads, ∀ p ≤ promptLen + i, ∀ d < f.dim,
        (out isKey).data[h * ((promptLen + i + 1) * f.dim) + p * f.dim + d]? =
          f.producedElement promptLen prefill steps isKey h p d

/-- Every decode step of every run reads the whole history back. -/
theorem decodeSteps_readHistory (f : KvFunction) (hheads : 0 < f.heads) (hdim : 0 < f.dim)
    (htable : bm.blockTables.lookup (layerRid rid f.fi) = some ids)
    (hpaged : bm.Paged ids (f.heads * f.dim)) {promptLen : Nat} (hprompt : 0 < promptLen)
    {positions : List UInt32} (hpositions : positions.length = promptLen)
    {prefill : Bool → List F32}
    (hprefill : ∀ isKey, (prefill isKey).length = f.heads * (promptLen * f.dim))
    {steps : List (Bool → List F32)}
    (hsteps : ∀ new ∈ steps, ∀ isKey, (new isKey).length = f.heads * f.dim)
    (hcover : promptLen + steps.length ≤ bm.blockSize * ids.length)
    (hu32 : promptLen + steps.length ≤ 2 ^ 32) :
    f.ReadsHistory rid bm promptLen positions prefill steps := by
  have hwidth : 0 < f.hiddenDim := Nat.mul_pos hheads hdim
  obtain ⟨history, hhistory⟩ : ∃ history : Bool → List (List F32), ∀ isKey,
      history isKey = rowsOf f.heads f.dim promptLen (prefill isKey) := ⟨_, fun _ => rfl⟩
  have hlen : ∀ isKey, (history isKey).length = promptLen := by
    intro isKey
    rw [hhistory, length_rowsOf]
  have hrows : ∀ isKey, ∀ r ∈ history isKey, r.length = f.hiddenDim := by
    intro isKey
    rw [hhistory]
    exact length_of_mem_rowsOf (hprefill isKey)
  have htensor : ∀ isKey, bnsd f.heads f.dim (history isKey) =
      ⟨[1, f.heads, promptLen, f.dim], prefill isKey⟩ := by
    intro isKey
    rw [hhistory, bnsd_rowsOf (hprefill isKey)]
  -- the prompt, into an empty history
  have hnone : Holds bm ids f.hiddenDim fun _ => [] := fun _ p r h => by simp at h
  have hstart : writeStart positions false = some 0 := rfl
  obtain ⟨kvNew, bm₁, hproduce, hledger, hpaged₁, hholds, -⟩ := produce_spec hwidth htable hpaged
    hprompt history hlen hrows hpositions hstart (by omega) (fun _ => rfl) hnone
  simp only [htensor, nil_append] at hproduce hholds
  -- the decode steps
  have htable₁ : bm₁.blockTables.lookup (layerRid rid f.fi) = some ids := by
    rw [hledger.blockTables_eq, htable]
  obtain ⟨outs, bm₂, hdecode, hcount, houts⟩ := decodeSteps_spec hwidth hsteps htable₁ hpaged₁
    hrows hlen (by rwa [hledger.blockSize_eq]) hu32 hholds
  have hmap : (steps.map fun new isKey => bnsd f.heads f.dim [new isKey]) =
      steps.map fun new isKey => ⟨[1, f.heads, 1, f.dim], new isKey⟩ :=
    map_congr_left fun new hnew => funext fun isKey => bnsd_singleton (hsteps new hnew isKey)
  rw [hmap] at hdecode
  refine ⟨kvNew, bm₁, outs, bm₂, hproduce, hdecode, hcount, fun i out hi isKey => ?_⟩
  have hin : i < steps.length := hcount ▸ (List.getElem?_eq_some_iff.1 hi).1
  have hall : (history isKey ++ (steps.take (i + 1)).map (· isKey)).length = promptLen + i + 1 := by
    rw [length_append, hlen, length_map, length_take]
    omega
  rw [houts i out hi isKey]
  refine ⟨by rw [← hall]; rfl, fun h hh p hp d hd => ?_⟩
  have hwidths : ∀ r ∈ history isKey ++ (steps.take (i + 1)).map (· isKey),
      r.length = f.hiddenDim := by
    intro r hr
    rcases mem_append.1 hr with hr | hr
    · exact hrows isKey r hr
    · obtain ⟨new, hnew, rfl⟩ := mem_map.1 hr
      exact hsteps new (mem_of_mem_take hnew) isKey
  rw [← hall, producedElement]
  by_cases hp' : p < promptLen
  · -- a position of the prompt
    have hlt : p < (history isKey).length := by rwa [hlen]
    have hr := getElem?_eq_getElem hlt
    have happ : (history isKey ++ (steps.take (i + 1)).map (· isKey))[p]? =
        some (history isKey)[p] := by
      rw [getElem?_append_left hlt, hr]
    have hdata : (bnsd f.heads f.dim (history isKey)).data = prefill isKey :=
      congrArg Tensor.data (htensor isKey)
    rw [if_pos hp', getElem?_bnsd hwidths happ hh hd, ← hdata, ← hlen isKey,
      getElem?_bnsd (hrows isKey) hr hh hd]
  · -- a position of a decode step
    have hstep : p - promptLen < steps.length := by omega
    have hr := getElem?_eq_getElem hstep
    have happ : (history isKey ++ (steps.take (i + 1)).map (· isKey))[p]? =
        some (steps[p - promptLen] isKey) := by
      rw [getElem?_append_right (by rw [hlen]; omega), hlen, getElem?_map,
        getElem?_take, if_pos (by omega), hr]
      rfl
    rw [if_neg hp', getElem?_bnsd hwidths happ hh hd, hr]
    rfl

/-! ## Runs of the hooks -/

def oneHead : KvFunction where
  fi := 0
  heads := 1
  dim := 1
  outs := [⟨false⟩, ⟨true⟩, ⟨true⟩]
  idx := fun isKey => bif isKey then 1 else 2
  overrideIsKey := id
  subFlags := none
  slab := none
  slab_fits := slabFits_none 1 1
  declared := .inl ⟨⟨rfl, rfl, by decide, fun i hi => by
    rcases i with _ | _ | _ | i
    · cases hi
    · exact .inl rfl
    · exact .inr rfl
    · cases hi⟩, .inl rfl⟩

def noHeads : KvFunction := { oneHead with heads := 0, slab_fits := slabFits_none 0 1 }

/-- A prompt of two positions and two decode steps. -/
theorem decodeSteps_readHistory_witness :
    ∃ bm₀ ids bm, BlockManager.newWithCache 2 2 1 1 = .ok bm₀ ∧
      bm₀.allocate (layerRid "r" 0) 4 = (.ok ids, bm) ∧
      oneHead.ReadsHistory "r" bm 2 [0, 1] (fun isKey => bif isKey then [⟨1⟩, ⟨2⟩] else [⟨5⟩, ⟨6⟩])
        [fun isKey => bif isKey then [⟨3⟩] else [⟨7⟩],
          fun isKey => bif isKey then [⟨4⟩] else [⟨8⟩]] := by
  obtain ⟨bm₀, hbm₀⟩ : ∃ bm, BlockManager.newWithCache 2 2 1 1 = .ok bm := ⟨_, rfl⟩
  obtain ⟨bm, hok, hsize⟩ : ∃ bm, bm₀.allocate (layerRid "r" 0) 4 = (.ok [1, 0], bm) ∧
      bm.blockSize = 2 := by
    cases hbm₀
    exact ⟨_, rfl, rfl⟩
  obtain ⟨htable, hpaged⟩ := BlockManager.paged_allocate
    (BlockManager.Fresh.exact (.inr ⟨2, 2, 1, 1, hbm₀⟩))
    (BlockManager.buffered_newWithCache hbm₀) hok
  have htable' : bm.blockTables.lookup (layerRid "r" oneHead.fi) = some [1, 0] := htable
  have hcover : 2 + 2 ≤ bm.blockSize * [1, 0].length := by
    rw [hsize]
    decide
  have hprefill : ∀ isKey, (bif isKey then [⟨1⟩, ⟨2⟩] else [⟨5⟩, ⟨6⟩] : List F32).length =
      oneHead.heads * (2 * oneHead.dim) := by decide
  have hsteps : ∀ new ∈ [fun isKey => bif isKey then [⟨3⟩] else [⟨7⟩],
      fun isKey => bif isKey then ([⟨4⟩] : List F32) else [⟨8⟩]], ∀ isKey,
        (new isKey).length = oneHead.heads * oneHead.dim := by
    simp only [forall_mem_cons, not_mem_nil, false_implies, implies_true, and_true]
    decide
  have hu32 : 2 + 2 ≤ 2 ^ 32 := by decide
  exact ⟨bm₀, [1, 0], bm, hbm₀, hok,
    decodeSteps_readHistory oneHead one_pos one_pos htable' hpaged Nat.two_pos rfl
      hprefill hsteps hcover hu32⟩

/-- Without heads the rows have no width, and `write_kv` divides by it. -/
theorem decodeSteps_readHistory_fails :
    ∃ bm₀ ids bm, BlockManager.newWithCache 2 2 0 1 = .ok bm₀ ∧
      bm₀.allocate (layerRid "r" 0) 4 = (.ok ids, bm) ∧
      ¬ noHeads.ReadsHistory "r" bm 2 [0, 1] (fun _ => []) [] := by
  obtain ⟨bm₀, hbm₀⟩ : ∃ bm, BlockManager.newWithCache 2 2 0 1 = .ok bm := ⟨_, rfl⟩
  obtain ⟨bm, hok, hproduce⟩ : ∃ bm, bm₀.allocate (layerRid "r" 0) 4 = (.ok [1, 0], bm) ∧
      noHeads.produce "r" (fun _ => ⟨[1, noHeads.heads, 2, noHeads.dim], []⟩) [0, 1] false bm =
        none := by
    cases hbm₀
    exact ⟨_, rfl, rfl⟩
  refine ⟨bm₀, [1, 0], bm, hbm₀, hok, ?_⟩
  rintro ⟨kvNew, bm₁, outs, bm₂, hproduce', -⟩
  rw [hproduce] at hproduce'
  cases hproduce'

end KvFunction

end CompileForge.Runtime
