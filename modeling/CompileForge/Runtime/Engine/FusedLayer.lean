/-
  The keys and values of a fused OPT layer (`engine/opt_fused.rs`) and of the intercepted one.
  Where the writes succeed both leave the same pool and the same `kv_new`, so the two halves
  of a step may go either way.
-/

import CompileForge.Runtime.Cache.DecodeHistory
import CompileForge.Runtime.Engine.Attention

namespace CompileForge.Runtime

open Attention Lib List

variable {fi nh hd : Nat} {slab : Option SlabSpec} {hslab : SlabFits slab nh hd} {rid : String}
  {bm bm' : BlockManager} {ids : List Nat} {positions : List UInt32} {isDecode : Bool}
  {rows history : Bool → List (List F32)}

theorem pmajorToBnsd_flatten {rows : List (List F32)} (hrows : ∀ r ∈ rows, r.length = nh * hd) :
    pmajorToBnsd rows.flatten rows.length nh hd = (bnsd nh hd rows).data := by
  have hrange : (range rows.length).map (fun p => rows.getD p []) = rows :=
    ext_getElem (by simp) fun p _ hp => by simp [hp]
  rw [pmajorToBnsd_eq (length_flatten_rows hrows), bnsd]
  refine flatMap_congr fun h hh => ?_
  conv_rhs => rw [← hrange, flatMap_map]
  refine flatMap_congr fun p hp => ?_
  have hp := getElem?_eq_getElem (mem_range.1 hp)
  rw [getD_eq_getElem?_getD, hp, Option.getD_some, Nat.mul_assoc,
    ← slice_slice _ (row_fits (mem_range.1 hh)), slice_flatten_row hrows hp]

/-- What `run_fused_layer_a` does with `k_flat` and `v_flat`. -/
def fusedLayerAKv (fi nh hd : Nat) (kFlat vFlat : List F32) (kvNew : KvNew)
    (blockManager : Option BlockManager) (requestId : Option String) (positions : List UInt32)
    (isDecode : Bool) : Option (Except String Unit × KvNew × Option BlockManager) :=
  let tensor := fun flat : List F32 =>
    (⟨[1, nh, positions.length, hd], pmajorToBnsd flat positions.length nh hd⟩ : Tensor)
  let kvNew' := (kvNew.insert (fi, 1) (tensor kFlat)).insert (fi, 2) (tensor vFlat)
  match positions, blockManager, requestId with
  | [], _, _ => some (.error "opt-fused layer a: empty position list", kvNew, blockManager)
  | _, none, _ => some (.ok (), kvNew', none)
  | _, some bm, none =>
    some (.error "opt-fused layer a: request_id required for KV write", kvNew, some bm)
  | _, some bm, some rid => do
      let startPos ← writeStart positions isDecode
      match ← bm.writeKv (layerRid rid fi) startPos kFlat (nh * hd) true with
      | (.error e, bm) => some (.error s!"opt-fused layer a K write: {e}", kvNew, some bm)
      | (.ok (), bm) =>
        match ← bm.writeKv (layerRid rid fi) startPos vFlat (nh * hd) false with
        | (.error e, bm) => some (.error s!"opt-fused layer a V write: {e}", kvNew, some bm)
        | (.ok (), bm) => some (.ok (), kvNew', some bm)

/-- The functions whose layer a is fused: Q visible, K and V consumed internally. -/
def optLayerA (fi nh hd : Nat) (slab : Option SlabSpec) (h : SlabFits slab nh hd) : KvFunction :=
  { KvFunction.oneHead with fi, heads := nh, dim := hd, slab, slab_fits := h }

/-- Where both writes succeed the layer leaves the pool and the `kv_new` of the hooks. -/
theorem fusedLayerAKv_produce {bm₁ : BlockManager} {start : Nat}
    (hrows : ∀ isKey, ∀ r ∈ rows isKey, r.length = nh * hd)
    (hlen : ∀ isKey, (rows isKey).length = positions.length) (hne : positions ≠ [])
    (hstart : writeStart positions isDecode = some start)
    (hk : bm.writeKv (layerRid rid fi) start (rows true).flatten (nh * hd) true =
      some (.ok (), bm₁))
    (hv : bm₁.writeKv (layerRid rid fi) start (rows false).flatten (nh * hd) false =
      some (.ok (), bm')) :
    ∃ kvNew, fusedLayerAKv fi nh hd (rows true).flatten (rows false).flatten ∅ (some bm)
        (some rid) positions isDecode = some (.ok (), kvNew, some bm') ∧
      (optLayerA fi nh hd slab hslab).produce rid (fun isKey => bnsd nh hd (rows isKey)) positions
        isDecode bm = some (kvNew, bm') := by
  have htensor : ∀ isKey, (⟨[1, nh, positions.length, hd],
      pmajorToBnsd (rows isKey).flatten positions.length nh hd⟩ : Tensor) =
        bnsd nh hd (rows isKey) := by
    intro isKey
    rw [← hlen isKey, pmajorToBnsd_flatten (hrows isKey)]
    rfl
  have hdata : ∀ isKey, writeData (bnsd nh hd (rows isKey)) slab positions.length nh hd =
      some (rows isKey).flatten := by
    intro isKey
    rw [← hlen isKey]
    exact writeData_bnsd slab (hrows isKey)
      (length_pos_iff.1 (hlen isKey ▸ length_pos_iff.2 hne))
  have hkey := (optLayerA fi nh hd slab hslab).isKeyOutput_idx
  simp only [optLayerA, KvFunction.oneHead] at hkey
  refine ⟨((∅ : KvNew).insert (fi, 1) (bnsd nh hd (rows true))).insert (fi, 2)
    (bnsd nh hd (rows false)), ?_, ?_⟩
  · simp only [fusedLayerAKv, htensor, hstart, hk, hv, Option.bind_eq_bind, Option.bind_some]
  · simp only [KvFunction.produce, KvFunction.produceOne, interceptConsumedOutput, optLayerA,
      KvFunction.oneHead, headDims_bnsd hslab, hstart, hdata, hkey, hk, hv, Option.bind_eq_bind,
      Option.bind_some]
    rfl

/-! ## Layer b -/

/-- Keys and values as attention is given them. -/
structure KvView where
  keys : List F32
  values : List F32
  kvLen : Nat
  kvRowStride : Nat
  kvBnsdLayout : Bool

/-- What `run_fused_layer_b` gives to attention, nothing where it falls back. -/
def fusedLayerBKv (fi nh hd : Nat) (kvNew : KvNew) (blockManager : Option BlockManager)
    (requestId : Option String) (positions : List UInt32) (isDecode : Bool) :
    Option (Except String (Option KvView)) :=
  match positions, blockManager, requestId with
  | [], _, _ => some (.error "opt-fused layer b: empty position list")
  | pos :: _, some bm, some rid => do
      let kvLen := if isDecode then pos.toNat + 1 else positions.length
      match ← bm.readKv (layerRid rid fi) kvLen (nh * hd) with
      | .error e => some (.error s!"opt-fused layer b read_kv: {e}")
      | .ok (keys, values) => some (.ok (some ⟨keys, values, kvLen, nh * hd, false⟩))
  | _, _, _ =>
    match kvNew.lookup (fi, 1), kvNew.lookup (fi, 2) with
    | some k, some v => do
        let kvLen ← k.shape[2]?
        some (.ok (if k.shape = [1, nh, kvLen, hd] ∧ v.shape = [1, nh, kvLen, hd] then
          some ⟨k.data, v.data, kvLen, hd, true⟩ else none))
    | none, _ =>
      some (.error s!"opt-fused layer b: no K tensor for func {fi} (run layers in order)")
    | _, none =>
      some (.error s!"opt-fused layer b: no V tensor for func {fi} (run layers in order)")

/-- The rows as they are read from the pool, or as head-major tensors. -/
def KvView.ofRows (fused : Bool) (nh hd : Nat) (rows : Bool → List (List F32)) : KvView :=
  let data := fun isKey => if fused then (rows isKey).flatten else (bnsd nh hd (rows isKey)).data
  ⟨data true, data false, (rows true).length, rowStride (!fused) nh hd, !fused⟩

/-! ## Decode steps with either half fused -/

/-- A decode step of a layer, and which halves the fused path handles. -/
structure OptStep where
  fusedA : Bool
  fusedB : Bool
  new : Bool → List F32

namespace OptStep

variable (s : OptStep) (f : KvFunction) (rid : String) (pos : UInt32)

/-- Layer a, `none` where it fails. -/
def layerA (bm : BlockManager) : Option (KvNew × BlockManager) :=
  if s.fusedA then
    match fusedLayerAKv f.fi f.heads f.dim (s.new true) (s.new false) ∅ (some bm) (some rid) [pos]
        true with
    | some (.ok (), kvNew, some bm) => some (kvNew, bm)
    | _ => none
  else f.produce rid (fun isKey => bnsd f.heads f.dim [s.new isKey]) [pos] true bm

/-- `run_fused_layer_b` reads all rows back, the intercepted half through the hook. -/
def layerB (fed : KvNew × BlockManager) : Option KvView :=
  if s.fusedB then
    match fusedLayerBKv f.fi f.heads f.dim fed.1 (some fed.2) (some rid) [pos] true with
    | some (.ok view) => view
    | _ => none
  else do
    let keys ← f.consume rid pos fed true
    let values ← f.consume rid pos fed false
    some ⟨keys.data, values.data, keys.shape.getD 2 0, f.dim, true⟩

/-- A step: one half writes its rows, the other reads the history. -/
def run (bm : BlockManager) : Option (KvView × BlockManager) := do
  let fed ← s.layerA f rid pos bm
  let view ← s.layerB f rid pos fed
  some (view, fed.2)

end OptStep

/-- Steps of one request, each with its own choice of halves. -/
def optSteps (f : KvFunction) (rid : String) :
    Nat → List OptStep → BlockManager → Option (List KvView × BlockManager)
  | _, [], bm => some ([], bm)
  | pos, s :: rest, bm => do
      let (view, bm) ← s.run f rid (UInt32.ofNat pos) bm
      let (views, bm) ← optSteps f rid (pos + 1) rest bm
      some (view :: views, bm)

theorem OptStep.run_spec {pos : UInt32} (s : OptStep) (hslab : SlabFits slab nh hd)
    (hdim : 0 < nh * hd)
    (htable : bm.blockTables.lookup (layerRid rid fi) = some ids)
    (hpaged : bm.Paged ids (nh * hd)) (hwidth : ∀ isKey, ∀ r ∈ history isKey, r.length = nh * hd)
    (hhistory : ∀ isKey, (history isKey).length = pos.toNat)
    (hcover : pos.toNat + 1 ≤ bm.blockSize * ids.length)
    (hholds : KvFunction.Holds bm ids (nh * hd) history)
    (hnew : ∀ isKey, (s.new isKey).length = nh * hd) :
    ∃ bm', s.run (optLayerA fi nh hd slab hslab) rid pos bm =
        some (KvView.ofRows s.fusedB nh hd fun isKey => history isKey ++ [s.new isKey], bm') ∧
      BlockManager.SameLedger bm bm' ∧ bm'.Paged ids (nh * hd) ∧
      KvFunction.Holds bm' ids (nh * hd) fun isKey => history isKey ++ [s.new isKey] := by
  obtain ⟨out, bm', hstep, hledger, hpaged', hholds', hout⟩ :=
    (optLayerA fi nh hd slab hslab).decodeStep_spec hdim htable hpaged hwidth hhistory hcover hholds
      hnew
  obtain ⟨fed, hfed, hstep⟩ := Option.bind_eq_some_iff.1 hstep
  obtain ⟨keys, hkeys, hstep⟩ := Option.bind_eq_some_iff.1 hstep
  obtain ⟨values, hvalues, hstep⟩ := Option.bind_eq_some_iff.1 hstep
  cases hstep
  have hlen : ∀ isKey, (history isKey ++ [s.new isKey]).length = pos.toNat + 1 := fun isKey => by
    rw [length_append, hhistory]
    rfl
  -- the fused half leaves the pool and the tensors of the hooks
  have hfused : fusedLayerAKv fi nh hd (s.new true) (s.new false) ∅ (some bm) (some rid) [pos]
      true = some (.ok (), fed.1, some fed.2) := by
    have hdata : ∀ isKey, [s.new isKey].flatten.length = 1 * (nh * hd) := fun isKey => by
      rw [flatten_singleton, hnew, Nat.one_mul]
    obtain ⟨bm₁, hk, hledger₁, hpaged₁, -⟩ := BlockManager.writeKv_spec true htable hpaged hdim
      (hdata true) hcover
    obtain ⟨bm₂, hv, -⟩ := BlockManager.writeKv_spec false
      (by rwa [hledger₁.blockTables_eq]) hpaged₁ hdim (hdata false) (by rwa [hledger₁.blockSize_eq])
    have hrows : ∀ isKey, ∀ r ∈ [s.new isKey], r.length = nh * hd := fun isKey r hr => by
      rw [mem_singleton.1 hr, hnew]
    have hstart : writeStart [pos] true = some pos.toNat := rfl
    obtain ⟨kvNew, hfused, hproduced⟩ :=
      fusedLayerAKv_produce hrows (fun _ => rfl) (cons_ne_nil pos []) hstart hk hv
    cases hproduced.symm.trans hfed
    simpa only [flatten_singleton] using hfused
  have hread : fed.2.readKv (layerRid rid fi) (pos.toNat + 1) (nh * hd) = some (.ok
      ((history true ++ [s.new true]).flatten, (history false ++ [s.new false]).flatten)) := by
    rw [← hholds'.map_rowAt (hlen true), ← hholds'.map_rowAt (hlen false)]
    exact BlockManager.readKv_spec (by rwa [hledger.blockTables_eq]) hpaged'.cached
      (by rwa [hledger.blockSize_eq])
  have hA : s.layerA (optLayerA fi nh hd slab hslab) rid pos bm = some fed := by
    unfold OptStep.layerA
    split
    · dsimp only [optLayerA]
      rw [hfused]
    · exact hfed
  have hB : s.layerB (optLayerA fi nh hd slab hslab) rid pos fed =
      some (KvView.ofRows s.fusedB nh hd fun isKey => history isKey ++ [s.new isKey]) := by
    unfold OptStep.layerB KvView.ofRows
    cases s.fusedB with
    | true =>
      simp only [optLayerA, fusedLayerBKv, if_true, hread, hlen, Option.bind_eq_bind,
        Option.bind_some]
      rfl
    | false =>
      simp only [hkeys, hvalues, Option.bind_eq_bind, Option.bind_some]
      rw [show keys = _ from hout true, show values = _ from hout false]
      rfl
  refine ⟨fed.2, ?_, hledger, hpaged', hholds'⟩
  rw [OptStep.run, hA, Option.bind_eq_bind, Option.bind_some, hB]
  rfl

/-- The rows of the history with those of the first steps behind them. -/
def rowsAfter (history : Bool → List (List F32)) (steps : List OptStep) (isKey : Bool) :
    List (List F32) :=
  history isKey ++ steps.map (·.new isKey)

theorem optSteps_spec {steps : List OptStep} {pos : Nat} (hdim : 0 < nh * hd)
    (htable : bm.blockTables.lookup (layerRid rid fi) = some ids) (hpaged : bm.Paged ids (nh * hd))
    (hwidth : ∀ isKey, ∀ r ∈ rowsAfter history steps isKey, r.length = nh * hd)
    (hhistory : ∀ isKey, (history isKey).length = pos)
    (hcover : pos + steps.length ≤ bm.blockSize * ids.length) (hu32 : pos + steps.length ≤ 2 ^ 32)
    (hholds : KvFunction.Holds bm ids (nh * hd) history) :
    ∃ views bm', optSteps (optLayerA fi nh hd slab hslab) rid pos steps bm = some (views, bm') ∧
      KvFunction.Holds bm' ids (nh * hd) (rowsAfter history steps) ∧
      ∀ i s, steps[i]? = some s → views[i]? =
        some (KvView.ofRows s.fusedB nh hd (rowsAfter history (steps.take (i + 1)))) := by
  induction steps generalizing bm pos history with
  | nil =>
    refine ⟨[], bm, rfl, fun isKey => ?_, fun i s hs => by cases hs⟩
    rw [rowsAfter, map_nil, append_nil]
    exact hholds isKey
  | cons s steps ih =>
    rw [length_cons] at hcover hu32
    have hlt : pos < 2 ^ 32 := by omega
    have hpos : (UInt32.ofNat pos).toNat = pos := UInt32.toNat_ofNat_of_lt' hlt
    have hhistory₁ : ∀ isKey, (history isKey ++ [s.new isKey]).length = pos + 1 := fun isKey => by
      rw [length_append, hhistory]
      rfl
    have hrows : ∀ rest, rowsAfter (fun isKey => history isKey ++ [s.new isKey]) rest =
        rowsAfter history (s :: rest) := fun _ => funext fun _ => append_assoc ..
    obtain ⟨bm₁, hstep, hledger, hpaged₁, hholds₁⟩ := s.run_spec hslab hdim htable hpaged
      (fun isKey r hr => hwidth isKey r (mem_append_left _ hr)) (by rw [hpos]; exact hhistory)
      (by rw [hpos]; omega) hholds fun isKey => hwidth isKey _ (by simp [rowsAfter])
    obtain ⟨views, bm₂, hrest, hholds₂, hviews⟩ := ih (by rwa [hledger.blockTables_eq]) hpaged₁
      (by rwa [hrows]) hhistory₁
      (by rw [hledger.blockSize_eq]; omega) (by omega) hholds₁
    refine ⟨KvView.ofRows s.fusedB nh hd (rowsAfter history [s]) :: views, bm₂, ?_, ?_,
      fun i s' hs => ?_⟩
    · simp only [optSteps, hstep, hrest, Option.bind_eq_bind, Option.bind_some]
      rfl
    · rwa [hrows] at hholds₂
    · cases i with
      | zero =>
        cases hs
        rfl
      | succ i =>
        rw [getElem?_cons_succ, hviews i s' hs, hrows]
        rfl

/-- The layer table of a request behind its first position. -/
def firstPool : BlockManager where
  blockSize := 3
  blocks := [.cached ⟨0, [⟨1⟩, ⟨2⟩, 0, 0, 0, 0], [⟨5⟩, ⟨6⟩, 0, 0, 0, 0], 1⟩]
  freeBlocks := []
  blockTables := AList.insert (layerRid "r" 3) [0] ∅
  blockSize_pos := Nat.succ_pos 2
  free_lt := by simp

def firstRow (isKey : Bool) : List (List F32) := [bif isKey then [⟨1⟩, ⟨2⟩] else [⟨5⟩, ⟨6⟩]]

/-- The fused path handles one half of each step. -/
def mixedSteps : List OptStep :=
  [⟨true, false, fun isKey => bif isKey then [⟨3⟩, ⟨4⟩] else [⟨7⟩, ⟨8⟩]⟩,
    ⟨false, true, fun isKey => bif isKey then [⟨4⟩, ⟨3⟩] else [⟨8⟩, ⟨7⟩]⟩]

theorem optSteps_spec_mixed :
    ∃ views bm', optSteps (optLayerA 3 2 1 none (slabFits_none 2 1)) "r" 1 mixedSteps firstPool =
        some (views, bm') ∧
      views[1]? = some (KvView.ofRows true 2 1 (rowsAfter firstRow mixedSteps)) := by
  have hpaged : firstPool.Paged [0] (2 * 1) :=
    ⟨by decide, fun bid h => mem_singleton.1 h ▸ ⟨_, rfl, by decide⟩⟩
  have hholds : KvFunction.Holds firstPool [0] (2 * 1) firstRow := by
    intro isKey p r hr
    cases isKey <;> rcases p with _ | p <;> cases hr <;> rfl
  obtain ⟨views, bm', hrun, -, hviews⟩ :
      ∃ views bm', optSteps _ "r" 1 mixedSteps firstPool = some (views, bm') ∧ _ :=
    optSteps_spec (by decide) (AList.lookup_insert _) hpaged (by decide) (by decide) (by decide)
      (by decide) hholds
  exact ⟨views, bm', hrun, hviews 1 _ rfl⟩

end CompileForge.Runtime
