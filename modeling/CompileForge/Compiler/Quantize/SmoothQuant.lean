/-
  SmoothQuant (`compiler/quantize/smoothquant.py`) in exact arithmetic: `calibrate` moves a factor
  of each input channel from the activation into the weight, `quantize` takes the smoothed weight
  to INT8.  A model is the weights of its linear layers by name; no two layers share one.
-/

import CompileForge.Kernels.QuantizedGemm
import CompileForge.Lib.ExactFloat
import CompileForge.Lib.KeyedLoop
import CompileForge.Lib.OrderedDict

namespace CompileForge.Compiler.Quantize

open Lib Kernels List

section Defs

variable {R : Type} [Field R] [LinearOrder R]

/-- The absolute maxima of the input channels, for each layer with activations. -/
structure ActStats (R : Type) [Field R] [LinearOrder R] where
  absmax : List (String × List R)
  nodup : (absmax.map Prod.fst).Nodup
  nonempty : ∀ e ∈ absmax, e.2 ≠ []
  nonneg : ∀ e ∈ absmax, ∀ v ∈ e.2, 0 ≤ v

/-- The smoothing factors and the activation scales outlive a call: a later one smooths every
    weight that has a factor once more, and keeps the last factor only. -/
structure SmoothQuantCalibrator (R : Type) [Field R] [LinearOrder R] where
  alpha : R
  /-- `_validate_config`. -/
  alpha_nonneg : 0 ≤ alpha
  alpha_le_one : alpha ≤ 1
  weights : String → Option (Mat (ExactFloat R))
  smoothingFactors : List (String × List (ExactFloat R)) := []
  activationScales : List (String × List (ExactFloat R)) := []

/-- The lower clamp, `1e-8`. -/
def minFactor (R : Type) [Field R] : R := 1 / (10 ^ 8 : Nat)

/-- `act ** alpha / weight ** (1 - alpha)` of each input channel. -/
def computeSmoothingFactor (powers : Powers R) (alpha : R) (actAbsmax weightAbsmax :
    List (ExactFloat R)) : List (ExactFloat R) :=
  zipWith (fun act weight =>
    ((act.pow powers alpha).div (weight.pow powers (1 - alpha))).clampMin (minFactor R))
    actAbsmax weightAbsmax

/-- The absolute maximum of every column of a weight that has rows. -/
def columnAbsmax (w : Mat (ExactFloat R)) : List (ExactFloat R) :=
  (range w.cols).map fun j =>
    (ExactFloat.absAmax (w.rows.map fun row => row.getD j .nan)).getD .nan

/-- The largest absolute value of each column. -/
def weightAbsmax (w : Mat (ExactFloat R)) : Except QuantizeError (List (ExactFloat R)) :=
  if w.rows = [] then .error .emptyReduction else .ok (columnAbsmax w)

/-- The factors of one call, written over those of the calls before. -/
def SmoothQuantCalibrator.recordFactor (powers : Powers R) (c : SmoothQuantCalibrator R)
    (factors : List (String × List (ExactFloat R))) (entry : String × List R) :
    Except QuantizeError (List (String × List (ExactFloat R))) :=
  match c.weights entry.1 with
  | none => .ok factors
  | some w => do
      let wmax ← weightAbsmax w
      if entry.2.length ≠ wmax.length then .ok factors
      else .ok (setKey factors entry.1
        (computeSmoothingFactor powers c.alpha (entry.2.map .fin) wmax))

/-- One layer of the second loop: `W *= s`, and `1 / s` for the activation. -/
def smoothLayer (state : (String → Option (Mat (ExactFloat R))) ×
      List (String × List (ExactFloat R))) (entry : String × List (ExactFloat R)) :
    Except QuantizeError ((String → Option (Mat (ExactFloat R))) ×
      List (String × List (ExactFloat R))) :=
  match state.1 entry.1 with
  | none => .ok state
  | some w =>
    -- `set_layer_weight` wants the shape of the weight
    if (w.scaleCols entry.2).shape ≠ w.shape then .error .shape
    else .ok (Function.update state.1 entry.1 (some (w.scaleCols entry.2)),
      setKey state.2 entry.1 (entry.2.map fun s => ExactFloat.div (.fin 1) s))

/-- `calibrate`.  The second loop runs over all the factors, those of earlier calls included. -/
def SmoothQuantCalibrator.calibrate (powers : Powers R) (c : SmoothQuantCalibrator R)
    (stats : ActStats R) : Except QuantizeError (SmoothQuantCalibrator R) := do
  let factors ← stats.absmax.foldlM (c.recordFactor powers) c.smoothingFactors
  let (weights, scales) ← factors.foldlM smoothLayer (c.weights, c.activationScales)
  .ok { c with weights := weights, smoothingFactors := factors, activationScales := scales }

/-- The buffers that `quantize` registers on a layer. -/
structure Int8Buffers (R : Type) where
  weightQuant : Mat (BitVec 8)
  weightScale : Mat R
  activationScale : Option (List (ExactFloat R))

/-- `quantize_per_channel_int8` of a weight that may hold values that are not finite. -/
def quantizeWeight [FloorRing R] (w : Mat (ExactFloat R)) :
    Except QuantizeError (Mat (BitVec 8) × Mat R) :=
  if ∀ row ∈ w.rows, ∀ v ∈ row, v.IsFinite then
    quantizePerChannelInt8 (w.map ExactFloat.toNumber)
  else .error .notFinite

def SmoothQuantCalibrator.quantizeLayer [FloorRing R] (c : SmoothQuantCalibrator R)
    (buffers : List (String × Int8Buffers R)) (entry : String × List (ExactFloat R)) :
    Except QuantizeError (List (String × Int8Buffers R)) :=
  match c.weights entry.1 with
  | none => .ok buffers
  | some w => do
      let (q, scale) ← quantizeWeight w
      .ok (setKey buffers entry.1 ⟨q, scale, c.activationScales.lookup entry.1⟩)

/-- `quantize`: the buffers of every layer that has smoothing factors. -/
def SmoothQuantCalibrator.quantize [FloorRing R] (c : SmoothQuantCalibrator R) :
    Except QuantizeError (List (String × Int8Buffers R)) :=
  c.smoothingFactors.foldlM c.quantizeLayer []

end Defs

section Keeps

variable {R : Type} [Field R] [LinearOrder R] [IsStrictOrderedRing R] [FloorRing R]

/-- A layer with the factors `s` computes what `w₀` did, up to the rounding of its rows. -/
structure LayerKept (w₀ : Mat R) (s : List (ExactFloat R)) (w : Mat (ExactFloat R))
    (act : List (ExactFloat R)) (buffers : Int8Buffers R) : Prop where
  factors : ∀ v ∈ s, ∃ x : R, v = .fin x ∧ 0 < x
  outputs : ∃ (a : List R) (w' : Mat R), act = a.map .fin ∧ w = w'.map .fin ∧
    (∀ x : List R, x.length = w₀.cols → matmulT (zipWith (· * ·) x a) w' = matmulT x w₀) ∧
    buffers.activationScale = some act ∧
    ∀ x : List R, x.length = w₀.cols →
      ∃ out, w8a8Gemm x (some a) buffers.weightQuant buffers.weightScale = .ok out ∧
        ∀ i < w₀.rows.length, |out.getD i 0 - (matmulT x w₀).getD i 0| ≤
          buffers.weightScale.entry i 0 / 2 * ((zipWith (· * ·) x a).map abs).sum

/-- Every layer that has smoothing factors is kept, and `quantize` runs through. -/
def SmoothQuantCalibrator.Preserves (weights₀ : String → Option (Mat R))
    (c : SmoothQuantCalibrator R) : Prop :=
  ∃ buffers, c.quantize = .ok buffers ∧
    ∀ name s, c.smoothingFactors.lookup name = some s → ∀ w₀, weights₀ name = some w₀ →
      ∃ w act b, c.weights name = some w ∧ c.activationScales.lookup name = some act ∧
        buffers.lookup name = some b ∧ LayerKept w₀ s w act b

/-- No column of zeros meets an `alpha` below 1, and no weight is smoothed again. -/
structure SmoothQuantCalibrator.SmoothsOnce (c : SmoothQuantCalibrator R) (stats : ActStats R) :
    Prop where
  rows : ∀ e ∈ stats.absmax, ∀ w, c.weights e.1 = some w → w.rows ≠ []
  columns : ∀ e ∈ stats.absmax, ∀ w, c.weights e.1 = some w → e.2.length = w.cols →
    c.alpha = 1 ∨ ∀ j < w.cols, ∃ row ∈ w.rows, row.getD j .nan ≠ .fin 0
  again : ∀ name act w, c.activationScales.lookup name = some act → c.weights name = some w →
    ∀ j < w.cols, act.getD j .nan = .fin 1 ∨ ∀ row ∈ w.rows, row.getD j .nan = .fin 0

end Keeps

section Loops

variable {R : Type} [Field R] [LinearOrder R] {powers : Powers R} {c c' : SmoothQuantCalibrator R}
  {stats : ActStats R} {weights₀ : String → Option (Mat R)}

def reciprocals (s : List (ExactFloat R)) : List (ExactFloat R) :=
  s.map fun v => ExactFloat.div (.fin 1) v

/-- A layer without factors is untouched, and an activation scale belongs to its layer's factors. -/
structure SmoothQuantCalibrator.Tracks (weights₀ : String → Option (Mat R))
    (c : SmoothQuantCalibrator R) : Prop where
  nodup : (c.smoothingFactors.map Prod.fst).Nodup
  plain : ∀ name, c.smoothingFactors.lookup name = none →
    c.activationScales.lookup name = none ∧ c.weights name = (weights₀ name).map (Mat.map .fin)
  smoothed : ∀ name s, c.smoothingFactors.lookup name = some s →
    c.activationScales.lookup name = some (reciprocals s) ∧
      ∃ w₀ w, weights₀ name = some w₀ ∧ c.weights name = some w ∧ w.shape = w₀.shape ∧
        s.length = w.cols ∧ w.cols ≠ 0

variable (c powers stats)

/-- The factor that a call computes for a layer from its statistics. -/
def SmoothQuantCalibrator.newFactor (name : String) (absmax : List R) :
    Option (List (ExactFloat R)) :=
  match c.weights name with
  | none => none
  | some w =>
    if absmax.length = w.cols then
      some (computeSmoothingFactor powers c.alpha (absmax.map .fin) (columnAbsmax w))
    else none

/-- The factors of a layer behind the first loop. -/
def SmoothQuantCalibrator.nextFactor (name : String) : Option (List (ExactFloat R)) :=
  ((stats.absmax.lookup name).bind (c.newFactor powers name)).or
    (c.smoothingFactors.lookup name)

variable {c powers stats}

theorem length_columnAbsmax (w : Mat (ExactFloat R)) : (columnAbsmax w).length = w.cols := by
  rw [columnAbsmax, length_map, length_range]

variable {factors : List (String × List (ExactFloat R))} {entry : String × List R}
  {w : Mat (ExactFloat R)} {name : String} {s : List (ExactFloat R)}

theorem recordFactor_eq (hrows : ∀ w, c.weights entry.1 = some w → w.rows ≠ []) :
    c.recordFactor powers factors entry = .ok (match c.newFactor powers entry.1 entry.2 with
      | some s => setKey factors entry.1 s
      | none => factors) := by
  rw [SmoothQuantCalibrator.recordFactor, SmoothQuantCalibrator.newFactor]
  cases hw : c.weights entry.1 with
  | none => rfl
  | some w =>
    simp only [weightAbsmax, if_neg (hrows w hw), bind, Except.bind, length_columnAbsmax]
    by_cases hlen : entry.2.length = w.cols
    · rw [if_neg (not_not_intro hlen), if_pos hlen]
    · rw [if_pos hlen, if_neg hlen]

theorem rows_of_recordFactor {factors' : List (String × List (ExactFloat R))}
    (h : c.recordFactor powers factors entry = .ok factors')
    (hw : c.weights entry.1 = some w) : w.rows ≠ [] := by
  intro hrows
  rw [SmoothQuantCalibrator.recordFactor, hw] at h
  simp only [weightAbsmax, if_pos hrows] at h
  cases h

theorem recordFactors_spec (hnodup : (c.smoothingFactors.map Prod.fst).Nodup)
    (hrows : ∀ e ∈ stats.absmax, ∀ w, c.weights e.1 = some w → w.rows ≠ []) :
    ∃ factors, stats.absmax.foldlM (c.recordFactor powers) c.smoothingFactors = .ok factors ∧
      (factors.map Prod.fst).Nodup ∧
      ∀ name, factors.lookup name = c.nextFactor powers stats name := by
  obtain ⟨factors, hloop, hkeys, hframe⟩ := foldlM_keyed (c.recordFactor powers)
    (fun (factors : List (String × List (ExactFloat R))) name => factors.lookup name)
    (fun name _ _ => ∀ w, c.weights name = some w → w.rows ≠ [])
    (fun name absmax before behind => behind = (c.newFactor powers name absmax).or before)
    (s := c.smoothingFactors) (fun factors name absmax hok => by
      refine ⟨_, recordFactor_eq hok, ?_, fun name' hname => ?_⟩
      · dsimp only
        cases c.newFactor powers name absmax with
        | none => rfl
        | some => rw [lookup_setKey_self, Option.some_or]
      · dsimp only
        cases c.newFactor powers name absmax with
        | none => rfl
        | some => rw [lookup_setKey_ne hname])
    stats.nodup hrows
  refine ⟨factors, hloop, ?_, fun name => ?_⟩
  · refine (foldlM_eq_ok (P := fun _ factors => (factors.map Prod.fst).Nodup) hnodup
      (fun _ e before behind _ hbefore hstep => ?_) hloop).1
    have hstep' := hstep
    rw [recordFactor_eq fun w hw => rows_of_recordFactor hstep hw] at hstep'
    cases hstep'
    cases c.newFactor powers e.1 e.2 with
    | none => exact hbefore
    | some => exact nodup_keys_setKey hbefore
  · rw [SmoothQuantCalibrator.nextFactor]
    cases hlookup : stats.absmax.lookup name with
    | none =>
      rw [Option.bind_none, Option.none_or]
      refine hframe name fun hmem => ?_
      rw [← isSome_lookup, hlookup] at hmem
      cases hmem
    | some => exact hkeys _ (mem_of_lookup hlookup)

theorem smoothLayer_eq {state : (String → Option (Mat (ExactFloat R))) ×
      List (String × List (ExactFloat R))} (hw : state.1 name = some w) (hs : s.length = w.cols) :
    smoothLayer state (name, s) = .ok (Function.update state.1 name (some (w.scaleCols s)),
      setKey state.2 name (reciprocals s)) := by
  rw [smoothLayer, hw]
  dsimp only
  rw [if_neg (not_not_intro (Mat.shape_scaleCols hs))]
  rfl

theorem SmoothQuantCalibrator.Tracks.original (h : c.Tracks weights₀)
    (hw : c.weights name = some w) :
    ∃ w₀, weights₀ name = some w₀ ∧ w.shape = w₀.shape := by
  cases hs : c.smoothingFactors.lookup name with
  | none =>
    rw [(h.plain name hs).2] at hw
    obtain ⟨w₀, hw₀, rfl⟩ := Option.map_eq_some_iff.1 hw
    exact ⟨w₀, hw₀, Mat.shape_map _ _⟩
  | some s =>
    obtain ⟨-, w₀, w', hw₀, hw', hshape, -⟩ := h.smoothed name s hs
    cases hw.symm.trans hw'
    exact ⟨w₀, hw₀, hshape⟩

theorem nextFactor_fits (h : c.Tracks weights₀) (hs : c.nextFactor powers stats name = some s) :
    ∃ w₀ w, weights₀ name = some w₀ ∧ c.weights name = some w ∧ w.shape = w₀.shape ∧
      s.length = w.cols ∧ w.cols ≠ 0 := by
  rcases Option.or_eq_some_iff.1 hs with hnew | ⟨-, hold⟩
  · obtain ⟨absmax, hlookup, hnew⟩ := Option.bind_eq_some_iff.1 hnew
    rw [SmoothQuantCalibrator.newFactor] at hnew
    cases hw : c.weights name with
    | none =>
      rw [hw] at hnew
      cases hnew
    | some w =>
      rw [hw] at hnew
      obtain ⟨hlen, hnew⟩ := Option.ite_none_right_eq_some.1 hnew
      cases hnew
      obtain ⟨w₀, hw₀, hshape⟩ := h.original hw
      refine ⟨w₀, w, hw₀, rfl, hshape, ?_, ?_⟩
      · rw [computeSmoothingFactor, length_zipWith, length_map, length_columnAbsmax, hlen,
          Nat.min_self]
      · rw [← hlen]
        exact fun hzero => stats.nonempty _ (mem_of_lookup hlookup)
          (length_eq_zero_iff.1 hzero)
  · exact (h.smoothed name s hold).2

theorem calibrate_spec (powers : Powers R) (h : c.Tracks weights₀)
    (hrows : ∀ e ∈ stats.absmax, ∀ w, c.weights e.1 = some w → w.rows ≠ []) :
    ∃ c', c.calibrate powers stats = .ok c' ∧ c'.Tracks weights₀ ∧
      (∀ name, c'.smoothingFactors.lookup name = c.nextFactor powers stats name) ∧
      ∀ name s w, c.nextFactor powers stats name = some s → c.weights name = some w →
        c'.weights name = some (w.scaleCols s) := by
  obtain ⟨factors, hfirst, hnodup, hfactors⟩ := recordFactors_spec h.nodup hrows
  obtain ⟨⟨weights, scales⟩, hsecond, hsmoothed, hframe⟩ := foldlM_keyed smoothLayer
    (fun state name => (state.1 name, state.2.lookup name))
    (fun _ s before => ∃ w, before.1 = some w ∧ s.length = w.cols)
    (fun _ s before behind => ∀ w, before.1 = some w →
      behind = (some (w.scaleCols s), some (reciprocals s)))
    (fun state name s hok => by
      obtain ⟨w, hw, hs⟩ := hok
      refine ⟨_, smoothLayer_eq hw hs, fun w' hw' => ?_, fun name' hname => ?_⟩
      · cases hw.symm.trans hw'
        exact Prod.ext (Function.update_self ..) lookup_setKey_self
      · exact Prod.ext (Function.update_of_ne hname ..) (lookup_setKey_ne hname))
    hnodup (s := (c.weights, c.activationScales)) fun e he => by
      have hlookup := (hfactors e.1).symm.trans (lookup_of_mem hnodup he)
      obtain ⟨-, w, -, hw, -, hs, -⟩ := nextFactor_fits h hlookup
      exact ⟨w, hw, hs⟩
  refine ⟨{ c with weights := weights, smoothingFactors := factors, activationScales := scales },
    ?_, ⟨hnodup, fun name hnone => ?_, fun name s hs => ?_⟩, hfactors, fun name s w hs hw => ?_⟩
  · rw [SmoothQuantCalibrator.calibrate, hfirst]
    simp only [bind, Except.bind, hsecond]
  · -- a layer that has no factors had none before
    have hmem : name ∉ factors.map Prod.fst := by
      rw [← isSome_lookup, hnone]
      simp
    obtain ⟨hweight, hscale⟩ := Prod.ext_iff.1 (hframe name hmem)
    have hold : c.smoothingFactors.lookup name = none :=
      (Option.or_eq_none_iff.1 ((hfactors name).symm.trans hnone)).2
    exact ⟨hscale.trans (h.plain name hold).1, hweight.trans (h.plain name hold).2⟩
  · obtain ⟨w₀, w, hw₀, hw, hshape, hlen, hcols⟩ :=
      nextFactor_fits h ((hfactors name).symm.trans hs)
    obtain ⟨hweight, hscale⟩ := Prod.ext_iff.1 (hsmoothed _ (mem_of_lookup hs) w hw)
    have hscaled := Mat.shape_scaleCols hlen
    refine ⟨hscale, w₀, _, hw₀, hweight, hscaled.trans hshape, ?_, ?_⟩
    · exact hlen.trans (Prod.ext_iff.1 hscaled).2.symm
    · exact fun hzero => hcols ((Prod.ext_iff.1 hscaled).2.symm.trans hzero)
  · exact (Prod.ext_iff.1 (hsmoothed _ (mem_of_lookup ((hfactors name).trans hs)) w hw)).1

theorem rows_of_calibrate (h : c.calibrate powers stats = .ok c') :
    ∀ e ∈ stats.absmax, ∀ w, c.weights e.1 = some w → w.rows ≠ [] := by
  intro e he w hw
  obtain ⟨factors, hfirst, -⟩ := bind_eq_ok h
  obtain ⟨k, hk, hentry⟩ := mem_iff_getElem.1 he
  obtain ⟨t, t', -, hstep⟩ := (foldlM_eq_ok (P := fun _ _ => True) trivial
    (fun _ _ _ _ _ _ _ => trivial) hfirst).2 k e (List.getElem?_eq_some_iff.2 ⟨hk, hentry⟩)
  exact rows_of_recordFactor hstep hw

end Loops

section Numbers

variable {R : Type} [Field R] [LinearOrder R] [IsStrictOrderedRing R]
  {c : SmoothQuantCalibrator R} {weights₀ : String → Option (Mat R)}

/-- The factors are positive numbers, and what they made of a weight is undone by dividing. -/
def SmoothQuantCalibrator.Undone (weights₀ : String → Option (Mat R))
    (c : SmoothQuantCalibrator R) : Prop :=
  ∀ name s, c.smoothingFactors.lookup name = some s → ∀ w₀, weights₀ name = some w₀ →
    ∃ (f : List R) (w : Mat R), s = f.map .fin ∧ (∀ x ∈ f, 0 < x) ∧
      c.weights name = some (w.map .fin) ∧ w.scaleCols (f.map fun x => 1 / x) = w₀

section

omit [IsStrictOrderedRing R]

theorem reciprocals_fin {f : List R} (hf : ∀ x ∈ f, 0 < x) :
    reciprocals (f.map .fin) = (f.map fun x => 1 / x).map .fin := by
  rw [reciprocals, map_map, map_map]
  exact map_congr_left fun x hx => ExactFloat.div_fin (hf x hx).ne'

theorem scaleCols_cancel {f : List R} (hf : ∀ x ∈ f, 0 < x) {w : Mat R}
    (hlen : f.length = w.cols) : (w.scaleCols f).scaleCols (f.map fun x => 1 / x) = w := by
  have hones : zipWith (· * ·) f (f.map fun x => 1 / x) = f.map fun _ => 1 := by
    rw [zipWith_map_right, zipWith_self]
    exact map_congr_left fun x hx => mul_one_div_cancel (hf x hx).ne'
  rw [Mat.scaleCols_scaleCols, hones]
  refine (Mat.scaleCols_eq_self_iff (by rw [length_map, hlen])).2 fun j hj => .inl ?_
  rw [getD_eq_getElem?_getD, getElem?_map, getElem?_eq_getElem (by omega)]
  rfl

end

omit [LinearOrder R] [IsStrictOrderedRing R] in
theorem matmulT_scaleCols (x a : List R) (w : Mat R) :
    matmulT (zipWith (· * ·) x a) w = matmulT x (w.scaleCols a) := by
  rw [matmulT, matmulT]
  show _ = (w.rows.map _).map _
  rw [map_map]
  exact map_congr_left fun row _ => dot_zipWith_mul x a row

variable [FloorRing R]

section

omit [IsStrictOrderedRing R]

theorem quantizeWeight_fin (w : Mat R) :
    quantizeWeight (w.map .fin) = quantizePerChannelInt8 w := by
  have hfinite : ∀ row ∈ (w.map ExactFloat.fin).rows, ∀ v ∈ row, v.IsFinite := by
    intro row hrow v hv
    obtain ⟨row, -, rfl⟩ := mem_map.1 hrow
    obtain ⟨x, -, rfl⟩ := mem_map.1 hv
    exact ExactFloat.isFinite_fin x
  have hback : (w.map ExactFloat.fin).map ExactFloat.toNumber = w := by
    refine Mat.ext rfl ?_
    show (w.rows.map _).map _ = w.rows
    simp only [map_map, Function.comp_def, ExactFloat.toNumber_fin, map_id']
  rw [quantizeWeight, if_pos hfinite, hback]

theorem buffers_spec (h : c.Tracks weights₀) (hundone : c.Undone weights₀) :
    ∃ buffers, c.quantize = .ok buffers ∧
      ∀ name s, c.smoothingFactors.lookup name = some s → ∀ w : Mat R,
        c.weights name = some (w.map .fin) → ∃ q scale, QuantizedInt8 w q scale ∧
          buffers.lookup name = some ⟨q, scale, some (reciprocals s)⟩ := by
  obtain ⟨buffers, hrun, hlayers, -⟩ := foldlM_keyed c.quantizeLayer
    (fun buffers name => buffers.lookup name)
    (fun name s _ => ∃ w : Mat R, w.cols ≠ 0 ∧ c.weights name = some (w.map .fin) ∧
      c.activationScales.lookup name = some (reciprocals s))
    (fun name s _ behind => ∀ w : Mat R, c.weights name = some (w.map .fin) →
      ∃ q scale, QuantizedInt8 w q scale ∧ behind = some ⟨q, scale, some (reciprocals s)⟩)
    (fun buffers name s hok => by
      obtain ⟨w, hcols, hw, hact⟩ := hok
      obtain ⟨q, scale, hquant, hspec⟩ := quantizePerChannelInt8_spec hcols
      refine ⟨setKey buffers name ⟨q, scale, some (reciprocals s)⟩, ?_, fun w' hw' => ?_,
        fun name' hname => lookup_setKey_ne hname⟩
      · simp only [SmoothQuantCalibrator.quantizeLayer, hw, quantizeWeight_fin, hquant, bind,
          Except.bind, hact]
      · cases Mat.map_injective ExactFloat.fin_injective (Option.some.inj (hw.symm.trans hw'))
        exact ⟨q, scale, hspec, lookup_setKey_self⟩)
    h.nodup (s := []) fun e he => by
      have hlookup := lookup_of_mem h.nodup he
      obtain ⟨hact, w₀, w', hw₀, hw', hshape, -, hcols⟩ := h.smoothed _ _ hlookup
      obtain ⟨f, w, -, -, hw, -⟩ := hundone _ _ hlookup w₀ hw₀
      cases hw'.symm.trans hw
      exact ⟨w, hcols, hw, hact⟩
  exact ⟨buffers, hrun, fun name s hs w hw => hlayers _ (mem_of_lookup hs) w hw⟩

end

theorem preserves_iff_undone (h : c.Tracks weights₀) :
    c.Preserves weights₀ ↔ c.Undone weights₀ := by
  constructor
  · rintro ⟨buffers, -, hkept⟩ name s hs w₀ hw₀
    obtain ⟨w, act, b, hw, hact, -, hfactors, a, w', hact', rfl, houtputs, -⟩ :=
      hkept name s hs w₀ hw₀
    obtain ⟨hscale, w₀', w'', hw₀', hw'', hshape, hlen, -⟩ := h.smoothed name s hs
    cases hw₀.symm.trans hw₀'
    cases hw.symm.trans hw''
    have hnumbers := ExactFloat.exists_map_fin fun v hv =>
      (hfactors v hv).imp fun x hx => hx.1
    have hpos : ∀ x ∈ s.map ExactFloat.toNumber, 0 < x := by
      intro x hx
      obtain ⟨v, hv, rfl⟩ := mem_map.1 hx
      obtain ⟨x, rfl, hx'⟩ := hfactors v hv
      exact hx'
    refine ⟨s.map ExactFloat.toNumber, w', hnumbers, hpos, hw, ?_⟩
    have hsame : a = (s.map ExactFloat.toNumber).map fun x => 1 / x := by
      refine map_injective_iff.2 ExactFloat.fin_injective ?_
      rw [← reciprocals_fin hpos, ← hnumbers, ← hact']
      exact Option.some.inj (hact.symm.trans hscale)
    have hcols : ((s.map ExactFloat.toNumber).map fun x => 1 / x).length = w'.cols := by
      rw [length_map, length_map, hlen]
      rfl
    obtain ⟨hrows', hcols'⟩ := Prod.ext_iff.1
      ((Mat.shape_scaleCols hcols).trans ((Mat.shape_map _ w').symm.trans hshape))
    refine Mat.ext hcols' (rows_eq_of_matmulT hcols' hrows' fun x hx => ?_)
    rw [← matmulT_scaleCols, ← hsame]
    exact houtputs x hx
  · intro hundone
    obtain ⟨buffers, hrun, hlayers⟩ := buffers_spec h hundone
    refine ⟨buffers, hrun, fun name s hs w₀ hw₀ => ?_⟩
    obtain ⟨f, w, rfl, hpos, hw, hback⟩ := hundone name s hs w₀ hw₀
    obtain ⟨hact, w₀', w', hw₀', hw', -, hlen, -⟩ := h.smoothed name _ hs
    cases hw₀.symm.trans hw₀'
    cases hw.symm.trans hw'
    obtain ⟨q, scale, hspec, hbuffers⟩ := hlayers name _ hs w hw
    have hlen' : (f.map fun x => 1 / x).length = w.cols := by
      rw [length_map]
      exact (length_map _).symm.trans hlen
    have hshape := Prod.ext_iff.1 (Mat.shape_scaleCols hlen')
    rw [hback] at hshape
    have hscaling : ∀ x : List R,
        matmulT (zipWith (· * ·) x (f.map fun x => 1 / x)) w = matmulT x w₀ := fun x => by
      rw [matmulT_scaleCols, hback]
    refine ⟨_, _, _, hw, hact, hbuffers, fun v hv => ?_, f.map fun x => 1 / x, w,
      reciprocals_fin hpos, rfl, fun x _ => hscaling x, rfl, fun x hx => ?_⟩
    · obtain ⟨x, hx, rfl⟩ := mem_map.1 hv
      exact ⟨x, rfl, hpos x hx⟩
    · obtain ⟨out, hout, hbound⟩ := w8a8Gemm_spec hspec (hx.trans hshape.2) hlen'
      refine ⟨out, hout, fun i hi => ?_⟩
      rw [← hscaling x]
      exact hbound i (hi.trans_eq hshape.1)

end Numbers

/-! ## One call -/

section Step

variable {R : Type} [Field R] [LinearOrder R] [IsStrictOrderedRing R] {powers : Powers R}
  {c c' : SmoothQuantCalibrator R} {stats : ActStats R} {weights₀ : String → Option (Mat R)}

variable {w : Mat R} {l : List R} {j : Nat}

theorem columnAbsmax_fin (hrows : w.rows ≠ []) : columnAbsmax (w.map .fin) =
    ((range w.cols).map fun j => absMax (w.rows.map fun row => row.getD j 0)).map .fin := by
  rw [columnAbsmax, map_map]
  refine map_congr_left fun j hj => ?_
  have hcolumn : (w.map ExactFloat.fin).rows.map (fun row => row.getD j .nan) =
      (w.rows.map fun row => row.getD j 0).map .fin := by
    show (w.rows.map _).map _ = _
    rw [map_map, map_map]
    refine map_congr_left fun row hrow => ?_
    have hj' : j < row.length := by
      rw [w.rect row hrow]
      exact mem_range.1 hj
    simp only [Function.comp_apply, getD_eq_getElem?_getD, getElem?_map,
      getElem?_eq_getElem hj', Option.map_some, Option.getD_some]
  rw [hcolumn, ExactFloat.absAmax_fin (by simpa using hrows)]
  rfl

theorem absMax_ne_zero_iff : absMax l ≠ 0 ↔ ∃ v ∈ l, v ≠ 0 := by
  constructor
  · intro h
    obtain ⟨v, hv, habs⟩ := exists_absMax h
    exact ⟨v, hv, abs_ne_zero.1 (habs ▸ h)⟩
  · rintro ⟨v, hv, hne⟩ hzero
    exact (abs_pos.2 hne).not_ge (hzero ▸ le_absMax hv)

theorem computeSmoothingFactor_fin {alpha : R} (h0 : 0 ≤ alpha) (h1 : alpha ≤ 1)
    {absmax : List R} (hnonneg : ∀ v ∈ absmax, 0 ≤ v)
    (hlen : absmax.length = w.cols) (hrows : w.rows ≠ []) :
    (∃ f : List R, computeSmoothingFactor powers alpha (absmax.map .fin)
        (columnAbsmax (w.map .fin)) = f.map .fin ∧ ∀ x ∈ f, 0 < x) ↔
      alpha = 1 ∨ ∀ j < w.cols, ∃ row ∈ w.rows, row.getD j 0 ≠ 0 := by
  have hmin : (0 : R) < minFactor R := one_div_pos.2 (Nat.cast_pos.2 (by norm_num))
  have hcompute : computeSmoothingFactor powers alpha (absmax.map .fin)
      (columnAbsmax (w.map .fin)) =
      zipWith (fun a m => (ExactFloat.div (.fin (powers.pow a alpha))
        (.fin (powers.pow m (1 - alpha)))).clampMin (minFactor R)) absmax
        ((range w.cols).map fun j => absMax (w.rows.map fun row => row.getD j 0)) := by
    rw [computeSmoothingFactor, columnAbsmax_fin hrows, zipWith_map]
    rfl
  -- the factor of one column is a number where the power of the column is not zero
  have hcolumn : ∀ (j : Nat) (hj : j < absmax.length) (z : R),
      (ExactFloat.div (.fin (powers.pow absmax[j] alpha)) (.fin (powers.pow
        (absMax (w.rows.map fun row => row.getD j 0)) (1 - alpha)))).clampMin (minFactor R) =
          .fin z ↔
        (alpha = 1 ∨ ∃ row ∈ w.rows, row.getD j 0 ≠ 0) ∧ max (minFactor R)
          (powers.pow absmax[j] alpha / powers.pow
            (absMax (w.rows.map fun row => row.getD j 0)) (1 - alpha)) = z := by
    intro j hj z
    have hpow := powers.pow_nonneg (hnonneg _ (getElem_mem hj)) h0
    rw [ExactFloat.clampMin_div_eq_fin_iff hpow,
      powers.pow_ne_zero_iff (absMax_nonneg _) (sub_nonneg.2 h1), sub_eq_zero,
      absMax_ne_zero_iff, eq_comm (a := (1 : R))]
    simp only [mem_map, exists_exists_and_eq_and]
  rw [hcompute]
  constructor
  · rintro ⟨f, hf, -⟩
    refine or_iff_not_imp_left.2 fun halpha j hj => ?_
    have hread := congrArg (·[j]?) hf
    have hflen : j < f.length := by
      have hlengths := congrArg length hf
      simp only [length_zipWith, length_map, length_range] at hlengths
      omega
    simp only [getElem?_zipWith, getElem?_map, getElem?_range hj,
      getElem?_eq_getElem (show j < absmax.length by omega),
      getElem?_eq_getElem hflen, Option.map_some, Option.some.injEq] at hread
    exact ((hcolumn j (by omega) _).1 hread).1.resolve_left halpha
  · intro hfits
    refine ⟨zipWith (fun a m => max (minFactor R)
      (powers.pow a alpha / powers.pow m (1 - alpha))) absmax
      ((range w.cols).map fun j => absMax (w.rows.map fun row => row.getD j 0)), ?_, ?_⟩
    · refine ext_getElem (by simp) fun j hj _ => ?_
      simp only [length_zipWith, length_map, length_range] at hj
      simp only [getElem_zipWith, getElem_map, getElem_range]
      exact (hcolumn j (by omega) _).2 ⟨hfits.imp id fun h => h j (by omega), rfl⟩
    · intro x hx
      obtain ⟨j, hj, rfl⟩ := mem_iff_getElem.1 hx
      rw [getElem_zipWith]
      exact lt_max_of_lt_left hmin

omit [Field R] [LinearOrder R] [IsStrictOrderedRing R] in
theorem getD_map_fin (hj : j < l.length) (x d : R) :
    (l.map ExactFloat.fin).getD j .nan = .fin x ↔ l.getD j d = x := by
  rw [getD_eq_getElem?_getD, getD_eq_getElem?_getD, getElem?_map,
    getElem?_eq_getElem hj, Option.map_some, Option.getD_some, Option.getD_some,
    ExactFloat.fin.injEq]

section

omit [LinearOrder R] [IsStrictOrderedRing R]

theorem column_fin_iff (hj : j < w.cols) :
    (∀ row ∈ (w.map ExactFloat.fin).rows, row.getD j .nan = .fin 0) ↔
      ∀ row ∈ w.rows, row.getD j 0 = 0 := by
  show (∀ row ∈ w.rows.map _, _) ↔ _
  rw [forall_mem_map]
  exact forall_congr' fun row => forall_congr' fun hrow =>
    getD_map_fin (by rw [w.rect row hrow]; exact hj) 0 0

theorem column_fin_ne_iff (hj : j < w.cols) :
    (∃ row ∈ (w.map ExactFloat.fin).rows, row.getD j .nan ≠ .fin 0) ↔
      ∃ row ∈ w.rows, row.getD j 0 ≠ 0 := by
  simpa only [not_forall, exists_prop] using (column_fin_iff hj).not

end

/-- What `SmoothsOnce` asks of a smoothed weight: its activation scale changes nothing in it. -/
theorem again_iff {f : List R} (hf : ∀ x ∈ f, 0 < x) (hlen : f.length = w.cols) :
    (∀ j < w.cols, (reciprocals (f.map .fin)).getD j .nan = .fin 1 ∨
        ∀ row ∈ (w.map ExactFloat.fin).rows, row.getD j .nan = .fin 0) ↔
      w.scaleCols (f.map fun x => 1 / x) = w := by
  rw [Mat.scaleCols_eq_self_iff (by rw [length_map, hlen]), reciprocals_fin hf]
  refine forall_congr' fun j => forall_congr' fun hj => or_congr ?_ (column_fin_iff hj)
  exact getD_map_fin (by rw [length_map]; omega) 1 1

omit [IsStrictOrderedRing R] in
theorem weights_fin (h : c.Tracks weights₀) (hundone : c.Undone weights₀) {name : String}
    {w : Mat (ExactFloat R)} (hw : c.weights name = some w) : ∃ w' : Mat R, w = w'.map .fin := by
  obtain ⟨w₀, hw₀, -⟩ := h.original hw
  cases hs : c.smoothingFactors.lookup name with
  | none =>
    rw [(h.plain name hs).2, hw₀] at hw
    exact ⟨w₀, (Option.some.inj hw).symm⟩
  | some s =>
    obtain ⟨f, w', -, -, hw', -⟩ := hundone name s hs w₀ hw₀
    exact ⟨w', Option.some.inj (hw.symm.trans hw')⟩

/-- One call keeps the layers exactly where it smooths each of them once. -/
theorem calibrate_undone_iff (powers : Powers R) (h : c.Tracks weights₀)
    (hundone : c.Undone weights₀) :
    (∃ c', c.calibrate powers stats = .ok c' ∧ c'.Undone weights₀) ↔ c.SmoothsOnce stats := by
  constructor
  · rintro ⟨c', hrun, hundone'⟩
    have hrows := rows_of_calibrate hrun
    obtain ⟨c'', hrun', -, hfactors, hweights⟩ := calibrate_spec powers h hrows
    cases hrun.symm.trans hrun'
    refine ⟨hrows, fun e he w hw hlen => ?_, fun name act w hact hw => ?_⟩
    · obtain ⟨w', rfl⟩ := weights_fin h hundone hw
      obtain ⟨w₀, hw₀, -⟩ := h.original hw
      have hnext : c.nextFactor powers stats e.1 = some (computeSmoothingFactor powers c.alpha
          (e.2.map .fin) (columnAbsmax (w'.map .fin))) := by
        rw [SmoothQuantCalibrator.nextFactor, lookup_of_mem stats.nodup he, Option.bind_some,
          SmoothQuantCalibrator.newFactor, hw]
        exact congrArg (Option.or · _) (if_pos hlen)
      obtain ⟨f, -, hf, hpos, -⟩ := hundone' _ _ ((hfactors _).trans hnext) w₀ hw₀
      have hrows' : w'.rows ≠ [] := fun hempty =>
        hrows e he _ hw (congrArg (map (map ExactFloat.fin)) hempty)
      refine ((computeSmoothingFactor_fin c.alpha_nonneg c.alpha_le_one (stats.nonneg e he) hlen
        hrows').1 ⟨f, hf, hpos⟩).imp id fun hcolumns j hj => ?_
      exact (column_fin_ne_iff (w := w') hj).2 (hcolumns j hj)
    · obtain ⟨w₀, hw₀, -⟩ := h.original hw
      cases hs : c.smoothingFactors.lookup name with
      | none => exact absurd (hact.symm.trans (h.plain name hs).1) (by simp)
      | some s =>
        obtain ⟨hscale, -, w', -, hw', -, hlen, -⟩ := h.smoothed name s hs
        cases hw.symm.trans hw'
        cases hact.symm.trans hscale
        obtain ⟨f, w', rfl, hpos, hw', hback⟩ := hundone name s hs w₀ hw₀
        cases hw.symm.trans hw'
        -- the weight is smoothed again, and what is undone then is the weight as it is now
        obtain ⟨s', hnext⟩ : ∃ s', c.nextFactor powers stats name = some s' := by
          rw [SmoothQuantCalibrator.nextFactor, hs]
          cases (stats.absmax.lookup name).bind (c.newFactor powers name) with
          | none => exact ⟨_, rfl⟩
          | some => exact ⟨_, rfl⟩
        obtain ⟨f', w'', rfl, hpos', hw'', hback'⟩ :=
          hundone' name s' ((hfactors name).trans hnext) w₀ hw₀
        have hsmoothed := Option.some.inj ((hweights name _ _ hnext hw).symm.trans hw'')
        rw [Mat.scaleCols_map ExactFloat.fin_mul_fin] at hsmoothed
        obtain rfl := Mat.map_injective ExactFloat.fin_injective hsmoothed
        obtain ⟨-, _, -, hw₁, -, hlen', -⟩ := nextFactor_fits h hnext
        cases hw.symm.trans hw₁
        rw [scaleCols_cancel hpos' ((length_map _).symm.trans hlen')] at hback'
        refine (again_iff hpos ((length_map _).symm.trans hlen)).2 ?_
        rw [hback, hback']
  · intro honce
    obtain ⟨c', hrun, -, hfactors, hweights⟩ := calibrate_spec powers h honce.rows
    refine ⟨c', hrun, fun name s hs w₀ hw₀ => ?_⟩
    have hnext := (hfactors name).symm.trans hs
    obtain ⟨w₀', w, hw₀', hw, -, hlen, -⟩ := nextFactor_fits h hnext
    cases hw₀.symm.trans hw₀'
    obtain ⟨w, rfl⟩ := weights_fin h hundone hw
    -- the factors are numbers, new or old
    obtain ⟨f, rfl, hpos⟩ : ∃ f : List R, s = f.map .fin ∧ ∀ x ∈ f, 0 < x := by
      rcases Option.or_eq_some_iff.1 hnext with hnew | ⟨-, hold⟩
      · obtain ⟨absmax, hlookup, hnew⟩ := Option.bind_eq_some_iff.1 hnew
        rw [SmoothQuantCalibrator.newFactor, hw] at hnew
        obtain ⟨habsmax, hnew⟩ := Option.ite_none_right_eq_some.1 hnew
        cases hnew
        have he := mem_of_lookup hlookup
        have hrows : w.rows ≠ [] := fun hempty =>
          honce.rows _ he _ hw (congrArg (map (map ExactFloat.fin)) hempty)
        refine (computeSmoothingFactor_fin c.alpha_nonneg c.alpha_le_one (stats.nonneg _ he)
          habsmax hrows).2 ((honce.columns _ he _ hw habsmax).imp id fun hcolumns j hj => ?_)
        exact (column_fin_ne_iff (w := w) hj).1 (hcolumns j hj)
      · obtain ⟨f, -, hf, hpos, -⟩ := hundone name s hold w₀ hw₀
        exact ⟨f, hf, hpos⟩
    have hlen' : f.length = w.cols := (length_map _).symm.trans hlen
    refine ⟨f, w.scaleCols f, rfl, hpos, ?_, ?_⟩
    · rw [hweights name _ _ hnext hw, Mat.scaleCols_map ExactFloat.fin_mul_fin]
    · rw [scaleCols_cancel hpos hlen']
      cases hold : c.smoothingFactors.lookup name with
      | none =>
        rw [(h.plain name hold).2, hw₀] at hw
        exact (Mat.map_injective ExactFloat.fin_injective (Option.some.inj hw)).symm
      | some s =>
        obtain ⟨f', w', rfl, hpos', hw', hback⟩ := hundone name s hold w₀ hw₀
        obtain ⟨hscale, _, _, -, hw₁, -, hlen₁, -⟩ := h.smoothed name _ hold
        cases hw.symm.trans hw₁
        cases Mat.map_injective ExactFloat.fin_injective (Option.some.inj (hw.symm.trans hw'))
        rw [← hback]
        exact ((again_iff hpos' ((length_map _).symm.trans hlen₁)).1
          (honce.again name _ _ hscale hw)).symm

end Step

section Calls

variable {R : Type} [Field R] [LinearOrder R] [IsStrictOrderedRing R] [FloorRing R]

def SmoothQuantCalibrator.init {alpha : R} (h0 : 0 ≤ alpha) (h1 : alpha ≤ 1)
    (weights₀ : String → Option (Mat R)) : SmoothQuantCalibrator R where
  alpha := alpha
  alpha_nonneg := h0
  alpha_le_one := h1
  weights := fun name => (weights₀ name).map (Mat.map .fin)

/-- Some calls of `calibrate`, one after the other. -/
def SmoothQuantCalibrator.calibrations (powers : Powers R) (c : SmoothQuantCalibrator R)
    (calls : List (ActStats R)) : Except QuantizeError (SmoothQuantCalibrator R) :=
  calls.foldlM (fun c stats => c.calibrate powers stats) c

variable {powers : Powers R} {alpha : R} {weights₀ : String → Option (Mat R)}

section

omit [IsStrictOrderedRing R] [FloorRing R]

theorem tracks_init (h0 : 0 ≤ alpha) (h1 : alpha ≤ 1) :
    (SmoothQuantCalibrator.init h0 h1 weights₀).Tracks weights₀ :=
  ⟨nodup_nil, fun _ _ => ⟨rfl, rfl⟩, fun _ _ h => by cases h⟩

theorem calibrations_tracks {c c' : SmoothQuantCalibrator R} {calls : List (ActStats R)}
    (h : c.Tracks weights₀) (hrun : c.calibrations powers calls = .ok c') :
    c'.Tracks weights₀ := by
  refine (foldlM_eq_ok (P := fun _ c => c.Tracks weights₀) h
    (fun _ stats c c' _ hc hstep => ?_) hrun).1
  obtain ⟨c'', hrun', htracks, -⟩ := calibrate_spec powers hc (rows_of_calibrate hstep)
  cases hstep.symm.trans hrun'
  exact htracks

theorem calibrations_succ {c c' : SmoothQuantCalibrator R} {calls : List (ActStats R)} {n : Nat}
    (hn : n < calls.length) (hrun : c.calibrations powers (calls.take n) = .ok c') :
    c.calibrations powers (calls.take (n + 1)) = c'.calibrate powers calls[n] := by
  rw [SmoothQuantCalibrator.calibrations, take_succ_eq_append_getElem hn, foldlM_append]
  rw [SmoothQuantCalibrator.calibrations] at hrun
  rw [hrun]
  show [calls[n]].foldlM (fun c stats => c.calibrate powers stats) c' = _
  rw [foldlM_cons]
  exact bind_pure _

end

/-- In every reached state the layers are kept, exactly where every call smooths each layer once. -/
theorem smoothQuant_preserves_iff (h0 : 0 ≤ alpha) (h1 : alpha ≤ 1) (calls : List (ActStats R)) :
    (∀ n ≤ calls.length, ∃ c, (SmoothQuantCalibrator.init h0 h1 weights₀).calibrations powers
        (calls.take n) = .ok c ∧ c.Preserves weights₀) ↔
      ∀ n (hn : n < calls.length), ∀ c, (SmoothQuantCalibrator.init h0 h1 weights₀).calibrations
        powers (calls.take n) = .ok c → c.SmoothsOnce calls[n] := by
  have hstep : ∀ n (hn : n < calls.length) c, (SmoothQuantCalibrator.init h0 h1
      weights₀).calibrations powers (calls.take n) = .ok c → c.Preserves weights₀ →
      ((∃ c', (SmoothQuantCalibrator.init h0 h1 weights₀).calibrations powers
        (calls.take (n + 1)) = .ok c' ∧ c'.Preserves weights₀) ↔ c.SmoothsOnce calls[n]) := by
    intro n hn c hrun hkept
    have htracks := calibrations_tracks (tracks_init h0 h1) hrun
    rw [← calibrate_undone_iff powers htracks
      ((preserves_iff_undone htracks).1 hkept), calibrations_succ hn hrun]
    refine exists_congr fun c' => and_congr_right fun hrun' => preserves_iff_undone ?_
    exact calibrations_tracks (tracks_init h0 h1) ((calibrations_succ hn hrun).trans hrun')
  constructor
  · intro hkept n hn c hrun
    obtain ⟨c', hrun', hc⟩ := hkept n hn.le
    cases hrun.symm.trans hrun'
    exact (hstep n hn c hrun hc).1 (hkept (n + 1) hn)
  · intro honce n
    induction n with
    | zero =>
      intro _
      refine ⟨_, rfl, (preserves_iff_undone (tracks_init h0 h1)).2 fun _ _ h => ?_⟩
      cases h
    | succ n ih =>
      intro hn
      obtain ⟨c, hrun, hc⟩ := ih (by omega)
      exact (hstep n hn c hrun hc).2 (honce n hn c hrun)

end Calls

/-! ### One layer -/

/-- The powers with the exponents 0 and 1; the others tell zero from the rest. -/
def wholePowers : Powers ℚ where
  pow x p := if p = 0 then 1 else if p = 1 then x else if x = 0 then 0 else 1
  pow_pos := by
    intro x p hx
    split_ifs with h0 h1 h2
    · exact one_pos
    · exact hx
    · exact absurd h2 hx.ne'
    · exact one_pos
  zero_pow_zero := if_pos rfl
  zero_pow := by
    intro p hp
    rw [if_neg hp.ne']
    split <;> rfl

def oneLayer (w : Mat ℚ) : String → Option (Mat ℚ) := fun name =>
  if name = "fc" then some w else none

/-- A call that sees the same absolute maximum in every channel of the layer. -/
def oneCall (channels : Nat) (hchannels : channels ≠ 0) (v : ℚ) (hv : 0 ≤ v) : ActStats ℚ where
  absmax := [("fc", replicate channels v)]
  nodup := List.nodup_singleton _
  nonempty := by simpa using hchannels
  nonneg := by
    intro e he x hx
    rw [List.mem_singleton.1 he] at hx
    rwa [List.eq_of_mem_replicate hx]

/-- With `alpha` 1 a column of zeros does no harm to one call. -/
theorem smoothQuant_preserves_zero_column :
    ∃ c, (SmoothQuantCalibrator.init zero_le_one le_rfl
        (oneLayer ⟨2, [[2, 0]], by decide⟩)).calibrations wholePowers
        ([oneCall 2 two_ne_zero 3 (by decide)].take 1) = .ok c ∧
      c.Preserves (oneLayer ⟨2, [[2, 0]], by decide⟩) := by
  refine (smoothQuant_preserves_iff zero_le_one le_rfl
    [oneCall 2 two_ne_zero 3 (by decide)]).2 (fun n hn c hrun => ?_) 1 le_rfl
  obtain rfl : n = 0 := Nat.lt_one_iff.1 hn
  cases hrun
  refine ⟨fun e he w hw => ?_, fun _ _ _ _ _ => .inl rfl, fun _ _ _ h => by cases h⟩
  rw [mem_singleton.1 he] at hw
  cases hw
  decide

/-- A second call loses the scale of the first; with `alpha` 0 the factor of a zero is infinite. -/
theorem smoothQuant_loses_layers :
    (¬ ∃ c, (SmoothQuantCalibrator.init zero_le_one le_rfl
        (oneLayer ⟨1, [[1]], by decide⟩)).calibrations wholePowers
        [oneCall 1 one_ne_zero 2 (by decide), oneCall 1 one_ne_zero 2 (by decide)] = .ok c ∧
      c.Preserves (oneLayer ⟨1, [[1]], by decide⟩)) ∧
    ¬ ∃ c, (SmoothQuantCalibrator.init le_rfl zero_le_one
        (oneLayer ⟨1, [[0]], by decide⟩)).calibrations wholePowers
        [oneCall 1 one_ne_zero 1 (by decide)] = .ok c ∧
      c.Preserves (oneLayer ⟨1, [[0]], by decide⟩) := by
  constructor
  · rintro ⟨c, hrun, _, _, hkept⟩
    have hstate : (match (SmoothQuantCalibrator.init zero_le_one le_rfl
        (oneLayer ⟨1, [[1]], by decide⟩)).calibrations wholePowers
        [oneCall 1 one_ne_zero 2 (by decide), oneCall 1 one_ne_zero 2 (by decide)] with
      | .ok c => (c.smoothingFactors.lookup "fc", c.activationScales.lookup "fc",
          (c.weights "fc").map Mat.rows)
      | .error _ => (none, none, none)) =
        (some [.fin 2], some [.fin (1 / 2)], some [[.fin 4]]) := by decide +kernel
    rw [hrun] at hstate
    obtain ⟨hs, hact, hw⟩ : _ ∧ _ ∧ _ := by simpa only [Prod.mk.injEq] using hstate
    obtain ⟨w, act, b, hw', hact', -, -, a, w', rfl, rfl, houtputs, -⟩ :=
      hkept "fc" _ hs _ rfl
    rw [hw'] at hw
    obtain rfl : a = [1 / 2] := map_injective_iff.2 ExactFloat.fin_injective
      (Option.some.inj (hact'.symm.trans hact))
    have hrows : w'.rows = [[4]] := map_injective_iff.2
      (map_injective_iff.2 ExactFloat.fin_injective) (Option.some.inj hw)
    have hout := houtputs [1] rfl
    rw [matmulT, matmulT, hrows] at hout
    revert hout
    decide +kernel
  · rintro ⟨c, hrun, _, _, hkept⟩
    have hstate : (match (SmoothQuantCalibrator.init le_rfl zero_le_one
        (oneLayer ⟨1, [[0]], by decide⟩)).calibrations wholePowers
        [oneCall 1 one_ne_zero 1 (by decide)] with
      | .ok c => c.smoothingFactors.lookup "fc"
      | .error _ => none) = some [.inf false] := by decide +kernel
    rw [hrun] at hstate
    obtain ⟨-, -, -, -, -, -, hfactors, -⟩ := hkept "fc" _ hstate _ rfl
    obtain ⟨x, hx, -⟩ := hfactors _ mem_cons_self
    cases hx

end CompileForge.Compiler.Quantize
