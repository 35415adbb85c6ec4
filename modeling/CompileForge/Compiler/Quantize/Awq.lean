/-
  AWQ (`compiler/quantize/awq.py`) in exact arithmetic: the grid search for a scale of the
  salient channels of a layer, and `quantize`, which scales these channels, registers the INT4
  buffers and replaces the weight.  A model is its linear layers by name; no two of them share
  a weight.
-/

import CompileForge.Kernels.QuantizedGemm
import CompileForge.Lib.KeyedLoop
import CompileForge.Lib.OrderedDict

namespace CompileForge.Compiler.Quantize

open Lib Kernels List

/-- A linear layer, and the buffers that `quantize` registers. -/
structure Layer (R : Type) where
  weight : Mat R
  weightQuant : Option (Mat (BitVec 8)) := none
  weightScale : Option (Mat R) := none
  weightZero : Option (Mat (BitVec 8)) := none

/-- `get_layer_by_name`. -/
abbrev Model (R : Type) := String → Option (Layer R)

/-- `AWQQuantizer`, with what the calibration found. -/
structure AwqQuantizer (R : Type) where
  groupSize : Nat
  /-- `_validate_config`. -/
  groupSize_pos : 1 ≤ groupSize
  salientChannels : List (String × List Nat)
  optimalScales : List (String × R)

section Defs

variable {R : Type} [Field R] [LinearOrder R] [FloorRing R]

section

omit [LinearOrder R] [FloorRing R]

def scaleRows (w : Mat R) (salient : List Nat) (scale : R) : Mat R where
  cols := w.cols
  rows := w.rows.mapIdx fun i row => if i ∈ salient then row.map (· * scale) else row
  rect := by
    intro row hrow
    obtain ⟨i, hi, rfl⟩ := List.mem_mapIdx.1 hrow
    split
    · rw [length_map, w.rect _ (getElem_mem hi)]
    · exact w.rect _ (getElem_mem hi)

/-- The salient channels are output channels: they index the rows of the weight. -/
def scaleChannels (w : Mat R) (salient : List Nat) (scale : R) : Except QuantizeError (Mat R) :=
  if ∀ i ∈ salient, i < w.rows.length then .ok (scaleRows w salient scale) else .error .index

end

/-! ## The search for a scale -/

section

omit [LinearOrder R] [FloorRing R]

def linspace (low high : R) (n : Nat) : List R :=
  (range n).map fun (k : Nat) => low + (k : R) * ((high - low) / ((n - 1 : Nat) : R))

/-- `F.mse_loss`; there is none of no entries. -/
def mseLoss (out ref : List (List R)) : Option R :=
  let squares := (zipWith (zipWith fun a b => (a - b) ^ 2) out ref).flatten
  if squares = [] then none else some (squares.sum / (squares.length : R))

end

/-- A first loss improves, a missing one never does. -/
def improves (loss best : Option R) : Prop :=
  match loss, best with
  | some loss, some best => loss < best
  | some _, none => True
  | none, _ => False

instance (loss best : Option R) : Decidable (improves loss best) :=
  match loss, best with
  | some loss, some best => inferInstanceAs (Decidable (loss < best))
  | some _, none => isTrue trivial
  | none, _ => isFalse id

/-- The loss of one candidate scale: the quantized scaled weight against the weight. -/
def scaleLoss (groupSize : Nat) (w : Mat R) (salient : List Nat) (inputs : List (List R))
    (scale : R) : Except QuantizeError (Option R) := do
  let scaled ← scaleChannels w salient scale
  let (qp, qs, _) ← quantizeGroupwiseInt4 scaled groupSize
  let deq ← dequantizeGroupwise qp qs groupSize
  .ok (mseLoss (inputs.map (matmulT · deq)) (inputs.map (matmulT · w)))

/-- The first scale of the grid with the least loss; 1 if none has a loss. -/
def bestScale (groupSize : Nat) (w : Mat R) (salient : List Nat) (inputs : List (List R))
    (grid : List R) : Except QuantizeError R := do
  let (scale, _) ← grid.foldlM (fun (best : R × Option R) scale => do
    let loss ← scaleLoss groupSize w salient inputs scale
    .ok (if improves loss best.2 then (scale, loss) else best)) (1, none)
  .ok scale

/-- The best scale of the grid for every layer with inputs. -/
def AwqQuantizer.findOptimalScales (q : AwqQuantizer R) (model : Model R)
    (layerInputs : List (String × List (List R))) (scaleRange : R × R) (nGrid : Nat) :
    Except QuantizeError (AwqQuantizer R) := do
  let scales ← q.salientChannels.foldlM (fun scales entry =>
    match model entry.1, layerInputs.lookup entry.1 with
    | some layer, some inputs => do
        let scale ← bestScale q.groupSize layer.weight entry.2 inputs
          (linspace scaleRange.1 scaleRange.2 nGrid)
        .ok (setKey scales entry.1 scale)
    | _, _ => .ok scales) q.optimalScales
  .ok { q with optimalScales := scales }

/-! ## `quantize` -/

omit [LinearOrder R] [FloorRing R] in
/-- The weight with its salient channels scaled, if the layer has any. -/
def AwqQuantizer.protect (q : AwqQuantizer R) (name : String) (scale : R) (w : Mat R) :
    Except QuantizeError (Mat R) :=
  match q.salientChannels.lookup name with
  | some salient => scaleChannels w salient scale
  | none => .ok w

omit [FloorRing R] [LinearOrder R] in
def setLayerWeight (layer : Layer R) (newWeight : Mat R) : Except QuantizeError (Layer R) :=
  if layer.weight.shape ≠ newWeight.shape then .error .shape
  else .ok { layer with weight := newWeight }

/-- Nothing takes the scale of the salient channels out again. -/
def AwqQuantizer.quantizeLayer (q : AwqQuantizer R) (model : Model R) (entry : String × R) :
    Except QuantizeError (Model R) :=
  match model entry.1 with
  | none => .ok model
  | some layer => do
      let w ← q.protect entry.1 entry.2 layer.weight
      let (qp, qs, qz) ← quantizeGroupwiseInt4 w q.groupSize
      let layer ← setLayerWeight
        { layer with weightQuant := some qp, weightScale := some qs, weightZero := some qz } w
      .ok (Function.update model entry.1 (some layer))

/-- The layers in order.  The dicts of the results are left out: the layers have them as buffers. -/
def AwqQuantizer.quantize (q : AwqQuantizer R) (model : Model R) :
    Except QuantizeError (Model R) :=
  q.optimalScales.foldlM q.quantizeLayer model

end Defs

/-! ## What `quantize` makes of a layer -/

section Quantize

variable {R : Type} [Field R] [LinearOrder R] [FloorRing R]

/-- The weight of a layer with its salient rows scaled. -/
def AwqQuantizer.protected (q : AwqQuantizer R) (name : String) (scale : R) (w : Mat R) : Mat R :=
  match q.salientChannels.lookup name with
  | some salient => scaleRows w salient scale
  | none => w

/-- The quantized layers have an even number of columns and the salient channels. -/
structure AwqQuantizer.Fits (q : AwqQuantizer R) (model : Model R) : Prop where
  nodup : (q.optimalScales.map Prod.fst).Nodup
  even : ∀ entry ∈ q.optimalScales, ∀ layer, model entry.1 = some layer → layer.weight.cols % 2 = 0
  salient : ∀ entry ∈ q.optimalScales, ∀ layer, model entry.1 = some layer →
    ∀ channels, q.salientChannels.lookup entry.1 = some channels →
      ∀ i ∈ channels, i < layer.weight.rows.length

/-- A layer behind `quantize`: the scaled weight, and the buffers of the scaled weight. -/
structure AwqQuantizer.Quantized (q : AwqQuantizer R) (name : String) (scale : R) (w : Mat R)
    (layer : Layer R) (packed : Mat (BitVec 8)) (scales : Mat R) (zero : Mat (BitVec 8)) :
    Prop where
  weight : layer.weight = q.protected name scale w
  weightQuant : layer.weightQuant = some packed
  weightScale : layer.weightScale = some scales
  weightZero : layer.weightZero = some zero
  codes : QuantizedInt4 (q.protected name scale w) q.groupSize packed scales

variable {q : AwqQuantizer R} {model : Model R} {name : String} {scale : R} {layer : Layer R}

omit [LinearOrder R] [FloorRing R] in
theorem shape_protected (q : AwqQuantizer R) (name : String) (scale : R) (w : Mat R) :
    (q.protected name scale w).shape = w.shape := by
  rw [AwqQuantizer.protected]
  split
  · exact Prod.ext (length_mapIdx ..) rfl
  · rfl

theorem quantizeLayer_spec (scale : R) (heven : layer.weight.cols % 2 = 0)
    (hsalient : ∀ channels, q.salientChannels.lookup name = some channels →
      ∀ i ∈ channels, i < layer.weight.rows.length) (hlayer : model name = some layer) :
    ∃ layer' packed scales zero,
      q.quantizeLayer model (name, scale) = .ok (Function.update model name (some layer')) ∧
        q.Quantized name scale layer.weight layer' packed scales zero := by
  have hprotect : q.protect name scale layer.weight =
      .ok (q.protected name scale layer.weight) := by
    rw [AwqQuantizer.protect, AwqQuantizer.protected]
    split
    case h_1 channels hlookup => rw [scaleChannels, if_pos (hsalient channels hlookup)]
    case h_2 => rfl
  have hshape := shape_protected q name scale layer.weight
  have hcols : (q.protected name scale layer.weight).cols % 2 = 0 := by
    have hsame : (q.protected name scale layer.weight).cols = layer.weight.cols :=
      (Prod.ext_iff.1 hshape).2
    omega
  obtain ⟨packed, scales, zero, hquant, hcodes⟩ :=
    quantizeGroupwiseInt4_spec q.groupSize_pos hcols
  refine ⟨⟨q.protected name scale layer.weight, some packed, some scales, some zero⟩, packed,
    scales, zero, ?_, rfl, rfl, rfl, rfl, hcodes⟩
  have hset : setLayerWeight { layer with
      weightQuant := some packed, weightScale := some scales, weightZero := some zero }
      (q.protected name scale layer.weight) =
      .ok ⟨q.protected name scale layer.weight, some packed, some scales, some zero⟩ := by
    rw [setLayerWeight, if_neg (not_not_intro hshape.symm)]
  rw [AwqQuantizer.quantizeLayer, hlayer]
  simp only [hprotect, hquant, hset, bind, Except.bind]

theorem quantize_spec (h : q.Fits model) :
    ∃ model', q.quantize model = .ok model' ∧
      ∀ entry ∈ q.optimalScales, ∀ layer, model entry.1 = some layer →
        ∃ layer' packed scales zero, model' entry.1 = some layer' ∧
          q.Quantized entry.1 entry.2 layer.weight layer' packed scales zero := by
  obtain ⟨model', hrun, hlayers, -⟩ := foldlM_keyed q.quantizeLayer (fun m name => m name)
    (fun name _ before => ∀ layer, before = some layer → layer.weight.cols % 2 = 0 ∧
      ∀ channels, q.salientChannels.lookup name = some channels →
        ∀ i ∈ channels, i < layer.weight.rows.length)
    (fun name scale before behind => ∀ layer, before = some layer →
      ∃ layer' packed scales zero, behind = some layer' ∧
        q.Quantized name scale layer.weight layer' packed scales zero)
    (fun m name scale hok => by
      cases hlayer : m name with
      | none =>
        refine ⟨m, ?_, ?_, fun _ _ => rfl⟩
        · rw [AwqQuantizer.quantizeLayer, hlayer]
        · rintro _ ⟨⟩
      | some layer =>
        obtain ⟨heven, hsalient⟩ := hok layer hlayer
        obtain ⟨layer', packed, scales, zero, hstep, hquantized⟩ :=
          quantizeLayer_spec scale heven hsalient hlayer
        refine ⟨_, hstep, ?_, fun name' hname => Function.update_of_ne hname ..⟩
        rintro _ ⟨⟩
        exact ⟨layer', packed, scales, zero, Function.update_self .., hquantized⟩)
    h.nodup (s := model) fun entry hentry layer hlayer =>
      ⟨h.even entry hentry layer hlayer, h.salient entry hentry layer hlayer⟩
  exact ⟨model', hrun, hlayers⟩

end Quantize

/-! ## When a layer keeps what it computes -/

section Keeps

variable {R : Type} [Field R] [LinearOrder R] [IsStrictOrderedRing R] [FloorRing R]

/-- The layer computes what `w` did, up to the rounding of the groups where it was quantized. -/
structure AwqQuantizer.Keeps (q : AwqQuantizer R) (name : String) (scale : R) (w : Mat R)
    (layer : Layer R) (packed : Mat (BitVec 8)) (scales : Mat R) (zero : Mat (BitVec 8)) :
    Prop where
  replaced : ∀ x : List R, x.length = w.cols → ∀ i < w.rows.length,
    |(matmulT x layer.weight).getD i 0 - (matmulT x w).getD i 0| ≤
      dot (x.map abs) (groupErrors q.groupSize w.cols (scales.row i))
  buffers : ∀ x : List R, x.length = w.cols →
    ∃ out, w4a16Gemm x packed scales zero q.groupSize = .ok out ∧ ∀ i < w.rows.length,
      |out.getD i 0 - (matmulT x w).getD i 0| ≤
        dot (x.map abs) (groupErrors q.groupSize w.cols (scales.row i))
  scaling : ∀ x : List R, x.length = w.cols → matmulT x (q.protected name scale w) = matmulT x w

/-- The salient rows of a layer are zero, or their scale is 1. -/
def AwqQuantizer.Unscaled (q : AwqQuantizer R) (name : String) (scale : R) (w : Mat R) : Prop :=
  scale = 1 ∨ ∀ channels, q.salientChannels.lookup name = some channels →
    ∀ i ∈ channels, ∀ v ∈ w.row i, v = 0

variable {q : AwqQuantizer R} {model : Model R} {name : String} {scale : R} {w : Mat R}

section

omit [LinearOrder R] [IsStrictOrderedRing R] [FloorRing R]

theorem map_mul_eq_self_iff {row : List R} : row.map (· * scale) = row ↔
    scale = 1 ∨ ∀ v ∈ row, v = 0 := by
  constructor
  · intro h
    by_cases hone : scale = 1
    · exact .inl hone
    · refine .inr fun v hv => ?_
      have hfix : v * scale = v := by
        rw [← map_id' row, map_map] at h
        simpa using map_inj_left.1 h v hv
      have hzero : v * (scale - 1) = 0 := by rw [mul_sub, hfix, mul_one, sub_self]
      exact (mul_eq_zero.1 hzero).resolve_right (sub_ne_zero.2 hone)
  · rintro (rfl | hzero)
    · simp only [mul_one, map_id']
    · have hfix : ∀ v ∈ row, v * scale = id v := fun v hv => by rw [hzero v hv, zero_mul, id]
      rw [map_congr_left hfix, map_id]

theorem scaleRows_eq_self_iff {salient : List Nat} (hsalient : ∀ i ∈ salient, i < w.rows.length) :
    (scaleRows w salient scale).rows = w.rows ↔
      scale = 1 ∨ ∀ i ∈ salient, ∀ v ∈ w.row i, v = 0 := by
  have hrow : ∀ (i : Nat) (hi : i < w.rows.length), (scaleRows w salient scale).rows[i]? =
      some (if i ∈ salient then w.rows[i].map (· * scale) else w.rows[i]) := by
    intro i hi
    rw [scaleRows, getElem?_mapIdx, getElem?_eq_getElem hi]
    rfl
  constructor
  · intro h
    by_cases hone : scale = 1
    · exact .inl hone
    · refine .inr fun i hi => ?_
      have hentry := hrow i (hsalient i hi)
      rw [h, getElem?_eq_getElem (hsalient i hi), if_pos hi] at hentry
      rw [w.row_eq_getElem (hsalient i hi)]
      exact (map_mul_eq_self_iff.1 (Option.some.inj hentry).symm).resolve_left hone
  · intro h
    refine ext_getElem? fun i => ?_
    by_cases hi : i < w.rows.length
    · rw [hrow i hi, getElem?_eq_getElem hi]
      split
      case isTrue hmem =>
        congr 1
        refine map_mul_eq_self_iff.2 (h.imp id fun hzero v hv => hzero i hmem v ?_)
        rwa [w.row_eq_getElem hi]
      case isFalse => rfl
    · rw [getElem?_eq_none (by rw [scaleRows, length_mapIdx]; omega), getElem?_eq_none (by omega)]

theorem protected_eq_self_iff (hsalient : ∀ channels,
    q.salientChannels.lookup name = some channels → ∀ i ∈ channels, i < w.rows.length) :
    (q.protected name scale w).rows = w.rows ↔ q.Unscaled name scale w := by
  rw [AwqQuantizer.protected, AwqQuantizer.Unscaled]
  cases hlookup : q.salientChannels.lookup name with
  | none => exact iff_of_true rfl (.inr fun _ h => by cases h)
  | some channels =>
    refine (scaleRows_eq_self_iff (hsalient channels hlookup)).trans (or_congr_right ?_)
    constructor
    · rintro h _ ⟨⟩
      exact h
    · exact fun h => h channels rfl

end

theorem keeps_iff_unscaled (heven : w.cols % 2 = 0) (hsalient : ∀ channels,
    q.salientChannels.lookup name = some channels → ∀ i ∈ channels, i < w.rows.length)
    {layer : Layer R} {packed : Mat (BitVec 8)} {scales : Mat R} {zero : Mat (BitVec 8)}
    (h : q.Quantized name scale w layer packed scales zero) :
    q.Keeps name scale w layer packed scales zero ↔ q.Unscaled name scale w := by
  have hshape := Prod.ext_iff.1 (shape_protected q name scale w)
  constructor
  · intro hkeeps
    rw [← protected_eq_self_iff hsalient]
    exact rows_eq_of_matmulT hshape.2 hshape.1 hkeeps.scaling
  · intro hunscaled
    have hsame : q.protected name scale w = w :=
      Mat.ext hshape.2 ((protected_eq_self_iff hsalient).2 hunscaled)
    have hcodes := h.codes
    rw [hsame] at hcodes
    have hbuffers := fun x hx => w4a16Gemm_spec q.groupSize_pos heven hcodes zero (x := x) hx
    refine ⟨fun x hx i hi => ?_, hbuffers, fun x _ => by rw [hsame]⟩
    -- the bound is not negative: the buffers are within it
    obtain ⟨out, -, hout⟩ := hbuffers x hx
    rw [h.weight, hsame, sub_self, abs_zero]
    exact (abs_nonneg _).trans (hout i hi)

/-- The layers keep what they compute exactly where salient rows are zero or their scale is 1. -/
theorem awq_keeps_iff (h : q.Fits model) :
    ∃ model', q.quantize model = .ok model' ∧
      ((∀ entry ∈ q.optimalScales, ∀ layer, model entry.1 = some layer →
          ∃ layer' packed scales zero, model' entry.1 = some layer' ∧
            layer'.weightQuant = some packed ∧ layer'.weightScale = some scales ∧
            layer'.weightZero = some zero ∧
            q.Keeps entry.1 entry.2 layer.weight layer' packed scales zero) ↔
        ∀ entry ∈ q.optimalScales, ∀ layer, model entry.1 = some layer →
          q.Unscaled entry.1 entry.2 layer.weight) := by
  obtain ⟨model', hrun, hlayers⟩ := quantize_spec h
  refine ⟨model', hrun, forall_congr' fun entry => forall_congr' fun hentry =>
    forall_congr' fun layer => forall_congr' fun hlayer => ?_⟩
  obtain ⟨layer', packed, scales, zero, hfound, hquantized⟩ := hlayers entry hentry layer hlayer
  rw [← keeps_iff_unscaled (h.even entry hentry layer hlayer)
    (h.salient entry hentry layer hlayer) hquantized]
  constructor
  · rintro ⟨layer'', packed', scales', zero', hfound', hpacked, hscales, hzero, hkeeps⟩
    cases hfound.symm.trans hfound'
    cases hpacked.symm.trans hquantized.weightQuant
    cases hscales.symm.trans hquantized.weightScale
    cases hzero.symm.trans hquantized.weightZero
    exact hkeeps
  · exact fun hkeeps => ⟨layer', packed, scales, zero, hfound, hquantized.weightQuant,
      hquantized.weightScale, hquantized.weightZero, hkeeps⟩

end Keeps

/-! ### One layer whose scale the search sets -/

def oneRow : Model ℚ := fun name =>
  if name = "fc" then some { weight := ⟨2, [[7, 149 / 100]], by decide⟩ } else none

def oneRowQuantizer (scales : List (String × ℚ)) : AwqQuantizer ℚ where
  groupSize := 128
  groupSize_pos := by decide
  salientChannels := [("fc", [0])]
  optimalScales := scales

theorem oneRowQuantizer_fits (scale : ℚ) : (oneRowQuantizer [("fc", scale)]).Fits oneRow := by
  refine ⟨nodup_singleton _, ?_, ?_⟩
  · simp [oneRowQuantizer, oneRow]
  · simp [oneRowQuantizer, oneRow]

/-- The scale 1 changes nothing. -/
theorem awq_keeps_iff_one : ∃ model', (oneRowQuantizer [("fc", 1)]).quantize oneRow = .ok model' ∧
    ∀ entry ∈ (oneRowQuantizer [("fc", 1)]).optimalScales, ∀ layer, oneRow entry.1 = some layer →
      ∃ layer' packed scales zero, model' entry.1 = some layer' ∧
        layer'.weightQuant = some packed ∧ layer'.weightScale = some scales ∧
        layer'.weightZero = some zero ∧
        (oneRowQuantizer [("fc", 1)]).Keeps entry.1 entry.2 layer.weight layer' packed scales
          zero := by
  obtain ⟨model', hrun, hkeeps⟩ := awq_keeps_iff (oneRowQuantizer_fits 1)
  refine ⟨model', hrun, hkeeps.2 fun entry hentry _ _ => .inl ?_⟩
  rw [mem_singleton.1 hentry]

/-- For this layer and the input (1, 10) the search finds 122/95, and the layer changes. -/
theorem awq_scale_stays :
    (oneRowQuantizer []).findOptimalScales oneRow [("fc", [[1, 10]])] (1, 13 / 10) 20 =
        .ok (oneRowQuantizer [("fc", 122 / 95)]) ∧
      ¬ ∃ model', (oneRowQuantizer [("fc", 122 / 95)]).quantize oneRow = .ok model' ∧
        ∀ entry ∈ (oneRowQuantizer [("fc", 122 / 95)]).optimalScales, ∀ layer,
          oneRow entry.1 = some layer →
          ∃ layer' packed scales zero, model' entry.1 = some layer' ∧
            layer'.weightQuant = some packed ∧ layer'.weightScale = some scales ∧
            layer'.weightZero = some zero ∧
            (oneRowQuantizer [("fc", 122 / 95)]).Keeps entry.1 entry.2 layer.weight layer' packed
              scales zero := by
  have hsearch : bestScale 128 (⟨2, [[7, 149 / 100]], by decide⟩ : Mat ℚ) [0] [[1, 10]]
      (linspace 1 (13 / 10) 20) = .ok (122 / 95) := by decide +kernel
  refine ⟨?_, ?_⟩
  · simp only [AwqQuantizer.findOptimalScales, oneRowQuantizer, oneRow, foldlM_cons,
      foldlM_nil, if_true, lookup_cons_self, hsearch]
    rfl
  · rintro ⟨model', -, hkeeps⟩
    obtain ⟨layer', packed, scales, zero, -, -, -, -, hkeep⟩ :=
      hkeeps ("fc", 122 / 95) (mem_singleton.2 rfl) _ rfl
    -- the first column of the weight, once scaled and once not
    have hscaled := hkeep.scaling [1, 0] rfl
    revert hscaled
    decide +kernel

end CompileForge.Compiler.Quantize
