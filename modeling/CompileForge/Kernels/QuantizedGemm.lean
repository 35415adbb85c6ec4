/-
  The GEMM kernels on quantized weights (`kernels/quantize/w4a16_gemm.py`,
  `kernels/quantize/w8a8_gemm.py`) on one row of the activation; the rows of a batch do not
  meet.
-/

import CompileForge.Kernels.Quantize
import CompileForge.Lib.Dot

namespace CompileForge.Kernels

open Lib List

section Defs

variable {R : Type} [Field R] (activation : List R)

def matmulT (weight : Mat R) : List R := weight.rows.map (dot activation)

/-- `w4a16_gemm_cpu`; the zero points are not used. -/
def w4a16Gemm (weightPacked : Mat (BitVec 8)) (weightScale : Mat R)
    (_weightZero : Mat (BitVec 8)) (groupSize : Nat) : Except QuantizeError (List R) := do
  let weight ← dequantizeGroupwise weightPacked weightScale groupSize
  .ok (matmulT activation weight)

def w8a8Gemm (actScale : Option (List R)) (weightInt8 : Mat (BitVec 8))
    (weightScale : Mat R) : Except QuantizeError (List R) := do
  let weight ← dequantizePerChannel weightInt8 weightScale
  match actScale with
  | some scale => .ok (matmulT (zipWith (· * ·) activation scale) weight)
  | none => .ok (matmulT activation weight)

end Defs

section Outputs

variable {R : Type} [Field R]

theorem getD_matmulT (x : List R) (weight : Mat R) {i : Nat} (hi : i < weight.rows.length) :
    (matmulT x weight).getD i 0 = dot x (weight.row i) := by
  rw [matmulT, getD_eq_getElem?_getD, getElem?_map, getElem?_eq_getElem hi,
    weight.row_eq_getElem hi]
  rfl

theorem rows_eq_of_matmulT {weight weight' : Mat R} (hcols : weight'.cols = weight.cols)
    (hlen : weight'.rows.length = weight.rows.length)
    (h : ∀ x : List R, x.length = weight.cols → matmulT x weight' = matmulT x weight) :
    weight'.rows = weight.rows := by
  refine ext_getElem hlen fun i hi hi' => ?_
  have hrow := weight.rect _ (getElem_mem hi')
  have hrow' := weight'.rect _ (getElem_mem hi)
  refine eq_of_dot (by rw [hrow, hrow', hcols]) fun x hx => ?_
  have hout := congrArg (·.getD i 0) (h x (by rw [hx, hrow', hcols]))
  simp only [getD_matmulT x _ hi, getD_matmulT x _ hi'] at hout
  rwa [weight'.row_eq_getElem hi, weight.row_eq_getElem hi'] at hout

end Outputs

section Errors

variable {R : Type} [Field R] [LinearOrder R] [IsStrictOrderedRing R] [FloorRing R]

section

omit [LinearOrder R] [IsStrictOrderedRing R] [FloorRing R]

/-- How far the entries of a dequantized row may be from those of the weight. -/
def groupErrors (groupSize cols : Nat) (scales : List R) : List R :=
  (range cols).map fun j => scales.getD (j / groupSize) 0 / (2 : Nat)

theorem getD_groupErrors (groupSize : Nat) {cols j : Nat} (hj : j < cols) (scales : List R) :
    (groupErrors groupSize cols scales).getD j 0 = scales.getD (j / groupSize) 0 / 2 := by
  rw [groupErrors, getD_eq_getElem?_getD, getElem?_map, getElem?_range hj, Nat.cast_ofNat]
  rfl

@[simp] theorem length_groupErrors (groupSize cols : Nat) (scales : List R) :
    (groupErrors groupSize cols scales).length = cols := by
  rw [groupErrors, length_map, length_range]

end

/-- The kernel on a grouped weight: each output is off by the rounding of its row at most. -/
theorem w4a16Gemm_spec {groupSize : Nat} (hsize : 0 < groupSize) {weight scale : Mat R}
    (heven : weight.cols % 2 = 0) {packed : Mat (BitVec 8)}
    (h : QuantizedInt4 weight groupSize packed scale) (zero : Mat (BitVec 8)) {x : List R}
    (hx : x.length = weight.cols) :
    ∃ out, w4a16Gemm x packed scale zero groupSize = .ok out ∧
      ∀ i < weight.rows.length, |out.getD i 0 - (matmulT x weight).getD i 0| ≤
        dot (x.map abs) (groupErrors groupSize weight.cols (scale.row i)) := by
  obtain ⟨deq, hdeq, hcols, hrows⟩ := dequantizeGroupwise_spec hsize heven h
  refine ⟨matmulT x deq, by rw [w4a16Gemm, hdeq]; rfl, fun i hi => ?_⟩
  have hi' : i < deq.rows.length := by rwa [hrows, length_map]
  have hlen := weight.length_row hi
  rw [getD_matmulT x _ hi, getD_matmulT x _ hi']
  refine abs_dot_sub_le (by rw [hx, hlen]) (by rw [deq.length_row hi', hcols, hlen])
    (by rw [length_groupErrors, hlen]) fun j hj => ?_
  rw [getD_groupErrors groupSize (by rwa [hlen] at hj)]
  have hscale : (scale.row i).getD (j / groupSize) 0 = scaleAt groupSize (weight.row i) j :=
    entry_of_rows h.scaleRows hi _
  have hdequant : (deq.row i).getD j 0 = (dequantized groupSize (weight.row i)).getD j 0 :=
    entry_of_rows hrows hi j
  rw [hscale, hdequant]
  exact abs_dequantized_sub_le hsize _ hj

theorem w8a8Gemm_spec {weight scale : Mat R} {q : Mat (BitVec 8)}
    (h : QuantizedInt8 weight q scale) {x act : List R} (hx : x.length = weight.cols)
    (hact : act.length = weight.cols) :
    ∃ out, w8a8Gemm x (some act) q scale = .ok out ∧ ∀ i < weight.rows.length,
        |out.getD i 0 - (matmulT (zipWith (· * ·) x act) weight).getD i 0| ≤
          scale.entry i 0 / 2 * ((zipWith (· * ·) x act).map abs).sum := by
  obtain ⟨deq, hdeq, hcols, hrows⟩ := dequantizePerChannel_spec h
  refine ⟨matmulT (zipWith (· * ·) x act) deq, by rw [w8a8Gemm, hdeq]; rfl, fun i hi => ?_⟩
  have hi' : i < deq.rows.length := by rwa [hrows, length_map]
  have hlen := weight.length_row hi
  have hscaled : (zipWith (· * ·) x act).length = (weight.row i).length := by
    rw [length_zipWith, hx, hact, Nat.min_self, hlen]
  rw [getD_matmulT _ _ hi, getD_matmulT _ _ hi']
  have herrs : (replicate (weight.row i).length (scale.entry i 0 / 2)).length =
      (weight.row i).length := length_replicate
  have hbound := abs_dot_sub_le hscaled (by rw [deq.length_row hi', hcols, hlen]) herrs
    fun j hj => ?_
  · refine hbound.trans_eq ?_
    have hlength : (weight.row i).length =
        ((zipWith (· * ·) x act).map abs).length := by rw [length_map, hscaled]
    rw [hlength, mul_comm, dot_replicate]
  · have hdequant : (deq.row i).getD j 0 = ((weight.row i).map fun x =>
        (quant (channelScale (weight.row i)) x : R) * channelScale (weight.row i)).getD j 0 :=
      entry_of_rows hrows hi j
    have hscale : scale.entry i 0 = channelScale (weight.row i) := entry_of_rows h.scaleRows hi 0
    rw [getD_eq_getElem?_getD (l := replicate _ _), getElem?_replicate, if_pos hj,
      hscale, hdequant]
    exact abs_channel_sub_le _ hj

end Errors

end CompileForge.Kernels
