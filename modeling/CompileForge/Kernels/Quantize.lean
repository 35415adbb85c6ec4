/-
  The quantization helpers (`kernels/quantize/_utils.py`) in exact arithmetic.
-/

import CompileForge.Lib.Groups
import CompileForge.Lib.Rounding
import CompileForge.Lib.Paging
import CompileForge.Lib.Shards
import Mathlib.Data.Rat.Floor
import Mathlib.Tactic.IntervalCases

namespace CompileForge.Kernels

open Lib List

/-- What the helpers raise. -/
inductive QuantizeError where
  /-- `ValueError` with its text. -/
  | value (message : String)
  /-- `group_size` is 0. -/
  | zeroDivision
  /-- `amax` over a dim without entries. -/
  | emptyReduction
  /-- The shapes of the operands do not fit. -/
  | shape
  /-- A channel that the weight does not have. -/
  | index
  /-- The conversion to an integer of a value that is not finite has no defined result. -/
  | notFinite
deriving DecidableEq, Repr

/-! ## Packing -/

/-- Two columns in one byte: the even one in the low nibble. -/
def packPair (low high : BitVec 8) : BitVec 8 := (low &&& 0x0F) ||| ((high &&& 0x0F) <<< 4)

/-- `w_low | w_high` along a row. -/
def packRow : List (BitVec 8) → List (BitVec 8)
  | low :: high :: row => packPair low high :: packRow row
  | _ => []

/-- `result[..., 0::2]` and `result[..., 1::2]` along a row. -/
def unpackRow : List (BitVec 8) → List (BitVec 8)
  | [] => []
  | byte :: row => (byte &&& 0x0F) :: ((byte >>> 4) &&& 0x0F) :: unpackRow row

theorem length_packRow (row : List (BitVec 8)) : (packRow row).length = row.length / 2 := by
  induction row using packRow.induct with
  | case1 low high row ih =>
    rw [packRow, length_cons, ih, length_cons, length_cons]
    omega
  | case2 row h =>
    match row, h with
    | [], _ => rfl
    | [_], _ => simp [packRow]
    | low :: high :: row, h => exact absurd rfl (h low high row)

@[simp] theorem length_unpackRow (row : List (BitVec 8)) :
    (unpackRow row).length = row.length * 2 := by
  induction row with
  | nil => rfl
  | cons byte row ih => rw [unpackRow, length_cons, length_cons, length_cons, ih]; omega

/-- INT4 codes packed two to a byte. -/
def packInt4 (weight : Mat (BitVec 8)) : Except QuantizeError (Mat (BitVec 8)) :=
  if weight.cols % 2 ≠ 0 then
    .error (.value ("Last dim must be even for INT4 packing, got " ++ toString weight.cols))
  else
    .ok {
      cols := weight.cols / 2
      rows := weight.rows.map packRow
      rect := by
        intro row hrow
        obtain ⟨full, hfull, rfl⟩ := mem_map.1 hrow
        rw [length_packRow, weight.rect full hfull] }

/-- `unpack_int4`, before the cast to `out_dtype`. -/
def unpackInt4 (packed : Mat (BitVec 8)) : Mat (BitVec 8) where
  cols := packed.cols * 2
  rows := packed.rows.map unpackRow
  rect := by
    intro row hrow
    obtain ⟨bytes, hbytes, rfl⟩ := mem_map.1 hrow
    rw [length_unpackRow, packed.rect bytes hbytes]

section Packing

theorem low_packPair (low high : BitVec 8) : packPair low high &&& 0x0F = low &&& 0x0F := by
  rw [packPair]
  ext i hi
  interval_cases i <;> simp

theorem high_packPair (low high : BitVec 8) :
    (packPair low high >>> 4) &&& 0x0F = high &&& 0x0F := by
  rw [packPair]
  ext i hi
  interval_cases i <;> simp

theorem nibble_of_lt {b : BitVec 8} (h : b.toNat < 16) : b &&& 0x0F = b := by
  revert b
  decide

theorem packPair_nibbles (byte : BitVec 8) :
    packPair (byte &&& 0x0F) ((byte >>> 4) &&& 0x0F) = byte := by
  revert byte
  decide

theorem packRow_unpackRow (row : List (BitVec 8)) : packRow (unpackRow row) = row := by
  induction row with
  | nil => rfl
  | cons byte row ih => rw [unpackRow, packRow, packPair_nibbles, ih]

theorem unpackRow_packRow {row : List (BitVec 8)} (heven : row.length % 2 = 0)
    (h : ∀ b ∈ row, b.toNat < 16) : unpackRow (packRow row) = row := by
  induction row using packRow.induct with
  | case1 low high row ih =>
    rw [length_cons, length_cons] at heven
    rw [packRow, unpackRow, low_packPair, high_packPair, nibble_of_lt (h low (by simp)),
      nibble_of_lt (h high (by simp)), ih (by omega) fun b hb => h b (by simp [hb])]
  | case2 row hshort =>
    match row, hshort with
    | [], _ => rfl
    | [_], _ => cases heven
    | low :: high :: row, hshort => exact absurd rfl (hshort low high row)

end Packing

/-! ## Group-wise INT4 -/

def numGroups (inFeatures groupSize : Nat) : Nat := cdiv inFeatures groupSize

/-- Zeros up to whole groups. -/
def padRow {R : Type*} [Zero R] (paddedIn : Nat) (row : List R) : List R :=
  row ++ replicate (paddedIn - row.length) 0

def viewRow {R : Type*} [Zero R] (groupSize : Nat) (row : List R) : List (List R) :=
  groups groupSize (padRow (numGroups row.length groupSize * groupSize) row)

theorem le_numGroups_mul {groupSize : Nat} (hsize : 0 < groupSize) (inFeatures : Nat) :
    inFeatures ≤ numGroups inFeatures groupSize * groupSize := (cdiv_mul_bounds inFeatures hsize).1

theorem length_padRow {R : Type*} [Zero R] {paddedIn : Nat} {row : List R}
    (h : row.length ≤ paddedIn) : (padRow paddedIn row).length = paddedIn := by
  rw [padRow, length_append, length_replicate]
  omega

section Defs

variable {R : Type} [Field R] [LinearOrder R]

/-- The `1e-9` below which no scale is clamped. -/
def minScale (R : Type*) [Field R] : R := 1 / 10 ^ 9

/-- The symmetric scale of each group. -/
def scaleRow (groupSize : Nat) (row : List R) : List R :=
  (viewRow groupSize row).map (symScale ((7 : ℕ) : R) (minScale R))

variable [FloorRing R]

/-- `.round().add(8).clamp(0, 15).to(torch.uint8)`. -/
def int4Code (s x : R) : BitVec 8 := BitVec.ofInt 8 (max 0 (min (quant s x + 8) 15))

def quantRow (groupSize : Nat) (row : List R) : List (BitVec 8) :=
  (mapGroups int4Code (viewRow groupSize row) (scaleRow groupSize row)).flatten.take row.length

omit [FloorRing R] in
theorem length_scaleRow {groupSize : Nat} (hsize : 0 < groupSize) (row : List R) :
    (scaleRow groupSize row).length = numGroups row.length groupSize := by
  rw [scaleRow, length_map, viewRow]
  exact length_groups hsize (length_padRow (le_numGroups_mul hsize _))

theorem quantRow_eq {groupSize : Nat} (hsize : 0 < groupSize) (row : List R) :
    quantRow groupSize row =
      row.mapIdx fun j x => int4Code ((scaleRow groupSize row).getD (j / groupSize) 0) x := by
  rw [quantRow, viewRow, flatten_mapGroups hsize int4Code _ 0, padRow, mapIdx_append]
  · exact take_left' (length_mapIdx ..)
  · rw [length_scaleRow hsize, length_padRow (le_numGroups_mul hsize _)]

/-- `quantize_groupwise_int4`: the packed codes, the scales and the zero points. -/
def quantizeGroupwiseInt4 (weight : Mat R) (groupSize : Nat) :
    Except QuantizeError (Mat (BitVec 8) × Mat R × Mat (BitVec 8)) :=
  if hsize : groupSize = 0 then .error .zeroDivision
  else do
    let packed ← packInt4 {
      cols := weight.cols
      rows := weight.rows.map (quantRow groupSize)
      rect := by
        intro codes hcodes
        obtain ⟨row, hrow, rfl⟩ := mem_map.1 hcodes
        rw [quantRow_eq (Nat.pos_of_ne_zero hsize), List.length_mapIdx, weight.rect row hrow] }
    .ok (packed, {
        cols := numGroups weight.cols groupSize
        rows := weight.rows.map (scaleRow groupSize)
        rect := by
          intro scales hscales
          obtain ⟨row, hrow, rfl⟩ := mem_map.1 hscales
          rw [length_scaleRow (Nat.pos_of_ne_zero hsize), weight.rect row hrow] }, {
        cols := numGroups weight.cols groupSize
        rows := weight.rows.map fun _ => replicate (numGroups weight.cols groupSize) 8
        rect := by
          intro zeros hzeros
          obtain ⟨row, hrow, rfl⟩ := mem_map.1 hzeros
          exact length_replicate })

section

omit [LinearOrder R] [FloorRing R]

def dequantizeRow (groupSize : Nat) (bytes : List (BitVec 8)) (scales : List R) : List R :=
  let quantFlat := (unpackRow bytes).map fun b => ((b.toNat : ℕ) : R)
  (mapGroups (fun s q => (q - 8) * s) (viewRow groupSize quantFlat) scales).flatten.take
    quantFlat.length

theorem dequantizeRow_eq {groupSize : Nat} (hsize : 0 < groupSize) (bytes : List (BitVec 8))
    {scales : List R} (hscales : scales.length = numGroups (bytes.length * 2) groupSize) :
    dequantizeRow groupSize bytes scales = (unpackRow bytes).mapIdx fun j b =>
      (((b.toNat : ℕ) : R) - 8) * scales.getD (j / groupSize) 0 := by
  simp only [dequantizeRow, viewRow]
  rw [flatten_mapGroups hsize (fun s q => (q - 8) * s) scales 0, padRow, mapIdx_append,
    take_left' (length_mapIdx ..)]
  · rw [mapIdx_eq_iff]
    intro j
    rw [getElem?_mapIdx, getElem?_map, Option.map_map]
    rfl
  · rw [length_padRow (le_numGroups_mul hsize _), length_map, length_unpackRow, hscales]

/-- For scales as the quantizer shapes them; others that torch broadcasts are not modelled. -/
def dequantizeGroupwise (packed : Mat (BitVec 8)) (scale : Mat R) (groupSize : Nat) :
    Except QuantizeError (Mat R) :=
  if hsize : groupSize = 0 then .error .zeroDivision
  else if hshape : scale.shape = (packed.rows.length, numGroups (packed.cols * 2) groupSize) then
    .ok {
      cols := packed.cols * 2
      rows := zipWith (dequantizeRow groupSize) packed.rows scale.rows
      rect := by
        intro row hrow
        rw [List.mem_iff_getElem] at hrow
        obtain ⟨i, hi, rfl⟩ := hrow
        rw [length_zipWith, Nat.lt_min] at hi
        have hbytes := packed.rect _ (getElem_mem hi.1)
        have hscales := scale.rect _ (getElem_mem hi.2)
        have hcols : scale.cols = numGroups (packed.cols * 2) groupSize :=
          (Prod.ext_iff.1 hshape).2
        rw [List.getElem_zipWith, dequantizeRow_eq (Nat.pos_of_ne_zero hsize) _ (by
          rw [hscales, hbytes, hcols]), List.length_mapIdx, length_unpackRow, hbytes] }
  else .error .shape

end

end Defs

section Rows

variable {R : Type} [Field R] [LinearOrder R] [IsStrictOrderedRing R] {groupSize : Nat}

def scaleAt (groupSize : Nat) (row : List R) (j : Nat) : R :=
  (scaleRow groupSize row).getD (j / groupSize) 0

theorem minScale_pos : 0 < minScale R := by
  rw [minScale]
  positivity

variable {j : Nat} {s x : R}

omit [IsStrictOrderedRing R] in
theorem exists_group (hsize : 0 < groupSize) (row : List R) (hj : j < row.length) :
    ∃ group, row[j] ∈ group ∧
      scaleAt groupSize row j = symScale ((7 : ℕ) : R) (minScale R) group := by
  have hlen := length_padRow (le_numGroups_mul hsize row.length)
  have hpad : j < (padRow (numGroups row.length groupSize * groupSize) row).length := by
    rw [padRow, length_append]
    omega
  have hmem := mem_getD_groups hsize hlen hpad
  have hentry : (padRow (numGroups row.length groupSize * groupSize) row)[j] = row[j] :=
    getElem_append_left hj
  rw [hentry] at hmem
  refine ⟨_, hmem, ?_⟩
  have hg : j / groupSize < (viewRow groupSize row).length := by
    rw [viewRow, length_groups hsize hlen, Nat.div_lt_iff_lt_mul hsize, ← hlen]
    exact hpad
  rw [scaleAt, scaleRow, getD_eq_getElem?_getD, getElem?_map,
    getElem?_eq_getElem hg, getD_eq_getElem?_getD, ← viewRow,
    getElem?_eq_getElem hg]
  rfl

theorem scaleAt_pos (hsize : 0 < groupSize) (row : List R) (hj : j < row.length) :
    0 < scaleAt groupSize row j := by
  obtain ⟨group, -, hscale⟩ := exists_group hsize row hj
  rw [hscale]
  exact symScale_pos _ minScale_pos group

variable [FloorRing R]

section

omit [IsStrictOrderedRing R]

theorem toNat_int4Code (h : |quant s x| ≤ 7) :
    ((int4Code s x).toNat : ℤ) = quant s x + 8 := by
  obtain ⟨hlow, hhigh⟩ := abs_le.1 h
  rw [int4Code, BitVec.toNat_ofInt]
  omega

theorem int4Code_lt : (int4Code s x).toNat < 16 := by
  rw [int4Code, BitVec.toNat_ofInt]
  omega

end

theorem abs_quant_scaleAt_le (hsize : 0 < groupSize) (row : List R)
    (hj : j < row.length) : |quant (scaleAt groupSize row j) row[j]| ≤ 7 := by
  obtain ⟨group, hmem, hscale⟩ := exists_group hsize row hj
  rw [hscale]
  exact abs_quant_le (by omega) minScale_pos hmem

def dequantized (groupSize : Nat) (row : List R) : List R :=
  row.mapIdx fun j x => (quant (scaleAt groupSize row j) x : R) * scaleAt groupSize row j

theorem dequantizeRow_quantRow (hsize : 0 < groupSize) {row : List R} (heven : row.length % 2 = 0) :
    dequantizeRow groupSize (packRow (quantRow groupSize row)) (scaleRow groupSize row) =
      dequantized groupSize row := by
  have hlen : (quantRow groupSize row).length = row.length := by
    rw [quantRow_eq hsize, length_mapIdx]
  have hunpack : unpackRow (packRow (quantRow groupSize row)) = quantRow groupSize row := by
    refine unpackRow_packRow (by rw [hlen, heven]) fun b hb => ?_
    rw [quantRow_eq hsize, mem_mapIdx] at hb
    obtain ⟨j, hj, rfl⟩ := hb
    exact int4Code_lt
  rw [dequantizeRow_eq hsize, hunpack, quantRow_eq hsize, mapIdx_mapIdx, dequantized]
  · refine ext_getElem (by rw [length_mapIdx, length_mapIdx]) fun j hj hj' => ?_
    rw [length_mapIdx] at hj
    have hcode := toNat_int4Code (abs_quant_scaleAt_le hsize row hj)
    have hcast : (((int4Code (scaleAt groupSize row j) row[j]).toNat : ℕ) : R) =
        quant (scaleAt groupSize row j) row[j] + 8 := by exact_mod_cast hcode
    rw [getElem_mapIdx, getElem_mapIdx]
    show ((((int4Code (scaleAt groupSize row j) row[j]).toNat : ℕ) : R) - 8) *
      scaleAt groupSize row j = _
    rw [hcast, add_sub_cancel_right]
  · rw [length_scaleRow hsize, length_packRow, hlen]
    congr 1
    omega

theorem viewRow_dequantized (hsize : 0 < groupSize) (row : List R) :
    viewRow groupSize (dequantized groupSize row) =
      mapGroups (fun s x => (quant s x : R) * s) (viewRow groupSize row)
        (scaleRow groupSize row) := by
  have hlen := length_padRow (le_numGroups_mul hsize row.length)
  have hgroups : ∀ group ∈ viewRow groupSize row, group.length = groupSize :=
    fun group hg => length_of_mem_groups hsize hlen hg
  have hflat := flatten_mapGroups hsize (fun s x => (quant s x : R) * s)
    (scaleRow groupSize row) 0 (hlen.trans (by rw [length_scaleRow hsize]))
  have hmapped : ∀ group ∈ mapGroups (fun s x => (quant s x : R) * s) (viewRow groupSize row)
      (scaleRow groupSize row), group.length = groupSize := length_of_mem_mapGroups hgroups
  rw [← groups_flatten hsize hmapped, viewRow, viewRow, hflat, dequantized]
  congr 1
  -- the zeros of the padding stay zeros
  rw [padRow, padRow, length_mapIdx, mapIdx_append]
  congr 1
  refine (eq_replicate_iff.2 ⟨?_, fun x hx => ?_⟩).symm
  · rw [length_mapIdx, length_replicate]
  · obtain ⟨j, hj, rfl⟩ := mem_mapIdx.1 hx
    rw [getElem_replicate, quant_zero, Int.cast_zero, zero_mul]

theorem scaleRow_dequantized (hsize : 0 < groupSize) (row : List R) :
    scaleRow groupSize (dequantized groupSize row) = scaleRow groupSize row := by
  rw [scaleRow, viewRow_dequantized hsize, scaleRow, mapGroups_map, map_map]
  exact map_congr_left fun group _ => symScale_dequant (by omega) minScale_pos group

theorem quantRow_dequantized (hsize : 0 < groupSize) (row : List R) :
    quantRow groupSize (dequantized groupSize row) = quantRow groupSize row := by
  rw [quantRow_eq hsize, quantRow_eq hsize, scaleRow_dequantized hsize, dequantized, mapIdx_mapIdx]
  refine ext_getElem (by rw [length_mapIdx, length_mapIdx]) fun j hj hj' => ?_
  rw [length_mapIdx] at hj
  rw [getElem_mapIdx, getElem_mapIdx]
  show int4Code (scaleAt groupSize row j) (quant (scaleAt groupSize row j) row[j] *
    scaleAt groupSize row j) = int4Code (scaleAt groupSize row j) row[j]
  rw [int4Code, int4Code, quant_mul (scaleAt_pos hsize row hj).ne']

omit [IsStrictOrderedRing R] in
theorem getD_dequantized (row : List R) (hj : j < row.length) :
    (dequantized groupSize row).getD j 0 =
      (quant (scaleAt groupSize row j) (row.getD j 0) : R) * scaleAt groupSize row j := by
  rw [dequantized, getD_eq_getElem?_getD, getElem?_mapIdx, getD_eq_getElem?_getD,
    getElem?_eq_getElem hj]
  rfl

theorem abs_dequantized_sub_le (hsize : 0 < groupSize) (row : List R) (hj : j < row.length) :
    |(dequantized groupSize row).getD j 0 - row.getD j 0| ≤ scaleAt groupSize row j / 2 := by
  rw [getD_dequantized row hj]
  exact abs_dequant_sub_le (scaleAt_pos hsize row hj) _

end Rows

/-! ### A matrix through the quantizer -/

section Matrices

variable {R : Type} [Field R] [LinearOrder R] [IsStrictOrderedRing R] [FloorRing R]
  {groupSize : Nat}

/-- The packed codes and the scales of the groups, row by row. -/
structure QuantizedInt4 (weight : Mat R) (groupSize : Nat) (packed : Mat (BitVec 8))
    (scale : Mat R) : Prop where
  cols : packed.cols = weight.cols / 2
  rows : packed.rows = weight.rows.map fun row => packRow (quantRow groupSize row)
  scaleCols : scale.cols = numGroups weight.cols groupSize
  scaleRows : scale.rows = weight.rows.map (scaleRow groupSize)

variable {weight : Mat R}

omit [IsStrictOrderedRing R] in
theorem quantizeGroupwiseInt4_spec (hsize : 0 < groupSize) (heven : weight.cols % 2 = 0) :
    ∃ packed scale zero, quantizeGroupwiseInt4 weight groupSize = .ok (packed, scale, zero) ∧
      QuantizedInt4 weight groupSize packed scale := by
  rw [quantizeGroupwiseInt4, dif_neg hsize.ne', packInt4, if_neg (not_not_intro heven)]
  exact ⟨_, _, _, rfl, rfl, map_map, rfl, rfl⟩

theorem dequantizeGroupwise_spec (hsize : 0 < groupSize)
    (heven : weight.cols % 2 = 0) {packed : Mat (BitVec 8)} {scale : Mat R}
    (h : QuantizedInt4 weight groupSize packed scale) :
    ∃ deq, dequantizeGroupwise packed scale groupSize = .ok deq ∧ deq.cols = weight.cols ∧
      deq.rows = weight.rows.map (dequantized groupSize) := by
  have hcols : packed.cols * 2 = weight.cols := by rw [h.cols]; omega
  have hshape : scale.shape = (packed.rows.length, numGroups (packed.cols * 2) groupSize) := by
    rw [Mat.shape, h.scaleCols, h.scaleRows, h.rows, length_map, length_map, hcols]
  rw [dequantizeGroupwise, dif_neg hsize.ne', dif_pos hshape]
  refine ⟨_, rfl, hcols, ?_⟩
  show zipWith (dequantizeRow groupSize) packed.rows scale.rows = _
  rw [h.rows, h.scaleRows, zipWith_map, zipWith_self]
  refine map_congr_left fun row hrow => dequantizeRow_quantRow hsize ?_
  rw [weight.rect row hrow, heven]

theorem quantizeGroupwiseInt4_again (hsize : 0 < groupSize) {deq : Mat R}
    (hcols : deq.cols = weight.cols) (hrows : deq.rows = weight.rows.map (dequantized groupSize)) :
    quantizeGroupwiseInt4 deq groupSize = quantizeGroupwiseInt4 weight groupSize := by
  have hquant : deq.rows.map (quantRow groupSize) = weight.rows.map (quantRow groupSize) := by
    rw [hrows, map_map]
    exact map_congr_left fun row _ => quantRow_dequantized hsize row
  have hscale : deq.rows.map (scaleRow groupSize) = weight.rows.map (scaleRow groupSize) := by
    rw [hrows, map_map]
    exact map_congr_left fun row _ => scaleRow_dequantized hsize row
  have hzero : deq.rows.map (fun _ => replicate (numGroups weight.cols groupSize)
      (8 : BitVec 8)) =
      weight.rows.map fun _ => replicate (numGroups weight.cols groupSize) 8 := by
    rw [hrows, map_map]
    rfl
  simp only [quantizeGroupwiseInt4, dif_neg hsize.ne', hquant, hscale, hzero, hcols]

omit [LinearOrder R] [IsStrictOrderedRing R] [FloorRing R] in
theorem entry_of_rows {f : List R → List R} {m : Mat R}
    (h : m.rows = weight.rows.map f) {i : Nat} (hi : i < weight.rows.length) (j : Nat) :
    m.entry i j = (f (weight.row i)).getD j 0 := by
  have hrow : m.row i = f (weight.row i) := by
    rw [Mat.row, h, getD_eq_getElem?_getD, getElem?_map,
      getElem?_eq_getElem hi, weight.row_eq_getElem hi]
    rfl
  rw [Mat.entry, hrow]

end Matrices

section Int8

variable {R : Type} [Field R] [LinearOrder R]

def channelScale (row : List R) : R := symScale ((127 : ℕ) : R) (minScale R) row

/-- `.round().clamp(-128, 127).to(torch.int8)`. -/
def int8Code [FloorRing R] (s x : R) : BitVec 8 :=
  BitVec.ofInt 8 (max (-128) (min (quant s x) 127))

def quantizePerChannelInt8 [FloorRing R] (weight : Mat R) :
    Except QuantizeError (Mat (BitVec 8) × Mat R) :=
  if weight.cols = 0 then .error .emptyReduction
  else .ok ({
      cols := weight.cols
      rows := weight.rows.map fun row => row.map (int8Code (channelScale row))
      rect := by
        intro codes hcodes
        obtain ⟨row, hrow, rfl⟩ := mem_map.1 hcodes
        rw [length_map, weight.rect row hrow] }, {
      cols := 1
      rows := weight.rows.map fun row => [channelScale row]
      rect := by
        intro scales hscales
        obtain ⟨row, -, rfl⟩ := mem_map.1 hscales
        rfl })

/-- For one scale a row; other shapes that torch broadcasts are not modelled. -/
def dequantizePerChannel (quant : Mat (BitVec 8)) (scale : Mat R) :
    Except QuantizeError (Mat R) :=
  if scale.shape = (quant.rows.length, 1) then
    .ok {
      cols := quant.cols
      rows := zipWith (fun codes scales =>
        codes.map fun q => ((q.toInt : ℤ) : R) * scales.headD 0) quant.rows scale.rows
      rect := by
        intro row hrow
        rw [List.mem_iff_getElem] at hrow
        obtain ⟨i, hi, rfl⟩ := hrow
        rw [length_zipWith, Nat.lt_min] at hi
        rw [List.getElem_zipWith, length_map, quant.rect _ (getElem_mem hi.1)] }
  else .error .shape

variable [IsStrictOrderedRing R] [FloorRing R]

omit [IsStrictOrderedRing R] in
theorem toInt_int8Code {s x : R} (h : |quant s x| ≤ 127) : (int8Code s x).toInt = quant s x := by
  obtain ⟨hlow, hhigh⟩ := abs_le.1 h
  rw [int8Code, min_eq_left hhigh, max_eq_right (by omega), BitVec.toInt_ofInt]
  exact Int.bmod_eq_of_le (by omega) (by omega)

/-- The codes and the scale of each row. -/
structure QuantizedInt8 (weight : Mat R) (q : Mat (BitVec 8)) (scale : Mat R) : Prop where
  cols : q.cols = weight.cols
  rows : q.rows = weight.rows.map fun row => row.map (int8Code (channelScale row))
  scaleCols : scale.cols = 1
  scaleRows : scale.rows = weight.rows.map fun row => [channelScale row]

omit [IsStrictOrderedRing R] in
theorem quantizePerChannelInt8_spec {weight : Mat R} (hcols : weight.cols ≠ 0) :
    ∃ q scale, quantizePerChannelInt8 weight = .ok (q, scale) ∧ QuantizedInt8 weight q scale := by
  rw [quantizePerChannelInt8, if_neg hcols]
  exact ⟨_, _, rfl, rfl, rfl, rfl, rfl⟩

theorem dequantizePerChannel_spec {weight scale : Mat R} {q : Mat (BitVec 8)}
    (h : QuantizedInt8 weight q scale) :
    ∃ deq, dequantizePerChannel q scale = .ok deq ∧ deq.cols = weight.cols ∧
      deq.rows = weight.rows.map fun row =>
        row.map fun x => (quant (channelScale row) x : R) * channelScale row := by
  have hshape : scale.shape = (q.rows.length, 1) := by
    rw [Mat.shape, h.scaleRows, h.scaleCols, h.rows, length_map, length_map]
  rw [dequantizePerChannel, if_pos hshape]
  refine ⟨_, rfl, h.cols, ?_⟩
  show zipWith _ q.rows scale.rows = _
  rw [h.rows, h.scaleRows, zipWith_map, zipWith_self]
  refine map_congr_left fun row _ => ?_
  rw [map_map]
  refine map_congr_left fun x hx => ?_
  have hlevel : |quant (channelScale row) x| ≤ 127 := abs_quant_le (by omega) minScale_pos hx
  show (((int8Code (channelScale row) x).toInt : ℤ) : R) * channelScale row = _
  rw [toInt_int8Code hlevel]

theorem abs_channel_sub_le (row : List R) {j : Nat} (hj : j < row.length) :
    |(row.map fun x => (quant (channelScale row) x : R) * channelScale row).getD j 0 -
      row.getD j 0| ≤ channelScale row / 2 := by
  rw [getD_eq_getElem?_getD, getElem?_map, getD_eq_getElem?_getD, getElem?_eq_getElem hj]
  exact abs_dequant_sub_le (symScale_pos _ minScale_pos row) _

end Int8

/-! ## There and back -/

/-- Shapes come back, entries within half a scale, zeros as zeros, and again without a change. -/
def Int4RoundTrip (weight : Mat ℚ) (groupSize : Nat) : Prop :=
  ∃ packed scale zero deq, quantizeGroupwiseInt4 weight groupSize = .ok (packed, scale, zero) ∧
    dequantizeGroupwise packed scale groupSize = .ok deq ∧ deq.shape = weight.shape ∧
    (∀ i < weight.rows.length, ∀ j < weight.cols,
      |deq.entry i j - weight.entry i j| ≤ scale.entry i (j / groupSize) / 2 ∧
        (weight.entry i j = 0 → deq.entry i j = 0)) ∧
    quantizeGroupwiseInt4 deq groupSize = .ok (packed, scale, zero)

/-- 4-bit values through the packing, and bytes through the unpacking. -/
def PackingInverse : Prop :=
  (∀ weight : Mat (BitVec 8), weight.cols % 2 = 0 → (∀ row ∈ weight.rows, ∀ b ∈ row, b.toNat < 16) →
      (packInt4 weight).map unpackInt4 = .ok weight) ∧
    ∀ packed : Mat (BitVec 8), packInt4 (unpackInt4 packed) = .ok packed

/-- A weight through per-channel INT8: each entry within half the scale of its row. -/
def Int8RoundTrip (weight : Mat ℚ) : Prop :=
  ∃ q scale deq, quantizePerChannelInt8 weight = .ok (q, scale) ∧
    dequantizePerChannel q scale = .ok deq ∧ deq.shape = weight.shape ∧
    ∀ i < weight.rows.length, ∀ j < weight.cols,
      |deq.entry i j - weight.entry i j| ≤ scale.entry i 0 / 2

theorem int4RoundTrip {weight : Mat ℚ} {groupSize : Nat} (heven : weight.cols % 2 = 0)
    (hsize : 0 < groupSize) : Int4RoundTrip weight groupSize := by
  obtain ⟨packed, scale, zero, hquant, hspec⟩ := quantizeGroupwiseInt4_spec hsize heven
  obtain ⟨deq, hdeq, hcols, hrows⟩ := dequantizeGroupwise_spec hsize heven hspec
  have hshape : deq.shape = weight.shape := by
    rw [Mat.shape, Mat.shape, hrows, hcols, length_map]
  refine ⟨packed, scale, zero, deq, hquant, hdeq, hshape, fun i hi j hj => ?_, ?_⟩
  · have hj : j < (weight.row i).length := by rwa [weight.length_row hi]
    rw [entry_of_rows hrows hi, entry_of_rows hspec.scaleRows hi]
    refine ⟨abs_dequantized_sub_le hsize _ hj, fun hzero => ?_⟩
    rw [Mat.entry] at hzero
    rw [getD_dequantized _ hj, hzero, quant_zero, Int.cast_zero, zero_mul]
  · rw [quantizeGroupwiseInt4_again hsize hcols hrows, hquant]

theorem packingInverse : PackingInverse := by
  refine ⟨fun weight heven hlt => ?_, fun packed => ?_⟩
  · rw [packInt4, if_neg (not_not_intro heven)]
    refine congrArg Except.ok (Mat.ext (Nat.div_mul_cancel (Nat.dvd_of_mod_eq_zero heven)) ?_)
    show (weight.rows.map packRow).map unpackRow = weight.rows
    rw [map_map]
    have hback : ∀ row ∈ weight.rows, (unpackRow ∘ packRow) row = id row := fun row hrow =>
      unpackRow_packRow (by rw [weight.rect row hrow, heven]) (hlt row hrow)
    rw [map_congr_left hback, map_id]
  · have heven : (unpackInt4 packed).cols % 2 = 0 := Nat.mul_mod_left ..
    rw [packInt4, if_neg (not_not_intro heven)]
    refine congrArg Except.ok (Mat.ext (Nat.mul_div_cancel _ (by omega)) ?_)
    show (packed.rows.map unpackRow).map packRow = packed.rows
    rw [map_map]
    exact map_id'' packRow_unpackRow _

theorem int8RoundTrip {weight : Mat ℚ} (hcols : weight.cols ≠ 0) : Int8RoundTrip weight := by
  obtain ⟨q, scale, hquant, hspec⟩ := quantizePerChannelInt8_spec hcols
  obtain ⟨deq, hdeq, hdeqCols, hrows⟩ := dequantizePerChannel_spec hspec
  have hshape : deq.shape = weight.shape := by
    rw [Mat.shape, Mat.shape, hrows, hdeqCols, length_map]
  refine ⟨q, scale, deq, hquant, hdeq, hshape, fun i hi j hj => ?_⟩
  rw [entry_of_rows hrows hi, entry_of_rows hspec.scaleRows hi]
  exact abs_channel_sub_le _ (by rwa [weight.length_row hi])

/-- Every weight with an even number of columns survives INT4, and with any columns INT8. -/
theorem quantize_roundTrips :
    (∀ (weight : Mat ℚ) (groupSize : Nat), weight.cols % 2 = 0 → 1 ≤ groupSize →
      Int4RoundTrip weight groupSize) ∧
    PackingInverse ∧ ∀ weight : Mat ℚ, weight.cols ≠ 0 → Int8RoundTrip weight :=
  ⟨fun _ _ heven hsize => int4RoundTrip heven hsize, packingInverse, fun _ hcols =>
    int8RoundTrip hcols⟩

/-- Six columns in groups of four, and one row of two. -/
theorem quantize_roundTrips_pair :
    Int4RoundTrip ⟨6, [[3, -7, 0, 1 / 2, 5, -2]], by decide⟩ 4 ∧
      Int8RoundTrip ⟨2, [[1, -3]], by decide⟩ :=
  ⟨quantize_roundTrips.1 _ 4 (by decide) (by decide), quantize_roundTrips.2.2 _ (by decide)⟩

/-- `amax` refuses a row without columns. -/
theorem int8_refuses_empty : ¬ ∀ weight : Mat ℚ, Int8RoundTrip weight := by
  intro h
  obtain ⟨q, scale, deq, hquant, -⟩ := h ⟨0, [[]], by decide⟩
  rw [quantizePerChannelInt8, if_pos rfl] at hquant
  cases hquant

end CompileForge.Kernels
