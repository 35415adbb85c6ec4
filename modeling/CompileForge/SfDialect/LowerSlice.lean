/-
  `SfSliceOpLowering`, `SfSelectOpLowering` and `SfPadOpLowering`
  (`sf-dialect/lib/Sf/SfLowerShape.cpp`) run on a tensor, and the ATen ops they stand for.
-/

import CompileForge.SfDialect.LoweringHelpers
import Mathlib.Data.Int.Order.Basic
import Mathlib.Algebra.Ring.Int.Defs

namespace CompileForge.SfDialect

open Lib List

variable {α : Type}

def sliceIndex (offsets strides c : List Nat) : List Nat :=
  zipWith (· + ·) offsets (zipWith (· * ·) c strides)

/-- `tensor.extract_slice`: offsets and sizes that are negative are no valid op, and every element
    that is read must be one of the source. -/
def extractSlice (t : Tensor α) (offsets sizes : List Int) (strides : List Nat) :
    Option (Tensor α) :=
  if (∀ o ∈ offsets, 0 ≤ o) ∧ (∀ n ∈ sizes, 0 ≤ n) ∧ ∀ c ∈ points (sizes.map Int.toNat),
        InShape t.shape (sliceIndex (offsets.map Int.toNat) strides c) then
    some ⟨sizes.map Int.toNat, fun c => t.elem (sliceIndex (offsets.map Int.toNat) strides c)⟩
  else none

def alongDim {β : Type} (rank dim : Nat) (x : β) (others : Nat → β) : List β :=
  (range rank).map fun i => if i = dim then x else others i

/-! ## `sf.slice` -/

/-- The attributes of `sf.slice`; one that is absent has the default of its reader. -/
structure SliceAttrs where
  dim : Option Int64
  start : Option Int64
  sEnd : Option Int64
  step : Option Int64

/-- The value of an attribute. -/
def attrOr (default : Int) (a : Option Int64) : Int := (a.map Int64.toInt).getD default

/-- A negative dim counts from the end. -/
def normDim (rank : Nat) (dim : Int) : Option Nat :=
  let dim := if dim < 0 then dim + rank else dim
  if dim < 0 ∨ rank ≤ dim then none else some dim.toNat

def kDynSentinel : Int := 9223372036854775807

/-- 64-bit index arithmetic. -/
def wrap64 (x : Int) : Int := x.bmod (2 ^ 64)

/-- The length of a slice; with a given end it is computed in C++, and may overflow. -/
def sliceLen (size : Nat) (start sEnd step : Int) : Option Int :=
  if sEnd = kDynSentinel then
    let lenVal := wrap64 (size - start)
    some (if step = 1 then lenVal else (wrap64 (lenVal + (step - 1))).tdiv step)
  else
    let len := if start ≤ sEnd then sEnd - start else 0
    if step = 1 then some len
    else if len + step - 1 < 2 ^ 63 then some ((len + step - 1).tdiv step) else none

def lowerSlice (inType : RankedType) (attrs : SliceAttrs) (input : Tensor α) :
    Lowered (Tensor α) :=
  let start := attrOr 0 attrs.start
  let sEnd := attrOr 0 attrs.sEnd
  let step := if attrOr 1 attrs.step ≤ 0 then 1 else attrOr 1 attrs.step
  let rank := inType.length
  match normDim rank (attrOr 0 attrs.dim) with
  | none => .error .noMatch
  | some dim => do
      let len ← emit (sliceLen (input.shape.getD dim 0) start sEnd step)
      let offs := alongDim rank dim start fun _ => 0
      let szs := alongDim rank dim len fun i =>
        ((inType.getD i none).getD (input.shape.getD i 0) : Nat)
      -- the stride of every dim, not of the sliced one alone
      let strs := replicate rank step.toNat
      emit (extractSlice input offs szs strs)

/-! ## `aten.slice.Tensor` -/

/-- The first element and the end, behind the normalization. -/
def atenBounds (size : Nat) (start sEnd : Option Int64) : Int × Int :=
  let s := attrOr 0 start
  let e := attrOr kDynSentinel sEnd
  let s := if s < 0 then s + size else s
  let e := if e < 0 then e + size else e
  let s := if s < 0 then 0 else if (size : Int) ≤ s then (size : Int) else s
  let e := if e < s then s else if (size : Int) ≤ e then (size : Int) else e
  (s, e)

/-- The number of elements. -/
def atenLen (size : Nat) (start sEnd : Option Int64) (step : Int) : Nat :=
  (((atenBounds size start sEnd).2 - (atenBounds size start sEnd).1 + step - 1) / step).toNat

/-- What a slice means. -/
def atenSlice (t : Tensor α) (dim : Nat) (start sEnd : Option Int64) (step : Int) : Tensor α where
  shape := t.shape.set dim (atenLen (t.shape.getD dim 0) start sEnd step)
  elem c := t.elem (c.set dim
    ((atenBounds (t.shape.getD dim 0) start sEnd).1.toNat + c.getD dim 0 * step.toNat))

section Length

variable {size : Nat} {start sEnd : Option Int64} {step x : Int}

/-- The number of elements between two bounds that are `x` apart. -/
def ceilLen (x step : Int) : Int := (max x 0 + step - 1) / step

theorem ceilLen_nonneg (hstep : 1 ≤ step) : 0 ≤ ceilLen x step :=
  Int.ediv_nonneg (by omega) (by omega)

theorem ceilLen_eq_zero_iff (hstep : 1 ≤ step) : ceilLen x step = 0 ↔ x ≤ 0 := by
  rw [ceilLen, Int.ediv_eq_iff_of_pos (by omega)]
  omega

theorem mul_lt_of_lt_ceilLen (hstep : 1 ≤ step) (hx : 0 < x) {c : Int} (hc : c < ceilLen x step) :
    c * step < x := by
  have hle : (c + 1) * step ≤ max x 0 + step - 1 :=
    (Int.le_ediv_iff_mul_le (by omega)).1 (by rw [ceilLen] at hc; omega)
  rw [Int.add_mul, Int.one_mul] at hle
  omega

def stopOf (size : Nat) (sEnd : Option Int64) : Int :=
  match sEnd with
  | none => size
  | some e => if e.toInt < 0 then e.toInt + size else min e.toInt size

theorem toInt_le (e : Int64) : e.toInt ≤ 9223372036854775807 := Int64.toInt_le e

theorem atenLen_eq (hstart : 0 ≤ attrOr 0 start) (hsize : size < 2 ^ 63) (hstep : 1 ≤ step) :
    (atenLen size start sEnd step : Int) = ceilLen (stopOf size sEnd - attrOr 0 start) step := by
  have hgap : (atenBounds size start sEnd).2 - (atenBounds size start sEnd).1 =
      max (stopOf size sEnd - attrOr 0 start) 0 := by
    cases sEnd with
    | none =>
      simp only [atenBounds, stopOf, attrOr, Option.map_none, Option.getD_none, kDynSentinel] at *
      omega
    | some =>
      simp only [atenBounds, stopOf, attrOr, Option.map_some, Option.getD_some] at *
      omega
  rw [atenLen, hgap, ← ceilLen, Int.toNat_of_nonneg (ceilLen_nonneg hstep)]

/-- What the raw bounds must satisfy for the length to be ATen's. -/
def EndKept (size : Nat) (start : Int) (sEnd : Option Int64) (step : Int) : Prop :=
  match sEnd with
  | none => (size : Int) ≤ start
  | some e =>
    if e.toInt = kDynSentinel then
      start < size + 2 * step - 1 ∧ size - start + step ≤ 2 ^ 63
    else if e.toInt < 0 then e.toInt + size ≤ start
    else e.toInt - start + step ≤ 2 ^ 63 ∧
      ceilLen (e.toInt - start) step = ceilLen (min e.toInt size - start) step

theorem tdiv_nonpos (hstep : 1 ≤ step) (hx : x ≤ 0) : x.tdiv step ≤ 0 := by
  have hneg : 0 ≤ (-x).tdiv step := Int.tdiv_nonneg (by omega) (by omega)
  rw [Int.neg_tdiv] at hneg
  omega

theorem tdiv_eq_zero_iff (hstep : 1 ≤ step) (hx : x < step) : x.tdiv step = 0 ↔ -step < x := by
  by_cases hpos : 0 ≤ x
  · exact iff_of_true (Int.tdiv_eq_zero_of_lt hpos hx) (by omega)
  · rw [← Int.neg_neg x, Int.neg_tdiv, Int.neg_eq_zero, Int.tdiv_eq_ediv_of_nonneg (by omega),
      Int.ediv_eq_iff_of_pos (by omega)]
    omega

theorem sliceLen_of_ne (hstep : 1 ≤ step) (hstep' : step ≤ 2 ^ 63 - 1) {s e : Int} (hs : 0 ≤ s)
    (hne : e ≠ kDynSentinel) (he : e ≤ 2 ^ 63 - 1) {n : Int} :
    sliceLen size s e step = some n ↔ e - s + step ≤ 2 ^ 63 ∧ ceilLen (e - s) step = n := by
  have hlen : (if s ≤ e then e - s else 0) = max (e - s) 0 := by
    split <;> omega
  rw [sliceLen, if_neg hne]
  simp only [hlen]
  by_cases hone : step = 1
  · rw [if_pos hone, Option.some.injEq, ceilLen, hone, Int.ediv_one]
    omega
  · rw [if_neg hone]
    by_cases hover : max (e - s) 0 + step - 1 < 2 ^ 63
    · rw [if_pos hover, Option.some.injEq, Int.tdiv_eq_ediv_of_nonneg (by omega), ceilLen]
      omega
    · rw [if_neg hover]
      exact iff_of_false (by simp) (by omega)

theorem sliceLen_open (hstep : 1 ≤ step) {s : Int} (hs : 0 ≤ s) (hs' : s ≤ 2 ^ 63 - 1)
    (hstep' : step ≤ 2 ^ 63 - 1) (hsize : size < 2 ^ 63) :
    sliceLen size s kDynSentinel step = some (ceilLen (size - s) step) ↔
      s < size + 2 * step - 1 ∧ size - s + step ≤ 2 ^ 63 := by
  have hwrap : wrap64 (size - s) = size - s := Int.bmod_eq_of_le (by omega) (by omega)
  have hlen : sliceLen size s kDynSentinel step =
      some ((wrap64 (size - s + (step - 1))).tdiv step) := by
    rw [sliceLen, if_pos rfl]
    simp only [hwrap]
    split
    case isTrue hone =>
      rw [hone, Int.tdiv_one, Int.sub_self, Int.add_zero, hwrap]
    case isFalse => rfl
  rw [hlen, Option.some.injEq]
  by_cases hover : size - s + step ≤ 2 ^ 63
  · have hsum : wrap64 (size - s + (step - 1)) = size - s + (step - 1) :=
      Int.bmod_eq_of_le (by omega) (by omega)
    rw [hsum, and_iff_left hover]
    by_cases hpos : s ≤ size
    · rw [Int.tdiv_eq_ediv_of_nonneg (by omega), ceilLen, Int.max_eq_left (by omega)]
      exact iff_of_true (by rw [Int.add_sub_assoc]) (by omega)
    · rw [(ceilLen_eq_zero_iff hstep).2 (by omega), tdiv_eq_zero_iff hstep (by omega)]
      omega
  · -- the sum wraps around to a negative number
    have hsum : wrap64 (size - s + (step - 1)) = size - s + (step - 1) - 2 ^ 64 := by
      rw [wrap64, ← Int.sub_mul_bmod_self_left _ _ 1]
      exact Int.bmod_eq_of_le (by omega) (by omega)
    have hlow := tdiv_nonpos (x := size - s + (step - 1) - 2 ^ 64) hstep (by omega)
    have hhigh := ceilLen_nonneg (x := size - s) hstep
    have hne := mt (ceilLen_eq_zero_iff (x := size - s) hstep).1 (by omega)
    rw [hsum]
    exact iff_of_false (by omega) (by omega)

theorem sliceLen_eq_iff (hstart : 0 ≤ attrOr 0 start) (hsize : size < 2 ^ 63) (hstep : 1 ≤ step)
    (hstep' : step ≤ 2 ^ 63 - 1) :
    sliceLen size (attrOr 0 start) (attrOr 0 sEnd) step = some ↑(atenLen size start sEnd step) ↔
      EndKept size (attrOr 0 start) sEnd step := by
  rw [atenLen_eq hstart hsize hstep]
  have hs : attrOr 0 start ≤ 2 ^ 63 - 1 := by
    cases start with
    | none => decide
    | some s => exact toInt_le s
  generalize attrOr 0 start = s at *
  cases sEnd with
  | none =>
    show sliceLen size s 0 step = _ ↔ (size : Int) ≤ s
    rw [sliceLen_of_ne hstep hstep' hstart (by decide) (by decide),
      (ceilLen_eq_zero_iff hstep).2 (by omega),
      eq_comm, ceilLen_eq_zero_iff hstep, stopOf]
    omega
  | some e =>
    have he := toInt_le e
    have hmax : kDynSentinel = 9223372036854775807 := rfl
    show sliceLen size s e.toInt step = _ ↔ _
    simp only [EndKept, stopOf]
    by_cases hopen : e.toInt = kDynSentinel
    · rw [if_pos hopen, if_neg (by omega), hopen, Int.min_eq_right (by omega)]
      exact sliceLen_open hstep hstart hs hstep' hsize
    · rw [if_neg hopen, sliceLen_of_ne hstep hstep' hstart hopen (by omega)]
      by_cases hneg : e.toInt < 0
      · rw [if_pos hneg, if_pos hneg, (ceilLen_eq_zero_iff hstep).2 (by omega), eq_comm,
          ceilLen_eq_zero_iff hstep]
        omega
      · rw [if_neg hneg, if_neg hneg]

theorem stopOf_le (size : Nat) (sEnd : Option Int64) : stopOf size sEnd ≤ size := by
  cases sEnd with
  | none => exact Int.le_refl _
  | some =>
    simp only [stopOf]
    split <;> omega

theorem atenLen_last_lt (hstart : 0 ≤ attrOr 0 start) (hsize : size < 2 ^ 63) (hstep : 1 ≤ step)
    (hpos : 0 < atenLen size start sEnd step) :
    (attrOr 0 start).toNat + (atenLen size start sEnd step - 1) * step.toNat < size := by
  have hlen : (atenLen size start sEnd step : Int) = _ := atenLen_eq hstart hsize hstep
  have hgap : 0 < stopOf size sEnd - attrOr 0 start := by
    have := mt (ceilLen_eq_zero_iff (x := stopOf size sEnd - attrOr 0 start) hstep).2 (by omega)
    omega
  have hmul := mul_lt_of_lt_ceilLen hstep hgap
    (c := ((atenLen size start sEnd step - 1 : Nat) : Int)) (by omega)
  have hcast : (((atenLen size start sEnd step - 1) * step.toNat : Nat) : Int) =
      ((atenLen size start sEnd step - 1 : Nat) : Int) * step := by
    rw [Int.natCast_mul, Int.toNat_of_nonneg (by omega)]
  have := stopOf_le size sEnd
  omega

theorem atenBounds_fst (hstart : 0 ≤ attrOr 0 start) (hlt : attrOr 0 start < size) :
    (atenBounds size start sEnd).1 = attrOr 0 start := by
  simp only [atenBounds]
  omega

end Length

section OneDim

variable {t : Tensor α} {c : List Nat} {rank dim s n k : Nat}

variable {β : Type} {others : Nat → β} {shape : List Nat}

@[simp] theorem length_alongDim {x : β} :
    (alongDim rank dim x others).length = rank := by
  simp [alongDim]

theorem getD_alongDim {x d : β} {i : Nat} (hi : i < rank) :
    (alongDim rank dim x others).getD i d = if i = dim then x else others i :=
  getD_map_range _ hi _

theorem alongDim_toNat {x : Int} {others : Nat → Int} :
    (alongDim rank dim x others).map Int.toNat =
      alongDim rank dim x.toNat fun i => (others i).toNat := by
  rw [alongDim, map_map]
  refine map_congr_left fun i _ => ?_
  rw [Function.comp]
  split <;> rfl

theorem forall_alongDim_nonneg {x : Int} {others : Nat → Int} (hdim : dim < rank)
    (hothers : ∀ i, 0 ≤ others i) : (∀ o ∈ alongDim rank dim x others, 0 ≤ o) ↔ 0 ≤ x := by
  constructor
  · exact fun h => h _ (mem_map.2 ⟨dim, mem_range.2 hdim, if_pos rfl⟩)
  · intro h o ho
    obtain ⟨i, -, rfl⟩ := mem_map.1 ho
    split
    · exact h
    · exact hothers i

theorem set_eq_alongDim (shape : List Nat) (dim n : Nat) :
    shape.set dim n = alongDim shape.length dim n fun i => shape.getD i 0 := by
  apply ext_getElem
  · simp
  · intro i hi hi'
    have hlt : i < shape.length := by simpa using hi
    simp [alongDim, getElem_set, getElem?_eq_getElem hlt, eq_comm]

def dimIndex (rank dim s k : Nat) (c : List Nat) : List Nat :=
  (range rank).map fun i => (if i = dim then s else 0) + c.getD i 0 * k

theorem sliceIndex_dim (hc : c.length = rank) :
    sliceIndex (alongDim rank dim s fun _ => 0) (replicate rank k) c =
      dimIndex rank dim s k c := by
  apply ext_getElem
  · simp [sliceIndex, dimIndex, hc]
  · intro i hi hi'
    have hlt : i < c.length := by simpa [sliceIndex, hc] using hi
    simp [sliceIndex, dimIndex, alongDim, getElem?_eq_getElem hlt]

theorem zero_mem_set_iff (hdim : dim < shape.length) :
    0 ∈ shape.set dim n ↔ n = 0 ∨ ∃ i < shape.length, i ≠ dim ∧ shape.getD i 0 = 0 := by
  rw [set_eq_alongDim, alongDim, mem_map]
  constructor
  · rintro ⟨i, hi, h⟩
    split at h
    case isTrue => exact .inl h
    case isFalse hne => exact .inr ⟨i, mem_range.1 hi, hne, h⟩
  · rintro (h | ⟨i, hi, hne, h⟩)
    · exact ⟨dim, mem_range.2 hdim, by rw [if_pos rfl, h]⟩
    · exact ⟨i, mem_range.2 hi, by rw [if_neg hne, h]⟩

theorem forall_inShape_dimIndex (hdim : dim < shape.length) (hk : 1 ≤ k) :
    (∀ c, InShape (shape.set dim n) c → InShape shape (dimIndex shape.length dim s k c)) ↔
      0 ∈ shape.set dim n ∨ s + (n - 1) * k < shape.getD dim 0 ∧
        (k = 1 ∨ ∀ i < shape.length, i ≠ dim → shape.getD i 0 ≤ 1) := by
  have hget : ∀ i < shape.length, (shape.set dim n).getD i 0 =
      if i = dim then n else shape.getD i 0 := fun i hi => by
    rw [set_eq_alongDim, getD_alongDim hi]
  by_cases hempty : 0 ∈ shape.set dim n
  · exact iff_of_true (fun c hc => absurd hempty hc.zero_notMem) (.inl hempty)
  · rw [or_iff_right hempty]
    have hpos : ∀ i < shape.length, 0 < (shape.set dim n).getD i 0 := fun i hi => by
      have hi' : i < (shape.set dim n).length := by rwa [length_set]
      rw [getD_eq_getElem _ _ hi']
      exact Nat.pos_of_ne_zero fun h => hempty (h ▸ getElem_mem hi')
    constructor
    · intro h
      -- the last coordinate of the slice
      have hlast : InShape (shape.set dim n) ((range shape.length).map fun i =>
          (shape.set dim n).getD i 0 - 1) := by
        refine inShape_iff_getD.2 ⟨by simp, fun i hi => ?_⟩
        rw [length_set] at hi
        have := hpos i hi
        rw [getD_map_range _ hi]
        omega
      have hread : ∀ i < shape.length, (if i = dim then s else 0) +
          ((shape.set dim n).getD i 0 - 1) * k < shape.getD i 0 := fun i hi => by
        have hlt := (inShape_iff_getD.1 (h _ hlast)).2 i hi
        rwa [dimIndex, getD_map_range _ hi, getD_map_range _ hi] at hlt
      refine ⟨?_, or_iff_not_imp_left.2 fun hk' i hi hne => ?_⟩
      · have hlt := hread dim hdim
        rwa [if_pos rfl, hget dim hdim, if_pos rfl] at hlt
      · have hlt := hread i hi
        rw [if_neg hne, hget i hi, if_neg hne] at hlt
        have hle : (shape.getD i 0 - 1) * 2 ≤ (shape.getD i 0 - 1) * k :=
          Nat.mul_le_mul_left _ (by omega)
        omega
    · rintro ⟨hlt, hothers⟩ c hc
      obtain ⟨hlen, hc⟩ := inShape_iff_getD.1 hc
      rw [length_set] at hlen hc
      refine inShape_iff_getD.2 ⟨by simp [dimIndex], fun i hi => ?_⟩
      have hci := hc i hi
      rw [hget i hi] at hci
      rw [dimIndex, getD_map_range _ hi]
      by_cases hne : i = dim
      · rw [if_pos hne] at hci ⊢
        have hle : c.getD i 0 * k ≤ (n - 1) * k := Nat.mul_le_mul_right _ (by omega)
        rw [hne] at hle ⊢
        omega
      · rw [if_neg hne] at hci ⊢
        obtain rfl | hone := hothers
        · omega
        · have hzero : c.getD i 0 = 0 := by
            have := hone i hi hne
            omega
          rw [hzero] at hci ⊢
          omega

theorem dimIndex_eq (hc : InShape (shape.set dim n) c)
    (hothers : k = 1 ∨ ∀ i < shape.length, i ≠ dim → shape.getD i 0 ≤ 1) :
    dimIndex shape.length dim s k c = c.set dim (s + c.getD dim 0 * k) := by
  obtain ⟨hlen, hc⟩ := inShape_iff_getD.1 hc
  rw [length_set] at hlen hc
  rw [set_eq_alongDim, hlen, alongDim, dimIndex]
  refine map_congr_left fun i hi => ?_
  have hi := mem_range.1 hi
  by_cases hne : i = dim
  · rw [if_pos hne, if_pos hne, hne]
  · have hci := hc i hi
    rw [set_eq_alongDim, getD_alongDim hi, if_neg hne] at hci
    rw [if_neg hne, if_neg hne, zero_add]
    obtain rfl | hone := hothers
    · exact mul_one _
    · have := hone i hi hne
      rw [show c.getD i 0 = 0 by omega, Nat.zero_mul]

variable {start len : Int}

/-- The slice of `len` elements along the dim is one of the source. -/
structure DimReads (shape : List Nat) (dim : Nat) (start len : Int) (k : Nat) : Prop where
  nonneg : 0 ≤ start
  lenNonneg : 0 ≤ len
  reads : 0 ∈ shape.set dim len.toNat ∨ start.toNat + (len.toNat - 1) * k < shape.getD dim 0 ∧
    (k = 1 ∨ ∀ i < shape.length, i ≠ dim → shape.getD i 0 ≤ 1)

def sliceDim (t : Tensor α) (dim : Nat) (start len : Int) (k : Nat) : Option (Tensor α) :=
  extractSlice t (alongDim t.shape.length dim start fun _ => 0)
    (alongDim t.shape.length dim len fun i => (t.shape.getD i 0 : Int))
    (replicate t.shape.length k)

theorem sliceDim_valid_iff (hdim : dim < t.shape.length) (hk : 1 ≤ k) :
    ((∀ o ∈ alongDim t.shape.length dim start fun _ => 0, 0 ≤ o) ∧
      (∀ n ∈ alongDim t.shape.length dim len fun i => (t.shape.getD i 0 : Int), 0 ≤ n) ∧
      ∀ c ∈ points ((alongDim t.shape.length dim len fun i => (t.shape.getD i 0 : Int)).map
          Int.toNat),
        InShape t.shape (sliceIndex ((alongDim t.shape.length dim start fun _ => 0).map Int.toNat)
          (replicate t.shape.length k) c)) ↔ DimReads t.shape dim start len k := by
  have hoffs : (alongDim t.shape.length dim start fun _ => 0).map Int.toNat =
      alongDim t.shape.length dim start.toNat fun _ => 0 := alongDim_toNat
  have hszs : (alongDim t.shape.length dim len fun i => (t.shape.getD i 0 : Int)).map Int.toNat =
      t.shape.set dim len.toNat := by
    simp only [alongDim_toNat, Int.toNat_natCast, set_eq_alongDim]
  rw [hoffs, hszs, forall_alongDim_nonneg hdim fun _ => Int.le_refl 0,
    forall_alongDim_nonneg hdim fun _ => Int.natCast_nonneg _]
  have hreads : (∀ c ∈ points (t.shape.set dim len.toNat), InShape t.shape
      (sliceIndex (alongDim t.shape.length dim start.toNat fun _ => 0)
        (replicate t.shape.length k) c)) ↔
      ∀ c, InShape (t.shape.set dim len.toNat) c →
        InShape t.shape (dimIndex t.shape.length dim start.toNat k c) := by
    refine forall_congr' fun c => ?_
    rw [mem_points]
    exact forall_congr' fun hc => by rw [sliceIndex_dim (hc.length_eq.trans (length_set ..))]
  rw [hreads, forall_inShape_dimIndex hdim hk]
  exact ⟨fun h => ⟨h.1, h.2.1, h.2.2⟩, fun h => ⟨h.nonneg, h.lenNonneg, h.reads⟩⟩

theorem sliceDim_some (hdim : dim < t.shape.length) (hk : 1 ≤ k)
    (h : DimReads t.shape dim start len k) :
    ∃ t', sliceDim t dim start len k = some t' ∧ t'.shape = t.shape.set dim len.toNat ∧
      ∀ c, InShape t'.shape c →
        t'.elem c = t.elem (dimIndex t.shape.length dim start.toNat k c) := by
  refine ⟨_, if_pos ((sliceDim_valid_iff hdim hk).2 h), ?_, fun c hc => ?_⟩
  · show (alongDim t.shape.length dim len fun i => (t.shape.getD i 0 : Int)).map Int.toNat = _
    simp only [alongDim_toNat, Int.toNat_natCast, set_eq_alongDim]
  · rw [alongDim_toNat] at hc
    show t.elem (sliceIndex ((alongDim t.shape.length dim start fun _ => 0).map Int.toNat) _ c) = _
    rw [← sliceIndex_dim (hc.length_eq.trans length_alongDim), alongDim_toNat]
    rfl

theorem sliceDim_none (hdim : dim < t.shape.length) (hk : 1 ≤ k)
    (h : ¬ DimReads t.shape dim start len k) : sliceDim t dim start len k = none :=
  if_neg (mt (sliceDim_valid_iff hdim hk).1 h)

end OneDim

/-! ## The slices that are kept -/

/-- The bounds are not negative, the end gives the clamped length, and the step is harmless. -/
structure SliceKept (shape : List Nat) (dim : Nat) (attrs : SliceAttrs) : Prop where
  start : 0 ≤ attrOr 0 attrs.start
  sEnd : EndKept (shape.getD dim 0) (attrOr 0 attrs.start) attrs.sEnd (attrOr 1 attrs.step)
  step : attrOr 1 attrs.step = 1 ∨ (∀ i < shape.length, i ≠ dim → shape.getD i 0 ≤ 1) ∨
    stopOf (shape.getD dim 0) attrs.sEnd ≤ attrOr 0 attrs.start ∨
    ∃ i < shape.length, i ≠ dim ∧ shape.getD i 0 = 0

theorem normDim_lt {rank dim : Nat} {d : Int} (h : normDim rank d = some dim) : dim < rank := by
  obtain ⟨hrange, h⟩ := Option.ite_none_left_eq_some.1 h
  cases h
  omega

section Slice

variable {inType : RankedType} {attrs : SliceAttrs} {t : Tensor α} {dim : Nat}

theorem lowerSlice_eq (hin : Fits t.shape inType)
    (hdim : normDim t.shape.length (attrOr 0 attrs.dim) = some dim)
    (hstep : 1 ≤ attrOr 1 attrs.step) :
    lowerSlice inType attrs t =
      emit (sliceLen (t.shape.getD dim 0) (attrOr 0 attrs.start) (attrOr 0 attrs.sEnd)
        (attrOr 1 attrs.step)) >>= fun len =>
          emit (sliceDim t dim (attrOr 0 attrs.start) len (attrOr 1 attrs.step).toNat) := by
  simp only [lowerSlice, ← hin.length_eq, hdim, if_neg (show ¬ attrOr 1 attrs.step ≤ 0 by omega),
    getD_of_fits hin, sliceDim]

theorem sliceKept_iff (hdim : dim < t.shape.length) (hsize : t.shape.getD dim 0 < 2 ^ 63)
    (hstep : 1 ≤ attrOr 1 attrs.step) (hstep' : attrOr 1 attrs.step ≤ 2 ^ 63 - 1) {len : Nat}
    (hlen : atenLen (t.shape.getD dim 0) attrs.start attrs.sEnd (attrOr 1 attrs.step) = len) :
    SliceKept t.shape dim attrs ↔
      sliceLen (t.shape.getD dim 0) (attrOr 0 attrs.start) (attrOr 0 attrs.sEnd)
          (attrOr 1 attrs.step) = some ↑len ∧
        DimReads t.shape dim (attrOr 0 attrs.start) len (attrOr 1 attrs.step).toNat := by
  have hzero : 0 ≤ attrOr 0 attrs.start →
      (len = 0 ↔ stopOf (t.shape.getD dim 0) attrs.sEnd ≤ attrOr 0 attrs.start) := fun hstart => by
    rw [← hlen, ← Int.natCast_eq_zero, atenLen_eq hstart hsize hstep, ceilLen_eq_zero_iff hstep]
    omega
  constructor
  · rintro ⟨hstart, hend, hreads⟩
    rw [← sliceLen_eq_iff hstart hsize hstep hstep', hlen] at hend
    refine ⟨hend, hstart, Int.natCast_nonneg _, or_iff_not_imp_left.2 fun hne => ⟨?_, ?_⟩⟩
    · rw [Int.toNat_natCast, ← hlen]
      refine atenLen_last_lt hstart hsize hstep (Nat.pos_of_ne_zero fun h => hne ?_)
      exact (zero_mem_set_iff hdim).2 (.inl (by rw [← hlen, h]; rfl))
    · rw [Int.toNat_natCast, zero_mem_set_iff hdim, hzero hstart] at hne
      obtain hone | hothers | hnothing := hreads
      · exact .inl (by rw [hone]; rfl)
      · exact .inr hothers
      · exact absurd hnothing hne
  · rintro ⟨hend, hstart, -, hreads⟩
    rw [Int.toNat_natCast, zero_mem_set_iff hdim, hzero hstart] at hreads
    rw [← hlen, sliceLen_eq_iff hstart hsize hstep hstep'] at hend
    refine ⟨hstart, hend, ?_⟩
    obtain hnothing | ⟨-, hone | hothers⟩ := hreads
    · exact .inr (.inr hnothing)
    · exact .inl (by omega)
    · exact .inr (.inl hothers)

theorem slice_right_iff (hin : Fits t.shape inType) (hsize : ∀ n ∈ t.shape, n < 2 ^ 63)
    (hdim : normDim t.shape.length (attrOr 0 attrs.dim) = some dim)
    (hstep : 1 ≤ attrOr 1 attrs.step) :
    (lowerSlice inType attrs t).Gives (fun t' =>
        t'.Same (atenSlice t dim attrs.start attrs.sEnd (attrOr 1 attrs.step))) ↔
      SliceKept t.shape dim attrs := by
  have hlt := normDim_lt hdim
  have hD : t.shape.getD dim 0 < 2 ^ 63 := by
    rw [getD_eq_getElem _ _ hlt]
    exact hsize _ (getElem_mem hlt)
  have hstep' : attrOr 1 attrs.step ≤ 2 ^ 63 - 1 := by
    cases attrs.step with
    | none => decide
    | some e => exact toInt_le e
  have hk : 1 ≤ (attrOr 1 attrs.step).toNat := by omega
  rw [lowerSlice_eq hin hdim hstep]
  generalize hlen : atenLen (t.shape.getD dim 0) attrs.start attrs.sEnd (attrOr 1 attrs.step) = len
  rw [sliceKept_iff hlt hD hstep hstep' hlen]
  have haten : (atenSlice t dim attrs.start attrs.sEnd (attrOr 1 attrs.step)).shape =
      t.shape.set dim len := by
    rw [atenSlice, hlen]
  constructor
  · intro h
    cases hL : sliceLen (t.shape.getD dim 0) (attrOr 0 attrs.start) (attrOr 0 attrs.sEnd)
        (attrOr 1 attrs.step) with
    | none =>
      rw [hL] at h
      exact absurd h Lowered.gives_invalid
    | some L =>
      rw [hL] at h
      change Lowered.Gives (emit (sliceDim t dim _ L _)) _ at h
      by_cases hreads : DimReads t.shape dim (attrOr 0 attrs.start) L (attrOr 1 attrs.step).toNat
      · obtain ⟨t', ht', hshape, -⟩ := sliceDim_some hlt hk hreads
        rw [ht', emit, Lowered.gives_ok] at h
        have hset : L.toNat = len := by
          have hget := congrArg (·.getD dim 0) (hshape.symm.trans (h.1.trans haten))
          simpa [hlt] using hget
        have hL : L = len := by
          have := hreads.lenNonneg
          omega
        rw [hL] at hreads
        exact ⟨congrArg some hL, hreads⟩
      · rw [sliceDim_none hlt hk hreads] at h
        exact absurd h Lowered.gives_invalid
  · rintro ⟨hL, hreads⟩
    rw [hL]
    obtain ⟨t', ht', hshape, helem⟩ := sliceDim_some hlt hk hreads
    show Lowered.Gives (emit (sliceDim t dim _ len _)) _
    rw [Int.toNat_natCast] at hshape
    rw [ht', emit, Lowered.gives_ok]
    refine ⟨hshape.trans haten.symm, fun c hc => ?_⟩
    rw [helem c hc]
    rw [hshape] at hc
    obtain ⟨hfirst, hothers⟩ := hreads.reads.resolve_left (by
      rw [Int.toNat_natCast]
      exact hc.zero_notMem)
    rw [dimIndex_eq hc hothers, atenSlice, atenBounds_fst hreads.nonneg (by omega)]

end Slice

/-! ## `sf.select` -/

def groupSize (group : List (Option Nat)) : Option Nat := (group.mapM id).map List.prod

/-- `tensor.collapse_shape`. -/
def collapseShape (srcType outType : RankedType) (reassoc : List (List Nat)) (t : Tensor α) :
    Option (Tensor α) :=
  if reassoc.flatten = range srcType.length ∧
      outType = reassoc.map fun group => groupSize (group.map fun d => srcType.getD d none) then
    t.reshape (reassoc.map fun group => (group.map fun d => t.shape.getD d 0).prod)
  else none

def pushBack (reassoc : List (List Nat)) (d : Nat) : List (List Nat) :=
  reassoc.dropLast ++ [reassoc.getLastD [] ++ [d]]

/-- The selected dim is merged with the one before it, or with the next if it is the first. -/
def selectReassoc (rank dim : Nat) : List (List Nat) :=
  if rank = 1 then [[0]]
  else if dim = 0 then [0, 1] :: (range' 2 (rank - 2)).map fun d => [d]
  else (range rank).foldl (fun reassoc d =>
    if d = dim then pushBack reassoc d else reassoc ++ [[d]]) []

def lowerSelect (inType outType : RankedType) (dim index : Option Int64) (input : Tensor α) :
    Lowered (Tensor α) :=
  let rank := inType.length
  if rank < 1 ∨ outType.length ≠ rank - 1 then .error .noMatch
  else
    match normDim rank (attrOr 0 dim) with
    | none => .error .noMatch
    | some dim => do
        let offsets := alongDim rank dim (attrOr 0 index) fun _ => 0
        let sizes : List Int := alongDim rank dim 1 fun d =>
          ((inType.getD d none).getD (input.shape.getD d 0) : Nat)
        let slice ← emit (extractSlice input offsets sizes (replicate rank 1))
        emit (collapseShape (inType.set dim (some 1)) outType (selectReassoc rank dim) slice)

/-- What a select means. -/
def atenSelect (t : Tensor α) (dim : Nat) (index : Int) : Tensor α where
  shape := t.shape.eraseIdx dim
  elem c := t.elem (c.insertIdx dim
    (if index < 0 then index + t.shape.getD dim 0 else index).toNat)

section Select

theorem selectReassoc_eq {rank dim : Nat} (hrank : 2 ≤ rank) (hdim : dim < rank) :
    selectReassoc rank dim = (range (dim - 1)).map (fun d => [d]) ++
      [dim - 1, dim - 1 + 1] :: (range' (dim - 1 + 2) (rank - (dim - 1) - 2)).map
        fun d => [d] := by
  rw [selectReassoc, if_neg (by omega)]
  by_cases hzero : dim = 0
  · rw [if_pos hzero, hzero]
    rfl
  · rw [if_neg hzero]
    -- the dims in front of the selected one, this one, and the dims behind it
    have hsingles : ∀ (ds : List Nat) (reassoc : List (List Nat)), dim ∉ ds →
        ds.foldl (fun reassoc d => if d = dim then pushBack reassoc d else reassoc ++ [[d]])
          reassoc = reassoc ++ ds.map fun d => [d] := by
      intro ds
      induction ds with
      | nil => simp
      | cons d ds ih =>
        intro reassoc hmem
        rw [mem_cons, not_or] at hmem
        rw [foldl_cons, if_neg (Ne.symm hmem.1), ih _ hmem.2, append_assoc]
        rfl
    obtain ⟨before, rfl⟩ : ∃ before, dim = before + 1 := ⟨dim - 1, by omega⟩
    have hsplit : range rank =
        range before ++ before :: (before + 1) :: range' (before + 2) (rank - before - 2) := by
      obtain ⟨behind, rfl⟩ : ∃ behind, rank = before + (2 + behind) := ⟨rank - before - 2, by omega⟩
      rw [range_eq_range', ← range'_append_1, zero_add, ← range_eq_range',
        add_comm 2 behind, show before + (behind + 2) - before - 2 = behind by omega]
      rfl
    have hfront : before + 1 ∉ range before := by simp
    have hback : before + 1 ∉ range' (before + 2) (rank - before - 2) := by
      simp [mem_range'_1]
    rw [hsplit, foldl_append, hsingles _ _ hfront, foldl_cons, if_neg (by omega),
      foldl_cons, if_pos rfl, hsingles _ _ hback, nil_append, pushBack,
      dropLast_concat, getLastD_concat, append_assoc]
    rfl

theorem map_selectReassoc {β : Type} {F : List β → β} {e d : β} (hone : ∀ x, F [x] = x)
    (hleft : ∀ x, F [e, x] = x) (hright : ∀ x, F [x, e] = x) {l : List β} {dim : Nat}
    (hrank : 2 ≤ l.length) (hdim : dim < l.length) (he : l.getD dim d = e) :
    (selectReassoc l.length dim).map (fun group => F (group.map fun i => l.getD i d)) =
      l.eraseIdx dim := by
  have hfront : ((range (dim - 1)).map fun i => [i]).map
      (fun group => F (group.map fun i => l.getD i d)) = l.take (dim - 1) := by
    apply ext_getElem
    · simp
      omega
    · intro i hi hi'
      have hlt : i < l.length := by
        rw [length_take] at hi'
        omega
      simp [hone, getElem?_eq_getElem hlt]
  have hback : ((range' (dim - 1 + 2) (l.length - (dim - 1) - 2)).map fun i => [i]).map
      (fun group => F (group.map fun i => l.getD i d)) = l.drop (dim - 1 + 2) := by
    apply ext_getElem
    · simp
      omega
    · intro i hi hi'
      have hlt : dim - 1 + 2 + i < l.length := by
        rw [length_drop] at hi'
        omega
      simp [hone, getElem?_eq_getElem hlt]
  rw [selectReassoc_eq hrank hdim, map_append, map_cons, hfront, hback, map_cons,
    map_cons, map_nil, eraseIdx_eq_take_drop_succ]
  by_cases hzero : dim = 0
  · rw [hzero] at he ⊢
    rw [he, hleft, drop_eq_getElem_cons (i := 0 + 1) (by omega), getD_eq_getElem _ _ (by omega)]
  · obtain ⟨before, rfl⟩ : ∃ before, dim = before + 1 := ⟨dim - 1, by omega⟩
    rw [Nat.add_sub_cancel, he, hright, getD_eq_getElem _ _ (by omega),
      take_succ_eq_append_getElem (by omega), append_assoc]
    rfl

theorem set_insertIdx (c : List Nat) (dim x y : Nat) :
    (c.insertIdx dim x).set dim y = c.insertIdx dim y := by
  induction dim generalizing c with
  | zero => rfl
  | succ dim ih =>
    cases c with
    | nil => rfl
    | cons => rw [insertIdx_succ_cons, set_cons_succ, ih, insertIdx_succ_cons]

theorem prod_eraseIdx {s : List Nat} {dim : Nat} (hdim : s[dim]? = some 1) :
    s.prod = (s.eraseIdx dim).prod := by
  induction dim generalizing s with
  | zero =>
    match s, hdim with
    | _ :: s, rfl => simp
  | succ dim ih =>
    match s, hdim with
    | d :: s, hdim => rw [eraseIdx_cons_succ, prod_cons, prod_cons, ih hdim]

theorem offset_insertIdx {s c : List Nat} {dim : Nat} (hdim : s[dim]? = some 1)
    (hc : InShape (s.eraseIdx dim) c) :
    InShape s (c.insertIdx dim 0) ∧ offset s (c.insertIdx dim 0) = offset (s.eraseIdx dim) c := by
  induction dim generalizing s c with
  | zero =>
    match s, hdim with
    | _ :: s, rfl => exact ⟨.cons Nat.one_pos hc, by simp⟩
  | succ dim ih =>
    match s, hdim with
    | d :: s, hdim =>
      match c, hc with
      | x :: c, .cons hx hc =>
        obtain ⟨hin, hoffset⟩ := ih hdim hc
        refine ⟨.cons hx hin, ?_⟩
        rw [insertIdx_succ_cons, eraseIdx_cons_succ, offset_cons, offset_cons, hoffset,
          prod_eraseIdx (s := s) hdim]

variable {inType outType : RankedType} {dimAttr index : Option Int64} {t : Tensor α} {dim : Nat}

theorem groupSize_pair (x : Option Nat) : groupSize [x] = x ∧ groupSize [some 1, x] = x ∧
    groupSize [x, some 1] = x := by
  cases x <;> simp [groupSize]

/-- The unit dim is collapsed, unless it is the only one: a group cannot vanish. -/
theorem collapseShape_select (hrank : inType.length = t.shape.length) (hdim : dim < t.shape.length)
    (hone : t.shape[dim]? = some 1) (houter : outType.length = inType.length - 1) :
    collapseShape (inType.set dim (some 1)) outType (selectReassoc inType.length dim) t =
      if 2 ≤ inType.length ∧ outType = inType.eraseIdx dim then t.reshape (t.shape.eraseIdx dim)
      else none := by
  by_cases hle : 2 ≤ inType.length
  · have hflat : (selectReassoc inType.length dim).flatten = range inType.length := by
      have hsingle : ∀ ds : List Nat, (ds.map fun d => [d]).flatten = ds := fun ds => by
        induction ds with
        | nil => rfl
        | cons d ds ih => rw [map_cons, flatten_cons, ih]; rfl
      rw [selectReassoc_eq hle (by omega), flatten_append, flatten_cons, hsingle, hsingle]
      obtain ⟨behind, hbehind⟩ : ∃ behind, inType.length = dim - 1 + (2 + behind) :=
        ⟨inType.length - (dim - 1) - 2, by omega⟩
      rw [hbehind, range_eq_range', range_eq_range', ← range'_append_1,
        zero_add, add_comm 2 behind, show dim - 1 + (behind + 2) - (dim - 1) - 2 = behind
        by omega]
      rfl
    have hunit : (inType.set dim (some 1)).getD dim none = some 1 := by
      rw [getD_eq_getElem?_getD, getElem?_set_self (by omega), Option.getD_some]
    have htype : ((selectReassoc inType.length dim).map fun group =>
        groupSize (group.map fun d => (inType.set dim (some 1)).getD d none)) =
        inType.eraseIdx dim := by
      rw [← eraseIdx_set_eq (l := inType) (a := some 1),
        ← map_selectReassoc (l := inType.set dim (some 1)) (e := some 1) (d := none)
          (fun x => (groupSize_pair x).1) (fun x => (groupSize_pair x).2.1)
          (fun x => (groupSize_pair x).2.2) (by simpa using hle) (by simpa [hrank] using hdim)
          hunit, length_set]
    have hsizes : ((selectReassoc inType.length dim).map fun group =>
        (group.map fun d => t.shape.getD d 0).prod) = t.shape.eraseIdx dim := by
      rw [hrank]
      refine map_selectReassoc (e := 1) (by simp) (by simp) (by simp) (by omega) hdim ?_
      rw [getD_eq_getElem?_getD, hone, Option.getD_some]
    rw [collapseShape, length_set, htype, hsizes]
    simp only [hflat, hle, true_and]
  · have hrank1 : inType.length = 1 := by omega
    have hout : outType = [] := length_eq_zero_iff.1 (by omega)
    have hdim0 : dim = 0 := by omega
    rw [if_neg (by omega), hrank1, hout]
    exact if_neg (by simp [selectReassoc])

theorem select_right_iff (hin : Fits t.shape inType)
    (hdim : normDim t.shape.length (attrOr 0 dimAttr) = some dim)
    (hindex : -(t.shape.getD dim 0 : Int) ≤ attrOr 0 index ∧ attrOr 0 index < t.shape.getD dim 0) :
    (lowerSelect inType outType dimAttr index t).Gives
        (fun t' => t'.Same (atenSelect t dim (attrOr 0 index))) ↔
      outType.length ≠ inType.length - 1 ∨
        0 ≤ attrOr 0 index ∧ 2 ≤ inType.length ∧ outType = inType.eraseIdx dim := by
  have hlt := normDim_lt hdim
  have hrank := hin.length_eq
  by_cases houter : outType.length = inType.length - 1
  · rw [or_iff_right (not_not.2 houter)]
    have hlower : lowerSelect inType outType dimAttr index t =
        emit (sliceDim t dim (attrOr 0 index) 1 1) >>= fun slice =>
          emit (collapseShape (inType.set dim (some 1)) outType
            (selectReassoc inType.length dim) slice) := by
      rw [lowerSelect, if_neg (by omega)]
      simp only [← hrank, hdim, getD_of_fits hin, sliceDim]
    rw [hlower]
    by_cases hneg : 0 ≤ attrOr 0 index
    · have hreads : DimReads t.shape dim (attrOr 0 index) 1 1 :=
        ⟨hneg, by omega, .inr ⟨by show _ + 0 < _; omega, .inl rfl⟩⟩
      obtain ⟨slice, hslice, hshape, helem⟩ := sliceDim_some hlt le_rfl hreads
      have hshape' : slice.shape = t.shape.set dim 1 := hshape
      have hone : slice.shape[dim]? = some 1 := by
        rw [hshape', getElem?_set_self hlt]
      rw [hslice]
      show Lowered.Gives (emit (collapseShape _ outType _ slice)) _ ↔ _
      rw [collapseShape_select (by rw [hshape', length_set, hrank])
        (by rw [hshape', length_set]; exact hlt) hone houter, and_iff_right hneg]
      by_cases hout : 2 ≤ inType.length ∧ outType = inType.eraseIdx dim
      · rw [if_pos hout]
        refine iff_of_true ?_ hout
        have herase : slice.shape.eraseIdx dim = t.shape.eraseIdx dim := by
          rw [hshape', eraseIdx_set_eq]
        obtain ⟨t', ht'⟩ : ∃ t', slice.reshape (slice.shape.eraseIdx dim) = some t' :=
          Tensor.reshape_of_prod (prod_eraseIdx hone).symm
        rw [ht', emit, Lowered.gives_ok]
        obtain ⟨-, hreshape⟩ := Option.ite_none_right_eq_some.1 ht'
        cases hreshape
        refine ⟨herase, fun c hc => ?_⟩
        obtain ⟨hin', hoffset⟩ := offset_insertIdx hone hc
        have hle : dim ≤ c.length := by
          have hlen := hc.length_eq
          rw [herase, length_eraseIdx_of_lt hlt] at hlen
          omega
        have hzero : (c.insertIdx dim 0).getD dim 0 = 0 := by
          rw [getD_eq_getElem?_getD, getElem?_insertIdx_self, if_pos hle, Option.getD_some]
        show slice.elem (coordOf slice.shape (offset (slice.shape.eraseIdx dim) c)) = _
        rw [← hoffset, coordOf_offset hin', helem _ hin', dimIndex_eq (hshape' ▸ hin') (.inl rfl),
          atenSelect, if_neg (by omega), hzero, Nat.zero_mul, Nat.add_zero, set_insertIdx]
      · rw [if_neg hout]
        exact iff_of_false Lowered.gives_invalid hout
    · have hnone : sliceDim t dim (attrOr 0 index) 1 1 = none :=
        sliceDim_none hlt le_rfl fun h => hneg h.nonneg
      rw [hnone]
      exact iff_of_false Lowered.gives_invalid fun h => hneg h.1
  · rw [lowerSelect, if_pos (.inr houter)]
    exact iff_of_true Lowered.gives_noMatch (.inl houter)

end Select

/-! ## `sf.pad` -/

/-- A source with a value around it, which begins at the coordinates `lows`. -/
def surround (t : Tensor α) (lows : Nat → Int) (value : α) (c : List Nat) : α :=
  if ∀ d < t.shape.length, lows d ≤ c.getD d 0 ∧ c.getD d 0 < lows d + t.shape.getD d 0 then
    t.elem ((range t.shape.length).map fun d => (c.getD d 0 - lows d).toNat)
  else value

/-- `tensor.pad`: amounts are not negative, and a dim of a known size has one in the result. -/
def padTensor (inType outType : RankedType) (t : Tensor α) (lows highs : Nat → Int) (value : α) :
    Option (Tensor α) :=
  if ∀ d < t.shape.length, 0 ≤ lows d ∧ 0 ≤ highs d ∧ (inType.getD d none = none ∨
      outType.getD d none =
        (inType.getD d none).map fun n : Nat => (n + lows d + highs d).toNat) then
    some ⟨(range t.shape.length).map fun d => (t.shape.getD d 0 + lows d + highs d).toNat,
      surround t lows value⟩
  else none

/-- The amounts in front of a dim and behind it, from the last dim on. -/
def padPair (rank : Nat) (pad : List Int) (d : Nat) : Int × Int :=
  let pairIdx := rank - 1 - d
  if pairIdx * 2 + 1 < pad.length then (pad.getD (pairIdx * 2) 0, pad.getD (pairIdx * 2 + 1) 0)
  else (0, 0)

section PadOp

variable [Zero α] (cast : EltType → EltType → α → α) (eltType : EltType)

/-- `padValue`; an operand of `aux` is nothing if its type is not ranked. -/
def padValue (aux : List (Option (EltType × Tensor α))) : Lowered α :=
  match aux.getLast? with
  | none => emit (if eltType.floatWidth = none then none else some 0)
  | some none => .error .noMatch
  | some (some (src, pv)) =>
    if src.Apart eltType then .error .noMatch
    else emit (if 0 ∈ pv.shape then none
      else some (src.convert cast eltType (pv.elem (replicate pv.shape.length 0))))

/-- `SfPadOpLowering`; an entry of `pad` is nothing if it is no integer. -/
def lowerPad (inType outType : RankedType) (pad : Option (List (Option Int)))
    (aux : List (Option (EltType × Tensor α))) (input : Tensor α) : Lowered (Tensor α) :=
  if outType.length ≠ inType.length then .error .noMatch
  else
    match pad.bind (·.mapM id) with
    | none => .error .noMatch
    | some pad =>
      if ∀ v ∈ pad, v = 0 then .ok input
      else do
        let value ← padValue cast eltType aux
        emit (padTensor inType outType input (fun d => (padPair inType.length pad d).1)
          (fun d => (padPair inType.length pad d).2) value)

end PadOp

/-! ## `aten.pad` -/

/-- The amounts of `constant_pad_nd`. -/
def atenPadPair (rank : Nat) (pad : List Int) (d : Nat) : Int × Int :=
  let lDiff := rank - pad.length / 2
  if d < lDiff then (0, 0)
  else
    let padIdx := pad.length - (d - lDiff + 1) * 2
    (pad.getD padIdx 0, pad.getD (padIdx + 1) 0)

/-- The value in the element type of the input; it is 0 if none is given. -/
def atenPadValue [Zero α] (cast : EltType → EltType → α → α) (eltType : EltType)
    (aux : List (Option (EltType × Tensor α))) : α :=
  match aux.getLast? with
  | some (some (src, pv)) => src.convert cast eltType (pv.elem (replicate pv.shape.length 0))
  | _ => 0

/-- `aten.pad` in constant mode: a negative amount crops. -/
def atenPad (t : Tensor α) (pad : List Int) (value : α) : Tensor α where
  shape := (range t.shape.length).map fun d =>
    (t.shape.getD d 0 + (atenPadPair t.shape.length pad d).1 +
      (atenPadPair t.shape.length pad d).2).toNat
  elem := surround t (fun d => (atenPadPair t.shape.length pad d).1) value

section Pad

variable {cast : EltType → EltType → α → α} {eltType : EltType} {inType outType : RankedType}
  {pad : List Int} {aux : List (Option (EltType × Tensor α))} {t : Tensor α}

theorem surround_congr {lows lows' : Nat → Int} (h : ∀ d < t.shape.length, lows d = lows' d)
    (value : α) : surround t lows value = surround t lows' value := by
  funext c
  have hcond :
      (∀ d < t.shape.length, lows d ≤ c.getD d 0 ∧ c.getD d 0 < lows d + t.shape.getD d 0) ↔
      ∀ d < t.shape.length, lows' d ≤ c.getD d 0 ∧ c.getD d 0 < lows' d + t.shape.getD d 0 :=
    forall₂_congr fun d hd => by rw [h d hd]
  have hindex : ((range t.shape.length).map fun d => (c.getD d 0 - lows d).toNat) =
      (range t.shape.length).map fun d => (c.getD d 0 - lows' d).toNat :=
    map_congr_left fun d hd => by rw [h d (mem_range.1 hd)]
  simp only [surround, hcond, hindex]

theorem pad_known_iff {lows highs : Nat → Int} (hin : Fits t.shape inType)
    (hout : Fits ((range t.shape.length).map fun d =>
      (t.shape.getD d 0 + lows d + highs d).toNat) outType) :
    (∀ d < t.shape.length, inType.getD d none = none ∨
        outType.getD d none =
          (inType.getD d none).map fun n : Nat => (n + lows d + highs d).toNat) ↔
      ∀ d, outType.getD d none = none → inType.getD d none = none := by
  constructor
  · intro h d hnone
    by_cases hd : d < t.shape.length
    · obtain hopen | hsize := h d hd
      · exact hopen
      · rw [hnone] at hsize
        exact Option.map_eq_none_iff.1 hsize.symm
    · rw [getD_eq_default _ _ (by rw [← hin.length_eq]; omega)]
  · intro h d hd
    have hsize := getD_of_fits hin d
    have hsize' := getD_of_fits hout d
    rw [getD_map_range _ hd] at hsize'
    cases hty : inType.getD d none with
    | none => exact .inl rfl
    | some n =>
      rw [hty, Option.getD_some] at hsize
      cases hty' : outType.getD d none with
      | none => exact absurd (h d hty') (by rw [hty]; exact Option.some_ne_none n)
      | some =>
        rw [hty', Option.getD_some] at hsize'
        rw [Option.map_some, hsize, hsize']
        exact .inr rfl

variable (eltType aux)

def ValueRefused : Prop :=
  match aux.getLast? with
  | none => False
  | some none => True
  | some (some (src, _)) => src.Apart eltType

/-- There is a value: zero is one of the float types, and an operand has an element. -/
def ValueDefined : Prop :=
  match aux.getLast? with
  | none => eltType.floatWidth ≠ none
  | some none => False
  | some (some (_, pv)) => 0 ∉ pv.shape

variable {eltType aux}

/-- The pad reads what the op stands for. -/
structure PadKept (eltType : EltType) (inType outType : RankedType) (pad : List Int)
    (aux : List (Option (EltType × Tensor α))) : Prop where
  value : ValueDefined eltType aux
  nonneg : ∀ v ∈ pad, 0 ≤ v
  known : ∀ d, outType.getD d none = none → inType.getD d none = none

variable [Zero α]

theorem padValue_cases (cast : EltType → EltType → α → α) (eltType : EltType)
    (aux : List (Option (EltType × Tensor α))) :
    (ValueRefused eltType aux ∧ padValue cast eltType aux = .error .noMatch) ∨
    (¬ ValueRefused eltType aux ∧ ValueDefined eltType aux ∧
      padValue cast eltType aux = .ok (atenPadValue cast eltType aux)) ∨
    (¬ ValueRefused eltType aux ∧ ¬ ValueDefined eltType aux ∧
      padValue cast eltType aux = .error .invalid) := by
  unfold ValueRefused ValueDefined padValue atenPadValue
  cases aux.getLast? with
  | none =>
    by_cases h : eltType.floatWidth = none
    · exact .inr (.inr ⟨id, not_not.2 h, by simp only [if_pos h, emit]⟩)
    · exact .inr (.inl ⟨id, h, by simp only [if_neg h, emit]⟩)
  | some operand =>
    cases operand with
    | none => exact .inl ⟨trivial, rfl⟩
    | some operand =>
      obtain ⟨src, pv⟩ := operand
      by_cases hapart : src.Apart eltType
      · exact .inl ⟨hapart, if_pos hapart⟩
      · by_cases hempty : 0 ∈ pv.shape
        · exact .inr (.inr ⟨hapart, not_not.2 hempty, by
            simp only [if_neg hapart, if_pos hempty, emit]⟩)
        · exact .inr (.inl ⟨hapart, hempty, by simp only [if_neg hapart, if_neg hempty, emit]⟩)

theorem padPair_eq {rank d : Nat} (heven : pad.length % 2 = 0) (hlen : pad.length ≤ 2 * rank)
    (hd : d < rank) : padPair rank pad d = atenPadPair rank pad d := by
  simp only [padPair, atenPadPair]
  by_cases hpair : (rank - 1 - d) * 2 + 1 < pad.length
  · rw [if_pos hpair, if_neg (by omega),
      show pad.length - (d - (rank - pad.length / 2) + 1) * 2 = (rank - 1 - d) * 2 by omega]
  · rw [if_neg hpair, if_pos (by omega)]

theorem forall_padPair_nonneg {rank : Nat} (heven : pad.length % 2 = 0)
    (hlen : pad.length ≤ 2 * rank) :
    (∀ d < rank, 0 ≤ (padPair rank pad d).1 ∧ 0 ≤ (padPair rank pad d).2) ↔ ∀ v ∈ pad, 0 ≤ v := by
  constructor
  · intro h v hv
    obtain ⟨i, hi, rfl⟩ := mem_iff_getElem.1 hv
    have hd := h (rank - 1 - i / 2) (by omega)
    rw [padPair, show rank - 1 - (rank - 1 - i / 2) = i / 2 by omega, if_pos (by omega)] at hd
    obtain ⟨hlow, hhigh⟩ := hd
    obtain hmod | hmod := Nat.mod_two_eq_zero_or_one i
    · rwa [show i / 2 * 2 = i by omega, getD_eq_getElem _ _ hi] at hlow
    · rwa [show i / 2 * 2 + 1 = i by omega, getD_eq_getElem _ _ hi] at hhigh
  · intro h d hd
    have hget : ∀ i, 0 ≤ pad.getD i 0 := fun i => by
      by_cases hi : i < pad.length
      · rw [getD_eq_getElem _ _ hi]
        exact h _ (getElem_mem hi)
      · rw [getD_eq_default _ _ (by omega)]
    rw [padPair]
    split
    · exact ⟨hget _, hget _⟩
    · exact ⟨Int.le_refl 0, Int.le_refl 0⟩

theorem pad_right_iff (hin : Fits t.shape inType) (heven : pad.length % 2 = 0)
    (hlen : pad.length ≤ 2 * t.shape.length)
    (hout : Fits (atenPad t pad (atenPadValue cast eltType aux)).shape outType) :
    (lowerPad cast eltType inType outType (some (pad.map some)) aux t).Gives
        (fun t' => t'.Same (atenPad t pad (atenPadValue cast eltType aux))) ↔
      (∀ v ∈ pad, v = 0) ∨ ValueRefused eltType aux ∨ PadKept eltType inType outType pad aux := by
  have hrank := hin.length_eq
  have houter : outType.length = inType.length := by
    rw [← hout.length_eq, ← hrank, atenPad, length_map, length_range]
  have hints : (some (pad.map some)).bind (·.mapM id) = some pad := by
    rw [Option.bind_some, mapM_eq_some_forall₂, forall₂_map_left_iff]
    exact forall₂_same.2 fun _ _ => rfl
  rw [lowerPad, if_neg (not_not.2 houter), hints]
  by_cases hzero : ∀ v ∈ pad, v = 0
  · -- nothing is added, and the source is the result
    simp only [if_pos hzero]
    refine iff_of_true (Lowered.gives_ok.2 ?_) (.inl hzero)
    have hget : ∀ i, pad.getD i 0 = 0 := fun i => by
      by_cases hi : i < pad.length
      · rw [getD_eq_getElem _ _ hi]
        exact hzero _ (getElem_mem hi)
      · rw [getD_eq_default _ _ (by omega)]
    have hpair : ∀ d, atenPadPair t.shape.length pad d = (0, 0) := fun d => by
      simp only [atenPadPair, hget, ite_self]
    refine ⟨?_, fun c hc => ?_⟩
    · apply ext_getElem
      · simp [atenPad]
      · intro i hi hi'
        simp [atenPad, hpair, getElem?_eq_getElem hi]
    · obtain ⟨hclen, hc⟩ := inShape_iff_getD.1 hc
      simp only [atenPad, surround, hpair]
      rw [if_pos fun d hd => ⟨by omega, by have := hc d hd; omega⟩]
      congr 1
      apply ext_getElem
      · simp [hclen]
      · intro i hi hi'
        simp [getElem?_eq_getElem hi]
  · simp only [if_neg hzero]
    rw [or_iff_right hzero]
    obtain ⟨hrefused, hvalue⟩ | ⟨hrefused, hdefined, hvalue⟩ | ⟨hrefused, hdefined, hvalue⟩ :=
      padValue_cases cast eltType aux
    · rw [hvalue]
      exact iff_of_true Lowered.gives_noMatch (.inl hrefused)
    · rw [hvalue, or_iff_right hrefused]
      show Lowered.Gives (emit (padTensor inType outType t _ _ _)) _ ↔ _
      rw [← hrank]
      have hpair : ∀ d < t.shape.length, padPair t.shape.length pad d =
          atenPadPair t.shape.length pad d := fun d hd => padPair_eq heven hlen hd
      have hsizes : ((range t.shape.length).map fun d => (t.shape.getD d 0 +
          (padPair t.shape.length pad d).1 + (padPair t.shape.length pad d).2).toNat) =
          (atenPad t pad (atenPadValue cast eltType aux)).shape :=
        map_congr_left fun d hd => by rw [hpair d (mem_range.1 hd)]
      have hknown := pad_known_iff hin (hsizes ▸ hout)
      have hcond : (∀ d < t.shape.length, 0 ≤ (padPair t.shape.length pad d).1 ∧
          0 ≤ (padPair t.shape.length pad d).2 ∧ (inType.getD d none = none ∨
            outType.getD d none = (inType.getD d none).map fun n : Nat =>
              (n + (padPair t.shape.length pad d).1 + (padPair t.shape.length pad d).2).toNat)) ↔
          PadKept eltType inType outType pad aux := by
        constructor
        · intro h
          exact ⟨hdefined, (forall_padPair_nonneg heven hlen).1 fun d hd =>
            ⟨(h d hd).1, (h d hd).2.1⟩, hknown.1 fun d hd => (h d hd).2.2⟩
        · intro h d hd
          obtain ⟨hlow, hhigh⟩ := (forall_padPair_nonneg heven hlen).2 h.nonneg d hd
          exact ⟨hlow, hhigh, hknown.2 h.known d hd⟩
      by_cases hkept : PadKept eltType inType outType pad aux
      · rw [padTensor, if_pos (hcond.2 hkept), emit, Lowered.gives_ok]
        refine iff_of_true ⟨hsizes, fun c _ => ?_⟩ hkept
        exact congrFun (surround_congr (fun d hd => by rw [hpair d hd]) _) c
      · rw [padTensor, if_neg (mt hcond.1 hkept)]
        exact iff_of_false Lowered.gives_invalid hkept
    · rw [hvalue, or_iff_right hrefused]
      exact iff_of_false Lowered.gives_invalid fun h => hdefined h.value

end Pad

/-! ## The three ops -/

/-- A slice, a select and a pad of a tensor are ATen's exactly where they are kept. -/
theorem sliceSelectPad_right_iff [Zero α] (cast : EltType → EltType → α → α) (eltType : EltType)
    {inType : RankedType} (t : Tensor α) (hin : Fits t.shape inType) :
    (∀ (attrs : SliceAttrs) (dim : Nat), (∀ n ∈ t.shape, n < 2 ^ 63) →
      normDim t.shape.length (attrOr 0 attrs.dim) = some dim → 1 ≤ attrOr 1 attrs.step →
      ((lowerSlice inType attrs t).Gives (fun t' =>
          t'.Same (atenSlice t dim attrs.start attrs.sEnd (attrOr 1 attrs.step))) ↔
        SliceKept t.shape dim attrs)) ∧
    (∀ (outType : RankedType) (dimAttr index : Option Int64) (dim : Nat),
      normDim t.shape.length (attrOr 0 dimAttr) = some dim →
      -(t.shape.getD dim 0 : Int) ≤ attrOr 0 index ∧ attrOr 0 index < t.shape.getD dim 0 →
      ((lowerSelect inType outType dimAttr index t).Gives
          (fun t' => t'.Same (atenSelect t dim (attrOr 0 index))) ↔
        outType.length ≠ inType.length - 1 ∨
          0 ≤ attrOr 0 index ∧ 2 ≤ inType.length ∧ outType = inType.eraseIdx dim)) ∧
    ∀ (outType : RankedType) (pad : List Int) (aux : List (Option (EltType × Tensor α))),
      pad.length % 2 = 0 → pad.length ≤ 2 * t.shape.length →
      Fits (atenPad t pad (atenPadValue cast eltType aux)).shape outType →
      ((lowerPad cast eltType inType outType (some (pad.map some)) aux t).Gives
          (fun t' => t'.Same (atenPad t pad (atenPadValue cast eltType aux))) ↔
        (∀ v ∈ pad, v = 0) ∨ ValueRefused eltType aux ∨ PadKept eltType inType outType pad aux) :=
  ⟨fun _ _ hsize hdim hstep => slice_right_iff hin hsize hdim hstep,
    fun _ _ _ _ hdim hindex => select_right_iff hin hdim hindex,
    fun _ _ _ heven hlen hout => pad_right_iff hin heven hlen hout⟩

def rowMajor (s : List Nat) : Tensor Int := ⟨s, fun c => offset s c⟩

/-- The columns from the second on, the second row, and a column in front. -/
theorem sliceSelectPad_right_iff_matrix :
    (lowerSlice [some 2, none] ⟨some 1, some 1, some 3, none⟩ (rowMajor [2, 3])).Gives
        (fun t' => t'.Same (atenSlice (rowMajor [2, 3]) 1 (some 1) (some 3) 1)) ∧
      (lowerSelect [some 2, none] [none] (some 0) (some 1) (rowMajor [2, 3])).Gives
        (fun t' => t'.Same (atenSelect (rowMajor [2, 3]) 0 1)) ∧
      (lowerPad (fun _ _ v => v) .f32 [some 2, none] [some 2, none] (some [some 1, some 0]) []
        (rowMajor [2, 3])).Gives fun t' => t'.Same (atenPad (rowMajor [2, 3]) [1, 0] 0) := by
  have hin : Fits (rowMajor [2, 3]).shape [some 2, none] := by simp [Fits, rowMajor]
  obtain ⟨hslice, hselect, hpad⟩ :=
    sliceSelectPad_right_iff (fun _ _ v => v) .f32 (rowMajor [2, 3]) hin
  refine ⟨(hslice ⟨some 1, some 1, some 3, none⟩ 1 (by decide) (by decide) (by decide)).2 ?_,
    (hselect [none] (some 0) (some 1) 0 (by decide) (by decide)).2 ?_,
    (hpad [some 2, none] [1, 0] [] (by decide) (by decide) ?_).2 ?_⟩
  · exact ⟨by decide, ⟨by decide, by decide⟩, .inl (by decide)⟩
  · exact .inr ⟨by decide, by decide, rfl⟩
  · have hshape : (atenPad (rowMajor [2, 3]) [1, 0] 0).shape = [2, 4] := by decide
    rw [atenPadValue, getLast?_nil, hshape]
    simp [Fits]
  · refine .inr (.inr ⟨by simp [ValueDefined, EltType.floatWidth], by decide, fun d hd => hd⟩)

/-- The last element, every second column, the last row, and a row less. -/
theorem sliceSelectPad_loses_elements :
    ¬ (lowerSlice [some 3] ⟨some 0, some (-1), some 9223372036854775807, none⟩ (rowMajor [3])).Gives
        (fun t' => t'.Same (atenSlice (rowMajor [3]) 0 (some (-1)) (some 9223372036854775807) 1)) ∧
      ¬ (lowerSlice [some 2, some 4] ⟨some 1, some 0, some 4, some 2⟩ (rowMajor [2, 4])).Gives
        (fun t' => t'.Same (atenSlice (rowMajor [2, 4]) 1 (some 0) (some 4) 2)) ∧
      ¬ (lowerSelect [some 2, some 3] [some 3] (some 0) (some (-1)) (rowMajor [2, 3])).Gives
        (fun t' => t'.Same (atenSelect (rowMajor [2, 3]) 0 (-1))) ∧
      ¬ (lowerPad (fun _ _ v => v) .f32 [some 2, some 3] [some 1, some 3]
        (some [some 0, some 0, some (-1), some 0]) [] (rowMajor [2, 3])).Gives
        (fun t' => t'.Same (atenPad (rowMajor [2, 3]) [0, 0, -1, 0] 0)) := by
  refine ⟨fun h => ?_, fun h => ?_, fun h => ?_, fun h => ?_⟩
  · have hrun : lowerSlice [some 3] ⟨some 0, some (-1), some 9223372036854775807, none⟩
        (rowMajor [3]) = .error .invalid := rfl
    rw [hrun] at h
    exact Lowered.gives_invalid h
  · have hrun : lowerSlice [some 2, some 4] ⟨some 1, some 0, some 4, some 2⟩ (rowMajor [2, 4]) =
        .error .invalid := rfl
    rw [hrun] at h
    exact Lowered.gives_invalid h
  · have hrun : lowerSelect [some 2, some 3] [some 3] (some 0) (some (-1)) (rowMajor [2, 3]) =
        .error .invalid := rfl
    rw [hrun] at h
    exact Lowered.gives_invalid h
  · have hrun : lowerPad (fun _ _ v => v) .f32 [some 2, some 3] [some 1, some 3]
        (some [some 0, some 0, some (-1), some 0]) [] (rowMajor [2, 3]) = .error .invalid := rfl
    rw [hrun] at h
    exact Lowered.gives_invalid h

end CompileForge.SfDialect
