/-
  RMS normalisation of a sum (`kernels/rms_norm.py`): the fall-back `_fused_rms_norm_add_cpu` and
  the kernel of `_fused_rms_norm_add_triton`, of which every program masks its places as if they
  were columns.
-/

import CompileForge.Lib.Tile
import Mathlib.Data.Nat.Log

namespace CompileForge.Kernels

open Lib List
open Lib.Tile (arange load store IsVec reduceAll)

/-- The contiguous operands of a call, the dims but the last taken as `rows`. -/
structure RmsArgs (R : Type) where
  rows : Nat
  nCols : Nat
  input : List R
  residual : List R
  weight : List R
  eps : R
  hasCols : 1 ≤ nCols
  length_input : input.length = rows * nCols
  length_residual : residual.length = rows * nCols
  length_weight : weight.length = nCols

namespace RmsArgs

variable {R : Type} [Field R] (sqrt : R → R) (x : RmsArgs R) (pid : Nat)

def blockSize : Nat := min 1024 (2 ^ Nat.clog 2 x.nCols)

/-- `grid`. -/
def numPrograms : Nat := x.input.length / x.nCols

def sumAt (i : Nat) : R := x.input.getD i 0 + x.residual.getD i 0

/-- Numbers are exact and the square root is any function. -/
def normAt (row col : Nat) : R :=
  let squares := (range x.nCols).map fun j =>
    x.sumAt (row * x.nCols + j) * x.sumAt (row * x.nCols + j)
  x.sumAt (row * x.nCols + col) / sqrt (squares.sum / x.nCols + x.eps) * x.weight.getD col 0

def fusedRmsNormAddCpu : List (Nat × R) :=
  grid x.rows x.nCols fun row col => (row * x.nCols + col, x.normAt sqrt row col)

/-- `_kernel`: the writes of a program. -/
def rmsKernel : Option (List (Nat × R)) := do
  let places ← arange x.blockSize
  let offs := Tile.map (pid * x.blockSize + ·) places
  let mask := Tile.map (fun o => decide (o < x.nCols)) offs
  let inp ← load x.input offs mask fun _ => 0
  let res ← load x.residual offs mask fun _ => 0
  let sum ← Tile.map₂ (· + ·) inp res
  let squares ← Tile.map₂ (· * ·) sum sum
  let rms := sqrt (reduceAll List.sum squares / x.nCols + x.eps)
  let xNorm := Tile.map (· / rms) sum
  let w ← load x.weight offs mask fun _ => 0
  let out ← Tile.map₂ (· * ·) xNorm w
  store offs out mask

/-- The programs in any order write every element once, and what the fall-back gives. -/
def RmsRight : Prop :=
  ∀ order : List Nat, order.Perm (range x.numPrograms) →
    ∃ writes, order.mapM (x.rmsKernel sqrt) = some writes ∧
      writes.flatten.Perm (x.fusedRmsNormAddCpu sqrt)

/-! ## What a program writes -/

variable {sqrt : R → R} {x : RmsArgs R} {pid : Nat}

variable (x sqrt pid)

/-- An element of the sum, zero outside the first row. -/
def maskedSum (i : Nat) : R :=
  (if decide (i < x.nCols) then x.input.getD i 0 else 0) +
    if decide (i < x.nCols) then x.residual.getD i 0 else 0

/-- The normaliser of a program. -/
def rmsOf : R :=
  sqrt (((range x.blockSize).map fun i => x.maskedSum (pid * x.blockSize + i) *
    x.maskedSum (pid * x.blockSize + i)).sum / x.nCols + x.eps)

/-- The writes of a program: its places below the number of columns. -/
def writesOf : List (Nat × R) :=
  ((range x.blockSize).filter fun i => decide (pid * x.blockSize + i < x.nCols)).map fun i =>
    (pid * x.blockSize + i, x.maskedSum (pid * x.blockSize + i) / x.rmsOf sqrt pid *
      if decide (pid * x.blockSize + i < x.nCols) then
        x.weight.getD (pid * x.blockSize + i) 0 else 0)

omit [Field R] in
theorem exists_blockSize : ∃ e, x.blockSize = 2 ^ e := by
  rcases le_total (2 ^ 10) (2 ^ Nat.clog 2 x.nCols) with hle | hle
  · exact ⟨10, min_eq_left hle⟩
  · exact ⟨_, min_eq_right hle⟩

variable {x sqrt pid}

theorem rmsKernel_eq (hrows : 1 ≤ x.rows) (pid : Nat) :
    x.rmsKernel sqrt pid = some (x.writesOf sqrt pid) := by
  obtain ⟨e, he⟩ := x.exists_blockSize
  have hfirst : x.nCols ≤ x.rows * x.nCols := Nat.le_mul_of_pos_left _ hrows
  have harange : arange x.blockSize = some ⟨[x.blockSize], fun c => c.getD 0 0⟩ :=
    if_pos (by rw [he, Nat.log2_two_pow])
  have hplaces : IsVec (⟨[x.blockSize], fun c => c.getD 0 0⟩ : Tensor Nat) x.blockSize fun i => i :=
    ⟨rfl, fun _ _ => rfl⟩
  have hoffs := hplaces.map (pid * x.blockSize + ·)
  have hmask := hoffs.map fun o => decide (o < x.nCols)
  have hbelow : ∀ mem : List R, x.nCols ≤ mem.length → ∀ i < x.blockSize,
      decide (pid * x.blockSize + i < x.nCols) = true → pid * x.blockSize + i < mem.length :=
    fun mem hmem i _ hi => (of_decide_eq_true hi).trans_le hmem
  obtain ⟨inp, hinp, hI⟩ := hoffs.load hmask (hbelow _ (x.length_input ▸ hfirst)) fun _ => 0
  obtain ⟨res, hres, hR⟩ := hoffs.load hmask (hbelow _ (x.length_residual ▸ hfirst)) fun _ => 0
  obtain ⟨sum, hsum, hS⟩ := hI.map₂ hR (· + ·)
  obtain ⟨squares, hsquares, hQ⟩ := hS.map₂ hS (· * ·)
  obtain ⟨w, hw, hW⟩ := hoffs.load hmask (hbelow _ x.length_weight.ge) fun _ => 0
  have hnorm := hS.map (· / sqrt (reduceAll List.sum squares / x.nCols + x.eps))
  obtain ⟨out, hout, hO⟩ := hnorm.map₂ hW (· * ·)
  have hwrites := hoffs.store hO hmask
  rw [rmsKernel, harange]
  simp only [Option.bind_eq_bind, Option.bind_some, hinp, hres, hsum, hsquares, hw, hout]
  rw [hwrites, hQ.reduceAll]
  rfl

omit [Field R] in
theorem numPrograms_eq (x : RmsArgs R) : x.numPrograms = x.rows := by
  rw [numPrograms, x.length_input, Nat.mul_div_cancel _ x.hasCols]

theorem lt_of_mem_writesOf {w : Nat × R} (h : w ∈ x.writesOf sqrt pid) :
    w.1 < x.nCols ∧ w.1 < pid * x.blockSize + x.blockSize := by
  obtain ⟨i, hi, rfl⟩ := mem_map.1 h
  obtain ⟨hi, hcol⟩ := mem_filter.1 hi
  exact ⟨of_decide_eq_true hcol, Nat.add_lt_add_left (mem_range.1 hi) _⟩

/-! ## When the kernel is right -/

theorem writesOf_first (h : x.nCols ≤ 1024) :
    x.writesOf sqrt 0 = (range x.nCols).map fun col => (col, x.normAt sqrt 0 col) := by
  have hle : x.nCols ≤ x.blockSize := le_min h (Nat.le_pow_clog one_lt_two _)
  obtain ⟨k, hk⟩ := Nat.exists_eq_add_of_le hle
  have hrange : range x.blockSize = range x.nCols ++ (range k).map (x.nCols + ·) := by
    rw [hk, range_add]
  have hcol : ∀ i < x.nCols, decide (0 * x.blockSize + i < x.nCols) = true := fun i hi =>
    decide_eq_true (by omega)
  have hrest : ∀ i ∈ (range k).map (x.nCols + ·),
      decide (0 * x.blockSize + i < x.nCols) = false := by
    rw [forall_mem_map]
    exact fun i _ => decide_eq_false (by omega)
  have hsum : ∀ i < x.nCols, x.maskedSum (0 * x.blockSize + i) = x.sumAt i := by
    intro i hi
    rw [maskedSum, hcol i hi, zero_mul, zero_add]
    rfl
  have hrms : x.rmsOf sqrt 0 = sqrt (((range x.nCols).map fun j =>
      x.sumAt (0 * x.nCols + j) * x.sumAt (0 * x.nCols + j)).sum / x.nCols + x.eps) := by
    have hcols : (range x.nCols).map (fun i => x.maskedSum (0 * x.blockSize + i) *
        x.maskedSum (0 * x.blockSize + i)) = (range x.nCols).map fun j =>
          x.sumAt (0 * x.nCols + j) * x.sumAt (0 * x.nCols + j) := by
      refine map_congr_left fun i hi => ?_
      rw [hsum i (mem_range.1 hi), zero_mul, zero_add]
    have hzero : (((range k).map (x.nCols + ·)).map fun i =>
        x.maskedSum (0 * x.blockSize + i) * x.maskedSum (0 * x.blockSize + i)).sum = 0 := by
      refine sum_eq_zero (forall_mem_map.2 fun i hi => ?_)
      rw [maskedSum, hrest i hi]
      simp
    rw [rmsOf, hrange, map_append, sum_append, hcols, hzero, add_zero]
  have hfilter : (range x.blockSize).filter
      (fun i => decide (0 * x.blockSize + i < x.nCols)) = range x.nCols := by
    rw [hrange, filter_append, filter_eq_self.2 fun i hi => hcol i (mem_range.1 hi),
      filter_eq_nil_iff.2 fun i hi => Bool.not_eq_true _ ▸ hrest i hi, append_nil]
  rw [writesOf, hfilter]
  refine map_congr_left fun i hi => ?_
  have hi := mem_range.1 hi
  rw [hcol i hi, hsum i hi, hrms, normAt, zero_mul, zero_mul, zero_add]
  simp only [if_true, zero_add]

theorem not_rmsRight (hpos : 1 ≤ x.rows) (hone : ¬ (x.rows = 1 ∧ x.nCols ≤ 1024)) :
    ¬ x.RmsRight sqrt := by
  intro hright
  have hcols := x.hasCols
  obtain ⟨writes, hrun, hperm⟩ := hright _ (List.Perm.refl _)
  rw [mapM_eq_map fun pid _ => rmsKernel_eq hpos pid] at hrun
  cases hrun
  have hwritten : ∀ row < x.rows, ∀ col < x.nCols, ∃ pid < x.rows, row * x.nCols + col < x.nCols ∧
        row * x.nCols + col < pid * x.blockSize + x.blockSize := by
    intro row hrow col hcol
    have hmem : (row * x.nCols + col, x.normAt sqrt row col) ∈ x.fusedRmsNormAddCpu sqrt :=
      mem_grid.2 ⟨row, hrow, col, hcol, rfl⟩
    rw [← hperm.mem_iff, ← flatMap_def, mem_flatMap] at hmem
    obtain ⟨pid, hpid, hmem⟩ := hmem
    rw [mem_range, numPrograms_eq] at hpid
    exact ⟨pid, hpid, lt_of_mem_writesOf hmem⟩
  have hblock : x.blockSize ≤ 1024 := min_le_left _ _
  by_cases hrows : x.rows = 1
  · -- the last column is behind the block of the only program
    obtain ⟨pid, hpid, -, hlt⟩ := hwritten 0 hpos (x.nCols - 1) (by omega)
    obtain rfl : pid = 0 := by omega
    have hwide : ¬ x.nCols ≤ 1024 := fun hle => hone ⟨hrows, hle⟩
    omega
  · -- the second row is behind the mask
    obtain ⟨pid, -, hlt, -⟩ := hwritten 1 (by omega) 0 hcols
    omega

/-- The kernel is right where there is at most one row, and a block holds it. -/
theorem rmsRight_iff (sqrt : R → R) (x : RmsArgs R) :
    x.RmsRight sqrt ↔ x.rows = 0 ∨ x.rows = 1 ∧ x.nCols ≤ 1024 := by
  constructor
  · intro hright
    by_contra hnot
    obtain ⟨hrows, hone⟩ := not_or.1 hnot
    exact not_rmsRight (Nat.pos_of_ne_zero hrows) hone hright
  · intro hcond order horder
    rw [numPrograms_eq] at horder
    rcases hcond with hzero | ⟨hone, hcols⟩
    · rw [hzero] at horder
      obtain rfl := horder.eq_nil
      refine ⟨[], rfl, ?_⟩
      rw [fusedRmsNormAddCpu, hzero]
      exact List.Perm.refl _
    · rw [hone] at horder
      obtain rfl := perm_singleton.1 horder
      refine ⟨[x.writesOf sqrt 0], ?_, ?_⟩
      · rw [mapM_cons, rmsKernel_eq hone.ge]
        rfl
      · rw [flatten_singleton, writesOf_first hcols, fusedRmsNormAddCpu, hone]
        simp [grid]

def rmsTwo : RmsArgs Rat := ⟨2, 1, [1, 2], [0, 0], [1], 1, by decide, rfl, rfl, rfl⟩

theorem rmsTwo_not_right : ¬ rmsTwo.RmsRight id := not_rmsRight (by decide) (by decide)

end RmsArgs

end CompileForge.Kernels
