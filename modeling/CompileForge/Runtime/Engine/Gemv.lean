/-
  The GEMV kernels for half-precision weights (`runtime/src/engine/gemv.rs`) in exact
  arithmetic: the decoders of the two formats are parameters into a commutative
  semiring.  `none` is a failed assertion, a slice out of range or an unsupported dtype.
-/

import CompileForge.Lib.BlockedLoop
import CompileForge.Lib.Outcome
import CompileForge.Lib.RowMajor
import CompileForge.Runtime.Model.ComputeGraph
import Mathlib.Tactic.Ring

namespace CompileForge.Runtime.Gemv

open Lib

variable {R : Type} [CommSemiring R]

/-- `f16::from_bits(..).to_f32()` and `bf16_to_f32`. -/
structure HalfDecoders (R : Type) where
  f16 : UInt16 → R
  bf16 : UInt16 → R

/-- What `is_x86_feature_detected` finds. -/
structure CpuFeatures where
  avx2 : Bool
  f16c : Bool
  fma : Bool
deriving DecidableEq, Repr

/-- An 8-lane load from element `pos` of `x`, or of the weight for `row`. -/
inductive LaneLoad where
  | x (pos : Nat)
  | w (row pos : Nat)
deriving DecidableEq, Repr

/-! ## Scalar rows -/

/-- The asserts of every routine. -/
def sizesFit (x : List R) (n k : Nat) (w : List UInt16) (out : List R) : Prop :=
  x.length = k ∧ n * k ≤ w.length ∧ n ≤ out.length
deriving Decidable

section Row

variable (decode : UInt16 → R) (x : List R) (k : Nat) (w : List UInt16)

/-- The columns behind the last full group of eight. -/
def scalarTail (off kk : Nat) (acc : R) : R :=
  (x.zipIdx.drop kk).foldl (fun acc e => acc + e.1 * decode (w.getD (off + e.2) 0)) acc

def gemvScalarInto (n k : Nat) (w : List UInt16) (out : List R) : Option (List R) :=
  if sizesFit x n k w out then
    some ((List.range n).foldl (fun o row =>
      o.set row (scalarTail decode x w (row * k) 0 0)) out)
  else none

/-! ## The blocked routine -/

def load8 {α : Type} (l : List α) (pos : Nat) : List α := slice l pos 8

/-- `_mm256_fmadd_ps`, and a product that is added afterwards. -/
def fmadd (a b c : List R) : List R := List.zipWith (· + ·) (List.zipWith (· * ·) a b) c

/-- `_mm_hadd_ps` of a vector with itself. -/
def hadd (v : List R) : List R :=
  [v.getD 0 0 + v.getD 1 0, v.getD 2 0 + v.getD 3 0, v.getD 0 0 + v.getD 1 0,
    v.getD 2 0 + v.getD 3 0]

/-- The upper half added to the lower one, and that summed. -/
def horizontalSum (lanes : List R) : R :=
  (hadd (hadd (List.zipWith (· + ·) (lanes.take 4) (lanes.drop 4)))).getD 0 0

/-- The eight accumulators of a block of rows, and the loads so far. -/
structure Lanes (R : Type) where
  acc : List (List R)
  loads : List LaneLoad

/-- Eight columns from `kk` on, for the rows from `rb` on. -/
def laneStep (rb : Nat) (st : Lanes R) (kk : Nat) : Lanes R where
  acc := (List.range 8).map fun r =>
    fmadd ((load8 w ((rb + r) * k + kk)).map decode) (load8 x kk) (st.acc.getD r [])
  loads := st.loads ++ .x kk :: (List.range 8).map fun r => .w (rb + r) ((rb + r) * k + kk)

/-- A `while` loop in steps of eight is a fold over its steps. -/
def laneLoop (rb steps : Nat) : Lanes R :=
  (List.range steps).foldl (fun st s => laneStep decode x k w rb st (8 * s))
    ⟨List.replicate 8 (List.replicate 8 0), []⟩

/-- Eight rows at a time; the 8-lane loads are listed, which the source does not do. -/
def gemvBlock (st : List R × List LaneLoad) (rb : Nat) : List R × List LaneLoad :=
  let lanes := laneLoop decode x k w rb (k / 8)
  ((List.range 8).foldl (fun o r => o.set (rb + r)
    (scalarTail decode x w ((rb + r) * k) (8 * (k / 8))
      (horizontalSum (lanes.acc.getD r [])))) st.1,
    st.2 ++ lanes.loads)

/-- The blocks of eight rows, and the remaining rows by the scalar routine. -/
def gemvAvx2Inner (n k : Nat) (w : List UInt16) (out : List R) : List R × List LaneLoad :=
  let st := (List.range (n / 8)).foldl (fun st b => gemvBlock decode x k w st (8 * b)) (out, [])
  ((List.range (n - 8 * (n / 8))).foldl (fun o i => o.set (8 * (n / 8) + i)
    (scalarTail decode x w ((8 * (n / 8) + i) * k) 0 0)) st.1, st.2)

end Row

/-! ## Dispatch -/

/-- A routine that takes the blocked path when its features are there. -/
def gemvInto (detected : Bool) (decode : UInt16 → R) (x : List R) (n k : Nat) (w : List UInt16)
    (out : List R) : Option (List R × List LaneLoad) :=
  if sizesFit x n k w out then
    if detected then some (gemvAvx2Inner decode x n k w out)
    else (gemvScalarInto decode x n k w out).map fun out => (out, [])
  else none

variable (dec : HalfDecoders R) (cpu : CpuFeatures)

def gemvF16Into :=
  gemvInto (cpu.avx2 && cpu.f16c && cpu.fma) dec.f16

def gemvBf16Into := gemvInto cpu.avx2 dec.bf16

def gemvDtypeInto (dtype : Dtype) (x : List R)
    (n k : Nat) (w : List UInt16) (out : List R) : Option (List R × List LaneLoad) :=
  match dtype with
  | .f16 => gemvF16Into dec cpu x n k w out
  | .bf16 => gemvBf16Into dec cpu x n k w out
  | _ => none

/-- A load of a routine that was given the weight from row `start` on. -/
def LaneLoad.shift (start k : Nat) : LaneLoad → LaneLoad
  | .x pos => .x pos
  | .w row pos => .w (start + row) (start * k + pos)

/-- The threads write disjoint parts of `out`; they run one after another here. -/
def gemvThreadedInto (x : List R) (n k : Nat) (w : List UInt16) (dtype : Dtype) (threads : Nat)
    (out : List R) : Option (List R × List LaneLoad) :=
  let threads := min (max threads 1) 32
  if threads = 1 ∨ n < 64 then gemvDtypeInto dec cpu dtype x n k w out
  else if out.length < n then none
  else
    let chunk := (n + threads - 1) / threads
    -- `chunks_mut` cuts `out[..n]` after every `chunk` entries
    let chunks := (List.range ((n + chunk - 1) / chunk)).mapM fun idx =>
      let start := idx * chunk
      let dst := slice (out.take n) start chunk
      if w.length < start * k then none
      else (gemvDtypeInto dec cpu dtype x dst.length k (w.drop (start * k)) dst).map fun res =>
        (res.1, res.2.map (LaneLoad.shift start k))
    chunks.map fun parts => (parts.flatMap Prod.fst ++ out.drop n, parts.flatMap Prod.snd)

/-! ## Rows -/

open Finset in
/-- The sum that a row stands for. -/
def rowDot (decode : UInt16 → R) (x : List R) (w : List UInt16) (off k : Nat) : R :=
  ∑ i ∈ range k, x.getD i 0 * decode (w.getD (off + i) 0)

section Rows

open Finset

variable {decode : UInt16 → R} {x : List R} {k : Nat} {w : List UInt16}

theorem foldl_add_range (f : Nat → R) (acc : R) (n : Nat) :
    (List.range n).foldl (fun acc i => acc + f i) acc = acc + ∑ i ∈ range n, f i := by
  induction n with
  | zero => simp
  | succ n ih =>
    rw [List.range_succ, List.foldl_append, ih, sum_range_succ, ← add_assoc]
    rfl

omit [CommSemiring R] in
theorem drop_zipIdx [Zero R] (x : List R) (kk : Nat) :
    x.zipIdx.drop kk = (List.range (x.length - kk)).map fun i => (x.getD (kk + i) 0, kk + i) := by
  refine List.ext_getElem (by simp) fun i hi _ => ?_
  have hlt : kk + i < x.length := by
    simp only [List.length_drop, List.length_zipIdx] at hi
    omega
  simp [hlt]

theorem scalarTail_eq (hx : x.length = k) (off kk : Nat) (acc : R) :
    scalarTail decode x w off kk acc = acc + ∑ i ∈ range (k - kk),
      x.getD (kk + i) 0 * decode (w.getD (off + (kk + i)) 0) := by
  rw [scalarTail, drop_zipIdx, List.foldl_map, hx]
  exact foldl_add_range (fun i => x.getD (kk + i) 0 * decode (w.getD (off + (kk + i)) 0)) acc _

theorem scalarRow_eq (hx : x.length = k) (off : Nat) :
    scalarTail decode x w off 0 0 = rowDot decode x w off k := by
  rw [scalarTail_eq hx, zero_add, rowDot, Nat.sub_zero]
  simp only [zero_add]

theorem horizontalSum_lanes (v : Nat → R) :
    horizontalSum ((List.range 8).map v) = ∑ j ∈ range 8, v j := by
  have hlanes : (List.range 8).map v = [v 0, v 1, v 2, v 3, v 4, v 5, v 6, v 7] := rfl
  simp only [hlanes, horizontalSum, hadd, List.take_succ_cons, List.take_zero, List.drop_succ_cons,
    List.drop_zero, List.zipWith_cons_cons, List.zipWith_nil_left, List.getD_cons_zero,
    List.getD_cons_succ, sum_range_succ, range_zero, sum_empty]
  ring

end Rows

/-! ## The lanes -/

section LaneLoop

open Finset

variable {decode : UInt16 → R} {x : List R} {n k : Nat} {w : List UInt16} {rb steps : Nat}

theorem load8_eq {α : Type} {l : List α} {pos : Nat} (h : pos + 8 ≤ l.length) (d : α) :
    load8 l pos = (List.range 8).map fun j => l.getD (pos + j) d := by
  refine List.ext_getElem (by simp [load8, length_slice h]) fun j hj _ => ?_
  rw [load8, length_slice h] at hj
  have hlt : pos + j < l.length := by omega
  simp [load8, Lib.slice, hlt]

/-- The lanes of row `r` after some steps. -/
def laneSums (decode : UInt16 → R) (x : List R) (k : Nat) (w : List UInt16) (rb steps r : Nat) :
    List R :=
  (List.range 8).map fun j => ∑ s ∈ range steps,
    x.getD (8 * s + j) 0 * decode (w.getD ((rb + r) * k + (8 * s + j)) 0)

theorem fmadd_laneSums {r : Nat} (hx : 8 * steps + 8 ≤ x.length)
    (hw : (rb + r) * k + 8 * steps + 8 ≤ w.length) :
    fmadd ((load8 w ((rb + r) * k + 8 * steps)).map decode) (load8 x (8 * steps))
      (laneSums decode x k w rb steps r) = laneSums decode x k w rb (steps + 1) r := by
  rw [load8_eq hw 0, load8_eq hx 0, fmadd, laneSums, laneSums, List.map_map, List.zipWith_map,
    List.zipWith_self, List.zipWith_map, List.zipWith_self]
  refine List.map_congr_left fun j _ => ?_
  rw [sum_range_succ, add_comm]
  simp only [Function.comp_apply, mul_comm, add_assoc]

theorem row_within {row : Nat} (hrow : row < n) {c : Nat} (hc : c ≤ k) : row * k + c ≤ n * k := by
  have hmul : (row + 1) * k ≤ n * k := Nat.mul_le_mul_right k hrow
  rw [Nat.succ_mul] at hmul
  omega

theorem laneLoop_acc (hx : x.length = k) (hw : n * k ≤ w.length) (hrb : rb + 8 ≤ n)
    (hsteps : 8 * steps ≤ k) :
    (laneLoop decode x k w rb steps).acc = (List.range 8).map (laneSums decode x k w rb steps) := by
  induction steps with
  | zero => rfl
  | succ steps ih =>
    rw [laneLoop, List.range_succ, List.foldl_append, ← laneLoop]
    simp only [List.foldl_cons, List.foldl_nil, laneStep]
    refine List.map_congr_left fun r hr => ?_
    have hr := List.mem_range.1 hr
    have hrow : rb + r < n := by omega
    have hcol : 8 * steps + 8 ≤ k := by omega
    have hwithin := (row_within hrow hcol).trans hw
    have hacc : (laneLoop decode x k w rb steps).acc.getD r [] =
        laneSums decode x k w rb steps r := by
      rw [ih (by omega)]
      exact getD_map_range _ hr []
    rw [hacc]
    exact fmadd_laneSums (by omega) (by omega)

/-- A load of eight lanes stays inside its slice. -/
def LaneLoad.Inside (n k : Nat) : LaneLoad → Prop
  | .x pos => pos + 8 ≤ k
  | .w row pos => row < n ∧ row * k ≤ pos ∧ pos + 8 ≤ (row + 1) * k

theorem laneLoop_loads (hrb : rb + 8 ≤ n) (hsteps : 8 * steps ≤ k) :
    ∀ load ∈ (laneLoop decode x k w rb steps).loads, load.Inside n k := by
  induction steps with
  | zero => simp [laneLoop]
  | succ steps ih =>
    rw [laneLoop, List.range_succ, List.foldl_append, ← laneLoop]
    simp only [List.foldl_cons, List.foldl_nil, laneStep]
    intro load hload
    rcases List.mem_append.1 hload with hload | hload
    · exact ih (by omega) load hload
    · rcases List.mem_cons.1 hload with rfl | hload
      · show 8 * steps + 8 ≤ k
        omega
      · obtain ⟨r, hr, rfl⟩ := List.mem_map.1 hload
        have hr := List.mem_range.1 hr
        refine ⟨by omega, Nat.le_add_right .., ?_⟩
        rw [add_mul (rb + r) 1 k, one_mul]
        omega

theorem blockRow_eq (hx : x.length = k) (hw : n * k ≤ w.length) (hrb : rb + 8 ≤ n) {r : Nat}
    (hr : r < 8) :
    scalarTail decode x w ((rb + r) * k) (8 * (k / 8))
        (horizontalSum ((laneLoop decode x k w rb (k / 8)).acc.getD r [])) =
      rowDot decode x w ((rb + r) * k) k := by
  have hle : 8 * (k / 8) ≤ k := Nat.mul_div_le k 8
  rw [laneLoop_acc hx hw hrb hle, getD_map_range _ hr [], laneSums, horizontalSum_lanes,
    scalarTail_eq hx]
  exact sum_lanes_add_tail
    (fun i => x.getD i 0 * decode (w.getD ((rb + r) * k + i) 0)) hle

end LaneLoop

section Routines

variable {decode : UInt16 → R} {x : List R} {n k : Nat} {w : List UInt16} {out : List R}

/-- The first `m` rows of the product, in front of what was there. -/
def rowsDone (decode : UInt16 → R) (x : List R) (k : Nat) (w : List UInt16) (out : List R)
    (m : Nat) : List R :=
  filled (fun row => rowDot decode x w (row * k) k) out m

theorem gemvScalarInto_eq (h : sizesFit x n k w out) :
    gemvScalarInto decode x n k w out = some (rowsDone decode x k w out n) := by
  obtain ⟨hx, hw, hout⟩ := h
  rw [gemvScalarInto, if_pos ⟨hx, hw, hout⟩]
  have hfill := foldl_set_filled (fun row => rowDot decode x w (row * k) k) 0 n
    (by omega : 0 + n ≤ out.length)
  simp only [zero_add, filled_zero] at hfill
  simp only [scalarRow_eq hx]
  exact congrArg some hfill

theorem gemvBlock_eq (decode : UInt16 → R) (hx : x.length = k) (hw : n * k ≤ w.length)
    (hout : n ≤ out.length)
    {rb : Nat} (hrb : rb + 8 ≤ n) (loads : List LaneLoad) :
    (gemvBlock decode x k w (rowsDone decode x k w out rb, loads) rb).1 =
        rowsDone decode x k w out (rb + 8) ∧
      (gemvBlock decode x k w (rowsDone decode x k w out rb, loads) rb).2 =
        loads ++ (laneLoop decode x k w rb (k / 8)).loads := by
  refine ⟨?_, rfl⟩
  rw [rowsDone, rowsDone, ← foldl_set_filled _ rb 8 (by omega)]
  refine List.foldl_ext _ _ _ fun o r hr => ?_
  rw [blockRow_eq hx hw hrb (List.mem_range.1 hr)]

theorem gemvBlocks_eq (decode : UInt16 → R) (hx : x.length = k) (hw : n * k ≤ w.length)
    (hout : n ≤ out.length)
    {blocks : Nat} (hblocks : 8 * blocks ≤ n) :
    ∃ loads, (List.range blocks).foldl (fun st b => gemvBlock decode x k w st (8 * b)) (out, []) =
        (rowsDone decode x k w out (8 * blocks), loads) ∧
      ∀ load ∈ loads, load.Inside n k := by
  induction blocks with
  | zero => exact ⟨[], rfl, by simp⟩
  | succ blocks ih =>
    obtain ⟨loads, hfold, hinside⟩ := ih (by omega)
    obtain ⟨hrows, hloads⟩ := gemvBlock_eq decode hx hw hout
      (by omega : 8 * blocks + 8 ≤ n) loads
    refine ⟨loads ++ (laneLoop decode x k w (8 * blocks) (k / 8)).loads, ?_, fun load hload => ?_⟩
    · rw [List.range_succ, List.foldl_append, hfold]
      exact Prod.ext hrows hloads
    · rcases List.mem_append.1 hload with hload | hload
      · exact hinside load hload
      · exact laneLoop_loads (by omega) (Nat.mul_div_le k 8) load hload

theorem gemvAvx2Inner_eq (decode : UInt16 → R) (h : sizesFit x n k w out) :
    ∃ loads, gemvAvx2Inner decode x n k w out = (rowsDone decode x k w out n, loads) ∧
      ∀ load ∈ loads, load.Inside n k := by
  obtain ⟨hx, hw, hout⟩ := h
  have hle : 8 * (n / 8) ≤ n := Nat.mul_div_le n 8
  obtain ⟨loads, hfold, hinside⟩ := gemvBlocks_eq decode hx hw hout hle
  refine ⟨loads, ?_, hinside⟩
  have hfill := foldl_set_filled (fun row => rowDot decode x w (row * k) k) (8 * (n / 8))
    (n - 8 * (n / 8)) (by omega : 8 * (n / 8) + (n - 8 * (n / 8)) ≤ out.length)
  rw [Nat.add_sub_cancel' hle] at hfill
  simp only [gemvAvx2Inner, hfold, scalarRow_eq hx]
  exact congrArg (·, loads) hfill

theorem gemvInto_eq (detected : Bool) (h : sizesFit x n k w out) :
    ∃ loads, gemvInto detected decode x n k w out = some (rowsDone decode x k w out n, loads) ∧
      ∀ load ∈ loads, load.Inside n k := by
  rw [gemvInto, if_pos h]
  cases detected with
  | true =>
    obtain ⟨loads, heq, hinside⟩ := gemvAvx2Inner_eq decode h
    exact ⟨loads, by simp [heq], hinside⟩
  | false => exact ⟨[], by simp [gemvScalarInto_eq h], by simp⟩

end Routines

section Threads

variable {x : List R} {n k : Nat} {w : List UInt16} {out : List R} {dtype : Dtype}

variable (dec : HalfDecoders R)

def HalfDecoders.decode (dtype : Dtype) : UInt16 → R :=
  match dtype with
  | .bf16 => dec.bf16
  | _ => dec.f16

variable (cpu : CpuFeatures)

theorem gemvDtypeInto_eq (hdtype : dtype = .f16 ∨ dtype = .bf16) (h : sizesFit x n k w out) :
    ∃ loads, gemvDtypeInto dec cpu dtype x n k w out =
        some (rowsDone (dec.decode dtype) x k w out n, loads) ∧
      ∀ load ∈ loads, load.Inside n k := by
  rcases hdtype with rfl | rfl
  · exact gemvInto_eq _ h
  · exact gemvInto_eq _ h

theorem rowDot_drop (decode : UInt16 → R) (start row : Nat) :
    rowDot decode x (w.drop (start * k)) (row * k) k = rowDot decode x w ((start + row) * k) k := by
  unfold rowDot
  simp only [List.getD_eq_getElem?_getD, List.getElem?_drop, add_mul, add_assoc]

theorem LaneLoad.Inside.shift {load : LaneLoad} {start count : Nat} (h : load.Inside count k)
    (hn : start + count ≤ n) : (load.shift start k).Inside n k := by
  cases load with
  | x => exact h
  | w row =>
    obtain ⟨hrow, hlow, hhigh⟩ := h
    refine ⟨by omega, ?_, ?_⟩
    · rw [add_mul]
      omega
    · have hsum : (start + row + 1) * k = start * k + (row + 1) * k := by ring
      rw [hsum]
      omega

theorem chunk_eq
    (hdtype : dtype = .f16 ∨ dtype = .bf16) (h : sizesFit x n k w out) {chunk idx : Nat}
    (hfits : idx * chunk + shareLen n chunk idx ≤ n) :
    ∃ loads, gemvDtypeInto dec cpu dtype x (slice (out.take n) (idx * chunk) chunk).length k
        (w.drop (idx * chunk * k)) (slice (out.take n) (idx * chunk) chunk) =
          some ((List.range (shareLen n chunk idx)).map fun j =>
            rowDot (dec.decode dtype) x w ((idx * chunk + j) * k) k, loads) ∧
      ∀ load ∈ loads, (load.shift (idx * chunk) k).Inside n k := by
  obtain ⟨hx, hw, hout⟩ := h
  have hlen : (slice (out.take n) (idx * chunk) chunk).length = shareLen n chunk idx := by
    rw [slice, List.length_take, List.length_drop, List.length_take, min_eq_left hout, shareLen]
  have hmul : idx * chunk * k + shareLen n chunk idx * k ≤ n * k := by
    rw [← add_mul]
    exact Nat.mul_le_mul_right k hfits
  rw [hlen]
  have hsizes : sizesFit x (shareLen n chunk idx) k (w.drop (idx * chunk * k))
      (slice (out.take n) (idx * chunk) chunk) :=
    ⟨hx, by rw [List.length_drop]; omega, hlen.ge⟩
  obtain ⟨loads, heq, hinside⟩ := gemvDtypeInto_eq dec cpu hdtype hsizes
  refine ⟨loads, ?_, fun load hload => (hinside load hload).shift hfits⟩
  -- the chunk is written whole
  rw [heq, rowsDone, filled, List.drop_of_length_le hlen.le, List.append_nil]
  simp only [rowDot_drop]

theorem gemvThreadedInto_eq (threads : Nat)
    (hdtype : dtype = .f16 ∨ dtype = .bf16) (h : sizesFit x n k w out) :
    ∃ loads, gemvThreadedInto dec cpu x n k w dtype threads out =
        some (rowsDone (dec.decode dtype) x k w out n, loads) ∧
      ∀ load ∈ loads, load.Inside n k := by
  unfold gemvThreadedInto
  generalize hthreads : min (max threads 1) 32 = workers
  by_cases hsingle : workers = 1 ∨ n < 64
  · simp only [if_pos hsingle]
    exact gemvDtypeInto_eq dec cpu hdtype h
  have hout : ¬ out.length < n := by
    have := h.2.2
    omega
  have hchunk : 0 < (n + workers - 1) / workers := by
    refine Nat.div_pos ?_ ?_ <;> omega
  simp only [if_neg hsingle, if_neg hout]
  generalize (n + workers - 1) / workers = chunk at hchunk
  -- what each thread returns
  have hparts : ∀ idx, ∃ part : List R × List LaneLoad, idx < (n + chunk - 1) / chunk →
      (if w.length < idx * chunk * k then none
        else (gemvDtypeInto dec cpu dtype x (slice (out.take n) (idx * chunk) chunk).length k
          (w.drop (idx * chunk * k)) (slice (out.take n) (idx * chunk) chunk)).map fun res =>
            (res.1, res.2.map (LaneLoad.shift (idx * chunk) k))) = some part ∧
      part.1 = ((List.range (shareLen n chunk idx)).map fun j =>
        rowDot (dec.decode dtype) x w ((idx * chunk + j) * k) k) ∧
      ∀ load ∈ part.2, load.Inside n k := by
    intro idx
    by_cases hidx : idx < (n + chunk - 1) / chunk
    · have hfits := shareLen_le hidx hchunk
      obtain ⟨loads, heq, hinside⟩ := chunk_eq dec cpu hdtype h hfits
      have hstart : ¬ w.length < idx * chunk * k := by
        have hle : idx * chunk * k ≤ n * k := Nat.mul_le_mul_right k (by omega)
        have := h.2.1
        omega
      refine ⟨(_, loads.map (LaneLoad.shift (idx * chunk) k)), fun _ => ⟨?_, rfl, ?_⟩⟩
      · rw [if_neg hstart, heq]
        rfl
      · intro load hload
        obtain ⟨load, hmem, rfl⟩ := List.mem_map.1 hload
        exact hinside load hmem
    · exact ⟨([], []), fun h => absurd h hidx⟩
  choose part hpart using hparts
  rw [mapM_eq_map (g := part) fun idx hidx => (hpart idx (List.mem_range.1 hidx)).1]
  refine ⟨((List.range ((n + chunk - 1) / chunk)).map part).flatMap Prod.snd, ?_, ?_⟩
  · rw [Option.map_some, List.flatMap_map, flatMap_range_congr fun idx hidx => (hpart idx hidx).2.1,
      flatMap_chunks (fun row => rowDot (dec.decode dtype) x w (row * k) k) n hchunk]
    rfl
  · intro load hload
    rw [List.flatMap_map] at hload
    obtain ⟨idx, hidx, hload⟩ := List.mem_flatMap.1 hload
    exact (hpart idx (List.mem_range.1 hidx)).2.2 load hload

/-! ## Agreement -/

/-- Every entry of `out` is the sum of its row, and nothing else changed. -/
def WritesRows (decode : UInt16 → R) (x : List R) (n k : Nat) (w : List UInt16)
    (out out' : List R) : Prop :=
  out'.length = out.length ∧
    (∀ r < n, out'[r]? = some (∑ i ∈ Finset.range k, x.getD i 0 * decode (w.getD (r * k + i) 0))) ∧
    ∀ r, n ≤ r → out'[r]? = out[r]?

theorem writesRows_rowsDone {decode : UInt16 → R} (hout : n ≤ out.length) :
    WritesRows decode x n k w out (rowsDone decode x k w out n) := by
  refine ⟨length_filled hout, fun r hr => ?_, fun r hr => ?_⟩
  · rw [rowsDone, filled, List.getElem?_append_left (by simpa using hr)]
    simp [hr, rowDot]
  · rw [rowsDone, filled, List.getElem?_append_right (by simpa using hr)]
    simp [Nat.add_sub_cancel' hr]

/-- Every kernel writes the same rows, and its 8-lane loads lie inside `x` and their rows. -/
theorem gemv_agree (dec : HalfDecoders R) (cpu : CpuFeatures) (threads : Nat)
    (hdtype : dtype = .f16 ∨ dtype = .bf16) (hx : x.length = k) (hw : n * k ≤ w.length)
    (hout : n ≤ out.length) :
    (WritesRows (dec.decode dtype) x n k w out (gemvAvx2Inner (dec.decode dtype) x n k w out).1 ∧
      ∀ load ∈ (gemvAvx2Inner (dec.decode dtype) x n k w out).2, load.Inside n k) ∧
    (∃ out', gemvScalarInto (dec.decode dtype) x n k w out = some out' ∧
      WritesRows (dec.decode dtype) x n k w out out') ∧
    ∃ out' loads, gemvThreadedInto dec cpu x n k w dtype threads out = some (out', loads) ∧
      WritesRows (dec.decode dtype) x n k w out out' ∧ ∀ load ∈ loads, load.Inside n k := by
  have hsizes : sizesFit x n k w out := ⟨hx, hw, hout⟩
  have hrows : WritesRows (dec.decode dtype) x n k w out
      (rowsDone (dec.decode dtype) x k w out n) := writesRows_rowsDone hout
  obtain ⟨loads, hinner, hinside⟩ := gemvAvx2Inner_eq (dec.decode dtype) hsizes
  obtain ⟨loads', hthreaded, hinside'⟩ := gemvThreadedInto_eq dec cpu threads hdtype hsizes
  refine ⟨?_, ⟨_, gemvScalarInto_eq hsizes, hrows⟩, ⟨_, loads', hthreaded, hrows, hinside'⟩⟩
  rw [hinner]
  exact ⟨hrows, hinside⟩

/-- Four threads over 65 rows of nine columns: tails on both axes, and a short last chunk. -/
theorem gemv_agree_threads :
    ∃ out' loads, gemvThreadedInto ⟨fun b => (b.toNat : ℤ), fun b => b.toNat⟩ ⟨true, true, true⟩
        (List.replicate 9 1) 65 9 (List.replicate 585 2) .f16 4 (List.replicate 70 7) =
          some (out', loads) ∧
      WritesRows (fun b => (b.toNat : ℤ)) (List.replicate 9 1) 65 9 (List.replicate 585 2)
        (List.replicate 70 7) out' ∧
      ∀ load ∈ loads, load.Inside 65 9 :=
  (gemv_agree ⟨fun b => (b.toNat : ℤ), fun b => b.toNat⟩ ⟨true, true, true⟩ 4 (.inl rfl)
    List.length_replicate List.length_replicate.ge (by simp)).2.2

end Threads

end CompileForge.Runtime.Gemv
