/-
  Output buffers of a graph function (`runtime/src/engine/compute_graph_runner.rs`) and
  the shapes a compiled function returns for them (`runtime/src/hal/cpu/executable.rs`,
  `sret.rs`).  Products of `usize` wrap at `2 ^ 64`.
-/

import CompileForge.Lib.Outcome
import CompileForge.Runtime.Model.ComputeGraph
import Mathlib.Algebra.BigOperators.Ring.List
import Mathlib.Tactic.IntervalCases
import Mathlib.Tactic.Ring

namespace CompileForge.Runtime

open Lib List

/-- An output `SFATensor` on the CPU. -/
structure OutputBuffer where
  shape : List Nat
  elemSize : Nat
  dataPtr : Int
deriving DecidableEq, Repr

namespace OutputBuffer

def rank (buf : OutputBuffer) : Nat := buf.shape.length

/-- The elements of the vector behind the tensor. -/
def numel (buf : OutputBuffer) : Nat := buf.shape.prod % 2 ^ 64

end OutputBuffer

/-- `checked_product_from_i64` of the dims, each cast to `i64`. -/
def memrefNumel (shape : List Nat) : Option Nat :=
  checkedProductUsize (shape.map fun d => if d < 2 ^ 63 then d else 0)

/-- `SfaMemRef::byte_len`. -/
def OutputBuffer.byteLen (buf : OutputBuffer) : Nat :=
  (memrefNumel buf.shape).getD (2 ^ 64 - 1) * buf.elemSize % 2 ^ 64

/-- The size of an element of the vector that `allocate_output_buffers` makes. -/
def Dtype.bufferElemSize : Dtype → Nat
  | .f32 => 4
  | .f16 => 2
  | .bf16 => 2
  | .i64 => 8
  | _ => 4

variable (shape : List Nat)

/-- A leading zero is the batch only in front of a dim beyond one. -/
def firstZeroIsBatch : Bool :=
  shape[0]? == some 0 && shape[1]?.any fun d => 1 < d

/-- `shape_usize` of the allocation: zero dims mapped to real values. -/
def resolvedDims (seqLen : Nat) : List Nat :=
  shape.mapIdx fun i d =>
    if d = 0 then (if i = 0 ∧ firstZeroIsBatch shape = true then 1 else seqLen) else d

/-- `all_dynamic || ambiguous_tail`: the shape cannot be resolved from the ABI. -/
def unresolvable : Bool :=
  shape.all (fun d => d = 0) ||
    (shape[0]? == some 1 && shape[1]? == some 0 && decide (2 ≤ shape.count 0))

/-- The size of a fall-back allocation. -/
def fallbackNumel : Nat := 2097152

variable (io : GraphTensorDef)

/-- The shape that is allocated: two million elements where it is not known. -/
def finalShape (seqLen : Nat) : List Nat :=
  if unresolvable io.shape then
    if 1 ≤ io.rank then
      match io.rank with
      | 1 => [fallbackNumel]
      | 2 => [fallbackNumel, 1]
      | 3 => [fallbackNumel, 1, 1]
      | 4 => [fallbackNumel, 1, 1, 1]
      | _ => [fallbackNumel]
    else [16]
  else resolvedDims io.shape seqLen

/-- One output.  An allocation beyond `isize::MAX` bytes panics. -/
def allocateOutput (seqLen : Nat) (dataPtr : Int) : Option OutputBuffer :=
  let buf : OutputBuffer :=
    { shape := finalShape io seqLen, elemSize := io.dtype.bufferElemSize, dataPtr }
  if buf.numel * buf.elemSize < 2 ^ 63 ∧ 1 ≤ buf.rank ∧ buf.rank ≤ 4 then some buf else none

/-- The outputs that are not borrowed from a weight, whose tensor is handed on as it is. -/
def allocateOutputBuffers (func : FuncDef) (seqLen : Nat) (dataPtr : Nat → Int) :
    Option (List OutputBuffer) :=
  func.outputs.zipIdx.mapM fun out => allocateOutput out.1 seqLen (dataPtr out.2)

/-! ## Execution -/

/-- A descriptor in the words that the kernel left: the two pointers and the sizes. -/
def readSretDescriptor (slice : List Int) (rank : Nat) : Except String (Int × Int × List Int) :=
  if slice.length < 3 + 2 * rank then
    .error s!"sret slice too short: {8 * slice.length} < {24 + rank * 16} (rank {rank})"
  else if slice.getD 1 0 = 0 then .error s!"sret aligned pointer is null (rank {rank})"
  else .ok (slice.getD 0 0, slice.getD 1 0, (slice.drop 3).take rank)

variable (sizes : List Int)

/-- The elements of the returned sizes; negative ones count as zero. -/
def checkedProductFromI64 : Option Nat :=
  checkedProductUsize (sizes.map Int.toNat)

/-- What `execute` returns for an output, and how many bytes it copied. -/
structure ExecutedOutput where
  sizes : List Int
  copied : Nat
deriving DecidableEq, Repr

/-- One output of `execute`, behind the descriptor that the kernel left. -/
def copyOutput (oi : Nat) (buf : OutputBuffer) (aligned : Int) (sizes : List Int) :
    Except String ExecutedOutput :=
  match checkedProductFromI64 sizes with
  | none => .error s!"output {oi} sret sizes overflow: {sizes}"
  | some n =>
    if sizes.any (fun s => s < 0) then
      -- unresolved markers: what the buffer holds is copied
      let nBytes := buf.numel * buf.elemSize % 2 ^ 64
      .ok ⟨sizes, if 0 < nBytes ∧ nBytes ≤ buf.byteLen then nBytes else 0⟩
    else
      let nBytes := n * buf.elemSize % 2 ^ 64
      if nBytes = 0 then .ok ⟨sizes, 0⟩
      else if buf.byteLen < nBytes then
        .error (s!"output {oi}: dylib output {nBytes} bytes exceeds buffer capacity " ++
          s!"{buf.byteLen} bytes")
      else if aligned = buf.dataPtr then .ok ⟨sizes, 0⟩
      else .ok ⟨sizes, nBytes⟩

/-- The first pass of `execute` over the outputs from `oi` on, at a byte offset. -/
def parseOutputs (sret : List Int) : Nat → Nat → List OutputBuffer →
    Except String (List ExecutedOutput)
  | _, _, [] => .ok []
  | oi, offset, buf :: rest =>
    if 8 * sret.length - 24 ≤ offset then
      .error s!"sret overflow at output {oi} (offset {offset} >= {8 * sret.length})"
    else if ¬ (1 ≤ buf.rank ∧ buf.rank ≤ 4) then
      .error s!"output {oi}: unsupported rank {buf.rank} for sret parsing"
    else if 8 * sret.length < offset + (24 + 16 * buf.rank) then
      .error (s!"sret overflow at output {oi} (offset {offset} + {24 + 16 * buf.rank} > " ++
        s!"{8 * sret.length})")
    else do
      let desc ← readSretDescriptor ((sret.drop (offset / 8)).take (3 + 2 * buf.rank)) buf.rank
      let out ← copyOutput oi buf desc.2.1 desc.2.2
      let outs ← parseOutputs sret (oi + 1) (offset + (24 + 16 * buf.rank)) rest
      .ok (out :: outs)

/-- `CpuExecutable::execute`, behind the call of the kernel. -/
def executeOutputs (bufs : List OutputBuffer) (sret : List Int) :
    Except String (List ExecutedOutput) :=
  parseOutputs sret 0 0 bufs

/-! ## Extraction -/

/-- The declared dims at extraction: the first zero is the batch, the others the length. -/
def fallbackDims (seqLen : Nat) (firstZero : Bool) : List Nat → List Nat
  | [] => []
  | d :: rest =>
    if d = 0 then (if firstZero then 1 else seqLen) :: fallbackDims seqLen false rest
    else d :: fallbackDims seqLen firstZero rest

/-- A returned size that is taken as it is. -/
def Usable (r : Int) : Prop := 0 < r ∧ r ≤ 1000000000

instance : DecidablePred Usable := fun r => inferInstanceAs (Decidable (0 < r ∧ r ≤ 1000000000))

/-- A returned size out of range is replaced by the declared one. -/
def pickSize (r : Int) (f : Nat) : Nat := if r ≤ 0 ∨ 1000000000 < r then f else r.toNat

/-- A tensor as it is read from its buffer: the shape, and the number of elements. -/
structure ExtractedTensor where
  shape : List Nat
  numel : Nat
deriving DecidableEq, Repr

/-- The tensor that is read from a buffer, by the returned sizes. -/
def extractOutputTensor (shapes : List Int) (io : GraphTensorDef) (seqLen : Nat) :
    ExtractedTensor :=
  let sizes := zipWith pickSize shapes (fallbackDims seqLen true io.shape)
  { shape := sizes, numel := sizes.prod % 2 ^ 64 }

/-- An output is read within its buffer, and markers are resolved to its shape. -/
structure OutputAgrees (seqLen : Nat) (buf : OutputBuffer) (out : ExecutedOutput) : Prop where
  within : (extractOutputTensor out.sizes io seqLen).numel ≤ buf.numel
  resolved : (∃ s ∈ out.sizes, s < 0) →
    (extractOutputTensor out.sizes io seqLen).shape = buf.shape ∧
      out.copied = (extractOutputTensor out.sizes io seqLen).numel * buf.elemSize

/-! ## Accepted descriptors -/

section Execute

variable {buf : OutputBuffer} {bufs : List OutputBuffer} {sret : List Int} {sizes : List Int}
  {out : ExecutedOutput} {outs : List ExecutedOutput}

theorem length_readSretDescriptor {slice : List Int} {rank : Nat} {allocated aligned : Int}
    (h : readSretDescriptor slice rank = .ok (allocated, aligned, sizes)) :
    sizes.length = rank := by
  unfold readSretDescriptor at h
  split at h
  · cases h
  · split at h
    · cases h
    · cases h
      rw [length_take, length_drop]
      omega

/-- What `execute` has checked of an output that it returns. -/
structure Accepted (buf : OutputBuffer) (out : ExecutedOutput) : Prop where
  length : out.sizes.length = buf.rank
  bounded : (out.sizes.map Int.toNat).prod < 2 ^ 64
  copied : (∃ s ∈ out.sizes, s < 0) → buf.numel * buf.elemSize < 2 ^ 64 →
    out.copied = if buf.numel * buf.elemSize ≤ buf.byteLen then buf.numel * buf.elemSize else 0
  capacity : (∀ s ∈ out.sizes, 0 ≤ s) →
    (out.sizes.map Int.toNat).prod * buf.elemSize % 2 ^ 64 ≤ buf.byteLen

theorem copyOutput_accepted {oi : Nat} {aligned : Int} (hlen : sizes.length = buf.rank)
    (h : copyOutput oi buf aligned sizes = .ok out) : out.sizes = sizes ∧ Accepted buf out := by
  unfold copyOutput at h
  split at h
  · cases h
  · rename_i n hproduct
    obtain ⟨rfl, hlt⟩ := checkedProductUsize_eq_some hproduct
    by_cases hnegative : sizes.any (fun s => s < 0) = true
    · rw [if_pos hnegative] at h
      cases h
      refine ⟨rfl, hlen, hlt, fun _ hbytes => ?_, fun hnonneg => ?_⟩
      · -- an empty buffer copies its zero bytes either way
        dsimp only
        rw [Nat.mod_eq_of_lt hbytes]
        split <;> split <;> omega
      · obtain ⟨s, hs, hlt⟩ := any_eq_true.1 hnegative
        exact absurd (hnonneg s hs) (not_le.2 (of_decide_eq_true hlt))
    · rw [if_neg hnegative] at h
      have hnone : ¬ ∃ s ∈ sizes, s < 0 := by
        rintro ⟨s, hs, hlt⟩
        exact hnegative (any_eq_true.2 ⟨s, hs, decide_eq_true hlt⟩)
      dsimp only at h
      split at h
      · rename_i hzero
        cases h
        exact ⟨rfl, hlen, hlt, fun hneg => absurd hneg hnone,
          fun _ => hzero.trans_le (Nat.zero_le _)⟩
      · split at h
        · cases h
        · rename_i hcapacity
          split at h
          · cases h
            exact ⟨rfl, hlen, hlt, fun hneg => absurd hneg hnone, fun _ => not_lt.1 hcapacity⟩
          · cases h
            exact ⟨rfl, hlen, hlt, fun hneg => absurd hneg hnone, fun _ => not_lt.1 hcapacity⟩

theorem parseOutputs_accepted {oi offset : Nat} (h : parseOutputs sret oi offset bufs = .ok outs) :
    Forall₂ Accepted bufs outs := by
  induction bufs generalizing oi offset outs with
  | nil =>
    cases h
    exact .nil
  | cons buf rest ih =>
    rw [parseOutputs] at h
    split at h
    · cases h
    · split at h
      · cases h
      · split at h
        · cases h
        · obtain ⟨⟨allocated, aligned, sizes⟩, hdesc, h⟩ := bind_eq_ok h
          obtain ⟨out, hcopy, h⟩ := bind_eq_ok h
          obtain ⟨outs', hrest, h⟩ := bind_eq_ok h
          cases h
          have hlen : sizes.length = buf.rank := length_readSretDescriptor hdesc
          exact .cons (copyOutput_accepted hlen hcopy).2 (ih hrest)

end Execute

/-! ## When the shapes agree -/

/-- A usable size is the dim of the buffer, and any other resolves alike under both rules. -/
def DimAgrees (seqLen i d : Nat) (r : Int) : Prop :=
  if Usable r then
    r = ((if d ≠ 0 then d else if i = 0 ∧ firstZeroIsBatch shape = true then 1 else seqLen : Nat) :
      Int)
  else d ≠ 0 ∨ 0 ∈ shape.take i ∨ (i = 0 ∧ firstZeroIsBatch shape = true) ∨ seqLen = 1

/-- The same for a fall-back allocation, whose dims are `2097152, 1, ..`. -/
def FallbackDimAgrees (seqLen i d : Nat) (r : Int) : Prop :=
  if Usable r then r = if i = 0 then 2097152 else 1
  else 0 < i ∧ (d = 1 ∨ d = 0 ∧ (0 ∉ shape.take i ∨ seqLen = 1))

/-- Negative sizes stand where extraction and allocation resolve the dim alike. -/
def MarkersAgree (seqLen : Nat) (sizes : List Int) : Prop :=
  ∀ i d r, shape[i]? = some d → sizes[i]? = some r →
    if unresolvable shape then FallbackDimAgrees shape seqLen i d r
    else DimAgrees shape seqLen i d r

/-- The dims whose size is not usable. -/
def replacedDims : List (Nat × Int) :=
  (shape.zip sizes).filter fun p => ¬ Usable p.2

/-- Zero dims among the replaced ones that count as the sequence: all but the first. -/
def replacedZeros : Nat :=
  ((replacedDims shape sizes).map Prod.fst).count 0 -
    if ((shape.zip sizes).find? fun p => p.1 = 0).any (fun p => ¬ Usable p.2) then 1 else 0

/-- The elements that the sizes stand for, with the sequence at markers. -/
def readNumel (seqLen : Nat) (sizes : List Int) : Nat :=
  ((sizes.filter fun r => Usable r).map Int.toNat).prod *
    ((((replacedDims shape sizes).map Prod.fst).filter (· ≠ 0)).prod *
      seqLen ^ replacedZeros shape sizes)

/-- The elements that an output declares: every zero counts as the sequence but a leading batch. -/
def declaredNumel (seqLen : Nat) : Nat :=
  (shape.filter (· ≠ 0)).prod * seqLen ^ (shape.count 0 - if firstZeroIsBatch shape then 1 else 0)

/-- The elements that are allocated for an output. -/
def allocatedNumel (seqLen : Nat) : Nat :=
  if unresolvable io.shape then fallbackNumel else declaredNumel io.shape seqLen % 2 ^ 64

/-- Where the three functions agree on an output: markers resolve alike and the capacity is
    not clamped below the allocation, or no wrap hides that the sizes exceed it. -/
def SizesFit (seqLen : Nat) (sizes : List Int) : Prop :=
  let capacity := memrefNumel (finalShape io seqLen)
  if ∃ r ∈ sizes, r < 0 then
    MarkersAgree io.shape seqLen sizes ∧ (capacity = some 0 → allocatedNumel io seqLen = 0)
  else if ∀ r ∈ sizes, Usable r then
    if capacity = none then (sizes.map Int.toNat).prod ≤ allocatedNumel io seqLen
    else (sizes.map Int.toNat).prod * io.dtype.bufferElemSize < 2 ^ 64
  else readNumel io.shape seqLen sizes % 2 ^ 64 ≤ allocatedNumel io seqLen

section Shapes

variable {shape : List Nat} {seqLen : Nat} {sizes : List Int} {r : Int} {f i d : Nat}

theorem pickSize_usable (h : Usable r) : pickSize r f = r.toNat := by
  unfold Usable at h
  rw [pickSize, if_neg (by omega)]

theorem pickSize_replaced (h : ¬ Usable r) : pickSize r f = f := by
  unfold Usable at h
  rw [pickSize, if_pos (by omega)]

theorem getElem?_fallbackDims (seqLen : Nat) (firstZero : Bool) (shape : List Nat) (i : Nat) :
    (fallbackDims seqLen firstZero shape)[i]? = shape[i]?.map fun d =>
      if d = 0 then (if firstZero = true ∧ 0 ∉ shape.take i then 1 else seqLen) else d := by
  induction shape generalizing firstZero i with
  | nil => rfl
  | cons d rest ih =>
    rw [fallbackDims]
    by_cases hd : d = 0
    · rw [if_pos hd]
      cases i with
      | zero => simp [hd]
      | succ =>
        rw [getElem?_cons_succ, ih, getElem?_cons_succ, take_succ_cons]
        simp [hd]
    · rw [if_neg hd]
      cases i with
      | zero => simp [hd]
      | succ =>
        rw [getElem?_cons_succ, ih, getElem?_cons_succ, take_succ_cons]
        simp [Ne.symm hd]

theorem resolvedDims_cons (d : Nat) (rest : List Nat) (seqLen : Nat) :
    resolvedDims (d :: rest) seqLen =
      (if d = 0 then (if firstZeroIsBatch (d :: rest) = true then 1 else seqLen) else d) ::
        rest.map fun d => if d = 0 then seqLen else d := by
  unfold resolvedDims
  rw [mapIdx_cons]
  simp only [true_and, Nat.add_eq_zero_iff, Nat.one_ne_zero, and_false, false_and, if_false]
  refine congrArg _ (ext_getElem? fun i => ?_)
  rw [getElem?_mapIdx, getElem?_map]

theorem prod_extracted (firstZero : Bool) (hlen : sizes.length = shape.length) :
    (zipWith pickSize sizes (fallbackDims seqLen firstZero shape)).prod =
      ((sizes.filter fun r => Usable r).map Int.toNat).prod *
        ((((replacedDims shape sizes).map Prod.fst).filter (· ≠ 0)).prod *
          seqLen ^ (((replacedDims shape sizes).map Prod.fst).count 0 - if firstZero = true ∧
              ((shape.zip sizes).find? fun p => p.1 = 0).any (fun p => ¬ Usable p.2) = true
            then 1 else 0)) := by
  induction shape generalizing sizes firstZero with
  | nil =>
    obtain rfl : sizes = [] := length_eq_zero_iff.1 hlen
    simp [replacedDims, fallbackDims]
  | cons d rest ih =>
    obtain ⟨r, sizes, rfl⟩ := exists_cons_of_length_eq_add_one hlen
    have hrest : sizes.length = rest.length := Nat.succ.inj hlen
    have hreplaced : replacedDims (d :: rest) (r :: sizes) =
        if Usable r then replacedDims rest sizes else (d, r) :: replacedDims rest sizes := by
      by_cases hr : Usable r <;> simp [replacedDims, hr]
    rw [fallbackDims, hreplaced]
    by_cases hr : Usable r
    · rw [if_pos hr, filter_cons_of_pos (by simpa using hr), map_cons, prod_cons, mul_assoc]
      by_cases hd : d = 0
      · -- the first zero is usable, the others count
        rw [if_pos hd, zipWith_cons_cons, prod_cons, pickSize_usable hr, ih false hrest]
        simp [hd, hr]
      · rw [if_neg hd, zipWith_cons_cons, prod_cons, pickSize_usable hr, ih firstZero hrest]
        simp [hd]
    · rw [if_neg hr, filter_cons_of_neg (by simpa using hr)]
      by_cases hd : d = 0
      · rw [if_pos hd, zipWith_cons_cons, prod_cons, pickSize_replaced hr, ih false hrest]
        cases firstZero with
        | true => simp [hd, hr]
        | false =>
          simp only [hd, map_cons, count_cons_self, Bool.false_eq_true, false_and,
            if_false, Nat.sub_zero, Nat.pow_succ, ne_eq, not_true_eq_false, decide_false,
            filter_cons_of_neg, not_false_eq_true]
          ring
      · rw [if_neg hd, zipWith_cons_cons, prod_cons, pickSize_replaced hr, ih firstZero hrest]
        simp only [map_cons, ne_eq, hd, not_false_eq_true, decide_true,
          filter_cons_of_pos, prod_cons, count_cons_of_ne, zip_cons_cons,
          decide_false, Bool.false_eq_true, find?_cons_of_neg]
        ring

theorem prod_resolvedDims (seqLen : Nat) :
    (resolvedDims shape seqLen).prod = declaredNumel shape seqLen := by
  have hmap : ∀ rest : List Nat, (rest.map fun d => if d = 0 then seqLen else d).prod =
      (rest.filter (· ≠ 0)).prod * seqLen ^ rest.count 0 := by
    intro rest
    induction rest with
    | nil => rfl
    | cons d rest ih =>
      rw [map_cons, prod_cons, ih]
      by_cases hd : d = 0
      · simp only [hd, if_true, count_cons_self, Nat.pow_succ, ne_eq, not_true_eq_false,
          decide_false, filter_cons_of_neg, Bool.false_eq_true, not_false_eq_true]
        ring
      · simp only [hd, if_false, ne_eq, not_false_eq_true, decide_true, filter_cons_of_pos,
          prod_cons, count_cons_of_ne]
        ring
  cases shape with
  | nil => rfl
  | cons d rest =>
    rw [resolvedDims_cons, prod_cons, hmap, declaredNumel]
    by_cases hd : d = 0
    · subst hd
      cases hbatch : firstZeroIsBatch (0 :: rest) with
      | true => simp
      | false =>
        simp only [if_true, Bool.false_eq_true, if_false, count_cons_self, Nat.sub_zero,
          Nat.pow_succ, ne_eq, not_true_eq_false, decide_false, filter_cons_of_neg,
          not_false_eq_true]
        ring
    · have hbatch : firstZeroIsBatch (d :: rest) = false := by simp [firstZeroIsBatch, hd]
      simp only [hd, hbatch, if_false, ne_eq, not_false_eq_true, decide_true,
        filter_cons_of_pos, prod_cons, count_cons_of_ne, Bool.false_eq_true,
        Nat.sub_zero]
      ring

theorem zipWith_pickSize_eq_iff {fallback final : List Nat} {fb fin : Nat → Nat → Nat}
    (hlen : sizes.length = shape.length) (hfallback : ∀ i, fallback[i]? = shape[i]?.map (fb i))
    (hfinal : ∀ i, final[i]? = shape[i]?.map (fin i)) :
    zipWith pickSize sizes fallback = final ↔
      ∀ i d r, shape[i]? = some d → sizes[i]? = some r → pickSize r (fb i d) = fin i d := by
  have hget : ∀ i d r, shape[i]? = some d → sizes[i]? = some r →
      (zipWith pickSize sizes fallback)[i]? = some (pickSize r (fb i d)) ∧
        final[i]? = some (fin i d) := by
    intro i d r hd hr
    rw [getElem?_zipWith, hfallback, hfinal, hd, hr]
    exact ⟨rfl, rfl⟩
  constructor
  · intro heq i d r hd hr
    obtain ⟨hleft, hright⟩ := hget i d r hd hr
    rw [heq, hright] at hleft
    exact (Option.some.inj hleft).symm
  · refine fun hall => ext_getElem? fun i => ?_
    by_cases hi : i < shape.length
    · have hd : shape[i]? = some shape[i] := getElem?_eq_getElem hi
      have hi' : i < sizes.length := hlen ▸ hi
      have hr : sizes[i]? = some sizes[i] := getElem?_eq_getElem hi'
      obtain ⟨hleft, hright⟩ := hget i _ _ hd hr
      rw [hleft, hright, hall i _ _ hd hr]
    · -- behind the end of both
      have hd : shape[i]? = none := getElem?_eq_none (not_lt.1 hi)
      rw [getElem?_zipWith, hfallback, hfinal, hd]
      cases sizes[i]? <;> rfl

theorem dimAgrees_iff :
    pickSize r (if d = 0 then (if true = true ∧ 0 ∉ shape.take i then 1 else seqLen) else d) =
        (if d = 0 then (if i = 0 ∧ firstZeroIsBatch shape = true then 1 else seqLen) else d) ↔
      DimAgrees shape seqLen i d r := by
  unfold DimAgrees
  by_cases hr : Usable r
  · rw [pickSize_usable hr, if_pos hr]
    have hpos : 0 < r := hr.1
    by_cases hd : d = 0
    · rw [if_pos hd, if_neg (not_not.2 hd)]
      omega
    · rw [if_neg hd, if_pos hd]
      omega
  · rw [pickSize_replaced hr, if_neg hr]
    by_cases hd : d = 0
    · rw [if_pos hd, if_pos hd]
      by_cases hbefore : 0 ∈ shape.take i
      · -- a zero behind another is not the first dim
        have hi : i ≠ 0 := by
          rintro rfl
          rw [take_zero] at hbefore
          exact not_mem_nil hbefore
        simp [hbefore, hi]
      · by_cases hbatch : i = 0 ∧ firstZeroIsBatch shape = true
        · simp [hbatch.1, hbatch.2]
        · rw [if_pos ⟨rfl, hbefore⟩, if_neg hbatch]
          simp only [hd, ne_eq, not_true_eq_false, hbefore, hbatch, false_or]
          exact eq_comm
    · simp [hd]

theorem head_of_unresolvable (h : unresolvable shape = true)
    (hd : shape[0]? = some d) : d = 0 ∨ d = 1 := by
  rw [unresolvable, Bool.or_eq_true] at h
  rcases h with hall | hambiguous
  · left
    simpa using all_eq_true.1 hall d (mem_of_getElem? hd)
  · right
    simp only [hd, Bool.and_eq_true, beq_iff_eq, Option.some_inj] at hambiguous
    exact hambiguous.1.1

theorem fallbackDimAgrees_iff (h : unresolvable shape = true) (hd : shape[i]? = some d) :
    pickSize r (if d = 0 then (if true = true ∧ 0 ∉ shape.take i then 1 else seqLen) else d) =
        (if i = 0 then fallbackNumel else 1) ↔
      FallbackDimAgrees shape seqLen i d r := by
  unfold FallbackDimAgrees
  by_cases hr : Usable r
  · rw [pickSize_usable hr, if_pos hr]
    have hpos : 0 < r := hr.1
    unfold fallbackNumel
    split <;> omega
  · rw [pickSize_replaced hr, if_neg hr]
    by_cases hi : i = 0
    · -- the leading dim is never resolved to two million elements
      subst hi
      have hhead := head_of_unresolvable h hd
      refine iff_of_false (fun heq => ?_) (fun hboth => absurd hboth.1 (lt_irrefl 0))
      rcases hhead with rfl | rfl
      · simp [fallbackNumel] at heq
      · simp [fallbackNumel] at heq
    · have hpos : 0 < i := Nat.pos_of_ne_zero hi
      rw [if_neg hi]
      by_cases hzero : d = 0
      · by_cases hbefore : 0 ∈ shape.take i
        · simp [hzero, hbefore, hpos]
        · simp [hzero, hbefore, hpos]
      · simp [hzero, hpos]

end Shapes

/-! ## Reads within the allocation -/

section Output

variable {io : GraphTensorDef} {seqLen : Nat} {dataPtr : Int} {buf : OutputBuffer}
  {out : ExecutedOutput}

theorem allocateOutput_eq_some (h : allocateOutput io seqLen dataPtr = some buf) :
    buf = ⟨finalShape io seqLen, io.dtype.bufferElemSize, dataPtr⟩ ∧
      buf.numel * buf.elemSize < 2 ^ 63 := by
  unfold allocateOutput at h
  dsimp only at h
  split at h
  · rename_i hfits
    cases h
    exact ⟨rfl, hfits.1⟩
  · cases h

theorem finalShape_fallback (h : unresolvable io.shape = true) (hrank : io.rank = io.shape.length)
    (hpos : 1 ≤ io.rank) (hle : io.rank ≤ 4) :
    finalShape io seqLen = fallbackNumel :: replicate (io.shape.length - 1) 1 := by
  rw [finalShape, if_pos h, if_pos hpos, ← hrank]
  generalize io.rank = rank at hpos hle
  interval_cases rank <;> rfl

theorem length_finalShape (hrank : io.rank = io.shape.length) (hpos : 1 ≤ io.rank)
    (hle : io.rank ≤ 4) : (finalShape io seqLen).length = io.shape.length := by
  cases h : unresolvable io.shape with
  | true =>
    rw [finalShape_fallback h hrank hpos hle, length_cons, length_replicate]
    omega
  | false => simp [finalShape, h, resolvedDims]

theorem prod_finalShape (hrank : io.rank = io.shape.length) (hpos : 1 ≤ io.rank)
    (hle : io.rank ≤ 4) : (finalShape io seqLen).prod % 2 ^ 64 = allocatedNumel io seqLen := by
  unfold allocatedNumel
  cases h : unresolvable io.shape with
  | true =>
    rw [finalShape_fallback h hrank hpos hle, prod_cons, prod_replicate, Nat.one_pow, if_pos rfl]
    rfl
  | false =>
    rw [finalShape, h, if_neg Bool.false_ne_true, prod_resolvedDims, if_neg Bool.false_ne_true]

/-- The shape that is read is the shape of the buffer exactly if every size agrees. -/
theorem extracted_shape_eq_iff {sizes : List Int} (hlen : sizes.length = io.shape.length)
    (hrank : io.rank = io.shape.length) (hpos : 1 ≤ io.rank) (hle : io.rank ≤ 4) :
    (extractOutputTensor sizes io seqLen).shape = finalShape io seqLen ↔
      MarkersAgree io.shape seqLen sizes := by
  unfold MarkersAgree
  cases h : unresolvable io.shape with
  | true =>
    have hfinal : ∀ i, (finalShape io seqLen)[i]? =
        io.shape[i]?.map fun _ => if i = 0 then fallbackNumel else 1 := by
      intro i
      rw [finalShape_fallback h hrank hpos hle]
      cases i with
      | zero =>
        have hlt : 0 < io.shape.length := hrank ▸ hpos
        have hhead : io.shape[0]? = some io.shape[0] := getElem?_eq_getElem hlt
        rw [hhead]
        rfl
      | succ i =>
        rw [getElem?_cons_succ, getElem?_replicate]
        by_cases hi : i + 1 < io.shape.length
        · rw [getElem?_eq_getElem hi, if_pos (by omega), Option.map_some,
            if_neg (Nat.succ_ne_zero i)]
        · rw [getElem?_eq_none (not_lt.1 hi), if_neg (by omega), Option.map_none]
    refine (zipWith_pickSize_eq_iff hlen (getElem?_fallbackDims seqLen true io.shape)
      hfinal).trans ?_
    refine forall_congr' fun i => forall_congr' fun d => forall_congr' fun r =>
      forall_congr' fun hd => imp_congr_right fun _ => ?_
    rw [if_pos rfl]
    exact fallbackDimAgrees_iff h hd
  | false =>
    have hfinal : ∀ i, (finalShape io seqLen)[i]? = io.shape[i]?.map fun d =>
        if d = 0 then (if i = 0 ∧ firstZeroIsBatch io.shape = true then 1 else seqLen)
        else d := by
      intro i
      rw [finalShape, h, if_neg Bool.false_ne_true, resolvedDims, getElem?_mapIdx]
    refine (zipWith_pickSize_eq_iff hlen (getElem?_fallbackDims seqLen true io.shape)
      hfinal).trans ?_
    refine forall_congr' fun i => forall_congr' fun d => forall_congr' fun r =>
      forall_congr' fun _ => imp_congr_right fun _ => ?_
    rw [if_neg Bool.false_ne_true]
    exact dimAgrees_iff

theorem readNumel_usable {sizes : List Int} (h : ∀ r ∈ sizes, Usable r) (shape : List Nat)
    (seqLen : Nat) : readNumel shape seqLen sizes = (sizes.map Int.toNat).prod := by
  have hnone : replacedDims shape sizes = [] := by
    refine filter_eq_nil_iff.2 fun p hp => ?_
    have hsize : p.2 ∈ sizes := (of_mem_zip (show (p.1, p.2) ∈ shape.zip sizes from hp)).2
    simp [h p.2 hsize]
  have hall : (sizes.filter fun r => Usable r) = sizes :=
    filter_eq_self.2 fun r hr => decide_eq_true (h r hr)
  simp [readNumel, replacedZeros, hnone, hall]

/-- A checked product of the dims is the allocation, but for a dim that counts as zero. -/
theorem memrefNumel_eq_some {shape : List Nat} {m : Nat} (h : memrefNumel shape = some m) :
    m = shape.prod % 2 ^ 64 ∨ m = 0 := by
  obtain ⟨rfl, hlt⟩ := checkedProductUsize_eq_some h
  by_cases hsmall : ∀ d ∈ shape, d < 2 ^ 63
  · left
    have hid : (shape.map fun d => if d < 2 ^ 63 then d else 0) = shape := by
      conv_rhs => rw [← map_id shape]
      exact map_congr_left fun d hd => if_pos (hsmall d hd)
    rw [hid] at hlt ⊢
    exact (Nat.mod_eq_of_lt hlt).symm
  · right
    simp only [not_forall] at hsmall
    obtain ⟨d, hd, hbig⟩ := hsmall
    exact prod_eq_zero_iff.2 (mem_map.2 ⟨d, hd, if_neg hbig⟩)

section Capacity

variable (helem : buf.elemSize ∈ [2, 4, 8]) (hbytes : buf.numel * buf.elemSize < 2 ^ 63)

include hbytes

/-- The capacity is saturated, or that of the allocation, or clamped to zero. -/
theorem byteLen_cases :
    (memrefNumel buf.shape = none ∧ buf.byteLen = (2 ^ 64 - 1) * buf.elemSize % 2 ^ 64) ∨
    (memrefNumel buf.shape = some buf.numel ∧ buf.byteLen = buf.numel * buf.elemSize) ∨
    (memrefNumel buf.shape = some 0 ∧ buf.byteLen = 0) := by
  unfold OutputBuffer.byteLen
  cases hm : memrefNumel buf.shape with
  | none => exact .inl ⟨rfl, rfl⟩
  | some =>
    rcases memrefNumel_eq_some hm with rfl | rfl
    · exact .inr (.inl ⟨rfl, Nat.mod_eq_of_lt (hbytes.trans (by norm_num))⟩)
    · exact .inr (.inr ⟨rfl, by rw [Option.getD_some, zero_mul, Nat.zero_mod]⟩)

include helem

/-- The whole buffer is copied for markers unless its capacity is clamped. -/
theorem copied_eq_iff :
    (if buf.numel * buf.elemSize ≤ buf.byteLen then buf.numel * buf.elemSize else 0) =
        buf.numel * buf.elemSize ↔
      (memrefNumel buf.shape = some 0 → buf.numel = 0) := by
  simp only [mem_cons, not_mem_nil, or_false] at helem
  rcases byteLen_cases hbytes with ⟨hm, hlen⟩ | ⟨hm, hlen⟩ | ⟨hm, hlen⟩
  · rw [hm, hlen, if_pos (by rcases helem with h | h | h <;> rw [h] at hbytes ⊢ <;> omega)]
    simp
  · rw [hm, hlen, if_pos le_rfl]
    simp
  · rw [hm, hlen]
    rcases helem with h | h | h <;> rw [h] <;> split <;> simp <;> omega

/-- Among accepted sizes the byte count wraps exactly when they exceed the allocation. -/
theorem le_numel_iff {n : Nat} (hn : 1 ≤ n) (hcap : n * buf.elemSize % 2 ^ 64 ≤ buf.byteLen) :
    n ≤ buf.numel ↔
      if memrefNumel buf.shape = none then n ≤ buf.numel else n * buf.elemSize < 2 ^ 64 := by
  simp only [mem_cons, not_mem_nil, or_false] at helem
  rcases byteLen_cases hbytes with ⟨hm, hlen⟩ | ⟨hm, hlen⟩ | ⟨hm, hlen⟩
  · rw [if_pos hm]
  · rw [hm, if_neg (by simp)]
    rw [hlen] at hcap
    rcases helem with h | h | h <;> rw [h] at hbytes hcap ⊢ <;> omega
  · rw [hm, if_neg (by simp)]
    rw [hlen] at hcap
    rcases helem with h | h | h <;> rw [h] at hbytes hcap ⊢ <;> omega

end Capacity

/-- An accepted output agrees with its buffer exactly if its sizes fit. -/
theorem Accepted.agrees_iff (h : Accepted buf out)
    (halloc : allocateOutput io seqLen dataPtr = some buf) (hrank : io.rank = io.shape.length)
    (hpos : 1 ≤ io.rank) (hle : io.rank ≤ 4) :
    OutputAgrees io seqLen buf out ↔ SizesFit io seqLen out.sizes := by
  obtain ⟨hbuf, hbytes⟩ := allocateOutput_eq_some halloc
  have hshape : buf.shape = finalShape io seqLen := congrArg OutputBuffer.shape hbuf
  have hsize : buf.elemSize = io.dtype.bufferElemSize := congrArg OutputBuffer.elemSize hbuf
  have helem : buf.elemSize ∈ [2, 4, 8] := by
    rw [hsize]
    cases io.dtype <;> decide
  have hnumel : buf.numel = allocatedNumel io seqLen := by
    rw [OutputBuffer.numel, hshape, prod_finalShape hrank hpos hle]
  have hlen : out.sizes.length = io.shape.length := by
    rw [h.length, OutputBuffer.rank, hshape, length_finalShape hrank hpos hle]
  have hread : (extractOutputTensor out.sizes io seqLen).numel =
      readNumel io.shape seqLen out.sizes % 2 ^ 64 := by
    show (zipWith pickSize out.sizes (fallbackDims seqLen true io.shape)).prod % 2 ^ 64 = _
    rw [prod_extracted true hlen]
    simp only [true_and, readNumel, replacedZeros]
  unfold SizesFit
  dsimp only
  rw [← hshape, ← hnumel, ← hsize]
  by_cases hneg : ∃ s ∈ out.sizes, s < 0
  · rw [if_pos hneg, ← extracted_shape_eq_iff hlen hrank hpos hle, ← hshape,
      ← copied_eq_iff helem hbytes, ← h.copied hneg (by omega)]
    -- equal shapes have equally many elements
    have hread' : (extractOutputTensor out.sizes io seqLen).shape = buf.shape →
        (extractOutputTensor out.sizes io seqLen).numel = buf.numel :=
      fun heq => congrArg (fun dims => dims.prod % 2 ^ 64) heq
    constructor
    · intro hagrees
      obtain ⟨heq, hcopied⟩ := hagrees.resolved hneg
      exact ⟨heq, hcopied.trans (by rw [hread' heq])⟩
    · rintro ⟨heq, hcopied⟩
      exact ⟨(hread' heq).le, fun _ => ⟨heq, hcopied.trans (by rw [hread' heq])⟩⟩
  · rw [if_neg hneg]
    have hwithin : OutputAgrees io seqLen buf out ↔
        readNumel io.shape seqLen out.sizes % 2 ^ 64 ≤ buf.numel := by
      rw [← hread]
      exact ⟨fun hagrees => hagrees.within, fun hle => ⟨hle, fun hmarker => absurd hmarker hneg⟩⟩
    rw [hwithin]
    by_cases husable : ∀ r ∈ out.sizes, Usable r
    · rw [if_pos husable, readNumel_usable husable, Nat.mod_eq_of_lt h.bounded]
      have hone : 1 ≤ (out.sizes.map Int.toNat).prod := by
        refine List.prod_pos_iff_forall_pos_nat.2 fun d hd => ?_
        obtain ⟨r, hr, rfl⟩ := mem_map.1 hd
        have hr := (husable r hr).1
        omega
      exact le_numel_iff helem hbytes hone (h.capacity fun s hs => (husable s hs).1.le)
    · rw [if_neg husable]

end Output

/-- Every output is read within its buffer, markers resolved to its shape, if its sizes fit. -/
theorem outputsAgree_iff {func : FuncDef} {seqLen : Nat} {dataPtr : Nat → Int}
    {bufs : List OutputBuffer} {sret : List Int} {outs : List ExecutedOutput} {oi : Nat}
    {io : GraphTensorDef} {buf : OutputBuffer} {out : ExecutedOutput}
    (halloc : allocateOutputBuffers func seqLen dataPtr = some bufs)
    (hexec : executeOutputs bufs sret = .ok outs) (hio : func.outputs[oi]? = some io)
    (hbuf : bufs[oi]? = some buf) (hout : outs[oi]? = some out)
    (hrank : io.rank = io.shape.length) (hpos : 1 ≤ io.rank) (hle : io.rank ≤ 4) :
    OutputAgrees io seqLen buf out ↔ SizesFit io seqLen out.sizes := by
  have hallocated : allocateOutput io seqLen (dataPtr oi) = some buf := by
    have hpair : func.outputs.zipIdx[oi]? = some (io, oi) := by
      rw [getElem?_zipIdx, hio, zero_add]
      rfl
    exact rel_of_getElem? (mapM_eq_some_forall₂.1 halloc) hpair hbuf
  have haccepted : Accepted buf out := rel_of_getElem? (parseOutputs_accepted hexec) hbuf hout
  exact haccepted.agrees_iff hallocated hrank hpos hle

/-! ## Outputs that agree, and outputs that do not -/

def f32Output : GraphTensorDef where
  consumedInternally := false
  rank := shape.length
  shape := shape
  dtype := .f32

def oneOutput : FuncDef where
  index := 0
  symbol := "main"
  numInputs := 0
  numOutputs := 1
  inputs := []
  outputs := [f32Output shape]
  consumedSubOutputFlags := []

/-- A buffer of 4096 bytes with one descriptor, aligned at address 1. -/
def sretOf : List Int :=
  let desc := [1, 1, 0] ++ sizes ++ sizes
  desc ++ replicate (512 - desc.length) 0

/-- Batch and sequence of a head tensor come back as markers. -/
theorem outputsAgree_iff_witness :
    allocateOutputBuffers (oneOutput [0, 4, 0, 2]) 3 (fun _ => 8) = some [⟨[1, 4, 3, 2], 4, 8⟩] ∧
      executeOutputs [⟨[1, 4, 3, 2], 4, 8⟩] (sretOf [-1, 4, -3, 2]) = .ok [⟨[-1, 4, -3, 2], 96⟩] ∧
      SizesFit (f32Output [0, 4, 0, 2]) 3 [-1, 4, -3, 2] := by
  have halloc : allocateOutputBuffers (oneOutput [0, 4, 0, 2]) 3 (fun _ => 8) =
      some [⟨[1, 4, 3, 2], 4, 8⟩] := by decide +kernel
  have hexec : executeOutputs [⟨[1, 4, 3, 2], 4, 8⟩] (sretOf [-1, 4, -3, 2]) =
      .ok [⟨[-1, 4, -3, 2], 96⟩] := by decide +kernel
  refine ⟨halloc, hexec, ?_⟩
  have hagrees : OutputAgrees (f32Output [0, 4, 0, 2]) 3 ⟨[1, 4, 3, 2], 4, 8⟩
      ⟨[-1, 4, -3, 2], 96⟩ := ⟨by decide, fun _ => ⟨by decide, by decide⟩⟩
  have hio : (oneOutput [0, 4, 0, 2]).outputs[0]? = some (f32Output [0, 4, 0, 2]) := rfl
  exact (outputsAgree_iff halloc hexec hio rfl rfl rfl (by decide) (by decide)).1 hagrees

/-- Two zero markers are read as `[1, 1, 1, 2]` from `[1, 1, 2, 2]`; sizes next to them leave
    it; an element is read from an allocation of none whose capacity saturates. -/
theorem outputsAgree_fails :
    (allocateOutputBuffers (oneOutput [1, 1, 0, 0]) 2 (fun _ => 8) = some [⟨[1, 1, 2, 2], 4, 8⟩] ∧
      executeOutputs [⟨[1, 1, 2, 2], 4, 8⟩] (sretOf [1, 1, -2, -3]) = .ok [⟨[1, 1, -2, -3], 16⟩] ∧
      extractOutputTensor [1, 1, -2, -3] (f32Output [1, 1, 0, 0]) 2 = ⟨[1, 1, 1, 2], 2⟩ ∧
      ¬ OutputAgrees (f32Output [1, 1, 0, 0]) 2 ⟨[1, 1, 2, 2], 4, 8⟩ ⟨[1, 1, -2, -3], 16⟩) ∧
    allocateOutputBuffers (oneOutput [2, 3]) 2 (fun _ => 8) = some [⟨[2, 3], 4, 8⟩] ∧
      (executeOutputs [⟨[2, 3], 4, 8⟩] (sretOf [-1, 1000]) = .ok [⟨[-1, 1000], 24⟩] ∧
        (extractOutputTensor [-1, 1000] (f32Output [2, 3]) 2).numel = 2000 ∧
        ¬ OutputAgrees (f32Output [2, 3]) 2 ⟨[2, 3], 4, 8⟩ ⟨[-1, 1000], 24⟩) ∧
      executeOutputs [⟨[2, 3], 4, 8⟩] (sretOf [0, 5]) = .ok [⟨[0, 5], 0⟩] ∧
        (extractOutputTensor [0, 5] (f32Output [2, 3]) 2).numel = 10 ∧
        ¬ OutputAgrees (f32Output [2, 3]) 2 ⟨[2, 3], 4, 8⟩ ⟨[0, 5], 0⟩ ∧
    let wide := [4294967296, 4294967296]
    allocateOutputBuffers (oneOutput wide) 1 (fun _ => 8) = some [⟨wide, 4, 8⟩] ∧
      executeOutputs [⟨wide, 4, 8⟩] (sretOf [1, 1]) = .ok [⟨[1, 1], 4⟩] ∧
      ¬ OutputAgrees (f32Output wide) 1 ⟨wide, 4, 8⟩ ⟨[1, 1], 4⟩ := by
  refine ⟨⟨by decide +kernel, by decide +kernel, by decide, fun h => ?_⟩, by decide +kernel,
    ⟨by decide +kernel, by decide, fun h => ?_⟩, by decide +kernel, by decide, fun h => ?_,
    by decide +kernel, by decide +kernel, fun h => ?_⟩
  · exact absurd (h.resolved (by decide)).1 (by decide)
  · exact absurd h.within (by decide)
  · exact absurd h.within (by decide)
  · exact absurd h.within (by decide)

end CompileForge.Runtime
