/-
  How `CpuExecutable::execute` walks over the descriptors of a result struct
  (`runtime/src/hal/cpu/executable.rs`), with the outputs that borrow an input.

  The kernel packs one descriptor of `24 + 16 * rank` bytes after another, with the ranks
  of the ABI; the walk steps with the ranks of the buffers, and nothing compares the two.
-/

import CompileForge.Runtime.Engine.OutputShapes

namespace CompileForge.Runtime

open Lib List

structure LoadedTensor where
  shape : List Nat
  dtype : Dtype
  dataPtr : Int
deriving DecidableEq, Repr

structure GraphBuffer extends OutputBuffer where
  passthroughAlias : Bool
deriving DecidableEq, Repr

/-- `SFATensor::from_borrowed_tensor`; `none` is a failed assertion. -/
def fromBorrowedTensor (tensor : LoadedTensor) : Option GraphBuffer :=
  if 1 ≤ tensor.shape.length ∧ tensor.shape.length ≤ 4 ∧
      tensor.dtype ∈ [Dtype.f32, .f16, .bf16] ∧ tensor.dataPtr ≠ 0 then
    some ⟨⟨tensor.shape, tensor.dtype.bufferElemSize, tensor.dataPtr⟩, true⟩
  else none

variable (aliases : List (Nat × Nat)) (inputs : List (Option LoadedTensor))

/-- The tensor of the weight that an output borrows. -/
def borrowedTensor (oi : Nat) (io : GraphTensorDef) : Option LoadedTensor :=
  ((aliases.lookup oi).bind fun inputIdx => inputs[inputIdx]?.join).filter fun tensor =>
    tensor.shape.prod % 2 ^ 64 = io.shape.prod % 2 ^ 64

def allocateGraphOutput
    (seqLen : Nat) (dataPtr : Nat → Int) (out : GraphTensorDef × Nat) : Option GraphBuffer :=
  match borrowedTensor aliases inputs out.2 out.1 with
  | some tensor => fromBorrowedTensor tensor
  | none => (allocateOutput out.1 seqLen (dataPtr out.2)).map fun buf => ⟨buf, false⟩

def allocateGraphOutputs (func : FuncDef) (aliases : List (Nat × Nat))
    (inputs : List (Option LoadedTensor)) (seqLen : Nat) (dataPtr : Nat → Int) :
    Option (List GraphBuffer) :=
  func.outputs.zipIdx.mapM (allocateGraphOutput aliases inputs seqLen dataPtr)

/-! ## The walk -/

def computeSretSize (ranks : List Nat) : Nat := max (ranks.map fun r => 24 + 16 * r).sum 4096

/-- A copy into a borrowed buffer is skipped, unless a size is a marker. -/
def copyGraphOutput (oi : Nat) (buf : GraphBuffer) (aligned : Int) (sizes : List Int) :
    Except String ExecutedOutput := do
  let out ← copyOutput oi buf.toOutputBuffer aligned sizes
  .ok (if buf.passthroughAlias ∧ ∀ s ∈ sizes, 0 ≤ s then { out with copied := 0 } else out)

/-- A descriptor that was read: its byte offset, the pointer and the sizes. -/
structure SretRead where
  offset : Nat
  aligned : Int
  sizes : List Int
deriving DecidableEq, Repr

/-- The walk also lists the descriptors that it read, which the source does not. -/
def readThen (read : SretRead) (copied : Except String ExecutedOutput)
    (rest : List SretRead × Except String (List ExecutedOutput)) :
    List SretRead × Except String (List ExecutedOutput) :=
  match copied with
  | .error e => ([read], .error e)
  | .ok out => (read :: rest.1, rest.2.map (out :: ·))

/-- The first pass of `execute`: the descriptors it reads, and its result. -/
def walkOutputs (sret : List Int) : Nat → Nat → List GraphBuffer →
    List SretRead × Except String (List ExecutedOutput)
  | _, _, [] => ([], .ok [])
  | oi, offset, buf :: rest =>
    if 8 * sret.length - 24 ≤ offset then
      ([], .error s!"sret overflow at output {oi} (offset {offset} >= {8 * sret.length})")
    else if ¬ (1 ≤ buf.rank ∧ buf.rank ≤ 4) then
      ([], .error s!"output {oi}: unsupported rank {buf.rank} for sret parsing")
    else if 8 * sret.length < offset + (24 + 16 * buf.rank) then
      ([], .error (s!"sret overflow at output {oi} (offset {offset} + {24 + 16 * buf.rank} > " ++
        s!"{8 * sret.length})"))
    else
      match readSretDescriptor ((sret.drop (offset / 8)).take (3 + 2 * buf.rank)) buf.rank with
      | .error e => ([], .error e)
      | .ok desc =>
        readThen ⟨offset, desc.2.1, desc.2.2⟩ (copyGraphOutput oi buf desc.2.1 desc.2.2)
          (walkOutputs sret (oi + 1) (offset + (24 + 16 * buf.rank)) rest)

/-- `CpuExecutable::execute`, behind the call of the kernel. -/
def executeGraph (bufs : List GraphBuffer) (sret : List Int) :
    List SretRead × Except String (List ExecutedOutput) :=
  walkOutputs sret 0 0 bufs

/-! ## The packed struct -/

/-- A memref descriptor of the result struct. -/
structure MemRefDesc where
  allocated : Int
  aligned : Int
  offset : Int
  sizes : List Int
  strides : List Int
deriving DecidableEq, Repr

namespace MemRefDesc

/-- A descriptor in the 64-bit words of the `sret` buffer. -/
def words (desc : MemRefDesc) : List Int :=
  desc.allocated :: desc.aligned :: desc.offset :: (desc.sizes ++ desc.strides)

/-- The sizes and strides are as many as the rank. -/
structure OfRank (desc : MemRefDesc) (rank : Nat) : Prop where
  sizes : desc.sizes.length = rank
  strides : desc.strides.length = rank

theorem OfRank.length_words {desc : MemRefDesc} {rank : Nat} (h : desc.OfRank rank) :
    desc.words.length = 3 + 2 * rank := by
  simp [words, h.sizes, h.strides]
  omega

end MemRefDesc

/-- The result struct: one descriptor after another. -/
def packedStruct (descs : List MemRefDesc) : List Int := descs.flatMap MemRefDesc.words

/-- What `execute` should read and do: every descriptor at its place in the struct. -/
def processDescs : Nat → Nat → List MemRefDesc → List GraphBuffer →
    List SretRead × Except String (List ExecutedOutput)
  | oi, offset, desc :: descs, buf :: bufs =>
    if desc.aligned = 0 then
      ([], .error s!"sret aligned pointer is null (rank {desc.sizes.length})")
    else
      readThen ⟨offset, desc.aligned, desc.sizes⟩ (copyGraphOutput oi buf desc.aligned desc.sizes)
        (processDescs (oi + 1) (offset + 8 * desc.words.length) descs bufs)
  | _, _, _, _ => ([], .ok [])

/-- Any struct of descriptors fits in the `sret` buffer, and is walked one by one. -/
def WalkAligned (ranks : List Nat) (bufs : List GraphBuffer) : Prop :=
  ∀ descs, Forall₂ MemRefDesc.OfRank descs ranks →
    8 * (packedStruct descs).length ≤ computeSretSize (bufs.map fun buf => buf.rank) ∧
    ∀ sret : List Int, 8 * sret.length = computeSretSize (bufs.map fun buf => buf.rank) →
      packedStruct descs <+: sret → executeGraph bufs sret = processDescs 0 0 descs bufs

/-! ## With the ranks of the buffers -/

section Aligned

variable {descs : List MemRefDesc} {ranks : List Nat} {bufs : List GraphBuffer} {sret : List Int}

theorem length_packedStruct (h : Forall₂ MemRefDesc.OfRank descs ranks) :
    8 * (packedStruct descs).length = (ranks.map fun r => 24 + 16 * r).sum := by
  induction h with
  | nil => rfl
  | cons hdesc _ ih =>
    rw [packedStruct, flatMap_cons, length_append, mul_add, hdesc.length_words,
      map_cons, sum_cons, ← ih]
    simp only [packedStruct]
    omega

theorem readSretDescriptor_words {desc : MemRefDesc} {rank : Nat} (h : desc.OfRank rank) :
    readSretDescriptor desc.words rank =
      if desc.aligned = 0 then .error s!"sret aligned pointer is null (rank {rank})"
      else .ok (desc.allocated, desc.aligned, desc.sizes) := by
  have htake : (desc.words.drop 3).take rank = desc.sizes := by
    rw [← h.sizes]
    exact take_left
  rw [readSretDescriptor, if_neg (by rw [h.length_words]; omega), htake]
  rfl

theorem walkOutputs_packed (hdescs : Forall₂ MemRefDesc.OfRank descs ranks)
    (hbufs : Forall₂ (fun buf r => buf.rank = r) bufs ranks)
    (hrange : ∀ r ∈ ranks, 1 ≤ r ∧ r ≤ 4) (front tail : List Int) (oi : Nat) :
    walkOutputs (front ++ packedStruct descs ++ tail) oi (8 * front.length) bufs =
      processDescs oi (8 * front.length) descs bufs := by
  induction hdescs generalizing bufs front oi with
  | nil =>
    cases hbufs
    rfl
  | @cons desc r descs ranks hdesc _ ih =>
    cases hbufs with
    | @cons buf _ bufs _ hbuf hbufs =>
      obtain ⟨hpos, hle⟩ := hrange r mem_cons_self
      have hwords := hdesc.length_words
      have hlength : (front ++ packedStruct (desc :: descs) ++ tail).length =
          front.length + (3 + 2 * r) + (packedStruct descs ++ tail).length := by
        simp only [packedStruct, flatMap_cons, length_append, hwords]
        omega
      -- the window at the offset holds the words of the first descriptor
      have hslice : ((front ++ packedStruct (desc :: descs) ++ tail).drop
          (8 * front.length / 8)).take (3 + 2 * r) = desc.words := by
        rw [Nat.mul_div_cancel_left _ (by omega : 0 < 8), append_assoc, drop_left,
          packedStruct, flatMap_cons, append_assoc, ← hwords, take_left]
      have hnext : 8 * front.length + (24 + 16 * r) = 8 * (front ++ desc.words).length := by
        rw [length_append, hwords]
        omega
      have hrest := ih hbufs (fun r hr => hrange r (mem_cons_of_mem _ hr))
        (front ++ desc.words) (oi + 1)
      rw [walkOutputs, processDescs, hbuf, if_neg (by omega), if_neg (by omega),
        if_neg (by omega), hslice, readSretDescriptor_words hdesc]
      by_cases hnull : desc.aligned = 0
      · simp only [if_pos hnull, hdesc.sizes]
      · have hoffset : 8 * front.length + 8 * desc.words.length =
            8 * (front ++ desc.words).length := by
          rw [length_append, mul_add]
        simp only [if_neg hnull]
        rw [hnext, hoffset, ← hrest]
        simp only [packedStruct, flatMap_cons, append_assoc]

theorem walkAligned_of_ranks (hbufs : Forall₂ (fun buf r => buf.rank = r) bufs ranks)
    (hrange : ∀ buf ∈ bufs, 1 ≤ buf.rank ∧ buf.rank ≤ 4) : WalkAligned ranks bufs := by
  have hranks : bufs.map (fun buf => buf.rank) = ranks := by
    rw [← forall₂_eq_eq_eq, forall₂_map_left_iff]
    exact hbufs
  intro descs hdescs
  rw [hranks, computeSretSize, length_packedStruct hdescs]
  refine ⟨le_max_left _ _, fun sret _ hprefix => ?_⟩
  obtain ⟨tail, rfl⟩ := hprefix
  refine walkOutputs_packed hdescs hbufs (fun r hr => ?_) [] tail 0
  rw [← hranks] at hr
  obtain ⟨buf, hbuf, rfl⟩ := mem_map.1 hr
  exact hrange buf hbuf

end Aligned

/-! ## With other ranks -/

section Shifted

variable {ranks : List Nat} {bufs : List GraphBuffer}

/-- A descriptor of no elements, aligned at address 1. -/
def emptyDesc (rank : Nat) : MemRefDesc where
  allocated := 1
  aligned := 1
  offset := 0
  sizes := replicate rank 0
  strides := replicate rank 0

theorem emptyDesc_ofRank (rank : Nat) : (emptyDesc rank).OfRank rank :=
  ⟨length_replicate, length_replicate⟩

variable {rank oi offset : Nat}

theorem checkedProductFromI64_zeros (h : 1 ≤ rank) :
    checkedProductFromI64 (replicate rank 0) = some 0 := by
  have hzeros : ∀ n : Nat, (replicate n 0).foldlM (fun (acc dim : Nat) =>
      if acc * dim < 2 ^ 64 then some (acc * dim) else none) 0 = some 0 := by
    intro n
    induction n with
    | zero => rfl
    | succ n ih => rw [replicate_succ, foldlM_cons]; exact ih
  obtain ⟨n, rfl⟩ := Nat.exists_eq_add_of_le' h
  rw [checkedProductFromI64, map_replicate, replicate_succ]
  exact hzeros n

theorem copyGraphOutput_empty (h : 1 ≤ rank) (oi : Nat) (buf : GraphBuffer)
    (aligned : Int) :
    ∃ out, copyGraphOutput oi buf aligned (replicate rank 0) = .ok out := by
  have hcopy : copyOutput oi buf.toOutputBuffer aligned (replicate rank 0) =
      .ok ⟨replicate rank 0, 0⟩ := by
    unfold copyOutput
    rw [checkedProductFromI64_zeros h]
    simp
  rw [copyGraphOutput, hcopy]
  exact ⟨_, rfl⟩

theorem walkOutputs_head {sret : List Int} {buf : GraphBuffer}
    {read : SretRead} {reads : List SretRead}
    (h : (walkOutputs sret oi offset (buf :: bufs)).1 = read :: reads) :
    read.sizes.length = buf.rank ∧
      ((∃ out, copyGraphOutput oi buf read.aligned read.sizes = .ok out) →
        (walkOutputs sret (oi + 1) (offset + (24 + 16 * buf.rank)) bufs).1 = reads) := by
  rw [walkOutputs] at h
  by_cases hstart : 8 * sret.length - 24 ≤ offset
  · rw [if_pos hstart] at h
    cases h
  rw [if_neg hstart] at h
  by_cases hrank : ¬ (1 ≤ buf.rank ∧ buf.rank ≤ 4)
  · rw [if_pos hrank] at h
    cases h
  rw [if_neg hrank] at h
  by_cases hend : 8 * sret.length < offset + (24 + 16 * buf.rank)
  · rw [if_pos hend] at h
    cases h
  rw [if_neg hend] at h
  cases hdesc : readSretDescriptor ((sret.drop (offset / 8)).take (3 + 2 * buf.rank)) buf.rank with
  | error =>
    rw [hdesc] at h
    cases h
  | ok desc =>
    simp only [hdesc] at h
    have hlen : desc.2.2.length = buf.rank := length_readSretDescriptor hdesc
    cases hcopy : copyGraphOutput oi buf desc.2.1 desc.2.2 with
    | error =>
      rw [hcopy] at h
      cases h
      exact ⟨hlen, fun ⟨out, hout⟩ => by rw [hcopy] at hout; cases hout⟩
    | ok =>
      rw [hcopy] at h
      cases h
      exact ⟨hlen, fun _ => rfl⟩

theorem readThen_fst (read : SretRead) (copied : Except String ExecutedOutput)
    (rest : List SretRead × Except String (List ExecutedOutput)) :
    ∃ reads, (readThen read copied rest).1 = read :: reads ∧
      ((∃ out, copied = .ok out) → reads = rest.1) := by
  cases copied with
  | error => exact ⟨[], rfl, fun ⟨_, h⟩ => by cases h⟩
  | ok => exact ⟨rest.1, rfl, fun _ => rfl⟩

theorem ranks_of_reads (hlen : bufs.length = ranks.length)
    (hrange : ∀ buf ∈ bufs, 1 ≤ buf.rank ∧ buf.rank ≤ 4) {sret : List Int}
    (h : (walkOutputs sret oi offset bufs).1 =
      (processDescs oi offset (ranks.map emptyDesc) bufs).1) :
    Forall₂ (fun buf r => buf.rank = r) bufs ranks := by
  -- on the buffers: the first read fixes one rank, and with it where the next one starts
  induction bufs generalizing ranks oi offset with
  | nil =>
    obtain rfl := length_eq_zero_iff.1 hlen.symm
    exact .nil
  | cons buf bufs ih =>
    obtain ⟨r, ranks, rfl⟩ := exists_cons_of_length_eq_add_one hlen.symm
    have hstep : processDescs oi offset ((r :: ranks).map emptyDesc) (buf :: bufs) =
        readThen ⟨offset, 1, replicate r 0⟩
          (copyGraphOutput oi buf 1 (replicate r 0))
          (processDescs (oi + 1) (offset + 8 * (emptyDesc r).words.length)
            (ranks.map emptyDesc) bufs) := by
      rw [map_cons, processDescs, if_neg (by simp [emptyDesc])]
      rfl
    obtain ⟨reads, hreads, hrest⟩ := readThen_fst ⟨offset, 1, replicate r 0⟩
      (copyGraphOutput oi buf 1 (replicate r 0))
      (processDescs (oi + 1) (offset + 8 * (emptyDesc r).words.length) (ranks.map emptyDesc) bufs)
    obtain ⟨hrank, hnext⟩ := walkOutputs_head ((h.trans (congrArg Prod.fst hstep)).trans hreads)
    have hr : buf.rank = r := by rw [← hrank, length_replicate]
    have hpos : 1 ≤ r := hr ▸ (hrange buf mem_cons_self).1
    have hcopies := copyGraphOutput_empty hpos oi buf 1
    have hsize : 24 + 16 * buf.rank = 8 * (emptyDesc r).words.length := by
      rw [(emptyDesc_ofRank r).length_words, hr]
      omega
    have htail := (hnext hcopies).trans (hrest hcopies)
    rw [hsize] at htail
    exact .cons hr (ih (by simpa using hlen)
      (fun buf hbuf => hrange buf (mem_cons_of_mem _ hbuf)) htail)

theorem eight_dvd_computeSretSize (ranks : List Nat) : 8 ∣ computeSretSize ranks := by
  have hsum : 8 ∣ (ranks.map fun r => 24 + 16 * r).sum := by
    induction ranks with
    | nil => exact dvd_zero 8
    | cons r ranks ih =>
      rw [map_cons, sum_cons]
      omega
  rw [computeSretSize]
  rcases max_choice (ranks.map fun r => 24 + 16 * r).sum 4096 with h | h
  · rwa [h]
  · rw [h]
    decide

theorem ranks_of_walkAligned (hlen : bufs.length = ranks.length)
    (hrange : ∀ buf ∈ bufs, 1 ≤ buf.rank ∧ buf.rank ≤ 4) (h : WalkAligned ranks bufs) :
    Forall₂ (fun buf r => buf.rank = r) bufs ranks := by
  have hdescs : Forall₂ MemRefDesc.OfRank (ranks.map emptyDesc) ranks := by
    rw [forall₂_map_left_iff]
    exact forall₂_same.2 fun r _ => emptyDesc_ofRank r
  obtain ⟨hfits, hreads⟩ := h _ hdescs
  obtain ⟨words, hwords⟩ := eight_dvd_computeSretSize (bufs.map fun buf => buf.rank)
  rw [hwords] at hfits hreads
  have hsret := hreads (packedStruct (ranks.map emptyDesc) ++
    replicate (words - (packedStruct (ranks.map emptyDesc)).length) 0)
    (by rw [length_append, length_replicate]; omega) (prefix_append ..)
  exact ranks_of_reads hlen hrange (congrArg Prod.fst hsret)

end Shifted

/-! ## What allocation keeps -/

/-- The buffer of output `oi` gets the rank of the ABI. -/
def RankKept (oi : Nat) (io : GraphTensorDef) : Prop :=
  match borrowedTensor aliases inputs oi io with
  | some tensor => tensor.shape.length = io.rank
  | none =>
    if unresolvable io.shape then 1 ≤ io.rank ∧ io.rank ≤ 4 else io.shape.length = io.rank

section Allocation

variable {func : FuncDef} {aliases : List (Nat × Nat)} {inputs : List (Option LoadedTensor)}
  {seqLen : Nat} {dataPtr : Nat → Int} {bufs : List GraphBuffer}

theorem length_finalShape_iff {io : GraphTensorDef} :
    (finalShape io seqLen).length = io.rank ↔
      if unresolvable io.shape then 1 ≤ io.rank ∧ io.rank ≤ 4 else io.shape.length = io.rank := by
  unfold finalShape
  by_cases h : unresolvable io.shape = true
  · rw [if_pos h, if_pos h]
    by_cases hpos : 1 ≤ io.rank
    · rw [if_pos hpos, and_iff_right hpos]
      generalize io.rank = rank at hpos
      rcases lt_or_ge 4 rank with hgt | hle
      · obtain ⟨n, rfl⟩ := Nat.exists_eq_add_of_le' hgt
        simp
      · interval_cases rank <;> simp
    · rw [if_neg hpos]
      simp only [length_cons, length_nil]
      omega
  · rw [if_neg h, if_neg h, resolvedDims, length_mapIdx]

theorem allocateGraphOutput_rank {out : GraphTensorDef × Nat} {buf : GraphBuffer}
    (h : allocateGraphOutput aliases inputs seqLen dataPtr out = some buf) :
    (1 ≤ buf.rank ∧ buf.rank ≤ 4) ∧
      (buf.rank = out.1.rank ↔ RankKept aliases inputs out.2 out.1) := by
  unfold allocateGraphOutput at h
  unfold RankKept
  cases hborrowed : borrowedTensor aliases inputs out.2 out.1 with
  | some tensor =>
    simp only [hborrowed, fromBorrowedTensor] at h
    split at h
    · rename_i hfits
      cases h
      exact ⟨⟨hfits.1, hfits.2.1⟩, Iff.rfl⟩
    · cases h
  | none =>
    simp only [hborrowed, allocateOutput] at h
    split at h
    · rename_i hfits
      cases h
      exact ⟨hfits.2, length_finalShape_iff⟩
    · cases h

/-- The walk is aligned on every struct exactly if every buffer got the rank of the ABI. -/
theorem walkAligned_iff
    (halloc : allocateGraphOutputs func aliases inputs seqLen dataPtr = some bufs) :
    WalkAligned (func.outputs.map fun io => io.rank) bufs ↔
      ∀ oi io, func.outputs[oi]? = some io → RankKept aliases inputs oi io := by
  have hall := mapM_eq_some_forall₂.1 halloc
  have hlen : bufs.length = (func.outputs.map fun io => io.rank).length := by
    rw [← hall.length_eq, length_zipIdx, length_map]
  have hbuf : ∀ (oi : Nat) (io : GraphTensorDef), func.outputs[oi]? = some io →
      ∃ buf, bufs[oi]? = some buf ∧
        allocateGraphOutput aliases inputs seqLen dataPtr (io, oi) = some buf := by
    intro oi io hio
    have hoi : oi < bufs.length := by
      rw [hlen, length_map]
      exact (List.getElem?_eq_some_iff.1 hio).1
    refine ⟨bufs[oi], getElem?_eq_getElem hoi, ?_⟩
    refine rel_of_getElem? hall ?_ (getElem?_eq_getElem hoi)
    rw [getElem?_zipIdx, hio, zero_add]
    rfl
  have hrange : ∀ buf ∈ bufs, 1 ≤ buf.rank ∧ buf.rank ≤ 4 := by
    intro buf hmem
    obtain ⟨oi, hoi, rfl⟩ := getElem_of_mem hmem
    have hio : oi < func.outputs.length := by simpa [hlen] using hoi
    obtain ⟨buf, hget, h⟩ := hbuf oi _ (getElem?_eq_getElem hio)
    rw [getElem?_eq_getElem hoi, Option.some.injEq] at hget
    rw [hget]
    exact (allocateGraphOutput_rank h).1
  -- the walk is aligned where the ranks agree one by one
  have hranks : Forall₂ (fun buf r => buf.rank = r) bufs
      (func.outputs.map fun io => io.rank) ↔
      ∀ oi io, func.outputs[oi]? = some io → RankKept aliases inputs oi io := by
    constructor
    · intro h oi io hio
      obtain ⟨buf, hget, hallocated⟩ := hbuf oi io hio
      have hrank : buf.rank = io.rank :=
        rel_of_getElem? h hget (by rw [getElem?_map, hio]; rfl)
      exact (allocateGraphOutput_rank hallocated).2.1 hrank
    · intro h
      refine forall₂_iff_get.2 ⟨hlen, fun oi hoi hoi' => ?_⟩
      have hio : oi < func.outputs.length := by simpa using hoi'
      obtain ⟨buf, hget, hallocated⟩ := hbuf oi _ (getElem?_eq_getElem hio)
      rw [getElem?_eq_getElem hoi, Option.some.injEq] at hget
      have hrank := (allocateGraphOutput_rank hallocated).2.2
        (h oi _ (getElem?_eq_getElem hio))
      simpa [hget] using hrank
  rw [← hranks]
  exact ⟨ranks_of_walkAligned hlen hrange, fun h => walkAligned_of_ranks h hrange⟩

end Allocation

/-! ## A scalar in front of a matrix -/

def scalarAndMatrix : FuncDef where
  index := 1
  symbol := "main_1"
  numInputs := 0
  numOutputs := 2
  inputs := []
  outputs := [f32Output [], f32Output [2, 3]]
  consumedSubOutputFlags := []

def scalarAndMatrixBufs : List GraphBuffer :=
  [⟨⟨[16], 4, 64⟩, false⟩, ⟨⟨[2, 3], 4, 128⟩, false⟩]

theorem walkAligned_iff_scalarAndMatrix :
    WalkAligned [0, 2] scalarAndMatrixBufs ↔
      ∀ oi io, scalarAndMatrix.outputs[oi]? = some io → RankKept [] [] oi io :=
  @walkAligned_iff scalarAndMatrix [] [] 1 (fun oi => 64 * (oi + 1)) scalarAndMatrixBufs
    (by decide +kernel)

def scalarAndMatrixDescs : List MemRefDesc := [⟨8, 8, 0, [], []⟩, ⟨16, 16, 0, [2, 3], [3, 1]⟩]

/-- The scalar takes 24 bytes of the struct and 40 bytes of the walk. -/
theorem walkAligned_fails :
    allocateGraphOutputs scalarAndMatrix [] [] 1 (fun oi => 64 * (oi + 1)) =
        some scalarAndMatrixBufs ∧
      ¬ WalkAligned [0, 2] scalarAndMatrixBufs ∧
      (executeGraph scalarAndMatrixBufs
        (packedStruct scalarAndMatrixDescs ++ replicate 502 0)).1 =
          [⟨0, 8, [16]⟩, ⟨40, 2, [3, 1]⟩] := by
  refine ⟨by decide +kernel, fun h => ?_, by decide +kernel⟩
  have hranks := ranks_of_walkAligned rfl (by decide) h
  exact absurd (forall₂_cons.1 hranks).1 (by decide)

end CompileForge.Runtime
