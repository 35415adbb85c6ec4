/-
  Attention over a cache in blocks (`kernels/paged_attention.py`): the gather of
  `_paged_attention_cpu` and the kernel of `_paged_attention_triton`.
-/

import CompileForge.Lib.OnlineSoftmax
import CompileForge.Lib.Paging
import CompileForge.Lib.Tile

namespace CompileForge.Kernels

open Lib List
open Lib.Tile (scalar arange expandDims reduce reduceAll load store rank_map₂
  rank_expandDims rank_reduce store_eq_none)

section Defs

variable {R : Type} [Field R]

/-- What both paths are called with, queries `[batch, heads, headDim]` and caches by blocks. -/
structure PagedArgs (R : Type) where
  q : List R
  kCache : List R
  vCache : List R
  blockTables : List (String × List Nat)
  seqLens : String → Option Nat
  blockSize : Nat
  scale : R
  heads : Nat
  kvHeads : Nat
  headDim : Nat

namespace PagedArgs

/-- `seq_lens.get(rid, len(blocks) * block_size)`. -/
def seqLen (x : PagedArgs R) (e : String × List Nat) : Nat :=
  (x.seqLens e.1).getD (e.2.length * x.blockSize)

/-- The cache rows of a request, block by block. -/
def gathered (x : PagedArgs R) (e : String × List Nat) : List Nat :=
  let nBlocks := min e.2.length (cdiv (x.seqLen e) x.blockSize)
  ((e.2.take nBlocks).flatMap fun bid =>
    (range x.blockSize).map (bid * x.blockSize + ·)).take (x.seqLen e)

def cached (x : PagedArgs R) (cache : List R) (row kvHead d : Nat) : R :=
  cache.getD ((row * x.kvHeads + kvHead) * x.headDim + d) 0

/-- `scaled_dot_product_attention` of one query; a K/V head serves `heads // kvHeads` heads. -/
def attend (exp : R → R) (x : PagedArgs R) (idx : Nat) (e : String × List Nat) (h d : Nat) : R :=
  let kvHead := h / (x.heads / x.kvHeads)
  softmaxMean exp ((x.gathered e).map fun row =>
    (x.scale * ((range x.headDim).map fun i =>
      x.q.getD ((idx * x.heads + h) * x.headDim + i) 0 * x.cached x.kCache row kvHead i).sum,
      x.cached x.vCache row kvHead d))

end PagedArgs

def pagedAttentionCpu (exp : R → R) (x : PagedArgs R) : List (String × List (List R)) :=
  x.blockTables.zipIdx.map fun (e, idx) =>
    (e.1, (range x.heads).map fun h => (range x.headDim).map (x.attend exp idx e h))

end Defs

section Kernel

variable {R : Type} [Field R] [LinearOrder R]

/-- What masked loads of K (`false`) and V give at a block, and what the new output holds. -/
structure Undef (R : Type) where
  loaded : Nat → Nat → Bool → List Nat → ExactFloat R
  output : Nat → ExactFloat R

/-- The running maximum, the normaliser and the accumulator. -/
abbrev PagedState (R : Type) := ExactFloat R × ExactFloat R × Tensor (ExactFloat R)

variable (exp : R → R) (x : PagedArgs R) (maxBlocks : Nat)

/-- One turn of the loop over the blocks.  The accumulator may get another shape. -/
def pagedTurn (btFlat : List Nat) (seqLen : Nat) (undef : Undef R) (pid : Nat) (offsD : Tensor Nat)
    (q : Tensor (ExactFloat R)) (s : PagedState R) (blockIdx : Nat) : Option (PagedState R) := do
  let batchIdx := pid / x.heads
  let headIdx := pid % x.heads
  let physBlock ← btFlat[batchIdx * maxBlocks + blockIdx]?
  let base := physBlock * x.blockSize * x.heads * x.headDim + headIdx * x.headDim
  let offsN ← arange x.blockSize
  let inside := Tile.map (fun n => decide (blockIdx * x.blockSize + n < seqLen)) offsN
  let kAddr ← Tile.map₂ (fun n d => base + n * x.headDim + d) (expandDims 1 offsN)
    (expandDims 0 offsD)
  let k ← load (x.kCache.map .fin) kAddr (expandDims 1 inside) (undef.loaded pid blockIdx false)
  let qk ← Tile.map₂ (· * ·) (expandDims 0 q) k
  let scores := Tile.map (· * .fin x.scale) (reduce ExactFloat.sum 1 qk)
  let scores ← Tile.mask (expandDims 1 inside) scores (.inf true)
  let mNew := s.1.maximum (reduceAll ExactFloat.maximumOf scores)
  let alpha := (s.1.sub mNew).exp exp
  let p := Tile.map (fun score => (score.sub mNew).exp exp) scores
  let l := (s.2.1 * alpha).add (reduceAll ExactFloat.sum p)
  let acc := Tile.map (· * alpha) s.2.2
  let vAddr ← Tile.map₂ (fun n d => base + n * x.headDim + d) (expandDims 0 offsN)
    (expandDims 1 offsD)
  let v ← load (x.vCache.map .fin) vAddr (expandDims 0 inside) (undef.loaded pid blockIdx true)
  let pv ← Tile.map₂ (· * ·) (expandDims 1 p) v
  let acc ← Tile.map₂ ExactFloat.add acc (reduce ExactFloat.sum 0 pv)
  some (mNew, l, acc)

/-- `_kernel`: the writes of a program. -/
def pagedKernel (btFlat slFlat : List Nat)
    (undef : Undef R) (pid : Nat) : Option (List (Nat × ExactFloat R)) := do
  let row := pid / x.heads * x.heads * x.headDim + pid % x.heads * x.headDim
  let seqLen ← slFlat[pid / x.heads]?
  let offsD ← arange x.headDim
  let q ← load (x.q.map .fin) (Tile.map (row + ·) offsD) (scalar true) fun _ => .nan
  -- `break` at the first block behind the sequence
  let blocks := (range maxBlocks).takeWhile (· < cdiv seqLen x.blockSize)
  let s ← blocks.foldlM (pagedTurn exp x maxBlocks btFlat seqLen undef pid offsD q)
    (.inf true, .fin 0, Tile.full [x.headDim] (.fin 0))
  store (Tile.map (row + ·) offsD) s.2.2 (scalar true)

/-- The scores of a block are a vector, and its mask a column: `where` makes a matrix of them, and
    what is added to the accumulator has two dims from then on.  The accumulator is stored at a
    vector of addresses. -/
def pagedAttentionTriton (undef : Undef R) (order : List Nat) :
    Option (List (String × List (List (ExactFloat R)))) := do
  let maxBlocks ← (x.blockTables.map (·.2.length)).max?
  let btFlat := x.blockTables.flatMap fun e => e.2 ++ replicate (maxBlocks - e.2.length) 0
  let writes ← order.mapM (pagedKernel exp x maxBlocks btFlat (x.blockTables.map x.seqLen) undef)
  let o := fun addr => (writes.flatten.reverse.lookup addr).getD (undef.output addr)
  some (x.blockTables.zipIdx.map fun (e, idx) =>
    (e.1, (range x.heads).map fun h => (range x.headDim).map fun d =>
      o ((idx * x.heads + h) * x.headDim + d)))

end Kernel

section Shapes

variable {R : Type} [Field R] [LinearOrder R] {exp : R → R} {x : PagedArgs R} {maxBlocks : Nat}
  {btFlat slFlat : List Nat} {seqLen : Nat} {undef : Undef R} {pid : Nat} {offsD : Tensor Nat}
  {q : Tensor (ExactFloat R)}

theorem pagedTurn_rank {s s' : PagedState R} {i : Nat}
    (h : pagedTurn exp x maxBlocks btFlat seqLen undef pid offsD q s i = some s') :
    2 ≤ s'.2.2.shape.length := by
  simp only [pagedTurn, Option.bind_eq_bind, Option.bind_eq_some_iff] at h
  obtain ⟨phys, -, offsN, hn, kAddr, -, k, -, qk, -, scores, hscores, vAddr, -, v, -, pv, hpv, acc,
    hacc, h⟩ := h
  cases h
  have hcol : (Tensor.shape offsN).length = 1 := by
    obtain ⟨-, hn⟩ := Option.ite_none_right_eq_some.1 hn
    cases hn
    rfl
  -- the mask is a column, and so the scores are a matrix
  have hrank := rank_map₂ hscores
  have hmask := rank_expandDims 1
    (a := Tile.map (fun n => decide (i * x.blockSize + n < seqLen)) offsN) (by
      show 1 ≤ (Tensor.shape offsN).length
      omega)
  have hcol' : (Tile.map (fun n => decide (i * x.blockSize + n < seqLen)) offsN).shape.length = 1 :=
    hcol
  have hprobs := rank_expandDims 1
    (a := Tile.map (fun score => (score.sub
      (s.1.maximum (reduceAll ExactFloat.maximumOf scores))).exp exp) scores) (by
      show 1 ≤ scores.shape.length
      omega)
  have hscores' : (Tile.map (fun score => (score.sub
      (s.1.maximum (reduceAll ExactFloat.maximumOf scores))).exp exp) scores).shape.length =
      scores.shape.length := rfl
  have hpv := rank_map₂ hpv
  have hsum := rank_reduce (a := pv) ExactFloat.sum 0 (by omega)
  have hacc := rank_map₂ hacc
  show 2 ≤ acc.shape.length
  omega

theorem pagedTurns_rank {blocks : List Nat} (hne : blocks ≠ []) {s s' : PagedState R}
    (h : blocks.foldlM (pagedTurn exp x maxBlocks btFlat seqLen undef pid offsD q) s = some s') :
    2 ≤ s'.2.2.shape.length := by
  induction blocks generalizing s with
  | nil => exact absurd rfl hne
  | cons i blocks ih =>
    rw [foldlM_cons, Option.bind_eq_bind, Option.bind_eq_some_iff] at h
    obtain ⟨t, ht, h⟩ := h
    cases blocks with
    | nil =>
      cases h
      exact pagedTurn_rank ht
    | cons => exact ih (cons_ne_nil _ _) h

theorem pagedKernel_eq_none (hblocks : 0 < maxBlocks)
    (hlen : ∀ n, slFlat[pid / x.heads]? = some n → 0 < cdiv n x.blockSize) :
    pagedKernel exp x maxBlocks btFlat slFlat undef pid = none := by
  rw [Option.eq_none_iff_forall_ne_some]
  intro writes h
  simp only [pagedKernel, Option.bind_eq_bind, Option.bind_eq_some_iff] at h
  obtain ⟨n, hn, offsD, hd, q, -, s, hs, h⟩ := h
  obtain ⟨-, hd⟩ := Option.ite_none_right_eq_some.1 hd
  cases hd
  have hne : (range maxBlocks).takeWhile (· < cdiv n x.blockSize) ≠ [] := by
    obtain ⟨k, rfl⟩ := Nat.exists_eq_succ_of_ne_zero hblocks.ne'
    rw [range_succ_eq_map, takeWhile_cons_of_pos (by simpa using hlen n hn)]
    exact cons_ne_nil _ _
  have hrank := pagedTurns_rank hne hs
  rw [store_eq_none (show 1 < _ by omega)] at h
  cases h

end Shapes

section Paths

variable {R : Type} [Field R] [LinearOrder R]

/-- The kernel gives what the gather gives, in any order of the programs. -/
def PagedAgree (exp : R → R) (x : PagedArgs R) : Prop :=
  ∀ (undef : Undef R) (order : List Nat), order.Perm (range (x.blockTables.length * x.heads)) →
    pagedAttentionTriton exp x undef order = some ((pagedAttentionCpu exp x).map fun e =>
      (e.1, e.2.map (map .fin)))

theorem pagedAttentionTriton_eq_none (exp : R → R) (x : PagedArgs R) (hheads : 0 < x.heads)
    (hlens : ∀ e ∈ x.blockTables, 1 ≤ x.seqLen e ∧ x.seqLen e ≤ e.2.length * x.blockSize)
    (undef : Undef R) {order : List Nat}
    (horder : order.Perm (range (x.blockTables.length * x.heads))) :
    pagedAttentionTriton exp x undef order = none := by
  cases htables : x.blockTables with
  | nil => rw [pagedAttentionTriton, htables]; rfl
  | cons e =>
    rw [Option.eq_none_iff_forall_ne_some]
    intro out h
    simp only [pagedAttentionTriton, Option.bind_eq_bind, Option.bind_eq_some_iff] at h
    obtain ⟨maxBlocks, hmax, writes, hwrites, -⟩ := h
    -- the first table has a block
    have hblocks : 0 < maxBlocks := by
      have he := hlens e (htables ▸ mem_cons_self)
      have hle := (max?_eq_some_iff.1 hmax).2 e.2.length
        (mem_map_of_mem (htables ▸ mem_cons_self))
      refine lt_of_lt_of_le (Nat.pos_of_ne_zero fun hzero => ?_) hle
      rw [hzero, Nat.zero_mul] at he
      omega
    have hne : order ≠ [] := by
      rintro rfl
      have hlen := horder.length_eq
      rw [length_range, htables, length_cons, Nat.succ_mul] at hlen
      simp at hlen
      omega
    obtain ⟨pid, order, rfl⟩ := exists_cons_of_ne_nil hne
    rw [mapM_cons, pagedKernel_eq_none hblocks] at hwrites
    · cases hwrites
    · intro n hn
      rw [getElem?_map, Option.map_eq_some_iff] at hn
      obtain ⟨e', he', rfl⟩ := hn
      have hlen := hlens e' (mem_of_getElem? he')
      have hsize : 0 < x.blockSize := Nat.pos_of_ne_zero fun hzero => by
        rw [hzero, Nat.mul_zero] at hlen
        omega
      exact Nat.div_pos (by omega) hsize

theorem pagedAttention_never (exp : R → R) (x : PagedArgs R) (hheads : 0 < x.heads)
    (hlens : ∀ e ∈ x.blockTables, 1 ≤ x.seqLen e ∧ x.seqLen e ≤ e.2.length * x.blockSize) :
    ¬ PagedAgree exp x := by
  intro h
  have hrun := h ⟨fun _ _ _ _ => .nan, fun _ => .nan⟩ _ (List.Perm.refl _)
  rw [pagedAttentionTriton_eq_none exp x hheads hlens _ (List.Perm.refl _)] at hrun
  cases hrun

/-- Two requests with blocks of two positions; the last block of the first is half full. -/
def pagedTwo : PagedArgs ℚ where
  q := [1, 2, 3, 4]
  kCache := [1, 2, 3, 4, 5, 6]
  vCache := [6, 5, 4, 3, 2, 1]
  blockTables := [("req_1", [0, 2]), ("req_2", [1])]
  seqLens := fun rid => if rid = "req_1" then some 3 else none
  blockSize := 2
  scale := 1
  heads := 2
  kvHeads := 1
  headDim := 1

theorem pagedAttention_never_two : ¬ PagedAgree (fun _ => 1) pagedTwo :=
  pagedAttention_never _ pagedTwo (by decide) (by decide)

/-- One request with one position, in a block of one. -/
def pagedOne : PagedArgs ℚ where
  q := [1]
  kCache := [1]
  vCache := [1]
  blockTables := [("req_1", [0])]
  seqLens := fun _ => some 1
  blockSize := 1
  scale := 1
  heads := 1
  kvHeads := 1
  headDim := 1

theorem pagedAttention_one :
    pagedAttentionCpu (fun _ => 1) pagedOne = [("req_1", [[1]])] ∧
      ¬ PagedAgree (fun _ => 1) pagedOne := by
  refine ⟨?_, fun h => ?_⟩
  · have hvalue : pagedOne.attend (fun _ => 1) 0 ("req_1", [0]) 0 0 = 1 := by
      rw [PagedArgs.attend, show pagedOne.gathered ("req_1", [0]) = [0] from rfl, softmaxMean]
      simp [pagedOne, PagedArgs.cached]
    exact congrArg (fun a => [("req_1", [[a]])]) hvalue
  · have hrun := h ⟨fun _ _ _ _ => .nan, fun _ => .nan⟩ [0] (by decide)
    have hnone :
        pagedAttentionTriton (fun _ => 1) pagedOne ⟨fun _ _ _ _ => .nan, fun _ => .nan⟩ [0] =
        none := rfl
    rw [hnone] at hrun
    cases hrun

end Paths

end CompileForge.Kernels
