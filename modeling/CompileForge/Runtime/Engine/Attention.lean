/-
  `attention_forward` (`runtime/src/engine/kernels.rs`) in exact arithmetic: `f32` is an
  ordered field and `exp` is a parameter.
-/

import CompileForge.Lib.Outcome
import CompileForge.Lib.RowMajor
import CompileForge.Lib.RowWrites
import Mathlib.Algebra.BigOperators.Group.List.Basic
import Mathlib.Algebra.Order.Field.Basic
import Mathlib.Data.List.GetD
import Mathlib.Tactic.Linarith
import Mathlib.Tactic.Ring

namespace CompileForge.Runtime.Attention

open Lib List

variable {R : Type} [Field R] [LinearOrder R]

/-- `panic` is a slice out of range. -/
inductive Failure where
  | panic
  | error (message : String)
deriving DecidableEq, Repr

structure MaskTensor (R : Type) where
  shape : List Nat
  data : List (WithBot R)

/-- The arguments of a call, without the buffers. -/
structure Args (R : Type) where
  q : List R
  seq : Nat
  k : List R
  v : List R
  kvLen : Nat
  kvRowStride : Nat
  kvBnsdLayout : Bool
  heads : Nat
  dim : Nat
  isDecode : Bool
  mask : Option (MaskTensor R)

@[ext]
structure Buffers (R : Type) where
  scores : List (WithBot R)
  probs : List R
  ctxHead : List R
  ctxFlat : List R

/-! ## Kernels -/

/-- `NEG_MASK` is minus infinity, where `exp` is zero. -/
def negMask : WithBot R := ⊥

/-- `exp(s - max)`. -/
def expSub (exp : R → R) : WithBot R → WithBot R → R
  | some s, some m => exp (s - m)
  | _, _ => 0

/-- Max, exp, sum and divide over a row of scores. -/
def softmaxRow (exp : R → R) (row : List (WithBot R)) : List R :=
  let exps := row.map fun s => expSub exp s (row.foldl max negMask)
  exps.map (· / exps.sum)

/-- The matrix product over strided operands.  An index past the end of an operand, which only a
    wrong row stride gives, reads zero. -/
def sgemm (transB : Bool) (m n k : Nat) (a : List R) (lda : Nat) (b : List R) (ldb : Nat) :
    List R :=
  grid m n fun i j => ((range k).map fun l =>
    a.getD (i * lda + l) 0 * b.getD (if transB then j * ldb + l else l * ldb + j) 0).sum

def sliceFrom (l : List R) (off : Nat) : Except Failure (List R) :=
  if off ≤ l.length then .ok (l.drop off) else .error .panic

def pmajorToBnsd {S : Type*} [Zero S] (src : List S) (seq heads dim : Nat) : List S :=
  (range heads).foldl (fun dst h =>
    (range seq).foldl (fun dst p =>
      overwrite dst (h * seq * dim + p * dim) (slice src (p * heads * dim + h * dim) dim)) dst)
    (replicate src.length 0)

/-! ## One head -/

variable (exp : R → R)

/-- One query row of a head, without a matrix product. -/
def decodeHead (x : Args R) (b : Buffers R) (h : Nat) : Buffers R :=
  let dot := fun ki => ((range x.dim).map fun d =>
    x.q.getD (h * x.dim + d) 0 * x.k.getD ((if x.kvBnsdLayout then h * x.kvLen * x.dim + ki * x.dim
        else ki * x.kvRowStride + h * x.dim) + d) 0).sum
  let scores := overwrite b.scores (h * x.kvLen) ((range x.kvLen).map fun ki =>
    WithBot.some (dot ki))
  let probs := overwrite b.probs (h * x.kvLen)
    (softmaxRow exp (slice scores (h * x.kvLen) x.kvLen))
  let acc := fun d => ((range x.kvLen).map fun ki =>
    probs.getD (h * x.kvLen + ki) 0 *
      x.v.getD (if x.kvBnsdLayout then h * x.kvLen * x.dim + d + ki * x.dim
        else ki * x.kvRowStride + (h * x.dim + d)) 0).sum
  let ctxHead := overwrite b.ctxHead (h * x.dim) ((range x.dim).map acc)
  { scores, probs, ctxHead
    ctxFlat := overwrite b.ctxFlat (h * x.dim) (slice ctxHead (h * x.dim) x.dim) }

variable (x : Args R)

/-- What the mask does to the score of query `qi` and key `ki`. -/
def maskUpdate : Except Failure (Nat → Nat → WithBot R → WithBot R) :=
  if x.isDecode then .ok fun _ _ s => s
  else
    match x.mask with
    | some mask =>
      if mask.shape = [1, 1, x.seq, x.kvLen] then
        -- the least entry decides between an additive and an indicator mask
        if mask.data.any (· < WithBot.some (-100)) then
          .ok fun qi ki s => s + mask.data.getD (qi * x.kvLen + ki) 0
        else
          .ok fun qi ki s =>
            if mask.data.getD (qi * x.kvLen + ki) 0 = 0 then s + negMask else s
      else
        .error (.error
          s!"attention mask shape {mask.shape} does not match [1, 1, {x.seq}, {x.kvLen}]")
    | none => .ok fun qi ki s => if qi < ki then s + negMask else s

/-- The start of the keys and values of a head. -/
def kvOff (h : Nat) : Nat :=
  if x.kvBnsdLayout then h * x.kvLen * x.dim else h * x.dim

/-- A loop that writes consecutive elements of a buffer is one overwrite of a window. -/
def headScores (scores : List (WithBot R)) (h : Nat) (k : List R) : List (WithBot R) :=
  let product := sgemm true x.seq x.kvLen x.dim (slice x.q (h * x.seq * x.dim) (x.seq * x.dim))
    x.dim k x.kvRowStride
  overwrite scores (h * x.seq * x.kvLen) (product.map WithBot.some)

/-- The loops over queries and keys that apply the mask. -/
def maskScores (h : Nat) (update : Nat → Nat → WithBot R → WithBot R)
    (scores : List (WithBot R)) : List (WithBot R) :=
  overwrite scores (h * x.seq * x.kvLen) (grid x.seq x.kvLen fun qi ki =>
    update qi ki (scores.getD (h * x.seq * x.kvLen + (qi * x.kvLen + ki)) 0))

/-- Softmax, `probs @ V`, and the copy of the rows of the head. -/
def finishHead (x : Args R) (b : Buffers R) (h : Nat)
    (scores : List (WithBot R)) (v : List R) : Buffers R :=
  let scoreOff := h * x.seq * x.kvLen
  let headCtxOff := h * x.seq * x.dim
  let probs := overwrite b.probs scoreOff ((range x.seq).flatMap fun qi =>
    softmaxRow exp (slice scores (scoreOff + qi * x.kvLen) x.kvLen))
  let ctxHead := overwrite b.ctxHead headCtxOff
    (sgemm false x.seq x.dim x.kvLen (slice probs scoreOff (x.seq * x.kvLen)) x.kvLen v
      x.kvRowStride)
  let ctxFlat := (range x.seq).foldl (fun flat qi =>
    overwrite flat (qi * x.heads * x.dim + h * x.dim)
      (slice ctxHead (headCtxOff + qi * x.dim) x.dim)) b.ctxFlat
  { scores, probs, ctxHead, ctxFlat }

def matrixHead (x : Args R) (b : Buffers R) (h : Nat) : Except Failure (Buffers R) := do
  let k ← sliceFrom x.k (kvOff x h)
  let update ← maskUpdate x
  let v ← sliceFrom x.v (kvOff x h)
  .ok (finishHead exp x b h (maskScores x h update (headScores x b.scores h k)) v)

/-- The buffers after `clear` and `resize`. -/
def Buffers.zero : Buffers R where
  scores := replicate (x.heads * x.seq * x.kvLen) 0
  probs := replicate (x.heads * x.seq * x.kvLen) 0
  ctxHead := replicate (x.seq * x.heads * x.dim) 0
  ctxFlat := replicate (x.seq * x.heads * x.dim) 0

def attentionForward (x : Args R) : Except Failure (Buffers R) :=
  let expectedKv := if x.kvBnsdLayout then x.heads * x.kvLen * x.dim
    else x.kvLen * x.heads * x.dim
  if x.q.length ≠ x.heads * x.seq * x.dim then
    .error (.error (s!"attention_forward: q len {x.q.length} != heads*seq*dim=" ++
      s!"{x.heads * x.seq * x.dim}"))
  else if ¬ (x.k.length = expectedKv ∧ x.v.length = expectedKv) then
    .error (.error s!"attention_forward: KV len {x.k.length} != expected {expectedKv}")
  else if x.isDecode ∧ x.seq = 1 then
    .ok ((range x.heads).foldl (decodeHead exp x) (.zero x))
  else (range x.heads).foldlM (matrixHead exp x) (.zero x)

/-! ## Attention of one query -/

/-- One component of a query's context: its scores, softmax, and the weighted sum. -/
def attend (exp : R → R) (dim kvLen : Nat) (update : Nat → WithBot R → WithBot R) (q : Nat → R)
    (k v : Nat → Nat → R) (d : Nat) : R :=
  let row := (range kvLen).map fun ki =>
    update ki (WithBot.some ((range dim).map fun l => q l * k ki l).sum)
  ((range kvLen).map fun ki => (softmaxRow exp row).getD ki 0 * v ki d).sum

/-- The place of an element in a buffer of either layout. -/
def layoutIndex (bnsd : Bool) (n heads dim i h d : Nat) : Nat :=
  if bnsd then h * n * dim + i * dim + d else i * (heads * dim) + h * dim + d

/-- A flat buffer holds the components `m i h d` in a layout. -/
structure Stores (bnsd : Bool) (n heads dim : Nat) (l : List R) (m : Nat → Nat → Nat → R) :
    Prop where
  length : l.length = heads * n * dim
  get : ∀ i < n, ∀ h < heads, ∀ d < dim, l.getD (layoutIndex bnsd n heads dim i h d) 0 = m i h d

def rowStride (bnsd : Bool) (heads dim : Nat) : Nat := if bnsd then dim else heads * dim

/-- The call with keys and values in a layout. -/
def Args.withKv (bnsd : Bool) (k v : List R) : Args R :=
  { x with k, v, kvBnsdLayout := bnsd, kvRowStride := rowStride bnsd x.heads x.dim }

/-- The buffers hold these entries, each in its layout. -/
structure Holds (q k v : Nat → Nat → Nat → R) : Prop where
  q : Stores true x.seq x.heads x.dim x.q q
  k : Stores x.kvBnsdLayout x.kvLen x.heads x.dim x.k k
  v : Stores x.kvBnsdLayout x.kvLen x.heads x.dim x.v v
  stride : x.kvRowStride = rowStride x.kvBnsdLayout x.heads x.dim

/-- Both contexts of the buffers are `m`, head-major and position-major. -/
structure Context (b : Buffers R) (m : Nat → Nat → Nat → R) : Prop where
  head : Stores true x.seq x.heads x.dim b.ctxHead m
  flat : Stores false x.seq x.heads x.dim b.ctxFlat m

/-- The indicator mask: one up to the position of the query, zero behind it. -/
def causalMask (seq : Nat) : MaskTensor R where
  shape := [1, 1, seq, seq]
  data := grid seq seq fun qi ki => if ki ≤ qi then 1 else 0

/-- A prefill call over `n` positions without a mask or with the indicator mask. -/
structure Prefill (n : Nat) : Prop where
  seq : x.seq = n
  kvLen : x.kvLen = n
  isDecode : x.isDecode = false
  mask : x.mask = none ∨ x.mask = some (causalMask n)

/-- A decode call of the same width over `n` keys. -/
structure DecodeOf (y x : Args R) (n : Nat) : Prop where
  seq : y.seq = 1
  kvLen : y.kvLen = n
  heads : y.heads = x.heads
  dim : y.dim = x.dim
  isDecode : y.isDecode = true

section Heads

variable {x : Args R} {b b' : Buffers R} {m : Nat → Nat → Nat → R} {n : Nat}

variable (x m n)

structure HeadsDone (b : Buffers R) : Prop where
  scores : b.scores.length = x.heads * x.seq * x.kvLen
  probs : b.probs.length = x.heads * x.seq * x.kvLen
  ctxHead : b.ctxHead.length = x.heads * (x.seq * x.dim)
  ctxFlat : b.ctxFlat.length = x.seq * x.heads * x.dim
  head : ∀ h < n, ∀ qi < x.seq,
    slice b.ctxHead (h * (x.seq * x.dim) + qi * x.dim) x.dim = (range x.dim).map (m qi h)
  flat : ∀ h < n, ∀ qi < x.seq,
    slice b.ctxFlat ((qi * x.heads + h) * x.dim) x.dim = (range x.dim).map (m qi h)

omit [LinearOrder R] in
theorem headsDone_zero : HeadsDone x m 0 (.zero x) where
  scores := length_replicate
  probs := length_replicate
  ctxHead := by
    rw [Buffers.zero, length_replicate]
    ring
  ctxFlat := length_replicate
  head := nofun
  flat := nofun

variable {x m n}

theorem flatRow_inj {heads h h' qi qi' : Nat} (hh : h < heads) (hh' : h' < heads)
    (heq : qi * heads + h = qi' * heads + h') : qi = qi' ∧ h = h' := by
  have hmod := congrArg (· % heads) heq
  simp only [Nat.mul_add_mod_self_right, Nat.mod_eq_of_lt hh, Nat.mod_eq_of_lt hh'] at hmod
  subst hmod
  exact ⟨Nat.eq_of_mul_eq_mul_right (by omega) (Nat.add_right_cancel heq), rfl⟩

omit [Field R] [LinearOrder R] in
/-- One more head: its window of the head-major context, copied row by row. -/
theorem HeadsDone.step (hb : HeadsDone x m n b) (hn : n < x.heads)
    (hscores : b'.scores.length = b.scores.length) (hprobs : b'.probs.length = b.probs.length)
    {win : List R} (hwin : win.length = x.seq * x.dim)
    (hrows : ∀ qi < x.seq, slice win (qi * x.dim) x.dim = (range x.dim).map (m qi n))
    (hhead : b'.ctxHead = overwrite b.ctxHead (n * (x.seq * x.dim)) win)
    (hflat : b'.ctxFlat = writeRows x.dim (fun qi => qi * x.heads + n)
      (fun qi => slice b'.ctxHead (n * (x.seq * x.dim) + qi * x.dim) x.dim) b.ctxFlat
      (range x.seq)) : HeadsDone x m (n + 1) b' := by
  have hfit : n * (x.seq * x.dim) + x.seq * x.dim ≤ b.ctxHead.length := hb.ctxHead ▸ row_fits hn
  have hlength : b'.ctxHead.length = x.heads * (x.seq * x.dim) := by
    rw [hhead, length_overwrite_row hwin hfit, hb.ctxHead]
  -- a row of the head-major buffer is a row of the window of its head
  have hread : ∀ h, ∀ qi < x.seq, slice b'.ctxHead (h * (x.seq * x.dim) + qi * x.dim) x.dim =
      slice (slice b'.ctxHead (h * (x.seq * x.dim)) (x.seq * x.dim)) (qi * x.dim) x.dim :=
    fun h qi hqi => (slice_slice _ (row_fits hqi)).symm
  have hnew : ∀ qi < x.seq, slice b'.ctxHead (n * (x.seq * x.dim) + qi * x.dim) x.dim =
      (range x.dim).map (m qi n) := by
    intro qi hqi
    rw [hread n qi hqi, hhead, slice_overwrite_row hwin hfit, hrows qi hqi]
  have hrowFits : ∀ qi ∈ range x.seq,
      (qi * x.heads + n) * x.dim + x.dim ≤ b.ctxFlat.length := by
    intro qi hqi
    rw [hb.ctxFlat]
    refine row_fits ?_
    have := row_fits (w := x.heads) (mem_range.1 hqi)
    omega
  have hrowLen : ∀ qi ∈ range x.seq,
      (slice b'.ctxHead (n * (x.seq * x.dim) + qi * x.dim) x.dim).length = x.dim := by
    intro qi hqi
    rw [hnew qi (mem_range.1 hqi), length_map, length_range]
  refine ⟨hscores.trans hb.scores, hprobs.trans hb.probs, hlength, ?_, fun h hh qi hqi => ?_,
    fun h hh qi hqi => ?_⟩
  · rw [hflat, length_writeRows hrowFits hrowLen, hb.ctxFlat]
  · rcases Nat.lt_succ_iff_lt_or_eq.1 hh with hlt | rfl
    · rw [hread h qi hqi, hhead, slice_overwrite_other hwin hfit (by omega),
        slice_slice _ (row_fits hqi), hb.head h hlt qi hqi]
    · exact hnew qi hqi
  · rcases Nat.lt_succ_iff_lt_or_eq.1 hh with hlt | rfl
    · rw [hflat, slice_writeRows_other hrowFits hrowLen fun qi' _ heq => by
        have := (flatRow_inj hn (hlt.trans hn) heq).2
        omega, hb.flat h hlt qi hqi]
    · have hapart : (range x.seq).Pairwise fun qi qi' =>
          qi * x.heads + h ≠ qi' * x.heads + h :=
        nodup_range.imp fun hne heq => hne (flatRow_inj hn hn heq).1
      rw [hflat, slice_writeRows hrowFits hrowLen hapart (mem_range.2 hqi), hnew qi hqi]

omit [LinearOrder R] in
theorem HeadsDone.context (hb : HeadsDone x m x.heads b) : Context x b m := by
  constructor
  · refine ⟨by rw [hb.ctxHead, mul_assoc], fun qi hqi h hh d hd => ?_⟩
    have hrow := congrArg (getD · d 0) (hb.head h hh qi hqi)
    simp only [getD_slice _ hd, getD_map_range _ hd] at hrow
    rw [layoutIndex, if_pos rfl, mul_assoc h, hrow]
  · refine ⟨by rw [hb.ctxFlat, mul_comm x.heads], fun qi hqi h hh d hd => ?_⟩
    have hrow := congrArg (getD · d 0) (hb.flat h hh qi hqi)
    simp only [getD_slice _ hd, getD_map_range _ hd] at hrow
    rw [layoutIndex, if_neg (by decide), ← mul_assoc, ← add_mul, hrow]

end Heads

section Window

variable {exp : R → R} {x : Args R} {b : Buffers R} {m : Nat → Nat → Nat → R} {n : Nat}

variable (exp x)

theorem length_softmaxRow (row : List (WithBot R)) : (softmaxRow exp row).length = row.length := by
  simp only [softmaxRow, length_map]

/-- The component that the products read of a key or value. -/
def strided (l : List R) (h ki d : Nat) : R :=
  l.getD (kvOff x h + (ki * x.kvRowStride + d)) 0

def queryAt (qi h d : Nat) : R :=
  x.q.getD (h * (x.seq * x.dim) + (qi * x.dim + d)) 0

/-- The scores of a query after the mask. -/
def scoreRow (update : Nat → Nat → WithBot R → WithBot R) (h qi : Nat) : List (WithBot R) :=
  (range x.kvLen).map fun ki => update qi ki
    (WithBot.some ((range x.dim).map fun d => queryAt x qi h d * strided x x.k h ki d).sum)

/-- The context of a row with the mask update of the matrix path. -/
def matrixCtx (update : Nat → Nat → WithBot R → WithBot R) (qi h d : Nat) : R :=
  attend exp x.dim x.kvLen (update qi) (queryAt x qi h) (strided x x.k h) (strided x x.v h) d

omit [LinearOrder R] in
theorem getD_drop (l : List R) (off i : Nat) : (l.drop off).getD i 0 = l.getD (off + i) 0 := by
  rw [getD_eq_getElem?_getD, getElem?_drop, getD_eq_getElem?_getD]

theorem entry_lt {rows cols i j : Nat} (hi : i < rows) (hj : j < cols) :
    i * cols + j < rows * cols := by
  have := row_fits (w := cols) hi
  omega

omit [LinearOrder R] in
theorem sgemm_scores (h : Nat) : sgemm true x.seq x.kvLen x.dim
    (slice x.q (h * x.seq * x.dim) (x.seq * x.dim)) x.dim (x.k.drop (kvOff x h)) x.kvRowStride =
    grid x.seq x.kvLen fun qi ki =>
    ((range x.dim).map fun d => queryAt x qi h d * strided x x.k h ki d).sum := by
  refine grid_congr fun qi hqi ki _ => ?_
  congr 1
  refine map_congr_left fun d hd => ?_
  rw [getD_slice _ (entry_lt hqi (mem_range.1 hd)), if_pos rfl, getD_drop, mul_assoc h]
  rfl

variable {exp x}

variable {scores : List (WithBot R)}

section Scores

variable (hscores : scores.length = x.heads * x.seq * x.kvLen) (hn : n < x.heads)
include hscores hn

section

omit [LinearOrder R]

theorem length_headScores :
    (headScores x scores n (x.k.drop (kvOff x n))).length = scores.length := by
  rw [headScores, sgemm_scores, map_grid, mul_assoc n]
  refine length_overwrite_row (length_grid ..) ?_
  rw [hscores, mul_assoc]
  exact row_fits hn

theorem length_maskScores (update : Nat → Nat → WithBot R → WithBot R) :
    (maskScores x n update scores).length = scores.length := by
  rw [maskScores, mul_assoc n]
  refine length_overwrite_row (length_grid ..) ?_
  rw [hscores, mul_assoc]
  exact row_fits hn

theorem slice_maskScores (update : Nat → Nat → WithBot R → WithBot R) :
    slice (maskScores x n update (headScores x scores n (x.k.drop (kvOff x n))))
        (n * (x.seq * x.kvLen)) (x.seq * x.kvLen) =
      (range x.seq).flatMap (scoreRow x update n) := by
  have hfit : n * (x.seq * x.kvLen) + x.seq * x.kvLen ≤ scores.length := by
    rw [hscores, mul_assoc]
    exact row_fits hn
  have hlen := length_headScores hscores hn
  rw [maskScores, mul_assoc n, slice_overwrite_row (length_grid ..) (hlen ▸ hfit)]
  refine grid_congr fun qi hqi ki hki => ?_
  congr 1
  rw [← getD_slice _ (entry_lt hqi hki), headScores, sgemm_scores, map_grid, mul_assoc n,
    slice_overwrite_row (length_grid ..) hfit, getD_grid _ hqi hki]

end

end Scores

/-- The window of a head in the head-major context: its rows are the queries' contexts. -/
theorem sgemm_ctx (exp : R → R) (x : Args R) (update : Nat → Nat → WithBot R → WithBot R)
    (h : Nat) :
    sgemm false x.seq x.dim x.kvLen
        ((range x.seq).flatMap fun qi => softmaxRow exp (scoreRow x update h qi)) x.kvLen
        (x.v.drop (kvOff x h)) x.kvRowStride =
      grid x.seq x.dim fun qi d => matrixCtx exp x update qi h d := by
  have hrow : ∀ qi < x.seq, (softmaxRow exp (scoreRow x update h qi)).length = x.kvLen := by
    intro qi _
    rw [length_softmaxRow, scoreRow, length_map, length_range]
  refine grid_congr fun qi hqi d _ => ?_
  congr 1
  refine map_congr_left fun ki hki => ?_
  rw [getD_rows hrow hqi (mem_range.1 hki), if_neg (by decide), getD_drop]
  rfl

theorem finishHead_done (hb : HeadsDone x m n b) (hn : n < x.heads)
    {update : Nat → Nat → WithBot R → WithBot R} (hm : m = matrixCtx exp x update)
    (hscores : scores.length = b.scores.length)
    (hwindow : slice scores (n * (x.seq * x.kvLen)) (x.seq * x.kvLen) =
      (range x.seq).flatMap (scoreRow x update n)) :
    HeadsDone x m (n + 1) (finishHead exp x b n scores (x.v.drop (kvOff x n))) := by
  have hrowLen : ∀ qi < x.seq, (scoreRow x update n qi).length = x.kvLen := by
    intro qi _
    rw [scoreRow, length_map, length_range]
  -- the rows that the softmax reads
  have hread : ∀ qi < x.seq, slice scores (n * x.seq * x.kvLen + qi * x.kvLen) x.kvLen =
      scoreRow x update n qi := by
    intro qi hqi
    rw [mul_assoc n, ← slice_slice scores (row_fits hqi), hwindow, slice_rows hrowLen hqi]
  have hprobsWin : ((range x.seq).flatMap fun qi =>
      softmaxRow exp (slice scores (n * x.seq * x.kvLen + qi * x.kvLen) x.kvLen)) =
      (range x.seq).flatMap fun qi => softmaxRow exp (scoreRow x update n qi) :=
    flatMap_range_congr fun qi hqi => by rw [hread qi hqi]
  have hprobsLen : ((range x.seq).flatMap fun qi =>
      softmaxRow exp (scoreRow x update n qi)).length = x.seq * x.kvLen :=
    length_rows fun qi hqi => by rw [length_softmaxRow, hrowLen qi hqi]
  have hfit : n * (x.seq * x.kvLen) + x.seq * x.kvLen ≤ b.probs.length := by
    rw [hb.probs, mul_assoc]
    exact row_fits hn
  refine hb.step hn hscores ?_ (length_grid x.seq x.dim (fun qi d => matrixCtx exp x update qi n d))
    (fun qi hqi => ?_) ?_ ?_
  · rw [finishHead, hprobsWin, mul_assoc n]
    exact length_overwrite_row hprobsLen hfit
  · rw [slice_grid _ hqi, hm]
  · rw [finishHead, hprobsWin, mul_assoc n, slice_overwrite_row hprobsLen hfit, sgemm_ctx,
      mul_assoc n]
  · simp only [writeRows, add_mul, ← mul_assoc n]
    rfl

end Window

section Run

variable {exp : R → R} {x : Args R} {b : Buffers R} {m : Nat → Nat → Nat → R} {n : Nat}
  {tolerated : Failure → Prop}

omit [Field R] [LinearOrder R] in
theorem sliceFrom_lands {l : List R} {off : Nat} (h : off ≤ l.length ∨ tolerated .panic) :
    Lands tolerated (· = l.drop off) (sliceFrom l off) := by
  unfold sliceFrom
  by_cases hoff : off ≤ l.length
  · rw [if_pos hoff]
    exact rfl
  · rw [if_neg hoff]
    exact h.resolve_left hoff

theorem matrixHead_lands (hb : HeadsDone x m n b) (hn : n < x.heads)
    (hm : ∀ update, maskUpdate x = .ok update → m = matrixCtx exp x update)
    (hslices : kvOff x n ≤ x.k.length ∧ kvOff x n ≤ x.v.length ∨ tolerated .panic)
    (hmask : ∀ e, maskUpdate x = .error e → tolerated e) :
    Lands tolerated (HeadsDone x m (n + 1)) (matrixHead exp x b n) := by
  refine (sliceFrom_lands (hslices.imp_left And.left)).bind fun k _ hkeys => ?_
  have hupdate : Lands tolerated (fun update => maskUpdate x = .ok update) (maskUpdate x) := by
    cases hcase : maskUpdate x with
    | error e => exact hmask e hcase
    | ok => exact rfl
  refine hupdate.bind fun update _ hok =>
    (sliceFrom_lands (hslices.imp_left And.right)).bind fun v _ hvalues => ?_
  rw [hkeys, hvalues]
  have hscores := length_headScores (x := x) hb.scores hn
  exact finishHead_done hb hn (hm update hok)
    ((length_maskScores (hscores.trans hb.scores) hn update).trans hscores)
    (slice_maskScores hb.scores hn update)

def directKey (x : Args R) (h ki d : Nat) : R :=
  x.k.getD ((if x.kvBnsdLayout then h * x.kvLen * x.dim + ki * x.dim
    else ki * x.kvRowStride + h * x.dim) + d) 0

def directValue (x : Args R) (h ki d : Nat) : R :=
  x.v.getD (if x.kvBnsdLayout then h * x.kvLen * x.dim + d + ki * x.dim
    else ki * x.kvRowStride + (h * x.dim + d)) 0

/-- The context of a row as the decode path computes it. -/
def directCtx (exp : R → R) (x : Args R) (_ h d : Nat) : R :=
  attend exp x.dim x.kvLen (fun _ s => s) (fun d => x.q.getD (h * x.dim + d) 0) (directKey x h)
    (directValue x h) d

theorem decodeHead_done (hseq : x.seq = 1) (hb : HeadsDone x (directCtx exp x) n b)
    (hn : n < x.heads) : HeadsDone x (directCtx exp x) (n + 1) (decodeHead exp x b n) := by
  have hscores : n * x.kvLen + x.kvLen ≤ b.scores.length := by
    rw [hb.scores, hseq, mul_one]
    exact row_fits hn
  have hprobs : n * x.kvLen + x.kvLen ≤ b.probs.length := by
    rw [hb.probs, hseq, mul_one]
    exact row_fits hn
  -- the scores of the head, and their softmax, read back as written
  let row := (range x.kvLen).map fun ki => WithBot.some
    ((range x.dim).map fun d => x.q.getD (n * x.dim + d) 0 * directKey x n ki d).sum
  have hrowLen : row.length = x.kvLen := by rw [length_map, length_range]
  have hsoftLen : (softmaxRow exp row).length = x.kvLen := by rw [length_softmaxRow, hrowLen]
  have hrow : slice (decodeHead exp x b n).scores (n * x.kvLen) x.kvLen = row :=
    slice_overwrite_row hrowLen hscores
  have hsoft : (decodeHead exp x b n).probs =
      overwrite b.probs (n * x.kvLen) (softmaxRow exp row) :=
    congrArg (fun row => overwrite b.probs (n * x.kvLen) (softmaxRow exp row)) hrow
  have hctx : ∀ d, ((range x.kvLen).map fun ki =>
      (decodeHead exp x b n).probs.getD (n * x.kvLen + ki) 0 * directValue x n ki d).sum =
        directCtx exp x 0 n d := by
    intro d
    congr 1
    refine map_congr_left fun ki hki => ?_
    rw [hsoft, ← getD_slice _ (mem_range.1 hki), slice_overwrite_row hsoftLen hprobs]
  have hhead : (decodeHead exp x b n).ctxHead =
      overwrite b.ctxHead (n * x.dim) ((range x.dim).map (directCtx exp x 0 n)) :=
    congrArg (overwrite b.ctxHead (n * x.dim)) (map_congr_left fun d _ => hctx d)
  have hwin : ((range x.dim).map (directCtx exp x 0 n)).length = x.dim := by
    rw [length_map, length_range]
  have hwindow : ((range x.dim).map (directCtx exp x 0 n)).length = x.seq * x.dim := by
    rw [hwin, hseq, one_mul]
  refine hb.step hn (length_overwrite_row hrowLen hscores) ?_ hwindow (fun qi hqi => ?_) ?_ ?_
  · rw [hsoft]
    exact length_overwrite_row hsoftLen hprobs
  · obtain rfl : qi = 0 := by omega
    rw [zero_mul, slice, drop_zero, take_of_length_le hwin.le]
  · rw [hhead, hseq, one_mul]
  · -- one query: the only row of the head
    have hcopy : (decodeHead exp x b n).ctxFlat = overwrite b.ctxFlat (n * x.dim)
        (slice (decodeHead exp x b n).ctxHead (n * x.dim) x.dim) := rfl
    rw [hcopy, hseq, range_one, writeRows, foldl_cons, foldl_nil]
    simp only [zero_mul, zero_add, one_mul, add_zero]

/-- The operands are as long as their shapes say. -/
def LengthsFit (x : Args R) : Prop :=
  x.q.length = x.heads * x.seq * x.dim ∧ x.k.length = x.heads * x.kvLen * x.dim ∧
    x.v.length = x.heads * x.kvLen * x.dim

omit [Field R] [LinearOrder R] in
theorem expectedKv_eq (x : Args R) :
    (if x.kvBnsdLayout then x.heads * x.kvLen * x.dim else x.kvLen * x.heads * x.dim) =
      x.heads * x.kvLen * x.dim := by
  split
  · rfl
  · rw [mul_comm x.kvLen]

theorem attentionForward_eq (hfit : LengthsFit x) :
    attentionForward exp x = if x.isDecode ∧ x.seq = 1 then
        .ok ((range x.heads).foldl (decodeHead exp x) (.zero x))
      else (range x.heads).foldlM (matrixHead exp x) (.zero x) := by
  obtain ⟨hq, hk, hv⟩ := hfit
  simp only [attentionForward, expectedKv_eq]
  rw [if_neg (not_not.2 hq), if_neg (not_not.2 ⟨hk, hv⟩)]

theorem direct_context (hseq : x.seq = 1) :
    Context x ((range x.heads).foldl (decodeHead exp x) (.zero x)) (directCtx exp x) := by
  have hrun : ∀ n ≤ x.heads, HeadsDone x (directCtx exp x) n
      ((range n).foldl (decodeHead exp x) (.zero x)) := by
    intro n
    induction n with
    | zero => exact fun _ => headsDone_zero x _
    | succ n ih =>
      intro hn
      rw [range_succ, foldl_append, foldl_cons, foldl_nil]
      exact decodeHead_done hseq (ih (by omega)) (by omega)
  exact (hrun x.heads le_rfl).context

theorem matrix_lands (hm : ∀ update, maskUpdate x = .ok update → m = matrixCtx exp x update)
    (hslices : ∀ h < x.heads, kvOff x h ≤ x.k.length ∧ kvOff x h ≤ x.v.length ∨ tolerated .panic)
    (hmask : ∀ e, maskUpdate x = .error e → tolerated e) :
    Lands tolerated (Context x · m) ((range x.heads).foldlM (matrixHead exp x) (.zero x)) := by
  have hrun : Lands tolerated (HeadsDone x m (range x.heads).length)
      ((range x.heads).foldlM (matrixHead exp x) (.zero x)) := by
    refine Lands.foldlM (I := fun n b => HeadsDone x m n b) (headsDone_zero x m)
      fun n h b hget hb => ?_
    obtain ⟨hn, hh⟩ := List.getElem?_eq_some_iff.1 hget
    rw [getElem_range] at hh
    rw [length_range] at hn
    subst hh
    exact matrixHead_lands hb hn hm (hslices n hn) hmask
  rw [length_range] at hrun
  exact hrun.mono fun b _ hb => hb.context

end Run

section Layouts

variable {exp : R → R} {x : Args R} {m : Nat → Nat → Nat → R} {l : List R} {h ki d : Nat}

section

omit [LinearOrder R]

theorem strided_eq (x : Args R) (hl : Stores x.kvBnsdLayout x.kvLen x.heads x.dim l m)
    (hstride : x.kvRowStride = rowStride x.kvBnsdLayout x.heads x.dim) (hh : h < x.heads)
    (hki : ki < x.kvLen) (hd : d < x.dim) : strided x l h ki d = m ki h d := by
  rw [← hl.get ki hki h hh d hd, strided, hstride, layoutIndex, kvOff, rowStride]
  congr 1
  split <;> omega

theorem directKey_eq (x : Args R) (hl : Stores x.kvBnsdLayout x.kvLen x.heads x.dim x.k m)
    (hstride : x.kvRowStride = rowStride x.kvBnsdLayout x.heads x.dim) (hh : h < x.heads)
    (hki : ki < x.kvLen) (hd : d < x.dim) : directKey x h ki d = m ki h d := by
  rw [← hl.get ki hki h hh d hd, directKey, hstride, layoutIndex, rowStride]
  congr 1
  split <;> rfl

theorem directValue_eq (x : Args R) (hl : Stores x.kvBnsdLayout x.kvLen x.heads x.dim x.v m)
    (hstride : x.kvRowStride = rowStride x.kvBnsdLayout x.heads x.dim) (hh : h < x.heads)
    (hki : ki < x.kvLen) (hd : d < x.dim) : directValue x h ki d = m ki h d := by
  rw [← hl.get ki hki h hh d hd, directValue, hstride, layoutIndex, rowStride]
  congr 1
  split <;> omega

end

theorem pmajorToBnsd_eq {S : Type*} [Zero S] {src : List S} {n heads dim : Nat}
    (hlen : src.length = n * (heads * dim)) :
    pmajorToBnsd src n heads dim = (range heads).flatMap fun h =>
      (range n).flatMap fun p => slice src (p * heads * dim + h * dim) dim := by
  have hwindow : ∀ h < heads, ∀ p < n,
      (slice src (p * heads * dim + h * dim) dim).length = dim := by
    intro h hh p hp
    have hrow : p * (heads * dim) + heads * dim ≤ n * (heads * dim) := row_fits hp
    have hhead : h * dim + dim ≤ heads * dim := row_fits hh
    refine length_slice ?_
    rw [hlen, mul_assoc]
    omega
  have hplaneLen : ∀ h < heads, ((range n).flatMap
      fun p => slice src (p * heads * dim + h * dim) dim).length = n * dim := by
    intro h hh
    rw [length_flatMap_windows fun p hp => hwindow h hh p (mem_range.1 hp), length_range]
  -- the copies of one head fill its plane, and the planes the tensor
  have hplane : ∀ (dst : List S) h, h < heads → 0 + h * (n * dim) ≤ dst.length →
      (range n).foldlM (fun dst p => pure (overwrite dst (h * n * dim + p * dim)
        (slice src (p * heads * dim + h * dim) dim))) dst =
      some (overwrite dst (0 + h * (n * dim))
        ((range n).flatMap fun p => slice src (p * heads * dim + h * dim) dim)) := by
    intro dst h hh hbase
    rw [zero_add, ← mul_assoc] at hbase ⊢
    exact foldlM_overwrite_eq n (fun _ _ _ _ => rfl) (hwindow h hh) hbase
  have hall := foldlM_overwrite_eq heads hplane hplaneLen
    (Nat.zero_le (replicate src.length (0 : S)).length)
  simp only [foldlM_pure] at hall
  rw [pmajorToBnsd, Option.some.inj hall, overwrite, length_flatMap_windows fun h hh =>
    hplaneLen h (mem_range.1 hh), length_range, hlen, drop_of_length_le (by
      rw [length_replicate, mul_left_comm]
      omega), take_zero, nil_append, append_nil]

/-- The same keys and values in both layouts. -/
structure SameKv (x : Args R) (k v k' v' : List R) (mk mv : Nat → Nat → Nat → R) : Prop where
  k : Stores false x.kvLen x.heads x.dim k mk
  v : Stores false x.kvLen x.heads x.dim v mv
  k' : Stores true x.kvLen x.heads x.dim k' mk
  v' : Stores true x.kvLen x.heads x.dim v' mv

variable {k v k' v' : List R} {mk mv : Nat → Nat → Nat → R}

section SameKv

variable (hkv : SameKv x k v k' v' mk mv) (hh : h < x.heads)
include hkv hh

theorem decodeHead_layout (b : Buffers R) :
    decodeHead exp (x.withKv false k v) b h = decodeHead exp (x.withKv true k' v') b h := by
  have hkey : ∀ ki < x.kvLen, ∀ d < x.dim, directKey (x.withKv false k v) h ki d =
      directKey (x.withKv true k' v') h ki d := fun ki hki d hd =>
    (directKey_eq (x.withKv false k v) hkv.k rfl hh hki hd).trans
      (directKey_eq (x.withKv true k' v') hkv.k' rfl hh hki hd).symm
  have hvalue : ∀ ki < x.kvLen, ∀ d < x.dim, directValue (x.withKv false k v) h ki d =
      directValue (x.withKv true k' v') h ki d := fun ki hki d hd =>
    (directValue_eq (x.withKv false k v) hkv.v rfl hh hki hd).trans
      (directValue_eq (x.withKv true k' v') hkv.v' rfl hh hki hd).symm
  have hscores : (decodeHead exp (x.withKv false k v) b h).scores =
      (decodeHead exp (x.withKv true k' v') b h).scores := by
    refine congrArg (overwrite b.scores (h * x.kvLen)) (map_congr_left fun ki hki => ?_)
    refine congrArg (fun row : List R => WithBot.some row.sum) (map_congr_left fun d hd => ?_)
    exact congrArg (x.q.getD (h * x.dim + d) 0 * ·)
      (hkey ki (mem_range.1 hki) d (mem_range.1 hd))
  have hprobs : (decodeHead exp (x.withKv false k v) b h).probs =
      (decodeHead exp (x.withKv true k' v') b h).probs :=
    congrArg (fun scores => overwrite b.probs (h * x.kvLen)
      (softmaxRow exp (slice scores (h * x.kvLen) x.kvLen))) hscores
  have hctxHead : (decodeHead exp (x.withKv false k v) b h).ctxHead =
      (decodeHead exp (x.withKv true k' v') b h).ctxHead := by
    refine congrArg (overwrite b.ctxHead (h * x.dim)) (map_congr_left fun d hd => ?_)
    refine congrArg sum (map_congr_left fun ki hki => ?_)
    exact congr (congrArg (fun probs : List R => (probs.getD (h * x.kvLen + ki) 0 * ·)) hprobs)
      (hvalue ki (mem_range.1 hki) d (mem_range.1 hd))
  have hctxFlat : (decodeHead exp (x.withKv false k v) b h).ctxFlat =
      (decodeHead exp (x.withKv true k' v') b h).ctxFlat :=
    congrArg (fun ctx => overwrite b.ctxFlat (h * x.dim) (slice ctx (h * x.dim) x.dim)) hctxHead
  exact Buffers.ext hscores hprobs hctxHead hctxFlat

section

omit [LinearOrder R]

theorem scores_layout (scores : List (WithBot R)) :
    headScores (x.withKv false k v) scores h (k.drop (kvOff (x.withKv false k v) h)) =
      headScores (x.withKv true k' v') scores h (k'.drop (kvOff (x.withKv true k' v') h)) := by
  have hfalse := sgemm_scores (x.withKv false k v) h
  have htrue := sgemm_scores (x.withKv true k' v') h
  have hentries : grid x.seq x.kvLen (fun qi ki => ((range x.dim).map fun d =>
        queryAt x qi h d * strided (x.withKv false k v) k h ki d).sum) =
      grid x.seq x.kvLen fun qi ki => ((range x.dim).map fun d =>
        queryAt x qi h d * strided (x.withKv true k' v') k' h ki d).sum := by
    refine grid_congr fun qi _ ki hki => ?_
    refine congrArg sum (map_congr_left fun d hd => ?_)
    have hd := mem_range.1 hd
    rw [strided_eq (x.withKv false k v) hkv.k rfl hh hki hd,
      strided_eq (x.withKv true k' v') hkv.k' rfl hh hki hd]
  exact congrArg (fun product => overwrite scores (h * x.seq * x.kvLen)
    (product.map WithBot.some)) (hfalse.trans (hentries.trans htrue.symm))

theorem values_layout (probs : List R) :
    sgemm false x.seq x.dim x.kvLen probs x.kvLen (v.drop (kvOff (x.withKv false k v) h))
        (rowStride false x.heads x.dim) =
      sgemm false x.seq x.dim x.kvLen probs x.kvLen (v'.drop (kvOff (x.withKv true k' v') h))
        (rowStride true x.heads x.dim) := by
  refine grid_congr fun qi _ d hd => ?_
  refine congrArg sum (map_congr_left fun ki hki => ?_)
  have hki := mem_range.1 hki
  rw [if_neg (by decide), if_neg (by decide), getD_drop, getD_drop]
  exact congrArg (probs.getD (qi * x.kvLen + ki) 0 * ·)
    ((strided_eq (x.withKv false k v) hkv.v rfl hh hki hd).trans
      (strided_eq (x.withKv true k' v') hkv.v' rfl hh hki hd).symm)

end

theorem finishHead_layout (b : Buffers R) (scores : List (WithBot R)) :
    finishHead exp (x.withKv false k v) b h scores (v.drop (kvOff (x.withKv false k v) h)) =
      finishHead exp (x.withKv true k' v') b h scores
        (v'.drop (kvOff (x.withKv true k' v') h)) := by
  have hctxHead : (finishHead exp (x.withKv false k v) b h scores
      (v.drop (kvOff (x.withKv false k v) h))).ctxHead =
      (finishHead exp (x.withKv true k' v') b h scores
        (v'.drop (kvOff (x.withKv true k' v') h))).ctxHead :=
    congrArg (overwrite b.ctxHead (h * x.seq * x.dim)) (values_layout hkv hh _)
  have hctxFlat := congrArg (fun ctx : List R => (range x.seq).foldl (fun flat qi =>
    overwrite flat (qi * x.heads * x.dim + h * x.dim)
      (slice ctx (h * x.seq * x.dim + qi * x.dim) x.dim)) b.ctxFlat) hctxHead
  exact Buffers.ext rfl rfl hctxHead hctxFlat

end SameKv

theorem matrixHead_eq (b : Buffers R) (hk : kvOff x h ≤ x.k.length) (hv : kvOff x h ≤ x.v.length) :
    matrixHead exp x b h = (maskUpdate x).map fun update =>
      finishHead exp x b h (maskScores x h update (headScores x b.scores h (x.k.drop (kvOff x h))))
        (x.v.drop (kvOff x h)) := by
  rw [matrixHead, sliceFrom, sliceFrom, if_pos hk, if_pos hv]
  cases maskUpdate x <;> rfl

theorem matrixHead_layout (hkv : SameKv x k v k' v' mk mv) (hh : h < x.heads) (b : Buffers R)
    (hroom : kvOff (x.withKv false k v) h ≤ x.heads * x.kvLen * x.dim) :
    matrixHead exp (x.withKv false k v) b h = matrixHead exp (x.withKv true k' v') b h := by
  have hroom' : kvOff (x.withKv true k' v') h ≤ x.heads * x.kvLen * x.dim := by
    have hle : h * x.kvLen * x.dim ≤ x.heads * x.kvLen * x.dim :=
      Nat.mul_le_mul_right _ (Nat.mul_le_mul_right _ hh.le)
    exact hle
  rw [matrixHead_eq b (hkv.k.length.symm ▸ hroom) (hkv.v.length.symm ▸ hroom),
    matrixHead_eq b (hkv.k'.length.symm ▸ hroom') (hkv.v'.length.symm ▸ hroom')]
  refine congrArg (Except.map · (maskUpdate x)) (funext fun update => ?_)
  rw [show (x.withKv false k v).k = k from rfl, show (x.withKv true k' v').k = k' from rfl,
    scores_layout hkv hh]
  exact finishHead_layout hkv hh b _

theorem kvOff_le {kvLen heads dim : Nat} (hh : h < heads)
    (hroom : kvLen = 0 → heads ≤ 1 ∨ dim = 0) : h * dim ≤ heads * kvLen * dim := by
  rcases Nat.eq_zero_or_pos kvLen with hzero | hpos
  · rcases hroom hzero with hone | hdim
    · obtain rfl : h = 0 := by omega
      omega
    · rw [hdim]
      omega
  · calc h * dim ≤ heads * dim := Nat.mul_le_mul_right _ hh.le
      _ ≤ heads * kvLen * dim := Nat.mul_le_mul_right _ (Nat.le_mul_of_pos_right _ hpos)

theorem attentionForward_layout (hkv : SameKv x k v k' v' mk mv)
    (hroom : x.kvLen = 0 → x.heads ≤ 1 ∨ x.dim = 0 ∨ (x.isDecode = true ∧ x.seq = 1)) :
    attentionForward exp (x.withKv false k v) = attentionForward exp (x.withKv true k' v') := by
  by_cases hq : x.q.length = x.heads * x.seq * x.dim
  · have hfit : LengthsFit (x.withKv false k v) := ⟨hq, hkv.k.length, hkv.v.length⟩
    have hfit' : LengthsFit (x.withKv true k' v') := ⟨hq, hkv.k'.length, hkv.v'.length⟩
    rw [attentionForward_eq hfit, attentionForward_eq hfit']
    by_cases hdirect : x.isDecode = true ∧ x.seq = 1
    · refine (if_pos hdirect).trans (Eq.trans ?_ (if_pos hdirect).symm)
      refine congrArg Except.ok (foldl_ext _ _ _ fun b h hh => ?_)
      exact decodeHead_layout hkv (mem_range.1 hh) b
    · refine (if_neg hdirect).trans (Eq.trans ?_ (if_neg hdirect).symm)
      refine Lockstep.eq (Lockstep.foldlM (r := fun _ => Eq) rfl fun n h b b' hget hb => ?_)
      obtain ⟨hn, hh⟩ := List.getElem?_eq_some_iff.1 hget
      rw [getElem_range] at hh
      rw [length_range] at hn
      subst hh hb
      rw [matrixHead_layout hkv hn b (kvOff_le hn fun hzero =>
        (hroom hzero).imp_right (·.resolve_right hdirect))]
      exact Lockstep.refl _
  · exact (if_pos hq).trans (if_pos hq).symm

end Layouts

section Causal

variable {exp : R → R}

theorem softmaxRow_append_bot (exp : R → R) (row : List (WithBot R)) (j : Nat) :
    softmaxRow exp (row ++ replicate j ⊥) = softmaxRow exp row ++ replicate j 0 := by
  have hmax : (row ++ replicate j ⊥).foldl max negMask = row.foldl max negMask := by
    rw [foldl_append]
    generalize row.foldl max negMask = top
    induction j with
    | zero => rfl
    | succ j ih =>
      rw [replicate_succ, foldl_cons, max_eq_left bot_le]
      exact ih
  have hzero : ∀ top : WithBot R, expSub exp ⊥ top = 0 := fun _ => rfl
  have hsum : (replicate j (0 : R)).sum = 0 :=
    sum_eq_zero fun _ hx => eq_of_mem_replicate hx
  simp only [softmaxRow, hmax, map_append, map_replicate, hzero, sum_append, hsum,
    add_zero, zero_div]

variable {p : Nat} {update : Nat → Nat → WithBot R → WithBot R}

theorem range_split {α : Type} {n : Nat} (hp : p < n) (f : Nat → α) :
    (range n).map f =
      (range (p + 1)).map f ++ (range (n - (p + 1))).map fun i => f (p + 1 + i) := by
  rw [← Nat.add_sub_cancel' (show p + 1 ≤ n from hp), range_add, map_append,
    map_map, Nat.add_sub_cancel_left]
  rfl

/-- A query at position `p` under a causal mask attends to the first `p + 1` keys. -/
theorem attend_causal {dim n : Nat} (hp : p < n) {update : Nat → WithBot R → WithBot R}
    (hupdate : ∀ ki < n, ∀ s, update ki s = if p < ki then ⊥ else s) {q q' : Nat → R}
    {k k' v v' : Nat → Nat → R} (hq : ∀ d < dim, q d = q' d)
    (hk : ∀ ki < p + 1, ∀ d < dim, k ki d = k' ki d) {d : Nat}
    (hv : ∀ ki < p + 1, v ki d = v' ki d) :
    attend exp dim n update q k v d = attend exp dim (p + 1) (fun _ s => s) q' k' v' d := by
  have hrow : ((range n).map fun ki =>
      update ki (WithBot.some ((range dim).map fun l => q l * k ki l).sum)) =
      ((range (p + 1)).map fun ki =>
        WithBot.some ((range dim).map fun l => q' l * k' ki l).sum) ++
      replicate (n - (p + 1)) ⊥ := by
    rw [range_split hp]
    congr 1
    · refine map_congr_left fun ki hki => ?_
      have hki := mem_range.1 hki
      rw [hupdate ki (by omega), if_neg (by omega)]
      refine congrArg (fun row : List R => WithBot.some row.sum)
        (map_congr_left fun l hl => ?_)
      have hl := mem_range.1 hl
      rw [hq l hl, hk ki hki l hl]
    · rw [eq_replicate_iff, length_map, length_range]
      refine ⟨rfl, fun s hs => ?_⟩
      obtain ⟨i, hi, rfl⟩ := mem_map.1 hs
      have hi := mem_range.1 hi
      rw [hupdate _ (by omega), if_pos (by omega)]
  have hlen : (softmaxRow exp ((range (p + 1)).map fun ki =>
      WithBot.some ((range dim).map fun l => q' l * k' ki l).sum)).length = p + 1 := by
    rw [length_softmaxRow, length_map, length_range]
  simp only [attend, hrow, softmaxRow_append_bot]
  generalize hsoft : softmaxRow exp ((range (p + 1)).map fun ki =>
    WithBot.some ((range dim).map fun l => q' l * k' ki l).sum) = soft at hlen
  -- the weights of the masked keys are zero
  have hrest : ((range (n - (p + 1))).map fun i =>
      (soft ++ replicate (n - (p + 1)) 0).getD (p + 1 + i) 0 * v (p + 1 + i) d).sum = 0 := by
    refine sum_eq_zero fun y hy => ?_
    obtain ⟨i, hi, rfl⟩ := mem_map.1 hy
    have hget : (soft ++ replicate (n - (p + 1)) 0).getD (p + 1 + i) 0 = 0 := by
      rw [getD_append_right _ _ _ _ (by omega), getD_eq_getElem?_getD, getElem?_replicate]
      split <;> rfl
    rw [hget, zero_mul]
  rw [range_split hp, sum_append, hrest, add_zero]
  refine congrArg sum (map_congr_left fun ki hki => ?_)
  have hki := mem_range.1 hki
  rw [getD_append _ _ _ _ (by omega), hv ki hki]

variable [IsStrictOrderedRing R] {x : Args R} {n : Nat}

theorem maskUpdate_prefill (h : Prefill x n) :
    ∃ update, maskUpdate x = .ok update ∧ ∀ qi < n, ∀ ki < n, ∀ s,
      update qi ki s = if qi < ki then ⊥ else s := by
  have hbot : ∀ s : WithBot R, s + negMask = ⊥ := WithBot.add_bot
  rcases h.mask with hmask | hmask
  · refine ⟨_, by rw [maskUpdate, h.isDecode, hmask]; rfl, fun qi _ ki _ s => ?_⟩
    rw [hbot]
  · have hshape : (causalMask n : MaskTensor R).shape = [1, 1, x.seq, x.kvLen] := by
      rw [h.seq, h.kvLen]
      rfl
    -- ones and zeros are not taken for an additive mask
    have hindicator : ¬ (causalMask n : MaskTensor R).data.any
        (· < WithBot.some (-100)) = true := by
      intro hany
      obtain ⟨entry, hentry, hlt⟩ := any_eq_true.1 hany
      obtain ⟨qi, -, hrow⟩ := mem_flatMap.1 hentry
      obtain ⟨ki, -, rfl⟩ := mem_map.1 hrow
      have hentry : (if ki ≤ qi then (1 : WithBot R) else 0) < WithBot.some (-100) :=
        of_decide_eq_true hlt
      by_cases hle : ki ≤ qi
      · rw [if_pos hle] at hentry
        have : (1 : R) < -100 := WithBot.coe_lt_coe.1 hentry
        linarith
      · rw [if_neg hle] at hentry
        have : (0 : R) < -100 := WithBot.coe_lt_coe.1 hentry
        linarith
    have hone : (1 : WithBot R) ≠ 0 := fun h => one_ne_zero (WithBot.coe_injective h)
    refine ⟨_, by
      rw [maskUpdate, h.isDecode, hmask]
      exact (if_pos hshape).trans (if_neg hindicator), fun qi hqi ki hki s => ?_⟩
    have hentry : (causalMask n : MaskTensor R).data.getD (qi * x.kvLen + ki) 0 =
        if ki ≤ qi then 1 else 0 := by
      rw [h.kvLen]
      exact getD_grid _ hqi hki 0
    rw [hentry, hbot]
    by_cases hle : ki ≤ qi
    · rw [if_pos hle, if_neg hone, if_neg (by omega)]
    · rw [if_neg hle, if_pos rfl, if_pos (by omega)]

section

omit [IsStrictOrderedRing R]

theorem prefill_context (h : Prefill x n) (hn : 0 < n) {q k v : Nat → Nat → Nat → R}
    (hx : Holds x q k v) (hupdate : maskUpdate x = .ok update) :
    ∃ b, attentionForward exp x = .ok b ∧ Context x b (matrixCtx exp x update) := by
  have hslices : ∀ i < x.heads, kvOff x i ≤ x.heads * x.kvLen * x.dim := by
    intro i hi
    unfold kvOff
    split
    · exact Nat.mul_le_mul_right _ (Nat.mul_le_mul_right _ hi.le)
    · exact kvOff_le hi fun hzero => by
        have := h.kvLen
        omega
  have hrun : Lands (fun _ => False) (Context x · (matrixCtx exp x update))
      ((range x.heads).foldlM (matrixHead exp x) (.zero x)) := by
    refine matrix_lands (fun update' hupdate' => ?_) (fun i hi => .inl ?_) fun e he => ?_
    · rw [Except.ok.inj (hupdate.symm.trans hupdate')]
    · rw [hx.k.length, hx.v.length]
      exact ⟨hslices i hi, hslices i hi⟩
    · rw [hupdate] at he
      exact absurd he nofun
  have hmatrix : ¬ (x.isDecode = true ∧ x.seq = 1) := fun hd => by
    rw [h.isDecode] at hd
    exact absurd hd.1 (by decide)
  rw [attentionForward_eq ⟨hx.q.length, hx.k.length, hx.v.length⟩, if_neg hmatrix]
  cases hresult : (range x.heads).foldlM (matrixHead exp x) (.zero x) with
  | error =>
    rw [hresult] at hrun
    exact False.elim hrun
  | ok b =>
    rw [hresult] at hrun
    exact ⟨b, rfl, hrun⟩

theorem prefill_row {y : Args R} (hp : p < n) (h : Prefill x n)
    {q k v : Nat → Nat → Nat → R} (hx : Holds x q k v) (hdecode : DecodeOf y x (p + 1))
    (hy : Holds y (fun _ => q p) k v)
    (hupdate : ∀ qi < n, ∀ ki < n, ∀ s, update qi ki s = if qi < ki then ⊥ else s) :
    ∀ i < x.heads, ∀ d < x.dim, matrixCtx exp x update p i d = directCtx exp y 0 i d := by
  intro i hi d hd
  have hi' : i < y.heads := hdecode.heads.symm ▸ hi
  have hd' : ∀ {d}, d < x.dim → d < y.dim := fun h => hdecode.dim.symm ▸ h
  rw [matrixCtx, directCtx, h.kvLen, hdecode.kvLen, hdecode.dim]
  refine attend_causal hp (fun ki hki s => hupdate p hp ki hki s) (fun l hl => ?_)
    (fun ki hki l hl => ?_) fun ki hki => ?_
  · -- the query of a decode call is the only one of its head
    have hrow := hx.q.get p (h.seq.symm ▸ hp) i hi l hl
    have honly := hy.q.get 0 (by rw [hdecode.seq]; omega) i hi' l (hd' hl)
    rw [layoutIndex, if_pos rfl] at hrow honly
    rw [hdecode.seq, hdecode.dim, mul_one, zero_mul, add_zero] at honly
    rw [queryAt, honly, ← mul_assoc, ← add_assoc, hrow]
  · rw [strided_eq x hx.k hx.stride hi (by rw [h.kvLen]; omega) hl,
      directKey_eq y hy.k hy.stride hi' (by rw [hdecode.kvLen]; exact hki) (hd' hl)]
  · rw [strided_eq x hx.v hx.stride hi (by rw [h.kvLen]; omega) hd,
      directValue_eq y hy.v hy.stride hi' (by rw [hdecode.kvLen]; exact hki) (hd' hd)]

end

end Causal

theorem attentionForward_context {exp : R → R} {x : Args R} {b : Buffers R}
    (h : attentionForward exp x = .ok b) : ∃ m, Context x b m := by
  have hfit : LengthsFit x := by
    simp only [attentionForward, expectedKv_eq] at h
    split at h
    · exact absurd h nofun
    · rename_i hq
      split at h
      · exact absurd h nofun
      · rename_i hkv
        exact ⟨not_not.1 hq, not_not.1 hkv⟩
  rw [attentionForward_eq hfit] at h
  by_cases hdirect : x.isDecode = true ∧ x.seq = 1
  · rw [if_pos hdirect] at h
    cases h
    exact ⟨_, direct_context hdirect.2⟩
  · rw [if_neg hdirect] at h
    -- a call that returned met none of the failures that are tolerated here
    have hlands : ∀ m, (∀ update, maskUpdate x = .ok update → m = matrixCtx exp x update) →
        Context x b m := by
      intro m hm
      have hrun : Lands (fun _ => True) (Context x · m)
          ((range x.heads).foldlM (matrixHead exp x) (.zero x)) :=
        matrix_lands hm (fun _ _ => .inr trivial) fun _ _ => trivial
      rwa [h] at hrun
    cases hmask : maskUpdate x with
    | error => exact ⟨fun _ _ _ => 0, hlands _ fun update hok => by
        rw [hmask] at hok
        exact absurd hok nofun⟩
    | ok update => exact ⟨matrixCtx exp x update, hlands _ fun update' hok => by
        rw [Except.ok.inj (hmask.symm.trans hok)]⟩

/-- The layout of the keys does not matter, and a causal prefill row is its decode call. -/
theorem attention_agrees [IsStrictOrderedRing R] (exp : R → R) :
    (∀ (x : Args R) (k v k' v' : List R) (mk mv : Nat → Nat → Nat → R), SameKv x k v k' v' mk mv →
      (x.kvLen = 0 → x.heads ≤ 1 ∨ x.dim = 0 ∨ (x.isDecode = true ∧ x.seq = 1)) →
      attentionForward exp (x.withKv false k v) = attentionForward exp (x.withKv true k' v')) ∧
    (∀ (x : Args R) (b : Buffers R), attentionForward exp x = .ok b → ∃ m, Context x b m) ∧
    ∀ (x y : Args R) (n p : Nat) (q k v : Nat → Nat → Nat → R), Prefill x n → Holds x q k v →
      p < n → DecodeOf y x (p + 1) → Holds y (fun _ => q p) k v →
      ∃ b c m m', attentionForward exp x = .ok b ∧ Context x b m ∧
        attentionForward exp y = .ok c ∧ Context y c m' ∧
        ∀ h < x.heads, ∀ d < x.dim, m p h d = m' 0 h d := by
  refine ⟨fun x k v k' v' mk mv hkv hroom => attentionForward_layout hkv hroom,
    fun x b h => attentionForward_context h, fun x y n p q k v hprefill hx hp hdecode hy => ?_⟩
  obtain ⟨update, hupdate, hcausal⟩ := maskUpdate_prefill hprefill
  obtain ⟨b, hb, hcontext⟩ :
      ∃ b, attentionForward exp x = .ok b ∧ Context x b (matrixCtx exp x update) :=
    prefill_context hprefill (by omega) hx hupdate
  have hy' : attentionForward exp y =
      .ok ((range y.heads).foldl (decodeHead exp y) (.zero y)) := by
    rw [attentionForward_eq ⟨hy.q.length, hy.k.length, hy.v.length⟩,
      if_pos ⟨hdecode.isDecode, hdecode.seq⟩]
  exact ⟨b, _, _, _, hb, hcontext, hy', direct_context hdecode.seq,
    prefill_row hp hprefill hx hdecode hy hcausal⟩

/-! ## Two calls -/

/-- Two queries over two keys of two heads, head-major. -/
def pairCall : Args ℚ where
  q := [1, 2, 3, 4]
  seq := 2
  k := [5, 6, 7, 8]
  v := [9, 10, 11, 12]
  kvLen := 2
  kvRowStride := 1
  kvBnsdLayout := true
  heads := 2
  dim := 1
  isDecode := false
  mask := none

/-- The decode call for the first of the queries, with its key position-major. -/
def firstCall : Args ℚ :=
  { pairCall with
    q := [1, 3], seq := 1, k := [5, 7], v := [9, 11], kvLen := 1, kvRowStride := 2
    kvBnsdLayout := false, isDecode := true }

/-- The first row of the prefill does not see the second key. -/
theorem attention_agrees_pair :
    ∃ b c m m', attentionForward id pairCall = .ok b ∧ Context pairCall b m ∧
      attentionForward id firstCall = .ok c ∧ Context firstCall c m' ∧
      ∀ h < 2, ∀ d < 1, m 0 h d = m' 0 h d := by
  have hstores : ∀ l : List ℚ, l.length = 4 →
      Stores true 2 2 1 l fun i h d => l.getD (layoutIndex true 2 2 1 i h d) 0 :=
    fun l hlen => ⟨hlen, fun _ _ _ _ _ _ => rfl⟩
  have hprefill : Holds pairCall _ _ _ := ⟨hstores _ rfl, hstores _ rfl, hstores _ rfl, rfl⟩
  exact (attention_agrees id).2.2 pairCall firstCall 2 0 _ _ _ ⟨rfl, rfl, rfl, .inl rfl⟩ hprefill
    (by decide) ⟨rfl, rfl, rfl, rfl, rfl⟩
    ⟨⟨rfl, by decide +kernel⟩, ⟨rfl, by decide +kernel⟩, ⟨rfl, by decide +kernel⟩, rfl⟩

/-- No queries and no keys, for two heads. -/
def emptyCall : Args ℚ where
  q := []
  seq := 0
  k := []
  v := []
  kvLen := 0
  kvRowStride := 1
  kvBnsdLayout := true
  heads := 2
  dim := 1
  isDecode := false
  mask := none

/-- Without keys the second head of a position-major call slices past the end. -/
theorem layouts_differ :
    ¬ ∀ (x : Args ℚ) (k v k' v' : List ℚ) (mk mv : Nat → Nat → Nat → ℚ), SameKv x k v k' v' mk mv →
      attentionForward id (x.withKv false k v) = attentionForward id (x.withKv true k' v') := by
  intro h
  have hnone : ∀ bnsd, Stores bnsd 0 2 1 [] fun _ _ _ => (0 : ℚ) := fun _ => ⟨rfl, nofun⟩
  have hsame := h emptyCall [] [] [] [] _ _ ⟨hnone _, hnone _, hnone _, hnone _⟩
  have hpanic : attentionForward id (emptyCall.withKv false [] []) = .error .panic := rfl
  have hok : attentionForward id (emptyCall.withKv true [] []) = .ok ⟨[], [], [], []⟩ := rfl
  rw [hpanic, hok] at hsame
  exact absurd hsame nofun

end CompileForge.Runtime.Attention
