/-
  The compiled causal attention over a sequence given at once, and over its last row with the
  cached rows before it. The causal mask compares loop indices, and the only query row of a
  decode step has index 0, so it sees the first key alone: the step returns the first value
  row. Without the mask it would return the row the whole sequence gives.
-/

import CompileForge.SfDialect.LowerAttention
import CompileForge.Runtime.Cache.DecodeHistory
import CompileForge.Lib.RowMajor
import CompileForge.Lib.Shards
import Mathlib.Analysis.SpecialFunctions.Exp

namespace CompileForge.SfDialect

open Lib CompileForge.Runtime List

section Rows

variable {R : Type*} {batch heads seq dim : Nat} (t : Bhsd R batch heads seq dim)

def firstRows (m : Nat) (hm : m ≤ seq) : Bhsd R batch heads m dim :=
  fun b h i => t b h (i.castLE hm)

/-- A single row, as a decode step has it. -/
def oneRow (i : Fin seq) : Bhsd R batch heads 1 dim :=
  fun b h _ => t b h i

/-- The cached rows with the new one behind them. -/
def appendRow {m : Nat} (history : Bhsd R batch heads m dim) (new : Bhsd R batch heads 1 dim) :
    Bhsd R batch heads (m + 1) dim :=
  fun b h => Fin.snoc (fun i => history b h i) (new b h 0)

theorem appendRow_firstRows {m : Nat} (hm : m < seq) :
    appendRow (firstRows t m (le_of_lt hm)) (oneRow t ⟨m, hm⟩) = firstRows t (m + 1) hm := by
  funext b h i
  refine Fin.lastCases ?_ (fun j => ?_) i
  · rw [appendRow, Fin.snoc_last]
    rfl
  · rw [appendRow, Fin.snoc_castSucc]
    rfl

end Rows

/-! ## A decode step and the whole sequence -/

namespace SdpaOp

variable {R : Type*} [Field R] [LinearOrder R] {batch kvHeads group seq dim : Nat}

section Rows

variable (op : SdpaOp R) (q : Bhsd R batch (kvHeads * group) seq dim)
  (k v : Bhsd R batch kvHeads seq dim) (p : Fin seq)

/-- The op on the query row of position `p`, with the keys and values up to its own. -/
def decodeRow : Bhsd R batch (kvHeads * group) 1 dim :=
  op.eval (oneRow q p) (appendRow (firstRows k p p.isLt.le) (oneRow k p))
    (appendRow (firstRows v p p.isLt.le) (oneRow v p))

/-- The op once on the rows up to position `p`. -/
def prefill : Bhsd R batch (kvHeads * group) (p + 1) dim :=
  op.eval (firstRows q (p + 1) p.isLt) (firstRows k (p + 1) p.isLt) (firstRows v (p + 1) p.isLt)

/-- The decode step of position `p` returns the row of that position. -/
def MatchesPrefill : Prop :=
  ∀ b h e, op.decodeRow q k v p b h 0 e = op.prefill q k v p b h (Fin.last p) e

end Rows

/-! ## What the masks show -/

variable {op : SdpaOp R} {m : Nat} {p : Fin seq}

section

omit [LinearOrder R]

theorem scoresScaled_zero (hcausal : op.isCausal = true) {seqQ seqKv : Nat}
    (q : Bhsd R batch (kvHeads * group) (seqQ + 1) dim) (k : Bhsd R batch kvHeads (seqKv + 1) dim)
    (b : Fin batch) (h : Fin (kvHeads * group)) (n : Fin (seqKv + 1)) :
    op.scoresScaled q k b h 0 n =
      if n = 0 then ((scores q k b h 0 0 * op.scale : R) : WithBot R) else ⊥ := by
  simp only [scoresScaled, hcausal, if_true, causalMask]
  by_cases hn : n = 0
  · have hge : ((0 : Fin (seqQ + 1)) : Nat) ≥ ((0 : Fin (seqKv + 1)) : Nat) := Nat.le_refl 0
    rw [if_pos hn, hn, if_pos hge, ← WithBot.coe_add, add_zero]
  · have hpos : ¬ (((0 : Fin (seqQ + 1)) : Nat) ≥ (n : Nat)) := by
      intro hle
      exact hn (Fin.ext (Nat.le_zero.1 hle))
    rw [if_neg hn, if_neg hpos, WithBot.add_bot]

theorem scoresScaled_last (hcausal : op.isCausal = true)
    (q : Bhsd R batch (kvHeads * group) (m + 1) dim) (k : Bhsd R batch kvHeads (m + 1) dim)
    (b : Fin batch) (h : Fin (kvHeads * group)) (n : Fin (m + 1)) :
    op.scoresScaled q k b h (Fin.last m) n =
      ((scores q k b h (Fin.last m) n * op.scale : R) : WithBot R) := by
  have hle : ((Fin.last m : Fin (m + 1)) : Nat) ≥ (n : Nat) := Nat.le_of_lt_succ n.isLt
  simp only [scoresScaled, hcausal, if_true, causalMask, if_pos hle]
  rw [← WithBot.coe_add, add_zero]

end

theorem softmax_one_key (hexp : op.exp 0 ≠ 0) (s : R) (n : Fin (m + 1)) :
    op.softmax (fun j => if j = 0 then (s : WithBot R) else ⊥) n = if n = 0 then 1 else 0 := by
  have hmax :
      Finset.univ.sup (fun j : Fin (m + 1) => if j = 0 then (s : WithBot R) else ⊥) = s := by
    refine le_antisymm (Finset.sup_le fun j _ => ?_) ?_
    · split
      · exact le_refl _
      · exact bot_le
    · have hle := Finset.le_sup (f := fun j : Fin (m + 1) => if j = 0 then (s : WithBot R) else ⊥)
        (Finset.mem_univ 0)
      rwa [if_pos rfl] at hle
  have hentry : ∀ j : Fin (m + 1),
      op.expVal (sub (if j = 0 then (s : WithBot R) else ⊥) s) = if j = 0 then op.exp 0 else 0 := by
    intro j
    by_cases hj : j = 0
    · rw [if_pos hj, if_pos hj]
      show op.exp (s - s) = op.exp 0
      rw [sub_self]
    · rw [if_neg hj, if_neg hj]
      rfl
  simp only [softmax, hmax, hentry, Finset.sum_ite_eq', Finset.mem_univ, if_true]
  by_cases hn : n = 0
  · rw [if_pos hn, if_pos hn, div_self hexp]
  · rw [if_neg hn, if_neg hn, zero_div]

theorem decodeRow_eq_first (hcausal : op.isCausal = true) (hexp : op.exp 0 ≠ 0)
    (q : Bhsd R batch (kvHeads * group) seq dim) (k v : Bhsd R batch kvHeads seq dim)
    (p : Fin seq) (b : Fin batch) (h : Fin (kvHeads * group)) (e : Fin dim) :
    op.decodeRow q k v p b h 0 e = v b h.divNat ⟨0, Nat.zero_lt_of_lt p.isLt⟩ e := by
  rw [decodeRow, appendRow_firstRows, appendRow_firstRows, eval]
  have hrow : op.scoresScaled (oneRow q p) (firstRows k (p + 1) p.isLt) b h 0 =
      fun j => if j = 0 then
        ((scores (oneRow q p) (firstRows k (p + 1) p.isLt) b h 0 0 * op.scale : R) : WithBot R)
      else ⊥ :=
    funext fun j => scoresScaled_zero hcausal _ _ b h j
  simp only [hrow, softmax_one_key hexp, ite_mul, one_mul, zero_mul, Finset.sum_ite_eq',
    Finset.mem_univ, if_true]
  rfl

/-! ## Decode against prefill -/

theorem softmax_const (hexp : op.exp 0 ≠ 0) (s : R) (n : Fin (m + 1)) :
    op.softmax (fun _ => (s : WithBot R)) n = 1 / ((m + 1 : Nat) : R) := by
  have hmax : (Finset.univ.sup fun _ : Fin (m + 1) => (s : WithBot R)) = s :=
    Finset.sup_const Finset.univ_nonempty _
  have hentry : op.expVal (sub (s : WithBot R) s) = op.exp 0 := by
    show op.exp (s - s) = op.exp 0
    rw [sub_self]
  simp only [softmax, hmax, hentry, Finset.sum_const, Finset.card_univ, Fintype.card_fin,
    nsmul_eq_mul]
  rw [div_mul_eq_div_div_swap, div_self hexp]

/-- A value tensor whose second row is 1 and whose other rows are 0. -/
def secondRow (R : Type*) [Field R] (batch heads seq dim : Nat) : Bhsd R batch heads seq dim :=
  fun _ _ i _ => if (i : Nat) = 1 then 1 else 0

theorem prefill_secondRow (hcausal : op.isCausal = true) (hexp : op.exp 0 ≠ 0)
    (hp : 1 ≤ (p : Nat)) (k : Bhsd R batch kvHeads seq dim) (b : Fin batch)
    (h : Fin (kvHeads * group)) (e : Fin dim) :
    op.prefill (fun _ _ _ _ => 0) k (secondRow R batch kvHeads seq dim) p b h (Fin.last p) e =
      1 / ((p + 1 : Nat) : R) := by
  have hrow : op.scoresScaled (firstRows (fun _ _ _ _ => 0) (p + 1) p.isLt)
      (firstRows k (p + 1) p.isLt) b h (Fin.last p) = fun _ => ((0 : R) : WithBot R) := by
    funext j
    rw [scoresScaled_last hcausal]
    simp [scores, firstRows]
  rw [prefill, eval, hrow]
  simp only [softmax_const hexp]
  rw [← Finset.mul_sum, Finset.sum_eq_single ⟨1, by omega⟩]
  · show _ * (if 1 = 1 then (1 : R) else 0) = _
    rw [if_pos rfl, mul_one]
  · intro j _ hj
    exact if_neg fun h => hj (Fin.ext h)
  · exact fun h => absurd (Finset.mem_univ _) h

variable [IsStrictOrderedRing R]

theorem not_matchesPrefill_secondRow (hcausal : op.isCausal = true)
    (hexp : op.exp 0 ≠ 0) (hp : 1 ≤ (p : Nat)) (b : Fin batch)
    (h : Fin (kvHeads * group)) (e : Fin dim) :
    ¬ op.MatchesPrefill (fun _ (_ : Fin (kvHeads * group)) _ _ => 0) (fun _ _ _ _ => 0)
      (secondRow R batch kvHeads seq dim) p := by
  intro hmatch
  have hrow := hmatch b h e
  have hfirst : secondRow R batch kvHeads seq dim b h.divNat
      ⟨0, Nat.zero_lt_of_lt p.isLt⟩ e = 0 := if_neg Nat.zero_ne_one
  rw [decodeRow_eq_first hcausal hexp, prefill_secondRow hcausal hexp hp, hfirst] at hrow
  exact one_div_ne_zero (Nat.cast_ne_zero.2 (Nat.succ_ne_zero _)) hrow.symm

/-- Every decode step after a prompt of `P` returns the row of its position. -/
def DecodeMatchesPrefill (op : SdpaOp R) (batch kvHeads group dim P steps : Nat) : Prop :=
  ∀ (q : Bhsd R batch (kvHeads * group) (P + steps) dim)
    (k v : Bhsd R batch kvHeads (P + steps) dim)
    (i : Fin steps), op.MatchesPrefill q k v (Fin.natAdd P i)

/-- Decoding matches the prefill only where there is nothing to compare. -/
theorem decodeMatchesPrefill_iff {op : SdpaOp R} (hcausal : op.isCausal = true)
    (hexp : op.exp 0 ≠ 0) {P : Nat} (hP : 1 ≤ P) (batch kvHeads group dim steps : Nat) :
    op.DecodeMatchesPrefill batch kvHeads group dim P steps ↔
      batch = 0 ∨ kvHeads * group = 0 ∨ dim = 0 ∨ steps = 0 := by
  constructor
  · intro hmatch
    by_contra hsizes
    simp only [not_or] at hsizes
    obtain ⟨hbatch, hheads, hdim, hsteps⟩ := hsizes
    have hp : 1 ≤ P + 0 := hP
    exact not_matchesPrefill_secondRow hcausal hexp hp ⟨0, Nat.pos_of_ne_zero hbatch⟩
      ⟨0, Nat.pos_of_ne_zero hheads⟩ ⟨0, Nat.pos_of_ne_zero hdim⟩
      (hmatch _ _ _ ⟨0, Nat.pos_of_ne_zero hsteps⟩)
  · intro hsizes q k v i b h e
    rcases hsizes with rfl | hheads | rfl | rfl
    · exact b.elim0
    · exact absurd h.isLt (by omega)
    · exact e.elim0
    · exact i.elim0

noncomputable def realOp : SdpaOp ℝ where
  scale := 1
  isCausal := true
  exp := Real.exp

theorem decodeMatchesPrefill_iff_one :
    realOp.DecodeMatchesPrefill 1 1 1 1 1 1 ↔ 1 = 0 ∨ 1 * 1 = 0 ∨ 1 = 0 ∨ 1 = 0 :=
  decodeMatchesPrefill_iff rfl (Real.exp_ne_zero 0) le_rfl 1 1 1 1 1

/-- With value rows 0 and 1 and equal scores the step returns 0, the whole sequence 1/2. -/
theorem decodeMatchesPrefill_fails : ¬ realOp.DecodeMatchesPrefill 1 1 1 1 1 1 := by
  intro hmatch
  exact not_matchesPrefill_secondRow rfl (Real.exp_ne_zero 0)
    (p := ⟨1, one_lt_two⟩) le_rfl 0 0 0 (hmatch _ _ _ 0)

end SdpaOp

/-! ## What the cache supplies -/

section Supplied

variable {R : Type*} {nh hd : Nat}

/-- What the kernel reads of a tensor that the cache supplies. -/
def readTensor (val : F32 → R) (t : Tensor) (heads seq dim : Nat) :
    Bhsd R 1 heads seq dim :=
  fun _ h p d => val (t.data.getD (bnsdOffset seq dim p h + d) 0)

variable {rows : List (List F32)} {new : List F32}

theorem readTensor_bnsd (val : F32 → R) {n : Nat}
    (hrows : ∀ r ∈ rows, r.length = nh * hd) (hn : rows.length = n) (b : Fin 1) (h : Fin nh)
    (p : Fin n) (d : Fin hd) : readTensor val (bnsd nh hd rows) nh n hd b h p d =
      val ((rows.getD p []).getD (h * hd + d) 0) := by
  subst hn
  have hr : rows[(p : Nat)]? = some (rows.getD p []) := by simp
  rw [readTensor, ← getD_slice _ d.isLt, slice_bnsd hrows hr h.isLt, getD_slice _ d.isLt]

theorem readTensor_append (val : F32 → R)
    (hrows : ∀ r ∈ rows, r.length = nh * hd) (hnew : new.length = nh * hd) :
    readTensor val (bnsd nh hd (rows ++ [new])) nh (rows.length + 1) hd =
      appendRow (readTensor val (bnsd nh hd rows) nh rows.length hd)
        (readTensor val (bnsd nh hd [new]) nh 1 hd) := by
  have hsingle : ∀ r ∈ [new], r.length = nh * hd := fun r hr => by
    rw [mem_singleton.1 hr, hnew]
  have hall : ∀ r ∈ rows ++ [new], r.length = nh * hd := fun r hr =>
    (mem_append.1 hr).elim (hrows r) (hsingle r)
  funext b h p d
  refine (readTensor_bnsd val hall length_append b h p d).trans ?_
  refine Fin.lastCases ?_ (fun q => ?_) p
  · rw [appendRow, Fin.snoc_last]
    refine Eq.trans ?_ (readTensor_bnsd val hsingle rfl b h 0 d).symm
    simp
  · rw [appendRow, Fin.snoc_castSucc, readTensor_bnsd val hrows rfl]
    simp

end Supplied

end CompileForge.SfDialect
