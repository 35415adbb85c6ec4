/-
  The loops `SfScaledDotProductAttentionOpLowering` emits (`sf-dialect/lib/Sf/SfLowerAttention.cpp`)
  for an op without a mask operand, read in exact arithmetic.
-/

import Mathlib.Algebra.BigOperators.Fin
import Mathlib.Algebra.Order.Field.Basic
import Mathlib.Data.Fintype.Lattice

namespace CompileForge.SfDialect

/-- A `[batch, heads, seq, dim]` tensor. -/
abbrev Bhsd (R : Type*) (batch heads seq dim : Nat) : Type _ :=
  Fin batch → Fin heads → Fin seq → Fin dim → R

/-- What the lowering reads of the op, and the exponential its `math.exp` computes. -/
structure SdpaOp (R : Type*) where
  scale : R
  isCausal : Bool
  exp : R → R

namespace SdpaOp

variable {R : Type*} [Field R] [LinearOrder R] {batch kvHeads group seqQ seqKv dim : Nat}

/-- `scores`: the matmul of the query and the transposed (and expanded) key. -/
def scores (q : Bhsd R batch (kvHeads * group) seqQ dim) (k : Bhsd R batch kvHeads seqKv dim)
    (b : Fin batch) (h : Fin (kvHeads * group)) (m : Fin seqQ) (n : Fin seqKv) : R :=
  ∑ e, q b h m e * k b h.divNat n e

/-- `causalMask`: on the loop indices of the scores, whatever these stand for. -/
def causalMask (R : Type*) [Field R] (qIdx kvIdx : Nat) : WithBot R :=
  if qIdx ≥ kvIdx then (0 : R) else ⊥

/-- Grouped queries (`enable_gqa`) repeat every key/value head `group` times; without them the
    group is 1. -/
def scoresScaled (op : SdpaOp R) (q : Bhsd R batch (kvHeads * group) seqQ dim)
    (k : Bhsd R batch kvHeads seqKv dim) (b : Fin batch) (h : Fin (kvHeads * group))
    (m : Fin seqQ) (n : Fin seqKv) : WithBot R :=
  let scaled : WithBot R := (scores q k b h m n * op.scale : R)
  if op.isCausal then scaled + causalMask R m n else scaled

/-- `sub`: a score minus the maximum of its row. -/
def sub : WithBot R → WithBot R → WithBot R
  | some a, some c => ((a - c : R) : WithBot R)
  | _, _ => ⊥

/-- The exponential is a parameter; `-1.0e20` of the causal mask and of the first maximum is minus
    infinity. -/
def expVal (op : SdpaOp R) : WithBot R → R
  | some a => op.exp a
  | none => 0

/-- A row of scores through `maxVal`, `sub`, `expVal`, `sumVal` and the division. -/
def softmax (op : SdpaOp R) (row : Fin seqKv → WithBot R) (n : Fin seqKv) : R :=
  let maxVal := Finset.univ.sup row
  let sumVal := ∑ j, op.expVal (sub (row j) maxVal)
  op.expVal (sub (row n) maxVal) / sumVal

/-- The op: `attn` times the (expanded) value. -/
def eval (op : SdpaOp R) (q : Bhsd R batch (kvHeads * group) seqQ dim)
    (k v : Bhsd R batch kvHeads seqKv dim) : Bhsd R batch (kvHeads * group) seqQ dim :=
  fun b h m e =>
    ∑ n, op.softmax (op.scoresScaled q k b h m) n * v b h.divNat n e

end SdpaOp

end CompileForge.SfDialect
