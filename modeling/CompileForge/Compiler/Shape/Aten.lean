/-
  The shapes ATen gives the same ops on operands of known sizes; `none` where ATen refuses the
  sizes or the attributes.
-/

import Mathlib.Data.List.Nodup
import CompileForge.Compiler.Shape.Pure

namespace CompileForge.Compiler.Shape.Aten

open Compiler.Shape

abbrev Size := List Int

variable (dim : Int)

def wrapDim (rank : Nat) : Option Nat := wrapIndex dim (max rank 1)

/-! ## Broadcasting -/

def broadcastDim (dims : List Int) : Option Int :=
  match dims.filter (· ≠ 1) with
  | [] => some 1
  | n :: rest => if rest.all (· = n) then some n else none

/-- Shapes whose last dims count are matched from the right. -/
def broadcast (shapes : List Size) : Option Size :=
  (List.range (maxRank shapes)).mapM fun i =>
    broadcastDim (alignedDims 1 (maxRank shapes) shapes i)

/-- `a` can be added in place to a tensor of shape `b`. -/
def expandsTo (a b : Size) : Prop := broadcast [a, b] = some b
deriving Decidable

/-! ## Products -/

def matmul (a b : Size) : Option Size :=
  match a.reverse, b.reverse with
  | [k], [k'] => if k = k' then some [] else none
  | [k], p :: k' :: bb => if k = k' then some (bb.reverse ++ [p]) else none
  | k :: n :: ba, [k'] => if k = k' then some (ba.reverse ++ [n]) else none
  | k :: n :: ba, p :: k' :: bb =>
    if k = k' then (broadcast [ba.reverse, bb.reverse]).map (· ++ [n, p]) else none
  | _, _ => none

/-- The weight is `[out, in]`, or `[in]` for a single output feature without a dim. -/
def linear (x w : Size) (bias : Option Size) : Option Size :=
  match x.reverse, w with
  | i :: batch, [o, i'] =>
    if i = i' ∧ (∀ b ∈ bias, b = [o]) then some (batch.reverse ++ [o]) else none
  | i :: batch, [i'] => if i = i' ∧ (∀ b ∈ bias, b = []) then some batch.reverse else none
  | _, _ => none

def embedding (weight indices : Size) : Option Size :=
  match weight with
  | [_, embed] => some (indices ++ [embed])
  | _ => none

/-- Grouped queries repeat the heads. -/
def repeatHeads (enableGqa : Bool) (q kv : Size) : Option Size :=
  match enableGqa, q, kv with
  | false, _, _ => some kv
  | true, hq :: _, h :: batch => if 0 < h ∧ h ∣ hq then some (hq :: batch) else none
  | true, _, _ => none

def scaledDotProductAttention (enableGqa : Bool) (q k v : Size) (mask : Option Size) :
    Option Size :=
  match q.reverse, k.reverse, v.reverse with
  | e :: l :: qb, e' :: s :: kb, ev :: s' :: vb =>
    if e = e' ∧ s = s' then do
      let kb ← repeatHeads enableGqa qb kb
      let vb ← repeatHeads enableGqa qb vb
      let scores ← broadcast [qb.reverse, kb.reverse]
      let batch ← broadcast [scores, vb.reverse]
      if ∀ m ∈ mask, expandsTo m (scores ++ [l, s]) then some (batch ++ [l, ev]) else none
    else none
  | _, _, _ => none

/-! ## Padding and convolution -/

/-- The padded sizes must not be negative. -/
def pad (pads : List Int) (x : Size) : Option Size :=
  let out := x.mapIdx fun dim d =>
    let i := x.length - 1 - dim
    if i < pads.length / 2 then d + pads.getD (2 * i) 0 + pads.getD (2 * i + 1) 0 else d
  if pads.length % 2 = 0 ∧ pads.length / 2 ≤ x.length ∧ ∀ d ∈ out, 0 ≤ d then some out else none

/-- A one-element `int[]` argument. -/
def intArg (value : Conv1dAttr) (default : Int) : Option Int :=
  match value with
  | .absent => some default
  | .int v => some v
  | .list [v] => some v
  | .list _ => none
  | .mode _ => none

def conv1dPadded (l k stride padding dilation : Int) : Option Int :=
  if 0 < stride ∧ 0 < dilation ∧ 1 ≤ k ∧ 0 ≤ padding ∧ dilation * (k - 1) + 1 ≤ l + 2 * padding
  then some ((l + 2 * padding - dilation * (k - 1) - 1) / stride + 1)
  else none

def conv1dLength (stride padding dilation : Conv1dAttr) (l k : Int) : Option Int := do
  let s ← intArg stride 1
  let d ← intArg dilation 1
  match padding with
  | .mode .same => if s = 1 ∧ 0 < d ∧ 1 ≤ k ∧ 1 ≤ l then some l else none
  | .mode .valid => conv1dPadded l k s 0 d
  | padding => do
    let p ← intArg padding 0
    conv1dPadded l k s p d

/-- The input is `[batch, channels, length]`, or `[channels, length]` without a batch. -/
def conv1d (stride padding dilation : Conv1dAttr) (groups : Int) (x w : Size)
    (bias : Option Size) : Option Size :=
  match w with
  | [o, cg, k] =>
    if 0 < groups ∧ groups ≤ o ∧ groups ∣ o ∧ (∀ b ∈ bias, b = [o]) then
      match x with
      | [n, c, l] =>
        if c = cg * groups then (conv1dLength stride padding dilation l k).map fun l' => [n, o, l']
        else none
      | [c, l] =>
        if c = cg * groups then (conv1dLength stride padding dilation l k).map fun l' => [o, l']
        else none
      | _ => none
    else none
  | _ => none

/-! ## Views -/

def unsqueeze (x : Size) : Option Size :=
  (wrapDim dim (x.length + 1)).map fun i => x.insertIdx i 1

def transpose (dim0 dim1 : Int) (x : Size) : Option Size := do
  let i ← wrapDim dim0 x.length
  let j ← wrapDim dim1 x.length
  some ((x.set i (x.getD j 0)).set j (x.getD i 0))

/-- A bound counted from the end where negative. -/
def fromStart (n bound : Int) : Int := if bound < 0 then bound + n else bound

/-- The first place of a slice, within the dim. -/
def sliceStart (n : Int) (start : Option Int) : Int :=
  let st := fromStart n (start.getD 0)
  if st < 0 then 0 else if n ≤ st then n else st

/-- The place past the last one of a slice, within the dim and not before its start. -/
def sliceStop (n : Int) (start stop : Option Int) : Int :=
  let en := fromStart n (stop.getD int64MaxSentinel)
  if en < sliceStart n start then sliceStart n start else if n ≤ en then n else en

def slice (start stop : Option Int) (step : Int) (x : Size) : Option Size := do
  let i ← wrapIndex dim x.length
  let n := x.getD i 0
  if 0 < step then
    some (x.set i ((sliceStop n start stop - sliceStart n start + step - 1) / step))
  else none

def select (dim index : Int) (x : Size) : Option Size := do
  let i ← wrapIndex dim x.length
  let _ ← wrapIndex index (x.getD i 0).toNat
  some (x.eraseIdx i)

/-- Tensors of shape `[0]` are skipped, whatever the rank of the others and, alone, the dim. -/
def cat (xs : List Size) : Option Size :=
  match xs.filter (· ≠ [0]) with
  | [] => if xs = [] then none else some [0]
  | f :: rest => do
    let i ← wrapIndex dim f.length
    if ∀ x ∈ rest, x.length = f.length ∧ x.eraseIdx i = f.eraseIdx i then
      some (f.set i (((f :: rest).map (·.getD i 0)).sum))
    else none

def stack (xs : List Size) : Option Size :=
  match xs with
  | [] => none
  | f :: rest =>
    if ∀ x ∈ rest, x = f then
      (wrapDim dim (f.length + 1)).map fun i => f.insertIdx i (xs.length : Int)
    else none

def expandDim (x : Size) (rank i : Nat) (size : Int) : Option Int :=
  if i + x.length < rank then if 0 ≤ size then some size else none
  else
    let d := x.getD (i + x.length - rank) 1
    if size = -1 then some d
    else if 0 ≤ size ∧ (d = 1 ∨ d = size) then some size
    else none

def expand (sizes : List Int) (x : Size) : Option Size :=
  if x.length ≤ sizes.length then
    (List.range sizes.length).mapM fun i => expandDim x sizes.length i (sizes.getD i 0)
  else none

def reduceAxes (dim : ReduceDim) (rank : Nat) : Option (List Nat) :=
  match dim with
  | .absent | .none | .list [] => some (List.range rank)
  | .int d => (wrapDim d rank).map fun i => [i]
  | .list ds => do
    let axes ← ds.mapM (wrapDim · rank)
    if axes.Nodup then some axes else none

def reduce (dim : ReduceDim) (keepdim : Bool) (x : Size) : Option Size :=
  (reduceAxes dim x.length).map fun axes => reduceDims 1 (· ∈ axes) keepdim x

def expandSizes (shape : List SizeEntry) (rt : Nat → Int) : List Int :=
  shape.mapIdx fun i entry =>
    match entry with
    | .int v => v
    | .ssa => rt i

def outputShape (op : Op) (rt : Nat → Int) (xs : List Size) : Option Size :=
  match op, xs with
  | .matmul, [a, b] => matmul a b
  | .linear, [x, w] => linear x w none
  | .linear, [x, w, b] => linear x w (some b)
  | .binary _, [a] => broadcast [a]
  | .binary _, [a, b] => broadcast [a, b]
  | .slice dim start stop step, [x] => slice dim start stop step x
  | .select dim index, [x] => select dim index x
  | .transpose dim0 dim1, [x] => transpose dim0 dim1 x
  | .unsqueeze dim, [x] => unsqueeze dim x
  | .cat dim, xs => cat dim xs
  | .stack dim, xs => stack dim xs
  | .reduce _ dim keepdim, [x] => reduce dim keepdim x
  | .expand shape, [x] => expand (expandSizes shape rt) x
  | .pad pads, [x] => pad pads x
  | .conv1d stride padding dilation groups, [x, w] =>
    conv1d stride padding dilation groups x w none
  | .conv1d stride padding dilation groups, [x, w, b] =>
    conv1d stride padding dilation groups x w (some b)
  | .embedding, [weight, indices] => embedding weight indices
  | .scaledDotProductAttention gqa, [q, k, v] => scaledDotProductAttention gqa q k v none
  | .scaledDotProductAttention gqa, [q, k, v, m] => scaledDotProductAttention gqa q k v (some m)
  | _, _ => none

end CompileForge.Compiler.Shape.Aten
