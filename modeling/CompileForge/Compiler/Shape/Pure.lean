/-
  Shape inference on plain tuples (`compiler/shape/shape_inference_pure.py`, and
  `_broadcast_shapes` of `shape_inference_utils.py`) for matrix products, element-wise binary
  ops, slices, reductions, concatenations, convolution, embedding and attention.  Shapes and
  element types are one list of operands here, and a list of one result is that result.
-/

import Mathlib.Algebra.Ring.Int.Defs
import Mathlib.Data.List.GetD
import Mathlib.Data.List.InsertIdx

namespace CompileForge.Compiler.Shape

/-- A size, `none` where the source has `None`. -/
abbrev Dim := Option Int

/-- An operand or a result: its shape and its element type. -/
structure TensorTy where
  shape : List Dim
  elt : String
deriving DecidableEq, Repr

/-- The exceptions these functions raise on operands and attributes of the right kinds. -/
inductive PyError
  /-- `ValueError("Incompatible dims for broadcast: ...")`. -/
  | incompatibleDims (dims : List Dim)
  /-- `int("same")`, `int("valid")`. -/
  | invalidInt
  /-- Arithmetic on `None`. -/
  | typeError
  /-- A tuple or list index out of range. -/
  | indexError
  | zeroDivisionError
deriving DecidableEq, Repr

/-- What every function answers without operands: `((1,), "f32")`. -/
def noOperands : TensorTy := ⟨[some 1], "f32"⟩

/-! ## Indexing -/

/-- The place a Python index stands for in a list of length `len`. -/
def wrapIndex (i : Int) (len : Nat) : Option Nat :=
  if 0 ≤ i then if i < len then some i.toNat else none
  else if 0 ≤ i + len then some (i + len).toNat else none

/-- `wrapIndex`, where Python raises. -/
def checkIndex (i : Int) (len : Nat) : Except PyError Nat :=
  match wrapIndex i len with
  | some j => .ok j
  | none => .error .indexError

def dimAt (s : List Dim) (i : Nat) : Dim := s.getD i none

/-- `shape[-j]`. -/
def dimFromEnd (s : List Dim) (j : Nat) : Dim := s.getD (s.length - j) none

/-! ## `_broadcast_shapes` -/

def alignedDims {α : Type} (one : α) (maxRank : Nat) (shapes : List (List α)) (i : Nat) :
    List α :=
  shapes.map fun s =>
    if maxRank ≤ s.length + i then s.getD (s.length + i - maxRank) one else one

def maxRank {α : Type} (shapes : List (List α)) : Nat := (shapes.map List.length).foldr max 0

/-- The body of the loop. -/
def broadcastDim (dims : List Dim) : Except PyError Dim :=
  match (dims.filterMap id).filter (· ≠ 1) with
  | [] => .ok (if dims.any Option.isNone then none else dims.headD none)
  | n :: rest => if rest.all (· = n) then .ok (some n) else .error (.incompatibleDims dims)

def broadcastShapes (shapes : List (List Dim)) : Except PyError (List Dim) :=
  (List.range (maxRank shapes)).mapM fun i =>
    broadcastDim (alignedDims (some 1) (maxRank shapes) shapes i)

variable (inputs : List TensorTy)

def inferElementwise : Except PyError TensorTy :=
  match inputs with
  | [] => .ok noOperands
  | t :: _ => do
    let b ← broadcastShapes (inputs.map TensorTy.shape)
    .ok ⟨b, t.elt⟩

/-- Comparisons: the same shape, the element type of the C++ lowering. -/
def inferCompare : Except PyError TensorTy :=
  match inputs with
  | [] => .ok noOperands
  | _ :: _ => do
    let b ← broadcastShapes (inputs.map TensorTy.shape)
    .ok ⟨b, "f32"⟩

/-! ## Products -/

def inferMatmul : Except PyError TensorTy :=
  match inputs with
  | [] => .ok noOperands
  | [x] => .ok x
  | x :: y :: _ =>
    let a := x.shape
    let b := y.shape
    if a.length = 2 ∧ b.length = 2 then .ok ⟨[dimAt a 0, dimAt b 1], x.elt⟩
    else if 3 ≤ a.length ∧ b.length = 2 then .ok ⟨a.dropLast ++ [dimAt b 1], x.elt⟩
    else if a.length = 2 ∧ 3 ≤ b.length then
      .ok ⟨b.take (b.length - 2) ++ [dimAt a 0, dimFromEnd b 1], x.elt⟩
    else if 3 ≤ a.length ∧ a.length = b.length then do
      let batch ← broadcastShapes [a.take (a.length - 2), b.take (b.length - 2)]
      .ok ⟨batch ++ [dimFromEnd a 2, dimFromEnd b 1], x.elt⟩
    else .ok ⟨a, x.elt⟩

def inferLinear : Except PyError TensorTy :=
  match inputs with
  | [] => .ok noOperands
  | [x] => .ok x
  | x :: y :: _ =>
    let a := x.shape
    let w := y.shape
    if 2 ≤ a.length ∧ w.length = 2 then .ok ⟨a.dropLast ++ [dimAt w 0], x.elt⟩
    else .ok ⟨[none, none], x.elt⟩

/-- The weight comes first: `[vocab, embed]`, then the indices. -/
def inferEmbedding : Except PyError TensorTy :=
  match inputs with
  | [] => .ok noOperands
  | [x] => .ok x
  | x :: y :: _ =>
    if 2 ≤ x.shape.length then .ok ⟨y.shape ++ [dimAt x.shape 1], x.elt⟩
    else .ok x

/-! ## Padding and convolution -/

/-- The pad list runs from the last dim backwards, two entries a dim. -/
def inferPad (pad : List Int) (inputs : List TensorTy) : Except PyError TensorTy :=
  match inputs with
  | [] => .ok noOperands
  | x :: _ =>
    if pad.length % 2 ≠ 0 then .ok x
    else
      .ok ⟨x.shape.mapIdx fun dim d =>
        let i := x.shape.length - 1 - dim
        if i < pad.length / 2 then d.map (· + pad.getD (2 * i) 0 + pad.getD (2 * i + 1) 0)
        else d, x.elt⟩

/-- ATen's names for a padding computed from the kernel. -/
inductive PaddingMode
  | same
  | valid
deriving DecidableEq, Repr

/-- An attribute of `conv1d`: missing or `None`, a number, a list, or a padding mode. -/
inductive Conv1dAttr
  | absent
  | int (v : Int)
  | list (vs : List Int)
  | mode (m : PaddingMode)
deriving DecidableEq, Repr

def conv1dScalar (value : Conv1dAttr) (default : Int) : Except PyError Int :=
  match value with
  | .list (v :: _) => .ok v
  | .list [] => .ok default
  | .absent => .ok default
  | .int v => .ok v
  | .mode _ => .error .invalidInt

def inferConv1d (stride padding dilation : Conv1dAttr) (inputs : List TensorTy) :
    Except PyError TensorTy :=
  match inputs with
  | [] => .ok noOperands
  | [x] => .ok x
  | x :: y :: _ =>
    if x.shape.length < 3 ∨ y.shape.length < 3 then .ok x
    else do
      let kernel := dimAt y.shape 2
      let stride ← conv1dScalar stride 1
      let padding ← conv1dScalar padding 0
      let dilation ← conv1dScalar dilation 1
      let outLen ← match dimAt x.shape 2 with
        | none => .ok none
        | some inLen =>
          match kernel with
          | none => .error .typeError
          | some k =>
            let numerator := inLen + 2 * padding - dilation * (k - 1) - 1
            .ok (some (if 0 < stride then numerator.fdiv stride + 1 else inLen))
      .ok ⟨[dimAt x.shape 0, dimAt y.shape 0, outLen], x.elt⟩

/-! ## Views -/

/-- `list.insert`: a negative place counts from the end, any place is clamped. -/
def insertDim (s : List Dim) (i : Int) (d : Dim) : List Dim :=
  s.insertIdx (if i < 0 then (i + s.length).toNat else min i.toNat s.length) d

variable (dim : Int) (inputs : List TensorTy)

def inferUnsqueeze : Except PyError TensorTy :=
  match inputs with
  | [] => .ok noOperands
  | x :: _ =>
    let dim := if dim < 0 then x.shape.length + 1 + dim else dim
    .ok ⟨insertDim x.shape dim (some 1), x.elt⟩

def inferTranspose (dim0 dim1 : Int) (inputs : List TensorTy) : Except PyError TensorTy :=
  match inputs with
  | [] => .ok noOperands
  | x :: _ =>
    let s := x.shape
    if dim0 < s.length ∧ dim1 < s.length then do
      let i ← checkIndex dim0 s.length
      let j ← checkIndex dim1 s.length
      .ok ⟨(s.set i (dimAt s j)).set j (dimAt s i), x.elt⟩
    else .ok x

def int64MaxSentinel : Int := 9223372036854775807

/-- `dim` and `step` are filled in: their defaults are those of ATen. -/
def inferSlice (start stop : Option Int) (step : Int) (inputs : List TensorTy) :
    Except PyError TensorTy :=
  match inputs with
  | [] => .ok noOperands
  | x :: _ =>
    let s := x.shape
    if dim < s.length then do
      let i ← checkIndex dim s.length
      match dimAt s i with
      | none => .ok x
      | some _ =>
        let st := start.getD 0
        match stop with
        | none => .ok ⟨s.set i none, x.elt⟩
        | some en =>
          if 0 ≤ en ∧ en ≠ int64MaxSentinel then
            if step = 0 then .error .zeroDivisionError
            else .ok ⟨s.set i (some ((en - st + step - 1).fdiv step)), x.elt⟩
          else .ok ⟨s.set i none, x.elt⟩
    else .ok x

def inferSelect : Except PyError TensorTy :=
  match inputs with
  | [] => .ok noOperands
  | x :: _ =>
    if dim < x.shape.length then do
      let i ← checkIndex dim x.shape.length
      .ok ⟨x.shape.eraseIdx i, x.elt⟩
    else .ok x

/-- What a shape contributes along the concatenated dim; `none` sets `has_unknown`. -/
def catDim (s : List Dim) : Except PyError Dim :=
  if dim < s.length then do
    let i ← checkIndex dim s.length
    .ok (dimAt s i)
  else .ok none

def inferCat : Except PyError TensorTy :=
  match inputs with
  | [] => .ok noOperands
  | x :: _ => do
    let sizes ← inputs.mapM fun t => catDim dim t.shape
    let total := (sizes.filterMap id).sum
    let joined : Dim := if sizes.any Option.isNone then none
      else if 0 < total then some total else none
    if dim < x.shape.length then do
      let i ← checkIndex dim x.shape.length
      .ok ⟨x.shape.set i joined, x.elt⟩
    else .ok x

/-- An entry of the `shape` attribute of `expand`: a number, or a value of the graph. -/
inductive SizeEntry
  | int (v : Int)
  | ssa
deriving DecidableEq, Repr

def inferExpand (shape : List SizeEntry) (inputs : List TensorTy) : Except PyError TensorTy :=
  match inputs with
  | [] => .ok noOperands
  | x :: _ =>
    if shape.isEmpty then .ok x
    else
      let lead : Int := shape.length - x.shape.length
      .ok ⟨shape.mapIdx fun i entry =>
        match entry with
        | .ssa => none
        | .int v =>
          if v = -1 then
            let inIdx := i - lead
            if 0 ≤ inIdx ∧ inIdx < x.shape.length then dimAt x.shape inIdx.toNat else none
          else some v, x.elt⟩

/-! ## Reductions -/

/-- The `dim` keyword of a reduction. -/
inductive ReduceDim
  | absent
  | none
  | int (d : Int)
  | list (ds : List Int)
deriving DecidableEq, Repr

/-- `_normalize_reduce_dims`, whose result is read as a set; the source's default is -1. -/
def normalizeReduceDims (dims : ReduceDim) (rank : Nat) : List Nat :=
  match dims with
  | .none => if 0 < rank then [rank - 1] else []
  | .absent => [-1].filterMap (wrapIndex · rank)
  | .int d => [d].filterMap (wrapIndex · rank)
  | .list ds => ds.filterMap (wrapIndex · rank)

/-- The loop over the dims: a reduced one is dropped, or kept as `one`. -/
def reduceDims {α : Type} (one : α) (reduced : Nat → Bool) (keepdim : Bool) (s : List α) :
    List α :=
  s.zipIdx.flatMap fun (d, i) => if reduced i then (if keepdim then [one] else []) else [d]

def inferReduce (dim : ReduceDim) (keepdim : Bool) (inputs : List TensorTy) :
    Except PyError TensorTy :=
  match inputs with
  | [] => .ok noOperands
  | x :: _ =>
    let reduced := normalizeReduceDims dim x.shape.length
    .ok ⟨reduceDims (some 1) (· ∈ reduced) keepdim x.shape, x.elt⟩

/-! ## `infer_output_shape` -/

/-- The element-wise ops of two operands. -/
inductive BinaryOp
  | add | mul | sub | div | pow | max | maskedFill
  | gt | lt | eq | ne | le | logicalAnd
deriving DecidableEq, Repr

inductive ReduceOp
  | sum
  | mean
deriving DecidableEq, Repr

inductive Op
  | matmul
  | linear
  | binary (name : BinaryOp)
  | slice (dim : Int) (start stop : Option Int) (step : Int)
  | select (dim index : Int)
  | transpose (dim0 dim1 : Int)
  | unsqueeze (dim : Int)
  | cat (dim : Int)
  | stack (dim : Int)
  | reduce (name : ReduceOp) (dim : ReduceDim) (keepdim : Bool)
  | expand (shape : List SizeEntry)
  | pad (pad : List Int)
  | conv1d (stride padding dilation : Conv1dAttr) (groups : Int)
  | embedding
  | scaledDotProductAttention (enableGqa : Bool)
deriving DecidableEq, Repr

/-- `infer_output_shape` through `_PURE_TABLE`, with attention and `stack` as element-wise. -/
def inferOutputShape (op : Op) (inputs : List TensorTy) : Except PyError TensorTy :=
  match op with
  | .matmul => inferMatmul inputs
  | .linear => inferLinear inputs
  | .binary .gt | .binary .lt | .binary .eq | .binary .ne | .binary .le | .binary .logicalAnd =>
    inferCompare inputs
  | .binary _ => inferElementwise inputs
  | .slice dim start stop step => inferSlice dim start stop step inputs
  | .select dim _ => inferSelect dim inputs
  | .transpose dim0 dim1 => inferTranspose dim0 dim1 inputs
  | .unsqueeze dim => inferUnsqueeze dim inputs
  | .cat dim => inferCat dim inputs
  | .stack _ => inferElementwise inputs
  | .reduce _ dim keepdim => inferReduce dim keepdim inputs
  | .expand shape => inferExpand shape inputs
  | .pad pad => inferPad pad inputs
  | .conv1d stride padding dilation _ => inferConv1d stride padding dilation inputs
  | .embedding => inferEmbedding inputs
  | .scaledDotProductAttention _ => inferElementwise inputs

end CompileForge.Compiler.Shape
