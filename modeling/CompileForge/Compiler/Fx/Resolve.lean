/-
  The types of an op (`_resolve_op_types` in `compiler/fx/utils.py`): the operands are looked
  up, constants and weights of a mixed op are promoted, and the results are inferred.
-/

import CompileForge.Compiler.Fx.Graph
import CompileForge.Compiler.Fx.Types

namespace CompileForge.Compiler.Fx

open Lib
open Shape (TensorTy noOperands)

/-- PyTorch on the elements of tensors, and Python's own arithmetic on floats. -/
structure Torch (V : Type) where
  ofFloat : UInt64 → V
  ofInt : Int → V
  /-- An element converted to a dtype. -/
  cast : String → V → V
  /-- `int(x)`. -/
  truncate : UInt64 → Option Int
  /-- `int(a - b)` where one of them is a float. -/
  difference : Item → Item → Option Int
  /-- `str(x)` of what is no integer. -/
  str : Arg → String

variable {V : Type}

def Tensor.to (t : Tensor V) (torch : Torch V) (dtype : String) : Tensor V :=
  { t with dtype, elems := t.elems.map (torch.cast dtype) }

variable (torch : Torch V)

def Torch.intScalar (x : Int) : Tensor V :=
  ⟨[], "int64", [torch.cast "int64" (torch.ofInt x)]⟩

def Torch.floatScalar (x : UInt64) : Tensor V :=
  ⟨[], "float32", [torch.cast "float32" (torch.ofFloat x)]⟩

/-- The shape a weight op is given, `(1,)` for a scalar, and its dtype. -/
def Tensor.ty (t : Tensor V) : TensorTy :=
  ⟨if t.shape = [] then [some 1] else t.shape.map fun (d : Nat) => some (d : Int), t.dtype⟩

/-! ## Errors -/

/-- An error carries the values its text is made of. -/
inductive ConvertError where
  /-- A value without a shape. -/
  | attributeError
  /-- An argument of the wrong kind, or out of range. -/
  | argument
  /-- `_type_mismatch_msg`: the operands that differ from the first. -/
  | typeMismatch (opName sourceNode : String) (elts names : List String)
      (mismatches : List (Nat × String × String))
  | floatRequired (opName sourceNode : String) (operand : Nat) (elt : String)
  | indexOperand (operand : Nat) (elt : String)
  /-- `NotImplementedError`. -/
  | notImplemented (text : String)
  /-- Shape inference raises something that is not caught. -/
  | inference
deriving DecidableEq, Repr

/-- How shape inference fails: with an exception `_resolve_op_types` catches, or not. -/
inductive InferFailure where
  | caught
  | raised
deriving DecidableEq, Repr

/-- Shape inference is a parameter, and so is what PyTorch makes of numbers (`Torch`). -/
abbrev InferOutputShape :=
  String → List TensorTy → List (String × Arg) → Except InferFailure (List TensorTy)

/-! ## Operands -/

def tailName (name : String) : String := String.ofList (name.toList.drop 1)

variable (ssaMap : List (String × String))

def longestPrefix (inpName : String) : Option String :=
  (((ssaMap.map Prod.fst).filter fun n => ("%" ++ n).toList <+: inpName.toList).mergeSort
    fun a b => b.length ≤ a.length).head?

def resolveOperand (inpName : String) : String :=
  match ssaMap.find? fun e => e.2 = inpName ∨ e.1 = inpName with
  | some e => e.1
  | none => (longestPrefix ssaMap inpName).getD inpName

/-- The shape and the element type of an operand that is nowhere. -/
def fallbackTy : TensorTy := ⟨[some 2, some 64], "f32"⟩

def operandTy (shapeMap : List (String × TensorTy))
    (weights : List (String × Tensor V)) (inpName : String) : TensorTy :=
  match shapeMap.lookup (resolveOperand ssaMap inpName) with
  | some ty => ty
  | none =>
    match weights.lookup inpName with
    | some t => t.ty
    | none =>
      match if inpName.startsWith "%" then weights.lookup (tailName inpName) else none with
      | some t => t.ty
      | none => fallbackTy

def weightKey (weights : List (String × Tensor V)) (n : String) : Option String :=
  if n.startsWith "%" ∧ (weights.lookup (tailName n)).isSome then some (tailName n)
  else if (weights.lookup n).isSome then some n
  else none

/-! ## Promotion -/

/-- The element types, the weights and the casts while the operands of an op are examined. -/
structure Promoting (V : Type) where
  elts : List String
  weights : List (String × Tensor V)
  /-- The operand, its type and the element type it is cast to. -/
  promotions : List (Nat × String × String)

/-- A promotion of a weight is made in the table of the weights itself. -/
def castWeight (weights : List (String × Tensor V)) (key dtype : String) :
    List (String × Tensor V) :=
  match weights.lookup key with
  | some t => setKey weights key (t.to torch dtype)
  | none => weights

def Promoting.castTo (p : Promoting V) (torch : Torch V) (i : Nat) (key dtype elt : String) :
    Promoting V :=
  { p with elts := p.elts.set i elt, weights := castWeight torch p.weights key dtype }

def promoteConst (n : String) (first elt : String) (i : Nat) (p : Promoting V) : Promoting V :=
  if elt = "i64" ∧ first = "f32" then p.castTo torch i n "float32" "f32"
  else if elt = "i64" ∧ first = "f16" then p.castTo torch i n "float16" "f16"
  else if elt = "f32" ∧ first = "f16" then p.castTo torch i n "float16" "f16"
  else if elt = "f32" ∧ first = "bf16" then p.castTo torch i n "bfloat16" "bf16"
  else p

/-- A cast of an operand to `f32`, where it is not. -/
def promoteOperand (shapes : List (List Shape.Dim)) (p : Promoting V) (idx : Nat) :
    Promoting V :=
  let elt := p.elts.getD idx ""
  if elt = "f32" then p
  else
    { p with
      elts := p.elts.set idx "f32"
      promotions :=
        p.promotions ++ [(idx, shapeToMlirType (shapes.getD idx []) elt, "f32")] }

def shortFloats : List String := ["bf16", "f16"]

/-- The operands that differ from the first. -/
def mismatches (elts : List String) : List (Nat × String × String) :=
  elts.zipIdx.drop 1 |>.filterMap fun e =>
    if elts.getD 0 "" ≠ e.1 then some (e.2, elts.getD 0 "", e.1) else none

/-- An operand against the first. -/
def promoteTurn (halOp sourceNode : String) (inputNames : List String)
    (shapes : List (List Shape.Dim)) (p : Promoting V) (i : Nat) :
    Except ConvertError (Promoting V) :=
  let first := p.elts.getD 0 ""
  let elt := p.elts.getD i ""
  let n := inputNames.getD i ""
  if elt = first then .ok p
  else if n.startsWith "_const_" ∧ (p.weights.lookup n).isSome then
    .ok (promoteConst torch n first elt i p)
  else
    match if first = "f32" ∧ elt ∈ shortFloats then weightKey p.weights n else none with
    | some key => .ok (p.castTo torch i key "float32" "f32")
    | none =>
      if first ∈ "f32" :: shortFloats ∧ elt ∈ "f32" :: shortFloats then
        .ok (promoteOperand shapes (promoteOperand shapes p 0) i)
      else .error (.typeMismatch halOp sourceNode p.elts inputNames (mismatches p.elts))

def sameTypeOps : List String := ["add", "mul", "sub", "div", "max", "pow"]

def cmpOps : List String := ["le", "ge", "gt", "lt", "eq", "ne"]

def floatRequiredOps : List String := [
  "linear", "layer_norm", "rms_norm", "softmax", "relu", "gelu", "silu", "sigmoid", "tanh",
  "exp", "neg", "matmul", "mean", "cumsum"]

/-- Operands of another element type than the first are promoted. -/
def promote (halOp sourceNode : String) (inputNames : List String)
    (inputs : List TensorTy) (weights : List (String × Tensor V)) :
    Except ConvertError (Promoting V) :=
  let start : Promoting V := ⟨inputs.map fun ty => pytorchToMlir ty.elt, weights, []⟩
  if halOp ∈ sameTypeOps then
    ((List.range inputs.length).drop 1).foldlM
      (promoteTurn torch halOp sourceNode inputNames (inputs.map TensorTy.shape)) start
  else .ok start

/-- The checks on the element types of comparisons, float ops and indices. -/
def checkElts (halOp sourceNode : String) (inputNames elts : List String) :
    Except ConvertError Unit := do
  if halOp ∈ cmpOps ∧ 2 ≤ elts.length ∧ mismatches elts ≠ [] then
    throw (.typeMismatch halOp sourceNode elts inputNames (mismatches elts))
  if halOp ∈ floatRequiredOps then
    match elts.zipIdx.find? fun e => e.1 ∉ ["f32", "f16", "bf16", "f64"] with
    | some e => throw (.floatRequired halOp sourceNode e.2 e.1)
    | none => pure ()
  if halOp = "index" then
    match (elts.zipIdx.drop 1).find? fun e =>
        e.1 ∉ ["i64", "i32", "int64", "int32", "f32", "f64"] with
    | some e => throw (.indexOperand e.2 e.1)
    | none => pure ()

/-! ## Results -/

def dtypeMap : List (String × String) :=
  [("torch.int64", "i64"), ("torch.int32", "i32"), ("torch.float32", "f32"), ("torch.bool", "i1")]

def codeToDtype : List (Int × String) := [
  (0, "torch.uint8"), (1, "torch.int8"), (2, "torch.int16"), (3, "torch.int64"),
  (4, "torch.int32"), (5, "torch.int64"), (6, "torch.float32"), (7, "torch.float64"),
  (8, "torch.complex64"), (9, "torch.complex128"), (11, "torch.bool"), (12, "torch.qint8"),
  (13, "torch.quint8"), (14, "torch.qint32"), (15, "torch.bfloat16"), (16, "torch.float16")]

def resolveDtypeKwarg (kwargs : List (String × Arg)) : Option String :=
  match kwargs.lookup "dtype" with
  | some (.item (.dtype s)) => dtypeMap.lookup s
  | some (.item (.int i)) => (codeToDtype.lookup i).bind fun d => dtypeMap.lookup d
  | some (.item (.bool b)) =>
    (codeToDtype.lookup (if b then 1 else 0)).bind fun d => dtypeMap.lookup d
  | _ => none

def resolveDtype (halOp : String) (elts : List String) (kwargs : List (String × Arg)) :
    Except ConvertError (Option String) :=
  if halOp = "ones_like" then .ok (some ((resolveDtypeKwarg kwargs).getD "f32"))
  else if halOp = "arange" then .ok (some ((resolveDtypeKwarg kwargs).getD "i64"))
  else if halOp = "cumsum" then
    match resolveDtypeKwarg kwargs, elts with
    | some elt, _ => .ok (some elt)
    | none, [] => .error .argument
    | none, elt :: _ =>
      .ok (if elt.startsWith "i" then some "i64" else if elt.startsWith "f" then some elt else none)
  else .ok none

def applyDtypeHook (halOp : String) (elts : List String) (kwargs : List (String × Arg))
    (outTypes : List String) : Except ConvertError (List String) := do
  match ← resolveDtype halOp elts kwargs, outTypes with
  | some elt, out :: rest => pure (replaceElementType out elt :: rest)
  | _, _ => pure outTypes

/-- The types of an op, the casts of its operands, and the weights behind it. -/
structure ResolvedTypes (V : Type) where
  inputTypes : List String
  outputTypes : List String
  promotions : List (Nat × String × String)
  weights : List (String × Tensor V)

def resolveOpTypes (infer : InferOutputShape) (halOp sourceNode : String)
    (inputNames : List String) (ssaMap : List (String × String))
    (shapeMap : List (String × TensorTy)) (weights : List (String × Tensor V))
    (kwargs : List (String × Arg)) : Except ConvertError (ResolvedTypes V) := do
  let inputs := inputNames.map (operandTy ssaMap shapeMap weights)
  let p ← promote torch halOp sourceNode inputNames inputs weights
  checkElts halOp sourceNode inputNames p.elts
  let operands := List.zipWith TensorTy.mk (inputs.map TensorTy.shape) p.elts
  let out ← match infer halOp operands kwargs with
    | .ok out => pure out
    | .error .caught => pure [operands.headD noOperands]
    | .error .raised => throw .inference
  let outputTypes ← applyDtypeHook halOp p.elts kwargs
    (out.map fun ty => shapeToMlirType ty.shape ty.elt)
  pure ⟨operands.map fun ty => shapeToMlirType ty.shape ty.elt, outputTypes, p.promotions,
    p.weights⟩

end CompileForge.Compiler.Fx
