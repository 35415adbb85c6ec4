/-
  The FX graph the converter reads, and the registry of the ops it knows
  (`compiler/dialect/_op_defs.py`).
-/

import CompileForge.Compiler.Mlir
import CompileForge.Compiler.Shape.Pure
import CompileForge.Lib.OrderedDict

namespace CompileForge.Compiler.Fx

open Lib
open Shape (TensorTy)

/-- An argument of a node, or an entry of a list of arguments. -/
inductive Item where
  | node (name : String)
  | bool (b : Bool)
  | int (i : Int)
  | float (bits : UInt64)
  | sym (value : Option Int)
  | str (s : String)
  /-- A dtype, a memory format or a layout, by its `str`. -/
  | dtype (s : String)
  | none
deriving DecidableEq, Repr

/-- A `SymInt` is what `_symint_to_int` makes of it; a float is its bit pattern. -/
inductive Arg where
  | item (a : Item)
  | list (items : List Item)
deriving DecidableEq, Repr

/-- `meta["val"]`: a fake tensor, or a value without a shape. -/
inductive Val where
  | tensor (ty : TensorTy) (symNames : List (Option String))
  | other
deriving DecidableEq, Repr

inductive NodeOp where
  | placeholder
  | getAttr (target : String)
  | callFunction (target : String)
  | output
deriving DecidableEq, Repr

/-- Named by its name, which FX keeps unique.  Of `meta` the entry `val` is kept: the shape and the
    element type of a fake tensor, and the names of its symbolic dims. -/
structure Node where
  name : String
  op : NodeOp
  args : List Arg
  kwargs : List (String × Arg)
  val : Option Val
deriving DecidableEq, Repr

/-- A tensor of the state dict: its elements are values of `V`. -/
structure Tensor (V : Type) where
  shape : List Nat
  dtype : String
  elems : List V

structure InputSpec where
  kind : Nat
  argName : String
  target : String
deriving DecidableEq, Repr

structure ExportedProgram (V : Type) where
  nodes : List Node
  userInputs : List String
  inputSpecs : List InputSpec
  stateDict : List (String × Tensor V)
  constants : List (String × Tensor V)

def nodeNamed (nodes : List Node) (name : String) : Option Node :=
  nodes.find? fun n => n.name = name

/-! ## Ops -/

structure OpDef where
  halName : String
  atenNames : List String
  /-- `none` for the default, which skips list arguments. -/
  listArgAttr : Option (Option String) := none
  scalarKwargs : List (Nat × String) := []
  scalarSkip : List Nat := []

def opDefs : List OpDef := [
  ⟨"add", ["aten.add.Tensor", "aten.add.Scalar", "aten.add", "aten.add_.Tensor", "add"],
    none, [], []⟩,
  ⟨"mul", ["aten.mul.Tensor", "aten.mul.Scalar", "aten.mul", "aten.mul_.Tensor",
    "aten.mul_.Scalar"], none, [], []⟩,
  ⟨"sub", ["aten.sub", "aten.sub.Tensor", "aten.rsub", "aten.rsub.Scalar"], none, [], []⟩,
  ⟨"neg", ["neg", "aten.neg.default", "aten.neg"], none, [], []⟩,
  ⟨"pow", ["pow", "aten.pow.Tensor_Scalar", "aten.pow"], none, [], []⟩,
  ⟨"max", ["aten.max", "aten.max.other"], none, [], []⟩,
  ⟨"relu", ["aten.relu", "aten.relu.default"], none, [], []⟩,
  ⟨"gelu", ["aten.gelu", "aten.gelu.default"], none, [], []⟩,
  ⟨"silu", ["aten.silu", "aten.silu.default"], none, [], []⟩,
  ⟨"sigmoid", ["aten.sigmoid.default", "aten.sigmoid"], none, [], []⟩,
  ⟨"softplus", ["aten.softplus.default"], none, [], []⟩,
  ⟨"exp", ["aten.exp.default"], none, [], []⟩,
  ⟨"layer_norm", ["aten.layer_norm", "aten.layer_norm.default", "aten.native_layer_norm",
    "aten.native_layer_norm.default"], some (some "normalized_shape"), [], []⟩,
  ⟨"rms_norm", ["aten.rms_norm", "aten.rms_norm.default"], some (some "normalized_shape"), [], []⟩,
  ⟨"softmax", ["aten._softmax", "aten._softmax.default", "aten.softmax.int"], none,
    [(1, "dim")], []⟩,
  ⟨"matmul", ["aten.matmul", "aten.matmul.default", "aten.mm", "aten.mm.default", "aten.bmm"],
    none, [], []⟩,
  ⟨"linear", ["aten.linear", "aten.linear.default"], none, [], []⟩,
  ⟨"view", ["aten.view", "aten.view.default", "aten.reshape", "aten.reshape.default"],
    some (some "shape"), [], []⟩,
  ⟨"unsqueeze", ["aten.unsqueeze", "aten.unsqueeze.default"], none, [(1, "dim")], []⟩,
  ⟨"expand", ["aten.expand", "aten.expand.default"], some none, [], []⟩,
  ⟨"permute", ["aten.permute", "aten.permute.default"], some (some "dims"), [], []⟩,
  ⟨"transpose", ["aten.transpose", "aten.transpose.int"], none, [(1, "dim0"), (2, "dim1")], []⟩,
  ⟨"slice", ["aten.slice.Tensor", "aten.slice_copy.Tensor"], none,
    [(1, "dim"), (2, "start"), (3, "end"), (4, "step")], []⟩,
  ⟨"select", ["aten.select.int", "aten.select"], none, [(1, "dim"), (2, "index")], []⟩,
  ⟨"cat", ["aten.cat", "aten.cat.default"], some none, [(1, "dim")], []⟩,
  ⟨"split", ["aten.split_with_sizes.default"], some (some "split_sizes"), [(2, "dim")], []⟩,
  ⟨"chunk", ["aten.chunk.default"], none, [(1, "chunks"), (2, "dim")], []⟩,
  ⟨"scaled_dot_product_attention", ["aten.scaled_dot_product_attention",
    "aten.scaled_dot_product_attention.default"], none,
    [(4, "dropout_p"), (5, "is_causal")], []⟩,
  ⟨"gt", ["gt", "aten.gt.Tensor", "aten.gt"], none, [], []⟩,
  ⟨"lt", ["aten.lt", "aten.lt.Tensor"], none, [], []⟩,
  ⟨"eq", ["aten.eq.Tensor"], none, [], []⟩,
  ⟨"ne", ["aten.ne.Scalar", "aten.ne.Tensor"], none, [], []⟩,
  ⟨"le", ["aten.le.Tensor"], none, [], []⟩,
  ⟨"logical_and", ["aten.__and__.Tensor"], none, [], []⟩,
  ⟨"cos", ["aten.cos.default", "aten.cos"], none, [], []⟩,
  ⟨"sin", ["aten.sin.default", "aten.sin"], none, [], []⟩,
  ⟨"rsqrt", ["rsqrt", "aten.rsqrt.default", "aten.rsqrt"], none, [], []⟩,
  ⟨"mean", ["mean", "aten.mean.dim", "aten.mean"], none, [(2, "keepdim")], []⟩,
  ⟨"triu", ["triu", "aten.triu.default", "aten.triu"], none, [(1, "diagonal")], []⟩,
  ⟨"tril", ["aten.tril.default", "aten.tril"], none, [(1, "diagonal")], []⟩,
  ⟨"cumsum", ["aten.cumsum", "aten.cumsum.default"], none, [(1, "dim")], []⟩,
  ⟨"sum", ["aten.sum.dim_IntList"], some (some "dim"), [(1, "dim"), (2, "keepdim")], []⟩,
  ⟨"diff", ["aten.diff.default"], none, [(1, "n"), (2, "dim")], []⟩,
  ⟨"arange", ["aten.arange.start", "aten.arange", "aten.arange.default",
    "aten.arange.start_step"], none, [], []⟩,
  ⟨"ones_like", ["aten.ones", "aten.ones.default"], some (some "shape"), [], []⟩,
  ⟨"full_like", ["aten.full", "aten.full.default"], some (some "shape"), [(1, "fill_value")], []⟩,
  ⟨"zeros", ["aten.zeros.default"], some (some "shape"), [], []⟩,
  ⟨"zeros_like", ["aten.zeros_like.default"], none, [], []⟩,
  ⟨"new_ones", ["aten.new_ones.default"], none, [], []⟩,
  ⟨"eye", ["aten.eye.default"], none, [(0, "n"), (1, "m")], []⟩,
  ⟨"embedding", ["aten.embedding", "aten.embedding.default"], none, [], [2]⟩,
  ⟨"masked_fill", ["aten.masked_fill", "aten.masked_fill.Scalar", "aten.masked_fill_",
    "aten.masked_fill_.Scalar"], none, [], []⟩,
  ⟨"conv1d", ["aten.conv1d.default"], some (some "__conv1d__"),
    [(2, "bias"), (3, "stride"), (4, "padding"), (5, "dilation"), (6, "groups")], []⟩,
  ⟨"pad", ["aten.pad.default"], some (some "pad"), [], [1]⟩,
  ⟨"index", ["aten.index.Tensor"], some none, [], []⟩,
  ⟨"sym_size", ["sym_size", "aten.sym_size.int", "aten.sym_size"], none, [(1, "dim")], []⟩,
  ⟨"copy_", ["aten.copy_.default"], none, [], []⟩,
  ⟨"type_as", ["aten.type_as", "aten.type_as.default"], none, [], []⟩,
  ⟨"identity", ["_assert_tensor_metadata", "aten._assert_tensor_metadata.default",
    "aten._assert_tensor_metadata", "aten.to", "aten.to.dtype", "aten.to.dtype_layout",
    "aten.contiguous", "aten.contiguous.default", "aten.clone", "aten.clone.default",
    "aten.dropout", "aten.dropout.default", "aten.detach", "aten.detach.default", "aten.detach_",
    "aten.detach_.default", "aten.alias", "aten.alias.default", "aten.lift_fresh_copy",
    "aten.lift_fresh_copy.default"], none, [(1, "dtype")], []⟩,
  ⟨"getitem", ["getitem"], none, [], []⟩,
  ⟨"_skip_wrap", ["wrap_with_set_grad_enabled"], none, [], []⟩,
  ⟨"div", ["aten.div.Tensor", "aten.div.default"], none, [], []⟩,
  ⟨"tanh", ["aten.tanh.default"], none, [], []⟩,
  ⟨"sqrt", ["aten.sqrt.default"], none, [], []⟩,
  ⟨"clamp_min", ["aten.clamp_min.default"], none, [], []⟩,
  ⟨"einsum", ["aten.einsum.default"], some none, [(0, "equation")], []⟩,
  ⟨"stack", ["aten.stack.default"], none, [], []⟩,
  ⟨"linalg_norm", ["aten.linalg_vector_norm.default"], none, [], []⟩,
  ⟨"var", ["aten.var.dim"], none, [], []⟩,
  ⟨"view_as", ["aten.view_as.default"], none, [], []⟩,
  ⟨"expand_as", ["aten.expand_as.default"], none, [], []⟩]

def atenToHal (name : String) : Option String :=
  (opDefs.find? fun od => name ∈ od.atenNames).map OpDef.halName

def opDef (halOp : String) : Option OpDef := opDefs.find? fun od => od.halName = halOp

def listArgAttr (halOp : String) : Option (Option String) := (opDef halOp).bind OpDef.listArgAttr

def scalarKwargNames (halOp : String) : List (Nat × String) :=
  ((opDef halOp).map OpDef.scalarKwargs).getD []

def scalarIntPositions (halOp : String) : List Nat :=
  ((opDef halOp).map fun od => od.scalarKwargs.map Prod.fst ++ od.scalarSkip).getD []

def overloadCandidates : List String := [
  "default", "int", "float", "str", "bool", "complex", "Scalar", "ScalarList", "Tensor",
  "dimname", "layout", "device", "memory_format", "generator", "dim", "start", "other", "dtype",
  "dtype_layout", "values", "copy"]

def splitLastDot (target : String) : Option (String × String) :=
  let behind := (target.toList.reverse.takeWhile (· ≠ '.')).reverse
  match (target.toList.reverse.dropWhile (· ≠ '.')) with
  | [] => none
  | _ :: before => some (String.ofList before.reverse, String.ofList behind)

/-- A target is looked up as the string it prints as. -/
def mapAtenOp (target : String) : Option String :=
  match atenToHal target with
  | some hal => some hal
  | none =>
    match splitLastDot target with
    | some (base, overload) => if overload ∈ overloadCandidates then atenToHal base else none
    | none => none

example : mapAtenOp "aten.split.Tensor" = none := by decide

end CompileForge.Compiler.Fx
