/-
  The converter (`fx_graph_to_mlir` in `compiler/fx/converter.py`) up to the split: one pass
  over the nodes of an FX graph that emits ops, then the weight ops in front of them.  The layer
  a node belongs to (`dump_layer`, `layer_boundaries`) is left out.
-/

import CompileForge.Compiler.Fx.Resolve

namespace CompileForge.Compiler.Fx

open Lib
open Shape (TensorTy)

variable {V : Type}

/-- What the pass has recorded. -/
structure State (V : Type) where
  mlirOps : List MlirOp
  ssaMap : List (String × String)
  tupleOutputs : List (String × List String)
  shapeMap : List (String × TensorTy)
  weights : List (String × Tensor V)
  nameCounter : Nat
  funcOutputs : List FuncOutput

/-- What stays the same during the pass. -/
structure Context (V : Type) where
  torch : Torch V
  infer : InferOutputShape
  program : ExportedProgram V

def cleanName (name : String) : String := name.map fun c => if c = '.' then '_' else c

/-- The names of the parameters and buffers behind the placeholders. -/
def weightNameMap (specs : List InputSpec) : String → Option String :=
  dictGet ((specs.filter fun s => s.kind ∈ [2, 3, 4] ∧ s.target ≠ "").map fun s =>
    (s.argName, cleanName s.target))

variable (program : ExportedProgram V)

/-- The tensors by their clean names: the last of the state dict, then new constants. -/
def initialWeights : List (String × Tensor V) :=
  let params := updateKeys [] (program.stateDict.map fun e => (cleanName e.1, e.2))
  program.constants.foldl (fun weights e => setDefault weights (cleanName e.1) e.2) params

def fakeToShapeTuple : Val → Except ConvertError TensorTy
  | .tensor ty _ => .ok ty
  | .other => .error .attributeError

/-- `_type_from_fake`, or `tensor<f32>` without a value. -/
def typeOfVal : Option Val → Except ConvertError String
  | some val => do
      let ty ← fakeToShapeTuple val
      pure (tensorTypeOfDtype ty.elt ty.shape)
  | none => .ok "tensor<f32>"

def convertInputs : Except ConvertError (List (String × String)) :=
  program.userInputs.mapM fun inpName => do
    let tp ← typeOfVal ((nodeNamed program.nodes inpName).bind Node.val)
    pure ("%" ++ inpName, tp)

def ssaName (ssaMap : List (String × String)) (name : String) : String :=
  (ssaMap.lookup name).getD name

variable (st : State V)

/-- `shape_map[name]` from the value of a node, where it has one. -/
def State.recordVal (node : Node) : Except ConvertError (State V) :=
  match node.val with
  | some val => do
      let ty ← fakeToShapeTuple val
      pure { st with shapeMap := setKey st.shapeMap node.name ty }
  | none => .ok st

/-! ## Attributes -/

def Item.toScalar : Item → Scalar
  | .node name => .str name
  | .bool b => .bool b
  | .int i => .int i
  | .float bits => .float bits
  | .sym (some i) => .int i
  | .sym .none => .none
  | .str s => .str s
  | .dtype s => .str s
  | .none => .none

/-- An attribute that is a node is the node's name; a dtype is its `str`. -/
def Arg.toAttr : Arg → Attr
  | .item a => .scalar a.toScalar
  | .list items => .list (items.map Item.toScalar)

def attributesOf (kwargs : List (String × Arg)) : List (String × Attr) :=
  kwargs.map fun e => (e.1, e.2.toAttr)

def sourceNodeAttr (node : Node) : String × Attr := ("source_node", .scalar (.str node.name))

/-! ## Arguments -/

/-- The operands of a node, and the constants and keyword arguments made on the way. -/
structure Collected (V : Type) where
  inputNames : List String
  nameCounter : Nat
  weights : List (String × Tensor V)
  extraKwargs : List (String × Arg)

def constName (nameCounter : Nat) : String := "_const_" ++ Nat.repr nameCounter

def Collected.push (c : Collected V) (name : String) : Collected V :=
  { c with inputNames := c.inputNames ++ [name] }

def Collected.pushConst (c : Collected V) (t : Tensor V) : Collected V :=
  { c with
    inputNames := c.inputNames ++ [constName c.nameCounter]
    nameCounter := c.nameCounter + 1
    weights := setKey c.weights (constName c.nameCounter) t }

/-- `extra_kwargs.setdefault(kwarg_name, ...)` at a position that has a name. -/
def Collected.keyword (c : Collected V) (halOp : String) (i : Nat) (a : Arg) : Collected V :=
  match (scalarKwargNames halOp).lookup i with
  | some name => { c with extraKwargs := setDefault c.extraKwargs name a }
  | none => c

variable (torch : Torch V) (ssaMap : List (String × String)) (halOp : String)

def collectItem (i : Nat) (c : Collected V) (a : Item) : Collected V :=
  let skipped := i ∈ scalarIntPositions halOp
  match a with
  | .node name => c.push (ssaName ssaMap name)
  | .bool _ => if skipped then c.keyword halOp i (.item a) else c
  | .int v => if skipped then c.keyword halOp i (.item a) else c.pushConst (torch.intScalar v)
  | .float v => if skipped then c.keyword halOp i (.item a) else c.pushConst (torch.floatScalar v)
  | .sym v =>
    if skipped then c.keyword halOp i (.item ((v.map Item.int).getD .none))
    else c.pushConst (torch.intScalar (v.getD 1))
  | .str _ =>
    match (scalarKwargNames halOp).lookup i with
    | some name => { c with extraKwargs := setDefault c.extraKwargs name (.item a) }
    | none => c.pushConst (torch.intScalar 0)
  | .dtype s => c.keyword halOp i (.item (.str s))
  | .none => c

/-- `sys.maxsize`, an open end or a dynamic size. -/
def maxsize : Int := 9223372036854775807

/-- An entry of a shape whose nodes are operands as well (`expand`, `cat`, `index`). -/
def collectShared (s : Collected V × List Item) (a : Item) : Collected V × List Item :=
  match a with
  | .node name => (s.1.push (ssaName ssaMap name), s.2 ++ [.str (ssaName ssaMap name)])
  | .sym v => (s.1, s.2 ++ [(v.map Item.int).getD .none])
  | .int v => (s.1, s.2 ++ [.int (if v = maxsize then -1 else v)])
  | a => (s.1, s.2 ++ [a])

/-- The sentinels of a target list. -/
def symintForView : Item → Int
  | .int v => if v = maxsize then -1 else v
  | .bool b => if b then 1 else 0
  | .sym v => v.getD (-1)
  | .float v => (torch.truncate v).getD (-1)
  | _ => -1

/-- An entry of a list attribute; the nodes among them are counted by `dynPos`. -/
def collectListed (s : Collected V × List Item × Nat) (a : Item) : Collected V × List Item × Nat :=
  let (c, resolved, dynPos) := s
  let useView := halOp ∈ ["view", "ones_like", "full_like", "new_zeros"]
  match a with
  | .node name =>
    let c := c.push (ssaName ssaMap name)
    if halOp = "view" then (c, resolved ++ [.int (-(dynPos + 2))], dynPos + 1)
    else if useView then (c, resolved ++ [.int (-1)], dynPos)
    else (c, resolved ++ [.str (ssaName ssaMap name)], dynPos)
  | a =>
    if useView then (c, resolved ++ [.int (symintForView torch a)], dynPos)
    else
      match a with
      -- `_symint_to_int(s) or 1`
      | .sym v => (c, resolved ++ [.int (if v.getD 0 = 0 then 1 else v.getD 0)], dynPos)
      | a => (c, resolved ++ [a], dynPos)

def collectList (i : Nat) (c : Collected V) (items : List Item) : Collected V :=
  match listArgAttr halOp with
  | none => c
  | some none =>
    let (c, resolved) := items.foldl (collectShared ssaMap) (c, [])
    if resolved = [] then c
    else { c with extraKwargs := setDefault c.extraKwargs "shape" (.list resolved) }
  | some (some attr) =>
    if attr = "__conv1d__" then c.keyword halOp i (.list items)
    else if (c.extraKwargs.lookup attr).isSome then c
    else
      let (c, resolved, _) := items.foldl (collectListed torch ssaMap halOp) (c, [], 0)
      { c with extraKwargs := setKey c.extraKwargs attr (.list resolved) }

variable (args : List Arg)

/-- The operands of an op, with the constants that they need. -/
def collectInputArgs (c : Collected V) : Collected V :=
  args.zipIdx.foldl (fun c e =>
    match e.1 with
    | .item a => collectItem torch ssaMap halOp e.2 c a
    | .list items => collectList torch ssaMap halOp e.2 c items) c

/-! ## `torch.arange` -/

def Item.intValue : Item → Option Int
  | .int v => some v
  | .bool b => some (if b then 1 else 0)
  | .sym v => v
  | _ => Option.none

/-- The bits of `1.0`. -/
def floatOne : UInt64 := 0x3FF0000000000000

/-- `arg == 1`. -/
def Item.isOne (a : Item) : Bool := a.intValue = some 1 || a = .float floatOne

/-- `arg == 0`; a float is 0 with either sign. -/
def Item.isZero (a : Item) : Bool :=
  a.intValue = some 0 || a = .float 0 || a = .float 0x8000000000000000

def arangeStart (start : Item) (c : Collected V) : Except ConvertError (Collected V) :=
  match start with
  | .node _ => .error (.notImplemented "symbolic arange start is not supported")
  | .float v => .ok (c.pushConst (torch.floatScalar v))
  | .none => .ok (c.pushConst (torch.intScalar 0))
  | .sym v => .ok (c.pushConst (torch.intScalar (v.getD 0)))
  | start =>
    match start.intValue with
    | some v => .ok (c.pushConst (torch.intScalar v))
    | none => .error .argument

def arangeSize (start stop : Item) : Option Int :=
  let first := if start = .none ∨ start = .sym none then some 0 else start.intValue
  match first, stop.intValue with
  | some a, some b => some (b - a)
  | _, _ => torch.difference stop start

/-- The size: a node, or a constant. -/
def arangeStop (start stop : Item) (c : Collected V) : Except ConvertError (Collected V) :=
  match stop with
  | .node name =>
    if start.isZero then .ok (c.push (ssaName ssaMap name))
    else .error (.notImplemented "symbolic arange end with nonzero start is not supported")
  | .none | .sym none => .error (.notImplemented "unsupported arange end value")
  | stop =>
    match arangeSize torch start stop with
    | some size => .ok (c.pushConst (torch.intScalar size))
    | none => .error .argument

/-- The start, 0 where there is only an end, and the end. -/
def arangeBounds : List Arg → Arg × Arg
  | [stop] => (.item (.int 0), stop)
  | start :: stop :: _ => (start, stop)
  | [] => (.item .none, .item .none)

def collectArangeArgs (c : Collected V) : Except ConvertError (Collected V) :=
  if args = [] then .error (.notImplemented "torch.arange requires at least one argument")
  else
    match args.getD 2 (.item (.int 1)), (arangeBounds args).1, (arangeBounds args).2 with
    | .item step, .item start, .item stop =>
      if step.isOne then do
        let c ← arangeStart torch start c
        arangeStop torch ssaMap start stop c
      else
        .error (.notImplemented "torch.arange with step != 1 is not supported by sf.arange")
    | .list _, _, _ =>
      .error (.notImplemented "torch.arange with step != 1 is not supported by sf.arange")
    | _, _, _ => .error .argument

/-! ## Keyword arguments and names -/

/-- The integers among the arguments. -/
def intArgs : List Int :=
  args.filterMap fun
    | .item (.int v) => some v
    | _ => none

/-- The first integer or `SymInt` among the arguments, as `_symint_to_int(a) or a`. -/
def firstIntArg : Option Item :=
  args.findSome? fun
    | .item (.int v) => some (.int v)
    | .item (.sym v) => some (.sym v)
    | _ => none

def applyPostKwargs (inputNames : List String)
    (kwargs : List (String × Arg)) : List (String × Arg) :=
  if halOp = "ones_like" ∧ inputNames = [] then
    setDefault kwargs "shape" (.list [.int 1, .int 1])
  else if halOp = "full_like" ∧ inputNames = [] then
    let kwargs := setDefault kwargs "shape" (.list [.int 1])
    match intArgs args with
    | a :: b :: _ => setKey (setKey kwargs "dim0" (.item (.int a))) "dim1" (.item (.int b))
    | _ => kwargs
  else if halOp ∈ ["softmax", "unsqueeze"] ∧ (kwargs.lookup "dim").isSome = false then
    match firstIntArg args with
    | some a => setKey kwargs "dim" (.item a)
    | none => kwargs
  else kwargs

def argText : Arg → String
  | .item (.int v) => toString v
  | a => torch.str a

def firstArgKey : Option String :=
  match args with
  | .item (.node name) :: _ => some (ssaKey (ssaName ssaMap name))
  | _ => none

def semanticSsaName (halOp : String) (node : Node) (nameCounter : Nat)
    (kwargs : List (String × Arg)) (ssaMap : List (String × String)) : String :=
  if halOp = "sym_size" then
    let dim := ((kwargs.lookup "dim").map (argText torch)).getD "?"
    "%" ++ (firstArgKey ssaMap node.args).getD "tensor" ++ "_dim_" ++ dim
  else if halOp = "arange" then
    let ctx := match firstArgKey ssaMap node.args with
      | some key => String.ofList (key.toList.filter (· ≠ '%'))
      | none => Nat.repr nameCounter
    "%arange_" ++ ctx ++ "_" ++ Nat.repr nameCounter
  else if halOp = "le" then "%causal_mask"
  else if halOp = "expand" then "%attn_mask_" ++ Nat.repr nameCounter
  else if halOp = "logical_and" then "%mask_and_" ++ Nat.repr nameCounter
  else if halOp = "view" then "%reshape_" ++ Nat.repr nameCounter
  else if node.name ≠ "" then "%" ++ node.name
  else "%_out_" ++ Nat.repr nameCounter

/-! ## Slices of `split` and `chunk` -/

structure Piece where
  start : Int
  stop : Int
deriving DecidableEq, Repr

/-- The pieces of the given sizes, one behind the other. -/
def piecesFrom (offset : Int) : List Int → List Piece
  | [] => []
  | size :: sizes => ⟨offset, offset + size⟩ :: piecesFrom (offset + size) sizes

structure Slicing where
  node : Node
  /-- `split` or `chunk`. -/
  kind : String
  tensorSsa : String
  dim : Int
  /-- The shape and the element type of the source, where they are known. -/
  src : Option TensorTy
  /-- The type string of the source; none where only the fake tensor knows it. -/
  srcTypes : List String

variable (s : Slicing)

def Slicing.pieceName (i : Nat) : String :=
  "%" ++ s.node.name ++ "__" ++ s.kind ++ "_" ++ Nat.repr i

def Slicing.normDim : Int :=
  match s.src with
  | some src => if s.dim < 0 then s.dim + src.shape.length else s.dim
  | none => s.dim

/-- The type of a piece. `chunk` keeps the source's where the dim is none of it. -/
def Slicing.pieceTy (size : Int) : Option TensorTy :=
  match s.src with
  | none => none
  | some src =>
    if 0 ≤ s.normDim ∧ s.normDim < src.shape.length then
      some ⟨src.shape.set s.normDim.toNat (some size), src.elt⟩
    else if s.kind = "chunk" then some src
    else none

def Slicing.pieceOp (i : Nat) (p : Piece) : MlirOp where
  name := "sf.slice"
  dialect := "sf"
  opName := "slice"
  operands := [s.tensorSsa]
  results := [s.pieceName i]
  attributes := [("dim", .scalar (.int s.dim)), ("start", .scalar (.int p.start)),
    ("end", .scalar (.int p.stop)), sourceNodeAttr s.node]
  inputTypes := s.srcTypes
  outputTypes := ((s.pieceTy (p.stop - p.start)).map fun ty =>
    shapeToMlirType ty.shape ty.elt).toList

variable (shapeMap : List (String × TensorTy))

def recordPiece (name : String) (ty : Option TensorTy) : List (String × TensorTy) :=
  match ty with
  | none => shapeMap
  | some ty =>
    setKey shapeMap name ⟨ty.shape.map fun d => d.filter fun v => 0 ≤ v, ty.elt⟩

def State.emitPieces (pieces : List Piece) : State V :=
  let indexed := pieces.zipIdx
  let outputs := indexed.map fun e => s.pieceName e.2
  let shapeMap := indexed.foldl (fun shapeMap e =>
    recordPiece shapeMap (s.pieceName e.2) (s.pieceTy (e.1.stop - e.1.start))) st.shapeMap
  { st with
    mlirOps := st.mlirOps ++ indexed.map fun e => s.pieceOp e.2 e.1
    tupleOutputs := setKey st.tupleOutputs s.node.name outputs
    ssaMap := setKey st.ssaMap s.node.name
      (outputs.head?.getD (ssaName st.ssaMap s.node.name))
    shapeMap := match outputs.head?.bind fun first => shapeMap.lookup first with
      | some ty => setKey shapeMap s.node.name ty
      | none => shapeMap }

/-- `dim`, which is 0 by default and for a `SymInt` without a value. -/
def dimArg : Option Arg → Option Int
  | none => some 0
  | some (.item (.int v)) => some v
  | some (.item (.bool b)) => some (if b then 1 else 0)
  | some (.item (.sym v)) => some (v.getD 0)
  | some _ => none

def recordedTypes (name : String) : List String :=
  ((shapeMap.lookup name).map fun ty => shapeToMlirType ty.shape ty.elt).toList

def doSplit (node : Node) : Except ConvertError (State V) :=
  match node.args with
  | .item (.node tensor) :: .list raw :: rest =>
    match dimArg rest.head?, raw.mapM Item.intValue with
    | some dim, some (size :: sizes) =>
      .ok (st.emitPieces
        { node, kind := "split", tensorSsa := ssaName st.ssaMap tensor, dim
          src := st.shapeMap.lookup tensor
          srcTypes := recordedTypes st.shapeMap tensor } (piecesFrom 0 (size :: sizes)))
    | _, _ => .ok st
  | .item (.node _) :: .item a :: rest =>
    match a with
    | .none | .str _ => .ok st
    -- a number other than 0 is no list
    | a => if a.isZero ∨ (dimArg rest.head?).isNone then .ok st else .error .argument
  | _ => .ok st

def chunksArg : Option Arg → Except ConvertError Int
  | none => .ok 2
  | some (.item (.int v)) => .ok v
  | some (.item (.bool b)) => .ok (if b then 1 else 0)
  | some (.item (.sym v)) => .ok (if v.getD 0 = 0 then 2 else v.getD 0)
  | some _ => .error .argument

def dimOf (shape : List Shape.Dim) (dim : Int) : Except ConvertError Shape.Dim :=
  if dim < shape.length then
    match Shape.wrapIndex dim shape.length with
    | some i => .ok (Shape.dimAt shape i)
    | none => .error .argument
  else .ok none

/-- The sizes of `_do_chunk`: the remainder is spread over the first chunks. -/
def chunkSizes (total chunks : Int) : List Int :=
  (List.range chunks.toNat).map fun (i : Nat) =>
    total / chunks + if (i : Int) < total % chunks then 1 else 0

def chunkTotal (src fake : TensorTy) (dim : Int) : Except ConvertError Shape.Dim := do
  match ← dimOf src.shape dim with
  | some total => pure (some total)
  | none => dimOf fake.shape dim

variable (ctx : Context V) (st : State V) (node : Node) (halOp : String)

def doChunk : Except ConvertError (State V) :=
  match node.args with
  | .item (.node tensor) :: rest =>
    match (nodeNamed ctx.program.nodes tensor).bind Node.val with
    | none => .ok st
    | some val =>
      match dimArg rest[1]? with
      | none => .ok st
      | some dim => do
          let fake ← fakeToShapeTuple val
          let src := (st.shapeMap.lookup tensor).getD fake
          match ← chunkTotal src fake dim with
          | none => pure st
          | some total =>
            let chunks ← chunksArg rest[0]?
            pure (st.emitPieces
              { node, kind := "chunk", tensorSsa := ssaName st.ssaMap tensor, dim
                src := some src, srcTypes := recordedTypes st.shapeMap tensor }
              (piecesFrom 0 (chunkSizes total chunks)))
  | _ => .ok st

/-! ## Handlers -/

def tupleElement (source : String) (idx : Arg) : Option String :=
  match st.tupleOutputs.lookup source, idx with
  | some outputs, .item (.int i) => if 0 ≤ i then outputs[i.toNat]? else none
  | some outputs, .item (.bool b) => outputs[if b then 1 else 0]?
  | _, _ => none

def getitemIdx (rest : List Arg) : Arg := rest.headD (.item (.int 0))

def sizeName : String :=
  if node.name ≠ "" then "%" ++ node.name else "%_out_" ++ Nat.repr st.mlirOps.length

def sizeOp (source : String) (rest : List Arg) : MlirOp where
  name := "sf.sym_size"
  dialect := "sf"
  opName := "sym_size"
  operands := [ssaName st.ssaMap source]
  results := [sizeName st node]
  attributes := [("dim", (getitemIdx rest).toAttr), sourceNodeAttr node]
  inputTypes := []
  outputTypes := []

/-- `_do_getitem`: a piece of a tuple, or else a size. -/
def doGetitem : State V :=
  match node.args with
  | .item (.node source) :: rest =>
    match tupleElement st source (getitemIdx rest) with
    | some ssa =>
      { st with
        ssaMap := setKey st.ssaMap node.name ssa
        shapeMap := match st.shapeMap.lookup ssa with
          | some ty => setKey st.shapeMap node.name ty
          | none => st.shapeMap }
    | none =>
      { st with
        ssaMap := setKey st.ssaMap node.name (sizeName st node)
        mlirOps := st.mlirOps ++ [sizeOp st node source rest] }
  | _ => st

/-- An operand behind its cast: the op, and the operands with the cast's result. -/
def castOp (inputNames inputTypes : List String) (nameCounter : Nat)
    (p : Nat × String × String) : MlirOp where
  name := "sf.identity"
  dialect := "sf"
  opName := "identity"
  operands := [inputNames.getD p.1 ""]
  results := ["%promote_" ++ Nat.repr nameCounter]
  attributes := [("dtype", .scalar (.str ("torch." ++ p.2.2))), sourceNodeAttr node]
  inputTypes := [p.2.1]
  outputTypes := [inputTypes.getD p.1 ""]

/-- The casts of an op: the ops, the operands and the counter behind them. -/
def emitCasts (node : Node) (inputTypes : List String) :
    List (Nat × String × String) → List String → Nat → List MlirOp × List String × Nat
  | [], inputNames, nameCounter => ([], inputNames, nameCounter)
  | p :: promotions, inputNames, nameCounter =>
    let op := castOp node inputNames inputTypes nameCounter p
    let (ops, names, counter) := emitCasts node inputTypes promotions
      (inputNames.set p.1 ("%promote_" ++ Nat.repr nameCounter)) (nameCounter + 1)
    (op :: ops, names, counter)

def dimNames (kwargs : List (String × Arg)) : List (String × Arg) :=
  match node.val with
  | some (.tensor _ symNames) =>
    if halOp = "index" ∧ symNames ≠ [] then
      setKey kwargs "dim_names" (.list (symNames.map fun s => .str (s.getD "?")))
    else kwargs
  | _ => kwargs

def dtypeAliases : List String := ["copy_", "type_as"]

/-- The keyword arguments of a node, with those of its arguments. -/
def opKwargs (c : Collected V) : List (String × Arg) :=
  applyPostKwargs halOp node.args c.inputNames (updateKeys node.kwargs c.extraKwargs)

def outputName (c : Collected V) : String :=
  semanticSsaName ctx.torch halOp node c.nameCounter (opKwargs node halOp c) st.ssaMap

def emitName : String := if halOp ∈ dtypeAliases then "identity" else halOp

def emitOperands {α : Type} (halOp : String) (l : List α) : List α :=
  if halOp ∈ dtypeAliases then l.take 1 else l

def nodeOp (c : Collected V) (r : ResolvedTypes V) (inputNames : List String) : MlirOp where
  name := "sf." ++ emitName halOp
  dialect := "sf"
  opName := emitName halOp
  operands := emitOperands halOp inputNames
  results := [outputName ctx st node halOp c]
  attributes := attributesOf (dimNames node halOp
    (setKey (opKwargs node halOp c) "source_node" (.item (.str node.name))))
  inputTypes := emitOperands halOp r.inputTypes
  outputTypes := r.outputTypes

def recordOutput (name : String)
    (outputTypes : List String) : Except ConvertError (List (String × TensorTy)) :=
  match outputTypes with
  | [] => .ok shapeMap
  | out :: _ =>
    match parseMlirTypeToShape out with
    | some ty => .ok (setKey shapeMap name ty)
    | none => .error .argument

/-- A node whose arguments are collected: casts, then the op itself. -/
def emitOp (c : Collected V) : Except ConvertError (State V) := do
  let ssaMap := setKey st.ssaMap node.name (outputName ctx st node halOp c)
  let r ← resolveOpTypes ctx.torch ctx.infer halOp node.name c.inputNames ssaMap st.shapeMap
    c.weights (setKey (opKwargs node halOp c) "source_node" (.item (.str node.name)))
  let (casts, inputNames, nameCounter) :=
    emitCasts node r.inputTypes r.promotions c.inputNames (c.nameCounter + 1)
  let shapeMap ← recordOutput st.shapeMap node.name r.outputTypes
  pure
    { st with
      mlirOps := st.mlirOps ++ casts ++ [nodeOp ctx st node halOp c r inputNames]
      ssaMap
      shapeMap
      weights := r.weights
      nameCounter }

def collectArgs : Except ConvertError (Collected V) :=
  let start : Collected V := ⟨[], st.nameCounter, st.weights, []⟩
  if halOp = "arange" then collectArangeArgs ctx.torch st.ssaMap node.args start
  else .ok (collectInputArgs ctx.torch st.ssaMap halOp node.args start)

def convertCall : Except ConvertError (State V) :=
  if halOp = "_skip_wrap" then
    .ok { st with
      ssaMap := setKey st.ssaMap node.name
        ((ctx.program.userInputs.head?.map fun n => "%" ++ n).getD node.name) }
  else if halOp = "getitem" then .ok (doGetitem st node)
  else if halOp = "split" then doSplit st node
  else if halOp = "chunk" then doChunk ctx st node
  else do
    let c ← collectArgs ctx st node halOp
    emitOp ctx st node halOp c

/-- An output: the value the node is mapped to, by its name if it is not. -/
def convertOutput (a : Item) : Except ConvertError (State V) :=
  match a with
  | .node name => do
      let tp ← typeOfVal ((nodeNamed ctx.program.nodes name).bind Node.val)
      pure { st with funcOutputs := st.funcOutputs ++ [⟨ssaName st.ssaMap name, tp, false⟩] }
  | _ => .ok st

def convertNode : Except ConvertError (State V) :=
  match node.op with
  | .placeholder => do
      let name := (weightNameMap ctx.program.inputSpecs node.name).getD node.name
      State.recordVal { st with ssaMap := setKey st.ssaMap node.name ("%" ++ name) } node
  | .getAttr target =>
    State.recordVal { st with ssaMap := setKey st.ssaMap node.name ("%" ++ cleanName target) } node
  | .callFunction target =>
    match mapAtenOp target with
    | none => st.recordVal node
    | some halOp => convertCall ctx st node halOp
  | .output =>
    match node.args with
    | [] => .ok st
    | .list items :: _ => items.foldlM (convertOutput ctx) st
    | .item _ :: _ => .error .argument

section Calls

variable {ctx : Context V} {st : State V} {node : Node} {target halOp : String}

theorem convertNode_call (hop : node.op = .callFunction target)
    (hmap : mapAtenOp target = some halOp) :
    convertNode ctx st node = convertCall ctx st node halOp := by
  rw [convertNode, hop]
  simp only [hmap]

theorem convertNode_unmapped (hop : node.op = .callFunction target)
    (hmap : mapAtenOp target = none) : convertNode ctx st node = st.recordVal node := by
  rw [convertNode, hop]
  simp only [hmap]

theorem convertCall_split : convertCall ctx st node "split" = doSplit st node := by
  rw [convertCall, if_neg (by decide), if_neg (by decide), if_pos rfl]

theorem convertCall_chunk : convertCall ctx st node "chunk" = doChunk ctx st node := by
  rw [convertCall, if_neg (by decide), if_neg (by decide), if_neg (by decide), if_pos rfl]

end Calls

def initialState : State V :=
  ⟨[], [], [], [], initialWeights program, 0, []⟩

def convertNodes (nodes : List Node) : Except ConvertError (State V) :=
  nodes.foldlM (convertNode ctx) st

/-! ## Outputs -/

def resultsOfType (mlirOps : List MlirOp) (tp : String) : List String :=
  mlirOps.flatMap fun op => op.results.zipIdx.filterMap fun e =>
    if op.outputTypes[e.2]? = some tp then some e.1 else none

def isResultName (mlirOps : List MlirOp) (name : String) : Bool :=
  name.startsWith "%" && (mlirOps.flatMap MlirOp.results).any fun r => ssaKey r = ssaKey name

/-- `_fixup_output_names`: another name takes the next result of its type. -/
def fixupOutputNames (mlirOps : List MlirOp) (taken : List String) :
    List FuncOutput → List FuncOutput
  | [] => []
  | out :: outs =>
    if isResultName mlirOps out.name then out :: fixupOutputNames mlirOps taken outs
    else
      match (resultsOfType mlirOps out.typeStr)[taken.count out.typeStr]? with
      | some result =>
        { out with name := "%" ++ result } :: fixupOutputNames mlirOps (out.typeStr :: taken) outs
      | none => out :: fixupOutputNames mlirOps taken outs

/-! ## Weight ops -/

def weightOp (e : String × Tensor V) : MlirOp where
  name := "sf.weight"
  dialect := "sf"
  opName := "weight"
  operands := [e.1]
  results := ["%" ++ e.1]
  attributes := [("name", .scalar (.str e.1))]
  inputTypes := []
  outputTypes := [shapeToMlirType e.2.ty.shape e.2.ty.elt]

/-- What the pass leaves for the split. -/
structure Converted (V : Type) where
  mlirOps : List MlirOp
  funcInputs : List (String × String)
  funcOutputs : List FuncOutput
  weights : List (String × Tensor V)
  paramNames : List String
  constNames : List String

def fxGraphToMlir : Except ConvertError (Converted V) := do
  let funcInputs ← convertInputs ctx.program
  let st ← convertNodes ctx (initialState ctx.program) ctx.program.nodes
  let paramNames := ctx.program.stateDict.map fun e => cleanName e.1
  let constants := ctx.program.constants.map fun e => cleanName e.1
  pure
    { mlirOps := st.weights.map weightOp ++ st.mlirOps
      funcInputs
      funcOutputs := fixupOutputNames st.mlirOps [] st.funcOutputs
      weights := st.weights
      paramNames
      constNames := (st.weights.map Prod.fst).filter fun n => n ∈ constants ∨ n ∉ paramNames }

end CompileForge.Compiler.Fx
