/-
  Building the module of the compiler from the in-memory program
  (`compiler/artifact/ir.py`).  A build that raises is `none`.  Locations, which only name
  values for a reader, and the texts of the errors are left out.
-/

import CompileForge.Compiler.Mlir

namespace CompileForge.Compiler

/-! ## Types -/

/-- The element types of `_ELT_MAP`. -/
inductive EltType where
  | f32
  | f64
  | f16
  | bf16
  | i1
  | i8
  | i32
  | i64
  | ui8
deriving DecidableEq, Repr

/-- The element types by their names. -/
def eltMap : List (String × EltType) :=
  [("f32", .f32), ("f64", .f64), ("f16", .f16), ("bf16", .bf16), ("i1", .i1), ("i8", .i8),
    ("i32", .i32), ("i64", .i64), ("ui8", .ui8)]

inductive IrType where
  | ranked (dims : List (Option Nat)) (elt : EltType)
  | unranked (elt : EltType)
deriving DecidableEq, Repr

def IrType.elementType : IrType → EltType
  | .ranked _ elt => elt
  | .unranked elt => elt

/-- ASCII whitespace, as `str.strip` and `\s` see it. -/
def isSpace (c : Char) : Bool := (9 ≤ c.toNat ∧ c.toNat ≤ 13) ∨ (28 ≤ c.toNat ∧ c.toNat ≤ 32)

def strip (s : List Char) : List Char :=
  ((s.dropWhile isSpace).reverse.dropWhile isSpace).reverse

/-- The group of `tensor<\s*(.+?)\s*>$`, stripped; `none` without a match. -/
def tensorInner (s : List Char) : Option (List Char) :=
  if "tensor<".toList <+: s ∧ s.getLast? = some '>' then
    let body := (s.drop 7).dropLast
    let inner := strip body
    -- `.` matches no line break
    if inner ≠ [] then if '\n' ∈ inner then none else some inner
    else if body.any (· ≠ '\n') then some [] else none
  else none

/-- The digits of an integer literal, a single underscore between two of them. -/
def digitsValue : List Char → Option Nat
  | [] => none
  | c :: cs =>
    if c.isDigit then
      cs.foldl (fun acc d => acc.bind fun p : Nat × Bool =>
        if d.isDigit then some (p.1 * 10 + (d.toNat - '0'.toNat), false)
        else if d = '_' ∧ ¬ p.2 then some (p.1, true) else none)
        (some (c.toNat - '0'.toNat, false)) |>.bind fun p => if p.2 then none else some p.1
    else none

/-- `int(d)`, `none` on a `ValueError`. -/
def pyInt : List Char → Option Int
  | '-' :: ds => (digitsValue ds).map fun n => -(n : Int)
  | '+' :: ds => (digitsValue ds).map fun n => (n : Int)
  | ds => (digitsValue ds).map fun n => (n : Int)

/-- What `RankedTensorType.get` makes of a dimension: the dynamic marker or a size. -/
def dimOf (d : Int) : Option (Option Nat) :=
  if d = -2 ^ 63 then some none
  else if 0 ≤ d ∧ d < 2 ^ 63 then some (some d.toNat) else none

def typeStrToIrType (typeStr : String) : Option IrType :=
  match tensorInner (strip typeStr.toList) with
  | none =>
    some (.unranked ((eltMap.lookup (String.ofList (strip typeStr.toList))).getD .f32))
  | some inner =>
    let parts := inner.splitOn 'x'
    let elt := (eltMap.lookup (String.ofList (strip (parts.getLast?.getD [])))).getD .f32
    let dimStrs := parts.dropLast.map strip
    if ['*'] ∈ dimStrs then some (.unranked elt)
    else
      (dimStrs.mapM fun d => match pyInt d with
        | none => some none
        | some n => dimOf n).map fun dims => .ranked dims elt

/-! ## Values -/

/-- An argument of the function, or a result of the operation at a place of its body. -/
inductive IrRef where
  | arg (i : Nat)
  | result (op i : Nat)
deriving DecidableEq, Repr

/-- A value: an argument, or a result of the operation at a place. -/
structure IrValue where
  ref : IrRef
  type : IrType
deriving DecidableEq, Repr

/-- A value as `FloatAttr.get` and `IntegerAttr.get` take it; what these third-party calls keep of
    it is `store`, `none` where they raise. -/
inductive ScalarItem where
  | float (bits : UInt64)
  | int (i : Int)
deriving DecidableEq, Repr

/-- What the builder reads off a tensor; a `dtype` of `none` has no element type here. -/
structure ConstTensor where
  numel : Nat
  dtype : Option EltType
  item : ScalarItem
deriving DecidableEq, Repr

structure IrOp where
  name : String
  operands : List IrRef
  resultTypes : List IrType
  attributes : List (String × Attr)
  splat : Option (EltType × ScalarItem)
deriving DecidableEq, Repr

structure IrFunction where
  name : String
  argTypes : List IrType
  weightNames : List String
  ops : List IrOp
  returns : List IrRef
  returnTypes : List IrType
deriving DecidableEq, Repr

/-- `ssa_map`: the entries in the order they are set. -/
abbrev SsaMap := List (String × IrValue)

/-- Each name is set as it is and without its `%`; names beyond the values are left out. -/
def mapResults (names : List String) (values : List IrValue) : SsaMap :=
  (names.zip values).flatMap fun e => [(e.1, e.2), (ssaKey e.1, e.2)]

def resultValues (k : Nat) (types : List IrType) : List IrValue :=
  types.zipIdx.map fun e => ⟨.result k e.2, e.1⟩

/-! ## Operations -/

variable (op : MlirOp)

def MlirOp.isWeightOp : Bool := op.opName ∈ ["weight", "constant"]

/-- `_python_to_attr_ir`, which takes signless 64-bit integers only. -/
def Attr.fits : Attr → Bool
  | .scalar (.int i) => -2 ^ 63 ≤ i ∧ i < 2 ^ 63
  | .list items => items.all fun
      | .int i => -2 ^ 63 ≤ i ∧ i < 2 ^ 63
      | _ => true
  | _ => true

def buildMlirAttrs : Option (List (String × Attr)) :=
  let attrs := op.attributes.filter fun e => e.1 ≠ "source_node"
  if attrs.all fun e => e.2.fits then some attrs else none

/-- A value that is not a string and counts as true has no `startswith`. -/
def Attr.truthy : Attr → Bool
  | .scalar .none => false
  | .scalar (.bool b) => b
  | .scalar (.int i) => i ≠ 0
  | .scalar (.float bits) => bits ≠ 0 ∧ bits ≠ 0x8000000000000000
  | .scalar (.str s) => s ≠ ""
  | .list items => ¬ items.isEmpty

def MlirOp.nameRaises : Bool :=
  match op.attributes.lookup "name" with
  | some (.scalar (.str _)) => false
  | some v => v.truthy
  | none => false

/-- The tensor of a one-element `_const_` weight, which becomes a constant. -/
def foldedTensor (tensors : String → ConstTensor) (weights : List String) (op : MlirOp) :
    Option ConstTensor :=
  if "_const_".toList <+: op.weightName.toList ∧ op.weightName ∈ weights ∧
      (tensors op.weightName).numel = 1 then some (tensors op.weightName)
  else none

/-- `DenseElementsAttr.get_splat` asks for a static shape. -/
def IrType.static : IrType → Bool
  | .ranked dims _ => dims.all Option.isSome
  | .unranked _ => false

/-- `w_result_types` of a weight that is not baked in. -/
def weightTypes : Option (List IrType) :=
  if op.outputTypes ≠ [] then op.outputTypes.mapM typeStrToIrType else some [.unranked .f32]

def inferResultTypes (operands : List IrValue) : Option (List IrType) :=
  if op.outputTypes ≠ [] then op.outputTypes.mapM typeStrToIrType
  else if op.opName = "sym_size" then some [.ranked [] .f32]
  else
    match operands with
    | v :: _ =>
      match v.type with
      | .ranked dims elt => some [.ranked dims elt]
      | .unranked elt => some [.ranked [some 1] elt]
    | [] => some [.ranked [some 1] .f32]

section Build

variable (store : EltType → ScalarItem → Option ScalarItem) (tensors : String → ConstTensor)

def emitWeightOp (weights : List String) (k : Nat) (op : MlirOp) : Option (IrOp × SsaMap) :=
  if op.nameRaises then none
  else
    let built : Option IrOp :=
      match foldedTensor tensors weights op with
      | some t => do
          let resultType ← op.outputTypes.head?.bind typeStrToIrType
          let value ← store resultType.elementType t.item
          if resultType.static then
            some ⟨"arith.constant", [], [resultType], [], some (resultType.elementType, value)⟩
          else none
      | none => do
          let attrs ← buildMlirAttrs op
          let types ← weightTypes op
          some ⟨op.name, [], types, attrs, none⟩
    built.map fun irOp =>
      let values := resultValues k irOp.resultTypes
      (irOp, mapResults op.results values ++
        if op.weightName ≠ "" then values.head?.toList.map fun v => (op.weightName, v) else [])

def lookupName (ssaMap : SsaMap) (name : String) : Option IrValue :=
  dictGet ssaMap name <|> dictGet ssaMap (ssaKey name)

/-- `_resolve_operands`: a `KeyError` if a name is not in the map. -/
def resolveOperands (op : MlirOp) (ssaMap : SsaMap) : Option (List IrValue) :=
  op.operands.mapM (lookupName ssaMap)

/-- Every operation of the program becomes one operation of the body. -/
def emitComputeOp (k : Nat) (op : MlirOp) (ssaMap : SsaMap) : Option (IrOp × SsaMap) := do
  let operands ← resolveOperands op ssaMap
  let attrs ← buildMlirAttrs op
  let types ← inferResultTypes op operands
  some (⟨op.name, operands.map IrValue.ref, types, attrs, none⟩,
    mapResults op.results (resultValues k types))

/-- One turn of the loop over the operations. -/
def buildOp (weights : List String)
    (st : List IrOp × SsaMap) (op : MlirOp) : Option (List IrOp × SsaMap) :=
  (if op.isWeightOp then emitWeightOp store tensors weights st.1.length op
    else emitComputeOp st.1.length op st.2).map fun built => (st.1 ++ [built.1], st.2 ++ built.2)

/-- The outputs that have a value, or else the last result of the last operation. -/
def resolveOutputValues (func : MlirFunction) (ssaMap : SsaMap) : List IrValue :=
  -- an output whose name is not in the map is left out
  let outputValues := func.outputs.filterMap fun out => lookupName ssaMap out.name
  if outputValues = [] then
    ((func.ops.getLast?.bind fun op => op.results.getLast?).bind (dictGet ssaMap)).toList
  else outputValues

def buildIrFunction (func : MlirFunction) : Option IrFunction := do
  let argTypes ← func.inputs.mapM fun input => typeStrToIrType input.2
  let args := argTypes.zipIdx.map fun e => (⟨.arg e.2, e.1⟩ : IrValue)
  let built ← func.ops.foldlM (buildOp store tensors func.weights)
    ([], mapResults (func.inputs.map Prod.fst) args)
  let outputValues := resolveOutputValues func built.2
  some
    { name := func.name, argTypes, weightNames := func.weightNames, ops := built.1
      returns := outputValues.map IrValue.ref, returnTypes := outputValues.map IrValue.type }

structure MlirModule where
  functions : List MlirFunction
  chainOrder : List String
  execPlanData : List Nat
  execPlanProto : List UInt8

/-- The module built: an empty list stands for an attribute that is not set. -/
structure IrModule where
  functions : List IrFunction
  chainOrder : List String
  execPlanData : List Nat
  execPlanProto : List UInt8

def mlirModuleToIrModule (tensors : MlirFunction → String → ConstTensor) (module : MlirModule) :
    Option IrModule := do
  let functions ← module.functions.mapM fun func => buildIrFunction store (tensors func) func
  if module.execPlanData.all (· < 2 ^ 63) then
    some { functions, chainOrder := module.chainOrder, execPlanData := module.execPlanData,
           execPlanProto := module.execPlanProto }
  else none

end Build

end CompileForge.Compiler
