/-
  The type strings of the converter (`compiler/fx/utils.py`): `tensor<4x?xf32>` is a shape,
  `?` where a dim is not static, and an element type.
-/

import CompileForge.Compiler.Shape.Pure
import CompileForge.Lib.Numbered
import Mathlib.Data.String.Basic

namespace CompileForge.Compiler.Fx

open Lib List

/-- `elt_map`: the element types of PyTorch and of MLIR. -/
def eltMap : List (String × String) :=
  [("float32", "f32"), ("float16", "f16"), ("bfloat16", "bf16"), ("float64", "f64"),
    ("int32", "i32"), ("int64", "i64"), ("int8", "i8"), ("uint8", "ui8"), ("bool", "i1")]

/-- An element type in MLIR's spelling; `f32` for one that neither side of the map has. -/
def mlirElt (elt : String) : String :=
  match eltMap.lookup elt with
  | some mapped => mapped
  | none => if elt ∈ eltMap.map Prod.snd then elt else "f32"

/-- `_dim_str`: no sentinel, no zero and no negative size is static. -/
def dimStr : Option Int → String
  | none => "?"
  | some val => if 9223372036854775807 ≤ val ∨ val ≤ 0 then "?" else Nat.repr val.toNat

def tensorTypeStr (dims : List String) (elt : String) : String :=
  if dims = [] then "tensor<" ++ elt ++ ">"
  else "tensor<" ++ "x".intercalate dims ++ "x" ++ elt ++ ">"

def shapeToMlirType (shape : List (Option Int)) (elt : String) : String :=
  tensorTypeStr (shape.map dimStr) (mlirElt elt)

/-- `_pytorch_to_mlir`, which leaves other element types as they are. -/
def pytorchToMlir (elt : String) : String :=
  let short := [("float", "f32"), ("half", "f16"), ("double", "f64"), ("long", "i64")]
  ((eltMap ++ short).lookup elt).getD elt

def tensorTypeOfDtype (dtype : String) (shape : List Shape.Dim) : String :=
  tensorTypeStr (shape.map fun
    | none => "?"
    | some d => toString d) ((eltMap.lookup dtype).getD "f32")

/-- `x` separates the parts and occurs in none of them, so the separators count the dims. -/
def typeParts (typeStr : String) : List String :=
  (((typeStr.toList.drop "tensor<".length).dropLast).splitOn 'x').map String.ofList

def replaceElementType (typeStr newElt : String) : String :=
  if typeStr.startsWith "tensor<" then
    "tensor<" ++ "x".intercalate ((typeParts typeStr).dropLast ++ [newElt]) ++ ">"
  else typeStr

def parseDim (p : String) : Option Shape.Dim :=
  if p = "?" then some none
  else if p ≠ "" ∧ p.toList.all Char.isDigit then
    some (some (Nat.ofDigitChars 10 p.toList 0 : Nat))
  else none

def parseMlirTypeToShape (typeStr : String) : Option Shape.TensorTy :=
  if typeStr.startsWith "tensor<" then do
    let shape ← (typeParts typeStr).dropLast.mapM parseDim
    some ⟨shape, (typeParts typeStr).getLastD ""⟩
  else some ⟨[some 1], "f32"⟩

/-! ## Separators -/

theorem tensorTypeStr_eq (dims : List String) (elt : String) :
    tensorTypeStr dims elt = "tensor<" ++ "x".intercalate (dims ++ [elt]) ++ ">" := by
  rw [tensorTypeStr]
  split
  case isTrue h => rw [h, nil_append, String.intercalate_singleton]
  case isFalse h =>
    rw [String.intercalate_append_of_ne_nil h (cons_ne_nil _ _), String.intercalate_singleton]
    simp only [String.append_assoc]

theorem count_intercalate {α : Type*} [DecidableEq α] {x : α} {parts : List (List α)}
    (h : ∀ part ∈ parts, x ∉ part) : ([x].intercalate parts).count x = parts.length - 1 := by
  induction parts with
  | nil => rfl
  | cons part rest ih =>
    have hpart : part.count x = 0 := count_eq_zero_of_not_mem (h part mem_cons_self)
    cases rest with
    | nil => rw [intercalate_singleton, hpart]; rfl
    | cons =>
      have hrest := ih fun p hp => h p (mem_cons_of_mem _ hp)
      rw [intercalate_cons_cons, count_append, count_append, hpart, hrest, count_singleton_self]
      simp only [length_cons]
      omega

theorem notMem_dimStr (d : Option Int) : 'x' ∉ (dimStr d).toList := by
  cases d with
  | none => decide
  | some =>
    rw [dimStr]
    split
    · decide
    · rw [Nat.toList_repr]
      exact notMem_digits (by decide) _

theorem notMem_mlirElt (elt : String) : 'x' ∉ (mlirElt elt).toList := by
  have hmapped : ∀ e ∈ eltMap, 'x' ∉ e.2.toList := by decide
  rw [mlirElt]
  split
  case h_1 mapped h =>
    obtain ⟨before, behind, hmap, -⟩ := lookup_eq_some_iff.1 h
    exact hmapped (elt, mapped) (hmap ▸ mem_append_right _ mem_cons_self)
  case h_2 =>
    split
    case isTrue h =>
      obtain ⟨e, he, rfl⟩ := mem_map.1 h
      exact hmapped e he
    case isFalse => decide

end CompileForge.Compiler.Fx
