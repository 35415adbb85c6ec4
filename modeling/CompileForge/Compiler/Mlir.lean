/-
  The in-memory program of the compiler (`compiler/dialect/mlir_op_types.py`) and the
  cache policy it compiles for (`compiler/cache_policy.py`).  A dictionary is the list of its
  entries in insertion order.
-/

import CompileForge.Compiler.SfaAbi
import Mathlib.Algebra.Ring.Int.Defs

namespace CompileForge.Compiler

/-- A float is its bit pattern. -/
inductive Scalar where
  | none
  | bool (b : Bool)
  | int (i : Int)
  | float (bits : UInt64)
  | str (s : String)
deriving DecidableEq, Repr

/-- Scalars and flat lists of scalars; a tuple is a list here. -/
inductive Attr where
  | scalar (v : Scalar)
  | list (items : List Scalar)
deriving DecidableEq, Repr

structure MlirOp where
  name : String
  dialect : String
  opName : String
  operands : List String
  results : List String
  attributes : List (String × Attr)
  inputTypes : List String
  outputTypes : List String
deriving DecidableEq, Repr

structure MlirFunction where
  name : String
  inputs : List (String × String)
  outputs : List FuncOutput
  ops : List MlirOp
  weights : List String
  paramWeightNames : List String
  constWeightNames : List String
  weightNames : List String
deriving DecidableEq, Repr

/-- Of a weight only the name is kept, not the tensor. -/
def MlirOp.weightName (op : MlirOp) : String :=
  match op.attributes.lookup "name" with
  | some (.scalar (.str s)) => s
  | _ => ""

def ssaKey (name : String) : String := String.ofList (name.toList.dropWhile (· = '%'))

/-! ## Dictionaries -/

/-- The dictionary filled with `entries` in order: the last entry of a key counts. -/
def dictGet {β : Type} (entries : List (String × β)) (key : String) : Option β :=
  entries.reverse.lookup key

variable {β : Type} {entries : List (String × β)} {key : String} {v : β}

theorem dictGet_map_snd {γ : Type} (f : β → γ) (l : List (String × β)) (key : String) :
    dictGet (l.map fun e => (e.1, f e.2)) key = (dictGet l key).map f := by
  rw [dictGet, dictGet, ← List.map_reverse]
  induction l.reverse with
  | nil => rfl
  | cons e l ih =>
    rw [List.map_cons, List.lookup_cons, List.lookup_cons, ih]
    cases key == e.1 <;> rfl

theorem mem_of_dictGet (h : dictGet entries key = some v) : (key, v) ∈ entries := by
  obtain ⟨before, after, hsplit, -⟩ := List.lookup_eq_some_iff.1 h
  rw [← List.mem_reverse, hsplit]
  exact List.mem_append_right _ List.mem_cons_self

theorem dictGet_of_mem (h : (key, v) ∈ entries) : ∃ v', dictGet entries key = some v' := by
  rw [← Option.isSome_iff_exists, Option.isSome_iff_ne_none]
  intro hnone
  rw [dictGet, List.lookup_eq_none_iff] at hnone
  exact absurd (hnone (key, v) (List.mem_reverse.2 h)) (by simp)

/-! ## Cache policies -/

structure SlabSpec where
  slabId : String
  storage : String
  dims : List (String × Nat)
  layout : String
  dtype : String
deriving DecidableEq, Repr

/-- `_InterceptSpec`; bound to an output when it carries both indices. -/
structure InterceptSpec where
  slabId : String
  opName : String
  direction : String
  source : String
  layer : String
  funcIndex : Option Nat
  outputIndex : Option Nat
deriving DecidableEq, Repr

structure CachePolicy where
  slabs : List SlabSpec
  intercepts : List InterceptSpec
  blockSize : Nat
  maxRequests : Nat
deriving DecidableEq, Repr

end CompileForge.Compiler
