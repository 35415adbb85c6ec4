/-
  When `_adjust_op_attributes` leaves an op as it is.  The clamp at a function boundary is
  made once for every operand that is a function input, with the rank of that operand, so a
  size, a mask or an index tensor of a low rank moves the dims of the data operand.
-/

import CompileForge.Compiler.Fx.Types
import CompileForge.Compiler.Split

namespace CompileForge.Compiler

open Fx List

/-! ## Ranks -/

/-- Typed by `tensorTypeStr`, the form of every type string of the converter. -/
structure FuncInput where
  name : String
  dims : List String
  elt : String
  plain : ∀ part ∈ dims ++ [elt], 'x' ∉ part.toList

def FuncInput.entry (input : FuncInput) : String × String :=
  (input.name, tensorTypeStr input.dims input.elt)

/-- The number of dims, and 1 for a tensor without dims. -/
def FuncInput.rank (input : FuncInput) : Nat := max input.dims.length 1

/-- An input of the type that `_shape_to_mlir_type` writes. -/
def FuncInput.ofShape (name : String) (shape : List (Option Int)) (elt : String) : FuncInput where
  name
  dims := shape.map dimStr
  elt := mlirElt elt
  plain := by
    intro part hpart
    rcases List.mem_append.1 hpart with hdim | helt
    · obtain ⟨d, -, rfl⟩ := mem_map.1 hdim
      exact notMem_dimStr d
    · rw [List.mem_singleton.1 helt]
      exact notMem_mlirElt elt

def operandRank (inputs : List FuncInput) (operand : String) : Option Nat :=
  dictGet (inputs.map fun input => (ssaKey input.name, input.rank)) (ssaKey operand)

theorem toList_tensorTypeStr (dims : List String) (elt : String) :
    (tensorTypeStr dims elt).toList = "tensor<".toList ++
      (['x'].intercalate ((dims ++ [elt]).map String.toList) ++ ">".toList) := by
  have hsep : "x".toList = ['x'] := by decide
  rw [tensorTypeStr_eq, String.toList_append, String.toList_append, String.toList_intercalate,
    hsep, append_assoc]

variable {dims : List String} {elt : String}

theorem count_tensorTypeStr
    (h : ∀ part ∈ dims ++ [elt], 'x' ∉ part.toList) :
    (tensorTypeStr dims elt).toList.count 'x' = dims.length := by
  have hparts : ∀ part ∈ (dims ++ [elt]).map String.toList, 'x' ∉ part := by
    intro part hpart
    obtain ⟨s, hs, rfl⟩ := mem_map.1 hpart
    exact h s hs
  have hopen : "tensor<".toList.count 'x' = 0 := by decide
  have hclose : ">".toList.count 'x' = 0 := by decide
  rw [toList_tensorTypeStr, count_append, count_append, hopen, hclose,
    count_intercalate hparts, length_map, length_append, length_singleton]
  omega

theorem typeRank_eq {tp : String} {dims : Nat} (hcount : tp.toList.count 'x' = dims)
    (htensor : "tensor<".toList <:+: tp.toList) : typeRank tp = max dims 1 := by
  unfold typeRank
  -- the marker stays a variable, so that no unifier evaluates it
  revert htensor
  generalize "tensor<".toList = marker
  intro hmarker
  simp only [hmarker, and_true, if_true, hcount]
  by_cases hx : 'x' ∈ tp.toList
  · rw [if_neg (not_not_intro hx)]
  · have hnone : dims = 0 := by rw [← hcount, count_eq_zero_of_not_mem hx]
    rw [if_pos hx, hnone]
    rfl

theorem typeRank_tensorTypeStr
    (h : ∀ part ∈ dims ++ [elt], 'x' ∉ part.toList) :
    typeRank (tensorTypeStr dims elt) = max dims.length 1 :=
  typeRank_eq (count_tensorTypeStr h)
    (toList_tensorTypeStr dims elt ▸ (prefix_append _ _).isInfix)

theorem inputRankMap_entries (inputs : List FuncInput) (operand : String) :
    inputRankMap (inputs.map FuncInput.entry) (ssaKey operand) = operandRank inputs operand := by
  have hentry : ∀ input : FuncInput,
      (ssaKey input.entry.1, typeRank input.entry.2) = (ssaKey input.name, input.rank) := by
    intro input
    exact congrArg (ssaKey input.name, ·) (typeRank_tensorTypeStr input.plain)
  rw [inputRankMap, operandRank, map_map]
  exact congrArg (dictGet · (ssaKey operand)) (map_congr_left fun input _ => hentry input)

theorem operandRank_pos {inputs : List FuncInput} {operand : String} {rank : Nat}
    (h : operandRank inputs operand = some rank) : 0 < rank := by
  obtain ⟨input, -, hinput⟩ := mem_map.1 (mem_of_dictGet h)
  rw [← (Prod.mk.inj hinput).2]
  exact lt_of_lt_of_le one_pos (Nat.le_max_right _ _)

/-! ## Clamping -/

def attrDims (e : String × Attr) : List Int :=
  match e.2 with
  | .scalar v => if e.1 ∈ dimAttrNames then v.asInt.toList else []
  | .list items => if e.1 ∈ dimListAttrNames then items.filterMap Scalar.asInt else []

def attributeDims (attributes : List (String × Attr)) : List Int :=
  attributes.flatMap attrDims

theorem asInt_clampDim (rank : Int) (v : Scalar) :
    (clampDim rank v).asInt = v.asInt.map (min · (rank - 1)) := by
  rw [clampDim]
  cases h : v.asInt with
  | none => exact h
  | some i =>
    show (if rank ≤ i then Scalar.int (rank - 1) else v).asInt = some (min i (rank - 1))
    split
    · rw [min_eq_right (by omega)]
      rfl
    · rw [h, min_eq_left (by omega)]

theorem clampDim_of_lt {rank : Int} {v : Scalar} (h : ∀ i ∈ v.asInt, i < rank) :
    clampDim rank v = v := by
  rw [clampDim]
  cases hv : v.asInt with
  | none => rfl
  | some i => exact if_neg (Int.not_le.2 (h i hv))

theorem attrDims_clampAttr (rank : Int) (e : String × Attr) :
    attrDims (clampAttr rank e) = (attrDims e).map (min · (rank - 1)) := by
  obtain ⟨name, attr⟩ := e
  cases attr with
  | scalar v =>
    by_cases hname : name ∈ dimAttrNames
    · simp only [clampAttr, attrDims, if_pos hname, asInt_clampDim]
      cases v.asInt <;> rfl
    · simp only [clampAttr, attrDims, if_neg hname, map_nil]
  | list =>
    by_cases hname : name ∈ dimListAttrNames
    · simp only [clampAttr, attrDims, if_pos hname, filterMap_map, map_filterMap]
      exact filterMap_congr fun v _ => asInt_clampDim rank v
    · simp only [clampAttr, attrDims, if_neg hname, map_nil]

theorem clampAttr_of_lt {rank : Int} {e : String × Attr} (h : ∀ i ∈ attrDims e, i < rank) :
    clampAttr rank e = e := by
  obtain ⟨name, attr⟩ := e
  cases attr with
  | scalar =>
    by_cases hname : name ∈ dimAttrNames
    · simp only [attrDims, if_pos hname, Option.mem_toList] at h
      simp only [clampAttr, if_pos hname, clampDim_of_lt h]
    · simp only [clampAttr, if_neg hname]
  | list items =>
    by_cases hname : name ∈ dimListAttrNames
    · simp only [attrDims, if_pos hname, mem_filterMap] at h
      have hitems : items.map (clampDim rank) = items := by
        refine (map_congr_left fun v hv => ?_).trans (map_id items)
        exact clampDim_of_lt fun i hi => h i ⟨v, hv, hi⟩
      simp only [clampAttr, if_pos hname, hitems]
    · simp only [clampAttr, if_neg hname]

variable (ranks : List Nat)

def clampAll (attributes : List (String × Attr)) : List (String × Attr) :=
  ranks.foldl (fun attrs (rank : Nat) => attrs.map (clampAttr rank)) attributes

def clampedDim (i : Int) : Int :=
  ranks.foldl (fun i (rank : Nat) => min i ((rank : Int) - 1)) i

theorem attributeDims_map_clampAttr (rank : Nat) (attributes : List (String × Attr)) :
    attributeDims (attributes.map (clampAttr rank)) =
      (attributeDims attributes).map (min · ((rank : Int) - 1)) := by
  rw [attributeDims, attributeDims, flatMap_map, map_flatMap]
  exact congrArg (attributes.flatMap ·) (funext (attrDims_clampAttr rank))

theorem attributeDims_clampAll (attributes : List (String × Attr)) :
    attributeDims (clampAll ranks attributes) =
      (attributeDims attributes).map (clampedDim ranks) := by
  induction ranks generalizing attributes with
  | nil => exact (map_id _).symm
  | cons rank ranks ih =>
    rw [clampAll, foldl_cons]
    exact (ih _).trans (by rw [attributeDims_map_clampAttr, map_map]; rfl)

theorem clampedDim_le (i : Int) :
    clampedDim ranks i ≤ i ∧ ∀ rank ∈ ranks, clampedDim ranks i < rank := by
  induction ranks generalizing i with
  | nil => exact ⟨le_refl i, by simp⟩
  | cons rank ranks ih =>
    obtain ⟨hle, hlt⟩ := ih (min i ((rank : Int) - 1))
    have hstep : clampedDim (rank :: ranks) i = clampedDim ranks (min i ((rank : Int) - 1)) := rfl
    rw [hstep]
    refine ⟨by omega, fun r hr => ?_⟩
    rcases mem_cons.1 hr with rfl | hr
    · omega
    · exact hlt r hr

theorem clampAll_eq_self_iff (attributes : List (String × Attr)) :
    clampAll ranks attributes = attributes ↔
      ∀ rank ∈ ranks, ∀ i ∈ attributeDims attributes, i < rank := by
  constructor
  · intro h rank hrank i hi
    have hdims : (attributeDims attributes).map (clampedDim ranks) =
        (attributeDims attributes).map id := by
      rw [← attributeDims_clampAll, h, map_id]
    have hkeep : clampedDim ranks i = i := map_inj_left.1 hdims i hi
    exact hkeep ▸ (clampedDim_le ranks i).2 rank hrank
  · intro h
    induction ranks with
    | nil => rfl
    | cons rank ranks ih =>
      have hfirst : attributes.map (clampAttr rank) = attributes := by
        refine (map_congr_left fun e he => ?_).trans (map_id attributes)
        refine clampAttr_of_lt fun i hi => h rank mem_cons_self i ?_
        exact mem_flatMap.2 ⟨e, he, hi⟩
      rw [clampAll, foldl_cons, hfirst]
      exact ih fun r hr => h r (mem_cons_of_mem _ hr)

/-! ## An op at a boundary -/

/-- The ops whose attributes are never clamped. -/
def unclampedOps : List String := ["weight", "constant", "_func_boundary"]

theorem adjustOpAttributes_eq (op : MlirOp) (inputs : List FuncInput)
    (h : op.opName ∉ unclampedOps) :
    adjustOpAttributes op (inputRankMap (inputs.map FuncInput.entry)) = { op with
        attributes :=
          clampAll (op.operands.filterMap (operandRank inputs)) op.attributes } := by
  refine (if_neg h).trans (congrArg (fun attrs => { op with attributes := attrs }) ?_)
  rw [clampAll, foldl_filterMap]
  refine congrArg (foldl · op.attributes op.operands) (funext₂ fun attrs operand => ?_)
  rw [inputRankMap_entries]
  cases hrank : operandRank inputs operand with
  | none => rfl
  | some => exact if_neg (operandRank_pos hrank).ne'

/-- An op stays as it is when it is not looked at, or its dims are below the inputs' ranks. -/
theorem adjustOpAttributes_eq_self_iff (op : MlirOp) (inputs : List FuncInput) :
    adjustOpAttributes op (inputRankMap (inputs.map FuncInput.entry)) = op ↔
      op.opName ∈ unclampedOps ∨
        ∀ operand ∈ op.operands, ∀ rank, operandRank inputs operand = some rank →
          ∀ i ∈ attributeDims op.attributes, i < rank := by
  by_cases hname : op.opName ∈ unclampedOps
  · exact iff_of_true (if_pos hname) (.inl hname)
  · rw [adjustOpAttributes_eq op inputs hname, or_iff_right hname]
    have hself : ∀ attrs, { op with attributes := attrs } = op ↔ attrs = op.attributes := by
      intro attrs
      exact ⟨fun h => congrArg MlirOp.attributes h, fun h => by rw [h]⟩
    rw [hself, clampAll_eq_self_iff]
    simp only [mem_filterMap]
    constructor
    · exact fun h operand hop rank hrank => h rank ⟨operand, hop, hrank⟩
    · rintro h rank ⟨operand, hop, hrank⟩
      exact h operand hop rank hrank

/-- A slice of the columns of a matrix, up to a size from an earlier function. -/
def sliceColumns : MlirOp where
  name := "sf.slice"
  dialect := "sf"
  opName := "slice"
  operands := ["%x", "%x_dim_0"]
  results := ["%slice_1"]
  attributes := [("dim", .scalar (.int 1)), ("start", .scalar (.int 0))]
  inputTypes := ["tensor<4x8xf32>", "tensor<1xi64>"]
  outputTypes := ["tensor<4x?xf32>"]

def sliceInputs : List FuncInput :=
  [.ofShape "%x" [some 4, some 8] "float32", .ofShape "%x_dim_0" [some 1] "int64"]

/-- The columns of a matrix are a valid dim, but the size beside it makes them the rows. -/
theorem slice_dim_clamped :
    operandRank sliceInputs "%x" = some 2 ∧
      (∀ i ∈ attributeDims sliceColumns.attributes, 0 ≤ i ∧ i < 2) ∧
      (adjustOpAttributes sliceColumns
          (inputRankMap (sliceInputs.map FuncInput.entry))).attributes =
        [("dim", .scalar (.int 0)), ("start", .scalar (.int 0))] ∧
      adjustOpAttributes sliceColumns (inputRankMap (sliceInputs.map FuncInput.entry)) ≠
        sliceColumns := by
  have hranks : sliceColumns.operands.filterMap (operandRank sliceInputs) = [2, 1] := by decide
  have hadjust := adjustOpAttributes_eq sliceColumns sliceInputs (by decide)
  rw [hranks] at hadjust
  rw [hadjust]
  exact ⟨by decide, by decide, by decide, by decide⟩

end CompileForge.Compiler
