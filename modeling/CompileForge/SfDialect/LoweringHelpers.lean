/-
  The helpers that the lowering patterns share (`sf-dialect/lib/Sf/SfLoweringHelpers.h`): the
  element types with their conversions, and `makeEmpty` and `makeZeroedEmpty`, which find the
  sizes of the open dims of a result among those of the inputs.
-/

import CompileForge.Lib.LoopNest

namespace CompileForge.SfDialect

open Lib List

variable {α : Type}

/-- The element types. -/
inductive EltType where
  | f16
  | bf16
  | f32
  | f64
  | int (width : Nat)
deriving DecidableEq, Repr

namespace EltType

def floatWidth : EltType → Option Nat
  | f16 | bf16 => some 16
  | f32 => some 32
  | f64 => some 64
  | int _ => none

/-- There is no conversion between the types. -/
def Apart (src dst : EltType) : Prop :=
  src ≠ dst ∧ (src.floatWidth = none ∨ dst.floatWidth = none ∨ src.floatWidth = dst.floatWidth)
deriving Decidable

/-- `arith.extf` or `arith.truncf`, where the types differ. -/
def convert (cast : EltType → EltType → α → α) (src dst : EltType) (v : α) : α :=
  if src = dst then v else cast src dst v

def HasZero (elt : EltType) : Prop := elt.floatWidth ≠ none ∨ elt = int 64
deriving Decidable

end EltType

/-! ## `makeEmpty` -/

def dimFrom (rank : Nat) (input : RankedType × List Nat) (i : Nat) : Option Nat :=
  let inIdx : Int := i - ((rank : Int) - input.1.length)
  if 0 ≤ inIdx ∧ inIdx < input.1.length ∧ input.1.getD inIdx.toNat none = none then
    some (input.2.getD inIdx.toNat 0)
  else none

variable (shaped : RankedType) (inputs : List (RankedType × List Nat))

/-- The turn of the inner loop; `filled` has the dims with the sizes that are pushed for them. -/
def fillDim (input : RankedType × List Nat) (filled : List (Nat × Nat))
    (i : Nat) : List (Nat × Nat) :=
  match dimFrom shaped.length input i with
  | some n =>
    if shaped.getD i none = none ∧ i ∉ filled.map Prod.fst then filled ++ [(i, n)] else filled
  | none => filled

/-- The sizes are pushed input by input, the dims aligned right. -/
def fillDims : List (Nat × Nat) :=
  inputs.foldl (fun filled input =>
    (range shaped.length).foldl (fillDim shaped input) filled) []

def openDims (ty : RankedType) : List Nat :=
  (range ty.length).filter fun i => ty.getD i none = none

/-- `tensor.empty` reads the sizes in the order of the dims; one that no input leaves open is -1. -/
def dynSizes : List Int :=
  (fillDims shaped inputs).map (fun p => (p.2 : Int)) ++
    ((openDims shaped).filter fun i => i ∉ (fillDims shaped inputs).map Prod.fst).map fun _ => -1

/-- `makeEmpty`: a new tensor whose elements are anything. -/
def makeEmpty (undef : List Nat → α) : Option (Tensor α) :=
  (fillShape shaped (dynSizes shaped inputs)).map (⟨·, undef⟩)

/-- The types that have no zero fail. -/
def makeZeroedEmpty [Zero α] (elt : EltType) (shaped : RankedType)
    (inputs : List (RankedType × List Nat)) : Lowered (Tensor α) :=
  if elt.HasZero then emit (makeEmpty shaped inputs fun _ => 0) else .error .noMatch

/-! ## The sizes of a new tensor -/

section Sizes

variable {ty shaped : RankedType} {s : List Nat} {sizes : List Int}

theorem mem_openDims {i : Nat} : i ∈ openDims ty ↔ i < ty.length ∧ ty.getD i none = none := by
  simp [openDims]

theorem openDims_cons (d : Option Nat) (ty : RankedType) :
    openDims (d :: ty) = (if d = none then [0] else []) ++ (openDims ty).map (· + 1) := by
  rw [openDims, length_cons, range_succ_eq_map, filter_cons, filter_map]
  by_cases h : d = none
  · simp [h, openDims, Function.comp_def]
  · simp [h, openDims, Function.comp_def]

theorem fillShape_eq_some :
    fillShape ty sizes = some s ↔
      Fits s ty ∧ sizes = (openDims ty).map fun i => (s.getD i 0 : Int) := by
  induction ty generalizing sizes s with
  | nil =>
    cases sizes with
    | nil => simp [fillShape, Fits, openDims, eq_comm]
    | cons => simp [fillShape, openDims]
  | cons d ty ih =>
    cases d with
    | some =>
      rw [fillShape, Option.map_eq_some_iff, openDims_cons, if_neg (by simp), nil_append, map_map]
      constructor
      · rintro ⟨s', hs', rfl⟩
        obtain ⟨hfits, hsizes⟩ := ih.1 hs'
        exact ⟨.cons rfl hfits, by rw [hsizes]; rfl⟩
      · rintro ⟨hfits, hsizes⟩
        cases hfits with
        | @cons m _ s' _ hm hfits =>
          exact ⟨s', ih.2 ⟨hfits, by rw [hsizes]; rfl⟩, by rw [← hm]; rfl⟩
    | none =>
      rw [openDims_cons, if_pos rfl, singleton_append, map_cons, map_map]
      cases sizes with
      | nil => simp [fillShape]
      | cons =>
        rw [fillShape, List.cons.injEq]
        constructor
        · intro h
          obtain ⟨hnonneg, h⟩ := Option.ite_none_right_eq_some.1 h
          obtain ⟨s', hs', rfl⟩ := Option.map_eq_some_iff.1 h
          obtain ⟨hfits, hsizes⟩ := ih.1 hs'
          refine ⟨.cons rfl hfits, ?_, by rw [hsizes]; rfl⟩
          rw [getD_cons_zero, Int.toNat_of_nonneg hnonneg]
        · rintro ⟨hfits, hsize, hsizes⟩
          cases hfits with
          | @cons m _ s' _ hm hfits =>
            rw [getD_cons_zero] at hsize
            rw [if_pos (by omega), ih.2 ⟨hfits, by rw [hsizes]; rfl⟩, hsize]
            rfl

variable {input : RankedType × List Nat}

theorem foldl_fillDim {l : List Nat} (hl : l.Nodup) (filled : List (Nat × Nat)) :
    l.foldl (fillDim shaped input) filled =
      filled ++ (l.filter fun i => shaped.getD i none = none ∧ i ∉ filled.map Prod.fst ∧
          (dimFrom shaped.length input i).isSome).map fun i =>
        (i, (dimFrom shaped.length input i).getD 0) := by
  induction l generalizing filled with
  | nil => simp
  | cons j l ih =>
    obtain ⟨hj, hl⟩ := nodup_cons.1 hl
    rw [foldl_cons, ih hl]
    -- what the first dim adds does not keep a later one out
    have hadded : ∀ n, l.filter (fun i => shaped.getD i none = none ∧
        i ∉ (filled ++ [(j, n)]).map Prod.fst ∧ (dimFrom shaped.length input i).isSome) =
        l.filter fun i => shaped.getD i none = none ∧ i ∉ filled.map Prod.fst ∧
          (dimFrom shaped.length input i).isSome := fun n => by
      refine filter_congr fun i hi => ?_
      have hne : i ≠ j := fun h => hj (h ▸ hi)
      have hmem : i ∈ (filled ++ [(j, n)]).map Prod.fst ↔ i ∈ filled.map Prod.fst := by
        rw [map_append, mem_append, map_cons, map_nil, mem_singleton, or_iff_left hne]
      simp only [hmem]
    cases hdim : dimFrom shaped.length input j with
    | none =>
      rw [fillDim, hdim, filter_cons_of_neg (by simp [hdim])]
    | some =>
      simp only [fillDim, hdim]
      by_cases hopen : shaped.getD j none = none ∧ j ∉ filled.map Prod.fst
      · rw [if_pos hopen, hadded, filter_cons_of_pos (by simpa [hdim] using hopen),
          map_cons, hdim, Option.getD_some, append_assoc]
        rfl
      · rw [if_neg hopen, filter_cons_of_neg (by
          simp only [hdim, Option.isSome_some, and_true]
          simpa using hopen)]

theorem fillDims_singleton :
    fillDims shaped [input] =
      ((openDims shaped).filter fun i => (dimFrom shaped.length input i).isSome).map fun i =>
        (i, (dimFrom shaped.length input i).getD 0) := by
  show (range shaped.length).foldl (fillDim shaped input) [] = _
  rw [foldl_fillDim nodup_range, nil_append, openDims, filter_filter]
  refine congrArg (map _) (filter_congr fun i _ => ?_)
  simp [and_comm]

theorem dynSizes_eq_iff {inputs : List (RankedType × List Nat)} {f : Nat → Nat} :
    dynSizes shaped inputs = (openDims shaped).map (fun i => (f i : Int)) ↔
      (∀ i ∈ openDims shaped, i ∈ (fillDims shaped inputs).map Prod.fst) ∧
        (fillDims shaped inputs).map Prod.snd = (openDims shaped).map f := by
  have hcast : (openDims shaped).map (fun i => (f i : Int)) =
      ((openDims shaped).map f).map fun n : Nat => (n : Int) := by rw [map_map]; rfl
  have hsnd : (fillDims shaped inputs).map (fun p => (p.2 : Int)) =
      ((fillDims shaped inputs).map Prod.snd).map fun n : Nat => (n : Int) := by
    rw [map_map]
    rfl
  by_cases hall : ∀ i ∈ openDims shaped, i ∈ (fillDims shaped inputs).map Prod.fst
  · have hleft : ((openDims shaped).filter fun i =>
        i ∉ (fillDims shaped inputs).map Prod.fst) = [] :=
      filter_eq_nil_iff.2 fun i hi => by simpa using hall i hi
    rw [dynSizes, hleft, map_nil, append_nil, hsnd, hcast, and_iff_right hall]
    exact (map_injective_iff.2 fun _ _ => Int.ofNat.inj).eq_iff
  · refine iff_of_false (fun h => ?_) fun h => hall h.1
    obtain ⟨i, hi, hnot⟩ := not_forall₂.1 hall
    have hmem : (-1 : Int) ∈ dynSizes shaped inputs := by
      refine mem_append_right _ (mem_map.2 ⟨i, mem_filter.2 ⟨hi, ?_⟩, rfl⟩)
      exact decide_eq_true hnot
    rw [h] at hmem
    obtain ⟨j, -, hj⟩ := mem_map.1 hmem
    omega

theorem makeEmpty_singleton_iff {undef : List Nat → α} {t : Tensor α} :
    makeEmpty shaped [input] undef = some t ↔ t.elem = undef ∧ Fits t.shape shaped ∧
        ∀ i ∈ openDims shaped, dimFrom shaped.length input i = some (t.shape.getD i 0) := by
  have hsizes :
      dynSizes shaped [input] = (openDims shaped).map (fun i => (t.shape.getD i 0 : Int)) ↔
      ∀ i ∈ openDims shaped, dimFrom shaped.length input i = some (t.shape.getD i 0) := by
    rw [dynSizes_eq_iff, fillDims_singleton, map_map, map_map]
    constructor
    · rintro ⟨hall, hmap⟩
      have hfilter : (openDims shaped).filter (fun i => (dimFrom shaped.length input i).isSome) =
          openDims shaped := by
        refine filter_eq_self.2 fun i hi => ?_
        obtain ⟨j, hj, rfl⟩ := mem_map.1 (hall i hi)
        exact (mem_filter.1 hj).2
      rw [hfilter] at hmap
      intro i hi
      have hsome : (dimFrom shaped.length input i).isSome := by
        rw [← hfilter] at hi
        exact (mem_filter.1 hi).2
      obtain ⟨n, hn⟩ := Option.isSome_iff_exists.1 hsome
      have hget : (dimFrom shaped.length input i).getD 0 = t.shape.getD i 0 :=
        map_inj_left.1 hmap i hi
      rw [hn, Option.getD_some] at hget
      rw [hn, hget]
    · intro h
      have hfilter : (openDims shaped).filter (fun i => (dimFrom shaped.length input i).isSome) =
          openDims shaped := filter_eq_self.2 fun i hi => by rw [h i hi]; rfl
      rw [hfilter]
      refine ⟨fun i hi => mem_map.2 ⟨i, hi, rfl⟩, map_congr_left fun i hi => ?_⟩
      show (dimFrom shaped.length input i).getD 0 = _
      rw [h i hi, Option.getD_some]
  rw [← hsizes, ← fillShape_eq_some, makeEmpty, Option.map_eq_some_iff]
  constructor
  · rintro ⟨s, hs, rfl⟩
    exact ⟨rfl, hs⟩
  · rintro ⟨rfl, hs⟩
    exact ⟨t.shape, hs, rfl⟩

end Sizes

end CompileForge.SfDialect
