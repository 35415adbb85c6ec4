/-
  `aten.sum.dim_IntList` and `aten.mean.dim` from the arguments of the FX node to the loops: what
  `_collect_input_args` makes of the dim list, the type that `_infer_reduce_pure` infers, and
  `SfSumOpLowering` and `SfMeanOpLowering` (`sf-dialect/lib/Sf/SfLowerReduce.cpp`), run on a
  tensor.
-/

import CompileForge.Compiler.Shape.Views
import CompileForge.SfDialect.LoweringHelpers
import CompileForge.SfDialect.LowerView
import Mathlib.Algebra.Field.Rat

namespace CompileForge.SfDialect

open Lib List
open Compiler.Fx hiding Tensor
open Compiler.Shape hiding Fits

def getSumReduceDims (dim : ReduceDim) (rank : Nat) : List Nat :=
  let dims : List Int :=
    match dim with
    | .list ds => ds
    | .int d => [d]
    | .absent | .none => (range rank).map fun i => (i : Int)
  dims.foldl (fun (normalized : List Nat) (d : Int) =>
    let d : Int := if d < 0 then d + rank else d
    if 0 ≤ d ∧ d < rank ∧ d.toNat ∉ normalized then normalized ++ [d.toNat] else normalized) []

/-- `outExprs`. -/
def reduceMap (rank : Nat) (isRed : Nat → Bool) (keepdim : Bool) : IndexMap :=
  (range rank).flatMap fun i =>
    if isRed i then if keepdim then [.const 0] else [] else [.dim i]

/-- The loops that add up the reduced dims. -/
def addNest {α : Type} [AddCommMonoid α] (isRed : Nat → Bool) (keepdim : Bool)
    (input empty : Tensor α) : LoopNest α where
  numLoops := input.shape.length
  ins := [(identityMap input.shape.length, input)]
  outMap := reduceMap input.shape.length isRed keepdim
  init := empty
  body args out := args.getD 0 0 + out

/-- The sizes of the open dims of the result are looked up among those of the input with the dims
    aligned right, where reduced dims have vanished in between. -/
def lowerSum {α : Type} [AddCommMonoid α] (elt : EltType) (inType outType : RankedType)
    (dim : ReduceDim) (keepdim : Bool) (input : Tensor α) : Lowered (Tensor α) :=
  let redDims := getSumReduceDims dim inType.length
  if redDims = [] then .error .noMatch
  else if outType.length ≠
      if keepdim then inType.length else inType.length - redDims.length then .error .noMatch
  else do
    let empty ← makeZeroedEmpty elt outType [(inType, input.shape)]
    emit (addNest (· ∈ redDims) keepdim input empty).run

/-! ## The lowering of `sf.mean` -/

def divNest {α : Type} [DivisionRing α] (count : Nat) (sum empty : Tensor α) : LoopNest α where
  numLoops := sum.shape.length
  ins := [(identityMap sum.shape.length, sum)]
  outMap := identityMap sum.shape.length
  init := empty
  body args _ := args.getD 0 0 / count

/-- The end of `SfMeanOpLowering`: the sums are divided if the type knows the size of the dim. -/
def divideSums {α : Type} [Field α] (inType outType : RankedType) (undef : List Nat → α)
    (sum : Tensor α) : Lowered (Tensor α) :=
  match inType.getD (inType.length - 1) none with
  | none => .ok sum
  | some redSize =>
    if redSize ≤ 1 then .ok sum
    else do
      let divEmpty ← emit (makeEmpty outType [(outType, sum.shape)] undef)
      emit (divNest redSize sum divEmpty).run

/-- The dim list is skipped: the last dim is reduced, and the sum is divided by its size only if
    the type knows it. -/
def lowerMean {α : Type} [Field α] (elt : EltType) (inType outType : RankedType) (keepdim : Bool)
    (undef : List Nat → α) (input : Tensor α) : Lowered (Tensor α) :=
  if inType.length < 1 then .error .noMatch
  else if outType.length ≠ if keepdim then inType.length else inType.length - 1 then
    .error .noMatch
  else do
    -- the dim that is reduced is always the last
    let redDim := inType.length - 1
    let init ← makeZeroedEmpty elt outType [(inType, input.shape)]
    -- `arith.addf`
    let sum ← emit (if elt.floatWidth = none then none
      else (addNest (· ∈ [redDim]) keepdim input init).run)
    divideSums inType outType undef sum

/-! ## From the node to the loops -/

/-- The attribute `dim` of an op. -/
def reduceDimOf (kwargs : List (String × Arg)) : ReduceDim :=
  match kwargs.lookup "dim" with
  | some (.list items) => .list (items.filterMap Item.intValue)
  | some (.item (.int d)) => .int d
  | some (.item .none) => .none
  | _ => .absent

/-- The attribute `keepdim` of an op. -/
def keepdimOf (kwargs : List (String × Arg)) : Bool :=
  match kwargs.lookup "keepdim" with
  | some (.item (.bool b)) => b
  | _ => false

/-- The type that shape inference gives the result. -/
def inferredReduce (dim : ReduceDim) (keepdim : Bool) (inType : RankedType) :
    Option RankedType :=
  match inferReduce dim keepdim [⟨inType.map fun d : Option Nat => d.map Int.ofNat, "f32"⟩] with
  | .ok ty => some (ty.shape.map fun d => d.map Int.toNat)
  | .error _ => none

/-- A reduction with its keyword arguments: the inferred type, and the result of the loops. -/
def lowerReduction {α : Type}
    (lower : RankedType → RankedType → ReduceDim → Bool → Tensor α → Lowered (Tensor α))
    (inType : RankedType) (kwargs : List (String × Arg)) (input : Tensor α) :
    Lowered (RankedType × Tensor α) :=
  match inferredReduce (reduceDimOf kwargs) (keepdimOf kwargs) inType with
  | none => .error .noMatch
  | some outType =>
    (lower inType outType (reduceDimOf kwargs) (keepdimOf kwargs) input).map (outType, ·)

/-- The arguments of the node: the tensor, the dims, and `keepdim` where it is given. -/
def reduceArgs (x : String) (dims : List Int) (keepdim : Option Bool) : List Arg :=
  [.item (.node x), .list (dims.map .int)] ++ keepdim.toList.map fun b => .item (.bool b)

/-- `aten.sum.dim_IntList(x, dims, keepdim)`. -/
def lowerSumNode {α V : Type} [AddCommMonoid α] (torch : Torch V)
    (ssaMap : List (String × String)) (c : Collected V) (elt : EltType) (inType : RankedType)
    (x : String) (dims : List Int) (keepdim : Option Bool) (input : Tensor α) :
    Lowered (RankedType × Tensor α) :=
  lowerReduction (lowerSum elt) inType
    (collectInputArgs torch ssaMap "sum" (reduceArgs x dims keepdim) c).extraKwargs input

/-- `aten.mean.dim(x, dims, keepdim)`. -/
def lowerMeanNode {α V : Type} [Field α] (torch : Torch V)
    (ssaMap : List (String × String)) (c : Collected V) (elt : EltType) (inType : RankedType)
    (x : String) (dims : List Int) (keepdim : Option Bool) (undef : List Nat → α)
    (input : Tensor α) : Lowered (RankedType × Tensor α) :=
  lowerReduction (fun inType outType _ keepdim => lowerMean elt inType outType keepdim undef) inType
    (collectInputArgs torch ssaMap "mean" (reduceArgs x dims keepdim) c).extraKwargs input

/-! ## ATen -/

def atenSum {α : Type} [AddCommMonoid α] (t : Tensor α) (axes : List Nat) (keepdim : Bool) :
    Tensor α where
  shape := reduceDims 1 (· ∈ axes) keepdim t.shape
  elem c := (((points t.shape).filter fun p => reduceDims 0 (· ∈ axes) keepdim p = c).map
    t.elem).sum

/-- The number of elements behind each entry of a mean. -/
def averaged (shape axes : List Nat) : Nat := (axes.map fun i => shape.getD i 1).prod

/-- The mean over the dims `axes`; there is none of no elements. -/
structure IsMean {α : Type} [Field α] (t : Tensor α) (axes : List Nat) (keepdim : Bool)
    (mean : Tensor α) : Prop where
  shape : mean.shape = (atenSum t axes keepdim).shape
  elem : ∀ c, InShape mean.shape c → averaged t.shape axes ≠ 0 ∧
    mean.elem c = (atenSum t axes keepdim).elem c / averaged t.shape axes

section Reduced

variable {β : Type} {one : β} {isRed : Nat → Bool} {keepdim : Bool} {s p : List Nat}

def leaves (isRed : Nat → Bool) (keepdim : Bool) (one x : β) (i : Nat) : List β :=
  if isRed i then if keepdim then [one] else [] else [x]

theorem reduceDims_eq_flatMap (l : List β) (d : β) :
    reduceDims one isRed keepdim l =
      (range l.length).flatMap fun i => leaves isRed keepdim one (l.getD i d) i := by
  have hzip : l.zipIdx = (range l.length).map fun i => (l.getD i d, i) := by
    apply ext_getElem
    · simp
    · intro i hi hi'
      have hlt : i < l.length := by simpa using hi
      simp [getElem?_eq_getElem hlt]
  rw [reduceDims, hzip, flatMap_map]
  rfl

variable {γ : Type} {R : β → γ → Prop} {l : List β}

theorem forall₂_flatMap {l : List Nat} {f : Nat → List β}
    {g : Nat → List γ} (h : ∀ i ∈ l, Forall₂ R (f i) (g i)) :
    Forall₂ R (l.flatMap f) (l.flatMap g) := by
  induction l with
  | nil => exact .nil
  | cons i l ih =>
    rw [flatMap_cons, flatMap_cons]
    exact rel_append (h i mem_cons_self) (ih fun j hj => h j (mem_cons_of_mem i hj))

theorem forall₂_reduceDims {a : List β} {b : List γ} {one' : γ}
    (hone : R one one') (h : Forall₂ R a b) :
    Forall₂ R (reduceDims one isRed keepdim a) (reduceDims one' isRed keepdim b) := by
  rw [reduceDims_eq_flatMap a one, reduceDims_eq_flatMap b one', h.length_eq]
  refine forall₂_flatMap fun i hi => ?_
  have hi' : i < b.length := mem_range.1 hi
  have hget : R (a.getD i one) (b.getD i one') := by
    rw [getD_eq_getElem _ _ (h.length_eq ▸ hi'), getD_eq_getElem _ _ hi']
    exact forall₂_iff_get.1 h |>.2 i (h.length_eq ▸ hi') hi'
  unfold leaves
  split
  · split
    · exact .cons hone .nil
    · exact .nil
  · exact .cons hget .nil

theorem reduceDims_map (one : β) (f : β → γ) (l : List β) :
    reduceDims (f one) isRed keepdim (l.map f) = (reduceDims one isRed keepdim l).map f := by
  rw [reduceDims_eq_flatMap _ (f one), reduceDims_eq_flatMap l one, map_flatMap, length_map]
  refine flatMap_congr fun i _ => ?_
  rw [getD_map]
  unfold leaves
  split
  · split <;> rfl
  · rfl

theorem reduceMap_at (h : p.length = s.length) :
    (reduceMap s.length isRed keepdim).at p = reduceDims 0 isRed keepdim p := by
  rw [IndexMap.at, reduceMap, map_flatMap, reduceDims_eq_flatMap p 0, h]
  refine flatMap_congr fun i _ => ?_
  unfold leaves
  split
  · split <;> rfl
  · rfl

theorem inShape_reduceDims (h : InShape s p) :
    InShape (reduceDims 1 isRed keepdim s) (reduceDims 0 isRed keepdim p) :=
  forall₂_reduceDims one_pos h

theorem reduceDims_keep (l : List β) (d : β) :
    reduceDims one isRed true l =
      (range l.length).map fun i => if isRed i then one else l.getD i d := by
  rw [reduceDims_eq_flatMap l d, map_eq_flatMap]
  refine flatMap_congr fun i _ => ?_
  unfold leaves
  split <;> simp [*]

theorem length_reduceDims_drop {axes : List Nat} (hnodup : axes.Nodup)
    (haxes : ∀ i ∈ axes, i < l.length) :
    (reduceDims one (· ∈ axes) false l).length = l.length - axes.length := by
  have hfilter : ((range l.length).filter (· ∈ axes)).length = axes.length := by
    refine List.Perm.length_eq ((perm_ext_iff_of_nodup (nodup_range.filter _) hnodup).2
      fun i => ?_)
    rw [mem_filter, mem_range, decide_eq_true_eq]
    exact ⟨fun h => h.2, fun h => ⟨haxes i h, h⟩⟩
  rw [reduceDims_eq_flatMap l one, length_flatMap]
  have hsum : ∀ r : List Nat, (r.map fun i =>
      (leaves (· ∈ axes) false one (l.getD i one) i).length).sum + (r.filter (· ∈ axes)).length =
      r.length := by
    intro r
    induction r with
    | nil => rfl
    | cons i r ih =>
      by_cases hi : i ∈ axes
      · rw [filter_cons_of_pos (by simpa using hi)]
        simp only [map_cons, sum_cons, length_cons, leaves, hi]
        simp only [leaves] at ih
        simp at ih ⊢
        omega
      · rw [filter_cons_of_neg (by simpa using hi)]
        simp only [map_cons, sum_cons, length_cons, leaves, hi]
        simp only [leaves] at ih
        simp at ih ⊢
        omega
  have := hsum (range l.length)
  rw [length_range, hfilter] at this
  omega

theorem length_reduceDims {axes : List Nat} (hnodup : axes.Nodup)
    (haxes : ∀ i ∈ axes, i < l.length) :
    (reduceDims one (· ∈ axes) keepdim l).length =
      if keepdim then l.length else l.length - axes.length := by
  cases keepdim with
  | false => exact length_reduceDims_drop hnodup haxes
  | true => rw [reduceDims_keep l one, length_map, length_range, if_pos rfl]

end Reduced

section Loops

variable {α : Type} {isRed : Nat → Bool} {keepdim : Bool} {t empty : Tensor α}

theorem run_addNest [AddCommMonoid α] {axes : List Nat} (hzero : empty.elem = fun _ => 0) :
    (addNest (· ∈ axes) keepdim t empty).run =
      if ∀ p ∈ points t.shape, InShape empty.shape (reduceDims 0 (· ∈ axes) keepdim p) then
        some ⟨empty.shape, (atenSum t axes keepdim).elem⟩
      else none := by
  have hbox : loopSizes (addNest (· ∈ axes) keepdim t empty).numLoops
      (addNest (· ∈ axes) keepdim t empty).operands = some t.shape := loopSizes_identity _ _
  have hin : InBounds t.shape (addNest (· ∈ axes) keepdim t empty).operands ↔
      ∀ p ∈ points t.shape, InShape empty.shape (reduceDims 0 (· ∈ axes) keepdim p) := by
    have hread : ∀ p ∈ points t.shape, InShape t.shape ((identityMap t.shape.length).at p) :=
      fun p hp => by
        have hp := mem_points.1 hp
        rwa [identityMap_at hp.length_eq]
    have hwrite : (∀ p ∈ points t.shape,
        InShape empty.shape ((reduceMap t.shape.length (· ∈ axes) keepdim).at p)) ↔
        ∀ p ∈ points t.shape, InShape empty.shape (reduceDims 0 (· ∈ axes) keepdim p) :=
      forall₂_congr fun p hp => by rw [reduceMap_at (mem_points.1 hp).length_eq]
    rw [InBounds, addNest, LoopNest.operands, ← hwrite]
    simp only [map_cons, map_nil, singleton_append, forall_mem_cons]
    exact ⟨fun h => h.2.1, fun h => ⟨hread, h, by simp⟩⟩
  by_cases hall : ∀ p ∈ points t.shape, InShape empty.shape (reduceDims 0 (· ∈ axes) keepdim p)
  · rw [if_pos hall, LoopNest.run_eq hbox (hin.2 hall), Option.some.injEq, Lib.Tensor.mk.injEq]
    refine ⟨rfl, funext fun c => ?_⟩
    rw [LoopNest.foldl_visit_add (f := fun args => args.getD 0 0) fun _ _ => rfl]
    show _ + empty.elem c = _
    rw [hzero, add_zero]
    -- the points, and the elements at them
    have hfilter : ((points t.shape).filter fun p =>
        (reduceMap t.shape.length (· ∈ axes) keepdim).at p = c) =
        (points t.shape).filter fun p => reduceDims 0 (· ∈ axes) keepdim p = c :=
      filter_congr fun p hp => by rw [reduceMap_at (mem_points.1 hp).length_eq]
    show (((points t.shape).filter fun p =>
      (reduceMap t.shape.length (· ∈ axes) keepdim).at p = c).map _).sum = _
    rw [hfilter, atenSum]
    refine congrArg sum (map_congr_left fun p hp => ?_)
    have hp := mem_points.1 (mem_filter.1 hp).1
    show t.elem ((identityMap t.shape.length).at p) = _
    rw [identityMap_at hp.length_eq]
  · rw [if_neg hall, LoopNest.run, hbox]
    exact if_neg (mt hin.1 hall)

theorem run_divNest [DivisionRing α] (count : Nat) (sum empty : Tensor α)
    (hshape : empty.shape = sum.shape) :
    ∃ t', (divNest count sum empty).run = some t' ∧ t'.shape = sum.shape ∧
      ∀ c, InShape sum.shape c → t'.elem c = sum.elem c / count := by
  have hbox : loopSizes (divNest count sum empty).numLoops (divNest count sum empty).operands =
      some sum.shape := loopSizes_identity _ _
  have hin : InBounds sum.shape (divNest count sum empty).operands := by
    have hread : ∀ p ∈ points sum.shape, InShape sum.shape ((identityMap sum.shape.length).at p) :=
      fun p hp => by
        have hp := mem_points.1 hp
        rwa [identityMap_at hp.length_eq]
    rw [InBounds, divNest, LoopNest.operands]
    simp only [map_cons, map_nil, singleton_append, forall_mem_cons, hshape]
    exact ⟨hread, hread, by simp⟩
  obtain ⟨t', ht', hs, helem⟩ := LoopNest.run_parallel rfl hbox hin
  refine ⟨t', ht', hs.trans hshape, fun c hc => ?_⟩
  rw [helem c hc]
  show sum.elem ((identityMap sum.shape.length).at c) / _ = _
  rw [identityMap_at hc.length_eq]

end Loops

/-! ## The arguments and the inferred type -/

section Arguments

variable {V : Type} {torch : Torch V} {ssaMap : List (String × String)} {x : String}
  {dims : List Int} {keepdim : Option Bool} {nameCounter : Nat}
  {weights : List (String × Compiler.Fx.Tensor V)} {inType : RankedType} {k : Bool}

theorem foldl_collectListed_sum (torch : Torch V) (ssaMap : List (String × String))
    (dims : List Int) (c : Collected V) (resolved : List Item) (dynPos : Nat) :
    (dims.map Item.int).foldl (collectListed torch ssaMap "sum") (c, resolved, dynPos) =
      (c, resolved ++ dims.map .int, dynPos) := by
  induction dims generalizing resolved with
  | nil => simp
  | cons d dims ih =>
    have hstep : collectListed torch ssaMap "sum" (c, resolved, dynPos) (.int d) =
        (c, resolved ++ [.int d], dynPos) := rfl
    rw [map_cons, foldl_cons, hstep, ih, append_assoc]
    rfl

theorem collect_sum :
    (collectInputArgs torch ssaMap "sum" (reduceArgs x dims keepdim)
        ⟨[], nameCounter, weights, []⟩).extraKwargs =
      ("dim", .list (dims.map .int)) ::
        keepdim.toList.map fun b => ("keepdim", .item (.bool b)) := by
  have hlist : listArgAttr "sum" = some (some "dim") := rfl
  have hdims : collectList torch ssaMap "sum" 1
      ⟨[ssaName ssaMap x], nameCounter, weights, []⟩ (dims.map .int) =
      ⟨[ssaName ssaMap x], nameCounter, weights, [("dim", .list (dims.map .int))]⟩ := by
    rw [collectList, hlist]
    simp [foldl_collectListed_sum, setKey]
  cases keepdim with
  | none =>
    show (collectList torch ssaMap "sum" 1
      ⟨[ssaName ssaMap x], nameCounter, weights, []⟩ (dims.map .int)).extraKwargs = _
    rw [hdims]
    rfl
  | some b =>
    show (collectItem torch ssaMap "sum" 2 (collectList torch ssaMap "sum" 1
      ⟨[ssaName ssaMap x], nameCounter, weights, []⟩ (dims.map .int)) (.bool b)).extraKwargs = _
    rw [hdims]
    rfl

theorem collect_mean :
    (collectInputArgs torch ssaMap "mean" (reduceArgs x dims keepdim)
        ⟨[], nameCounter, weights, []⟩).extraKwargs =
      keepdim.toList.map fun b => ("keepdim", .item (.bool b)) := by
  cases keepdim with
  | none => rfl
  | some => rfl

theorem reduceDimOf_sum :
    reduceDimOf (("dim", .list (dims.map .int)) ::
      keepdim.toList.map fun b => ("keepdim", .item (.bool b))) = .list dims := by
  have hints : (dims.map Item.int).filterMap Item.intValue = dims := by
    rw [filterMap_map]
    exact filterMap_some
  rw [reduceDimOf, lookup_cons_self]
  exact congrArg ReduceDim.list hints

theorem reduceDimOf_mean :
    reduceDimOf (keepdim.toList.map fun b => ("keepdim", Arg.item (.bool b))) = .absent := by
  cases keepdim <;> rfl

theorem keepdimOf_sum :
    keepdimOf (("dim", .list (dims.map .int)) ::
      keepdim.toList.map fun b => ("keepdim", .item (.bool b))) = keepdim.getD false := by
  cases keepdim <;> rfl

theorem keepdimOf_mean :
    keepdimOf (keepdim.toList.map fun b => ("keepdim", Arg.item (.bool b))) =
      keepdim.getD false := by
  cases keepdim <;> rfl

theorem inferredReduce_eq (dim : ReduceDim) (k : Bool) (inType : RankedType) :
    inferredReduce dim k inType =
      some (reduceDims (some 1) (· ∈ normalizeReduceDims dim inType.length) k inType) := by
  have hmap : reduceDims (some 1) (· ∈ normalizeReduceDims dim inType.length) k
      (inType.map fun d : Option Nat => d.map Int.ofNat) =
      (reduceDims (some 1) (· ∈ normalizeReduceDims dim inType.length) k inType).map
        fun d : Option Nat => d.map Int.ofNat :=
    reduceDims_map (some 1) (fun d : Option Nat => d.map Int.ofNat) inType
  have hback : ∀ l : List (Option Nat),
      (l.map fun d : Option Nat => d.map Int.ofNat).map (fun d => d.map Int.toNat) = l :=
        fun l => by
    rw [map_map]
    refine (map_congr_left fun d _ => ?_).trans (map_id l)
    cases d <;> rfl
  rw [inferredReduce, inferReduce]
  simp only [length_map]
  exact congrArg some ((congrArg (map _) hmap).trans (hback _))

theorem getSumReduceDims_eq {rank : Nat} {axes : List Nat} (hrank : 0 < rank) (hdims : dims ≠ [])
    (h : Aten.reduceAxes (.list dims) rank = some axes) :
    getSumReduceDims (.list dims) rank = axes ∧ normalizeReduceDims (.list dims) rank = axes ∧
      axes ≠ [] ∧ axes.Nodup ∧ ∀ i ∈ axes, i < rank := by
  obtain ⟨d, ds, rfl⟩ := exists_cons_of_ne_nil hdims
  have hnormal := normalizeReduceDims_eq hrank (.inr ⟨d, ds, rfl⟩) h
  obtain ⟨l, hl, h⟩ := Option.bind_eq_some_iff.1 h
  obtain ⟨hnodup, h⟩ := Option.ite_none_right_eq_some.1 h
  cases h
  rw [show (Aten.wrapDim · rank) = (wrapIndex · rank) from funext fun d => wrapDim_eq hrank] at hl
  rw [mapM_eq_some_forall₂] at hl
  have hfold : ∀ (dims : List Int) (l acc : List Nat),
      Forall₂ (fun d i => wrapIndex d rank = some i) dims l → (acc ++ l).Nodup →
      dims.foldl (fun (normalized : List Nat) (d : Int) =>
        let d : Int := if d < 0 then d + rank else d
        if 0 ≤ d ∧ d < rank ∧ d.toNat ∉ normalized then normalized ++ [d.toNat]
        else normalized) acc = acc ++ l := by
    intro dims l acc h
    induction h generalizing acc with
    | nil => simp
    | @cons d i dims l hd _ ih =>
      intro hnodup
      obtain ⟨hlt, hlt', hidx⟩ := wrapIndex_spec hd
      have hnorm : (if d < 0 then d + rank else d) = (i : Int) := by split <;> omega
      have hnew : i ∉ acc := fun hi => by
        rw [nodup_append] at hnodup
        exact hnodup.2.2 i hi i mem_cons_self rfl
      rw [foldl_cons]
      simp only [hnorm, Int.toNat_natCast]
      rw [if_pos ⟨Int.natCast_nonneg i, by omega, hnew⟩, ih _ (by simpa using hnodup), append_assoc]
      rfl
  have hne : axes ≠ [] := ne_nil_of_length_pos (hl.length_eq ▸ Nat.succ_pos _)
  refine ⟨?_, hnormal, hne, hnodup, fun i hi => ?_⟩
  · exact (hfold (d :: ds) axes [] hl (by simpa using hnodup)).trans (nil_append axes)
  · obtain ⟨j, hj, rfl⟩ := mem_iff_getElem.1 hi
    exact (wrapIndex_spec ((forall₂_iff_get.1 hl).2 j (hl.length_eq ▸ hj) hj)).1

end Arguments

/-- Every open dim of the result is found in the input, counted from the right. -/
def SizesFound (inType : RankedType) (s : List Nat) (outType : RankedType) (out : List Nat) :
    Prop :=
  ∀ j < outType.length, outType.getD j none = none →
    inType.getD (j + (inType.length - outType.length)) none = none ∧
      s.getD (j + (inType.length - outType.length)) 0 = out.getD j 0

theorem makeEmpty_iff_found {α : Type} {inType outType : RankedType} {s : List Nat}
    (hle : outType.length ≤ inType.length) {undef : List Nat → α} {t : Tensor α} :
    makeEmpty outType [(inType, s)] undef = some t ↔
      t.elem = undef ∧ Fits t.shape outType ∧ SizesFound inType s outType t.shape := by
  rw [makeEmpty_singleton_iff]
  refine and_congr_right fun _ => and_congr_right fun _ => ?_
  have hdim : ∀ j < outType.length, ∀ n, dimFrom outType.length (inType, s) j = some n ↔
      inType.getD (j + (inType.length - outType.length)) none = none ∧
        s.getD (j + (inType.length - outType.length)) 0 = n := by
    intro j hj n
    have hidx : (j : Int) - ((outType.length : Int) - inType.length) =
        ((j + (inType.length - outType.length) : Nat) : Int) := by omega
    simp only [dimFrom, hidx, Int.toNat_natCast]
    by_cases hopen : inType.getD (j + (inType.length - outType.length)) none = none
    · rw [if_pos ⟨by omega, by omega, hopen⟩, and_iff_right hopen, Option.some.injEq]
    · rw [if_neg fun h => hopen h.2.2]
      exact iff_of_false (by simp) fun h => hopen h.1
  constructor
  · exact fun h j hj hopen => (hdim j hj _).1 (h j (mem_openDims.2 ⟨hj, hopen⟩))
  · intro h j hj
    obtain ⟨hj, hopen⟩ := mem_openDims.1 hj
    exact (hdim j hj _).2 (h j hj hopen)

section Sum

variable {α V : Type} [AddCommMonoid α] {torch : Torch V} {ssaMap : List (String × String)}
  {x : String} {dims : List Int} {keepdim : Option Bool} {nameCounter : Nat}
  {weights : List (String × Compiler.Fx.Tensor V)} {elt : EltType} {inType : RankedType}
  {t : Lib.Tensor α} {axes : List Nat}

theorem lowerSumNode_eq (hin : Fits t.shape inType) (hrank : t.shape ≠ []) (hdims : dims ≠ [])
    (haxes : Aten.reduceAxes (.list dims) t.shape.length = some axes) :
    lowerSumNode torch ssaMap ⟨[], nameCounter, weights, []⟩ elt inType x dims keepdim t =
      (makeZeroedEmpty elt (reduceDims (some 1) (· ∈ axes) (keepdim.getD false) inType)
          [(inType, t.shape)] >>= fun empty =>
        emit (addNest (· ∈ axes) (keepdim.getD false) t empty).run).map
      (reduceDims (some 1) (· ∈ axes) (keepdim.getD false) inType, ·) := by
  obtain ⟨hred, hnormal, hne, hnodup, hlt⟩ :=
    getSumReduceDims_eq (length_pos_iff.2 hrank) hdims haxes
  have hlen := hin.length_eq
  rw [hlen] at hred hnormal hlt
  rw [lowerSumNode, lowerReduction, collect_sum, reduceDimOf_sum, keepdimOf_sum,
    inferredReduce_eq, hnormal]
  simp only [lowerSum, hred, if_neg hne, length_reduceDims hnodup hlt, ne_eq, not_true, if_false]

theorem sum_right_iff (hin : Fits t.shape inType)
    (haxes : Aten.reduceAxes (.list dims) t.shape.length = some axes) :
    (lowerSumNode torch ssaMap ⟨[], nameCounter, weights, []⟩ elt inType x dims keepdim t).Gives
        (fun r => Fits (atenSum t axes (keepdim.getD false)).shape r.1 ∧
          r.2.Same (atenSum t axes (keepdim.getD false))) ↔
      dims = [] ∨ t.shape = [] ∨ ¬ elt.HasZero ∨ SizesFound inType t.shape
        (reduceDims (some 1) (· ∈ axes) (keepdim.getD false) inType)
        (reduceDims 1 (· ∈ axes) (keepdim.getD false) t.shape) := by
  by_cases hnone : dims = [] ∨ t.shape = []
  · -- no dim is reduced
    have hred : getSumReduceDims (.list dims) inType.length = [] := by
      obtain rfl | hshape := hnone
      · rfl
      · rw [← hin.length_eq, hshape]
        exact foldl_fixed' (fun d => if_neg (by simp only [length_nil]; omega)) dims
    rw [lowerSumNode, lowerReduction, collect_sum, reduceDimOf_sum, keepdimOf_sum,
      inferredReduce_eq]
    simp only [lowerSum, hred, if_true]
    exact iff_of_true Lowered.gives_noMatch (by tauto)
  · obtain ⟨hdims, hrank⟩ := not_or.1 hnone
    rw [or_iff_right hdims, or_iff_right hrank, lowerSumNode_eq hin hrank hdims haxes,
      Lowered.gives_map]
    obtain ⟨-, -, -, hnodup, hlt⟩ := getSumReduceDims_eq (length_pos_iff.2 hrank) hdims haxes
    have hfits : Fits _ (reduceDims (some 1) (· ∈ axes) (keepdim.getD false) _) :=
      forall₂_reduceDims rfl hin
    by_cases helt : elt.HasZero
    · rw [or_iff_right (not_not.2 helt), makeZeroedEmpty, if_pos helt]
      have hle : (reduceDims (some 1) (· ∈ axes) (keepdim.getD false) inType).length ≤
          inType.length := by
        rw [length_reduceDims hnodup (hin.length_eq ▸ hlt)]
        split <;> omega
      constructor
      · intro h
        cases hempty :
          makeEmpty (α := α) (reduceDims (some 1) (· ∈ axes) (keepdim.getD false) inType)
            [(inType, t.shape)] fun _ => 0 with
        | none =>
          rw [hempty] at h
          exact absurd h Lowered.gives_invalid
        | some empty =>
          obtain ⟨hzero, -, hfound⟩ := (makeEmpty_iff_found hle).1 hempty
          rw [hempty] at h
          change Lowered.Gives (emit (addNest _ _ t empty).run) _ at h
          rw [run_addNest hzero] at h
          split at h
          case isFalse => exact absurd h Lowered.gives_invalid
          case isTrue =>
            have hshape := (Lowered.gives_ok.1 h).2.1
            change empty.shape = reduceDims 1 (· ∈ axes) (keepdim.getD false) t.shape at hshape
            rwa [hshape] at hfound
      · intro hfound
        have hempty : makeEmpty (α := α)
            (reduceDims (some 1) (· ∈ axes) (keepdim.getD false) inType) [(inType, t.shape)]
            (fun _ => 0) =
              some ⟨reduceDims 1 (· ∈ axes) (keepdim.getD false) t.shape, fun _ => 0⟩ :=
          (makeEmpty_iff_found hle).2 ⟨rfl, hfits, hfound⟩
        rw [hempty]
        show Lowered.Gives (emit (addNest _ _ t _).run) _
        rw [run_addNest rfl, if_pos fun p hp => inShape_reduceDims (mem_points.1 hp)]
        exact Lowered.gives_ok.2 ⟨hfits, Lib.Tensor.Same.refl _⟩
    · rw [makeZeroedEmpty, if_neg helt]
      exact iff_of_true Lowered.gives_noMatch (.inl helt)

end Sum

section Mean

variable {α V : Type} [Field α] {torch : Torch V} {ssaMap : List (String × String)}
  {x : String} {dims : List Int} {keepdim : Option Bool} {nameCounter : Nat}
  {weights : List (String × Compiler.Fx.Tensor V)} {elt : EltType} {inType outType : RankedType}
  {undef : List Nat → α} {t empty : Lib.Tensor α} {s axes : List Nat} {k : Bool}

/-- What the sum is divided by. -/
def meanCount (inType : RankedType) : Nat :=
  match inType.getD (inType.length - 1) none with
  | some redSize => if redSize ≤ 1 then 1 else redSize
  | none => 1

def meanType (inType : RankedType) (k : Bool) : RankedType :=
  reduceDims (some 1) (· ∈ [inType.length - 1]) k inType

theorem length_meanType (hrank : inType ≠ []) :
    (meanType inType k).length = if k then inType.length else inType.length - 1 := by
  have hpos := length_pos_iff.2 hrank
  refine (length_reduceDims (nodup_singleton _) fun i hi => ?_)
  rw [mem_singleton] at hi
  omega

theorem length_meanType_le (hrank : inType ≠ []) : (meanType inType k).length ≤ inType.length := by
  rw [length_meanType hrank]
  split <;> omega

theorem divideSums_spec (inType : RankedType) (undef : List Nat → α) (sum : Lib.Tensor α)
    (hfits : Fits sum.shape outType) :
    ∃ r, divideSums inType outType undef sum = .ok r ∧ r.shape = sum.shape ∧
      ∀ c, InShape r.shape c → r.elem c = sum.elem c / meanCount inType := by
  have hquot : makeEmpty outType [(outType, sum.shape)] undef = some ⟨sum.shape, undef⟩ :=
    (makeEmpty_iff_found le_rfl).2 ⟨rfl, hfits, fun j _ hopen => by simpa using hopen⟩
  rw [divideSums, meanCount]
  cases inType.getD (inType.length - 1) none with
  | none => exact ⟨sum, rfl, rfl, fun c _ => by simp⟩
  | some redSize =>
    by_cases hone : redSize ≤ 1
    · exact ⟨sum, if_pos hone, rfl, fun c _ => by simp [hone]⟩
    · obtain ⟨r, hr, hshape, helem⟩ :=
        run_divNest redSize sum ⟨sum.shape, undef⟩ rfl
      refine ⟨r, ?_, hshape, fun c hc => ?_⟩
      · simp only [if_neg hone, hquot]
        show emit (divNest redSize sum _).run = _
        rw [hr, emit]
      · simp only [if_neg hone]
        exact helem c (hshape ▸ hc)

theorem lowerMean_eq (hrank : inType ≠ []) (helt : elt.floatWidth ≠ none) :
    lowerMean elt inType (meanType inType k) k undef t =
      emit (makeEmpty (meanType inType k) [(inType, t.shape)] fun _ => 0) >>= fun init =>
        emit (addNest (· ∈ [inType.length - 1]) k t init).run >>= fun sum =>
          divideSums inType (meanType inType k) undef sum := by
  have hpos := length_pos_iff.2 hrank
  rw [lowerMean, if_neg (by omega), if_neg (not_not.2 (length_meanType hrank)),
    makeZeroedEmpty, if_pos (.inl helt)]
  simp only [if_neg helt]

/-- A mean that is lowered has some shape and the quotients where every point is mapped into it. -/
theorem lowerMean_gives_iff {P : Lib.Tensor α → Prop} (hrank : inType ≠ [])
    (helt : elt.floatWidth ≠ none) (hP : ∀ r r' : Lib.Tensor α, r.Same r' → (P r ↔ P r')) :
    (lowerMean elt inType (meanType inType k) k undef t).Gives P ↔
      ∃ shape, Fits shape (meanType inType k) ∧
        SizesFound inType t.shape (meanType inType k) shape ∧
        (∀ p ∈ points t.shape, InShape shape (reduceDims 0 (· ∈ [inType.length - 1]) k p)) ∧
        P ⟨shape, fun c => (atenSum t [inType.length - 1] k).elem c / meanCount inType⟩ := by
  rw [lowerMean_eq hrank helt]
  have hle := length_meanType_le (k := k) hrank
  constructor
  · intro h
    cases hempty : makeEmpty (meanType inType k) [(inType, t.shape)] (fun _ => (0 : α)) with
    | none =>
      rw [hempty] at h
      exact absurd h Lowered.gives_invalid
    | some init =>
      obtain ⟨hzero, hfits, hfound⟩ := (makeEmpty_iff_found hle).1 hempty
      rw [hempty] at h
      change Lowered.Gives (emit (addNest _ k t init).run >>= _) P at h
      rw [run_addNest hzero] at h
      split at h
      case isFalse => exact absurd h Lowered.gives_invalid
      case isTrue hall =>
        obtain ⟨r, hr, hshape, helem⟩ := divideSums_spec inType undef
          ⟨init.shape, (atenSum t [inType.length - 1] k).elem⟩ hfits
        change Lowered.Gives (divideSums _ _ _ _) P at h
        rw [hr, Lowered.gives_ok] at h
        refine ⟨init.shape, hfits, hfound, hall, (hP r _ ?_).1 h⟩
        exact ⟨hshape, helem⟩
  · rintro ⟨shape, hfits, hfound, hall, h⟩
    have hempty : makeEmpty (meanType inType k) [(inType, t.shape)] (fun _ => (0 : α)) =
        some ⟨shape, fun _ => 0⟩ := (makeEmpty_iff_found hle).2 ⟨rfl, hfits, hfound⟩
    obtain ⟨r, hr, hshape, helem⟩ := divideSums_spec inType undef
      ⟨shape, (atenSum t [inType.length - 1] k).elem⟩ hfits
    rw [hempty]
    show Lowered.Gives (emit (addNest _ k t _).run >>= _) P
    rw [run_addNest rfl, if_pos hall]
    show Lowered.Gives (divideSums _ _ _ _) P
    rw [hr, Lowered.gives_ok]
    refine (hP r _ ?_).2 h
    exact ⟨hshape, helem⟩

/-- The means whose sizes are found although the last dim is taken, and whose entries are right. -/
structure MeanKept (inType : RankedType) (s axes : List Nat) (k : Bool) : Prop where
  fits : Fits (reduceDims 1 (· ∈ axes) k s) (meanType inType k)
  found : SizesFound inType s (meanType inType k) (reduceDims 1 (· ∈ axes) k s)
  counted : 0 ∈ reduceDims 1 (· ∈ axes) k s ∨ averaged s axes ≠ 0
  points : ∀ p ∈ points s,
    reduceDims 0 (· ∈ [inType.length - 1]) k p = reduceDims 0 (· ∈ axes) k p ∧
      meanCount inType = averaged s axes

theorem sum_indicator {l : List (List Nat)} (hl : l.Nodup) (q : List Nat) :
    (l.map fun p => if p = q then (1 : α) else 0).sum = if q ∈ l then 1 else 0 := by
  induction l with
  | nil => simp
  | cons p l ih =>
    obtain ⟨hp, hl⟩ := nodup_cons.1 hl
    rw [map_cons, sum_cons, ih hl]
    by_cases hpq : p = q
    · subst hpq
      simp [hp]
    · simp [hpq, Ne.symm hpq]

theorem atenSum_indicator {q c : List Nat} (hq : InShape s q) :
    (atenSum (⟨s, fun p => if p = q then (1 : α) else 0⟩ : Lib.Tensor α) axes k).elem c =
      if reduceDims 0 (· ∈ axes) k q = c then 1 else 0 := by
  refine (sum_indicator ((nodup_points s).filter _) q).trans ?_
  simp [mem_filter, mem_points, hq]

theorem isMean_congr {r r' : Lib.Tensor α} (h : r.Same r') :
    IsMean t axes k r ↔ IsMean t axes k r' := by
  obtain ⟨hshape, helem⟩ := h
  constructor
  · rintro ⟨hs, he⟩
    refine ⟨hshape.symm.trans hs, fun c hc => ?_⟩
    rw [← hshape] at hc
    rw [← helem c hc]
    exact he c hc
  · rintro ⟨hs, he⟩
    refine ⟨hshape.trans hs, fun c hc => ?_⟩
    rw [helem c hc]
    exact he c (hshape ▸ hc)

theorem normalizeReduceDims_last (h : inType ≠ []) :
    normalizeReduceDims .absent inType.length = [inType.length - 1] := by
  rw [normalizeReduceDims_absent, normalizeReduceDims, if_pos (length_pos_iff.2 h)]

theorem mean_right_iff [CharZero α] (hin : Fits s inType) (helt : elt.floatWidth ≠ none) :
    (∀ elem : List Nat → α,
      (lowerMeanNode torch ssaMap ⟨[], nameCounter, weights, []⟩ elt inType x dims keepdim undef
        ⟨s, elem⟩).Gives fun r =>
          Fits (atenSum (⟨s, elem⟩ : Lib.Tensor α) axes (keepdim.getD false)).shape r.1 ∧
            IsMean ⟨s, elem⟩ axes (keepdim.getD false) r.2) ↔
      s = [] ∨ MeanKept inType s axes (keepdim.getD false) := by
  have hlen := hin.length_eq
  have hnode : ∀ t : Lib.Tensor α,
      lowerMeanNode torch ssaMap ⟨[], nameCounter, weights, []⟩ elt inType x dims keepdim undef t =
        (lowerMean elt inType (reduceDims (some 1) (· ∈ normalizeReduceDims .absent inType.length)
          (keepdim.getD false) inType) (keepdim.getD false) undef t).map
          (reduceDims (some 1) (· ∈ normalizeReduceDims .absent inType.length)
            (keepdim.getD false) inType, ·) := fun t => by
    rw [lowerMeanNode, lowerReduction, collect_mean, reduceDimOf_mean, keepdimOf_mean,
      inferredReduce_eq]
  by_cases hscalar : s = []
  · refine iff_of_true (fun elem => ?_) (.inl hscalar)
    have hrank : inType.length < 1 := by rw [← hlen, hscalar]; exact one_pos
    rw [hnode, Lowered.gives_map, lowerMean, if_pos hrank]
    exact Lowered.gives_noMatch
  · rw [or_iff_right hscalar]
    have hrank : inType ≠ [] := fun h => hscalar (length_eq_zero_iff.1 (by rw [hlen, h]; rfl))
    have hgives : ∀ elem : List Nat → α,
        ((lowerMeanNode torch ssaMap ⟨[], nameCounter, weights, []⟩ elt inType x dims keepdim undef
          ⟨s, elem⟩).Gives fun r =>
            Fits (atenSum (⟨s, elem⟩ : Lib.Tensor α) axes (keepdim.getD false)).shape r.1 ∧
              IsMean ⟨s, elem⟩ axes (keepdim.getD false) r.2) ↔
          Fits (reduceDims 1 (· ∈ axes) (keepdim.getD false) s)
              (meanType inType (keepdim.getD false)) ∧
            SizesFound inType s (meanType inType (keepdim.getD false))
              (reduceDims 1 (· ∈ axes) (keepdim.getD false) s) ∧
            (∀ p ∈ points s, InShape (reduceDims 1 (· ∈ axes) (keepdim.getD false) s)
              (reduceDims 0 (· ∈ [inType.length - 1]) (keepdim.getD false) p)) ∧
            ∀ c, InShape (reduceDims 1 (· ∈ axes) (keepdim.getD false) s) c → averaged s axes ≠ 0 ∧
                (atenSum (⟨s, elem⟩ : Lib.Tensor α) [inType.length - 1]
                  (keepdim.getD false)).elem c / meanCount inType =
                (atenSum (⟨s, elem⟩ : Lib.Tensor α) axes (keepdim.getD false)).elem c /
                  averaged s axes := by
      intro elem
      rw [hnode, Lowered.gives_map, normalizeReduceDims_last hrank]
      show Lowered.Gives (lowerMean elt inType (meanType inType (keepdim.getD false))
        (keepdim.getD false) undef ⟨s, elem⟩) (fun r =>
          Fits (atenSum (⟨s, elem⟩ : Lib.Tensor α) axes (keepdim.getD false)).shape
            (meanType inType (keepdim.getD false)) ∧
          IsMean ⟨s, elem⟩ axes (keepdim.getD false) r) ↔ _
      rw [lowerMean_gives_iff hrank helt fun r r' h => and_congr_right fun _ => isMean_congr h]
      constructor
      · rintro ⟨shape, hfits, hfound, hall, -, hshape, helem⟩
        change shape = reduceDims 1 (· ∈ axes) (keepdim.getD false) s at hshape
        subst hshape
        exact ⟨hfits, hfound, hall, helem⟩
      · rintro ⟨hfits, hfound, hall, helem⟩
        exact ⟨_, hfits, hfound, hall, hfits, rfl, helem⟩
    simp only [hgives]
    constructor
    · intro h
      obtain ⟨hfits, hfound, hall, -⟩ := h fun _ => 0
      refine ⟨hfits, hfound, or_iff_not_imp_left.2 fun hne => ?_, fun p hp => ?_⟩
      · -- the first element of the result
        have horigin : InShape (reduceDims 1 (· ∈ axes) (keepdim.getD false) s)
            (replicate (reduceDims 1 (· ∈ axes) (keepdim.getD false) s).length 0) := by
          refine inShape_iff_getD.2 ⟨length_replicate, fun i hi => ?_⟩
          rw [getD_replicate _ hi, getD_eq_getElem _ _ hi]
          exact Nat.pos_of_ne_zero fun hz => hne (hz ▸ getElem_mem hi)
        obtain ⟨-, -, -, helem⟩ := h fun _ => 0
        exact (helem _ horigin).1
      · -- the element that belongs to the place of `p`
        have hp := mem_points.1 hp
        obtain ⟨-, -, -, helem⟩ := h fun p' => if p' = p then 1 else 0
        obtain ⟨hcount, hsum⟩ := helem _ (inShape_reduceDims hp)
        rw [atenSum_indicator hp, atenSum_indicator hp, if_pos rfl] at hsum
        have hcount' : (averaged s axes : α) ≠ 0 := Nat.cast_ne_zero.2 hcount
        by_cases hplace : reduceDims 0 (· ∈ [inType.length - 1]) (keepdim.getD false) p =
            reduceDims 0 (· ∈ axes) (keepdim.getD false) p
        · rw [if_pos hplace, one_div, one_div, inv_inj, Nat.cast_inj] at hsum
          exact ⟨hplace, hsum⟩
        · rw [if_neg hplace, zero_div] at hsum
          exact absurd hsum.symm (one_div_ne_zero hcount')
    · rintro ⟨hfits, hfound, hcounted, hpoints⟩ elem
      refine ⟨hfits, hfound, fun p hp => ?_, fun c hc => ?_⟩
      · rw [(hpoints p hp).1]
        exact inShape_reduceDims (mem_points.1 hp)
      · refine ⟨hcounted.resolve_left hc.zero_notMem, ?_⟩
        have hsum : (atenSum (⟨s, elem⟩ : Lib.Tensor α) [inType.length - 1]
            (keepdim.getD false)).elem c =
            (atenSum (⟨s, elem⟩ : Lib.Tensor α) axes (keepdim.getD false)).elem c := by
          refine congrArg (fun l => (l.map elem).sum) (filter_congr fun p hp => ?_)
          rw [(hpoints p hp).1]
        rw [hsum]
        by_cases hnone : points s = []
        · have hzero :
            (atenSum (⟨s, elem⟩ : Lib.Tensor α) axes (keepdim.getD false)).elem c = 0 := by
            simp [atenSum, hnone]
          rw [hzero, zero_div, zero_div]
        · obtain ⟨p, hp⟩ := exists_mem_of_ne_nil _ hnone
          rw [(hpoints p hp).2]

end Mean

/-! ## Both reductions -/

/-- A sum and a mean over the dims of a list are ATen's exactly where they are kept. -/
theorem sumMean_right_iff {α V : Type} [Field α] [CharZero α] (torch : Torch V)
    (ssaMap : List (String × String)) (nameCounter : Nat)
    (weights : List (String × Compiler.Fx.Tensor V)) (elt : EltType) (x : String)
    (keepdim : Option Bool) (undef : List Nat → α) {inType : RankedType} {s : List Nat}
    (hin : Fits s inType) {dims : List Int} {axes : List Nat}
    (haxes : Aten.reduceAxes (.list dims) s.length = some axes) :
    (∀ elem : List Nat → α,
      (lowerSumNode torch ssaMap ⟨[], nameCounter, weights, []⟩ elt inType x dims keepdim
          ⟨s, elem⟩).Gives (fun r =>
            Fits (atenSum (⟨s, elem⟩ : Lib.Tensor α) axes (keepdim.getD false)).shape r.1 ∧
              r.2.Same (atenSum ⟨s, elem⟩ axes (keepdim.getD false))) ↔
        dims = [] ∨ s = [] ∨ ¬ elt.HasZero ∨ SizesFound inType s
          (reduceDims (some 1) (· ∈ axes) (keepdim.getD false) inType)
          (reduceDims 1 (· ∈ axes) (keepdim.getD false) s)) ∧
    (elt.floatWidth ≠ none → ((∀ elem : List Nat → α,
        (lowerMeanNode torch ssaMap ⟨[], nameCounter, weights, []⟩ elt inType x dims keepdim undef
          ⟨s, elem⟩).Gives fun r =>
            Fits (atenSum (⟨s, elem⟩ : Lib.Tensor α) axes (keepdim.getD false)).shape r.1 ∧
              IsMean ⟨s, elem⟩ axes (keepdim.getD false) r.2) ↔
        s = [] ∨ MeanKept inType s axes (keepdim.getD false))) :=
  ⟨fun _ => sum_right_iff hin haxes, mean_right_iff hin⟩

/-- The tensor that has at each coordinate its place. -/
def places (s : List Nat) : Lib.Tensor Rat := ⟨s, fun c => offset s c⟩

/-- The rows of a matrix are added up and averaged. -/
theorem sumMean_right_iff_rows :
    (lowerSumNode intTorch [] ⟨[], 0, [], []⟩ .f32 [some 2, some 3] "x" [-1] none
        (places [2, 3])).Gives (fun r => Fits (atenSum (places [2, 3]) [1] false).shape r.1 ∧
          r.2.Same (atenSum (places [2, 3]) [1] false)) ∧
      (lowerMeanNode intTorch [] ⟨[], 0, [], []⟩ .f32 [some 2, some 3] "x" [-1] none
        (fun _ => 0) (places [2, 3])).Gives fun r =>
          Fits (atenSum (places [2, 3]) [1] false).shape r.1 ∧
            IsMean (places [2, 3]) [1] false r.2 := by
  have hin : Fits [2, 3] [some 2, some 3] := by simp [Fits]
  obtain ⟨hsum, hmean⟩ := sumMean_right_iff intTorch [] 0 [] .f32 "x" none
    (fun _ => (0 : Rat)) hin (show Aten.reduceAxes (.list [-1]) 2 = some [1] by decide)
  have hfound : SizesFound [some 2, some 3] [2, 3] [some 2] [2] := fun j hj hopen => by
    obtain rfl : j = 0 := Nat.lt_one_iff.1 hj
    cases hopen
  refine ⟨(hsum _).2 (.inr (.inr (.inr hfound))), (hmean (by decide)).2 (.inr ?_) _⟩
  exact ⟨by simp [Fits, reduceDims, meanType], hfound, .inr (by decide), by decide⟩

/-- A size looked up at another dim; and the mean of the columns is that of the rows. -/
theorem sumMean_loses_dims :
    ¬ (lowerSumNode intTorch [] ⟨[], 0, [], []⟩ .f32 [none, some 3] "x" [1] none
        (places [2, 3])).Gives (fun r => Fits (atenSum (places [2, 3]) [1] false).shape r.1 ∧
          r.2.Same (atenSum (places [2, 3]) [1] false)) ∧
      ¬ (lowerMeanNode intTorch [] ⟨[], 0, [], []⟩ .f32 [some 2, some 3] "x" [0] none
        (fun _ => 0) (places [2, 3])).Gives fun r =>
          Fits (atenSum (places [2, 3]) [0] false).shape r.1 ∧
            IsMean (places [2, 3]) [0] false r.2 := by
  refine ⟨fun h => ?_, fun h => ?_⟩
  · have hrun : lowerSumNode intTorch [] ⟨[], 0, [], []⟩ .f32 [none, some 3] "x" [1] none
        (places [2, 3]) = .error .invalid := rfl
    rw [hrun] at h
    exact Lowered.gives_invalid h
  · obtain ⟨r, hr, hty⟩ : ∃ r, lowerMeanNode intTorch [] ⟨[], 0, [], []⟩ .f32 [some 2, some 3] "x"
        [0] none (fun _ => 0) (places [2, 3]) = .ok r ∧ r.1 = [some 2] := ⟨_, rfl, rfl⟩
    rw [hr, Lowered.gives_ok, hty] at h
    have hshape : (atenSum (places [2, 3]) [0] false).shape = [3] := by decide
    rw [hshape] at h
    simp [Fits] at h

end CompileForge.SfDialect
