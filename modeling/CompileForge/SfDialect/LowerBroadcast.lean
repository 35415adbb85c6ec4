/-
  The three copies of broadcasting: `SfBinaryLowering` with `refineBroadcastType` and
  `broadcastMap`, `makeBinaryOp` (`sf-dialect/lib/Sf/SfLoweringHelpers.h`), and
  `SfExpandOpLowering` (`sf-dialect/lib/Sf/SfLowerShape.cpp`).
-/

import CompileForge.Lib.BroadcastNest
import CompileForge.SfDialect.LowerView
import CompileForge.SfDialect.LoweringHelpers
import Mathlib.Data.List.MinMax

namespace CompileForge.SfDialect

open Lib List

variable {α : Type}

def alignedDim (rank : Nat) (ty : RankedType) (i : Nat) : Option (Option Nat) :=
  if rank ≤ i + ty.length then ty[i + ty.length - rank]? else none

def alignedSize (rank : Nat) (s : List Nat) (i : Nat) : Nat := s.getD (i + s.length - rank) 0

/-- `outDim == ShapedType::kDynamic || outDim > 1`. -/
def grows : Option Nat → Bool
  | none => true
  | some n => 1 < n

/-- Which dims are read at 0 is read off the declared types. -/
def alignedMap (needsBroadcast : Option Nat → Option Nat → Bool) (outType operand : RankedType) :
    IndexMap :=
  (range outType.length).filterMap fun i =>
    (alignedDim outType.length operand i).map fun d =>
      if needsBroadcast d (outType.getD i none) then .const 0 else .dim i

/-! ## `SfBinaryLowering` -/

def broadcastMap (loopRank : Nat) (operandShape : RankedType) : IndexMap :=
  let leadingExcess := operandShape.length - loopRank
  let loopStart := loopRank - operandShape.length
  (range operandShape.length).map fun i =>
    if i < leadingExcess then .const 0
    else if operandShape.getD i none = some 1 then .const 0
    else .dim (loopStart + (i - leadingExcess))

/-- A dim of `refinedShape`: a dynamic one is the largest of the inputs', where all are known. -/
def refineDim (resultType : RankedType) (inputs : List RankedType) (i : Nat) : Option Nat :=
  match resultType.getD i none with
  | some n => some n
  | none =>
    let dims := inputs.filterMap fun ty => alignedDim resultType.length ty i
    if none ∈ dims then none else some ((dims.filterMap id).max?.getD 1)

/-- Open dims of the result that the operands know are filled in. -/
def refineBroadcastType (resultType : RankedType) (inputs : List RankedType) : RankedType :=
  (range resultType.length).map (refineDim resultType inputs)

/-- The body of a generic op over two operands. -/
def binaryBody (f : α → α → α) (args : List α) (out : α) : α :=
  match args with
  | [x, y] => f x y
  | _ => out

/-- A generic op over two operands. -/
def binaryNest (rank : Nat) (maps : IndexMap × IndexMap) (f : α → α → α) (lhs rhs init : Tensor α) :
    LoopNest α where
  numLoops := rank
  ins := [(maps.1, lhs), (maps.2, rhs)]
  outMap := identityMap rank
  init := init
  body := binaryBody f

def promoteNest (sitofp : α → α) (val init : Tensor α) : LoopNest α where
  numLoops := val.shape.length
  ins := [(identityMap val.shape.length, val)]
  outMap := identityMap val.shape.length
  init := init
  body := fun args out => sitofp (args.headD out)

/-- An operand of another element type is converted by a nest of its own. -/
def promoteIfNeeded (cast : EltType → EltType → α → α) (lhsElt rhsElt outElt valElt : EltType)
    (valType : RankedType) (val : Tensor α) (undef : List Nat → α) : Lowered (EltType × Tensor α) :=
  if valElt.floatWidth ≠ none then .ok (valElt, val)
  else if outElt.floatWidth = none then
    if valElt = outElt ∧ lhsElt = rhsElt ∧ valElt = lhsElt then .ok (valElt, val)
    else .error .noMatch
  else do
    let promInit ← emit (makeEmpty valType [(valType, val.shape)] undef)
    let promOp ← emit (promoteNest (cast valElt outElt) val promInit).run
    .ok (outElt, promOp)

/-- The body is a valid op: `arith` ops have one type, and not every one is there for integers. -/
def BodyTyped (hasInt : Bool) (outElt lhsElt rhsElt : EltType) : Prop :=
  lhsElt = outElt ∧ rhsElt = outElt ∧ (outElt.floatWidth ≠ none ∨ hasInt)
deriving Decidable

/-- `SfBinaryLowering` of an op that is `f` on elements; no operand is squeezed. -/
def lowerBinary (cast : EltType → EltType → α → α) (f : α → α → α) (hasInt : Bool)
    (lhsElt rhsElt outElt : EltType) (lhsType rhsType resultType : RankedType)
    (lhs rhs : Tensor α) (undef : List Nat → α) : Lowered (Tensor α) := do
  let resultType :=
    if resultType.length < lhsType.length ∨ resultType.length < rhsType.length then
      if rhsType.length ≤ lhsType.length then lhsType else rhsType
    else resultType
  let lhs ← promoteIfNeeded cast lhsElt rhsElt outElt lhsElt lhsType lhs undef
  let rhs ← promoteIfNeeded cast lhsElt rhsElt outElt rhsElt rhsType rhs undef
  let refinedType := refineBroadcastType resultType [lhsType, rhsType]
  let empty ← emit
    (makeEmpty refinedType [(lhsType, lhs.2.shape), (rhsType, rhs.2.shape)] undef)
  if BodyTyped hasInt outElt lhs.1 rhs.1 then
    emit (binaryNest resultType.length
      (broadcastMap resultType.length lhsType, broadcastMap resultType.length rhsType) f
      lhs.2 rhs.2 empty).run
  else .error .invalid

/-! ## `makeBinaryOp` -/

def oneGrows (operandDim outDim : Option Nat) : Bool := operandDim = some 1 && grows outDim

/-- The dim and the size of an operand at the same place, unless it is read at 0 there. -/
def lookedDim (outType : RankedType) (i : Nat) (operand : RankedType × List Nat) :
    Option (Option Nat × Nat) :=
  match (alignedMap oneGrows outType operand.1)[i]? with
  | some (.dim _) =>
    (alignedDim outType.length operand.1 i).map (·, alignedSize outType.length operand.2 i)
  | _ => none

/-- A dynamic dim of the result: its refined size, or the size that is pushed for it. -/
def binaryDim (outType : RankedType) (operands : List (RankedType × List Nat)) (i : Nat) :
    Option Nat × Option Nat :=
  let looked := operands.filterMap (lookedDim outType i)
  match looked.find? (·.1 = none) with
  | some d => (none, some d.2)
  | none => ((looked.filterMap Prod.fst).max?, none)

def makeBinaryOp (outType lhsType rhsType : RankedType) (f : α → α → α) (lhs rhs : Tensor α)
    (undef : List Nat → α) : Option (Tensor α) :=
  let operands := [(lhsType, lhs.shape), (rhsType, rhs.shape)]
  let refinedShape := (range outType.length).map fun i =>
    match outType.getD i none with
    | some n => some n
    | none => (binaryDim outType operands i).1
  let dynSizes := (openDims outType).filterMap fun i => (binaryDim outType operands i).2
  (fillShape refinedShape (dynSizes.map Int.ofNat)).bind fun shape =>
    (binaryNest outType.length
      (alignedMap oneGrows outType lhsType, alignedMap oneGrows outType rhsType) f
      lhs rhs ⟨shape, undef⟩).run

/-! ## `SfExpandOpLowering` -/

/-- `needsBroadcast`. -/
def expandGrows (inDim outDim : Option Nat) : Bool :=
  (inDim = some 1 || inDim = none && outDim ≠ none && grows outDim) && grows outDim

/-- The sizes of the open dims from `i` on; `dynShape` has the operands not taken yet. -/
def expandSizes (rank : Nat) (inType : RankedType) (inShape : List Nat)
    (shapeAttr : Option (List ShapeEntry)) : Nat → RankedType → List Nat → Lowered (List Int)
  | _, [], _ => .ok []
  | i, some _ :: outType, dynShape =>
    expandSizes rank inType inShape shapeAttr (i + 1) outType dynShape
  | i, none :: outType, dynShape =>
    match shapeAttr.bind (·[i]?) with
    | some .str =>
      match dynShape with
      | [] => .error .noMatch
      | size :: dynShape =>
        (expandSizes rank inType inShape shapeAttr (i + 1) outType dynShape).map
          ((size : Int) :: ·)
    | some (.int val) =>
      let size : Int :=
        if val = -1 then
          if alignedDim rank inType i = some none then alignedSize rank inShape i else 1
        else val
      (expandSizes rank inType inShape shapeAttr (i + 1) outType dynShape).map (size :: ·)
    | _ => expandSizes rank inType inShape shapeAttr (i + 1) outType dynShape

/-- The symbolic sizes are taken in order at the dims that the result leaves open only. -/
def lowerExpand (inType outType : RankedType) (shapeAttr : Option (List ShapeEntry))
    (dynShape : List Nat) (input : Tensor α) (undef : List Nat → α) : Lowered (Tensor α) := do
  let dynSizes ←
    expandSizes outType.length inType input.shape shapeAttr 0 outType dynShape
  let shape ← emit (fillShape outType dynSizes)
  let expanded : LoopNest α := {
    numLoops := outType.length
    ins := [(alignedMap expandGrows outType inType, input)]
    outMap := identityMap outType.length
    init := ⟨shape, undef⟩
    body := fun args out => args.headD out }
  emit expanded.run

section Maps

variable {rank : Nat} {ty outType operand : RankedType} {s : List Nat} {i j : Nat}

theorem alignedDim_add (hle : ty.length ≤ rank) (hj : j < ty.length) :
    alignedDim rank ty (j + (rank - ty.length)) = some (ty.getD j none) := by
  rw [alignedDim, if_pos (by omega), show j + (rank - ty.length) + ty.length - rank = j by omega,
    getElem?_eq_getElem hj, getD_eq_getElem _ _ hj]

def atZeroOf (needsBroadcast : Option Nat → Option Nat → Bool) (outType operand : RankedType)
    (j : Nat) : Bool :=
  needsBroadcast (operand.getD j none)
    (outType.getD (j + (outType.length - operand.length)) none)

theorem alignedMap_eq_trailingMap (needsBroadcast : Option Nat → Option Nat → Bool)
    (hle : operand.length ≤ outType.length) :
    alignedMap needsBroadcast outType operand =
      trailingMap outType.length operand.length (atZeroOf needsBroadcast outType operand) := by
  obtain ⟨k, hk⟩ := Nat.exists_eq_add_of_le hle
  rw [alignedMap, trailingMap, hk, add_comm operand.length k, range_add,
    filterMap_append, filterMap_map]
  -- the leading dims of the result have none of the operand
  have hfront : (range k).filterMap (fun i => (alignedDim (k + operand.length) operand i).map
      fun d => if needsBroadcast d (outType.getD i none) then IndexExpr.const 0
        else .dim i) = [] := by
    refine filterMap_eq_nil_iff.2 fun i hi => ?_
    rw [alignedDim, if_neg (by have := mem_range.1 hi; omega), Option.map_none]
  rw [hfront, nil_append, ← filterMap_eq_map]
  refine filterMap_congr fun j hj => ?_
  have hdim := @alignedDim_add (k + operand.length) operand j (by omega) (mem_range.1 hj)
  rw [Nat.add_sub_cancel] at hdim ⊢
  show (alignedDim (k + operand.length) operand (k + j)).map _ = some _
  rw [add_comm k j, hdim]
  simp only [Option.map_some, atZeroOf, hk, Nat.add_sub_cancel_left, add_comm k j]

theorem broadcastMap_eq_trailingMap (hle : ty.length ≤ rank) :
    broadcastMap rank ty = trailingMap rank ty.length fun j => ty.getD j none = some 1 := by
  simp only [broadcastMap, trailingMap]
  refine map_congr_left fun j _ => ?_
  rw [if_neg (by omega)]
  simp only [decide_eq_true_eq]
  split
  · rfl
  · congr 1
    omega

end Maps

section Two

/-- What the op means: the operands are restricted to each coordinate. -/
def broadcastOp (f : α → α → α) (lhs rhs : Tensor α) : Tensor α :=
  ⟨broadcast lhs.shape rhs.shape,
    fun c => f (lhs.elem (restrict lhs.shape c)) (rhs.elem (restrict rhs.shape c))⟩

variable {a b : List Nat}

theorem binaryNest_right_iff [Nontrivial α] (hab : Broadcastable a b) (z z' : Nat → Bool) :
    (∀ (f : α → α → α) (x y undef : List Nat → α), ∃ t,
      (binaryNest (broadcast a b).length (trailingMap (broadcast a b).length a.length z,
        trailingMap (broadcast a b).length b.length z') f ⟨a, x⟩ ⟨b, y⟩
        ⟨broadcast a b, undef⟩).run = some t ∧ t.Same (broadcastOp f ⟨a, x⟩ ⟨b, y⟩)) ↔
      StretchKept (broadcast a b) [(z, a), (z', b)] := by
  have hst : ∀ o ∈ [(z, a), (z', b)], StretchesTo (Prod.snd o) (broadcast a b) := by
    intro o ho
    simp only [mem_cons, not_mem_nil, or_false] at ho
    obtain rfl | rfl := ho
    · exact hab.stretches_left
    · exact hab.stretches_right
  have hproj : ∀ k < [(z, a), (z', b)].length, ∃ f : α → α → α, ∀ args undef,
      args.length = [(z, a), (z', b)].length → args[k]? = some (binaryBody f args undef) := by
    intro k hk
    refine ⟨if k = 0 then fun x _ => x else fun _ y => y, fun args undef hargs => ?_⟩
    obtain ⟨x, y, rfl⟩ := length_eq_two.1 hargs
    obtain rfl | rfl : k = 0 ∨ k = 1 := by
      simp only [length_cons, length_nil] at hk
      omega
    · rfl
    · rfl
  rw [← stretchNest_right_iff _ hst hproj]
  refine forall_congr' fun f => ⟨fun h elem undef => ?_, fun h x y undef => ?_⟩
  · obtain ⟨t, hrun, hshape, helem⟩ := h (elem 0) (elem 1) undef
    exact ⟨t, hrun, hshape, fun c hc => helem c (hshape ▸ hc)⟩
  · obtain ⟨t, hrun, hshape, helem⟩ := h (fun k => if k = 0 then x else y) undef
    exact ⟨t, hrun, hshape, fun c hc => helem c (hshape ▸ hc)⟩

/-! ### Promotion -/

/-- An operand that can be neither promoted nor passed through. -/
def PromotionRefused (lhsElt rhsElt outElt : EltType) : Prop :=
  outElt.floatWidth = none ∧ ∃ valElt ∈ [lhsElt, rhsElt],
    valElt.floatWidth = none ∧ ¬ (lhsElt = rhsElt ∧ valElt = outElt)
deriving Decidable

/-- An integer operand of an op with a result of floats is converted. -/
def Promoted (outElt valElt : EltType) : Prop :=
  valElt.floatWidth = none ∧ outElt.floatWidth ≠ none
deriving Decidable

def promotedElt (outElt valElt : EltType) : EltType :=
  if Promoted outElt valElt then outElt else valElt

/-- An element of an operand of the body. -/
def promote (cast : EltType → EltType → α → α) (outElt valElt : EltType) (v : α) : α :=
  if Promoted outElt valElt then cast valElt outElt v else v

variable {cast : EltType → EltType → α → α} {lhsElt rhsElt outElt valElt : EltType}
  {ty valType lhsType rhsType resultType : RankedType} {s : List Nat} {x y undef : List Nat → α}
  {rank i : Nat}

theorem dimFrom_eq (hlen : s.length = ty.length) (hi : i < rank) :
    dimFrom rank (ty, s) i =
      if alignedDim rank ty i = some none then some (alignedSize rank s i) else none := by
  by_cases hin : rank ≤ i + ty.length
  · have hidx : (i : Int) - ((rank : Int) - ty.length) = ((i + ty.length - rank : Nat) : Int) := by
      omega
    have hlt : i + ty.length - rank < ty.length := by omega
    have hdim : alignedDim rank ty i = some (ty.getD (i + ty.length - rank) none) := by
      rw [alignedDim, if_pos hin, getElem?_eq_getElem hlt, getD_eq_getElem _ _ hlt]
    simp only [dimFrom, hidx, Int.toNat_natCast, hdim, Option.some.injEq]
    by_cases hopen : ty.getD (i + ty.length - rank) none = none
    · rw [if_pos ⟨by omega, by omega, hopen⟩, if_pos hopen, alignedSize, hlen]
    · rw [if_neg fun h => hopen h.2.2, if_neg hopen]
  · rw [alignedDim, if_neg hin, if_neg (by simp)]
    refine if_neg fun h => hin ?_
    obtain ⟨hlow, -⟩ := h
    change 0 ≤ (i : Int) - ((rank : Int) - ty.length) at hlow
    omega

theorem makeEmpty_self (h : Fits s ty) : makeEmpty ty [(ty, s)] undef = some ⟨s, undef⟩ := by
  refine makeEmpty_singleton_iff.2 ⟨rfl, h, fun i hi => ?_⟩
  obtain ⟨hi, hopen⟩ := mem_openDims.1 hi
  have hdim := @alignedDim_add ty.length ty i le_rfl hi
  rw [Nat.sub_self, Nat.add_zero, hopen] at hdim
  rw [dimFrom_eq h.length_eq hi, if_pos hdim, alignedSize, h.length_eq, Nat.add_sub_cancel]

theorem promoteIfNeeded_eq (cast : EltType → EltType → α → α) (x undef : List Nat → α)
    (h : Fits s valType) (hval : valElt = lhsElt ∨ valElt = rhsElt)
    (hkept : ¬ PromotionRefused lhsElt rhsElt outElt) :
    ∃ t, promoteIfNeeded cast lhsElt rhsElt outElt valElt valType ⟨s, x⟩ undef =
        .ok (promotedElt outElt valElt, t) ∧
      t.Same ⟨s, fun c => promote cast outElt valElt (x c)⟩ := by
  by_cases hprom : Promoted outElt valElt
  · have hbox : loopSizes s.length
        (promoteNest (cast valElt outElt) ⟨s, x⟩ ⟨s, undef⟩).operands = some s :=
      loopSizes_identity s _
    have hin : InBounds s (promoteNest (cast valElt outElt) ⟨s, x⟩ ⟨s, undef⟩).operands := by
      intro o ho p hp
      have hp := mem_points.1 hp
      obtain rfl : o = (identityMap s.length, s) := by
        simpa [promoteNest, LoopNest.operands] using ho
      rwa [identityMap_at hp.length_eq]
    obtain ⟨t, hrun, hshape, helem⟩ : ∃ t, (promoteNest _ _ _).run = some t ∧ t.shape = s ∧
        ∀ c, InShape s c → t.elem c = cast valElt outElt (x ((identityMap s.length).at c)) :=
      LoopNest.run_parallel rfl hbox hin
    refine ⟨t, ?_, hshape, fun c hc => ?_⟩
    · rw [promoteIfNeeded, if_neg (not_not.2 hprom.1), if_neg hprom.2, makeEmpty_self h,
        promotedElt, if_pos hprom]
      show (emit (promoteNest _ _ _).run >>= _) = _
      rw [hrun]
      rfl
    · rw [hshape] at hc
      show t.elem c = promote cast outElt valElt (x c)
      rw [helem c hc, identityMap_at hc.length_eq, promote, if_pos hprom]
  · refine ⟨⟨s, x⟩, ?_, rfl, fun c _ => ?_⟩
    · rw [promotedElt, if_neg hprom, promoteIfNeeded]
      by_cases hfloat : valElt.floatWidth = none
      · have hout : outElt.floatWidth = none := not_not.1 fun h => hprom ⟨hfloat, h⟩
        have hsame : lhsElt = rhsElt ∧ valElt = outElt := not_not.1 fun h =>
          hkept ⟨hout, valElt, by simpa using hval, hfloat, h⟩
        have heq : valElt = lhsElt := by
          rcases hval with h | h
          · exact h
          · exact h.trans hsame.1.symm
        rw [if_neg (not_not.2 hfloat), if_pos hout, if_pos ⟨hsame.2, hsame.1, heq⟩]
      · rw [if_pos hfloat]
    · show x c = promote cast outElt valElt (x c)
      rw [promote, if_neg hprom]

/-! ### Sizes -/

/-- Sizes that fit the types and broadcast against each other. -/
structure BinarySizes (a b : List Nat) (lhsType rhsType resultType : RankedType) : Prop where
  /-- What the type of the result knows is right. -/
  known : Fits (broadcast a b) resultType
  /-- No dim that it leaves open has none of the one operand and one of the other. -/
  merged : ∀ i ∈ openDims resultType,
    (alignedDim resultType.length lhsType i, alignedDim resultType.length rhsType i) ∉
      [(some (some 0), some (some 1)), (some (some 1), some (some 0))]
  /-- The left operand's open sizes and then the right one's are the open sizes of the result. -/
  pushed : ((openDims resultType).filter fun i =>
        alignedDim resultType.length lhsType i = some none).map
          (alignedSize resultType.length a) ++
      ((openDims resultType).filter fun i =>
        alignedDim resultType.length lhsType i ≠ some none ∧
          alignedDim resultType.length rhsType i = some none).map
            (alignedSize resultType.length b) =
    ((openDims resultType).filter fun i =>
      alignedDim resultType.length lhsType i = some none ∨
        alignedDim resultType.length rhsType i = some none).map fun i => (broadcast a b).getD i 0

theorem refineDim_eq_none {inputs : List RankedType} :
    refineDim resultType inputs i = none ↔ resultType.getD i none = none ∧
      ∃ ty ∈ inputs, alignedDim resultType.length ty i = some none := by
  rw [refineDim]
  cases resultType.getD i none with
  | some => simp
  | none => simp

theorem openDims_refine :
    openDims (refineBroadcastType resultType [lhsType, rhsType]) =
      (openDims resultType).filter fun i => alignedDim resultType.length lhsType i = some none ∨
        alignedDim resultType.length rhsType i = some none := by
  rw [openDims, openDims, refineBroadcastType, length_map, length_range, filter_filter]
  refine filter_congr fun i hi => ?_
  rw [getD_map_range _ (mem_range.1 hi), Bool.and_comm, ← Bool.decide_and,
    decide_eq_decide, refineDim_eq_none]
  simp

theorem getD_broadcast (hab : Broadcastable a b) (hi : i < max a.length b.length) :
    ∃ m k, (broadcast a b).getD i 0 = stretched m k ∧ Compatible m k ∧
      m = (if max a.length b.length ≤ i + a.length then
        alignedSize (max a.length b.length) a i else 1) ∧
      k = if max a.length b.length ≤ i + b.length then
        alignedSize (max a.length b.length) b i else 1 := by
  have hpad : ∀ (n : Nat) (s : List Nat), i < n → s.length ≤ n →
      (padShape n s)[i]? = some (if n ≤ i + s.length then alignedSize n s i else 1) := by
    intro n s hi hs
    rw [padShape]
    by_cases hin : n ≤ i + s.length
    · rw [if_pos hin, getElem?_append_right (by rw [length_replicate]; omega),
        length_replicate, alignedSize, show i - (n - s.length) = i + s.length - n by omega,
        getD_eq_getElem _ _ (by omega), getElem?_eq_getElem]
    · rw [if_neg hin, getElem?_append_left (by rw [length_replicate]; omega),
        getElem?_replicate, if_pos (by omega)]
  have ha := hpad _ a hi (Nat.le_max_left _ _)
  have hb := hpad _ b hi (Nat.le_max_right _ _)
  refine ⟨_, _, ?_, ?_, rfl, rfl⟩
  · rw [broadcast, getD_eq_getElem?_getD, getElem?_zipWith, ha, hb]
    rfl
  · obtain ⟨ha', hget⟩ := List.getElem?_eq_some_iff.1 ha
    obtain ⟨hb', hget'⟩ := List.getElem?_eq_some_iff.1 hb
    have hcompat := (forall₂_iff_get.1 hab).2 i ha' hb'
    rwa [get_eq_getElem, get_eq_getElem, hget, hget'] at hcompat

theorem alignedDim_eq (h : Fits s ty) (hi : i < rank) :
    alignedDim rank ty i = none ∧ ¬ rank ≤ i + s.length ∨
      rank ≤ i + s.length ∧ (alignedDim rank ty i = some none ∨
        alignedDim rank ty i = some (some (alignedSize rank s i))) := by
  have hlen := h.length_eq
  by_cases hin : rank ≤ i + ty.length
  · have hlt : i + ty.length - rank < ty.length := by omega
    have hsize := (fits_iff_getD.1 h).2 (i + ty.length - rank) (by omega)
    rw [alignedDim, if_pos hin, getElem?_eq_getElem hlt, alignedSize, hlen,
      and_iff_right hin, ← getD_eq_getElem _ none hlt]
    refine .inr ?_
    cases hty : ty.getD (i + ty.length - rank) none with
    | none => exact .inl rfl
    | some =>
      rw [hty, Option.getD_some] at hsize
      exact .inr (by rw [hsize])
  · exact .inl ⟨if_neg hin, by omega⟩

/-- The refined type is right where the type of the result is, and no dim is 0 against 1. -/
theorem fits_refine_iff (hab : Broadcastable a b) (hlhs : Fits a lhsType) (hrhs : Fits b rhsType)
    (hrank : resultType.length = max a.length b.length) :
    Fits (broadcast a b) (refineBroadcastType resultType [lhsType, rhsType]) ↔
      Fits (broadcast a b) resultType ∧ ∀ i ∈ openDims resultType,
        (alignedDim resultType.length lhsType i, alignedDim resultType.length rhsType i) ∉
          [(some (some 0), some (some 1)), (some (some 1), some (some 0))] := by
  have hlen := length_broadcast a b
  rw [fits_iff_getD, fits_iff_getD, refineBroadcastType, length_map, length_range,
    and_assoc, and_iff_right (by omega), and_iff_right (by omega), hlen]
  -- dim by dim
  have hdim : ∀ i < max a.length b.length,
      (((refineBroadcastType resultType [lhsType, rhsType]).getD i none).getD
          ((broadcast a b).getD i 0) = (broadcast a b).getD i 0 ↔
        (resultType.getD i none).getD ((broadcast a b).getD i 0) = (broadcast a b).getD i 0 ∧
          (resultType.getD i none = none →
            (alignedDim resultType.length lhsType i, alignedDim resultType.length rhsType i) ∉
              [(some (some 0), some (some 1)), (some (some 1), some (some 0))])) := by
    intro i hi
    rw [refineBroadcastType, getD_map_range _ (by omega), refineDim]
    cases resultType.getD i none with
    | some => simp
    | none =>
      obtain ⟨m, k, hout, hcompat, hm, hk⟩ := getD_broadcast hab hi
      rw [hout]
      rw [hrank]
      have hleft := alignedDim_eq hlhs hi
      have hright := alignedDim_eq hrhs hi
      simp only [Option.getD_none, true_and, forall_const]
      obtain ⟨hl, hla⟩ | ⟨hla, hl | hl⟩ := hleft <;>
        obtain ⟨hr, hrb⟩ | ⟨hrb, hr | hr⟩ := hright <;>
        simp only [hl, hr, hla, hrb, if_true, if_false] at hm hk ⊢ <;>
        subst hm hk <;> simp [hl, hr]
      exact max_eq_stretched_iff hcompat
  constructor
  · intro h
    exact ⟨fun i hi => ((hdim i hi).1 (h i hi)).1, fun i hi => by
      obtain ⟨hi, hopen⟩ := mem_openDims.1 hi
      exact ((hdim i (hrank ▸ hi)).1 (h i (hrank ▸ hi))).2 hopen⟩
  · rintro ⟨hknown, hmerged⟩ i hi
    exact (hdim i hi).2 ⟨hknown i hi, fun hopen =>
      hmerged i (mem_openDims.2 ⟨hrank ▸ hi, hopen⟩)⟩

theorem foldl_fillDim_range {shaped : RankedType} (hlen : s.length = ty.length)
    (filled : List (Nat × Nat)) :
    (range shaped.length).foldl (fillDim shaped (ty, s)) filled =
      filled ++ ((openDims shaped).filter fun i => i ∉ filled.map Prod.fst ∧
        alignedDim shaped.length ty i = some none).map fun i =>
          (i, alignedSize shaped.length s i) := by
  have hcond : (range shaped.length).filter (fun i => shaped.getD i none = none ∧
      i ∉ filled.map Prod.fst ∧ (dimFrom shaped.length (ty, s) i).isSome) =
      (openDims shaped).filter fun i => i ∉ filled.map Prod.fst ∧
        alignedDim shaped.length ty i = some none := by
    rw [openDims, filter_filter]
    refine filter_congr fun i hi => ?_
    rw [dimFrom_eq hlen (mem_range.1 hi)]
    by_cases hopen : alignedDim shaped.length ty i = some none
    · simp [hopen, Bool.and_comm]
    · simp [hopen]
  rw [foldl_fillDim nodup_range, hcond]
  refine congrArg (filled ++ ·) (map_congr_left fun i hi => ?_)
  obtain ⟨hi, hkept⟩ := mem_filter.1 hi
  rw [dimFrom_eq hlen (mem_openDims.1 hi).1, if_pos (of_decide_eq_true hkept).2, Option.getD_some]

theorem fillDims_pair (shaped : RankedType) (ha : a.length = lhsType.length)
    (hb : b.length = rhsType.length) :
    fillDims shaped [(lhsType, a), (rhsType, b)] =
      ((openDims shaped).filter fun i => alignedDim shaped.length lhsType i = some none).map
          (fun i => (i, alignedSize shaped.length a i)) ++
        ((openDims shaped).filter fun i => alignedDim shaped.length lhsType i ≠ some none ∧
          alignedDim shaped.length rhsType i = some none).map
            fun i => (i, alignedSize shaped.length b i) := by
  show (range shaped.length).foldl (fillDim shaped (rhsType, b))
    ((range shaped.length).foldl (fillDim shaped (lhsType, a)) []) = _
  rw [foldl_fillDim_range ha, nil_append, foldl_fillDim_range hb]
  have hfilled : ∀ i ∈ openDims shaped, i ∈ (((openDims shaped).filter fun i =>
      i ∉ ([] : List (Nat × Nat)).map Prod.fst ∧
        alignedDim shaped.length lhsType i = some none).map fun i =>
          (i, alignedSize shaped.length a i)).map Prod.fst ↔
      alignedDim shaped.length lhsType i = some none := fun i hi => by
    simp [Function.comp_def, hi]
  congr 1
  · simp
  · refine congrArg (map _) (filter_congr fun i hi => ?_)
    simp only [hfilled i hi]

/-- The new tensor has the broadcast shape exactly where the sizes are found. -/
theorem binarySizes_iff (hab : Broadcastable a b) (hlhs : Fits a lhsType) (hrhs : Fits b rhsType)
    (hrank : resultType.length = max a.length b.length) :
    fillShape (refineBroadcastType resultType [lhsType, rhsType])
        (dynSizes (refineBroadcastType resultType [lhsType, rhsType])
          [(lhsType, a), (rhsType, b)]) = some (broadcast a b) ↔
      BinarySizes a b lhsType rhsType resultType := by
  have hlen : (refineBroadcastType resultType [lhsType, rhsType]).length = resultType.length := by
    rw [refineBroadcastType, length_map, length_range]
  have hpair := fillDims_pair (refineBroadcastType resultType [lhsType, rhsType])
    hlhs.length_eq hrhs.length_eq
  rw [hlen, openDims_refine, filter_filter, filter_filter] at hpair
  have hleft : (fun i => decide (alignedDim resultType.length lhsType i = some none) &&
      decide (alignedDim resultType.length lhsType i = some none ∨
        alignedDim resultType.length rhsType i = some none)) =
      fun i => decide (alignedDim resultType.length lhsType i = some none) := by
    funext i
    by_cases h : alignedDim resultType.length lhsType i = some none <;> simp [h]
  have hright : (fun i => decide (alignedDim resultType.length lhsType i ≠ some none ∧
        alignedDim resultType.length rhsType i = some none) &&
      decide (alignedDim resultType.length lhsType i = some none ∨
        alignedDim resultType.length rhsType i = some none)) =
      fun i => decide (alignedDim resultType.length lhsType i ≠ some none ∧
        alignedDim resultType.length rhsType i = some none) := by
    funext i
    by_cases h : alignedDim resultType.length lhsType i = some none <;> simp [h]
  rw [hleft, hright] at hpair
  rw [fillShape_eq_some, dynSizes_eq_iff, fits_refine_iff hab hlhs hrhs hrank, openDims_refine,
    hpair]
  -- no dim that stays open is left without a size
  have hall : ∀ i ∈ (openDims resultType).filter (fun i =>
      alignedDim resultType.length lhsType i = some none ∨
        alignedDim resultType.length rhsType i = some none),
      i ∈ (((openDims resultType).filter fun i =>
          alignedDim resultType.length lhsType i = some none).map
            (fun i => (i, alignedSize resultType.length a i)) ++
        ((openDims resultType).filter fun i =>
          alignedDim resultType.length lhsType i ≠ some none ∧
            alignedDim resultType.length rhsType i = some none).map
              fun i => (i, alignedSize resultType.length b i)).map Prod.fst := by
    intro i hi
    obtain ⟨hi, hopen⟩ := mem_filter.1 hi
    by_cases h : alignedDim resultType.length lhsType i = some none
    · simp [Function.comp_def, hi, h]
    · simpa [Function.comp_def, hi, h] using hopen
  rw [and_iff_right hall, map_append, map_map, map_map]
  exact ⟨fun h => ⟨h.1.1, h.1.2, h.2⟩, fun h => ⟨⟨h.known, h.merged⟩, h.pushed⟩⟩

/-! ### `SfBinaryLowering` -/

variable {f : α → α → α} {hasInt : Bool}

theorem promoteIfNeeded_refused {val : Tensor α} (hint : valElt.floatWidth = none)
    (hout : outElt.floatWidth = none) (h : ¬ (lhsElt = rhsElt ∧ valElt = outElt)) :
    promoteIfNeeded cast lhsElt rhsElt outElt valElt valType val undef = .error .noMatch := by
  rw [promoteIfNeeded, if_neg (not_not.2 hint), if_pos hout, if_neg fun h' => h ⟨h'.2.1, h'.1⟩]

theorem promoteIfNeeded_int (cast : EltType → EltType → α → α) (lhsElt rhsElt valElt : EltType)
    (valType : RankedType) (val : Tensor α) (undef : List Nat → α)
    (hout : outElt.floatWidth = none) :
    promoteIfNeeded cast lhsElt rhsElt outElt valElt valType val undef = .ok (valElt, val) ∨
      promoteIfNeeded cast lhsElt rhsElt outElt valElt valType val undef = .error .noMatch := by
  rw [promoteIfNeeded, if_pos hout]
  split
  · exact .inl rfl
  · split
    · exact .inl rfl
    · exact .inr rfl

theorem lowerBinary_eq (hlhs : Fits a lhsType) (hrhs : Fits b rhsType)
    (hrank : resultType.length = max a.length b.length)
    (hkept : ¬ PromotionRefused lhsElt rhsElt outElt) :
    lowerBinary cast f hasInt lhsElt rhsElt outElt lhsType rhsType resultType ⟨a, x⟩ ⟨b, y⟩ undef =
      emit ((fillShape (refineBroadcastType resultType [lhsType, rhsType])
          (dynSizes (refineBroadcastType resultType [lhsType, rhsType])
            [(lhsType, a), (rhsType, b)])).bind fun shape =>
        if BodyTyped hasInt outElt (promotedElt outElt lhsElt) (promotedElt outElt rhsElt) then
          (binaryNest resultType.length
            (trailingMap resultType.length a.length fun j => lhsType.getD j none = some 1,
              trailingMap resultType.length b.length fun j => rhsType.getD j none = some 1) f
            ⟨a, fun c => promote cast outElt lhsElt (x c)⟩
            ⟨b, fun c => promote cast outElt rhsElt (y c)⟩ ⟨shape, undef⟩).run
        else none) := by
  have hlen := hlhs.length_eq
  have hlen' := hrhs.length_eq
  obtain ⟨lhs, hl, hsl⟩ := promoteIfNeeded_eq cast x undef hlhs (.inl rfl) hkept
  obtain ⟨rhs, hr, hsr⟩ := promoteIfNeeded_eq cast y undef hrhs (.inr rfl) hkept
  rw [lowerBinary, if_neg (by omega), hl]
  show (promoteIfNeeded _ _ _ _ _ _ _ _ >>= _) = _
  rw [hr]
  show (emit (makeEmpty _ [(lhsType, lhs.shape), (rhsType, rhs.shape)] undef) >>= _) = _
  rw [hsl.1, hsr.1, makeEmpty]
  cases fillShape (refineBroadcastType resultType [lhsType, rhsType])
      (dynSizes (refineBroadcastType resultType [lhsType, rhsType])
        [(lhsType, a), (rhsType, b)]) with
  | none => rfl
  | some shape =>
    show (if _ then emit (binaryNest _ _ f lhs rhs ⟨shape, undef⟩).run else _) =
      emit (if _ then _ else _)
    by_cases htyped :
      BodyTyped hasInt outElt (promotedElt outElt lhsElt) (promotedElt outElt rhsElt)
    · rw [if_pos htyped, if_pos htyped, broadcastMap_eq_trailingMap (by omega),
        broadcastMap_eq_trailingMap (by omega), hlen, hlen']
      refine congrArg emit ?_
      exact LoopNest.run_congr (g := binaryNest resultType.length ([], []) f lhs rhs ⟨shape, undef⟩)
        (.cons ⟨rfl, hsl⟩ (.cons ⟨rfl, hsr⟩ .nil))
    · rw [if_neg htyped, if_neg htyped]
      rfl

theorem lowerBinary_right_iff [Nontrivial α] (hab : Broadcastable a b) (hlhs : Fits a lhsType)
    (hrhs : Fits b rhsType) (hrank : resultType.length = max a.length b.length) :
    (∀ (cast : EltType → EltType → α → α) (f : α → α → α) (x y undef : List Nat → α),
      (lowerBinary cast f hasInt lhsElt rhsElt outElt lhsType rhsType resultType
          ⟨a, x⟩ ⟨b, y⟩ undef).Gives fun t =>
        t.Same (broadcastOp f ⟨a, fun c => promote cast outElt lhsElt (x c)⟩
          ⟨b, fun c => promote cast outElt rhsElt (y c)⟩)) ↔
      PromotionRefused lhsElt rhsElt outElt ∨
        BodyTyped hasInt outElt (promotedElt outElt lhsElt) (promotedElt outElt rhsElt) ∧
          BinarySizes a b lhsType rhsType resultType ∧
          StretchKept (broadcast a b) [(fun j => lhsType.getD j none = some 1, a),
            (fun j => rhsType.getD j none = some 1, b)] := by
  by_cases hkept : PromotionRefused lhsElt rhsElt outElt
  · -- the pattern does not apply
    refine iff_of_true (fun cast f x y undef => ?_) (.inl hkept)
    have hrefused : lowerBinary cast f hasInt lhsElt rhsElt outElt lhsType rhsType resultType
        ⟨a, x⟩ ⟨b, y⟩ undef = .error .noMatch := by
      have hlen := hlhs.length_eq
      have hlen' := hrhs.length_eq
      obtain ⟨hout, valElt, hval, hint, hne⟩ := hkept
      have hlhsCase := promoteIfNeeded_int cast lhsElt rhsElt lhsElt lhsType ⟨a, x⟩ undef hout
      rw [lowerBinary, if_neg (by omega)]
      obtain hl | hl := hlhsCase
      · rw [hl]
        show (promoteIfNeeded _ _ _ _ rhsElt _ _ _ >>= _) = _
        obtain rfl | rfl : valElt = lhsElt ∨ valElt = rhsElt := by simpa using hval
        · rw [promoteIfNeeded_refused hint hout hne] at hl
          cases hl
        · rw [promoteIfNeeded_refused hint hout hne]
          rfl
      · rw [hl]
        rfl
    rw [hrefused]
    exact Lowered.gives_noMatch
  · rw [or_iff_right hkept]
    simp only [lowerBinary_eq hlhs hrhs hrank hkept, Lowered.gives_emit]
    have hlen : resultType.length = (broadcast a b).length := by rw [length_broadcast, hrank]
    obtain ⟨v⟩ : Nonempty α := inferInstance
    rw [← binarySizes_iff hab hlhs hrhs hrank]
    by_cases htyped :
      BodyTyped hasInt outElt (promotedElt outElt lhsElt) (promotedElt outElt rhsElt)
    · simp only [if_pos htyped, and_iff_right htyped]
      by_cases hfill : fillShape (refineBroadcastType resultType [lhsType, rhsType])
          (dynSizes (refineBroadcastType resultType [lhsType, rhsType])
            [(lhsType, a), (rhsType, b)]) = some (broadcast a b)
      · rw [and_iff_right hfill, hfill, hlen, ← binaryNest_right_iff (α := α) hab]
        constructor
        · intro h f x y undef
          have hid := h (fun _ _ v => v) f x y undef
          simp only [promote, ite_self] at hid
          exact hid
        · exact fun h cast f x y undef => h f _ _ undef
      · refine iff_of_false (fun h => hfill ?_) fun h => hfill h.1
        obtain ⟨t, ht, hsame⟩ :=
          h (fun _ _ v => v) (fun x _ => x) (fun _ => v) (fun _ => v) fun _ => v
        exact eq_some_of_run (fun _ => rfl) ⟨t, ht, hsame.1⟩
    · refine iff_of_false (fun h => ?_) fun h => htyped h.1
      obtain ⟨t, ht, -⟩ := h (fun _ _ v => v) (fun x _ => x) (fun _ => v) (fun _ => v) fun _ => v
      simp [htyped] at ht

/-! ### `makeBinaryOp` -/

/-- The shape of the result is found where the loop over the sizes looks. -/
structure LookedSizes (a b : List Nat) (lhsType rhsType outType : RankedType) : Prop where
  /-- What the type of the result knows is right. -/
  known : Fits (broadcast a b) outType
  /-- The first dim that is looked at and open has the size; where none is open, the largest. -/
  found : ∀ i ∈ openDims outType,
    let looked := [(lhsType, a), (rhsType, b)].filterMap (lookedDim outType i)
    match looked.find? (·.1 = none) with
    | some d => d.2 = (broadcast a b).getD i 0
    | none => (looked.filterMap Prod.fst).max? = some ((broadcast a b).getD i 0)

theorem filterMap_eq_map_filter_iff {β γ : Type} {l : List β} {g : β → Option γ} {p : β → Bool}
    {o : β → γ} (h : ∀ i, (g i).isSome → p i) :
    l.filterMap g = (l.filter p).map o ↔ ∀ i ∈ l, p i → g i = some (o i) := by
  have hle : ∀ l : List β, (l.filterMap g).length ≤ (l.filter p).length := by
    intro l
    rw [← countP_eq_length_filter, length_filterMap_eq_countP]
    exact countP_mono_left fun i _ hi => h i hi
  induction l with
  | nil => simp
  | cons i l ih =>
    rw [forall_mem_cons, and_congr_right' ih.symm]
    by_cases hp : p i
    · rw [filter_cons_of_pos hp, map_cons, filterMap_cons]
      cases hg : g i with
      | none =>
        -- one size too few
        refine iff_of_false (fun heq => ?_) fun hall => by simpa using hall.1 hp
        have hlen : (l.filterMap g).length = (l.filter p).length + 1 := by
          simpa using congrArg length heq
        have := hle l
        omega
      | some => simp [hp]
    · have hg : g i = none := Option.not_isSome_iff_eq_none.1 fun hs => hp (h i hs)
      rw [filter_cons_of_neg hp, filterMap_cons, hg]
      simp [hp]

theorem binaryDim_cases (outType : RankedType) (operands : List (RankedType × List Nat))
    (i n : Nat) :
    ((binaryDim outType operands i).2.isSome → (binaryDim outType operands i).1 = none) ∧
      ((((binaryDim outType operands i).1.getD n = n) ∧ ((binaryDim outType operands i).1 = none →
            (binaryDim outType operands i).2 = some n)) ↔
        match (operands.filterMap (lookedDim outType i)).find? (·.1 = none) with
        | some d => d.2 = n
        | none => ((operands.filterMap (lookedDim outType i)).filterMap Prod.fst).max? =
          some n) := by
  simp only [binaryDim]
  generalize (operands.filterMap (lookedDim outType i)).find? (·.1 = none) = first
  cases first with
  | some => simp
  | none =>
    generalize ((operands.filterMap (lookedDim outType i)).filterMap Prod.fst).max? = largest
    cases largest <;> simp

theorem lookedSizes_iff {outType : RankedType} (hrank : outType.length = max a.length b.length) :
    fillShape ((range outType.length).map fun i =>
          match outType.getD i none with
          | some n => some n
          | none => (binaryDim outType [(lhsType, a), (rhsType, b)] i).1)
        (((openDims outType).filterMap fun i =>
          (binaryDim outType [(lhsType, a), (rhsType, b)] i).2).map Int.ofNat) =
        some (broadcast a b) ↔
      LookedSizes a b lhsType rhsType outType := by
  have hlen := length_broadcast a b
  have hopenDims : openDims ((range outType.length).map fun i =>
      match outType.getD i none with
      | some n => some n
      | none => (binaryDim outType [(lhsType, a), (rhsType, b)] i).1) =
      (openDims outType).filter fun i =>
        (binaryDim outType [(lhsType, a), (rhsType, b)] i).1 = none := by
    rw [openDims, openDims, length_map, length_range, filter_filter]
    refine filter_congr fun i hi => ?_
    rw [getD_map_range _ (mem_range.1 hi)]
    cases outType.getD i none <;> simp
  have hsizes : ((openDims outType).filterMap fun i =>
        (binaryDim outType [(lhsType, a), (rhsType, b)] i).2).map Int.ofNat =
      ((openDims outType).filter fun i =>
        (binaryDim outType [(lhsType, a), (rhsType, b)] i).1 = none).map
          (fun i => ((broadcast a b).getD i 0 : Int)) ↔
      ∀ i ∈ openDims outType, (binaryDim outType [(lhsType, a), (rhsType, b)] i).1 = none →
        (binaryDim outType [(lhsType, a), (rhsType, b)] i).2 = some ((broadcast a b).getD i 0) := by
    have hcast : ∀ l : List Nat, l.map (fun i => ((broadcast a b).getD i 0 : Int)) =
        (l.map fun i => (broadcast a b).getD i 0).map Int.ofNat := fun l => by
      rw [map_map]
      rfl
    rw [hcast, (map_injective_iff.2 fun _ _ => Int.ofNat.inj).eq_iff, filterMap_eq_map_filter_iff]
    · simp
    · exact fun i hi => decide_eq_true ((binaryDim_cases _ _ i 0).1 hi)
  rw [fillShape_eq_some, hopenDims, hsizes, fits_iff_getD, length_map, length_range,
    and_assoc, and_iff_right (by omega), hlen]
  -- an open dim is refined to its size, or its size is pushed
  have hdim := fun i => (binaryDim_cases outType [(lhsType, a), (rhsType, b)] i
    ((broadcast a b).getD i 0)).2
  constructor
  · rintro ⟨hfits, hpushed⟩
    refine ⟨fits_iff_getD.2 ⟨by omega, fun i hi => ?_⟩, fun i hi => (hdim i).1 ⟨?_, hpushed i hi⟩⟩
    · have := hfits i (hlen ▸ hi)
      rw [getD_map_range _ (by omega)] at this
      cases hty : outType.getD i none with
      | none => rfl
      | some =>
        rw [hty] at this
        exact this
    · obtain ⟨hi, hopen⟩ := mem_openDims.1 hi
      have := hfits i (hrank ▸ hi)
      rwa [getD_map_range _ hi, hopen] at this
  · intro h
    refine ⟨fun i hi => ?_, fun i hi => ((hdim i).2 (h.found i hi)).2⟩
    rw [getD_map_range _ (by omega)]
    have hknown := getD_of_fits h.known i
    cases hty : outType.getD i none with
    | none => exact ((hdim i).2 (h.found i (mem_openDims.2 ⟨by omega, hty⟩))).1
    | some => rwa [hty] at hknown

theorem makeBinaryOp_right_iff [Nontrivial α] (hab : Broadcastable a b) (hlhs : Fits a lhsType)
    (hrhs : Fits b rhsType) {outType : RankedType}
    (hrank : outType.length = max a.length b.length) :
    (∀ (f : α → α → α) (x y undef : List Nat → α), ∃ t,
      makeBinaryOp outType lhsType rhsType f ⟨a, x⟩ ⟨b, y⟩ undef = some t ∧
        t.Same (broadcastOp f ⟨a, x⟩ ⟨b, y⟩)) ↔
      LookedSizes a b lhsType rhsType outType ∧
        StretchKept (broadcast a b) [(atZeroOf oneGrows outType lhsType, a),
          (atZeroOf oneGrows outType rhsType, b)] := by
  have hlen : outType.length = (broadcast a b).length := by rw [length_broadcast, hrank]
  have hl := hlhs.length_eq
  have hr := hrhs.length_eq
  obtain ⟨v⟩ : Nonempty α := inferInstance
  simp only [makeBinaryOp]
  rw [← lookedSizes_iff hrank, alignedMap_eq_trailingMap _ (by omega),
    alignedMap_eq_trailingMap _ (by omega), ← hl, ← hr]
  by_cases hfill : fillShape ((range outType.length).map fun i =>
      match outType.getD i none with
      | some n => some n
      | none => (binaryDim outType [(lhsType, a), (rhsType, b)] i).1)
    (((openDims outType).filterMap fun i =>
      (binaryDim outType [(lhsType, a), (rhsType, b)] i).2).map Int.ofNat) = some (broadcast a b)
  · simp only [hfill, Option.bind_some, true_and]
    rw [hlen, ← binaryNest_right_iff (α := α) hab]
  · refine iff_of_false (fun h => hfill ?_) fun h => hfill h.1
    obtain ⟨t, ht, hsame⟩ := h (fun x _ => x) (fun _ => v) (fun _ => v) fun _ => v
    exact eq_some_of_run (fun _ => rfl) ⟨t, ht, hsame.1⟩

end Two

section Expand

/-- What an expand means. -/
def expanded (t : Tensor α) (out : List Nat) : Tensor α :=
  ⟨out, fun c => t.elem (restrict t.shape c)⟩

/-- The target of an expand, its symbolic sizes taken in order. -/
structure LegalTarget (target : List ShapeEntry) (dynShape s out : List Nat) : Prop where
  stretches : StretchesTo s out
  /-- Every dim has a size, keeps the size of the input, or has that of its operand. -/
  entries : ∀ i < out.length, match target[i]? with
    | some (.int v) => v = out.getD i 0 ∨
        v = -1 ∧ out.length ≤ i + s.length ∧ alignedSize out.length s i = out.getD i 0
    | some .str => dynShape[(target.take i).count .str]? = some (out.getD i 0)
    | _ => False

/-- The symbolic entries in front of the dim `i`, at dims that the result leaves open. -/
def openSymbols (outType : RankedType) (target : List ShapeEntry) (i : Nat) : Nat :=
  (range i).countP fun k => outType.getD k none = none ∧ target[k]? = some .str

/-- A dim is kept by an open dim or is 1, and a symbolic entry finds its own operand. -/
def ExpandSizes (inType outType : RankedType) (target : List ShapeEntry)
    (dynShape out : List Nat) : Prop :=
  ∀ i ∈ openDims outType, (target[i]? = some (.int (-1)) →
      alignedDim outType.length inType i = some none ∨ out.getD i 0 = 1) ∧
    (target[i]? = some .str → dynShape[openSymbols outType target i]? = some (out.getD i 0))

def pushedSize (inType outType : RankedType) (target : List ShapeEntry) (dynShape s : List Nat)
    (i : Nat) : Int :=
  match target[i]? with
  | some .str => dynShape.getD (openSymbols outType target i) 0
  | some (.int val) =>
    if val = -1 then
      if alignedDim outType.length inType i = some none then alignedSize outType.length s i else 1
    else val
  | _ => 0

variable {inType outType : RankedType} {target : List ShapeEntry} {dynShape s out : List Nat}
  {x undef : List Nat → α} {i : Nat}

theorem openSymbols_succ : openSymbols outType target (i + 1) = openSymbols outType target i +
    if outType.getD i none = none ∧ target[i]? = some .str then 1 else 0 := by
  rw [openSymbols, range_succ, countP_append, countP_singleton, openSymbols]
  simp

theorem openSymbols_le (outType : RankedType) (target : List ShapeEntry) (i : Nat) :
    openSymbols outType target i ≤ (target.take i).count .str := by
  induction i with
  | zero => simp [openSymbols]
  | succ i ih =>
    rw [openSymbols_succ, take_add_one, count_append]
    by_cases h : target[i]? = some .str
    · rw [h]
      simp only [Option.toList_some, count_singleton_self]
      split <;> omega
    · rw [if_neg fun h' => h h'.2]
      omega

theorem LegalTarget.openSymbols_lt (h : LegalTarget target dynShape s out) (outType : RankedType)
    (hi : i < out.length) (hstr : target[i]? = some .str) :
    openSymbols outType target i < dynShape.length := by
  have hentry := h.entries i hi
  rw [hstr] at hentry
  have hlt := (List.getElem?_eq_some_iff.1 hentry).1
  have := openSymbols_le outType target i
  omega

/-- The sizes from the dim `i` on, where the operands of the dims in front are taken. -/
theorem expandSizes_eq (inType : RankedType) (h : LegalTarget target dynShape s out)
    {ty : RankedType} {i : Nat}
    (hty : outType.drop i = ty) (hlen : outType.length = out.length) :
    expandSizes outType.length inType s (some target) i ty
        (dynShape.drop (openSymbols outType target i)) =
      .ok (((range' i ty.length).filter fun k => outType.getD k none = none).map
        (pushedSize inType outType target dynShape s)) := by
  induction ty generalizing i with
  | nil => rfl
  | cons d ty ih =>
    have hi : i < outType.length := by
      have := congrArg length hty
      rw [length_drop, length_cons] at this
      omega
    rw [drop_eq_getElem_cons hi, List.cons.injEq] at hty
    obtain ⟨hd, hty⟩ := hty
    have hget : outType.getD i none = d := by rw [getD_eq_getElem _ _ hi, hd]
    have hnext := ih hty
    have hskip : ¬ (outType.getD i none = none ∧ target[i]? = some .str) →
        openSymbols outType target (i + 1) = openSymbols outType target i := fun hnot => by
      rw [openSymbols_succ, if_neg hnot, add_zero]
    rw [length_cons, range'_succ]
    cases d with
    | some =>
      rw [hskip (by rw [hget]; simp)] at hnext
      rw [filter_cons_of_neg (by rw [hget]; simp)]
      exact hnext
    | none =>
      rw [filter_cons_of_pos (by rw [hget]; simp), map_cons]
      have hentry := h.entries i (hlen ▸ hi)
      cases htarget : target[i]? with
      | none => simp [htarget] at hentry
      | some e =>
        rw [htarget] at hentry
        cases e with
        | int =>
          rw [hskip (by rw [htarget]; simp)] at hnext
          simp only [expandSizes, Option.bind_some, htarget, pushedSize]
          rw [hnext]
          rfl
        | str =>
          have hlt := h.openSymbols_lt outType (hlen ▸ hi) htarget
          rw [openSymbols_succ, if_pos ⟨hget, htarget⟩] at hnext
          rw [drop_eq_getElem_cons hlt]
          simp only [expandSizes, Option.bind_some, htarget, pushedSize, getD_eq_getElem _ _ hlt]
          rw [hnext]
          rfl
        | other => exact hentry.elim

theorem pushedSize_eq_iff (h : LegalTarget target dynShape s out)
    (hlen : outType.length = out.length) (hi : i < out.length) :
    pushedSize inType outType target dynShape s i = (out.getD i 0 : Int) ↔
      (target[i]? = some (.int (-1)) →
        alignedDim outType.length inType i = some none ∨ out.getD i 0 = 1) ∧
      (target[i]? = some .str → dynShape[openSymbols outType target i]? = some (out.getD i 0)) := by
  have hentry := h.entries i hi
  rw [pushedSize]
  cases htarget : target[i]? with
  | none => simp [htarget] at hentry
  | some e =>
    rw [htarget] at hentry
    cases e with
    | int val =>
      by_cases hkeep : val = -1
      · -- the input has the size, and 1 is pushed where its type says so
        subst hkeep
        have hsize : alignedSize outType.length s i = out.getD i 0 := by
          rw [hlen]
          obtain hneg | ⟨-, -, hsize⟩ := hentry
          · omega
          · exact hsize
        by_cases hopen : alignedDim outType.length inType i = some none
        · simp [hopen, hsize]
        · simp only [hopen, if_true, if_false, false_or, Option.some.injEq, true_implies]
          simp
          omega
      · have hsize : val = out.getD i 0 := by
          obtain hsize | ⟨hneg, -⟩ := hentry
          · exact hsize
          · exact absurd hneg hkeep
        simp [hsize]
    | str =>
      have hlt := h.openSymbols_lt outType hi htarget
      rw [getElem?_eq_getElem hlt, getD_eq_getElem _ _ hlt]
      simp
    | other => exact hentry.elim

theorem lowerExpand_right_iff [Nontrivial α] (hin : Fits s inType)
    (h : LegalTarget target dynShape s out) (hrank : outType.length = out.length) :
    (∀ x undef : List Nat → α,
      (lowerExpand inType outType (some target) dynShape ⟨s, x⟩ undef).Gives
        fun t => t.Same (expanded ⟨s, x⟩ out)) ↔
      Fits out outType ∧ ExpandSizes inType outType target dynShape out ∧
        StretchKept out [(atZeroOf expandGrows outType inType, s)] := by
  have hlen := hin.length_eq
  have hle := h.stretches.1
  obtain ⟨v⟩ : Nonempty α := inferInstance
  have hsizes : expandSizes outType.length inType s (some target) 0 outType dynShape =
      .ok ((openDims outType).map (pushedSize inType outType target dynShape s)) := by
    have hrun := expandSizes_eq inType h (drop_zero (l := outType)) hrank
    rwa [openSymbols, range_zero, countP_nil, drop_zero, ← range_eq_range'] at hrun
  have hpushed : (openDims outType).map (pushedSize inType outType target dynShape s) =
      (openDims outType).map (fun i => (out.getD i 0 : Int)) ↔
      ExpandSizes inType outType target dynShape out := by
    rw [map_inj_left]
    exact forall₂_congr fun i hi =>
      pushedSize_eq_iff h hrank (hrank ▸ (mem_openDims.1 hi).1)
  rw [← and_assoc, ← hpushed, ← fillShape_eq_some]
  have hlower : ∀ x undef : List Nat → α,
      lowerExpand inType outType (some target) dynShape ⟨s, x⟩ undef =
        emit ((fillShape outType ((openDims outType).map
            (pushedSize inType outType target dynShape s))).bind fun shape =>
          LoopNest.run ⟨outType.length, [(trailingMap outType.length s.length
            (atZeroOf expandGrows outType inType), ⟨s, x⟩)], identityMap outType.length,
            ⟨shape, undef⟩, fun args out => args.headD out⟩) := by
    intro x undef
    rw [lowerExpand, hsizes, alignedMap_eq_trailingMap _ (by omega), ← hlen]
    show (emit (fillShape outType _) >>= _) = _
    cases fillShape outType
        ((openDims outType).map (pushedSize inType outType target dynShape s)) <;> rfl
  simp only [hlower, Lowered.gives_emit]
  by_cases hfill : fillShape outType
      ((openDims outType).map (pushedSize inType outType target dynShape s)) = some out
  · simp only [hfill, Option.bind_some, true_and]
    rw [hrank, ← stretchNest_right_iff (α := α) (fun (_ : Unit) args out => args.headD out)
      (by simpa using h.stretches) fun k hk => ⟨(), fun args undef hargs => by
        obtain ⟨v, rfl⟩ := length_eq_one_iff.1 hargs
        obtain rfl : k = 0 := by simpa using hk
        rfl⟩]
    constructor
    · intro hall _ elem undef
      obtain ⟨t, hrun, hshape, helem⟩ := hall (elem 0) undef
      exact ⟨t, hrun, hshape, fun c hc => helem c (hshape ▸ hc)⟩
    · intro hall x undef
      obtain ⟨t, hrun, hshape, helem⟩ := hall () (fun _ => x) undef
      exact ⟨t, hrun, hshape, fun c hc => helem c (hshape ▸ hc)⟩
  · refine iff_of_false (fun hall => hfill ?_) fun hall => hfill hall.1
    obtain ⟨t, ht, hsame⟩ := hall (fun _ => v) fun _ => v
    exact eq_some_of_run (fun _ => rfl) ⟨t, ht, hsame.1⟩

end Expand

/-! ## The three ops -/

/-- The three lowerings compute the broadcast exactly where sizes are found and reads are right. -/
theorem broadcast_right_iff [Nontrivial α] :
    (∀ (a b : List Nat) (lhsType rhsType resultType : RankedType), Broadcastable a b →
      Fits a lhsType → Fits b rhsType → resultType.length = max a.length b.length →
      (∀ (hasInt : Bool) (lhsElt rhsElt outElt : EltType),
        (∀ (cast : EltType → EltType → α → α) (f : α → α → α) (x y undef : List Nat → α),
          (lowerBinary cast f hasInt lhsElt rhsElt outElt lhsType rhsType resultType
              ⟨a, x⟩ ⟨b, y⟩ undef).Gives fun t =>
            t.Same (broadcastOp f ⟨a, fun c => promote cast outElt lhsElt (x c)⟩
              ⟨b, fun c => promote cast outElt rhsElt (y c)⟩)) ↔
          PromotionRefused lhsElt rhsElt outElt ∨
            BodyTyped hasInt outElt (promotedElt outElt lhsElt) (promotedElt outElt rhsElt) ∧
              BinarySizes a b lhsType rhsType resultType ∧
              StretchKept (broadcast a b) [(fun j => lhsType.getD j none = some 1, a),
                (fun j => rhsType.getD j none = some 1, b)]) ∧
      ((∀ (f : α → α → α) (x y undef : List Nat → α), ∃ t,
          makeBinaryOp resultType lhsType rhsType f ⟨a, x⟩ ⟨b, y⟩ undef = some t ∧
            t.Same (broadcastOp f ⟨a, x⟩ ⟨b, y⟩)) ↔
        LookedSizes a b lhsType rhsType resultType ∧
          StretchKept (broadcast a b) [(atZeroOf oneGrows resultType lhsType, a),
            (atZeroOf oneGrows resultType rhsType, b)])) ∧
    ∀ (inType outType : RankedType) (target : List ShapeEntry) (dynShape s out : List Nat),
      Fits s inType → LegalTarget target dynShape s out → outType.length = out.length →
      ((∀ x undef : List Nat → α,
          (lowerExpand inType outType (some target) dynShape ⟨s, x⟩ undef).Gives
            fun t => t.Same (expanded ⟨s, x⟩ out)) ↔
        Fits out outType ∧ ExpandSizes inType outType target dynShape out ∧
          StretchKept out [(atZeroOf expandGrows outType inType, s)]) :=
  ⟨fun _ _ _ _ _ hab hlhs hrhs hrank =>
    ⟨fun _ _ _ _ => lowerBinary_right_iff hab hlhs hrhs hrank,
      makeBinaryOp_right_iff hab hlhs hrhs hrank⟩,
    fun _ _ _ _ _ _ hin h hrank => lowerExpand_right_iff hin h hrank⟩

/-- A column against a row whose length is open, and the column expanded to three columns. -/
theorem broadcast_right_iff_column :
    (∀ (cast : EltType → EltType → Int → Int) (f : Int → Int → Int) (x y undef : List Nat → Int),
      (lowerBinary cast f true (.int 64) .f32 .f32 [some 2, some 1] [none] [some 2, none]
          ⟨[2, 1], x⟩ ⟨[3], y⟩ undef).Gives fun t =>
        t.Same (broadcastOp f ⟨[2, 1], fun c => promote cast .f32 (.int 64) (x c)⟩
          ⟨[3], fun c => promote cast .f32 .f32 (y c)⟩)) ∧
      (∀ (f : Int → Int → Int) (x y undef : List Nat → Int), ∃ t,
        makeBinaryOp [some 2, none] [some 2, some 1] [some 2, none] f ⟨[2, 1], x⟩
          ⟨[2, 3], y⟩ undef =
          some t ∧ t.Same (broadcastOp f ⟨[2, 1], x⟩ ⟨[2, 3], y⟩)) ∧
      ∀ x undef : List Nat → Int,
        (lowerExpand [none, some 1] [none, none] (some [.int (-1), .str]) [3]
          ⟨[2, 1], x⟩ undef).Gives
          fun t => t.Same (expanded ⟨[2, 1], x⟩ [2, 3]) := by
  obtain ⟨hbinary, hexpand⟩ := broadcast_right_iff (α := Int)
  have hab : Broadcastable [2, 1] [3] := by simp [Broadcastable, padShape, Compatible]
  have hab' : Broadcastable [2, 1] [2, 3] := by simp [Broadcastable, padShape, Compatible]
  have hshape : broadcast [2, 1] [3] = [2, 3] := by decide
  have hshape' : broadcast [2, 1] [2, 3] = [2, 3] := by decide
  refine ⟨?_, ?_, ?_⟩
  · refine ((hbinary [2, 1] [3] [some 2, some 1] [none] [some 2, none] hab (by simp [Fits])
      (by simp [Fits]) (by decide)).1 true (.int 64) .f32 .f32).2
        (.inr ⟨by decide, ⟨?_, ?_, ?_⟩, ?_⟩)
    · simp [hshape, Fits]
    · decide
    · decide
    · decide
  · refine (hbinary [2, 1] [2, 3] [some 2, some 1] [some 2, none] [some 2, none] hab'
      (by simp [Fits]) (by simp [Fits]) (by decide)).2.2 ⟨⟨?_, ?_⟩, ?_⟩
    · simp [hshape', Fits]
    · intro i hi
      rw [show openDims [some 2, none] = [1] by decide, mem_singleton] at hi
      subst hi
      rfl
    · decide
  · refine (hexpand [none, some 1] [none, none] [.int (-1), .str] [3] [2, 1] [2, 3] (by simp [Fits])
      ⟨stretchesTo_iff_getD.2 (by decide), ?_⟩ rfl).2 ⟨by simp [Fits], ?_, by decide⟩
    · intro i hi
      obtain rfl | rfl : i = 0 ∨ i = 1 := by
        simp only [length_cons, length_nil] at hi
        omega
      · exact .inr ⟨rfl, by decide, rfl⟩
      · rfl
    · intro i hi
      obtain rfl | rfl : i = 0 ∨ i = 1 := by
        have := (mem_openDims.1 hi).1
        simp only [length_cons, length_nil] at this
        omega
      · exact ⟨fun _ => .inl rfl, fun h => by simp at h⟩
      · exact ⟨fun h => by simp at h, fun _ => rfl⟩

/-- An open dim of one element, sizes left before right, and a row expanded to its own length. -/
theorem broadcast_loses_sizes :
    (¬ (lowerBinary (fun _ _ v => v) (· + ·) true .f32 .f32 .f32 [none] [some 2] [none]
        ⟨[1], fun _ => (0 : Int)⟩ ⟨[2], fun _ => 0⟩ fun _ => 0).Gives fun t =>
      t.Same (broadcastOp (· + ·) ⟨[1], fun _ => 0⟩ ⟨[2], fun _ => 0⟩)) ∧
    (¬ (lowerBinary (fun _ _ v => v) (· + ·) true .f32 .f32 .f32 [some 1, none] [none, some 1]
        [none, none] ⟨[1, 3], fun _ => (0 : Int)⟩ ⟨[2, 1], fun _ => 0⟩ fun _ => 0).Gives fun t =>
      t.Same (broadcastOp (· + ·) ⟨[1, 3], fun _ => 0⟩ ⟨[2, 1], fun _ => 0⟩)) ∧
    (¬ ∃ t, makeBinaryOp [some 2, none] [some 2, some 1] [none] (· + ·)
        ⟨[2, 1], fun _ => (0 : Int)⟩ ⟨[3], fun _ => 0⟩ (fun _ => 0) = some t ∧
      t.Same (broadcastOp (· + ·) ⟨[2, 1], fun _ => 0⟩ ⟨[3], fun _ => 0⟩)) ∧
    ¬ (lowerExpand [none] [some 2] (some [.int (-1)]) [] ⟨[2], fun c => c.getD 0 0⟩
      fun _ => 0).Gives
      fun t => t.Same (expanded ⟨[2], fun c => c.getD 0 0⟩ [2]) := by
  refine ⟨fun h => ?_, fun h => ?_, fun h => ?_, fun h => ?_⟩
  · obtain ⟨t, ht, hshape⟩ : ∃ t, lowerBinary (fun _ _ v => v) (· + ·) true .f32 .f32 .f32 [none]
        [some 2] [none] ⟨[1], fun _ => (0 : Int)⟩ ⟨[2], fun _ => 0⟩ (fun _ => 0) = .ok t ∧
        t.shape = [1] := ⟨_, rfl, rfl⟩
    rw [ht, Lowered.gives_ok] at h
    have hsame := hshape.symm.trans h.1
    revert hsame
    decide
  · have hrun : lowerBinary (fun _ _ v => v) (· + ·) true .f32 .f32 .f32 [some 1, none]
        [none, some 1] [none, none] ⟨[1, 3], fun _ => (0 : Int)⟩ ⟨[2, 1], fun _ => 0⟩ (fun _ => 0) =
        .error .invalid := rfl
    rw [hrun] at h
    exact Lowered.gives_invalid h
  · obtain ⟨t, ht, -⟩ := h
    have hrun : makeBinaryOp [some 2, none] [some 2, some 1] [none] (· + ·)
        ⟨[2, 1], fun _ => (0 : Int)⟩ ⟨[3], fun _ => 0⟩ (fun _ => 0) = none := rfl
    rw [hrun] at ht
    cases ht
  · obtain ⟨t, ht, helem⟩ : ∃ t, lowerExpand [none] [some 2] (some [.int (-1)]) []
        ⟨[2], fun c => c.getD 0 0⟩ (fun _ => 0) = .ok t ∧ t.elem [1] = 0 := ⟨_, rfl, rfl⟩
    rw [ht, Lowered.gives_ok] at h
    have hsame := h.2 [1] (by rw [h.1]; decide)
    rw [helem] at hsame
    revert hsame
    decide

end CompileForge.SfDialect
