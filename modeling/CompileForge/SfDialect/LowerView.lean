/-
  `view` and `reshape` from the converter to the loops: the sentinels that `_collect_input_args`
  writes for a target list, `resolveViewShape` (`sf-dialect/lib/Sf/ViewShapeSolver.cpp`), and
  `SfViewOpLowering` (`sf-dialect/lib/Sf/SfLowerShape.cpp`), run on a tensor.
-/

import CompileForge.Compiler.Fx.Convert
import CompileForge.Lib.LoopNest
import Mathlib.Algebra.BigOperators.Ring.List
import Mathlib.Algebra.Order.Ring.Nat

namespace CompileForge.SfDialect

open Lib List
open Compiler.Fx hiding Tensor

inductive DimSource where
  | static (staticVal : Int)
  | dynOperand (operandIdx : Int)
  | inferred
deriving DecidableEq, Repr

/-- The code of a symbolic size. -/
def kSSARefSentinel : Int := -2 ^ 63

def resolveFrom (numDynOperands : Nat) : Nat → List Int → Option (List DimSource)
  | _, [] => some []
  | dynIdx, val :: shapeAttr =>
    if val = kSSARefSentinel then
      if dynIdx < numDynOperands then
        (resolveFrom numDynOperands (dynIdx + 1) shapeAttr).map (.dynOperand dynIdx :: ·)
      else none
    else if 0 ≤ val then
      (resolveFrom numDynOperands dynIdx shapeAttr).map (.static val :: ·)
    else if val = -1 then
      if dynIdx < numDynOperands then
        (resolveFrom numDynOperands (dynIdx + 1) shapeAttr).map (.dynOperand dynIdx :: ·)
      else (resolveFrom numDynOperands dynIdx shapeAttr).map (.inferred :: ·)
    else (resolveFrom numDynOperands (dynIdx + 1) shapeAttr).map (.dynOperand (-val - 2) :: ·)

def resolveViewShape (shapeAttr : List Int) (numDynOperands : Nat) : List DimSource :=
  (resolveFrom numDynOperands 0 shapeAttr).getD []

/-! ## `SfViewOpLowering` -/

/-- An entry of the shape attribute. -/
inductive ShapeEntry where
  | int (v : Int)
  | str
  | other
deriving DecidableEq, Repr

def ShapeEntry.code : ShapeEntry → Option Int
  | int v => some v
  | str => some kSSARefSentinel
  | other => none

/-- The first pass at one dim: its size, or nothing where it is inferred. -/
def viewDim (outType : RankedType) (plan : List DimSource) (dynShape : List Nat) (i : Nat) :
    Lowered (Option Nat) :=
  match outType[i]? with
  | some (some n) => .ok (some n)
  | _ =>
    match plan[i]? with
    | none => .error .noMatch
    | some (.static v) => .ok (some v.toNat)
    | some (.dynOperand k) => (emit dynShape[k.toNat]?).map some
    | some .inferred => .ok none

/-- The second pass; a division by zero and a second missing size are undefined. -/
def inferDim (total : Nat) (shapeVals : List (Option Nat)) : Option (List Nat) :=
  if shapeVals.count none = 0 then some (shapeVals.map (·.getD 0))
  else if shapeVals.count none = 1 ∧ (shapeVals.map (·.getD 1)).prod ≠ 0 then
    some (shapeVals.map (·.getD (total / (shapeVals.map (·.getD 1)).prod)))
  else none

/-- The operands of symbolic sizes are these sizes (`extractDynDimAsIndex`). -/
def lowerView {α : Type} (inType outType : RankedType) (shapeAttr : Option (List ShapeEntry))
    (dynShape : List Nat) (input : Tensor α) : Lowered (Tensor α) :=
  if inType.length = outType.length then .ok input
  else
    match shapeAttr.bind (·.mapM ShapeEntry.code) with
    | none => .error .noMatch
    | some shapeVec =>
      let plan := resolveViewShape shapeVec dynShape.length
      if plan = [] ∧ shapeVec ≠ [] then .error .noMatch
      else do
        let shapeVals ← (range outType.length).mapM (viewDim outType plan dynShape)
        let sizes ← emit (inferDim input.shape.prod shapeVals)
        emit (input.reshape sizes)

/-! ## From the target list -/

/-- The array attribute that a keyword argument becomes. -/
def arrayAttr : Arg → Option (List ShapeEntry)
  | .item _ => none
  | .list items => some (items.map fun
      | .int v => .int v
      | .node _ | .str _ => .str
      | _ => .other)

/-- The view that the converter emits, lowered: its first operand is the input. -/
def lowerCollectedView {α V : Type} (inType outType : RankedType) (c : Collected V)
    (size : String → Nat) (input : Tensor α) : Lowered (Tensor α) :=
  lowerView inType outType ((c.extraKwargs.lookup "shape").bind arrayAttr)
    ((c.inputNames.drop 1).map size) input

/-- An entry of a target list: a size, the one to infer, or a symbolic size. -/
inductive ViewEntry where
  | size (n : Nat)
  | symbolic (node : String)
  | infer
deriving DecidableEq, Repr

namespace ViewEntry

def toItem : ViewEntry → Item
  | size n => .int n
  | symbolic node => .node node
  | infer => .int (-1)

def Open (e : ViewEntry) : Prop := e = infer ∨ e = size maxsize.toNat
deriving Decidable

def node? : ViewEntry → Option String
  | symbolic node => some node
  | size _ | infer => none

def Counts (e : ViewEntry) : Prop := e.node?.isSome ∨ e.Open
deriving Decidable

end ViewEntry

/-- The sentinels of a target list behind `dynPos` symbolic sizes. -/
def sentinels : Nat → List ViewEntry → List Int
  | _, [] => []
  | dynPos, .size n :: target =>
    (if (n : Int) = maxsize then -1 else n) :: sentinels dynPos target
  | dynPos, .symbolic _ :: target => -((dynPos : Int) + 2) :: sentinels (dynPos + 1) target
  | dynPos, .infer :: target => -1 :: sentinels dynPos target

section Collect

variable {V : Type} (torch : Torch V) (ssaMap : List (String × String))

theorem foldl_collectListed (target : List ViewEntry) (c : Collected V) (resolved : List Item)
    (dynPos : Nat) :
    (target.map ViewEntry.toItem).foldl (collectListed torch ssaMap "view") (c, resolved, dynPos) =
      ({ c with inputNames :=
          c.inputNames ++ (target.filterMap ViewEntry.node?).map (ssaName ssaMap) },
        resolved ++ (sentinels dynPos target).map .int,
        dynPos + (target.filterMap ViewEntry.node?).length) := by
  induction target generalizing c resolved dynPos with
  | nil => simp [sentinels]
  | cons e target ih =>
    rw [map_cons, foldl_cons]
    cases e with
    | size n =>
      have hstep : collectListed torch ssaMap "view" (c, resolved, dynPos) (.int n) =
          (c, resolved ++ [.int (if (n : Int) = maxsize then -1 else n)], dynPos) := rfl
      rw [ViewEntry.toItem, hstep, ih]
      simp [sentinels, filterMap_cons, ViewEntry.node?]
    | symbolic node =>
      have hstep : collectListed torch ssaMap "view" (c, resolved, dynPos) (.node node) =
          (c.push (ssaName ssaMap node), resolved ++ [.int (-((dynPos : Int) + 2))],
            dynPos + 1) := rfl
      rw [ViewEntry.toItem, hstep, ih]
      simp [sentinels, ViewEntry.node?, Collected.push]
      omega
    | infer =>
      have hstep : collectListed torch ssaMap "view" (c, resolved, dynPos) (.int (-1)) =
          (c, resolved ++ [.int (-1)], dynPos) := rfl
      rw [ViewEntry.toItem, hstep, ih]
      simp [sentinels, filterMap_cons, ViewEntry.node?]

theorem collectInputArgs_view (x : String) (target : List ViewEntry) (nameCounter : Nat)
    (weights : List (String × Compiler.Fx.Tensor V)) :
    collectInputArgs torch ssaMap "view"
        [.item (.node x), .list (target.map ViewEntry.toItem)] ⟨[], nameCounter, weights, []⟩ =
      ⟨ssaName ssaMap x :: (target.filterMap ViewEntry.node?).map (ssaName ssaMap), nameCounter,
        weights, [("shape", .list ((sentinels 0 target).map .int))]⟩ := by
  have hlist : listArgAttr "view" = some (some "shape") := rfl
  show collectList torch ssaMap "view" 1 ⟨[ssaName ssaMap x], nameCounter, weights, []⟩
    (target.map ViewEntry.toItem) = _
  rw [collectList, hlist]
  simp [foldl_collectListed, setKey]

end Collect

/-! ## What the sentinels resolve to -/

namespace ViewEntry

def source (numDynOperands sym rank : Nat) (e : ViewEntry) : DimSource :=
  if e.Open then if rank < numDynOperands then .dynOperand rank else .inferred
  else
    match e with
    | size n => .static n
    | symbolic _ => .dynOperand sym
    | infer => .inferred

theorem source_of_open {e : ViewEntry} (h : e.Open) (numDyn sym rank : Nat) :
    e.source numDyn sym rank = if rank < numDyn then .dynOperand rank else .inferred := if_pos h

end ViewEntry

/-- The entries in front of the place `i` that count an operand. -/
def operandRank (target : List ViewEntry) (i : Nat) : Nat :=
  (target.take i).countP fun e => e.Counts

def symbolRank (target : List ViewEntry) (i : Nat) : Nat :=
  ((target.take i).filterMap ViewEntry.node?).length

@[simp] theorem operandRank_cons_succ (e : ViewEntry) (target : List ViewEntry) (i : Nat) :
    operandRank (e :: target) (i + 1) = (if e.Counts then 1 else 0) + operandRank target i := by
  rw [operandRank, take_succ_cons, countP_cons, operandRank, add_comm]
  simp

@[simp] theorem symbolRank_cons_succ (e : ViewEntry) (target : List ViewEntry) (i : Nat) :
    symbolRank (e :: target) (i + 1) = (if e.node?.isSome then 1 else 0) + symbolRank target i := by
  rw [symbolRank, take_succ_cons, filterMap_cons, symbolRank]
  cases e.node? <;> simp [add_comm]

/-- An operand is taken by a -1 as long as `dynIdx` is below their number. -/
theorem resolveFrom_sentinels (numDyn : Nat) (target : List ViewEntry) (sym rank dynIdx : Nat)
    (hdyn : dynIdx = rank ∨ numDyn ≤ dynIdx ∧ numDyn ≤ rank)
    (hsym : sym + target.length < 2 ^ 63 - 1) :
    ∃ plan, resolveFrom numDyn dynIdx (sentinels sym target) = some plan ∧
      plan.length = target.length ∧ ∀ i (e : ViewEntry), target[i]? = some e →
        plan[i]? = some (e.source numDyn (sym + symbolRank target i)
          (rank + operandRank target i)) := by
  induction target generalizing sym rank dynIdx with
  | nil => exact ⟨[], rfl, rfl, fun i e he => by cases he⟩
  | cons e target ih =>
    rw [length_cons] at hsym
    -- the first entry gives `src`, and the others follow behind `sym'`, `rank'` and `dynIdx'`
    have hcons : ∀ src sym' rank' dynIdx', (dynIdx' = rank' ∨ numDyn ≤ dynIdx' ∧ numDyn ≤ rank') →
        sym' + target.length < 2 ^ 63 - 1 →
        resolveFrom numDyn dynIdx (sentinels sym (e :: target)) =
          (resolveFrom numDyn dynIdx' (sentinels sym' target)).map (src :: ·) →
        src = e.source numDyn sym rank → sym' = sym + (if e.node?.isSome then 1 else 0) →
        rank' = rank + (if e.Counts then 1 else 0) →
        ∃ plan, resolveFrom numDyn dynIdx (sentinels sym (e :: target)) = some plan ∧
          plan.length = (e :: target).length ∧ ∀ i (e' : ViewEntry), (e :: target)[i]? = some e' →
            plan[i]? = some (e'.source numDyn (sym + symbolRank (e :: target) i)
              (rank + operandRank (e :: target) i)) := by
      intro src sym' rank' dynIdx' hdyn' hsym' hresolve hsrc hsyms hranks
      obtain ⟨plan, hplan, hlen, hsources⟩ := ih sym' rank' dynIdx' hdyn' hsym'
      refine ⟨src :: plan, by rw [hresolve, hplan]; rfl, by simp [hlen], fun i e' he' => ?_⟩
      cases i with
      | zero =>
        cases he'
        simp [symbolRank, operandRank, hsrc]
      | succ i =>
        rw [getElem?_cons_succ] at he' ⊢
        rw [hsources i e' he', symbolRank_cons_succ, operandRank_cons_succ, hsyms, hranks,
          add_assoc, add_assoc]
    -- an entry that is written as -1
    have hopen : e.Open → e.node? = none → sentinels sym (e :: target) =
        -1 :: sentinels sym target → ∃ plan,
        resolveFrom numDyn dynIdx (sentinels sym (e :: target)) = some plan ∧
          plan.length = (e :: target).length ∧ ∀ i (e' : ViewEntry), (e :: target)[i]? = some e' →
            plan[i]? = some (e'.source numDyn (sym + symbolRank (e :: target) i)
              (rank + operandRank (e :: target) i)) := by
      intro hop hnode hwritten
      have hcounts : e.Counts := .inr hop
      by_cases hlt : dynIdx < numDyn
      · have hrank : dynIdx = rank := by omega
        refine hcons (.dynOperand dynIdx) sym (rank + 1) (dynIdx + 1) (by omega) (by omega) ?_ ?_
          (by simp [hnode]) (by simp [hcounts])
        · rw [hwritten, resolveFrom, if_neg (by decide), if_neg (by decide), if_pos rfl, if_pos hlt]
        · rw [ViewEntry.source_of_open hop, if_pos (by omega), hrank]
      · refine hcons .inferred sym (rank + 1) dynIdx (by omega) (by omega) ?_ ?_
          (by simp [hnode]) (by simp [hcounts])
        · rw [hwritten, resolveFrom, if_neg (by decide), if_neg (by decide), if_pos rfl, if_neg hlt]
        · rw [ViewEntry.source_of_open hop, if_neg (by omega)]
    cases e with
    | size n =>
      by_cases hmax : (n : Int) = maxsize
      · refine hopen (.inr ?_) rfl ?_
        · rw [← hmax, Int.toNat_natCast]
        · rw [sentinels, if_pos hmax]
      · have hclosed : ¬ (ViewEntry.size n).Open := by
          rintro (h | h)
          · cases h
          · refine hmax ?_
            cases h
            decide
        refine hcons (.static n) sym rank dynIdx hdyn (by omega) ?_ ?_ rfl ?_
        · have hval : (n : Int) ≠ kSSARefSentinel := by
            have : kSSARefSentinel < 0 := by decide
            omega
          rw [sentinels, if_neg hmax, resolveFrom, if_neg hval, if_pos (Int.natCast_nonneg n)]
        · rw [ViewEntry.source, if_neg hclosed]
        · have hcounts : ¬ (ViewEntry.size n).Counts :=
            not_or.2 ⟨by simp [ViewEntry.node?], hclosed⟩
          rw [if_neg hcounts]
          rfl
    | symbolic node =>
      have hclosed : ¬ (ViewEntry.symbolic node).Open := by
        rintro (h | h) <;> cases h
      have hcounts : (ViewEntry.symbolic node).Counts := .inl rfl
      refine hcons (.dynOperand sym) (sym + 1) (rank + 1) (dynIdx + 1) (by omega) (by omega) ?_ ?_
        rfl (by simp [hcounts])
      · have hval : -((sym : Int) + 2) ≠ kSSARefSentinel := by
          have : kSSARefSentinel = -9223372036854775808 := by decide
          omega
        have hback : -(-((sym : Int) + 2)) - 2 = sym := by omega
        rw [sentinels, resolveFrom, if_neg hval, if_neg (by omega), if_neg (by omega), hback]
      · rw [ViewEntry.source, if_neg hclosed]
    | infer => exact hopen (.inl rfl) rfl rfl

section Infer

theorem count_eq_one_iff {α : Type} [BEq α] [LawfulBEq α] {l : List α} {a : α} :
    l.count a = 1 ↔ ∃ i : Nat, l[i]? = some a ∧ ∀ j : Nat, l[j]? = some a → j = i := by
  constructor
  · intro h
    obtain ⟨before, behind, rfl, hbefore⟩ := eq_append_cons_of_mem
      (count_pos_iff.1 (by omega : 0 < l.count a))
    rw [count_append, count_cons_self, count_eq_zero.2 hbefore] at h
    have hbehind : a ∉ behind := count_eq_zero.1 (by omega)
    refine ⟨before.length, by simp, fun j hj => ?_⟩
    rcases Nat.lt_trichotomy j before.length with hlt | heq | hgt
    · rw [getElem?_append_left hlt] at hj
      exact absurd (mem_of_getElem? hj) hbefore
    · exact heq
    · obtain ⟨k, rfl⟩ : ∃ k, j = before.length + (k + 1) := ⟨j - before.length - 1, by omega⟩
      rw [getElem?_append_right (by omega), Nat.add_sub_cancel_left, getElem?_cons_succ] at hj
      exact absurd (mem_of_getElem? hj) hbehind
  · rintro ⟨i, hi, hunique⟩
    obtain ⟨before, behind, rfl, hbefore⟩ := eq_append_cons_of_mem (mem_of_getElem? hi)
    have hplace := hunique before.length (by simp)
    have hbehind : a ∉ behind := by
      intro hmem
      obtain ⟨k, hk⟩ := mem_iff_getElem?.mp hmem
      have := hunique (before.length + (k + 1)) (by
        rw [getElem?_append_right (by omega), Nat.add_sub_cancel_left, getElem?_cons_succ, hk])
      omega
    rw [count_append, count_cons_self, count_eq_zero.2 hbefore, count_eq_zero.2 hbehind]

theorem inferDim_eq_some_iff {vals : List (Option Nat)} {d : List Nat}
    (hlen : vals.length = d.length) :
    inferDim d.prod vals = some d ↔ (∀ i n : Nat, vals[i]? = some (some n) → d[i]? = some n) ∧
        ∀ i : Nat, vals[i]? = some none → (∀ j : Nat, vals[j]? = some none → j = i) ∧
            ∀ j n : Nat, j ≠ i → d[j]? = some n → n ≠ 0 := by
  -- with one size missing, the others are read as they are
  have hset : ∀ i : Nat, vals[i]? = some none → (∀ j : Nat, vals[j]? = some none → j = i) →
      (∀ j n : Nat, vals[j]? = some (some n) → d[j]? = some n) →
      ∀ q, vals.map (·.getD q) = d.set i q := by
    intro i hi hunique hknown q
    refine ext_getElem (by simp [hlen]) fun j hj hj' => ?_
    rw [length_map] at hj
    rw [getElem_map, getElem_set]
    cases hval : vals[j] with
    | none =>
      have := hunique j (by rw [getElem?_eq_getElem hj, hval])
      rw [if_pos this.symm, Option.getD_none]
    | some n =>
      have hread := hknown j n (by rw [getElem?_eq_getElem hj, hval])
      have hne : i ≠ j := by
        rintro rfl
        rw [getElem?_eq_getElem hj, hval] at hi
        cases hi
      rw [if_neg hne, Option.getD_some]
      rw [getElem?_eq_getElem (by omega)] at hread
      exact (Option.some.inj hread).symm
  have hprod : ∀ i (hi : i < d.length), (d.set i 1).prod * d[i] = d.prod := by
    intro i hi
    rw [prod_set, if_pos hi, mul_one, Nat.mul_right_comm, ← prod_take_succ d i hi,
      prod_take_mul_prod_drop]
  have hnonzero : ∀ i (hi : i < d.length), (d.set i 1).prod ≠ 0 ↔
      ∀ j n : Nat, j ≠ i → d[j]? = some n → n ≠ 0 := by
    intro i hi
    have hzero : (d.set i 1).prod = 0 ↔ 0 ∈ d.set i 1 := prod_eq_zero_iff
    rw [Ne, hzero]
    constructor
    · rintro h j n hne hj rfl
      refine h (mem_of_getElem? (i := j) ?_)
      rw [getElem?_set_ne (Ne.symm hne), hj]
    · intro h hmem
      obtain ⟨j, hj⟩ := mem_iff_getElem?.mp hmem
      by_cases hne : j = i
      · subst hne
        rw [getElem?_set_self hi] at hj
        cases hj
      · rw [getElem?_set_ne (Ne.symm hne)] at hj
        exact h j 0 hne hj rfl
  rcases lt_or_ge 1 (vals.count none) with hmany | hfew
  · -- more than one is missing
    have hleft : inferDim d.prod vals = none := by
      rw [inferDim, if_neg (by omega), if_neg (by omega)]
    rw [hleft]
    refine iff_of_false (by simp) fun h => ?_
    obtain ⟨i, hi⟩ := mem_iff_getElem?.mp
      (count_pos_iff.1 (by omega : 0 < vals.count none))
    have := count_eq_one_iff.2 ⟨i, hi, (h.2 i hi).1⟩
    omega
  · rcases (by omega : vals.count none = 0 ∨ vals.count none = 1) with hzero | hone
    · rw [inferDim, if_pos hzero, Option.some.injEq]
      have hnone : ∀ i : Nat, vals[i]? ≠ some none := fun i hi =>
        count_eq_zero.1 hzero (mem_of_getElem? hi)
      refine ⟨fun h => ⟨fun i n hi => ?_, fun i hi => absurd hi (hnone i)⟩, fun h => ?_⟩
      · rw [← h, getElem?_map, hi]
        rfl
      · refine ext_getElem (by simp [hlen]) fun j hj hj' => ?_
        rw [length_map] at hj
        rw [getElem_map]
        cases hval : vals[j] with
        | none => exact absurd (by rw [getElem?_eq_getElem hj, hval]) (hnone j)
        | some n =>
          have hread := h.1 j n (by rw [getElem?_eq_getElem hj, hval])
          rw [getElem?_eq_getElem hj'] at hread
          exact (Option.some.inj hread).symm
    · obtain ⟨i, hi, hunique⟩ := count_eq_one_iff.1 hone
      have hlt : i < d.length := by
        rw [← hlen]
        exact (List.getElem?_eq_some_iff.1 hi).1
      rw [inferDim, if_neg (by omega)]
      constructor
      · intro h
        obtain ⟨⟨-, hne⟩, h⟩ := Option.ite_none_right_eq_some.1 h
        have hknown : ∀ j n : Nat, vals[j]? = some (some n) → d[j]? = some n := fun j n hj => by
          rw [← Option.some.inj h, getElem?_map, hj]
          rfl
        refine ⟨hknown, fun i' hi' => ?_⟩
        obtain rfl := hunique i' hi'
        rw [hset _ hi hunique hknown] at hne
        exact ⟨hunique, (hnonzero _ hlt).1 hne⟩
      · rintro ⟨hknown, hmissing⟩
        have hne := (hnonzero i hlt).2 (hmissing i hi).2
        rw [hset i hi hunique hknown 1, if_pos ⟨hone, hne⟩, hset i hi hunique hknown, ← hprod i hlt,
          Nat.mul_div_cancel_left _ (Nat.pos_of_ne_zero hne), set_getElem_self]

end Infer

/-! ## When a view has its target shape -/

/-- The sizes that a target stands for. -/
structure Denotes (size : String → Nat) (s : List Nat) (target : List ViewEntry) (d : List Nat) :
    Prop where
  entries : Forall₂ (fun (e : ViewEntry) n => match e with
    | .size m => n = m
    | .symbolic node => n = size node
    | .infer => True) target d
  infer_once : target.count .infer ≤ 1
  numel : d.prod = s.prod
  /-- A -1 beside a 0 would be any size. -/
  infer_determined : ∀ i : Nat, target[i]? = some .infer →
    ∀ j n : Nat, j ≠ i → d[j]? = some n → n ≠ 0
  /-- A rank is an `int64_t`. -/
  rank : target.length < 2 ^ 63 - 1

/-- The entry is a -1 whose size the result type leaves open. -/
def Unknown (outType : RankedType) (target : List ViewEntry) (i : Nat) : Prop :=
  ∃ e, target[i]? = some e ∧ e.Open ∧ outType[i]? = some none

/-- A view that changes nothing, or whose operands are found and at most one size is missing. -/
structure ViewKept (inType outType : RankedType) (symbols : List Nat) (target : List ViewEntry)
    (s d : List Nat) : Prop where
  sameRank : inType.length = outType.length → d = s
  operand : inType.length ≠ outType.length → ∀ i, Unknown outType target i →
    operandRank target i < symbols.length → symbols[operandRank target i]? = d[i]?
  missing : inType.length ≠ outType.length → ∀ i, Unknown outType target i →
    symbols.length ≤ operandRank target i →
      (∀ j, Unknown outType target j → symbols.length ≤ operandRank target j → j = i) ∧
        ∀ j n : Nat, j ≠ i → d[j]? = some n → n ≠ 0

section Kept

variable {size : String → Nat} {s d : List Nat} {target : List ViewEntry} {outType : RankedType}

theorem getElem?_symbols {i : Nat} {node : String} (h : target[i]? = some (.symbolic node)) :
    (target.filterMap ViewEntry.node?)[symbolRank target i]? = some node := by
  induction target generalizing i with
  | nil => cases h
  | cons e target ih =>
    cases i with
    | zero =>
      cases h
      rfl
    | succ =>
      rw [symbolRank_cons_succ, filterMap_cons]
      cases e with
      | symbolic =>
        simp only [ViewEntry.node?, Option.isSome_some, if_true, add_comm 1, getElem?_cons_succ]
        exact ih h
      | size => simpa [ViewEntry.node?] using ih h
      | infer => simpa [ViewEntry.node?] using ih h

open Classical in
/-- What the first pass finds at a dim. -/
noncomputable def shapeVal (outType : RankedType) (target : List ViewEntry) (symbols d : List Nat)
    (i : Nat) : Option Nat :=
  if Unknown outType target i then symbols[operandRank target i]? else d[i]?

theorem viewDim_eq (hden : Denotes size s target d) (hout : Fits d outType)
    {plan : List DimSource} (hplan : ∀ i (e : ViewEntry), target[i]? = some e →
      plan[i]? = some (e.source
      ((target.filterMap ViewEntry.node?).map size).length (symbolRank target i)
      (operandRank target i))) {i : Nat} (hi : i < d.length) :
    viewDim outType plan ((target.filterMap ViewEntry.node?).map size) i =
      .ok (shapeVal outType target ((target.filterMap ViewEntry.node?).map size) d i) := by
  have htarget : i < target.length := hden.entries.length_eq ▸ hi
  obtain ⟨e, he⟩ : ∃ e, target[i]? = some e := ⟨_, getElem?_eq_getElem htarget⟩
  obtain ⟨n, hn⟩ : ∃ n, d[i]? = some n := ⟨_, getElem?_eq_getElem hi⟩
  obtain ⟨o, ho⟩ : ∃ o, outType[i]? = some o :=
    ⟨_, getElem?_eq_getElem (hout.length_eq ▸ hi)⟩
  rw [viewDim, shapeVal, ho]
  cases o with
  | some =>
    have hknown : ¬ Unknown outType target i := by
      rintro ⟨e', -, -, h⟩
      cases ho.symm.trans h
    rw [if_neg hknown, hout.getD ho]
  | none =>
    simp only [hplan i e he]
    by_cases hopen : e.Open
    · have hunknown : Unknown outType target i := ⟨e, he, hopen, ho⟩
      rw [if_pos hunknown, ViewEntry.source_of_open hopen]
      by_cases hlt : operandRank target i < ((target.filterMap ViewEntry.node?).map size).length
      · rw [if_pos hlt]
        simp only [Int.toNat_natCast, getElem?_eq_getElem hlt, emit, Except.map]
      · rw [if_neg hlt, getElem?_eq_none (by omega)]
    · have hknown : ¬ Unknown outType target i := by
        rintro ⟨e', he', h, -⟩
        cases he.symm.trans he'
        exact hopen h
      have hentry := forall₂_iff_get.1 hden.entries
      have hsize := hentry.2 i htarget hi
      simp only [get_eq_getElem] at hsize
      rw [getElem?_eq_getElem htarget, Option.some.injEq] at he
      rw [getElem?_eq_getElem hi, Option.some.injEq] at hn
      rw [if_neg hknown, getElem?_eq_getElem hi, hn]
      rw [he, hn] at hsize
      cases e with
      | size =>
        rw [ViewEntry.source, if_neg hopen]
        exact congrArg (fun n => Except.ok (some n)) hsize.symm
      | symbolic =>
        have hsymbol := getElem?_symbols (List.getElem?_eq_some_iff.2 ⟨htarget, he⟩)
        rw [ViewEntry.source, if_neg hopen]
        simp only [Int.toNat_natCast, getElem?_map, hsymbol, Option.map_some, emit, Except.map]
        rw [hsize]
      | infer => exact absurd (.inl rfl) hopen

variable {V α : Type} {torch : Torch V} {ssaMap : List (String × String)} {x : String}
  {nameCounter : Nat} {weights : List (String × Compiler.Fx.Tensor V)} {inType : RankedType}
  {t : Tensor α}

/-- A view has its target's sizes and the elements in row-major order exactly where it is kept. -/
theorem view_right_iff (hden : Denotes (fun node => size (ssaName ssaMap node)) t.shape target d)
    (hout : Fits d outType) :
    (lowerCollectedView inType outType (collectInputArgs torch ssaMap "view"
        [.item (.node x), .list (target.map ViewEntry.toItem)] ⟨[], nameCounter, weights, []⟩)
        size t).Gives (fun t' => t'.shape = d ∧ t'.SameData t) ↔
      ViewKept inType outType
        ((target.filterMap ViewEntry.node?).map fun node => size (ssaName ssaMap node)) target
        t.shape d := by
  have hattr : ((sentinels 0 target).map Item.int).map (fun
      | .int v => ShapeEntry.int v
      | .node _ | .str _ => ShapeEntry.str
      | _ => ShapeEntry.other) = (sentinels 0 target).map .int := by
    rw [map_map]
    rfl
  have hcode : ((sentinels 0 target).map ShapeEntry.int).mapM ShapeEntry.code =
      some (sentinels 0 target) := by
    rw [mapM_eq_some_forall₂, forall₂_map_left_iff]
    exact forall₂_same.2 fun _ _ => rfl
  have hsymbols : (target.filterMap ViewEntry.node?).map (size ∘ ssaName ssaMap) =
      (target.filterMap ViewEntry.node?).map fun node => size (ssaName ssaMap node) := rfl
  rw [collectInputArgs_view, lowerCollectedView]
  simp only [lookup_cons_self, Option.bind_some, arrayAttr, hattr, drop_succ_cons,
    drop_zero, map_map, hsymbols]
  by_cases hrank : inType.length = outType.length
  · rw [lowerView, if_pos hrank, Lowered.gives_ok]
    constructor
    · rintro ⟨rfl, -⟩
      exact ⟨fun _ => rfl, fun h => absurd hrank h, fun h => absurd hrank h⟩
    · exact fun h => ⟨(h.sameRank hrank).symm, rfl, fun _ _ => rfl⟩
  · rw [lowerView, if_neg hrank]
    simp only [Option.bind_some, hcode]
    obtain ⟨plan, hresolve, hlen, hplan⟩ := resolveFrom_sentinels
      ((target.filterMap ViewEntry.node?).map fun node => size (ssaName ssaMap node)).length
      target 0 0 0 (.inl rfl) (by have := hden.rank; omega)
    have hplan' : resolveViewShape (sentinels 0 target) ((target.filterMap ViewEntry.node?).map
        fun node => size (ssaName ssaMap node)).length = plan := by
      rw [resolveViewShape, hresolve, Option.getD_some]
    have hsome : ¬ (plan = [] ∧ sentinels 0 target ≠ []) := by
      rintro ⟨rfl, hne⟩
      rw [length_nil] at hlen
      exact hne (length_eq_zero_iff.1 hlen.symm ▸ rfl)
    have hpass : (range outType.length).mapM (viewDim outType plan
        ((target.filterMap ViewEntry.node?).map fun node => size (ssaName ssaMap node))) =
        .ok ((range d.length).map (shapeVal outType target
          ((target.filterMap ViewEntry.node?).map fun node => size (ssaName ssaMap node)) d)) := by
      rw [mapM_eq_ok_iff, ← hout.length_eq, forall₂_map_right_iff]
      refine forall₂_same.2 fun i hi => viewDim_eq hden hout (fun i e he => ?_)
        (mem_range.1 hi)
      rw [hplan i e he, zero_add, zero_add]
    rw [hplan', if_neg hsome, hpass]
    -- the result has the sizes of the second pass
    have hgives : (emit (inferDim t.shape.prod ((range d.length).map (shapeVal outType target
          ((target.filterMap ViewEntry.node?).map fun node => size (ssaName ssaMap node)) d))) >>=
          fun sizes => emit (t.reshape sizes)).Gives (fun t' => t'.shape = d ∧ t'.SameData t) ↔
        inferDim d.prod ((range d.length).map (shapeVal outType target
          ((target.filterMap ViewEntry.node?).map fun node => size (ssaName ssaMap node)) d)) =
          some d := by
      rw [hden.numel]
      cases hinfer : inferDim t.shape.prod ((range d.length).map (shapeVal outType target
          ((target.filterMap ViewEntry.node?).map
            fun node => size (ssaName ssaMap node)) d)) with
      | none => exact iff_of_false Lowered.gives_invalid (by simp)
      | some sizes =>
        show Lowered.Gives (emit (t.reshape sizes)) _ ↔ _
        cases hreshape : t.reshape sizes with
        | none =>
          refine iff_of_false Lowered.gives_invalid ?_
          rintro ⟨⟩
          obtain ⟨t', ht'⟩ := Tensor.reshape_of_prod (t := t) hden.numel
          cases hreshape.symm.trans ht'
        | some =>
          obtain ⟨hshape, hdata⟩ := Tensor.sameData_reshape hreshape
          rw [emit, Lowered.gives_ok, hshape, Option.some.injEq]
          exact and_iff_left hdata
    refine hgives.trans ?_
    rw [inferDim_eq_some_iff (by simp)]
    generalize (target.filterMap ViewEntry.node?).map (fun node => size (ssaName ssaMap node)) =
      symbols
    have hread : ∀ i o, ((range d.length).map (shapeVal outType target symbols d))[i]? =
        some o ↔ i < d.length ∧ shapeVal outType target symbols d i = o := by
      intro i o
      rw [getElem?_map]
      by_cases hi : i < d.length
      · rw [getElem?_range hi, Option.map_some, Option.some.injEq, and_iff_right hi]
      · rw [getElem?_eq_none (by simpa using hi), Option.map_none]
        exact iff_of_false (by simp) fun h => hi h.1
    have hlt : ∀ i, Unknown outType target i → i < d.length := by
      rintro i ⟨e, he, -⟩
      rw [← hden.entries.length_eq]
      exact (List.getElem?_eq_some_iff.1 he).1
    have hmissing : ∀ i, ((range d.length).map (shapeVal outType target symbols d))[i]? =
        some none ↔ Unknown outType target i ∧ symbols.length ≤ operandRank target i := by
      intro i
      rw [hread, shapeVal]
      by_cases h : Unknown outType target i
      · rw [if_pos h, List.getElem?_eq_none_iff]
        exact ⟨fun hi => ⟨h, hi.2⟩, fun hi => ⟨hlt i h, hi.2⟩⟩
      · rw [if_neg h, List.getElem?_eq_none_iff]
        exact iff_of_false (by omega) fun hi => h hi.1
    constructor
    · rintro ⟨hknown, hnone⟩
      refine ⟨fun h => absurd h hrank, fun _ i hi hrank' => ?_, fun _ i hi hrank' => ?_⟩
      · rw [getElem?_eq_getElem hrank']
        refine (hknown i _ ((hread i _).2 ⟨hlt i hi, ?_⟩)).symm
        rw [shapeVal, if_pos hi, getElem?_eq_getElem hrank']
      · obtain ⟨hunique, hothers⟩ := hnone i ((hmissing i).2 ⟨hi, hrank'⟩)
        exact ⟨fun j hj hrank' => hunique j ((hmissing j).2 ⟨hj, hrank'⟩), hothers⟩
    · intro h
      refine ⟨fun i n hi => ?_, fun i hi => ?_⟩
      · obtain ⟨-, hval⟩ := (hread i _).1 hi
        rw [shapeVal] at hval
        split at hval
        case isTrue hunknown =>
          rw [← h.operand hrank i hunknown (List.getElem?_eq_some_iff.1 hval).1, hval]
        case isFalse => exact hval
      · obtain ⟨hunknown, hrank'⟩ := (hmissing i).1 hi
        obtain ⟨hunique, hothers⟩ := h.missing hrank i hunknown hrank'
        exact ⟨fun j hj => hunique j ((hmissing j).1 hj).1 ((hmissing j).1 hj).2, hothers⟩

end Kept

/-! ### Views of two tensors -/

/-- Integers only. -/
def intTorch : Torch Int where
  ofFloat _ := 0
  ofInt := id
  cast _ v := v
  truncate _ := none
  difference _ _ := none
  str _ := ""

def placesTensor (s : List Nat) : Tensor Nat := ⟨s, offset s⟩

def viewOf (inType outType : RankedType) (target : List ViewEntry) (size : Nat) (s : List Nat) :
    Lowered (Tensor Nat) :=
  lowerCollectedView inType outType (collectInputArgs intTorch [] "view"
    [.item (.node "x"), .list (target.map ViewEntry.toItem)] ⟨[], 0, [], []⟩) (fun _ => size)
    (placesTensor s)

/-- The last two dims are merged behind a symbolic size. -/
theorem view_right_iff_merge :
    (viewOf [none, some 3, some 4] [none, none] [.symbolic "s", .infer] 2 [2, 3, 4]).Gives
      fun t' => t'.shape = [2, 12] ∧ t'.SameData (placesTensor [2, 3, 4]) := by
  refine (view_right_iff ⟨by simp, by decide, by decide, fun i hi j n hne hj => ?_, by decide⟩
    (by simp [Fits])).2 ⟨fun h => absurd h (by decide), fun _ i hi hrank => ?_,
      fun _ i hi _ => ?_⟩
  · match i, j with
    | 1, 0 => cases hj; decide
    | 1, 1 => exact absurd rfl hne
    | 1, j + 2 => cases hj
    | 0, _ => cases hi
    | i + 2, _ => cases hi
  · obtain ⟨e, he, hopen, -⟩ := hi
    match i with
    | 0 => cases he; exact absurd hopen (by decide)
    | 1 => exact absurd hrank (by decide)
    | i + 2 => cases he
  · obtain ⟨e, he, hopen, -⟩ := hi
    match i with
    | 0 => cases he; exact absurd hopen (by decide)
    | 1 =>
      refine ⟨fun j hj _ => ?_, fun j n hne hj => ?_⟩
      · obtain ⟨e, he, hopen, -⟩ := hj
        match j with
        | 0 => cases he; exact absurd hopen (by decide)
        | 1 => rfl
        | j + 2 => cases he
      · match j with
        | 0 => cases hj; decide
        | 1 => exact absurd rfl hne
        | j + 2 => cases hj
    | i + 2 => cases he

/-- A view of the same rank is dropped, and a -1 in front of a symbolic size takes its operand. -/
theorem view_loses_target :
    (Denotes (fun _ => 0) [2, 3] [.size 3, .size 2] [3, 2] ∧
      ¬ (viewOf [some 2, some 3] [some 3, some 2] [.size 3, .size 2] 0 [2, 3]).Gives
        fun t' => t'.shape = [3, 2] ∧ t'.SameData (placesTensor [2, 3])) ∧
    Denotes (fun _ => 4) [2, 3, 4] [.infer, .symbolic "s"] [6, 4] ∧
      ¬ (viewOf [none, some 3, some 4] [none, none] [.infer, .symbolic "s"] 4 [2, 3, 4]).Gives
        fun t' => t'.shape = [6, 4] ∧ t'.SameData (placesTensor [2, 3, 4]) := by
  refine ⟨⟨⟨by simp, by decide, by decide, fun i hi => ?_, by decide⟩, fun h => ?_⟩,
    ⟨by simp, by decide, by decide, fun i hi j n hne hj => ?_, by decide⟩, fun h => ?_⟩
  · match i with
    | 0 => cases hi
    | 1 => cases hi
    | i + 2 => cases hi
  · have hrun : viewOf [some 2, some 3] [some 3, some 2] [.size 3, .size 2] 0 [2, 3] =
        .ok (placesTensor [2, 3]) := rfl
    rw [hrun, Lowered.gives_ok] at h
    exact absurd h.1 (by decide)
  · match i, j with
    | 0, 0 => exact absurd rfl hne
    | 0, 1 => cases hj; decide
    | 0, j + 2 => cases hj
    | 1, _ => cases hi
    | i + 2, _ => cases hi
  · have hrun : viewOf [none, some 3, some 4] [none, none] [.infer, .symbolic "s"] 4 [2, 3, 4] =
        .error .invalid := rfl
    rw [hrun] at h
    exact Lowered.gives_invalid h

end CompileForge.SfDialect
