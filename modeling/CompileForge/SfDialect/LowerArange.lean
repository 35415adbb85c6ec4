/-
  `torch.arange` from the call to the loop: `_collect_arange_args` (`compiler/fx/converter.py`)
  gives a start and a size, and `SfArangeOpLowering` (`sf-dialect/lib/Sf/SfLowerGenOps.cpp`) counts
  up from the one as often as the other says.
-/

import CompileForge.Compiler.Fx.Steps
import CompileForge.SfDialect.LoweringHelpers
import Mathlib.Data.Rat.Floor

namespace CompileForge.SfDialect

open Lib List
open Compiler.Fx (Item Arg Torch Collected collectArangeArgs arangeBounds arangeStart
  arangeStop ssaName constName arangeSize constName_injective)

/-- A number, as an integer or as a float of exact arithmetic. -/
inductive Number (R : Type) where
  | int (x : Int)
  | float (x : R)

structure ScalarOperand (R : Type) where
  rank : Nat
  value : Number R

section Defs

variable {R : Type} [Field R] [LinearOrder R] [FloorRing R]

/-- `arith.fptosi`. -/
def fpToSi (x : R) : Int := if x < 0 then ⌈x⌉ else ⌊x⌋

namespace Number

def IsFloat : Number R → Prop
  | int _ => False
  | float _ => True

def toReal : Number R → R
  | int x => x
  | float x => x

/-- As a loop bound. -/
def toIndex : Number R → Int
  | int x => x
  | float x => fpToSi x

/-- `startVal + i`. -/
def add : Number R → Nat → Number R
  | int x, i => int (x + i)
  | float x, i => float (x + i)

def zero (elt : EltType) : Number R := if elt.floatWidth = none then int 0 else float 0

/-- Only floats and `i64` are converted to. -/
def convert (elt : EltType) (v : Number R) : Lowered (Number R) :=
  if elt.floatWidth ≠ none then .ok (float v.toReal)
  else if elt = .int 64 then .ok (int v.toIndex)
  else .error .noMatch

end Number

def ScalarOperand.extract (x : ScalarOperand R) (indices : Nat) : Lowered (Number R) :=
  if indices = x.rank then .ok x.value else .error .invalid

/-! ## The lowering -/

/-- The body of the loop. -/
def arangeTurn (start : Number R) (t : Tensor (Number R)) (i : Nat) : Tensor (Number R) :=
  ⟨t.shape, Function.update t.elem [i] (start.add i)⟩

/-- The loop bound: the declared size, or the size that is given, or the input of old artifacts. -/
def arangeBound (dim : Option Nat) (input : ScalarOperand R) (dynShape : List (ScalarOperand R)) :
    Lowered Int :=
  match dim, dynShape with
  | some n, _ => .ok n
  | none, size :: _ => do
    let size ← size.extract input.rank
    pure size.toIndex
  | none, [] => .ok input.value.toIndex

/-- `SfArangeOpLowering`.  An op has a result of `i64`. -/
def lowerArange (elt : EltType) (outType : RankedType) (input : ScalarOperand R)
    (dynShape : List (ScalarOperand R)) : Lowered (Tensor (Number R)) :=
  if elt ≠ .int 64 then .error .invalid
  else
    match outType with
    | [] => .ok ⟨[], fun _ => .zero elt⟩
    | [dim] => do
      let loopBound ← arangeBound dim input dynShape
      let start ← if dim = none ∧ dynShape.isEmpty then .ok (.zero elt) else input.value.convert elt
      let shape ← emit (fillShape [dim] (if dim = none then [loopBound] else []))
      pure ((range loopBound.toNat).foldl (arangeTurn start) ⟨shape, fun _ => .zero elt⟩)
    | _ => .error .noMatch

/-! ## What is asked for -/

/-- `torch.arange(a, b)`: of integers if both are. -/
def torchArange : Number R → Number R → Tensor (Number R)
  | .int a, .int b => ⟨[(b - a).toNat], fun c => .int (a + (c.getD 0 0 : Nat))⟩
  | a, b => ⟨[⌈b.toReal - a.toReal⌉.toNat], fun c => .float (a.toReal + (c.getD 0 0 : Nat))⟩

/-- The elements of `torch.arange(a, b)`, in a result of floats where one of them is a float. -/
def ArangeRight (elt : EltType) (outType : RankedType) (input : ScalarOperand R)
    (dynShape : List (ScalarOperand R)) (a b : Number R) : Prop :=
  ∃ t, lowerArange elt outType input dynShape = .ok t ∧
    (elt.floatWidth ≠ none ↔ a.IsFloat ∨ b.IsFloat) ∧ t.Same (torchArange a b)

/-- An argument is a number: what a node computes may be an integer in a float tensor. -/
def Means (val : UInt64 → R) (operand : String → ScalarOperand R)
    (ssaMap : List (String × String)) : Item → Number R → Prop
  | .node name, b => (operand (ssaName ssaMap name)).value = b ∨
      ∃ n : Int, b = .int n ∧ (operand (ssaName ssaMap name)).value = .float (n : R)
  | .float bits, b => b = .float (val bits)
  | a, b => ∃ n, a.intValue = some n ∧ b = .int n

end Defs

section Loop

variable {R : Type} [Field R] [LinearOrder R] [FloorRing R] {dim : Option Nat}
  {input size : ScalarOperand R} {x k : Int}

omit [LinearOrder R] [FloorRing R] in
theorem foldl_arangeTurn (start : Number R) (t : Tensor (Number R)) (n : Nat) :
    ((range n).foldl (arangeTurn start) t).shape = t.shape ∧
      ∀ i < n, ((range n).foldl (arangeTurn start) t).elem [i] = start.add i := by
  induction n with
  | zero => exact ⟨rfl, fun i hi => absurd hi (Nat.not_lt_zero i)⟩
  | succ n ih =>
    rw [range_succ, foldl_append]
    refine ⟨ih.1, fun i hi => ?_⟩
    by_cases hin : i = n
    · subst hin
      exact Function.update_self ..
    · have hne : ([i] : List Nat) ≠ [n] := fun h => hin (List.cons.inj h).1
      exact (Function.update_of_ne hne _ _).trans (ih.2 i (by omega))

/-- From an integer on, the loop counts as far as the bound says. -/
theorem lowerArange_of_int (hinput : input.value = .int x) (hsize : size.value.toIndex = k)
    (hk : 0 ≤ k) (hrank : dim = none → input.rank = size.rank) :
    ∃ t : Tensor (Number R), lowerArange (.int 64) [dim] input [size] = .ok t ∧
      t.Same ⟨[dim.getD k.toNat], fun c => .int (x + (c.getD 0 0 : Nat))⟩ := by
  have hloop : ∀ n : Nat, ((range n).foldl (arangeTurn (.int x))
      (⟨[n], fun _ => .zero (.int 64)⟩ : Tensor (Number R))).Same
        ⟨[n], fun c => .int (x + (c.getD 0 0 : Nat))⟩ := by
    intro n
    obtain ⟨hshape, helem⟩ := foldl_arangeTurn (.int x)
      (⟨[n], fun _ => .zero (.int 64)⟩ : Tensor (Number R)) n
    refine ⟨hshape, fun c hc => ?_⟩
    rw [hshape] at hc
    obtain ⟨i, c, hi, hnil, rfl⟩ := forall₂_cons_right_iff.1 hc
    cases hnil
    exact helem i hi
  have hconvert : input.value.convert (.int 64) = .ok (.int x) := by
    rw [hinput]
    rfl
  cases dim with
  | some n =>
    refine ⟨_, ?_, hloop n⟩
    show (do
      let start ← input.value.convert (.int 64)
      pure ((range n).foldl (arangeTurn start) ⟨[n], fun _ => .zero (.int 64)⟩)) = _
    rw [hconvert]
    rfl
  | none =>
    refine ⟨_, ?_, hloop k.toNat⟩
    have hbound : arangeBound none input [size] = .ok k := by
      rw [arangeBound, ScalarOperand.extract, if_pos (hrank rfl), ← hsize]
      rfl
    have hshape : emit (fillShape [none] [k]) = .ok [k.toNat] := by
      rw [fillShape, if_pos hk]
      rfl
    show (do
      let loopBound ← arangeBound none input [size]
      let start ← input.value.convert (.int 64)
      let shape ← emit (fillShape [none] [loopBound])
      pure ((range loopBound.toNat).foldl (arangeTurn start)
        ⟨shape, fun _ => .zero (.int 64)⟩)) = _
    rw [hbound, hconvert]
    show (emit (fillShape [none] [k]) >>= _) = _
    rw [hshape]
    rfl

theorem rank_of_lowerArange {elt : EltType} {t : Tensor (Number R)}
    (h : lowerArange elt [none] input [size] = .ok t) : input.rank = size.rank := by
  by_contra hne
  rw [lowerArange] at h
  split at h
  · cases h
  · simp [arangeBound, ScalarOperand.extract, hne, Bind.bind, Except.bind] at h

end Loop

section Call

variable {V R : Type} [Field R] [LinearOrder R] [IsStrictOrderedRing R] [FloorRing R]
  {torch : Torch V} {num : V → Number R} {val : UInt64 → R} {operand : String → ScalarOperand R}
  {ssaMap : List (String × String)} {args : List Arg} {start stop : Item} {c c' : Collected V}
  {a b : Number R} {x y : Int}

theorem fpToSi_intCast (n : Int) : fpToSi (n : R) = n := by
  rw [fpToSi, Int.ceil_intCast, Int.floor_intCast, ite_self]

section

omit [LinearOrder R] [IsStrictOrderedRing R] [FloorRing R]

theorem collectArangeArgs_ok (h : collectArangeArgs torch ssaMap args c = .ok c')
    (hbounds : arangeBounds args = (.item start, .item stop)) :
    ∃ c₁, arangeStart torch start c = .ok c₁ ∧ arangeStop torch ssaMap start stop c₁ = .ok c' := by
  simp only [collectArangeArgs, hbounds] at h
  split at h
  · cases h
  · split at h
    · rename_i heq₁ heq₂
      cases heq₁
      cases heq₂
      split at h
      · exact bind_eq_ok h
      · cases h
    · cases h
    · cases h

theorem arangeStart_ok (h : arangeStart torch start c = .ok c') :
    ∃ t, c' = c.pushConst t ∧ (∀ name, start ≠ .node name) ∧
      ∀ v, start.intValue = some v → t = torch.intScalar v := by
  cases start with
  | node => cases h
  | float => exact ⟨_, (Except.ok.inj h).symm, by simp, by simp [Item.intValue]⟩
  | none => exact ⟨_, (Except.ok.inj h).symm, by simp, by simp [Item.intValue]⟩
  | sym v =>
    refine ⟨_, (Except.ok.inj h).symm, by simp, fun u hu => ?_⟩
    obtain rfl : v = some u := hu
    rfl
  | int => exact ⟨_, (Except.ok.inj h).symm, by simp, fun u hu => by rw [Option.some.inj hu]⟩
  | bool => exact ⟨_, (Except.ok.inj h).symm, by simp, fun u hu => by rw [Option.some.inj hu]⟩
  | str => cases h
  | dtype => cases h

theorem arangeStop_ok (h : arangeStop torch ssaMap start stop c = .ok c') :
    (∃ name, stop = .node name ∧ start.isZero ∧ c' = c.push (ssaName ssaMap name)) ∨
      (∀ name, stop ≠ .node name) ∧ ∃ t, c' = c.pushConst t ∧ ∀ u v, start.intValue = some u →
        stop.intValue = some v → t = torch.intScalar (v - u) := by
  unfold arangeStop at h
  split at h
  · rename_i name
    split at h
    · exact .inl ⟨name, rfl, ‹_›, (Except.ok.inj h).symm⟩
    · cases h
  · cases h
  · cases h
  · rename_i hnode hnone hsym
    split at h
    · rename_i size hsize
      refine .inr ⟨hnode, _, (Except.ok.inj h).symm, fun u v hu hv => ?_⟩
      have hstart : ¬ (start = .none ∨ start = .sym none) := by
        rintro (rfl | rfl) <;> cases hu
      simp only [arangeSize, if_neg hstart, hu, hv, Option.some.injEq] at hsize
      rw [hsize]
    · cases h

theorem Means.intValue {item : Item} (h : Means val operand ssaMap item (.int x))
    (hnode : ∀ name, item ≠ .node name) : item.intValue = some x := by
  cases item with
  | node name => exact absurd rfl (hnode name)
  | float => cases h
  | _ =>
    obtain ⟨n, hn, heq⟩ := h
    cases heq
    exact hn

end

theorem operands_of_collect (hint : ∀ n, num (torch.cast "int64" (torch.ofInt n)) = .int n)
    (hcollect : collectArangeArgs torch ssaMap args c = .ok c')
    (hbounds : arangeBounds args = (.item start, .item stop))
    (hvalues : ∀ name dtype v, c'.weights.lookup name = some ⟨[], dtype, [v]⟩ →
      (operand name).value = num v)
    (hstart : Means val operand ssaMap start a) (hstop : Means val operand ssaMap stop b) :
    ∃ s e, c'.inputNames = c.inputNames ++ [s, e] ∧ ∀ x y, a = .int x → b = .int y →
      (operand s).value = .int x ∧ (operand e).value.toIndex = y - x := by
  obtain ⟨c₁, hc₁, hc'⟩ := collectArangeArgs_ok hcollect hbounds
  obtain ⟨t, rfl, hnode, ht⟩ := arangeStart_ok hc₁
  -- what the start's constant holds, where it is an integer
  have hfirst : c'.weights.lookup (constName c.nameCounter) = some t →
      ∀ x, a = .int x → (operand (constName c.nameCounter)).value = .int x := by
    rintro hlookup x rfl
    rw [ht x (hstart.intValue hnode)] at hlookup
    rw [hvalues _ _ _ hlookup, hint]
  rcases arangeStop_ok hc' with ⟨name, rfl, hzero, rfl⟩ | ⟨hnode', t', rfl, ht'⟩
  · refine ⟨constName c.nameCounter, ssaName ssaMap name, by simp [Collected.push,
      Collected.pushConst], fun x y hx hy => ⟨hfirst lookup_setKey_self x hx, ?_⟩⟩
    subst hx hy
    have hx : x = 0 := by
      have hvalue := hstart.intValue hnode
      cases start <;> simp_all [Item.isZero, Item.intValue]
    rcases hstop with hstop | ⟨n, heq, hstop⟩
    · rw [hstop, hx, sub_zero]
      rfl
    · cases heq
      rw [hstop, hx, sub_zero]
      exact fpToSi_intCast y
  · have hne : constName c.nameCounter ≠ constName (c.nameCounter + 1) := fun h =>
      Nat.succ_ne_self _ (constName_injective h).symm
    refine ⟨constName c.nameCounter, constName (c.nameCounter + 1), by simp [Collected.pushConst],
      fun x y hx hy => ⟨hfirst ((lookup_setKey_ne hne).trans lookup_setKey_self) x hx, ?_⟩⟩
    subst hx hy
    obtain rfl := ht' x y (hstart.intValue hnode) (hstop.intValue hnode')
    have hsize := hvalues (constName (c.nameCounter + 1)) _ _ lookup_setKey_self
    rw [hsize, hint]
    rfl

/-- Exactly where both ends are integers and the declared size is their difference, or copied. -/
theorem arange_right_iff (hint : ∀ n, num (torch.cast "int64" (torch.ofInt n)) = .int n)
    (hcollect : collectArangeArgs torch ssaMap args c = .ok c') (hnames : c.inputNames = [])
    (hbounds : arangeBounds args = (.item start, .item stop))
    (hvalues : ∀ name dtype v, c'.weights.lookup name = some ⟨[], dtype, [v]⟩ →
      (operand name).value = num v)
    (hstart : Means val operand ssaMap start a) (hstop : Means val operand ssaMap stop b)
    (hle : a.toReal ≤ b.toReal) (elt : EltType) (dim : Option Nat) :
    ∃ input size, c'.inputNames.map operand = [input, size] ∧
      (ArangeRight elt [dim] input [size] a b ↔ ∃ x y, a = .int x ∧ b = .int y ∧
        elt = .int 64 ∧ (dim = none → input.rank = size.rank) ∧
          ∀ n : Nat, dim = some n → (n : Int) = y - x) := by
  obtain ⟨s, e, hinputs, hoperands⟩ :=
    operands_of_collect hint hcollect hbounds hvalues hstart hstop
  refine ⟨operand s, operand e, by rw [hinputs, hnames]; rfl, ?_⟩
  constructor
  · rintro ⟨t, hrun, hfloat, hsame⟩
    have helt : elt = .int 64 := by
      by_contra hne
      rw [lowerArange, if_pos hne] at hrun
      cases hrun
    subst helt
    have hints : ¬ (a.IsFloat ∨ b.IsFloat) := fun h => hfloat.2 h rfl
    cases a with
    | float => exact absurd (.inl trivial) hints
    | int x =>
      cases b with
      | float => exact absurd (.inr trivial) hints
      | int y =>
        have hxy : 0 ≤ y - x := sub_nonneg.2 (Int.cast_le.1 hle)
        have hrank : dim = none → (operand s).rank = (operand e).rank := by
          rintro rfl
          exact rank_of_lowerArange hrun
        refine ⟨x, y, rfl, rfl, rfl, hrank, ?_⟩
        rintro n rfl
        obtain ⟨hinput, hsize⟩ := hoperands x y rfl rfl
        obtain ⟨t', hrun', hsame'⟩ := lowerArange_of_int hinput hsize hxy hrank
        obtain rfl : t' = t := Except.ok.inj (hrun'.symm.trans hrun)
        have hn : n = (y - x).toNat := (List.cons.inj (hsame'.1.symm.trans hsame.1)).1
        omega
  · rintro ⟨x, y, rfl, rfl, rfl, hrank, hdim⟩
    obtain ⟨hinput, hsize⟩ := hoperands x y rfl rfl
    have hxy : 0 ≤ y - x := sub_nonneg.2 (Int.cast_le.1 hle)
    obtain ⟨t, hrun, hsame⟩ := lowerArange_of_int hinput hsize hxy hrank
    have hn : dim.getD (y - x).toNat = (y - x).toNat := by
      cases dim with
      | none => rfl
      | some n =>
        have hn := hdim n rfl
        show n = _
        omega
    rw [hn] at hsame
    exact ⟨t, hrun, by simp [EltType.floatWidth, Number.IsFloat], hsame⟩

end Call

section Calls

def exactTorch : Torch (Number ℚ) where
  ofFloat := fun bits => .float (if bits = 0x3FE0000000000000 then 1 / 2 else 3)
  ofInt := .int
  cast := fun _ v => v
  truncate := fun _ => none
  difference := fun _ _ => some 2
  str := fun _ => ""

/-- The first node of a graph. -/
def noneCollected : Collected (Number ℚ) := ⟨[], 0, [], []⟩

def constOperand (c : Collected (Number ℚ)) (name : String) : ScalarOperand ℚ :=
  ⟨1, (((c.weights.lookup name).bind fun t => t.elems.head?).getD (.int 0))⟩

theorem arange_right_iff_integers :
    ArangeRight (.int 64) [none] ⟨1, .int 2⟩ [⟨1, .int 3⟩] (.int 2 : Number ℚ) (.int 5) := by
  obtain ⟨input, size, hoperands, hright⟩ := @arange_right_iff _ ℚ _ _ _ _ exactTorch id
    (fun _ => 0) (constOperand ((noneCollected.pushConst (exactTorch.intScalar 2)).pushConst
      (exactTorch.intScalar (5 - 2)))) [] [.item (.int 2), .item (.int 5)] (.int 2) (.int 5)
    noneCollected _ _ _ (fun _ => rfl) rfl rfl rfl
    (fun name dtype v h => by rw [constOperand, h]; rfl) ⟨2, rfl, rfl⟩ ⟨5, rfl, rfl⟩
    (show ((2 : Int) : ℚ) ≤ ((5 : Int) : ℚ) by norm_num) (.int 64) none
  have hlist : ([⟨1, .int 2⟩, ⟨1, .int 3⟩] : List (ScalarOperand ℚ)) = [input, size] := hoperands
  simp only [List.cons.injEq, and_true] at hlist
  obtain ⟨rfl, rfl⟩ := hlist
  exact hright.2 ⟨2, 5, rfl, rfl, rfl, fun _ => rfl, by simp⟩

/-- `torch.arange(0.5, 3.0)` has three elements, and the loop makes two integers. -/
theorem arange_loses_fractions :
    ∃ c', collectArangeArgs exactTorch []
        [.item (.float 0x3FE0000000000000), .item (.float 0x4008000000000000)] noneCollected =
          .ok c' ∧
      c'.inputNames.map (constOperand c') = [⟨1, .float (1 / 2)⟩, ⟨1, .int 2⟩] ∧
      (torchArange (.float (1 / 2 : ℚ)) (.float 3)).shape = [3] ∧
      ∃ t, lowerArange (.int 64) [none] ⟨1, .float (1 / 2 : ℚ)⟩ [⟨1, .int 2⟩] = .ok t ∧
        t.shape = [2] ∧
        ¬ ArangeRight (.int 64) [none] ⟨1, .float (1 / 2 : ℚ)⟩ [⟨1, .int 2⟩] (.float (1 / 2))
          (.float 3) := by
  refine ⟨_, rfl, rfl, ?_, _, rfl, rfl, ?_⟩
  · have hceil : ⌈(3 : ℚ) - 1 / 2⌉ = 3 := by norm_num
    show [⌈(3 : ℚ) - 1 / 2⌉.toNat] = [3]
    rw [hceil]
    rfl
  · rintro ⟨t, -, hfloat, -⟩
    exact hfloat.2 (.inl trivial) rfl

end Calls

end CompileForge.SfDialect
