/-
  Tensors of any rank, the types they are declared with, and perfect loop nests over them, as
  structured tensor IRs have them.
-/

import CompileForge.Lib.Outcome
import CompileForge.Lib.RowMajor
import CompileForge.Lib.Strided
import Mathlib.Algebra.BigOperators.Group.List.Basic
import Mathlib.Data.List.GetD

namespace CompileForge.Lib

open List

/-- The dims of a declared type; `none` is open until run time. -/
abbrev RankedType := List (Option Nat)

variable (s : List Nat)

/-- The shape has the sizes that the type knows. -/
def Fits (ty : RankedType) : Prop :=
  Forall₂ (fun n d => d.getD n = n) s ty

/-- The shape of a new tensor of the type, from the sizes of its open dims. -/
def fillShape : RankedType → List Int → Option (List Nat)
  | [], [] => some []
  | some n :: ty, sizes => (fillShape ty sizes).map (n :: ·)
  | none :: ty, size :: sizes =>
    if 0 ≤ size then (fillShape ty sizes).map (size.toNat :: ·) else none
  | _, _ => none

variable {β : Type} {ty : RankedType} {n : Nat} {P : β → Prop} {c p : List Nat}

theorem Fits.length_eq {s : List Nat} (h : Fits s ty) :
    s.length = ty.length := List.Forall₂.length_eq h

theorem Fits.getD {s : List Nat} (h : Fits s ty) {i : Nat}
    (hi : ty[i]? = some (some n)) : s[i]? = some n := by
  induction h generalizing i with
  | nil => cases hi
  | @cons m d s ty hd _ ih =>
    cases i with
    | zero =>
      cases hi
      exact congrArg some hd.symm
    | succ => exact ih hi

theorem getD_of_fits {shape : List Nat} (h : Fits shape ty) (i : Nat) :
    (ty.getD i none).getD (shape.getD i 0) = shape.getD i 0 := by
  cases hty : ty[i]? with
  | none => rw [getD_eq_getElem?_getD, hty, Option.getD_none, Option.getD_none]
  | some d =>
    cases d with
    | none => rw [getD_eq_getElem?_getD, hty, Option.getD_some, Option.getD_none]
    | some =>
      rw [getD_eq_getElem?_getD, hty, Option.getD_some, Option.getD_some,
        getD_eq_getElem?_getD, h.getD hty, Option.getD_some]

theorem fits_iff_getD {s : List Nat} :
    Fits s ty ↔ s.length = ty.length ∧
      ∀ i < s.length, (ty.getD i none).getD (s.getD i 0) = s.getD i 0 := by
  refine ⟨fun h => ⟨h.length_eq, fun i _ => getD_of_fits h i⟩, fun h => ?_⟩
  refine forall₂_iff_get.2 ⟨h.1, fun i hi hi' => ?_⟩
  have hsize := h.2 i hi
  rwa [getD_eq_getElem _ _ hi, getD_eq_getElem _ _ hi'] at hsize

/-! ## Tensors -/

/-- Only the elements at the coordinates of the shape mean anything. -/
structure Tensor (α : Type) where
  shape : List Nat
  elem : List Nat → α

namespace Tensor

variable {α : Type} {t t' : Tensor α} {s : List Nat}

/-- Equal shapes, and equal elements at the coordinates of the shape. -/
def Same (t t' : Tensor α) : Prop :=
  t.shape = t'.shape ∧ ∀ c, InShape t.shape c → t.elem c = t'.elem c

theorem Same.refl (t : Tensor α) : t.Same t := ⟨rfl, fun _ _ => rfl⟩

/-- Another shape over the elements in row-major order. -/
def reshape (t : Tensor α) (s : List Nat) : Option (Tensor α) :=
  if s.prod = t.shape.prod then some ⟨s, fun c => t.elem (coordOf t.shape (offset s c))⟩ else none

/-- The elements in row-major order are the same. -/
def SameData (t t' : Tensor α) : Prop :=
  t.shape.prod = t'.shape.prod ∧
    ∀ i < t.shape.prod, t.elem (coordOf t.shape i) = t'.elem (coordOf t'.shape i)

theorem sameData_reshape (h : t.reshape s = some t') : t'.shape = s ∧ t'.SameData t := by
  obtain ⟨hprod, h⟩ := Option.ite_none_right_eq_some.1 h
  cases h
  refine ⟨rfl, hprod, fun i hi => ?_⟩
  show t.elem (coordOf t.shape (offset s (coordOf s i))) = _
  rw [offset_coordOf hi]

theorem reshape_of_prod (h : s.prod = t.shape.prod) : ∃ t', t.reshape s = some t' :=
  ⟨_, if_pos h⟩

end Tensor

/-! ## Lowering -/

/-- Why a pattern has no result. -/
inductive LowerError where
  /-- The pattern does not apply. -/
  | noMatch
  /-- What it emits is no valid op, or leaves a tensor at run time. -/
  | invalid
deriving DecidableEq, Repr

/-- What a pattern makes of an op, run on its operands. -/
abbrev Lowered (β : Type) := Except LowerError β

/-- An op that may not be valid. -/
def emit {β : Type} : Option β → Lowered β
  | some b => .ok b
  | none => .error .invalid

/-- Where the pattern applies, what it emits is valid and gives such a result. -/
def Lowered.Gives {β : Type} (r : Lowered β) (P : β → Prop) : Prop :=
  r = .error .noMatch ∨ ∃ b, r = .ok b ∧ P b

@[simp] theorem Lowered.gives_ok {b : β} :
    Lowered.Gives (.ok b) P ↔ P b := by
  simp [Lowered.Gives]

@[simp] theorem Lowered.gives_invalid :
    ¬ Lowered.Gives (.error .invalid) P := by
  simp [Lowered.Gives]

@[simp] theorem Lowered.gives_noMatch :
    Lowered.Gives (.error .noMatch) P := .inl rfl

theorem Lowered.gives_emit {o : Option β} :
    Lowered.Gives (emit o) P ↔ ∃ b, o = some b ∧ P b := by
  cases o with
  | none => simp [emit]
  | some => simp [emit]

theorem Lowered.gives_map {γ : Type} {r : Lowered β} {f : β → γ} {P : γ → Prop} :
    Lowered.Gives (r.map f) P ↔ Lowered.Gives r fun b => P (f b) := by
  cases r with
  | ok => rw [Except.map, gives_ok, gives_ok]
  | error e => cases e <;> simp [Except.map]

/-! ## Loop nests -/

/-- A result of an index map: a loop dim, or a constant. -/
inductive IndexExpr where
  | dim (d : Nat)
  | const (n : Nat)
deriving DecidableEq, Repr

def IndexExpr.at (point : List Nat) : IndexExpr → Nat
  | dim d => point.getD d 0
  | const n => n

abbrev IndexMap := List IndexExpr

def IndexMap.at (m : IndexMap) (point : List Nat) : List Nat := m.map (IndexExpr.at point)

/-- `(d0, ..., dn-1)`. -/
def identityMap (n : Nat) : IndexMap := (range n).map .dim

instance (s c : List Nat) : Decidable (InShape s c) :=
  inferInstanceAs (Decidable (Forall₂ (· < ·) c s))

/-- The coordinates of a shape in row-major order. -/
def points : List (List Nat) := (range s.prod).map (coordOf s)

/-- The size of a loop, read off the first operand that is indexed by it. -/
def loopSize (operands : List (IndexMap × List Nat)) (d : Nat) : Option Nat :=
  (operands.flatMap fun o => o.1.zip o.2).lookup (.dim d)

def loopSizes (numLoops : Nat) (operands : List (IndexMap × List Nat)) : Option (List Nat) :=
  (range numLoops).mapM (loopSize operands)

/-- Every operand is read within its shape at every point of the box. -/
def InBounds (box : List Nat) (operands : List (IndexMap × List Nat)) : Prop :=
  ∀ o ∈ operands, ∀ p ∈ points box, InShape o.2 (o.1.at p)
deriving Decidable

/-- A nest that reads its inputs and updates one output. -/
structure LoopNest (α : Type) where
  numLoops : Nat
  ins : List (IndexMap × Tensor α)
  outMap : IndexMap
  init : Tensor α
  body : List α → α → α

namespace LoopNest

variable {α : Type} (g : LoopNest α)

def operands : List (IndexMap × List Nat) :=
  g.ins.map (fun i => (i.1, i.2.shape)) ++ [(g.outMap, g.init.shape)]

/-- The elements that the body gets at a point. -/
def args (p : List Nat) : List α := g.ins.map fun i => i.2.elem (i.1.at p)

/-- One point. -/
def visit (out : List Nat → α) (p : List Nat) : List Nat → α :=
  Function.update out (g.outMap.at p) (g.body (g.args p) (out (g.outMap.at p)))

/-- Every point of the box in row-major order.  No result where an index leaves its operand. -/
def run : Option (Tensor α) :=
  match loopSizes g.numLoops g.operands with
  | none => none
  | some box =>
    if InBounds box g.operands then
      some ⟨g.init.shape, (points box).foldl g.visit g.init.elem⟩
    else none

end LoopNest

/-! ## Points -/

theorem coordOf_offset {s : List Nat} (h : InShape s c) : coordOf s (offset s c) = c := by
  induction h with
  | nil => rfl
  | @cons x d c s hx hc ih =>
    obtain ⟨hdiv, hmod⟩ := offset_cons_div_mod (x := x) (d := d) hc
    rw [coordOf, hdiv, hmod, ih]

theorem mem_points {s : List Nat} : p ∈ points s ↔ InShape s p := by
  rw [points, mem_map]
  constructor
  · rintro ⟨i, hi, rfl⟩
    exact inShape_coordOf (mem_range.1 hi)
  · exact fun h => ⟨offset s p, mem_range.2 (offset_lt h), coordOf_offset h⟩

theorem nodup_points : (points s).Nodup := by
  refine List.Nodup.map_on (fun i hi j hj h => ?_) nodup_range
  rw [← offset_coordOf (mem_range.1 hi), h, offset_coordOf (mem_range.1 hj)]

theorem inShape_iff_getD {s : List Nat} :
    InShape s c ↔ c.length = s.length ∧ ∀ i < s.length, c.getD i 0 < s.getD i 0 := by
  rw [InShape, forall₂_iff_get]
  refine and_congr_right fun hlen => ⟨fun h i hi => ?_, fun h i hi hi' => ?_⟩
  · rw [getD_eq_getElem _ _ (hlen ▸ hi), getD_eq_getElem _ _ hi]
    exact h i (hlen ▸ hi) hi
  · have hlt := h i hi'
    rwa [getD_eq_getElem _ _ hi, getD_eq_getElem _ _ hi'] at hlt

theorem InShape.zero_notMem {s : List Nat} (h : InShape s c) : 0 ∉ s := by
  intro hmem
  obtain ⟨i, hi, hzero⟩ := mem_iff_getElem.1 hmem
  have hlt := (inShape_iff_getD.1 h).2 i hi
  rw [getD_eq_getElem _ _ hi, hzero] at hlt
  omega

theorem identityMap_at (h : p.length = n) :
    (identityMap n).at p = p := by
  rw [IndexMap.at, identityMap, map_map]
  refine ext_getElem (by rw [length_map, length_range, h]) fun i hi hi' => ?_
  rw [getElem_map, getElem_range]
  exact getD_eq_getElem _ _ hi'

theorem loopSizes_eq {operands : List (IndexMap × List Nat)} {box : List Nat}
    (hsize : ∀ o ∈ operands, ∀ d n, (IndexExpr.dim d, n) ∈ o.1.zip o.2 → box[d]? = some n)
    (hall : ∀ d < box.length, ∃ o ∈ operands, ∃ n, (IndexExpr.dim d, n) ∈ o.1.zip o.2) :
    loopSizes box.length operands = some box := by
  have hone : ∀ d < box.length, loopSize operands d = box[d]? := by
    intro d hd
    cases hlookup : loopSize operands d with
    | none =>
      obtain ⟨o, ho, n, hmem⟩ := hall d hd
      rw [loopSize, lookup_eq_none_iff] at hlookup
      have hne := hlookup _ (mem_flatMap.2 ⟨o, ho, hmem⟩)
      simp at hne
    | some n =>
      obtain ⟨before, behind, hsplit, -⟩ := lookup_eq_some_iff.1 hlookup
      have hmem : (IndexExpr.dim d, n) ∈ operands.flatMap fun o => o.1.zip o.2 :=
        hsplit ▸ mem_append_right _ mem_cons_self
      obtain ⟨o, ho, hmem⟩ := mem_flatMap.1 hmem
      exact (hsize o ho d n hmem).symm
  rw [loopSizes, mapM_eq_some_forall₂]
  refine forall₂_iff_get.2 ⟨length_range, fun i hi hi' => ?_⟩
  simp only [get_eq_getElem, getElem_range]
  rw [hone i hi', getElem?_eq_getElem hi']

theorem loopSizes_identity (operands : List (IndexMap × List Nat)) :
    loopSizes s.length ((identityMap s.length, s) :: operands) = some s := by
  have hlookup : ∀ (s : List Nat) (k d : Nat) (rest : List (IndexExpr × Nat)), d < s.length →
      ((((range' k s.length).map IndexExpr.dim).zip s) ++ rest).lookup (.dim (k + d)) =
        s[d]? := by
    intro s
    induction s with
    | nil => intro k d rest hd; cases hd
    | cons n s ih =>
      intro k d rest hd
      rw [length_cons, range'_succ, map_cons, zip_cons_cons, cons_append]
      cases d with
      | zero => exact lookup_cons_self
      | succ d =>
        have hne : (IndexExpr.dim (k + (d + 1)) == .dim k) = false := by simp
        rw [lookup_cons, hne, show k + (d + 1) = k + 1 + d by omega]
        exact ih (k + 1) d rest (Nat.lt_of_succ_lt_succ hd)
  rw [loopSizes, mapM_eq_some_forall₂]
  refine forall₂_iff_get.2 ⟨length_range, fun d hd hd' => ?_⟩
  simp only [get_eq_getElem, getElem_range]
  have hfirst := hlookup s 0 d (operands.flatMap fun o => o.1.zip o.2) hd'
  rw [Nat.zero_add, ← range_eq_range'] at hfirst
  rw [loopSize, flatMap_cons, ← getElem?_eq_getElem hd']
  exact hfirst

/-! ## What a run computes -/

namespace LoopNest

variable {α : Type} {g : LoopNest α} {box : List Nat}

theorem run_eq (hbox : loopSizes g.numLoops g.operands = some box) (hin : InBounds box g.operands) :
    g.run = some ⟨g.init.shape, (points box).foldl g.visit g.init.elem⟩ := by
  simp only [run, hbox, if_pos hin]

theorem run_eq_some {t : Tensor α} (h : g.run = some t) :
    ∃ box, loopSizes g.numLoops g.operands = some box ∧ InBounds box g.operands ∧
      t = ⟨g.init.shape, (points box).foldl g.visit g.init.elem⟩ := by
  cases hbox : loopSizes g.numLoops g.operands with
  | none => simp [run, hbox] at h
  | some box =>
    by_cases hin : InBounds box g.operands
    · rw [run_eq hbox hin] at h
      exact ⟨box, rfl, hin, (Option.some.inj h).symm⟩
    · simp [run, hbox, if_neg hin] at h

theorem run_congr {ins ins' : List (IndexMap × Tensor α)}
    (h : Forall₂ (fun i i' => i.1 = i'.1 ∧ i.2.Same i'.2) ins ins') :
    ({ g with ins := ins } : LoopNest α).run = ({ g with ins := ins' } : LoopNest α).run := by
  have hops : ({ g with ins := ins } : LoopNest α).operands =
      ({ g with ins := ins' } : LoopNest α).operands := by
    refine congrArg (· ++ _) ?_
    induction h with
    | nil => rfl
    | cons hi _ ih => rw [map_cons, map_cons, ih, hi.1, hi.2.1]
  simp only [run, hops]
  cases loopSizes g.numLoops ({ g with ins := ins' } : LoopNest α).operands with
  | none => rfl
  | some box =>
    by_cases hin : InBounds box ({ g with ins := ins' } : LoopNest α).operands
    · simp only [if_pos hin]
      refine congrArg (fun elem => some (Tensor.mk g.init.shape elem)) ?_
      refine foldl_ext _ _ _ fun out p hp => ?_
      have hargs : ({ g with ins := ins } : LoopNest α).args p =
          ({ g with ins := ins' } : LoopNest α).args p := by
        rw [← hops] at hin
        have hread : ∀ i ∈ ins, InShape i.2.shape (i.1.at p) := fun i hi =>
          hin _ (mem_append_left _ (mem_map.2 ⟨i, hi, rfl⟩)) p hp
        show ins.map _ = ins'.map _
        clear hops hin
        induction h with
        | nil => rfl
        | @cons i i' ins ins' hi _ ih =>
          rw [map_cons, map_cons, ih fun i hmem => hread i (mem_cons_of_mem _ hmem),
            ← hi.1, hi.2.2 _ (hread i mem_cons_self)]
      simp only [visit, hargs]
    · simp only [if_neg hin]

theorem foldl_visit (ps : List (List Nat)) (out : List Nat → α) (c : List Nat) :
    ps.foldl g.visit out c =
      (ps.filter fun p => g.outMap.at p = c).foldl (fun acc p => g.body (g.args p) acc)
        (out c) := by
  induction ps generalizing out with
  | nil => rfl
  | cons p ps ih =>
    rw [foldl_cons, ih]
    by_cases hp : g.outMap.at p = c
    · rw [filter_cons_of_pos (by simpa using hp), foldl_cons, visit, ← hp, Function.update_self]
    · rw [filter_cons_of_neg (by simpa using hp), visit, Function.update_of_ne (Ne.symm hp)]

theorem foldl_visit_add {M : Type} [AddCommMonoid M] {g : LoopNest M} {f : List M → M}
    (hbody : ∀ args out, g.body args out = f args + out) (ps : List (List Nat))
    (out : List Nat → M) (c : List Nat) :
    ps.foldl g.visit out c =
      ((ps.filter fun p => g.outMap.at p = c).map fun p => f (g.args p)).sum + out c := by
  have hfold : ∀ (ps : List (List Nat)) (acc : M),
      ps.foldl (fun acc p => g.body (g.args p) acc) acc =
        (ps.map fun p => f (g.args p)).sum + acc := by
    intro ps
    induction ps with
    | nil => simp
    | cons p ps ih =>
      intro acc
      rw [foldl_cons, ih, hbody, map_cons, sum_cons, ← add_assoc, add_comm (f (g.args p))]
  rw [foldl_visit, hfold]

theorem foldl_visit_of_injOn {ps : List (List Nat)} (hnodup : ps.Nodup)
    (hinj : ∀ p ∈ ps, ∀ p' ∈ ps, g.outMap.at p = g.outMap.at p' → p = p') (out : List Nat → α)
    {p : List Nat} (hp : p ∈ ps) :
    ps.foldl g.visit out (g.outMap.at p) = g.body (g.args p) (out (g.outMap.at p)) := by
  have hfilter : (ps.filter fun p' => g.outMap.at p' = g.outMap.at p) = [p] := by
    have hcongr : (ps.filter fun p' => g.outMap.at p' = g.outMap.at p) =
        ps.filter fun p' => p' = p := by
      refine filter_congr fun p' hp' => ?_
      exact decide_eq_decide.2 ⟨hinj p' hp' p hp, fun h => by rw [h]⟩
    rw [hcongr, filter_eq, count_eq_one_of_mem hnodup hp, replicate_one]
  rw [foldl_visit, hfilter]
  rfl

theorem run_parallel (hout : g.outMap = identityMap g.numLoops)
    (hbox : loopSizes g.numLoops g.operands = some box) (hin : InBounds box g.operands) :
    ∃ t, g.run = some t ∧ t.shape = g.init.shape ∧
      ∀ c, InShape box c → t.elem c = g.body (g.args c) (g.init.elem c) := by
  have hlen : box.length = g.numLoops := by
    rw [loopSizes, mapM_eq_some_forall₂] at hbox
    rw [← hbox.length_eq, length_range]
  have hat : ∀ p, InShape box p → g.outMap.at p = p := fun p hp => by
    rw [hout, identityMap_at (hp.length_eq.trans hlen)]
  refine ⟨_, run_eq hbox hin, rfl, fun c hc => ?_⟩
  have hwrite := foldl_visit_of_injOn (g := g) (nodup_points box) (fun p hp p' hp' h => by
    rwa [hat p (mem_points.1 hp), hat p' (mem_points.1 hp')] at h) g.init.elem
    (mem_points.2 hc)
  rwa [hat c hc] at hwrite

end LoopNest

/-! ## Affine index maps -/

inductive AffineExpr where
  | dim (d : Nat)
  | add (a b : AffineExpr)
  | mul (a : AffineExpr) (n : Nat)
  | floorDiv (a : AffineExpr) (n : Nat)
deriving DecidableEq, Repr

def AffineExpr.at (point : List Nat) : AffineExpr → Nat
  | dim d => point.getD d 0
  | add a b => a.at point + b.at point
  | mul a n => a.at point * n
  | floorDiv a n => a.at point / n

/-- A nest whose inputs are read at affine maps and whose output is indexed by some loops. -/
structure AffineNest (α : Type) where
  numLoops : Nat
  ins : List (List AffineExpr × Tensor α)
  outDims : List Nat
  init : Tensor α
  body : List α → α → α

namespace AffineNest

variable {α : Type} (g : AffineNest α)

/-- A loop has the size of the first dim that is indexed by it alone. -/
def sizes : Option (List Nat) :=
  let dims : List (AffineExpr × Nat) :=
    g.ins.flatMap (fun i => i.1.zip i.2.shape) ++ (g.outDims.map AffineExpr.dim).zip g.init.shape
  (range g.numLoops).mapM fun d => dims.lookup (.dim d)

/-- An affine nest reads its operands gathered along the points. -/
def gathered (box : List Nat) : LoopNest α where
  numLoops := g.numLoops
  ins := g.ins.map fun i =>
    (identityMap g.numLoops, ⟨box, fun p => i.2.elem (i.1.map (AffineExpr.at p))⟩)
  outMap := g.outDims.map .dim
  init := g.init
  body := g.body

def run : Option (Tensor α) :=
  match g.sizes with
  | none => none
  | some box =>
    if ∀ i ∈ g.ins, ∀ p ∈ points box, InShape i.2.shape (i.1.map (AffineExpr.at p)) then
      (g.gathered box).run
    else none

theorem run_add {M : Type} [AddCommMonoid M] {g : AffineNest M} {f : List M → M}
    {i : List AffineExpr × Tensor M} {rest : List (List AffineExpr × Tensor M)} {box : List Nat}
    (hins : g.ins = i :: rest) (hlen : box.length = g.numLoops) (hbox : g.sizes = some box)
    (hread : ∀ i ∈ g.ins, ∀ p, InShape box p → InShape i.2.shape (i.1.map (AffineExpr.at p)))
    (hwrite : ∀ p, InShape box p → InShape g.init.shape (g.outDims.map (p.getD · 0)))
    (hbody : ∀ args out, g.body args out = f args + out) :
    ∃ t, g.run = some t ∧ t.shape = g.init.shape ∧ ∀ c, t.elem c =
      (((points box).filter fun p => g.outDims.map (p.getD · 0) = c).map fun p =>
        f (g.ins.map fun i => i.2.elem (i.1.map (AffineExpr.at p)))).sum + g.init.elem c := by
  have hout : ∀ p, (g.gathered box).outMap.at p = g.outDims.map (p.getD · 0) := fun p =>
    map_map
  have hat : ∀ p ∈ points box, (identityMap g.numLoops).at p = p := fun p hp =>
    identityMap_at ((mem_points.1 hp).length_eq.trans hlen)
  have hsizes : loopSizes (g.gathered box).numLoops (g.gathered box).operands = some box := by
    rw [LoopNest.operands, gathered, hins, ← hlen]
    exact loopSizes_identity box _
  have hin : InBounds box (g.gathered box).operands := by
    intro o ho p hp
    rcases mem_append.1 ho with ho | ho
    · obtain ⟨_, hmem, rfl⟩ := mem_map.1 ho
      obtain ⟨_, -, rfl⟩ := mem_map.1 hmem
      rw [hat p hp]
      exact mem_points.1 hp
    · rw [mem_singleton.1 ho, hout]
      exact hwrite p (mem_points.1 hp)
  have hargs : ∀ p ∈ points box, (g.gathered box).args p =
      g.ins.map fun i => i.2.elem (i.1.map (AffineExpr.at p)) := by
    intro p hp
    rw [LoopNest.args, gathered, map_map]
    refine map_congr_left fun i _ => ?_
    show i.2.elem (i.1.map (AffineExpr.at ((identityMap g.numLoops).at p))) = _
    rw [hat p hp]
  refine ⟨⟨g.init.shape, (points box).foldl (g.gathered box).visit g.init.elem⟩, ?_, rfl,
    fun c => ?_⟩
  · simp only [run, hbox]
    rw [if_pos fun i hi p hp => hread i hi p (mem_points.1 hp)]
    exact LoopNest.run_eq hsizes hin
  · show (points box).foldl (g.gathered box).visit g.init.elem c = _
    rw [LoopNest.foldl_visit_add (f := f) hbody]
    simp only [hout]
    refine congrArg (· + _) (congrArg sum (map_congr_left fun p hp => ?_))
    rw [hargs p (mem_filter.1 hp).1]

end AffineNest

end CompileForge.Lib
