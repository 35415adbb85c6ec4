/-
  Shape inference against ATen: on every op, all attributes ATen accepts, all partly unknown
  operand shapes and all sizes of the unknown dims on which ATen defines the op, exactly when
  `infer_output_shape` answers a shape of the right rank whose known dims are right.
-/

import CompileForge.Compiler.Shape.Attention
import CompileForge.Compiler.Shape.Views

namespace CompileForge.Compiler.Shape

open Lib List

/-- The sizes `cs` are ones the operands' shapes leave possible. -/
structure Concretises (inputs : List TensorTy) (cs : List (List Int)) : Prop where
  covers : List.Forall₂ Covers (inputs.map TensorTy.shape) cs
  nonneg : ∀ c ∈ cs, ∀ n ∈ c, 0 ≤ n

/-- The operands, known to be of shapes `S`, on which `infer_output_shape` is right. -/
def Handled (op : Op) (S : List (List Dim)) (cs : List (List Int)) : Prop :=
  match op, S, cs with
  | .matmul, s :: _, [a, b] => MatmulHandled s a b
  | .linear, _, x :: w :: _ => LinearHandled x w
  | .slice dim start stop step, s :: _, [c] =>
    ∀ i ∈ wrapIndex dim c.length, SliceHandled (dimAt s i) (c.getD i 0) start stop step
  | .transpose dim0 dim1, _, [c] => TransposeHandled dim0 dim1 c
  | .cat dim, _, cs => CatHandled dim cs
  | .stack _, _, _ => False
  | .reduce _ dim keepdim, s :: _, _ => ReduceHandled dim keepdim s
  | .conv1d stride padding dilation _, x :: w :: _, cx :: cw :: _ =>
    Conv1dHandled stride padding dilation x w cx cw
  | .scaledDotProductAttention gqa, q :: k :: v :: masks, cq :: _ :: cv :: _ =>
    SdpaHandled gqa q k v masks cq cv
  | _, _, _ => True

variable {inputs : List TensorTy} {c : List Int} {cs : List (List Int)}

theorem covers_cons (h : List.Forall₂ Covers (inputs.map TensorTy.shape) (c :: cs)) :
    ∃ x xs, inputs = x :: xs ∧ Covers x.shape c ∧
      List.Forall₂ Covers (xs.map TensorTy.shape) cs := by
  cases inputs with
  | nil => cases h
  | cons x xs => exact ⟨x, xs, rfl, (forall₂_cons.1 h).1, (forall₂_cons.1 h).2⟩

theorem covers_one (h : List.Forall₂ Covers (inputs.map TensorTy.shape) [c]) :
    ∃ x, inputs = [x] ∧ Covers x.shape c := by
  obtain ⟨x, xs, rfl, hx, hxs⟩ := covers_cons h
  obtain rfl := map_eq_nil_iff.1 (forall₂_nil_right_iff.1 hxs)
  exact ⟨x, rfl, hx⟩

/-! ## The inference -/

theorem inferBinary_right {name : BinaryOp} {out : List Int}
    (hc : List.Forall₂ Covers (inputs.map TensorTy.shape) (c :: cs))
    (h : Aten.broadcast (c :: cs) = some out) :
    RightAbout (inferOutputShape (.binary name) inputs) out := by
  obtain ⟨x, xs, rfl, -, -⟩ := covers_cons hc
  have hsound := broadcastShapes_sound (by simp) hc h
  have helementwise := inferElementwise_right_iff.2 hsound
  have hcompare := inferCompare_right_iff.2 hsound
  cases name <;> first | exact helementwise | exact hcompare

theorem inferOutputShape_right_iff {op : Op} {inputs : List TensorTy} {cs : List (List Int)}
    {rt : Nat → Int} {out : List Int} (hc : Concretises inputs cs)
    (h : Aten.outputShape op rt cs = some out) :
    RightAbout (inferOutputShape op inputs) out ↔ Handled op (inputs.map TensorTy.shape) cs := by
  have hcov := hc.covers
  unfold Aten.outputShape at h
  split at h
  case _ a b =>
    obtain ⟨x, xs, rfl, hx, hxs⟩ := covers_cons hcov
    obtain ⟨y, rfl, hy⟩ := covers_one hxs
    exact inferMatmul_right_iff hx hy h
  -- a linear layer without a bias, and with one
  case _ cx cw =>
    obtain ⟨x, xs, rfl, hx, hxs⟩ := covers_cons hcov
    obtain ⟨w, rfl, hw⟩ := covers_one hxs
    have hlinear : RightAbout (inferLinear (x :: w :: [])) out ↔ LinearHandled cx cw :=
      inferLinear_right_iff hx hw h
    exact hlinear
  case _ cx cw cb =>
    obtain ⟨x, xs, rfl, hx, hxs⟩ := covers_cons hcov
    obtain ⟨w, ws, rfl, hw, -⟩ := covers_cons hxs
    have hlinear : RightAbout (inferLinear (x :: w :: ws)) out ↔ LinearHandled cx cw :=
      inferLinear_right_iff hx hw h
    exact hlinear
  case _ name a => exact iff_of_true (inferBinary_right hcov h) trivial
  case _ name a b => exact iff_of_true (inferBinary_right hcov h) trivial
  case _ dim start stop step c =>
    obtain ⟨x, rfl, hx⟩ := covers_one hcov
    obtain ⟨i, hi, -⟩ := Option.bind_eq_some_iff.1 h
    have hright := inferSlice_right_iff hx (hc.nonneg c mem_cons_self) hi h
    refine hright.trans ⟨fun hs i' hi' => ?_, fun hs => hs i hi⟩
    obtain rfl : i = i' := Option.some.inj (hi.symm.trans hi')
    exact hs
  case _ dim index c =>
    obtain ⟨x, rfl, hx⟩ := covers_one hcov
    exact iff_of_true (inferSelect_right hx h) trivial
  case _ dim0 dim1 c =>
    obtain ⟨x, rfl, hx⟩ := covers_one hcov
    exact inferTranspose_right_iff hx h
  case _ dim c =>
    obtain ⟨x, rfl, hx⟩ := covers_one hcov
    exact iff_of_true (inferUnsqueeze_right hx h) trivial
  case _ dim cs => exact inferCat_right_iff hcov h
  case _ dim cs => exact iff_of_false (inferStack_wrong hcov h) id
  case _ name dim keepdim c =>
    obtain ⟨x, rfl, hx⟩ := covers_one hcov
    exact inferReduce_right_iff hx h
  case _ shape c =>
    obtain ⟨x, rfl, hx⟩ := covers_one hcov
    exact iff_of_true (inferExpand_right hx h) trivial
  case _ pads c =>
    obtain ⟨x, rfl, hx⟩ := covers_one hcov
    exact iff_of_true (inferPad_right hx h) trivial
  -- a convolution without a bias, and with one
  case _ stride padding dilation groups cx cw =>
    obtain ⟨x, xs, rfl, hx, hxs⟩ := covers_cons hcov
    obtain ⟨w, rfl, hw⟩ := covers_one hxs
    have hconv : RightAbout (inferConv1d stride padding dilation (x :: w :: [])) out ↔
        Conv1dHandled stride padding dilation x.shape w.shape cx cw :=
      inferConv1d_right_iff hx hw h
    exact hconv
  case _ stride padding dilation groups cx cw cb =>
    obtain ⟨x, xs, rfl, hx, hxs⟩ := covers_cons hcov
    obtain ⟨w, ws, rfl, hw, -⟩ := covers_cons hxs
    have hconv : RightAbout (inferConv1d stride padding dilation (x :: w :: ws)) out ↔
        Conv1dHandled stride padding dilation x.shape w.shape cx cw :=
      inferConv1d_right_iff hx hw h
    exact hconv
  case _ weight indices =>
    obtain ⟨w, ws, rfl, hw, hws⟩ := covers_cons hcov
    obtain ⟨ids, rfl, hids⟩ := covers_one hws
    exact iff_of_true (inferEmbedding_right hw hids h) trivial
  -- attention without a mask, and with one
  case _ gqa cq ck cv =>
    obtain ⟨q, qs, rfl, hq, hqs⟩ := covers_cons hcov
    obtain ⟨k, ks, rfl, hk, hks⟩ := covers_cons hqs
    obtain ⟨v, rfl, hv⟩ := covers_one hks
    exact inferSdpa_right_iff hq hk hv .nil h
  case _ gqa cq ck cv cm =>
    obtain ⟨q, qs, rfl, hq, hqs⟩ := covers_cons hcov
    obtain ⟨k, ks, rfl, hk, hks⟩ := covers_cons hqs
    obtain ⟨v, vs, rfl, hv, hvs⟩ := covers_cons hks
    have hmask : List.Forall₂ Covers (vs.map TensorTy.shape) (some cm).toList := hvs
    exact inferSdpa_right_iff hq hk hv hmask h
  case _ => cases h

/-- A product of a matrix with an unknown number of rows. -/
theorem inferOutputShape_right_iff_product :
    Concretises [⟨[none, some 3], "f32"⟩, ⟨[some 3, some 4], "f32"⟩] [[2, 3], [3, 4]] ∧
      (RightAbout (inferOutputShape .matmul
          [⟨[none, some 3], "f32"⟩, ⟨[some 3, some 4], "f32"⟩]) [2, 4] ↔
        Handled .matmul [[none, some 3], [some 3, some 4]] [[2, 3], [3, 4]]) := by
  have hc : Concretises [⟨[none, some 3], "f32"⟩, ⟨[some 3, some 4], "f32"⟩]
      [[2, 3], [3, 4]] := by
    constructor
    · exact .cons (Covers.pair (agrees_none 2) (agrees_self 3))
        (.cons (Covers.pair (agrees_self 3) (agrees_self 4)) .nil)
    · decide
  have h : Aten.outputShape .matmul (fun _ => 0) [[2, 3], [3, 4]] = some [2, 4] := by decide
  exact ⟨hc, inferOutputShape_right_iff hc h⟩

/-- `x[0:10]` of four elements: ATen takes four, the inferred size is 10. -/
theorem inferOutputShape_fails :
    ¬ ∀ (op : Op) (inputs : List TensorTy) (cs : List (List Int)) (rt : Nat → Int)
      (out : List Int), Concretises inputs cs → Aten.outputShape op rt cs = some out →
      RightAbout (inferOutputShape op inputs) out := by
  intro h
  have hc : Concretises [⟨[some 4], "f32"⟩] [[4]] :=
    ⟨.cons (Covers.singleton (agrees_self 4)) .nil, by decide⟩
  have hout : Aten.outputShape (.slice 0 none (some 10) 1) (fun _ => 0) [[4]] = some [4] := by
    decide
  obtain ⟨t, ht, hcov⟩ := h _ _ _ _ _ hc hout
  have hten : inferOutputShape (.slice 0 none (some 10) 1) [⟨[some 4], "f32"⟩] =
      .ok ⟨[some 10], "f32"⟩ := by decide
  rw [hten] at ht
  rw [← Except.ok.inj ht] at hcov
  exact absurd (agrees_some.1 (forall₂_cons.1 hcov).1) (by decide)

end CompileForge.Compiler.Shape
