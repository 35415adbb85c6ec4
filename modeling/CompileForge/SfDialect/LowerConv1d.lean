/-
  `SfConv1dOpLowering` (`sf-dialect/lib/Sf/SfLowerMatmul.cpp`) run on its operands.  Sizes do not
  overflow `index`.
-/

import CompileForge.SfDialect.LowerBroadcast
import CompileForge.SfDialect.LowerSlice

namespace CompileForge.SfDialect

open Lib List

/-! ## The lowering -/

/-- The attributes of `sf.conv1d`; ATen takes no negative ones. -/
structure Conv1dAttrs where
  stride : List Nat
  padding : List Nat
  dilation : List Nat
  groups : Nat

def listInt (arr : List Nat) (default : Nat) : Nat := arr.headD default

variable {α : Type}

/-- The input is padded along its last dim. -/
def convInput [Zero α] (inType : RankedType) (padding : Nat) (input : Tensor α) :
    Option (Tensor α) :=
  if 0 < padding then
    let amount := fun d => if d = 2 then (padding : Int) else 0
    padTensor inType [inType.getD 0 none, inType.getD 1 none,
      (inType.getD 2 none).map (· + 2 * padding)] input amount amount 0
  else some input

/-- The input channel of an output channel and a channel of its group. -/
def inChExpr (outPerGroup inPerGroup : Nat) : AffineExpr :=
  let groupExpr := if outPerGroup ≠ 1 then AffineExpr.floorDiv (.dim 1) outPerGroup else .dim 1
  if inPerGroup ≠ 1 then .add (.mul groupExpr inPerGroup) (.dim 4) else groupExpr

/-- The loops over batch, output channel, output place, tap and channel of the group. -/
def convNest [Mul α] [Add α] (stride dilation outPerGroup inPerGroup : Nat)
    (input weight init : Tensor α) : AffineNest α where
  numLoops := 5
  ins :=
    let posExpr := .add (.mul (.dim 2) stride) (.mul (.dim 3) dilation)
    [([.dim 0, inChExpr outPerGroup inPerGroup, posExpr], input),
      ([.dim 1, .dim 4, .dim 3], weight)]
  outDims := [0, 1, 2]
  init := init
  body args out := match args with
    | [a, b] => out + a * b
    | _ => out

/-- A bias is added to every channel. -/
def biasNest [Add α] (result bias init : Tensor α) : LoopNest α where
  numLoops := 3
  ins := [(identityMap 3, result), ([.dim 1], bias)]
  outMap := identityMap 3
  init := init
  body args out := match args with
    | [a, b] => a + b
    | _ => out

def convSizes (attrs : Conv1dAttrs) (kernel : Nat) (outType : RankedType)
    (input convInput weight : Tensor α) : List Int :=
  (openDims outType).map fun i =>
    if i = 0 then (input.shape.getD 0 0 : Int)
    else if i = 1 then (weight.shape.getD 0 0 : Int)
    else ((convInput.shape.getD 2 0 : Int) -
      ((listInt attrs.dilation 1 * (kernel - 1) + 1 : Nat) : Int)) / listInt attrs.stride 1 + 1

def addBias [Add α] (outType : RankedType) (bias : Option (RankedType × Tensor α))
    (undef : List Nat → α) (result : Tensor α) : Lowered (Tensor α) :=
  match bias with
  | none => .ok result
  | some (biasType, b) =>
    if biasType.length = 1 then do
      let outEmpty ← emit (makeEmpty outType [(outType, result.shape)] undef)
      emit (biasNest result b outEmpty).run
    else .ok result

/-- Five loops add up the products of a group's channels and the taps of the kernel. -/
def lowerConv1d [Zero α] [Add α] [Mul α] (elt : EltType) (inType wType outType : RankedType)
    (attrs : Conv1dAttrs) (input weight : Tensor α) (bias : Option (RankedType × Tensor α))
    (undef : List Nat → α) : Lowered (Tensor α) :=
  if inType.length ≠ 3 ∨ wType.length ≠ 3 ∨ outType.length ≠ 3 then .error .noMatch
  else if elt.floatWidth = none then .error .noMatch
  else
    let stride := listInt attrs.stride 1
    match wType.getD 0 none, wType.getD 2 none with
    | some outChannels, some kernel =>
      -- an open dim is negative here, which the tests take like 0
      let inChannels := (inType.getD 1 none).getD 0
      if outChannels = 0 ∨ kernel = 0 ∨ attrs.groups = 0 ∨ stride = 0 then .error .noMatch
      else if outChannels % attrs.groups ≠ 0 ∨
          0 < inChannels ∧ inChannels % attrs.groups ≠ 0 then .error .noMatch
      else
        let outPerGroup := outChannels / attrs.groups
        let wChannels := (wType.getD 1 none).getD 0
        let inPerGroup :=
          if wChannels = 0 ∧ 0 < inChannels then inChannels / attrs.groups else wChannels
        if inPerGroup = 0 then .error .noMatch
        else do
          let convInput ← emit (convInput inType (listInt attrs.padding 0) input)
          let shape ← emit (fillShape outType
            (convSizes attrs kernel outType input convInput weight))
          let result ← emit (convNest stride (listInt attrs.dilation 1) outPerGroup inPerGroup
            convInput weight ⟨shape, fun _ => 0⟩).run
          addBias outType bias undef result
    | _, _ => .error .noMatch

/-! ## What a convolution is -/

/-- The places at which the kernel lies inside the padded input. -/
def outLength (attrs : Conv1dAttrs) (l k : Nat) : Nat :=
  (l + 2 * listInt attrs.padding 0 - (listInt attrs.dilation 1 * (k - 1) + 1)) /
    listInt attrs.stride 1 + 1

/-- The input with zeros on both sides. -/
def padded [Zero α] (padding : Nat) (x : Tensor α) (b ch pos : Nat) : α :=
  if padding ≤ pos ∧ pos < padding + x.shape.getD 2 0 then x.elem [b, ch, pos - padding] else 0

/-- The sum over the channels of the group and the taps. -/
def convAt [AddCommMonoid α] [Mul α] (attrs : Conv1dAttrs) (x w : Tensor α) (b o t : Nat) : α :=
  let group := o / (w.shape.getD 0 0 / attrs.groups)
  (grid (w.shape.getD 1 0) (w.shape.getD 2 0) fun ch j => w.elem [o, ch, j] *
    padded (listInt attrs.padding 0) x b (group * w.shape.getD 1 0 + ch)
      (t * listInt attrs.stride 1 + j * listInt attrs.dilation 1)).sum

/-- What the op means. -/
def conv1d [AddCommMonoid α] [Mul α] (attrs : Conv1dAttrs) (x w : Tensor α)
    (bias : Option (Tensor α)) : Tensor α where
  shape := [x.shape.getD 0 0, w.shape.getD 0 0,
    outLength attrs (x.shape.getD 2 0) (w.shape.getD 2 0)]
  elem c :=
    let y := convAt attrs x w (c.getD 0 0) (c.getD 1 0) (c.getD 2 0)
    match bias with
    | none => y
    | some bias => y + bias.elem [c.getD 1 0]

/-- The operands of a convolution that has an output place. -/
structure Convolves (attrs : Conv1dAttrs) (x w : Tensor α) (batch inPer outPer l k : Nat) :
    Prop where
  input : x.shape = [batch, attrs.groups * inPer, l]
  weight : w.shape = [attrs.groups * outPer, inPer, k]
  groups : 0 < attrs.groups
  inPer : 0 < inPer
  outPer : 0 < outPer
  kernel : 0 < k
  stride : 0 < listInt attrs.stride 1
  fits : listInt attrs.dilation 1 * (k - 1) + 1 ≤ l + 2 * listInt attrs.padding 0

section Loops

variable [CommSemiring α] {attrs : Conv1dAttrs} {inType : RankedType} {x w y init : Tensor α}
  {batch inPer outPer l k : Nat}

variable {b j m o ch : Nat}

theorem inShape_three {a c i : Nat} :
    InShape [a, b, c] [i, j, m] ↔ i < a ∧ j < b ∧ m < c := by
  simp [InShape]

section

omit [CommSemiring α]

/-- The padded input has the element or zero at every place. -/
theorem convInput_eq [Zero α] (h : Convolves attrs x w batch inPer outPer l k)
    (hfits : Fits x.shape inType) :
    ∃ y, convInput inType (listInt attrs.padding 0) x = some y ∧
      y.shape = [batch, attrs.groups * inPer, l + 2 * listInt attrs.padding 0] ∧
      ∀ b ch pos, InShape y.shape [b, ch, pos] →
        y.elem [b, ch, pos] = padded (listInt attrs.padding 0) x b ch pos := by
  have hx := h.input
  have hlen : x.shape.getD 2 0 = l := by rw [hx]; rfl
  rcases Nat.eq_zero_or_pos (listInt attrs.padding 0) with hzero | hpos
  · rw [hzero]
    refine ⟨x, rfl, hx, fun b ch pos hin => ?_⟩
    rw [hx, inShape_three] at hin
    rw [padded, hlen, if_pos (by omega), Nat.sub_zero]
  · obtain ⟨d₀, d₁, d₂, rfl⟩ : ∃ d₀ d₁ d₂, inType = [d₀, d₁, d₂] := by
      have hrank := hfits.length_eq
      rw [hx] at hrank
      exact length_eq_three.1 hrank.symm
    let amount : Nat → Int := fun d => if d = 2 then (listInt attrs.padding 0 : Int) else 0
    have hshape : ((range x.shape.length).map fun d =>
        ((x.shape.getD d 0 : Int) + amount d + amount d).toNat) =
        [batch, attrs.groups * inPer, l + 2 * listInt attrs.padding 0] := by
      rw [hx]
      show [_, _, _] = _
      simp [amount]
      omega
    refine ⟨⟨_, surround x amount 0⟩, ?_, hshape, fun b ch pos hin => ?_⟩
    · rw [convInput, if_pos hpos, padTensor, if_pos]
      intro d hd
      rw [hx] at hd hfits
      obtain rfl | rfl | rfl : d = 0 ∨ d = 1 ∨ d = 2 := by simp at hd; omega
      · cases d₀ <;> simp
      · cases d₁ <;> simp
      · cases d₂ with
        | none => simp
        | some =>
          simp
          omega
    · rw [hshape, inShape_three] at hin
      have hinside : (∀ d < x.shape.length, amount d ≤ ([b, ch, pos].getD d 0 : Nat) ∧
          ([b, ch, pos].getD d 0 : Nat) < amount d + (x.shape.getD d 0 : Nat)) ↔
          listInt attrs.padding 0 ≤ pos ∧ pos < listInt attrs.padding 0 + l := by
        rw [hx]
        constructor
        · intro h
          have hlast := h 2 (by simp)
          simp [amount] at hlast
          omega
        · intro h d hd
          obtain rfl | rfl | rfl : d = 0 ∨ d = 1 ∨ d = 2 := by simp at hd; omega
          all_goals simp [amount]; omega
      show surround x amount 0 [b, ch, pos] = _
      simp only [surround, padded, hlen, hinside]
      refine if_congr Iff.rfl (congrArg x.elem ?_) rfl
      rw [hx]
      show [_, _, _] = _
      simp [amount]

theorem inChExpr_at (hch : ch < inPer) :
    (inChExpr outPer inPer).at [b, o, m, j, ch] = o / outPer * inPer + ch := by
  have hgroup : (if outPer ≠ 1 then AffineExpr.floorDiv (.dim 1) outPer else .dim 1).at
      [b, o, m, j, ch] = o / outPer := by
    split_ifs with ho
    · rfl
    · rw [not_not.1 ho, Nat.div_one]
      rfl
  by_cases hi : inPer = 1
  · rw [inChExpr, if_neg (not_not.2 hi), hgroup, hi]
    omega
  · rw [inChExpr, if_pos hi, ← hgroup]
    rfl

theorem channel_lt (ho : o < attrs.groups * outPer) (hch : ch < inPer) :
    o / outPer * inPer + ch < attrs.groups * inPer := by
  have hgroup : o / outPer < attrs.groups :=
    Nat.div_lt_of_lt_mul (by rwa [mul_comm] at ho)
  have hle := Nat.mul_le_mul_right inPer hgroup
  rw [Nat.succ_mul] at hle
  omega

theorem Convolves.place_lt (h : Convolves attrs x w batch inPer outPer l k)
    (hm : m < outLength attrs l k) (hj : j < k) :
    m * listInt attrs.stride 1 + j * listInt attrs.dilation 1 <
      l + 2 * listInt attrs.padding 0 := by
  have hfits := h.fits
  have hm' : m * listInt attrs.stride 1 ≤ l + 2 * listInt attrs.padding 0 -
      (listInt attrs.dilation 1 * (k - 1) + 1) :=
    (Nat.le_div_iff_mul_le h.stride).1 (Nat.le_of_lt_succ hm)
  have hj' : j * listInt attrs.dilation 1 ≤ listInt attrs.dilation 1 * (k - 1) := by
    rw [mul_comm]
    exact Nat.mul_le_mul_left _ (Nat.le_sub_one_of_lt hj)
  omega

end

theorem filter_points_perm (inPer k : Nat) {T t : Nat}
    (hin : InShape [batch, l, T] [b, o, t]) :
    ((points [batch, l, T, k, inPer]).filter fun p =>
      [0, 1, 2].map (p.getD · 0) = [b, o, t]).Perm (grid inPer k fun ch j => [b, o, t, j, ch]) := by
  have hgrid : (grid inPer k fun ch j => [b, o, t, j, ch]).Nodup :=
    nodup_grid fun _ _ _ _ h => by simpa [and_comm] using h
  refine (perm_ext_iff_of_nodup ((nodup_points _).filter _) hgrid).2 fun p => ?_
  rw [inShape_three] at hin
  rw [mem_filter, mem_points, mem_grid, decide_eq_true_eq]
  constructor
  · rintro ⟨hp, hat⟩
    obtain ⟨b', o', t', j, ch, rfl⟩ : ∃ b' o' t' j ch, p = [b', o', t', j, ch] := by
      match p, hp.length_eq with
      | [b', o', t', j, ch], _ => exact ⟨b', o', t', j, ch, rfl⟩
    simp [InShape] at hp hat
    obtain ⟨rfl, rfl, rfl⟩ := hat
    exact ⟨ch, hp.2.2.2.2, j, hp.2.2.2.1, rfl⟩
  · rintro ⟨ch, hch, j, hj, rfl⟩
    exact ⟨by simp [InShape, hin, hch, hj], by simp⟩

theorem run_convNest (h : Convolves attrs x w batch inPer outPer l k)
    (hy : y.shape = [batch, attrs.groups * inPer, l + 2 * listInt attrs.padding 0])
    (hinit : init.shape = [batch, attrs.groups * outPer, outLength attrs l k])
    (hzero : init.elem = fun _ => 0) :
    ∃ t, (convNest (listInt attrs.stride 1) (listInt attrs.dilation 1) outPer inPer y w init).run =
        some t ∧ t.shape = init.shape ∧ ∀ b o m, InShape init.shape [b, o, m] →
      t.elem [b, o, m] = (grid inPer k fun ch j => w.elem [o, ch, j] *
        y.elem [b, o / outPer * inPer + ch,
          m * listInt attrs.stride 1 + j * listInt attrs.dilation 1]).sum := by
  have hx := h.inPer
  let products : List α → α := fun args => match args with
    | [a, b] => a * b
    | _ => 0
  let box := [batch, attrs.groups * outPer, outLength attrs l k, k, inPer]
  let g := convNest (listInt attrs.stride 1) (listInt attrs.dilation 1) outPer inPer y w init
  have hbox : g.sizes = some box := by
    simp only [AffineNest.sizes, g, box, convNest, inChExpr, flatMap_cons, flatMap_nil, hy,
      h.weight, hinit]
    split_ifs with hi ho ho
    · rfl
    · rfl
    · rfl
    · -- a channel of the output has the size of its channel of the input
      simp only [not_not.1 ho, not_not.1 hi]
      rfl
  have hpoint : ∀ p, InShape box p → ∃ b o m j ch, p = [b, o, m, j, ch] ∧ b < batch ∧
      o < attrs.groups * outPer ∧ m < outLength attrs l k ∧ j < k ∧ ch < inPer := by
    intro p hp
    match p, hp.length_eq with
    | [b, o, m, j, ch], _ => exact ⟨b, o, m, j, ch, rfl, by simpa [box, InShape] using hp⟩
  obtain ⟨t, hrun, hshape, helem⟩ := AffineNest.run_add (g := g) (f := products) rfl rfl hbox
    (by
      intro i hi p hp
      obtain ⟨b, o, m, j, ch, rfl, hb, ho, hm, hj, hch⟩ := hpoint p hp
      rcases mem_cons.1 hi with rfl | hi
      · show InShape y.shape [b, (inChExpr outPer inPer).at _, _]
        rw [hy, inChExpr_at hch]
        exact inShape_three.2 ⟨hb, channel_lt ho hch, h.place_lt hm hj⟩
      · rw [mem_singleton.1 hi, h.weight]
        exact inShape_three.2 ⟨ho, hch, hj⟩)
    (by
      intro p hp
      obtain ⟨b, o, m, j, ch, rfl, hb, ho, hm, -, -⟩ := hpoint p hp
      show InShape init.shape [b, o, m]
      rw [hinit]
      exact inShape_three.2 ⟨hb, ho, hm⟩)
    (by
      intro args out
      rcases args with _ | ⟨a, _ | ⟨b, _ | ⟨c, args⟩⟩⟩
      · exact (zero_add out).symm
      · exact (zero_add out).symm
      · exact add_comm _ _
      · exact (zero_add out).symm)
  refine ⟨t, hrun, hshape, fun b o m hin => ?_⟩
  rw [hinit] at hin
  have hperm := filter_points_perm inPer k hin
  rw [helem, show g.init.elem = fun _ => 0 from hzero, add_zero]
  refine ((hperm.map _).sum_eq).trans ?_
  rw [map_grid]
  refine congrArg sum (grid_congr fun ch hch j _ => ?_)
  show y.elem [b, (inChExpr outPer inPer).at _, _] * w.elem [o, ch, j] = _
  rw [inChExpr_at hch, mul_comm]
  rfl

theorem run_biasNest {result bias : Tensor α} {n p : Nat}
    (hresult : result.shape = [n, m, p]) (hbias : bias.shape = [m])
    (hinit : init.shape = [n, m, p]) :
    ∃ t, (biasNest result bias init).run = some t ∧ t.shape = [n, m, p] ∧
      ∀ c, InShape [n, m, p] c → t.elem c = result.elem c + bias.elem [c.getD 1 0] := by
  have hbox : loopSizes (biasNest result bias init).numLoops
      (biasNest result bias init).operands = some [n, m, p] := by
    rw [LoopNest.operands, biasNest, map_cons, hresult]
    exact loopSizes_identity [n, m, p] _
  obtain ⟨t, hrun, hshape, helem⟩ := LoopNest.run_parallel (g := biasNest result bias init) rfl
    hbox (by
      intro o ho c hc
      have hc := mem_points.1 hc
      have hid : (identityMap 3).at c = c := identityMap_at hc.length_eq
      simp only [LoopNest.operands, biasNest, map_cons, map_nil, cons_append, nil_append,
        mem_cons, not_mem_nil, or_false] at ho
      rcases ho with rfl | rfl | rfl
      · rwa [hid, hresult]
      · rw [hbias]
        exact .cons ((inShape_iff_getD.1 hc).2 1 (by simp)) .nil
      · rwa [hid, hinit])
  refine ⟨t, hrun, hshape.trans hinit, fun c hc => (helem c hc).trans ?_⟩
  have hid : (identityMap 3).at c = c := identityMap_at hc.length_eq
  show result.elem ((identityMap 3).at c) + _ = _
  rw [hid]
  rfl

end Loops

/-! ## The result -/

/-- The dims of the weight that size the loops have to be known. -/
def LoopsSized (inType wType : RankedType) : Prop :=
  wType.getD 0 none ≠ none ∧ wType.getD 2 none ≠ none ∧
    (wType.getD 1 none ≠ none ∨ inType.getD 1 none ≠ none)

section Result

variable [CommSemiring α] {attrs : Conv1dAttrs} {inType wType outType biasType : RankedType}
  {x w : Tensor α} {batch inPer outPer l k : Nat} {elt : EltType} {bias : Option (Tensor α)}
  {undef : List Nat → α}

omit [CommSemiring α] in
theorem fillShape_convSizes (h : Convolves attrs x w batch inPer outPer l k) {y : Tensor α}
    (hy : y.shape = [batch, attrs.groups * inPer, l + 2 * listInt attrs.padding 0])
    (hout : Fits [batch, attrs.groups * outPer, outLength attrs l k] outType) :
    fillShape outType (convSizes attrs k outType x y w) =
      some [batch, attrs.groups * outPer, outLength attrs l k] := by
  refine fillShape_eq_some.2 ⟨hout, map_congr_left fun i hi => ?_⟩
  have hlt := (mem_openDims.1 hi).1
  rw [← hout.length_eq] at hlt
  rw [h.input, h.weight, hy]
  match i, hlt with
  | 0, _ => rfl
  | 1, _ => rfl
  | 2, _ =>
    show (((l + 2 * listInt attrs.padding 0 : Nat) : Int) - (_ : Nat)) / (_ : Nat) + 1 =
      ((_ / _ + 1 : Nat) : Int)
    rw [← Int.ofNat_sub h.fits]
    rfl

/-- Where the sizes are known, the pattern applies with the sizes of the groups. -/
theorem lowerConv1d_eq (helt : elt.floatWidth ≠ none)
    (h : Convolves attrs x w batch inPer outPer l k) (hin : Fits x.shape inType)
    (hw : Fits w.shape wType) (hout : outType.length = 3) (hsized : LoopsSized inType wType)
    (bias : Option (RankedType × Tensor α)) :
    lowerConv1d elt inType wType outType attrs x w bias undef =
      (emit (convInput inType (listInt attrs.padding 0) x) >>= fun y =>
        emit (fillShape outType (convSizes attrs k outType x y w)) >>= fun shape =>
          emit (convNest (listInt attrs.stride 1) (listInt attrs.dilation 1) outPer inPer y w
            ⟨shape, fun _ => 0⟩).run >>= addBias outType bias undef) := by
  have hgroups := h.groups
  have hinPer := h.inPer
  rw [h.input] at hin
  rw [h.weight] at hw
  obtain ⟨hO, hK, hI⟩ := hsized
  have hrank : ¬ (inType.length ≠ 3 ∨ wType.length ≠ 3 ∨ outType.length ≠ 3) := by
    have hin' := hin.length_eq
    have hw' := hw.length_eq
    simp only [length_cons, length_nil] at hin' hw'
    omega
  -- a size that is known is the one of the operand
  have hsize : ∀ {s : List Nat} {ty : RankedType}, Fits s ty → ∀ i, ty.getD i none ≠ none →
      ty.getD i none = some (s.getD i 0) := by
    intro s ty hs i hi
    obtain ⟨n, hn⟩ := Option.ne_none_iff_exists'.1 hi
    rw [← getD_of_fits hs i, hn, Option.getD_some]
  have hper : (if ((wType.getD 1 none).getD 0) = 0 ∧ 0 < (inType.getD 1 none).getD 0 then
      (inType.getD 1 none).getD 0 / attrs.groups else (wType.getD 1 none).getD 0) = inPer := by
    by_cases hw₁ : wType.getD 1 none = none
    · rw [hw₁, hsize hin 1 (hI.resolve_left (not_not.2 hw₁))]
      simp [hgroups, hinPer]
    · rw [hsize hw 1 hw₁]
      simp
      omega
  have hdvd : ¬ (attrs.groups * outPer % attrs.groups ≠ 0 ∨ 0 < (inType.getD 1 none).getD 0 ∧
      (inType.getD 1 none).getD 0 % attrs.groups ≠ 0) := by
    by_cases hi₁ : inType.getD 1 none = none
    · rw [hi₁]
      simp
    · rw [hsize hin 1 hi₁]
      simp
  have hpos : ¬ (attrs.groups * outPer = 0 ∨ k = 0 ∨ attrs.groups = 0 ∨
      listInt attrs.stride 1 = 0) := by
    have hout := mul_pos hgroups h.outPer
    have hk := h.kernel
    have hs := h.stride
    omega
  rw [lowerConv1d, if_neg hrank, if_neg helt, hsize hw 0 hO, hsize hw 2 hK]
  simp only [getD_cons_zero, getD_cons_succ]
  rw [if_neg hpos, if_neg hdvd, hper, if_neg hinPer.ne', Nat.mul_div_cancel_left _ hgroups]

theorem lowerConv1d_noMatch (hsized : ¬ LoopsSized inType wType)
    (bias : Option (RankedType × Tensor α)) :
    lowerConv1d elt inType wType outType attrs x w bias undef = .error .noMatch := by
  rw [lowerConv1d]
  split
  · rfl
  split
  · rfl
  cases hO : wType.getD 0 none with
  | none => rfl
  | some O =>
    cases hK : wType.getD 2 none with
    | none => rfl
    | some K =>
      obtain ⟨hw₁, hi₁⟩ : wType.getD 1 none = none ∧ inType.getD 1 none = none := by
        by_contra hnot
        exact hsized ⟨by rw [hO]; exact Option.some_ne_none O,
          by rw [hK]; exact Option.some_ne_none K, not_and_or.1 hnot⟩
      rw [hw₁, hi₁]
      dsimp only
      split
      · rfl
      split
      · rfl
      · rfl

section

omit [CommSemiring α]

theorem conv1dScalar_list (vs : List Nat) (default : Nat) :
    Compiler.Shape.conv1dScalar (.list (vs.map Int.ofNat)) default =
      .ok (listInt vs default : Int) := by
  cases vs <;> rfl

/-- Inference reports the number of places, where it knows the length of the input. -/
theorem inferConv1d_eq (h : Convolves attrs x w batch inPer outPer l k)
    (hin : Fits x.shape inType) (hw : Fits w.shape wType) (hk : wType.getD 2 none ≠ none)
    (xElt wElt : String) (rest : List Compiler.Shape.TensorTy) :
    Compiler.Shape.inferConv1d (.list (attrs.stride.map Int.ofNat))
        (.list (attrs.padding.map Int.ofNat)) (.list (attrs.dilation.map Int.ofNat))
        (⟨inType.map (Option.map Int.ofNat), xElt⟩ ::
          ⟨wType.map (Option.map Int.ofNat), wElt⟩ :: rest) =
      .ok ⟨[(inType.getD 0 none).map Int.ofNat, (wType.getD 0 none).map Int.ofNat,
        (inType.getD 2 none).map fun _ => (outLength attrs l k : Int)], xElt⟩ := by
  obtain ⟨d₀, d₁, d₂, rfl⟩ := length_eq_three.1 (hin.length_eq.symm.trans (by rw [h.input]; rfl))
  obtain ⟨e₀, e₁, e₂, rfl⟩ := length_eq_three.1 (hw.length_eq.symm.trans (by rw [h.weight]; rfl))
  obtain ⟨n, hn⟩ := Option.ne_none_iff_exists'.1 hk
  obtain rfl : e₂ = some n := hn
  have hkernel := getD_of_fits hw 2
  rw [h.weight] at hkernel
  obtain rfl : n = k := hkernel
  have hstride := conv1dScalar_list attrs.stride 1
  have hpadding := conv1dScalar_list attrs.padding 0
  have hdilation := conv1dScalar_list attrs.dilation 1
  rw [Nat.cast_one] at hstride hdilation
  rw [Nat.cast_zero] at hpadding
  simp only [Compiler.Shape.inferConv1d, map_cons, map_nil]
  rw [if_neg (by simp), hstride, hpadding, hdilation]
  cases d₂ with
  | none => rfl
  | some m =>
    have hlength := getD_of_fits hin 2
    rw [h.input] at hlength
    obtain rfl : m = l := hlength
    -- the last tap lies inside the padded input, so Python's division is the one of numbers
    have hrest : (m : Int) + 2 * (listInt attrs.padding 0 : Nat) -
        (listInt attrs.dilation 1 : Nat) * ((n : Int) - 1) - 1 =
        ((m + 2 * listInt attrs.padding 0 -
          (listInt attrs.dilation 1 * (n - 1) + 1) : Nat) : Int) := by
      have hone : ((n - 1 : Nat) : Int) = (n : Int) - 1 := Int.ofNat_sub h.kernel
      rw [Int.ofNat_sub h.fits]
      push_cast
      rw [← hone]
      exact Int.sub_sub _ _ _
    have hlen : (if (0 : Int) < (listInt attrs.stride 1 : Nat) then
        ((m : Int) + 2 * (listInt attrs.padding 0 : Nat) -
          (listInt attrs.dilation 1 : Nat) * ((n : Int) - 1) - 1).fdiv
            (listInt attrs.stride 1 : Nat) + 1 else (m : Int)) = (outLength attrs m n : Int) := by
      rw [if_pos (Int.natCast_pos.2 h.stride), hrest,
        Int.fdiv_eq_ediv_of_nonneg _ (Int.natCast_nonneg _)]
      rfl
    exact congrArg (fun len => Except.ok
      (⟨[d₀.map Int.ofNat, e₀.map Int.ofNat, some len], xElt⟩ : Compiler.Shape.TensorTy)) hlen

end

/-- Where loop sizes are known, a convolution's loops compute it within bounds; else no pattern. -/
theorem lowerConv1d_spec (helt : elt.floatWidth ≠ none)
    (h : Convolves attrs x w batch inPer outPer l k) (hin : Fits x.shape inType)
    (hw : Fits w.shape wType) (hout : Fits (conv1d attrs x w bias).shape outType)
    (hbias : ∀ b ∈ bias, b.shape = [attrs.groups * outPer] ∧ biasType.length = 1)
    (xElt : String) (rest : List Compiler.Shape.TensorTy) (wElt : String) :
    (LoopsSized inType wType →
      (∃ t, lowerConv1d elt inType wType outType attrs x w (bias.map (biasType, ·)) undef = .ok t ∧
        t.Same (conv1d attrs x w bias)) ∧
      Compiler.Shape.inferConv1d (.list (attrs.stride.map Int.ofNat))
          (.list (attrs.padding.map Int.ofNat)) (.list (attrs.dilation.map Int.ofNat))
          (⟨inType.map (Option.map Int.ofNat), xElt⟩ ::
            ⟨wType.map (Option.map Int.ofNat), wElt⟩ :: rest) =
        .ok ⟨[(inType.getD 0 none).map Int.ofNat, (wType.getD 0 none).map Int.ofNat,
          (inType.getD 2 none).map fun _ => (outLength attrs l k : Int)], xElt⟩) ∧
    (¬ LoopsSized inType wType →
      lowerConv1d elt inType wType outType attrs x w (bias.map (biasType, ·)) undef =
        .error .noMatch) := by
  have hconv : (conv1d attrs x w bias).shape =
      [batch, attrs.groups * outPer, outLength attrs l k] := by
    simp only [conv1d, h.input, h.weight]
    rfl
  refine ⟨fun hsized => ⟨?_, inferConv1d_eq h hin hw hsized.2.1 xElt wElt rest⟩,
    fun hsized => lowerConv1d_noMatch hsized _⟩
  · rw [hconv] at hout
    obtain ⟨y, hpad, hy, hyelem⟩ := convInput_eq h hin
    obtain ⟨t, hrun, hshape, helem⟩ : ∃ t, (convNest _ _ _ _ y w ⟨[batch, attrs.groups * outPer,
      outLength attrs l k], fun _ => (0 : α)⟩).run = some t ∧
        t.shape = [batch, attrs.groups * outPer, outLength attrs l k] ∧ _ :=
      run_convNest h hy rfl rfl
    rw [lowerConv1d_eq helt h hin hw hout.length_eq.symm hsized, hpad]
    show ∃ t, (emit (fillShape outType (convSizes attrs k outType x y w)) >>= _) = .ok t ∧ _
    rw [fillShape_convSizes h hy hout]
    change ∃ t', (emit (convNest _ _ _ _ _ _ _).run >>= addBias outType _ undef) = .ok t' ∧ _
    rw [hrun]
    show ∃ t', addBias outType _ undef t = .ok t' ∧ _
    have hsame : ∀ c, InShape [batch, attrs.groups * outPer, outLength attrs l k] c →
        t.elem c = convAt attrs x w (c.getD 0 0) (c.getD 1 0) (c.getD 2 0) := by
      intro c hc
      match c, hc.length_eq with
      | [b, o, m], _ =>
        obtain ⟨hb, ho, hm⟩ := inShape_three.1 hc
        rw [helem b o m hc, convAt, h.weight]
        show _ = (grid inPer k fun ch j => w.elem [o, ch, j] * padded _ x b
          (o / (attrs.groups * outPer / attrs.groups) * inPer + ch) _).sum
        rw [Nat.mul_div_cancel_left _ h.groups]
        refine congrArg sum (grid_congr fun ch hch j hj => congrArg (w.elem _ * ·) ?_)
        exact hyelem _ _ _ (hy ▸ inShape_three.2 ⟨hb, channel_lt ho hch, h.place_lt hm hj⟩)
    cases bias with
    | none =>
      exact ⟨t, rfl, hshape.trans hconv.symm, fun c hc => hsame c (hshape ▸ hc)⟩
    | some b =>
      obtain ⟨hb, hrank⟩ := hbias b rfl
      obtain ⟨t', hadd, hshape', helem'⟩ :
          ∃ t', (biasNest t b ⟨t.shape, undef⟩).run = some t' ∧ _ :=
        run_biasNest hshape hb hshape
      refine ⟨t', ?_, hshape'.trans hconv.symm, fun c hc => ?_⟩
      · rw [Option.map_some, addBias, if_pos hrank, makeEmpty_self (hshape ▸ hout)]
        show emit (biasNest t b ⟨t.shape, undef⟩).run = _
        rw [hadd]
        rfl
      · rw [hshape'] at hc
        rw [helem' c hc, hsame c hc]
        rfl

end Result

/-- Two channels of their own, two taps apart from each other, every second place. -/
private def depthwise : Conv1dAttrs := ⟨[2], [1], [1], 2⟩

private def signal : Tensor Int := ⟨[1, 2, 3], fun c => c.getD 1 0 + 2 * c.getD 2 0⟩

private def taps : Tensor Int := ⟨[2, 1, 2], fun c => c.getD 0 0 + c.getD 2 0⟩

private theorem depthwise_convolves : Convolves depthwise signal taps 1 1 1 3 2 :=
  ⟨rfl, rfl, by decide, by decide, by decide, by decide, by decide, by decide⟩

theorem lowerConv1d_depthwise :
    (∃ t, lowerConv1d .f32 [none, some 2, none] [some 2, none, some 2] [none, some 2, none]
        depthwise signal taps (some ([some 2], ⟨[2], fun _ => 5⟩)) (fun _ => 7) = .ok t ∧
      t.Same (conv1d depthwise signal taps (some ⟨[2], fun _ => 5⟩))) ∧
    Compiler.Shape.inferConv1d (.list [2]) (.list [1]) (.list [1])
        [⟨[none, some 2, none], "f32"⟩, ⟨[some 2, none, some 2], "f32"⟩] =
      .ok ⟨[none, some 2, none], "f32"⟩ :=
  (@lowerConv1d_spec Int _ depthwise [none, some 2, none] [some 2, none, some 2]
    [none, some 2, none] [some 2] signal taps 1 1 1 3 2 .f32 (some ⟨[2], fun _ => 5⟩) (fun _ => 7)
    (by decide) depthwise_convolves (by simp [Fits, signal]) (by simp [Fits, taps])
    (by simp [Fits, conv1d, signal, taps]) (by simp [depthwise]) "f32" [] "f32").1
      ⟨by decide, by decide, .inr (by decide)⟩

/-- No loops come from a kernel whose number of taps the type of the weight leaves open. -/
theorem lowerConv1d_open_kernel :
    ¬ ∀ (attrs : Conv1dAttrs) (inType wType outType : RankedType) (x w : Tensor Int)
        (batch inPer outPer l k : Nat) (undef : List Nat → Int),
      Convolves attrs x w batch inPer outPer l k → Fits x.shape inType → Fits w.shape wType →
      Fits (conv1d attrs x w none).shape outType →
      ∃ t, lowerConv1d .f32 inType wType outType attrs x w none undef = .ok t ∧
        t.Same (conv1d attrs x w none) := by
  intro hall
  obtain ⟨t, ht, -⟩ := hall depthwise [none, none, none] [some 2, some 1, none]
    [none, none, none] signal taps 1 1 1 3 2 (fun _ => 0) depthwise_convolves
    (by simp [Fits, signal]) (by simp [Fits, taps]) (by simp [Fits, conv1d])
  have hrun : lowerConv1d .f32 [none, none, none] [some 2, some 1, none] [none, none, none]
      depthwise signal taps none (fun _ => 0) = .error .noMatch := rfl
  rw [hrun] at ht
  cases ht

end CompileForge.SfDialect
