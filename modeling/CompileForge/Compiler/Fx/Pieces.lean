/-
  The slices emitted for `torch.chunk` and `torch.split`, against the pieces PyTorch returns.
  A split into one size is an op the registry does not have.
-/

import CompileForge.Compiler.Fx.Convert
import CompileForge.Lib.Outcome
import CompileForge.Lib.RangeCuts

namespace CompileForge.Compiler.Fx

open Lib List
open Shape (TensorTy)

inductive SplitCall where
  | chunk (chunks : Nat)
  | split (size : Nat)
  | splitWithSizes (sizes : List Nat)

namespace SplitCall

def target : SplitCall → String
  | chunk _ => "aten.chunk.default"
  | split _ => "aten.split.Tensor"
  | splitWithSizes _ => "aten.split_with_sizes.default"

def arg : SplitCall → Arg
  | chunk n => .item (.int n)
  | split size => .item (.int size)
  | splitWithSizes sizes => .list (sizes.map fun (size : Nat) => .int size)

def node (call : SplitCall) (name tensor : String) (dim : Option Int) (val : Option Val) :
    Node where
  name
  op := .callFunction call.target
  args := [.item (.node tensor), call.arg] ++ (dim.map fun d => Arg.item (.int d)).toList
  kwargs := []
  val

/-- The arguments PyTorch accepts along a dim of size `s`. -/
def Valid (s : Nat) : SplitCall → Prop
  | chunk n => 1 ≤ n
  | split size => 1 ≤ size
  | splitWithSizes sizes => sizes.sum = s

/-- PyTorch cuts pieces of `⌈s / n⌉`; the converter spreads the remainder over the first chunks and
    always emits as many as were asked for. -/
def pieces (s : Nat) : SplitCall → List (Nat × Nat)
  | chunk n => fullCut s ((s + n - 1) / n)
  | split size => fullCut s size
  | splitWithSizes sizes => sectionCut sizes

/-- The calls that are cut as PyTorch cuts them. -/
def Handled (s : Nat) : SplitCall → Prop
  | chunk n => n ≤ s ∧ (s % n = 0 ∨ s % n = n - 1)
  | split _ => False
  | splitWithSizes _ => True

end SplitCall

/-! ## What is emitted -/

variable {V : Type} {ctx : Context V} {st : State V} {name tensor : String} {s : Nat}

structure SliceOf where
  source : String
  dim : Int
  piece : Piece
deriving DecidableEq, Repr

/-- An attribute that is an integer. -/
def intAttr (op : MlirOp) (key : String) : Option Int :=
  match op.attributes.lookup key with
  | some (.scalar (.int v)) => some v
  | _ => none

def sliceOf (op : MlirOp) : Option SliceOf :=
  if op.opName = "slice" then do
    let source ← op.operands.head?
    let dim ← intAttr op "dim"
    let start ← intAttr op "start"
    let stop ← intAttr op "end"
    pure ⟨source, dim, ⟨start, stop⟩⟩
  else none

def Piece.ofNat (p : Nat × Nat) : Piece := ⟨p.1, p.2⟩

variable (st ctx tensor)

/-- The ops behind those of `st` slice the source, and the node's elements are their results. -/
def SlicesInto (name source : String) (dim : Int) (pieces : List Piece) (st' : State V) : Prop :=
  ∃ ops, st'.mlirOps = st.mlirOps ++ ops ∧
    ops.map sliceOf = pieces.map (fun p => some ⟨source, dim, p⟩) ∧
    st'.tupleOutputs.lookup name = some (ops.flatMap MlirOp.results)

/-- The converter emits a slice for each piece, in order. -/
def EmitsPieces (node : Node) (source : String) (dim : Int) (pieces : List (Nat × Nat)) : Prop :=
  ∃ st', convertNode ctx st node = .ok st' ∧
    SlicesInto st node.name source dim (pieces.map Piece.ofNat) st'

/-- The tensor has `s` entries along the dim, and what is recorded says so or leaves it open. -/
structure SizeAlong (dim : Int) (s : Nat) : Prop where
  val : ∃ fake symNames, (nodeNamed ctx.program.nodes tensor).bind Node.val =
    some (.tensor fake symNames) ∧ dimOf fake.shape dim = .ok (some (s : Int))
  recorded : ∀ ty, st.shapeMap.lookup tensor = some ty →
    dimOf ty.shape dim = .ok (some (s : Int)) ∨ dimOf ty.shape dim = .ok none

variable {st ctx tensor} {source : String} {dim : Int}

theorem sliceOf_eq_some {op : MlirOp} {start stop : Int}
    (hname : op.opName = "slice") (hsource : op.operands.head? = some source)
    (hdim : intAttr op "dim" = some dim) (hstart : intAttr op "start" = some start)
    (hstop : intAttr op "end" = some stop) : sliceOf op = some ⟨source, dim, ⟨start, stop⟩⟩ := by
  rw [sliceOf, if_pos hname, hsource, hdim, hstart, hstop]
  rfl

theorem sliceOf_pieceOp (sl : Slicing) (i : Nat) (p : Piece) :
    sliceOf (sl.pieceOp i p) = some ⟨sl.tensorSsa, sl.dim, p⟩ := by
  refine sliceOf_eq_some rfl rfl ?_ ?_ ?_
  · simp [intAttr, Slicing.pieceOp]
  · simp [intAttr, Slicing.pieceOp, lookup_cons]
  · simp [intAttr, Slicing.pieceOp, lookup_cons]

def Slicing.ops (sl : Slicing) (pieces : List Piece) : List MlirOp :=
  pieces.zipIdx.map fun (e : Piece × Nat) => sl.pieceOp e.2 e.1

theorem mlirOps_emitPieces (st : State V) (sl : Slicing) (pieces : List Piece) :
    (st.emitPieces sl pieces).mlirOps = st.mlirOps ++ sl.ops pieces := rfl

theorem tupleOutputs_emitPieces (st : State V) (sl : Slicing) (pieces : List Piece) :
    (st.emitPieces sl pieces).tupleOutputs = setKey st.tupleOutputs sl.node.name
      (pieces.zipIdx.map fun (e : Piece × Nat) => sl.pieceName e.2) := rfl

theorem map_sliceOf_ops (sl : Slicing) (pieces : List Piece) :
    (sl.ops pieces).map sliceOf = pieces.map fun p => some ⟨sl.tensorSsa, sl.dim, p⟩ := by
  have hpiece : ∀ e ∈ pieces.zipIdx, (sliceOf ∘ fun (e : Piece × Nat) => sl.pieceOp e.2 e.1) e =
      ((fun p => some ⟨sl.tensorSsa, sl.dim, p⟩) ∘ Prod.fst) e :=
    fun e _ => sliceOf_pieceOp sl e.2 e.1
  rw [Slicing.ops, map_map, map_congr_left hpiece, ← map_map, zipIdx_map_fst]

theorem slicesInto_emitPieces (st : State V) (sl : Slicing) (pieces : List Piece) :
    SlicesInto st sl.node.name sl.tensorSsa sl.dim pieces (st.emitPieces sl pieces) := by
  refine ⟨sl.ops pieces, mlirOps_emitPieces st sl pieces, map_sliceOf_ops sl pieces, ?_⟩
  rw [tupleOutputs_emitPieces, lookup_setKey_self, Slicing.ops, flatMap_map, map_eq_flatMap]
  rfl

theorem SlicesInto.unique {pieces pieces' : List Piece}
    {st' : State V} (h : SlicesInto st name source dim pieces st')
    (h' : SlicesInto st name source dim pieces' st') : pieces = pieces' := by
  obtain ⟨ops, hops, hslices, -⟩ := h
  obtain ⟨ops', hops', hslices', -⟩ := h'
  obtain rfl := append_cancel_left (hops.symm.trans hops')
  refine map_injective_iff.2 (fun p q hpq => ?_) (hslices.symm.trans hslices')
  exact (SliceOf.mk.inj (Option.some.inj hpq)).2.2

/-! ## Sizes -/

theorem piecesFrom_natCast (offset : Nat) (sizes : List Nat) :
    piecesFrom offset (sizes.map fun (size : Nat) => (size : Int)) =
      (cutAt (fun i => offset + sectionBound sizes i) sizes.length).map Piece.ofNat := by
  induction sizes generalizing offset with
  | nil => rfl
  | cons size sizes ih =>
    have htail := ih (offset + size)
    rw [Nat.cast_add] at htail
    have hrange : cutAt (fun i => offset + sectionBound (size :: sizes) i) (sizes.length + 1) =
        (offset, offset + size) :: cutAt (fun i => offset + size + sectionBound sizes i)
          sizes.length := by
      rw [cutAt, range_succ_eq_map, map_cons, map_map, cutAt]
      refine congrArg₂ List.cons ?_ (map_congr_left fun i _ => ?_)
      · simp [sectionBound]
      · simp only [Function.comp_apply, sectionBound, take_succ_cons, sum_cons, add_assoc]
    rw [map_cons, piecesFrom, htail, length_cons, hrange, map_cons]
    rfl

theorem piecesFrom_sections (sizes : List Nat) :
    piecesFrom 0 (sizes.map fun (size : Nat) => (size : Int)) =
      (sectionCut sizes).map Piece.ofNat := by
  have h := piecesFrom_natCast 0 sizes
  simp only [zero_add, Nat.cast_zero] at h
  exact h

theorem chunkSizes_natCast (s n : Nat) :
    chunkSizes s n = (evenSizes s n).map fun (size : Nat) => (size : Int) := by
  rw [chunkSizes, evenSizes, map_map, Int.toNat_natCast]
  refine map_congr_left fun i _ => ?_
  have hlt : (i : Int) < (s : Int) % n ↔ i < s % n := by
    omega
  simp only [Function.comp_apply, hlt]
  split <;> simp

/-! ## The three calls -/

theorem mapAtenOp_chunk : mapAtenOp "aten.chunk.default" = some "chunk" := by decide

theorem mapAtenOp_split : mapAtenOp "aten.split_with_sizes.default" = some "split" := by decide

theorem mapAtenOp_splitTensor : mapAtenOp "aten.split.Tensor" = none := by decide

theorem dimArg_node (dim : Option Int) :
    dimArg (dim.map fun d => Arg.item (.int d)).toList.head? = some (dim.getD 0) := by
  cases dim <;> rfl

theorem emitsPieces_chunk (dim : Option Int) (h : SizeAlong ctx st tensor (dim.getD 0) s)
    (n : Nat) (name : String) (val : Option Val) :
    EmitsPieces ctx st ((SplitCall.chunk n).node name tensor dim val) (ssaName st.ssaMap tensor)
      (dim.getD 0) (evenCut s n) := by
  obtain ⟨fake, symNames, hval, hfake⟩ := h.val
  let src := (st.shapeMap.lookup tensor).getD fake
  let sl : Slicing :=
    { node := (SplitCall.chunk n).node name tensor dim val, kind := "chunk"
      tensorSsa := ssaName st.ssaMap tensor, dim := dim.getD 0, src := some src
      srcTypes := recordedTypes st.shapeMap tensor }
  have htotal : chunkTotal src fake (dim.getD 0) = .ok (some (s : Int)) := by
    have hsrc : dimOf src.shape (dim.getD 0) = .ok (some (s : Int)) ∨
        dimOf src.shape (dim.getD 0) = .ok none := by
      cases hty : st.shapeMap.lookup tensor with
      | none =>
        rw [show src = fake from congrArg (·.getD fake) hty]
        exact .inl hfake
      | some ty =>
        rw [show src = ty from congrArg (·.getD fake) hty]
        exact h.recorded ty hty
    rw [chunkTotal]
    rcases hsrc with hsrc | hsrc
    · rw [hsrc]
      rfl
    · -- an open size is looked up in the fake tensor
      rw [hsrc]
      exact hfake
  have hpieces : piecesFrom 0 (chunkSizes s n) = (evenCut s n).map Piece.ofNat := by
    rw [chunkSizes_natCast, piecesFrom_sections, sectionCut_evenSizes]
  have hnode : doChunk ctx st sl.node = .ok (st.emitPieces sl (piecesFrom 0 (chunkSizes s n))) := by
    have hdim : dimArg ((dim.map fun d => Arg.item (.int d)).toList)[0]? = some (dim.getD 0) := by
      rw [← head?_eq_getElem?]
      exact dimArg_node dim
    simp only [sl, doChunk, SplitCall.node, SplitCall.arg, cons_append, nil_append, hval,
      getElem?_cons_succ, hdim, fakeToShapeTuple]
    show (chunkTotal src fake (dim.getD 0) >>= _) = _
    rw [htotal]
    rfl
  refine ⟨_, (convertNode_call rfl mapAtenOp_chunk).trans (convertCall_chunk.trans hnode), ?_⟩
  rw [hpieces]
  exact slicesInto_emitPieces st sl _

theorem emitsPieces_splitWithSizes {dim : Option Int} {sizes : List Nat} (h : sizes ≠ [])
    (val : Option Val) :
    EmitsPieces ctx st ((SplitCall.splitWithSizes sizes).node name tensor dim val)
      (ssaName st.ssaMap tensor) (dim.getD 0) (sectionCut sizes) := by
  let sl : Slicing :=
    { node := (SplitCall.splitWithSizes sizes).node name tensor dim val, kind := "split"
      tensorSsa := ssaName st.ssaMap tensor, dim := dim.getD 0
      src := st.shapeMap.lookup tensor, srcTypes := recordedTypes st.shapeMap tensor }
  have hsizes : (sizes.map fun (size : Nat) => Item.int size).mapM Item.intValue =
      some (sizes.map fun (size : Nat) => (size : Int)) := by
    rw [mapM_map]
    exact mapM_eq_map fun _ _ => rfl
  have hnode : doSplit st sl.node = .ok (st.emitPieces sl
      (piecesFrom 0 (sizes.map fun (size : Nat) => (size : Int)))) := by
    cases sizes with
    | nil => exact absurd rfl h
    | cons size =>
      rw [map_cons (a := size) (f := fun (size : Nat) => (size : Int))] at hsizes
      simp only [sl, doSplit, SplitCall.node, SplitCall.arg, cons_append,
        nil_append, hsizes, dimArg_node]
      rfl
  refine ⟨_, (convertNode_call rfl mapAtenOp_split).trans (convertCall_split.trans hnode), ?_⟩
  rw [piecesFrom_sections]
  exact slicesInto_emitPieces st sl _

theorem not_emitsPieces_split {dim : Option Int} {size : Nat} {pieces : List (Nat × Nat)}
    (h : pieces ≠ []) (val : Option Val) (source : String) :
    ¬ EmitsPieces ctx st ((SplitCall.split size).node name tensor dim val) source
      (dim.getD 0) pieces := by
  rintro ⟨st', hconv, ops, hops, hslices, -⟩
  rw [convertNode_unmapped rfl mapAtenOp_splitTensor] at hconv
  have hkeep : st'.mlirOps = st.mlirOps := by
    rw [State.recordVal] at hconv
    split at hconv
    · obtain ⟨ty, -, hty⟩ := bind_eq_ok hconv
      rw [← Except.ok.inj hty]
    · rw [← Except.ok.inj hconv]
  -- no op is new, so nothing is sliced
  rw [hkeep] at hops
  obtain rfl := append_cancel_left ((append_nil _).trans hops)
  exact h (map_eq_nil_iff.1 (map_eq_nil_iff.1 hslices.symm))

/-! ## The pieces are PyTorch's -/

theorem ofNat_injective : Function.Injective Piece.ofNat := by
  rintro ⟨a, b⟩ ⟨c, d⟩ h
  obtain ⟨hstart, hstop⟩ := Piece.mk.inj h
  exact Prod.ext (Int.ofNat.inj hstart) (Int.ofNat.inj hstop)

theorem EmitsPieces.unique {node : Node}
    {pieces pieces' : List (Nat × Nat)} (h : EmitsPieces ctx st node source dim pieces)
    (h' : EmitsPieces ctx st node source dim pieces') : pieces = pieces' := by
  obtain ⟨st', hconv, hslices⟩ := h
  obtain ⟨st'', hconv', hslices'⟩ := h'
  obtain rfl := Except.ok.inj (hconv.symm.trans hconv')
  exact map_injective_iff.2 ofNat_injective (hslices.unique hslices')

theorem fullCut_ne_nil {c : Nat} (hs : 1 ≤ s) (hc : 1 ≤ c) : fullCut s c ≠ [] := by
  have hcount : 0 < (s + c - 1) / c := Nat.div_pos (by omega) hc
  rw [fullCut, cutAt, Ne, map_eq_nil_iff, range_eq_nil]
  omega

/-- The slices are the pieces of PyTorch exactly for a split into a list and an even chunk. -/
theorem emitsPieces_iff (call : SplitCall) (dim : Option Int)
    (hsize : SizeAlong ctx st tensor (dim.getD 0) s) (hs : 1 ≤ s) (hvalid : call.Valid s)
    (name : String) (val : Option Val) :
    EmitsPieces ctx st (call.node name tensor dim val) (ssaName st.ssaMap tensor) (dim.getD 0)
      (call.pieces s) ↔ call.Handled s := by
  cases call with
  | chunk n =>
    have heven := emitsPieces_chunk dim hsize n name val
    rw [SplitCall.Handled, ← evenCut_eq_fullCut_iff hs hvalid]
    constructor
    · exact fun h => heven.unique h
    · intro h
      rw [SplitCall.pieces, ← h]
      exact heven
  | split =>
    exact iff_of_false (not_emitsPieces_split (fullCut_ne_nil hs hvalid) val _) id
  | splitWithSizes =>
    refine iff_of_true (emitsPieces_splitWithSizes ?_ val) trivial
    rintro rfl
    exact absurd hvalid (ne_of_lt hs)

section SevenEntries

def vectorInput : Context Unit where
  torch := ⟨fun _ => (), fun _ => (), fun _ _ => (), fun _ => none, fun _ _ => none, fun _ => ""⟩
  infer := fun _ _ _ => .error .caught
  program :=
    { nodes := [⟨"x", .placeholder, [], [], some (.tensor ⟨[some 7], "float32"⟩ [none])⟩]
      userInputs := ["x"], inputSpecs := [], stateDict := [], constants := [] }

def behindInput : State Unit :=
  { initialState vectorInput.program with
    ssaMap := [("x", "%x")]
    shapeMap := [("x", ⟨[some 7], "float32"⟩)] }

theorem sizeAlong_seven : SizeAlong vectorInput behindInput "x" 0 7 where
  val := ⟨⟨[some 7], "float32"⟩, [none], by decide, by decide⟩
  recorded := by
    intro ty hty
    obtain rfl : (⟨[some 7], "float32"⟩ : TensorTy) = ty :=
      Option.some.inj ((show _ = _ by decide : behindInput.shapeMap.lookup "x" =
        some ⟨[some 7], "float32"⟩).symm.trans hty)
    exact .inl (by decide)

/-- Seven entries in four chunks: 2, 2, 2 and 1. -/
theorem emitsPieces_seven_in_four :
    EmitsPieces vectorInput behindInput ((SplitCall.chunk 4).node "chunk" "x" none none) "%x" 0
      [(0, 2), (2, 4), (4, 6), (6, 7)] :=
  (emitsPieces_iff (.chunk 4) none sizeAlong_seven (by decide) (show 1 ≤ 4 by decide) "chunk"
    none).2 (show 4 ≤ 7 ∧ (7 % 4 = 0 ∨ 7 % 4 = 4 - 1) by decide)

/-- Seven entries in three chunks are 3, 2 and 2, PyTorch's are 3, 3 and 1. -/
theorem seven_in_three_differs :
    (SplitCall.chunk 3).pieces 7 = [(0, 3), (3, 6), (6, 7)] ∧
      EmitsPieces vectorInput behindInput ((SplitCall.chunk 3).node "chunk" "x" none none) "%x" 0
        [(0, 3), (3, 5), (5, 7)] ∧
      ¬ EmitsPieces vectorInput behindInput ((SplitCall.chunk 3).node "chunk" "x" none none) "%x" 0
        ((SplitCall.chunk 3).pieces 7) := by
  have heven : EmitsPieces vectorInput behindInput
      ((SplitCall.chunk 3).node "chunk" "x" none none) "%x" 0 [(0, 3), (3, 5), (5, 7)] :=
    emitsPieces_chunk none sizeAlong_seven 3 "chunk" none
  refine ⟨by decide, heven, fun h => ?_⟩
  exact absurd (heven.unique h) (by decide)

end SevenEntries

end CompileForge.Compiler.Fx
