/-
  The broadcasting of the op-plan kernels `add` and `mul` (`binary_broadcast`,
  `runtime/src/engine/op_plan/kernels.rs`): three fast paths that zip the buffers, and a walk
  over the strides for everything else.
-/

import CompileForge.Lib.Strided
import CompileForge.Lib.Outcome
import CompileForge.Runtime.Model.ComputeGraph

namespace CompileForge.Runtime.PlanBroadcast

open Lib List

variable {α : Type}

/-! ## The kernel -/

/-- `Tensor`, with `f32` data; `Tensor::new_owned` asserts the length. -/
structure Tensor (α : Type) where
  shape : List Nat
  data : List α
  data_length : data.length = shape.prod

/-- A slice is no longer than memory. -/
def SliceMut (α : Type) := { l : List α // l.length < 2 ^ 64 }

inductive Failure where
  | panic
  | cannotBroadcast (a b : List Nat)
  | shapeProductOverflow (shape : List Nat)
  | bufferMismatch
deriving DecidableEq, Repr

/-- The product saturates. -/
def Tensor.numel (t : Tensor α) : Nat := (checkedProductUsize t.shape).getD (2 ^ 64 - 1)

def shapeNumel (shape : List Nat) : Except Failure Nat :=
  match checkedProductUsize shape with
  | some n => .ok n
  | none => .error (.shapeProductOverflow shape)

/-- One dim of `broadcast_shape`, which gives up where the dims do not stretch. -/
def broadcastDim (da db : Nat) : Option Nat :=
  if da ≠ db ∧ da ≠ 1 ∧ db ≠ 1 then none else some (max da db)

def broadcastShape (a b : List Nat) : Option (List Nat) :=
  let rank := max a.length b.length
  (range rank).mapM fun i =>
    let da := if rank - a.length ≤ i then a.getD (i - (rank - a.length)) 1 else 1
    let db := if rank - b.length ≤ i then b.getD (i - (rank - b.length)) 1 else 1
    broadcastDim da db

def rowMajorStrides (shape : List Nat) : List Nat :=
  (range shape.length).reverse.foldl (fun strides i =>
    if i + 1 < shape.length then
      strides.set i (strides.getD (i + 1) 1 * shape.getD (i + 1) 1)
    else strides) (replicate shape.length 1)

def addIndex (shape strides : List Nat) (delta dim coord index : Nat) : Nat :=
  if delta ≤ dim then
    if shape.getD (dim - delta) 1 ≠ 1 then index + coord * strides.getD (dim - delta) 1
    else index
  else index

/-- The loop over the dims: the indices read in the operands for the output place `idx`. -/
def walkStrides (shape aShape bShape : List Nat) (idx : Nat) : Nat × Nat × Nat :=
  let aStrides := rowMajorStrides aShape
  let bStrides := rowMajorStrides bShape
  let outStrides := rowMajorStrides shape
  (range shape.length).foldl (fun (rem, ai, bi) dim =>
    let coord := rem / outStrides.getD dim 1
    (rem % outStrides.getD dim 1,
      addIndex aShape aStrides (shape.length - aShape.length) dim coord ai,
      addIndex bShape bStrides (shape.length - bShape.length) dim coord bi)) (idx, 0, 0)

/-- Writing through `out.iter_mut().zip(..)`: the shorter side ends the loop. -/
def writeZip (out vals : List α) : List α := overwrite out 0 (vals.take out.length)

def index (l : List α) (i : Nat) : Except Failure α :=
  match l[i]? with
  | some x => .ok x
  | none => .error .panic

/-- The paths of `binary_broadcast`: the buffer they leave. -/
def fillBroadcast (a b : Tensor α) (out : SliceMut α) (f : α → α → α) (shape : List Nat) :
    Except Failure (List α) :=
  if a.shape = b.shape then .ok (writeZip out.val (zipWith f a.data b.data))
  else if a.numel = 1 then do
    let av ← index a.data 0
    return writeZip out.val (b.data.map fun bv => f av bv)
  else if b.numel = 1 then do
    let bv ← index b.data 0
    return writeZip out.val (a.data.map fun av => f av bv)
  else
    (range out.val.length).mapM fun idx => do
      let (_, ai, bi) := walkStrides shape a.shape b.shape idx
      return f (← index a.data ai) (← index b.data bi)

/-- `binary_broadcast`: the shape, and the buffer after the call. -/
def binaryBroadcast (a b : Tensor α) (out : SliceMut α) (f : α → α → α) :
    Except Failure (List Nat × List α) :=
  match broadcastShape a.shape b.shape with
  | none => .error (.cannotBroadcast a.shape b.shape)
  | some shape => do
    let numel ← shapeNumel shape
    if out.val.length ≠ numel then .error .bufferMismatch
    else return (shape, ← fillBroadcast a b out f shape)

section Shape

variable {a b : List Nat}

theorem dim_eq_getD_padShape {rank i : Nat} :
    (if rank - a.length ≤ i then a.getD (i - (rank - a.length)) 1 else 1) =
      (padShape rank a).getD i 1 := by
  rw [padShape, getD_eq_getElem?_getD, getD_eq_getElem?_getD, getElem?_append,
    length_replicate, getElem?_replicate]
  by_cases hi : rank - a.length ≤ i
  · rw [if_pos hi, if_neg (by omega)]
  · rw [if_neg hi, if_pos (by omega), if_pos (by omega)]
    rfl

theorem broadcastDim_eq_some {da db n : Nat} (ha : 1 ≤ da) (hb : 1 ≤ db) :
    broadcastDim da db = some n ↔ Compatible da db ∧ n = stretched da db := by
  rw [broadcastDim]
  by_cases h : da ≠ db ∧ da ≠ 1 ∧ db ≠ 1
  · rw [if_pos h]
    refine iff_of_false (nofun) fun hdims => ?_
    rcases hdims.1 with heq | hone | hone
    · exact h.1 heq
    · exact h.2.1 hone
    · exact h.2.2 hone
  · have hdims : Compatible da db := by
      rw [Compatible]
      omega
    rw [if_neg h, Option.some_inj, and_iff_right hdims, stretched]
    by_cases hone : da = 1
    · rw [if_pos hone]
      omega
    · rw [if_neg hone]
      omega

theorem mapM_broadcastDim {pa pb : List Nat} (hlen : pa.length = pb.length)
    (ha : ∀ d ∈ pa, 1 ≤ d) (hb : ∀ d ∈ pb, 1 ≤ d) (shape : List Nat) :
    ((range pa.length).mapM fun i => broadcastDim (pa.getD i 1) (pb.getD i 1)) = some shape ↔
      Forall₂ Compatible pa pb ∧ shape = zipWith stretched pa pb := by
  induction pa generalizing pb shape with
  | nil =>
    obtain rfl := length_eq_zero_iff.1 hlen.symm
    show some [] = some shape ↔ _
    rw [Option.some_inj, eq_comm, and_iff_right List.Forall₂.nil, zipWith_nil_left]
  | cons da pa ih =>
    cases pb with
    | nil => cases hlen
    | cons db =>
      have hrest := ih (Nat.succ.inj hlen) (fun d hd => ha d (mem_cons_of_mem _ hd))
        fun d hd => hb d (mem_cons_of_mem _ hd)
      have hdim := fun n => broadcastDim_eq_some (n := n) (ha da mem_cons_self)
        (hb db mem_cons_self)
      rw [length_cons, range_succ_eq_map, mapM_cons, mapM_map]
      simp only [getD_cons_zero, forall₂_cons, zipWith_cons_cons,
        Option.bind_eq_bind, Option.bind_eq_some_iff, Option.pure_def,
        Option.some_inj, hdim]
      constructor
      · rintro ⟨n, ⟨hcompat, rfl⟩, dims, hdims, rfl⟩
        obtain ⟨hall, rfl⟩ := (hrest dims).1 hdims
        exact ⟨⟨hcompat, hall⟩, rfl⟩
      · rintro ⟨⟨hcompat, hall⟩, rfl⟩
        exact ⟨_, ⟨hcompat, rfl⟩, _, (hrest _).2 ⟨hall, rfl⟩, rfl⟩

theorem one_le_padShape {rank : Nat} (ha : ∀ d ∈ a, 1 ≤ d) : ∀ d ∈ padShape rank a, 1 ≤ d := by
  intro d hd
  rcases mem_append.1 hd with hd | hd
  · exact (eq_of_mem_replicate hd).ge
  · exact ha d hd

theorem broadcastShape_eq_some (ha : ∀ d ∈ a, 1 ≤ d) (hb : ∀ d ∈ b, 1 ≤ d) {shape : List Nat} :
    broadcastShape a b = some shape ↔ Broadcastable a b ∧ shape = broadcast a b := by
  have hlen : (padShape (max a.length b.length) a).length = max a.length b.length := by
    rw [length_padShape]
    omega
  have hlen' : (padShape (max a.length b.length) b).length = max a.length b.length := by
    rw [length_padShape]
    omega
  have hmap := mapM_broadcastDim (hlen.trans hlen'.symm) (one_le_padShape ha)
    (one_le_padShape hb) shape
  rw [hlen] at hmap
  rw [broadcastShape]
  simp only [dim_eq_getD_padShape]
  exact hmap

end Shape

section Walk

variable {s a c : List Nat}

/-- One turn of the loop that computes the strides. -/
def strideTurn (shape strides : List Nat) (i : Nat) : List Nat :=
  if i + 1 < shape.length then
    strides.set i (strides.getD (i + 1) 1 * shape.getD (i + 1) 1)
  else strides

theorem foldl_strideTurn_succ (d x : Nat) (s strides dims : List Nat) :
    (dims.map Nat.succ).foldl (strideTurn (d :: s)) (x :: strides) =
      x :: dims.foldl (strideTurn s) strides := by
  induction dims generalizing strides with
  | nil => rfl
  | cons i dims ih =>
    rw [map_cons, foldl_cons, foldl_cons, ← ih]
    congr 1
    rw [strideTurn, strideTurn, length_cons]
    by_cases hi : i + 1 < s.length
    · rw [if_pos hi, if_pos (by omega)]
      rfl
    · rw [if_neg hi, if_neg (by omega)]

theorem rowMajorStrides_eq (s : List Nat) : rowMajorStrides s = rowStrides s := by
  induction s with
  | nil => rfl
  | cons d s ih =>
    have hturns : rowMajorStrides (d :: s) = strideTurn (d :: s) (1 :: rowMajorStrides s) 0 := by
      show (range (s.length + 1)).reverse.foldl (strideTurn (d :: s))
        (replicate (s.length + 1) 1) = _
      rw [range_succ_eq_map, reverse_cons, foldl_append, replicate_succ,
        ← map_reverse, foldl_strideTurn_succ]
      rfl
    rw [hturns, ih, strideTurn, length_cons, rowStrides]
    cases s with
    | nil => rfl
    | cons d' =>
      rw [if_pos (by rw [length_cons]; omega), set_cons_zero, prod_cons, mul_comm d']
      rfl

theorem walk_upTo (h : InShape s c) (a b : List Nat) {n : Nat} (hn : n ≤ s.length) :
    (range n).foldl (fun (rem, ai, bi) dim =>
      (rem % (rowStrides s).getD dim 1,
        addIndex a (rowStrides a) (s.length - a.length) dim (rem / (rowStrides s).getD dim 1) ai,
        addIndex b (rowStrides b) (s.length - b.length) dim (rem / (rowStrides s).getD dim 1) bi))
        (offset s c, 0, 0) =
      (offset (s.drop n) (c.drop n), (range n).foldl (fun ai dim =>
          addIndex a (rowStrides a) (s.length - a.length) dim (c.getD dim 0) ai) 0,
        (range n).foldl (fun bi dim =>
          addIndex b (rowStrides b) (s.length - b.length) dim (c.getD dim 0) bi) 0) := by
  induction n with
  | zero => rfl
  | succ n ih =>
    have hlen := h.length_eq
    have hdrop : InShape (s.drop (n + 1)) (c.drop (n + 1)) := forall₂_drop _ h
    have hs : s.drop n = s[n] :: s.drop (n + 1) := drop_eq_getElem_cons hn
    have hc : c.drop n = (c)[n] :: c.drop (n + 1) := drop_eq_getElem_cons (by omega)
    obtain ⟨hdiv, hmod⟩ := offset_cons_div_mod (d := s[n]) (x := (c)[n]) hdrop
    have hget : c.getD n 0 = (c)[n] := by
      rw [getD_eq_getElem?_getD, getElem?_eq_getElem (by omega)]
      rfl
    rw [range_succ, foldl_append, foldl_append, foldl_append, ih (by omega)]
    simp only [foldl_cons, foldl_nil, getD_rowStrides hn, hs, hc, hdiv, hmod, hget]

theorem foldl_addIndex (ha : StretchesTo a s) (h : InShape s c) :
    (range s.length).foldl (fun ai dim =>
        addIndex a (rowStrides a) (s.length - a.length) dim (c.getD dim 0) ai) 0 =
      offset a (restrict a c) := by
  have hreads := ha.reads h
  have hle := ha.1
  rw [h.length_eq] at hreads
  rw [restrict, h.length_eq]
  generalize hdelta : s.length - a.length = delta at hreads ⊢
  have hlen : s.length = delta + a.length := by omega
  have hsum := foldl_strides hreads 0
  rw [zero_add] at hsum
  rw [hlen, range_add, foldl_append, foldl_map, ← hsum]
  -- the dims in front of the operand's add nothing
  have hfront : (range delta).foldl (fun ai dim =>
      addIndex a (rowStrides a) delta dim (c.getD dim 0) ai) 0 = 0 := by
    have hkeep := foldl_ext (l := range delta)
      (fun ai dim => addIndex a (rowStrides a) delta dim (c.getD dim 0) ai) (fun ai _ => ai) 0
      fun ai dim hdim => if_neg (not_le.2 (mem_range.1 hdim))
    exact hkeep.trans (foldl_fixed _)
  rw [hfront]
  refine foldl_ext _ _ 0 fun ai i _ => ?_
  have hread : (c.drop delta).getD i 0 = c.getD (delta + i) 0 := by
    rw [getD_eq_getElem?_getD, getElem?_drop, ← getD_eq_getElem?_getD]
  rw [addIndex, if_pos (Nat.le_add_right ..), Nat.add_sub_cancel_left, hread]

theorem walkStrides_eq {b : List Nat} (ha : StretchesTo a s) (hb : StretchesTo b s)
    (h : InShape s c) :
    walkStrides s a b (offset s c) = (0, offset a (restrict a c), offset b (restrict b c)) := by
  have hlen := h.length_eq
  rw [walkStrides]
  simp only [rowMajorStrides_eq]
  rw [walk_upTo h a b le_rfl, foldl_addIndex ha h, foldl_addIndex hb h,
    drop_length, offset_nil]

end Walk

/-! ## The elements -/

/-- The element at a coordinate. -/
def Tensor.at? (t : Tensor α) (c : List Nat) : Option α := t.data[offset t.shape c]?

/-- A buffer that holds, at every coordinate of the broadcast, `f` of the elements read there. -/
structure HoldsBroadcast (a b : Tensor α) (f : α → α → α) (out : List α) : Prop where
  length : out.length = (broadcast a.shape b.shape).prod
  entry : ∀ c, InShape (broadcast a.shape b.shape) c →
    ∃ x y, a.at? (restrict a.shape c) = some x ∧ b.at? (restrict b.shape c) = some y ∧
      out[offset (broadcast a.shape b.shape) c]? = some (f x y)

section Elements

variable {a b t : Tensor α} {f : α → α → α} {out : SliceMut α} {c : List Nat}

theorem shapeNumel_eq {shape : List Nat} (hpos : ∀ d ∈ shape, 1 ≤ d) (h : shape.prod < 2 ^ 64) :
    shapeNumel shape = .ok shape.prod := by
  rw [shapeNumel, checkedProductUsize_of_lt hpos h]

theorem ones_of_numel (h : t.numel = 1) : ∀ d ∈ t.shape, d = 1 := by
  rw [Tensor.numel] at h
  cases hn : checkedProductUsize t.shape with
  | none =>
    rw [hn] at h
    cases h
  | some n =>
    rw [hn] at h
    obtain rfl : n = 1 := h
    exact ones_of_prod (checkedProductUsize_eq_some hn).1.symm

theorem writeZip_eq {vals : List α} (h : vals.length = out.val.length) :
    writeZip out.val vals = vals := by
  rw [writeZip, overwrite, ← h, take_length, zero_add, take_zero, nil_append,
    h, drop_length, append_nil]

theorem exists_at? (h : InShape t.shape c) : ∃ x, t.at? c = some x := by
  have hlt : offset t.shape c < t.data.length := by
    rw [t.data_length]
    exact offset_lt h
  exact ⟨_, getElem?_eq_getElem hlt⟩

theorem at?_of_ones (h : ∀ d ∈ t.shape, d = 1) (hlen : t.shape.length ≤ c.length) :
    t.at? (restrict t.shape c) = t.data[0]? := by
  have hin := inShape_restrict hlen fun d hd => (h d hd).ge
  have hlt := offset_lt hin
  rw [prod_of_ones h] at hlt
  have hzero : offset t.shape (restrict t.shape c) = 0 := by omega
  rw [Tensor.at?, hzero]

theorem one_le_broadcast (ha : ∀ d ∈ a.shape, 1 ≤ d) (hb : ∀ d ∈ b.shape, 1 ≤ d) :
    ∀ d ∈ broadcast a.shape b.shape, 1 ≤ d := by
  intro d hd
  rw [broadcast, ← map_uncurry_zip_eq_zipWith] at hd
  obtain ⟨⟨da, db⟩, hmem, rfl⟩ := mem_map.1 hd
  obtain ⟨hda, hdb⟩ := of_mem_zip hmem
  show 1 ≤ stretched da db
  rw [stretched]
  split
  · exact one_le_padShape hb db hdb
  · exact one_le_padShape ha da hda

theorem holdsBroadcast_zipWith (h : a.shape = b.shape) :
    HoldsBroadcast a b f (zipWith f a.data b.data) where
  length := by
    rw [← h, broadcast_self, length_zipWith, a.data_length, b.data_length, ← h, Nat.min_self]
  entry := by
    intro c hc
    rw [← h, broadcast_self] at hc ⊢
    obtain ⟨x, hx⟩ := exists_at? hc
    obtain ⟨y, hy⟩ := exists_at? (t := b) (h ▸ hc)
    refine ⟨x, y, ?_, ?_, ?_⟩
    · rwa [restrict_of_inShape hc]
    · rwa [restrict_of_inShape hc]
    · rw [Tensor.at?] at hx hy
      rw [← h] at hy
      rw [getElem?_zipWith, hx, hy]

theorem holdsBroadcast_map_left (h : ∀ d ∈ a.shape, d = 1) (hb : ∀ d ∈ b.shape, 1 ≤ d) {av : α}
    (hav : a.data[0]? = some av) : HoldsBroadcast a b f (b.data.map fun bv => f av bv) where
  length := by
    rw [broadcast_ones_left h, prod_padShape, length_map, b.data_length]
  entry := by
    intro c hc
    have hlen := hc.length_eq
    rw [length_broadcast] at hlen
    obtain ⟨y, hy⟩ := exists_at? (inShape_restrict (c := c) (by omega) hb)
    refine ⟨av, y, ?_, hy, ?_⟩
    · rw [at?_of_ones h (by omega), hav]
    · rw [broadcast_ones_left h] at hc ⊢
      rw [Tensor.at?] at hy
      rw [offset_padShape hc, getElem?_map, hy]
      rfl

theorem holdsBroadcast_map_right (ha : ∀ d ∈ a.shape, 1 ≤ d) (h : ∀ d ∈ b.shape, d = 1) {bv : α}
    (hbv : b.data[0]? = some bv) : HoldsBroadcast a b f (a.data.map fun av => f av bv) where
  length := by
    rw [broadcast_ones_right h, prod_padShape, length_map, a.data_length]
  entry := by
    intro c hc
    have hlen := hc.length_eq
    rw [length_broadcast] at hlen
    obtain ⟨x, hx⟩ := exists_at? (inShape_restrict (c := c) (by omega) ha)
    refine ⟨x, bv, hx, ?_, ?_⟩
    · rw [at?_of_ones h (by omega), hbv]
    · rw [broadcast_ones_right h] at hc ⊢
      rw [Tensor.at?] at hx
      rw [offset_padShape hc, getElem?_map, hx]
      rfl

theorem walk_reads (hab : Broadcastable a.shape b.shape) (ha : ∀ d ∈ a.shape, 1 ≤ d)
    (hb : ∀ d ∈ b.shape, 1 ≤ d) (hc : InShape (broadcast a.shape b.shape) c) :
    ∃ x y, a.at? (restrict a.shape c) = some x ∧ b.at? (restrict b.shape c) = some y ∧ (do
        let (_, ai, bi) := walkStrides (broadcast a.shape b.shape) a.shape b.shape
          (offset (broadcast a.shape b.shape) c)
        return f (← index a.data ai) (← index b.data bi)) =
        (.ok (f x y) : Except Failure α) := by
  have hlen := hc.length_eq
  rw [length_broadcast] at hlen
  obtain ⟨x, hx⟩ := exists_at? (inShape_restrict (c := c) (by omega) ha)
  obtain ⟨y, hy⟩ := exists_at? (inShape_restrict (c := c) (by omega) hb)
  refine ⟨x, y, hx, hy, ?_⟩
  rw [Tensor.at?] at hx hy
  rw [walkStrides_eq hab.stretches_left hab.stretches_right hc]
  simp only [index, hx, hy]
  rfl

theorem fillBroadcast_holds (hab : Broadcastable a.shape b.shape) (ha : ∀ d ∈ a.shape, 1 ≤ d)
    (hb : ∀ d ∈ b.shape, 1 ≤ d) (hout : out.val.length = (broadcast a.shape b.shape).prod) :
    ∃ out', fillBroadcast a b out f (broadcast a.shape b.shape) = .ok out' ∧
      HoldsBroadcast a b f out' := by
  rw [fillBroadcast]
  by_cases hsame : a.shape = b.shape
  · have hholds : HoldsBroadcast a b f (zipWith f a.data b.data) :=
      holdsBroadcast_zipWith hsame
    rw [if_pos hsame, writeZip_eq (hholds.length.trans hout.symm)]
    exact ⟨_, rfl, hholds⟩
  rw [if_neg hsame]
  by_cases hone : a.numel = 1
  · have hones := ones_of_numel hone
    have hlt : 0 < a.data.length := by
      rw [a.data_length, prod_of_ones hones]
      exact one_pos
    have hav := getElem?_eq_getElem hlt
    have hholds := holdsBroadcast_map_left (f := f) hones hb hav
    rw [if_pos hone, index, hav]
    refine ⟨_, rfl, ?_⟩
    rwa [writeZip_eq (hholds.length.trans hout.symm)]
  rw [if_neg hone]
  by_cases hone' : b.numel = 1
  · have hones := ones_of_numel hone'
    have hlt : 0 < b.data.length := by
      rw [b.data_length, prod_of_ones hones]
      exact one_pos
    have hbv := getElem?_eq_getElem hlt
    have hholds := holdsBroadcast_map_right (f := f) ha hones hbv
    rw [if_pos hone', index, hbv]
    refine ⟨_, rfl, ?_⟩
    rwa [writeZip_eq (hholds.length.trans hout.symm)]
  rw [if_neg hone']
  -- every place is that of a coordinate, and the walk reads what the coordinate does
  have hplace : ∀ idx ∈ range out.val.length, ∃ v, (do
      let (_, ai, bi) := walkStrides (broadcast a.shape b.shape) a.shape b.shape idx
      return f (← index a.data ai) (← index b.data bi)) = (.ok v : Except Failure α) := by
    intro idx hidx
    rw [mem_range, hout] at hidx
    obtain ⟨x, y, -, -, hread⟩ := walk_reads (f := f) hab ha hb (inShape_coordOf hidx)
    rw [offset_coordOf hidx] at hread
    exact ⟨_, hread⟩
  obtain ⟨vals, hvals⟩ := exists_mapM_ok_iff.2 hplace
  refine ⟨vals, hvals, ?_, ?_⟩
  · rw [length_mapM_ok hvals, length_range, hout]
  · intro c hc
    obtain ⟨x, y, hx, hy, hread⟩ := walk_reads (f := f) hab ha hb hc
    have hlt := offset_lt hc
    rw [← hout] at hlt
    have hlen := length_mapM_ok hvals
    rw [length_range] at hlen
    have hval := rel_of_getElem? (mapM_eq_ok_iff.1 hvals) (getElem?_range hlt)
      (getElem?_eq_getElem (hlen.symm ▸ hlt))
    rw [hread, Except.ok.injEq] at hval
    refine ⟨x, y, hx, hy, ?_⟩
    rw [getElem?_eq_getElem (hlen.symm ▸ hlt), ← hval]

end Elements

/-! ## The kernel computes NumPy's broadcasting -/

/-- `broadcast_shape` is NumPy's, and the call leaves `f` of the elements every coordinate reads. -/
theorem binaryBroadcast_spec (a b : Tensor α) (f : α → α → α) (ha : ∀ d ∈ a.shape, 1 ≤ d)
    (hb : ∀ d ∈ b.shape, 1 ≤ d) :
    ((broadcastShape a.shape b.shape).isSome ↔ Broadcastable a.shape b.shape) ∧
      ∀ shape, broadcastShape a.shape b.shape = some shape → shape = broadcast a.shape b.shape ∧
        ∀ out : SliceMut α, out.val.length = shape.prod →
          ∃ out', binaryBroadcast a b out f = .ok (shape, out') ∧ HoldsBroadcast a b f out' ∧
            ∀ i < out'.length, ∃ c, InShape shape c ∧ offset shape c = i := by
  constructor
  · rw [Option.isSome_iff_exists]
    simp only [broadcastShape_eq_some ha hb]
    exact ⟨fun ⟨_, h, _⟩ => h, fun h => ⟨_, h, rfl⟩⟩
  intro shape hshape
  obtain ⟨hab, rfl⟩ := (broadcastShape_eq_some ha hb).1 hshape
  refine ⟨rfl, fun out hout => ?_⟩
  have hnumel := shapeNumel_eq (one_le_broadcast ha hb) (hout ▸ out.property)
  obtain ⟨out', hfill, hholds⟩ := fillBroadcast_holds (f := f) hab ha hb hout
  refine ⟨out', ?_, hholds, fun i hi => ?_⟩
  · rw [binaryBroadcast, hshape]
    simp only [hnumel, hfill]
    exact if_neg (not_not_intro hout)
  · rw [hholds.length] at hi
    exact ⟨_, inShape_coordOf hi, offset_coordOf hi⟩

def twoRows : Tensor Int := ⟨[2, 1], [10, 20], rfl⟩

def threeColumns : Tensor Int := ⟨[3], [1, 2, 3], rfl⟩

theorem binaryBroadcast_spec_mixed :
    ∃ out', binaryBroadcast twoRows threeColumns ⟨replicate 6 0, by decide⟩ (· + ·) =
        .ok ([2, 3], out') ∧ HoldsBroadcast twoRows threeColumns (· + ·) out' ∧
      ∀ i < out'.length, ∃ c, InShape [2, 3] c ∧ offset [2, 3] c = i :=
  ((binaryBroadcast_spec twoRows threeColumns (· + ·) (by decide) (by decide)).2 [2, 3] rfl).2
    ⟨replicate 6 0, by decide⟩ rfl

end CompileForge.Runtime.PlanBroadcast
