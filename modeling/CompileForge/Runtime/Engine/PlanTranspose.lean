/-
  The op-plan kernel `transpose` (`runtime/src/engine/op_plan/kernels.rs`) and its arm of
  `resolve_output_shape`.
-/

import CompileForge.Runtime.Engine.PlanBroadcast
import CompileForge.Runtime.Engine.PlanKernels
import CompileForge.Lib.LoopNest

namespace CompileForge.Runtime.PlanBroadcast

open Lib List

variable {α : Type}

/-- `slice::swap`, of places in range. -/
def swap (a b : Nat) (l : List Nat) : List Nat := (l.set a (l.getD b 0)).set b (l.getD a 0)

/-- The loop over the dims that takes a place apart, in a buffer that holds the last coordinates. -/
def readCoords (strides coords : List Nat) (idx : Nat) : List Nat :=
  ((range coords.length).foldl (fun (rem, coords) dim =>
    (rem % strides.getD dim 1, coords.set dim (rem / strides.getD dim 1))) (idx, coords)).2

/-- The loop over the dims that puts a place together. -/
def placeOf (strides coords : List Nat) : Nat :=
  (range coords.length).foldl
    (fun idx dim => idx + coords.getD dim 0 * strides.getD dim 1) 0

/-- The two dims that the attributes name are exchanged. -/
def transposeShape (inputs : List (Tensor α)) (attrs : List (String × String)) :
    Except Runtime.Failure (List Nat) := do
  let a ← attrUsize attrs "dim0"
  let b ← attrUsize attrs "dim1"
  let input ← orPanic inputs[0]?
  ensureOr (a < input.shape.length ∧ b < input.shape.length) "transpose dim out of range"
  return swap a b input.shape

/-- One slot of the output. -/
def transposeTurn (input : Tensor α) (a b : Nat) (s : List Nat × List α) (dstIdx : Nat) :
    Except Runtime.Failure (List Nat × List α) := do
  let coords := swap a b (readCoords (rowMajorStrides (swap a b input.shape)) s.1 dstIdx)
  let x ← orPanic input.data[placeOf (rowMajorStrides input.shape) coords]?
  return (coords, s.2 ++ [x])

/-- `transpose`: the shape, and the buffer after the call. -/
def transpose (inputs : List (Tensor α)) (attrs : List (String × String)) (out : SliceMut α) :
    Except Runtime.Failure (List Nat × List α) := do
  let a ← attrUsize attrs "dim0"
  let b ← attrUsize attrs "dim1"
  let input ← orPanic inputs[0]?
  ensureOr (a < input.shape.length ∧ b < input.shape.length) "transpose dim out of range"
  let dstShape := swap a b input.shape
  let dstNumel ← orError s!"shape product overflow: {dstShape}" (checkedProductUsize dstShape)
  ensureOr (input.data.length = dstNumel ∧ out.val.length = dstNumel) "transpose buffer mismatch"
  let s ← (range out.val.length).foldlM (transposeTurn input a b)
    (replicate input.shape.length 0, [])
  return (dstShape, s.2)

/-! ## Exchanged entries -/

section Swap

variable {a b i : Nat} {l s c : List Nat}

@[simp] theorem length_swap (a b : Nat) (l : List Nat) : (swap a b l).length = l.length := by
  rw [swap, length_set, length_set]

theorem getD_swap (ha : a < l.length) (hb : b < l.length) (i : Nat) :
    (swap a b l).getD i 0 = l.getD (if i = b then a else if i = a then b else i) 0 := by
  rw [swap, getD_eq_getElem?_getD, getElem?_set, getElem?_set, length_set]
  split_ifs with h₁ h₂ h₃ h₄ h₅
  all_goals first | rfl | omega

theorem swap_swap (ha : a < l.length) (hb : b < l.length) : swap a b (swap a b l) = l := by
  refine ext_getElem (by simp) fun i hi hi' => ?_
  rw [← getD_eq_getElem _ 0 hi, ← getD_eq_getElem _ 0 hi',
    getD_swap (by simpa using ha) (by simpa using hb), getD_swap ha hb]
  congr 1
  split_ifs <;> omega

theorem prod_swap (ha : a < l.length) (hb : b < l.length) : (swap a b l).prod = l.prod := by
  have hperm := set_set_perm ha hb
  rw [swap, getD_eq_getElem _ _ ha, getD_eq_getElem _ _ hb]
  exact hperm.prod_eq

theorem inShape_swap (ha : a < s.length) (hb : b < s.length) (h : InShape s c) :
    InShape (swap a b s) (swap a b c) := by
  obtain ⟨hlen, hlt⟩ := inShape_iff_getD.1 h
  refine inShape_iff_getD.2 ⟨by simp [hlen], fun i hi => ?_⟩
  rw [length_swap] at hi
  rw [getD_swap ha hb, getD_swap (hlen ▸ ha) (hlen ▸ hb)]
  apply hlt
  split_ifs <;> omega

theorem one_le_swap (ha : a < l.length) (hb : b < l.length) (h : ∀ d ∈ l, 1 ≤ d) :
    ∀ d ∈ swap a b l, 1 ≤ d := by
  have hperm := set_set_perm ha hb
  rw [← getD_eq_getElem l 0 ha, ← getD_eq_getElem l 0 hb] at hperm
  exact fun d hd => h d (hperm.mem_iff.1 hd)

end Swap

section Places

variable {s c coords : List Nat}

theorem readCoords_upTo (h : InShape s c) (hlen : coords.length = s.length) {n : Nat}
    (hn : n ≤ s.length) :
    (range n).foldl (fun (rem, coords) dim =>
      (rem % (rowStrides s).getD dim 1, coords.set dim (rem / (rowStrides s).getD dim 1)))
        (offset s c, coords) =
      (offset (s.drop n) (c.drop n), c.take n ++ coords.drop n) := by
  induction n with
  | zero => rfl
  | succ n ih =>
    have hc := h.length_eq
    have hdrop : InShape (s.drop (n + 1)) (c.drop (n + 1)) := forall₂_drop _ h
    have hs : s.drop n = s[n] :: s.drop (n + 1) := drop_eq_getElem_cons hn
    have hc' : c.drop n = (c)[n] :: c.drop (n + 1) := drop_eq_getElem_cons (by omega)
    have hk : coords.drop n = coords[n] :: coords.drop (n + 1) := drop_eq_getElem_cons (by omega)
    obtain ⟨hdiv, hmod⟩ := offset_cons_div_mod (d := s[n]) (x := (c)[n]) hdrop
    have htake : (c.take n).length = n := by
      rw [length_take]
      omega
    rw [range_succ, foldl_append, ih (by omega), foldl_cons, foldl_nil, getD_rowStrides hn, hs, hc']
    dsimp only
    rw [hdiv, hmod, hk, set_append_right n _ htake.le, htake, Nat.sub_self, set_cons_zero,
      take_succ_eq_append_getElem (by omega), append_assoc]
    rfl

theorem readCoords_eq {idx : Nat} (hlen : coords.length = s.length) (hidx : idx < s.prod) :
    readCoords (rowMajorStrides s) coords idx = coordOf s idx := by
  have hin := inShape_coordOf hidx
  have hall := readCoords_upTo hin hlen le_rfl
  rw [offset_coordOf hidx] at hall
  rw [readCoords, rowMajorStrides_eq, hlen, hall, ← hin.length_eq, take_length, hin.length_eq,
    ← hlen, drop_length, append_nil]

theorem placeOf_eq (h : c.length = s.length) : placeOf (rowMajorStrides s) c = offset s c := by
  have hsum : ∀ (s c : List Nat) (acc : Nat), c.length = s.length →
      (range c.length).foldl (fun idx dim => idx + c.getD dim 0 * (rowStrides s).getD dim 1)
        acc = acc + offset s c := by
    intro s
    induction s with
    | nil =>
      intro c acc hlen
      obtain rfl := length_eq_zero_iff.1 hlen
      rfl
    | cons d s ih =>
      intro c acc hlen
      obtain ⟨x, c, rfl⟩ := exists_cons_of_length_eq_add_one hlen
      rw [length_cons, range_succ_eq_map, foldl_cons, foldl_map]
      simp only [getD_cons_zero, getD_cons_succ, rowStrides]
      rw [ih c _ (Nat.succ.inj hlen), offset_cons, add_assoc]
  rw [placeOf, rowMajorStrides_eq, hsum s c 0 h, zero_add]

end Places

section Result

variable {a b : Nat} {t : Tensor α} {attrs : List (String × String)}

theorem foldlM_transposeTurn (ha : a < t.shape.length) (hb : b < t.shape.length) {n : Nat}
    (hn : n ≤ (swap a b t.shape).prod) :
    ∃ s, (range n).foldlM (transposeTurn t a b) (replicate t.shape.length 0, []) =
        .ok s ∧ s.1.length = t.shape.length ∧ s.2.length = n ∧
      ∀ i < n, s.2[i]? = t.at? (swap a b (coordOf (swap a b t.shape) i)) := by
  induction n with
  | zero => exact ⟨_, rfl, length_replicate .., rfl, fun i hi => absurd hi (Nat.not_lt_zero i)⟩
  | succ n ih =>
    obtain ⟨s, hrun, hcoords, hlen, hvals⟩ := ih (by omega)
    have hread : readCoords (rowMajorStrides (swap a b t.shape)) s.1 n =
        coordOf (swap a b t.shape) n := readCoords_eq (by rw [hcoords, length_swap]) (by omega)
    have hin := inShape_swap (by simpa using ha) (by simpa using hb)
      (inShape_coordOf (s := swap a b t.shape) (i := n) (by omega))
    rw [swap_swap ha hb] at hin
    have hplace : offset t.shape (swap a b (coordOf (swap a b t.shape) n)) < t.data.length := by
      rw [t.data_length]
      exact offset_lt hin
    have hturn : transposeTurn t a b s n = .ok (swap a b (coordOf (swap a b t.shape) n),
        s.2 ++ [t.data[offset t.shape (swap a b (coordOf (swap a b t.shape) n))]]) := by
      rw [transposeTurn, hread, placeOf_eq hin.length_eq, getElem?_eq_getElem hplace]
      rfl
    refine ⟨(_, s.2 ++ [t.data[offset t.shape (swap a b (coordOf (swap a b t.shape) n))]]), ?_,
      hin.length_eq, by rw [length_append, hlen]; rfl, fun i hi => ?_⟩
    · rw [range_succ, foldlM_append, hrun]
      show (foldlM (transposeTurn t a b) s [n]) = _
      rw [foldlM_cons, hturn]
      rfl
    · rcases Nat.lt_succ_iff_lt_or_eq.1 hi with hi | rfl
      · rw [getElem?_append_left (by omega), hvals i hi]
      · rw [getElem?_append_right hlen.le, hlen, Nat.sub_self, Tensor.at?,
          getElem?_eq_getElem hplace]
        rfl

theorem transpose_call (ht : ∀ d ∈ t.shape, 1 ≤ d) (ha : attrUsize attrs "dim0" = .ok a)
    (hb : attrUsize attrs "dim1" = .ok b) (hlt : a < t.shape.length ∧ b < t.shape.length)
    (rest : List (Tensor α)) :
    transposeShape (t :: rest) attrs = .ok (swap a b t.shape) ∧
      ∃ data, (∀ out : SliceMut α, out.val.length = t.data.length →
          transpose (t :: rest) attrs out = .ok (swap a b t.shape, data)) ∧
        data.length = (swap a b t.shape).prod ∧
        ∀ i < data.length, data[i]? = t.at? (swap a b (coordOf (swap a b t.shape) i)) := by
  have hprod := prod_swap hlt.1 hlt.2
  have hguard : ensureOr (a < t.shape.length ∧ b < t.shape.length) "transpose dim out of range" =
      .ok () := if_pos hlt
  obtain ⟨s, hrun, -, hlen, hvals⟩ := foldlM_transposeTurn hlt.1 hlt.2 le_rfl
  refine ⟨?_, s.2, fun out hout => ?_, hlen, fun i hi => hvals i (hlen ▸ hi)⟩
  · rw [transposeShape, ha, hb]
    show (ensureOr _ _ >>= fun _ => _) = _
    rw [hguard]
    rfl
  · have hnumel : checkedProductUsize (swap a b t.shape) = some (swap a b t.shape).prod := by
      have hbound := out.property
      rw [hout, t.data_length, ← hprod] at hbound
      exact checkedProductUsize_of_lt (one_le_swap hlt.1 hlt.2 ht) hbound
    rw [transpose, ha, hb]
    show (ensureOr _ _ >>= fun _ => _) = _
    rw [hguard]
    show (orError _ (checkedProductUsize (swap a b t.shape)) >>= fun _ => _) = _
    rw [hnumel]
    show (ensureOr _ _ >>= fun _ => _) = _
    rw [hout, t.data_length, hprod, ensureOr, if_pos ⟨rfl, rfl⟩, ← hprod]
    show (foldlM (transposeTurn t a b) _ _ >>= fun _ => _) = _
    rw [hrun]
    rfl

/-- Elements with two coordinates exchanged, under the resolved shape; twice gives the input. -/
theorem transpose_spec (t : Tensor α) (ht : ∀ d ∈ t.shape, 1 ≤ d)
    (ha : attrUsize attrs "dim0" = .ok a) (hb : attrUsize attrs "dim1" = .ok b)
    (hlt : a < t.shape.length ∧ b < t.shape.length) (rest : List (Tensor α)) :
    ∃ t' : Tensor α, t'.shape = swap a b t.shape ∧ transposeShape (t :: rest) attrs = .ok t'.shape ∧
      (∀ out : SliceMut α, out.val.length = t.data.length →
        transpose (t :: rest) attrs out = .ok (t'.shape, t'.data)) ∧
      (∀ c, InShape t'.shape c → ∃ x, t.at? (swap a b c) = some x ∧ t'.at? c = some x) ∧
      ∀ out : SliceMut α, out.val.length = t'.data.length →
        transpose (t' :: rest) attrs out = .ok (t.shape, t.data) := by
  obtain ⟨hshape, data, hcall, hlen, hvals⟩ := transpose_call ht ha hb hlt rest
  let t' : Tensor α := ⟨swap a b t.shape, data, hlen⟩
  have hlt' : a < t'.shape.length ∧ b < t'.shape.length := by
    rwa [length_swap]
  have hat : ∀ c, InShape t'.shape c → t'.at? c = t.at? (swap a b c) := by
    intro c hc
    have hplace := hvals (offset t'.shape c) (hlen ▸ offset_lt hc)
    rwa [coordOf_offset hc] at hplace
  refine ⟨t', rfl, hshape, hcall, fun c hc => ?_, ?_⟩
  · have hin := inShape_swap hlt'.1 hlt'.2 hc
    rw [swap_swap hlt.1 hlt.2] at hin
    have hget : t.at? (swap a b c) = some _ :=
      getElem?_eq_getElem (by rw [t.data_length]; exact offset_lt hin)
    exact ⟨_, hget, (hat c hc).trans hget⟩
  · obtain ⟨-, data', hcall', hlen', hvals'⟩ :=
      transpose_call (t := t') (one_le_swap hlt.1 hlt.2 ht) ha hb hlt' rest
    rw [show swap a b t'.shape = t.shape from swap_swap hlt.1 hlt.2] at hcall' hlen' hvals'
    obtain rfl : data' = t.data := by
      refine ext_getElem (hlen'.trans t.data_length.symm) fun i hi hi' => ?_
      have hprod : i < t.shape.prod := hlen' ▸ hi
      have hin := inShape_coordOf hprod
      have hval := hvals' i hi
      rw [hat _ (inShape_swap hlt.1 hlt.2 hin), swap_swap (hin.length_eq ▸ hlt.1)
        (hin.length_eq ▸ hlt.2), Tensor.at?, offset_coordOf hprod, getElem?_eq_getElem hi,
        getElem?_eq_getElem hi'] at hval
      exact Option.some.inj hval
    exact hcall'

end Result

def twoByThree : Tensor Int := ⟨[2, 3], [1, 2, 3, 4, 5, 6], rfl⟩

theorem transpose_spec_matrix :
    ∃ t' : Tensor Int, t'.shape = [3, 2] ∧
      transposeShape [twoByThree] [("dim0", "0"), ("dim1", "1")] = .ok [3, 2] ∧
      t'.at? [2, 1] = some 6 ∧
      ∀ out : SliceMut Int, out.val.length = t'.data.length →
        transpose [t'] [("dim0", "0"), ("dim1", "1")] out = .ok ([2, 3], [1, 2, 3, 4, 5, 6]) := by
  have hdim0 : attrUsize [("dim0", "0"), ("dim1", "1")] "dim0" = .ok 0 := rfl
  have hdim1 : attrUsize [("dim0", "0"), ("dim1", "1")] "dim1" = .ok 1 := rfl
  obtain ⟨t', hshape, hresolved, -, hat, hback⟩ :=
    transpose_spec twoByThree (by decide) hdim0 hdim1 (by decide) []
  obtain ⟨x, hx, hx'⟩ := hat [2, 1] (by rw [hshape]; simp [InShape, swap, twoByThree])
  obtain rfl := Option.some.inj (hx.symm.trans (rfl : _ = some (6 : Int)))
  exact ⟨t', hshape, hresolved.trans (congrArg _ hshape), hx', hback⟩

end CompileForge.Runtime.PlanBroadcast
