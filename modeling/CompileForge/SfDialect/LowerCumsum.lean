/-
  `SfCumsumOpLowering` (`sf-dialect/lib/Sf/SfLowerSeqOps.cpp`): the input is copied, and two loops
  add up the copy in place, the outer one along the dim from 1 on and the inner one over all other
  coordinates.
-/

import CompileForge.SfDialect.LowerBroadcast

namespace CompileForge.SfDialect

open Lib List

variable {α : Type}

/-- A size: a constant where the type has a positive one, else read off the tensor. -/
def loopDim (d : Option Nat) (n : Nat) : Nat :=
  match d with
  | some (k + 1) => k + 1
  | _ => n

/-- The coordinates of an index, the first dim fastest. -/
def digits : List Nat → Nat → List Nat
  | [], _ => []
  | d :: sizes, remaining => remaining % d :: digits sizes (remaining / d)

/-- `coords`: `iv` at the dim, the others off the inner index. -/
def cumsumCoords (iv : Nat) : List Nat → Nat → Nat → List Nat
  | [], _, _ => []
  | _ :: sizes, 0, remaining => iv :: digits sizes remaining
  | d :: sizes, dim + 1, remaining => remaining % d :: cumsumCoords iv sizes dim (remaining / d)

/-- The coordinates that the two loops write, in their order. -/
def cumsumPoints (dim : Nat) (sizes : List Nat) : List (List Nat) :=
  (range' 1 (sizes.getD dim 0 - 1)).flatMap fun iv =>
    (range (sizes.eraseIdx dim).prod).map (cumsumCoords iv sizes dim)

/-- The body of the inner loop; an access outside has no result. -/
def cumsumTurn [Add α] (dim : Nat) (input out : Tensor α) (coords : List Nat) :
    Option (Tensor α) :=
  let prevCoords := coords.set dim (coords.getD dim 0 - 1)
  if InShape out.shape prevCoords ∧ InShape input.shape coords ∧ InShape out.shape coords then
    some ⟨out.shape, Function.update out.elem coords (out.elem prevCoords + input.elem coords)⟩
  else none

def copyNest (rank : Nat) (input init : Tensor α) : LoopNest α where
  numLoops := rank
  ins := [(identityMap rank, input)]
  outMap := identityMap rank
  init := init
  body := fun args out => args.headD out

/-- `SfCumsumOpLowering`.  The sum is no valid op on two element types. -/
def lowerCumsum [Add α] (inElt outElt : EltType) (inType outType : RankedType)
    (dimAttr : Option Int) (input : Tensor α) (undef : List Nat → α) : Lowered (Tensor α) :=
  let dim := dimAttr.getD 0
  let dim := if dim < 0 then dim + inType.length else dim
  if dim < 0 ∨ inType.length ≤ dim then .error .noMatch
  else do
    let empty ← emit (makeEmpty outType [(inType, input.shape)] undef)
    let initOut ← emit (copyNest outType.length input empty).run
    if inElt = outElt then
      let sizes := zipWith loopDim inType input.shape
      emit ((cumsumPoints dim.toNat sizes).foldlM (cumsumTurn dim.toNat input) initOut)
    else .error .invalid

/-- The sum up to a coordinate. -/
def prefixSum [AddMonoid α] (dim : Nat) (x : List Nat → α) (c : List Nat) : α :=
  ((range (c.getD dim 0 + 1)).map fun i => x (c.set dim i)).sum

/-- What the op means. -/
def cumsum [AddMonoid α] (dim : Nat) (t : Tensor α) : Tensor α := ⟨t.shape, prefixSum dim t.elem⟩

/-! ## The coordinates of the loops -/

section Coords

variable {s c e : List Nat} {dim iv n m : Nat}

theorem inShape_digits (h : n < s.prod) : InShape s (digits s n) := by
  induction s generalizing n with
  | nil => exact .nil
  | cons d s ih =>
    rw [prod_cons] at h
    have hpos : 0 < d := Nat.pos_of_ne_zero fun hzero => by simp [hzero] at h
    exact .cons (Nat.mod_lt n hpos) (ih (Nat.div_lt_of_lt_mul h))

theorem digits_injOn (hn : n < s.prod) (hm : m < s.prod) (h : digits s n = digits s m) : n = m := by
  induction s generalizing n m with
  | nil =>
    rw [prod_nil] at hn hm
    omega
  | cons d s ih =>
    rw [prod_cons] at hn hm
    rw [digits, digits, List.cons.injEq] at h
    have hdiv := ih (Nat.div_lt_of_lt_mul hn) (Nat.div_lt_of_lt_mul hm) h.2
    rw [← Nat.div_add_mod n d, hdiv, h.1, Nat.div_add_mod]

theorem exists_digits (h : InShape s c) : ∃ n < s.prod, digits s n = c := by
  induction h with
  | nil => exact ⟨0, one_pos, rfl⟩
  | @cons x d c s hx _ ih =>
    obtain ⟨n, hn, rfl⟩ := ih
    refine ⟨x + d * n, ?_, ?_⟩
    · have hle := Nat.mul_le_mul_left d hn
      rw [prod_cons]
      rw [Nat.mul_succ] at hle
      omega
    · rw [digits, Nat.add_mul_mod_self_left, Nat.mod_eq_of_lt hx,
        Nat.add_mul_div_left _ _ (Nat.zero_lt_of_lt hx), Nat.div_eq_of_lt hx, zero_add]

theorem cumsumCoords_eq (hdim : dim < s.length) :
    cumsumCoords iv s dim n = (digits (s.eraseIdx dim) n).insertIdx dim iv := by
  induction s generalizing dim n with
  | nil => cases hdim
  | cons d s ih =>
    cases dim with
    | zero => rfl
    | succ =>
      rw [cumsumCoords, ih (Nat.lt_of_succ_lt_succ hdim)]
      rfl

theorem inShape_insertIdx (hdim : dim < s.length) (hiv : iv < s.getD dim 0)
    (h : InShape (s.eraseIdx dim) e) : InShape s (e.insertIdx dim iv) := by
  induction s generalizing dim e with
  | nil => cases hdim
  | cons d s ih =>
    cases dim with
    | zero => exact .cons hiv h
    | succ =>
      rw [eraseIdx_cons_succ] at h
      cases h with
      | cons hx h =>
        exact .cons hx (ih (Nat.lt_of_succ_lt_succ hdim) (by simpa using hiv) h)

theorem inShape_eraseIdx (h : InShape s c) (dim : Nat) :
    InShape (s.eraseIdx dim) (c.eraseIdx dim) := by
  induction h generalizing dim with
  | nil => exact .nil
  | cons hx h ih =>
    cases dim with
    | zero => exact h
    | succ dim => exact .cons hx (ih dim)

theorem mem_cumsumPoints (hdim : dim < s.length) :
    c ∈ cumsumPoints dim s ↔ InShape s c ∧ 1 ≤ c.getD dim 0 := by
  simp only [cumsumPoints, mem_flatMap, mem_range'_1, mem_map, mem_range]
  constructor
  · rintro ⟨iv, hiv, n, hn, rfl⟩
    have hlt : iv < s.getD dim 0 := by omega
    have hin := inShape_insertIdx hdim hlt (inShape_digits hn)
    rw [cumsumCoords_eq hdim]
    refine ⟨hin, ?_⟩
    rw [getD_eq_getElem _ _ (by rwa [hin.length_eq]), getElem_insertIdx_self]
    exact hiv.1
  · rintro ⟨hc, hpos⟩
    obtain ⟨n, hn, hdigits⟩ := exists_digits (inShape_eraseIdx hc dim)
    have hlt := (inShape_iff_getD.1 hc).2 dim hdim
    refine ⟨c.getD dim 0, by omega, n, hn, ?_⟩
    have hdim' : dim < c.length := by rwa [hc.length_eq]
    rw [cumsumCoords_eq hdim, hdigits, getD_eq_getElem _ _ hdim']
    exact insertIdx_eraseIdx_getElem hdim'

theorem getD_cumsumCoords (hdim : dim < s.length) (hn : n < (s.eraseIdx dim).prod) :
    (cumsumCoords iv s dim n).getD dim 0 = iv := by
  have hlen := (inShape_digits hn).length_eq
  rw [length_eraseIdx_of_lt hdim] at hlen
  rw [cumsumCoords_eq hdim, getD_eq_getElem?_getD, getElem?_insertIdx_self,
    if_pos (by omega), Option.getD_some]

theorem nodup_cumsumPoints (hdim : dim < s.length) : (cumsumPoints dim s).Nodup := by
  refine nodup_flatMap.2 ⟨fun iv _ => ?_, ?_⟩
  · refine nodup_range.map_on fun n hn m hm h => ?_
    rw [cumsumCoords_eq hdim, cumsumCoords_eq hdim] at h
    exact digits_injOn (mem_range.1 hn) (mem_range.1 hm)
      (insertIdx_injective dim iv h)
  · have hnodup : (range' 1 (s.getD dim 0 - 1)).Nodup := nodup_range'
    refine List.Pairwise.imp (fun {iv iv'} hne c hc hc' => hne ?_) hnodup
    obtain ⟨n, hn, rfl⟩ := mem_map.1 hc
    obtain ⟨m, hm, heq⟩ := mem_map.1 hc'
    have hget : (cumsumCoords iv s dim n).getD dim 0 = iv :=
      getD_cumsumCoords hdim (mem_range.1 hn)
    rw [← heq] at hget
    exact hget.symm.trans (getD_cumsumCoords hdim (mem_range.1 hm))

theorem pairwise_cumsumPoints (hdim : dim < s.length) :
    (cumsumPoints dim s).Pairwise fun c c' => c.getD dim 0 ≤ c'.getD dim 0 := by
  have hget : ∀ iv, ∀ c ∈ (range (s.eraseIdx dim).prod).map (cumsumCoords iv s dim),
      c.getD dim 0 = iv := by
    intro iv c hc
    obtain ⟨n, hn, rfl⟩ := mem_map.1 hc
    exact getD_cumsumCoords hdim (mem_range.1 hn)
  refine pairwise_flatMap.2 ⟨fun iv _ => ?_, ?_⟩
  · exact pairwise_of_forall_mem_list fun c hc c' hc' => by rw [hget iv c hc, hget iv c' hc']
  · refine List.Pairwise.imp (fun {iv iv'} hlt c hc c' hc' => ?_)
      pairwise_lt_range'
    rw [hget iv c hc, hget iv' c' hc']
    exact hlt.le

end Coords

/-! ## What the loops compute -/

section Run

variable [AddMonoid α] {s c p : List Nat} {dim : Nat} {x out : List Nat → α}

theorem prefixSum_first (h : c.getD dim 0 = 0) : prefixSum dim x c = x c := by
  have hset : c.set dim 0 = c := by
    by_cases hdim : dim < c.length
    · rw [getD_eq_getElem _ _ hdim] at h
      rw [← h, set_getElem_self]
    · exact set_eq_of_length_le (Nat.le_of_not_lt hdim)
  rw [prefixSum, h, range_one, map_singleton, sum_singleton, hset]

theorem prefixSum_next (hdim : dim < c.length) (h : 1 ≤ c.getD dim 0) :
    prefixSum dim x c = prefixSum dim x (c.set dim (c.getD dim 0 - 1)) + x c := by
  obtain ⟨k, hk⟩ := Nat.exists_eq_add_of_le' h
  have hprev : (c.set dim k).getD dim 0 = k := by
    rw [getD_eq_getElem _ _ (by rwa [length_set]), getElem_set_self]
  have hself : c.set dim (k + 1) = c := by
    rw [getD_eq_getElem _ _ hdim] at hk
    rw [← hk, set_getElem_self]
  rw [hk, Nat.add_sub_cancel, prefixSum, prefixSum, hk, hprev, range_succ, map_append,
    sum_append, map_singleton, sum_singleton, hself]
  simp only [set_set]

theorem inShape_set {i : Nat} (hc : InShape s c) (hi : i < c.getD dim 0) :
    InShape s (c.set dim i) := by
  rw [inShape_iff_getD] at hc ⊢
  refine ⟨by rw [length_set, hc.1], fun j hj => ?_⟩
  have hlt := hc.2 j hj
  rw [getD_eq_getElem?_getD, getElem?_set]
  by_cases hjd : dim = j
  · subst hjd
    rw [if_pos rfl, if_pos (hc.1 ▸ hj), Option.getD_some]
    omega
  · rwa [if_neg hjd, ← getD_eq_getElem?_getD]

/-- Behind a part of the turns, what they wrote is summed up, and the rest is what it was. -/
theorem foldlM_cumsumTurn (hdim : dim < s.length) {x₀ : List Nat → α}
    (hx : ∀ c, InShape s c → x₀ c = x c) {done rest : List (List Nat)}
    (hsplit : cumsumPoints dim s = done ++ rest) :
    ∃ out, done.foldlM (cumsumTurn dim ⟨s, x⟩) ⟨s, x₀⟩ = some ⟨s, out⟩ ∧
      ∀ c, InShape s c → out c = if c ∈ done then prefixSum dim x c else x c := by
  induction done using reverseRecOn generalizing rest with
  | nil => exact ⟨x₀, rfl, fun c hc => hx c hc⟩
  | append_singleton done p ih =>
    rw [append_assoc, singleton_append] at hsplit
    obtain ⟨out, hrun, hout⟩ := ih hsplit
    have hpoint := (mem_cumsumPoints hdim).1
      (hsplit ▸ mem_append_right done mem_cons_self : p ∈ cumsumPoints dim s)
    have hprev : InShape s (p.set dim (p.getD dim 0 - 1)) := inShape_set hpoint.1 (by omega)
    have hdim' : dim < p.length := by rwa [hpoint.1.length_eq]
    have hget : (p.set dim (p.getD dim 0 - 1)).getD dim 0 = p.getD dim 0 - 1 := by
      rw [getD_eq_getElem _ _ (by rwa [length_set]), getElem_set_self]
    -- the element in front is summed up: it was written before, or it is the first
    have hvalue : out (p.set dim (p.getD dim 0 - 1)) =
        prefixSum dim x (p.set dim (p.getD dim 0 - 1)) := by
      rw [hout _ hprev]
      split
      · rfl
      · rename_i hnot
        refine (prefixSum_first (Nat.eq_zero_of_not_pos fun hpos => ?_)).symm
        have hmem := (mem_cumsumPoints hdim).2 ⟨hprev, hpos⟩
        have hsorted := pairwise_cumsumPoints hdim
        rw [hsplit] at hmem hsorted
        rcases mem_append.1 hmem with hmem | hmem
        · exact hnot hmem
        · rcases mem_cons.1 hmem with hself | hmem
          · rw [hself] at hget
            omega
          · have hle := rel_of_pairwise_cons (pairwise_append.1 hsorted).2.1 hmem
            omega
    refine ⟨Function.update out p (prefixSum dim x p), ?_, fun c hc => ?_⟩
    · rw [foldlM_append, hrun, prefixSum_next hdim' hpoint.2, ← hvalue]
      show (cumsumTurn dim ⟨s, x⟩ ⟨s, out⟩ p >>= pure) = _
      rw [bind_pure, cumsumTurn, if_pos ⟨hprev, hpoint.1, hpoint.1⟩]
    · by_cases hcp : c = p
      · rw [hcp, Function.update_self, if_pos (mem_append_right _ mem_cons_self)]
      · rw [Function.update_of_ne hcp, hout c hc]
        simp [hcp]

theorem loopDim_of_fits {ty : RankedType} (h : Fits s ty) : zipWith loopDim ty s = s := by
  induction h with
  | nil => rfl
  | @cons n d s ty hd _ ih =>
    rw [zipWith_cons_cons, ih]
    refine congrArg (· :: s) ?_
    cases d with
    | none => rfl
    | some k => cases k with
      | zero => rfl
      | succ => exact hd

omit [AddMonoid α] in
theorem run_copyNest (s : List Nat) (x undef : List Nat → α) :
    ∃ out, (copyNest s.length ⟨s, x⟩ ⟨s, undef⟩).run = some ⟨s, out⟩ ∧
      ∀ c, InShape s c → out c = x c := by
  obtain ⟨t, hrun, hshape, helem⟩ : ∃ t, (copyNest s.length ⟨s, x⟩ ⟨s, undef⟩).run = some t ∧
      t.shape = s ∧ ∀ c, InShape s c → t.elem c = x ((identityMap s.length).at c) := by
    refine LoopNest.run_parallel rfl (loopSizes_identity s _) ?_
    intro o ho p hp
    have hp := mem_points.1 hp
    obtain rfl : o = (identityMap s.length, s) := by simpa [copyNest, LoopNest.operands] using ho
    rwa [identityMap_at hp.length_eq]
  obtain ⟨shape, out⟩ := t
  obtain rfl : shape = s := hshape
  exact ⟨out, hrun, fun c hc => (helem c hc).trans (by rw [identityMap_at hc.length_eq])⟩

/-- The lowering of a cumulative sum is one, and writes no element twice. -/
theorem lowerCumsum_spec (elt : EltType) {ty : RankedType} (hfits : Fits s ty)
    (dimAttr : Option Int) (hlow : -(ty.length : Int) ≤ dimAttr.getD 0)
    (hhigh : dimAttr.getD 0 < ty.length) (x undef : List Nat → α) :
    ∃ dim : Nat, (dim : Int) = dimAttr.getD 0 +
      (if dimAttr.getD 0 < 0 then (ty.length : Int) else 0) ∧
      (cumsumPoints dim s).Nodup ∧
      ∃ t, lowerCumsum elt elt ty ty dimAttr ⟨s, x⟩ undef = .ok t ∧ t.Same (cumsum dim ⟨s, x⟩) := by
  obtain ⟨dim, hdim⟩ := Int.eq_ofNat_of_zero_le
    (a := dimAttr.getD 0 + (if dimAttr.getD 0 < 0 then (ty.length : Int) else 0)) (by
      split <;> omega)
  have hlt : dim < s.length := by
    rw [hfits.length_eq]
    split at hdim <;> omega
  have hwrap : (if dimAttr.getD 0 < 0 then dimAttr.getD 0 + ty.length else dimAttr.getD 0) =
      (dim : Int) := by
    rw [← hdim]
    split <;> omega
  refine ⟨dim, hdim.symm, nodup_cumsumPoints hlt, ?_⟩
  obtain ⟨x₀, hcopy, hx⟩ := run_copyNest s x undef
  obtain ⟨out, hrun, hout⟩ := foldlM_cumsumTurn hlt hx (append_nil _).symm
  refine ⟨⟨s, out⟩, ?_, rfl, fun c hc => ?_⟩
  · simp only [lowerCumsum, hwrap, loopDim_of_fits hfits, makeEmpty_self hfits]
    rw [if_neg (by have := hfits.length_eq; omega), ← hfits.length_eq]
    show (emit (copyNest s.length ⟨s, x⟩ ⟨s, undef⟩).run >>= _) = _
    rw [hcopy]
    show emit ((cumsumPoints dim s).foldlM (cumsumTurn dim ⟨s, x⟩) ⟨s, x₀⟩) = _
    rw [hrun]
    rfl
  · show out c = prefixSum dim x c
    rw [hout c hc]
    split
    · rfl
    · rename_i hnot
      exact (prefixSum_first (Nat.eq_zero_of_not_pos fun hpos =>
        hnot ((mem_cumsumPoints hlt).2 ⟨hc, hpos⟩))).symm

end Run

/-- A matrix of open width along its columns. -/
theorem lowerCumsum_spec_matrix :
    ∃ t : Tensor Int, lowerCumsum .f32 .f32 [some 2, none] [some 2, none] (some (-1))
      ⟨[2, 3], fun c => ((c.getD 1 0 : Nat) : Int)⟩ (fun _ => 7) = .ok t ∧
        t.Same (cumsum 1 ⟨[2, 3], fun c => ((c.getD 1 0 : Nat) : Int)⟩) := by
  obtain ⟨dim, hdim, -, t, hrun, hsame⟩ := lowerCumsum_spec .f32
    (.cons rfl (.cons rfl .nil) : Fits [2, 3] [some 2, none]) (some (-1)) (by decide)
    (by decide) (fun c => ((c.getD 1 0 : Nat) : Int)) (fun _ => 7)
  obtain rfl : dim = 1 := Int.ofNat.inj hdim
  exact ⟨t, hrun, hsame⟩

end CompileForge.SfDialect
