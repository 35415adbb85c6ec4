/-
  Nests that broadcast: every operand is read at the last loops, and some of its dims at 0
  whatever the point.  Which dims these are is fixed before the sizes are known.
-/

import CompileForge.Lib.LoopNest
import Mathlib.Data.Nat.Init

namespace CompileForge.Lib

open List

section Shapes

variable {a s c : List Nat}

theorem stretchesTo_iff_getD :
    StretchesTo a s ↔ a.length ≤ s.length ∧ ∀ j < a.length,
      a.getD j 0 = 1 ∨ a.getD j 0 = s.getD (j + (s.length - a.length)) 0 := by
  refine and_congr_right fun hle => ?_
  have hdrop : ∀ j, (s.drop (s.length - a.length)).getD j 0 =
      s.getD (j + (s.length - a.length)) 0 := fun j => by
    rw [getD_eq_getElem?_getD, getElem?_drop, ← getD_eq_getElem?_getD, add_comm]
  have hlen : (s.drop (s.length - a.length)).length = a.length := by
    rw [length_drop]
    omega
  rw [forall₂_iff_get]
  constructor
  · rintro ⟨-, h⟩ j hj
    have hd := h j hj (by omega)
    rwa [get_eq_getElem, get_eq_getElem, ← getD_eq_getElem _ 0 hj,
      ← getD_eq_getElem _ 0 (by omega), hdrop] at hd
  · intro h
    refine ⟨hlen.symm, fun j hj hj' => ?_⟩
    rw [get_eq_getElem, get_eq_getElem, ← getD_eq_getElem _ 0 hj, ← getD_eq_getElem _ 0 hj', hdrop]
    exact h j hj

theorem StretchesTo.refl (s : List Nat) : StretchesTo s s := by
  rw [stretchesTo_iff_getD, Nat.sub_self]
  exact ⟨Nat.le_refl _, fun _ _ => .inr rfl⟩

theorem length_restrict (h : s.length ≤ c.length) : (restrict s c).length = s.length := by
  rw [restrict, length_zipWith, length_drop]
  omega

theorem getD_restrict {j : Nat} (h : s.length ≤ c.length) (hj : j < s.length) :
    (restrict s c).getD j 0 = min (c.getD (j + (c.length - s.length)) 0) (s.getD j 0 - 1) := by
  rw [getD_eq_getElem _ _ (by rwa [length_restrict h]), getD_eq_getElem _ _ hj,
    getD_eq_getElem _ _ (by omega)]
  simp only [restrict, getElem_zipWith, getElem_drop, add_comm]

@[simp] theorem stretched_one_left (n : Nat) : stretched 1 n = n := if_pos rfl

@[simp] theorem stretched_one_right (n : Nat) : stretched n 1 = n := by
  rw [stretched]
  split <;> omega

theorem max_eq_stretched_iff {m n : Nat} (h : Compatible m n) :
    max m n = stretched m n ↔ (m = 0 → n ≠ 1) ∧ (m = 1 → n ≠ 0) := by
  have hcases : m = n ∨ m = 1 ∨ n = 1 := h
  rw [stretched]
  split <;> omega

/-- The point with the largest index at every dim. -/
def lastPoint (s : List Nat) : List Nat := s.map (· - 1)

@[simp] theorem getD_lastPoint (i : Nat) : (lastPoint s).getD i 0 = s.getD i 0 - 1 := by
  rw [lastPoint, getD_eq_getElem?_getD, getElem?_map, getD_eq_getElem?_getD]
  cases s[i]? <;> rfl

theorem inShape_lastPoint (h : ∀ i < s.length, s.getD i 0 ≠ 0) : InShape s (lastPoint s) := by
  refine inShape_iff_getD.2 ⟨length_map _, fun i hi => ?_⟩
  have := h i hi
  rw [getD_lastPoint]
  omega

end Shapes

/-! ## Reading at the last loops -/

/-- The map of an operand: its dims go with the last loops, those of `atZero` are read at 0. -/
def trailingMap (numLoops rank : Nat) (atZero : Nat → Bool) : IndexMap :=
  (range rank).map fun j => if atZero j then .const 0 else .dim (j + (numLoops - rank))

section Trailing

variable {numLoops rank : Nat} {atZero : Nat → Bool} {s p : List Nat}

@[simp] theorem length_trailingMap : (trailingMap numLoops rank atZero).length = rank := by
  simp [trailingMap]

theorem identityMap_eq_trailingMap (n : Nat) :
    identityMap n = trailingMap n n fun _ => false := by
  simp [identityMap, trailingMap]

theorem getD_trailingMap_at {j : Nat} (hj : j < rank) :
    ((trailingMap numLoops rank atZero).at p).getD j 0 =
      if atZero j then 0 else p.getD (j + (numLoops - rank)) 0 := by
  rw [IndexMap.at, trailingMap, map_map, getD_map_range _ hj]
  show IndexExpr.at p (if atZero j then _ else _) = _
  split <;> rfl

theorem mem_zip_trailingMap {e : IndexExpr} {n : Nat} :
    (e, n) ∈ (trailingMap numLoops s.length atZero).zip s ↔
      ∃ j < s.length, e = (if atZero j then .const 0 else .dim (j + (numLoops - s.length))) ∧
        n = s.getD j 0 := by
  have hget : ∀ j (hj : j < s.length), ((trailingMap numLoops s.length atZero).zip s)[j]? =
        some (if atZero j then .const 0 else .dim (j + (numLoops - s.length)), s.getD j 0) := by
    intro j hj
    rw [getElem?_eq_getElem (by simpa using hj), getElem_zip, getD_eq_getElem _ _ hj]
    simp [trailingMap]
  rw [mem_iff_getElem?]
  constructor
  · rintro ⟨j, hmem⟩
    have hj : j < s.length := by
      have := (List.getElem?_eq_some_iff.1 hmem).1
      rw [length_zip, length_trailingMap] at this
      omega
    rw [hget j hj, Option.some.injEq, Prod.mk.injEq] at hmem
    exact ⟨j, hj, hmem.1.symm, hmem.2.symm⟩
  · rintro ⟨j, hj, rfl, rfl⟩
    exact ⟨j, hget j hj⟩

end Trailing

section Nest

variable {α : Type}

/-- An operand of a broadcast: the dims that are read at 0, and its shape. -/
abbrev Stretched := (Nat → Bool) × List Nat

/-- The dims that are read at 0 have one element, and the others the sizes of the loops. -/
def Stretched.Reads (out : List Nat) (o : Stretched) : Prop :=
  ∀ j < o.2.length, o.2.getD j 0 = if o.1 j then 1 else out.getD (j + (out.length - o.2.length)) 0

instance (out : List Nat) (o : Stretched) : Decidable (o.Reads out) :=
  inferInstanceAs (Decidable (∀ j < o.2.length, _))

def Stretched.operand (numLoops : Nat) (o : Stretched) : IndexMap × List Nat :=
  (trailingMap numLoops o.2.length o.1, o.2)

/-- The nest over the shape `out`; `elem k` has the elements of the operand `k`. -/
def stretchNest (out : List Nat) (ins : List Stretched) (body : List α → α → α)
    (elem : Nat → List Nat → α) (undef : List Nat → α) : LoopNest α where
  numLoops := out.length
  ins := ins.zipIdx.map fun i =>
    (trailingMap out.length i.1.2.length i.1.1, ⟨i.1.2, elem i.2⟩)
  outMap := identityMap out.length
  init := ⟨out, undef⟩
  body := body

/-- The elements of the operands at a coordinate of the shape they are stretched to. -/
def stretchArgs (ins : List Stretched) (elem : Nat → List Nat → α) (c : List Nat) : List α :=
  ins.zipIdx.map fun i => elem i.2 (restrict i.1.2 c)

/-- The nest computes the body at each coordinate, whatever the elements are. -/
def StretchRight (out : List Nat) (ins : List Stretched) (body : List α → α → α) : Prop :=
  ∀ (elem : Nat → List Nat → α) (undef : List Nat → α),
    ∃ t, (stretchNest out ins body elem undef).run = some t ∧ t.shape = out ∧
      ∀ c, InShape out c → t.elem c = body (stretchArgs ins elem c) (undef c)

variable {out box c : List Nat} {ins : List Stretched} {o : Stretched} {body : List α → α → α}
  {elem : Nat → List Nat → α} {undef : List Nat → α}

theorem operands_stretchNest :
    (stretchNest out ins body elem undef).operands =
      (ins ++ [(fun _ => false, out)]).map (Stretched.operand out.length) := by
  have hins : ∀ k, (ins.zipIdx k).map (fun i : Stretched × Nat =>
      (trailingMap out.length i.1.2.length i.1.1, i.1.2)) =
      ins.map (Stretched.operand out.length) := fun k => by
    conv_rhs => rw [← zipIdx_map_fst k ins, map_map]
    rfl
  rw [map_append, ← hins 0, LoopNest.operands, stretchNest, map_map, identityMap_eq_trailingMap]
  rfl

theorem reads_out : Stretched.Reads out (fun _ => false, out) := by
  intro j _
  rw [if_neg (by simp), Nat.sub_self, Nat.add_zero]

theorem Stretched.Reads.at_eq (h : o.Reads out) (hle : o.2.length ≤ out.length)
    (hc : InShape out c) :
    InShape o.2 ((trailingMap out.length o.2.length o.1).at c) ∧
      (trailingMap out.length o.2.length o.1).at c = restrict o.2 c := by
  obtain ⟨hlen, hlt⟩ := inShape_iff_getD.1 hc
  have hmap : ((trailingMap out.length o.2.length o.1).at c).length = o.2.length := by
    rw [IndexMap.at, length_map, length_trailingMap]
  -- at each dim the size is one, or the coordinate is below it
  have hdim : ∀ j < o.2.length, ((trailingMap out.length o.2.length o.1).at c).getD j 0 =
      min (c.getD (j + (c.length - o.2.length)) 0) (o.2.getD j 0 - 1) ∧
      ((trailingMap out.length o.2.length o.1).at c).getD j 0 < o.2.getD j 0 := by
    intro j hj
    have hsize := h j hj
    have hcoord := hlt (j + (out.length - o.2.length)) (by omega)
    rw [getD_trailingMap_at hj, hlen]
    by_cases hzero : o.1 j
    · rw [if_pos hzero] at hsize
      rw [if_pos hzero, hsize]
      omega
    · rw [if_neg hzero] at hsize
      rw [if_neg hzero, hsize]
      omega
  refine ⟨inShape_iff_getD.2 ⟨hmap, fun j hj => (hdim j hj).2⟩, ?_⟩
  have hres : (restrict o.2 c).length = o.2.length := length_restrict (by omega)
  refine ext_getElem (hmap.trans hres.symm) fun j hj hj' => ?_
  rw [← getD_eq_getElem _ 0 hj, ← getD_eq_getElem _ 0 hj', getD_restrict (by omega) (by omega)]
  exact (hdim j (by omega)).1

/-- Where all dims are read right, the nest computes the broadcast. -/
theorem stretchRight_of_reads (hle : ∀ o ∈ ins, o.2.length ≤ out.length)
    (h : ∀ o ∈ ins, o.Reads out) : StretchRight out ins body := by
  intro elem undef
  have hall : ∀ o ∈ ins ++ [(fun _ => false, out)], o.2.length ≤ out.length ∧ o.Reads out := by
    intro o ho
    rcases mem_append.1 ho with ho | ho
    · exact ⟨hle o ho, h o ho⟩
    · rw [mem_singleton.1 ho]
      exact ⟨Nat.le_refl _, reads_out⟩
  have hbox : loopSizes out.length (stretchNest out ins body elem undef).operands = some out := by
    rw [operands_stretchNest]
    refine loopSizes_eq (fun o' ho' d n hmem => ?_) fun d hd => ?_
    · obtain ⟨o, ho, rfl⟩ := mem_map.1 ho'
      obtain ⟨j, hj, he, rfl⟩ := mem_zip_trailingMap.1 hmem
      obtain ⟨hle, hreads⟩ := hall o ho
      by_cases hzero : o.1 j
      · rw [if_pos hzero] at he
        cases he
      · rw [if_neg hzero] at he
        cases he
        rw [hreads j hj, if_neg hzero, getD_eq_getElem _ _ (by omega)]
        exact getElem?_eq_getElem _
    · refine ⟨_, mem_map.2 ⟨_, mem_append_right _ mem_cons_self, rfl⟩,
        out.getD d 0, mem_zip_trailingMap.2 ⟨d, hd, ?_, rfl⟩⟩
      simp
  have hin : InBounds out (stretchNest out ins body elem undef).operands := by
    rw [operands_stretchNest]
    intro o' ho' p hp
    obtain ⟨o, ho, rfl⟩ := mem_map.1 ho'
    obtain ⟨hle, hreads⟩ := hall o ho
    exact (hreads.at_eq hle (mem_points.1 hp)).1
  obtain ⟨t, hrun, hshape, helem⟩ := LoopNest.run_parallel rfl hbox hin
  refine ⟨t, hrun, hshape, fun c hc => ?_⟩
  rw [helem c hc]
  have hargs : (stretchNest out ins body elem undef).args c = stretchArgs ins elem c := by
    rw [LoopNest.args, stretchNest, stretchArgs, map_map]
    refine map_congr_left fun i hi => ?_
    have ho : i.1 ∈ ins := by
      obtain ⟨-, -, hget⟩ := mem_zipIdx hi
      rw [hget]
      exact getElem_mem _
    show elem i.2 ((trailingMap out.length i.1.2.length i.1.1).at c) = _
    rw [((h i.1 ho).at_eq (hle i.1 ho) hc).2]
  rw [hargs]
  rfl

/-! ## Where it is right -/

/-- Some loop has no points: the first dim that is indexed by it is empty. -/
def EmptyLoop (out : List Nat) (ins : List Stretched) : Prop :=
  ∃ d < out.length,
    loopSize ((ins ++ [(fun _ => false, out)]).map (Stretched.operand out.length)) d = some 0

instance (out : List Nat) (ins : List Stretched) : Decidable (EmptyLoop out ins) :=
  inferInstanceAs (Decidable (∃ d < out.length, _))

/-- The operands are read right, or there is nothing to read. -/
def StretchKept (out : List Nat) (ins : List Stretched) : Prop :=
  (∀ o ∈ ins, o.Reads out) ∨ EmptyLoop out ins
deriving Decidable

variable {d n k : Nat}

theorem loopSize_eq_some {operands : List (IndexMap × List Nat)}
    (h : loopSize operands d = some n) : ∃ o ∈ operands, (IndexExpr.dim d, n) ∈ o.1.zip o.2 := by
  obtain ⟨before, behind, hsplit, -⟩ := lookup_eq_some_iff.1 h
  have hmem : (IndexExpr.dim d, n) ∈ operands.flatMap fun o => o.1.zip o.2 :=
    hsplit ▸ mem_append_right _ mem_cons_self
  exact mem_flatMap.1 hmem

theorem loopSize_ne_none (hd : d < out.length) :
    loopSize ((ins ++ [(fun _ => false, out)]).map (Stretched.operand out.length)) d ≠ none := by
  intro hnone
  rw [loopSize, lookup_eq_none_iff] at hnone
  have hmem : (IndexExpr.dim d, out.getD d 0) ∈
      (trailingMap out.length out.length fun _ => false).zip out :=
    mem_zip_trailingMap.2 ⟨d, hd, by simp, rfl⟩
  have hne := hnone _ (mem_flatMap.2
    ⟨_, mem_map.2 ⟨_, mem_append_right _ mem_cons_self, rfl⟩, hmem⟩)
  simp at hne

theorem stretches_of_mem (hst : ∀ o ∈ ins, StretchesTo o.2 out) {o' : IndexMap × List Nat}
    (ho' : o' ∈ (ins ++ [(fun _ => false, out)]).map (Stretched.operand out.length))
    (hmem : (IndexExpr.dim d, n) ∈ o'.1.zip o'.2) : n = 1 ∨ n = out.getD d 0 := by
  obtain ⟨o, ho, rfl⟩ := mem_map.1 ho'
  have hst : StretchesTo o.2 out := by
    rcases mem_append.1 ho with ho | ho
    · exact hst o ho
    · rw [mem_singleton.1 ho]
      exact .refl out
  obtain ⟨j, hj, he, rfl⟩ := mem_zip_trailingMap.1 hmem
  split at he
  · cases he
  · cases he
    exact (stretchesTo_iff_getD.1 hst).2 j hj

theorem stretchRight_of_emptyLoop (hst : ∀ o ∈ ins, StretchesTo o.2 out)
    (h : EmptyLoop out ins) : StretchRight out ins body := by
  intro elem undef
  obtain ⟨d, hd, hsize⟩ := h
  obtain ⟨o, ho, hmem⟩ := loopSize_eq_some hsize
  have hzero : out.getD d 0 = 0 := by
    have := stretches_of_mem hst ho hmem
    omega
  have hsizes : ∀ e < out.length, ∃ n, loopSize
      ((ins ++ [(fun _ => false, out)]).map (Stretched.operand out.length)) e = some n :=
    fun e he => Option.ne_none_iff_exists'.1 (loopSize_ne_none he)
  let box := (range out.length).map fun e => (loopSize
    ((ins ++ [(fun _ => false, out)]).map (Stretched.operand out.length)) e).getD 0
  have hbox : loopSizes out.length (stretchNest out ins body elem undef).operands = some box := by
    rw [operands_stretchNest, loopSizes, mapM_eq_some_forall₂, forall₂_map_right_iff]
    refine forall₂_same.2 fun e he => ?_
    obtain ⟨n, hn⟩ := hsizes e (mem_range.1 he)
    rw [hn, Option.getD_some]
  have hempty : 0 ∈ box := by
    refine mem_map.2 ⟨d, mem_range.2 hd, ?_⟩
    rw [hsize, Option.getD_some]
  have hin : InBounds box (stretchNest out ins body elem undef).operands :=
    fun o _ p hp => absurd hempty (mem_points.1 hp).zero_notMem
  refine ⟨_, LoopNest.run_eq hbox hin, rfl, fun c hc => absurd ?_ hc.zero_notMem⟩
  rw [getD_eq_getElem _ _ hd] at hzero
  exact hzero ▸ getElem_mem hd

theorem run_stretchNest_box {t : Tensor α}
    (h : (stretchNest out ins body elem undef).run = some t) :
    ∃ box, box.length = out.length ∧ (∀ d < out.length, loopSize
        ((ins ++ [(fun _ => false, out)]).map (Stretched.operand out.length)) d =
          some (box.getD d 0)) ∧
      InBounds box ((ins ++ [(fun _ => false, out)]).map (Stretched.operand out.length)) ∧
      (∀ c, InShape box c →
        t.elem c = body ((stretchNest out ins body elem undef).args c) (undef c)) ∧
      ∀ c, ¬ InShape box c → t.elem c = undef c := by
  obtain ⟨box, hbox, hin, rfl⟩ := LoopNest.run_eq_some h
  obtain ⟨t', hrun', -, helem⟩ := LoopNest.run_parallel rfl hbox hin
  rw [h] at hrun'
  cases hrun'
  rw [operands_stretchNest] at hbox hin
  have hsizes := mapM_eq_some_forall₂.1 hbox
  have hlen : box.length = out.length := by
    rw [← hsizes.length_eq, length_range]
    rfl
  refine ⟨box, hlen, fun d hd => ?_, hin, helem, fun c hc => ?_⟩
  · have hget := (forall₂_iff_get.1 hsizes).2 d (by simpa [stretchNest] using hd) (by omega)
    simp only [get_eq_getElem, getElem_range] at hget
    rw [hget, getD_eq_getElem _ _ (by omega)]
  · show (points box).foldl _ undef c = _
    rw [LoopNest.foldl_visit, filter_eq_nil_iff.2]
    · rfl
    · intro p hp
      have hat : (stretchNest out ins body elem undef).outMap.at p = p :=
        identityMap_at ((mem_points.1 hp).length_eq.trans hlen)
      rw [hat, decide_eq_true_eq]
      rintro rfl
      exact hc (mem_points.1 hp)

/-- A nest that computes the broadcast has the shape of the result for its box. -/
theorem box_of_right [Nontrivial α] (hk : k < ins.length)
    (hproj : ∀ args undef, args.length = ins.length → args[k]? = some (body args undef))
    (hright : StretchRight out ins body) (hloop : ¬ EmptyLoop out ins) :
    (∀ d < out.length, out.getD d 0 ≠ 0 ∧ loopSize
        ((ins ++ [(fun _ => false, out)]).map (Stretched.operand out.length)) d =
          some (out.getD d 0)) ∧
      InBounds out ((ins ++ [(fun _ => false, out)]).map (Stretched.operand out.length)) := by
  obtain ⟨a, b, hne⟩ := exists_pair_ne α
  obtain ⟨t, hrun, -, helem⟩ := hright (fun _ _ => b) fun _ => a
  obtain ⟨box, hlen, hsizes, hin, -, houtside⟩ := run_stretchNest_box hrun
  have hpos : ∀ d < box.length, box.getD d 0 ≠ 0 := fun d hd hzero =>
    hloop ⟨d, hlen ▸ hd, by rw [hsizes d (hlen ▸ hd), hzero]⟩
  -- the box is no larger than the output, for its last point is written
  have hout := hin _ (mem_map.2 ⟨_, mem_append_right _ mem_cons_self, rfl⟩)
    (lastPoint box) (mem_points.2 (inShape_lastPoint hpos))
  have hle : ∀ d < out.length, box.getD d 0 ≤ out.getD d 0 := by
    intro d hd
    have hlt := (inShape_iff_getD.1 hout).2 d hd
    change ((trailingMap out.length out.length _).at _).getD d 0 < out.getD d 0 at hlt
    rw [getD_trailingMap_at hd, if_neg (by simp), Nat.sub_self, Nat.add_zero, getD_lastPoint] at hlt
    omega
  have hnz : ∀ d < out.length, out.getD d 0 ≠ 0 := fun d hd => by
    have := hpos d (hlen ▸ hd)
    have := hle d hd
    omega
  -- and no smaller, for the last element of the output is one that the body makes
  have hlast := inShape_lastPoint hnz
  have hbox : box = out := by
    by_contra hdiff
    have hnot : ¬ InShape box (lastPoint out) := by
      intro hc
      refine hdiff (ext_getElem hlen fun d hd hd' => ?_)
      have hlt := (inShape_iff_getD.1 hc).2 d hd
      have := hnz d hd'
      have := hle d hd'
      rw [getD_lastPoint] at hlt
      rw [← getD_eq_getElem _ 0 hd, ← getD_eq_getElem _ 0 hd']
      omega
    have hbody := hproj (stretchArgs ins (fun _ _ => b) (lastPoint out)) a (by simp [stretchArgs])
    rw [← helem _ hlast, houtside _ hnot] at hbody
    have hb : a = b := by simpa [stretchArgs, hk, eq_comm] using hbody
    exact hne hb
  subst hbox
  exact ⟨fun d hd => ⟨hnz d hd, hsizes d hd⟩, hin⟩

theorem reads_of_right [Nontrivial α] (hst : ∀ o ∈ ins, StretchesTo o.2 out)
    (hk : k < ins.length)
    (hproj : ∀ args undef, args.length = ins.length → args[k]? = some (body args undef))
    (hright : StretchRight out ins body) (hloop : ¬ EmptyLoop out ins) : ins[k].Reads out := by
  obtain ⟨hbox, hin⟩ := box_of_right hk hproj hright hloop
  have hlast : InShape out (lastPoint out) := inShape_lastPoint fun d hd => (hbox d hd).1
  obtain ⟨hle, hdims⟩ := stretchesTo_iff_getD.1 (hst _ (getElem_mem hk))
  intro j hj
  have hnz := (hbox (j + (out.length - ins[k].2.length)) (by omega)).1
  have hdim := hdims j hj
  by_cases hzero : ins[k].1 j
  · -- the last element of the output is read at the last one of the dim, which is not its first
    rw [if_pos hzero]
    by_contra hone
    obtain ⟨a, b, hne⟩ := exists_pair_ne α
    obtain ⟨t, hrun, -, helem⟩ :=
      hright (fun _ x => if x.getD j 0 = 0 then a else b) fun _ => a
    obtain ⟨box, hlen, hsizes, -, hinside, -⟩ := run_stretchNest_box hrun
    have hboxeq : box = out := ext_getElem hlen fun d hd hd' => by
      have hsize := (hsizes d hd').symm.trans (hbox d hd').2
      rwa [getD_eq_getElem _ _ hd, getD_eq_getElem _ _ hd', Option.some.injEq] at hsize
    subst hboxeq
    have hsame := (hinside _ hlast).symm.trans (helem _ hlast)
    have hread := hproj ((stretchNest box ins body (fun _ x => if x.getD j 0 = 0 then a else b)
      fun _ => a).args (lastPoint box)) a (by simp [LoopNest.args, stretchNest])
    have hspec := hproj (stretchArgs ins (fun _ x => if x.getD j 0 = 0 then a else b)
      (lastPoint box)) a (by simp [stretchArgs])
    rw [hsame, ← hspec] at hread
    have hcoord :
        ((trailingMap box.length ins[k].2.length ins[k].1).at (lastPoint box)).getD j 0 = 0 := by
      rw [getD_trailingMap_at hj, if_pos hzero]
    have hcoord' : (restrict ins[k].2 (lastPoint box)).getD j 0 ≠ 0 := by
      rw [getD_restrict (by rw [hlast.length_eq]; exact hle) hj, hlast.length_eq, getD_lastPoint]
      omega
    simp only [LoopNest.args, stretchNest, stretchArgs, map_map, getElem?_map,
      getElem?_zipIdx, getElem?_eq_getElem hk, Option.map_some, Function.comp_apply,
      Option.some.injEq, zero_add] at hread
    rw [if_pos hcoord, if_neg hcoord'] at hread
    exact hne hread
  · rw [if_neg hzero]
    have hlt := (inShape_iff_getD.1 (hin _ (mem_map.2
      ⟨ins[k], mem_append_left _ (getElem_mem hk), rfl⟩) _ (mem_points.2 hlast))).2 j hj
    change ((trailingMap out.length ins[k].2.length ins[k].1).at _).getD j 0 < _ at hlt
    rw [getD_trailingMap_at hj, if_neg hzero, getD_lastPoint] at hlt
    change _ < ins[k].2.getD j 0 at hlt
    omega

theorem stretchNest_right_iff [Nontrivial α] {ι : Type} (body : ι → List α → α → α)
    (hst : ∀ o ∈ ins, StretchesTo o.2 out)
    (hproj : ∀ k < ins.length, ∃ i, ∀ args undef, args.length = ins.length →
      args[k]? = some (body i args undef)) :
    (∀ i, StretchRight out ins (body i)) ↔ StretchKept out ins := by
  constructor
  · intro hright
    by_cases hloop : EmptyLoop out ins
    · exact .inr hloop
    · refine .inl fun o ho => ?_
      obtain ⟨k, hk, rfl⟩ := mem_iff_getElem.1 ho
      obtain ⟨i, hi⟩ := hproj k hk
      exact reads_of_right hst hk hi (hright i) hloop
  · rintro (hreads | hloop) i
    · exact stretchRight_of_reads (fun o ho => (hst o ho).1) hreads
    · exact stretchRight_of_emptyLoop hst hloop

theorem eq_some_of_run {o : Option (List Nat)} {g : List Nat → LoopNest α} {s : List Nat}
    (hinit : ∀ s, (g s).init.shape = s)
    (h : ∃ t, (o.bind fun s => (g s).run) = some t ∧ t.shape = s) : o = some s := by
  obtain ⟨t, ht, hshape⟩ := h
  obtain ⟨s', ho, hrun⟩ := Option.bind_eq_some_iff.1 ht
  obtain ⟨box, -, -, rfl⟩ := LoopNest.run_eq_some hrun
  rw [ho, ← hshape]
  exact congrArg some (hinit s').symm

end Nest

end CompileForge.Lib
