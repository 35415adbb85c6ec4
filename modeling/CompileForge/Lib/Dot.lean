/-
  Inner products of lists, and matrices with scaled columns.
-/

import CompileForge.Lib.Shards
import Mathlib.Algebra.Order.Ring.Abs
import Mathlib.Tactic.Ring

namespace CompileForge.Lib

open List

variable {R : Type*}

section Entries

variable [Semiring R]

@[simp] theorem dot_nil_left (w : List R) : dot [] w = 0 := rfl

@[simp] theorem dot_cons (a b : R) (x w : List R) : dot (a :: x) (b :: w) = a * b + dot x w := by
  rw [dot, zipWith_cons_cons, sum_cons, dot]

/-- Inner products with unit vectors are the entries of a list. -/
def unitVec (n j : Nat) : List R := (range n).map fun k => if k = j then 1 else 0

@[simp] theorem length_unitVec (n j : Nat) : (unitVec n j : List R).length = n := by
  rw [unitVec, length_map, length_range]

theorem dot_zeros (n : Nat) (w : List R) : dot (replicate n 0) w = 0 := by
  induction w generalizing n with
  | nil => rw [dot, zipWith_nil_right, sum_nil]
  | cons b w ih =>
    cases n with
    | zero => rfl
    | succ => rw [replicate_succ, dot_cons, ih, zero_mul, zero_add]

theorem dot_replicate (x : List R) (b : R) : dot x (replicate x.length b) = x.sum * b := by
  induction x with
  | nil => rw [dot_nil_left, sum_nil, zero_mul]
  | cons a x ih => rw [length_cons, replicate_succ, dot_cons, ih, sum_cons, add_mul]

theorem dot_unitVec (w : List R) (j : Nat) : dot (unitVec w.length j) w = w.getD j 0 := by
  induction w generalizing j with
  | nil => rfl
  | cons b w ih =>
    rw [unitVec, length_cons, range_succ_eq_map, map_cons, map_map, dot_cons]
    cases j with
    | zero =>
      have hzeros : (range w.length).map ((fun k => if k = 0 then (1 : R) else 0) ∘ Nat.succ) =
          replicate w.length 0 := by
        refine eq_replicate_iff.2 ⟨by rw [length_map, length_range], ?_⟩
        intro v hv
        obtain ⟨k, -, rfl⟩ := mem_map.1 hv
        rfl
      rw [if_pos rfl, one_mul, hzeros, dot_zeros, add_zero, getD_cons_zero]
    | succ j =>
      have hshift : (range w.length).map
          ((fun k => if k = j + 1 then (1 : R) else 0) ∘ Nat.succ) = unitVec w.length j := by
        refine map_congr_left fun k _ => ?_
        show (if k + 1 = j + 1 then (1 : R) else 0) = if k = j then 1 else 0
        simp only [Nat.add_right_cancel_iff]
      rw [if_neg (Nat.succ_ne_zero j).symm, zero_mul, zero_add, hshift, ih, getD_cons_succ]

theorem eq_of_dot {w w' : List R} (hlen : w.length = w'.length)
    (h : ∀ x : List R, x.length = w.length → dot x w = dot x w') : w = w' := by
  refine ext_getElem hlen fun j hj hj' => ?_
  have hdot := h (unitVec w.length j) (length_unitVec _ _)
  rw [dot_unitVec, hlen, dot_unitVec, getD_eq_getElem?_getD, getD_eq_getElem?_getD,
    getElem?_eq_getElem hj, getElem?_eq_getElem hj'] at hdot
  exact hdot

end Entries

section Distance

variable [CommRing R] [LinearOrder R] [IsStrictOrderedRing R]

theorem abs_dot_sub_le {x w w' errs : List R}
    (hx : x.length = w.length) (hw' : w'.length = w.length) (herrs : errs.length = w.length)
    (h : ∀ j < w.length, |w'.getD j 0 - w.getD j 0| ≤ errs.getD j 0) :
    |dot x w' - dot x w| ≤ dot (x.map abs) errs := by
  induction w generalizing x w' errs with
  | nil =>
    rw [length_nil, length_eq_zero_iff] at hx
    rw [hx, map_nil, dot_nil_left, dot_nil_left, dot_nil_left, sub_zero, abs_zero]
  | cons b w ih =>
    match x, w', errs, hx, hw', herrs with
    | a :: x, b' :: w', e :: errs, hx, hw', herrs =>
      have hhead : |b' - b| ≤ e := h 0 (Nat.zero_lt_succ _)
      have htail := ih (Nat.succ.inj hx) (Nat.succ.inj hw') (Nat.succ.inj herrs) fun j hj =>
        h (j + 1) (Nat.succ_lt_succ hj)
      have hsplit : a * b' + dot x w' - (a * b + dot x w) =
          a * (b' - b) + (dot x w' - dot x w) := by ring
      rw [map_cons, dot_cons, dot_cons, dot_cons, hsplit]
      calc |a * (b' - b) + (dot x w' - dot x w)|
          ≤ |a * (b' - b)| + |dot x w' - dot x w| := abs_add_le _ _
        _ ≤ |a| * e + dot (x.map abs) errs := by
            rw [abs_mul]
            exact add_le_add (mul_le_mul_of_nonneg_left hhead (abs_nonneg a)) htail

end Distance

/-! ## Scaled columns -/

/-- A function of every entry. -/
def Mat.map {α β : Type*} (f : α → β) (m : Mat α) : Mat β where
  cols := m.cols
  rows := m.rows.map (List.map f)
  rect := by
    intro row hrow
    obtain ⟨full, hfull, rfl⟩ := mem_map.1 hrow
    rw [List.length_map, m.rect full hfull]

/-- Column `j` times `s[j]`, as far as both go. -/
def Mat.scaleCols {α : Type*} [Mul α] (m : Mat α) (s : List α) : Mat α where
  cols := min m.cols s.length
  rows := m.rows.map (zipWith (· * ·) · s)
  rect := by
    intro row hrow
    obtain ⟨full, hfull, rfl⟩ := mem_map.1 hrow
    rw [List.length_zipWith, m.rect full hfull]

section Columns

variable {α β : Type*} {f : α → β} {m : Mat α} {s : List α}

theorem Mat.map_injective (hf : Function.Injective f) :
    Function.Injective (Mat.map f) := by
  intro m m' h
  obtain ⟨hcols, hrows⟩ := Mat.ext_iff.1 h
  exact Mat.ext hcols (map_injective_iff.2 (map_injective_iff.2 hf) hrows)

theorem Mat.shape_map (f : α → β) (m : Mat α) : (m.map f).shape = m.shape :=
  Prod.ext (length_map _) rfl

theorem Mat.shape_scaleCols [Mul α] (hs : s.length = m.cols) :
    (m.scaleCols s).shape = m.shape :=
  Prod.ext (length_map _) (by show min m.cols s.length = m.cols; omega)

theorem Mat.scaleCols_map [Mul α] [Mul β] (hf : ∀ x y, f x * f y = f (x * y))
    (m : Mat α) (s : List α) : (m.map f).scaleCols (s.map f) = (m.scaleCols s).map f := by
  refine Mat.ext (by show min m.cols (s.map f).length = _; rw [length_map]; rfl) ?_
  show (m.rows.map (List.map f)).map (zipWith (· * ·) · (s.map f)) =
    (m.rows.map (zipWith (· * ·) · s)).map (List.map f)
  rw [map_map, map_map]
  refine map_congr_left fun row _ => ?_
  simp only [Function.comp_apply, zipWith_map, map_zipWith, hf]

theorem zipWith_mul_assoc [Semigroup α] (row s t : List α) :
    zipWith (· * ·) (zipWith (· * ·) row s) t =
      zipWith (· * ·) row (zipWith (· * ·) s t) := by
  induction row generalizing s t with
  | nil => rfl
  | cons a row ih =>
    match s, t with
    | [], _ => rfl
    | _ :: _, [] => rfl
    | b :: s, c :: t => simp only [zipWith_cons_cons, ih, mul_assoc]

theorem Mat.scaleCols_scaleCols [Semigroup α] (m : Mat α) (s t : List α) :
    (m.scaleCols s).scaleCols t = m.scaleCols (zipWith (· * ·) s t) := by
  refine Mat.ext ?_ ?_
  · show min (min m.cols s.length) t.length = min m.cols (zipWith _ s t).length
    rw [length_zipWith, Nat.min_assoc]
  · show (m.rows.map _).map _ = m.rows.map _
    rw [map_map]
    exact map_congr_left fun row _ => zipWith_mul_assoc row s t

theorem dot_zipWith_mul [CommSemiring α] (x s w : List α) :
    dot (zipWith (· * ·) x s) w = dot x (zipWith (· * ·) w s) := by
  induction x generalizing s w with
  | nil => rw [zipWith_nil_left, dot_nil_left, dot_nil_left]
  | cons a x ih =>
    match s, w with
    | [], w => rw [zipWith_nil_right, zipWith_nil_right, dot_nil_left, dot,
        zipWith_nil_right, sum_nil]
    | b :: s, [] => rw [zipWith_nil_left, dot, dot, zipWith_nil_right, zipWith_nil_right]
    | b :: s, c :: w =>
      rw [zipWith_cons_cons, zipWith_cons_cons, dot_cons, dot_cons, ih, mul_right_comm, mul_assoc]

/-- Scales change nothing exactly where they are 1 or the column is zero. -/
theorem Mat.scaleCols_eq_self_iff [CommRing α] [NoZeroDivisors α]
    (hs : s.length = m.cols) : m.scaleCols s = m ↔
      ∀ j < m.cols, s.getD j 1 = 1 ∨ ∀ row ∈ m.rows, row.getD j 0 = 0 := by
  have hentry : ∀ row ∈ m.rows, zipWith (· * ·) row s = row ↔
      ∀ j < m.cols, s.getD j 1 = 1 ∨ row.getD j 0 = 0 := by
    intro row hrow
    have hlen := m.rect row hrow
    have hone : ∀ a b : α, b * a = b ↔ a = 1 ∨ b = 0 := fun a b => by
      rw [← sub_eq_zero, ← sub_eq_zero (a := a), ← mul_sub_one, mul_eq_zero, or_comm]
    constructor
    · intro h j hj
      have hread := congrArg (·[j]?) h
      have hrow : j < row.length := by omega
      have hscale : j < s.length := by omega
      simp only [getElem?_zipWith, getElem?_eq_getElem hrow,
        getElem?_eq_getElem hscale, Option.some.injEq] at hread
      rw [getD_eq_getElem?_getD, getD_eq_getElem?_getD,
        getElem?_eq_getElem hrow, getElem?_eq_getElem hscale]
      exact (hone _ _).1 hread
    · intro h
      refine ext_getElem (by rw [length_zipWith]; omega) fun j hj hj' => ?_
      have hread := h j (by omega)
      rw [getD_eq_getElem?_getD, getD_eq_getElem?_getD,
        getElem?_eq_getElem hj', getElem?_eq_getElem (by omega)] at hread
      rw [getElem_zipWith]
      exact (hone _ _).2 hread
  have hcols : (m.scaleCols s).cols = m.cols := by show min m.cols s.length = _; omega
  constructor
  · intro h j hj
    by_cases hone : s.getD j 1 = 1
    · exact .inl hone
    · refine .inr fun row hrow => ((hentry row hrow).1 ?_ j hj).resolve_left hone
      have hmap : m.rows.map (zipWith (· * ·) · s) = m.rows.map id := by
        rw [map_id]
        exact congrArg Mat.rows h
      exact map_inj_left.1 hmap row hrow
  · intro h
    refine Mat.ext hcols ?_
    show m.rows.map (zipWith (· * ·) · s) = m.rows
    conv_rhs => rw [← map_id m.rows]
    refine map_congr_left fun row hrow => (hentry row hrow).2 fun j hj => ?_
    exact (h j hj).imp id fun hzero => hzero row hrow

end Columns

end CompileForge.Lib
