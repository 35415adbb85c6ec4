/-
  Sums over the prefixes of a list of nonnegative numbers, the first prefix that passes a
  bound, and lists sorted from high to low, where the entries above a value are a prefix.
-/

import Mathlib.Algebra.Order.BigOperators.Group.List
import Mathlib.Data.List.Sort
import Mathlib.Order.WithBot

namespace CompileForge.Lib

open List

section Prefix

variable {R : Type*} [AddCommMonoid R] [PartialOrder R] [IsOrderedAddMonoid R] {l : List R}

omit [PartialOrder R] [IsOrderedAddMonoid R] in
theorem sum_take_succ_getElem {i : Nat} (h : i < l.length) :
    (l.take (i + 1)).sum = (l.take i).sum + l[i] := by
  rw [take_succ_eq_append_getElem h, sum_append, sum_singleton]

theorem sum_take_le_succ (hl : ∀ x ∈ l, 0 ≤ x) (i : Nat) :
    (l.take i).sum ≤ (l.take (i + 1)).sum := by
  by_cases h : i < l.length
  · rw [sum_take_succ_getElem h]
    exact le_add_of_nonneg_right (hl _ (getElem_mem h))
  · rw [take_of_length_le (by omega), take_of_length_le (by omega)]

theorem sum_take_mono (hl : ∀ x ∈ l, 0 ≤ x) : Monotone fun i => (l.take i).sum :=
  monotone_nat_of_le_succ (sum_take_le_succ hl)

end Prefix

section First

variable {R : Type*} [AddCommMonoid R] {stop : R → Bool} {l : List R}

/-- The index at which a running sum from `acc` first passes. -/
def firstPrefix (stop : R → Bool) : R → List R → Option Nat
  | _, [] => none
  | acc, x :: rest =>
    if stop (acc + x) then some 0 else (firstPrefix stop (acc + x) rest).map (· + 1)

theorem firstPrefix_eq_some {acc : R} {c : Nat} : firstPrefix stop acc l = some c ↔
    c < l.length ∧ stop (acc + (l.take (c + 1)).sum) = true ∧
      ∀ j < c, ¬ stop (acc + (l.take (j + 1)).sum) = true := by
  induction l generalizing acc c with
  | nil => simp [firstPrefix]
  | cons x l ih =>
    rw [firstPrefix]
    by_cases hx : stop (acc + x) = true
    · rw [if_pos hx, Option.some.injEq]
      constructor
      · rintro rfl
        exact ⟨by simp, by simpa using hx, by simp⟩
      · rintro ⟨-, -, hbefore⟩
        cases c with
        | zero => rfl
        | succ => exact absurd (by simpa using hx) (hbefore 0 (by omega))
    · rw [if_neg hx]
      cases c with
      | zero => simpa using hx
      | succ =>
        rw [Option.map_eq_some_iff]
        simp only [Nat.add_right_cancel_iff, exists_eq_right, ih, length_cons,
          take_succ_cons, sum_cons, add_assoc, Nat.add_lt_add_iff_right]
        refine and_congr_right fun _ => and_congr_right fun _ => ?_
        constructor
        · intro h j hj
          cases j with
          | zero => simpa using hx
          | succ j => exact h j (by omega)
        · intro h j hj
          exact h (j + 1) (by omega)

theorem firstPrefix_isSome {acc : R} {j : Nat} (hj : j < l.length)
    (h : stop (acc + (l.take (j + 1)).sum) = true) : ∃ c, firstPrefix stop acc l = some c := by
  induction j using Nat.strong_induction_on with
  | _ j ih =>
    by_cases hearlier : ∃ i < j, stop (acc + (l.take (i + 1)).sum) = true
    · obtain ⟨i, hi, hstop⟩ := hearlier
      exact ih i hi (by omega) hstop
    · exact ⟨j, firstPrefix_eq_some.2 ⟨hj, h, fun i hi hstop => hearlier ⟨i, hi, hstop⟩⟩⟩

end First

section Sorted

variable {α : Type*} [LinearOrder α] {l : List α}

theorem filter_lt_eq_take (hl : l.Pairwise (· ≥ ·)) (a : α) :
    l.filter (a < ·) = l.take (l.countP (a < ·)) := by
  induction l with
  | nil => rfl
  | cons x l ih =>
    obtain ⟨hx, hl⟩ := pairwise_cons.1 hl
    by_cases ha : a < x
    · rw [filter_cons_of_pos (by simpa using ha), countP_cons_of_pos (by simpa using ha),
        take_succ_cons, ih hl]
    · -- nothing behind `x` is above it
      have hnone : ∀ y ∈ x :: l, ¬ (decide (a < y) = true) := by
        intro y hy
        rcases mem_cons.1 hy with rfl | hy
        · simpa using ha
        · simpa using (hx y hy).trans (not_lt.1 ha)
      rw [filter_eq_nil_iff.2 hnone, countP_eq_zero.2 hnone, take_zero]

theorem lt_getElem_iff (hl : l.Pairwise (· ≥ ·)) {i : Nat} (hi : i < l.length) (a : α) :
    a < l[i] ↔ i < l.countP (a < ·) := by
  induction l generalizing i with
  | nil => simp at hi
  | cons x l ih =>
    obtain ⟨hx, hl⟩ := pairwise_cons.1 hl
    by_cases ha : a < x
    · rw [countP_cons_of_pos (by simpa using ha)]
      cases i with
      | zero => simp [ha]
      | succ =>
        rw [getElem_cons_succ, ih hl (by simpa using hi)]
        omega
    · have hnone : ∀ y ∈ x :: l, ¬ (decide (a < y) = true) := by
        intro y hy
        rcases mem_cons.1 hy with rfl | hy
        · simpa using ha
        · simpa using (hx y hy).trans (not_lt.1 ha)
      rw [countP_eq_zero.2 hnone]
      refine iff_of_false (fun hlt => ?_) (by omega)
      exact hnone _ (getElem_mem hi) (by simpa using hlt)

end Sorted

end CompileForge.Lib
