/-
  Releasing the items of a queue of groups, front first, until a budget is used
  up.  Whole groups leave the queue; the group the budget runs out in leaves it
  too, although only its first items were released.
-/

import Mathlib.Data.List.Basic
import Mathlib.Data.List.Count

namespace CompileForge.Lib

open List

variable {α : Type*}

/-- Groups left and items released, with `n` releases to make. -/
def drain : Nat → List (List α) → List (List α) × List α
  | _, [] => ([], [])
  | n, g :: gs =>
    if n = 0 then (g :: gs, [])
    else
      let own := g.take n
      let rest := drain (n - own.length) gs
      (rest.1, own ++ rest.2)

/-- The budget ends with the queue or at the end of a group. -/
def CutsNoGroup (n : Nat) (gs : List (List α)) : Prop :=
  gs.flatten.length ≤ n ∨ ∃ k, (gs.take k).flatten.length = n

@[simp] theorem drain_zero (gs : List (List α)) : drain 0 gs = (gs, []) := by
  cases gs <;> rfl

@[simp] theorem drain_nil (n : Nat) : drain n ([] : List (List α)) = ([], []) := by
  rw [drain]

variable {n : Nat} {gs : List (List α)} {g : List α}

theorem drain_cons (hn : n ≠ 0) (g : List α) (gs : List (List α)) :
    drain n (g :: gs) =
      ((drain (n - (g.take n).length) gs).1, g.take n ++ (drain (n - (g.take n).length) gs).2) := by
  rw [drain, if_neg hn]

theorem drain_append (n : Nat) (gs gs' : List (List α)) :
    drain n (gs ++ gs') = ((drain n gs).1 ++ (drain (n - (drain n gs).2.length) gs').1,
        (drain n gs).2 ++ (drain (n - (drain n gs).2.length) gs').2) := by
  induction gs generalizing n with
  | nil => simp
  | cons g gs ih =>
    by_cases hn : n = 0
    · subst hn
      simp
    · rw [cons_append, drain_cons hn, drain_cons hn, ih]
      simp only [length_append, append_assoc, Nat.sub_add_eq]

variable (n gs)

theorem drain_released : (drain n gs).2 = gs.flatten.take n := by
  induction gs generalizing n with
  | nil => simp
  | cons g gs ih =>
    by_cases hn : n = 0
    · subst hn
      simp
    · have hlen : n - (g.take n).length = n - g.length := by
        rw [length_take]
        omega
      rw [drain_cons hn, flatten_cons, take_append, ih, hlen]

theorem length_drain_le : (drain n gs).2.length ≤ n := by
  rw [drain_released]
  exact length_take_le n _

theorem length_drain_groups_le : (drain n gs).1.length ≤ gs.length := by
  induction gs generalizing n with
  | nil => simp
  | cons g gs ih =>
    by_cases hn : n = 0
    · subst hn
      simp only [drain_zero, Nat.le_refl]
    · rw [drain_cons hn]
      exact Nat.le_succ_of_le (ih _)

variable {n gs}

theorem drain_eq_nil (h : (drain n gs).2.length < n) :
    (drain n gs).1 = [] := by
  induction gs generalizing n with
  | nil => simp
  | cons g gs ih =>
    have hn : n ≠ 0 := by omega
    rw [drain_cons hn] at h ⊢
    rw [length_append] at h
    exact ih (by omega)

theorem CutsNoGroup.tail (hle : g.length ≤ n)
    (h : CutsNoGroup n (g :: gs)) : CutsNoGroup (n - g.length) gs := by
  rcases h with h | ⟨k, hk⟩
  · rw [flatten_cons, length_append] at h
    exact .inl (by omega)
  · cases k with
    | zero =>
      have hzero : n = 0 := by simpa using hk.symm
      exact .inr ⟨0, by simp [hzero]⟩
    | succ k =>
      rw [take_succ_cons, flatten_cons, length_append] at hk
      exact .inr ⟨k, by omega⟩

theorem CutsNoGroup.of_tail (hle : g.length ≤ n)
    (h : CutsNoGroup (n - g.length) gs) : CutsNoGroup n (g :: gs) := by
  rcases h with h | ⟨k, hk⟩
  · refine .inl ?_
    rw [flatten_cons, length_append]
    omega
  · refine .inr ⟨k + 1, ?_⟩
    rw [take_succ_cons, flatten_cons, length_append]
    omega

theorem CutsNoGroup.head (hn : n ≠ 0) (h : CutsNoGroup n (g :: gs)) : g.length ≤ n := by
  rcases h with h | ⟨k, hk⟩
  · rw [flatten_cons, length_append] at h
    omega
  · cases k with
    | zero =>
      have hzero : n = 0 := by simpa using hk.symm
      exact absurd hzero hn
    | succ =>
      rw [take_succ_cons, flatten_cons, length_append] at hk
      omega

theorem drain_lossless (h : CutsNoGroup n gs) :
    (drain n gs).2 ++ (drain n gs).1.flatten = gs.flatten := by
  induction gs generalizing n with
  | nil => simp
  | cons g gs ih =>
    by_cases hn : n = 0
    · subst hn
      simp
    · have hle : g.length ≤ n := h.head hn
      have hrest := ih (h.tail hle)
      rw [drain_cons hn, take_of_length_le hle, append_assoc, hrest, flatten_cons]

/-- Nothing is released twice, or both released and left. -/
theorem drain_sublist (n : Nat) (gs : List (List α)) :
    ((drain n gs).2 ++ (drain n gs).1.flatten).Sublist gs.flatten := by
  induction gs generalizing n with
  | nil => simp
  | cons g gs ih =>
    by_cases hn : n = 0
    · subst hn
      simp
    · rw [drain_cons hn, flatten_cons, append_assoc]
      exact (take_sublist n g).append (ih _)

theorem drain_length_le (n : Nat) (gs : List (List α)) :
    (drain n gs).2.length + (drain n gs).1.flatten.length ≤ gs.flatten.length := by
  rw [← length_append]
  exact (drain_sublist n gs).length_le

theorem drain_lossy (h : ¬ CutsNoGroup n gs) :
    (drain n gs).2.length + (drain n gs).1.flatten.length < gs.flatten.length := by
  induction gs generalizing n with
  | nil => exact absurd (.inl (by simp)) h
  | cons g gs ih =>
    have hn : n ≠ 0 := by
      rintro rfl
      exact h (.inr ⟨0, by simp⟩)
    simp only [drain_cons hn, length_append, flatten_cons]
    by_cases hle : g.length ≤ n
    · have hrest := ih fun htail => h (htail.of_tail hle)
      rw [take_of_length_le hle]
      omega
    · -- the budget ends inside this group, whose last items are lost
      have hrest := drain_length_le (n - (g.take n).length) gs
      have hown : (g.take n).length = n := length_take_of_le (by omega)
      omega

theorem count_drain_le [DecidableEq α] (n : Nat) (gs : List (List α)) (x : α) :
    (drain n gs).2.count x + (drain n gs).1.flatten.count x ≤ gs.flatten.count x := by
  rw [← count_append]
  exact (drain_sublist n gs).count_le x

end CompileForge.Lib
