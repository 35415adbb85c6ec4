/-
  Positions in a filtered list: dropping entries moves what follows them forward.
-/

import Mathlib.Data.List.Basic

namespace CompileForge.Lib

open List

variable {α : Type*} {p : α → Bool} {l : List α} {a : α}

/-- An entry keeps its position exactly when nothing up to it is dropped. -/
def KeptUpTo (p : α → Bool) (l : List α) (j : Nat) : Prop :=
  ∀ k ≤ j, ∃ a, l[k]? = some a ∧ p a

theorem KeptUpTo.cons_succ {b : α} {j : Nat} :
    KeptUpTo p (b :: l) (j + 1) ↔ p b ∧ KeptUpTo p l j := by
  constructor
  · intro h
    constructor
    · obtain ⟨c, hc, hp⟩ := h 0 (Nat.zero_le _)
      cases hc
      exact hp
    · intro k hk
      obtain ⟨c, hc, hp⟩ := h (k + 1) (by omega)
      exact ⟨c, hc, hp⟩
  · intro h k hk
    cases k with
    | zero => exact ⟨b, rfl, h.1⟩
    | succ k =>
      obtain ⟨c, hc, hp⟩ := h.2 k (by omega)
      exact ⟨c, hc, hp⟩

theorem KeptUpTo.getElem?_filter {j : Nat} (h : KeptUpTo p l j) :
    (l.filter p)[j]? = l[j]? := by
  induction l generalizing j with
  | nil => rfl
  | cons b l ih =>
    cases j with
    | zero =>
      obtain ⟨c, hc, hp⟩ := h 0 (Nat.le_refl 0)
      cases hc
      rw [filter_cons_of_pos hp]
      rfl
    | succ =>
      obtain ⟨hb, hrest⟩ := KeptUpTo.cons_succ.1 h
      rw [filter_cons_of_pos hb, getElem?_cons_succ, getElem?_cons_succ, ih hrest]

theorem getElem?_filter_le (hnodup : l.Nodup) {i j : Nat} (hi : (l.filter p)[i]? = some a)
    (hj : l[j]? = some a) : i ≤ j ∧ (i = j → KeptUpTo p l j) := by
  induction l generalizing i j with
  | nil => cases hj
  | cons b l ih =>
    obtain ⟨hb, hrest⟩ := nodup_cons.1 hnodup
    by_cases hp : p b
    · rw [filter_cons_of_pos hp] at hi
      cases i with
      | zero =>
        cases hi
        cases j with
        | zero =>
          refine ⟨Nat.le_refl 0, fun _ k hk => ?_⟩
          have hzero : k = 0 := by omega
          subst hzero
          exact ⟨_, rfl, hp⟩
        | succ =>
          rw [getElem?_cons_succ] at hj
          exact absurd (mem_of_getElem? hj) hb
      | succ =>
        cases j with
        | zero =>
          cases hj
          rw [getElem?_cons_succ] at hi
          exact absurd (mem_of_mem_filter (mem_of_getElem? hi)) hb
        | succ =>
          obtain ⟨hle, hsame⟩ := ih hrest hi hj
          refine ⟨by omega, fun h => KeptUpTo.cons_succ.2 ⟨hp, hsame (by omega)⟩⟩
    · rw [filter_cons_of_neg hp] at hi
      cases j with
      | zero =>
        cases hj
        exact absurd (mem_of_mem_filter (mem_of_getElem? hi)) hb
      | succ =>
        -- `b` is dropped, so the entry moves
        obtain ⟨hle, _⟩ := ih hrest hi hj
        exact ⟨by omega, fun h => by omega⟩

theorem getElem?_filter_same_iff (hnodup : l.Nodup) {j : Nat} :
    (∃ a, l[j]? = some a ∧ (l.filter p)[j]? = some a) ↔ KeptUpTo p l j := by
  constructor
  · rintro ⟨a, hj, hi⟩
    exact (getElem?_filter_le hnodup hi hj).2 rfl
  · intro h
    obtain ⟨a, hj, _⟩ := h j (Nat.le_refl j)
    exact ⟨a, hj, by rw [h.getElem?_filter, hj]⟩

/-! ## Filtered numbers -/

variable (q : Nat → Bool)

theorem length_filter_range (n : Nat) : ((range n).filter q).length = (range n).countP q :=
  countP_eq_length_filter.symm

/-- A number that stays stands behind the numbers before it that stay. -/
theorem getElem?_filter_range_iff (n i o : Nat) :
    ((range n).filter q)[i]? = some o ↔ o < n ∧ q o ∧ i = (range o).countP q := by
  induction n with
  | zero =>
    constructor
    · intro h
      cases h
    · intro h
      omega
  | succ n ih =>
    have hlast : ((range n).filter q)[i]? = some o → i < (range n).countP q := by
      intro h
      rw [← length_filter_range]
      exact (List.getElem?_eq_some_iff.1 h).1
    rw [range_succ, filter_append, getElem?_append, length_filter_range]
    by_cases hi : i < (range n).countP q
    · rw [if_pos hi, ih]
      constructor
      · rintro ⟨ho, hq, hcount⟩
        exact ⟨by omega, hq, hcount⟩
      · rintro ⟨ho, hq, hcount⟩
        have hne : o ≠ n := by
          rintro rfl
          omega
        exact ⟨by omega, hq, hcount⟩
    · rw [if_neg hi]
      constructor
      · intro h
        by_cases hn : q n
        · rw [filter_cons_of_pos hn, filter_nil] at h
          obtain ⟨hzero, hval⟩ := List.getElem?_eq_some_iff.1 h
          rw [length_singleton] at hzero
          rw [getElem_singleton] at hval
          subst hval
          exact ⟨by omega, hn, by omega⟩
        · rw [filter_cons_of_neg hn, filter_nil] at h
          cases h
      · rintro ⟨ho, hq, hcount⟩
        have hn : o = n := by
          by_contra hne
          exact hi (hlast (ih.2 ⟨by omega, hq, hcount⟩))
        subst hn
        have hzero : i - (range o).countP q = 0 := by omega
        rw [filter_cons_of_pos hq, filter_nil, hzero]
        rfl

theorem countP_range_not (o : Nat) : (range o).countP (fun k => !q k) = o - (range o).countP q := by
  have hsum := length_eq_countP_add_countP q (l := range o)
  rw [length_range] at hsum
  have hneg : (range o).countP (fun k => !q k) =
      (range o).countP (fun k => decide ¬ q k = true) := by
    refine countP_congr fun k _ => ?_
    cases q k <;> simp
  omega

theorem countP_range_le (o : Nat) : (range o).countP q ≤ o := by
  have h := countP_le_length (p := q) (l := range o)
  rw [length_range] at h
  exact h

end CompileForge.Lib
