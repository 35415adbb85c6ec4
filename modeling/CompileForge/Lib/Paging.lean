/-
  Positions in pages of a fixed size: `n ⌈/⌉ s` pages hold `n` positions, and
  position `p` lies in page `p / s`.
-/

import Mathlib.Algebra.Order.Floor.Div

namespace CompileForge.Lib

variable {s d c n k p : Nat}

/-- The least number of pages of `s` positions that hold `n`, as it is computed. -/
def cdiv (n s : Nat) : Nat := (n + s - 1) / s

/-- `cdiv n s` pages hold `n` positions, and the last of them is needed. -/
theorem cdiv_mul_bounds (n : Nat) (hs : 0 < s) : n ≤ cdiv n s * s ∧ cdiv n s * s < n + s := by
  have hdiv := Nat.div_add_mod (n + s - 1) s
  have hmod := Nat.mod_lt (n + s - 1) hs
  rw [cdiv, mul_comm]
  omega

/-- Page `k` is needed exactly if its first position is. -/
theorem lt_ceilDiv_iff (hs : 0 < s) : k < n ⌈/⌉ s ↔ s * k < n := by
  rw [← not_le, ceilDiv_le_iff_le_mul hs, not_le]

/-- More positions need no fewer pages. -/
theorem ceilDiv_mono (hs : 0 < s) (h : d ≤ n) : d ⌈/⌉ s ≤ n ⌈/⌉ s := by
  have hcover : n ≤ s * (n ⌈/⌉ s) := (ceilDiv_le_iff_le_mul hs).1 le_rfl
  exact (ceilDiv_le_iff_le_mul hs).2 (h.trans hcover)

/-- The pages hold the positions. -/
theorem le_mul_ceilDiv (hs : 0 < s) (n : Nat) : n ≤ s * (n ⌈/⌉ s) :=
  (ceilDiv_le_iff_le_mul hs).1 le_rfl

/-- Whole pages need no more than themselves. -/
theorem mul_ceilDiv_self (hs : 0 < s) (k : Nat) : (s * k) ⌈/⌉ s = k := by
  apply le_antisymm
  · exact (ceilDiv_le_iff_le_mul hs).2 le_rfl
  · exact Nat.le_of_mul_le_mul_left (le_mul_ceilDiv hs (s * k)) hs

theorem mul_ceilDiv_of_dvd (hs : 0 < s) (h : s ∣ d) : s * (d ⌈/⌉ s) = d := by
  obtain ⟨k, rfl⟩ := h
  rw [mul_ceilDiv_self hs]

/-- Page counts add up at a page boundary. -/
theorem ceilDiv_add_of_dvd (hs : 0 < s) (h : s ∣ d) (c : Nat) :
    (d + c) ⌈/⌉ s = d ⌈/⌉ s + c ⌈/⌉ s := by
  obtain ⟨k, rfl⟩ := h
  rw [mul_ceilDiv_self hs]
  apply le_antisymm
  · rw [ceilDiv_le_iff_le_mul hs, Nat.mul_add]
    exact Nat.add_le_add_left (le_mul_ceilDiv hs c) _
  · have hcover := le_mul_ceilDiv hs (s * k + c)
    have hk := ceilDiv_mono hs (Nat.le_add_right (s * k) c)
    rw [mul_ceilDiv_self hs] at hk
    obtain ⟨j, hj⟩ := Nat.exists_eq_add_of_le hk
    rw [hj, Nat.mul_add] at hcover
    have hc : c ⌈/⌉ s ≤ j := (ceilDiv_le_iff_le_mul hs).2 (by omega)
    omega

/-- Page counts do not change inside a page. -/
theorem ceilDiv_eq_of_same_page (hs : 0 < s) (hle : d ≤ n) (h : n ≤ s * (d ⌈/⌉ s)) :
    n ⌈/⌉ s = d ⌈/⌉ s :=
  le_antisymm ((ceilDiv_le_iff_le_mul hs).2 h) (ceilDiv_mono hs hle)

theorem not_dvd_of_same_page (hs : 0 < s) (hle : d ≤ n) (h : n < s * (d ⌈/⌉ s)) : ¬ s ∣ n := by
  rintro ⟨k, rfl⟩
  have hk : k < d ⌈/⌉ s := Nat.lt_of_mul_lt_mul_left h
  have hlt : s * k < d := (lt_ceilDiv_iff hs).1 hk
  omega

end CompileForge.Lib
