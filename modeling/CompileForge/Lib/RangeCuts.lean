/-
  A range `0..s` cut into pieces one behind the other, given by their bounds.
-/

import Mathlib.Data.List.Range
import Mathlib.Algebra.GroupWithZero.Nat

namespace CompileForge.Lib

open List

def cutAt (bound : Nat → Nat) (n : Nat) : List (Nat × Nat) :=
  (range n).map fun i => (bound i, bound (i + 1))

def evenBound (s n i : Nat) : Nat := i * (s / n) + min i (s % n)

/-- Exactly `n` pieces, the remainder spread over the first ones. -/
def evenCut (s n : Nat) : List (Nat × Nat) := cutAt (evenBound s n) n

def fullBound (s c i : Nat) : Nat := min (i * c) s

/-- Pieces of length `c`, with a shorter last one. -/
def fullCut (s c : Nat) : List (Nat × Nat) := cutAt (fullBound s c) ((s + c - 1) / c)

def sectionBound (sizes : List Nat) (i : Nat) : Nat := (sizes.take i).sum

/-- Pieces of given sizes. -/
def sectionCut (sizes : List Nat) : List (Nat × Nat) := cutAt (sectionBound sizes) sizes.length

def evenSizes (s n : Nat) : List Nat :=
  (range n).map fun i => s / n + if i < s % n then 1 else 0

theorem sectionBound_evenSizes {s n i : Nat} (hi : i ≤ n) :
    sectionBound (evenSizes s n) i = evenBound s n i := by
  induction i with
  | zero => simp [sectionBound, evenBound]
  | succ i ih =>
    have hget : (evenSizes s n)[i]? = some (s / n + if i < s % n then 1 else 0) := by
      rw [evenSizes, getElem?_map, getElem?_range (by omega), Option.map_some]
    rw [sectionBound, take_add_one, hget, Option.toList_some, sum_append,
      sum_singleton, ← sectionBound, ih (by omega), evenBound, evenBound, Nat.succ_mul]
    split <;> omega

theorem sectionCut_evenSizes (s n : Nat) : sectionCut (evenSizes s n) = evenCut s n := by
  have hlen : (evenSizes s n).length = n := by
    rw [evenSizes, length_map, length_range]
  rw [sectionCut, evenCut, hlen]
  refine map_congr_left fun i hi => ?_
  have hi := mem_range.1 hi
  rw [sectionBound_evenSizes (by omega), sectionBound_evenSizes (by omega)]

theorem cutAt_eq_iff {b b' : Nat → Nat} {n m : Nat} (h0 : b 0 = b' 0) :
    cutAt b n = cutAt b' m ↔ n = m ∧ ∀ i < n, b (i + 1) = b' (i + 1) := by
  constructor
  · intro h
    have hlen : n = m := by
      have := congrArg length h
      rwa [cutAt, cutAt, length_map, length_map, length_range, length_range] at this
    subst hlen
    refine ⟨rfl, fun i hi => ?_⟩
    have hpiece := map_inj_left.1 h i (mem_range.2 hi)
    exact (Prod.mk.inj hpiece).2
  · rintro ⟨rfl, hbound⟩
    refine map_congr_left fun i hi => ?_
    have hstop := hbound i (mem_range.1 hi)
    cases i with
    | zero => rw [h0, hstop]
    | succ i => rw [hbound i (by have := mem_range.1 hi; omega), hstop]

section Ceil

variable {n q r : Nat}

theorem ceil_of_dvd (hn : 1 ≤ n) : (n * q + n - 1) / n = q := by
  rw [Nat.add_sub_assoc hn, Nat.mul_add_div hn, Nat.div_eq_of_lt (by omega), add_zero]

theorem ceil_of_rem (hr : 1 ≤ r) (hrn : r < n) : (n * q + r + n - 1) / n = q + 1 := by
  have hsplit : n * q + r + n - 1 = n * (q + 1) + (r - 1) := by
    rw [Nat.mul_add]
    omega
  rw [hsplit, Nat.mul_add_div (by omega), Nat.div_eq_of_lt (by omega), add_zero]

theorem evenCut_eq_of_dvd (hn : 1 ≤ n) (hq : 1 ≤ q) : evenCut (n * q) n = fullCut (n * q) q := by
  have hdiv : n * q / n = q := Nat.mul_div_cancel_left q hn
  have hcount : (n * q + q - 1) / q = n := by
    rw [mul_comm n q]
    exact ceil_of_dvd hq
  refine (cutAt_eq_iff (by simp [evenBound, fullBound])).2 ⟨hcount.symm, fun i hi => ?_⟩
  have hle : (i + 1) * q ≤ n * q := Nat.mul_le_mul_right q hi
  rw [evenBound, fullBound, hdiv, Nat.mul_mod_right, Nat.min_zero, min_eq_left hle,
    add_zero]

theorem evenCut_eq_iff_of_rem (hr : 1 ≤ r) (hrn : r < n) :
    evenCut (n * q + r) n = fullCut (n * q + r) (q + 1) ↔ 1 ≤ q ∧ r = n - 1 := by
  have hdiv : (n * q + r) / n = q := by
    rw [Nat.mul_add_div (by omega), Nat.div_eq_of_lt hrn, add_zero]
  have hmod : (n * q + r) % n = r := by rw [Nat.mul_add_mod, Nat.mod_eq_of_lt hrn]
  rw [evenCut, fullCut, cutAt_eq_iff (by simp [evenBound, fullBound])]
  simp only [evenBound, fullBound, hdiv, hmod]
  constructor
  · rintro ⟨hcount, hbound⟩
    have hq : 1 ≤ q := by
      -- pieces of length 1 are as many as `r`
      by_contra hq
      obtain rfl : q = 0 := by omega
      rw [mul_zero, zero_add, zero_add, Nat.add_sub_cancel, Nat.div_one] at hcount
      omega
    refine ⟨hq, ?_⟩
    -- the last but one piece ends before the range does
    have hlast := hbound (n - 2) (by omega)
    have hbefore : (n - 1) * (q + 1) < n * q + r := by
      have hmul : (n - 1) * (q + 1) < (n * q + r + (q + 1) - 1) / (q + 1) * (q + 1) := by
        rw [← hcount]
        exact Nat.mul_lt_mul_of_pos_right (by omega) (by omega)
      have hceil := Nat.div_mul_le_self (n * q + r + (q + 1) - 1) (q + 1)
      rw [← hcount] at hceil
      have hdvd : (n - 1) * (q + 1) + (q + 1) ≤ n * q + r + (q + 1) - 1 := by
        rw [← Nat.succ_mul, Nat.succ_eq_add_one, Nat.sub_add_cancel (by omega)]
        exact hceil
      omega
    have hn2 : n - 2 + 1 = n - 1 := by omega
    rw [hn2, Nat.min_eq_left hbefore.le, Nat.mul_add, Nat.mul_one] at hlast
    omega
  · rintro ⟨hq, rfl⟩
    have hsize : n * q + (n - 1) + 1 = n * (q + 1) := by
      rw [Nat.mul_add]
      omega
    have hcount : (n * q + (n - 1) + (q + 1) - 1) / (q + 1) = n := by
      have hsplit : n * q + (n - 1) + (q + 1) - 1 = (q + 1) * n + (q - 1) := by
        rw [mul_comm (q + 1) n]
        omega
      rw [hsplit, Nat.mul_add_div (by omega), Nat.div_eq_of_lt (by omega), add_zero]
    refine ⟨hcount.symm, fun i hi => ?_⟩
    by_cases hlast : i + 1 = n
    · rw [hlast, min_eq_right (by omega), min_eq_right (by omega)]
    · have hle : (i + 1) * (q + 1) + (q + 1) ≤ n * (q + 1) := by
        rw [← Nat.succ_mul]
        exact Nat.mul_le_mul_right _ (by omega)
      rw [Nat.min_eq_left (by omega), Nat.min_eq_left (by omega), Nat.mul_add, Nat.mul_one]

end Ceil

theorem evenCut_eq_fullCut_iff {s n : Nat} (hs : 1 ≤ s) (hn : 1 ≤ n) :
    evenCut s n = fullCut s ((s + n - 1) / n) ↔ n ≤ s ∧ (s % n = 0 ∨ s % n = n - 1) := by
  obtain ⟨q, r, hrn, hs'⟩ : ∃ q r, r < n ∧ s = n * q + r :=
    ⟨s / n, s % n, Nat.mod_lt s hn, (Nat.div_add_mod s n).symm⟩
  subst hs'
  have hmod : (n * q + r) % n = r := by rw [Nat.mul_add_mod, Nat.mod_eq_of_lt hrn]
  have hle : n ≤ n * q + r ↔ 1 ≤ q := by
    constructor
    · intro h
      by_contra hq
      obtain rfl : q = 0 := by omega
      omega
    · intro hq
      exact (Nat.le_mul_of_pos_right n hq).trans (Nat.le_add_right _ _)
  rw [hmod, hle]
  rcases Nat.eq_zero_or_pos r with rfl | hr
  · have hq : 1 ≤ q := Nat.pos_of_mul_pos_left (by omega : 0 < n * q)
    rw [add_zero, ceil_of_dvd hn]
    exact iff_of_true (evenCut_eq_of_dvd hn hq) ⟨hq, .inl rfl⟩
  · rw [ceil_of_rem hr hrn, evenCut_eq_iff_of_rem hr hrn, or_iff_right hr.ne']

end CompileForge.Lib
