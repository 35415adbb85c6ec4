/-
  Loops that go over a range in blocks: a sum taken lane by lane and finished by a tail, a buffer
  that is filled from the front, and a range cut into chunks of which the last is shorter.
-/

import CompileForge.Lib.Slice
import Mathlib.Algebra.BigOperators.Intervals
import Mathlib.Algebra.BigOperators.Ring.Finset

namespace CompileForge.Lib

open Finset

section Lanes

variable {R : Type*} [AddCommMonoid R]

theorem sum_lanes (f : Nat → R) (width m : Nat) :
    ∑ j ∈ range width, ∑ s ∈ range m, f (width * s + j) = ∑ i ∈ range (width * m), f i := by
  rw [sum_comm]
  induction m with
  | zero => simp
  | succ m ih => rw [sum_range_succ, ih, Nat.mul_succ, sum_range_add]

theorem sum_lanes_add_tail (f : Nat → R) {width m n : Nat} (h : width * m ≤ n) :
    ∑ j ∈ range width, ∑ s ∈ range m, f (width * s + j) +
      ∑ i ∈ range (n - width * m), f (width * m + i) = ∑ i ∈ range n, f i := by
  rw [sum_lanes, ← sum_range_add, Nat.add_sub_cancel' h]

end Lanes

section Fill

variable {α : Type*} {out : List α}

/-- A buffer whose first `m` entries are written. -/
def filled (v : Nat → α) (out : List α) (m : Nat) : List α := (List.range m).map v ++ out.drop m

@[simp] theorem filled_zero (v : Nat → α) (out : List α) : filled v out 0 = out := rfl

theorem length_filled {v : Nat → α} {m : Nat} (h : m ≤ out.length) :
    (filled v out m).length = out.length := by
  simp [filled]
  omega

theorem set_filled {v : Nat → α} {m : Nat} (h : m < out.length) :
    (filled v out m).set m (v m) = filled v out (m + 1) := by
  rw [filled, List.set_append_right _ _ (by simp), List.length_map, List.length_range,
    Nat.sub_self, List.drop_eq_getElem_cons h, List.set_cons_zero, filled, List.range_succ,
    List.map_append, List.append_assoc]
  rfl

theorem foldl_set_filled (v : Nat → α) (m len : Nat) (h : m + len ≤ out.length) :
    (List.range len).foldl (fun o r => o.set (m + r) (v (m + r))) (filled v out m) =
      filled v out (m + len) := by
  induction len with
  | zero => rfl
  | succ len ih =>
    rw [List.range_succ, List.foldl_append, ih (by omega)]
    exact set_filled (by omega)

end Fill

section Chunks

variable {α : Type*}

/-- How many entries chunk `idx` of `n` entries has. -/
def shareLen (n chunk idx : Nat) : Nat := min chunk (n - idx * chunk)

theorem shareLen_le {n chunk idx : Nat} (h : idx < (n + chunk - 1) / chunk) (hchunk : 0 < chunk) :
    idx * chunk + shareLen n chunk idx ≤ n := by
  have hlt : idx * chunk < n := by
    have hmul : (idx + 1) * chunk ≤ n + chunk - 1 :=
      (Nat.mul_le_mul_right chunk h).trans (Nat.div_mul_le_self _ _)
    rw [Nat.succ_mul] at hmul
    omega
  unfold shareLen
  omega

theorem flatMap_chunks_front (f : Nat → α) (n chunk k : Nat) :
    (List.range k).flatMap (fun idx =>
      (List.range (shareLen n chunk idx)).map fun j => f (idx * chunk + j)) =
        (List.range (min (k * chunk) n)).map f := by
  induction k with
  | zero => simp
  | succ k ih =>
    rw [List.range_succ, List.flatMap_append, ih, List.flatMap_singleton]
    have hsplit : min ((k + 1) * chunk) n = min (k * chunk) n + shareLen n chunk k := by
      rw [Nat.succ_mul, shareLen]
      omega
    rw [hsplit, List.range_add, List.map_append, List.map_map]
    by_cases hin : k * chunk ≤ n
    · rw [min_eq_left hin]
      rfl
    · -- behind the end there is nothing to append
      have hempty : shareLen n chunk k = 0 := by
        rw [shareLen]
        omega
      rw [hempty]
      rfl

theorem flatMap_chunks (f : Nat → α) (n : Nat) {chunk : Nat} (h : 0 < chunk) :
    (List.range ((n + chunk - 1) / chunk)).flatMap (fun idx =>
      (List.range (shareLen n chunk idx)).map fun j => f (idx * chunk + j)) =
        (List.range n).map f := by
  rw [flatMap_chunks_front]
  have hcover : n ≤ (n + chunk - 1) / chunk * chunk := by
    have hmod := Nat.div_add_mod (n + chunk - 1) chunk
    have hlt := Nat.mod_lt (n + chunk - 1) h
    rw [mul_comm] at hmod
    omega
  rw [min_eq_right hcover]

end Chunks

end CompileForge.Lib
