/-
  Transducers: a step that reads an input in a state and emits an output, run over a
  list.
-/

import Mathlib.Data.List.Basic

namespace CompileForge.Lib

open List

variable {σ α β : Type*}

/-- The state after the inputs of a list, and the outputs in order. -/
def run (step : σ → α → σ × β) (s : σ) : List α → σ × List β
  | [] => (s, [])
  | a :: l =>
    let first := step s a
    let rest := run step first.1 l
    (rest.1, first.2 :: rest.2)

variable {step : σ → α → σ × β} {s : σ}

theorem run_append (l l' : List α) :
    run step s (l ++ l') =
      ((run step (run step s l).1 l').1, (run step s l).2 ++ (run step (run step s l).1 l').2) := by
  induction l generalizing s with
  | nil => rfl
  | cons a l ih =>
    rw [cons_append, run, ih]
    rfl

theorem run_of_trace {st : Nat → σ} {x : Nat → α} {y : Nat → β} (k n : Nat)
    (h : ∀ i, k ≤ i → i < k + n → step (st i) (x i) = (st (i + 1), y i)) :
    run step (st k) ((range' k n).map x) = (st (k + n), (range' k n).map y) := by
  induction n generalizing k with
  | zero => rfl
  | succ n ih =>
    have hfirst := h k (Nat.le_refl k) (by omega)
    have hrest := ih (k + 1) fun i hi hlt => h i (by omega) (by omega)
    have hend : k + 1 + n = k + (n + 1) := by omega
    rw [range'_succ, map_cons, map_cons, run, hfirst]
    simp only [hrest, hend]

theorem run_invariant {P : σ → Prop} (hstep : ∀ s a, P s → P (step s a).1) (h : P s)
    (l : List α) : P (run step s l).1 := by
  induction l generalizing s with
  | nil => exact h
  | cons a l ih => exact ih (hstep s a h)

theorem run_congr {step' : σ → α → σ × β} {l : List α} (h : ∀ a ∈ l, ∀ s, step s a = step' s a) :
    run step s l = run step' s l := by
  induction l generalizing s with
  | nil => rfl
  | cons a l ih =>
    rw [run, run, h a mem_cons_self]
    simp only [ih fun b hb => h b (mem_cons_of_mem a hb)]

theorem run_range {step : σ → Nat → σ × β} {s : σ} (n : Nat) :
    (run step s (range n)).2 =
      (range n).map fun i => (step (run step s (range i)).1 i).2 := by
  induction n with
  | zero => rfl
  | succ n ih =>
    rw [range_succ, run_append, map_append, ih]
    rfl

theorem run_range_succ {step : σ → Nat → σ × β} {s : σ} (n : Nat) :
    (run step s (range (n + 1))).1 = (step (run step s (range n)).1 n).1 := by
  rw [range_succ, run_append]
  rfl

end CompileForge.Lib
