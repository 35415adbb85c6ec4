/-
  Finite rational distributions as lists of weighted outcomes, with the draws a sampler is
  made of: a uniform number below a bound, an index by weights, independent draws of the
  entries of a vector.
-/

import Mathlib.Algebra.BigOperators.Fin
import Mathlib.Algebra.Order.BigOperators.Ring.Finset
import Mathlib.Tactic.Linarith
import Mathlib.Tactic.FieldSimp

namespace CompileForge.Lib

open List

/-- Weighted outcomes. -/
structure FinDist (α : Type) where
  outcomes : List (α × ℚ)
  nonneg : ∀ o ∈ outcomes, 0 ≤ o.2

namespace FinDist

variable {α β : Type}

def pure (a : α) : FinDist α where
  outcomes := [(a, 1)]
  nonneg := by simp

/-- The weights need not sum to 1: what is missing is the weight of the runs that fail. -/
def fail : FinDist α where
  outcomes := []
  nonneg := by simp

def bind (d : FinDist α) (k : α → FinDist β) : FinDist β where
  outcomes := d.outcomes.flatMap fun o => (k o.1).outcomes.map fun o' => (o'.1, o.2 * o'.2)
  nonneg := by
    intro r hr
    obtain ⟨o, ho, hr⟩ := mem_flatMap.1 hr
    obtain ⟨o', ho', rfl⟩ := mem_map.1 hr
    exact mul_nonneg (d.nonneg o ho) ((k o.1).nonneg o' ho')

instance : Monad FinDist where
  pure := pure
  bind := bind

variable (d : FinDist α)

/-- Everything is read off through it: a bind is a nested expectation, independent draws a product.
    -/
def expect (f : α → ℚ) : ℚ := (d.outcomes.map fun o => o.2 * f o.1).sum

/-- The weight of an event. -/
def prob (P : α → Prop) [DecidablePred P] : ℚ :=
  d.expect fun a => if P a then 1 else 0

def Possible (a : α) : Prop := ∃ o ∈ d.outcomes, o.1 = a

theorem possible_pure {a b : α} : (Pure.pure a : FinDist α).Possible b ↔ a = b := by
  constructor
  · rintro ⟨o, ho, rfl⟩
    obtain rfl := mem_singleton.1 ho
    rfl
  · rintro rfl
    exact ⟨(a, 1), mem_singleton.2 rfl, rfl⟩

variable {d : FinDist α} {n : Nat} {w : Fin n → ℚ}

theorem possible_bind {k : α → FinDist β} {b : β} (h : (d >>= k).Possible b) :
    ∃ a, d.Possible a ∧ (k a).Possible b := by
  obtain ⟨r, hr, rfl⟩ := h
  obtain ⟨o, ho, hr⟩ := mem_flatMap.1 hr
  obtain ⟨o', ho', rfl⟩ := mem_map.1 hr
  exact ⟨o.1, ⟨o, ho, rfl⟩, ⟨o', ho', rfl⟩⟩

/-! ## The expectation -/

theorem expect_pure (a : α) (f : α → ℚ) : (Pure.pure a : FinDist α).expect f = f a := by
  show [1 * f a].sum = f a
  simp

theorem expect_fail (f : α → ℚ) : (fail : FinDist α).expect f = 0 := rfl

theorem expect_bind (d : FinDist α) (k : α → FinDist β) (f : β → ℚ) :
    (d >>= k).expect f = d.expect fun a => (k a).expect f := by
  obtain ⟨outcomes, hnonneg⟩ := d
  show ((outcomes.flatMap fun o => (k o.1).outcomes.map fun o' => (o'.1, o.2 * o'.2)).map
      fun o => o.2 * f o.1).sum = (outcomes.map fun o => o.2 * (k o.1).expect f).sum
  clear hnonneg
  induction outcomes with
  | nil => rfl
  | cons o outcomes ih =>
    have hhead : (((k o.1).outcomes.map fun o' => (o'.1, o.2 * o'.2)).map
        fun o' => o'.2 * f o'.1).sum = o.2 * (k o.1).expect f := by
      rw [map_map, expect, ← sum_map_mul_left]
      congr 1
      exact map_congr_left fun o' _ => mul_assoc _ _ _
    rw [flatMap_cons, map_append, sum_append, ih, hhead, map_cons, sum_cons]

theorem expect_congr {f g : α → ℚ} (h : ∀ a, d.Possible a → f a = g a) :
    d.expect f = d.expect g := by
  rw [expect, expect]
  congr 1
  exact map_congr_left fun o ho => by rw [h o.1 ⟨o, ho, rfl⟩]

variable (d n)

theorem expect_zero : (d.expect fun _ => 0) = 0 := by
  simp [expect]

theorem expect_mul_right (f : α → ℚ) (c : ℚ) : (d.expect fun a => f a * c) = d.expect f * c := by
  rw [expect, expect, ← sum_map_mul_right]
  congr 1
  exact map_congr_left fun o _ => (mul_assoc _ _ _).symm

theorem expect_add (f g : α → ℚ) : (d.expect fun a => f a + g a) = d.expect f + d.expect g := by
  rw [expect, expect, expect, ← sum_map_add]
  congr 1
  exact map_congr_left fun o _ => mul_add _ _ _

theorem expect_comm (e : FinDist β) (f : α → β → ℚ) :
    (d.expect fun a => e.expect (f a)) = e.expect fun b => d.expect fun a => f a b := by
  obtain ⟨outcomes, hnonneg⟩ := d
  show (outcomes.map fun o => o.2 * e.expect (f o.1)).sum =
    e.expect fun b => (outcomes.map fun o => o.2 * f o.1 b).sum
  clear hnonneg
  induction outcomes with
  | nil => exact (expect_zero e).symm
  | cons o outcomes ih =>
    have hhead : o.2 * e.expect (f o.1) = e.expect fun b => o.2 * f o.1 b := by
      rw [mul_comm, ← expect_mul_right]
      exact expect_congr fun o' _ => mul_comm _ _
    simp only [map_cons, sum_cons]
    rw [ih, hhead, ← expect_add]

/-! ## Draws -/

/-- Whether a number drawn uniformly from `[0, 1)` is below the bound. -/
def randBelow (bound : ℚ) : FinDist Bool where
  outcomes := [(true, max 0 (min bound 1)), (false, 1 - max 0 (min bound 1))]
  nonneg := by
    intro o ho
    have hle : max 0 (min bound 1) ≤ 1 := max_le zero_le_one (min_le_right _ _)
    simp only [List.mem_cons, not_mem_nil, or_false] at ho
    obtain rfl | rfl := ho
    · exact le_max_left _ _
    · exact sub_nonneg.2 hle

theorem expect_randBelow {bound : ℚ} (h0 : 0 ≤ bound) (h1 : bound ≤ 1) (f : Bool → ℚ) :
    (randBelow bound).expect f = bound * f true + (1 - bound) * f false := by
  have hclamp : max 0 (min bound 1) = bound := by rw [min_eq_left h1, max_eq_right h0]
  simp [expect, randBelow, hclamp]

/-- A distribution of the indices below `n`. -/
structure Pmf where
  weight : Fin n → ℚ
  nonneg : ∀ v, 0 ≤ weight v
  total : ∑ v, weight v = 1

variable {d n}

/-- An index by weights that need not sum to 1. -/
def ofWeights {n : Nat} (w : Fin n → ℚ) (h : ∀ v, 0 ≤ w v) : FinDist (Fin n) where
  outcomes := (finRange n).map fun v => (v, w v)
  nonneg := by
    intro o ho
    obtain ⟨v, -, rfl⟩ := mem_map.1 ho
    exact h v

theorem expect_ofWeights (h : ∀ v, 0 ≤ w v) (f : Fin n → ℚ) :
    (ofWeights w h).expect f = ∑ v, w v * f v := by
  rw [expect, ofWeights, map_map, Fin.sum_univ_def]
  rfl

def Pmf.draw {n : Nat} (p : Pmf n) : FinDist (Fin n) := ofWeights p.weight p.nonneg

/-- An index with probability proportional to its weight, if the weights allow it. -/
def multinomial {n : Nat} (w : Fin n → ℚ) : FinDist (Fin n) :=
  if h : (∀ v, 0 ≤ w v) ∧ 0 < ∑ v, w v then
    ofWeights (fun v => w v / ∑ u, w u) fun v => div_nonneg (h.1 v) (le_of_lt h.2)
  else fail

theorem expect_multinomial (hw : ∀ v, 0 ≤ w v) (f : Fin n → ℚ) :
    (multinomial w).expect f = ∑ v, w v / (∑ u, w u) * f v := by
  rw [multinomial]
  split
  case isTrue => rw [expect_ofWeights]
  case isFalse hrefused =>
    have hzero : ∑ u, w u = 0 := by
      have hnonneg : 0 ≤ ∑ u, w u := Finset.sum_nonneg fun v _ => hw v
      by_contra hne
      exact hrefused ⟨hw, lt_of_le_of_ne hnonneg (Ne.symm hne)⟩
    rw [expect_fail, hzero]
    simp

/-! ## Independent draws -/

/-- The entries of a vector, drawn one after the other. -/
def pi : {n : Nat} → (Fin n → FinDist α) → FinDist (Fin n → α)
  | 0, _ => Pure.pure Fin.elim0
  | _ + 1, d => do
    let a ← d 0
    let rest ← pi fun i => d i.succ
    Pure.pure (Fin.cons a rest)

theorem expect_pi_succ (d : Fin (n + 1) → FinDist α) (f : (Fin (n + 1) → α) → ℚ) :
    (pi d).expect f =
      (d 0).expect fun a => (pi fun i => d i.succ).expect fun rest => f (Fin.cons a rest) := by
  rw [pi, expect_bind]
  refine expect_congr fun o _ => ?_
  rw [expect_bind]
  exact expect_congr fun o' _ => expect_pure _ _

theorem expect_pi_prod (d : Fin n → FinDist α) (f : Fin n → α → ℚ) :
    ((pi d).expect fun xs => ∏ i, f i (xs i)) = ∏ i, (d i).expect (f i) := by
  induction n with
  | zero => rw [pi, expect_pure, Fin.prod_univ_zero, Fin.prod_univ_zero]
  | succ n ih =>
    rw [expect_pi_succ, Fin.prod_univ_succ]
    have hstep : ∀ a, ((pi fun i => d i.succ).expect fun rest =>
        ∏ i, f i ((Fin.cons a rest : Fin (n + 1) → α) i)) =
          f 0 a * ∏ i : Fin n, (d i.succ).expect (f i.succ) := by
      intro a
      rw [← ih, mul_comm, ← expect_mul_right]
      refine expect_congr fun o _ => ?_
      rw [Fin.prod_univ_succ, mul_comm]
      simp only [Fin.cons_zero, Fin.cons_succ]
    simp only [hstep]
    rw [expect_mul_right]

end FinDist

end CompileForge.Lib
