/-
  A scan that keeps the first candidate of the highest score.
-/

import Mathlib.Data.List.ProdSigma
import Mathlib.Data.List.Induction
import Mathlib.Data.List.TakeWhile

namespace CompileForge.Lib

open List

variable {α β : Type*}

/-- One step of the scan. -/
def keepBest (score : α → Nat) (best : Nat × α) (x : α) : Nat × α :=
  if best.1 < score x then (score x, x) else best

/-- The candidates before `x` score less, the ones behind it not more. -/
def FirstBest (score : α → Nat) (l : List α) (x : α) : Prop :=
  ∃ before after, l = before ++ x :: after ∧
    (∀ y ∈ before, score y < score x) ∧ ∀ y ∈ after, score y ≤ score x

namespace FirstBest

variable {score : α → Nat} {l : List α} {x y : α}

theorem le (h : FirstBest score l x) (hy : y ∈ l) : score y ≤ score x := by
  obtain ⟨before, after, rfl, hbefore, hafter⟩ := h
  rcases mem_append.1 hy with hy | hy
  · exact (hbefore y hy).le
  · rcases mem_cons.1 hy with rfl | hy
    · exact le_rfl
    · exact hafter y hy

theorem rel_of_pairwise {r : α → α → Prop} (h : FirstBest score l x) (hl : l.Pairwise r)
    (hy : y ∈ l) (hne : y ≠ x) (hscore : score y = score x) : r x y := by
  obtain ⟨before, after, rfl, hbefore, -⟩ := h
  rcases mem_append.1 hy with hy | hy
  · have := hbefore y hy
    omega
  · rcases mem_cons.1 hy with rfl | hy
    · exact absurd rfl hne
    · exact rel_of_pairwise_cons (pairwise_append.1 hl).2.1 hy

theorem concat (h : FirstBest score l x) (hy : score y ≤ score x) :
    FirstBest score (l ++ [y]) x := by
  obtain ⟨before, after, rfl, hbefore, hafter⟩ := h
  refine ⟨before, after ++ [y], by simp, hbefore, fun z hz => ?_⟩
  rcases mem_append.1 hz with hz | hz
  · exact hafter z hz
  · rwa [mem_singleton.1 hz]

theorem of_lt (h : ∀ z ∈ l, score z < score y) : FirstBest score (l ++ [y]) y :=
  ⟨l, [], rfl, h, by simp⟩

end FirstBest

theorem foldl_keepBest (score : α → Nat) (l : List α) (start : α) :
    (l.foldl (keepBest score) (0, start) = (0, start) ∧ ∀ x ∈ l, score x = 0) ∨
    ∃ x, l.foldl (keepBest score) (0, start) = (score x, x) ∧ FirstBest score l x := by
  induction l using reverseRecOn with
  | nil => exact .inl ⟨rfl, by simp⟩
  | append_singleton l y ih =>
    rw [foldl_append]
    rcases ih with ⟨hfold, hzero⟩ | ⟨x, hfold, hbest⟩
    · simp only [hfold, foldl_cons, foldl_nil, keepBest]
      by_cases hy : 0 < score y
      · refine .inr ⟨y, if_pos hy, .of_lt fun z hz => ?_⟩
        rwa [hzero z hz]
      · refine .inl ⟨if_neg hy, fun z hz => ?_⟩
        rcases mem_append.1 hz with hz | hz
        · exact hzero z hz
        · rw [mem_singleton.1 hz]
          omega
    · simp only [hfold, foldl_cons, foldl_nil, keepBest]
      by_cases hy : score x < score y
      · exact .inr ⟨y, if_pos hy, .of_lt fun z hz => (hbest.le hz).trans_lt hy⟩
      · exact .inr ⟨x, if_neg hy, hbest.concat (by omega)⟩

theorem foldl_product {γ : Type*} (f : γ → α × β → γ) (init : γ) (l : List α) (l' : List β) :
    l.foldl (fun acc a => l'.foldl (fun acc b => f acc (a, b)) acc) init =
      (l ×ˢ l').foldl f init := by
  induction l generalizing init with
  | nil => rfl
  | cons a l ih => rw [foldl_cons, product_cons, foldl_append, foldl_map, ih]

/-- The order in which two nested loops visit their pairs. -/
def VisitedBefore (p q : Nat × Nat) : Prop :=
  p.1 < q.1 ∨ p.1 = q.1 ∧ p.2 < q.2

theorem pairwise_visitedBefore (m n : Nat) :
    (range m ×ˢ range n).Pairwise VisitedBefore := by
  refine pairwise_flatMap.2 ⟨fun o _ => ?_, ?_⟩
  · rw [pairwise_map]
    exact pairwise_lt_range.imp fun h => .inr ⟨rfl, h⟩
  · refine pairwise_lt_range.imp fun {o o'} h p hp q hq => ?_
    obtain ⟨_, -, rfl⟩ := mem_map.1 hp
    obtain ⟨_, -, rfl⟩ := mem_map.1 hq
    exact .inl h

theorem le_length_takeWhile {p : α → Bool} {l : List α} {n : Nat} :
    n ≤ (l.takeWhile p).length ↔ ∀ k < n, ∃ x, l[k]? = some x ∧ p x = true := by
  induction l generalizing n with
  | nil =>
    cases n with
    | zero => simp
    | succ =>
      refine iff_of_false (by simp) fun h => ?_
      obtain ⟨x, hx, -⟩ := h 0 (by omega)
      simp at hx
  | cons a l ih =>
    cases n with
    | zero => simp
    | succ =>
      rw [takeWhile_cons]
      by_cases ha : p a = true
      · rw [if_pos ha, length_cons, Nat.add_le_add_iff_right, ih]
        constructor
        · intro h k hk
          cases k with
          | zero => exact ⟨a, rfl, ha⟩
          | succ k => exact h k (by omega)
        · intro h k hk
          exact h (k + 1) (by omega)
      · refine iff_of_false (by simp [ha]) fun h => ha ?_
        obtain ⟨x, hx, hp⟩ := h 0 (by omega)
        cases hx
        exact hp

end CompileForge.Lib
