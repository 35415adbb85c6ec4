/-
  Means weighted by `exp` of scores, and the recurrence that computes one block by block.
-/

import CompileForge.Lib.ExactFloat
import Mathlib.Algebra.Order.BigOperators.Group.List
import Mathlib.Tactic.Ring

namespace CompileForge.Lib

open List

variable {R : Type} [Field R]

def softmaxMean (exp : R → R) (entries : List (R × R)) : R :=
  (entries.map fun e => exp e.1 * e.2).sum / (entries.map fun e => exp e.1).sum

namespace OnlineSoftmax

open ExactFloat

variable [LinearOrder R]

/-- The running maximum, normaliser and accumulator. -/
abbrev State (R : Type) := ExactFloat R × ExactFloat R × ExactFloat R

def start : State R := (inf true, fin 0, fin 0)

/-- The largest score so far is taken out of every weight, and what was summed up before is scaled
    down where it grows. -/
def step (exp : R → R) (s : State R) (block : List (ExactFloat R × ExactFloat R)) : State R :=
  let mNew := s.1.maximum (maximumOf (block.map Prod.fst))
  let alpha := (s.1.sub mNew).exp exp
  (mNew, (s.2.1 * alpha).add (sum (block.map fun e => (e.1.sub mNew).exp exp)),
    (s.2.2 * alpha).add (sum (block.map fun e => (e.1.sub mNew).exp exp * e.2)))

/-- A score that is masked out is minus infinity; the recurrence needs one that is not in the first
    block. -/
def score : Option R → ExactFloat R
  | some x => fin x
  | none => inf true

def entry (e : Option R × R) : ExactFloat R × ExactFloat R := (score e.1, fin e.2)

/-- The entries that are not masked out. -/
def kept (block : List (Option R × R)) : List (R × R) :=
  block.filterMap fun e => e.1.map (·, e.2)

/-- The sums over what was seen are there, without the factor `exp` of the running maximum. -/
def Carries (exp : R → R) (seen : List (R × R)) (s : State R) : Prop :=
  ∃ m, s = (fin m, fin (exp (-m) * (seen.map fun e => exp e.1).sum),
    fin (exp (-m) * (seen.map fun e => exp e.1 * e.2).sum))

variable {exp : R → R} {seen : List (R × R)} {s : State R} {block : List (Option R × R)}

omit [LinearOrder R] in
theorem sum_fin (l : List R) : ExactFloat.sum (l.map fin) = fin l.sum := by
  have hfold : ∀ x : R, (l.map fin).foldl add (fin x) = fin (x + l.sum) := by
    induction l with
    | nil => exact fun x => congrArg fin (add_zero x).symm
    | cons y l ih => exact fun x => (ih (x + y)).trans (by rw [sum_cons, add_assoc])
  exact (hfold 0).trans (by rw [zero_add])

omit [Field R] in
theorem maximum_score (a b : Option R) :
    ∃ c, (score a).maximum (score b) = score c ∧ (a.isSome ∨ b.isSome → c.isSome) := by
  cases a with
  | none => exact ⟨b, by cases b <;> rfl, by simp⟩
  | some x =>
    cases b with
    | none => exact ⟨some x, rfl, by simp⟩
    | some y => exact ⟨some (max x y), rfl, by simp⟩

theorem maximumOf_score (a : Option R) (scores : List (Option R)) :
    ∃ c, (score a).maximum (maximumOf (scores.map score)) = score c ∧
      (a.isSome ∨ (∃ b ∈ scores, b.isSome) → c.isSome) := by
  have hfold : ∀ (scores : List (Option R)) (b : Option R),
      ∃ c, (scores.map score).foldl maximum (score b) = score c ∧
        (b.isSome ∨ (∃ b ∈ scores, b.isSome) → c.isSome) := by
    intro scores
    induction scores with
    | nil => exact fun b => ⟨b, rfl, by simp⟩
    | cons x scores ih =>
      intro b
      obtain ⟨c, hc, hsome⟩ := maximum_score b x
      obtain ⟨d, hd, hsome'⟩ := ih c
      refine ⟨d, by rw [map_cons, foldl_cons, hc, hd], fun h => hsome' ?_⟩
      simp only [mem_cons, exists_eq_or_imp] at h
      tauto
  obtain ⟨b, hb, hsome⟩ := hfold scores none
  obtain ⟨c, hc, hsome'⟩ := maximum_score a b
  refine ⟨c, by rw [maximumOf, ← hc, ← hb]; rfl, fun h => hsome' ?_⟩
  exact h.imp_right fun h => hsome (.inr h)

omit [LinearOrder R] in
theorem sum_kept (f : R × R → R) (c : R) (block : List (Option R × R)) :
    (block.map fun e => c * (e.1.map fun x => f (x, e.2)).getD 0).sum =
      c * ((kept block).map f).sum := by
  induction block with
  | nil => simp [kept]
  | cons e block ih =>
    rw [map_cons, sum_cons, ih, ← mul_add]
    rcases e with ⟨_ | x, v⟩ <;> simp [kept]

theorem sum_weights (hadd : ∀ a b, exp (a + b) = exp a * exp b) (m : R)
    (block : List (Option R × R)) :
    ExactFloat.sum ((block.map entry).map fun e => (e.1.sub (fin m)).exp exp) =
        fin (exp (-m) * ((kept block).map fun e => exp e.1).sum) ∧
      ExactFloat.sum ((block.map entry).map fun e => (e.1.sub (fin m)).exp exp * e.2) =
        fin (exp (-m) * ((kept block).map fun e => exp e.1 * e.2).sum) := by
  have hweight : ∀ o : Option R, ((score o).sub (fin m)).exp exp =
      fin (exp (-m) * (o.map exp).getD 0) := by
    intro o
    cases o with
    | none => exact congrArg fin (mul_zero _).symm
    | some x => exact congrArg fin ((hadd x (-m)).trans (mul_comm _ _))
  constructor
  · rw [← sum_kept, ← sum_fin, map_map, map_map]
    exact congrArg ExactFloat.sum (map_congr_left fun e _ => hweight e.1)
  · rw [← sum_kept, ← sum_fin, map_map, map_map]
    refine congrArg ExactFloat.sum (map_congr_left fun e _ => ?_)
    show ((score e.1).sub (fin m)).exp exp * fin e.2 = _
    rw [hweight, fin_mul_fin, mul_assoc]
    rcases e with ⟨_ | x, v⟩ <;> simp

/-- One block: what was summed up before is scaled to the new maximum. -/
theorem carries_step (hadd : ∀ a b, exp (a + b) = exp a * exp b)
    (h : seen = [] ∧ s = start ∧ (∃ e ∈ block, e.1.isSome) ∨ Carries exp seen s) :
    Carries exp (seen ++ kept block) (step exp s (block.map entry)) := by
  have hmax : ∃ m, s.1.maximum (maximumOf ((block.map entry).map Prod.fst)) = fin m ∧
      s.2.1 * (s.1.sub (fin m)).exp exp = fin (exp (-m) * (seen.map fun e => exp e.1).sum) ∧
      s.2.2 * (s.1.sub (fin m)).exp exp =
        fin (exp (-m) * (seen.map fun e => exp e.1 * e.2).sum) := by
    have hscores : (block.map entry).map Prod.fst = (block.map Prod.fst).map score := by
      rw [map_map, map_map]
      rfl
    rw [hscores]
    rcases h with ⟨rfl, rfl, e, he, hsome⟩ | ⟨m, rfl⟩
    · obtain ⟨c, hc, hcsome⟩ := maximumOf_score none (block.map Prod.fst)
      obtain ⟨m', rfl⟩ := Option.isSome_iff_exists.1
        (hcsome (.inr ⟨e.1, mem_map_of_mem he, hsome⟩))
      have hzero : (fin 0 : ExactFloat R) * fin 0 = fin (exp (-m') * 0) := by
        rw [fin_mul_fin, mul_zero, mul_zero]
      exact ⟨m', hc, hzero, hzero⟩
    · obtain ⟨c, hc, hcsome⟩ := maximumOf_score (some m) (block.map Prod.fst)
      obtain ⟨m', rfl⟩ := Option.isSome_iff_exists.1 (hcsome (.inl rfl))
      have hscale : ∀ x, fin (exp (-m) * x) * ((fin m).sub (fin m')).exp exp =
          fin (exp (-m') * x) := by
        intro x
        show fin (exp (-m) * x * exp (m + -m')) = _
        rw [mul_right_comm, ← hadd, neg_add_cancel_left]
      exact ⟨m', hc, hscale _, hscale _⟩
  obtain ⟨m, hm, hl, hacc⟩ := hmax
  obtain ⟨hden, hnum⟩ := sum_weights hadd m block
  refine ⟨m, ?_⟩
  rw [step, hm, hl, hacc, hden, hnum]
  simp only [map_append, sum_append, mul_add]
  rfl

theorem carries_foldl (hadd : ∀ a b, exp (a + b) = exp a * exp b)
    {first : List (Option R × R)} (hfirst : ∃ e ∈ first, e.1.isSome)
    (blocks : List (List (Option R × R))) :
    Carries exp (kept (first :: blocks).flatten)
      ((first :: blocks).foldl (fun s block => step exp s (block.map entry)) start) := by
  have hfold : ∀ (seen : List (R × R)) (s : State R), Carries exp seen s →
      Carries exp (seen ++ kept blocks.flatten)
        (blocks.foldl (fun s block => step exp s (block.map entry)) s) := by
    induction blocks with
    | nil => exact fun seen s hs => by simpa [kept] using hs
    | cons block blocks ih =>
      intro seen s hs
      have hblock : Carries exp (seen ++ kept block) _ := carries_step hadd (.inr hs)
      have hrest := ih _ _ hblock
      rwa [append_assoc, kept, kept, ← filterMap_append] at hrest
  have hall := hfold _ _ (carries_step hadd (.inl ⟨rfl, rfl, hfirst⟩))
  rwa [nil_append, kept, kept, ← filterMap_append] at hall

theorem Carries.div_eq [IsStrictOrderedRing R] (hpos : ∀ x, 0 < exp x) (h : Carries exp seen s)
    (hne : seen ≠ []) : s.2.2.div s.2.1 = fin (softmaxMean exp seen) := by
  obtain ⟨m, rfl⟩ := h
  have hsum : (0 : R) < (seen.map fun e => exp e.1).sum :=
    sum_pos _ (by simpa using fun _ x _ _ h => h ▸ hpos x) (by simpa using hne)
  rw [div_fin (mul_pos (hpos _) hsum).ne', mul_div_mul_left _ _ (hpos _).ne']
  rfl

omit [Field R] [LinearOrder R] in
theorem kept_map {α : Type} (p : α → Bool) (f g : α → R) (l : List α) :
    kept (l.map fun a => (if p a then some (f a) else none, g a)) =
      (l.filter p).map fun a => (f a, g a) := by
  induction l with
  | nil => rfl
  | cons a l ih =>
    rw [map_cons, kept, filterMap_cons, ← kept, ih, filter_cons]
    cases p a <;> rfl

theorem softmaxMean_pos [IsStrictOrderedRing R] (hpos : ∀ x, 0 < exp x)
    (hnonneg : ∀ e ∈ seen, 0 ≤ e.2) {e : R × R} (he : e ∈ seen) (hvalue : 0 < e.2) :
    0 < softmaxMean exp seen := by
  have hterm : ∀ t ∈ seen.map fun e => exp e.1 * e.2, 0 ≤ t := by
    intro t ht
    obtain ⟨e', he', rfl⟩ := mem_map.1 ht
    exact mul_nonneg (hpos _).le (hnonneg e' he')
  refine div_pos (lt_of_lt_of_le (mul_pos (hpos e.1) hvalue)
    (single_le_sum hterm _ (mem_map_of_mem he))) (sum_pos _ ?_ ?_)
  · intro t ht
    obtain ⟨e', -, rfl⟩ := mem_map.1 ht
    exact hpos _
  · simpa using ne_nil_of_mem he

omit [LinearOrder R] in
theorem softmaxMean_zero (hzero : ∀ e ∈ seen, e.2 = 0) : softmaxMean exp seen = 0 := by
  have hmap : (seen.map fun e => exp e.1 * e.2) = seen.map fun _ => 0 :=
    map_congr_left fun e he => by rw [hzero e he, mul_zero]
  rw [softmaxMean, hmap]
  simp

end OnlineSoftmax

end CompileForge.Lib
