/-
  The token one row of a position emits when a token drawn from `q` is accepted with
  probability `min 1 (p / q)` and replaced, where it is rejected, by a draw from `p` with that
  token struck out: its distribution, and when this is `p`.
-/

import CompileForge.Lib.FinDist
import Mathlib.Algebra.BigOperators.Field
import Mathlib.Tactic.Positivity

namespace CompileForge.PythonRuntime.Speculative

open Lib Lib.FinDist

variable {vocab : Nat}

variable {x v : Fin vocab}

theorem pair_le_sum {f : Fin vocab → ℚ} (hf : ∀ v, 0 ≤ f v) (h : v ≠ x) :
    f x + f v ≤ ∑ u, f u := by
  rw [← Finset.sum_pair (Ne.symm h)]
  exact Finset.sum_le_sum_of_subset_of_nonneg (Finset.subset_univ _) fun u _ _ => hf u

variable (p : Pmf vocab)

theorem weight_le_one (v : Fin vocab) : p.weight v ≤ 1 := by
  rw [← p.total]
  exact Finset.single_le_sum (fun u _ => p.nonneg u) (Finset.mem_univ v)

theorem weight_eq_zero_of_sure {p : Pmf vocab} (hx : p.weight x = 1)
    (hv : v ≠ x) : p.weight v = 0 := by
  have hpair : p.weight x + p.weight v ≤ ∑ u, p.weight u := pair_le_sum p.nonneg hv
  rw [p.total, hx] at hpair
  exact le_antisymm (by linarith) (p.nonneg v)

def Pmf.sure (x : Fin vocab) : Pmf vocab where
  weight := fun v => if v = x then 1 else 0
  nonneg := fun v => by
    split
    · exact zero_le_one
    · exact le_refl 0
  total := by rw [Finset.sum_ite_eq', if_pos (Finset.mem_univ x)]

/-- Striking out the token is right for a draft known in advance, and in the cases of
    `PreservesTarget`. -/
def struck (x v : Fin vocab) : ℚ := if v = x then 0 else p.weight v

theorem struck_nonneg (x v : Fin vocab) : 0 ≤ struck p x v := by
  rw [struck]
  split
  · exact le_refl 0
  · exact p.nonneg v

theorem sum_struck (x : Fin vocab) : ∑ v, struck p x v = 1 - p.weight x := by
  have hsplit : ∀ v, struck p x v = p.weight v - if v = x then p.weight x else 0 := by
    intro v
    rw [struck]
    split
    case isTrue h => rw [h, sub_self]
    case isFalse => rw [sub_zero]
  simp only [hsplit, Finset.sum_sub_distrib, p.total, Finset.sum_ite_eq', Finset.mem_univ, if_true]

/-! ## The distribution of the emitted token -/

variable (p q : Pmf vocab)

/-- `ratio`: the probability of acceptance. -/
def ratio (x : Fin vocab) : ℚ := min 1 (p.weight x / q.weight x)

/-- The probability that a row emits `v`. -/
def emission (v : Fin vocab) : ℚ :=
  ∑ x, q.weight x * (ratio p q x * (if x = v then 1 else 0) +
    (1 - ratio p q x) * (struck p x v / (1 - p.weight x)))

/-- Rejection sampling draws the replacement from the excess of `p` over `q`. -/
def excess (x : Fin vocab) : ℚ := q.weight x - min (p.weight x) (q.weight x)

theorem excess_nonneg (x : Fin vocab) : 0 ≤ excess p q x :=
  sub_nonneg.2 (min_le_right _ _)

theorem excess_of_le {p q : Pmf vocab} (h : q.weight x ≤ p.weight x) :
    excess p q x = 0 := by
  rw [excess, min_eq_right h, sub_self]

theorem excess_of_ge {p q : Pmf vocab} (h : p.weight x ≤ q.weight x) :
    excess p q x = q.weight x - p.weight x := by
  rw [excess, min_eq_left h]

theorem mul_ratio (x : Fin vocab) : q.weight x * ratio p q x = min (p.weight x) (q.weight x) := by
  rcases eq_or_lt_of_le (q.nonneg x) with hzero | hpos
  · rw [← hzero, zero_mul, min_eq_right (p.nonneg x)]
  · rw [ratio, mul_min_of_nonneg _ _ (le_of_lt hpos), mul_one, mul_div_cancel₀ _ (ne_of_gt hpos),
      min_comm]

/-- The share of the rejected tokens, each weighed by what its replacement is drawn from. -/
def spill : ℚ := ∑ x, excess p q x / (1 - p.weight x)

theorem spill_term_nonneg (x : Fin vocab) : 0 ≤ excess p q x / (1 - p.weight x) :=
  div_nonneg (excess_nonneg p q x) (sub_nonneg.2 (weight_le_one p x))

theorem emission_eq (v : Fin vocab) :
    emission p q v = min (p.weight v) (q.weight v) +
      p.weight v * (spill p q - excess p q v / (1 - p.weight v)) := by
  have hterm : ∀ x, q.weight x * (ratio p q x * (if x = v then 1 else 0) +
      (1 - ratio p q x) * (struck p x v / (1 - p.weight x))) =
        (if x = v then min (p.weight v) (q.weight v) else 0) +
          (p.weight v * (excess p q x / (1 - p.weight x)) -
            if x = v then p.weight v * (excess p q v / (1 - p.weight v)) else 0) := by
    intro x
    have hreject : q.weight x * (1 - ratio p q x) = excess p q x := by
      rw [mul_sub, mul_one, mul_ratio, excess]
    rw [mul_add, ← mul_assoc, ← mul_assoc, mul_ratio, hreject, struck]
    by_cases hx : x = v
    · rw [hx]
      simp
    · simp only [if_neg hx, if_neg (Ne.symm hx)]
      ring
  rw [emission, Finset.sum_congr rfl fun x _ => hterm x, Finset.sum_add_distrib,
    Finset.sum_sub_distrib, Finset.sum_ite_eq', Finset.sum_ite_eq', ← Finset.mul_sum,
    if_pos (Finset.mem_univ v), if_pos (Finset.mem_univ v), spill]
  ring

/-! ## When it is the target's -/

/-- The draft mixes the target with one token, or with tokens the target does not give. -/
def PreservesTarget : Prop :=
  ∃ t : ℚ, 0 ≤ t ∧ t ≤ 1 ∧ ∃ other : Pmf vocab,
    (∀ v, q.weight v = (1 - t) * p.weight v + t * other.weight v) ∧
      ((∃ x, other.weight x = 1) ∨ ∀ v, p.weight v ≠ 0 → other.weight v = 0)

section Exact

variable {p q : Pmf vocab} {v x : Fin vocab} {t : ℚ} {other : Pmf vocab}

theorem weight_of_not_favoured (h : emission p q v = p.weight v)
    (hle : q.weight v ≤ p.weight v) : q.weight v = (1 - spill p q) * p.weight v := by
  rw [emission_eq, min_eq_right hle, excess_of_le hle, zero_div, sub_zero] at h
  linarith

theorem spill_of_favoured (h : emission p q v = p.weight v)
    (hpos : 0 < p.weight v) (hlt : p.weight v < q.weight v) :
    spill p q = excess p q v / (1 - p.weight v) := by
  rw [emission_eq, min_eq_left (le_of_lt hlt)] at h
  have hzero : p.weight v * (spill p q - excess p q v / (1 - p.weight v)) = 0 := by linarith
  rcases mul_eq_zero.1 hzero with hp | hs
  · exact absurd hp (ne_of_gt hpos)
  · linarith

theorem not_favoured_of_favoured (hx : emission p q x = p.weight x)
    (hpos : 0 < p.weight x) (hlt : p.weight x < q.weight x) (hv : v ≠ x) :
    q.weight v ≤ p.weight v := by
  have hspill := spill_of_favoured hx hpos hlt
  have hpair : excess p q x / (1 - p.weight x) + excess p q v / (1 - p.weight v) ≤ spill p q :=
    pair_le_sum (spill_term_nonneg p q) hv
  have hzero : excess p q v / (1 - p.weight v) = 0 :=
    le_antisymm (by linarith) (spill_term_nonneg p q v)
  by_contra hfavoured
  have hgt : p.weight v < q.weight v := not_le.1 hfavoured
  have hless : p.weight v < 1 := lt_of_lt_of_le hgt (weight_le_one q v)
  have hpositive : 0 < excess p q v / (1 - p.weight v) := by
    rw [excess_of_ge (le_of_lt hgt)]
    exact div_pos (sub_pos.2 hgt) (sub_pos.2 hless)
  exact ne_of_gt hpositive hzero

theorem preservesTarget_of_favoured (h : ∀ v, emission p q v = p.weight v)
    (hpos : 0 < p.weight x) (hlt : p.weight x < q.weight x) : PreservesTarget p q := by
  have hspill := spill_of_favoured (h x) hpos hlt
  rw [excess_of_ge (le_of_lt hlt)] at hspill
  have hless : p.weight x < 1 := lt_of_lt_of_le hlt (weight_le_one q x)
  have hgap : 0 < 1 - p.weight x := sub_pos.2 hless
  refine ⟨spill p q, ?_, ?_, Pmf.sure x, ?_, .inl ⟨x, if_pos rfl⟩⟩
  · rw [hspill]
    exact le_of_lt (div_pos (sub_pos.2 hlt) hgap)
  · rw [hspill, div_le_one hgap]
    linarith [weight_le_one q x]
  · intro v
    by_cases hv : v = x
    · have hback : spill p q * (1 - p.weight x) = q.weight x - p.weight x := by
        rw [hspill, div_mul_cancel₀ _ (ne_of_gt hgap)]
      rw [hv]
      show _ = _ + spill p q * (if x = x then 1 else 0)
      rw [if_pos rfl]
      linarith
    · show _ = _ + spill p q * (if v = x then 1 else 0)
      rw [if_neg hv, mul_zero, add_zero]
      exact weight_of_not_favoured (h v) (not_favoured_of_favoured (h x) hpos hlt hv)

/-- The tokens the target does not give, with the draft's weights over their share. -/
def offTarget (p q : Pmf vocab) (hq : ∀ v, 0 < p.weight v → q.weight v ≤ p.weight v)
    (hspill : 0 < spill p q) : Pmf vocab where
  weight := fun v => if p.weight v = 0 then q.weight v / spill p q else 0
  nonneg := fun v => by
    split
    · exact div_nonneg (q.nonneg v) (le_of_lt hspill)
    · exact le_refl 0
  total := by
    have hterm : ∀ v, (if p.weight v = 0 then q.weight v / spill p q else 0) =
        (excess p q v / (1 - p.weight v)) / spill p q := by
      intro v
      split
      case isTrue h =>
        rw [excess_of_ge (by rw [h]; exact q.nonneg v), h, sub_zero, sub_zero, div_one]
      case isFalse h =>
        have hle := hq v (lt_of_le_of_ne (p.nonneg v) (Ne.symm h))
        rw [excess_of_le hle, zero_div, zero_div]
    rw [Finset.sum_congr rfl fun v _ => hterm v, ← Finset.sum_div, ← spill,
      div_self (ne_of_gt hspill)]

theorem preservesTarget_of_not_favoured (h : ∀ v, emission p q v = p.weight v)
    (hq : ∀ v, 0 < p.weight v → q.weight v ≤ p.weight v) : PreservesTarget p q := by
  have hnonneg : 0 ≤ spill p q := Finset.sum_nonneg fun x _ => spill_term_nonneg p q x
  have hweight : ∀ v, 0 < p.weight v → q.weight v = (1 - spill p q) * p.weight v :=
    fun v hv => weight_of_not_favoured (h v) (hq v hv)
  obtain ⟨x, -, hx⟩ : ∃ x ∈ Finset.univ, p.weight x ≠ 0 := by
    refine Finset.exists_ne_zero_of_sum_ne_zero ?_
    rw [p.total]
    exact one_ne_zero
  have hxpos : 0 < p.weight x := lt_of_le_of_ne (p.nonneg x) (Ne.symm hx)
  have hle : spill p q ≤ 1 := by
    have hprod : 0 ≤ (1 - spill p q) * p.weight x := by
      rw [← hweight x hxpos]
      exact q.nonneg x
    linarith [nonneg_of_mul_nonneg_left hprod hxpos]
  rcases eq_or_lt_of_le hnonneg with hzero | hpos
  · -- nothing is ever replaced: the draft is the target
    have hterms := (Finset.sum_eq_zero_iff_of_nonneg
      fun v _ => spill_term_nonneg p q v).1 hzero.symm
    have hsame : ∀ v, q.weight v = p.weight v := by
      intro v
      by_cases hv : p.weight v = 0
      · have hterm := hterms v (Finset.mem_univ v)
        rw [excess_of_ge (by rw [hv]; exact q.nonneg v), hv, sub_zero, sub_zero, div_one] at hterm
        rw [hterm, hv]
      · rw [hweight v (lt_of_le_of_ne (p.nonneg v) (Ne.symm hv)), ← hzero, sub_zero, one_mul]
    refine ⟨0, le_refl 0, zero_le_one, Pmf.sure x, ?_, .inl ⟨x, if_pos rfl⟩⟩
    intro v
    rw [hsame v]
    ring
  · refine ⟨spill p q, hnonneg, hle, offTarget p q hq hpos, ?_, .inr ?_⟩
    · intro v
      show _ = _ + spill p q * (if p.weight v = 0 then q.weight v / spill p q else 0)
      by_cases hv : p.weight v = 0
      · rw [if_pos hv, hv, mul_div_cancel₀ _ (ne_of_gt hpos)]
        ring
      · rw [if_neg hv, hweight v (lt_of_le_of_ne (p.nonneg v) (Ne.symm hv))]
        ring
    · intro v hv
      exact if_neg hv

theorem emission_of_mix_sure (ht : 0 ≤ t)
    (hmix : ∀ v, q.weight v = (1 - t) * p.weight v + t * other.weight v)
    (hx : other.weight x = 1) (v : Fin vocab) : emission p q v = p.weight v := by
  have hle : ∀ u, u ≠ x → q.weight u ≤ p.weight u := by
    intro u hu
    rw [hmix, weight_eq_zero_of_sure hx hu]
    nlinarith [p.nonneg u]
  have hge : p.weight x ≤ q.weight x := by
    rw [hmix, hx]
    nlinarith [weight_le_one p x]
  have hexcess : excess p q x = t * (1 - p.weight x) := by
    rw [excess_of_ge hge, hmix, hx]
    ring
  have hspill : spill p q = excess p q x / (1 - p.weight x) := by
    rw [spill, Finset.sum_eq_single x]
    · intro u _ hu
      rw [excess_of_le (hle u hu), zero_div]
    · exact fun h => absurd (Finset.mem_univ x) h
  rw [emission_eq, hspill]
  by_cases hv : v = x
  · rw [hv, min_eq_left hge]
    ring
  · rw [min_eq_right (hle v hv), excess_of_le (hle v hv), zero_div, sub_zero, hmix,
      weight_eq_zero_of_sure hx hv, hexcess]
    rcases eq_or_lt_of_le (weight_le_one p x) with hone | hless
    · rw [weight_eq_zero_of_sure hone hv]
      ring
    · rw [mul_div_cancel_right₀ _ (ne_of_gt (sub_pos.2 hless))]
      ring

theorem emission_of_mix_off (ht : 0 ≤ t)
    (hmix : ∀ v, q.weight v = (1 - t) * p.weight v + t * other.weight v)
    (hoff : ∀ v, p.weight v ≠ 0 → other.weight v = 0) (v : Fin vocab) :
    emission p q v = p.weight v := by
  have hle : ∀ u, p.weight u ≠ 0 → q.weight u ≤ p.weight u := by
    intro u hu
    rw [hmix, hoff u hu]
    nlinarith [p.nonneg u]
  have hterm : ∀ u, excess p q u / (1 - p.weight u) = t * other.weight u := by
    intro u
    by_cases hu : p.weight u = 0
    · rw [excess_of_ge (by rw [hu]; exact q.nonneg u), hmix, hu]
      ring
    · rw [excess_of_le (hle u hu), zero_div, hoff u hu, mul_zero]
  have hspill : spill p q = t := by
    rw [spill, Finset.sum_congr rfl fun u _ => hterm u, ← Finset.mul_sum, other.total, mul_one]
  rw [emission_eq, hspill, hterm]
  by_cases hv : p.weight v = 0
  · rw [hv, min_eq_left (q.nonneg v), zero_mul, add_zero]
  · rw [min_eq_right (hle v hv), hmix, hoff v hv]
    ring

theorem emission_eq_target_iff :
    (∀ v, emission p q v = p.weight v) ↔ PreservesTarget p q := by
  constructor
  · intro h
    by_cases hfavoured : ∃ x, 0 < p.weight x ∧ p.weight x < q.weight x
    · obtain ⟨x, hpos, hlt⟩ := hfavoured
      exact preservesTarget_of_favoured h hpos hlt
    · refine preservesTarget_of_not_favoured h fun v hv => ?_
      exact not_lt.1 fun hlt => hfavoured ⟨v, hv, hlt⟩
  · rintro ⟨t, ht, -, other, hmix, ⟨x, hx⟩ | hoff⟩ v
    · exact emission_of_mix_sure ht hmix hx v
    · exact emission_of_mix_off ht hmix hoff v

end Exact

theorem preservesTarget_sure (x : Fin vocab) : PreservesTarget p (Pmf.sure x) := by
  refine ⟨1, zero_le_one, le_refl 1, Pmf.sure x, fun v => ?_, .inl ⟨x, if_pos rfl⟩⟩
  rw [sub_self, zero_mul, zero_add, one_mul]

end CompileForge.PythonRuntime.Speculative
