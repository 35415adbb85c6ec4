/-
  Rounding to the nearest integer, ties to the even one, and the symmetric quantizer on it:
  a list is divided by a scale, rounded, and multiplied by the scale again.
-/

import Mathlib.Algebra.Order.Round

namespace CompileForge.Lib

open List

variable {R : Type*} [Field R] [LinearOrder R]

def roundHalfEven [FloorRing R] (x : R) : ℤ :=
  let below := ⌊x⌋
  if x - below < 1 / 2 then below
  else if 1 / 2 < x - below then below + 1
  else if below % 2 = 0 then below else below + 1

section Round

variable [IsStrictOrderedRing R] [FloorRing R] {x : R}

theorem abs_roundHalfEven_sub_le (x : R) : |(roundHalfEven x : R) - x| ≤ 1 / 2 := by
  have hle := Int.floor_le x
  have hlt := Int.lt_floor_add_one x
  rw [roundHalfEven, abs_le]
  split_ifs <;> push_cast <;> constructor <;> linarith

theorem roundHalfEven_intCast (n : ℤ) : roundHalfEven (n : R) = n := by
  rw [roundHalfEven, Int.floor_intCast, sub_self, if_pos (by norm_num)]

theorem roundHalfEven_le {n : ℤ} (h : x ≤ n) : roundHalfEven x ≤ n := by
  have hclose := (abs_le.1 (abs_roundHalfEven_sub_le x)).2
  have hlt : (roundHalfEven x : R) < (n + 1 : ℤ) := by push_cast; linarith
  exact Int.lt_add_one_iff.1 (Int.cast_lt.1 hlt)

theorem le_roundHalfEven {n : ℤ} (h : n ≤ x) : n ≤ roundHalfEven x := by
  have hclose := (abs_le.1 (abs_roundHalfEven_sub_le x)).1
  have hlt : ((n - 1 : ℤ) : R) < roundHalfEven x := by push_cast; linarith
  exact Int.sub_one_lt_iff.1 (Int.cast_lt.1 hlt)

theorem abs_roundHalfEven_le {n : ℤ} (h : |x| ≤ n) : |roundHalfEven x| ≤ n := by
  obtain ⟨hlow, hhigh⟩ := abs_le.1 h
  refine abs_le.2 ⟨le_roundHalfEven ?_, roundHalfEven_le hhigh⟩
  rwa [Int.cast_neg]

end Round

/-! ## The largest absolute value -/

/-- 0 for no entries. -/
def absMax (l : List R) : R := (l.map abs).foldr max 0

section AbsMax

variable {l : List R} {x b : R}

@[simp] theorem absMax_cons (x : R) (l : List R) : absMax (x :: l) = max |x| (absMax l) := rfl

theorem absMax_nonneg (l : List R) : 0 ≤ absMax l := by
  induction l with
  | nil => exact le_rfl
  | cons x l ih => exact ih.trans (le_max_right _ _)

theorem le_absMax (h : x ∈ l) : |x| ≤ absMax l := by
  induction l with
  | nil => cases h
  | cons y l ih =>
    rcases mem_cons.1 h with rfl | h
    · exact le_max_left _ _
    · exact (ih h).trans (le_max_right _ _)

theorem absMax_le (hb : 0 ≤ b) (h : ∀ x ∈ l, |x| ≤ b) : absMax l ≤ b := by
  induction l with
  | nil => exact hb
  | cons y l ih =>
    exact max_le (h y mem_cons_self) (ih fun x hx => h x (mem_cons_of_mem _ hx))

theorem exists_absMax (h : absMax l ≠ 0) : ∃ x ∈ l, |x| = absMax l := by
  induction l with
  | nil => exact absurd rfl h
  | cons y l ih =>
    rw [absMax_cons] at h ⊢
    rcases le_total (absMax l) |y| with hle | hle
    · exact ⟨y, mem_cons_self, (max_eq_left hle).symm⟩
    · rw [max_eq_right hle] at h ⊢
      obtain ⟨x, hx, heq⟩ := ih h
      exact ⟨x, mem_cons_of_mem _ hx, heq⟩

end AbsMax

/-! ## The symmetric quantizer -/

/-- The scale that maps the largest absolute value to the level `n`, at least `eps`. -/
def symScale (n eps : R) (l : List R) : R := max (absMax l / n) eps

/-- The level of a number. -/
def quant [FloorRing R] (s x : R) : ℤ := roundHalfEven (x / s)

section Quantizer

variable [IsStrictOrderedRing R] {eps s x : R} {n : ℕ} {l : List R}

omit [IsStrictOrderedRing R] in
theorem symScale_pos (n : R) (heps : 0 < eps) (l : List R) : 0 < symScale n eps l :=
  heps.trans_le (le_max_right _ _)

theorem abs_le_mul_symScale (hn : 0 < n) (h : x ∈ l) : |x| ≤ n * symScale (n : R) eps l := by
  have hpos : (0 : R) < n := by exact_mod_cast hn
  have hle : absMax l / n ≤ symScale (n : R) eps l := le_max_left _ _
  rw [div_le_iff₀ hpos] at hle
  linarith [le_absMax h]

variable [FloorRing R]

@[simp] theorem quant_zero (s : R) : quant s 0 = 0 := by
  rw [quant, zero_div]
  exact_mod_cast roundHalfEven_intCast (R := R) 0

theorem quant_mul (hs : s ≠ 0) (k : ℤ) : quant s (k * s) = k := by
  rw [quant, mul_div_cancel_right₀ _ hs, roundHalfEven_intCast]

theorem abs_dequant_sub_le (hs : 0 < s) (x : R) : |quant s x * s - x| ≤ s / 2 := by
  have hclose := abs_roundHalfEven_sub_le (x / s)
  have hsplit : quant s x * s - x = (roundHalfEven (x / s) - x / s) * s := by
    rw [quant]
    field_simp
  rw [hsplit, abs_mul, abs_of_pos hs]
  nlinarith

theorem abs_quant_le (hn : 0 < n) (heps : 0 < eps) (h : x ∈ l) :
    |quant (symScale (n : R) eps l) x| ≤ n := by
  have hs := symScale_pos (n : R) heps l
  refine abs_roundHalfEven_le ?_
  rw [abs_div, abs_of_pos hs, div_le_iff₀ hs]
  exact_mod_cast abs_le_mul_symScale hn h

theorem symScale_dequant (hn : 0 < n) (heps : 0 < eps) (l : List R) :
    symScale (n : R) eps (l.map fun x => (quant (symScale (n : R) eps l) x : R) *
      symScale (n : R) eps l) = symScale (n : R) eps l := by
  have hpos : (0 : R) < n := by exact_mod_cast hn
  have hs := symScale_pos (n : R) heps l
  -- the entries stay within the largest level
  have hle : absMax (l.map fun x => (quant (symScale (n : R) eps l) x : R) *
      symScale (n : R) eps l) ≤ n * symScale (n : R) eps l := by
    refine absMax_le (mul_nonneg hpos.le hs.le) fun y hy => ?_
    obtain ⟨x, hx, rfl⟩ := mem_map.1 hy
    have hlevel : |(quant (symScale (n : R) eps l) x : R)| ≤ n := by
      exact_mod_cast abs_quant_le hn heps hx
    rw [abs_mul, abs_of_pos hs]
    exact mul_le_mul_of_nonneg_right hlevel hs.le
  refine le_antisymm (max_le ?_ (le_max_right _ _)) ?_
  · rw [div_le_iff₀ hpos, mul_comm]
    exact hle
  · rcases le_total (absMax l / n) eps with hsmall | hlarge
    · rw [symScale, max_eq_right hsmall]
      exact le_max_right _ _
    · -- the largest entry has the level `n` or `-n`, so it is met again
      have hscale : symScale (n : R) eps l = absMax l / n := max_eq_left hlarge
      have hmax : absMax l = n * symScale (n : R) eps l := by
        rw [hscale]
        field_simp
      have hne : absMax l ≠ 0 := by
        rw [hmax]
        exact mul_ne_zero hpos.ne' hs.ne'
      obtain ⟨x, hx, habs⟩ := exists_absMax hne
      have hexact : (quant (symScale (n : R) eps l) x : R) * symScale (n : R) eps l = x := by
        rcases abs_choice x with h | h
        · have hx : x = (n : ℤ) * symScale (n : R) eps l := by
            rw [← h, habs, Int.cast_natCast]
            exact hmax
          rw [hx, quant_mul hs.ne']
        · have hx : x = (-n : ℤ) * symScale (n : R) eps l := by
            rw [← neg_neg x, ← h, habs, Int.cast_neg, Int.cast_natCast, neg_mul]
            exact congrArg _ hmax
          rw [hx, quant_mul hs.ne']
      have hmem : x ∈ l.map fun x => (quant (symScale (n : R) eps l) x : R) *
          symScale (n : R) eps l := mem_map.2 ⟨x, hx, hexact⟩
      refine le_trans ?_ (le_max_left _ _)
      rw [le_div_iff₀ hpos, mul_comm, ← hmax, ← habs]
      exact le_absMax hmem

end Quantizer

end CompileForge.Lib
