/-
  Binary interchange formats: what a pattern of sign, exponent and fraction bits
  stands for, and when two formats read one pattern alike.
-/

import Mathlib.Algebra.Order.Field.Power
import Mathlib.Tactic.NormNum
import Mathlib.Tactic.Ring

namespace CompileForge.Lib

/-- The widths of exponent and fraction. -/
structure FloatFormat where
  exponentBits : Nat
  fractionBits : Nat

/-- What a pattern stands for.  A zero keeps its sign, a NaN keeps nothing. -/
inductive FloatValue where
  | nan
  | infinite (negative : Bool)
  | finite (negative : Bool) (magnitude : ℚ)
deriving DecidableEq

def FloatValue.ofInt (z : Int) : FloatValue := .finite (decide (z < 0)) z.natAbs

namespace FloatFormat

variable (f : FloatFormat) (bits : Nat)

def fraction : Nat := bits % 2 ^ f.fractionBits

def exponent : Nat :=
  bits / 2 ^ f.fractionBits % 2 ^ f.exponentBits

def negative : Bool :=
  decide (bits / 2 ^ f.fractionBits / 2 ^ f.exponentBits % 2 = 1)

def bias : Nat := 2 ^ (f.exponentBits - 1) - 1

def unitExponent : Int := 1 - f.bias - f.fractionBits

/-- A finite magnitude is a number of units of the least subnormal, so that two formats are
    compared by natural numbers. -/
def units : Nat :=
  if f.exponent bits = 0 then f.fraction bits
  else (2 ^ f.fractionBits + f.fraction bits) * 2 ^ (f.exponent bits - 1)

def magnitude : ℚ := f.units bits * 2 ^ f.unitExponent

def value : FloatValue :=
  if f.exponent bits = 2 ^ f.exponentBits - 1 then
    if f.fraction bits = 0 then .infinite (f.negative bits) else .nan
  else .finite (f.negative bits) (f.magnitude bits)

def widen (k : Nat) : FloatFormat := ⟨f.exponentBits, f.fractionBits + k⟩

section Widen

variable (f : FloatFormat) (k bits : Nat)

theorem fraction_widen : (f.widen k).fraction (bits * 2 ^ k) = f.fraction bits * 2 ^ k := by
  simp only [fraction, widen, pow_add, Nat.mul_mod_mul_right]

theorem exponent_widen : (f.widen k).exponent (bits * 2 ^ k) = f.exponent bits := by
  simp only [exponent, widen, pow_add, Nat.mul_div_mul_right _ _ (Nat.two_pow_pos k)]

theorem negative_widen : (f.widen k).negative (bits * 2 ^ k) = f.negative bits := by
  simp only [negative, widen, pow_add, Nat.mul_div_mul_right _ _ (Nat.two_pow_pos k)]

theorem units_widen : (f.widen k).units (bits * 2 ^ k) = f.units bits * 2 ^ k := by
  rw [units, units, exponent_widen, fraction_widen]
  split
  · rfl
  · simp only [widen]
    ring

theorem magnitude_widen : (f.widen k).magnitude (bits * 2 ^ k) = f.magnitude bits := by
  have hexp : f.unitExponent = k + (f.widen k).unitExponent := by
    simp only [unitExponent, widen, bias]
    push_cast
    ring
  rw [magnitude, magnitude, units_widen, hexp, zpow_add₀ (by norm_num)]
  push_cast
  rw [zpow_natCast]
  ring

theorem value_widen : (f.widen k).value (bits * 2 ^ k) = f.value bits := by
  have hzero : f.fraction bits * 2 ^ k = 0 ↔ f.fraction bits = 0 := by
    rw [Nat.mul_eq_zero]
    exact or_iff_left (Nat.two_pow_pos k).ne'
  simp only [value, exponent_widen, fraction_widen, negative_widen, magnitude_widen, hzero]
  rfl

end Widen

/-! ## Two formats -/

theorem magnitude_eq_iff (f g : FloatFormat) {d : Nat} (h : f.unitExponent = g.unitExponent + d)
    (a b : Nat) : f.magnitude a = g.magnitude b ↔ f.units a * 2 ^ d = g.units b := by
  have hpos : (2 : ℚ) ^ g.unitExponent ≠ 0 := zpow_ne_zero _ (by norm_num)
  have hshift : f.magnitude a = (f.units a * 2 ^ d : ℚ) * 2 ^ g.unitExponent := by
    rw [magnitude, h, zpow_add₀ (by norm_num), zpow_natCast]
    ring
  rw [hshift, magnitude, mul_left_inj' hpos]
  exact_mod_cast Iff.rfl

end FloatFormat

def binary16 : FloatFormat := ⟨5, 10⟩
def bfloat16 : FloatFormat := ⟨8, 7⟩
def binary32 : FloatFormat := ⟨8, 23⟩

theorem value_bfloat16 (h : Nat) : binary32.value (h * 2 ^ 16) = bfloat16.value h :=
  FloatFormat.value_widen bfloat16 16 h

/-! ## One pattern in both half formats -/

/-- A zero, a two or a NaN of `bfloat16`. -/
def CommonPattern (h : Nat) : Prop :=
  h % 2 ^ 15 = 0 ∨ h % 2 ^ 15 = 2 ^ 14 ∨ 0x7f80 < h % 2 ^ 15
deriving Decidable

theorem significand_eq_iff {e t c : Nat} (he : 0 < e) (ht : t < 8) (hc : c < 128) :
    (1024 + (128 * t + c)) * 2 ^ (e - 1) * 2 ^ 109 = (128 + c) * 2 ^ (8 * e + t - 1) ↔
      e = 16 ∧ t = 0 ∧ c = 0 := by
  constructor
  · intro h
    rcases Nat.lt_or_ge (e + 108) (8 * e + t - 1) with hlt | hge
    · -- cancel the smaller power
      obtain ⟨k, hk⟩ := Nat.exists_eq_add_of_lt hlt
      have hcancel : 1024 + (128 * t + c) = (128 + c) * 2 ^ (k + 1) := by
        rw [mul_assoc, ← pow_add, show e - 1 + 109 = e + 108 by omega, hk,
          show e + 108 + k + 1 = k + 1 + (e + 108) by omega, pow_add _ (k + 1), ← mul_assoc] at h
        exact Nat.eq_of_mul_eq_mul_right (Nat.two_pow_pos _) h
      -- only a factor of eight brings `128 + c` into the range of the other side
      rcases Nat.lt_or_ge k 3 with hsmall | hlarge
      · have hcases : k = 0 ∨ k = 1 ∨ k = 2 := by omega
        rcases hcases with rfl | rfl | rfl <;> omega
      · have hpow : 2 ^ 4 ≤ 2 ^ (k + 1) := Nat.pow_le_pow_right (by omega) (by omega)
        have := Nat.mul_le_mul (show 128 ≤ 128 + c by omega) hpow
        omega
    · obtain ⟨k, hk⟩ := Nat.exists_eq_add_of_le hge
      have hcancel : (1024 + (128 * t + c)) * 2 ^ k = 128 + c := by
        rw [mul_assoc, ← pow_add, show e - 1 + 109 = e + 108 by omega, hk,
          show 8 * e + t - 1 + k = k + (8 * e + t - 1) by omega, pow_add _ k, ← mul_assoc] at h
        exact Nat.eq_of_mul_eq_mul_right (Nat.two_pow_pos _) h
      have := Nat.mul_le_mul_left (1024 + (128 * t + c)) (Nat.one_le_two_pow (n := k))
      omega
  · rintro ⟨rfl, rfl, rfl⟩
    norm_num

theorem units_half_eq_iff {h : Nat} (hfinite : h % 2 ^ 15 < 0x7c00) :
    binary16.units h * 2 ^ 109 = bfloat16.units h ↔ h % 2 ^ 15 = 0 ∨ h % 2 ^ 15 = 2 ^ 14 := by
  have hhalf : binary16.units h = if h / 1024 % 32 = 0 then h % 1024
      else (1024 + h % 1024) * 2 ^ (h / 1024 % 32 - 1) := rfl
  have hbrain : bfloat16.units h = if h / 128 % 256 = 0 then h % 128
      else (128 + h % 128) * 2 ^ (h / 128 % 256 - 1) := rfl
  rw [hhalf, hbrain]
  rcases Nat.eq_zero_or_pos (h / 1024 % 32) with he | he
  · -- a subnormal of `binary16` is far above what `bfloat16` reads
    have hle : (if h / 128 % 256 = 0 then h % 128 else (128 + h % 128) * 2 ^ (h / 128 % 256 - 1)) ≤
        255 * 2 ^ 6 := by
      split
      · omega
      · exact Nat.mul_le_mul (by omega) (Nat.pow_le_pow_right (by omega) (by omega))
    rw [if_pos he]
    rcases Nat.eq_zero_or_pos (h % 1024) with hm | hm
    · rw [hm, if_pos (by omega)]
      omega
    · have := Nat.mul_le_mul_right (2 ^ 109) hm
      omega
  · rw [if_neg he.ne', if_neg (by omega)]
    have hfraction : h % 1024 = 128 * (h / 128 % 8) + h % 128 := by omega
    have hexponent : h / 128 % 256 = 8 * (h / 1024 % 32) + h / 128 % 8 := by omega
    rw [hfraction, hexponent,
      significand_eq_iff he (Nat.mod_lt _ (by omega)) (Nat.mod_lt _ (by omega))]
    omega

theorem value_half_eq_iff (h : Nat) :
    binary16.value h = bfloat16.value h ↔ CommonPattern h := by
  have hsign : binary16.negative h = bfloat16.negative h := by
    simp only [FloatFormat.negative, binary16, bfloat16, Nat.div_div_eq_div_mul]
    rfl
  have hhalf : binary16.value h = if h / 1024 % 32 = 31 then
      if h % 1024 = 0 then .infinite (binary16.negative h) else .nan
      else .finite (binary16.negative h) (binary16.magnitude h) := rfl
  have hbrain : bfloat16.value h = if h / 128 % 256 = 255 then
      if h % 128 = 0 then .infinite (bfloat16.negative h) else .nan
      else .finite (bfloat16.negative h) (bfloat16.magnitude h) := rfl
  have hscale : binary16.unitExponent = bfloat16.unitExponent + (109 : Nat) := by decide
  rw [hhalf, hbrain, hsign]
  unfold CommonPattern
  by_cases he : h / 1024 % 32 = 31
  · rw [if_pos he]
    by_cases hb : h / 128 % 256 = 255
    · -- the top three bits of the fraction are set
      rw [if_pos hb, if_neg (by omega)]
      by_cases hm : h % 128 = 0
      · rw [if_pos hm]
        exact iff_of_false nofun (by omega)
      · rw [if_neg hm]
        exact iff_of_true rfl (by omega)
    · rw [if_neg hb]
      refine iff_of_false (fun heq => ?_) (by omega)
      split at heq <;> exact absurd heq nofun
  · rw [if_neg he, if_neg (by omega)]
    have hfinite : h % 2 ^ 15 < 0x7c00 := by omega
    rw [FloatValue.finite.injEq, FloatFormat.magnitude_eq_iff _ _ hscale,
      units_half_eq_iff hfinite, and_iff_right rfl]
    omega

end CompileForge.Lib
