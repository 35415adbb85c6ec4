/-
  Floating point without rounding: the numbers of an ordered field with the infinities and NaN.
-/

import CompileForge.Lib.Rounding

namespace CompileForge.Lib

/-- A zero has no sign: the divisors are not negative here, and neither is a zero among them. -/
inductive ExactFloat (R : Type*) where
  | fin (x : R)
  | inf (negative : Bool)
  | nan
deriving DecidableEq

/-- Powers of numbers that are not negative, with exponents that are not. -/
structure Powers (R : Type*) [Zero R] [One R] [LT R] where
  pow : R → R → R
  pow_pos : ∀ x p, 0 < x → 0 < pow x p
  zero_pow_zero : pow 0 0 = 1
  zero_pow : ∀ p, 0 < p → pow 0 p = 0

namespace ExactFloat

section Defs

variable {R : Type*} [Field R] [LinearOrder R]

instance : Inhabited (ExactFloat R) := ⟨nan⟩

def abs : ExactFloat R → ExactFloat R
  | fin x => fin |x|
  | inf _ => inf false
  | nan => nan

/-- `x * y`; an infinity times zero is NaN. -/
def mul : ExactFloat R → ExactFloat R → ExactFloat R
  | fin x, fin y => fin (x * y)
  | fin x, inf s => if x = 0 then nan else inf (s != decide (x < 0))
  | inf s, fin x => if x = 0 then nan else inf (s != decide (x < 0))
  | inf s, inf t => inf (s != t)
  | _, _ => nan

instance : Mul (ExactFloat R) := ⟨mul⟩

/-- `x / y`. -/
def div : ExactFloat R → ExactFloat R → ExactFloat R
  | fin x, fin y =>
    if y ≠ 0 then fin (x / y) else if x = 0 then nan else inf (decide (x < 0))
  | fin _, inf _ => fin 0
  | inf s, fin y => inf (s != decide (y < 0))
  | _, _ => nan

/-- The larger one; NaN if one is. -/
def maximum : ExactFloat R → ExactFloat R → ExactFloat R
  | fin x, fin y => fin (max x y)
  | nan, _ | _, nan => nan
  | inf false, _ | _, inf false => inf false
  | inf true, y => y
  | x, inf true => x

/-- `x + y`; the two infinities have no sum. -/
def add : ExactFloat R → ExactFloat R → ExactFloat R
  | fin x, fin y => fin (x + y)
  | inf s, inf t => if s = t then inf s else nan
  | nan, _ | _, nan => nan
  | inf s, _ | _, inf s => inf s

variable (x : ExactFloat R)

def sub : ExactFloat R → ExactFloat R
  | fin y => add x (fin (-y))
  | inf s => add x (inf !s)
  | nan => nan

def sum (l : List (ExactFloat R)) : ExactFloat R := l.foldl add (fin 0)

/-- The largest of some values, from below all of them. -/
def maximumOf (l : List (ExactFloat R)) : ExactFloat R := l.foldl maximum (inf true)

/-- `exp`, by its values at numbers. -/
def exp (e : R → R) : ExactFloat R → ExactFloat R
  | fin x => fin (e x)
  | inf true => fin 0
  | inf false => inf false
  | nan => nan

/-- A maximum keeps a NaN. -/
def clampMin (low : R) (x : ExactFloat R) : ExactFloat R := maximum (fin low) x

/-- `pow`, of values that are not negative. -/
def pow (powers : Powers R) (x : ExactFloat R) (p : R) : ExactFloat R :=
  match x with
  | fin x => fin (powers.pow x p)
  | inf _ => if p = 0 then fin 1 else inf false
  | nan => if p = 0 then fin 1 else nan

def absAmax : List (ExactFloat R) → Option (ExactFloat R)
  | [] => none
  | x :: xs => some (xs.foldl (fun m y => maximum m y.abs) x.abs)

def toNumber : ExactFloat R → R
  | fin x => x
  | inf _ | nan => 0

def IsFinite : Prop := x = fin x.toNumber

instance : Decidable x.IsFinite := inferInstanceAs (Decidable (_ = _))

end Defs

section Finite

variable {R : Type*} [Field R] [LinearOrder R] {x y : R}

omit [Field R] [LinearOrder R] in
theorem fin_injective : Function.Injective (fin : R → ExactFloat R) := fun _ _ => fin.inj

@[simp] theorem abs_fin (x : R) : (fin x).abs = fin |x| := rfl

@[simp] theorem fin_mul_fin (x y : R) : fin x * fin y = fin (x * y) := rfl

omit [Field R] in
@[simp] theorem maximum_fin (x y : R) : maximum (fin x) (fin y) = fin (max x y) := rfl

omit [Field R] in
@[simp] theorem clampMin_fin (low x : R) : clampMin low (fin x) = fin (max low x) := rfl

section

omit [LinearOrder R]

@[simp] theorem toNumber_fin (x : R) : (fin x).toNumber = x := rfl

theorem isFinite_fin (x : R) : (fin x).IsFinite := rfl

end

theorem div_fin (hy : y ≠ 0) : div (fin x) (fin y) = fin (x / y) := if_pos hy

theorem clampMin_div_eq_fin_iff {low z : R} (hx : 0 ≤ x) :
    clampMin low (div (fin x) (fin y)) = fin z ↔ y ≠ 0 ∧ max low (x / y) = z := by
  by_cases hy : y = 0
  · have hdiv : div (fin x) (fin y) = if x = 0 then nan else inf false := by
      rw [div, if_neg (not_not_intro hy), decide_eq_false (not_lt_of_ge hx)]
    rw [hdiv]
    constructor
    · intro h
      split at h <;> cases h
    · exact fun h => absurd hy h.1
  · rw [div_fin hy, clampMin_fin]
    exact ⟨fun h => ⟨hy, fin.inj h⟩, fun h => congrArg fin h.2⟩

omit [LinearOrder R] in
theorem exists_map_fin {l : List (ExactFloat R)} (h : ∀ v ∈ l, ∃ x : R, v = fin x) :
    l = (l.map toNumber).map fin := by
  rw [List.map_map]
  conv_lhs => rw [← List.map_id l]
  refine List.map_congr_left fun v hv => ?_
  obtain ⟨x, rfl⟩ := h v hv
  rfl

theorem absAmax_fin [IsStrictOrderedRing R] {l : List R} (hl : l ≠ []) :
    absAmax (l.map fin) = some (fin (absMax l)) := by
  have hfold : ∀ (xs : List R) (m : R), 0 ≤ m →
      (xs.map fin).foldl (fun m y => maximum m y.abs) (fin m) = fin (max m (absMax xs)) := by
    intro xs
    induction xs with
    | nil => exact fun m hm => congrArg fin (max_eq_left hm).symm
    | cons x xs ih =>
      intro m hm
      rw [List.map_cons, List.foldl_cons, abs_fin, maximum_fin,
        ih _ (hm.trans (le_max_left _ _)), absMax_cons, max_assoc]
  obtain ⟨x, xs, rfl⟩ := List.exists_cons_of_ne_nil hl
  rw [List.map_cons, absAmax, abs_fin, hfold xs _ (abs_nonneg x), absMax_cons]

end Finite

end ExactFloat

theorem Powers.pow_nonneg {R : Type*} [Field R] [LinearOrder R] [IsStrictOrderedRing R]
    (powers : Powers R) {x p : R} (hx : 0 ≤ x) (hp : 0 ≤ p) : 0 ≤ powers.pow x p := by
  rcases hx.eq_or_lt with rfl | hx
  · rcases hp.eq_or_lt with rfl | hp
    · exact powers.zero_pow_zero ▸ zero_le_one
    · exact (powers.zero_pow p hp).ge
  · exact (powers.pow_pos x p hx).le

theorem Powers.pow_ne_zero_iff {R : Type*} [Field R] [LinearOrder R] [IsStrictOrderedRing R]
    (powers : Powers R) {x p : R} (hx : 0 ≤ x) (hp : 0 ≤ p) :
    powers.pow x p ≠ 0 ↔ p = 0 ∨ x ≠ 0 := by
  rcases hx.eq_or_lt with rfl | hx
  · rcases hp.eq_or_lt with rfl | hp
    · simp [powers.zero_pow_zero]
    · simp [powers.zero_pow p hp, hp.ne']
  · simp [(powers.pow_pos x p hx).ne', hx.ne']

end CompileForge.Lib
