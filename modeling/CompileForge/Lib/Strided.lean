/-
  Row-major arrays of any rank: the coordinates of a shape, the place of a coordinate in the
  flat array, and how shapes broadcast against each other.
-/

import Mathlib.Algebra.Group.Nat.Defs
import Mathlib.Data.List.Forall2

namespace CompileForge.Lib

open List

/-- A coordinate of the shape. -/
def InShape (s c : List Nat) : Prop := Forall₂ (· < ·) c s

/-- The place of a coordinate in the flat array. -/
def offset : List Nat → List Nat → Nat
  | _ :: s, x :: c => x * s.prod + offset s c
  | _, _ => 0

/-- The way back from a place to its coordinate. -/
def coordOf : List Nat → Nat → List Nat
  | [], _ => []
  | _ :: s, i => i / s.prod :: coordOf s (i % s.prod)

section

variable {s c : List Nat} {d x i : Nat}

@[simp] theorem offset_nil : offset [] c = 0 := by
  cases c <;> rfl

@[simp] theorem offset_cons : offset (d :: s) (x :: c) = x * s.prod + offset s c := rfl

theorem InShape.length_eq (h : InShape s c) : c.length = s.length := List.Forall₂.length_eq h

theorem offset_lt (h : InShape s c) : offset s c < s.prod := by
  induction h with
  | nil => exact Nat.one_pos
  | @cons x d c s hx _ ih =>
    rw [offset_cons, prod_cons]
    have hrow : (x + 1) * s.prod ≤ d * s.prod := Nat.mul_le_mul_right _ hx
    rw [Nat.add_mul, Nat.one_mul] at hrow
    omega

theorem inShape_coordOf (h : i < s.prod) : InShape s (coordOf s i) := by
  induction s generalizing i with
  | nil => exact .nil
  | cons d s ih =>
    rw [prod_cons] at h
    have hpos : 0 < s.prod := by
      refine Nat.pos_of_ne_zero fun hzero => ?_
      rw [hzero, Nat.mul_zero] at h
      omega
    exact .cons ((Nat.div_lt_iff_lt_mul hpos).2 h) (ih (Nat.mod_lt i hpos))

theorem offset_coordOf (h : i < s.prod) : offset s (coordOf s i) = i := by
  induction s generalizing i with
  | nil =>
    rw [prod_nil] at h
    rw [offset_nil]
    omega
  | cons d s ih =>
    rw [prod_cons] at h
    have hpos : 0 < s.prod := by
      refine Nat.pos_of_ne_zero fun hzero => ?_
      rw [hzero, Nat.mul_zero] at h
      omega
    rw [coordOf, offset_cons, ih (Nat.mod_lt i hpos), mul_comm]
    exact Nat.div_add_mod i s.prod

theorem offset_cons_div_mod (h : InShape s c) :
    offset (d :: s) (x :: c) / s.prod = x ∧ offset (d :: s) (x :: c) % s.prod = offset s c := by
  have hlt := offset_lt h
  have hpos : 0 < s.prod := by omega
  rw [offset_cons, mul_comm]
  constructor
  · rw [Nat.mul_add_div hpos, Nat.div_eq_of_lt hlt, add_zero]
  · rw [Nat.mul_add_mod, Nat.mod_eq_of_lt hlt]

end

/-! ## Broadcasting -/

/-- A shape with ones in front, up to the rank `n`. -/
def padShape (n : Nat) (s : List Nat) : List Nat := replicate (n - s.length) 1 ++ s

/-- Two dims are equal, or one of them is one. -/
def Compatible (da db : Nat) : Prop := da = db ∨ da = 1 ∨ db = 1

/-- The dim that is not one. -/
def stretched (da db : Nat) : Nat := if da = 1 then db else da

/-- The dims stretch against each other, counted from the last. -/
def Broadcastable (a b : List Nat) : Prop :=
  Forall₂ Compatible
    (padShape (max a.length b.length) a) (padShape (max a.length b.length) b)

/-- NumPy's rule: ones in front of the lower rank, then dim by dim. -/
def broadcast (a b : List Nat) : List Nat :=
  zipWith stretched
    (padShape (max a.length b.length) a) (padShape (max a.length b.length) b)

/-- The coordinate of `s` that a coordinate of a broadcast shape reads. -/
def restrict (s c : List Nat) : List Nat :=
  zipWith (fun x d => min x (d - 1)) (c.drop (c.length - s.length)) s

@[simp] theorem length_padShape (n : Nat) (s : List Nat) :
    (padShape n s).length = max n s.length := by
  rw [padShape, length_append, length_replicate]
  omega

theorem length_broadcast (a b : List Nat) :
    (broadcast a b).length = max a.length b.length := by
  rw [broadcast, length_zipWith, length_padShape, length_padShape]
  omega

/-- A shape that is read at the coordinates of another: each dim is one or the other's. -/
def StretchesTo (a s : List Nat) : Prop :=
  a.length ≤ s.length ∧ Forall₂ (fun d n => d = 1 ∨ d = n) a (s.drop (s.length - a.length))

section

variable {a b s c : List Nat} {n : Nat}

theorem drop_padShape (n : Nat) (s : List Nat) : (padShape n s).drop (n - s.length) = s :=
  drop_left' (length_replicate ..)

variable {pa pb e : List Nat}

theorem stretches_zipWith (h : Forall₂ Compatible pa pb) :
    Forall₂ (fun d n => d = 1 ∨ d = n) pa (zipWith stretched pa pb) ∧
      Forall₂ (fun d n => d = 1 ∨ d = n) pb (zipWith stretched pa pb) := by
  induction h with
  | nil => exact ⟨.nil, .nil⟩
  | @cons da db pa pb hd _ ih =>
    rw [zipWith_cons_cons, stretched]
    by_cases hone : da = 1
    · rw [if_pos hone]
      exact ⟨.cons (.inl hone) ih.1, .cons (.inr rfl) ih.2⟩
    · rw [if_neg hone]
      refine ⟨.cons (.inr rfl) ih.1, .cons ?_ ih.2⟩
      rcases hd with heq | h1 | h1
      · exact .inr heq.symm
      · exact absurd h1 hone
      · exact .inl h1

theorem Broadcastable.stretches_left (h : Broadcastable a b) :
    StretchesTo a (broadcast a b) := by
  refine ⟨by rw [length_broadcast]; omega, ?_⟩
  have hdrop := forall₂_drop (max a.length b.length - a.length) (stretches_zipWith h).1
  rw [drop_padShape] at hdrop
  rwa [length_broadcast]

theorem Broadcastable.stretches_right (h : Broadcastable a b) :
    StretchesTo b (broadcast a b) := by
  refine ⟨by rw [length_broadcast]; omega, ?_⟩
  have hdrop := forall₂_drop (max a.length b.length - b.length) (stretches_zipWith h).2
  rw [drop_padShape] at hdrop
  rwa [length_broadcast]

theorem reads_of_stretches {t : List Nat}
    (h : Forall₂ (fun d n => d = 1 ∨ d = n) a t) (he : InShape t e) :
    Forall₂ (fun x d => d = 1 ∨ x < d) e a := by
  induction h generalizing e with
  | nil =>
    cases he
    exact .nil
  | @cons d n a t hd _ ih =>
    cases he with
    | @cons x _ e _ hx hrest =>
      refine .cons ?_ (ih hrest)
      rcases hd with hone | rfl
      · exact .inl hone
      · exact .inr hx

theorem StretchesTo.reads (h : StretchesTo a s) (hc : InShape s c) :
    Forall₂ (fun x d => d = 1 ∨ x < d) (c.drop (c.length - a.length)) a := by
  rw [hc.length_eq]
  exact reads_of_stretches h.2 (forall₂_drop _ hc)

theorem inShape_zipWith_min (hlen : e.length = a.length) (ha : ∀ d ∈ a, 1 ≤ d) :
    InShape a (zipWith (fun x d => min x (d - 1)) e a) := by
  induction a generalizing e with
  | nil =>
    rw [zipWith_nil_right]
    exact .nil
  | cons d a ih =>
    cases e with
    | nil => cases hlen
    | cons x =>
      have hd := ha d mem_cons_self
      refine .cons ?_ (ih (Nat.succ.inj hlen) fun d hd => ha d (mem_cons_of_mem _ hd))
      show min x (d - 1) < d
      omega

theorem inShape_restrict (h : a.length ≤ c.length) (ha : ∀ d ∈ a, 1 ≤ d) :
    InShape a (restrict a c) := by
  refine inShape_zipWith_min ?_ ha
  rw [length_drop]
  omega

theorem zipWith_min_of_inShape (h : InShape a e) :
    zipWith (fun x d => min x (d - 1)) e a = e := by
  induction h with
  | nil => rfl
  | @cons x d e a hx _ ih =>
    rw [zipWith_cons_cons, ih, Nat.min_eq_left (by omega)]

theorem restrict_of_inShape (h : InShape a c) : restrict a c = c := by
  rw [restrict, h.length_eq, Nat.sub_self, drop_zero]
  exact zipWith_min_of_inShape h

/-! ### Arrays of one element -/

theorem prod_of_ones (h : ∀ d ∈ a, d = 1) : a.prod = 1 := by
  induction a with
  | nil => rfl
  | cons d a ih =>
    rw [prod_cons, h d mem_cons_self, ih fun d hd => h d (mem_cons_of_mem _ hd)]

theorem ones_of_prod (h : a.prod = 1) : ∀ d ∈ a, d = 1 := by
  induction a with
  | nil => exact nofun
  | cons d a ih =>
    rw [prod_cons] at h
    intro d' hd'
    rcases mem_cons.1 hd' with rfl | hd'
    · exact Nat.eq_one_of_mul_eq_one_right h
    · exact ih (Nat.eq_one_of_mul_eq_one_left h) d' hd'

theorem ones_padShape (h : ∀ d ∈ a, d = 1) : ∀ d ∈ padShape n a, d = 1 := by
  intro d hd
  rcases mem_append.1 hd with hd | hd
  · exact eq_of_mem_replicate hd
  · exact h d hd

theorem zipWith_ones_left (hlen : pa.length = pb.length) (h : ∀ d ∈ pa, d = 1) :
    zipWith stretched pa pb = pb := by
  induction pa generalizing pb with
  | nil =>
    cases pb with
    | nil => rfl
    | cons => cases hlen
  | cons da pa ih =>
    cases pb with
    | nil => cases hlen
    | cons =>
      rw [zipWith_cons_cons, stretched, if_pos (h da mem_cons_self),
        ih (Nat.succ.inj hlen) fun d hd => h d (mem_cons_of_mem _ hd)]

theorem zipWith_ones_right (hlen : pa.length = pb.length) (h : ∀ d ∈ pb, d = 1) :
    zipWith stretched pa pb = pa := by
  induction pa generalizing pb with
  | nil => rw [zipWith_nil_left]
  | cons da pa ih =>
    cases pb with
    | nil => cases hlen
    | cons db =>
      have hdb := h db mem_cons_self
      rw [zipWith_cons_cons, stretched,
        ih (Nat.succ.inj hlen) fun d hd => h d (mem_cons_of_mem _ hd)]
      by_cases hone : da = 1
      · rw [if_pos hone, hdb, hone]
      · rw [if_neg hone]

theorem broadcast_ones_left (h : ∀ d ∈ a, d = 1) :
    broadcast a b = padShape (max a.length b.length) b :=
  zipWith_ones_left (by rw [length_padShape, length_padShape]; omega) (ones_padShape h)

theorem broadcast_ones_right (h : ∀ d ∈ b, d = 1) :
    broadcast a b = padShape (max a.length b.length) a :=
  zipWith_ones_right (by rw [length_padShape, length_padShape]; omega) (ones_padShape h)

theorem broadcast_self (a : List Nat) : broadcast a a = a := by
  have hzip : ∀ l : List Nat, zipWith stretched l l = l := by
    intro l
    rw [zipWith_self]
    exact map_id'' (fun d => ite_self d) l
  rw [broadcast, Nat.max_self, padShape, Nat.sub_self, replicate_zero, nil_append, hzip]

theorem prod_padShape (n : Nat) (s : List Nat) : (padShape n s).prod = s.prod := by
  rw [padShape, prod_append_nat, prod_of_ones fun d hd => eq_of_mem_replicate hd, one_mul]

theorem offset_replicate_append {m : Nat} (h : InShape (replicate m 1 ++ s) c) :
    offset (replicate m 1 ++ s) c = offset s (c.drop m) ∧ InShape s (c.drop m) := by
  induction m generalizing c with
  | zero => exact ⟨rfl, h⟩
  | succ m ih =>
    rw [replicate_succ, cons_append] at h ⊢
    cases h with
    | @cons x _ c _ hx hrest =>
      obtain rfl : x = 0 := by omega
      rw [offset_cons, Nat.zero_mul, Nat.zero_add, drop_succ_cons]
      exact ih hrest

theorem offset_padShape (h : InShape (padShape n s) c) :
    offset (padShape n s) c = offset s (restrict s c) := by
  have hlen := h.length_eq
  rw [length_padShape] at hlen
  obtain ⟨hoff, hin⟩ := offset_replicate_append h
  have hdrop : c.length - s.length = n - s.length := by omega
  rw [padShape, hoff, restrict, hdrop, zipWith_min_of_inShape hin]

/-! ### Strides -/

/-- How far apart the entries of each dim are. -/
def rowStrides : List Nat → List Nat
  | [] => []
  | _ :: s => s.prod :: rowStrides s

theorem getD_rowStrides {i : Nat} (h : i < s.length) (d : Nat) :
    (rowStrides s).getD i d = (s.drop (i + 1)).prod := by
  induction s generalizing i with
  | nil => cases h
  | cons d' s ih =>
    cases i with
    | zero => rfl
    | succ => exact ih (Nat.lt_of_succ_lt_succ h)

theorem foldl_strides (h : Forall₂ (fun x d => d = 1 ∨ x < d) e a) (acc : Nat) :
    (range a.length).foldl (fun acc i =>
        if a.getD i 1 ≠ 1 then acc + e.getD i 0 * (rowStrides a).getD i 1 else acc) acc =
      acc + offset a (zipWith (fun x d => min x (d - 1)) e a) := by
  induction h generalizing acc with
  | nil => rfl
  | @cons x d e a hx _ ih =>
    rw [length_cons, range_succ_eq_map, foldl_cons, foldl_map]
    simp only [getD_cons_zero, getD_cons_succ, rowStrides]
    rw [ih, zipWith_cons_cons, offset_cons]
    by_cases hone : d = 1
    · rw [if_neg (not_not_intro hone), hone, Nat.sub_self, Nat.min_zero, Nat.zero_mul, Nat.zero_add]
    · have hmin : min x (d - 1) = x := by
        have := hx.resolve_left hone
        omega
      rw [if_pos hone, hmin, add_assoc]

end

end CompileForge.Lib
