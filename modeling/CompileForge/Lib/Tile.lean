/-
  Blocks of a tile language, and the operations on them that check shapes: places, elementwise
  operations that broadcast, folds along a dim, masked loads and stores.
-/

import CompileForge.Lib.ExactFloat
import CompileForge.Lib.LoopNest

namespace CompileForge.Lib.Tile

open List

variable {α β γ : Type}

instance (a b : List Nat) : Decidable (Broadcastable a b) :=
  inferInstanceAs (Decidable (Forall₂ (fun m n => m = n ∨ m = 1 ∨ n = 1) _ _))

instance (a s : List Nat) : Decidable (StretchesTo a s) :=
  inferInstanceAs (Decidable (_ ∧ Forall₂ (fun d n => d = 1 ∨ d = n) _ _))

/-- A value without dims. -/
def scalar (a : α) : Tensor α := ⟨[], fun _ => a⟩

def full (s : List Nat) (a : α) : Tensor α := ⟨s, fun _ => a⟩

def arange (n : Nat) : Option (Tensor Nat) :=
  if 2 ^ n.log2 = n then some ⟨[n], fun c => c.getD 0 0⟩ else none

def map (f : α → β) (t : Tensor α) : Tensor β := ⟨t.shape, fun c => f (t.elem c)⟩

/-- Elementwise on the broadcast shape. -/
def map₂ (f : α → β → γ) (a : Tensor α) (b : Tensor β) : Option (Tensor γ) :=
  if Broadcastable a.shape b.shape then
    some ⟨broadcast a.shape b.shape,
      fun c => f (a.elem (restrict a.shape c)) (b.elem (restrict b.shape c))⟩
  else none

/-- `where` of a condition with a value without dims. -/
def mask (cond : Tensor Bool) (t : Tensor α) (other : α) : Option (Tensor α) :=
  map₂ (fun keep a => if keep then a else other) cond t

def expandDims (axis : Nat) (t : Tensor α) : Tensor α :=
  ⟨t.shape.insertIdx axis 1, fun c => t.elem (c.eraseIdx axis)⟩

/-- The values along a dim, folded. -/
def reduce (f : List α → β) (axis : Nat) (t : Tensor α) : Tensor β :=
  ⟨t.shape.eraseIdx axis, fun c =>
    f ((range (t.shape.getD axis 0)).map fun i => t.elem (c.insertIdx axis i))⟩

def reduceAll (f : List α → β) (t : Tensor α) : β := f ((points t.shape).map t.elem)

/-- The mask is broadcast to the shape of the addresses. -/
def load (mem : List α) (addr : Tensor Nat) (keep : Tensor Bool) (undef : List Nat → α) :
    Option (Tensor α) :=
  if StretchesTo keep.shape addr.shape ∧
      ∀ c ∈ points addr.shape, keep.elem (restrict keep.shape c) → addr.elem c < mem.length then
    some ⟨addr.shape, fun c =>
      if keep.elem (restrict keep.shape c) then mem.getD (addr.elem c) (undef c) else undef c⟩
  else none

/-- The writes of a store: the value and the mask are broadcast to the shape of the addresses. -/
def store (addr : Tensor Nat) (val : Tensor α) (keep : Tensor Bool) : Option (List (Nat × α)) :=
  if StretchesTo val.shape addr.shape ∧ StretchesTo keep.shape addr.shape then
    some (((points addr.shape).filter fun c => keep.elem (restrict keep.shape c)).map fun c =>
      (addr.elem c, val.elem (restrict val.shape c)))
  else none

variable (t : Tensor α)

def trans : Tensor α := ⟨t.shape.reverse, fun c => t.elem c.reverse⟩

/-- The product of matrices, none of whose dims is below the least that is multiplied. -/
def dot (mul : α → α → α) (sum : List α → α) (least : Nat) (a b : Tensor α) :
    Option (Tensor α) :=
  match a.shape, b.shape with
  | [m, k], [k', n] =>
    if (least ≤ m ∧ least ≤ k ∧ least ≤ n) ∧ k = k' then
      some ⟨[m, n], fun c => sum ((range k).map fun i =>
        mul (a.elem [c.getD 0 0, i]) (b.elem [i, c.getD 1 0]))⟩
    else none
  | _, _ => none

section Ranks

variable {a : Tensor α} {b : Tensor β} {t : Tensor γ} {f : α → β → γ}

theorem rank_map₂ (h : map₂ f a b = some t) :
    t.shape.length = max a.shape.length b.shape.length := by
  obtain ⟨-, h⟩ := Option.ite_none_right_eq_some.1 h
  cases h
  exact length_broadcast _ _

theorem rank_expandDims (axis : Nat) (h : axis ≤ a.shape.length) :
    (expandDims axis a).shape.length = a.shape.length + 1 :=
  length_insertIdx_of_le_length h _

theorem rank_reduce (f : List α → β) (axis : Nat) (h : axis < a.shape.length) :
    (reduce f axis a).shape.length = a.shape.length - 1 :=
  length_eraseIdx_of_lt h

theorem store_eq_none {addr : Tensor Nat} {keep : Tensor Bool}
    (h : addr.shape.length < a.shape.length) : store addr a keep = none :=
  if_neg fun hs => not_le.2 h hs.1.1

end Ranks

/-! ## Vectors and matrices -/

/-- There is a result exactly where the condition holds, and it is such a one. -/
def Yields (x : Option α) (ok : Prop) (P : α → Prop) : Prop :=
  (ok → ∃ a, x = some a ∧ P a) ∧ (¬ ok → x = none)

variable {x : Option α} {ok ok' : Prop} {P : α → Prop} {Q : β → Prop}

theorem Yields.bind {f : α → Option β}
    (hx : Yields x ok P) (hf : ok → ∀ a, P a → Yields (f a) ok' Q) :
    Yields (x >>= f) (ok ∧ ok') Q := by
  constructor
  · rintro ⟨hok, hok'⟩
    obtain ⟨a, rfl, ha⟩ := hx.1 hok
    exact (hf hok a ha).1 hok'
  · intro hnot
    by_cases hok : ok
    · obtain ⟨a, rfl, ha⟩ := hx.1 hok
      exact (hf hok a ha).2 fun hok' => hnot ⟨hok, hok'⟩
    · rw [hx.2 hok]
      rfl

theorem Yields.eq_some {a : α} (h : Yields x ok (· = a)) (hok : ok) :
    x = some a := by
  obtain ⟨_, hx, rfl⟩ := h.1 hok
  exact hx

theorem yields_some {a : α} (h : P a) : Yields (some a) True P :=
  ⟨fun _ => ⟨a, rfl, h⟩, fun hnot => absurd trivial hnot⟩

theorem Yields.congr (h : Yields x ok P) (hok : ok ↔ ok') : Yields x ok' P :=
  ⟨fun h' => h.1 (hok.2 h'), fun h' => h.2 fun hok' => h' (hok.1 hok')⟩

theorem yields_bind {f : α → Option β}
    (hx : ∃ a, x = some a ∧ P a) (hf : ∀ a, P a → Yields (f a) ok Q) : Yields (x >>= f) ok Q := by
  obtain ⟨a, rfl, ha⟩ := hx
  exact hf a ha

/-- The block is a vector with these entries. -/
structure IsVec (n : Nat) (f : Nat → α) : Prop where
  shape : t.shape = [n]
  elem : ∀ i < n, t.elem [i] = f i

/-- The block is read as a matrix of this shape, with one row or column for all where it has one. -/
structure Reads (m n p q : Nat) (f : Nat → Nat → α) : Prop where
  shape : t.shape = [p, q]
  rows : p = m ∨ p = 1
  cols : q = n ∨ q = 1
  elem : ∀ i < m, ∀ j < n, t.elem [min i (p - 1), min j (q - 1)] = f i j

abbrev IsMat (m n : Nat) (f : Nat → Nat → α) : Prop := Reads t m n m n f

section Matrices

variable {m n p q p' q' k k' : Nat} {a : Tensor α} {b : Tensor β} {f : Nat → Nat → α}
  {g : Nat → Nat → β} {v : Nat → α} {w : Nat → β}

theorem IsMat.elem_eq (h : IsMat a m n f) {i j : Nat} (hi : i < m) (hj : j < n) :
    a.elem [i, j] = f i j := by
  rw [← h.elem i hi j hj, min_eq_left (by omega), min_eq_left (by omega)]

theorem isMat_of_elem (hs : a.shape = [m, n]) (h : ∀ i < m, ∀ j < n, a.elem [i, j] = f i j) :
    IsMat a m n f :=
  ⟨hs, .inl rfl, .inl rfl, fun i hi j hj => by
    rw [min_eq_left (by omega), min_eq_left (by omega), h i hi j hj]⟩

theorem IsMat.cast (h : IsMat a m n f) (hn : n = k) : IsMat a m k f := hn ▸ h

theorem isVec_full (n : Nat) (x : α) : IsVec (full [n] x) n fun _ => x := ⟨rfl, fun _ _ => rfl⟩

theorem isMat_full (m n : Nat) (x : α) : IsMat (full [m, n] x) m n fun _ _ => x :=
  ⟨rfl, .inl rfl, .inl rfl, fun _ _ _ _ => rfl⟩

theorem IsVec.map (h : IsVec a n v) (e : α → β) : IsVec (Tile.map e a) n fun i => e (v i) :=
  ⟨h.shape, fun i hi => congrArg e (h.elem i hi)⟩

theorem Reads.map (h : Reads a m n p q f) (e : α → β) :
    Reads (Tile.map e a) m n p q fun i j => e (f i j) :=
  ⟨h.shape, h.rows, h.cols, fun i hi j hj => congrArg e (h.elem i hi j hj)⟩

theorem IsVec.column (h : IsVec a m v) (n : Nat) :
    Reads (expandDims 1 a) m n m 1 fun i _ => v i :=
  ⟨by rw [expandDims, h.shape]; rfl, .inl rfl, .inr rfl, fun i hi j _ => by
    rw [min_eq_left (by omega)]
    exact h.elem i hi⟩

theorem IsVec.row (h : IsVec a n v) (m : Nat) : Reads (expandDims 0 a) m n 1 n fun _ j => v j :=
  ⟨by rw [expandDims, h.shape]; rfl, .inr rfl, .inl rfl, fun i _ j hj => by
    rw [min_eq_left (b := n - 1) (by omega)]
    exact h.elem j hj⟩

theorem IsMat.trans (h : IsMat a m n f) : IsMat (Tile.trans a) n m fun i j => f j i :=
  isMat_of_elem (by rw [Tile.trans, h.shape]; rfl) fun _ hi _ hj => h.elem_eq hj hi

theorem IsVec.map₂ (ha : IsVec a n v) (hb : IsVec b n w) (e : α → β → γ) :
    ∃ t, Tile.map₂ e a b = some t ∧ IsVec t n fun i => e (v i) (w i) := by
  have hshape : broadcast [n] [n] = [n] := broadcast_self _
  refine ⟨_, if_pos ?_, ?_, fun i hi => ?_⟩
  · rw [ha.shape, hb.shape]
    exact .cons (.inl rfl) .nil
  · rw [ha.shape, hb.shape, hshape]
  · have hread : restrict [n] [i] = [i] := restrict_of_inShape (.cons hi .nil)
    show e (a.elem (restrict a.shape [i])) (b.elem (restrict b.shape [i])) = _
    rw [ha.shape, hb.shape, hread, ha.elem i hi, hb.elem i hi]

theorem Reads.map₂ (ha : Reads a m n p q f) (hb : Reads b m n p' q' g) (hm : p = m ∨ p' = m)
    (hn : q = n ∨ q' = n) (e : α → β → γ) :
    ∃ t, Tile.map₂ e a b = some t ∧ IsMat t m n fun i j => e (f i j) (g i j) := by
  have hrows := ha.rows
  have hrows' := hb.rows
  have hcols := ha.cols
  have hcols' := hb.cols
  have hshape : broadcast [p, q] [p', q'] = [m, n] := by
    show [stretched p p', stretched q q'] = [m, n]
    simp only [stretched, List.cons.injEq, and_true]
    constructor <;> split <;> omega
  refine ⟨_, if_pos ?_, isMat_of_elem ?_ fun i hi j hj => ?_⟩
  · rw [ha.shape, hb.shape]
    refine .cons ?_ (.cons ?_ .nil)
    · simp only [Compatible]
      omega
    · simp only [Compatible]
      omega
  · rw [ha.shape, hb.shape, hshape]
  · show e (a.elem (restrict a.shape [i, j])) (b.elem (restrict b.shape [i, j])) = _
    rw [ha.shape, hb.shape]
    exact congrArg₂ e (ha.elem i hi j hj) (hb.elem i hi j hj)

theorem IsMat.reduce (h : IsMat a m n f) (fold : List α → β) :
    IsVec (Tile.reduce fold 1 a) m fun i => fold ((range n).map (f i)) := by
  refine ⟨by rw [Tile.reduce, h.shape]; rfl, fun i hi => ?_⟩
  show fold ((range (a.shape.getD 1 0)).map fun j => a.elem [i, j]) = _
  rw [h.shape]
  exact congrArg fold (map_congr_left fun j hj => h.elem_eq hi (mem_range.1 hj))

/-- The product of two matrices whose sizes are not too small. -/
theorem IsMat.dot {b : Tensor α} {g : Nat → Nat → α} (ha : IsMat a m k f) (hb : IsMat b k' n g)
    (mul : α → α → α) (sum : List α → α) (least : Nat) :
    Yields (Tile.dot mul sum least a b) ((least ≤ m ∧ least ≤ k ∧ least ≤ n) ∧ k = k') fun t =>
      IsMat t m n fun i j => sum ((range k).map fun l => mul (f i l) (g l j)) := by
  rw [Tile.dot, ha.shape, hb.shape]
  refine ⟨fun hok => ⟨_, if_pos hok, isMat_of_elem rfl fun i hi j hj => ?_⟩,
    fun hnot => if_neg hnot⟩
  refine congrArg sum (map_congr_left fun l hl => ?_)
  have hl := mem_range.1 hl
  exact congrArg₂ mul (ha.elem_eq hi hl) (hb.elem_eq (hok.2 ▸ hl) hj)

variable {addr : Tensor Nat} {keep : Tensor Bool} {at' : Nat → Nat → Nat}

variable {mem : List α} {K : Nat → Bool} {at₁ : Nat → Nat}

theorem IsMat.load
    {K : Nat → Nat → Bool} (ha : IsMat addr m n at') (hk : Reads keep m n p q K)
    (hin : ∀ i < m, ∀ j < n, K i j → at' i j < mem.length) (undef : List Nat → α) :
    ∃ t, Tile.load mem addr keep undef = some t ∧ IsMat t m n fun i j =>
      if K i j then mem.getD (at' i j) (undef [i, j]) else undef [i, j] := by
  have hread : ∀ i < m, ∀ j < n, keep.elem (restrict keep.shape [i, j]) = K i j := by
    intro i hi j hj
    rw [hk.shape]
    exact hk.elem i hi j hj
  have hstretch : StretchesTo keep.shape addr.shape := by
    rw [hk.shape, ha.shape]
    exact ⟨le_rfl, .cons hk.rows.symm (.cons hk.cols.symm .nil)⟩
  have hinside : ∀ c ∈ points addr.shape,
      keep.elem (restrict keep.shape c) → addr.elem c < mem.length := by
    intro c hc hkeep
    rw [mem_points, ha.shape] at hc
    obtain ⟨i, ci, hi, hci, rfl⟩ := forall₂_cons_right_iff.1 hc
    obtain ⟨j, cj, hj, hcj, rfl⟩ := forall₂_cons_right_iff.1 hci
    cases hcj
    rw [hread i hi j hj] at hkeep
    rw [ha.elem_eq hi hj]
    exact hin i hi j hj hkeep
  refine ⟨_, if_pos ⟨hstretch, hinside⟩, isMat_of_elem ha.shape fun i hi j hj => ?_⟩
  show (if keep.elem (restrict keep.shape [i, j]) then mem.getD (addr.elem [i, j]) _ else _) = _
  rw [hread i hi j hj, ha.elem_eq hi hj]

theorem points_single (n : Nat) : points [n] = (range n).map fun i => [i] := by
  rw [points, prod_singleton]
  refine map_congr_left fun i hi => ?_
  show [i / 1] = [i]
  rw [Nat.div_one]

theorem IsVec.reduceAll (h : IsVec a n v) (fold : List α → β) :
    Tile.reduceAll fold a = fold ((range n).map v) := by
  rw [Tile.reduceAll, h.shape, points_single, map_map]
  exact congrArg fold (map_congr_left fun i hi => h.elem i (mem_range.1 hi))

theorem IsVec.kept (hk : IsVec keep n K) :
    StretchesTo keep.shape [n] ∧ ∀ i < n, keep.elem (restrict keep.shape [i]) = K i := by
  rw [hk.shape]
  refine ⟨⟨le_rfl, .cons (.inr rfl) .nil⟩, fun i hi => ?_⟩
  rw [show restrict [n] [i] = [i] from restrict_of_inShape (.cons hi .nil)]
  exact hk.elem i hi

theorem IsVec.load (ha : IsVec addr n at₁) (hk : IsVec keep n K)
    (hin : ∀ i < n, K i → at₁ i < mem.length) (undef : List Nat → α) :
    ∃ t, Tile.load mem addr keep undef = some t ∧ IsVec t n fun i =>
      if K i then mem.getD (at₁ i) (undef [i]) else undef [i] := by
  obtain ⟨hstretch, hread⟩ := hk.kept
  rw [← ha.shape] at hstretch
  have hinside : ∀ c ∈ points addr.shape,
      keep.elem (restrict keep.shape c) → addr.elem c < mem.length := by
    intro c hc hkeep
    rw [ha.shape, points_single] at hc
    obtain ⟨i, hi, rfl⟩ := mem_map.1 hc
    have hi := mem_range.1 hi
    rw [hread i hi] at hkeep
    rw [ha.elem i hi]
    exact hin i hi hkeep
  refine ⟨_, if_pos ⟨hstretch, hinside⟩, ha.shape, fun i hi => ?_⟩
  show (if keep.elem (restrict keep.shape [i]) then mem.getD (addr.elem [i]) _ else _) = _
  rw [hread i hi, ha.elem i hi]

theorem IsVec.store (ha : IsVec addr n at₁) (hv : IsVec a n v)
    (hk : IsVec keep n K) :
    Tile.store addr a keep =
      some (((range n).filter fun i => K i).map fun i => (at₁ i, v i)) := by
  obtain ⟨hstretch, hread⟩ := hk.kept
  have hstretch' : StretchesTo [n] [n] := ⟨le_rfl, .cons (.inr rfl) .nil⟩
  rw [Tile.store, ha.shape, hv.shape, if_pos ⟨hstretch', hstretch⟩, points_single, filter_map,
    map_map]
  have hfilter : (range n).filter ((fun c => keep.elem (restrict keep.shape c)) ∘
      fun i => [i]) = (range n).filter fun i => K i :=
    filter_congr fun i hi => hread i (mem_range.1 hi)
  rw [hfilter]
  refine congrArg some (map_congr_left fun i hi => ?_)
  have hi := mem_range.1 (mem_filter.1 hi).1
  show (addr.elem [i], a.elem (restrict [n] [i])) = _
  rw [restrict_of_inShape (.cons hi .nil), ha.elem i hi, hv.elem i hi]

theorem points_pair (m n : Nat) : points [m, n] = grid m n fun i j => [i, j] := by
  have hprod : [m, n].prod = m * n := by rw [prod_cons, prod_singleton]
  rw [points, hprod, map_range_mul]
  refine grid_congr fun i hi j hj => ?_
  have hin : InShape [m, n] [i, j] := .cons hi (.cons hj .nil)
  rw [show i * n + j = offset [m, n] [i, j] by simp [offset_cons], coordOf_offset hin]

theorem IsMat.store (ha : IsMat addr m n at') (hv : IsMat a m n f)
    (hk : Reads keep m n p q fun i _ => K i) :
    Tile.store addr a keep = some ((range m).flatMap fun i =>
      if K i then (range n).map fun j => (at' i j, f i j) else []) := by
  have hstretch : StretchesTo a.shape addr.shape ∧ StretchesTo keep.shape addr.shape := by
    rw [hk.shape, ha.shape, hv.shape]
    exact ⟨⟨le_rfl, .cons (.inr rfl) (.cons (.inr rfl) .nil)⟩,
      ⟨le_rfl, .cons hk.rows.symm (.cons hk.cols.symm .nil)⟩⟩
  rw [Tile.store, if_pos hstretch, ha.shape, hk.shape, hv.shape, points_pair, grid,
    filter_flatMap, map_flatMap]
  refine congrArg some (flatMap_range_congr fun i hi => ?_)
  have hread : ∀ j < n, keep.elem (restrict [p, q] [i, j]) = K i := fun j hj => hk.elem i hi j hj
  have hfilter : (range n).filter ((fun c => keep.elem (restrict [p, q] c)) ∘ fun j => [i, j]) =
      (range n).filter fun _ => K i :=
    filter_congr fun j hj => hread j (mem_range.1 hj)
  rw [filter_map, map_map, hfilter]
  cases K i with
  | false => rw [filter_false]; rfl
  | true =>
    rw [filter_true]
    refine map_congr_left fun j hj => Prod.ext (ha.elem_eq hi (mem_range.1 hj)) ?_
    exact hv.elem i hi j (mem_range.1 hj)

end Matrices

end CompileForge.Lib.Tile
