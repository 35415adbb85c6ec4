/-
  Lists and matrices cut into shards of one length: putting the shards together again, the
  inner product as a sum over the shards, and the two collectives on matrices.
-/

import CompileForge.Lib.Slice
import Mathlib.Algebra.BigOperators.Group.List.Basic
import Mathlib.Algebra.Ring.Basic

namespace CompileForge.Lib

open List

variable {α β γ R : Type*}

theorem take_succ_mul (l : List α) (n k : Nat) :
    l.take ((n + 1) * k) = l.take (n * k) ++ slice l (n * k) k := by
  rw [Nat.succ_mul, take_add, slice]

theorem flatMap_slice (l : List α) (n k : Nat) :
    ((range n).flatMap fun r => slice l (r * k) k) = l.take (n * k) := by
  induction n with
  | zero => rw [Nat.zero_mul]; rfl
  | succ n ih =>
    rw [range_succ, flatMap_append, ih, take_succ_mul, flatMap_singleton]

theorem slice_map (f : α → β) (l : List α) (off len : Nat) :
    slice (l.map f) off len = (slice l off len).map f := by
  rw [slice, slice, map_take, map_drop]

theorem slice_zipWith (f : α → β → γ) (l : List α) (l' : List β) (off len : Nat) :
    slice (zipWith f l l') off len = zipWith f (slice l off len) (slice l' off len) := by
  rw [slice, slice, slice, drop_zipWith, take_zipWith]

theorem length_slice_eq {l : List α} {l' : List β} (h : l.length = l'.length) (off len : Nat) :
    (slice l off len).length = (slice l' off len).length := by
  rw [slice, slice, length_take, length_take, length_drop, length_drop, h]

/-! ## Inner products -/

/-- The inner product. -/
def dot [NonUnitalNonAssocSemiring R] (x w : List R) : R := (zipWith (· * ·) x w).sum

variable [Semiring R]

theorem sum_single_rank (n q : Nat) (v : R) :
    ((range n).map fun r => if r = q then v else 0).sum = if q < n then v else 0 := by
  induction n with
  | zero => rfl
  | succ n ih =>
    rw [range_succ, map_append, sum_append, ih, map_singleton, sum_singleton]
    obtain hlt | rfl | hgt := Nat.lt_trichotomy q n
    · simp [hlt, Nat.ne_of_gt hlt, Nat.lt_succ_of_lt hlt]
    · simp
    · simp [Nat.ne_of_lt hgt, Nat.not_lt_of_gt hgt, show ¬ q < n + 1 by omega]

theorem dot_append {x x' w w' : List R} (h : x.length = w.length) :
    dot (x ++ x') (w ++ w') = dot x w + dot x' w' := by
  rw [dot, zipWith_append h, sum_append, dot, dot]

theorem sum_dot_slice {x w : List R} (h : x.length = w.length) (n k : Nat) :
    ((range n).map fun r => dot (slice x (r * k) k) (slice w (r * k) k)).sum =
      dot (x.take (n * k)) (w.take (n * k)) := by
  induction n with
  | zero => rw [Nat.zero_mul]; rfl
  | succ n ih =>
    have htake : (x.take (n * k)).length = (w.take (n * k)).length := by
      rw [length_take, length_take, h]
    rw [range_succ, map_append, sum_append, ih, map_singleton,
      sum_singleton, take_succ_mul, take_succ_mul, dot_append htake]

/-! ## Matrices -/

/-- A matrix by rows of one length, which is kept also where there is no row. -/
@[ext] structure Mat (R : Type*) where
  cols : Nat
  rows : List (List R)
  rect : ∀ row ∈ rows, row.length = cols
  deriving DecidableEq

namespace Mat

section Shape

variable {R : Type*} (m : Mat R)

def shape : Nat × Nat := (m.rows.length, m.cols)

def row (i : Nat) : List R := m.rows.getD i []

theorem row_eq_getElem {i : Nat} (hi : i < m.rows.length) : m.row i = m.rows[i] := by
  rw [row, getD_eq_getElem?_getD, getElem?_eq_getElem hi, Option.getD_some]

theorem length_row {i : Nat} (hi : i < m.rows.length) : (m.row i).length = m.cols := by
  rw [m.row_eq_getElem hi]
  exact m.rect _ (getElem_mem hi)

theorem row_mk_map {α : Type*} {f : α → List R} {l : List α} {c : Nat}
    (hrect : ∀ row ∈ l.map f, row.length = c) {i : Nat} (hi : i < l.length) :
    (⟨c, l.map f, hrect⟩ : Mat R).row i = f l[i] := by
  rw [row, getD_eq_getElem?_getD, getElem?_map, getElem?_eq_getElem hi,
    Option.map_some, Option.getD_some]

/-- The columns `off .. off + len`, as far as the matrix has them. -/
def colSlice (off len : Nat) : Mat R where
  cols := min len (m.cols - off)
  rows := m.rows.map (slice · off len)
  rect := by
    intro row hrow
    obtain ⟨full, hfull, rfl⟩ := mem_map.1 hrow
    rw [slice, List.length_take, length_drop, m.rect full hfull]

theorem shape_colSlice (off len : Nat) :
    (m.colSlice off len).shape = (m.rows.length, min len (m.cols - off)) :=
  Prod.ext (length_map _) rfl

theorem row_colSlice (off len i : Nat) : (m.colSlice off len).row i = slice (m.row i) off len := by
  rw [row, row, colSlice, getD_eq_getElem?_getD, getD_eq_getElem?_getD, getElem?_map]
  cases m.rows[i]? with
  | none => rw [slice, Option.map_none, Option.getD_none, drop_nil, take_nil]
  | some => rfl

/-- A shard of the rows. -/
def rowSlice (off len : Nat) : Mat R where
  cols := m.cols
  rows := slice m.rows off len
  rect := fun row hrow => m.rect row (List.mem_of_mem_drop (List.mem_of_mem_take hrow))

theorem row_rowSlice {off len i : Nat} (hi : i < len) :
    (m.rowSlice off len).row i = m.row (off + i) := by
  rw [row, row, rowSlice, getD_eq_getElem?_getD, getD_eq_getElem?_getD, getElem?_slice, if_pos hi]

theorem colSlice_all {len : Nat} (h : m.cols ≤ len) : m.colSlice 0 len = m := by
  have hrows : m.rows.map (slice · 0 len) = m.rows := by
    rw [map_congr_left (g := id), map_id]
    intro row hrow
    rw [slice, drop_zero, take_of_length_le (by rw [m.rect row hrow]; exact h)]
    rfl
  ext1
  · show min len (m.cols - 0) = m.cols
    omega
  · exact hrows

/-! ## All-gather -/

/-- The ranks' matrices side by side, in rank order; they must be of one shape. -/
def allGather : List (Mat R) → Option (Mat R)
  | [] => none
  | p :: ps =>
    if h : ∀ q ∈ p :: ps, q.shape = p.shape then
      some {
        cols := (p :: ps).length * p.cols
        rows := (range p.rows.length).map fun i => (p :: ps).flatMap fun q => q.row i
        rect := by
          intro row hrow
          obtain ⟨i, hi, rfl⟩ := mem_map.1 hrow
          have hlen : ∀ q ∈ p :: ps, (q.row i).length = p.cols := by
            intro q hq
            obtain ⟨hrows, hcols⟩ := Prod.mk.inj (h q hq)
            rw [q.length_row (by rw [hrows]; exact mem_range.1 hi), hcols]
          rw [List.length_flatMap, List.map_congr_left hlen, List.map_const',
            List.sum_replicate_nat] }
    else none

theorem allGather_eq {parts : List (Mat R)} {s : Nat × Nat} (hne : parts ≠ [])
    (hshape : ∀ q ∈ parts, q.shape = s) :
    ∃ m, allGather parts = some m ∧ m.cols = parts.length * s.2 ∧
      m.rows = (range s.1).map fun i => parts.flatMap fun q => q.row i := by
  cases parts with
  | nil => exact absurd rfl hne
  | cons p ps =>
    have hp : p.shape = s := hshape p mem_cons_self
    have hall : ∀ q ∈ p :: ps, q.shape = p.shape := fun q hq => (hshape q hq).trans hp.symm
    refine ⟨_, dif_pos hall, ?_, ?_⟩
    · rw [← hp]; rfl
    · rw [← hp]; rfl

theorem allGather_colSlice (y : Mat R) {n k : Nat} (hn : n ≠ 0) (hk : y.cols = n * k) :
    allGather ((range n).map fun r => y.colSlice (r * k) k) = some y := by
  have hne : (range n).map (fun r => y.colSlice (r * k) k) ≠ [] := by
    rw [Ne, map_eq_nil_iff, range_eq_nil]
    exact hn
  have hshape : ∀ q ∈ (range n).map (fun r => y.colSlice (r * k) k),
      q.shape = (y.rows.length, k) := by
    intro q hq
    obtain ⟨r, hr, rfl⟩ := mem_map.1 hq
    have hle : (r + 1) * k ≤ n * k := Nat.mul_le_mul_right k (mem_range.1 hr)
    rw [Nat.succ_mul] at hle
    have hcols : min k (y.cols - r * k) = k := by omega
    rw [shape_colSlice, hcols]
  obtain ⟨m, hm, hcols, hrows⟩ := allGather_eq hne hshape
  rw [hm]
  congr 1
  ext1
  · rw [hcols, length_map, length_range, hk]
  · rw [hrows]
    apply ext_getElem (by rw [length_map, length_range])
    intro i _ hi
    rw [getElem_map, getElem_range, flatMap_map]
    simp only [row_colSlice]
    have hlen : (y.row i).length = n * k := (y.length_row hi).trans hk
    rw [flatMap_slice, take_of_length_le (Nat.le_of_eq hlen), y.row_eq_getElem hi]

end Shape

/-! ## Entries -/

def entry (m : Mat R) (i j : Nat) : R := (m.row i).getD j 0

theorem eq_of_entry {m m' : Mat R} (hshape : m.shape = m'.shape)
    (hentry : ∀ i < m'.rows.length, ∀ j < m'.cols, m.entry i j = m'.entry i j) : m = m' := by
  obtain ⟨hlen, hcols⟩ := Prod.mk.inj hshape
  ext1
  · exact hcols
  · apply ext_getElem hlen
    intro i hi hi'
    rw [← m.row_eq_getElem hi, ← m'.row_eq_getElem hi']
    have hrow : (m.row i).length = (m'.row i).length := by
      rw [m.length_row hi, m'.length_row hi', hcols]
    apply ext_getElem hrow
    intro j hj hj'
    have h := hentry i hi' j (by rw [← m'.length_row hi']; exact hj')
    rwa [entry, entry, getD_eq_getElem?_getD, getD_eq_getElem?_getD,
      getElem?_eq_getElem hj, getElem?_eq_getElem hj'] at h

/-- The rows kept where `keep` says so, zeroed elsewhere. -/
def keepRows (m : Mat R) (keep : List Bool) : Mat R where
  cols := m.cols
  rows := (keep.zip m.rows).map fun p => if p.1 then p.2 else p.2.map fun _ => 0
  rect := by
    intro row hrow
    obtain ⟨p, hp, rfl⟩ := mem_map.1 hrow
    have hlen : p.2.length = m.cols := m.rect _ (List.of_mem_zip hp).2
    split
    · exact hlen
    · rw [length_map, hlen]

variable {keep : List Bool} {parts : List (Mat R)}

theorem shape_keepRows (m : Mat R) (h : keep.length = m.rows.length) :
    (m.keepRows keep).shape = m.shape :=
  Prod.ext (by simp [shape, keepRows, h]) rfl

theorem entry_keepRows (m : Mat R) {i : Nat} (hi : i < keep.length)
    (hi' : i < m.rows.length) (j : Nat) :
    (m.keepRows keep).entry i j = if keep[i] then m.entry i j else 0 := by
  have hzip : (keep.zip m.rows)[i]? = some (keep[i], m.rows[i]) := by
    rw [getElem?_zip_eq_some]
    exact ⟨getElem?_eq_getElem hi, getElem?_eq_getElem hi'⟩
  have hrow : (m.keepRows keep).row i =
      if keep[i] then m.rows[i] else m.rows[i].map fun _ => 0 := by
    show getD ((keep.zip m.rows).map _) i [] = _
    rw [getD_eq_getElem?_getD, getElem?_map, hzip]
    rfl
  rw [entry, entry, m.row_eq_getElem hi', hrow]
  cases keep[i] with
  | true => rfl
  | false =>
    show (m.rows[i].map fun _ => (0 : R)).getD j 0 = 0
    rw [getD_eq_getElem?_getD, getElem?_map]
    cases m.rows[i][j]? with
    | none => rfl
    | some => rfl

/-! ## All-reduce -/

/-- What every rank gets of an all-reduce: the entrywise sum over the ranks. -/
def allReduce : List (Mat R) → Option (Mat R)
  | [] => none
  | p :: ps =>
    if ∀ q ∈ p :: ps, q.shape = p.shape then
      some {
        cols := p.cols
        rows := (range p.rows.length).map fun i =>
          (range p.cols).map fun j => ((p :: ps).map fun q => q.entry i j).sum
        rect := by
          intro row hrow
          obtain ⟨i, -, rfl⟩ := mem_map.1 hrow
          rw [length_map, List.length_range] }
    else none

theorem allReduce_eq {s : Nat × Nat} (hne : parts ≠ [])
    (hshape : ∀ q ∈ parts, q.shape = s) :
    ∃ m, allReduce parts = some m ∧ m.shape = s ∧
      ∀ i < s.1, ∀ j < s.2, m.entry i j = (parts.map fun q => q.entry i j).sum := by
  cases parts with
  | nil => exact absurd rfl hne
  | cons p ps =>
    have hp : p.shape = s := hshape p mem_cons_self
    have hall : ∀ q ∈ p :: ps, q.shape = p.shape := fun q hq => (hshape q hq).trans hp.symm
    refine ⟨_, if_pos hall, ?_, ?_⟩
    · rw [← hp, shape, shape, length_map, length_range]
    · intro i hi j hj
      rw [← hp] at hi hj
      have hi' : i < p.rows.length := hi
      have hj' : j < p.cols := hj
      simp only [entry, row, getD_eq_getElem?_getD, getElem?_map,
        getElem?_range hi', getElem?_range hj', Option.map_some, Option.getD_some]

theorem allReduce_eq_some_iff {y : Mat R} (hne : parts ≠ [])
    (hshape : ∀ q ∈ parts, q.shape = y.shape) :
    allReduce parts = some y ↔
      ∀ i < y.rows.length, ∀ j < y.cols, (parts.map fun q => q.entry i j).sum = y.entry i j := by
  obtain ⟨m, hm, hs, hentry⟩ := allReduce_eq hne hshape
  rw [hm]
  constructor
  · intro h i hi j hj
    rw [← hentry i hi j hj, Option.some.inj h]
  · intro h
    congr 1
    apply eq_of_entry hs
    intro i hi j hj
    rw [hentry i hi j hj, h i hi j hj]

end Mat

end CompileForge.Lib
