/-
  Row-major arrays as lists: `grid n m f` is the array of `n` rows of `m` entries,
  entry `(i, j)` at `i * m + j`.
-/

import CompileForge.Lib.Slice
import Mathlib.Data.List.Nodup

namespace CompileForge.Lib

open List

variable {α : Type*}

/-- The entries `f i j` row after row. -/
def grid (n m : Nat) (f : Nat → Nat → α) : List α :=
  (range n).flatMap fun i => (range m).map (f i)

section

variable {n m i j : Nat} {f g : Nat → Nat → α}

@[simp] theorem length_grid (n m : Nat) (f : Nat → Nat → α) : (grid n m f).length = n * m := by
  rw [grid, length_flatMap_windows (w := m) fun i _ => by rw [length_map, length_range],
    length_range]

theorem grid_congr (h : ∀ i < n, ∀ j < m, f i j = g i j) : grid n m f = grid n m g := by
  unfold grid
  rw [flatMap_def, flatMap_def]
  congr 1
  refine map_congr_left fun i hi => map_congr_left fun j hj => ?_
  exact h i (mem_range.1 hi) j (mem_range.1 hj)

theorem map_grid {β : Type*} (f : α → β) (n m : Nat) (g : Nat → Nat → α) :
    (grid n m g).map f = grid n m fun i j => f (g i j) := by
  rw [grid, map_flatMap]
  simp only [map_map]
  rfl

theorem mem_grid {a : α} : a ∈ grid n m f ↔ ∃ i < n, ∃ j < m, f i j = a := by
  simp [grid]

theorem nodup_grid (hinj : ∀ i j i' j', f i j = f i' j' → i = i' ∧ j = j') :
    (grid n m f).Nodup := by
  refine nodup_flatMap.2 ⟨fun i _ => nodup_range.map fun j j' h => (hinj i j i j' h).2, ?_⟩
  refine nodup_range.imp fun hne a ha ha' => hne ?_
  obtain ⟨j, -, rfl⟩ := mem_map.1 ha
  obtain ⟨j', -, heq⟩ := mem_map.1 ha'
  exact (hinj _ _ _ _ heq).1.symm

theorem flatMap_range_mul (n m : Nat) (row : Nat → List α) :
    (range (n * m)).flatMap row =
      (range n).flatMap fun i => (range m).flatMap fun j => row (i * m + j) := by
  induction n with
  | zero => simp
  | succ n ih =>
    rw [Nat.succ_mul, range_add, flatMap_append, ih, range_succ,
      flatMap_append, flatMap_singleton, flatMap_map]

theorem map_range_mul (n m : Nat) (entry : Nat → α) :
    (range (n * m)).map entry = grid n m fun i j => entry (i * m + j) := by
  simp only [grid, map_eq_flatMap]
  exact flatMap_range_mul n m _

theorem slice_grid (f : Nat → Nat → α) (h : i < n) :
    slice (grid n m f) (i * m) m = (range m).map (f i) :=
  slice_flatMap_window (fun k _ => by rw [length_map, length_range])
    (getElem?_range h)

theorem getD_slice (l : List α) {off len : Nat} (h : j < len) (d : α) :
    (slice l off len).getD j d = l.getD (off + j) d := by
  rw [getD_eq_getElem?_getD, getD_eq_getElem?_getD, getElem?_slice, if_pos h]

theorem getD_grid (f : Nat → Nat → α) (hi : i < n) (hj : j < m) (d : α) :
    (grid n m f).getD (i * m + j) d = f i j := by
  rw [← getD_slice _ hj, slice_grid f hi, getD_eq_getElem?_getD, getElem?_map, getElem?_range hj]
  rfl

theorem grid_getD {l : List α} (h : l.length = n * m) (d : α) :
    grid n m (fun i j => l.getD (i * m + j) d) = l := by
  conv_rhs => rw [← flatMap_slices l n h]
  unfold grid
  rw [flatMap_def, flatMap_def]
  congr 1
  refine map_congr_left fun i hi => ?_
  have hi := mem_range.1 hi
  have hrow : (slice l (i * m) m).length = m := by
    refine length_slice ?_
    rw [h, ← Nat.succ_mul]
    exact Nat.mul_le_mul_right m hi
  refine ext_getElem ?_ fun j hj hj' => ?_
  · rw [length_map, length_range, hrow]
  · rw [length_map, length_range] at hj
    have hread := @getD_slice _ j l (i * m) m hj d
    rw [getElem_map, getElem_range]
    rw [getD_eq_getElem?_getD, getElem?_eq_getElem hj'] at hread
    exact hread.symm

end

section Rows

variable {row : Nat → List α} {m w r : Nat}

section Width

variable (hrow : ∀ i < m, (row i).length = w)
include hrow

theorem slice_rows (h : r < m) : slice ((range m).flatMap row) (r * w) w = row r :=
  slice_flatMap_window (fun i hi => hrow i (mem_range.1 hi)) (getElem?_range h)

theorem slice_rows_within (h : r < m) {off len : Nat} (hlen : off + len ≤ w) :
    slice ((range m).flatMap row) (r * w + off) len = slice (row r) off len := by
  rw [← slice_rows hrow h, slice_slice _ hlen]

theorem getD_rows (h : r < m) {j : Nat} (hj : j < w)
    (d : α) : ((range m).flatMap row).getD (r * w + j) d = (row r).getD j d := by
  rw [← getD_slice _ hj, slice_rows hrow h]

theorem length_rows : ((range m).flatMap row).length = m * w := by
  rw [length_flatMap_windows fun i hi => hrow i (mem_range.1 hi), length_range]

end Width

theorem flatMap_range_congr {row' : Nat → List α} (h : ∀ i < m, row i = row' i) :
    (range m).flatMap row = (range m).flatMap row' := by
  rw [flatMap_def, flatMap_def]
  congr 1
  exact map_congr_left fun i hi => h i (mem_range.1 hi)

theorem getD_map_range {β : Type*} (f : Nat → β) {j n : Nat} (h : j < n) (d : β) :
    ((range n).map f).getD j d = f j := by
  rw [getD_eq_getElem?_getD, getElem?_map, getElem?_range h]
  rfl

end Rows

end CompileForge.Lib
