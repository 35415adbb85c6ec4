/-
  A list read as groups of one length, `view(groups, size)` of a flat array.
-/

import CompileForge.Lib.Slice

namespace CompileForge.Lib

open List

variable {α β γ : Type*}

/-- Put together again the groups are the list. -/
def groups (size : Nat) (l : List α) : List (List α) :=
  (range (l.length / size)).map fun g => slice l (g * size) size

/-- One parameter for each group: that of `j / size` at the entry `j`. -/
def mapGroups (f : β → α → γ) (gs : List (List α)) (ps : List β) : List (List γ) :=
  zipWith (fun group p => group.map (f p)) gs ps

section

variable {size n : Nat} {l : List α}

theorem length_groups (hsize : 0 < size) (hlen : l.length = n * size) :
    (groups size l).length = n := by
  rw [groups, length_map, length_range, hlen, Nat.mul_div_cancel _ hsize]

theorem length_of_mem_groups (hsize : 0 < size) (hlen : l.length = n * size)
    {group : List α} (h : group ∈ groups size l) : group.length = size := by
  obtain ⟨g, hg, rfl⟩ := mem_map.1 h
  rw [mem_range, hlen, Nat.mul_div_cancel _ hsize] at hg
  refine length_slice ?_
  rw [hlen, ← Nat.succ_mul]
  exact Nat.mul_le_mul_right _ hg

theorem groups_append (hsize : 0 < size) {front : List α} (hfront : front.length = size) :
    groups size (front ++ l) = front :: groups size l := by
  have hcount : (front ++ l).length / size = l.length / size + 1 := by
    rw [length_append, hfront, Nat.add_comm, Nat.add_div_right _ hsize]
  rw [groups, hcount, range_succ_eq_map, map_cons, map_map, groups]
  congr 1
  · rw [slice, Nat.zero_mul, drop_zero, take_left' hfront]
  · refine map_congr_left fun g _ => ?_
    have hoff : (g + 1) * size = front.length + g * size := by rw [hfront, Nat.succ_mul]; omega
    show slice (front ++ l) ((g + 1) * size) size = slice l (g * size) size
    rw [slice, slice, hoff, ← drop_drop, drop_left]

theorem groups_flatten (hsize : 0 < size) {gs : List (List α)}
    (h : ∀ group ∈ gs, group.length = size) : groups size gs.flatten = gs := by
  induction gs with
  | nil => rw [flatten_nil, groups, length_nil, Nat.zero_div]; rfl
  | cons group gs ih =>
    rw [flatten_cons, groups_append hsize (h group mem_cons_self),
      ih fun g hg => h g (mem_cons_of_mem _ hg)]

theorem mem_getD_groups (hsize : 0 < size) (hlen : l.length = n * size) {j : Nat}
    (hj : j < l.length) : l[j] ∈ (groups size l).getD (j / size) [] := by
  have hg : j / size < l.length / size := by
    rw [hlen, Nat.mul_div_cancel _ hsize, Nat.div_lt_iff_lt_mul hsize, ← hlen]
    exact hj
  rw [groups, getD_eq_getElem?_getD, getElem?_map, getElem?_range hg]
  refine mem_of_getElem? (i := j % size) ?_
  show (slice l (j / size * size) size)[j % size]? = some l[j]
  rw [getElem?_slice, if_pos (Nat.mod_lt j hsize), Nat.mul_comm, Nat.div_add_mod,
    getElem?_eq_getElem hj]

theorem length_of_mem_mapGroups {f : β → α → γ} {gs : List (List α)} {ps : List β}
    (h : ∀ group ∈ gs, group.length = size) :
    ∀ group ∈ mapGroups f gs ps, group.length = size := by
  induction gs generalizing ps with
  | nil => intro group hg; rw [mapGroups, zipWith_nil_left] at hg; cases hg
  | cons g gs ih =>
    cases ps with
    | nil => intro group hg; rw [mapGroups, zipWith_nil_right] at hg; cases hg
    | cons =>
      intro group hg
      rcases mem_cons.1 hg with rfl | hg
      · rw [length_map]
        exact h g mem_cons_self
      · exact ih (fun g hg => h g (mem_cons_of_mem _ hg)) group hg

theorem mapGroups_map (f : β → α → γ) (F : List α → β) (gs : List (List α)) :
    mapGroups f gs (gs.map F) = gs.map fun group => group.map (f (F group)) := by
  rw [mapGroups, zipWith_map_right, zipWith_self]

theorem flatten_mapGroups (hsize : 0 < size) (f : β → α → γ) (ps : List β) (d : β)
    (hlen : l.length = ps.length * size) :
    (mapGroups f (groups size l) ps).flatten = l.mapIdx fun j x => f (ps.getD (j / size) d) x := by
  induction ps generalizing l with
  | nil =>
    rw [length_nil, Nat.zero_mul, length_eq_zero_iff] at hlen
    rw [hlen, mapGroups, zipWith_nil_right]
    rfl
  | cons p ps ih =>
    rw [length_cons, Nat.succ_mul] at hlen
    have hfront : (l.take size).length = size := by rw [length_take]; omega
    have hrest : (l.drop size).length = ps.length * size := by rw [length_drop]; omega
    conv_lhs => rw [← take_append_drop size l]
    conv_rhs => rw [← take_append_drop size l]
    rw [groups_append hsize hfront, mapIdx_append, hfront]
    rw [mapGroups, zipWith_cons_cons, flatten_cons]
    congr 1
    · refine ext_getElem? fun j => ?_
      rw [getElem?_map, getElem?_mapIdx]
      by_cases hj : j < size
      · rw [Nat.div_eq_of_lt hj, getD_cons_zero]
      · rw [getElem?_eq_none (by omega)]
        rfl
    · rw [← mapGroups, ih hrest]
      refine congrArg (List.mapIdx · _) (funext fun j => funext fun x => ?_)
      rw [Nat.add_div_right _ hsize, getD_cons_succ]

end

end CompileForge.Lib
