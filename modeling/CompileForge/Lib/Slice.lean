/-
  Windows of flat arrays, with the frame facts that paged storage needs.
-/

import Mathlib.Data.List.Basic

namespace CompileForge.Lib

open List

variable {α : Type*}

/-- `len` elements at an offset. -/
def slice (l : List α) (off len : Nat) : List α := (l.drop off).take len

/-- A run of elements copied to an offset. -/
def overwrite (l : List α) (off : Nat) (src : List α) : List α :=
  l.take off ++ src ++ l.drop (off + src.length)

variable {l src : List α} {off len off' : Nat}

theorem length_slice (h : off + len ≤ l.length) :
    (slice l off len).length = len := by
  simp only [slice, length_take, length_drop]
  omega

theorem length_overwrite (h : off + src.length ≤ l.length) :
    (overwrite l off src).length = l.length := by
  simp only [overwrite, length_append, length_take, length_drop]
  omega

theorem getElem?_slice (l : List α) (off len i : Nat) :
    (slice l off len)[i]? = if i < len then l[off + i]? else none := by
  simp only [slice, getElem?_take, getElem?_drop]

theorem getElem?_overwrite (h : off + src.length ≤ l.length) (i : Nat) :
    (overwrite l off src)[i]? =
      if off ≤ i ∧ i < off + src.length then src[i - off]? else l[i]? := by
  have htake : (l.take off).length = off := by rw [length_take]; omega
  rw [overwrite, append_assoc, getElem?_append, htake]
  by_cases h1 : i < off
  · rw [if_pos h1, if_neg (by omega), getElem?_take, if_pos h1]
  · rw [if_neg h1, getElem?_append]
    by_cases h2 : i - off < src.length
    · rw [if_pos h2, if_pos (by omega)]
    · rw [if_neg h2, if_neg (by omega), getElem?_drop]
      congr 1
      omega

theorem slice_overwrite_same (h : off + src.length ≤ l.length) :
    slice (overwrite l off src) off src.length = src := by
  apply ext_getElem?
  intro i
  rw [getElem?_slice, getElem?_overwrite h]
  by_cases hi : i < src.length
  · rw [if_pos hi, if_pos (by omega), Nat.add_sub_cancel_left]
  · rw [if_neg hi, getElem?_eq_none (by omega)]

theorem slice_overwrite_apart (h : off + src.length ≤ l.length)
    (hapart : off' + len ≤ off ∨ off + src.length ≤ off') :
    slice (overwrite l off src) off' len = slice l off' len := by
  apply ext_getElem?
  intro i
  rw [getElem?_slice, getElem?_slice, getElem?_overwrite h]
  by_cases hi : i < len
  · rw [if_pos hi, if_pos hi, if_neg (by omega)]
  · rw [if_neg hi, if_neg hi]

theorem slice_slice (l : List α) {len' : Nat} (h : off' + len' ≤ len) :
    slice (slice l off len) off' len' = slice l (off + off') len' := by
  apply ext_getElem?
  intro i
  rw [getElem?_slice, getElem?_slice, getElem?_slice]
  by_cases hi : i < len'
  · rw [if_pos hi, if_pos (by omega), if_pos hi, Nat.add_assoc]
  · rw [if_neg hi, if_neg hi]

/-! ## Concatenations of windows of one size -/

section Windows

variable {β : Type*} {f : β → List α} {w : Nat}

variable {l : List β} {step : List α → Nat → Option (List α)} {base : Nat} {win : Nat → List α}

theorem length_flatMap_windows (hf : ∀ x ∈ l, (f x).length = w) :
    (l.flatMap f).length = l.length * w := by
  induction l with
  | nil => simp
  | cons x l ih =>
    have hx := hf x mem_cons_self
    have hl := ih fun y hy => hf y (mem_cons_of_mem x hy)
    rw [flatMap_cons, length_append, hx, hl, length_cons, Nat.succ_mul]
    omega

/-- Window `i` of a concatenation is the `i`-th piece. -/
theorem slice_flatMap_window (hf : ∀ x ∈ l, (f x).length = w) {i : Nat} {x : β}
    (hx : l[i]? = some x) : slice (l.flatMap f) (i * w) w = f x := by
  induction l generalizing i with
  | nil => simp at hx
  | cons y l ih =>
    have hy := hf y mem_cons_self
    cases i with
    | zero =>
      cases hx
      rw [flatMap_cons, slice, Nat.zero_mul, drop_zero, ← hy, take_left]
    | succ =>
      rw [getElem?_cons_succ] at hx
      have hrest := ih (fun z hz => hf z (mem_cons_of_mem y hz)) hx
      rw [slice] at hrest ⊢
      rw [flatMap_cons, Nat.succ_mul, Nat.add_comm, ← hy, drop_length_add_append, hy]
      exact hrest

theorem length_flatten_rows {rows : List (List α)} (h : ∀ r ∈ rows, r.length = w) :
    rows.flatten.length = rows.length * w := by
  rw [← flatMap_id]
  exact length_flatMap_windows h

theorem slice_flatten_row {rows : List (List α)} (h : ∀ r ∈ rows, r.length = w) {i : Nat}
    {r : List α} (hr : rows[i]? = some r) : slice rows.flatten (i * w) w = r := by
  rw [← flatMap_id]
  exact slice_flatMap_window h hr

theorem flatMap_slices (l : List α) (n : Nat) (h : l.length = n * w) :
    (range n).flatMap (fun i => slice l (i * w) w) = l := by
  induction n generalizing l with
  | zero =>
    rw [Nat.zero_mul, length_eq_zero_iff] at h
    rw [h]
    rfl
  | succ n ih =>
    have hrest : (l.drop w).length = n * w := by
      rw [length_drop, h, Nat.succ_mul, Nat.add_sub_cancel]
    have htail := ih (l.drop w) hrest
    have hshift : (fun i => slice l ((i + 1) * w) w) = fun i => slice (l.drop w) (i * w) w := by
      funext i
      rw [slice, slice, drop_drop, Nat.succ_mul, Nat.add_comm]
    rw [range_succ_eq_map, flatMap_cons, flatMap_map]
    simp only [Nat.succ_eq_add_one]
    rw [hshift, htail, slice, Nat.zero_mul, drop_zero]
    exact take_append_drop w l

/-- Copying windows one after the other over a buffer appends them. -/
theorem foldlM_overwrite_windows (n k : Nat)
    (hstep : ∀ dst i, i < k + n → base + i * w ≤ dst.length →
      step dst i = some (overwrite dst (base + i * w) (win i)))
    (hwin : ∀ i, i < k + n → (win i).length = w) (done rest : List α)
    (hdone : done.length = base + k * w) :
    (range' k n).foldlM step (done ++ rest) =
      some (done ++ (range' k n).flatMap win ++ rest.drop (n * w)) := by
  induction n generalizing k done rest with
  | zero => simp
  | succ n ih =>
    have hw := hwin k (by omega)
    have hcopy : overwrite (done ++ rest) (base + k * w) (win k) =
        done ++ win k ++ rest.drop w := by
      rw [overwrite, ← hdone, take_left, hw, drop_append]
      simp
    have hnext := ih (k + 1) (fun dst i hi => hstep dst i (by omega))
      (fun i hi => hwin i (by omega)) (done ++ win k) (rest.drop w)
      (by rw [length_append, hdone, hw, Nat.succ_mul, Nat.add_assoc])
    have hfits : base + k * w ≤ (done ++ rest).length := by
      rw [length_append, hdone]
      exact Nat.le_add_right ..
    rw [range'_succ, foldlM_cons, hstep _ k (by omega) hfits, hcopy]
    simp only [Option.bind_eq_bind, Option.bind_some, flatMap_cons]
    rw [hnext, drop_drop, Nat.succ_mul, Nat.add_comm w]
    simp only [append_assoc]

theorem foldlM_overwrite_eq (n : Nat) (hstep : ∀ dst i, i < n → base + i * w ≤ dst.length →
      step dst i = some (overwrite dst (base + i * w) (win i)))
    (hwin : ∀ i, i < n → (win i).length = w) {dst : List α} (hbase : base ≤ dst.length) :
    (range n).foldlM step dst = some (overwrite dst base ((range n).flatMap win)) := by
  have htake : (dst.take base).length = base + 0 * w := by
    rw [length_take_of_le hbase, Nat.zero_mul, Nat.add_zero]
  have hloop := foldlM_overwrite_windows n 0 (by simpa using hstep) (by simpa using hwin)
    (dst.take base) (dst.drop base) htake
  have hlen : ((range n).flatMap win).length = n * w := by
    rw [length_flatMap_windows fun i hi => hwin i (mem_range.1 hi), length_range]
  rw [take_append_drop, drop_drop, ← range_eq_range'] at hloop
  rw [hloop, overwrite, hlen]

end Windows

end CompileForge.Lib
