/-
  Rows of one width in a flat buffer: what writes to some rows leave in a row.
-/

import CompileForge.Lib.Slice

namespace CompileForge.Lib

open List

variable {α β : Type*} {l src : List α} {w r r' : Nat}

theorem rows_apart (hne : r ≠ r') : r' * w + w ≤ r * w ∨ r * w + w ≤ r' * w := by
  rcases Nat.lt_or_gt_of_ne hne with h | h
  · right
    rw [← Nat.succ_mul]
    exact Nat.mul_le_mul_right w h
  · left
    rw [← Nat.succ_mul]
    exact Nat.mul_le_mul_right w h

theorem row_fits {n : Nat} (hr : r < n) : r * w + w ≤ n * w := by
  rw [← Nat.succ_mul]
  exact Nat.mul_le_mul_right w hr

theorem length_overwrite_row (hsrc : src.length = w) (hfit : r * w + w ≤ l.length) :
    (overwrite l (r * w) src).length = l.length := by
  subst hsrc
  exact length_overwrite hfit

theorem slice_overwrite_row (hsrc : src.length = w) (hfit : r * w + w ≤ l.length) :
    slice (overwrite l (r * w) src) (r * w) w = src := by
  subst hsrc
  exact slice_overwrite_same hfit

theorem slice_overwrite_other (hsrc : src.length = w) (hfit : r * w + w ≤ l.length)
    (hne : r ≠ r') : slice (overwrite l (r * w) src) (r' * w) w = slice l (r' * w) w := by
  subst hsrc
  exact slice_overwrite_apart hfit (rows_apart hne)

/-! ## A loop over rows -/

/-- A loop that writes the row `row x` for each `x`. -/
def writeRows (w : Nat) (row : β → Nat) (content : β → List α) (l : List α) (xs : List β) :
    List α :=
  xs.foldl (fun l x => overwrite l (row x * w) (content x)) l

variable {row : β → Nat} {content : β → List α} {xs : List β}

section Fit

variable (hfit : ∀ x ∈ xs, row x * w + w ≤ l.length) (hlen : ∀ x ∈ xs, (content x).length = w)
include hfit hlen

theorem length_writeRows : (writeRows w row content l xs).length = l.length := by
  induction xs generalizing l with
  | nil => rfl
  | cons x xs ih =>
    have hself := mem_cons_self (a := x) (l := xs)
    have hx := length_overwrite_row (hlen x hself) (hfit x hself)
    rw [writeRows, foldl_cons]
    refine (ih (fun y hy => ?_) fun y hy => hlen y (mem_cons_of_mem x hy)).trans hx
    rw [hx]
    exact hfit y (mem_cons_of_mem x hy)

theorem slice_writeRows_other (hr : ∀ x ∈ xs, row x ≠ r) :
    slice (writeRows w row content l xs) (r * w) w = slice l (r * w) w := by
  induction xs generalizing l with
  | nil => rfl
  | cons x xs ih =>
    have hself := mem_cons_self (a := x) (l := xs)
    have hx := length_overwrite_row (hlen x hself) (hfit x hself)
    rw [writeRows, foldl_cons]
    refine (ih (fun y hy => ?_) (fun y hy => hlen y (mem_cons_of_mem x hy))
      fun y hy => hr y (mem_cons_of_mem x hy)).trans ?_
    · rw [hx]
      exact hfit y (mem_cons_of_mem x hy)
    · exact slice_overwrite_other (hlen x hself) (hfit x hself) (hr x hself)

theorem slice_writeRows (hapart : xs.Pairwise fun x y => row x ≠ row y) {x : β} (hx : x ∈ xs) :
    slice (writeRows w row content l xs) (row x * w) w = content x := by
  induction xs generalizing l with
  | nil => cases hx
  | cons y xs ih =>
    have hself := mem_cons_self (a := y) (l := xs)
    have hy := length_overwrite_row (hlen y hself) (hfit y hself)
    have hfit' : ∀ z ∈ xs, row z * w + w ≤ (overwrite l (row y * w) (content y)).length := by
      intro z hz
      rw [hy]
      exact hfit z (mem_cons_of_mem y hz)
    have hlen' : ∀ z ∈ xs, (content z).length = w := fun z hz =>
      hlen z (mem_cons_of_mem y hz)
    obtain ⟨hhead, htail⟩ := pairwise_cons.1 hapart
    rw [writeRows, foldl_cons]
    rcases mem_cons.1 hx with rfl | hmem
    · -- the rest of the loop does not touch it
      refine (slice_writeRows_other hfit' hlen' fun z hz => (hhead z hz).symm).trans ?_
      exact slice_overwrite_row (hlen x hself) (hfit x hself)
    · exact ih hfit' hlen' htail hmem

end Fit

end CompileForge.Lib
