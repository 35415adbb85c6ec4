/-
  Reference counts kept next to a free list, over an arbitrary type of items: `owed b` is how
  many references to `b` exist outside, `rc b` is the counter the implementation keeps.
-/

import Mathlib.Data.List.Count
import Mathlib.Data.List.Nodup

namespace CompileForge.Lib

open List

variable {ι : Type*} {valid : ι → Prop} {rc owed rc' owed' : ι → Nat} {free l : List ι} {b : ι}

/-- The counters are right, and nothing idle is lost. -/
structure Counted (valid : ι → Prop) (rc owed : ι → Nat) (free : List ι) : Prop where
  counts : ∀ x, valid x → rc x = owed x
  idle_mem : ∀ x, valid x → owed x = 0 → x ∈ free

/-- `Counted`, and the free list holds exactly the idle items, each once. -/
structure Balanced (valid : ι → Prop) (rc owed : ι → Nat) (free : List ι) : Prop
    extends Counted valid rc owed free where
  nodup : free.Nodup
  mem_valid : ∀ x ∈ free, valid x
  mem_idle : ∀ x ∈ free, owed x = 0
  owed_valid : ∀ x, owed x ≠ 0 → valid x

/-! ## Reading the balance -/

theorem Balanced.mem_free_iff (h : Balanced valid rc owed free) (x : ι) :
    x ∈ free ↔ valid x ∧ owed x = 0 :=
  ⟨fun hx => ⟨h.mem_valid x hx, h.mem_idle x hx⟩, fun hx => h.idle_mem x hx.1 hx.2⟩

theorem Balanced.mem_free_iff_rc (h : Balanced valid rc owed free) (x : ι) :
    x ∈ free ↔ valid x ∧ rc x = 0 := by
  rw [h.mem_free_iff]
  constructor
  · rintro ⟨hv, ho⟩
    exact ⟨hv, by rw [h.counts x hv, ho]⟩
  · rintro ⟨hv, hr⟩
    exact ⟨hv, by rw [← h.counts x hv, hr]⟩

theorem Counted.congr_owed (h : Counted valid rc owed free) (ho : ∀ x, owed' x = owed x) :
    Counted valid rc owed' free := by
  obtain rfl : owed' = owed := funext ho
  exact h

theorem Balanced.congr_owed (h : Balanced valid rc owed free) (ho : ∀ x, owed' x = owed x) :
    Balanced valid rc owed' free := by
  obtain rfl : owed' = owed := funext ho
  exact h

theorem Balanced.length_free_add {rc owed : Nat → Nat} {free used : List Nat} {n : Nat}
    (h : Balanced (· < n) rc owed free) (hnodup : used.Nodup)
    (hused : ∀ x, x ∈ used ↔ owed x ≠ 0) : free.length + used.length = n := by
  have hdisjoint : free.Disjoint used := fun x hfree hx => (hused x).1 hx (h.mem_idle x hfree)
  have hperm : (free ++ used).Perm (range n) := by
    refine (perm_ext_iff_of_nodup (h.nodup.append hnodup hdisjoint) nodup_range).2 ?_
    intro x
    rw [mem_append, mem_range, h.mem_free_iff, hused]
    constructor
    · rintro (⟨hlt, -⟩ | howed)
      · exact hlt
      · exact h.owed_valid x howed
    · intro hlt
      -- an item that is not idle is used
      by_cases hidle : owed x = 0
      · exact .inl ⟨hlt, hidle⟩
      · exact .inr hidle
  have hlength := hperm.length_eq
  rw [length_append, length_range] at hlength
  exact hlength

variable [DecidableEq ι]

section Raise

variable (hrc : ∀ x, valid x → rc' x = rc x + if x = b then 1 else 0)
  (ho : ∀ x, owed' x = owed x + if x = b then 1 else 0)

include hrc ho

theorem Counted.take (h : Counted valid rc owed (l ++ [b])) :
    Counted valid rc' owed' l where
  counts x hx := by rw [hrc x hx, ho x, h.counts x hx]
  idle_mem x hx h0 := by
    rw [ho x] at h0
    have hne : x ≠ b := by rintro rfl; simp at h0
    have hmem := h.idle_mem x hx (by omega)
    simpa [hne] using hmem

theorem Balanced.take (h : Balanced valid rc owed (l ++ [b])) :
    Balanced valid rc' owed' l where
  toCounted := h.toCounted.take hrc ho
  nodup := (List.nodup_append.1 h.nodup).1
  mem_valid x hx := h.mem_valid x (mem_append_left _ hx)
  mem_idle x hx := by
    have hne : x ≠ b := by
      rintro rfl
      exact (nodup_append.1 h.nodup).2.2 x hx x (mem_singleton_self x) rfl
    rw [ho x, if_neg hne, h.mem_idle x (mem_append_left _ hx)]
  owed_valid x hx := by
    by_cases hxb : x = b
    · subst hxb
      exact h.mem_valid x (by simp)
    · exact h.owed_valid x (by simpa [ho x, hxb] using hx)

theorem Counted.retain (h : Counted valid rc owed free) :
    Counted valid rc' owed' free where
  counts x hx := by rw [hrc x hx, ho x, h.counts x hx]
  idle_mem x hx h0 := h.idle_mem x hx (by rw [ho x] at h0; omega)

theorem Balanced.retain (h : Balanced valid rc owed free) (hb : owed b ≠ 0) :
    Balanced valid rc' owed' free where
  toCounted := h.toCounted.retain hrc ho
  nodup := h.nodup
  mem_valid := h.mem_valid
  mem_idle x hx := by
    have hne : x ≠ b := by rintro rfl; exact hb (h.mem_idle x hx)
    rw [ho x, if_neg hne, h.mem_idle x hx]
  owed_valid x hx := by
    by_cases hxb : x = b
    · subst hxb
      exact h.owed_valid x hb
    · exact h.owed_valid x (by simpa [ho x, hxb] using hx)

end Raise

section Lower

variable (hrc : ∀ x, valid x → rc' x = rc x - if x = b then 1 else 0)
  (ho : ∀ x, owed' x = owed x - if x = b then 1 else 0)

include hrc ho

theorem Counted.release (h : Counted valid rc owed free) (hb : owed b ≠ 0) :
    Counted valid rc' owed' (if rc' b = 0 then free ++ [b] else free) where
  counts x hx := by rw [hrc x hx, ho x, h.counts x hx]
  idle_mem x hx h0 := by
    by_cases hxb : x = b
    · subst hxb
      have : rc' x = 0 := by rw [hrc x hx, h.counts x hx, ← ho x, h0]
      simp [this]
    · have hmem := h.idle_mem x hx (by simpa [ho x, hxb] using h0)
      split
      · exact mem_append_left _ hmem
      · exact hmem

theorem Balanced.release (h : Balanced valid rc owed free) (hb : owed b ≠ 0) :
    Balanced valid rc' owed' (if rc' b = 0 then free ++ [b] else free) := by
  have hv : valid b := h.owed_valid b hb
  have hbfree : b ∉ free := fun hmem => hb (h.mem_idle b hmem)
  have hrcb : rc' b = owed' b := by rw [hrc b hv, ho b, h.counts b hv]
  have hidle : ∀ x ∈ free, owed' x = 0 := fun x hx => by rw [ho x, h.mem_idle x hx]; omega
  have hcounted := h.toCounted.release hrc ho hb
  by_cases h0 : rc' b = 0
  · rw [if_pos h0] at hcounted ⊢
    refine ⟨hcounted, ?_, ?_, ?_, ?_⟩
    · rw [nodup_append]
      refine ⟨h.nodup, nodup_singleton b, ?_⟩
      intro x hx y hy
      rw [mem_singleton] at hy
      rintro rfl
      exact hbfree (hy ▸ hx)
    · intro x hx
      rcases mem_append.1 hx with hx | hx
      · exact h.mem_valid x hx
      · exact mem_singleton.1 hx ▸ hv
    · intro x hx
      rcases mem_append.1 hx with hx | hx
      · exact hidle x hx
      · rw [mem_singleton.1 hx, ← hrcb, h0]
    · intro x hx
      exact h.owed_valid x (fun hz => hx (by rw [ho x, hz]; omega))
  · rw [if_neg h0] at hcounted ⊢
    exact ⟨hcounted, h.nodup, h.mem_valid, hidle,
      fun x hx => h.owed_valid x (fun hz => hx (by rw [ho x, hz]; omega))⟩

end Lower

/-! ## Loops over a list of items -/

theorem count_cons_ite (x a : ι) (l : List ι) :
    (a :: l).count x = l.count x + if x = a then 1 else 0 := by
  rw [count_cons]
  by_cases hx : x = a
  · simp [hx]
  · simp [hx, Ne.symm hx]

section Loops

variable {σ : Type*} {P : σ → (ι → Nat) → Prop} {f : σ → ι → σ} {s : σ}

theorem foldl_raise (ok : ι → Prop)
    (hf : ∀ s owed b, ok b → P s owed → P (f s b) fun x => owed x + if x = b then 1 else 0)
    (hok : ∀ x ∈ l, ok x) (h : P s owed) :
    P (l.foldl f s) fun x => owed x + l.count x := by
  induction l generalizing s owed with
  | nil => simpa using h
  | cons a l ih =>
    have hrest := ih (fun x hx => hok x (mem_cons_of_mem a hx))
      (hf s owed a (hok a mem_cons_self) h)
    have hcount : (fun x => owed x + (a :: l).count x) =
        fun x => (owed x + if x = a then 1 else 0) + l.count x := by
      funext x
      rw [count_cons_ite]
      omega
    rw [foldl_cons, hcount]
    exact hrest

theorem foldl_lower
    (hf : ∀ s owed b, owed b ≠ 0 → P s owed → P (f s b) fun x => owed x - if x = b then 1 else 0)
    (hle : ∀ x, l.count x ≤ owed x) (h : P s owed) :
    P (l.foldl f s) fun x => owed x - l.count x := by
  induction l generalizing s owed with
  | nil => simpa using h
  | cons a l ih =>
    have ha : owed a ≠ 0 := by
      have := hle a
      rw [count_cons_self] at this
      omega
    have hle' : ∀ x, l.count x ≤ owed x - if x = a then 1 else 0 := by
      intro x
      have := hle x
      rw [count_cons_ite] at this
      omega
    have hrest := ih hle' (hf s owed a ha h)
    have hcount : (fun x => owed x - (a :: l).count x) =
        fun x => (owed x - if x = a then 1 else 0) - l.count x := by
      funext x
      rw [count_cons_ite]
      omega
    rw [foldl_cons, hcount]
    exact hrest

end Loops

end CompileForge.Lib
