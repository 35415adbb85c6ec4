/-
  Batched matrix products on flat memory, each operand addressed through three strides.
-/

import Mathlib.Algebra.BigOperators.Ring.Finset
import Mathlib.Algebra.BigOperators.Intervals
import Mathlib.Algebra.Order.BigOperators.Group.Finset
import Mathlib.Tactic.Ring
import Mathlib.Tactic.Linarith

namespace CompileForge.Lib

open List

/-- The strides of an array of matrices. -/
structure Layout where
  outer : Int
  row : Int
  col : Int
  deriving DecidableEq, Repr

namespace Layout

variable {l l' : Layout} {batch m n t i j : Nat}

/-- The address of an entry. -/
def addr (l : Layout) (t i j : Nat) : Int := t * l.outer + i * l.row + j * l.col

/-- The entries of the array are at different addresses. -/
def Distinct (l : Layout) (batch m n : Nat) : Prop :=
  ∀ t < batch, ∀ i < m, ∀ j < n, ∀ t' < batch, ∀ i' < m, ∀ j' < n,
    l.addr t i j = l.addr t' i' j' → t = t' ∧ i = i' ∧ j = j'

/-- Within a matrix the layouts have the same strides, where the extent makes a stride matter. -/
def Agrees (l l' : Layout) (m n : Nat) : Prop :=
  (m ≤ 1 ∨ l.row = l'.row) ∧ (n ≤ 1 ∨ l.col = l'.col)
deriving Decidable

variable {x y : Int} {e : Nat × Nat × Nat}

theorem mul_eq_of_agrees (h : m ≤ 1 ∨ x = y) (hi : i < m) : (i : Int) * x = i * y := by
  rcases h with hm | rfl
  · obtain rfl : i = 0 := by omega
    rw [Nat.cast_zero, zero_mul, zero_mul]
  · rfl

theorem Agrees.addr_eq (h : l.Agrees l' m n) (houter : l.outer = l'.outer) (hi : i < m)
    (hj : j < n) : l.addr t i j = l'.addr t i j := by
  rw [addr, addr, houter, mul_eq_of_agrees h.1 hi, mul_eq_of_agrees h.2 hj]

theorem Agrees.distinct (h : l.Agrees l' m n) (houter : l.outer = l'.outer)
    (hdistinct : l'.Distinct batch m n) : l.Distinct batch m n := by
  intro t ht i hi j hj t' ht' i' hi' j' hj' heq
  rw [h.addr_eq houter hi hj, h.addr_eq houter hi' hj'] at heq
  exact hdistinct t ht i hi j hj t' ht' i' hi' j' hj' heq

/-! ## Layouts that cover each other -/

/-- The entries of a batch of results. -/
def entries (batch m n : Nat) : Finset (Nat × Nat × Nat) :=
  Finset.range batch ×ˢ Finset.range m ×ˢ Finset.range n

theorem mem_entries :
    e ∈ entries batch m n ↔ e.1 < batch ∧ e.2.1 < m ∧ e.2.2 < n := by
  simp only [entries, Finset.mem_product, Finset.mem_range]

theorem card_entries (batch m n : Nat) : (entries batch m n).card = batch * (m * n) := by
  rw [entries, Finset.card_product, Finset.card_product, Finset.card_range, Finset.card_range,
    Finset.card_range]

theorem distinct_iff_injOn :
    l.Distinct batch m n ↔
      Set.InjOn (fun e : Nat × Nat × Nat => l.addr e.1 e.2.1 e.2.2) (entries batch m n) := by
  constructor
  · rintro h ⟨t, i, j⟩ he ⟨t', i', j'⟩ he' heq
    obtain ⟨ht, hi, hj⟩ := mem_entries.1 he
    obtain ⟨ht', hi', hj'⟩ := mem_entries.1 he'
    obtain ⟨rfl, rfl, rfl⟩ := h t ht i hi j hj t' ht' i' hi' j' hj' heq
    rfl
  · intro h t ht i hi j hj t' ht' i' hi' j' hj' heq
    have hsame := h (mem_entries.2 ⟨ht, hi, hj⟩ : (t, i, j) ∈ entries batch m n)
      (mem_entries.2 ⟨ht', hi', hj'⟩ : (t', i', j') ∈ entries batch m n) heq
    rw [Prod.mk.injEq, Prod.mk.injEq] at hsame
    exact hsame

instance (l : Layout) (batch m n : Nat) : Decidable (l.Distinct batch m n) :=
  decidable_of_iff (∀ e ∈ entries batch m n, ∀ e' ∈ entries batch m n,
      l.addr e.1 e.2.1 e.2.2 = l.addr e'.1 e'.2.1 e'.2.2 → e = e')
    ⟨fun h => distinct_iff_injOn.2 fun e he e' he' heq => h e he e' he' heq,
      fun h _ he _ he' heq => distinct_iff_injOn.1 h he he' heq⟩

/-- Every entry of the array is at the address of some entry of the other one. -/
def Covers (l l' : Layout) (batch m' n' m n : Nat) : Prop :=
  ∀ t < batch, ∀ i < m, ∀ j < n, ∃ t' < batch, ∃ i' < m', ∃ j' < n', l.addr t' i' j' = l'.addr t i j

theorem Covers.image_eq {m' n' : Nat} (h : l.Covers l' batch m' n' m n)
    (hdistinct : l'.Distinct batch m n) (hbatch : 0 < batch) (hm : 0 < m) (hn : 0 < n)
    (hm' : m' ≤ m) (hn' : n' ≤ n) :
    m' = m ∧ n' = n ∧ l.Distinct batch m n ∧
      (entries batch m n).image (fun e => l'.addr e.1 e.2.1 e.2.2) =
        (entries batch m n).image (fun e => l.addr e.1 e.2.1 e.2.2) := by
  have hsub : (entries batch m n).image (fun e => l'.addr e.1 e.2.1 e.2.2) ⊆
      (entries batch m' n').image (fun e => l.addr e.1 e.2.1 e.2.2) := by
    intro x hx
    obtain ⟨⟨t, i, j⟩, he, rfl⟩ := Finset.mem_image.1 hx
    obtain ⟨ht, hi, hj⟩ := mem_entries.1 he
    obtain ⟨t', ht', i', hi', j', hj', heq⟩ := h t ht i hi j hj
    exact Finset.mem_image.2 ⟨(t', i', j'), mem_entries.2 ⟨ht', hi', hj'⟩, heq⟩
  have hcard : ((entries batch m n).image fun e => l'.addr e.1 e.2.1 e.2.2).card =
      batch * (m * n) := by
    rw [Finset.card_image_of_injOn (distinct_iff_injOn.1 hdistinct), card_entries]
  have hcard' := Finset.card_image_le (s := entries batch m' n')
    (f := fun e => l.addr e.1 e.2.1 e.2.2)
  rw [card_entries] at hcard'
  have hle := Finset.card_le_card hsub
  rw [hcard] at hle
  have hentries : m * n ≤ m' * n' := Nat.le_of_mul_le_mul_left (hle.trans hcard') hbatch
  obtain rfl : m' = m := by
    refine le_antisymm hm' (Nat.le_of_mul_le_mul_right ?_ hn)
    exact hentries.trans (Nat.mul_le_mul_left _ hn')
  obtain rfl : n' = n :=
    le_antisymm hn' (Nat.le_of_mul_le_mul_left hentries hm)
  have himage := Finset.eq_of_subset_of_card_le hsub (by rw [hcard]; exact hcard')
  refine ⟨rfl, rfl, distinct_iff_injOn.2 ?_, himage⟩
  rw [← Finset.card_image_iff, ← himage, hcard, card_entries]

theorem eq_of_sum_mul {f : Nat × Nat × Nat → Nat}
    (he : e ∈ entries batch m n) (hpos : f e ≠ 0)
    (h : ∑ e ∈ entries batch m n, (f e : Int) * x = ∑ e ∈ entries batch m n, (f e : Int) * y) :
    x = y := by
  rw [← Finset.sum_mul, ← Finset.sum_mul] at h
  refine mul_left_cancel₀ (fun hzero => hpos ?_) h
  rw [← Nat.cast_sum, Nat.cast_eq_zero] at hzero
  exact Finset.sum_eq_zero_iff.1 hzero e he

theorem agrees_of_image_eq (houter : l.outer = l'.outer) (hone : l.row = l'.row ∨ l.col = l'.col)
    (hbatch : 0 < batch) (hm : 0 < m) (hn : 0 < n) (hl : l.Distinct batch m n)
    (hl' : l'.Distinct batch m n)
    (himage : (entries batch m n).image (fun e => l'.addr e.1 e.2.1 e.2.2) =
      (entries batch m n).image fun e => l.addr e.1 e.2.1 e.2.2) : l.Agrees l' m n := by
  have hsum : ∑ e ∈ entries batch m n, l'.addr e.1 e.2.1 e.2.2 =
      ∑ e ∈ entries batch m n, l.addr e.1 e.2.1 e.2.2 := by
    have h' := Finset.sum_image (f := fun x : Int => x) (distinct_iff_injOn.1 hl')
    have h := Finset.sum_image (f := fun x : Int => x) (distinct_iff_injOn.1 hl)
    rw [← h', ← h, himage]
  simp only [addr, Finset.sum_add_distrib, houter] at hsum
  rcases hone with hrow | hcol
  · refine ⟨.inr hrow, ?_⟩
    by_cases hn1 : n ≤ 1
    · exact .inl hn1
    have hmem : ((0, 0, 1) : Nat × Nat × Nat) ∈ entries batch m n :=
      mem_entries.2 ⟨hbatch, hm, Nat.lt_of_not_le hn1⟩
    rw [hrow] at hsum
    refine .inr (eq_of_sum_mul (f := fun e => e.2.2) hmem Nat.one_ne_zero ?_)
    exact (add_left_cancel hsum).symm
  · refine ⟨?_, .inr hcol⟩
    by_cases hm1 : m ≤ 1
    · exact .inl hm1
    have hmem : ((0, 1, 0) : Nat × Nat × Nat) ∈ entries batch m n :=
      mem_entries.2 ⟨hbatch, Nat.lt_of_not_le hm1, hn⟩
    rw [hcol] at hsum
    refine .inr (eq_of_sum_mul (f := fun e => e.2.1) hmem Nat.one_ne_zero ?_)
    exact (add_left_cancel (add_right_cancel hsum)).symm

end Layout

/-! ## Products -/

variable {R : Type} [CommRing R]

/-- An entry of the product of two arrays of matrices. -/
def product (a b : Int → R) (la lb : Layout) (k t i j : Nat) : R :=
  ∑ p ∈ Finset.range k, a (la.addr t i p) * b (lb.addr t p j)

/-- A routine that writes the product under the layouts, and nothing apart from its entries. -/
structure ProductRun (run : (Int → R) → (Int → R) → (Int → R) → Int → R) (batch m n k : Nat)
    (la lb lc : Layout) : Prop where
  frame : ∀ a b c x, (∀ t < batch, ∀ i < m, ∀ j < n, lc.addr t i j ≠ x) → run a b c x = c x
  entry : lc.Distinct batch m n → ∀ a b c, ∀ t < batch, ∀ i < m, ∀ j < n,
    run a b c (lc.addr t i j) = product a b la lb k t i j

/-- A routine leaves the product at the entries of the result, whatever the memories hold. -/
def Computes (run : (Int → R) → (Int → R) → (Int → R) → Int → R) (batch m n k : Nat)
    (la lb lc : Layout) : Prop :=
  ∀ a b c, ∀ t < batch, ∀ i < m, ∀ j < n, run a b c (lc.addr t i j) = product a b la lb k t i j

variable {run : (Int → R) → (Int → R) → (Int → R) → Int → R} {batch m n k m' n' k' : Nat}
  {la lb lc la' lb' lc' : Layout}

theorem product_congr (ha : la'.Agrees la m k) (hb : lb'.Agrees lb k n)
    (houterA : la'.outer = la.outer) (houterB : lb'.outer = lb.outer) {a b : Int → R} {t i j : Nat}
    (hi : i < m) (hj : j < n) : product a b la' lb' k t i j = product a b la lb k t i j := by
  refine Finset.sum_congr rfl fun p hp => ?_
  have hp := Finset.mem_range.1 hp
  rw [ha.addr_eq houterA hi hp, hb.addr_eq houterB hp hj]

/-- A product under layouts that agree with others is also the product under these. -/
theorem ProductRun.computes (h : ProductRun run batch m n k la' lb' lc')
    (hdistinct : lc.Distinct batch m n) (houterA : la'.outer = la.outer)
    (houterB : lb'.outer = lb.outer) (houterC : lc'.outer = lc.outer) (hc : lc'.Agrees lc m n)
    (hab : k = 0 ∨ la'.Agrees la m k ∧ lb'.Agrees lb k n) :
    Computes run batch m n k la lb lc := by
  intro a b c t ht i hi j hj
  rw [← hc.addr_eq houterC hi hj, h.entry (hc.distinct houterC hdistinct) a b c t ht i hi j hj]
  rcases hab with rfl | ⟨ha, hb⟩
  · rfl
  · exact product_congr ha hb houterA houterB hi hj

theorem ProductRun.covers [Nontrivial R] (h : ProductRun run batch m' n' k' la' lb' lc')
    (hrun : Computes run batch m n k la lb lc) : lc'.Covers lc batch m' n' m n := by
  intro t ht i hi j hj
  by_contra hnone
  have hkept := h.frame (fun _ => 0) (fun _ => 0) (fun _ => 1) (lc.addr t i j)
    fun t' ht' i' hi' j' hj' heq => hnone ⟨t', ht', i', hi', j', hj', heq⟩
  rw [hrun _ _ _ t ht i hi j hj, product] at hkept
  simp only [zero_mul, Finset.sum_const_zero] at hkept
  exact zero_ne_one hkept

theorem stride_eq_of_sum {y y' : Int}
    (h : ∑ p ∈ Finset.range k, (p : Int) * y' = ∑ p ∈ Finset.range k, (p : Int) * y) :
    k ≤ 1 ∨ y' = y := by
  by_cases hk : k ≤ 1
  · exact .inl hk
  refine .inr ?_
  rw [← Finset.sum_mul, ← Finset.sum_mul] at h
  refine mul_left_cancel₀ (fun hzero => ?_) h
  rw [← Nat.cast_sum, Nat.cast_eq_zero] at hzero
  have hone := Finset.sum_eq_zero_iff.1 hzero 1 (Finset.mem_range.2 (by omega))
  cases hone

theorem start_eq_of_sum {x x' y y' : Int} (hk : k ≠ 0)
    (h : ∑ p ∈ Finset.range k, (p : Int) * y' = ∑ p ∈ Finset.range k, (p : Int) * y)
    (hshift : ∑ p ∈ Finset.range k, (x' + p * y') = ∑ p ∈ Finset.range k, (x + p * y)) :
    x' = x := by
  rw [Finset.sum_add_distrib, Finset.sum_add_distrib, h, Finset.sum_const, Finset.sum_const,
    Finset.card_range] at hshift
  have hmul := add_right_cancel hshift
  rw [nsmul_eq_mul, nsmul_eq_mul] at hmul
  exact mul_left_cancel₀ (Nat.cast_ne_zero.2 hk) hmul

section

variable [CharZero R]

theorem terms_eq (h : ∀ a b : Int → R, product a b la' lb' k' 0 0 0 = product a b la lb k 0 0 0) :
    k' = k := by
  have hones := h (fun _ => 1) fun _ => 1
  simp only [product, mul_one, Finset.sum_const, Finset.card_range, nsmul_eq_mul] at hones
  exact Nat.cast_injective hones

theorem agrees_left (hk : k ≠ 0) (hn : 0 < n) (h : ∀ a b : Int → R, ∀ i < m, ∀ j < n,
      product a b la' lb' k 0 i j = product a b la lb k 0 i j) (hm : 0 < m) :
    la'.Agrees la m k := by
  -- the sum of the addresses, as contents that are their own addresses show it
  have hsum : ∀ i < m, ∑ p ∈ Finset.range k, la'.addr 0 i p =
      ∑ p ∈ Finset.range k, la.addr 0 i p := by
    intro i hi
    have haddr := h (fun x => (x : R)) (fun _ => 1) i hi 0 hn
    simp only [product, mul_one, ← Int.cast_sum] at haddr
    exact Int.cast_injective haddr
  have h0 := hsum 0 hm
  simp only [Layout.addr, Nat.cast_zero, zero_mul, zero_add] at h0
  refine ⟨?_, stride_eq_of_sum h0⟩
  by_cases hm1 : m ≤ 1
  · exact .inl hm1
  have h1 := hsum 1 (Nat.lt_of_not_le hm1)
  simp only [Layout.addr, Nat.cast_zero, Nat.cast_one, zero_mul, one_mul, zero_add] at h1
  exact .inr (start_eq_of_sum hk h0 h1)

theorem agrees_right (hk : k ≠ 0) (hm : 0 < m) (h : ∀ a b : Int → R, ∀ i < m, ∀ j < n,
      product a b la' lb' k 0 i j = product a b la lb k 0 i j) (hn : 0 < n) :
    lb'.Agrees lb k n := by
  have hsum : ∀ j < n, ∑ p ∈ Finset.range k, lb'.addr 0 p j =
      ∑ p ∈ Finset.range k, lb.addr 0 p j := by
    intro j hj
    have haddr := h (fun _ => 1) (fun x => (x : R)) 0 hm j hj
    simp only [product, one_mul, ← Int.cast_sum] at haddr
    exact Int.cast_injective haddr
  have h0 := hsum 0 hn
  simp only [Layout.addr, Nat.cast_zero, zero_mul, zero_add, add_zero] at h0
  refine ⟨stride_eq_of_sum h0, ?_⟩
  by_cases hn1 : n ≤ 1
  · exact .inl hn1
  have h1 := hsum 1 (Nat.lt_of_not_le hn1)
  simp only [Layout.addr, Nat.cast_zero, Nat.cast_one, zero_mul, one_mul, zero_add,
    add_comm _ lb'.col, add_comm _ lb.col] at h1
  exact .inr (start_eq_of_sum hk h0 h1)

/-- A product under some layouts is one under others exactly when it multiplies and they agree. -/
theorem ProductRun.computes_iff (h : ProductRun run batch m' n' k' la' lb' lc')
    (hbatch : 0 < batch) (hm : 0 < m) (hn : 0 < n) (hm' : m' ≤ m) (hn' : n' ≤ n)
    (hdistinct : lc.Distinct batch m n) (houterA : la'.outer = la.outer)
    (houterB : lb'.outer = lb.outer) (houterC : lc'.outer = lc.outer)
    (hone : lc'.row = lc.row ∨ lc'.col = lc.col) :
    Computes run batch m n k la lb lc ↔ m' = m ∧ n' = n ∧ k' = k ∧ lc'.Agrees lc m n ∧
        (k = 0 ∨ la'.Agrees la m k ∧ lb'.Agrees lb k n) := by
  constructor
  · intro hrun
    obtain ⟨rfl, rfl, hdistinct', himage⟩ :=
      (h.covers hrun).image_eq hdistinct hbatch hm hn hm' hn'
    have hc := Layout.agrees_of_image_eq houterC hone hbatch hm hn hdistinct' hdistinct himage
    -- the routine writes where it should, so what it writes is the product it should
    have hsame : ∀ a b : Int → R, ∀ i < m', ∀ j < n',
        product a b la' lb' k' 0 i j = product a b la lb k 0 i j := by
      intro a b i hi j hj
      rw [← h.entry hdistinct' a b (fun _ => 0) 0 hbatch i hi j hj, hc.addr_eq houterC hi hj]
      exact hrun a b _ 0 hbatch i hi j hj
    obtain rfl := terms_eq fun a b => hsame a b 0 hm 0 hn
    refine ⟨rfl, rfl, rfl, hc, ?_⟩
    by_cases hk : k' = 0
    · exact .inl hk
    · exact .inr ⟨agrees_left hk hn hsame hm, agrees_right hk hm hsame hn⟩
  · rintro ⟨rfl, rfl, rfl, hc, hab⟩
    exact h.computes hdistinct houterA houterB houterC hc hab

end

/-! ## Routines as lists of writes -/

section MemWrites

variable {α ι : Type}

/-- The listed writes: other addresses are left alone, and values that do not disagree are there. -/
structure MemWrites (step : (Int → α) → Int → α) (w : List (Int × α)) : Prop where
  frame : ∀ c x, (∀ v, (x, v) ∉ w) → step c x = c x
  entry : (∀ x v v', (x, v) ∈ w → (x, v') ∈ w → v = v') → ∀ c x v, (x, v) ∈ w → step c x = v

theorem MemWrites.update (x : Int) (v : α) :
    MemWrites (fun c => Function.update c x v) [(x, v)] where
  frame := by
    intro c y hy
    refine Function.update_of_ne (fun heq => hy v ?_) v c
    rw [heq]
    exact mem_singleton_self _
  entry := by
    intro _ c y u hmem
    obtain ⟨rfl, rfl⟩ := Prod.mk.inj (mem_singleton.1 hmem)
    exact Function.update_self ..

theorem MemWrites.id : MemWrites (fun c : Int → α => c) [] where
  frame := fun _ _ _ => rfl
  entry := nofun

theorem MemWrites.comp {step step' : (Int → α) → Int → α} {w w' : List (Int × α)}
    (h : MemWrites step w) (h' : MemWrites step' w') :
    MemWrites (fun c => step' (step c)) (w ++ w') where
  frame := by
    intro c x hx
    rw [h'.frame _ x fun v hv => hx v (mem_append_right _ hv)]
    exact h.frame c x fun v hv => hx v (mem_append_left _ hv)
  entry := by
    intro hagree c x v hmem
    have hfirst := h.entry fun y u u' hu hu' =>
      hagree y u u' (mem_append_left _ hu) (mem_append_left _ hu')
    have hsecond := h'.entry fun y u u' hu hu' =>
      hagree y u u' (mem_append_right _ hu) (mem_append_right _ hu')
    -- a later write to the same address has the same value
    by_cases hlater : ∃ u, (x, u) ∈ w'
    · obtain ⟨u, hu⟩ := hlater
      obtain rfl : v = u := hagree x v u hmem (mem_append_right _ hu)
      exact hsecond _ x v hu
    · have hnone : ∀ u, (x, u) ∉ w' := fun u hu => hlater ⟨u, hu⟩
      rw [h'.frame _ x hnone]
      exact hfirst c x v ((mem_append.1 hmem).resolve_right (hnone v))

theorem MemWrites.foldl {l : List ι} {step : ι → (Int → α) → Int → α} {w : ι → List (Int × α)}
    (h : ∀ i ∈ l, MemWrites (step i) (w i)) :
    MemWrites (fun c => l.foldl (fun c i => step i c) c) (l.flatMap w) := by
  induction l with
  | nil => exact .id
  | cons i l ih =>
    rw [flatMap_cons]
    exact (h i mem_cons_self).comp (ih fun i' hi' => h i' (mem_cons_of_mem _ hi'))

/-- A step that is given a pointer into the memory. -/
def throughPointer (base : Int) (step : (Int → α) → Int → α) (c : Int → α) : Int → α :=
  fun x => step (fun y => c (base + y)) (x - base)

theorem throughPointer_zero (step : (Int → α) → Int → α) : Lib.throughPointer 0 step = step := by
  funext c x
  simp only [Lib.throughPointer, zero_add, sub_zero]

theorem MemWrites.throughPointer {step : (Int → α) → Int → α} {w : List (Int × α)}
    (h : MemWrites step w) (base : Int) :
    MemWrites (throughPointer base step) (w.map fun e => (base + e.1, e.2)) where
  frame := by
    intro c x hx
    have hsame : c (base + (x - base)) = c x := by rw [add_sub_cancel]
    rw [Lib.throughPointer, h.frame _ _ fun v hv => hx v ?_, hsame]
    exact mem_map.2 ⟨_, hv, by rw [add_sub_cancel]⟩
  entry := by
    intro hagree c x v hmem
    obtain ⟨⟨y, u⟩, hin, heq⟩ := mem_map.1 hmem
    obtain ⟨rfl, rfl⟩ := Prod.mk.inj heq
    show step _ (base + y - base) = u
    rw [add_sub_cancel_left]
    refine h.entry (fun z a a' ha ha' => ?_) _ y u hin
    exact hagree (base + z) a a' (mem_map.2 ⟨_, ha, rfl⟩) (mem_map.2 ⟨_, ha', rfl⟩)

end MemWrites

theorem ProductRun.of_writes {w : (Int → R) → (Int → R) → List (Int × R)}
    (h : ∀ a b, MemWrites (run a b) (w a b))
    (hw : ∀ a b x v, (x, v) ∈ w a b ↔ ∃ t < batch, ∃ i < m, ∃ j < n,
      x = lc.addr t i j ∧ v = product a b la lb k t i j) :
    ProductRun run batch m n k la lb lc where
  frame := by
    intro a b c x hx
    refine (h a b).frame c x fun v hv => ?_
    obtain ⟨t, ht, i, hi, j, hj, rfl, -⟩ := (hw a b x v).1 hv
    exact hx t ht i hi j hj rfl
  entry := by
    intro hdistinct a b c t ht i hi j hj
    refine (h a b).entry (fun x v v' hv hv' => ?_) c _ _
      ((hw a b _ _).2 ⟨t, ht, i, hi, j, hj, rfl, rfl⟩)
    obtain ⟨t, ht, i, hi, j, hj, hx, rfl⟩ := (hw a b x v).1 hv
    obtain ⟨t', ht', i', hi', j', hj', hx', rfl⟩ := (hw a b x v').1 hv'
    obtain ⟨rfl, rfl, rfl⟩ :=
      hdistinct t ht i hi j hj t' ht' i' hi' j' hj' (hx.symm.trans hx')
    rfl

end CompileForge.Lib
