/-
  The C bridge that lowered matrix products call (`_compile_sfa_blas_bridge`,
  `compiler/backend/compile_utils.py`): `sfa_sgemm`, `sfa_batch_sgemm` and their variants for a
  transposed second operand, in exact arithmetic.
-/

import CompileForge.Lib.StridedProduct

namespace CompileForge.Compiler.BlasBridge

open Lib

/-! ## The bridge -/

/-- The memory an aligned pointer points into, at offsets from the pointer. -/
abbrev Mem := Int → ℚ

/-- The cast to `int`. -/
def toInt (x : Int) : Int := Int.bmod x (2 ^ 32)

/-- `cblas_sgemm`, row-major, `alpha` 1 and `beta` 0: what becomes of the memory of `c`. -/
abbrev Cblas :=
  (transB : Bool) → (m n k : Int) → (a : Mem) → (lda : Int) → (b : Mem) → (ldb : Int) →
    (ldc : Int) → Mem → Mem

/-- The loop over `p`. -/
def dotLoop (k : Nat) (term : Nat → ℚ) : ℚ :=
  (List.range k).foldl (fun sum p => sum + term p) 0

/-- The scalar loops are given the row strides only, so they multiply matrices whose inner stride
    is one. -/
def naiveSgemm (a b : Mem) (m n k : Nat) (lda ldb ldc : Int) (c : Mem) : Mem :=
  (List.range m).foldl (fun c (i : Nat) =>
    (List.range n).foldl (fun c (j : Nat) =>
      Function.update c (i * ldc + j)
        (dotLoop k fun p => a (i * lda + p) * b (p * ldb + j))) c) c

def naiveSgemmTransb (a b : Mem) (m n k : Nat) (lda ldb ldc : Int) (c : Mem) : Mem :=
  (List.range m).foldl (fun c (i : Nat) =>
    (List.range n).foldl (fun c (j : Nat) =>
      Function.update c (i * ldc + j)
        (dotLoop k fun p => a (i * lda + p) * b (j * ldb + p))) c) c

/-- The sizes and strides of a rank-2 memref, whose offset the aligned pointer includes. -/
structure MemRef2 where
  s0 : Nat
  s1 : Nat
  str0 : Int
  str1 : Int

structure MemRef3 where
  s0 : Nat
  s1 : Nat
  s2 : Nat
  str0 : Int
  str1 : Int
  str2 : Int

variable (cblas : Cblas)

def sfaSgemm (aRef bRef cRef : MemRef2) (a b c : Mem) : Mem :=
  let m := aRef.s0
  let k := aRef.s1
  let n := bRef.s1
  if aRef.str1 = 1 ∧ bRef.str1 = 1 ∧ cRef.str1 = 1 ∧ (k : Int) ≤ aRef.str0 ∧
      (n : Int) ≤ bRef.str0 ∧ (n : Int) ≤ cRef.str0 then
    cblas false (toInt m) (toInt n) (toInt k) a (toInt aRef.str0) b (toInt bRef.str0)
      (toInt cRef.str0) c
  else naiveSgemm a b m n k aRef.str0 bRef.str0 cRef.str0 c

def sfaBatchSgemm (aRef bRef cRef : MemRef3) (a b c : Mem) : Mem :=
  let batch := aRef.s0
  let m := aRef.s1
  let k := aRef.s2
  let n := bRef.s2
  let useBlas := aRef.str2 = 1 ∧ bRef.str2 = 1 ∧ cRef.str2 = 1 ∧ (k : Int) ≤ aRef.str1 ∧
    (n : Int) ≤ bRef.str1 ∧ (n : Int) ≤ cRef.str1
  (List.range batch).foldl (fun c (bidx : Nat) =>
    let aa : Mem := fun x => a (bidx * aRef.str0 + x)
    let bb : Mem := fun x => b (bidx * bRef.str0 + x)
    throughPointer (bidx * cRef.str0)
      (if useBlas then
        cblas false (toInt m) (toInt n) (toInt k) aa (toInt aRef.str1) bb (toInt bRef.str1)
          (toInt cRef.str1)
      else naiveSgemm aa bb m n k aRef.str1 bRef.str1 cRef.str1) c) c

def sfaSgemmTransb (aRef bRef cRef : MemRef2) (a b c : Mem) : Mem :=
  let m := aRef.s0
  let k := aRef.s1
  let n := bRef.s0
  if aRef.str1 = 1 ∧ bRef.str1 = 1 ∧ cRef.str1 = 1 ∧ (k : Int) ≤ aRef.str0 ∧
      (k : Int) ≤ bRef.str0 ∧ (n : Int) ≤ cRef.str0 then
    cblas true (toInt m) (toInt n) (toInt k) a (toInt aRef.str0) b (toInt bRef.str0)
      (toInt cRef.str0) c
  else naiveSgemmTransb a b m n k aRef.str0 bRef.str0 cRef.str0 c

def sfaBatchSgemmTransb (aRef : MemRef3) (bRef : MemRef2) (cRef : MemRef3) (a b c : Mem) : Mem :=
  let batch := aRef.s0
  let m := aRef.s1
  let k := aRef.s2
  let n := bRef.s0
  let useBlas := aRef.str2 = 1 ∧ bRef.str1 = 1 ∧ cRef.str2 = 1 ∧ (k : Int) ≤ aRef.str1 ∧
    (k : Int) ≤ bRef.str0 ∧ (n : Int) ≤ cRef.str1
  (List.range batch).foldl (fun c (bidx : Nat) =>
    let aa : Mem := fun x => a (bidx * aRef.str0 + x)
    throughPointer (bidx * cRef.str0)
      (if useBlas then
        cblas true (toInt m) (toInt n) (toInt k) aa (toInt aRef.str1) b (toInt bRef.str0)
          (toInt cRef.str1)
      else naiveSgemmTransb aa b m n k aRef.str1 bRef.str0 cRef.str1) c) c

/-! ## What cblas_sgemm promises -/

variable (transB : Bool)

/-- The preconditions of a row-major call. -/
@[mk_iff]
structure Accepts (m n k lda ldb ldc : Int) : Prop where
  m_nonneg : 0 ≤ m
  n_nonneg : 0 ≤ n
  k_nonneg : 0 ≤ k
  lda : max 1 k ≤ lda
  ldb : max 1 (if transB then k else n) ≤ ldb
  ldc : max 1 n ≤ ldc

instance (m n k lda ldb ldc : Int) : Decidable (Accepts transB m n k lda ldb ldc) :=
  decidable_of_iff' _ (accepts_iff ..)

def entryOfB (ldb : Int) (p j : Nat) : Int :=
  if transB then j * ldb + p else p * ldb + j

/-- An exact product of row-major matrices under the preconditions, and no other write. -/
structure Documented : Prop where
  exact : ∀ {transB : Bool} {m n k : Nat} {lda ldb ldc : Int}, Accepts transB m n k lda ldb ldc →
    ∀ a b c, ∀ i < m, ∀ j < n, cblas transB m n k a lda b ldb ldc c (i * ldc + j) =
      ∑ p ∈ Finset.range k, a (i * lda + p) * b (entryOfB transB ldb p j)
  frame : ∀ {transB : Bool} {m n k : Nat} {lda ldb ldc : Int}, Accepts transB m n k lda ldb ldc →
    ∀ a b c x, (∀ i < m, ∀ j < n, (i * ldc + j : Int) ≠ x) →
      cblas transB m n k a lda b ldb ldc c x = c x

/-! ## The writes of a step -/

/-- The writes of one product, row by row. -/
def productWrites (a b : Mem) (m n k : Nat) (lda ldb ldc : Int) : List (Int × ℚ) :=
  (List.range m).flatMap fun (i : Nat) => (List.range n).flatMap fun (j : Nat) =>
    [((i * ldc + j : Int), ∑ p ∈ Finset.range k, a (i * lda + p) * b (entryOfB transB ldb p j))]

section

variable {transB : Bool} {a b : Mem} {m n k : Nat} {lda ldb ldc x : Int} {v : ℚ}

theorem mem_productWrites :
    (x, v) ∈ productWrites transB a b m n k lda ldb ldc ↔ ∃ i < m, ∃ j < n, x = i * ldc + j ∧
      v = ∑ p ∈ Finset.range k, a (i * lda + p) * b (entryOfB transB ldb p j) := by
  simp only [productWrites, List.mem_flatMap, List.mem_range, List.mem_singleton, Prod.mk.injEq]

theorem dotLoop_eq (k : Nat) (term : Nat → ℚ) :
    dotLoop k term = ∑ p ∈ Finset.range k, term p := by
  induction k with
  | zero => rfl
  | succ k ih =>
    rw [dotLoop, List.range_succ, List.foldl_append, Finset.sum_range_succ, ← ih]
    rfl

/-- The scalar loops, one definition for both of them. -/
def naive (transB : Bool) (a b : Mem) (m n k : Nat) (lda ldb ldc : Int) (c : Mem) : Mem :=
  if transB then naiveSgemmTransb a b m n k lda ldb ldc c
  else naiveSgemm a b m n k lda ldb ldc c

theorem memWrites_naive :
    MemWrites (naive transB a b m n k lda ldb ldc)
      (productWrites transB a b m n k lda ldb ldc) := by
  have hloops : naive transB a b m n k lda ldb ldc = fun c =>
      (List.range m).foldl (fun c (i : Nat) => (List.range n).foldl (fun c (j : Nat) =>
        Function.update c (i * ldc + j)
          (∑ p ∈ Finset.range k, a (i * lda + p) * b (entryOfB transB ldb p j))) c) c := by
    funext c
    cases transB with
    | false =>
      show naiveSgemm a b m n k lda ldb ldc c = _
      simp only [naiveSgemm, dotLoop_eq]
      rfl
    | true =>
      show naiveSgemmTransb a b m n k lda ldb ldc c = _
      simp only [naiveSgemmTransb, dotLoop_eq]
      rfl
  rw [hloops]
  exact .foldl fun i _ => .foldl fun j _ => .update _ _

theorem memWrites_cblas {cblas : Cblas} (hcblas : Documented cblas)
    (h : Accepts transB m n k lda ldb ldc) :
    MemWrites (cblas transB m n k a lda b ldb ldc)
      (productWrites transB a b m n k lda ldb ldc) where
  frame := by
    intro c x hx
    refine hcblas.frame h a b c x fun i hi j hj heq => ?_
    exact hx _ (mem_productWrites.2 ⟨i, hi, j, hj, heq.symm, rfl⟩)
  entry := by
    intro _ c x v hmem
    obtain ⟨i, hi, j, hj, rfl, rfl⟩ := mem_productWrites.1 hmem
    exact hcblas.exact h a b c i hi j hj

end

/-! ## One bridge for the four entry points -/

/-- A call of the bridge: the sizes, and the strides of each operand (`b` as stored). -/
structure Call where
  transB : Bool
  batch : Nat
  m : Nat
  n : Nat
  k : Nat
  a : Layout
  b : Layout
  c : Layout

namespace Call

variable (g : Call)

/-- The test for `cblas_sgemm`, a parameter that multiplies exactly under its preconditions on the
    sizes and leading dimensions. -/
def useBlas : Prop :=
  g.a.col = 1 ∧ g.b.col = 1 ∧ g.c.col = 1 ∧ (g.k : Int) ≤ g.a.row ∧
    ((if g.transB then g.k else g.n : Nat) : Int) ≤ g.b.row ∧ (g.n : Int) ≤ g.c.row
deriving Decidable

/-- One matrix of the batch. -/
def step (cblas : Cblas) (a b : Mem) : Mem → Mem :=
  if g.useBlas then
    cblas g.transB (toInt g.m) (toInt g.n) (toInt g.k) a (toInt g.a.row) b (toInt g.b.row)
      (toInt g.c.row)
  else naive g.transB a b g.m g.n g.k g.a.row g.b.row g.c.row

/-- The loop over the batch. -/
def run (cblas : Cblas) (a b c : Mem) : Mem :=
  (List.range g.batch).foldl (fun c (t : Nat) =>
    throughPointer (t * g.c.outer)
      (g.step cblas (fun x => a (t * g.a.outer + x)) fun x => b (t * g.b.outer + x)) c) c

/-- The second operand addressed by its place in the product: row `p`, column `j`. -/
def operandB : Layout := if g.transB then ⟨g.b.outer, g.b.col, g.b.row⟩ else g.b

variable (ld : Int)

def rowMajorA : Layout := ⟨g.a.outer, ld, 1⟩

def rowMajorB : Layout :=
  if g.transB then ⟨g.b.outer, 1, ld⟩ else ⟨g.b.outer, ld, 1⟩

def rowMajorC : Layout := ⟨g.c.outer, ld, 1⟩

theorem addr_rowMajorB (t p j : Nat) :
    (g.rowMajorB ld).addr t p j = t * g.b.outer + entryOfB g.transB ld p j := by
  rw [rowMajorB, entryOfB, Layout.addr]
  cases g.transB with
  | false => simp only [Bool.false_eq_true, if_false, mul_one, add_assoc]
  | true => simp only [if_true, mul_one, add_assoc, add_comm (p : Int)]

theorem addr_rowMajorA (t i p : Nat) :
    (g.rowMajorA ld).addr t i p = t * g.a.outer + (i * ld + p) := by
  simp only [rowMajorA, Layout.addr, mul_one, add_assoc]

theorem addr_rowMajorC (t i j : Nat) :
    (g.rowMajorC ld).addr t i j = t * g.c.outer + (i * ld + j) := by
  simp only [rowMajorC, Layout.addr, mul_one, add_assoc]

theorem productRun_of_step {cblas : Cblas} {m n k : Nat} {lda ldb ldc : Int}
    (h : ∀ a b, MemWrites (g.step cblas a b) (productWrites g.transB a b m n k lda ldb ldc)) :
    ProductRun (g.run cblas) g.batch m n k (g.rowMajorA lda) (g.rowMajorB ldb)
      (g.rowMajorC ldc) := by
  refine .of_writes (w := fun a b => (List.range g.batch).flatMap fun (t : Nat) =>
    (productWrites g.transB (fun x => a (t * g.a.outer + x)) (fun x => b (t * g.b.outer + x)) m n k
      lda ldb ldc).map fun e => (t * g.c.outer + e.1, e.2)) ?_ ?_
  · exact fun a b => .foldl fun t _ => (h _ _).throughPointer _
  · intro a b x v
    simp only [List.mem_flatMap, List.mem_range, List.mem_map, Prod.exists, Prod.mk.injEq,
      mem_productWrites, product, addr_rowMajorA, addr_rowMajorB, addr_rowMajorC]
    constructor
    · rintro ⟨t, ht, y, u, ⟨i, hi, j, hj, rfl, rfl⟩, rfl, rfl⟩
      exact ⟨t, ht, i, hi, j, hj, rfl, rfl⟩
    · rintro ⟨t, ht, i, hi, j, hj, rfl, rfl⟩
      exact ⟨t, ht, _, _, ⟨i, hi, j, hj, rfl, rfl⟩, rfl, rfl⟩

/-! ## When a call multiplies -/

/-- The layouts of a routine are those of the operands wherever the extents make it matter. -/
def AgreesWith (la lb lc : Layout) : Prop :=
  lc.Agrees g.c g.m g.n ∧ (g.k = 0 ∨ la.Agrees g.a g.m g.k ∧ lb.Agrees g.operandB g.k g.n)
deriving Decidable

/-- A BLAS call gets its sizes, and the leading dimensions survive the conversion to `int`. -/
def HandledByBlas : Prop :=
  toInt g.m = g.m ∧ toInt g.n = g.n ∧ toInt g.k = g.k ∧
    Accepts g.transB (toInt g.m) (toInt g.n) (toInt g.k) (toInt g.a.row) (toInt g.b.row)
      (toInt g.c.row) ∧
    g.AgreesWith (g.rowMajorA (toInt g.a.row)) (g.rowMajorB (toInt g.b.row))
      (g.rowMajorC (toInt g.c.row))
deriving Decidable

/-- The scalar loops multiply operands whose inner stride is one, if there is a second column. -/
def HandledByLoops : Prop :=
  g.AgreesWith (g.rowMajorA g.a.row) (g.rowMajorB g.b.row) (g.rowMajorC g.c.row)
deriving Decidable

/-- There is nothing to compute, or the branch that is taken can compute it. -/
def Handled : Prop :=
  g.batch = 0 ∨ g.m = 0 ∨ g.n = 0 ∨ if g.useBlas then g.HandledByBlas else g.HandledByLoops
deriving Decidable

/-- The call leaves the product at the entries of `c`, whatever the memories hold. -/
def Multiplies : Prop :=
  ∀ cblas, Documented cblas → Computes (g.run cblas) g.batch g.m g.n g.k g.a g.operandB g.c

variable {g}

theorem outer_rowMajorB : (g.rowMajorB ld).outer = g.operandB.outer := by
  rw [rowMajorB, operandB]
  cases g.transB <;> rfl

/-- Under row-major layouts: exactly when the sizes are theirs and the layouts agree with them. -/
theorem computes_iff_agrees (cblas : Cblas) (m n k : Nat) (lda ldb ldc : Int)
    (h : ∀ a b, MemWrites (g.step cblas a b) (productWrites g.transB a b m n k lda ldb ldc))
    (hbatch : 0 < g.batch) (hm : 0 < g.m) (hn : 0 < g.n) (hm' : m ≤ g.m) (hn' : n ≤ g.n)
    (hdistinct : g.c.Distinct g.batch g.m g.n) (hone : ldc = g.c.row ∨ g.c.col = 1) :
    Computes (g.run cblas) g.batch g.m g.n g.k g.a g.operandB g.c ↔ m = g.m ∧ n = g.n ∧ k = g.k ∧
        g.AgreesWith (g.rowMajorA lda) (g.rowMajorB ldb) (g.rowMajorC ldc) :=
  (g.productRun_of_step h).computes_iff hbatch hm hn hm' hn' hdistinct rfl (outer_rowMajorB ldb)
    rfl (hone.imp id Eq.symm)

end Call

/-! ## An implementation of cblas_sgemm -/

/-- A `cblas_sgemm` that returns without a write where its preconditions fail. -/
def checkedSgemm : Cblas := fun transB m n k a lda b ldb ldc c =>
  if Accepts transB m n k lda ldb ldc then
    naive transB a b m.toNat n.toNat k.toNat lda ldb ldc c
  else c

theorem entry_unique {n : Nat} {ldc : Int} (hldc : (n : Int) ≤ ldc) {i j i' j' : Nat}
    (hj : j < n) (hj' : j' < n) (h : (i * ldc + j : Int) = i' * ldc + j') : i = i' ∧ j = j' := by
  have hpos : (0 : Int) ≤ ldc := by omega
  -- a later row starts behind the end of an earlier one
  have hrow : ∀ {i i' j j' : Nat}, j < n → i < i' → (i * ldc + j : Int) ≠ i' * ldc + j' := by
    intro i i' j j' hj hlt heq
    have hle : ((i + 1 : Nat) : Int) * ldc ≤ i' * ldc :=
      mul_le_mul_of_nonneg_right (by exact_mod_cast hlt) hpos
    rw [Nat.cast_succ, add_mul, one_mul] at hle
    omega
  have hi : i = i' := by
    rcases Nat.lt_trichotomy i i' with hlt | heq | hlt
    · exact absurd h (hrow hj hlt)
    · exact heq
    · exact absurd h.symm (hrow hj' hlt)
  subst hi
  exact ⟨rfl, by omega⟩

theorem documented_checkedSgemm : Documented checkedSgemm where
  exact := by
    intro transB m n k lda ldb ldc h a b c i hi j hj
    rw [checkedSgemm, if_pos h, Int.toNat_natCast, Int.toNat_natCast, Int.toNat_natCast]
    refine memWrites_naive.entry (fun x v v' hv hv' => ?_) c _ _
      (mem_productWrites.2 ⟨i, hi, j, hj, rfl, rfl⟩)
    obtain ⟨i₁, -, j₁, hj₁, hx₁, rfl⟩ := mem_productWrites.1 hv
    obtain ⟨i₂, -, j₂, hj₂, hx₂, rfl⟩ := mem_productWrites.1 hv'
    obtain ⟨rfl, rfl⟩ := entry_unique ((le_max_right ..).trans h.ldc) hj₁ hj₂
      (hx₁.symm.trans hx₂)
    rfl
  frame := by
    intro transB m n k lda ldb ldc h a b c x hx
    rw [checkedSgemm, if_pos h, Int.toNat_natCast, Int.toNat_natCast, Int.toNat_natCast]
    refine memWrites_naive.frame c x fun v hv => ?_
    obtain ⟨i, hi, j, hj, heq, -⟩ := mem_productWrites.1 hv
    exact hx i hi j hj heq.symm

/-! ## The condition is exact -/

namespace Call

variable {g : Call}

theorem toInt_le (n : Nat) : toInt n ≤ n := by
  rw [toInt, Int.bmod_def]
  split <;> omega

theorem size_of_nonneg {n : Nat} (h : 0 ≤ toInt n) : ∃ n' : Nat, toInt n = n' ∧ n' ≤ n := by
  obtain ⟨n', hn'⟩ := Int.eq_ofNat_of_zero_le h
  have hle := toInt_le n
  exact ⟨n', hn', by omega⟩

theorem multiplies_iff_of_useBlas (hblas : g.useBlas) (hbatch : 0 < g.batch) (hm : 0 < g.m)
    (hn : 0 < g.n) (hdistinct : g.c.Distinct g.batch g.m g.n) :
    g.Multiplies ↔ g.HandledByBlas := by
  have hstep : ∀ cblas a b, g.step cblas a b =
      cblas g.transB (toInt g.m) (toInt g.n) (toInt g.k) a (toInt g.a.row) b (toInt g.b.row)
        (toInt g.c.row) := fun cblas a b => if_pos hblas
  by_cases haccepts : Accepts g.transB (toInt g.m) (toInt g.n) (toInt g.k) (toInt g.a.row)
      (toInt g.b.row) (toInt g.c.row)
  · obtain ⟨m, hm', hmle⟩ := size_of_nonneg haccepts.m_nonneg
    obtain ⟨n, hn', hnle⟩ := size_of_nonneg haccepts.n_nonneg
    obtain ⟨k, hk', -⟩ := size_of_nonneg haccepts.k_nonneg
    have hiff : ∀ cblas, Documented cblas →
        (Computes (g.run cblas) g.batch g.m g.n g.k g.a g.operandB g.c ↔
          m = g.m ∧ n = g.n ∧ k = g.k ∧ g.AgreesWith (g.rowMajorA (toInt g.a.row))
            (g.rowMajorB (toInt g.b.row)) (g.rowMajorC (toInt g.c.row))) := by
      intro cblas hcblas
      refine computes_iff_agrees cblas _ _ _ _ _ _ (fun a b => ?_) hbatch hm hn hmle hnle
        hdistinct (.inr hblas.2.2.1)
      rw [hm', hn', hk'] at haccepts
      rw [hstep, hm', hn', hk']
      exact memWrites_cblas hcblas haccepts
    rw [HandledByBlas, and_iff_right haccepts, hm', hn', hk', Nat.cast_inj,
      Nat.cast_inj, Nat.cast_inj]
    constructor
    · exact fun h => (hiff checkedSgemm documented_checkedSgemm).1
        (h checkedSgemm documented_checkedSgemm)
    · exact fun h cblas hcblas => (hiff cblas hcblas).2 h
  · refine iff_of_false (fun h => ?_) fun h => haccepts h.2.2.2.1
    -- the one that returns without a write has made the writes of an empty product
    have hnone := (computes_iff_agrees checkedSgemm 0 0 0 0 0 0 (fun a b => ?_) hbatch hm hn
      (Nat.zero_le _) (Nat.zero_le _) hdistinct (.inr hblas.2.2.1)).1
      (h checkedSgemm documented_checkedSgemm)
    · exact absurd hnone.1 (ne_of_lt hm)
    · have hid : g.step checkedSgemm a b = fun c => c := by
        rw [hstep]
        funext c
        exact if_neg haccepts
      rw [hid]
      exact .id

theorem multiplies_iff (hdistinct : g.c.Distinct g.batch g.m g.n) :
    g.Multiplies ↔ g.Handled := by
  by_cases hempty : g.batch = 0 ∨ g.m = 0 ∨ g.n = 0
  · refine iff_of_true ?_ ?_
    · intro cblas _ a b c t ht i hi j hj
      omega
    · rcases hempty with h | h | h
      · exact .inl h
      · exact .inr (.inl h)
      · exact .inr (.inr (.inl h))
  · have hbatch : 0 < g.batch := by omega
    have hm : 0 < g.m := by omega
    have hn : 0 < g.n := by omega
    rw [Handled, or_iff_right hbatch.ne', or_iff_right hm.ne', or_iff_right hn.ne']
    by_cases hblas : g.useBlas
    · rw [if_pos hblas]
      exact multiplies_iff_of_useBlas hblas hbatch hm hn hdistinct
    · rw [if_neg hblas]
      have hiff : ∀ cblas, Computes (g.run cblas) g.batch g.m g.n g.k g.a g.operandB g.c ↔
          g.AgreesWith (g.rowMajorA g.a.row) (g.rowMajorB g.b.row) (g.rowMajorC g.c.row) := by
        intro cblas
        have h := computes_iff_agrees cblas g.m g.n g.k g.a.row g.b.row g.c.row (fun a b => ?_)
          hbatch hm hn (le_refl _) (le_refl _) hdistinct (.inl rfl)
        · simpa only [true_and] using h
        · rw [step, if_neg hblas]
          exact memWrites_naive
      constructor
      · exact fun h => (hiff _).1 (h checkedSgemm documented_checkedSgemm)
      · exact fun h cblas _ => (hiff cblas).2 h

end Call

section EntryPoints

variable (cblas : Cblas) (batch m n k : Nat) (a0 a1 a2 b0 b1 b2 c0 c1 c2 : Int)

def sgemmCall : Call := ⟨false, 1, m, n, k, ⟨0, a1, a2⟩, ⟨0, b1, b2⟩, ⟨0, c1, c2⟩⟩

def batchSgemmCall : Call := ⟨false, batch, m, n, k, ⟨a0, a1, a2⟩, ⟨b0, b1, b2⟩, ⟨c0, c1, c2⟩⟩

def sgemmTransbCall : Call := ⟨true, 1, m, n, k, ⟨0, a1, a2⟩, ⟨0, b1, b2⟩, ⟨0, c1, c2⟩⟩

def batchSgemmTransbCall : Call :=
  ⟨true, batch, m, n, k, ⟨a0, a1, a2⟩, ⟨0, b1, b2⟩, ⟨c0, c1, c2⟩⟩

theorem run_single (g : Call) (hbatch : g.batch = 1) (hc : g.c.outer = 0) (ha : g.a.outer = 0)
    (hb : g.b.outer = 0) (a b : Mem) : g.run cblas a b = g.step cblas a b := by
  funext c
  rw [Call.run, hbatch, hc, ha, hb, List.range_one, List.foldl_cons, List.foldl_nil]
  simp only [mul_zero, zero_add, throughPointer_zero]

theorem sfaSgemm_eq :
    sfaSgemm cblas ⟨m, k, a1, a2⟩ ⟨k, n, b1, b2⟩ ⟨m, n, c1, c2⟩ =
      (sgemmCall m n k a1 a2 b1 b2 c1 c2).run cblas := by
  funext a b
  rw [run_single cblas (sgemmCall m n k a1 a2 b1 b2 c1 c2) rfl rfl rfl rfl]
  funext c
  rw [Call.step]
  by_cases hblas : (sgemmCall m n k a1 a2 b1 b2 c1 c2).useBlas
  · rw [if_pos hblas]
    exact if_pos hblas
  · rw [if_neg hblas]
    exact if_neg hblas

theorem sfaSgemmTransb_eq :
    sfaSgemmTransb cblas ⟨m, k, a1, a2⟩ ⟨n, k, b1, b2⟩ ⟨m, n, c1, c2⟩ =
      (sgemmTransbCall m n k a1 a2 b1 b2 c1 c2).run cblas := by
  funext a b
  rw [run_single cblas (sgemmTransbCall m n k a1 a2 b1 b2 c1 c2) rfl rfl rfl rfl]
  funext c
  rw [Call.step]
  by_cases hblas : (sgemmTransbCall m n k a1 a2 b1 b2 c1 c2).useBlas
  · rw [if_pos hblas]
    exact if_pos hblas
  · rw [if_neg hblas]
    exact if_neg hblas

theorem sfaBatchSgemm_eq :
    sfaBatchSgemm cblas ⟨batch, m, k, a0, a1, a2⟩ ⟨batch, k, n, b0, b1, b2⟩
        ⟨batch, m, n, c0, c1, c2⟩ =
      (batchSgemmCall batch m n k a0 a1 a2 b0 b1 b2 c0 c1 c2).run cblas := rfl

theorem sfaBatchSgemmTransb_eq :
    sfaBatchSgemmTransb cblas ⟨batch, m, k, a0, a1, a2⟩ ⟨n, k, b1, b2⟩
        ⟨batch, m, n, c0, c1, c2⟩ =
      (batchSgemmTransbCall batch m n k a0 a1 a2 b1 b2 c0 c1 c2).run cblas := by
  funext a b c
  have hshared : ∀ t : Nat, (fun x => b (t * (0 : Int) + x)) = b := by
    intro t
    simp only [mul_zero, zero_add]
  rw [Call.run]
  simp only [batchSgemmTransbCall, hshared]
  rfl

end EntryPoints

/-- The product under given strides, left at the entries of `c` by a call of the bridge. -/
def BridgeComputes (call : Cblas → Mem → Mem → Mem → Mem) (batch m n k : Nat)
    (la lb lc : Layout) : Prop :=
  ∀ cblas, Documented cblas → Computes (call cblas) batch m n k la lb lc

/-- Each entry point leaves the product under the operands' own strides when it is handled. -/
theorem bridge_computes_iff (batch m n k : Nat) (a0 a1 a2 b0 b1 b2 c0 c1 c2 : Int) :
    (Layout.Distinct ⟨0, c1, c2⟩ 1 m n →
      (BridgeComputes (fun cblas => sfaSgemm cblas ⟨m, k, a1, a2⟩ ⟨k, n, b1, b2⟩ ⟨m, n, c1, c2⟩)
          1 m n k ⟨0, a1, a2⟩ ⟨0, b1, b2⟩ ⟨0, c1, c2⟩ ↔
        (sgemmCall m n k a1 a2 b1 b2 c1 c2).Handled)) ∧
    (Layout.Distinct ⟨c0, c1, c2⟩ batch m n →
      (BridgeComputes (fun cblas => sfaBatchSgemm cblas ⟨batch, m, k, a0, a1, a2⟩
            ⟨batch, k, n, b0, b1, b2⟩ ⟨batch, m, n, c0, c1, c2⟩)
          batch m n k ⟨a0, a1, a2⟩ ⟨b0, b1, b2⟩ ⟨c0, c1, c2⟩ ↔
        (batchSgemmCall batch m n k a0 a1 a2 b0 b1 b2 c0 c1 c2).Handled)) ∧
    (Layout.Distinct ⟨0, c1, c2⟩ 1 m n →
      (BridgeComputes (fun cblas => sfaSgemmTransb cblas ⟨m, k, a1, a2⟩ ⟨n, k, b1, b2⟩
            ⟨m, n, c1, c2⟩)
          1 m n k ⟨0, a1, a2⟩ ⟨0, b2, b1⟩ ⟨0, c1, c2⟩ ↔
        (sgemmTransbCall m n k a1 a2 b1 b2 c1 c2).Handled)) ∧
    (Layout.Distinct ⟨c0, c1, c2⟩ batch m n →
      (BridgeComputes (fun cblas => sfaBatchSgemmTransb cblas ⟨batch, m, k, a0, a1, a2⟩
            ⟨n, k, b1, b2⟩ ⟨batch, m, n, c0, c1, c2⟩)
          batch m n k ⟨a0, a1, a2⟩ ⟨0, b2, b1⟩ ⟨c0, c1, c2⟩ ↔
        (batchSgemmTransbCall batch m n k a0 a1 a2 b1 b2 c0 c1 c2).Handled)) := by
  simp only [BridgeComputes, sfaSgemm_eq, sfaBatchSgemm_eq, sfaSgemmTransb_eq,
    sfaBatchSgemmTransb_eq]
  refine ⟨fun hdistinct => ?_, fun hdistinct => ?_, fun hdistinct => ?_, fun hdistinct => ?_⟩
  · exact (sgemmCall m n k a1 a2 b1 b2 c1 c2).multiplies_iff hdistinct
  · exact (batchSgemmCall batch m n k a0 a1 a2 b0 b1 b2 c0 c1 c2).multiplies_iff hdistinct
  · exact (sgemmTransbCall m n k a1 a2 b1 b2 c1 c2).multiplies_iff hdistinct
  · exact (batchSgemmTransbCall batch m n k a0 a1 a2 b1 b2 c0 c1 c2).multiplies_iff hdistinct

/-- A contiguous product of two by two matrices goes to BLAS. -/
theorem bridge_computes_contiguous :
    BridgeComputes (fun cblas => sfaSgemm cblas ⟨2, 2, 2, 1⟩ ⟨2, 2, 2, 1⟩ ⟨2, 2, 2, 1⟩) 1 2 2 2
      ⟨0, 2, 1⟩ ⟨0, 2, 1⟩ ⟨0, 2, 1⟩ :=
  ((bridge_computes_iff 1 2 2 2 0 2 1 0 2 1 0 2 1).1 (by decide)).2 (by decide)

/-- A transposed view falls back to the loop, which reads it as if its inner stride were 1. -/
theorem transposed_operand_fails :
    Layout.Distinct ⟨0, 2, 1⟩ 1 2 2 ∧
      ¬ BridgeComputes (fun cblas => sfaSgemm cblas ⟨2, 2, 1, 2⟩ ⟨2, 2, 2, 1⟩ ⟨2, 2, 2, 1⟩) 1 2 2 2
        ⟨0, 1, 2⟩ ⟨0, 2, 1⟩ ⟨0, 2, 1⟩ := by
  have hdistinct : Layout.Distinct ⟨0, 2, 1⟩ 1 2 2 := by decide
  refine ⟨hdistinct, fun h => ?_⟩
  simp only [BridgeComputes, sfaSgemm_eq] at h
  have hhandled := ((sgemmCall 2 2 2 1 2 2 1 2 1).multiplies_iff hdistinct).1 h
  exact absurd hhandled (by decide)

end CompileForge.Compiler.BlasBridge
