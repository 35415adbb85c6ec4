/-
  The interface of a max-heap.
-/

import Mathlib.Data.List.Perm.Basic

namespace CompileForge.Lib

open List

/-- What `push` and `pop` do to the elements; the order among elements of one rank is left to the
    implementation. -/
structure MaxHeap (α : Type) (rank : α → Int) where
  Carrier : Type
  empty : Carrier
  push : Carrier → α → Carrier
  pop : Carrier → Option (α × Carrier)
  items : Carrier → List α
  items_empty : items empty = []
  items_push : ∀ q a, (items (push q a)).Perm (a :: items q)
  pop_none : ∀ q, pop q = none → items q = []
  pop_perm : ∀ q a q', pop q = some (a, q') → (items q).Perm (a :: items q')
  pop_max : ∀ q a q', pop q = some (a, q') → ∀ b ∈ items q, rank b ≤ rank a

namespace MaxHeap

variable {α : Type} {rank : α → Int} (heap : MaxHeap α rank) {q q' : heap.Carrier} {a : α}

theorem length_pop (h : heap.pop q = some (a, q')) :
    (heap.items q).length = (heap.items q').length + 1 :=
  (heap.pop_perm q a q' h).length_eq

theorem mem_push {b : α} : b ∈ heap.items (heap.push q a) ↔ b = a ∨ b ∈ heap.items q := by
  rw [(heap.items_push q a).mem_iff, mem_cons]

theorem mem_pop (h : heap.pop q = some (a, q')) {b : α} :
    b ∈ heap.items q ↔ b = a ∨ b ∈ heap.items q' := by
  rw [(heap.pop_perm q a q' h).mem_iff, mem_cons]

theorem push_pop (h : heap.pop q = some (a, q')) :
    (heap.items (heap.push q' a)).Perm (heap.items q) :=
  (heap.items_push q' a).trans (heap.pop_perm q a q' h).symm

/-! ## A list as a heap -/

/-- The first element of the highest rank, and the others in their order. -/
def takeMax (rank : α → Int) : α → List α → α × List α
  | a, [] => (a, [])
  | a, b :: l =>
    if rank a < rank b then
      let best := takeMax rank b l
      (best.1, a :: best.2)
    else
      let best := takeMax rank a l
      (best.1, b :: best.2)

theorem takeMax_perm (rank : α → Int) (a : α) (l : List α) :
    (a :: l).Perm ((takeMax rank a l).1 :: (takeMax rank a l).2) := by
  induction l generalizing a with
  | nil => exact .refl _
  | cons b l ih =>
    rw [takeMax]
    split
    · exact ((ih b).cons a).trans (.swap ..)
    · exact (List.Perm.swap ..).trans (((ih a).cons b).trans (.swap ..))

theorem takeMax_max (rank : α → Int) (a : α) (l : List α) :
    ∀ b ∈ a :: l, rank b ≤ rank (takeMax rank a l).1 := by
  induction l generalizing a with
  | nil =>
    intro b hb
    rw [mem_singleton.1 hb]
    exact Int.le_refl _
  | cons c l ih =>
    intro b hb
    rw [takeMax]
    split
    · rename_i hlt
      rcases mem_cons.1 hb with rfl | hb
      · exact Int.le_trans (Int.le_of_lt hlt) (ih c c mem_cons_self)
      · exact ih c b hb
    · rename_i hle
      rcases mem_cons.1 hb with rfl | hb
      · exact ih b b mem_cons_self
      · rcases mem_cons.1 hb with rfl | hb
        · exact Int.le_trans (Int.not_lt.1 hle) (ih a a mem_cons_self)
        · exact ih a b (mem_cons_of_mem a hb)

/-- The list implementation: elements of one rank leave in the order they came. -/
def ofList (rank : α → Int) : MaxHeap α rank where
  Carrier := List α
  empty := []
  push := fun q a => q ++ [a]
  pop := fun q =>
    match q with
    | [] => none
    | a :: l => some (takeMax rank a l)
  items := id
  items_empty := rfl
  items_push := fun q a => perm_append_singleton a q
  pop_none := fun q h => by
    cases q with
    | nil => rfl
    | cons => cases h
  pop_perm := fun q a q' h => by
    cases q with
    | nil => cases h
    | cons b l =>
      have heq : takeMax rank b l = (a, q') := Option.some.inj h
      have hperm := takeMax_perm rank b l
      rwa [heq] at hperm
  pop_max := fun q a q' h => by
    cases q with
    | nil => cases h
    | cons b l =>
      have heq : takeMax rank b l = (a, q') := Option.some.inj h
      have hmax := takeMax_max rank b l
      rwa [heq] at hmax

end MaxHeap

end CompileForge.Lib
