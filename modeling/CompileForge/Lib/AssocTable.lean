/-
  Sums over the values of a finite association table (`AList`), and how they
  move when one key is written or erased.
-/

import Mathlib.Data.Finmap
import Mathlib.Algebra.GroupWithZero.Nat

namespace CompileForge.Lib

open List

variable {κ β : Type*}

/-- `f` summed over all the values of the table. -/
def tableSum (f : β → Nat) (t : AList (fun _ : κ => β)) : Nat :=
  (t.entries.map fun e => f e.2).sum

@[simp] theorem tableSum_empty (f : β → Nat) :
    tableSum f (∅ : AList (fun _ : κ => β)) = 0 := rfl

variable [DecidableEq κ] {f : β → Nat} {t : AList (fun _ : κ => β)} {k k' : κ} {v w : β}

variable {l : List (Sigma fun _ : κ => β)}

private theorem sum_kerase (h : l.dlookup k = some v) :
    ((l.kerase k).map fun e => f e.2).sum + f v = (l.map fun e => f e.2).sum := by
  induction l with
  | nil => simp at h
  | cons e l ih =>
    by_cases hk : k = e.1
    · subst hk
      rw [dlookup_cons_eq, Option.some.injEq] at h
      rw [kerase_cons_eq rfl, map_cons, sum_cons, ← h, add_comm]
    · rw [dlookup_cons_ne l e hk] at h
      rw [kerase_cons_ne hk, map_cons, map_cons, sum_cons, sum_cons, add_assoc, ih h]

theorem tableSum_erase (h : t.lookup k = some v) :
    tableSum f (t.erase k) + f v = tableSum f t :=
  sum_kerase h

theorem tableSum_erase_of_notMem (h : t.lookup k = none) :
    tableSum f (t.erase k) = tableSum f t := by
  have hk : k ∉ t.entries.keys := fun hm => AList.lookup_eq_none.1 h (AList.mem_keys.2 hm)
  simp only [tableSum, AList.erase, kerase_of_notMem_keys hk]

theorem tableSum_insert : tableSum f (t.insert k v) = f v + tableSum f (t.erase k) := by
  simp only [tableSum, AList.entries_insert, AList.erase, map_cons, sum_cons]

theorem tableSum_insert_of_notMem (h : t.lookup k = none) :
    tableSum f (t.insert k v) = f v + tableSum f t := by
  rw [tableSum_insert, tableSum_erase_of_notMem h]

theorem tableSum_insert_of_mem (h : t.lookup k = some w) :
    tableSum f (t.insert k v) + f w = f v + tableSum f t := by
  rw [tableSum_insert, add_assoc, tableSum_erase h]

theorem le_tableSum (h : t.lookup k = some v) : f v ≤ tableSum f t := by
  rw [← tableSum_erase (f := f) h]
  exact Nat.le_add_left ..

theorem add_le_tableSum (h : t.lookup k = some v) (h' : t.lookup k' = some w) (hne : k ≠ k') :
    f v + f w ≤ tableSum f t := by
  rw [← tableSum_erase (f := f) h]
  have hw : (t.erase k).lookup k' = some w := by rwa [AList.lookup_erase_ne hne.symm]
  have := le_tableSum (f := f) hw
  omega

def tableOf (keys : List κ) (v : β) : AList (fun _ : κ => β) :=
  keys.foldr (fun k t => t.insert k v) ∅

theorem isSome_lookup_tableOf {keys : List κ} {v : β} {k : κ} :
    ((tableOf keys v).lookup k).isSome = true ↔ k ∈ keys := by
  induction keys with
  | nil =>
    rw [tableOf, foldr_nil, AList.lookup_empty]
    exact iff_of_false (nofun) not_mem_nil
  | cons k' keys ih =>
    show (((tableOf keys v).insert k' v).lookup k).isSome = true ↔ _
    rw [mem_cons, ← ih]
    by_cases hk : k = k'
    · subst hk
      rw [AList.lookup_insert]
      exact iff_of_true rfl (.inl rfl)
    · rw [AList.lookup_insert_ne hk, or_iff_right hk]

/-! ## The values of a table -/

/-- What an ownership ledger counts: "how often does `b` occur in all the tables together". -/
def tableValues (t : AList (fun _ : κ => β)) : List β := t.entries.map (·.2)

section

omit [DecidableEq κ]

@[simp] theorem tableValues_empty : tableValues (∅ : AList (fun _ : κ => β)) = [] := rfl

@[simp] theorem length_tableValues : (tableValues t).length = t.entries.length :=
  length_map ..

end

theorem tableValues_insert : tableValues (t.insert k v) = v :: tableValues (t.erase k) := by
  simp only [tableValues, AList.entries_insert, AList.erase, map_cons]

theorem tableValues_erase_of_notMem (h : t.lookup k = none) :
    tableValues (t.erase k) = tableValues t := by
  have hk : k ∉ t.entries.keys := fun hm => AList.lookup_eq_none.1 h (AList.mem_keys.2 hm)
  simp only [tableValues, AList.erase, kerase_of_notMem_keys hk]

private theorem values_kerase (h : l.dlookup k = some v) :
    (v :: (l.kerase k).map (·.2)).Perm (l.map (·.2)) := by
  induction l with
  | nil => simp at h
  | cons e l ih =>
    by_cases hk : k = e.1
    · subst hk
      rw [dlookup_cons_eq, Option.some.injEq] at h
      rw [kerase_cons_eq rfl, map_cons, ← h]
    · rw [dlookup_cons_ne l e hk] at h
      rw [kerase_cons_ne hk, map_cons, map_cons]
      exact (List.Perm.swap ..).trans ((ih h).cons _)

theorem tableValues_erase (h : t.lookup k = some v) :
    (v :: tableValues (t.erase k)).Perm (tableValues t) :=
  values_kerase h

theorem length_entries_erase (h : t.lookup k = some v) :
    (t.erase k).entries.length + 1 = t.entries.length := by
  have hlen := (tableValues_erase h).length_eq
  rwa [length_cons, length_tableValues, length_tableValues] at hlen

theorem length_entries_erase_of_notMem (h : t.lookup k = none) :
    (t.erase k).entries.length = t.entries.length := by
  rw [← length_tableValues, tableValues_erase_of_notMem h, length_tableValues]

theorem length_entries_insert :
    (t.insert k v).entries.length = (t.erase k).entries.length + 1 := by
  rw [← length_tableValues, tableValues_insert, length_cons, length_tableValues]

theorem key_unique_of_nodup (hnodup : (tableValues t).Nodup) (h : t.lookup k = some v)
    (h' : t.lookup k' = some v) : k = k' := by
  by_contra hne
  have hmem : v ∈ tableValues (t.erase k) := by
    have hrest : (t.erase k).lookup k' = some v := by rwa [AList.lookup_erase_ne (Ne.symm hne)]
    exact (tableValues_erase hrest).mem_iff.1 mem_cons_self
  exact (nodup_cons.1 ((tableValues_erase h).nodup_iff.2 hnodup)).1 hmem

end CompileForge.Lib
