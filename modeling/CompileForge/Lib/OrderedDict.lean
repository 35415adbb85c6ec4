/-
  A dictionary that keeps the order of insertion, as the list of its entries.
-/

import Mathlib.Data.List.Nodup

namespace CompileForge.Lib

open List

variable {κ β : Type*} [DecidableEq κ]

/-- A key it has gets a new value where it stands; a new key is appended. -/
def setKey (d : List (κ × β)) (k : κ) (v : β) : List (κ × β) :=
  match d with
  | [] => [(k, v)]
  | e :: d => if e.1 = k then (k, v) :: d else e :: setKey d k v

def setDefault (d : List (κ × β)) (k : κ) (v : β) : List (κ × β) :=
  if (d.lookup k).isSome then d else d ++ [(k, v)]

/-- `d.update(new)`. -/
def updateKeys (d new : List (κ × β)) : List (κ × β) :=
  new.foldl (fun d e => setKey d e.1 e.2) d

variable {d : List (κ × β)} {k k' : κ} {v w : β}

@[simp] theorem lookup_setKey_self : (setKey d k v).lookup k = some v := by
  induction d with
  | nil => exact lookup_cons_self
  | cons e d ih =>
    rw [setKey]
    split
    · exact lookup_cons_self
    · rename_i hk
      rw [lookup_cons, beq_eq_false_iff_ne.2 (Ne.symm hk)]
      exact ih

theorem lookup_setKey_ne (h : k' ≠ k) : (setKey d k v).lookup k' = d.lookup k' := by
  induction d with
  | nil => rw [setKey, lookup_cons, beq_eq_false_iff_ne.2 h]
  | cons e d ih =>
    rw [setKey]
    split
    · rename_i hk
      rw [lookup_cons, lookup_cons, beq_eq_false_iff_ne.2 h, hk, beq_eq_false_iff_ne.2 h]
    · rw [lookup_cons, lookup_cons, ih]

theorem lookup_setKey_cases (h : (setKey d k v).lookup k' = some w) :
    d.lookup k' = some w ∨ k' = k ∧ w = v := by
  by_cases hk : k' = k
  · subst hk
    rw [lookup_setKey_self] at h
    exact .inr ⟨rfl, (Option.some.inj h).symm⟩
  · rw [lookup_setKey_ne hk] at h
    exact .inl h

theorem keys_setKey : (setKey d k v).map Prod.fst =
    if k ∈ d.map Prod.fst then d.map Prod.fst else d.map Prod.fst ++ [k] := by
  induction d with
  | nil => rfl
  | cons e d ih =>
    rw [setKey]
    by_cases hk : e.1 = k
    · rw [if_pos hk, if_pos (mem_map.2 ⟨e, mem_cons_self, hk⟩)]
      simp only [map_cons, hk]
    · rw [if_neg hk, map_cons, map_cons, ih]
      by_cases hmem : k ∈ d.map Prod.fst
      · rw [if_pos hmem, if_pos (mem_cons_of_mem _ hmem)]
      · have hcons : k ∉ e.1 :: d.map Prod.fst := by
          rw [mem_cons, not_or]
          exact ⟨Ne.symm hk, hmem⟩
        rw [if_neg hmem, if_neg hcons, cons_append]

theorem nodup_keys_setKey (h : (d.map Prod.fst).Nodup) :
    ((setKey d k v).map Prod.fst).Nodup := by
  rw [keys_setKey]
  split
  · exact h
  · rename_i hk
    exact nodup_append.2 ⟨h, nodup_singleton k, fun a ha b hb hab =>
      hk (mem_singleton.1 hb ▸ hab ▸ ha)⟩

theorem isSome_lookup : (d.lookup k).isSome = true ↔ k ∈ d.map Prod.fst := by
  induction d with
  | nil => simp
  | cons e d ih =>
    rw [lookup_cons, map_cons, mem_cons]
    by_cases hk : k = e.1
    · subst hk
      simp
    · rw [beq_eq_false_iff_ne.2 hk, or_iff_right hk]
      exact ih

theorem mem_of_lookup (h : d.lookup k = some v) : (k, v) ∈ d := by
  obtain ⟨before, behind, hd, -⟩ := lookup_eq_some_iff.1 h
  exact hd ▸ mem_append_right before mem_cons_self

theorem lookup_of_mem (hnodup : (d.map Prod.fst).Nodup) (h : (k, v) ∈ d) :
    d.lookup k = some v := by
  induction d with
  | nil => cases h
  | cons e d ih =>
    rw [map_cons, nodup_cons] at hnodup
    rcases mem_cons.1 h with rfl | h
    · exact lookup_cons_self
    · have hne : k ≠ e.1 := fun heq => hnodup.1 (heq ▸ mem_map_of_mem h)
      rw [lookup_cons, beq_eq_false_iff_ne.2 hne]
      exact ih hnodup.2 h

end CompileForge.Lib
