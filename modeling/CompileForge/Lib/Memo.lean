/-
  A table that remembers the results of a computation by a key of the request.  A request may be
  refused before the table is asked.
-/

import Mathlib.Data.List.Basic

namespace CompileForge.Lib

open List

/-- How requests are served: what refuses them, their key, and the result they compute. -/
structure Memo (ρ κ ε ν : Type) where
  guard : ρ → Except ε Unit
  key : ρ → κ
  compute : ρ → Except ε ν

namespace Memo

variable {ρ κ ε ν : Type} [DecidableEq κ] (m : Memo ρ κ ε ν)

/-- The answer without a table. -/
def fresh (r : ρ) : Except ε ν :=
  match m.guard r with
  | .error e => .error e
  | .ok () => m.compute r

/-- The answer with a table, and the table afterwards. -/
def serve (t : κ → Option ν) (r : ρ) : Except ε ν × (κ → Option ν) :=
  match m.guard r with
  | .error e => (.error e, t)
  | .ok () =>
    match t (m.key r) with
    | some v => (.ok v, t)
    | none =>
      match m.compute r with
      | .error e => (.error e, t)
      | .ok v => (.ok v, Function.update t (m.key r) (some v))

/-- A failed computation is not remembered, and what is remembered stays. -/
def tableAfter (rs : List ρ) : κ → Option ν :=
  rs.foldl (fun t r => (m.serve t r).2) fun _ => none

/-- What a request computes is what every later request with its key computes. -/
def Consistent (rs : List ρ) : Prop :=
  ∀ (i j : Nat) (r r' : ρ), i < j → rs[i]? = some r → rs[j]? = some r' → m.guard r = .ok () →
    m.guard r' = .ok () → m.key r = m.key r' → ∀ v, m.compute r = .ok v → m.compute r' = .ok v

/-- Every request of the sequence is answered as with an empty table. -/
def Transparent (rs : List ρ) : Prop :=
  ∀ (k : Nat) (r : ρ), rs[k]? = some r → (m.serve (m.tableAfter (rs.take k)) r).1 = m.fresh r

variable {m} {rs : List ρ} {r : ρ} {t : κ → Option ν} {k : Nat} {a : κ} {v : ν}

/-! ## Serving -/

theorem serve_refused {e : ε} (hguard : m.guard r = .error e) : m.serve t r = (.error e, t) := by
  rw [serve, hguard]

theorem serve_hit (hguard : m.guard r = .ok ()) (hentry : t (m.key r) = some v) :
    m.serve t r = (.ok v, t) := by
  rw [serve, hguard]
  simp only [hentry]

theorem serve_failed {e : ε} (hguard : m.guard r = .ok ()) (hentry : t (m.key r) = none)
    (hcompute : m.compute r = .error e) : m.serve t r = (.error e, t) := by
  rw [serve, hguard]
  simp only [hentry, hcompute]

theorem serve_computed (hguard : m.guard r = .ok ()) (hentry : t (m.key r) = none)
    (hcompute : m.compute r = .ok v) :
    m.serve t r = (.ok v, Function.update t (m.key r) (some v)) := by
  rw [serve, hguard]
  simp only [hentry, hcompute]

/-! ## Tables -/

theorem tableAfter_succ (hk : rs[k]? = some r) :
    m.tableAfter (rs.take (k + 1)) = (m.serve (m.tableAfter (rs.take k)) r).2 := by
  rw [tableAfter, take_add_one, hk, foldl_append]
  rfl

theorem serve_entry (h : (m.serve t r).2 a = some v) :
    t a = some v ∨ m.guard r = .ok () ∧ m.key r = a ∧ m.compute r = .ok v := by
  cases hguard : m.guard r with
  | error =>
    rw [serve_refused hguard] at h
    exact .inl h
  | ok =>
    cases hentry : t (m.key r) with
    | some =>
      rw [serve_hit hguard hentry] at h
      exact .inl h
    | none =>
      cases hcompute : m.compute r with
      | error =>
        rw [serve_failed hguard hentry hcompute] at h
        exact .inl h
      | ok =>
        rw [serve_computed hguard hentry hcompute] at h
        dsimp only at h
        rw [Function.update_apply] at h
        split_ifs at h with ha
        · cases h
          exact .inr ⟨rfl, ha.symm, rfl⟩
        · exact .inl h

theorem serve_keeps (h : t a = some v) : (m.serve t r).2 a = some v := by
  cases hguard : m.guard r with
  | error =>
    rw [serve_refused hguard]
    exact h
  | ok =>
    cases hentry : t (m.key r) with
    | some =>
      rw [serve_hit hguard hentry]
      exact h
    | none =>
      cases hcompute : m.compute r with
      | error =>
        rw [serve_failed hguard hentry hcompute]
        exact h
      | ok =>
        have hne : a ≠ m.key r := by
          rintro rfl
          rw [hentry] at h
          cases h
        rw [serve_computed hguard hentry hcompute]
        exact (Function.update_of_ne hne _ _).trans h

theorem serve_remembers (hguard : m.guard r = .ok ()) (h : (m.serve t r).1 = .ok v) :
    (m.serve t r).2 (m.key r) = some v := by
  cases hentry : t (m.key r) with
  | some =>
    rw [serve_hit hguard hentry] at h ⊢
    cases h
    exact hentry
  | none =>
    cases hcompute : m.compute r with
    | error =>
      rw [serve_failed hguard hentry hcompute] at h
      cases h
    | ok =>
      rw [serve_computed hguard hentry hcompute] at h ⊢
      cases h
      exact Function.update_self _ _ _

theorem tableAfter_entry (h : m.tableAfter (rs.take k) a = some v) :
    ∃ (i : Nat) (r : ρ), i < k ∧ rs[i]? = some r ∧ m.guard r = .ok () ∧ m.key r = a ∧
      m.compute r = .ok v := by
  induction k with
  | zero =>
    rw [take_zero] at h
    cases h
  | succ k ih =>
    cases hk : rs[k]? with
    | none =>
      rw [take_add_one, hk, Option.toList_none, append_nil] at h
      obtain ⟨i, r, hi, hr⟩ := ih h
      exact ⟨i, r, by omega, hr⟩
    | some r =>
      rw [tableAfter_succ hk] at h
      rcases serve_entry h with h | ⟨hguard, hkey, hcompute⟩
      · obtain ⟨i, r', hi, hr⟩ := ih h
        exact ⟨i, r', by omega, hr⟩
      · exact ⟨k, r, by omega, hk, hguard, hkey, hcompute⟩

theorem tableAfter_mono {j : Nat} (h : m.tableAfter (rs.take k) a = some v) (hj : k ≤ j) :
    m.tableAfter (rs.take j) a = some v := by
  induction j with
  | zero =>
    have hzero : k = 0 := by omega
    rwa [hzero] at h
  | succ j ih =>
    by_cases hlast : k = j + 1
    · rwa [hlast] at h
    · have hprev := ih (by omega)
      cases hget : rs[j]? with
      | none => rwa [take_add_one, hget, Option.toList_none, append_nil]
      | some =>
        rw [tableAfter_succ hget]
        exact serve_keeps hprev

theorem transparent_iff : m.Transparent rs ↔ m.Consistent rs := by
  constructor
  · intro h i j r r' hij hi hj hguard hguard' hkey v hcompute
    have hserve : (m.serve (m.tableAfter (rs.take i)) r).1 = .ok v := by
      rw [h i r hi, fresh, hguard]
      exact hcompute
    have hentry : m.tableAfter (rs.take (i + 1)) (m.key r) = some v := by
      rw [tableAfter_succ hi]
      exact serve_remembers hguard hserve
    have hlater := tableAfter_mono hentry (j := j) (by omega)
    rw [hkey] at hlater
    have hanswer := h j r' hj
    rw [serve_hit hguard' hlater, fresh, hguard'] at hanswer
    exact hanswer.symm
  · intro h k r hk
    rw [fresh]
    cases hguard : m.guard r with
    | error => rw [serve_refused hguard]
    | ok =>
      cases hentry : m.tableAfter (rs.take k) (m.key r) with
      | some v =>
        obtain ⟨i, r', hi, hr', hguard', hkey, hcompute⟩ := tableAfter_entry hentry
        rw [serve_hit hguard hentry]
        exact (h i k r' r hi hr' hk hguard' hguard hkey v hcompute).symm
      | none =>
        cases hcompute : m.compute r with
        | error => rw [serve_failed hguard hentry hcompute]
        | ok => rw [serve_computed hguard hentry hcompute]

end Memo

end CompileForge.Lib
