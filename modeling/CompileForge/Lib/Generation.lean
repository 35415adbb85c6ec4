/-
  Lists that a function of what is already there generates one element at a time, and where
  such a list first meets a stopping condition.
-/

import Mathlib.Data.List.Infix

namespace CompileForge.Lib

open List

variable {α : Type*}

/-- Every element is the next of what stands before it. -/
inductive Generated (next : List α → Option α) : List α → Prop
  | nil : Generated next []
  | snoc {l : List α} {a : α} : Generated next l → next l = some a → Generated next (l ++ [a])

variable {next : List α → Option α} {l l' : List α} {a : α}

/-- The last element is the next of the others. -/
theorem Generated.last (h : Generated next (l ++ [a])) : Generated next l ∧ next l = some a := by
  generalize hall : l ++ [a] = all at h
  cases h with
  | nil => simp at hall
  | snoc hl hnext =>
    obtain ⟨rfl, hsingle⟩ := append_inj' hall rfl
    cases hsingle
    exact ⟨hl, hnext⟩

/-- Every element is the next of those before it. -/
theorem Generated.at_index (h : Generated next (l ++ a :: l')) : next l = some a := by
  induction l' using reverseRecOn with
  | nil => exact h.last.2
  | append_singleton l' b ih =>
    have hinit : l ++ a :: (l' ++ [b]) = (l ++ a :: l') ++ [b] := by simp
    rw [hinit] at h
    exact ih h.last.1

/-- Two generated lists are comparable. -/
theorem Generated.comparable (h : Generated next l) (h' : Generated next l') :
    l <+: l' ∨ l' <+: l := by
  induction h with
  | nil => exact .inl ⟨_, rfl⟩
  | @snoc l a hl hnext ih =>
    rcases ih with hle | hle
    · obtain ⟨rest, rfl⟩ := hle
      cases rest with
      | nil =>
        rw [append_nil]
        exact .inr (prefix_append l [a])
      | cons b rest =>
        -- both lists go on with the same element
        have hb : some b = some a := h'.at_index.symm.trans hnext
        cases hb
        exact .inl ⟨rest, by simp⟩
    · exact .inr (hle.trans (prefix_append l [a]))

/-- No prefix meets the condition. -/
def Unstopped (stop : List α → Prop) (l : List α) : Prop := ∀ p, p <+: l → ¬ stop p

/-- The list meets the condition, and no shorter prefix of it does. -/
def StopsFirst (stop : List α → Prop) (l : List α) : Prop :=
  stop l ∧ ∀ p, p <+: l → p ≠ l → ¬ stop p

variable {stop : List α → Prop}

theorem Unstopped.nil (h : ¬ stop []) : Unstopped stop [] := by
  intro p hp
  rw [prefix_nil.1 hp]
  exact h

theorem prefix_snoc_cases {p : List α} (h : p <+: l ++ [a]) : p <+: l ∨ p = l ++ [a] := by
  rcases prefix_concat_iff.1 (by simpa using h) with heq | hle
  · exact .inr (by simpa using heq)
  · exact .inl hle

/-- A list may grow as long as the condition is not met. -/
theorem Unstopped.snoc (h : Unstopped stop l) (hstop : ¬ stop (l ++ [a])) :
    Unstopped stop (l ++ [a]) := by
  intro p hp
  rcases prefix_snoc_cases hp with hle | rfl
  · exact h p hle
  · exact hstop

/-- The element that meets the condition is the last. -/
theorem Unstopped.stopsFirst (h : Unstopped stop l) (hstop : stop (l ++ [a])) :
    StopsFirst stop (l ++ [a]) := by
  refine ⟨hstop, fun p hp hne => ?_⟩
  rcases prefix_snoc_cases hp with hle | heq
  · exact h p hle
  · exact absurd heq hne

/-- Two generated lists are equal if both ended where they first had to. -/
theorem Generated.eq_of_stopsFirst (h : Generated next l) (h' : Generated next l')
    (hstop : StopsFirst stop l) (hstop' : StopsFirst stop l') : l = l' := by
  by_contra hne
  rcases h.comparable h' with hle | hle
  · exact hstop'.2 l hle hne hstop.1
  · exact hstop.2 l' hle (Ne.symm hne) hstop'.1

end CompileForge.Lib
