/-
  Names built from a base and a decimal number: digits are never a separator, so
  the last separator of such a name splits it back into base and number.
-/

import Mathlib.Data.List.Basic

namespace CompileForge.Lib

open List

theorem append_cons_inj_of_last {α : Type*} {x : α} {a b c d : List α} (hc : x ∉ c) (hd : x ∉ d)
    (h : a ++ x :: c = b ++ x :: d) : a = b ∧ c = d := by
  induction a generalizing b with
  | nil =>
    cases b with
    | nil => exact ⟨rfl, (List.cons.inj h).2⟩
    | cons y b =>
      -- the other separator would lie in `c`
      obtain ⟨-, htail⟩ := List.cons.inj h
      exact absurd (htail ▸ mem_append_right b mem_cons_self) hc
  | cons y a ih =>
    cases b with
    | nil =>
      obtain ⟨-, htail⟩ := List.cons.inj h
      exact absurd (htail ▸ mem_append_right a mem_cons_self) hd
    | cons =>
      obtain ⟨rfl, htail⟩ := List.cons.inj h
      obtain ⟨rfl, hrest⟩ := ih htail
      exact ⟨rfl, hrest⟩

theorem digits_injective {m n : Nat} (h : Nat.toDigits 10 m = Nat.toDigits 10 n) : m = n := by
  have hvalue := congrArg (Nat.ofDigitChars 10 · 0) h
  simpa only [Nat.ofDigitChars_ten_toDigits] using hvalue

theorem notMem_digits {c : Char} (hc : c.isDigit = false) (n : Nat) : c ∉ Nat.toDigits 10 n := by
  intro hmem
  rw [Nat.isDigit_of_mem_toDigits (by decide) (by decide) hmem] at hc
  cases hc

theorem append_repr_injective (base : String) {m n : Nat}
    (h : base ++ Nat.repr m = base ++ Nat.repr n) :
    m = n := by
  have hlist := congrArg String.toList h
  simp only [String.toList_append, Nat.toList_repr] at hlist
  exact digits_injective (append_cancel_left hlist)

theorem notMem_intRepr {c : Char} (hc : c.isDigit = false) (hsign : c ≠ '-') (z : Int) :
    c ∉ z.repr.toList := by
  rw [Int.repr_eq_if]
  split
  · rw [Nat.toList_repr]
    exact notMem_digits hc _
  · rw [String.toList_append, Nat.toList_repr, mem_append, not_or]
    exact ⟨fun h => hsign (mem_singleton.1 h), notMem_digits hc _⟩

theorem intRepr_injective {a b : Int} (h : a.repr = b.repr) : a = b := by
  have hdash : ∀ m n : Nat, m.repr ≠ "-" ++ n.repr := by
    intro m n hmn
    have hmem : '-' ∈ m.repr.toList := by
      rw [hmn, String.toList_append]
      exact mem_append_left _ (mem_singleton.2 rfl)
    rw [Nat.toList_repr] at hmem
    exact notMem_digits (by decide) m hmem
  rw [Int.repr_eq_if, Int.repr_eq_if] at h
  split at h
  · split at h
    · have hnat := append_repr_injective "" (congrArg ("" ++ ·) h)
      omega
    · exact absurd h (hdash _ _)
  · split at h
    · exact absurd h.symm (hdash _ _)
    · have hnat := append_repr_injective "-" h
      omega

end CompileForge.Lib
