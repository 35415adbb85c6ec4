/-
  Loops over the entries of a dict that may fail, where the step for a key changes what is seen
  at that key only: the keys are distinct, so every step finds what the loop started from.
-/

import CompileForge.Lib.Outcome

namespace CompileForge.Lib

open List

variable {σ κ α β ε : Type}

/-- If the steps at other keys leave a key alone, the loop leaves at it what its own step makes. -/
theorem foldlM_keyed (step : σ → κ × α → Except ε σ) (obs : σ → κ → β)
    (ok : κ → α → β → Prop) (Rel : κ → α → β → β → Prop)
    (hstep : ∀ s k a, ok k a (obs s k) → ∃ s', step s (k, a) = .ok s' ∧
      Rel k a (obs s k) (obs s' k) ∧ ∀ k', k' ≠ k → obs s' k' = obs s k')
    {es : List (κ × α)} (hnodup : (es.map Prod.fst).Nodup) {s : σ}
    (hok : ∀ e ∈ es, ok e.1 e.2 (obs s e.1)) :
    ∃ s', es.foldlM step s = .ok s' ∧ (∀ e ∈ es, Rel e.1 e.2 (obs s e.1) (obs s' e.1)) ∧
      ∀ k, k ∉ es.map Prod.fst → obs s' k = obs s k := by
  induction es generalizing s with
  | nil => exact ⟨s, rfl, nofun, fun _ _ => rfl⟩
  | cons e es ih =>
    rw [map_cons, nodup_cons] at hnodup
    obtain ⟨next, hnext, hrel, hother⟩ := hstep s e.1 e.2 (hok e mem_cons_self)
    have hapart : ∀ e' ∈ es, e'.1 ≠ e.1 := fun e' he' heq =>
      hnodup.1 (heq ▸ mem_map_of_mem he')
    obtain ⟨s', hs', hrels, hframe⟩ := ih hnodup.2 (s := next) fun e' he' => by
      rw [hother e'.1 (hapart e' he')]
      exact hok e' (mem_cons_of_mem _ he')
    refine ⟨s', ?_, fun e' he' => ?_, fun k hk => ?_⟩
    · rw [foldlM_cons, hnext]
      exact hs'
    · rcases mem_cons.1 he' with rfl | he'
      · rw [hframe _ hnodup.1]
        exact hrel
      · rw [← hother e'.1 (hapart e' he')]
        exact hrels e' he'
    · rw [map_cons, mem_cons, not_or] at hk
      rw [hframe k hk.2, hother k hk.1]

end CompileForge.Lib
