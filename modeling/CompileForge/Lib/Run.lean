/-
  Finite runs of a labelled step relation, and the invariant rule.  A run
  lists its events in order; it grows at the end, so the last step of a run is
  the one a caller inspects.
-/

import Mathlib.Data.List.Basic
import Mathlib.Data.List.Induction

namespace CompileForge.Lib

open List

variable {σ ε : Type*}

/-- `Run step s es t`: the events `es`, taken in order from `s`, lead to `t`. -/
inductive Run (step : σ → ε → σ → Prop) (s : σ) : List ε → σ → Prop
  | nil : Run step s [] s
  | snoc {es : List ε} {m : σ} {e : ε} {t : σ} :
      Run step s es m → step m e t → Run step s (es ++ [e]) t

variable {step step' : σ → ε → σ → Prop} {s t : σ} {es : List ε}

variable {α : Type*} {I : σ → Prop} {l : List α} {e : ε} {es' : List ε}

/-- What the start has and every step keeps holds at the end. -/
theorem Run.invariant (h : Run step s es t) (h0 : I s)
    (hstep : ∀ m e m', I m → step m e m' → I m') : I t := by
  induction h with
  | nil => exact h0
  | snoc _ hlast ih => exact hstep _ _ _ ih hlast

theorem Run.mono_of_invariant (h : Run step s es t) (h0 : I s)
    (hstep : ∀ m e m', I m → step m e m' → I m' ∧ step' m e m') : Run step' s es t := by
  induction h with
  | nil => exact .nil
  | snoc hrun hlast ih =>
    have hm := hrun.invariant h0 fun m e m' hm hlast => (hstep m e m' hm hlast).1
    exact .snoc ih (hstep _ _ _ hm hlast).2

theorem snoc_eq_append_cons {pre post : List α} {x a : α} (h : l ++ [x] = pre ++ a :: post) :
    (l = pre ∧ x = a ∧ post = []) ∨ ∃ post', post = post' ++ [x] ∧ l = pre ++ a :: post' := by
  rcases eq_nil_or_concat post with rfl | ⟨post', last, rfl⟩
  · obtain ⟨hpre, hlast⟩ := append_inj' h rfl
    exact .inl ⟨hpre, (List.cons.inj hlast).1, rfl⟩
  · rw [concat_eq_append, ← cons_append, ← append_assoc] at h
    obtain ⟨hpre, hlast⟩ := append_inj' h rfl
    obtain rfl : x = last := (List.cons.inj hlast).1
    exact .inr ⟨post', concat_eq_append, hpre⟩

theorem Run.last (h : Run step s (es ++ [e]) t) :
    ∃ m, Run step s es m ∧ step m e t := by
  generalize hall : es ++ [e] = all at h
  cases h with
  | nil => simp at hall
  | snoc hrun hlast =>
    obtain ⟨rfl, hsingle⟩ := append_inj' hall rfl
    cases hsingle
    exact ⟨_, hrun, hlast⟩

theorem Run.split (h : Run step s (es ++ es') t) :
    ∃ m, Run step s es m ∧ Run step m es' t := by
  induction es' using reverseRecOn generalizing t with
  | nil =>
    rw [append_nil] at h
    exact ⟨t, h, .nil⟩
  | append_singleton es' e ih =>
    rw [← append_assoc] at h
    obtain ⟨m, hrun, hlast⟩ := h.last
    obtain ⟨m', hfirst, hrest⟩ := ih hrun
    exact ⟨m', hfirst, .snoc hrest hlast⟩

theorem Run.with_events {p : ε → Prop} (h : Run step s es t) (hp : ∀ e ∈ es, p e) :
    Run (fun m e m' => p e ∧ step m e m') s es t := by
  induction h with
  | nil => exact .nil
  | snoc _ hlast ih =>
    exact .snoc (ih fun e he => hp e (mem_append_left _ he)) ⟨hp _ (by simp), hlast⟩

/-- A property no step brings about, and that fails past a failed guard, shows the guards held. -/
theorem Run.with_guard {W P : σ → Prop} {guard : σ → ε → Prop} (h : Run step s es t) (h0 : W s)
    (hW : ∀ m e m', W m → step m e m' → W m')
    (hP : ∀ m e m', W m → step m e m' → P m' → P m ∧ guard m e) (ht : P t) :
    Run (fun m e m' => guard m e ∧ step m e m') s es t := by
  induction h with
  | nil => exact .nil
  | snoc hrun hlast ih =>
    obtain ⟨hm, hguard⟩ := hP _ _ _ (hrun.invariant h0 hW) hlast ht
    exact .snoc (ih hm) ⟨hguard, hlast⟩

theorem Run.trans {u : σ} (h : Run step s es t) (h' : Run step t es' u) :
    Run step s (es ++ es') u := by
  induction h' with
  | nil =>
    rw [append_nil]
    exact h
  | snoc _ hlast ih =>
    rw [← append_assoc]
    exact .snoc ih hlast

theorem Run.cons {e : ε} {m : σ} (hfirst : step s e m) (h : Run step m es t) :
    Run step s (e :: es) t := by
  have hone : Run step s ([] ++ [e]) m := .snoc .nil hfirst
  exact hone.trans h

theorem Run.eq_of_nil (h : Run step s [] t) : t = s := by
  generalize hall : ([] : List ε) = all at h
  cases h with
  | nil => rfl
  | snoc => simp at hall

theorem Run.uncons (h : Run step s (e :: es) t) : ∃ m, step s e m ∧ Run step m es t := by
  have h' : Run step s ([e] ++ es) t := h
  obtain ⟨m, hfirst, hrest⟩ := h'.split
  have hone : Run step s ([] ++ [e]) m := hfirst
  obtain ⟨m', hstart, hstep⟩ := hone.last
  cases hstart.eq_of_nil
  exact ⟨m, hstep, hrest⟩

/-! ## Guarded deterministic systems

Where the step is a function behind a guard, a run is a fold and the guards along
it can be evaluated. -/

section Guarded

variable (guard : σ → ε → Prop) (apply : σ → ε → σ)

/-- The guards of the events hold one after the other. -/
def Enabled : σ → List ε → Prop
  | _, [] => True
  | s, e :: es => guard s e ∧ Enabled (apply s e) es

instance decidableEnabled [∀ s e, Decidable (guard s e)] :
    ∀ s es, Decidable (Enabled guard apply s es)
  | _, [] => isTrue trivial
  | s, e :: es =>
    have := decidableEnabled (apply s e) es
    inferInstanceAs (Decidable (guard s e ∧ Enabled guard apply (apply s e) es))

variable {guard apply}

theorem Run.of_enabled (hstep : ∀ s e, guard s e → step s e (apply s e))
    (h : Enabled guard apply s es) : Run step s es (es.foldl apply s) := by
  induction es generalizing s with
  | nil => exact .nil
  | cons e es ih => exact .cons (hstep s e h.1) (ih h.2)

end Guarded

theorem Run.of_foldl (f : σ → ε → σ) (s : σ) (es : List ε) :
    Run (fun m e m' => m' = f m e) s es (es.foldl f s) := by
  induction es generalizing s with
  | nil => exact .nil
  | cons e es ih => exact .cons rfl (ih (f s e))

theorem Run.of_foldlM {f : σ → ε → Option σ} (hstep : ∀ s e t, f s e = some t → step s e t)
    (h : es.foldlM f s = some t) : Run step s es t := by
  induction es generalizing s with
  | nil =>
    cases h
    exact .nil
  | cons e es ih =>
    rw [foldlM_cons] at h
    obtain ⟨m, hfirst, hrest⟩ := Option.bind_eq_some_iff.1 h
    exact .cons (hstep s e m hfirst) (ih hrest)

theorem foldl_frame {β : Type*} {f : σ → α → σ} {g : σ → β}
    (h : ∀ s a, g (f s a) = g s) : g (l.foldl f s) = g s := by
  induction l generalizing s with
  | nil => rfl
  | cons a l ih => exact ih.trans (h s a)

theorem foldlM_rule {f : σ → α → Option σ}
    (hturn : ∀ a ∈ l, ∀ s t, I s → f s a = some t → I t) (h0 : I s)
    (h : l.foldlM f s = some t) : I t := by
  induction l generalizing s with
  | nil =>
    cases h
    exact h0
  | cons a l ih =>
    rw [foldlM_cons] at h
    obtain ⟨m, hfirst, hrest⟩ := Option.bind_eq_some_iff.1 h
    exact ih (fun b hb => hturn b (mem_cons_of_mem a hb))
      (hturn a mem_cons_self s m h0 hfirst) hrest

end CompileForge.Lib
