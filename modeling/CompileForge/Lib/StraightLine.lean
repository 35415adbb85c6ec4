/-
  Straight-line programs over named values in single assignment form.
-/

import Mathlib.Data.List.Basic
import Mathlib.Data.Option.Basic

namespace CompileForge.Lib.StraightLine

open List

/-- Results `0, 1, ..` of an operation on named values. -/
structure Instr (N O : Type) where
  op : O
  args : List N
  results : List N
deriving DecidableEq, Repr

/-- The values of the defined names. -/
abbrev Env (N V : Type) := N → Option V

variable {N O V : Type} [DecidableEq N]

/-! ## Execution -/

def Env.define (env : Env N V) (names : List N) (value : Nat → V) : Env N V := fun n =>
  if n ∈ names then some (value (names.idxOf n)) else env n

variable (interp : O → List V → Nat → V) (env : Env N V)

def Instr.exec (i : Instr N O) : Option (Env N V) := do
  let values ← i.args.mapM env
  some (env.define i.results (interp i.op values))

/-- The environment that a program ends in. -/
def run (p : List (Instr N O)) : Option (Env N V) :=
  p.foldlM (Instr.exec interp) env

def defined (p : List (Instr N O)) : List N := p.flatMap (·.results)

/-- Each instruction reads known names and results of earlier ones. -/
def Scoped : (N → Prop) → List (Instr N O) → Prop
  | _, [] => True
  | K, i :: rest => (∀ a ∈ i.args, K a) ∧ Scoped (fun n => K n ∨ n ∈ i.results) rest

instance Scoped.decidable (K : N → Prop) [DecidablePred K] :
    (p : List (Instr N O)) → Decidable (Scoped K p)
  | [] => isTrue trivial
  | i :: rest =>
    have := Scoped.decidable (fun n => K n ∨ n ∈ i.results) rest
    inferInstanceAs (Decidable ((∀ a ∈ i.args, K a) ∧ Scoped _ rest))

/-- The environment a program ends in solves every instruction, so two programs are compared by
    what they end in and not by how they run. -/
def Solves (i : Instr N O) : Prop :=
  ∃ values, i.args.map env = values.map some ∧
    ∀ k r, i.results[k]? = some r → env r = some (interp i.op values k)

variable {α : Type} {env env' : Env N V} {names : List N} {interp : O → List V → Nat → V}
  {i : Instr N O} {n : N} {k : Nat} {p : List (Instr N O)} {K : N → Prop}

section

omit [DecidableEq N]

theorem mapM_eq_some {values : List V} :
    names.mapM env = some values ↔ names.map env = values.map some := by
  induction names generalizing values with
  | nil => cases values with
    | nil => simp
    | cons => simp
  | cons n names ih =>
    rw [mapM_cons, map_cons]
    cases hn : env n with
    | none => cases values with
      | nil => simp
      | cons => simp
    | some =>
      cases hrest : names.mapM env with
      | none =>
        have hnone : ∀ vs : List V, names.map env ≠ vs.map some := by
          intro vs hvs
          rw [ih.2 hvs] at hrest
          cases hrest
        cases values with
        | nil => simp
        | cons v values => simp [hnone values]
      | some ws =>
        have hws := ih.1 hrest
        cases values with
        | nil => simp
        | cons v values =>
          have hinj : ws.map some = values.map some ↔ ws = values :=
            (map_injective_iff.2 (Option.some_injective V)).eq_iff
          simp [hws, hinj]

theorem exists_values
    (h : ∀ n ∈ names, (env n).isSome = true) :
    ∃ values : List V, names.map env = values.map some := by
  refine ⟨names.filterMap env, ?_⟩
  induction names with
  | nil => rfl
  | cons n names ih =>
    obtain ⟨v, hv⟩ := Option.isSome_iff_exists.1 (h n mem_cons_self)
    rw [map_cons, filterMap_cons_some hv, map_cons, hv, ih fun m hm => h m (mem_cons_of_mem n hm)]

end

theorem exec_eq_some :
    i.exec interp env = some env' ↔ ∃ values, i.args.map env = values.map some ∧
        env' = env.define i.results (interp i.op values) := by
  unfold Instr.exec
  constructor
  · intro h
    obtain ⟨values, hvalues, h⟩ := Option.bind_eq_some_iff.1 h
    cases h
    exact ⟨values, mapM_eq_some.1 hvalues, rfl⟩
  · rintro ⟨values, hvalues, rfl⟩
    rw [mapM_eq_some.2 hvalues]
    rfl

theorem Env.define_of_notMem (env : Env N V) (value : Nat → V)
    (h : n ∉ names) : env.define names value n = env n := if_neg h

theorem Env.define_getElem (env : Env N V) (value : Nat → V)
    (hnodup : names.Nodup) (h : names[k]? = some n) :
    env.define names value n = some (value k) := by
  obtain ⟨hk, rfl⟩ := List.getElem?_eq_some_iff.1 h
  rw [Env.define, if_pos (getElem_mem hk), hnodup.idxOf_getElem k hk]

theorem run_cons :
    run interp env (i :: p) = some env' ↔
      ∃ env1, i.exec interp env = some env1 ∧ run interp env1 p = some env' := by
  rw [run, foldlM_cons]
  exact Option.bind_eq_some_iff

/-! ## What a run ends in -/

theorem run_of_notMem (h : run interp env p = some env') (hn : n ∉ defined p) :
    env' n = env n := by
  induction p generalizing env with
  | nil =>
    cases h
    rfl
  | cons i p ih =>
    obtain ⟨env1, hexec, hrun⟩ := run_cons.1 h
    obtain ⟨values, _, rfl⟩ := exec_eq_some.1 hexec
    rw [defined, flatMap_cons, mem_append, not_or] at hn
    rw [ih hrun hn.2, env.define_of_notMem _ hn.1]

theorem run_of_scoped {interp : O → List V → Nat → V} {K : N → Prop} {env : Env N V}
    {p : List (Instr N O)} (hscope : Scoped K p) (hK : ∀ n, K n → (env n).isSome = true) :
    ∃ env', run interp env p = some env' ∧ ∀ n, K n ∨ n ∈ defined p → (env' n).isSome = true := by
  induction p generalizing K env with
  | nil =>
    refine ⟨env, rfl, fun n hn => ?_⟩
    rcases hn with hn | hn
    · exact hK n hn
    · cases hn
  | cons i p ih =>
    obtain ⟨hargs, hrest⟩ := hscope
    -- the arguments are known, so the instruction has its values
    obtain ⟨values, hvalues⟩ := exists_values fun a ha => hK a (hargs a ha)
    have hexec : i.exec interp env = some (env.define i.results (interp i.op values)) :=
      exec_eq_some.2 ⟨values, hvalues, rfl⟩
    have hknown : ∀ n, K n ∨ n ∈ i.results →
        (env.define i.results (interp i.op values) n).isSome = true := by
      intro n hn
      by_cases hmem : n ∈ i.results
      · rw [Env.define, if_pos hmem]
        rfl
      · rw [env.define_of_notMem _ hmem]
        exact hK n (hn.resolve_right hmem)
    obtain ⟨env', hrun, hdef⟩ := ih hrest hknown
    refine ⟨env', run_cons.2 ⟨_, hexec, hrun⟩, fun n hn => hdef n ?_⟩
    rw [defined, flatMap_cons, mem_append] at hn
    rcases hn with hn | hn | hn
    · exact .inl (.inl hn)
    · exact .inl (.inr hn)
    · exact .inr hn

theorem run_solves (hnodup : (defined p).Nodup) (hfresh : ∀ n ∈ defined p, env n = none)
    (h : run interp env p = some env') : ∀ i ∈ p, Solves interp env' i := by
  induction p generalizing env with
  | nil => exact nofun
  | cons i p ih =>
    obtain ⟨env1, hexec, hrun⟩ := run_cons.1 h
    obtain ⟨values, hvalues, rfl⟩ := exec_eq_some.1 hexec
    rw [defined, flatMap_cons] at hnodup hfresh
    obtain ⟨hresults, hrest, hdisjoint⟩ := nodup_append.1 hnodup
    have hlater : ∀ n ∈ i.results, n ∉ defined p := fun n hn hp => hdisjoint n hn n hp rfl
    intro j hj
    rcases mem_cons.1 hj with rfl | hj
    · refine ⟨values, ?_, fun k r hr => ?_⟩
      · rw [← hvalues]
        refine map_congr_left fun a ha => ?_
        -- an argument is defined before, so nothing defines it again
        have hsome : env a ≠ none := by
          intro hnone
          have hmem : none ∈ values.map some := by
            rw [← hvalues, ← hnone]
            exact mem_map_of_mem ha
          simp at hmem
        have hnot : a ∉ j.results ++ defined p := fun hmem => hsome (hfresh a hmem)
        rw [mem_append, not_or] at hnot
        rw [run_of_notMem hrun hnot.2, env.define_of_notMem _ hnot.1]
      · rw [run_of_notMem hrun (hlater r (mem_of_getElem? hr)), env.define_getElem _ hresults hr]
    · refine ih hrest (fun n hn => ?_) hrun j hj
      have hnot : n ∉ i.results := fun hmem => hlater n hmem hn
      rw [env.define_of_notMem _ hnot]
      exact hfresh n (mem_append_right _ hn)

/-! ## Scopes -/

section

omit [DecidableEq N]

theorem scoped_append {q : List (Instr N O)} :
    Scoped K (p ++ q) ↔ Scoped K p ∧ Scoped (fun n => K n ∨ n ∈ defined p) q := by
  induction p generalizing K with
  | nil => simp [Scoped, defined]
  | cons i p ih =>
    have hnames : (fun n => (K n ∨ n ∈ i.results) ∨ n ∈ defined p) =
        fun n => K n ∨ n ∈ defined (i :: p) := by
      funext n
      simp only [defined, flatMap_cons, mem_append, or_assoc]
    rw [cons_append, Scoped, Scoped, ih, hnames, and_assoc]

theorem Scoped.mono {K' : N → Prop} (h : Scoped K p)
    (hK : ∀ i ∈ p, ∀ a ∈ i.args, K a → K' a) : Scoped K' p := by
  induction p generalizing K K' with
  | nil => trivial
  | cons i p ih =>
    refine ⟨fun a ha => hK i mem_cons_self a ha (h.1 a ha), ih h.2 fun j hj a ha hKa => ?_⟩
    exact hKa.imp (hK j (mem_cons_of_mem i hj) a ha) id

theorem scoped_of_forall (h : ∀ i ∈ p, ∀ a ∈ i.args, K a) :
    Scoped K p := by
  induction p generalizing K with
  | nil => trivial
  | cons i p ih =>
    exact ⟨h i mem_cons_self, ih fun j hj a ha => .inl (h j (mem_cons_of_mem i hj) a ha)⟩

theorem Scoped.args (h : Scoped K p)
    (hi : i ∈ p) {a : N} (ha : a ∈ i.args) : K a ∨ a ∈ defined p := by
  induction p generalizing K with
  | nil => cases hi
  | cons j p ih =>
    rw [defined, flatMap_cons, mem_append]
    rcases mem_cons.1 hi with rfl | hi
    · exact .inl (h.1 a ha)
    · rcases ih h.2 hi with (hK | hj) | hp
      · exact .inl hK
      · exact .inr (.inl hj)
      · exact .inr (.inr hp)

theorem Scoped.congr {p : List α} {f g : α → Instr N O}
    (h : Scoped K (p.map f)) (hargs : ∀ a, (g a).args = (f a).args)
    (hresults : ∀ a, (g a).results = (f a).results) : Scoped K (p.map g) := by
  induction p generalizing K with
  | nil => trivial
  | cons a p ih =>
    rw [map_cons] at h ⊢
    refine ⟨fun n hn => h.1 n (by rwa [← hargs]), ?_⟩
    rw [hresults]
    exact ih h.2

end

/-- A run beside a solution `u` of a program of which it is a piece agrees with it on `C`. -/
theorem run_agree {C : N → Prop} {u : Env N V}
    {p : List α} (f g : α → Instr N O) (hargs : ∀ a, (g a).args = (f a).args)
    (hresults : ∀ a, (g a).results = (f a).results)
    (hsolve : ∀ a ∈ p, Solves interp u (f a)) (hnodup : ∀ a ∈ p, (f a).results.Nodup)
    (hC : ∀ a ∈ p, ∀ r ∈ (f a).results, C r → (∀ n ∈ (f a).args, C n) ∧ (g a).op = (f a).op)
    (hagree : ∀ n, C n → env n ≠ none → env n = u n) (h : run interp env (p.map g) = some env') :
    ∀ n, C n → env' n ≠ none → env' n = u n := by
  induction p generalizing env with
  | nil =>
    cases h
    exact hagree
  | cons a p ih =>
    rw [map_cons] at h
    obtain ⟨env1, hexec, hrun⟩ := run_cons.1 h
    obtain ⟨values, hvalues, rfl⟩ := exec_eq_some.1 hexec
    rw [hargs] at hvalues
    have ha := mem_cons_self (a := a) (l := p)
    refine ih (fun b hb => hsolve b (mem_cons_of_mem a hb))
      (fun b hb => hnodup b (mem_cons_of_mem a hb))
      (fun b hb => hC b (mem_cons_of_mem a hb)) (fun n hn hsome => ?_) hrun
    rw [hresults] at hsome ⊢
    by_cases hmem : n ∈ (f a).results
    · obtain ⟨hreads, hop⟩ := hC a ha n hmem hn
      obtain ⟨uvalues, huvalues, hu⟩ := hsolve a ha
      have hsame : (f a).args.map env = (f a).args.map u := by
        refine map_congr_left fun n hn => hagree n (hreads n hn) fun hnone => ?_
        have hmem : none ∈ values.map some := by
          rw [← hvalues, ← hnone]
          exact mem_map_of_mem hn
        simp at hmem
      have hvals : values = uvalues := by
        refine map_injective_iff.2 (Option.some_injective V) ?_
        rw [← hvalues, ← huvalues, hsame]
      have hk : (f a).results[(f a).results.idxOf n]? = some n := by
        rw [getElem?_eq_getElem (idxOf_lt_length_of_mem hmem), getElem_idxOf]
      rw [env.define_getElem _ (hnodup a ha) hk, hu _ n hk, hop, hvals]
    · rw [env.define_of_notMem _ hmem] at hsome ⊢
      exact hagree n hn hsome

/-- A value that remembers how it was computed. -/
inductive Term (N O : Type) where
  | input (n : N)
  | node (op : O) (args : List (Term N O)) (k : Nat)

omit [DecidableEq N] in
theorem solves_free {u env : Env N (Term N O)} {j : Instr N O}
    (hi : Solves Term.node u i) (hj : Solves Term.node env j) {r : N}
    (hri : i.results[k]? = some r) (hrj : j.results[k]? = some r) (h : env r = u r) :
    j.op = i.op ∧ j.args.map env = i.args.map u := by
  obtain ⟨values, hvalues, hu⟩ := hi
  obtain ⟨values', hvalues', henv⟩ := hj
  rw [hu k r hri, henv k r hrj] at h
  injection h with h
  injection h with hop hargs _
  exact ⟨hop, by rw [hvalues, hvalues', hargs]⟩

end CompileForge.Lib.StraightLine
