/-
  Computations that may fail (`Except`): inversion of a sequence that succeeds, failures that a
  computation does not have or that are tolerated, and two computations side by side.
-/

import Mathlib.Data.List.Forall2

namespace CompileForge.Lib

open List

variable {ε ε' α β γ σ τ σ' τ' : Type}

/-! ## Success -/

variable {f : α → Except ε β} {b : β} {l : List α} {l' : List β} {s : σ} {message : String}

theorem bind_eq_ok {x : Except ε α} (h : (x >>= f) = .ok b) :
    ∃ a, x = .ok a ∧ f a = .ok b := by
  cases x with
  | error => cases h
  | ok a => exact ⟨a, rfl, h⟩

theorem map_eq_ok {x : Except ε α} {f : α → β} (h : x.map f = .ok b) :
    ∃ a, x = .ok a ∧ f a = b := by
  cases x with
  | error => cases h
  | ok a => exact ⟨a, rfl, Except.ok.inj h⟩

theorem eq_ok_of_isOk {x : Except ε α} (h : x.isOk = true) : ∃ a, x = .ok a := by
  cases x with
  | error => cases h
  | ok a => exact ⟨a, rfl⟩

theorem mapM_ok (f : α → β) (l : List α) :
    l.mapM (fun a => (Except.ok (f a) : Except ε β)) = .ok (l.map f) := by
  induction l with
  | nil => rfl
  | cons a l ih =>
    rw [mapM_cons, ih]
    rfl

theorem mapM_eq_ok_iff :
    l.mapM f = .ok l' ↔ Forall₂ (fun a b => f a = .ok b) l l' := by
  induction l generalizing l' with
  | nil =>
    rw [mapM_nil, forall₂_nil_left_iff]
    exact ⟨fun h => (Except.ok.inj h).symm, fun h => by rw [h]; rfl⟩
  | cons a l ih =>
    rw [mapM_cons]
    constructor
    · intro h
      obtain ⟨b, hb, h⟩ := bind_eq_ok h
      obtain ⟨bs, hbs, h⟩ := bind_eq_ok h
      cases h
      exact .cons hb (ih.1 hbs)
    · intro h
      cases h with
      | cons hb hbs =>
        rw [hb, ih.2 hbs]
        rfl

theorem mapM_ok_forall₂ {R : β → γ → Prop} {c : List γ} :
    (∃ l', l.mapM f = .ok l' ∧ Forall₂ R l' c) ↔
      Forall₂ (fun a y => ∃ b, f a = .ok b ∧ R b y) l c := by
  simp only [mapM_eq_ok_iff]
  constructor
  · rintro ⟨l', hl, hc⟩
    induction hl generalizing c with
    | nil =>
      obtain rfl := forall₂_nil_left_iff.1 hc
      exact .nil
    | cons hb _ ih =>
      cases hc with
      | cons hy hc => exact .cons ⟨_, hb, hy⟩ (ih hc)
  · intro h
    induction h with
    | nil => exact ⟨[], .nil, .nil⟩
    | cons hb _ ih =>
      obtain ⟨b, hb, hy⟩ := hb
      obtain ⟨l', hl, hc⟩ := ih
      exact ⟨b :: l', .cons hb hl, .cons hy hc⟩

theorem exists_mapM_ok_iff :
    (∃ l', l.mapM f = .ok l') ↔ ∀ a ∈ l, ∃ b, f a = .ok b := by
  induction l with
  | nil => exact iff_of_true ⟨[], rfl⟩ nofun
  | cons a l ih =>
    rw [forall_mem_cons, ← ih]
    simp only [mapM_eq_ok_iff]
    constructor
    · rintro ⟨l', h⟩
      cases h with
      | cons hb hbs => exact ⟨⟨_, hb⟩, ⟨_, hbs⟩⟩
    · rintro ⟨⟨b, hb⟩, ⟨bs, hbs⟩⟩
      exact ⟨b :: bs, .cons hb hbs⟩

theorem length_mapM_ok (h : l.mapM f = .ok l') : l'.length = l.length := by
  induction l generalizing l' with
  | nil =>
    cases h
    rfl
  | cons a l ih =>
    rw [mapM_cons] at h
    obtain ⟨b, _, h⟩ := bind_eq_ok h
    obtain ⟨rest, hrest, h⟩ := bind_eq_ok h
    cases h
    rw [length_cons, length_cons, ih hrest]

theorem forM_eq_ok {f : α → Except ε Unit} :
    l.forM f = .ok () ↔ ∀ a ∈ l, f a = .ok () := by
  induction l with
  | nil =>
    constructor
    · exact nofun
    · exact fun _ => rfl
  | cons a l ih =>
    have hcons : (a :: l).forM f = f a >>= fun _ => l.forM f := rfl
    rw [forall_mem_cons, ← ih, hcons]
    constructor
    · intro h
      obtain ⟨_, hfirst, hrest⟩ := bind_eq_ok h
      exact ⟨hfirst, hrest⟩
    · rintro ⟨hfirst, hrest⟩
      rw [hfirst]
      exact hrest

/-- The invariant rule of a fold that succeeds. -/
theorem foldlM_eq_ok {P : Nat → σ → Prop} {f : σ → α → Except ε σ} {s' : σ} (hs : P 0 s)
    (hstep : ∀ k a t t', l[k]? = some a → P k t → f t a = .ok t' → P (k + 1) t')
    (h : l.foldlM f s = .ok s') :
    P l.length s' ∧ ∀ k a, l[k]? = some a → ∃ t t', P k t ∧ f t a = .ok t' := by
  induction l generalizing P s with
  | nil =>
    cases h
    exact ⟨hs, fun k a ha => by cases ha⟩
  | cons a l ih =>
    rw [foldlM_cons] at h
    obtain ⟨t, hfirst, h⟩ := bind_eq_ok h
    have hnext := hstep 0 a s t rfl hs hfirst
    obtain ⟨hlast, hrest⟩ := ih (P := fun k => P (k + 1)) hnext
      (fun k b t t' hk ht hb => hstep (k + 1) b t t' hk ht hb) h
    refine ⟨hlast, fun k b hb => ?_⟩
    cases k with
    | zero =>
      cases hb
      exact ⟨s, t, hs, hfirst⟩
    | succ k => exact hrest k b hb

theorem mapError_eq_ok {x : Except ε α} {f : ε → ε'} {a : α} :
    x.mapError f = .ok a ↔ x = .ok a := by
  cases x with
  | error => exact iff_of_false (nofun) (nofun)
  | ok => rw [Except.mapError, Except.ok.injEq, Except.ok.injEq]

def ensure (condition : Prop) [Decidable condition] (message : String) : Except String Unit :=
  if condition then .ok () else .error message

/-- A value that has to be there, with the message where it is not. -/
def okOr {α : Type} (message : String) : Option α → Except String α
  | some a => .ok a
  | none => .error message

theorem ensure_eq_ok {c : Prop} [Decidable c] :
    ensure c message = .ok () ↔ c := by
  by_cases hc : c
  · rw [ensure, if_pos hc]
    exact iff_of_true rfl hc
  · rw [ensure, if_neg hc]
    exact iff_of_false (nofun) hc

theorem okOr_eq_ok {α : Type} {x : Option α} {a : α} :
    okOr message x = .ok a ↔ x = some a := by
  cases x with
  | none => exact iff_of_false (nofun) (nofun)
  | some => rw [okOr, Except.ok.injEq, Option.some_inj]

theorem mapM_eq_map {f : α → Option β} {g : α → β} (h : ∀ a ∈ l, f a = some (g a)) :
    l.mapM f = some (l.map g) := by
  induction l with
  | nil => rfl
  | cons a l ih =>
    have ha : f a = some (g a) := h a mem_cons_self
    have hl : l.mapM f = some (l.map g) := ih fun b hb => h b (mem_cons_of_mem _ hb)
    rw [mapM_cons, ha, hl]
    rfl

theorem mapM_eq_none {f : α → Option β} {a : α} (ha : a ∈ l) (h : f a = none) :
    l.mapM f = none := by
  induction l with
  | nil => cases ha
  | cons b l ih =>
    rw [mapM_cons]
    cases hb : f b with
    | none => rfl
    | some =>
      have hmem : a ∈ l := by
        obtain rfl | hmem := mem_cons.1 ha
        · rw [h] at hb
          cases hb
        · exact hmem
      rw [ih hmem]
      rfl

theorem mapM_eq_some_forall₂ {f : α → Option β} :
    l.mapM f = some l' ↔ Forall₂ (fun a b => f a = some b) l l' := by
  induction l generalizing l' with
  | nil =>
    rw [mapM_nil, forall₂_nil_left_iff]
    exact ⟨fun h => (Option.some.inj h).symm, fun h => by rw [h]; rfl⟩
  | cons a l ih =>
    simp only [mapM_cons, Option.bind_eq_bind, Option.bind_eq_some_iff, Option.pure_def,
      Option.some.injEq, forall₂_cons_left_iff, ih]
    constructor
    · rintro ⟨b, hb, bs, hbs, rfl⟩
      exact ⟨b, bs, hb, hbs, rfl⟩
    · rintro ⟨b, bs, hb, hbs, rfl⟩
      exact ⟨b, hb, bs, hbs, rfl⟩

theorem rel_of_getElem? {R : α → β → Prop} (h : Forall₂ R l l')
    {i : Nat} {a : α} (ha : l[i]? = some a) (hb : l'[i]? = some b) : R a b := by
  obtain ⟨hi, rfl⟩ := List.getElem?_eq_some_iff.1 ha
  obtain ⟨hi', rfl⟩ := List.getElem?_eq_some_iff.1 hb
  exact h.get hi hi'

/-- A value that is there under one condition, and then is known. -/
theorem bind_fits {x : Option α} {p : Prop} {v : α} (hx : ∀ a, x = some a ↔ p ∧ a = v)
    {f : α → Option β} {b : β} : (x >>= f) = some b ↔ p ∧ f v = some b := by
  constructor
  · intro h
    obtain ⟨a, ha, h⟩ := Option.bind_eq_some_iff.1 h
    obtain ⟨hp, rfl⟩ := (hx a).1 ha
    exact ⟨hp, h⟩
  · rintro ⟨hp, h⟩
    exact Option.bind_eq_some_iff.2 ⟨v, (hx v).2 ⟨hp, rfl⟩, h⟩

theorem mapM_eq_some_iff {f : α → Option β} {P : α → Prop} {h : α → β}
    (hf : ∀ a b, f a = some b ↔ P a ∧ b = h a) {bs : List β} :
    l.mapM f = some bs ↔ (∀ a ∈ l, P a) ∧ bs = l.map h := by
  induction l generalizing bs with
  | nil =>
    show some [] = some bs ↔ _
    have hnil : ∀ a ∈ ([] : List α), P a := nofun
    rw [Option.some_inj, eq_comm, map_nil, and_iff_right hnil]
  | cons a l ih =>
    rw [mapM_cons, forall_mem_cons, map_cons, bind_fits (hf a), bind_fits fun _ => ih,
      Option.pure_def, Option.some_inj, and_assoc, eq_comm]

/-! ## A failure that does not occur -/

/-- The computation does not fail with `e`. -/
def Avoids (e : ε) (x : Except ε α) : Prop := x ≠ .error e

section Avoids

variable {e : ε}

theorem avoids_ok (a : α) : Avoids e (.ok a) := nofun

variable {f : α → Except ε β} {l : List α}

theorem Avoids.bind {x : Except ε α} (hx : Avoids e x)
    (hf : ∀ a, x = .ok a → Avoids e (f a)) : Avoids e (x >>= f) := by
  cases hresult : x with
  | error e' =>
    intro h
    have hsame : e' = e := Except.error.inj h
    exact hx (hresult.trans (congrArg Except.error hsame))
  | ok a => exact hf a hresult

theorem Avoids.ite {c : Prop} [Decidable c] {x y : Except ε α} (hx : Avoids e x)
    (hy : Avoids e y) : Avoids e (if c then x else y) := by
  by_cases h : c
  · rwa [if_pos h]
  · rwa [if_neg h]

theorem Avoids.mapM (hf : ∀ a ∈ l, Avoids e (f a)) :
    Avoids e (l.mapM f) := by
  induction l with
  | nil => exact avoids_ok _
  | cons a l ih =>
    rw [mapM_cons]
    refine (hf a mem_cons_self).bind fun b _ => ?_
    refine (ih fun b hb => hf b (mem_cons_of_mem a hb)).bind fun rest _ => ?_
    exact avoids_ok _

theorem Avoids.foldlM {P : Nat → σ → Prop} {f : σ → α → Except ε σ} {s : σ} (hs : P 0 s)
    (hstep : ∀ k a s, l[k]? = some a → P k s →
      Avoids e (f s a) ∧ ∀ s', f s a = .ok s' → P (k + 1) s') :
    Avoids e (l.foldlM f s) := by
  induction l generalizing P s with
  | nil => exact avoids_ok _
  | cons a l ih =>
    rw [foldlM_cons]
    obtain ⟨hfirst, hnext⟩ := hstep 0 a s rfl hs
    refine hfirst.bind fun s' hs' => ?_
    exact ih (P := fun k => P (k + 1)) (hnext s' hs') fun k b s hk hs =>
      hstep (k + 1) b s hk hs

end Avoids

/-! ## A result, up to tolerated failures -/

/-- Succeeds with a result in `P`, or fails in a way that is tolerated. -/
def Lands (tolerated : ε → Prop) (P : α → Prop) : Except ε α → Prop
  | .ok a => P a
  | .error e => tolerated e

section Lands

variable {tolerated : ε → Prop} {P P' : α → Prop} {Q : β → Prop} {x : Except ε α}

theorem Lands.mono (hx : Lands tolerated P x) (h : ∀ a, x = .ok a → P a → P' a) :
    Lands tolerated P' x := by
  cases x with
  | error => exact hx
  | ok a => exact h a rfl hx

theorem Lands.bind {f : α → Except ε β} (hx : Lands tolerated P x)
    (hf : ∀ a, x = .ok a → P a → Lands tolerated Q (f a)) : Lands tolerated Q (x >>= f) := by
  cases x with
  | error => exact hx
  | ok a => exact hf a rfl hx

theorem Lands.ok_of_not (hx : Lands tolerated P x) (hnot : Lands (fun e => ¬ tolerated e) P' x) :
    ∃ a, x = .ok a ∧ P a := by
  cases x with
  | error => exact absurd hx hnot
  | ok a => exact ⟨a, rfl, hx⟩

theorem Lands.foldlM {I : Nat → σ → Prop} {f : σ → α → Except ε σ} {l : List α} {s : σ} (hs : I 0 s)
    (hstep : ∀ k a t, l[k]? = some a → I k t → Lands tolerated (I (k + 1)) (f t a)) :
    Lands tolerated (I l.length) (l.foldlM f s) := by
  induction l generalizing I s with
  | nil => exact hs
  | cons a l ih =>
    rw [foldlM_cons]
    refine (hstep 0 a s rfl hs).bind fun t _ ht => ?_
    exact ih (I := fun k => I (k + 1)) ht fun k b t hk ht => hstep (k + 1) b t hk ht

end Lands

/-! ## Two computations together -/

/-- Both succeed with related results, or both fail in the same way. -/
inductive Lockstep (r : σ → τ → Prop) : Except ε σ → Except ε τ → Prop where
  | ok {s : σ} {t : τ} (h : r s t) : Lockstep r (.ok s) (.ok t)
  | error (e : ε) : Lockstep r (.error e) (.error e)

theorem Lockstep.bind {r : σ → τ → Prop} {r' : σ' → τ' → Prop} {x : Except ε σ} {y : Except ε τ}
    {f : σ → Except ε σ'} {f' : τ → Except ε τ'} (h : Lockstep r x y)
    (hf : ∀ s t, x = .ok s → r s t → Lockstep r' (f s) (f' t)) :
    Lockstep r' (x >>= f) (y >>= f') := by
  cases h with
  | ok h => exact hf _ _ rfl h
  | error e => exact .error e

theorem Lockstep.refl (x : Except ε σ) : Lockstep Eq x x := by
  cases x with
  | ok => exact .ok rfl
  | error e => exact .error e

theorem Lockstep.eq {x y : Except ε σ} (h : Lockstep Eq x y) : x = y := by
  cases h with
  | ok h => rw [h]
  | error => rfl

theorem Lockstep.foldlM {r : Nat → σ → τ → Prop} {f : σ → α → Except ε σ}
    {f' : τ → α → Except ε τ} {t : τ} (h : r 0 s t)
    (hstep : ∀ k a s t, l[k]? = some a → r k s t → Lockstep (r (k + 1)) (f s a) (f' t a)) :
    Lockstep (r l.length) (l.foldlM f s) (l.foldlM f' t) := by
  induction l generalizing r s t with
  | nil => exact .ok h
  | cons a l ih =>
    rw [foldlM_cons, foldlM_cons]
    refine (hstep 0 a s t rfl h).bind fun s' t' _ h' => ?_
    exact ih (r := fun k => r (k + 1)) h' fun k b s t hk h => hstep (k + 1) b s t hk h

end CompileForge.Lib
