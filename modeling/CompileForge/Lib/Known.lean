/-
  Lists known in part: an entry is a value or unknown (`none`).
-/

import Mathlib.Data.List.Forall2
import Mathlib.Data.List.GetD
import Mathlib.Data.List.InsertIdx

namespace CompileForge.Lib

open List

variable {α : Type}

/-- What is known of an entry is right. -/
def Agrees (d : Option α) (a : α) : Prop := ∀ x, d = some x → x = a

/-- `s` has the length of `c`, and every entry it knows is the one of `c`. -/
def Covers (s : List (Option α)) (c : List α) : Prop := List.Forall₂ Agrees s c

@[simp] theorem agrees_none (a : α) : Agrees none a := fun _ h => nomatch h

@[simp] theorem agrees_some {x a : α} : Agrees (some x) a ↔ x = a :=
  ⟨fun h => h x rfl, fun h _ hx => (Option.some.inj hx).symm.trans h⟩

theorem agrees_self (a : α) : Agrees (some a) a := agrees_some.2 rfl

instance [DecidableEq α] (d : Option α) (a : α) : Decidable (Agrees d a) :=
  match d with
  | none => .isTrue (agrees_none a)
  | some x =>
    if h : x = a then .isTrue (agrees_some.2 h)
    else .isFalse fun h' => h (agrees_some.1 h')

namespace Covers

variable {s t : List (Option α)} {c e : List α}

theorem length_eq (h : Covers s c) : s.length = c.length := List.Forall₂.length_eq h

theorem append (hs : Covers s c) (ht : Covers t e) : Covers (s ++ t) (c ++ e) :=
  rel_append hs ht

theorem take (h : Covers s c) (n : Nat) : Covers (s.take n) (c.take n) := forall₂_take n h

theorem drop (h : Covers s c) (n : Nat) : Covers (s.drop n) (c.drop n) := forall₂_drop n h

theorem dropLast (h : Covers s c) : Covers s.dropLast c.dropLast := by
  rw [dropLast_eq_take, dropLast_eq_take, h.length_eq]
  exact h.take _

variable {d : Option α} {a : α}

theorem singleton (h : Agrees d a) : Covers [d] [a] := .cons h .nil

theorem pair {d' : Option α} {a' : α} (h : Agrees d a) (h' : Agrees d' a') :
    Covers [d, d'] [a, a'] := .cons h (singleton h')

theorem getD (h : Covers s c) (i : Nat) (hd : Agrees d a) :
    Agrees (s.getD i d) (c.getD i a) := by
  induction h generalizing i with
  | nil => exact hd
  | cons hx _ ih =>
    cases i with
    | zero => exact hx
    | succ i => exact ih i

theorem set (h : Covers s c) (i : Nat) (hd : Agrees d a) :
    Covers (s.set i d) (c.set i a) := by
  induction h generalizing i with
  | nil => exact .nil
  | cons hx ht ih =>
    cases i with
    | zero => exact .cons hd ht
    | succ i => exact .cons hx (ih i)

theorem eraseIdx (h : Covers s c) (i : Nat) : Covers (s.eraseIdx i) (c.eraseIdx i) := by
  induction h generalizing i with
  | nil => exact .nil
  | cons hx ht ih =>
    cases i with
    | zero => exact ht
    | succ i => exact .cons hx (ih i)

theorem insertIdx (h : Covers s c) (i : Nat) (hd : Agrees d a) :
    Covers (s.insertIdx i d) (c.insertIdx i a) := by
  induction h generalizing i with
  | nil =>
    cases i with
    | zero => exact .cons hd .nil
    | succ => exact .nil
  | cons hx ht ih =>
    cases i with
    | zero => exact .cons hd (.cons hx ht)
    | succ i => exact .cons hx (ih i)

end Covers

variable {β γ : Type} {R : β → γ → Prop} {l : List β} {l' : List γ}

theorem exists_of_forall₂ (h : List.Forall₂ R l l') {x : β} (hx : x ∈ l) : ∃ y ∈ l', R x y := by
  induction h with
  | nil => cases hx
  | @cons a b l l' hab _ ih =>
    cases hx with
    | head => exact ⟨b, mem_cons_self, hab⟩
    | tail _ hx =>
      obtain ⟨y, hy, hR⟩ := ih hx
      exact ⟨y, mem_cons_of_mem b hy, hR⟩

theorem forall₂_imp_mem {S : β → γ → Prop}
    (h : List.Forall₂ R l l') (hRS : ∀ x, ∀ y ∈ l', R x y → S x y) : List.Forall₂ S l l' := by
  induction h with
  | nil => exact .nil
  | @cons a b l l' hab _ ih =>
    exact .cons (hRS a b mem_cons_self hab)
      (ih fun x y hy => hRS x y (mem_cons_of_mem b hy))

theorem covers_iff_getD {s : List (Option α)} {c : List α} (d : Option α) (a : α) :
    Covers s c ↔ s.length = c.length ∧ ∀ i < c.length, Agrees (s.getD i d) (c.getD i a) := by
  constructor
  · intro h
    refine ⟨h.length_eq, fun i hi => ?_⟩
    have hget := List.Forall₂.get h (h.length_eq ▸ hi) hi
    rwa [getD_eq_getElem _ _ (h.length_eq ▸ hi), getD_eq_getElem _ _ hi]
  · rintro ⟨hlen, h⟩
    apply forall₂_of_length_eq_of_get hlen
    intro i hi hi'
    have hget := h i hi'
    rwa [getD_eq_getElem _ _ hi, getD_eq_getElem _ _ hi'] at hget

end CompileForge.Lib
