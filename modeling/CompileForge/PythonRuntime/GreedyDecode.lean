/-
  What greedy decoding with an executor means, apart from any engine.
-/

import CompileForge.Lib.Generation
import CompileForge.PythonRuntime.InferenceLoop

namespace CompileForge.PythonRuntime

open Lib CompileForge.Runtime List

variable {Row Logits : Type}

namespace CausalModel

variable (m : CausalModel Row Logits)

theorem forward_append (cached : List Row) (fed fed' : List (UInt32 × UInt32)) :
    m.forward cached (fed ++ fed') = ((m.forward (m.forward cached fed).1 fed').1,
        (m.forward cached fed).2 ++ (m.forward (m.forward cached fed).1 fed').2) :=
  run_append fed fed'

theorem forward_rows (cached : List Row) (fed : List (UInt32 × UInt32)) :
    cached <+: (m.forward cached fed).1 ∧
      (m.forward cached fed).1.length = cached.length + fed.length ∧
      (m.forward cached fed).2.length = fed.length := by
  induction fed generalizing cached with
  | nil => exact ⟨prefix_refl _, rfl, rfl⟩
  | cons token fed ih =>
    obtain ⟨hpre, hrows, hlogits⟩ := ih (cached ++ [(m.step cached token).1])
    refine ⟨(prefix_append _ _).trans hpre, ?_, ?_⟩
    · refine hrows.trans ?_
      rw [length_append, length_singleton, length_cons]
      omega
    · exact congrArg Nat.succ hlogits

variable (fed : List (UInt32 × UInt32))

/-- A row depends on the tokens up to its own only. -/
def rows : List Row := (m.forward [] fed).1

@[simp] theorem length_rows : (m.rows fed).length = fed.length := by
  rw [rows, (m.forward_rows [] fed).2.1, length_nil, zero_add]

theorem rows_grow (fed fed' : List (UInt32 × UInt32)) : m.rows fed <+: m.rows (fed ++ fed') := by
  rw [rows, rows, forward_append]
  exact (m.forward_rows _ fed').1

theorem rows_take (c : Nat) : m.rows (fed.take c) = (m.rows fed).take c := by
  have hpre := m.rows_grow (fed.take c) (fed.drop c)
  rw [take_append_drop] at hpre
  rw [prefix_iff_eq_take.1 hpre, length_rows, length_take]
  rcases Nat.le_total c fed.length with hc | hc
  · rw [min_eq_left hc]
  · rw [min_eq_right hc, take_of_length_le (by rw [length_rows]),
      take_of_length_le (by rwa [length_rows])]

theorem forward_resume {fed : List (UInt32 × UInt32)} {c : Nat} (hc : c ≤ fed.length) :
    m.forward ((m.rows fed).take c) (fed.drop c) = (m.rows fed, (m.forward [] fed).2.drop c) := by
  have happend := m.forward_append [] (fed.take c) (fed.drop c)
  rw [take_append_drop] at happend
  have hrows : (m.forward [] (fed.take c)).1 = (m.rows fed).take c := m.rows_take fed c
  have hlogits : (m.forward [] (fed.take c)).2.length = c := by
    rw [(m.forward_rows [] _).2.2, length_take, min_eq_left hc]
  rw [hrows] at happend
  refine Prod.ext (congrArg Prod.fst happend).symm ?_
  rw [happend]
  dsimp only
  rw [drop_append_of_le_length hlogits.ge, drop_of_length_le hlogits.le, nil_append]

end CausalModel

/-! ## Greedy decoding -/

/-- A sequence with its positions. -/
def placed (tokens : List UInt32) : List (UInt32 × UInt32) :=
  tokens.zip (u32Range 0 tokens.length)

/-- What is fed for a sequence; for none, token 0 at position 0, as a decode step does. -/
def fedSequence (tokens : List UInt32) : List (UInt32 × UInt32) :=
  if tokens = [] then [(0, 0)] else placed tokens

/-- The whole sequence so far is fed from position 0, and the largest of the last logits is
    appended. -/
def Executor.greedyNext (ex : Executor Row Logits) (tokens : List UInt32) : Option UInt32 :=
  (ex.model.forward [] (fedSequence tokens)).2.getLast?.map ex.argmax

def Ends (maxTokens : Nat) (stopTokenIds outputs : List UInt32) : Prop :=
  ∃ token ∈ outputs.getLast?, maxTokens ≤ outputs.length ∨ token ∈ stopTokenIds

theorem not_ends_nil (maxTokens : Nat) (stopTokenIds : List UInt32) :
    ¬ Ends maxTokens stopTokenIds [] := by
  rintro ⟨token, htoken, -⟩
  cases htoken

theorem ends_snoc_iff (maxTokens : Nat) (stopTokenIds outputs : List UInt32) (token : UInt32) :
    Ends maxTokens stopTokenIds (outputs ++ [token]) ↔
      maxTokens ≤ outputs.length + 1 ∨ token ∈ stopTokenIds := by
  simp [Ends]

variable {tokens : List UInt32} {token : UInt32}

theorem length_placed (h : tokens.length < 2 ^ 32) :
    (placed tokens).length = tokens.length := by
  rw [placed, length_zip, u32Range_eq (Nat.zero_le _) h]
  simp

theorem length_fedSequence (h : tokens.length < 2 ^ 32) :
    (fedSequence tokens).length = max 1 tokens.length := by
  rw [fedSequence]
  split
  case isTrue hnil =>
    rw [hnil]
    rfl
  case isFalse hne =>
    rw [length_placed h, max_eq_right (length_pos_of_ne_nil hne)]

theorem placed_snoc (h : tokens.length + 1 < 2 ^ 32) :
    placed (tokens ++ [token]) = placed tokens ++ [(token, UInt32.ofNat tokens.length)] := by
  have hlt : tokens.length < 2 ^ 32 := Nat.lt_of_succ_lt h
  rw [placed, placed, length_append, length_singleton,
    u32Range_eq (Nat.zero_le _) h, u32Range_eq (Nat.zero_le _) hlt, Nat.sub_zero, Nat.sub_zero,
    range'_1_concat, map_append, zip_append (by simp), zero_add]
  rfl

end CompileForge.PythonRuntime
