/-
  `SpeculativeVerifier.verify_greedy` (`engine/speculative/verifier.py`).  The tensors it
  returns are views of the columns of the draft tensor, which it patches in place, so they are
  read in the tensor it leaves.
-/

import Mathlib.Data.List.MinMax
import Mathlib.Data.List.FinRange

namespace CompileForge.PythonRuntime.Speculative

open List

variable {batch k vocab : Nat} {L : Type} [LinearOrder L]

/-! ## verify_greedy -/

abbrev DraftTokens (batch k : Nat) := Fin batch → Fin k → Int

/-- The logits are of any linear order. -/
abbrev TargetLogits (batch k vocab : Nat) (L : Type) := Fin batch → Fin (1 + k) → Fin vocab → L

theorem isSome_argmax (hvocab : 0 < vocab) (logits : Fin vocab → L) :
    ((finRange vocab).argmax logits).isSome = true := by
  rw [Option.isSome_iff_ne_none, Ne, argmax_eq_none, finRange_eq_nil_iff]
  omega

/-- Among equal logits the first token. -/
def argmax (hvocab : 0 < vocab) (logits : Fin vocab → L) : Fin vocab :=
  ((finRange vocab).argmax logits).get (isSome_argmax hvocab logits)

/-- What the target model takes after the first `i` tokens of a row. -/
def greedyToken (hvocab : 0 < vocab) (targetLogits : TargetLogits batch k vocab L)
    (b : Fin batch) (i : Fin k) : Int :=
  (argmax hvocab (targetLogits b (i.castLE (Nat.le_add_left k 1)))).val

/-- `target_logits[:, i, :].argmax(dim=-1)`, which raises where there is nothing to reduce. -/
def targetTok (targetLogits : TargetLogits batch k vocab L) (i : Fin k) :
    Except String (Fin batch → Int) :=
  if hvocab : 0 < vocab then .ok fun b => greedyToken hvocab targetLogits b i
  else .error "argmax(): Expected reduction dim 1 to have non-zero size."

variable (draftTokens : DraftTokens batch k)

/-- The loop over the rows that writes the target's tokens into column `i`. -/
def patchColumn (i : Fin k) (mtch : Fin batch → Bool)
    (target : Fin batch → Int) : DraftTokens batch k :=
  (finRange batch).foldl (fun t b =>
    if mtch b then t else Function.update t b (Function.update (t b) i (target b))) draftTokens

/-- What a call leaves: the draft tensor, the columns that are returned, and `all_accepted`. -/
structure Verified (batch k : Nat) where
  draftTokens : DraftTokens batch k
  accepted : List (Fin k)
  allAccepted : Bool

/-- The returned tensors as they read after the call. -/
def Verified.tokens (r : Verified batch k) : List (Fin batch → Int) :=
  r.accepted.map fun i b => r.draftTokens b i

/-- The loop of `verify_greedy` over the positions that are left. -/
def greedyLoop (targetLogits : TargetLogits batch k vocab L) :
    List (Fin k) → DraftTokens batch k → List (Fin k) → Except String (Verified batch k)
  | [], draftTokens, accepted => .ok ⟨draftTokens, accepted, true⟩
  | i :: rest, draftTokens, accepted => do
    let target ← targetTok targetLogits i
    let mtch := fun b => draftTokens b i == target b
    if ∀ b, mtch b = true then greedyLoop targetLogits rest draftTokens (accepted ++ [i])
    else return ⟨patchColumn draftTokens i mtch target, accepted ++ [i], false⟩

def verifyGreedy (targetLogits : TargetLogits batch k vocab L) : Except String (Verified batch k) :=
  greedyLoop targetLogits (finRange k) draftTokens []

theorem patchColumn_apply (i : Fin k)
    (mtch : Fin batch → Bool) (target : Fin batch → Int) (b : Fin batch) (j : Fin k) :
    patchColumn draftTokens i mtch target b j =
      if j = i ∧ mtch b = false then target b else draftTokens b j := by
  have hrows : ∀ (rows : List (Fin batch)) (t : DraftTokens batch k),
      rows.foldl (fun t b => if mtch b then t
        else Function.update t b (Function.update (t b) i (target b))) t b j =
        if b ∈ rows ∧ j = i ∧ mtch b = false then target b else t b j := by
    intro rows
    induction rows with
    | nil =>
      intro t
      rw [foldl_nil, if_neg fun h => not_mem_nil h.1]
    | cons row rows ih =>
      intro t
      rw [foldl_cons, ih]
      by_cases hlater : b ∈ rows ∧ j = i ∧ mtch b = false
      · rw [if_pos hlater, if_pos ⟨mem_cons_of_mem row hlater.1, hlater.2⟩]
      · rw [if_neg hlater]
        -- no later row writes here, so what is read is what this row leaves
        cases hrow : mtch row with
        | true =>
          rw [if_pos rfl, if_neg]
          rintro ⟨hb, hj, hmiss⟩
          rcases mem_cons.1 hb with rfl | hb
          · rw [hrow] at hmiss
            cases hmiss
          · exact hlater ⟨hb, hj, hmiss⟩
        | false =>
          rw [if_neg Bool.false_ne_true]
          by_cases hb : b = row
          · subst hb
            rw [Function.update_self]
            by_cases hj : j = i
            · subst hj
              rw [Function.update_self, if_pos ⟨mem_cons_self, rfl, hrow⟩]
            · rw [Function.update_of_ne hj, if_neg fun h => hj h.2.1]
          · rw [Function.update_of_ne hb, if_neg]
            rintro ⟨hmem, hrest⟩
            exact hlater ⟨(mem_cons.1 hmem).resolve_left hb, hrest⟩
  rw [patchColumn, hrows]
  simp only [mem_finRange, true_and]

/-! ## The truncated list -/

/-- All rows have the target's token at a position. -/
def Matches (hvocab : 0 < vocab) (draftTokens : DraftTokens batch k)
    (targetLogits : TargetLogits batch k vocab L) (i : Fin k) : Prop :=
  ∀ b, draftTokens b i = greedyToken hvocab targetLogits b i
deriving Decidable

/-- The first listed position at which some row differs from its argmax, else their number. -/
def firstMismatch (hvocab : 0 < vocab) (draftTokens : DraftTokens batch k)
    (targetLogits : TargetLogits batch k vocab L) (positions : List (Fin k)) : Nat :=
  positions.findIdx fun i => !decide (Matches hvocab draftTokens targetLogits i)

section

variable {hvocab : 0 < vocab} {draftTokens : DraftTokens batch k}
  {targetLogits : TargetLogits batch k vocab L} {i : Fin k} {rest : List (Fin k)}

theorem firstMismatch_of_matches (h : Matches hvocab draftTokens targetLogits i) :
    firstMismatch hvocab draftTokens targetLogits (i :: rest) =
      firstMismatch hvocab draftTokens targetLogits rest + 1 := by
  rw [firstMismatch, findIdx_cons, decide_eq_true h]
  rfl

theorem firstMismatch_of_not_matches (h : ¬ Matches hvocab draftTokens targetLogits i) :
    firstMismatch hvocab draftTokens targetLogits (i :: rest) = 0 := by
  rw [firstMismatch, findIdx_cons, decide_eq_false h]
  rfl

theorem targetTok_eq (hvocab : 0 < vocab) (targetLogits : TargetLogits batch k vocab L)
    (i : Fin k) :
    targetTok targetLogits i = .ok fun b => greedyToken hvocab targetLogits b i :=
  dif_pos hvocab

theorem greedyLoop_of_matches (h : Matches hvocab draftTokens targetLogits i)
    (accepted : List (Fin k)) :
    greedyLoop targetLogits (i :: rest) draftTokens accepted =
      greedyLoop targetLogits rest draftTokens (accepted ++ [i]) := by
  rw [greedyLoop, targetTok_eq hvocab]
  exact if_pos fun b => beq_iff_eq.2 (h b)

theorem greedyLoop_of_not_matches (h : ¬ Matches hvocab draftTokens targetLogits i)
    (rest accepted : List (Fin k)) :
    ∃ t, greedyLoop targetLogits (i :: rest) draftTokens accepted =
        .ok ⟨t, accepted ++ [i], false⟩ ∧
      (∀ b, t b i = greedyToken hvocab targetLogits b i) ∧
      ∀ j, j ≠ i → ∀ b, t b j = draftTokens b j := by
  have hnot : ¬ ∀ b, (draftTokens b i == greedyToken hvocab targetLogits b i) = true :=
    fun hall => h fun b => beq_iff_eq.1 (hall b)
  refine ⟨patchColumn draftTokens i
      (fun b => draftTokens b i == greedyToken hvocab targetLogits b i)
      fun b => greedyToken hvocab targetLogits b i, ?_, ?_, ?_⟩
  · rw [greedyLoop, targetTok_eq hvocab]
    exact if_neg hnot
  · intro b
    rw [patchColumn_apply]
    by_cases hb : draftTokens b i = greedyToken hvocab targetLogits b i
    · rw [if_neg, hb]
      rintro ⟨-, hmiss⟩
      exact beq_eq_false_iff_ne.1 hmiss hb
    · exact if_pos ⟨rfl, beq_eq_false_iff_ne.2 hb⟩
  · intro j hj b
    rw [patchColumn_apply]
    exact if_neg fun hpatched => hj hpatched.1

end

/-- Columns up to the first mismatch get the target's tokens, and no other column changes. -/
theorem greedyLoop_spec (hvocab : 0 < vocab) (draftTokens : DraftTokens batch k)
    (targetLogits : TargetLogits batch k vocab L) {positions : List (Fin k)}
    (hnodup : positions.Nodup) (accepted : List (Fin k)) :
    ∃ r, greedyLoop targetLogits positions draftTokens accepted = .ok r ∧
      r.accepted = accepted ++ positions.take
        (firstMismatch hvocab draftTokens targetLogits positions + 1) ∧
      (∀ i ∈ positions.take (firstMismatch hvocab draftTokens targetLogits positions + 1),
        ∀ b, r.draftTokens b i = greedyToken hvocab targetLogits b i) ∧
      (∀ i, i ∉ positions → ∀ b, r.draftTokens b i = draftTokens b i) ∧
      (r.allAccepted = true ↔ ∀ i ∈ positions, Matches hvocab draftTokens targetLogits i) := by
  induction positions generalizing accepted with
  | nil =>
    refine ⟨⟨draftTokens, accepted, true⟩, rfl, (append_nil _).symm, ?_, fun _ _ _ => rfl, ?_⟩
    · intro i hi
      cases hi
    · exact iff_of_true rfl fun i hi => by cases hi
  | cons i rest ih =>
    obtain ⟨hhead, hrest⟩ := nodup_cons.1 hnodup
    by_cases hmatch : Matches hvocab draftTokens targetLogits i
    · obtain ⟨r, hloop, haccepted, htaken, hframe, hall⟩ := ih hrest (accepted ++ [i])
      rw [firstMismatch_of_matches hmatch, greedyLoop_of_matches hmatch]
      refine ⟨r, hloop, ?_, ?_, ?_, ?_⟩
      · rw [haccepted, take_succ_cons, append_assoc]
        rfl
      · intro j hj b
        rw [take_succ_cons] at hj
        rcases mem_cons.1 hj with rfl | hj
        -- the column is none of those behind it, so it still holds the draft, which matched
        · rw [hframe j hhead b, hmatch b]
        · exact htaken j hj b
      · intro j hj b
        exact hframe j (fun h => hj (mem_cons_of_mem i h)) b
      · rw [hall, forall_mem_cons, and_iff_right hmatch]
    · obtain ⟨t, hloop, htoken, hframe⟩ :=
        greedyLoop_of_not_matches hmatch rest accepted
      rw [firstMismatch_of_not_matches hmatch]
      refine ⟨⟨t, accepted ++ [i], false⟩, hloop, rfl, ?_, ?_, ?_⟩
      · intro j hj b
        obtain rfl : j = i := mem_singleton.1 hj
        exact htoken b
      · intro j hj b
        exact hframe j (fun h => hj (h ▸ mem_cons_self)) b
      · exact iff_of_false Bool.false_ne_true fun h => hmatch (h i mem_cons_self)

/-! ## Greedy verification is greedy decoding -/

/-- What greedy decoding gives for the tokens a call returns, and for `all_accepted`. -/
structure GreedyDecoded (hvocab : 0 < vocab) (draftTokens : DraftTokens batch k)
    (targetLogits : TargetLogits batch k vocab L) (tokens : List (Fin batch → Int))
    (allAccepted : Bool) : Prop where
  length : tokens.length =
    min k (1 + firstMismatch hvocab draftTokens targetLogits (finRange k))
  token : ∀ (i : Fin k) (h : i.val < tokens.length) (b : Fin batch),
    tokens.get ⟨i, h⟩ b = greedyToken hvocab targetLogits b i
  all : allAccepted = true ↔ ∀ i, Matches hvocab draftTokens targetLogits i

/-- `verify_greedy` returns the target's argmax up to the first position where a row differs. -/
theorem verifyGreedy_decoded (hvocab : 0 < vocab) (draftTokens : DraftTokens batch k)
    (targetLogits : TargetLogits batch k vocab L) :
    ∃ r, verifyGreedy draftTokens targetLogits = .ok r ∧
      GreedyDecoded hvocab draftTokens targetLogits r.tokens r.allAccepted := by
  obtain ⟨r, hloop, haccepted, htaken, -, hall⟩ :=
    greedyLoop_spec hvocab draftTokens targetLogits (nodup_finRange k) []
  rw [nil_append] at haccepted
  refine ⟨r, hloop, ?_, ?_, ?_⟩
  · rw [Verified.tokens, length_map, haccepted, length_take, length_finRange]
    omega
  · intro i h b
    have hi : i.val < r.accepted.length := by
      rwa [Verified.tokens, length_map] at h
    have hcol : r.accepted[i.val] = i := by
      simp only [haccepted, getElem_take, getElem_finRange]
      rfl
    have hmem : i ∈ r.accepted := by
      have hget := getElem_mem hi
      rwa [hcol] at hget
    have hread : r.tokens.get ⟨i, h⟩ b = r.draftTokens b r.accepted[i.val] := by
      simp only [Verified.tokens, get_eq_getElem, getElem_map]
    rw [hread, hcol]
    exact htaken i (haccepted ▸ hmem) b
  · rw [hall]
    exact ⟨fun h i => h i (mem_finRange i), fun h i _ => h i⟩

/-- Two rows of drafts, the second off at its second position. -/
def twoDrafts : DraftTokens 2 3 := fun b i => if b.val = 1 ∧ i.val = 1 then 7 else 1

/-- Logits of two tokens whose greatest is the second everywhere. -/
def twoLogits : TargetLogits 2 3 2 Nat := fun _ _ v => v.val

theorem verifyGreedy_decoded_two :
    ∃ r, verifyGreedy twoDrafts twoLogits = .ok r ∧
      GreedyDecoded (by decide) twoDrafts twoLogits r.tokens r.allAccepted :=
  verifyGreedy_decoded (by decide) twoDrafts twoLogits

end CompileForge.PythonRuntime.Speculative
