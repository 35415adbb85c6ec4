/-
  `SpeculativeVerifier.verify` (`engine/speculative/verifier.py`) on the rational
  distributions the softmax of the target logits gives, as a distribution of its results.
-/

import CompileForge.PythonRuntime.Speculative.Residual

namespace CompileForge.PythonRuntime.Speculative

open Lib Lib.FinDist List

variable {batch vocab : Nat}

/-- The tokens of the rows at one position. -/
abbrev Column (batch vocab : Nat) := Fin batch → Fin vocab

/-- What `verify` reads at a position. -/
structure Position (batch vocab : Nat) where
  draftTok : Column batch vocab
  pTarget : Fin batch → Pmf vocab
  draftProb : Option (Fin batch → ℚ)

/-- What happened at a position: `accept_mask`, and the tokens appended to the accepted list. -/
structure PosResult (batch vocab : Nat) where
  acceptMask : Fin batch → Bool
  tokens : Column batch vocab

def PosResult.allAccepted (r : PosResult batch vocab) : Prop := ∀ b, r.acceptMask b = true
deriving Decidable

/-- `adjusted_p`: the target distribution with the draft token struck out, over its sum. -/
def adjusted (p : Pmf vocab) (draftTok v : Fin vocab) : ℚ :=
  struck p draftTok v / ∑ u, struck p draftTok u

variable (pos : Position batch vocab)

/-- `q_draft`: the draft probabilities, 1 where they are not given. -/
def Position.qDraft (b : Fin batch) : ℚ :=
  match pos.draftProb with
  | some draftProb => draftProb b
  | none => 1

def Position.ratio (b : Fin batch) : ℚ :=
  min 1 ((pos.pTarget b).weight (pos.draftTok b) / pos.qDraft b)

/-- Every row draws against its ratio; rejected rows get a token of the adjusted distribution. -/
def Position.verify : FinDist (PosResult batch vocab) := do
  let acceptMask ← FinDist.pi fun b => randBelow (pos.ratio b)
  if ∀ b, acceptMask b = true then
    return ⟨acceptMask, pos.draftTok⟩
  else
    let tokens ← FinDist.pi fun b =>
      if acceptMask b then Pure.pure (pos.draftTok b)
      else multinomial (adjusted (pos.pTarget b) (pos.draftTok b))
    return ⟨acceptMask, tokens⟩

/-- The accepted list, which a position with a rejected row ends, and `all_accepted`. -/
def verify : List (Position batch vocab) → FinDist (List (PosResult batch vocab) × Bool)
  | [] => return ([], true)
  | pos :: rest => do
    let out ← pos.verify
    if out.allAccepted then
      let (accepted, allAccepted) ← verify rest
      return (out :: accepted, allAccepted)
    else return ([out], false)

def tokensOf (o : List (PosResult batch vocab) × Bool) : List (Column batch vocab) :=
  o.1.map PosResult.tokens

/-! ## The speculative step -/

/-- Tokens fixed by those so far, without probabilities, or draws with theirs. -/
inductive Draft (batch vocab : Nat) where
  | deterministic (next : Fin batch → List (Fin vocab) → Fin vocab)
  | sampled (q : Fin batch → List (Fin vocab) → Pmf vocab)

/-- The target model and the draft, each row's given the row's tokens so far. -/
structure Speculation (batch vocab : Nat) where
  target : Fin batch → List (Fin vocab) → Pmf vocab
  draft : Draft batch vocab

def row (b : Fin batch) (columns : List (Column batch vocab)) : List (Fin vocab) :=
  columns.map fun column => column b

namespace Speculation

variable (s : Speculation batch vocab)

variable (sofar : List (Column batch vocab))

/-- The drafts are drawn position after position, each given the row's tokens so far. -/
def draftColumn : FinDist (Column batch vocab) :=
  FinDist.pi fun b =>
    match s.draft with
    | .deterministic next => Pure.pure (next b (row b sofar))
    | .sampled q => (q b (row b sofar)).draw

/-- `draft_tokens` for `k` positions. -/
def propose : Nat → List (Column batch vocab) → FinDist (List (Column batch vocab))
  | 0, _ => return []
  | k + 1, sofar => do
    let column ← s.draftColumn sofar
    let rest ← propose k (sofar ++ [column])
    return column :: rest

/-- The target model scores the drafts. -/
def position (column : Column batch vocab) : Position batch vocab where
  draftTok := column
  pTarget := fun b => s.target b (row b sofar)
  draftProb :=
    match s.draft with
    | .deterministic _ => none
    | .sampled q => some fun b => (q b (row b sofar)).weight (column b)

def positions : List (Column batch vocab) → List (Column batch vocab) → List (Position batch vocab)
  | _, [] => []
  | sofar, column :: rest => s.position sofar column :: positions (sofar ++ [column]) rest

/-- Drafting `k` tokens after `sofar` and verifying them. -/
def run (k : Nat) (sofar : List (Column batch vocab)) :
    FinDist (List (PosResult batch vocab) × Bool) := do
  let draftTokens ← s.propose k sofar
  verify (s.positions sofar draftTokens)

/-! ## One row of a position -/

def draftRow (b : Fin batch) : FinDist (Fin vocab) :=
  match s.draft with
  | .deterministic next => Pure.pure (next b (row b sofar))
  | .sampled q => (q b (row b sofar)).draw

def rowRatio (b : Fin batch) (x : Fin vocab) : ℚ :=
  (s.position sofar fun _ => x).ratio b

/-- The expectation over a row's draft token, its acceptance, and the token it emits. -/
def rowExpect (b : Fin batch) (f : Fin vocab → Bool → Fin vocab → ℚ) : ℚ :=
  (s.draftRow sofar b).expect fun x =>
    s.rowRatio sofar b x * f x true x + (1 - s.rowRatio sofar b x) *
      (multinomial (adjusted (s.target b (row b sofar)) x)).expect (f x false)

end Speculation

theorem ratio_le_one (b : Fin batch) : pos.ratio b ≤ 1 :=
  min_le_left _ _

theorem ratio_nonneg {pos : Position batch vocab} {b : Fin batch} (h : 0 ≤ pos.qDraft b) :
    0 ≤ pos.ratio b :=
  le_min zero_le_one (div_nonneg ((pos.pTarget b).nonneg _) h)

theorem expect_verify_prod {pos : Position batch vocab} (hq : ∀ b, 0 ≤ pos.qDraft b)
    (f : Fin batch → Bool → Fin vocab → ℚ) :
    (pos.verify.expect fun out => ∏ b, f b (out.acceptMask b) (out.tokens b)) =
      ∏ b, (pos.ratio b * f b true (pos.draftTok b) + (1 - pos.ratio b) *
        (multinomial (adjusted (pos.pTarget b) (pos.draftTok b))).expect (f b false)) := by
  rw [Position.verify, expect_bind]
  -- given its mask, a row emits its draft token or a token of its adjusted distribution
  have hmask : ∀ acceptMask : Fin batch → Bool, (if ∀ b, acceptMask b = true then
        (return ⟨acceptMask, pos.draftTok⟩ : FinDist (PosResult batch vocab))
      else do
        let tokens ← FinDist.pi fun b =>
          if acceptMask b then Pure.pure (pos.draftTok b)
          else multinomial (adjusted (pos.pTarget b) (pos.draftTok b))
        return ⟨acceptMask, tokens⟩).expect
          (fun out => ∏ b, f b (out.acceptMask b) (out.tokens b)) =
      ∏ b, if acceptMask b then f b true (pos.draftTok b)
        else (multinomial (adjusted (pos.pTarget b) (pos.draftTok b))).expect (f b false) := by
    intro acceptMask
    by_cases hall : ∀ b, acceptMask b = true
    · rw [if_pos hall, expect_pure]
      refine Finset.prod_congr rfl fun b _ => ?_
      show f b (acceptMask b) (pos.draftTok b) = _
      rw [hall b, if_pos rfl]
    · rw [if_neg hall, expect_bind]
      simp only [expect_pure]
      rw [expect_pi_prod]
      refine Finset.prod_congr rfl fun b _ => ?_
      cases acceptMask b with
      | true => exact expect_pure _ _
      | false => rfl
  simp only [hmask]
  have hprod := expect_pi_prod (fun b => randBelow (pos.ratio b)) fun b accepted =>
    if accepted then f b true (pos.draftTok b)
    else (multinomial (adjusted (pos.pTarget b) (pos.draftTok b))).expect (f b false)
  rw [hprod]
  refine Finset.prod_congr rfl fun b _ => ?_
  rw [expect_randBelow (ratio_nonneg (hq b)) (ratio_le_one pos b)]
  rfl

namespace Speculation

variable (s : Speculation batch vocab)

variable (sofar : List (Column batch vocab))

theorem qDraft_nonneg (column : Column batch vocab)
    (b : Fin batch) : 0 ≤ (s.position sofar column).qDraft b := by
  simp only [Position.qDraft, position]
  cases s.draft with
  | deterministic => exact zero_le_one
  | sampled q => exact (q b (row b sofar)).nonneg _

theorem ratio_position (column : Column batch vocab)
    (b : Fin batch) : (s.position sofar column).ratio b = s.rowRatio sofar b (column b) := by
  simp only [rowRatio, Position.ratio, Position.qDraft, position]
  cases s.draft with
  | deterministic => rfl
  | sampled => rfl

theorem expect_position_prod (f : Fin batch → Fin vocab → Bool → Fin vocab → ℚ) :
    ((s.draftColumn sofar).expect fun column => (s.position sofar column).verify.expect fun out =>
        ∏ b, f b (column b) (out.acceptMask b) (out.tokens b)) =
      ∏ b, s.rowExpect sofar b (f b) := by
  have hverify := fun column : Column batch vocab =>
    expect_verify_prod (s.qDraft_nonneg sofar column) fun b => f b (column b)
  simp only [hverify, s.ratio_position]
  have hdraw := expect_pi_prod (s.draftRow sofar) fun b x =>
    s.rowRatio sofar b x * f b x true x + (1 - s.rowRatio sofar b x) *
      (multinomial (adjusted (s.target b (row b sofar)) x)).expect (f b x false)
  exact hdraw

/-- The distribution a row's draft token is drawn from. -/
def draftPmf (b : Fin batch) : Pmf vocab :=
  match s.draft with
  | .deterministic next => Pmf.sure (next b (row b sofar))
  | .sampled q => q b (row b sofar)

/-- The distribution of the target at a position. -/
def targetPmf (b : Fin batch) : Pmf vocab :=
  s.target b (row b sofar)

theorem expect_adjusted (p : Pmf vocab) (x : Fin vocab) (f : Fin vocab → ℚ) :
    (multinomial (adjusted p x)).expect f = ∑ v, struck p x v / (1 - p.weight x) * f v := by
  have hadjusted : ∀ v, adjusted p x v = struck p x v / (1 - p.weight x) := by
    intro v
    rw [adjusted, sum_struck]
  have hgap : 0 ≤ 1 - p.weight x := sub_nonneg.2 (weight_le_one p x)
  have hnonneg : ∀ v, 0 ≤ adjusted p x v := by
    intro v
    rw [hadjusted]
    exact div_nonneg (struck_nonneg p x v) hgap
  have hsum : ∑ v, adjusted p x v = (1 - p.weight x) / (1 - p.weight x) := by
    rw [Finset.sum_congr rfl fun v _ => hadjusted v, ← Finset.sum_div, sum_struck]
  rw [expect_multinomial hnonneg, hsum]
  refine Finset.sum_congr rfl fun v _ => ?_
  rw [hadjusted]
  rcases eq_or_ne (1 - p.weight x) 0 with hzero | hne
  · rw [hzero]
    simp
  · rw [div_self hne, div_one]

theorem rowExpect_eq (b : Fin batch) (f : Fin vocab → Bool → Fin vocab → ℚ) :
    s.rowExpect sofar b f = ∑ x, (s.draftPmf sofar b).weight x *
      (ratio (s.targetPmf sofar b) (s.draftPmf sofar b) x * f x true x +
        (1 - ratio (s.targetPmf sofar b) (s.draftPmf sofar b) x) *
          ∑ v, struck (s.targetPmf sofar b) x v / (1 - (s.targetPmf sofar b).weight x) *
            f x false v) := by
  obtain ⟨target, draft⟩ := s
  simp only [rowExpect, expect_adjusted]
  cases draft with
  | sampled q => exact expect_ofWeights (q b (row b sofar)).nonneg _
  | deterministic next =>
    show (Pure.pure (next b (row b sofar)) : FinDist (Fin vocab)).expect _ = _
    rw [expect_pure]
    symm
    refine (Finset.sum_eq_single (next b (row b sofar)) ?_ ?_).trans ?_
    · intro x _ hx
      simp only [draftPmf, Pmf.sure, if_neg hx, zero_mul]
    · exact fun h => absurd (Finset.mem_univ _) h
    · simp only [draftPmf, rowRatio, Position.ratio, Position.qDraft, position, ratio, targetPmf,
        Pmf.sure, if_true, one_mul]

theorem rowExpect_one (b : Fin batch) : (s.rowExpect sofar b fun _ _ _ => 1) = 1 := by
  rw [rowExpect_eq]
  generalize s.targetPmf sofar b = p
  generalize s.draftPmf sofar b = q
  have hterm : ∀ x, q.weight x * (ratio p q x * 1 + (1 - ratio p q x) *
      ∑ v, struck p x v / (1 - p.weight x) * 1) = q.weight x := by
    intro x
    simp only [mul_one, ← Finset.sum_div, sum_struck]
    rcases eq_or_lt_of_le (weight_le_one p x) with hone | hless
    · -- a token the target is sure of is accepted
      have hratio : q.weight x * ratio p q x = q.weight x := by
        rw [mul_ratio, hone, min_eq_right (weight_le_one q x)]
      rw [mul_add, hratio, hone, sub_self, div_zero, mul_zero, mul_zero, add_zero]
    · rw [div_self (ne_of_gt (sub_pos.2 hless))]
      ring
  rw [Finset.sum_congr rfl fun x _ => hterm x, q.total]

theorem rowExpect_emitted (b : Fin batch) (v : Fin vocab) :
    (s.rowExpect sofar b fun _ _ tok => if tok = v then 1 else 0) =
      emission (s.targetPmf sofar b) (s.draftPmf sofar b) v := by
  rw [rowExpect_eq, emission]
  refine Finset.sum_congr rfl fun x _ => ?_
  congr 3
  rw [Finset.sum_eq_single v]
  · rw [if_pos rfl, mul_one]
  · intro u _ hu
    rw [if_neg hu, mul_zero]
  · exact fun h => absurd (Finset.mem_univ v) h

theorem rowExpect_accepted (b : Fin batch) (x : Fin vocab) :
    (s.rowExpect sofar b fun y accepted _ => if y = x ∧ accepted = true then 1 else 0) =
      min ((s.targetPmf sofar b).weight x) ((s.draftPmf sofar b).weight x) := by
  rw [rowExpect_eq, ← mul_ratio, Finset.sum_eq_single x]
  · simp
  · intro y _ hy
    simp [hy]
  · exact fun h => absurd (Finset.mem_univ x) h

/-! ## Runs -/

theorem draftColumn_mass : ((s.draftColumn sofar).expect fun _ => 1) = 1 := by
  have hprod := expect_pi_prod (s.draftRow sofar) fun _ _ => 1
  simp only [Finset.prod_const_one] at hprod
  have hrow : ∀ b, ((s.draftRow sofar b).expect fun _ => 1) = 1 := by
    intro b
    rw [draftRow]
    cases s.draft with
    | deterministic => exact expect_pure _ _
    | sampled q =>
      show (ofWeights (q b (row b sofar)).weight (q b (row b sofar)).nonneg).expect _ = 1
      rw [expect_ofWeights]
      simp only [mul_one, (q b (row b sofar)).total]
  simp only [hrow, Finset.prod_const_one] at hprod
  exact hprod

theorem propose_mass (k : Nat) (sofar : List (Column batch vocab)) :
    ((s.propose k sofar).expect fun _ => 1) = 1 := by
  induction k generalizing sofar with
  | zero => exact expect_pure _ _
  | succ k ih =>
    rw [propose, expect_bind]
    simp only [expect_bind, expect_pure, ih]
    exact s.draftColumn_mass sofar

theorem expect_run_succ (k : Nat) (sofar : List (Column batch vocab))
    (f : List (PosResult batch vocab) × Bool → ℚ) :
    (s.run (k + 1) sofar).expect f = (s.draftColumn sofar).expect fun column =>
      (s.position sofar column).verify.expect fun out =>
        if out.allAccepted then (s.run k (sofar ++ [column])).expect fun o => f (out :: o.1, o.2)
        else f ([out], false) := by
  rw [run, propose]
  simp only [expect_bind, expect_pure, positions, verify]
  refine expect_congr fun column _ => ?_
  -- the later drafts do not depend on what happens at this position
  rw [expect_comm]
  refine expect_congr fun out _ => ?_
  by_cases hall : out.allAccepted
  · simp only [if_pos hall, expect_bind, expect_pure, run]
  · simp only [if_neg hall, expect_pure]
    have hconst := expect_mul_right (s.propose k (sofar ++ [column])) (fun _ => 1)
      (f ([out], false))
    simp only [one_mul] at hconst
    rw [hconst, s.propose_mass, one_mul]

/-- The column emitted behind `earlier`, where the accepted list begins with these and goes on. -/
def emittedAfter : List (Column batch vocab) → List (Column batch vocab) →
    Option (Column batch vocab)
  | [], tokens => tokens.head?
  | _ :: _, [] => none
  | column :: earlier, tok :: tokens => if tok = column then emittedAfter earlier tokens else none

variable (earlier : List (Column batch vocab))

theorem emittedAfter_nil : emittedAfter earlier [] = none := by
  cases earlier with
  | nil => rfl
  | cons => rfl

/-- The weight of the runs that accept `earlier` and go on. -/
def reachWeight : Nat → List (Column batch vocab) → List (Column batch vocab) → ℚ
  | 0, _, _ => 0
  | _ + 1, _, [] => 1
  | k + 1, sofar, column :: earlier =>
    (∏ b, min ((s.targetPmf sofar b).weight (column b)) ((s.draftPmf sofar b).weight (column b))) *
      reachWeight k (sofar ++ [column]) earlier

theorem expect_accept_column (column : Column batch vocab) (c : ℚ) :
    ((s.draftColumn sofar).expect fun drafted => (s.position sofar drafted).verify.expect fun out =>
        if drafted = column ∧ out.allAccepted then c else 0) =
      (∏ b, min ((s.targetPmf sofar b).weight (column b))
        ((s.draftPmf sofar b).weight (column b))) * c := by
  have hprod := s.expect_position_prod sofar fun b drafted accepted _ =>
    if drafted = column b ∧ accepted = true then 1 else 0
  simp only [s.rowExpect_accepted] at hprod
  rw [← hprod, ← expect_mul_right]
  refine expect_congr fun drafted _ => ?_
  rw [← expect_mul_right]
  refine expect_congr fun out _ => ?_
  rw [Finset.prod_ite_zero, Finset.prod_const_one]
  have hiff : (∀ b ∈ Finset.univ, drafted b = column b ∧ out.acceptMask b = true) ↔
      drafted = column ∧ out.allAccepted := by
    simp only [Finset.mem_univ, true_implies, forall_and, PosResult.allAccepted, funext_iff]
  simp only [hiff, ite_mul, one_mul, zero_mul]

theorem tokens_of_allAccepted {pos : Position batch vocab} {out : PosResult batch vocab}
    (h : pos.verify.Possible out) (hall : out.allAccepted) : out.tokens = pos.draftTok := by
  obtain ⟨acceptMask, -, hout⟩ := possible_bind h
  by_cases hmask : ∀ b, acceptMask b = true
  · rw [if_pos hmask, possible_pure] at hout
    rw [← hout]
  · rw [if_neg hmask] at hout
    obtain ⟨tokens, -, hout⟩ := possible_bind hout
    rw [possible_pure] at hout
    rw [← hout] at hall
    exact absurd hall hmask

theorem run_mass (k : Nat) (sofar : List (Column batch vocab)) :
    ((s.run k sofar).expect fun _ => 1) = 1 := by
  induction k generalizing sofar with
  | zero => rw [run, propose, expect_bind, expect_pure, positions, verify, expect_pure]
  | succ k ih =>
    rw [expect_run_succ]
    simp only [ih, ite_self]
    have hprod := s.expect_position_prod sofar fun _ _ _ _ => 1
    simpa only [s.rowExpect_one, Finset.prod_const_one] using hprod

/-- The runs that accept `earlier` emit next what that position emits on its own. -/
theorem expect_emittedAfter {g : Option (Column batch vocab) → ℚ} (hg : g none = 0) (k : Nat)
    (sofar earlier : List (Column batch vocab)) :
    ((s.run k sofar).expect fun o => g (emittedAfter earlier (tokensOf o))) =
      s.reachWeight k sofar earlier * (s.draftColumn (sofar ++ earlier)).expect fun column =>
          (s.position (sofar ++ earlier) column).verify.expect fun out => g (some out.tokens) := by
  induction k generalizing sofar earlier with
  | zero =>
    rw [run, propose, expect_bind, expect_pure, positions, verify, expect_pure, reachWeight,
      zero_mul]
    show g (emittedAfter earlier []) = 0
    rw [emittedAfter_nil, hg]
  | succ k ih =>
    rw [expect_run_succ]
    cases earlier with
    | nil =>
      rw [reachWeight, one_mul, append_nil]
      refine expect_congr fun column _ => expect_congr fun out _ => ?_
      have hconst := expect_mul_right (s.run k (sofar ++ [column])) (fun _ => 1)
        (g (some out.tokens))
      simp only [one_mul, s.run_mass] at hconst
      show (if out.allAccepted then (s.run k (sofar ++ [column])).expect fun _ =>
        g (some out.tokens) else g (some out.tokens)) = _
      rw [hconst, ite_self]
    | cons column earlier =>
      rw [reachWeight, mul_assoc, append_cons sofar column earlier, ← ih, ← expect_accept_column]
      refine expect_congr fun drafted _ => expect_congr fun out hout => ?_
      by_cases hall : out.allAccepted
      · have htokens : out.tokens = drafted := tokens_of_allAccepted hout hall
        rw [if_pos hall]
        by_cases hdraft : drafted = column
        · rw [if_pos ⟨hdraft, hall⟩, hdraft]
          refine expect_congr fun o _ => ?_
          show g (if out.tokens = column then _ else none) = _
          rw [if_pos (htokens.trans hdraft)]
          rfl
        · rw [if_neg fun h => hdraft h.1]
          refine (expect_congr fun o _ => ?_).trans (expect_zero _)
          show g (if out.tokens = column then _ else none) = _
          rw [if_neg (by rw [htokens]; exact hdraft), hg]
      · -- the list ends here, so it does not go on after `earlier`
        rw [if_neg hall, if_neg fun h => hall h.2]
        show g (if out.tokens = column then emittedAfter earlier [] else none) = 0
        rw [emittedAfter_nil, ite_self, hg]

/-! ## Losslessness -/

/-- Every row has accepted so far. -/
def GoesOn (o : List (PosResult batch vocab) × Bool) : Prop :=
  (emittedAfter earlier (tokensOf o)).isSome

/-- The row emits this token at the last position. -/
def Emits (b : Fin batch) (v : Fin vocab) (o : List (PosResult batch vocab) × Bool) : Prop :=
  (emittedAfter earlier (tokensOf o)).map (fun column => column b) = some v

instance : DecidablePred (GoesOn earlier) :=
  fun o => inferInstanceAs (Decidable ((emittedAfter earlier (tokensOf o)).isSome = true))

instance (b : Fin batch) (v : Fin vocab) : DecidablePred (Emits earlier b v) :=
  fun o => inferInstanceAs
    (Decidable ((emittedAfter earlier (tokensOf o)).map (fun column => column b) = some v))

/-- A row's next token follows the target distribution, given that `earlier` was accepted. -/
def Lossless (k : Nat) : Prop :=
  ∀ earlier b v, (s.run k []).prob (Emits earlier b v) =
    (s.run k []).prob (GoesOn earlier) * (s.targetPmf earlier b).weight v

def EndsAtFirstReject (k : Nat) (o : List (PosResult batch vocab) × Bool) : Prop :=
  (o.2 = true ∧ o.1.length = k ∧ ∀ r ∈ o.1, r.allAccepted) ∨
    (o.2 = false ∧ o.1.length ≤ k ∧ ∃ accepted last, o.1 = accepted ++ [last] ∧
      (∀ r ∈ accepted, r.allAccepted) ∧ ¬ last.allAccepted)

variable {o : List (PosResult batch vocab) × Bool} {k : Nat} {sofar : List (Column batch vocab)}

theorem verify_ends {positions : List (Position batch vocab)}
    (h : (verify positions).Possible o) :
    EndsAtFirstReject positions.length o := by
  induction positions generalizing o with
  | nil =>
    obtain rfl := possible_pure.1 h
    exact .inl ⟨rfl, rfl, nofun⟩
  | cons pos rest ih =>
    obtain ⟨out, -, hout⟩ := possible_bind h
    by_cases hall : out.allAccepted
    · rw [if_pos hall] at hout
      obtain ⟨o', ho', hpure⟩ := possible_bind hout
      obtain rfl := possible_pure.1 hpure
      have hcons : ∀ l : List (PosResult batch vocab), (∀ r ∈ l, r.allAccepted) →
          ∀ r ∈ out :: l, r.allAccepted := fun l hl => forall_mem_cons.2 ⟨hall, hl⟩
      rcases ih ho' with
        ⟨htrue, hlen, haccepted⟩ | ⟨hfalse, hlen, accepted, last, hsplit, hok, hlast⟩
      · exact .inl ⟨htrue, congrArg (· + 1) hlen, hcons _ haccepted⟩
      · exact .inr ⟨hfalse, Nat.succ_le_succ hlen, out :: accepted, last,
          congrArg (out :: ·) hsplit, hcons _ hok, hlast⟩
    · rw [if_neg hall] at hout
      obtain rfl := possible_pure.1 hout
      exact .inr ⟨rfl, Nat.succ_le_succ (Nat.zero_le _), [], out, rfl,
        nofun, hall⟩

theorem length_propose {draftTokens : List (Column batch vocab)}
    (h : (s.propose k sofar).Possible draftTokens) : draftTokens.length = k := by
  induction k generalizing sofar draftTokens with
  | zero =>
    obtain rfl := possible_pure.1 h
    rfl
  | succ k ih =>
    obtain ⟨column, -, hcolumn⟩ := possible_bind h
    obtain ⟨rest, hrest, hpure⟩ := possible_bind hcolumn
    obtain rfl := possible_pure.1 hpure
    exact congrArg (· + 1) (ih hrest)

theorem length_positions (sofar draftTokens : List (Column batch vocab)) :
    (s.positions sofar draftTokens).length = draftTokens.length := by
  induction draftTokens generalizing sofar with
  | nil => rfl
  | cons column rest ih => exact congrArg (· + 1) (ih _)

theorem run_ends
    (h : (s.run k sofar).Possible o) :
    EndsAtFirstReject k o := by
  obtain ⟨draftTokens, hdraft, hverify⟩ := possible_bind h
  have hends := verify_ends hverify
  rwa [length_positions, s.length_propose hdraft] at hends

theorem prob_emits (k : Nat) (earlier : List (Column batch vocab)) (b : Fin batch) (v : Fin vocab) :
    (s.run k []).prob (Emits earlier b v) = s.reachWeight k [] earlier *
      emission (s.targetPmf earlier b) (s.draftPmf earlier b) v := by
  have h := s.expect_emittedAfter (g := fun column =>
    if column.map (fun column => column b) = some v then 1 else 0) (if_neg (by simp)) k [] earlier
  rw [nil_append] at h
  refine h.trans ?_
  congr 1
  -- the other rows do not fail
  have hprod := s.expect_position_prod earlier fun b' _ _ tok =>
    if b' = b then (if tok = v then 1 else 0) else 1
  simp only [Finset.prod_ite_eq', Finset.mem_univ, if_true] at hprod
  rw [← rowExpect_emitted]
  simp only [Option.map_some, Option.some.injEq]
  rw [hprod, Finset.prod_eq_single b]
  · simp only [if_true]
  · intro b' _ hb'
    simp only [if_neg hb', s.rowExpect_one]
  · exact fun h => absurd (Finset.mem_univ b) h

theorem prob_goesOn (k : Nat) (earlier : List (Column batch vocab)) :
    (s.run k []).prob (GoesOn earlier) = s.reachWeight k [] earlier := by
  have h := s.expect_emittedAfter (g := fun column => if column.isSome then 1 else 0) rfl k []
    earlier
  refine h.trans ?_
  have hprod := s.expect_position_prod ([] ++ earlier) fun _ _ _ _ => 1
  simp only [s.rowExpect_one, Finset.prod_const_one] at hprod
  simp only [Option.isSome_some, if_true, hprod, mul_one]

/-- Drafts that the draft gives and the target accepts, one column after the other. -/
def Reachable : List (Column batch vocab) → List (Column batch vocab) → Prop
  | _, [] => True
  | sofar, column :: rest =>
    (∀ b, 0 < (s.targetPmf sofar b).weight (column b) ∧
      0 < (s.draftPmf sofar b).weight (column b)) ∧ Reachable (sofar ++ [column]) rest

theorem reachWeight_ne_zero_iff (k : Nat) (sofar earlier : List (Column batch vocab)) :
    s.reachWeight k sofar earlier ≠ 0 ↔ earlier.length < k ∧ s.Reachable sofar earlier := by
  induction k generalizing sofar earlier with
  | zero => exact iff_of_false (fun h => h rfl) fun h => absurd h.1 (Nat.not_lt_zero _)
  | succ k ih =>
    cases earlier with
    | nil => exact iff_of_true one_ne_zero ⟨Nat.succ_pos k, trivial⟩
    | cons column =>
      have hfactor : ∀ b, min ((s.targetPmf sofar b).weight (column b))
          ((s.draftPmf sofar b).weight (column b)) ≠ 0 ↔
            0 < (s.targetPmf sofar b).weight (column b) ∧
              0 < (s.draftPmf sofar b).weight (column b) := by
        intro b
        rw [← lt_min_iff]
        have hnonneg : 0 ≤ min ((s.targetPmf sofar b).weight (column b))
            ((s.draftPmf sofar b).weight (column b)) := le_min (Pmf.nonneg _ _) (Pmf.nonneg _ _)
        exact ⟨fun h => lt_of_le_of_ne hnonneg (Ne.symm h), ne_of_gt⟩
      rw [reachWeight, mul_ne_zero_iff, ih, Finset.prod_ne_zero_iff, Reachable, length_cons,
        Nat.succ_lt_succ_iff]
      simp only [Finset.mem_univ, true_implies, hfactor]
      exact and_left_comm

/-- A deterministic draft, or one that mixes the target wherever it can reach. -/
def DraftFits (k : Nat) : Prop :=
  match s.draft with
  | .deterministic _ => True
  | .sampled q => ∀ earlier, earlier.length < k → s.Reachable [] earlier →
    ∀ b, PreservesTarget (s.target b (row b earlier)) (q b (row b earlier))

/-- Exactly when the draft fits, and the accepted list ends where some row rejects. -/
theorem lossless_iff (k : Nat) :
    (s.Lossless k ∧ ∀ o, (s.run k []).Possible o → EndsAtFirstReject k o) ↔ s.DraftFits k := by
  rw [and_iff_left fun o ho => s.run_ends ho]
  have hrow : s.Lossless k ↔ ∀ earlier, earlier.length < k → s.Reachable [] earlier →
      ∀ b, PreservesTarget (s.targetPmf earlier b) (s.draftPmf earlier b) := by
    constructor
    · intro h earlier hlen hreach b
      have hne := (s.reachWeight_ne_zero_iff k [] earlier).2 ⟨hlen, hreach⟩
      rw [← emission_eq_target_iff]
      intro v
      have hv := h earlier b v
      rw [prob_emits, prob_goesOn] at hv
      exact mul_left_cancel₀ hne hv
    · intro h earlier b v
      rw [prob_emits, prob_goesOn]
      rcases eq_or_ne (s.reachWeight k [] earlier) 0 with hzero | hne
      · rw [hzero, zero_mul, zero_mul]
      · obtain ⟨hlen, hreach⟩ := (s.reachWeight_ne_zero_iff k [] earlier).1 hne
        rw [emission_eq_target_iff.2 (h earlier hlen hreach b) v]
  rw [hrow]
  obtain ⟨target, draft⟩ := s
  cases draft with
  | deterministic =>
    refine iff_of_true (fun earlier _ _ b => ?_) trivial
    exact preservesTarget_sure _ _
  | sampled => exact Iff.rfl

end Speculation

/-- The target prefers token 0, the draft the two others. -/
def twoFavoured : Speculation 1 3 where
  target := fun _ _ => ⟨![1/2, 1/4, 1/4], by decide +kernel, by decide +kernel⟩
  draft := .sampled fun _ _ => ⟨![0, 1/2, 1/2], by decide +kernel, by decide +kernel⟩

/-- Token 0 is emitted with probability 1/3 and not 1/2. -/
theorem lossless_fails : ¬ twoFavoured.Lossless 1 := by
  intro h
  have hzero := h [] 0 0
  revert hzero
  decide +kernel

end CompileForge.PythonRuntime.Speculative
