/-
  What `Sampler::sample` can draw at a positive temperature
  (`runtime/src/engine/sampler.rs`), in exact arithmetic: `f32` is an ordered field with `-inf`
  below it; `exp` is a parameter.
-/

import CompileForge.Lib.PrefixSums
import Mathlib.Algebra.Order.Field.Basic
import Mathlib.Algebra.BigOperators.Ring.List
import Mathlib.Data.List.GetD
import Mathlib.Tactic.Linarith

namespace CompileForge.Runtime.SamplerSupport

open Lib List

variable {R : Type} [Field R] [LinearOrder R]

structure SamplerConfig (R : Type) where
  temperature : R
  topP : R
  topK : Nat

/-- `f32::EPSILON`. -/
def epsilon : R := 1 / 8388608

def applyTemperature (logits : List R) (t : R) : List R := logits.map (· * (1 / t))

def maskBelow (threshold : WithBot R) (logits : List (WithBot R)) : List (WithBot R) :=
  logits.map fun v => if v < threshold then ⊥ else v

def applyTopK (logits : List (WithBot R)) (k : Nat) : List (WithBot R) :=
  if logits.length ≤ k then logits
  else
    let indexed := logits.mergeSort fun a b => a ≤ b
    maskBelow (indexed.getD (logits.length - k) ⊥) logits

variable (exp : R → R)

/-- `exp`, which is zero at `-inf`. -/
def expBot : WithBot R → R
  | none => 0
  | some v => exp v

/-- The unstable sort is only read for its values. -/
def cutoffIndex (indexed : List (WithBot R)) (p : R) : Nat :=
  let exps := indexed.map (expBot exp)
  (firstPrefix (fun cumsum => p ≤ cumsum) 0 (exps.map (· / exps.sum))).getD (indexed.length - 1)

def applyTopP (logits : List (WithBot R)) (p : R) : List (WithBot R) :=
  let indexed := logits.mergeSort fun a b => b ≤ a
  let cutoff := cutoffIndex exp indexed p
  maskBelow (if cutoff < logits.length - 1 then indexed.getD (cutoff + 1) ⊥ else ⊥) logits

/-! ## The draw -/

def shiftedExp (maxVal v : WithBot R) : R :=
  match v, maxVal with
  | some v, some m => exp (v - m)
  | _, _ => 0

variable (probs : List (WithBot R))

def softmaxInplace : List R :=
  let exps := probs.map (shiftedExp exp (probs.foldl max ⊥))
  if 0 < exps.sum then exps.map (· / exps.sum) else exps

/-- The draw of the generator is a number in `[0, 1)`; a token is an index. -/
def multinomial (r : R) (probs : List R) : Nat :=
  (firstPrefix (fun cumsum => r < cumsum) 0 probs).getD (probs.length - 1)

/-- The argmax loop: the first of the greatest values. -/
def greedy (logits : List R) : Nat :=
  (logits.zipIdx.foldl (fun (best : WithBot R × Nat) (e : R × Nat) =>
    if best.1 < e.1 then ((e.1 : WithBot R), e.2) else best) (⊥, 0)).2

/-- The logits after the temperature and `top_k`. -/
def filtered (logits : List R) (config : SamplerConfig R) : List (WithBot R) :=
  let t := if config.temperature < 1 / 10000000 then 1 / 10000000 else config.temperature
  let scaled := if epsilon < |t - 1| then applyTemperature logits t else logits
  let probs := scaled.map fun v : R => (v : WithBot R)
  if 0 < config.topK ∧ config.topK < probs.length then applyTopK probs config.topK else probs

/-- The logits that the filters leave. -/
def masked (logits : List R) (config : SamplerConfig R) : List (WithBot R) :=
  let probs := filtered logits config
  if 0 < config.topP ∧ config.topP < 1 then applyTopP exp probs config.topP else probs

/-- Logits are finite, so the guard for other values is not modelled. -/
def sample (r : R) (logits : List R) (config : SamplerConfig R) : Nat :=
  if logits.isEmpty then 0
  else if config.temperature ≤ 0 then greedy logits
  else
    let probs := masked exp logits config
    if probs.all (· = ⊥) then greedy logits
    else multinomial r (softmaxInplace exp probs)

/-! ## The nucleus -/

/-- The probability of a logit in the distribution of a list of logits. -/
def prob (v : WithBot R) : R :=
  expBot exp v / (probs.map (expBot exp)).sum

/-- The probability of what is larger than a value. -/
def massAbove (v : WithBot R) : R :=
  ((probs.filter (v < ·)).map (prob exp probs)).sum

/-- The tokens above a logit do not reach `p`. -/
def InNucleus (p : R) (v : WithBot R) : Prop :=
  massAbove exp probs v < p

/-- What the filters promise to leave possible. -/
structure Supported (logits : List R) (config : SamplerConfig R) (token : Nat) : Prop where
  inRange : token < logits.length
  topK : 0 < config.topK → config.topK < logits.length →
    logits.countP (logits.getD token 0 < ·) < config.topK
  nucleus : InNucleus exp (filtered logits config) config.topP
    ((filtered logits config).getD token ⊥)
  unmasked : (masked exp logits config).getD token ⊥ ≠ ⊥

/-- Every token left is in the nucleus, or those above it reach `p` even without one of them. -/
def NoLeak (p : R) : Prop :=
  ∀ v ∈ probs, v ≠ ⊥ → InNucleus exp probs p v ∨
    ∃ u ∈ probs, v < u ∧ p ≤ massAbove exp probs v - prob exp probs u

section Weights

variable [IsStrictOrderedRing R] {exp : R → R} {probs s : List (WithBot R)} {p : R}

section

omit [IsStrictOrderedRing R]

theorem expBot_nonneg (hpos : ∀ x, 0 < exp x) (v : WithBot R) : 0 ≤ expBot exp v := by
  cases v with
  | bot => exact le_rfl
  | coe x => exact (hpos x).le

theorem expBot_pos (hpos : ∀ x, 0 < exp x) {v : WithBot R} (hv : v ≠ ⊥) : 0 < expBot exp v := by
  cases v with
  | bot => exact absurd rfl hv
  | coe x => exact hpos x

theorem expBot_mono (hexp : StrictMono exp) (hpos : ∀ x, 0 < exp x) : Monotone (expBot exp) := by
  intro a b hab
  cases a with
  | bot => exact expBot_nonneg hpos b
  | coe =>
    cases b with
    | bot => exact absurd hab (by simp)
    | coe => exact hexp.monotone (WithBot.coe_le_coe.1 hab)

end

theorem total_pos (hpos : ∀ x, 0 < exp x) (hv : ∃ v ∈ probs, v ≠ ⊥) :
    0 < (probs.map (expBot exp)).sum := by
  obtain ⟨v, hmem, hne⟩ := hv
  refine (expBot_pos hpos hne).trans_le (single_le_sum ?_ _ (mem_map_of_mem hmem))
  intro x hx
  obtain ⟨u, -, rfl⟩ := mem_map.1 hx
  exact expBot_nonneg hpos u

theorem prob_nonneg (hpos : ∀ x, 0 < exp x) (hv : ∃ v ∈ probs, v ≠ ⊥) (v : WithBot R) :
    0 ≤ prob exp probs v :=
  div_nonneg (expBot_nonneg hpos v) (total_pos hpos hv).le

theorem prob_mono (hexp : StrictMono exp) (hpos : ∀ x, 0 < exp x) (hv : ∃ v ∈ probs, v ≠ ⊥) :
    Monotone (prob exp probs) := fun _ _ h =>
  div_le_div_of_nonneg_right (expBot_mono hexp hpos h) (total_pos hpos hv).le

theorem sum_prob (hpos : ∀ x, 0 < exp x) (hv : ∃ v ∈ probs, v ≠ ⊥) :
    (probs.map (prob exp probs)).sum = 1 := by
  have hdiv : prob exp probs = fun v => expBot exp v * ((probs.map (expBot exp)).sum)⁻¹ := by
    funext v
    exact div_eq_mul_inv _ _
  rw [hdiv, sum_map_mul_right]
  exact mul_inv_cancel₀ (total_pos hpos hv).ne'

omit [LinearOrder R] [IsStrictOrderedRing R] in
theorem prob_perm (h : s.Perm probs) : prob exp s = prob exp probs := by
  funext v
  rw [prob, prob, (h.map _).sum_eq]

end Weights

/-! ## The nucleus in the sorted list -/

section Sorted

variable [IsStrictOrderedRing R] {exp : R → R} {probs : List (WithBot R)} {p : R}

/-- The logits from high to low. -/
def descending (probs : List (WithBot R)) : List (WithBot R) :=
  probs.mergeSort fun a b => b ≤ a

section

omit [Field R] [IsStrictOrderedRing R]

theorem descending_perm (probs : List (WithBot R)) : (descending probs).Perm probs :=
  mergeSort_perm ..

theorem descending_pairwise (probs : List (WithBot R)) :
    (descending probs).Pairwise (· ≥ ·) := by
  have h : (descending probs).Pairwise fun a b => decide (b ≤ a) = true :=
    pairwise_mergeSort (fun a b c hab hbc => by
      simp only [decide_eq_true_eq] at *
      exact hbc.trans hab)
    (fun a b => by simpa using le_total b a) probs
  exact h.imp fun hab => by simpa using hab

end

/-- The probability of the first tokens. -/
def prefixMass (exp : R → R) (probs : List (WithBot R)) (j : Nat) : R :=
  (((descending probs).map (prob exp probs)).take j).sum

/-- How many tokens are above a logit. -/
def above (probs : List (WithBot R)) (v : WithBot R) : Nat := (descending probs).countP (v < ·)

omit [IsStrictOrderedRing R] in
theorem massAbove_eq (v : WithBot R) :
    massAbove exp probs v = prefixMass exp probs (above probs v) := by
  rw [massAbove, ← (((descending_perm probs).filter _).map _).sum_eq,
    filter_lt_eq_take (descending_pairwise probs), map_take]
  rfl

theorem prefixMass_mono (hpos : ∀ x, 0 < exp x) (hv : ∃ v ∈ probs, v ≠ ⊥) :
    Monotone (prefixMass exp probs) := by
  refine sum_take_mono fun x hx => ?_
  obtain ⟨v, -, rfl⟩ := mem_map.1 hx
  exact prob_nonneg hpos hv v

omit [Field R] [IsStrictOrderedRing R] in
theorem length_descending : (descending probs).length = probs.length :=
  length_mergeSort ..

section Nucleus

variable (hpos : ∀ x, 0 < exp x) (hv : ∃ v ∈ probs, v ≠ ⊥)
include hpos hv

theorem cutoffIndex_spec (hp : p < 1) :
    cutoffIndex exp (descending probs) p < probs.length ∧
      p ≤ prefixMass exp probs (cutoffIndex exp (descending probs) p + 1) ∧
      ∀ j < cutoffIndex exp (descending probs) p, prefixMass exp probs (j + 1) < p := by
  have hperm := descending_perm probs
  have hprob : ((descending probs).map (expBot exp)).map
      (· / ((descending probs).map (expBot exp)).sum) =
      (descending probs).map (prob exp probs) := by
    rw [map_map, ← prob_perm hperm]
    rfl
  have hne : 0 < probs.length := by
    obtain ⟨v, hmem, -⟩ := hv
    exact length_pos_of_mem hmem
  have htotal : p ≤ prefixMass exp probs probs.length := by
    rw [prefixMass, take_of_length_le (by simp [length_descending]),
      (hperm.map _).sum_eq, sum_prob hpos hv]
    exact hp.le
  -- all the mass reaches `p`, so the loop stops before its default
  obtain ⟨c, hc⟩ : ∃ c, firstPrefix (fun cumsum => decide (p ≤ cumsum)) 0
      ((descending probs).map (prob exp probs)) = some c := by
    refine firstPrefix_isSome (j := probs.length - 1) (by simp [length_descending, hne]) ?_
    rw [Nat.sub_add_cancel hne, zero_add]
    exact decide_eq_true htotal
  have hcut : cutoffIndex exp (descending probs) p = c := by
    simp only [cutoffIndex, hprob]
    rw [hc, Option.getD_some]
  obtain ⟨hlt, hreach, hbefore⟩ := firstPrefix_eq_some.1 hc
  rw [hcut]
  refine ⟨by simpa [length_descending] using hlt, by simpa [prefixMass] using hreach,
    fun j hj => ?_⟩
  simpa [prefixMass] using hbefore j hj

theorem prefixMass_lt_iff (hp0 : 0 < p) (hp : p < 1) (m : Nat) :
    prefixMass exp probs m < p ↔ m ≤ cutoffIndex exp (descending probs) p := by
  obtain ⟨-, hreach, hbefore⟩ := cutoffIndex_spec hpos hv hp
  constructor
  · intro hlt
    by_contra hm
    have hmono := prefixMass_mono hpos hv (not_le.1 hm)
    exact absurd (hreach.trans hmono) (not_le.2 hlt)
  · intro hm
    cases m with
    | zero => simpa [prefixMass] using hp0
    | succ j => exact hbefore j hm

theorem inNucleus_iff (hp0 : 0 < p) (hp : p < 1) (v : WithBot R) :
    InNucleus exp probs p v ↔ above probs v ≤ cutoffIndex exp (descending probs) p := by
  rw [InNucleus, massAbove_eq]
  exact prefixMass_lt_iff hpos hv hp0 hp _

theorem kept_iff (hp : p < 1) (v : WithBot R) :
    ¬ v < (if cutoffIndex exp (descending probs) p < probs.length - 1 then
        (descending probs).getD (cutoffIndex exp (descending probs) p + 1) ⊥ else ⊥) ↔
      above probs v ≤ cutoffIndex exp (descending probs) p + 1 := by
  obtain ⟨hlt, -, -⟩ := cutoffIndex_spec hpos hv hp
  by_cases hlast : cutoffIndex exp (descending probs) p < probs.length - 1
  · have hi : cutoffIndex exp (descending probs) p + 1 < (descending probs).length := by
      rw [length_descending]
      omega
    rw [if_pos hlast, getD_eq_getElem _ _ hi, lt_getElem_iff (descending_pairwise probs) hi, not_lt]
    rfl
  · rw [if_neg hlast]
    have hle : above probs v ≤ probs.length := by
      rw [← length_descending]
      exact countP_le_length
    exact iff_of_true not_lt_bot (by omega)

end Nucleus

omit [Field R] [IsStrictOrderedRing R] in
theorem above_lt_length {v : WithBot R} (h : v ∈ probs) :
    above probs v < (descending probs).length := by
  obtain ⟨i, hi, rfl⟩ := getElem_of_mem ((descending_perm probs).mem_iff.2 h)
  have hnot := mt (lt_getElem_iff (descending_pairwise probs) hi (descending probs)[i]).2
    (lt_irrefl _)
  unfold above
  omega

omit [IsStrictOrderedRing R] in
theorem prefixMass_succ {i : Nat} (hi : i < (descending probs).length) :
    prefixMass exp probs (i + 1) =
      prefixMass exp probs i + prob exp probs (descending probs)[i] := by
  rw [prefixMass, sum_take_succ_getElem (by simpa using hi), getElem_map]
  rfl

/-- A masked-in token leaks exactly if one token too many is above it. -/
theorem spare_iff (hexp : StrictMono exp) (hpos : ∀ x, 0 < exp x) (hp0 : 0 < p) (hp : p < 1)
    {v : WithBot R} (hmem : v ∈ probs) (hv : v ≠ ⊥) :
    (InNucleus exp probs p v ∨ ∃ u ∈ probs, v < u ∧ p ≤ massAbove exp probs v - prob exp probs u) ↔
    above probs v ≠ cutoffIndex exp (descending probs) p + 1 := by
  have hne : ∃ v ∈ probs, v ≠ ⊥ := ⟨v, hmem, hv⟩
  have hsorted := descending_pairwise probs
  have hlen := above_lt_length hmem
  obtain ⟨hlt, hreach, -⟩ := cutoffIndex_spec hpos hne hp
  rw [inNucleus_iff hpos hne hp0 hp, massAbove_eq]
  generalize hcut : cutoffIndex exp (descending probs) p = c at hlt hreach
  constructor
  · rintro (hle | ⟨u, hu, hvu, hle⟩) heq
    · omega
    · -- the lowest token above `v` is the last one of the nucleus
      obtain ⟨i, hi, rfl⟩ := getElem_of_mem ((descending_perm probs).mem_iff.2 hu)
      have hic : i < above probs v := (lt_getElem_iff hsorted hi v).1 hvu
      have hc : c < (descending probs).length := by omega
      have hlow : (descending probs)[c] ≤ (descending probs)[i] := by
        rcases lt_or_ge i c with h | h
        · exact pairwise_iff_getElem.1 hsorted i c hi hc h
        · have hsame : i = c := by omega
          subst hsame
          exact le_rfl
      have hshort := (prefixMass_lt_iff hpos hne hp0 hp c).2 hcut.ge
      rw [heq, prefixMass_succ hc] at hle
      have hmono := prob_mono hexp hpos hne hlow
      linarith
  · intro hneq
    by_cases hle : above probs v ≤ c
    · exact .inl hle
    · -- without the lowest of them the tokens above `v` still hold the nucleus
      obtain ⟨m, hm⟩ : ∃ m, above probs v = m + 1 := ⟨above probs v - 1, by omega⟩
      have hi : m < (descending probs).length := by omega
      refine .inr ⟨(descending probs)[m], (descending_perm probs).mem_iff.1 (getElem_mem hi),
        (lt_getElem_iff hsorted hi v).2 (by unfold above at hm; omega), ?_⟩
      rw [hm, prefixMass_succ hi, add_sub_cancel_right]
      exact hreach.trans (prefixMass_mono hpos hne (by omega))

end Sorted

section Draw

variable [IsStrictOrderedRing R] {exp : R → R} {probs : List (WithBot R)}

theorem multinomial_mass {r : R} {masses : List R} (hsum : masses.sum = 1) (hr0 : 0 ≤ r)
    (hr : r < 1) :
    multinomial r masses < masses.length ∧ 0 < masses.getD (multinomial r masses) 0 := by
  have hne : 0 < masses.length := by
    refine length_pos_of_ne_nil fun h => ?_
    rw [h, sum_nil] at hsum
    linarith
  obtain ⟨c, hc⟩ : ∃ c, firstPrefix (fun cumsum => decide (r < cumsum)) 0 masses = some c := by
    refine firstPrefix_isSome (j := masses.length - 1) (by omega) ?_
    rw [Nat.sub_add_cancel hne, zero_add, take_length, hsum]
    exact decide_eq_true hr
  have hdraw : multinomial r masses = c := by rw [multinomial, hc, Option.getD_some]
  obtain ⟨hlt, hstop, hbefore⟩ := firstPrefix_eq_some.1 hc
  have hlow : (masses.take c).sum ≤ r := by
    cases c with
    | zero => simpa using hr0
    | succ j => simpa using hbefore j (by omega)
  rw [zero_add, sum_take_succ_getElem hlt] at hstop
  rw [hdraw, getD_eq_getElem _ _ hlt]
  refine ⟨hlt, ?_⟩
  have := of_decide_eq_true hstop
  linarith

theorem multinomial_draws {masses : List R} (hnonneg : ∀ x ∈ masses, 0 ≤ x)
    (hsum : masses.sum = 1) {i : Nat} (hi : i < masses.length) (hmass : 0 < masses.getD i 0) :
    ∃ r, 0 ≤ r ∧ r < 1 ∧ multinomial r masses = i := by
  rw [getD_eq_getElem _ _ hi] at hmass
  have hsucc := sum_take_succ_getElem hi
  have hall : (masses.take (i + 1)).sum ≤ (masses.take masses.length).sum :=
    sum_take_mono hnonneg (by omega : i + 1 ≤ masses.length)
  rw [take_length, hsum] at hall
  refine ⟨(masses.take i).sum, sum_nonneg fun x hx => hnonneg x (mem_of_mem_take hx),
    by linarith, ?_⟩
  have hfirst : firstPrefix (fun cumsum => decide ((masses.take i).sum < cumsum)) 0 masses =
      some i := by
    refine firstPrefix_eq_some.2 ⟨hi, ?_, fun j hj hstop => ?_⟩
    · rw [zero_add, hsucc]
      exact decide_eq_true (by linarith)
    · rw [zero_add] at hstop
      have hmono : (masses.take (j + 1)).sum ≤ (masses.take i).sum := sum_take_mono hnonneg hj
      exact absurd (of_decide_eq_true hstop) (not_lt.2 hmono)
  rw [multinomial, hfirst, Option.getD_some]

/-! The masses of the softmax. -/

omit [Field R] [IsStrictOrderedRing R] in
theorem le_foldl_max (l : List (WithBot R)) (start : WithBot R) :
    start ≤ l.foldl max start ∧ ∀ v ∈ l, v ≤ l.foldl max start := by
  induction l generalizing start with
  | nil => exact ⟨le_rfl, by simp⟩
  | cons x l ih =>
    obtain ⟨hstart, hmem⟩ := ih (max start x)
    refine ⟨(le_max_left _ _).trans hstart, fun v hv => ?_⟩
    rcases mem_cons.1 hv with rfl | hv
    · exact (le_max_right _ _).trans hstart
    · exact hmem v hv

omit [IsStrictOrderedRing R] in
theorem shiftedExp_pos_iff (hpos : ∀ x, 0 < exp x) {maxVal : WithBot R} (hmax : maxVal ≠ ⊥)
    (v : WithBot R) :
    0 ≤ shiftedExp exp maxVal v ∧ (0 < shiftedExp exp maxVal v ↔ v ≠ ⊥) := by
  cases maxVal with
  | bot => exact absurd rfl hmax
  | coe =>
    cases v with
    | bot => exact ⟨le_rfl, iff_of_false (lt_irrefl _) fun h => h rfl⟩
    | coe => exact ⟨(hpos _).le, iff_of_true (hpos _) (WithBot.coe_ne_bot)⟩

theorem softmaxInplace_spec (hpos : ∀ x, 0 < exp x) (hv : ∃ v ∈ probs, v ≠ ⊥) :
    (softmaxInplace exp probs).sum = 1 ∧ (∀ x ∈ softmaxInplace exp probs, 0 ≤ x) ∧
      (softmaxInplace exp probs).length = probs.length ∧
      ∀ i, 0 < (softmaxInplace exp probs).getD i 0 ↔ probs.getD i ⊥ ≠ ⊥ := by
  obtain ⟨v, hmem, hne⟩ := hv
  have hmax : probs.foldl max ⊥ ≠ ⊥ := fun h =>
    hne (le_bot_iff.1 (h ▸ (le_foldl_max probs ⊥).2 v hmem))
  have hnonneg : ∀ x ∈ probs.map (shiftedExp exp (probs.foldl max ⊥)), 0 ≤ x := by
    intro x hx
    obtain ⟨u, -, rfl⟩ := mem_map.1 hx
    exact (shiftedExp_pos_iff hpos hmax u).1
  -- a token that is not masked has a positive share, so the sum divides
  have htotal : 0 < (probs.map (shiftedExp exp (probs.foldl max ⊥))).sum :=
    ((shiftedExp_pos_iff hpos hmax v).2.2 hne).trans_le
      (single_le_sum hnonneg _ (mem_map_of_mem hmem))
  have hsoft : softmaxInplace exp probs = probs.map fun v =>
      shiftedExp exp (probs.foldl max ⊥) v *
        ((probs.map (shiftedExp exp (probs.foldl max ⊥))).sum)⁻¹ := by
    simp only [softmaxInplace, if_pos htotal, map_map, div_eq_mul_inv]
    rfl
  refine ⟨?_, fun x hx => ?_, by rw [hsoft, length_map], fun i => ?_⟩
  · rw [hsoft, sum_map_mul_right]
    exact mul_inv_cancel₀ htotal.ne'
  · rw [hsoft] at hx
    obtain ⟨u, -, rfl⟩ := mem_map.1 hx
    exact mul_nonneg (shiftedExp_pos_iff hpos hmax u).1 (inv_pos.2 htotal).le
  · have hget : (softmaxInplace exp probs).getD i 0 =
        shiftedExp exp (probs.foldl max ⊥) (probs.getD i ⊥) *
          ((probs.map (shiftedExp exp (probs.foldl max ⊥))).sum)⁻¹ := by
      rw [hsoft, getD_eq_getElem?_getD, getElem?_map, getD_eq_getElem?_getD]
      cases probs[i]? with
      | none => exact (zero_mul _).symm
      | some => rfl
    rw [hget, mul_pos_iff_of_pos_right (inv_pos.2 htotal)]
    exact (shiftedExp_pos_iff hpos hmax _).2

end Draw

section Mask

variable [IsStrictOrderedRing R] {exp : R → R} {probs : List (WithBot R)} {logits : List R}
  {config : SamplerConfig R}

omit [Field R] [IsStrictOrderedRing R] in
theorem getD_maskBelow (threshold : WithBot R) (probs : List (WithBot R)) (i : Nat) :
    (maskBelow threshold probs).getD i ⊥ =
      if probs.getD i ⊥ < threshold then ⊥ else probs.getD i ⊥ := by
  have hbot : (⊥ : WithBot R) = if (⊥ : WithBot R) < threshold then ⊥ else ⊥ := by simp
  conv_lhs => rw [hbot]
  rw [maskBelow, getD_map]

variable {i k : Nat}

omit [Field R] [IsStrictOrderedRing R] in
theorem getD_maskBelow_ne_bot {threshold : WithBot R} :
    (maskBelow threshold probs).getD i ⊥ ≠ ⊥ ↔
      probs.getD i ⊥ ≠ ⊥ ∧ ¬ probs.getD i ⊥ < threshold := by
  rw [getD_maskBelow]
  by_cases h : probs.getD i ⊥ < threshold
  · rw [if_pos h]
    exact iff_of_false (fun hbot => hbot rfl) fun hkept => hkept.2 h
  · rw [if_neg h]
    exact (and_iff_left h).symm

theorem getD_applyTopP_ne_bot (hpos : ∀ x, 0 < exp x) (hv : ∃ v ∈ probs, v ≠ ⊥) {p : R}
    (hp : p < 1) :
    (applyTopP exp probs p).getD i ⊥ ≠ ⊥ ↔ probs.getD i ⊥ ≠ ⊥ ∧
      above probs (probs.getD i ⊥) ≤ cutoffIndex exp (descending probs) p + 1 := by
  rw [← kept_iff hpos hv hp]
  exact getD_maskBelow_ne_bot

section

omit [Field R] [LinearOrder R] [IsStrictOrderedRing R]

theorem mem_of_getD_ne_bot (h : probs.getD i ⊥ ≠ ⊥) :
    i < probs.length ∧ probs.getD i ⊥ ∈ probs := by
  by_cases hi : i < probs.length
  · rw [getD_eq_getElem _ _ hi]
    exact ⟨hi, getElem_mem hi⟩
  · exact absurd (getD_eq_default _ _ (by omega)) h

theorem exists_getD {v : WithBot R} (h : v ∈ probs) : ∃ i < probs.length, probs.getD i ⊥ = v := by
  obtain ⟨i, hi, rfl⟩ := getElem_of_mem h
  exact ⟨i, hi, getD_eq_getElem _ _ hi⟩

end

theorem applyTopP_leaves (hpos : ∀ x, 0 < exp x) (hv : ∃ v ∈ probs, v ≠ ⊥) {p : R}
    (hp : p < 1) : ∃ v ∈ applyTopP exp probs p, v ≠ ⊥ := by
  obtain ⟨v, hmem, hne⟩ := hv
  -- the highest token has none above it
  have hlen : 0 < (descending probs).length := by
    rw [length_descending]
    exact length_pos_of_mem hmem
  have htop : (descending probs)[0] ∈ probs :=
    (descending_perm probs).mem_iff.1 (getElem_mem hlen)
  have habove : above probs (descending probs)[0] = 0 := by
    have hnot := mt (lt_getElem_iff (descending_pairwise probs) hlen (descending probs)[0]).2
      (lt_irrefl _)
    unfold above
    omega
  have hle : v ≤ (descending probs)[0] := by
    by_contra hlt
    obtain ⟨i, hi, hget⟩ := getElem_of_mem ((descending_perm probs).mem_iff.2 hmem)
    rw [← hget, not_le, lt_getElem_iff (descending_pairwise probs) hi] at hlt
    unfold above at habove
    omega
  obtain ⟨i, hi, hget⟩ := exists_getD htop
  have hkept : (applyTopP exp probs p).getD i ⊥ ≠ ⊥ := by
    rw [getD_applyTopP_ne_bot hpos ⟨v, hmem, hne⟩ hp, hget]
    exact ⟨fun hbot => hne (le_bot_iff.1 (hbot ▸ hle)), by omega⟩
  exact ⟨_, (mem_of_getD_ne_bot hkept).2, hkept⟩

section

omit [Field R] [IsStrictOrderedRing R]

theorem threshold_spec (hk : 0 < k) (hlt : k < probs.length) :
    (probs.mergeSort fun a b => a ≤ b).getD (probs.length - k) ⊥ ∈ probs ∧
      ∀ v, ¬ v < (probs.mergeSort fun a b => a ≤ b).getD (probs.length - k) ⊥ →
        probs.countP (v < ·) < k := by
  have hperm : (probs.mergeSort fun a b => a ≤ b).Perm probs := mergeSort_perm ..
  have hsorted : (probs.mergeSort fun a b => decide (a ≤ b)).Pairwise
      fun a b => decide (a ≤ b) = true :=
    pairwise_mergeSort
      (fun a b c hab hbc => by simp only [decide_eq_true_eq] at *; exact hab.trans hbc)
      (fun a b => by simpa using le_total a b) probs
  have hi : probs.length - k < (probs.mergeSort fun a b => a ≤ b).length := by
    rw [hperm.length_eq]
    omega
  rw [getD_eq_getElem _ _ hi]
  refine ⟨hperm.mem_iff.1 (getElem_mem hi), fun v hv => ?_⟩
  rw [← hperm.countP_eq,
    ← take_append_drop (probs.length - k + 1) (probs.mergeSort fun a b => a ≤ b),
    countP_append]
  -- none of the entries up to the threshold is above `v`
  have hlow : ((probs.mergeSort fun a b => a ≤ b).take (probs.length - k + 1)).countP (v < ·) =
      0 := by
    refine countP_eq_zero.2 fun u hu => ?_
    obtain ⟨j, hj, rfl⟩ := getElem_of_mem hu
    rw [length_take] at hj
    rw [getElem_take]
    have hle : (probs.mergeSort fun a b => a ≤ b)[j] ≤
        (probs.mergeSort fun a b => a ≤ b)[probs.length - k] := by
      rcases lt_or_ge j (probs.length - k) with h | h
      · exact of_decide_eq_true (pairwise_iff_getElem.1 hsorted j _ (by omega) hi h)
      · have hsame : j = probs.length - k := by omega
        subst hsame
        exact le_rfl
    simpa using hle.trans (not_lt.1 hv)
  have hhigh := countP_le_length (p := fun u => decide (v < u))
    (l := (probs.mergeSort fun a b => a ≤ b).drop (probs.length - k + 1))
  rw [length_drop, hperm.length_eq] at hhigh
  omega

theorem applyTopK_spec (probs : List (WithBot R)) (hk : 0 < k) (hlt : k < probs.length) :
    (∃ v ∈ probs, v ∈ applyTopK probs k) ∧
      ∀ i, (applyTopK probs k).getD i ⊥ ≠ ⊥ → probs.countP (probs.getD i ⊥ < ·) < k := by
  obtain ⟨hmem, habove⟩ := threshold_spec hk hlt
  rw [applyTopK, if_neg (by omega)]
  refine ⟨⟨_, hmem, mem_map.2 ⟨_, hmem, if_neg (lt_irrefl _)⟩⟩, fun i hi => ?_⟩
  exact habove _ (getD_maskBelow_ne_bot.1 hi).2

end

end Mask

/-! ## The drawn token -/

section Sample

variable [IsStrictOrderedRing R] {exp : R → R} {logits : List R} {config : SamplerConfig R}

theorem filtered_eq (logits : List R) (htemp : 0 < config.temperature) :
    ∃ f : R → WithBot R, StrictMono f ∧ (∀ x, f x ≠ ⊥) ∧ filtered logits config =
        if 0 < config.topK ∧ config.topK < logits.length then
          applyTopK (logits.map f) config.topK
        else logits.map f := by
  have ht : (0 : R) < if config.temperature < 1 / 10000000 then 1 / 10000000
      else config.temperature := by
    split
    · positivity
    · exact htemp
  generalize hgen : (if config.temperature < (1 : R) / 10000000 then 1 / 10000000
    else config.temperature) = t at ht
  by_cases hscale : epsilon < |t - 1|
  · refine ⟨fun x => ((x * (1 / t) : R) : WithBot R), fun x y hxy => ?_,
      fun _ => WithBot.coe_ne_bot,
      ?_⟩
    · exact WithBot.coe_lt_coe.2 (mul_lt_mul_of_pos_right hxy (one_div_pos.2 ht))
    · simp only [filtered, hgen, if_pos hscale, applyTemperature, map_map, length_map]
      rfl
  · refine ⟨fun x => (x : WithBot R), WithBot.coe_strictMono, fun _ => WithBot.coe_ne_bot, ?_⟩
    simp only [filtered, hgen, if_neg hscale, length_map]

theorem length_filtered (logits : List R) (htemp : 0 < config.temperature) :
    (filtered logits config).length = logits.length := by
  obtain ⟨f, -, -, heq⟩ := filtered_eq logits htemp
  rw [heq]
  split
  · rename_i hk
    rw [applyTopK, if_neg (by rw [length_map]; omega), maskBelow, length_map, length_map]
  · rw [length_map]

theorem filtered_leaves (hlogits : logits ≠ []) (htemp : 0 < config.temperature) :
    ∃ v ∈ filtered logits config, v ≠ ⊥ := by
  obtain ⟨f, -, hbot, heq⟩ := filtered_eq logits htemp
  rw [heq]
  split
  · rename_i hk
    obtain ⟨⟨v, hmem, hleft⟩, -⟩ := applyTopK_spec (logits.map f) hk.1
      (by rw [length_map]; exact hk.2)
    obtain ⟨x, -, rfl⟩ := mem_map.1 hmem
    exact ⟨_, hleft, hbot x⟩
  · obtain ⟨x, hx⟩ := exists_mem_of_ne_nil logits hlogits
    exact ⟨f x, mem_map_of_mem hx, hbot x⟩

theorem filtered_topK (htemp : 0 < config.temperature) {i : Nat}
    (h : (filtered logits config).getD i ⊥ ≠ ⊥) (hk : 0 < config.topK)
    (hlt : config.topK < logits.length) :
    logits.countP (logits.getD i 0 < ·) < config.topK := by
  have hi : i < logits.length := length_filtered logits htemp ▸ (mem_of_getD_ne_bot h).1
  obtain ⟨f, hmono, -, heq⟩ := filtered_eq logits htemp
  rw [heq, if_pos ⟨hk, hlt⟩] at h
  have habove := (applyTopK_spec (logits.map f) hk
    (by rw [length_map]; exact hlt)).2 i h
  have hget : (logits.map f).getD i ⊥ = f (logits.getD i 0) := by
    rw [getD_eq_getElem _ _ (by rw [length_map]; exact hi), getElem_map, getD_eq_getElem _ _ hi]
  rw [hget, countP_map] at habove
  refine lt_of_le_of_lt (countP_mono_left fun x _ hx => ?_) habove
  simpa [hmono.lt_iff_lt] using hx

theorem sample_eq (exp : R → R) (hpos : ∀ x, 0 < exp x) (hlogits : logits ≠ [])
    (htemp : 0 < config.temperature) (hp0 : 0 < config.topP) (hp : config.topP < 1) (r : R) :
    masked exp logits config = applyTopP exp (filtered logits config) config.topP ∧
      (∃ v ∈ masked exp logits config, v ≠ ⊥) ∧
      sample exp r logits config =
        multinomial r (softmaxInplace exp (masked exp logits config)) := by
  have hmasked : masked exp logits config = applyTopP exp (filtered logits config) config.topP := by
    simp only [masked, if_pos (And.intro hp0 hp)]
  have hleaves : ∃ v ∈ masked exp logits config, v ≠ ⊥ := by
    rw [hmasked]
    exact applyTopP_leaves hpos (filtered_leaves hlogits htemp) hp
  refine ⟨hmasked, hleaves, ?_⟩
  have hempty : ¬ logits.isEmpty = true := by simpa using hlogits
  have hall : ¬ (masked exp logits config).all (· = ⊥) = true := by
    obtain ⟨v, hmem, hne⟩ := hleaves
    intro h
    exact hne (by simpa using all_eq_true.1 h v hmem)
  simp only [sample, if_neg hempty, if_neg (not_le.2 htemp), if_neg hall]

/-- Every drawn token is supported exactly if no token leaks. -/
theorem sample_supported_iff (hexp : StrictMono exp) (hpos : ∀ x, 0 < exp x)
    (hlogits : logits ≠ []) (htemp : 0 < config.temperature) (hp0 : 0 < config.topP)
    (hp : config.topP < 1) :
    (∀ r, 0 ≤ r → r < 1 → Supported exp logits config (sample exp r logits config)) ↔
      NoLeak exp (filtered logits config) config.topP := by
  have hfiltered := filtered_leaves hlogits htemp
  have hlength := length_filtered logits htemp
  have hleft : ∀ i, (masked exp logits config).getD i ⊥ ≠ ⊥ ↔
      (filtered logits config).getD i ⊥ ≠ ⊥ ∧
        above (filtered logits config) ((filtered logits config).getD i ⊥) ≤
          cutoffIndex exp (descending (filtered logits config)) config.topP + 1 := by
    intro i
    rw [(sample_eq exp hpos hlogits htemp hp0 hp 0).1]
    exact getD_applyTopP_ne_bot hpos hfiltered hp
  constructor
  · intro hsupported v hmem hv
    rw [spare_iff hexp hpos hp0 hp hmem hv]
    intro hleak
    -- a token one behind the nucleus keeps its mass, and some number draws it
    obtain ⟨i, hi, rfl⟩ := exists_getD hmem
    have hkept := (hleft i).2 ⟨hv, hleak.le⟩
    obtain ⟨-, hleaves, -⟩ := sample_eq exp hpos hlogits htemp hp0 hp 0
    obtain ⟨hsum, hnonneg, hlen, hmass⟩ := softmaxInplace_spec hpos hleaves
    have hin : i < (softmaxInplace exp (masked exp logits config)).length := by
      rw [hlen]
      exact (mem_of_getD_ne_bot hkept).1
    obtain ⟨r, hr0, hr, hdraw⟩ := multinomial_draws hnonneg hsum hin ((hmass i).2 hkept)
    have htoken : sample exp r logits config = i :=
      (sample_eq exp hpos hlogits htemp hp0 hp r).2.2.trans hdraw
    have hnucleus := (htoken ▸ hsupported r hr0 hr).nucleus
    rw [inNucleus_iff hpos hfiltered hp0 hp] at hnucleus
    omega
  · intro hnoleak r hr0 hr
    obtain ⟨-, hleaves, hdraw⟩ := sample_eq exp hpos hlogits htemp hp0 hp r
    obtain ⟨hsum, -, -, hmass⟩ := softmaxInplace_spec hpos hleaves
    have hdrawn := (multinomial_mass hsum hr0 hr).2
    rw [← hdraw, hmass] at hdrawn
    obtain ⟨hunmasked, habove⟩ := (hleft _).1 hdrawn
    obtain ⟨hin, hmem⟩ := mem_of_getD_ne_bot hunmasked
    have hspare := (spare_iff hexp hpos hp0 hp hmem hunmasked).1 (hnoleak _ hmem hunmasked)
    refine ⟨by rw [← hlength]; exact hin, fun hk hlt => filtered_topK htemp hunmasked hk hlt,
      ?_, hdrawn⟩
    rw [inNucleus_iff hpos hfiltered hp0 hp]
    omega

end Sample

/-! ## Two and three tokens -/

/-- A strictly increasing positive function on the rationals. -/
def growth (x : ℚ) : ℚ := if x < 0 then 1 / (1 - x) else 1 + x

theorem growth_pos (x : ℚ) : 0 < growth x := by
  unfold growth
  by_cases h : x < 0
  · rw [if_pos h]
    exact one_div_pos.2 (by linarith)
  · rw [if_neg h]
    linarith

theorem growth_strictMono : StrictMono growth := by
  intro x y hxy
  unfold growth
  by_cases hy : y < 0
  · rw [if_pos (hxy.trans hy), if_pos hy]
    exact one_div_lt_one_div_of_lt (by linarith) (by linarith)
  · rw [if_neg hy]
    by_cases hx : x < 0
    · rw [if_pos hx]
      -- below zero the values are below one
      have hlt : 1 / (1 - x) < 1 := by
        rw [div_lt_one (by linarith)]
        linarith
      linarith
    · rw [if_neg hx]
      linarith

/-- No temperature and no `top_k`. -/
def topPOnly (p : R) : SamplerConfig R where
  temperature := 1
  topP := p
  topK := 0

theorem filtered_topPOnly [IsStrictOrderedRing R] (logits : List R) (p : R) :
    filtered logits (topPOnly p) = logits.map fun v : R => (v : WithBot R) := by
  have ht : (if (topPOnly p).temperature < (1 : R) / 10000000 then 1 / 10000000
      else (topPOnly p).temperature) = 1 := if_neg (by norm_num [topPOnly])
  have hscale : ¬ epsilon < |(1 : R) - 1| := by norm_num [epsilon]
  have hk : ¬ (0 < (topPOnly p).topK ∧ (topPOnly p).topK < logits.length) := fun h =>
    lt_irrefl 0 h.1
  simp only [filtered, ht, if_neg hscale, length_map, if_neg hk]

/-- Two logits, from high to low. -/
def pair : List (WithBot ℚ) := [((1 : ℚ) : WithBot ℚ), ((0 : ℚ) : WithBot ℚ)]

theorem filtered_pair (p : ℚ) : filtered [1, 0] (topPOnly p) = pair :=
  filtered_topPOnly [1, 0] p

theorem prob_pair (v : ℚ) : prob growth pair v = growth v / 3 := by
  have htotal : growth 1 + (growth 0 + 0) = 3 := by norm_num [growth]
  exact congrArg (growth v / ·) htotal

theorem massAbove_pair : massAbove growth pair ((0 : ℚ) : WithBot ℚ) = 2 / 3 := by
  have hlt : ((0 : ℚ) : WithBot ℚ) < ((1 : ℚ) : WithBot ℚ) := WithBot.coe_lt_coe.2 one_pos
  have hfilter : pair.filter (((0 : ℚ) : WithBot ℚ) < ·) = [((1 : ℚ) : WithBot ℚ)] := by
    simp only [pair, filter_cons, filter_nil, decide_eq_true hlt, lt_irrefl]
    rfl
  rw [massAbove, hfilter, map_singleton, sum_singleton, prob_pair]
  norm_num [growth]

/-- Two tied logits over a third one. -/
def tied : List (WithBot ℚ) := [((1 : ℚ) : WithBot ℚ), ((1 : ℚ) : WithBot ℚ), ((0 : ℚ) : WithBot ℚ)]

theorem massAbove_tied : massAbove growth tied ((1 : ℚ) : WithBot ℚ) = 0 ∧
    massAbove growth tied ((0 : ℚ) : WithBot ℚ) = 4 / 5 ∧
    prob growth tied ((1 : ℚ) : WithBot ℚ) = 2 / 5 := by
  have hlt : ((0 : ℚ) : WithBot ℚ) < ((1 : ℚ) : WithBot ℚ) := WithBot.coe_lt_coe.2 one_pos
  have htotal : growth 1 + (growth 1 + (growth 0 + 0)) = 5 := by norm_num [growth]
  have hprob : prob growth tied ((1 : ℚ) : WithBot ℚ) = 2 / 5 := by
    refine (congrArg (growth 1 / ·) htotal).trans ?_
    norm_num [growth]
  have hfilter : tied.filter (((0 : ℚ) : WithBot ℚ) < ·) =
      [((1 : ℚ) : WithBot ℚ), ((1 : ℚ) : WithBot ℚ)] := by
    simp only [tied, filter_cons, filter_nil, decide_eq_true hlt, lt_irrefl]
    rfl
  refine ⟨by simp [massAbove, tied], ?_, hprob⟩
  rw [massAbove, hfilter, map_cons, map_singleton, sum_cons, sum_singleton, hprob]
  norm_num

/-- The third token is masked: the tie already spares more than `3/10`. -/
theorem sample_supported_iff_tied :
    NoLeak growth (filtered [1, 1, 0] (topPOnly (3 / 10))) (3 / 10) ∧ ∀ r, 0 ≤ r → r < 1 →
        Supported growth [1, 1, 0] (topPOnly (3 / 10))
          (sample growth r [1, 1, 0] (topPOnly (3 / 10))) := by
  have hp : (0 : ℚ) < 3 / 10 ∧ (3 / 10 : ℚ) < 1 := by norm_num
  have hleak : NoLeak growth (filtered [1, 1, 0] (topPOnly (3 / 10))) (3 / 10) := by
    intro v hv _
    have htied : filtered [1, 1, 0] (topPOnly (3 / 10 : ℚ)) = tied := filtered_topPOnly _ _
    rw [htied] at hv ⊢
    obtain ⟨hfirst, hthird, hprob⟩ := massAbove_tied
    simp only [tied, mem_cons, not_mem_nil, or_false] at hv
    rcases hv with rfl | rfl | rfl
    · exact .inl (hfirst.trans_lt hp.1)
    · exact .inl (hfirst.trans_lt hp.1)
    · refine .inr ⟨_, mem_cons_self, WithBot.coe_lt_coe.2 one_pos, ?_⟩
      rw [hthird, hprob]
      norm_num
  exact ⟨hleak, (sample_supported_iff growth_strictMono growth_pos (cons_ne_nil _ _) one_pos
    hp.1 hp.2).2 hleak⟩

theorem softmaxInplace_pair : softmaxInplace growth pair = [2 / 3, 1 / 3] := by
  have hmax : pair.foldl max ⊥ = ((1 : ℚ) : WithBot ℚ) := by
    have hle : ((0 : ℚ) : WithBot ℚ) ≤ ((1 : ℚ) : WithBot ℚ) := WithBot.coe_le_coe.2 zero_le_one
    simp only [pair, foldl_cons, foldl_nil, bot_sup_eq, max_eq_left hle]
  have hexps : pair.map (shiftedExp growth ((1 : ℚ) : WithBot ℚ)) =
      [growth (1 - 1), growth (0 - 1)] := rfl
  rw [softmaxInplace, hmax, hexps]
  norm_num [growth]

theorem applyTopP_pair : applyTopP growth pair (1 / 2) = pair := by
  have hle : ((0 : ℚ) : WithBot ℚ) ≤ ((1 : ℚ) : WithBot ℚ) := WithBot.coe_le_coe.2 zero_le_one
  have hsorted : descending pair = pair := mergeSort_of_pairwise (by simp [pair])
  -- a threshold up to the second logit masks nothing
  have hmask : ∀ t : WithBot ℚ, t ≤ ((0 : ℚ) : WithBot ℚ) → maskBelow t pair = pair := by
    intro t ht
    simp only [maskBelow, pair, map_cons, map_nil, if_neg (not_lt.2 ht),
      if_neg (not_lt.2 (ht.trans hle))]
  have hthreshold : (if cutoffIndex growth (descending pair) (1 / 2) < pair.length - 1 then
      (descending pair).getD (cutoffIndex growth (descending pair) (1 / 2) + 1) ⊥ else ⊥) ≤
      ((0 : ℚ) : WithBot ℚ) := by
    by_cases hcut : cutoffIndex growth (descending pair) (1 / 2) < pair.length - 1
    · have hzero : cutoffIndex growth (descending pair) (1 / 2) = 0 := Nat.lt_one_iff.1 hcut
      rw [if_pos hcut, hzero, hsorted]
      exact le_rfl
    · rw [if_neg hcut]
      exact bot_le
  exact hmask _ hthreshold

/-- `3/4` draws the second token although the first one reaches `1/2`. -/
theorem sample_leaks :
    StrictMono growth ∧ (∀ x, 0 < growth x) ∧ ¬ Supported growth [1, 0] (topPOnly (1 / 2))
        (sample growth (3 / 4) [1, 0] (topPOnly (1 / 2))) := by
  refine ⟨growth_strictMono, growth_pos, fun h => ?_⟩
  have htemp : (0 : ℚ) < (topPOnly (1 / 2)).temperature := one_pos
  have hp0 : (0 : ℚ) < (topPOnly (1 / 2)).topP := one_half_pos
  have hp : (topPOnly (1 / 2 : ℚ)).topP < 1 := one_half_lt_one
  have hdraw : sample growth (3 / 4) [1, 0] (topPOnly (1 / 2)) = 1 := by
    obtain ⟨hmasked, -, hdraw⟩ :=
      sample_eq growth growth_pos (cons_ne_nil 1 [0]) htemp hp0 hp (3 / 4)
    have hkept : masked growth [1, 0] (topPOnly (1 / 2)) = pair := by
      rw [hmasked, filtered_pair]
      exact applyTopP_pair
    rw [hdraw, hkept, softmaxInplace_pair]
    norm_num [multinomial, firstPrefix]
  have hnucleus := h.nucleus
  rw [hdraw, filtered_pair] at hnucleus
  have hreached : massAbove growth pair ((0 : ℚ) : WithBot ℚ) < 1 / 2 := hnucleus
  rw [massAbove_pair] at hreached
  linarith

end CompileForge.Runtime.SamplerSupport
