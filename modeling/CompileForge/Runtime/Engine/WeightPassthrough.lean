/-
  Which weight a pass-through output of `main_0` is aliased to.  The block of returned weights is
  located by the first longest run of equal shapes; nothing ties the run to the block.
-/

import CompileForge.Lib.FirstBest
import CompileForge.Runtime.Engine.GraphRunner

namespace CompileForge.Runtime

open Lib List

variable {funcDef : FuncDef} {pre c : Nat}

section Contract

variable (funcDef : FuncDef)

/-- The descriptor of weight input `i`, counted among the weight inputs. -/
def weightDef (i : Nat) : Option GraphTensorDef :=
  (weightInputs funcDef)[i]?.bind fun bi => funcDef.inputs[bi]?.map Prod.snd

/-- The first `c` weights are consumed, the others returned in order from output `pre` on. -/
structure FollowsContract (funcDef : FuncDef) (pre c : Nat) : Prop where
  consumed : c ≤ (weightInputs funcDef).length
  returned : ∀ j, c + j < (weightInputs funcDef).length → ∃ od w,
    funcDef.outputs[pre + j]? = some od ∧ weightDef funcDef (c + j) = some w ∧
      od.rank = w.rank ∧ od.shape = w.shape

/-- Every alias is from the output of a returned weight to the input of that weight. -/
def AliasesSound (pre c : Nat) (aliases : List (Nat × Nat)) : Prop :=
  ∀ e ∈ aliases, ∃ j, e.1 = pre + j ∧ (weightInputs funcDef)[c + j]? = some e.2

/-! ## Runs of equal shapes -/

/-- A run of outputs and weights of equal shapes. -/
def Matches (o i len : Nat) : Prop :=
  ∀ k < len, ∃ od w, funcDef.outputs[o + k]? = some od ∧ weightDef funcDef (i + k) = some w ∧
    staticMatch od w = true

/-- `len` returned weights from the `j`-th on have no dynamic dimension. -/
def StaticRun (c j len : Nat) : Prop :=
  ∀ k < len, ∃ w, weightDef funcDef (c + j + k) = some w ∧ ∀ d ∈ w.shape, 0 < d

/-- Runs of two or more beside the block lose to one of the block, longer or visited earlier. -/
def BlockWins (pre c : Nat) : Prop :=
  ∀ o i len, 2 ≤ len → Matches funcDef o i len → (¬ ∃ j, o = pre + j ∧ i = c + j) →
    ∃ j, StaticRun funcDef c j (len + 1) ∨
      StaticRun funcDef c j len ∧ VisitedBefore (pre + j, c + j) (o, i)

end Contract

variable {i o len : Nat}

theorem weightDef_lt {w : GraphTensorDef} (h : weightDef funcDef i = some w) :
    i < (weightInputs funcDef).length := by
  by_contra hi
  rw [weightDef, getElem?_eq_none (by omega)] at h
  cases h

theorem staticMatch_iff {od w : GraphTensorDef} : staticMatch od w = true ↔
    (∀ d ∈ od.shape, 0 < d) ∧ od.rank = w.rank ∧ od.shape = w.shape := by
  simp [staticMatch, and_assoc]

theorem le_matchLen_iff :
    len ≤ matchLen funcDef o i ↔ Matches funcDef o i len := by
  unfold matchLen Matches
  rw [le_length_takeWhile]
  refine forall_congr' fun k => forall_congr' fun _ => ?_
  simp only [getElem?_zip_eq_some, getElem?_drop, weightDef]
  constructor
  · rintro ⟨⟨od, bi⟩, ⟨hod, hbi⟩, hmatch⟩
    cases hinput : funcDef.inputs[bi]? with
    | none => simp [hinput] at hmatch
    | some input =>
      simp only [hinput] at hmatch
      exact ⟨od, input.2, hod, by simp [hbi, hinput], hmatch⟩
  · rintro ⟨od, w, hod, hw, hmatch⟩
    obtain ⟨bi, hbi, hw⟩ := Option.bind_eq_some_iff.1 hw
    obtain ⟨input, hinput, rfl⟩ := Option.map_eq_some_iff.1 hw
    exact ⟨(od, bi), ⟨hod, hbi⟩, by simpa [hinput] using hmatch⟩

theorem matches_block_iff (h : FollowsContract funcDef pre c) {j : Nat} :
    Matches funcDef (pre + j) (c + j) len ↔ StaticRun funcDef c j len := by
  refine forall_congr' fun k => forall_congr' fun _ => ?_
  constructor
  · rintro ⟨od, w, -, hw, hmatch⟩
    obtain ⟨hpos, -, hshape⟩ := staticMatch_iff.1 hmatch
    exact ⟨w, hw, hshape ▸ hpos⟩
  · rintro ⟨w, hw, hpos⟩
    have hlt := weightDef_lt hw
    obtain ⟨od, w', hod, hw', hrank, hshape⟩ := h.returned (j + k) (by omega)
    rw [← add_assoc, hw, Option.some.injEq] at hw'
    subst hw'
    exact ⟨od, w, by rwa [add_assoc], hw, staticMatch_iff.2 ⟨hshape ▸ hpos, hrank, hshape⟩⟩

/-! ## The scan -/

def starts (funcDef : FuncDef) : List (Nat × Nat) :=
  range funcDef.outputs.length ×ˢ range (weightInputs funcDef).length

theorem mem_starts (h : Matches funcDef o i len) (hlen : 0 < len) :
    (o, i) ∈ starts funcDef := by
  obtain ⟨od, w, hod, hw, -⟩ := h 0 hlen
  obtain ⟨ho, -⟩ := List.getElem?_eq_some_iff.1 hod
  have hi := weightDef_lt hw
  exact mem_product.2 ⟨mem_range.2 (by omega), mem_range.2 (by omega)⟩

theorem bestMatch_eq : bestMatch funcDef =
    (starts funcDef).foldl (keepBest fun s => matchLen funcDef s.1 s.2) (0, 0, 0) := by
  rw [starts, ← foldl_product]
  rfl

theorem bestMatch_firstBest (h : 2 ≤ (bestMatch funcDef).1) :
    matchLen funcDef (bestMatch funcDef).2.1 (bestMatch funcDef).2.2 = (bestMatch funcDef).1 ∧
      FirstBest (fun s => matchLen funcDef s.1 s.2) (starts funcDef) (bestMatch funcDef).2 := by
  rw [bestMatch_eq] at h ⊢
  rcases foldl_keepBest (fun s => matchLen funcDef s.1 s.2) (starts funcDef) (0, 0) with
    ⟨hfold, -⟩ | ⟨s, hfold, hbest⟩
  · rw [hfold] at h
    omega
  · rw [hfold]
    exact ⟨rfl, hbest⟩

theorem two_le_bestMatch (h : Matches funcDef o i len) (hlen : 2 ≤ len) :
    2 ≤ (bestMatch funcDef).1 := by
  have hmem := mem_starts h (by omega)
  have hle := le_matchLen_iff.2 h
  rw [bestMatch_eq]
  rcases foldl_keepBest (fun s => matchLen funcDef s.1 s.2) (starts funcDef) (0, 0) with
    ⟨-, hzero⟩ | ⟨s, hfold, hbest⟩
  · have := hzero _ hmem
    dsimp only at this
    omega
  · rw [hfold]
    have := hbest.le hmem
    dsimp only at this ⊢
    omega

/-! ## Soundness -/

theorem nodup_weightInputs : (weightInputs funcDef).Nodup := by
  have hsub : (weightInputs funcDef).Sublist (funcDef.inputs.zipIdx.map Prod.snd) :=
    filter_sublist.map _
  refine hsub.nodup ?_
  rw [zipIdx_map_snd]
  exact nodup_range'

theorem sound_run_iff (h : Matches funcDef o i len) (hlen : 0 < len) :
    AliasesSound funcDef pre c
        ((range len).map fun k => (o + k, (weightInputs funcDef).getD (i + k) 0)) ↔
      ∃ j, o = pre + j ∧ i = c + j := by
  have hget : ∀ k < len, (weightInputs funcDef)[i + k]? =
      some ((weightInputs funcDef).getD (i + k) 0) := by
    intro k hk
    obtain ⟨od, w, -, hw, -⟩ := h k hk
    rw [getD_eq_getElem?_getD, getElem?_eq_getElem (weightDef_lt hw), Option.getD_some]
  constructor
  · -- the first alias alone places the run, as no input is listed twice
    intro hsound
    obtain ⟨j, ho, hj⟩ := hsound _ (mem_map.2 ⟨0, mem_range.2 hlen, rfl⟩)
    refine ⟨j, ho, ?_⟩
    have hlt := (List.getElem?_eq_some_iff.1 hj).1
    exact ((getElem?_inj hlt nodup_weightInputs).1 (hj.trans (hget 0 hlen).symm)).symm
  · rintro ⟨j, rfl, rfl⟩ e he
    obtain ⟨k, hk, rfl⟩ := mem_map.1 he
    refine ⟨j + k, add_assoc .., ?_⟩
    rw [← add_assoc]
    exact hget k (mem_range.1 hk)

/-- The longest run is one of the block exactly when the block wins. -/
theorem best_in_block_iff (h : FollowsContract funcDef pre c) (hlen : 2 ≤ len)
    (hscore : matchLen funcDef o i = len)
    (hbest : FirstBest (fun s => matchLen funcDef s.1 s.2) (starts funcDef) (o, i)) :
    (∃ j, o = pre + j ∧ i = c + j) ↔ BlockWins funcDef pre c := by
  have hsorted := pairwise_visitedBefore funcDef.outputs.length (weightInputs funcDef).length
  constructor
  · rintro ⟨j, rfl, rfl⟩ o' i' len' hlen' hmatches hbeside
    have hmem := mem_starts hmatches (by omega)
    have hle := le_matchLen_iff.2 hmatches
    have hbound : matchLen funcDef o' i' ≤ matchLen funcDef (pre + j) (c + j) := hbest.le hmem
    have hblock : StaticRun funcDef c j len :=
      (matches_block_iff h).1 (le_matchLen_iff.1 hscore.ge)
    by_cases hshort : len' < len
    · exact ⟨j, .inl fun k hk => hblock k (by omega)⟩
    · -- a run as long beside the block was visited later
      have heq : len' = len := by omega
      have hne : (o', i') ≠ (pre + j, c + j) := fun he => by
        cases he
        exact hbeside ⟨j, rfl, rfl⟩
      have hsame : matchLen funcDef o' i' = matchLen funcDef (pre + j) (c + j) := by omega
      exact ⟨j, .inr ⟨heq ▸ hblock, hbest.rel_of_pairwise hsorted hmem hne hsame⟩⟩
  · intro hwins
    by_contra hbeside
    obtain ⟨j, hlonger | ⟨hequal, hearlier⟩⟩ :=
      hwins o i len hlen (le_matchLen_iff.1 hscore.ge) hbeside
    · -- a longer run of the block has a higher score
      have hmatches := (matches_block_iff h).2 hlonger
      have hle := le_matchLen_iff.2 hmatches
      have hbound : matchLen funcDef (pre + j) (c + j) ≤ matchLen funcDef o i :=
        hbest.le (mem_starts hmatches (by omega))
      omega
    · -- one as long and visited earlier comes first
      have hmatches := (matches_block_iff h).2 hequal
      have hmem := mem_starts hmatches (by omega)
      have hle := le_matchLen_iff.2 hmatches
      have hbound : matchLen funcDef (pre + j) (c + j) ≤ matchLen funcDef o i := hbest.le hmem
      have hne : (pre + j, c + j) ≠ (o, i) := fun he => by
        cases he
        exact hbeside ⟨j, rfl, rfl⟩
      have hsame : matchLen funcDef (pre + j) (c + j) = matchLen funcDef o i := by omega
      have hlater : VisitedBefore (o, i) (pre + j, c + j) :=
        hbest.rel_of_pairwise hsorted hmem hne hsame
      simp only [VisitedBefore] at hearlier hlater
      omega

/-- The aliases are those of the block exactly when the block wins the scan. -/
theorem aliases_sound_iff (h : FollowsContract funcDef pre c) :
    AliasesSound funcDef pre c (main0WeightPassthroughMap funcDef) ↔
      funcDef.index ≠ 0 ∨ BlockWins funcDef pre c := by
  unfold main0WeightPassthroughMap
  by_cases hindex : funcDef.index ≠ 0
  · rw [if_pos hindex]
    exact iff_of_true (by simp [AliasesSound]) (.inl hindex)
  rw [if_neg hindex]
  by_cases hlong : (bestMatch funcDef).1 < 2
  · -- no run is long enough, and the map is empty
    simp only [if_pos hlong]
    refine iff_of_true (by simp [AliasesSound]) (.inr fun o i len hlen hmatches _ => ?_)
    have := two_le_bestMatch hmatches hlen
    omega
  simp only [if_neg hlong]
  have htwo : 2 ≤ (bestMatch funcDef).1 := by omega
  obtain ⟨hscore, hbest⟩ := bestMatch_firstBest htwo
  rw [sound_run_iff (le_matchLen_iff.1 hscore.ge) (by omega), or_iff_right hindex]
  exact best_in_block_iff h (by omega) hscore hbest

/-- Three weights of one shape; the first is consumed. -/
def equalWeights : FuncDef where
  index := 0
  symbol := "main_0"
  numInputs := 4
  numOutputs := 2
  inputs :=
    [(.globalInput, ⟨⟨false⟩, 2, [0, 0], .i64⟩), (.weight "w1", ⟨⟨false⟩, 2, [4, 4], .f32⟩),
      (.weight "w2", ⟨⟨false⟩, 2, [4, 4], .f32⟩), (.weight "w3", ⟨⟨false⟩, 2, [4, 4], .f32⟩)]
  outputs := [⟨⟨false⟩, 2, [4, 4], .f32⟩, ⟨⟨false⟩, 2, [4, 4], .f32⟩]
  consumedSubOutputFlags := []

theorem equalWeights_contract : FollowsContract equalWeights 0 1 := by
  refine ⟨by decide, fun j hj => ?_⟩
  have hlen : (weightInputs equalWeights).length = 3 := by decide
  obtain rfl | rfl : j = 0 ∨ j = 1 := by omega
  · exact ⟨_, _, rfl, rfl, rfl, rfl⟩
  · exact ⟨_, _, rfl, rfl, rfl, rfl⟩

theorem aliases_sound_iff_equalWeights :
    AliasesSound equalWeights 0 1 (main0WeightPassthroughMap equalWeights) ↔
      equalWeights.index ≠ 0 ∨ BlockWins equalWeights 0 1 :=
  aliases_sound_iff equalWeights_contract

/-- The output that returns `w2` is aliased to `w1`. -/
theorem aliases_unsound : FollowsContract equalWeights 0 1 ∧
    ¬ AliasesSound equalWeights 0 1 (main0WeightPassthroughMap equalWeights) := by
  refine ⟨equalWeights_contract, fun hsound => ?_⟩
  have hmem : (0, 1) ∈ main0WeightPassthroughMap equalWeights := by decide
  obtain ⟨j, hj, hinput⟩ := hsound _ hmem
  obtain rfl : j = 0 := by omega
  revert hinput
  decide

end CompileForge.Runtime
