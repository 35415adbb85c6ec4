/-
  The functions of a split module have different names, none of which is `main`.  The fold keeps
  this of the blocks it has named: all but the block just seen, when that one waits for the
  attention block behind it.
-/

import CompileForge.Compiler.SplitWiring
import CompileForge.Lib.Numbered

namespace CompileForge.Compiler

open Lib List

variable (base : String)

/-- Every layer has a number of its own, and the two functions of one layer differ in their suffix.
    -/
def layerName (n : Nat) (suffix : String) : String :=
  base ++ "_" ++ Nat.repr n ++ suffix

def IsSuffix (suffix : String) : Prop := ∀ c ∈ suffix.toList.head?, c.isDigit = false

theorem takeWhile_digits (n : Nat) {rest : List Char} (h : ∀ c ∈ rest.head?, c.isDigit = false) :
    (Nat.toDigits 10 n ++ rest).takeWhile Char.isDigit = Nat.toDigits 10 n := by
  have hdigits : ∀ c ∈ Nat.toDigits 10 n, c.isDigit = true := fun c hc =>
    Nat.isDigit_of_mem_toDigits (by decide) (by decide) hc
  rw [takeWhile_append_of_pos hdigits]
  cases rest with
  | nil => rw [takeWhile_nil, append_nil]
  | cons c =>
    have hc : c.isDigit = false := h c rfl
    rw [takeWhile_cons, if_neg (by rw [hc]; exact Bool.false_ne_true), append_nil]

theorem layerName_inj {base suffix suffix' : String} {m n : Nat} (hs : IsSuffix suffix)
    (hs' : IsSuffix suffix') (h : layerName base m suffix = layerName base n suffix') :
    m = n ∧ suffix = suffix' := by
  have hlist := congrArg String.toList h
  simp only [layerName, String.toList_append, Nat.toList_repr, append_assoc] at hlist
  have hrest := append_cancel_left (append_cancel_left hlist)
  have hdigits := congrArg (List.takeWhile Char.isDigit) hrest
  rw [takeWhile_digits m hs, takeWhile_digits n hs'] at hdigits
  rw [hdigits] at hrest
  exact ⟨digits_injective hdigits, String.toList_injective (append_cancel_left hrest)⟩

theorem layerName_ne_main (n : Nat) (suffix : String) : layerName base n suffix ≠ "main" := by
  intro h
  have hmem : '_' ∈ (layerName base n suffix).toList := by
    simp only [layerName, String.toList_append, mem_append]
    exact .inl (.inl (.inr (mem_singleton_self '_')))
  rw [h] at hmem
  exact absurd hmem (by decide)

/-! ## The fold -/

variable (isB : List Bool)

/-- One step of `funcNames`. -/
def nameBlock (acc : List String × Nat) (fi : Nat) : List String × Nat :=
  if isB.getD fi false then
    ((acc.1.set (fi - 1) (layerName base acc.2 "a")).set fi (layerName base acc.2 "b"), acc.2 + 1)
  else if isB.getD (fi + 1) false then acc
  else (acc.1.set fi (layerName base acc.2 ""), acc.2 + 1)

theorem funcNames_eq_foldl : funcNames base isB =
      ((range isB.length).foldl (nameBlock base isB) (replicate isB.length "", 0)).1 := by
  have hplain : ∀ n : Nat, s!"{base}_{n}" = layerName base n "" := fun n => by
    rw [layerName, String.append_empty]
    rfl
  refine congrArg (fun step => ((range isB.length).foldl step
    (replicate isB.length "", 0)).1) ?_
  funext acc fi
  rw [nameBlock, ← hplain]
  rfl

/-- Block `j` has its name once those before `i` are named; the last may wait for its sibling. -/
def Settled (i j : Nat) : Prop :=
  j < i ∧ ¬ (j + 1 = i ∧ isB.getD i false = true)

/-- What holds after the blocks before `i`: the settled ones have distinct names of the layers. -/
structure Named (i : Nat) (acc : List String × Nat) : Prop where
  length : acc.1.length = isB.length
  layer : ∀ j, Settled isB i j → ∃ n suffix, n < acc.2 ∧ IsSuffix suffix ∧
    acc.1[j]? = some (layerName base n suffix)
  distinct : ∀ j k, Settled isB i j → Settled isB i k → acc.1[j]? = acc.1[k]? → j = k

theorem Named.nameBlock {base : String} {isB : List Bool} {i : Nat} {acc : List String × Nat}
    (hfirst : isB.getD 0 false = false) (hi : i < isB.length) (h : Named base isB i acc) :
    Named base isB (i + 1) (nameBlock base isB acc i) := by
  obtain ⟨names, layerN⟩ := acc
  have hlen : names.length = isB.length := h.length
  -- a name of the next layer is none of the names so far
  have hfresh : ∀ j suffix, Settled isB i j → IsSuffix suffix →
      names[j]? ≠ some (layerName base layerN suffix) := by
    intro j suffix hj hsuffix heq
    obtain ⟨n, suffix', hn, hsuffix', hname⟩ := h.layer j hj
    have := (layerName_inj hsuffix' hsuffix (Option.some.inj (hname.symm.trans heq))).1
    exact absurd this (ne_of_lt hn)
  have hempty : IsSuffix "" := fun c hc => by cases hc
  have ha : IsSuffix "a" := fun c hc => by
    cases hc
    decide
  have hb : IsSuffix "b" := fun c hc => by
    cases hc
    decide
  unfold Compiler.nameBlock
  by_cases hB : isB.getD i false = true
  · -- the block names itself and the one before
    rw [if_pos hB]
    have hpos : 0 < i := by
      rcases Nat.eq_zero_or_pos i with rfl | hpos
      · rw [hfirst] at hB
        cases hB
      · exact hpos
    have hold : ∀ j, Settled isB (i + 1) j → j ≠ i → j ≠ i - 1 → Settled isB i j := by
      intro j hj hne hne'
      exact ⟨by have := hj.1; omega, fun hlast => by omega⟩
    have hat : ∀ j, ((names.set (i - 1) (layerName base layerN "a")).set i
        (layerName base layerN "b"))[j]? = if j = i then some (layerName base layerN "b")
          else if j = i - 1 then some (layerName base layerN "a") else names[j]? := by
      intro j
      rw [getElem?_set, getElem?_set, length_set]
      split_ifs <;> first | rfl | omega
    refine ⟨by rw [length_set, length_set]; exact hlen, fun j hj => ?_, fun j k hj hk heq => ?_⟩
    · rw [hat]
      by_cases hji : j = i
      · rw [if_pos hji]
        exact ⟨layerN, "b", Nat.lt_succ_self _, hb, rfl⟩
      · by_cases hja : j = i - 1
        · rw [if_neg hji, if_pos hja]
          exact ⟨layerN, "a", Nat.lt_succ_self _, ha, rfl⟩
        · rw [if_neg hji, if_neg hja]
          obtain ⟨n, suffix, hn, hname⟩ := h.layer j (hold j hj hji hja)
          exact ⟨n, suffix, Nat.lt_succ_of_lt hn, hname⟩
    · have hab : layerName base layerN "b" ≠ layerName base layerN "a" := fun hne =>
        absurd (layerName_inj hb ha hne).2 (by decide)
      rw [hat, hat] at heq
      by_cases hji : j = i
      · by_cases hki : k = i
        · rw [hji, hki]
        · rw [if_pos hji, if_neg hki] at heq
          by_cases hka : k = i - 1
          · rw [if_pos hka] at heq
            exact absurd (Option.some.inj heq) hab
          · rw [if_neg hka] at heq
            exact absurd heq.symm (hfresh k "b" (hold k hk hki hka) hb)
      · rw [if_neg hji] at heq
        by_cases hja : j = i - 1
        · rw [if_pos hja] at heq
          by_cases hki : k = i
          · rw [if_pos hki] at heq
            exact absurd (Option.some.inj heq).symm hab
          · rw [if_neg hki] at heq
            by_cases hka : k = i - 1
            · rw [hja, hka]
            · rw [if_neg hka] at heq
              exact absurd heq.symm (hfresh k "a" (hold k hk hki hka) ha)
        · rw [if_neg hja] at heq
          have hj' := hold j hj hji hja
          by_cases hki : k = i
          · rw [if_pos hki] at heq
            exact absurd heq (hfresh j "b" hj' hb)
          · rw [if_neg hki] at heq
            by_cases hka : k = i - 1
            · rw [if_pos hka] at heq
              exact absurd heq (hfresh j "a" hj' ha)
            · rw [if_neg hka] at heq
              exact h.distinct j k hj' (hold k hk hki hka) heq
  · rw [if_neg hB]
    have hold : ∀ j, Settled isB (i + 1) j → j ≠ i → Settled isB i j := by
      intro j hj hne
      exact ⟨by have := hj.1; omega, fun hlast => hB hlast.2⟩
    by_cases hnext : isB.getD (i + 1) false = true
    · -- an "a" block waits
      rw [if_pos hnext]
      have hne : ∀ j, Settled isB (i + 1) j → j ≠ i := fun j hj hji =>
        hj.2 ⟨by omega, hnext⟩
      exact ⟨hlen, fun j hj => h.layer j (hold j hj (hne j hj)), fun j k hj hk =>
        h.distinct j k (hold j hj (hne j hj)) (hold k hk (hne k hk))⟩
    · rw [if_neg hnext]
      have hat : ∀ j, (names.set i (layerName base layerN ""))[j]? =
          if j = i then some (layerName base layerN "") else names[j]? := by
        intro j
        rw [getElem?_set]
        split_ifs <;> first | rfl | omega
      refine ⟨by rw [length_set]; exact hlen, fun j hj => ?_, fun j k hj hk heq => ?_⟩
      · rw [hat]
        by_cases hji : j = i
        · rw [if_pos hji]
          exact ⟨layerN, "", Nat.lt_succ_self _, hempty, rfl⟩
        · rw [if_neg hji]
          obtain ⟨n, suffix, hn, hname⟩ := h.layer j (hold j hj hji)
          exact ⟨n, suffix, Nat.lt_succ_of_lt hn, hname⟩
      · rw [hat, hat] at heq
        by_cases hji : j = i
        · by_cases hki : k = i
          · rw [hji, hki]
          · rw [if_pos hji, if_neg hki] at heq
            exact absurd heq.symm (hfresh k "" (hold k hk hki) hempty)
        · rw [if_neg hji] at heq
          by_cases hki : k = i
          · rw [if_pos hki] at heq
            exact absurd heq (hfresh j "" (hold j hj hji) hempty)
          · rw [if_neg hki] at heq
            exact h.distinct j k (hold j hj hji) (hold k hk hki) heq

theorem funcNames_named {isB : List Bool} (hfirst : isB.getD 0 false = false) :
    (funcNames base isB).length = isB.length ∧
      (∀ j < isB.length, ∃ n suffix, (funcNames base isB)[j]? = some (layerName base n suffix)) ∧
      (funcNames base isB).Nodup := by
  have hrun : ∀ i ≤ isB.length, Named base isB i ((range i).foldl (nameBlock base isB)
      (replicate isB.length "", 0)) := by
    intro i
    induction i with
    | zero =>
      exact fun _ => ⟨length_replicate, fun j hj => absurd hj.1 (Nat.not_lt_zero j),
        fun j _ hj => absurd hj.1 (Nat.not_lt_zero j)⟩
    | succ i ih =>
      intro hi
      rw [range_succ, foldl_append]
      exact (ih (le_of_lt hi)).nameBlock hfirst hi
  have hend := hrun isB.length le_rfl
  rw [funcNames_eq_foldl]
  have hsettled : ∀ j < isB.length, Settled isB isB.length j := by
    refine fun j hj => ⟨hj, fun hlast => ?_⟩
    have hnone : isB.getD isB.length false = false := by
      rw [getD_eq_getElem?_getD, getElem?_eq_none le_rfl, Option.getD_none]
    rw [hnone] at hlast
    exact Bool.false_ne_true hlast.2
  refine ⟨hend.length, fun j hj => ?_, ?_⟩
  · obtain ⟨n, suffix, _, _, hname⟩ := hend.layer j (hsettled j hj)
    exact ⟨n, suffix, hname⟩
  · refine nodup_iff_getElem?_ne_getElem?.mpr fun j k hjk hk heq => ?_
    have hk' : k < isB.length := by rw [← hend.length]; exact hk
    exact absurd (hend.distinct j k (hsettled j (by omega)) (hsettled k hk') heq) (by omega)

end CompileForge.Compiler
