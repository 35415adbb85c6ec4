/-
  When the inferred shape of an attention is right.
-/

import CompileForge.Compiler.Shape.Products

namespace CompileForge.Compiler.Shape

open Lib List

/-- The dims of the attention's result one by one; `infer_output_shape` answers the broadcast of
    query, key, value and mask. -/
structure AttentionDims (gqa : Bool) (q k v : List Int) (mask : Option (List Int))
    (out : List Int) : Prop where
  rank : out.length = maxRank (q :: k :: v :: mask.toList)
  two_le : 2 ≤ out.length
  dim : fromRight 1 out 0 = fromRight 1 v 0
  len : fromRight 1 out 1 = fromRight 1 q 1
  query : ∀ j, fromRight 1 q (j + 2) = 1 ∨ fromRight 1 q (j + 2) = fromRight 1 out (j + 2)
  key : ∀ j, gqa = false ∨ j ≠ 0 →
    fromRight 1 k (j + 2) = 1 ∨ fromRight 1 k (j + 2) = fromRight 1 out (j + 2)
  value : ∀ j, gqa = false ∨ j ≠ 0 →
    fromRight 1 v (j + 2) = 1 ∨ fromRight 1 v (j + 2) = fromRight 1 out (j + 2)
  ones : ∀ j, fromRight 1 q (j + 2) = 1 → fromRight 1 k (j + 2) = 1 →
    fromRight 1 v (j + 2) = 1 → fromRight 1 out (j + 2) = 1
  heads : gqa = true → 3 ≤ out.length ∧ fromRight 1 out 2 = fromRight 1 q 2
  mask_len : ∀ m ∈ mask, fromRight 1 m 1 = 1 ∨ fromRight 1 m 1 = fromRight 1 out 1
  mask_batch : ∀ m ∈ mask, ∀ j,
    fromRight 1 m (j + 2) = 1 ∨ fromRight 1 m (j + 2) = fromRight 1 out (j + 2)

variable {gqa : Bool} {mask : Option (List Int)}

theorem repeatHeads_spec {qb kb kb' : List Int}
    (h : Aten.repeatHeads gqa qb kb = some kb') :
    kb'.length = kb.length ∧ (∀ j, gqa = false ∨ j ≠ 0 → kb'.getD j 1 = kb.getD j 1) ∧
      (gqa = true → qb ≠ [] ∧ kb'.getD 0 1 = qb.getD 0 1) := by
  unfold Aten.repeatHeads at h
  split at h
  case _ =>
    cases h
    exact ⟨rfl, fun _ _ => rfl, fun h => nomatch h⟩
  case _ hq qs hk ks =>
    obtain ⟨-, ⟨⟩⟩ := Option.ite_none_right_eq_some.1 h
    refine ⟨rfl, fun j hj => ?_, fun _ => ⟨cons_ne_nil _ _, rfl⟩⟩
    cases j with
    | zero => exact absurd rfl (hj.resolve_left nofun)
    | succ => rfl
  case _ => cases h

theorem expandsTo_spec {m t : List Int} (h : Aten.expandsTo m t) :
    m.length ≤ t.length ∧ ∀ j, fromRight 1 m j = 1 ∨ fromRight 1 m j = fromRight 1 t j := by
  obtain ⟨hlen, hspan⟩ := broadcast_spans h
  have hm : m ∈ [m, t] := mem_cons_self
  have hle := le_maxRank hm
  exact ⟨by omega, fun j => (hspan j).1 _ (by simp)⟩

theorem attentionDims {q k v out : List Int}
    (h : Aten.scaledDotProductAttention gqa q k v mask = some out) :
    AttentionDims gqa q k v mask out := by
  unfold Aten.scaledDotProductAttention at h
  split at h
  case _ e l qb e' s kb ev s' vb hq hk hv =>
    split at h
    case isFalse => cases h
    case isTrue =>
      obtain ⟨kb', hkb, h⟩ := Option.bind_eq_some_iff.1 h
      obtain ⟨vb', hvb, h⟩ := Option.bind_eq_some_iff.1 h
      obtain ⟨scores, hscores, h⟩ := Option.bind_eq_some_iff.1 h
      obtain ⟨batch, hbatch, h⟩ := Option.bind_eq_some_iff.1 h
      obtain ⟨hmask, ⟨⟩⟩ := Option.ite_none_right_eq_some.1 h
      obtain ⟨hklen, hkey, hkheads⟩ := repeatHeads_spec hkb
      obtain ⟨hvlen, hval, hvheads⟩ := repeatHeads_spec hvb
      obtain ⟨hslen, hs⟩ := broadcast_spans hscores
      obtain ⟨hblen, hb⟩ := broadcast_spans hbatch
      obtain rfl := eq_append_pair hq
      obtain rfl := eq_append_pair hk
      obtain rfl := eq_append_pair hv
      simp only [map_cons, map_nil, fromRight_reverse] at hs hb
      have hbatchlen : batch.length = max (max qb.length kb.length) vb.length := by
        rw [hblen, ← hvlen, ← hklen]
        simp only [maxRank, map_cons, map_nil, foldr_cons, foldr_nil, length_reverse, hslen]
        omega
      have hscoreslen : scores.length = max qb.length kb.length := by
        rw [hslen, ← hklen]
        simp only [maxRank, map_cons, map_nil, foldr_cons, foldr_nil, length_reverse]
        omega
      have hscore : ∀ j, fromRight 1 scores j = 1 ∨
          fromRight 1 scores j = fromRight 1 batch j := fun j => (hb j).left
      -- the repeated key and value heads are those of the query
      have hrepeated : ∀ j, qb.getD j 1 = 1 → kb.getD j 1 = 1 → vb.getD j 1 = 1 →
          kb'.getD j 1 = 1 ∧ vb'.getD j 1 = 1 := by
        intro j h₁ h₂ h₃
        by_cases hj : gqa = false ∨ j ≠ 0
        · rw [hkey j hj, hval j hj]
          exact ⟨h₂, h₃⟩
        · obtain ⟨hg, rfl⟩ : gqa = true ∧ j = 0 := by simpa using hj
          rw [(hkheads hg).2, (hvheads hg).2]
          exact ⟨h₁, h₁⟩
      constructor
      case rank =>
        have hlen : (batch ++ [l, ev]).length = batch.length + 2 := length_append
        have hmasklen : ∀ m ∈ mask, m.length ≤ scores.length + 2 := by
          intro m hm
          have hle := (expandsTo_spec (hmask m hm)).1
          rwa [length_append] at hle
        rw [hlen]
        cases mask with
        | none =>
          simp only [maxRank, Option.toList_none, map_cons, map_nil,
            foldr_cons, foldr_nil, length_append, length_reverse,
            length_cons, length_nil]
          omega
        | some m =>
          have := hmasklen m rfl
          simp only [maxRank, Option.toList_some, map_cons, map_nil,
            foldr_cons, foldr_nil, length_append, length_reverse,
            length_cons, length_nil]
          omega
      case two_le =>
        rw [length_append]
        exact Nat.le_add_left _ _
      case dim => rw [fromRight_pair_zero, fromRight_pair_zero]
      case len => rw [fromRight_pair_one, fromRight_pair_one]
      case query =>
        intro j
        rw [fromRight_pair_succ, fromRight_pair_succ, fromRight_reverse]
        have hq := (hs j).left
        have := hscore j
        omega
      case key =>
        intro j hj
        rw [fromRight_pair_succ, fromRight_pair_succ, fromRight_reverse, ← hkey j hj]
        have hk := (hs j).right
        have := hscore j
        omega
      case value =>
        intro j hj
        rw [fromRight_pair_succ, fromRight_pair_succ, fromRight_reverse, ← hval j hj]
        exact (hb j).right
      case ones =>
        intro j
        simp only [fromRight_pair_succ, fromRight_reverse]
        intro h₁ h₂ h₃
        obtain ⟨hk, hv⟩ := hrepeated j h₁ h₂ h₃
        exact (hb j).ones ((hs j).ones h₁ hk) hv
      case heads =>
        intro hg
        obtain ⟨hne, hkhead⟩ := hkheads hg
        obtain ⟨-, hvhead⟩ := hvheads hg
        have hpos : 0 < qb.length := length_pos_iff.2 hne
        have hlen : (batch ++ [l, ev]).length = batch.length + 2 := length_append
        refine ⟨by omega, ?_⟩
        rw [fromRight_pair_succ, fromRight_pair_succ, fromRight_reverse]
        have hs0 := hs 0
        have hb0 := hb 0
        rw [hkhead] at hs0
        rw [hvhead, hs0.eq_self] at hb0
        exact hb0.eq_self
      case mask_len =>
        intro m hm
        have hlen := (expandsTo_spec (hmask m hm)).2 1
        rw [fromRight_pair_one] at hlen ⊢
        exact hlen
      case mask_batch =>
        intro m hm j
        have hdim := (expandsTo_spec (hmask m hm)).2 (j + 2)
        rw [fromRight_pair_succ] at hdim ⊢
        have := hscore j
        omega
  case _ => cases h

/-- The operands on which the broadcast of query, key, value and mask is right. -/
def SdpaHandled (gqa : Bool) (q k v : List Dim) (masks : List (List Dim)) (cq cv : List Int) :
    Prop :=
  Dim.OneOr (fromRight (some 1) k 1) (fromRight 1 cq 1) ∧
  Dim.OneOr (fromRight (some 1) v 1) (fromRight 1 cq 1) ∧
  Dim.OneOr (fromRight (some 1) q 0) (fromRight 1 cv 0) ∧
  Dim.OneOr (fromRight (some 1) k 0) (fromRight 1 cv 0) ∧
  (∀ m ∈ masks, Dim.OneOr (fromRight (some 1) m 0) (fromRight 1 cv 0)) ∧
  (gqa = true → Dim.OneOr (fromRight (some 1) k 2) (fromRight 1 cq 2) ∧
    Dim.OneOr (fromRight (some 1) v 2) (fromRight 1 cq 2))

theorem fits_cons₃_iff {d₁ d₂ d₃ : Dim} {ds : List Dim} {n : Int} :
    Fits (d₁ :: d₂ :: d₃ :: ds) n ↔
      Dim.OneOr d₁ n ∧ Dim.OneOr d₂ n ∧ Dim.OneOr d₃ n ∧ (∀ d ∈ ds, Dim.OneOr d n) ∧
        (d₁ = some 1 → d₂ = some 1 → d₃ = some 1 → (∀ d ∈ ds, d = some 1) → n = 1) := by
  simp only [Fits, forall_mem_cons, and_imp, and_assoc]

/-- The answer for attention is right exactly on the operands above. -/
theorem inferSdpa_right_iff {q k v : TensorTy} {rest : List TensorTy}
    {cq ck cv out : List Int} (hq : Covers q.shape cq)
    (hk : Covers k.shape ck) (hv : Covers v.shape cv)
    (hm : Forall₂ Covers (rest.map TensorTy.shape) mask.toList)
    (h : Aten.scaledDotProductAttention gqa cq ck cv mask = some out) :
    RightAbout (inferElementwise (q :: k :: v :: rest)) out ↔
      SdpaHandled gqa q.shape k.shape v.shape (rest.map TensorTy.shape) cq cv := by
  have hdims := attentionDims h
  have hall : Forall₂ Covers ((q :: k :: v :: rest).map TensorTy.shape)
      (cq :: ck :: cv :: mask.toList) := .cons hq (.cons hk (.cons hv hm))
  have hmasks : ∀ m ∈ rest.map TensorTy.shape, ∃ c ∈ mask, Covers m c := by
    intro m hmem
    obtain ⟨c, hc, hcov⟩ := exists_of_forall₂ hm hmem
    exact ⟨c, by simpa using hc, hcov⟩
  rw [inferElementwise_right_iff, broadcastShapes_covers_iff (by simp),
    and_iff_right (hdims.rank.trans (maxRank_eq_of_covers hall).symm),
    maxRank_eq_of_covers hall, ← hdims.rank]
  simp only [map_cons, fits_cons₃_iff, map_map, forall_mem_map, Function.comp_apply]
  have htwo := hdims.two_le
  constructor
  · intro hfits
    obtain ⟨hq0, hk0, -, hm0, -⟩ := hfits 0 (by omega)
    obtain ⟨-, hk1, hv1, -, -⟩ := hfits 1 (by omega)
    rw [hdims.dim] at hq0 hk0 hm0
    rw [hdims.len] at hk1 hv1
    refine ⟨hk1, hv1, hq0, hk0, ?_, fun hg => ?_⟩
    · exact forall_mem_map.2 hm0
    · obtain ⟨hthree, hheads⟩ := hdims.heads hg
      obtain ⟨-, hk2, hv2, -, -⟩ := hfits 2 (by omega)
      rw [hheads] at hk2 hv2
      exact ⟨hk2, hv2⟩
  · rintro ⟨hk1, hv1, hq0, hk0, hm0, hgqa⟩ j _
    have hqj := agrees_fromRight hq j
    have hkj := agrees_fromRight hk j
    have hvj := agrees_fromRight hv j
    match j with
    | 0 =>
      rw [hdims.dim]
      refine ⟨hq0, hk0, Dim.oneOr_of_agrees hvj (.inr rfl), forall_mem_map.1 hm0, ?_⟩
      intro _ _ hone _
      exact (hvj 1 hone).symm
    | 1 =>
      rw [hdims.len]
      refine ⟨Dim.oneOr_of_agrees hqj (.inr rfl), hk1, hv1, ?_, ?_⟩
      · intro m hmem
        obtain ⟨c, hc, hcov⟩ := hmasks m.shape (mem_map_of_mem hmem)
        rw [← hdims.len]
        exact Dim.oneOr_of_agrees (agrees_fromRight hcov 1) (hdims.mask_len c hc)
      · intro hone _ _ _
        exact (hqj 1 hone).symm
    | j + 2 =>
      have hkv : Dim.OneOr (fromRight (some 1) k.shape (j + 2)) (fromRight 1 out (j + 2)) ∧
          Dim.OneOr (fromRight (some 1) v.shape (j + 2)) (fromRight 1 out (j + 2)) := by
        by_cases hj : gqa = false ∨ j ≠ 0
        · exact ⟨Dim.oneOr_of_agrees hkj (hdims.key j hj),
            Dim.oneOr_of_agrees hvj (hdims.value j hj)⟩
        · obtain ⟨hg, rfl⟩ : gqa = true ∧ j = 0 := by simpa using hj
          rw [(hdims.heads hg).2]
          exact hgqa hg
      refine ⟨Dim.oneOr_of_agrees hqj (hdims.query j), hkv.1, hkv.2, ?_, ?_⟩
      · intro m hmem
        obtain ⟨c, hc, hcov⟩ := hmasks m.shape (mem_map_of_mem hmem)
        exact Dim.oneOr_of_agrees (agrees_fromRight hcov (j + 2)) (hdims.mask_batch c hc j)
      · intro hq1 hk1' hv1' _
        exact hdims.ones j (hqj 1 hq1).symm (hkj 1 hk1').symm (hvj 1 hv1').symm

end CompileForge.Compiler.Shape
