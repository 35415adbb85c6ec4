/-
  Broadcasting read from the right, and when the source's answer is right about a given shape: it
  is on every shape ATen broadcasts to, and it raises on no others.
-/

import CompileForge.Compiler.Shape.Aten
import CompileForge.Lib.Known
import CompileForge.Lib.Outcome

namespace CompileForge.Compiler.Shape

open Lib List

/-! ## Shapes from the right -/

/-- The entry `j` places before the last, `one` past the first. -/
def fromRight {α : Type} (one : α) (s : List α) (j : Nat) : α := s.reverse.getD j one

variable {α : Type} {s : List α} {j : Nat} {c : List (List Int)} {shapes : List (List α)}
  {S : List (List Dim)} {x y n : Int} {out : List Int}

@[simp] theorem fromRight_concat_zero (one : α) (s : List α) (d : α) :
    fromRight one (s ++ [d]) 0 = d := by
  rw [fromRight, reverse_append]
  rfl

theorem fromRight_of_le (one : α) (h : s.length ≤ j) :
    fromRight one s j = one :=
  getD_eq_default _ _ (by rw [length_reverse]; exact h)

theorem fromRight_eq_getElem (one : α) {i : Nat} (h : i < s.length) :
    fromRight one s (s.length - 1 - i) = s[i] := by
  rw [fromRight, getD_eq_getElem _ _ (by rw [length_reverse]; omega), getElem_reverse]
  congr 1
  omega

theorem ext_fromRight (one : α) {t : List α} (hlen : s.length = t.length)
    (h : ∀ j < s.length, fromRight one s j = fromRight one t j) : s = t := by
  apply ext_getElem hlen
  intro i hi hi'
  rw [← fromRight_eq_getElem one hi, ← fromRight_eq_getElem one hi', ← hlen]
  exact h _ (by omega)

theorem agrees_fromRight {s : List Dim} {c : List Int} (h : Covers s c) (j : Nat) :
    Agrees (fromRight (some 1) s j) (fromRight 1 c j) :=
  Covers.getD (forall₂_reverse_iff.2 h) j (agrees_self 1)

theorem covers_iff_fromRight {s : List Dim} {c : List Int} :
    Covers s c ↔
      s.length = c.length ∧ ∀ j < c.length, Agrees (fromRight (some 1) s j) (fromRight 1 c j) := by
  have hrev : Covers s c ↔ Covers s.reverse c.reverse := forall₂_reverse_iff.symm
  rw [hrev, covers_iff_getD (some 1) 1, length_reverse, length_reverse]
  rfl

theorem le_maxRank (hs : s ∈ shapes) :
    s.length ≤ maxRank shapes := by
  induction shapes with
  | nil => cases hs
  | cons t shapes ih =>
    show s.length ≤ max t.length (maxRank shapes)
    cases hs with
    | head => omega
    | tail _ hs =>
      have := ih hs
      omega

theorem maxRank_le {n : Nat} (h : ∀ s ∈ shapes, s.length ≤ n) : maxRank shapes ≤ n := by
  induction shapes with
  | nil => exact Nat.zero_le n
  | cons t shapes ih =>
    obtain ⟨ht, hrest⟩ := forall_mem_cons.1 h
    exact Nat.max_le.2 ⟨ht, ih hrest⟩

theorem alignedDims_eq (one : α) (shapes : List (List α)) (hj : j < maxRank shapes) :
    alignedDims one (maxRank shapes) shapes (maxRank shapes - 1 - j) =
      shapes.map (fromRight one · j) := by
  apply map_congr_left
  intro s hs
  have hle := le_maxRank hs
  by_cases h : j < s.length
  · have hat : s.length - 1 - (s.length - 1 - j) = j := by omega
    rw [if_pos (by omega), ← getElem_eq_getD (h := by omega), ← fromRight_eq_getElem one (by omega)]
    congr 1
    omega
  · rw [if_neg (by omega), fromRight_of_le one (by omega)]

theorem forall₂_range_iff {R : Nat → α → Prop} (one : α) {m : Nat} {l : List α} :
    Forall₂ R (range m) l ↔
      l.length = m ∧ ∀ j < m, R (m - 1 - j) (fromRight one l j) := by
  have hlen : (range m).length = l.length ↔ l.length = m := by
    rw [length_range, eq_comm]
  rw [forall₂_iff_get, hlen]
  apply and_congr_right
  rintro rfl
  constructor
  · intro h j hj
    have hi : l.length - 1 - j < l.length := by omega
    have hback : l.length - 1 - (l.length - 1 - j) = j := by omega
    have hget := h (l.length - 1 - j) (by rw [length_range]; exact hi) hi
    rw [get_eq_getElem, get_eq_getElem, getElem_range, ← fromRight_eq_getElem one hi, hback] at hget
    exact hget
  · intro h i _ hi
    have hj := h (l.length - 1 - i) (by omega)
    have hback : l.length - 1 - (l.length - 1 - i) = i := by omega
    rw [fromRight_eq_getElem one hi, hback] at hj
    rw [get_eq_getElem, get_eq_getElem, getElem_range]
    exact hj

theorem maxRank_eq_of_covers (h : Forall₂ Covers S c) : maxRank S = maxRank c := by
  induction h with
  | nil => rfl
  | cons hs _ ih =>
    show max _ (maxRank _) = max _ (maxRank _)
    rw [ih, hs.length_eq]

/-! ## One dim -/

/-- What ATen answers for one dim. -/
def Spans (dims : List Int) (n : Int) : Prop :=
  (∀ d ∈ dims, d = 1 ∨ d = n) ∧ ((∀ d ∈ dims, d = 1) → n = 1)

/-- A dim that can be stretched to `n`, as far as it is known. -/
def Dim.OneOr (d : Dim) (n : Int) : Prop := d = none ∨ d = some 1 ∨ d = some n

/-- The dims `dims` leave no other size than `n` to broadcast to. -/
def Fits (dims : List Dim) (n : Int) : Prop :=
  (∀ d ∈ dims, Dim.OneOr d n) ∧ ((∀ d ∈ dims, d = some 1) → n = 1)

theorem Spans.left (h : Spans [x, y] n) : x = 1 ∨ x = n :=
  h.1 x mem_cons_self

theorem Spans.right (h : Spans [x, y] n) : y = 1 ∨ y = n :=
  h.1 y (mem_cons_of_mem _ mem_cons_self)

theorem Spans.ones (h : Spans [x, y] n) (hx : x = 1) (hy : y = 1) : n = 1 := by
  apply h.2
  intro d hd
  obtain rfl | hd := mem_cons.1 hd
  · exact hx
  · exact (mem_singleton.1 hd).trans hy

theorem Spans.swap (h : Spans [x, y] n) : Spans [y, x] n := by
  refine ⟨fun d hd => h.1 d ?_, fun hone => h.2 fun d hd => hone d ?_⟩
  · simpa [or_comm] using hd
  · simpa [or_comm] using hd

theorem Dim.oneOr_of_agrees {d : Dim} {a : Int} (h : Agrees d a) (ha : a = 1 ∨ a = n) :
    Dim.OneOr d n := by
  cases d with
  | none => exact .inl rfl
  | some =>
    rw [← agrees_some.1 h] at ha
    exact .inr (ha.imp (congrArg some) (congrArg some))

theorem Spans.fits {ds : List Dim} {cs : List Int} (hd : Forall₂ Agrees ds cs)
    (h : Spans cs n) : Fits ds n := by
  constructor
  · have hone := h.1
    clear h
    induction hd with
    | nil => exact fun _ hd => nomatch hd
    | cons hx _ ih =>
      rw [forall_mem_cons] at hone ⊢
      exact ⟨Dim.oneOr_of_agrees hx hone.1, ih hone.2⟩
  · intro hall
    apply h.2
    clear h
    induction hd with
    | nil => exact fun _ hd => nomatch hd
    | cons hx _ ih =>
      rw [forall_mem_cons] at hall ⊢
      rw [hall.1] at hx
      exact ⟨(agrees_some.1 hx).symm, ih hall.2⟩

theorem spans_of_broadcastDim {dims : List Int}
    (h : Aten.broadcastDim dims = some n) : Spans dims n := by
  rw [Aten.broadcastDim] at h
  split at h
  case _ hnil =>
    cases h
    rw [filter_eq_nil_iff] at hnil
    exact ⟨fun d hd => .inl (by simpa using hnil d hd), fun _ => rfl⟩
  case _ m rest hcons =>
    split at h
    case isFalse => cases h
    case isTrue hall =>
      obtain rfl := Option.some.inj h
      have hmem : ∀ d ∈ dims, d ≠ 1 → d = m := by
        intro d hd hne
        have hd' : d ∈ m :: rest := hcons ▸ mem_filter.2 ⟨hd, by simpa using hne⟩
        cases hd' with
        | head => rfl
        | tail _ hd' => simpa using all_eq_true.1 hall d hd'
      refine ⟨fun d hd => or_iff_not_imp_left.2 (hmem d hd), fun hone => ?_⟩
      have hm : m ∈ dims.filter (· ≠ 1) := hcons ▸ mem_cons_self
      exact hone m (mem_filter.1 hm).1

/-- The body of the loop is right about `n` exactly on the dims that fit `n`. -/
theorem broadcastDim_agrees_iff {dims : List Dim} (hne : dims ≠ []) (n : Int) :
    (∃ d, broadcastDim dims = .ok d ∧ Agrees d n) ↔ Fits dims n := by
  have hmem : ∀ x, x ∈ (dims.filterMap id).filter (· ≠ 1) ↔ some x ∈ dims ∧ x ≠ 1 := by
    intro x
    simp
  rw [broadcastDim]
  split
  case _ hnil =>
    have hsmall : ∀ d ∈ dims, d = none ∨ d = some 1 := by
      intro d hd
      cases d with
      | none => exact .inl rfl
      | some x =>
        right
        by_contra hx
        have := (hmem x).2 ⟨hd, fun h => hx (congrArg some h)⟩
        rw [hnil] at this
        cases this
    have hfits : Fits dims n ↔ ((∀ d ∈ dims, d = some 1) → n = 1) :=
      ⟨And.right, fun h => ⟨fun d hd => (hsmall d hd).imp_right .inl, h⟩⟩
    rw [hfits]
    by_cases hany : dims.any Option.isNone
    · obtain ⟨d, hd, hnone⟩ := any_eq_true.1 hany
      rw [if_pos hany]
      refine iff_of_true ⟨none, rfl, agrees_none n⟩ fun hall => ?_
      rw [hall d hd] at hnone
      cases hnone
    · have hall : ∀ d ∈ dims, d = some 1 := by
        intro d hd
        refine (hsmall d hd).resolve_left fun hnone => hany (any_eq_true.2 ⟨d, hd, ?_⟩)
        rw [hnone]
        rfl
      obtain ⟨d, rest, rfl⟩ := exists_cons_of_ne_nil hne
      obtain rfl : d = some 1 := hall d mem_cons_self
      rw [if_neg hany, headD_cons]
      constructor
      · rintro ⟨d', hd', hagree⟩ -
        rw [← Except.ok.inj hd'] at hagree
        exact (agrees_some.1 hagree).symm
      · intro h
        exact ⟨some 1, rfl, agrees_some.2 (h hall).symm⟩
  case _ m rest hcons =>
    have hm := (hmem m).1 (hcons ▸ mem_cons_self)
    split
    case isTrue hall =>
      have hsame : ∀ x, some x ∈ dims → x ≠ 1 → x = m := by
        intro x hx hne1
        have hx' : x ∈ m :: rest := hcons ▸ (hmem x).2 ⟨hx, hne1⟩
        cases hx' with
        | head => rfl
        | tail _ hx' => simpa using all_eq_true.1 hall x hx'
      constructor
      · rintro ⟨d, hd, hagree⟩
        rw [← Except.ok.inj hd] at hagree
        obtain rfl := agrees_some.1 hagree
        refine ⟨fun d hd => ?_, fun hone => ?_⟩
        · cases d with
          | none => exact .inl rfl
          | some x =>
            by_cases hx : x = 1
            · exact .inr (.inl (congrArg some hx))
            · exact .inr (.inr (congrArg some (hsame x hd hx)))
        · exact absurd (Option.some.inj (hone _ hm.1)) hm.2
      · intro hfits
        refine ⟨some m, rfl, agrees_some.2 ?_⟩
        obtain h | h | h := hfits.1 _ hm.1
        · cases h
        · exact absurd (Option.some.inj h) hm.2
        · exact Option.some.inj h
    case isFalse hall =>
      refine iff_of_false (fun ⟨_, h, _⟩ => nomatch h) fun hfits => hall ?_
      have hn : ∀ x ∈ m :: rest, x = n := by
        intro x hx
        obtain ⟨hx, hne1⟩ := (hmem x).1 (hcons ▸ hx)
        obtain h | h | h := hfits.1 _ hx
        · cases h
        · exact absurd (Option.some.inj h) hne1
        · exact Option.some.inj h
      rw [all_eq_true]
      intro x hx
      rw [decide_eq_true_iff, hn x (mem_cons_of_mem _ hx), hn m mem_cons_self]

/-! ## Whole shapes -/

theorem broadcast_spans (h : Aten.broadcast c = some out) :
    out.length = maxRank c ∧ ∀ j, Spans (c.map (fromRight 1 · j)) (fromRight 1 out j) := by
  rw [Aten.broadcast, mapM_eq_some_forall₂, forall₂_range_iff 1] at h
  obtain ⟨hlen, h⟩ := h
  refine ⟨hlen, fun j => ?_⟩
  by_cases hj : j < maxRank c
  · have hspan := h j hj
    rw [alignedDims_eq 1 c hj] at hspan
    exact spans_of_broadcastDim hspan
  · rw [fromRight_of_le 1 (by omega)]
    refine ⟨fun d hd => ?_, fun _ => rfl⟩
    obtain ⟨s, hs, rfl⟩ := mem_map.1 hd
    have hle := le_maxRank hs
    exact .inl (fromRight_of_le 1 (by omega))

theorem broadcastShapes_covers_iff (hne : S ≠ []) (out : List Int) :
    (∃ s, broadcastShapes S = .ok s ∧ Covers s out) ↔ out.length = maxRank S ∧
        ∀ j < maxRank S, Fits (S.map (fromRight (some 1) · j)) (fromRight 1 out j) := by
  have hloop : (∃ s, broadcastShapes S = .ok s ∧ Covers s out) ↔ _ := mapM_ok_forall₂
  rw [hloop, forall₂_range_iff 1]
  apply and_congr_right
  intro _
  apply forall₂_congr
  intro j hj
  rw [alignedDims_eq (some 1) S hj]
  apply broadcastDim_agrees_iff
  rw [ne_eq, map_eq_nil_iff]
  exact hne

/-- What ATen answers, one dim at a time. -/
def BroadcastsTo (c : List (List Int)) (out : List Int) : Prop :=
  out.length = maxRank c ∧ ∀ j < maxRank c, Spans (c.map (fromRight 1 · j)) (fromRight 1 out j)

theorem BroadcastsTo.covers (h : BroadcastsTo c out) (hne : S ≠ [])
    (hc : Forall₂ Covers S c) : ∃ s, broadcastShapes S = .ok s ∧ Covers s out := by
  rw [broadcastShapes_covers_iff hne, maxRank_eq_of_covers hc]
  refine ⟨h.1, fun j hj => (h.2 j hj).fits ?_⟩
  rw [forall₂_map_left_iff, forall₂_map_right_iff]
  exact hc.imp fun s c hs => agrees_fromRight hs j

theorem broadcastShapes_sound
    (hne : S ≠ []) (hc : Forall₂ Covers S c) (h : Aten.broadcast c = some out) :
    ∃ s, broadcastShapes S = .ok s ∧ Covers s out :=
  BroadcastsTo.covers ⟨(broadcast_spans h).1, fun j _ => (broadcast_spans h).2 j⟩ hne hc

/-! ## Which shapes can be broadcast -/

/-- The sizes a shape gets where it is not known, taken from `out`. -/
def assign (out : List Int) (s : List Dim) : List Int :=
  (zipWith (fun d n => d.getD n) s.reverse out.reverse).reverse

section Assign

variable {s : List Dim} {dims : List Dim}

theorem length_assign (h : s.length ≤ out.length) : (assign out s).length = s.length := by
  rw [assign, length_reverse, length_zipWith, length_reverse, length_reverse]
  omega

theorem fromRight_assign (h : s.length ≤ out.length) :
    fromRight 1 (assign out s) j =
      if j < s.length then (fromRight (some 1) s j).getD (fromRight 1 out j) else 1 := by
  by_cases hj : j < s.length
  · have hs : j < s.reverse.length := by rwa [length_reverse]
    have ho : j < out.reverse.length := by
      rw [length_reverse]
      omega
    rw [if_pos hj, fromRight, fromRight, fromRight, assign, reverse_reverse,
      getD_eq_getElem _ _ (by rw [length_zipWith]; omega), getD_eq_getElem _ _ hs,
      getD_eq_getElem _ _ ho, getElem_zipWith]
  · rw [if_neg hj, fromRight_of_le 1 (by rw [length_assign h]; omega)]

theorem covers_assign (h : s.length ≤ out.length) : Covers s (assign out s) := by
  rw [covers_iff_fromRight, length_assign h]
  refine ⟨rfl, fun j hj => ?_⟩
  rw [fromRight_assign h, if_pos hj]
  cases fromRight (some 1) s j with
  | none => exact agrees_none _
  | some n => exact agrees_self n

theorem spans_assign (hlen : ∀ s ∈ S, s.length ≤ out.length)
    (hfits : Fits (S.map (fromRight (some 1) · j)) (fromRight 1 out j)) :
    Spans ((S.map (assign out)).map (fromRight 1 · j)) (fromRight 1 out j) := by
  obtain ⟨hone, hall⟩ := hfits
  rw [forall_mem_map] at hone hall
  rw [map_map, Spans, forall_mem_map, forall_mem_map]
  simp only [Function.comp]
  have hentry : ∀ s ∈ S, fromRight 1 (assign out s) j =
      (fromRight (some 1) s j).getD (fromRight 1 out j) := by
    intro s hs
    rw [fromRight_assign (hlen s hs)]
    split
    case isTrue => rfl
    case isFalse hj =>
      rw [fromRight_of_le _ (Nat.not_lt.1 hj)]
      rfl
  constructor
  · intro s hs
    rw [hentry s hs]
    obtain hd | hd | hd := hone s hs
    · exact .inr (by rw [hd]; rfl)
    · exact .inl (by rw [hd]; rfl)
    · exact .inr (by rw [hd]; rfl)
  · intro hones
    by_cases hknown : ∀ s ∈ S, fromRight (some 1) s j = some 1
    · exact hall hknown
    · -- an unknown dim is assigned `n` itself
      simp only [not_forall] at hknown
      obtain ⟨s, hs, hne⟩ := hknown
      have hs1 := hones s hs
      rw [hentry s hs] at hs1
      obtain hd | hd | hd := hone s hs
      · rwa [hd] at hs1
      · exact absurd hd hne
      · rwa [hd] at hs1

theorem eq_one_or_mem_of_broadcastDim (hne : dims ≠ [])
    (h : broadcastDim dims = .ok (some n)) : n = 1 ∨ some n ∈ dims := by
  by_contra hnot
  obtain ⟨hn, hmem⟩ := not_or.1 hnot
  have hfits := (broadcastDim_agrees_iff hne n).1 ⟨_, h, agrees_self n⟩
  have hone : Fits dims 1 := by
    refine ⟨fun d hd => (hfits.1 d hd).imp_right fun h => h.elim .inl fun hn => ?_, fun _ => rfl⟩
    exact absurd (hn ▸ hd) hmem
  obtain ⟨d, hd, hagree⟩ := (broadcastDim_agrees_iff hne 1).2 hone
  rw [h] at hd
  cases hd
  exact hn (agrees_some.1 hagree)

end Assign

section Exact

variable {s : List Dim}

theorem broadcastShapes_eq_ok :
    broadcastShapes S = .ok s ↔ s.length = maxRank S ∧ ∀ j < maxRank S,
      broadcastDim (S.map (fromRight (some 1) · j)) = .ok (fromRight (some 1) s j) := by
  rw [broadcastShapes, mapM_eq_ok_iff, forall₂_range_iff (some 1)]
  refine and_congr_right fun _ => forall₂_congr fun j hj => ?_
  rw [alignedDims_eq (some 1) S hj]

theorem fits_of_broadcastShapes (hne : S ≠ []) (h : broadcastShapes S = .ok s)
    (hj : j < maxRank S) :
    Fits (S.map (fromRight (some 1) · j)) (fromRight 1 (s.map (Option.getD · 1)) j) := by
  obtain ⟨hlen, h⟩ := broadcastShapes_eq_ok.1 h
  have hcolumn : S.map (fromRight (some 1) · j) ≠ [] := mt map_eq_nil_iff.1 hne
  refine (broadcastDim_agrees_iff hcolumn _).1 ⟨_, h j hj, ?_⟩
  have hentry : fromRight 1 (s.map (Option.getD · 1)) j = (fromRight (some 1) s j).getD 1 := by
    have hjs : j < s.reverse.length := by
      rw [length_reverse]
      omega
    rw [fromRight, fromRight, ← map_reverse, getD_eq_getElem _ _ (by rwa [length_map]),
      getD_eq_getElem _ _ hjs, getElem_map]
  rw [hentry]
  cases fromRight (some 1) s j with
  | none => exact agrees_none _
  | some n => exact agrees_self n

theorem nonneg_of_broadcastShapes (hne : S ≠ []) (hS : ∀ t ∈ S, ∀ n, some n ∈ t → 0 ≤ n)
    (h : broadcastShapes S = .ok s) : ∀ n ∈ s.map (Option.getD · 1), 0 ≤ n := by
  obtain ⟨hlen, h⟩ := broadcastShapes_eq_ok.1 h
  rw [forall_mem_map]
  intro d hd
  cases d with
  | none => exact Int.one_nonneg
  | some n =>
    obtain ⟨i, hi, hget⟩ := getElem_of_mem hd
    have hplace := h (s.length - 1 - i) (by omega)
    rw [fromRight_eq_getElem _ hi, hget] at hplace
    rcases eq_one_or_mem_of_broadcastDim (mt map_eq_nil_iff.1 hne) hplace with rfl | hmem
    · exact Int.one_nonneg
    · obtain ⟨t, ht, hn⟩ := mem_map.1 hmem
      rw [fromRight, getD_eq_getElem?_getD] at hn
      cases hj : t.reverse[s.length - 1 - i]? with
      | none =>
        rw [hj] at hn
        cases hn
        exact Int.one_nonneg
      | some x =>
        rw [hj] at hn
        obtain rfl : x = some n := hn
        exact hS t ht n (mem_reverse.1 (mem_of_getElem? hj))

theorem nonneg_assign {t : List Dim} (ht : ∀ n, some n ∈ t → 0 ≤ n) (hout : ∀ n ∈ out, 0 ≤ n) :
    ∀ n ∈ assign out t, 0 ≤ n := by
  intro n hn
  obtain ⟨i, hi, rfl⟩ := getElem_of_mem (mem_reverse.1 hn)
  rw [getElem_zipWith]
  rw [length_zipWith, length_reverse, length_reverse] at hi
  have ht' : i < t.reverse.length := by
    rw [length_reverse]
    omega
  have hmem : t.reverse[i] ∈ t := mem_reverse.1 (getElem_mem _)
  cases hd : t.reverse[i] with
  | none => exact hout _ (mem_reverse.1 (getElem_mem _))
  | some m => exact ht m (hd ▸ hmem)

/-- `_broadcast_shapes` raises only where nothing broadcasts; else it is right about each. -/
theorem broadcastShapes_exact (hS : ∀ t ∈ S, ∀ n, some n ∈ t → 0 ≤ n) :
    ((∃ e, broadcastShapes S = .error e) ↔
      ¬ ∃ c out, Forall₂ Covers S c ∧ (∀ t ∈ c, ∀ n ∈ t, 0 ≤ n) ∧ BroadcastsTo c out) ∧
    ∀ s, broadcastShapes S = .ok s → ∀ c out, Forall₂ Covers S c → BroadcastsTo c out →
      Covers s out := by
  by_cases hne : S = []
  · subst hne
    refine ⟨iff_of_false (fun ⟨_, h⟩ => nomatch h) fun hnot => hnot ⟨[], [], .nil, ?_, rfl, ?_⟩, ?_⟩
    · exact fun _ ht => nomatch ht
    · exact fun j hj => absurd hj (Nat.not_lt_zero j)
    · intro s hs c out hc hout
      cases hc
      cases hs
      obtain rfl := length_eq_zero_iff.1 hout.1
      exact .nil
  refine ⟨⟨fun ⟨e, he⟩ ⟨c, out, hc, _, hout⟩ => ?_, fun hnot => ?_⟩, fun s hs c out hc hout => ?_⟩
  · obtain ⟨s, hs, -⟩ := hout.covers hne hc
    rw [he] at hs
    cases hs
  · cases hrun : broadcastShapes S with
    | error e => exact ⟨e, rfl⟩
    | ok s =>
      have hlen : ∀ t ∈ S, t.length ≤ (s.map (Option.getD · 1)).length := by
        rw [length_map, (broadcastShapes_eq_ok.1 hrun).1]
        exact fun t => le_maxRank
      have hcovers : Forall₂ Covers S (S.map (assign (s.map (Option.getD · 1)))) := by
        rw [forall₂_map_right_iff, forall₂_same]
        exact fun t ht => covers_assign (hlen t ht)
      refine absurd ⟨_, s.map (Option.getD · 1), hcovers, ?_, ?_, fun j hj => ?_⟩ hnot
      · rw [forall_mem_map]
        exact fun t ht => nonneg_assign (hS t ht) (nonneg_of_broadcastShapes hne hS hrun)
      · rw [length_map, (broadcastShapes_eq_ok.1 hrun).1, maxRank_eq_of_covers hcovers]
      · rw [← maxRank_eq_of_covers hcovers] at hj
        exact spans_assign hlen (fits_of_broadcastShapes hne hrun hj)
  · obtain ⟨s', hs', hcov⟩ := hout.covers hne hc
    rw [hs] at hs'
    cases hs'
    exact hcov

/-- An unknown dim beside a size, one beside another unknown dim. -/
theorem broadcastShapes_exact_mixed :
    (∃ e, broadcastShapes [[none, some 3], [some 2, none]] = .error e) ↔
      ¬ ∃ c out, Forall₂ Covers [[none, some 3], [some 2, none]] c ∧
        (∀ t ∈ c, ∀ n ∈ t, 0 ≤ n) ∧ BroadcastsTo c out :=
  (broadcastShapes_exact (by simp)).1

end Exact

end CompileForge.Compiler.Shape
