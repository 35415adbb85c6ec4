/-
  When the inferred shape of a matrix product, a linear layer, an embedding and an attention is
  right about the shape ATen gives the same op.
-/

import CompileForge.Compiler.Shape.Broadcast

namespace CompileForge.Compiler.Shape

open Lib List

def RightAbout (r : Except PyError TensorTy) (out : List Int) : Prop :=
  ∃ t, r = .ok t ∧ Covers t.shape out

variable {α : Type} {out c a b cw : List Int} {x y : TensorTy} {xs : List TensorTy} {n k : Int}
  {t : List Dim}

@[simp] theorem rightAbout_ok {t : TensorTy} :
    RightAbout (.ok t) out ↔ Covers t.shape out :=
  ⟨fun ⟨_, ht, h⟩ => Except.ok.inj ht ▸ h, fun h => ⟨t, rfl, h⟩⟩

@[simp] theorem not_rightAbout_error {e : PyError} :
    ¬ RightAbout (.error e) out :=
  fun ⟨_, h, _⟩ => nomatch h

theorem rightAbout_bind {r : Except PyError (List Dim)} {f : List Dim → List Dim}
    {elt : String} :
    RightAbout (r >>= fun s => .ok ⟨f s, elt⟩) out ↔ ∃ s, r = .ok s ∧ Covers (f s) out := by
  cases r with
  | error => exact iff_of_false not_rightAbout_error fun ⟨_, h, _⟩ => nomatch h
  | ok s =>
    show RightAbout (.ok ⟨f s, elt⟩) out ↔ _
    rw [rightAbout_ok]
    exact ⟨fun h => ⟨s, rfl, h⟩, fun ⟨_, hs, h⟩ => Except.ok.inj hs ▸ h⟩

theorem inferElementwise_right_iff :
    RightAbout (inferElementwise (x :: xs)) out ↔
      ∃ s, broadcastShapes ((x :: xs).map TensorTy.shape) = .ok s ∧ Covers s out :=
  rightAbout_bind

theorem inferCompare_right_iff :
    RightAbout (inferCompare (x :: xs)) out ↔
      ∃ s, broadcastShapes ((x :: xs).map TensorTy.shape) = .ok s ∧ Covers s out :=
  rightAbout_bind

/-! ## The last two dims -/

theorem fromRight_reverse (one : α) (l : List α) (j : Nat) :
    fromRight one l.reverse j = l.getD j one := by
  rw [fromRight, reverse_reverse]

theorem eq_append_pair {s l : List α} {d₀ d₁ : α} (h : s.reverse = d₀ :: d₁ :: l) :
    s = l.reverse ++ [d₁, d₀] := by
  rw [← reverse_reverse s, h, reverse_cons, reverse_cons, append_assoc]
  rfl

theorem eq_singleton {s : List α} {d : α} (h : s.reverse = [d]) : s = [d] := by
  rw [← reverse_reverse s, h]
  rfl

theorem exists_append_pair {s : List Dim} (h : Covers s (c ++ [n, k])) :
    ∃ t dn dk, s = t ++ [dn, dk] ∧ Covers t c ∧ Agrees dn n ∧ Agrees dk k := by
  have hlen : s.length = c.length + 2 := by
    rw [h.length_eq, length_append]
    rfl
  have htake := h.take c.length
  have hdrop := h.drop c.length
  rw [take_left' rfl] at htake
  rw [drop_left' rfl] at hdrop
  obtain ⟨dn, dk, hpair⟩ : ∃ dn dk, s.drop c.length = [dn, dk] := by
    apply length_eq_two.1
    rw [length_drop]
    omega
  rw [hpair] at hdrop
  obtain ⟨hn, hrest⟩ := forall₂_cons.1 hdrop
  obtain ⟨hk, _⟩ := forall₂_cons.1 hrest
  refine ⟨s.take c.length, dn, dk, ?_, htake, hn, hk⟩
  rw [← hpair, take_append_drop]

section Pair

variable (t : List Dim) (dn dk : Dim)

@[simp] theorem take_append_pair : (t ++ [dn, dk]).take ((t ++ [dn, dk]).length - 2) = t := by
  rw [length_append]
  exact take_left' rfl

@[simp] theorem dimFromEnd_one : dimFromEnd (t ++ [dn, dk]) 1 = dk := by
  rw [dimFromEnd, length_append, getD_append_right _ _ _ _ (by simp)]
  simp

@[simp] theorem dimFromEnd_two : dimFromEnd (t ++ [dn, dk]) 2 = dn := by
  rw [dimFromEnd, length_append, getD_append_right _ _ _ _ (by simp)]
  simp

@[simp] theorem dropLast_append_pair : (t ++ [dn, dk]).dropLast = t ++ [dn] := by
  rw [dropLast_append_of_ne_nil (by simp)]
  rfl

end Pair

theorem covers_append_pair_iff {d₁ d₀ : Dim} {n₁ n₀ : Int} :
    Covers (t ++ [d₁, d₀]) (c ++ [n₁, n₀]) ↔ Covers t c ∧ Agrees d₁ n₁ ∧ Agrees d₀ n₀ := by
  constructor
  · intro h
    obtain ⟨t', d₁', d₀', heq, ht, h₁, h₀⟩ := exists_append_pair h
    obtain ⟨rfl, hpair⟩ := append_inj' heq rfl
    obtain ⟨rfl, hd⟩ := List.cons.inj hpair
    obtain ⟨rfl, _⟩ := List.cons.inj hd
    exact ⟨ht, h₁, h₀⟩
  · rintro ⟨ht, h₁, h₀⟩
    exact ht.append (.pair h₁ h₀)

/-! ## Matrix products -/

theorem agrees_spans_iff {d : Dim} {x y : Int} (hd : Agrees d x) (h : Spans [x, y] n) :
    Agrees d n ↔ (d = some 1 → y = 1) := by
  have hx := h.left
  have hy := h.right
  constructor
  · rintro hn rfl
    have hone : 1 = n := agrees_some.1 hn
    omega
  · intro hone
    cases d with
    | none => exact agrees_none n
    | some =>
      obtain rfl := agrees_some.1 hd
      refine agrees_some.2 (hx.elim (fun hv => ?_) id)
      have hy1 := hone (congrArg some hv)
      have hn := h.ones hv hy1
      omega

theorem Spans.eq_of_one {x : Int} (h : Spans [x, 1] n) : n = x :=
  (agrees_some.1 ((agrees_spans_iff (agrees_self x) h).2 fun _ => rfl)).symm

theorem Spans.eq_self {x : Int} (h : Spans [x, x] n) : n = x :=
  (agrees_some.1 ((agrees_spans_iff (agrees_self x) h).2 fun hx => Option.some.inj hx)).symm

theorem broadcast_nil_right (h : Aten.broadcast [a, []] = some out) :
    out = a := by
  obtain ⟨hlen, hspan⟩ := broadcast_spans h
  apply ext_fromRight 1
  · rw [hlen]
    exact Nat.max_eq_left (Nat.zero_le _)
  · intro j _
    exact Spans.eq_of_one (hspan j)

theorem broadcast_nil_left (h : Aten.broadcast [[], a] = some out) :
    out = a := by
  obtain ⟨hlen, hspan⟩ := broadcast_spans h
  apply ext_fromRight 1
  · rw [hlen]
    show max 0 (max a.length 0) = a.length
    omega
  · intro j _
    exact Spans.eq_of_one (hspan j).swap

/-- Past two dims the ranks agree or the other factor is a matrix; else the first shape is right. -/
def MatmulHandled (s : List Dim) (a b : List Int) : Prop :=
  (2 ≤ a.length ∧ 2 ≤ b.length ∧ (a.length = 2 ∨ b.length = 2 ∨ a.length = b.length)) ∨
  (a.length = 1 ∧ b.length = 2 ∧ Agrees (fromRight (some 1) s 0) (fromRight 1 b 0)) ∨
  (3 ≤ b.length ∧ b.length < a.length ∧ Agrees (fromRight (some 1) s 0) (fromRight 1 b 0) ∧
    ∀ j, fromRight (some 1) s (j + 2) = some 1 → fromRight 1 b (j + 2) = 1)

@[simp] theorem fromRight_pair_zero (one : α) (s : List α) (d₁ d₀ : α) :
    fromRight one (s ++ [d₁, d₀]) 0 = d₀ := by
  rw [fromRight, reverse_append]
  rfl

@[simp] theorem fromRight_pair_one (one : α) (s : List α) (d₁ d₀ : α) :
    fromRight one (s ++ [d₁, d₀]) 1 = d₁ := by
  rw [fromRight, reverse_append]
  rfl

@[simp] theorem fromRight_pair_succ (one : α) (s : List α) (d₁ d₀ : α) (j : Nat) :
    fromRight one (s ++ [d₁, d₀]) (j + 2) = fromRight one s j := by
  rw [fromRight, reverse_append]
  rfl

theorem matmul_batched {u : List Dim} {dn dk dk' dp : Dim}
    {batch : List Int} {k' p : Int} (hx : x.shape = t ++ [dn, dk])
    (hy : y.shape = u ++ [dk', dp]) (ht : Covers t a) (hu : Covers u b) (hn : Agrees dn n)
    (hp : Agrees dp p) (hbatch : Aten.broadcast [a, b] = some batch) :
    RightAbout (inferMatmul [x, y]) (batch ++ [n, p]) ↔
      MatmulHandled x.shape (a ++ [n, k]) (b ++ [k', p]) := by
  have hlt := ht.length_eq
  have hlu := hu.length_eq
  simp only [inferMatmul, MatmulHandled, hx, hy, take_append_pair, dimFromEnd_one,
    dimFromEnd_two, dropLast_append_pair, fromRight_pair_zero, fromRight_pair_succ]
  simp only [length_append, length_cons, length_nil]
  obtain hgood | hbad : (a.length = 0 ∨ b.length = 0 ∨ a.length = b.length) ∨
      (a.length ≠ 0 ∧ b.length ≠ 0 ∧ a.length ≠ b.length) := by omega
  · refine iff_of_true ?_ (.inl ⟨by omega, by omega, by omega⟩)
    split
    case isTrue h =>
      obtain rfl := length_eq_zero_iff.1 (show t.length = 0 by omega)
      obtain rfl := length_eq_zero_iff.1 (show u.length = 0 by omega)
      obtain rfl := forall₂_nil_left_iff.1 ht
      obtain rfl := forall₂_nil_left_iff.1 hu
      obtain rfl := broadcast_nil_left hbatch
      exact rightAbout_ok.2 (.pair hn hp)
    case isFalse h =>
    split
    case isTrue h =>
      obtain rfl := length_eq_zero_iff.1 (show u.length = 0 by omega)
      obtain rfl := forall₂_nil_left_iff.1 hu
      obtain rfl := broadcast_nil_right hbatch
      rw [rightAbout_ok, append_assoc]
      exact ht.append (.pair hn hp)
    case isFalse h =>
    split
    case isTrue h =>
      obtain rfl := length_eq_zero_iff.1 (show t.length = 0 by omega)
      obtain rfl := forall₂_nil_left_iff.1 ht
      obtain rfl := broadcast_nil_left hbatch
      rw [rightAbout_ok]
      exact hu.append (.pair hn hp)
    case isFalse h =>
    rw [if_pos (by omega)]
    have hpair : Forall₂ Covers [t, u] [a, b] := .cons ht (.cons hu .nil)
    obtain ⟨s, hs, hcov⟩ := broadcastShapes_sound (by simp) hpair hbatch
    rw [rightAbout_bind]
    exact ⟨s, hs, hcov.append (.pair hn hp)⟩
  · rw [if_neg (by omega), if_neg (by omega), if_neg (by omega), if_neg (by omega),
      rightAbout_ok, covers_append_pair_iff]
    obtain ⟨hlen, hspan⟩ := broadcast_spans hbatch
    have hrank : batch.length = max a.length b.length :=
      hlen.trans (congrArg (max a.length) (Nat.max_eq_left (Nat.zero_le _)))
    have hbatchAt : (∀ j < batch.length, Agrees (fromRight (some 1) t j) (fromRight 1 batch j)) ↔
        ∀ j, fromRight (some 1) t j = some 1 → fromRight 1 b j = 1 := by
      constructor
      · intro h j hone
        by_cases hj : j < batch.length
        · exact (agrees_spans_iff (agrees_fromRight ht j) (hspan j)).1 (h j hj) hone
        · exact fromRight_of_le 1 (by omega)
      · intro h j _
        exact (agrees_spans_iff (agrees_fromRight ht j) (hspan j)).2 (h j)
    rw [covers_iff_fromRight, hbatchAt]
    constructor
    · rintro ⟨⟨hrank', hones⟩, -, hk⟩
      exact .inr (.inr ⟨by omega, by omega, hk, hones⟩)
    · rintro (h | h | ⟨-, hlt', hk, hones⟩)
      · omega
      · omega
      · exact ⟨⟨by omega, hones⟩, hn, hk⟩

theorem matmul_vector (hx : Covers x.shape a)
    (hy : Covers y.shape b) (h : a.length = 1 ∨ b.length = 1) (ha : a ≠ []) (hb : b ≠ []) :
    inferMatmul [x, y] = .ok x := by
  have hlx := hx.length_eq
  have hly := hy.length_eq
  have ha' : a.length ≠ 0 := by simpa using ha
  have hb' : b.length ≠ 0 := by simpa using hb
  simp only [inferMatmul]
  rw [if_neg (by omega), if_neg (by omega), if_neg (by omega), if_neg (by omega)]

theorem inferMatmul_right_iff (hx : Covers x.shape a)
    (hy : Covers y.shape b) (h : Aten.matmul a b = some out) :
    RightAbout (inferMatmul [x, y]) out ↔ MatmulHandled x.shape a b := by
  have hlx := hx.length_eq
  rw [Aten.matmul] at h
  split at h
  case _ k k' ha hb =>
    obtain rfl := eq_singleton ha
    obtain rfl := eq_singleton hb
    obtain ⟨-, ⟨⟩⟩ := Option.ite_none_right_eq_some.1 h
    rw [matmul_vector hx hy (.inl rfl) (by simp) (by simp), rightAbout_ok]
    refine iff_of_false (fun hcov => ?_) (by simp [MatmulHandled])
    rw [hcov.length_eq] at hlx
    cases hlx
  case _ k p k' bb ha hb =>
    obtain rfl := eq_singleton ha
    obtain rfl := eq_append_pair hb
    obtain ⟨-, ⟨⟩⟩ := Option.ite_none_right_eq_some.1 h
    rw [matmul_vector hx hy (.inl rfl) (by simp) (by simp), rightAbout_ok,
      covers_iff_fromRight, MatmulHandled, fromRight_pair_zero]
    simp only [length_append, length_reverse, length_cons, length_nil]
      at hlx ⊢
    constructor
    · rintro ⟨hlen, hagree⟩
      have hzero := hagree 0 (by simp)
      rw [fromRight_concat_zero] at hzero
      exact .inr (.inl ⟨trivial, by omega, hzero⟩)
    · rintro (h | ⟨-, hlen, hzero⟩ | h)
      · omega
      · refine ⟨by omega, fun j hj => ?_⟩
        obtain rfl : j = 0 := by omega
        rw [fromRight_concat_zero]
        exact hzero
      · omega
  case _ k n ba k' ha hb =>
    obtain rfl := eq_append_pair ha
    obtain rfl := eq_singleton hb
    obtain ⟨-, ⟨⟩⟩ := Option.ite_none_right_eq_some.1 h
    rw [matmul_vector hx hy (.inr rfl) (by simp) (by simp), rightAbout_ok]
    refine iff_of_false (fun hcov => ?_) (by simp [MatmulHandled])
    have hlen := hcov.length_eq.symm.trans hlx
    simp only [length_append, length_cons, length_nil] at hlen
    omega
  case _ k n ba p k' bb ha hb =>
    obtain rfl := eq_append_pair ha
    obtain rfl := eq_append_pair hb
    obtain ⟨-, h⟩ := Option.ite_none_right_eq_some.1 h
    obtain ⟨batch, hbatch, rfl⟩ := Option.map_eq_some_iff.1 h
    obtain ⟨t, dn, dk, hxs, ht, hn, -⟩ := exists_append_pair hx
    obtain ⟨u, dk', dp, hys, hu, -, hp⟩ := exists_append_pair hy
    exact matmul_batched hxs hys ht hu hn hp hbatch
  case _ => cases h

/-! ## Linear layers and embeddings -/

/-- A matrix of weights on an input with a batch dim, or a vector of weights on a 3-d input. -/
def LinearHandled (x w : List Int) : Prop :=
  (2 ≤ x.length ∧ w.length = 2) ∨ (x.length = 3 ∧ w.length = 1)

theorem inferLinear_right_iff {w : TensorTy} {rest : List TensorTy} {cx : List Int}
    {bias : Option (List Int)} (hx : Covers x.shape cx) (hw : Covers w.shape cw)
    (h : Aten.linear cx cw bias = some out) :
    RightAbout (inferLinear (x :: w :: rest)) out ↔ LinearHandled cx cw := by
  have hlx := hx.length_eq
  have hlw := hw.length_eq
  unfold Aten.linear at h
  split at h
  case _ i batch o i' hrev =>
    obtain rfl : cx = batch.reverse ++ [i] := by
      rw [← reverse_reverse cx, hrev, reverse_cons]
    obtain ⟨-, ⟨⟩⟩ := Option.ite_none_right_eq_some.1 h
    simp only [length_append, length_reverse, length_cons, length_nil]
      at hlx hlw
    rw [LinearHandled, inferLinear]
    simp only [length_append, length_reverse, length_cons, length_nil]
    by_cases hbatch : batch.length = 0
    · rw [if_neg (by omega), rightAbout_ok]
      refine iff_of_false (fun hcov => ?_) (by omega)
      have hlen := hcov.length_eq
      simp only [length_append, length_reverse, length_cons, length_nil] at hlen
      omega
    · rw [if_pos (by omega), rightAbout_ok]
      refine iff_of_true ?_ (.inl ⟨by omega, trivial⟩)
      have hinit := hx.dropLast
      rw [dropLast_concat] at hinit
      exact hinit.append (.singleton (hw.getD 0 (agrees_none 0)))
  case _ i batch i' hrev =>
    obtain rfl : cx = batch.reverse ++ [i] := by
      rw [← reverse_reverse cx, hrev, reverse_cons]
    obtain ⟨-, ⟨⟩⟩ := Option.ite_none_right_eq_some.1 h
    simp only [length_append, length_reverse, length_cons, length_nil]
      at hlx hlw
    rw [LinearHandled, inferLinear]
    simp only [length_append, length_reverse, length_cons, length_nil]
    rw [if_neg (by omega), rightAbout_ok, covers_iff_getD none 0, length_reverse]
    constructor
    · rintro ⟨hlen, -⟩
      exact .inr ⟨by simp at hlen; omega, trivial⟩
    · rintro (h | ⟨h, -⟩)
      · omega
      · refine ⟨by simp; omega, fun j _ => ?_⟩
        match j with
        | 0 | 1 | _ + 2 => exact agrees_none _
  case _ => cases h

theorem inferEmbedding_right {w ids : TensorTy} {cids : List Int}
    (hw : Covers w.shape cw) (hids : Covers ids.shape cids)
    (h : Aten.embedding cw cids = some out) : RightAbout (inferEmbedding [w, ids]) out := by
  unfold Aten.embedding at h
  split at h
  case _ vocab embed =>
    cases h
    have hlen := hw.length_eq
    rw [inferEmbedding, if_pos (by rw [hlen]; exact Nat.le_refl 2), rightAbout_ok]
    exact hids.append (.singleton (hw.getD 1 (agrees_none 0)))
  case _ => cases h

end CompileForge.Compiler.Shape
