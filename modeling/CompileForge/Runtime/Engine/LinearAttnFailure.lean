/-
  How `linear_attn_core` fails.

  Every length is checked before it is used except the head counts: the split of the
  projections into heads divides by `num_k_heads`, and copies the key heads to the value
  heads without asking whether they fit.
-/

import CompileForge.Runtime.Engine.ConvWindow
import CompileForge.Runtime.Engine.LinearAttnStream

namespace CompileForge.Runtime.LinearAttn

open Lib List

variable {R : Type} [Field R]

/-- No panic, and an error leaves both states as they were. -/
def FailsCleanly (result : Option (Except String (List R) × States R)) (st : States R) : Prop :=
  ∃ out after, result = some (out, after) ∧ ∀ e, out = .error e → after = st

/-- The lengths that are checked before the heads are split. -/
structure Accepted (batch seq : Nat) (sh : Shape) (x : List R) (w : Weights R) (st : States R) :
    Prop where
  input : x.length = batch * seq * sh.hidden
  weights : w.Fits sh
  states : st.Fits sh
  carried : batch * sh.qkvChannels * sh.convKernel = sh.qkvChannels * sh.convKernel

/-- The split of `m` rows into heads divides and copies. -/
def Shape.HeadsFit (sh : Shape) (m : Nat) : Prop :=
  0 < sh.numKHeads ∧ (m = 0 ∨ sh.keyDim = 0 ∨ (0 < sh.numVHeads ∧ sh.numKHeads ∣ sh.numVHeads))

/-! ## The checks -/

variable {condition : Prop} {message : String}

theorem ensure_of_not [Decidable condition]
    (h : ¬ condition) : ensure condition message = .error message :=
  if_neg h

theorem ensure_bind_eq_ok {α : Type} [Decidable condition] {rest : Unit → Except String α} {a : α} :
    (ensure condition message >>= rest) = .ok a ↔ condition ∧ rest () = .ok a := by
  by_cases h : condition
  · rw [ensure_of h]
    exact (and_iff_right h).symm
  · rw [ensure_of_not h]
    exact iff_of_false (fun herr => nomatch herr) fun hrest => h hrest.1

theorem ensure_eq_ok [Decidable condition] :
    ensure condition message = .ok () ↔ condition := by
  by_cases h : condition
  · exact iff_of_true (ensure_of h) h
  · exact iff_of_false (fun herr => by rw [ensure_of_not h] at herr; cases herr) h

omit [Field R] in
theorem checkShapes_eq_ok {sh : Shape} {m : Nat} {x : List R} {w : Weights R} {st : States R} :
    checkShapes sh m x w st = .ok () ↔ x.length = m * sh.hidden ∧ w.Fits sh ∧ st.Fits sh := by
  constructor
  · intro h
    unfold checkShapes at h
    simp only [ensure_bind_eq_ok, ensure_eq_ok] at h
    obtain ⟨hx, hqkv, hz, hb, ha, hconv, ⟨hlog, hdt⟩, hnorm, hout, hrec, hstate⟩ := h
    exact ⟨hx, ⟨hqkv, hz, hb, ha, hconv, hlog, hdt, hnorm, hout⟩, ⟨hrec, hstate⟩⟩
  · rintro ⟨hx, hw, hst⟩
    exact checkShapes_ok hx hw hst

section Conv

variable {fn : Elementary R} {batch channels seq kernel : Nat} {x weight newState s : List R}

theorem causalConv1d_returns (hx : x.length = batch * channels * seq)
    (hweight : weight.length = channels * kernel)
    (hnew : newState.length = batch * channels * kernel)
    (hs : s.length = batch * channels * kernel) :
    ∃ out carried, causalConv1d fn batch channels seq kernel x (some s) weight none newState true =
        .ok (out, carried) ∧
      out.length = batch * channels * seq ∧ carried.length = batch * channels * kernel := by
  unfold causalConv1d
  rw [ensure_of hx, ensure_of hweight, ensure_of hnew]
  simp only [ensure_of hs]
  exact ⟨_, _, rfl, length_channels _, length_channels _⟩

theorem causalConv1d_refuses (hx : x.length = batch * channels * seq)
    (hweight : weight.length = channels * kernel)
    (hnew : newState.length ≠ batch * channels * kernel) :
    causalConv1d fn batch channels seq kernel x (some s) weight none newState true =
      .error "conv new_state shape mismatch" := by
  unfold causalConv1d
  rw [ensure_of hx, ensure_of hweight, ensure_of_not hnew]
  rfl

end Conv

section Heads

variable {α : Type} {sh : Shape} {m : Nat} {q : List α}

theorem length_columns {width off len : Nat} {flat : List α} (hflat : flat.length = m * width)
    (hwithin : off + len ≤ width) : (columns m width off len flat).length = m * len := by
  refine length_rows fun r hr => length_slice ?_
  have hrow : (r + 1) * width ≤ m * width := Nat.mul_le_mul_right width hr
  rw [Nat.succ_mul] at hrow
  omega

theorem length_toTokens {batch seq channels : Nat} (convOut : List R) :
    (toTokens batch seq channels convOut).length = batch * seq * channels := by
  rw [toTokens, length_rows fun i _ => length_grid seq channels _, mul_assoc]

theorem length_toChannels {batch seq channels : Nat} (qkv : List R) :
    (toChannels batch seq channels qkv).length = batch * channels * seq :=
  length_channels _

theorem length_repeatHeads (h : 1 < sh.repeats) (hq : q.length = m * sh.keyTotal) :
    (repeatHeads sh m q).length = m * sh.numVHeads * sh.keyDim := by
  have hrow : ∀ r < m, ((range sh.numKHeads).flatMap fun kh =>
      (range sh.repeats).flatMap fun _ =>
        slice q (r * sh.keyTotal + kh * sh.keyDim) sh.keyDim).length =
        sh.numVHeads * sh.keyDim := by
    intro r hr
    rw [length_rows fun kh hkh => length_rows fun _ _ => length_slice ?_, ← mul_assoc,
      numKHeads_mul_repeats h]
    have hin : (r + 1) * sh.keyTotal ≤ m * sh.keyTotal := Nat.mul_le_mul_right _ hr
    have hhead : (kh + 1) * sh.keyDim ≤ sh.keyTotal := Nat.mul_le_mul_right _ hkh
    rw [Nat.succ_mul] at hin hhead
    omega
  rw [repeatHeads, length_rows hrow, mul_assoc]

theorem expandHeads_isSome (hq : q.length = m * sh.keyTotal)
    (h : 1 < sh.repeats ∨ m * sh.keyTotal = m * sh.numVHeads * sh.keyDim) :
    ∃ out, expandHeads sh m q = some out ∧ out.length = m * sh.numVHeads * sh.keyDim := by
  unfold expandHeads
  by_cases hrep : 1 < sh.repeats
  · rw [if_pos hrep]
    exact ⟨_, rfl, length_repeatHeads hrep hq⟩
  · have hlen := hq.trans (h.resolve_left hrep)
    rw [if_neg hrep, if_pos hlen]
    exact ⟨q, rfl, hlen⟩

theorem headsFit_iff (hk : 0 < sh.numKHeads) :
    sh.HeadsFit m ↔ 1 < sh.repeats ∨ m * sh.keyTotal = m * sh.numVHeads * sh.keyDim := by
  unfold Shape.HeadsFit Shape.keyTotal
  constructor
  · rintro ⟨-, rfl | hdim | ⟨hv, c, hc⟩⟩
    · exact .inr (by simp)
    · exact .inr (by simp [hdim])
    · have hrep : sh.repeats = c := by simp [Shape.repeats, hc, Nat.mul_div_cancel_left c hk]
      -- one value head for each key head is copied, more are repeated
      rcases lt_or_ge 1 c with hmany | hone
      · exact .inl (hrep ▸ hmany)
      · have hc1 : c = 1 := by
          have hpos : 0 < c := Nat.pos_of_ne_zero fun h0 => by simp [hc, h0] at hv
          omega
        rw [hc, hc1, mul_one]
        exact .inr (mul_assoc ..).symm
  · rintro (hrep | hlen)
    · have hmul := numKHeads_mul_repeats hrep
      refine ⟨hk, .inr (.inr ⟨?_, _, hmul.symm⟩)⟩
      rw [← hmul]
      exact Nat.mul_pos hk (by omega)
    · refine ⟨hk, ?_⟩
      rw [← mul_assoc] at hlen
      rcases Nat.eq_zero_or_pos sh.keyDim with hdim | hdim
      · exact .inr (.inl hdim)
      rcases Nat.eq_zero_or_pos m with hm | hm
      · exact .inl hm
      have heq : sh.numKHeads = sh.numVHeads :=
        Nat.eq_of_mul_eq_mul_left hm (Nat.eq_of_mul_eq_mul_right hdim hlen)
      exact .inr (.inr ⟨heq ▸ hk, heq ▸ dvd_rfl⟩)

end Heads

section Recurrence

variable {fn : Elementary R} {batch seq heads keyDim valueDim : Nat} {q k v g beta st : List R}

theorem gatedDeltaRuleChecked_of_lengths (hq : q.length = batch * seq * heads * keyDim)
    (hk : k.length = batch * seq * heads * keyDim)
    (hv : v.length = batch * seq * heads * valueDim) (hg : g.length = batch * seq * heads)
    (hbeta : beta.length = batch * seq * heads) :
    (st.length = batch * heads * keyDim * valueDim →
      ∃ out, gatedDeltaRuleChecked fn batch seq heads keyDim valueDim q k v g beta (some st)
        true true = .ok out) ∧
    (st.length ≠ batch * heads * keyDim * valueDim →
      ∃ e, gatedDeltaRuleChecked fn batch seq heads keyDim valueDim q k v g beta (some st)
        true true = .error e) := by
  unfold gatedDeltaRuleChecked
  simp only [ensure_of hq, ensure_of hk, ensure_of hv, ensure_of hg, ensure_of hbeta]
  refine ⟨fun hst => ?_, fun hst => ?_⟩
  · simp only [ensure_of hst]
    exact ⟨_, rfl⟩
  · simp only [ensure_of_not hst]
    exact ⟨_, rfl⟩

end Recurrence

section Core

variable [LinearOrder R] {batch seq : Nat} {sh : Shape} {x : List R} {w : Weights R}
  {st : States R}

theorem linearAttnCore_unaccepted (fn : Elementary R) (h : ¬ Accepted batch seq sh x w st) :
    ∃ e, linearAttnCore fn batch seq sh x w st = some (.error e, st) := by
  cases hcheck : checkShapes sh (batch * seq) x w st with
  | error e => exact ⟨e, by simp only [linearAttnCore, hcheck]⟩
  | ok =>
    obtain ⟨hx, hw, hst⟩ := checkShapes_eq_ok.1 hcheck
    have hnew : (replicate (sh.qkvChannels * sh.convKernel) (0 : R)).length ≠
        batch * sh.qkvChannels * sh.convKernel := by
      rw [length_replicate]
      exact fun heq => h ⟨hx, hw, hst, heq.symm⟩
    exact ⟨"conv new_state shape mismatch", by simp only [linearAttnCore, hcheck,
      causalConv1d_refuses (length_toChannels _) hw.convW hnew]⟩

omit [Field R] [LinearOrder R] in
theorem conv_unchanged (h : Accepted batch seq sh x w st) {newConv : List R}
    (hlen : newConv.length = batch * sh.qkvChannels * sh.convKernel)
    (hstate : st.recurrent.length ≠ batch * sh.numVHeads * sh.keyDim * sh.valueDim) :
    newConv = st.conv := by
  have hbatch : batch ≠ 1 := by
    rintro rfl
    rw [h.states.recurrent, Shape.stateLen, one_mul] at hstate
    exact hstate rfl
  have hzero : sh.qkvChannels * sh.convKernel = 0 := by
    have hmul := h.carried
    rw [mul_assoc] at hmul
    rcases Nat.eq_zero_or_pos (sh.qkvChannels * sh.convKernel) with h0 | hpos
    · exact h0
    · exact absurd (Nat.eq_of_mul_eq_mul_right hpos (hmul.trans (one_mul _).symm)) hbatch
  have hconv := h.states.conv
  rw [h.carried, hzero] at hlen
  rw [hzero] at hconv
  rw [eq_nil_of_length_eq_zero hlen, eq_nil_of_length_eq_zero hconv]

theorem linearAttnCore_accepted (fn : Elementary R) (h : Accepted batch seq sh x w st) :
    (sh.HeadsFit (batch * seq) → FailsCleanly (linearAttnCore fn batch seq sh x w st) st) ∧
    (¬ sh.HeadsFit (batch * seq) → linearAttnCore fn batch seq sh x w st = none) := by
  have hnew : (replicate (sh.qkvChannels * sh.convKernel) (0 : R)).length =
      batch * sh.qkvChannels * sh.convKernel := by rw [length_replicate, h.carried]
  have hcheck := checkShapes_ok h.input h.weights h.states
  obtain ⟨convOut, newConv, hconv, -, hlen⟩ := @causalConv1d_returns R _ fn batch sh.qkvChannels seq
    sh.convKernel (toChannels batch seq sh.qkvChannels
      (sgemmTransb x (batch * seq) sh.qkvChannels sh.hidden w.qkvW)) w.convW _ st.conv
    (length_toChannels _) h.weights.convW hnew (h.states.conv.trans h.carried.symm)
  have hflat := @length_toTokens R _ batch seq sh.qkvChannels convOut
  have hsum := qkvChannels_eq sh
  have hq : (columns (batch * seq) sh.qkvChannels 0 sh.keyTotal
      (toTokens batch seq sh.qkvChannels convOut)).length = batch * seq * sh.keyTotal :=
    length_columns hflat (by omega)
  have hk : (columns (batch * seq) sh.qkvChannels sh.keyTotal sh.keyTotal
      (toTokens batch seq sh.qkvChannels convOut)).length = batch * seq * sh.keyTotal :=
    length_columns hflat (by omega)
  have hv : (columns (batch * seq) sh.qkvChannels (2 * sh.keyTotal) sh.valueTotal
      (toTokens batch seq sh.qkvChannels convOut)).length =
        batch * seq * sh.numVHeads * sh.valueDim :=
    (length_columns hflat (by omega)).trans (mul_assoc ..).symm
  refine ⟨fun hfit => ?_, fun hfit => ?_⟩
  · -- both splits succeed, so the recurrence is reached with lengths that it accepts
    have hne : sh.numKHeads ≠ 0 := hfit.1.ne'
    obtain ⟨qExp, hqExp, hqLen⟩ := expandHeads_isSome hq ((headsFit_iff hfit.1).1 hfit)
    obtain ⟨kExp, hkExp, hkLen⟩ := expandHeads_isSome hk ((headsFit_iff hfit.1).1 hfit)
    obtain ⟨hreturns, hrefuses⟩ := @gatedDeltaRuleChecked_of_lengths R _ fn batch seq sh.numVHeads
      sh.keyDim sh.valueDim qExp kExp _
      (grid (batch * seq) sh.numVHeads fun r h => gate fn w
        ((sgemmTransb x (batch * seq) sh.numVHeads sh.hidden w.aW).getD (r * sh.numVHeads + h) 0) h)
      (grid (batch * seq) sh.numVHeads fun r h => sigmoid fn
        ((sgemmTransb x (batch * seq) sh.numVHeads sh.hidden w.bW).getD (r * sh.numVHeads + h) 0))
      st.recurrent hqLen hkLen hv (length_grid _ _ _) (length_grid _ _ _)
    -- a recurrent state of another length fails behind the convolution, which then carries
    -- the old inputs on
    by_cases hstate : st.recurrent.length = batch * sh.numVHeads * sh.keyDim * sh.valueDim
    · obtain ⟨out, hout⟩ := hreturns hstate
      simp only [FailsCleanly, linearAttnCore, hcheck, hconv, if_neg hne, hqExp, hkExp, hout]
      exact ⟨_, _, rfl, fun e he => by cases he⟩
    · obtain ⟨e, he⟩ := hrefuses hstate
      refine ⟨.error e, { st with conv := newConv }, ?_, fun _ _ => ?_⟩
      · simp only [linearAttnCore, hcheck, hconv, if_neg hne, hqExp, hkExp, he]
      · rw [conv_unchanged h hlen hstate]
  · -- without key heads the division panics, else the copy of a row that is too long
    by_cases hne : sh.numKHeads = 0
    · simp only [linearAttnCore, hcheck, hconv, if_pos hne]
    · rw [headsFit_iff (Nat.pos_of_ne_zero hne), not_or] at hfit
      simp only [linearAttnCore, hcheck, hconv, if_neg hne, expandHeads, if_neg hfit.1, hq,
        if_neg hfit.2]

/-- A call fails cleanly unless all lengths are accepted and the heads do not fit. -/
theorem linearAttnCore_failsCleanly_iff (fn : Elementary R) (batch seq : Nat) (sh : Shape)
    (x : List R) (w : Weights R) (st : States R) :
    FailsCleanly (linearAttnCore fn batch seq sh x w st) st ↔
      (Accepted batch seq sh x w st → sh.HeadsFit (batch * seq)) := by
  by_cases h : Accepted batch seq sh x w st
  · obtain ⟨hclean, hpanics⟩ := linearAttnCore_accepted fn h
    refine ⟨fun hfails _ => ?_, fun hfit => hclean (hfit h)⟩
    by_contra hfit
    rw [hpanics hfit] at hfails
    obtain ⟨_, _, hnone, _⟩ := hfails
    cases hnone
  · obtain ⟨e, he⟩ := linearAttnCore_unaccepted fn h
    exact iff_of_true ⟨.error e, st, he, fun _ _ => rfl⟩ fun hacc => absurd hacc h

/-- Three value heads over two key heads. -/
def unevenHeads : Shape := ⟨1, 2, 3, 1, 1, 1⟩

/-- Two key heads and three value heads. -/
def unevenWeights : Weights Rat where
  qkvW := [1, 1, 1, 1, 1, 1, 1]
  zW := [1, 1, 1]
  bW := [1, 1, 1]
  aW := [1, 1, 1]
  convW := [1, 1, 1, 1, 1, 1, 1]
  aLog := [0, 0, 0]
  dtBias := [0, 0, 0]
  normW := [1]
  outW := [1, 1, 1]

def unevenStates : States Rat := ⟨[0, 0, 0], [0, 0, 0, 0, 0, 0, 0]⟩

theorem linearAttnCore_panics :
    ¬ FailsCleanly (linearAttnCore ⟨id, id, id⟩ 1 1 unevenHeads [1] unevenWeights unevenStates)
      unevenStates := by
  have haccepted : Accepted 1 1 unevenHeads [1] unevenWeights unevenStates :=
    ⟨rfl, ⟨rfl, rfl, rfl, rfl, rfl, rfl, rfl, rfl, rfl⟩, ⟨rfl, rfl⟩, rfl⟩
  rintro ⟨_, _, hsome, _⟩
  rw [(linearAttnCore_accepted ⟨id, id, id⟩ haccepted).2
    (by unfold Shape.HeadsFit; decide)] at hsome
  cases hsome

end Core

end CompileForge.Runtime.LinearAttn
