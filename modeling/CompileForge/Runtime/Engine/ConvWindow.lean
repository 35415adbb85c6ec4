/-
  The window law of the short convolution.
-/

import CompileForge.Runtime.Engine.LinearAttn
import Mathlib.Data.List.GetD

namespace CompileForge.Runtime.LinearAttn

open Lib List

variable {R : Type} [Field R]

/-- The carried inputs, or `kernel` zeros. -/
def carriedInputs (batch channels kernel : Nat) (state : Option (List R)) : List R :=
  state.getD (replicate (batch * channels * kernel) 0)

/-- With or without a carried state, `causal_conv1d` reads the carried inputs in front of the new
    ones; the new state is the end of this list. -/
def convInputs (kernel seq : Nat) (carried x : List R) (row : Nat) : List R :=
  slice carried (row * kernel) kernel ++ slice x (row * seq) seq

/-- Output `t` is the weighted sum over the window behind input `t`. -/
def windowSum (kernel : Nat) (weight : List R) (c : Nat) (inputs : List R) (t : Nat) : R :=
  ((range kernel).map fun j =>
    weight.getD (c * kernel + j) 0 * inputs.getD (t + 1 + j) 0).sum

def biasAt (bias : Option (List R)) (c : Nat) : R :=
  match bias with
  | some bs => bs.getD c 0
  | none => 0

section Rows

variable {α : Type} {batch channels b c : Nat}

theorem row_lt (hb : b < batch) (hc : c < channels) : b * channels + c < batch * channels := by
  have hstep : (b + 1) * channels ≤ batch * channels := Nat.mul_le_mul_right channels hb
  rw [Nat.succ_mul] at hstep
  omega

variable {width : Nat}

theorem row_fits {len row : Nat} {l : List α} (hl : l.length = len * width)
    (hrow : row < len) : row * width + width ≤ l.length := by
  rw [hl, ← Nat.succ_mul]
  exact Nat.mul_le_mul_right width hrow

theorem slice_channel (f : Nat → Nat → Nat → α) (hb : b < batch) (hc : c < channels) :
    slice ((range batch).flatMap fun b => grid channels width (f b))
      ((b * channels + c) * width) width = (range width).map (f b c) := by
  have hoff : (b * channels + c) * width = b * (channels * width) + c * width := by
    rw [add_mul, mul_assoc]
  have hlen : c * width + width ≤ channels * width := by
    rw [← Nat.succ_mul]
    exact Nat.mul_le_mul_right width hc
  rw [hoff, slice_rows_within (fun i _ => length_grid channels width (f i)) hb hlen]
  exact slice_grid (f b) hc

theorem getD_channel {j : Nat} (f : Nat → Nat → Nat → α) (hb : b < batch)
    (hc : c < channels) (hj : j < width) (d : α) :
    ((range batch).flatMap fun b => grid channels width (f b)).getD
      ((b * channels + c) * width + j) d = f b c j := by
  rw [← getD_slice _ hj, slice_channel f hb hc]
  exact getD_map_range (f b c) hj d

theorem length_channels (f : Nat → Nat → Nat → α) :
    ((range batch).flatMap fun b => grid channels width (f b)).length =
      batch * channels * width := by
  rw [length_rows fun i _ => length_grid channels width (f i), mul_assoc]

theorem channels_congr {f g : Nat → Nat → Nat → α}
    (h : ∀ b < batch, ∀ c < channels, ∀ j < width, f b c j = g b c j) :
    ((range batch).flatMap fun b => grid channels width (f b)) =
      (range batch).flatMap fun b => grid channels width (g b) :=
  flatMap_range_congr fun b hb => grid_congr (h b hb)

end Rows

section Inputs

variable {kernel seq row idx : Nat} {carried x : List R}

section Carried

variable (hcarried : row * kernel + kernel ≤ carried.length)
include hcarried

theorem convInputs_carried (h : idx < kernel) :
    (convInputs kernel seq carried x row).getD idx 0 = carried.getD (row * kernel + idx) 0 := by
  rw [convInputs, getD_append _ _ _ _ (by rwa [length_slice hcarried]), getD_slice _ h]

theorem convInputs_new (h : kernel ≤ idx) (hlt : idx - kernel < seq) :
    (convInputs kernel seq carried x row).getD idx 0 = x.getD (row * seq + (idx - kernel)) 0 := by
  rw [convInputs, getD_append_right _ _ _ _ (by rwa [length_slice hcarried]),
    length_slice hcarried, getD_slice _ hlt]

theorem effectiveInput_eq (h : idx < kernel + seq) :
    effectiveInput kernel seq carried x row idx =
      (convInputs kernel seq carried x row).getD idx 0 := by
  unfold effectiveInput
  by_cases hidx : idx < kernel
  · rw [if_pos hidx, convInputs_carried hcarried hidx]
  · rw [if_neg hidx, if_pos (by omega), convInputs_new hcarried (by omega) (by omega)]

end Carried

theorem getD_zeros (n i : Nat) : (replicate n (0 : R)).getD i 0 = 0 := by
  rw [getD_eq_getElem?_getD, getElem?_replicate]
  split <;> rfl

end Inputs

section Branches

variable {batch channels seq kernel row c t j : Nat} {x weight carried : List R}

theorem windowSum_state (hcarried : row * kernel + kernel ≤ carried.length) (ht : t < seq) :
    ((range kernel).map fun j =>
        weight.getD (c * kernel + j) 0 * effectiveInput kernel seq carried x row (t + 1 + j)).sum =
      windowSum kernel weight c (convInputs kernel seq carried x row) t := by
  refine congrArg sum (map_congr_left fun j hj => ?_)
  have hj := mem_range.1 hj
  rw [effectiveInput_eq hcarried (by omega)]

theorem windowSum_stateless {n : Nat} (hzeros : row * kernel + kernel ≤ n) (ht : t < seq) :
    ((range kernel).map fun j =>
        if kernel ≤ t + 1 + j ∧ t + 1 + j - kernel < seq then
          weight.getD (c * kernel + j) 0 * x.getD (row * seq + (t + 1 + j - kernel)) 0
        else 0).sum =
      windowSum kernel weight c (convInputs kernel seq (replicate n 0) x row) t := by
  have hlen : row * kernel + kernel ≤ (replicate n (0 : R)).length := by
    rwa [length_replicate]
  refine congrArg sum (map_congr_left fun j hj => ?_)
  have hj := mem_range.1 hj
  by_cases hnew : kernel ≤ t + 1 + j
  · rw [if_pos ⟨hnew, by omega⟩, convInputs_new hlen hnew (by omega)]
  · rw [if_neg fun h => hnew h.1, convInputs_carried hlen (by omega), getD_zeros, mul_zero]

theorem newState_state (hcarried : row * kernel + kernel ≤ carried.length) (hj : j < kernel) :
    (if kernel + seq - kernel + j < kernel then
        carried.getD (row * kernel + (kernel + seq - kernel + j)) 0
      else x.getD (row * seq + (kernel + seq - kernel + j - kernel)) 0) =
      (convInputs kernel seq carried x row).getD (seq + j) 0 := by
  rw [Nat.add_sub_cancel_left]
  by_cases hold : seq + j < kernel
  · rw [if_pos hold, convInputs_carried hcarried hold]
  · rw [if_neg hold, convInputs_new hcarried (by omega) (by omega)]

theorem newState_stateless {n : Nat} (hzeros : row * kernel + kernel ≤ n) (hj : j < kernel) :
    (if kernel ≤ seq then x.getD (row * seq + (seq - kernel + j)) 0
      else if j < kernel - seq then 0
      else x.getD (row * seq + (j - (kernel - seq))) 0) =
      (convInputs kernel seq (replicate n 0) x row).getD (seq + j) 0 := by
  have hlen : row * kernel + kernel ≤ (replicate n (0 : R)).length := by
    rwa [length_replicate]
  by_cases hfull : kernel ≤ seq
  · have hidx : seq - kernel + j = seq + j - kernel := by omega
    rw [if_pos hfull, hidx, convInputs_new hlen (by omega) (by omega)]
  · rw [if_neg hfull]
    by_cases hold : j < kernel - seq
    · rw [if_pos hold, convInputs_carried hlen (by omega), getD_zeros]
    · have hidx : j - (kernel - seq) = seq + j - kernel := by omega
      rw [if_neg hold, hidx, convInputs_new hlen (by omega) (by omega)]

end Branches

section Conv

variable {batch channels seq kernel : Nat} {x weight newState : List R}
  {state bias : Option (List R)}

theorem ensure_of {condition : Prop} [Decidable condition] {message : String}
    (h : condition) : ensure condition message = .ok () :=
  if_pos h

theorem length_carriedInputs (h : ∀ s ∈ state, s.length = batch * channels * kernel) :
    (carriedInputs batch channels kernel state).length = batch * channels * kernel := by
  cases state with
  | none => exact length_replicate
  | some s => exact h s rfl

/-- The convolution without activation, over the inputs of each channel. -/
theorem causalConv1d_eq (fn : Elementary R) (hx : x.length = batch * channels * seq)
    (hweight : weight.length = channels * kernel)
    (hnew : newState.length = batch * channels * kernel)
    (hstate : ∀ s ∈ state, s.length = batch * channels * kernel)
    (hbias : ∀ bs ∈ bias, bs.length = channels) :
    causalConv1d fn batch channels seq kernel x state weight bias newState false =
      .ok ((range batch).flatMap fun b => grid channels seq fun c t =>
          biasAt bias c + windowSum kernel weight c
            (convInputs kernel seq (carriedInputs batch channels kernel state) x
              (b * channels + c)) t,
        (range batch).flatMap fun b => grid channels kernel fun c j =>
          (convInputs kernel seq (carriedInputs batch channels kernel state) x
            (b * channels + c)).getD (seq + j) 0) := by
  have hcarried : ∀ b < batch, ∀ c < channels,
      (b * channels + c) * kernel + kernel ≤ batch * channels * kernel := by
    intro b hb c hc
    rw [← Nat.succ_mul]
    exact Nat.mul_le_mul_right kernel (row_lt hb hc)
  -- the loops of the source branch on the state and on the bias
  unfold causalConv1d
  rw [ensure_of hx, ensure_of hweight, ensure_of hnew]
  cases state with
  | none =>
    cases bias with
    | none =>
      refine congrArg Except.ok (Prod.ext (channels_congr fun b hb c hc t ht => ?_)
        (channels_congr fun b hb c hc j hj => newState_stateless (hcarried b hb c hc) hj))
      exact (windowSum_stateless (hcarried b hb c hc) ht).trans (zero_add _).symm
    | some bs =>
      simp only [ensure_of (hbias bs rfl)]
      refine congrArg Except.ok (Prod.ext (channels_congr fun b hb c hc t ht => ?_)
        (channels_congr fun b hb c hc j hj => newState_stateless (hcarried b hb c hc) hj))
      exact (congrArg (· + bs.getD c 0)
        (windowSum_stateless (hcarried b hb c hc) ht)).trans (add_comm _ _)
  | some s =>
    have hs : ∀ b < batch, ∀ c < channels, (b * channels + c) * kernel + kernel ≤ s.length :=
      fun b hb c hc => (hcarried b hb c hc).trans (hstate s rfl).ge
    simp only [ensure_of (hstate s rfl)]
    cases bias with
    | none =>
      refine congrArg Except.ok (Prod.ext (channels_congr fun b hb c hc t ht => ?_)
        (channels_congr fun b hb c hc j hj => newState_state (hs b hb c hc) hj))
      exact (windowSum_state (hs b hb c hc) ht).trans (zero_add _).symm
    | some bs =>
      simp only [ensure_of (hbias bs rfl)]
      refine congrArg Except.ok (Prod.ext (channels_congr fun b hb c hc t ht => ?_)
        (channels_congr fun b hb c hc j hj => newState_state (hs b hb c hc) hj))
      exact (congrArg (· + bs.getD c 0)
        (windowSum_state (hs b hb c hc) ht)).trans (add_comm _ _)

omit [Field R] in
theorem length_convInputs {carried : List R} {seq row len : Nat}
    (hcarried : carried.length = len * kernel) (hx : x.length = len * seq) (hrow : row < len) :
    (convInputs kernel seq carried x row).length = kernel + seq := by
  rw [convInputs, length_append, length_slice (row_fits hcarried hrow),
    length_slice (row_fits hx hrow)]

theorem map_range_drop {l : List R} {n k : Nat} (hl : l.length = k + n) :
    ((range k).map fun j => l.getD (n + j) 0) = l.drop (l.length - k) := by
  have hn : l.length - k = n := by omega
  rw [hn]
  refine ext_getElem (by simp; omega) fun i hi _ => ?_
  have hlt : n + i < l.length := by
    rw [length_map, length_range] at hi
    omega
  simp [hlt]

/-- Output `t` is the weighted window of the inputs that ends at `t`, behind the state. -/
theorem causalConv1d_window (fn : Elementary R) (hx : x.length = batch * channels * seq)
    (hweight : weight.length = channels * kernel)
    (hnew : newState.length = batch * channels * kernel)
    (hstate : ∀ s ∈ state, s.length = batch * channels * kernel)
    (hbias : ∀ bs ∈ bias, bs.length = channels) :
    (∃ out carried, causalConv1d fn batch channels seq kernel x state weight bias newState false =
        .ok (out, carried) ∧
      out.length = batch * channels * seq ∧ carried.length = batch * channels * kernel ∧
      ∀ b < batch, ∀ c < channels,
        let inputs := convInputs kernel seq (carriedInputs batch channels kernel state) x
          (b * channels + c)
        inputs.length = kernel + seq ∧
        (∀ t < seq, out.getD ((b * channels + c) * seq + t) 0 =
          biasAt bias c + windowSum kernel weight c inputs t) ∧
        slice carried ((b * channels + c) * kernel) kernel = inputs.drop (inputs.length - kernel)) ∧
    causalConv1d fn batch channels seq kernel x none weight bias newState false =
      causalConv1d fn batch channels seq kernel x
        (some (replicate (batch * channels * kernel) 0)) weight bias newState false := by
  have hcarried := length_carriedInputs hstate
  -- no state and a state of zeros give the same carried inputs
  constructor
  · refine ⟨_, _, causalConv1d_eq fn hx hweight hnew hstate hbias, length_channels _,
      length_channels _, fun b hb c hc => ?_⟩
    have hlen := length_convInputs hcarried hx (row_lt hb hc)
    refine ⟨hlen, fun t ht => getD_channel _ hb hc ht 0, ?_⟩
    rw [slice_channel _ hb hc]
    exact map_range_drop hlen
  · have hzeros : ∀ s ∈ some (replicate (batch * channels * kernel) (0 : R)),
        s.length = batch * channels * kernel := by simp
    rw [causalConv1d_eq fn hx hweight hnew hzeros hbias,
      causalConv1d_eq fn hx hweight hnew (by simp) hbias]
    rfl

/-- A chunk shorter than the kernel behind a carried state. -/
theorem causalConv1d_window_short :
    ∃ out carried : List Rat,
      causalConv1d ⟨id, id, id⟩ 1 1 1 2 [5] (some [1, 2]) [3, 4] (some [7]) [0, 0] false =
        .ok (out, carried) ∧ out.getD 0 0 = 7 + (3 * 2 + 4 * 5) ∧ slice carried 0 2 = [2, 5] := by
  obtain ⟨⟨out, carried, hrun, -, -, hchannel⟩, -⟩ :=
    @causalConv1d_window Rat _ 1 1 1 2 [5] [3, 4] [0, 0] (some [1, 2]) (some [7])
      ⟨id, id, id⟩ rfl rfl rfl (by simp) (by simp)
  obtain ⟨-, hout, hcarried⟩ := hchannel 0 (by decide) 0 (by decide)
  refine ⟨out, carried, hrun, (hout 0 (by decide)).trans (by decide +kernel), hcarried⟩

end Conv

end CompileForge.Runtime.LinearAttn
