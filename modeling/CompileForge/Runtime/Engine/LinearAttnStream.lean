/-
  `linear_attn_core` on a batch of one as the run of `tokenStep` over its tokens:
  every buffer between the stages of the core holds the rows of its tokens.
-/

import CompileForge.Runtime.Engine.LinearAttnTrace

namespace CompileForge.Runtime.LinearAttn

open Lib List

variable {R : Type} [Field R] [LinearOrder R]

variable {fn : Elementary R} {sh : Shape} {w : Weights R} {st : States R} {x : List R}
  {seq : Nat}

/-! ## The stages, row by row -/

section

omit [LinearOrder R]

theorem sgemmTransb_rows (m n k : Nat) (a b : List R) :
    sgemmTransb a m n k b = (range m).flatMap fun i => gemmRow b n k (slice a (i * k) k) :=
  rfl

theorem toChannels_rows :
    toChannels 1 seq sh.qkvChannels (sgemmTransb x seq sh.qkvChannels sh.hidden w.qkvW) =
      grid sh.qkvChannels seq fun c s => (qkvAt sh w x s).getD c 0 := by
  rw [toChannels, sgemmTransb_rows, range_one, flatMap_singleton]
  refine grid_congr fun c hc s hs => ?_
  rw [zero_mul, zero_add, getD_rows (fun i _ => length_gemmRow ..) hs hc]
  rfl

theorem effectiveInput_rows {c idx : Nat} (hc : c < sh.qkvChannels)
    (hidx : idx < sh.convKernel + seq) :
    effectiveInput sh.convKernel seq st.conv
      (grid sh.qkvChannels seq fun c s => (qkvAt sh w x s).getD c 0) c idx =
        inputAt sh w st x c idx := by
  unfold effectiveInput inputAt
  by_cases hcarried : idx < sh.convKernel
  · rw [if_pos hcarried, if_pos hcarried]
  · have hs : idx - sh.convKernel < seq := by omega
    rw [if_neg hcarried, if_neg hcarried, if_pos hs, getD_grid _ hc hs]

theorem causalConv1d_rows (hw : w.Fits sh) (hst : st.Fits sh) :
    causalConv1d fn 1 sh.qkvChannels seq sh.convKernel
      (grid sh.qkvChannels seq fun c s => (qkvAt sh w x s).getD c 0) (some st.conv) w.convW none
      (replicate (sh.qkvChannels * sh.convKernel) 0) true =
        .ok (grid sh.qkvChannels seq fun c s => (mixedAt fn sh w st x s).getD c 0,
          convAt sh w st x seq) := by
  have hx : (grid sh.qkvChannels seq fun c s => (qkvAt sh w x s).getD c 0).length =
      1 * sh.qkvChannels * seq := by rw [length_grid, one_mul]
  have hstate : st.conv.length = 1 * sh.qkvChannels * sh.convKernel := by
    rw [one_mul, hst.conv]
  have hnew : (replicate (sh.qkvChannels * sh.convKernel) (0 : R)).length =
      1 * sh.qkvChannels * sh.convKernel := by rw [one_mul, length_replicate]
  unfold causalConv1d
  simp only [ensure, hx, hw.convW, hnew, hstate, if_true, bind, Except.bind, range_one,
    flatMap_singleton, zero_mul, zero_add]
  refine congrArg Except.ok (Prod.ext ?_ ?_)
  · refine grid_congr fun c hc s hs => ?_
    rw [mixedAt, mixRow, getD_map_range _ hc]
    refine congrArg (silu fn) (congrArg sum (map_congr_left fun j hj => ?_))
    have hj := mem_range.1 hj
    rw [effectiveInput_rows hc (by omega), convAt, getD_grid _ hc hj]
  · refine grid_congr fun c hc j hj => ?_
    -- the last `convKernel` inputs start at `seq`
    have hidx : sh.convKernel + seq - sh.convKernel + j = seq + j := by omega
    rw [hidx]
    by_cases hcarried : seq + j < sh.convKernel
    · rw [if_pos hcarried, inputAt, if_pos hcarried]
    · have hs : seq + j - sh.convKernel < seq := by omega
      rw [if_neg hcarried, inputAt, if_neg hcarried, getD_grid _ hc hs]

theorem toTokens_rows :
    toTokens 1 seq sh.qkvChannels
      (grid sh.qkvChannels seq fun c s => (mixedAt fn sh w st x s).getD c 0) =
        (range seq).flatMap (mixedAt fn sh w st x) := by
  rw [toTokens, range_one, flatMap_singleton]
  refine flatMap_range_congr fun s hs => ?_
  have hrow : (mixedAt fn sh w st x s).length = 1 * sh.qkvChannels := by
    rw [length_mixedAt, one_mul]
  -- one row, read entry by entry
  have hread := grid_getD hrow 0
  rw [grid, range_one, flatMap_singleton] at hread
  rw [← hread]
  refine map_congr_left fun c hc => ?_
  have hc := mem_range.1 hc
  simp only [zero_mul, zero_add]
  rw [getD_grid _ hc hs]

theorem columns_rows {off len : Nat} (h : off + len ≤ sh.qkvChannels) :
    columns seq sh.qkvChannels off len ((range seq).flatMap (mixedAt fn sh w st x)) =
      (range seq).flatMap fun s => slice (mixedAt fn sh w st x s) off len :=
  flatMap_range_congr fun _ hs => slice_rows_within (fun _ _ => length_mixedAt _) hs h

end

/-! ## The heads -/

/-- The key heads are as wide as the value heads when they are not repeated. -/
def Shape.Copies (sh : Shape) : Prop := 1 < sh.repeats ∨ sh.keyTotal = sh.numVHeads * sh.keyDim

theorem Shape.copies_of_dvd (hk : 0 < sh.numKHeads) (hv : 0 < sh.numVHeads)
    (hdvd : sh.numKHeads ∣ sh.numVHeads) : sh.Copies := by
  obtain ⟨r, hr⟩ := hdvd
  have hmod : sh.numVHeads % sh.numKHeads = 0 := by rw [hr, Nat.mul_mod_right]
  have hrepeats : sh.repeats = r := by
    rw [Shape.repeats, if_pos hmod, hr, Nat.mul_div_cancel_left _ hk]
  have hpos : 0 < r := by
    rcases Nat.eq_zero_or_pos r with rfl | hpos
    · rw [hr, mul_zero] at hv
      omega
    · exact hpos
  by_cases hone : 1 < r
  · exact .inl (by rw [hrepeats]; exact hone)
  · have hr1 : r = 1 := by omega
    refine .inr ?_
    rw [Shape.keyTotal, hr, hr1, mul_one]

theorem numKHeads_mul_repeats (h : 1 < sh.repeats) :
    sh.numKHeads * sh.repeats = sh.numVHeads := by
  unfold Shape.repeats at h ⊢
  by_cases hmod : sh.numVHeads % sh.numKHeads = 0
  · rw [if_pos hmod, Nat.mul_div_cancel' (Nat.dvd_of_mod_eq_zero hmod)]
  · rw [if_neg hmod] at h
    omega

section

omit [Field R] [LinearOrder R]

theorem length_expandRow (hcopies : sh.Copies) {q : List R} (hq : q.length = sh.keyTotal) :
    (expandRow sh q).length = sh.numVHeads * sh.keyDim := by
  unfold expandRow
  by_cases hone : 1 < sh.repeats
  · have hrow : ∀ kh < sh.numKHeads, ((range sh.repeats).flatMap fun _ =>
        slice q (kh * sh.keyDim) sh.keyDim).length = sh.repeats * sh.keyDim := by
      intro kh hkh
      refine length_rows fun _ _ => length_slice ?_
      rw [hq, ← Nat.succ_mul]
      exact Nat.mul_le_mul_right _ hkh
    rw [if_pos hone, length_rows hrow, ← mul_assoc, numKHeads_mul_repeats hone]
  · rw [if_neg hone, hq]
    exact hcopies.resolve_left hone

theorem expandHeads_rows (hcopies : 0 < seq → sh.Copies) {q : Nat → List R}
    (hq : ∀ s < seq, (q s).length = sh.keyTotal) :
    expandHeads sh seq ((range seq).flatMap q) =
      some ((range seq).flatMap fun s => expandRow sh (q s)) := by
  unfold expandHeads expandRow
  by_cases hone : 1 < sh.repeats
  · rw [if_pos hone]
    refine congrArg some (flatMap_range_congr fun s hs => ?_)
    rw [if_pos hone]
    refine flatMap_range_congr fun kh hkh => flatMap_range_congr fun _ _ => ?_
    refine slice_rows_within hq hs ?_
    rw [← Nat.succ_mul]
    exact Nat.mul_le_mul_right _ hkh
  · have hlen : ((range seq).flatMap q).length = seq * sh.numVHeads * sh.keyDim := by
      rw [length_rows hq, mul_assoc]
      rcases Nat.eq_zero_or_pos seq with rfl | hseq
      · rw [zero_mul, zero_mul]
      · rw [(hcopies hseq).resolve_left hone]
    simp only [if_neg hone, if_pos hlen]

theorem expandHeads_none (hcopies : ¬ sh.Copies) (hseq : 0 < seq) {q : List R}
    (hq : q.length = seq * sh.keyTotal) : expandHeads sh seq q = none := by
  unfold Shape.Copies at hcopies
  push Not at hcopies
  have hlen : q.length ≠ seq * sh.numVHeads * sh.keyDim := by
    rw [hq, mul_assoc]
    intro h
    exact hcopies.2 (Nat.eq_of_mul_eq_mul_left hseq h)
  rw [expandHeads, if_neg (by omega), if_neg hlen]

end

/-! ## The recurrence -/

section Rows

variable (fn : Elementary R) (sh : Shape) (w : Weights R) (st : States R) (x : List R) (s : Nat)

/-- The expanded rows of the queries, the keys, and the values of a token. -/
def queryAt : List R := expandRow sh (slice (mixedAt fn sh w st x s) 0 sh.keyTotal)

def keyAt : List R := expandRow sh (slice (mixedAt fn sh w st x s) sh.keyTotal sh.keyTotal)

def valueAt : List R := slice (mixedAt fn sh w st x s) (2 * sh.keyTotal) sh.valueTotal

end Rows

section

omit [LinearOrder R]

theorem length_queryAt (hcopies : sh.Copies) (s : Nat) :
    (queryAt fn sh w st x s).length = sh.numVHeads * sh.keyDim := by
  refine length_expandRow hcopies (length_slice ?_)
  rw [length_mixedAt, qkvChannels_eq]
  omega

theorem length_keyAt (hcopies : sh.Copies) (s : Nat) :
    (keyAt fn sh w st x s).length = sh.numVHeads * sh.keyDim := by
  refine length_expandRow hcopies (length_slice ?_)
  rw [length_mixedAt, qkvChannels_eq]
  omega

theorem length_valueAt (s : Nat) :
    (valueAt fn sh w st x s).length = sh.numVHeads * sh.valueDim := by
  refine length_slice ?_
  rw [length_mixedAt, qkvChannels_eq]

end

omit [Field R] [LinearOrder R] in
theorem slice_head {row : Nat → List R} {heads dim s h : Nat}
    (hrow : ∀ i < seq, (row i).length = heads * dim) (hs : s < seq) (hh : h < heads) :
    slice ((range seq).flatMap row) ((s * heads + h) * dim) dim =
      slice (row s) (h * dim) dim := by
  have hoff : (s * heads + h) * dim = s * (heads * dim) + h * dim := by
    rw [add_mul, mul_assoc]
  rw [hoff]
  refine slice_rows_within hrow hs ?_
  rw [← Nat.succ_mul]
  exact Nat.mul_le_mul_right _ hh

theorem headLoop_rows (hcopies : 0 < seq → sh.Copies) {h : Nat} (hh : h < sh.numVHeads) :
    headLoop fn seq sh.numVHeads sh.keyDim sh.valueDim
      ((range seq).flatMap (queryAt fn sh w st x))
      ((range seq).flatMap (keyAt fn sh w st x))
      ((range seq).flatMap (valueAt fn sh w st x)) (grid seq sh.numVHeads fun s h =>
        gate fn w ((gemmRow w.aW sh.numVHeads sh.hidden (rowAt sh x s)).getD h 0) h)
      (grid seq sh.numVHeads fun s h =>
        sigmoid fn ((gemmRow w.bW sh.numVHeads sh.hidden (rowAt sh x s)).getD h 0))
      true st.recurrent 0 h =
        run (headAt fn sh w st x h) (sh.block st.recurrent h) (range seq) := by
  unfold headLoop
  simp only [zero_mul, zero_add]
  refine run_congr fun s hs block => ?_
  have hs := mem_range.1 hs
  rw [slice_head (fun i _ => length_queryAt (hcopies (by omega)) i) hs hh,
    slice_head (fun i _ => length_keyAt (hcopies (by omega)) i) hs hh,
    slice_head (fun i _ => length_valueAt i) hs hh, getD_grid _ hs hh, getD_grid _ hs hh]
  rfl

theorem gatedDeltaRuleChecked_rows (hst : st.Fits sh) (hcopies : 0 < seq → sh.Copies) :
    gatedDeltaRuleChecked fn 1 seq sh.numVHeads sh.keyDim sh.valueDim
      ((range seq).flatMap (queryAt fn sh w st x))
      ((range seq).flatMap (keyAt fn sh w st x))
      ((range seq).flatMap (valueAt fn sh w st x)) (grid seq sh.numVHeads fun s h =>
        gate fn w ((gemmRow w.aW sh.numVHeads sh.hidden (rowAt sh x s)).getD h 0) h)
      (grid seq sh.numVHeads fun s h =>
        sigmoid fn ((gemmRow w.bW sh.numVHeads sh.hidden (rowAt sh x s)).getD h 0))
      (some st.recurrent) true true = .ok ((range seq).flatMap fun s =>
            (range sh.numVHeads).flatMap (coreAt fn sh w st x s),
          some (stateAt fn sh w st x seq).recurrent) := by
  have hq : ((range seq).flatMap (queryAt fn sh w st x)).length =
      1 * seq * sh.numVHeads * sh.keyDim := by
    rw [length_rows fun i hi => length_queryAt (hcopies (by omega)) i, one_mul, mul_assoc]
  have hk : ((range seq).flatMap (keyAt fn sh w st x)).length =
      1 * seq * sh.numVHeads * sh.keyDim := by
    rw [length_rows fun i hi => length_keyAt (hcopies (by omega)) i, one_mul, mul_assoc]
  have hv : ((range seq).flatMap (valueAt fn sh w st x)).length =
      1 * seq * sh.numVHeads * sh.valueDim := by
    rw [length_rows fun i _ => length_valueAt i, one_mul, mul_assoc]
  have hrec : st.recurrent.length = 1 * sh.numVHeads * sh.keyDim * sh.valueDim := by
    rw [hst.recurrent, one_mul, Shape.stateLen]
  unfold gatedDeltaRuleChecked
  simp only [ensure, hq, hk, hv, length_grid, one_mul, hrec, if_true, bind, Except.bind,
    range_one, flatMap_singleton, Option.getD_some]
  refine congrArg Except.ok (Prod.ext ?_ (congrArg some ?_))
  · refine flatMap_range_congr fun s hs => flatMap_range_congr fun h hh => ?_
    rw [headLoop_rows hcopies hh, run_range, getD_map_range _ hs]
    rfl
  · refine flatMap_range_congr fun h hh => ?_
    rw [headLoop_rows hcopies hh]
    rfl

theorem gatedRmsNorm_rows :
    gatedRmsNorm fn sh w seq
      ((range seq).flatMap fun s => (range sh.numVHeads).flatMap (coreAt fn sh w st x s))
      (sgemmTransb x seq sh.valueTotal sh.hidden w.zW) =
        (range seq).flatMap (normalizedAt fn sh w st x) := by
  refine flatMap_range_congr fun s hs => flatMap_range_congr fun h hh => ?_
  have hwithin : h * sh.valueDim + sh.valueDim ≤ sh.valueTotal := by
    rw [← Nat.succ_mul]
    exact Nat.mul_le_mul_right _ hh
  have hrow : ∀ i < seq, ((range sh.numVHeads).flatMap (coreAt fn sh w st x i)).length =
      sh.valueTotal := fun i _ => length_rows fun j _ => length_coreAt i j
  have hcore := (slice_rows_within hrow hs hwithin).trans
    (slice_rows (fun j _ => length_coreAt s j) hh)
  have hz : slice ((range seq).flatMap fun i =>
      gemmRow w.zW sh.valueTotal sh.hidden (rowAt sh x i)) (s * sh.valueTotal + h * sh.valueDim)
      sh.valueDim = slice (gemmRow w.zW sh.valueTotal sh.hidden (rowAt sh x s)) (h * sh.valueDim)
        sh.valueDim := slice_rows_within (fun i _ => length_gemmRow ..) hs hwithin
  exact congrArg₂ (normRow fn sh w) hcore hz

/-! ## One call -/

omit [LinearOrder R] in
theorem grid_sgemmTransb (f : R → Nat → R) (b : List R) :
    grid seq sh.numVHeads (fun r h =>
      f ((sgemmTransb x seq sh.numVHeads sh.hidden b).getD (r * sh.numVHeads + h) 0) h) =
    grid seq sh.numVHeads fun s h =>
      f ((gemmRow b sh.numVHeads sh.hidden (rowAt sh x s)).getD h 0) h := by
  refine grid_congr fun s hs h hh => ?_
  rw [sgemmTransb_rows, getD_rows (fun i _ => length_gemmRow ..) hs hh]
  rfl

omit [Field R] [LinearOrder R] in
theorem checkShapes_ok (hx : x.length = seq * sh.hidden) (hw : w.Fits sh) (hst : st.Fits sh) :
    checkShapes sh seq x w st = .ok () := by
  simp only [checkShapes, ensure, hx, hw.qkvW, hw.zW, hw.bW, hw.aW, hw.convW, hw.aLog, hw.dtBias,
    hw.normW, hw.outW, hst.recurrent, hst.conv, and_self, if_true, bind, Except.bind]

def tokens (sh : Shape) (seq : Nat) (x : List R) : List (List R) :=
  (range seq).map fun s => slice x (s * sh.hidden) sh.hidden

theorem linearAttnCore_eq (fn : Elementary R) (hk : 0 < sh.numKHeads)
    (hcopies : 0 < seq → sh.Copies)
    (hx : x.length = seq * sh.hidden) (hw : w.Fits sh) (hst : st.Fits sh) :
    linearAttnCore fn 1 seq sh x w st =
      some (.ok (run (tokenStep fn sh w) st (tokens sh seq x)).2.flatten,
        (run (tokenStep fn sh w) st (tokens sh seq x)).1) := by
  have hrun : run (tokenStep fn sh w) st (tokens sh seq x) =
      (stateAt fn sh w st x seq, (range seq).map (outAt fn sh w st x)) := run_tokenStep hst seq
  have hquery : 0 + sh.keyTotal ≤ sh.qkvChannels := by rw [qkvChannels_eq]; omega
  have hkey : sh.keyTotal + sh.keyTotal ≤ sh.qkvChannels := by rw [qkvChannels_eq]; omega
  have hvalue : 2 * sh.keyTotal + sh.valueTotal ≤ sh.qkvChannels := by rw [qkvChannels_eq]
  have hqExp : expandHeads sh seq (columns seq sh.qkvChannels 0 sh.keyTotal
      ((range seq).flatMap (mixedAt fn sh w st x))) =
        some ((range seq).flatMap (queryAt fn sh w st x)) := by
    rw [columns_rows hquery]
    exact expandHeads_rows hcopies fun s _ => length_slice (by rw [length_mixedAt]; exact hquery)
  have hkExp : expandHeads sh seq (columns seq sh.qkvChannels sh.keyTotal sh.keyTotal
      ((range seq).flatMap (mixedAt fn sh w st x))) =
        some ((range seq).flatMap (keyAt fn sh w st x)) := by
    rw [columns_rows hkey]
    exact expandHeads_rows hcopies fun s _ => length_slice (by rw [length_mixedAt]; exact hkey)
  have hv : columns seq sh.qkvChannels (2 * sh.keyTotal) sh.valueTotal
      ((range seq).flatMap (mixedAt fn sh w st x)) =
        (range seq).flatMap (valueAt fn sh w st x) := columns_rows hvalue
  have hg := @grid_sgemmTransb R _ sh x seq (gate fn w) w.aW
  have hbeta := @grid_sgemmTransb R _ sh x seq (fun y _ => sigmoid fn y) w.bW
  have hnormalized : ∀ s, (normalizedAt fn sh w st x s).length = sh.valueTotal := fun s =>
    length_rows fun h _ => length_normRow ..
  rw [hrun]
  unfold linearAttnCore
  simp only [one_mul, checkShapes_ok hx hw hst, toChannels_rows, causalConv1d_rows hw hst,
    toTokens_rows, if_neg (Nat.pos_iff_ne_zero.1 hk), hqExp, hkExp, hv, hg, hbeta,
    gatedDeltaRuleChecked_rows hst hcopies, gatedRmsNorm_rows, Option.getD_some]
  rw [sgemmTransb_rows, ← flatMap_def]
  refine congrArg some (Prod.ext (congrArg Except.ok ?_) rfl)
  refine flatMap_range_congr fun s hs => ?_
  rw [slice_rows (fun i _ => hnormalized i) hs]
  rfl

theorem linearAttnCore_none (fn : Elementary R) (hk : 0 < sh.numKHeads) (hcopies : ¬ sh.Copies)
    (hseq : 0 < seq) (hx : x.length = seq * sh.hidden) (hw : w.Fits sh) (hst : st.Fits sh) :
    linearAttnCore fn 1 seq sh x w st = none := by
  have hquery : 0 + sh.keyTotal ≤ sh.qkvChannels := by rw [qkvChannels_eq]; omega
  have hqExp : expandHeads sh seq (columns seq sh.qkvChannels 0 sh.keyTotal
      ((range seq).flatMap (mixedAt fn sh w st x))) = none := by
    refine expandHeads_none hcopies hseq ?_
    rw [columns_rows hquery]
    exact length_rows fun s _ => length_slice (by rw [length_mixedAt]; exact hquery)
  unfold linearAttnCore
  simp only [one_mul, checkShapes_ok hx hw hst, toChannels_rows, causalConv1d_rows hw hst,
    toTokens_rows, if_neg (Nat.pos_iff_ne_zero.1 hk), hqExp]

/-! ## Calls on consecutive chunks -/

/-- Calls on consecutive chunks that carry the two states over. -/
def linearAttnChunks (fn : Elementary R) (sh : Shape) (w : Weights R) (st : States R) :
    List (Nat × List R) → Option (Except String (List R) × States R)
  | [] => some (.ok [], st)
  | (seq, x) :: chunks =>
    match linearAttnCore fn 1 seq sh x w st with
    | none => none
    | some (.error e, st) => some (.error e, st)
    | some (.ok out, st) =>
      match linearAttnChunks fn sh w st chunks with
      | none => none
      | some (.error e, st) => some (.error e, st)
      | some (.ok rest, st) => some (.ok (out ++ rest), st)

variable {chunks : List (Nat × List R)}

section

omit [Field R] [LinearOrder R]

theorem tokens_append {n : Nat} {y : List R} (hx : x.length = seq * sh.hidden) :
    tokens sh (seq + n) (x ++ y) = tokens sh seq x ++ tokens sh n y := by
  unfold tokens
  rw [range_add, map_append, map_map]
  refine congrArg₂ (· ++ ·) (map_congr_left fun s hs => ?_)
    (map_congr_left fun s _ => ?_)
  · have hend : s * sh.hidden + sh.hidden ≤ x.length := by
      rw [hx, ← Nat.succ_mul]
      exact Nat.mul_le_mul_right _ (mem_range.1 hs)
    rw [slice, slice, drop_append_of_le_length (by omega),
      take_append_of_le_length (by rw [length_drop]; omega)]
  · have hoff : (seq + s) * sh.hidden = x.length + s * sh.hidden := by rw [hx, add_mul]
    simp only [Function.comp_apply, slice, hoff, drop_length_add_append]

theorem tokens_chunks (hchunks : ∀ c ∈ chunks, c.2.length = c.1 * sh.hidden) :
    tokens sh (chunks.map Prod.fst).sum (chunks.flatMap Prod.snd) =
      chunks.flatMap fun c => tokens sh c.1 c.2 := by
  induction chunks with
  | nil => rfl
  | cons c chunks ih =>
    have hrest := ih fun d hd => hchunks d (mem_cons_of_mem c hd)
    rw [map_cons, sum_cons, flatMap_cons, flatMap_cons,
      tokens_append (hchunks c mem_cons_self), hrest]

theorem length_chunks (hchunks : ∀ c ∈ chunks, c.2.length = c.1 * sh.hidden) :
    (chunks.flatMap Prod.snd).length = (chunks.map Prod.fst).sum * sh.hidden := by
  induction chunks with
  | nil => rw [map_nil, sum_nil, zero_mul, flatMap_nil, length_nil]
  | cons c chunks ih =>
    have hrest := ih fun d hd => hchunks d (mem_cons_of_mem c hd)
    rw [flatMap_cons, length_append, hchunks c mem_cons_self, hrest,
      map_cons, sum_cons, add_mul]

end

theorem linearAttnChunks_run (hk : 0 < sh.numKHeads) (hcopies : sh.Copies) (hw : w.Fits sh)
    (hst : st.Fits sh) (hchunks : ∀ c ∈ chunks, c.2.length = c.1 * sh.hidden) :
    linearAttnChunks fn sh w st chunks =
      some (.ok (run (tokenStep fn sh w) st (chunks.flatMap fun c => tokens sh c.1 c.2)).2.flatten,
        (run (tokenStep fn sh w) st (chunks.flatMap fun c => tokens sh c.1 c.2)).1) := by
  induction chunks generalizing st with
  | nil => rfl
  | cons c chunks ih =>
    have hcall := linearAttnCore_eq fn hk (fun _ => hcopies)
      (hchunks c mem_cons_self) hw hst
    have hfits : (run (tokenStep fn sh w) st (tokens sh c.1 c.2)).1.Fits sh :=
      run_invariant (P := fun s : States R => s.Fits sh)
        (fun s a _ => tokenStep_fits fn sh w s a) hst _
    have hrest := ih hfits fun d hd => hchunks d (mem_cons_of_mem c hd)
    rw [flatMap_cons, run_append, flatten_append]
    simp only [linearAttnChunks, hcall, hrest]

/-- Cutting a sequence into non-empty chunks does not change what linear attention computes. -/
theorem linearAttnChunks_eq (fn : Elementary R) (hk : 0 < sh.numKHeads) (hw : w.Fits sh)
    (hst : st.Fits sh) (hchunks : ∀ c ∈ chunks, 0 < c.1 ∧ c.2.length = c.1 * sh.hidden) :
    linearAttnChunks fn sh w st chunks =
        linearAttnCore fn 1 (chunks.map Prod.fst).sum sh (chunks.flatMap Prod.snd) w st ∧
      (0 < sh.numVHeads → sh.numKHeads ∣ sh.numVHeads →
        ∃ out st', linearAttnChunks fn sh w st chunks = some (.ok out, st')) := by
  have hlength : ∀ c ∈ chunks, c.2.length = c.1 * sh.hidden := fun c hc => (hchunks c hc).2
  constructor
  · by_cases hcopies : sh.Copies
    · rw [linearAttnChunks_run hk hcopies hw hst hlength,
        linearAttnCore_eq fn hk (fun _ => hcopies) (length_chunks hlength) hw hst,
        tokens_chunks hlength]
    · cases chunks with
      | nil =>
        -- no token: both return at once
        have hcall : linearAttnCore fn 1 0 sh [] w st = some (.ok [], st) :=
          linearAttnCore_eq fn hk (fun h => absurd h (lt_irrefl 0)) (length_chunks hlength) hw
            hst
        exact hcall.symm
      | cons c rest =>
        have hfirst := hchunks c mem_cons_self
        have hsum : 0 < ((c :: rest).map Prod.fst).sum := by
          rw [map_cons, sum_cons]
          omega
        have hcall := linearAttnCore_none fn hk hcopies hfirst.1 hfirst.2 hw hst
        rw [linearAttnCore_none fn hk hcopies hsum (length_chunks hlength) hw hst]
        simp only [linearAttnChunks, hcall]
  · intro hv hdvd
    exact ⟨_, _, linearAttnChunks_run hk (Shape.copies_of_dvd hk hv hdvd) hw hst hlength⟩

/-- Three tokens in two chunks, with a kernel longer than the first. -/
theorem linearAttnChunks_eq_witness :
    let fn : Elementary Rat := ⟨fun x => 1 + x, fun x => x, fun x => x⟩
    let sh : Shape := ⟨1, 1, 2, 1, 1, 3⟩
    let w : Weights Rat :=
      ⟨[1, 2, 1, 3], [1, 1], [1, 2], [2, 1], replicate 12 1, [1, 1], [0, 1], [1], [1, 2]⟩
    let st : States Rat := ⟨[1, 0], replicate 12 1⟩
    linearAttnChunks fn sh w st [(1, [1]), (2, [2, 3])] = linearAttnCore fn 1 3 sh [1, 2, 3] w st ∧
      ∃ out st', linearAttnChunks fn sh w st [(1, [1]), (2, [2, 3])] = some (.ok out, st') := by
  intro fn sh w st
  have hw : w.Fits sh := ⟨rfl, rfl, rfl, rfl, rfl, rfl, rfl, rfl, rfl⟩
  have hst : st.Fits sh := ⟨rfl, rfl⟩
  have hchunks : ∀ c ∈ [(1, [(1 : Rat)]), (2, [2, 3])], 0 < c.1 ∧ c.2.length = c.1 * sh.hidden := by
    decide
  have hall := linearAttnChunks_eq fn (one_pos : 0 < sh.numKHeads) hw hst hchunks
  exact ⟨hall.1, hall.2 (by decide) (by decide)⟩

end CompileForge.Runtime.LinearAttn
