/-
  The states of one call of `linear_attn_core` on a batch of one, token by token, for fixed
  weights, initial states and input.
-/

import CompileForge.Runtime.Engine.LinearAttnToken

namespace CompileForge.Runtime.LinearAttn

open Lib List

variable {R : Type} [Field R] [LinearOrder R]

/-! ## The states before each token -/

section Trace

variable (fn : Elementary R) (sh : Shape) (w : Weights R) (st : States R) (x : List R) (s : Nat)

def rowAt : List R := slice x (s * sh.hidden) sh.hidden

def qkvAt : List R := gemmRow w.qkvW sh.qkvChannels sh.hidden (rowAt sh x s)

/-- Input `idx` of a channel behind the carried window. -/
def inputAt (c idx : Nat) : R :=
  if idx < sh.convKernel then st.conv.getD (c * sh.convKernel + idx) 0
  else (qkvAt sh w x (idx - sh.convKernel)).getD c 0

/-- The convolution window before token `s`. -/
def convAt : List R :=
  grid sh.qkvChannels sh.convKernel fun c j => inputAt sh w st x c (s + j)

def mixedAt : List R := mixRow fn sh w (convAt sh w st x (s + 1))

def headAt (h : Nat) (block : List R) (s : Nat) : List R × List R :=
  tokenHead fn sh w (mixedAt fn sh w st x s) (gemmRow w.aW sh.numVHeads sh.hidden (rowAt sh x s))
    (gemmRow w.bW sh.numVHeads sh.hidden (rowAt sh x s)) h block

/-- The block of head `h` before token `s`. -/
def blockAt (h s : Nat) : List R :=
  (run (headAt fn sh w st x h) (sh.block st.recurrent h) (range s)).1

/-- One `tokenStep` leads from the states before a token to those before the next. -/
def stateAt : States R :=
  ⟨(range sh.numVHeads).flatMap fun h => blockAt fn sh w st x h s, convAt sh w st x s⟩

def coreAt (s h : Nat) : List R := (headAt fn sh w st x h (blockAt fn sh w st x h s) s).2

def normalizedAt : List R :=
  (range sh.numVHeads).flatMap fun h => normRow fn sh w (coreAt fn sh w st x s h)
    (slice (gemmRow w.zW sh.valueTotal sh.hidden (rowAt sh x s)) (h * sh.valueDim) sh.valueDim)

def outAt : List R :=
  gemmRow w.outW sh.hidden sh.valueTotal (normalizedAt fn sh w st x s)

end Trace

variable {fn : Elementary R} {sh : Shape} {w : Weights R} {st : States R} {x : List R}

omit [LinearOrder R] in
@[simp] theorem length_mixedAt (s : Nat) :
    (mixedAt fn sh w st x s).length = sh.qkvChannels := length_mixRow ..

@[simp] theorem length_coreAt (s h : Nat) :
    (coreAt fn sh w st x s h).length = sh.valueDim := (length_deltaStep ..).2

theorem length_blockAt (hst : st.Fits sh) {h : Nat} (hh : h < sh.numVHeads) (s : Nat) :
    (blockAt fn sh w st x h s).length = sh.keyDim * sh.valueDim := by
  refine run_invariant (P := fun block : List R => block.length = sh.keyDim * sh.valueDim) ?_ ?_ _
  · intro block s _
    exact (length_deltaStep ..).1
  · refine length_slice ?_
    rw [hst.recurrent, stateLen_eq, ← Nat.succ_mul]
    exact Nat.mul_le_mul_right _ hh

section

omit [LinearOrder R]

theorem convAt_zero (hst : st.Fits sh) : convAt sh w st x 0 = st.conv := by
  rw [← grid_getD hst.conv 0]
  refine grid_congr fun c _ j hj => ?_
  rw [zero_add, inputAt, if_pos hj]

theorem window_convAt (s : Nat) :
    sh.window (convAt sh w st x s) (qkvAt sh w x s) = convAt sh w st x (s + 1) := by
  refine grid_congr fun c hc j hj => ?_
  by_cases hlast : j + 1 < sh.convKernel
  · rw [if_pos hlast, convAt, getD_grid _ hc hlast, Nat.add_right_comm s 1 j, add_assoc]
  · -- the last place takes the new input
    have hidx : s + 1 + j - sh.convKernel = s := by omega
    rw [if_neg hlast, inputAt, if_neg (by omega), hidx]

end

theorem stateAt_zero (hst : st.Fits sh) : stateAt fn sh w st x 0 = st := by
  have hblocks : (range sh.numVHeads).flatMap (sh.block st.recurrent) = st.recurrent := by
    refine flatMap_slices st.recurrent sh.numVHeads ?_
    rw [hst.recurrent, stateLen_eq]
  have hrec : ((range sh.numVHeads).flatMap fun h => blockAt fn sh w st x h 0)
      = st.recurrent := hblocks
  rw [stateAt, hrec, convAt_zero hst]

theorem tokenStep_stateAt (hst : st.Fits sh) (s : Nat) :
    tokenStep fn sh w (stateAt fn sh w st x s) (rowAt sh x s) =
      (stateAt fn sh w st x (s + 1), outAt fn sh w st x s) := by
  have hwindow : sh.window (stateAt fn sh w st x s).conv
      (gemmRow w.qkvW sh.qkvChannels sh.hidden (rowAt sh x s)) = convAt sh w st x (s + 1) :=
    window_convAt s
  have hblock : ∀ h < sh.numVHeads,
      sh.block (stateAt fn sh w st x s).recurrent h = blockAt fn sh w st x h s := by
    intro h hh
    exact slice_rows (fun i hi => length_blockAt hst hi s) hh
  have hhead : ∀ h < sh.numVHeads, tokenHead fn sh w (mixedAt fn sh w st x s)
      (gemmRow w.aW sh.numVHeads sh.hidden (rowAt sh x s))
      (gemmRow w.bW sh.numVHeads sh.hidden (rowAt sh x s)) h
      (sh.block (stateAt fn sh w st x s).recurrent h) =
        headAt fn sh w st x h (blockAt fn sh w st x h s) s := by
    intro h hh
    rw [hblock h hh, headAt]
  unfold tokenStep
  simp only [hwindow]
  refine Prod.ext (congrArg₂ States.mk ?_ rfl) ?_
  · refine flatMap_range_congr fun h hh => ?_
    rw [blockAt, run_range_succ]
    exact congrArg Prod.fst (hhead h hh)
  · refine congrArg (gemmRow w.outW sh.hidden sh.valueTotal) ?_
    refine flatMap_range_congr fun h hh => ?_
    exact congrArg (normRow fn sh w · _) (congrArg Prod.snd (hhead h hh))

theorem run_tokenStep (hst : st.Fits sh) (seq : Nat) :
    run (tokenStep fn sh w) st ((range seq).map (rowAt sh x)) =
      (stateAt fn sh w st x seq, (range seq).map (outAt fn sh w st x)) := by
  have htrace := @run_of_trace _ _ _ (tokenStep fn sh w) (stateAt fn sh w st x) (rowAt sh x)
    (outAt fn sh w st x) 0 seq fun s _ _ => tokenStep_stateAt hst s
  rw [stateAt_zero hst, ← range_eq_range', zero_add] at htrace
  exact htrace

end CompileForge.Runtime.LinearAttn
