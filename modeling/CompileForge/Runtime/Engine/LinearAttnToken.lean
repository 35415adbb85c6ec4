/-
  One token of linear attention as a step on the two carried states.
-/

import CompileForge.Runtime.Engine.LinearAttn

namespace CompileForge.Runtime.LinearAttn

open Lib List

variable {R : Type} [Field R] [LinearOrder R]

/-- One row of `sgemmTransb`. -/
def gemmRow (w : List R) (n k : Nat) (x : List R) : List R :=
  (range n).map fun j => dot x (slice w (j * k) k)

variable (sh : Shape)

def Shape.window (conv qkv : List R) : List R :=
  grid sh.qkvChannels sh.convKernel fun c j =>
    if j + 1 < sh.convKernel then conv.getD (c * sh.convKernel + (j + 1)) 0 else qkv.getD c 0

variable (fn : Elementary R) (sh : Shape) (w : Weights R)

def mixRow (window : List R) : List R :=
  (range sh.qkvChannels).map fun c =>
    silu fn ((range sh.convKernel).map fun j =>
      w.convW.getD (c * sh.convKernel + j) 0 * window.getD (c * sh.convKernel + j) 0).sum

/-- The key heads of a token for the value heads. -/
def expandRow (q : List R) : List R :=
  if 1 < sh.repeats then
    (range sh.numKHeads).flatMap fun kh => (range sh.repeats).flatMap fun _ =>
      slice q (kh * sh.keyDim) sh.keyDim
  else q

def tokenHead (mixed a b : List R) (h : Nat) (block : List R) : List R × List R :=
  deltaStep fn sh.keyDim sh.valueDim true block
    (slice (expandRow sh (slice mixed 0 sh.keyTotal)) (h * sh.keyDim) sh.keyDim)
    (slice (expandRow sh (slice mixed sh.keyTotal sh.keyTotal)) (h * sh.keyDim) sh.keyDim)
    (slice (slice mixed (2 * sh.keyTotal) sh.valueTotal) (h * sh.valueDim) sh.valueDim)
    (gate fn w (a.getD h 0) h) (sigmoid fn (b.getD h 0))

def Shape.block (recurrent : List R) (h : Nat) : List R :=
  slice recurrent (h * (sh.keyDim * sh.valueDim)) (sh.keyDim * sh.valueDim)

/-- Only the convolution window and the head blocks reach from one token to the next. -/
def tokenStep (st : States R) (x : List R) : States R × List R :=
  let window := sh.window st.conv (gemmRow w.qkvW sh.qkvChannels sh.hidden x)
  let head := fun h => tokenHead fn sh w (mixRow fn sh w window)
    (gemmRow w.aW sh.numVHeads sh.hidden x) (gemmRow w.bW sh.numVHeads sh.hidden x) h
    (sh.block st.recurrent h)
  let z := gemmRow w.zW sh.valueTotal sh.hidden x
  let normalized := (range sh.numVHeads).flatMap fun h =>
    normRow fn sh w (head h).2 (slice z (h * sh.valueDim) sh.valueDim)
  (⟨(range sh.numVHeads).flatMap fun h => (head h).1, window⟩,
    gemmRow w.outW sh.hidden sh.valueTotal normalized)

/-! ## Sizes -/

section

omit [LinearOrder R]

@[simp] theorem length_gemmRow (w : List R) (n k : Nat) (x : List R) :
    (gemmRow w n k x).length = n := by
  rw [gemmRow, length_map, length_range]

@[simp] theorem length_mixRow (w : Weights R) (window : List R) :
    (mixRow fn sh w window).length = sh.qkvChannels := by
  rw [mixRow, length_map, length_range]

@[simp] theorem length_normRow (w : Weights R)
    (core z : List R) : (normRow fn sh w core z).length = sh.valueDim := by
  rw [normRow, length_map, length_range]

@[simp] theorem length_deltaStep (keyDim valueDim : Nat) (norm : Bool)
    (block q k v : List R) (g beta : R) :
    (deltaStep fn keyDim valueDim norm block q k v g beta).1.length = keyDim * valueDim ∧
      (deltaStep fn keyDim valueDim norm block q k v g beta).2.length = valueDim := by
  constructor
  · exact length_grid _ _ _
  · exact (length_map _).trans length_range

end

structure Weights.Fits (w : Weights R) (sh : Shape) : Prop where
  qkvW : w.qkvW.length = sh.qkvChannels * sh.hidden
  zW : w.zW.length = sh.valueTotal * sh.hidden
  bW : w.bW.length = sh.numVHeads * sh.hidden
  aW : w.aW.length = sh.numVHeads * sh.hidden
  convW : w.convW.length = sh.qkvChannels * sh.convKernel
  aLog : w.aLog.length = sh.numVHeads
  dtBias : w.dtBias.length = sh.numVHeads
  normW : w.normW.length = sh.valueDim
  outW : w.outW.length = sh.hidden * sh.valueTotal

structure States.Fits (st : States R) (sh : Shape) : Prop where
  recurrent : st.recurrent.length = sh.stateLen
  conv : st.conv.length = sh.qkvChannels * sh.convKernel

theorem stateLen_eq : sh.stateLen = sh.numVHeads * (sh.keyDim * sh.valueDim) := Nat.mul_assoc ..

theorem qkvChannels_eq : sh.qkvChannels = 2 * sh.keyTotal + sh.valueTotal := by
  unfold Shape.qkvChannels Shape.keyTotal Shape.valueTotal
  rw [Nat.mul_comm 2]

theorem tokenStep_fits (w : Weights R) (st : States R)
    (x : List R) : (tokenStep fn sh w st x).1.Fits sh := by
  refine ⟨?_, length_grid _ _ _⟩
  rw [stateLen_eq]
  exact length_rows fun h _ => (length_deltaStep ..).1

end CompileForge.Runtime.LinearAttn
