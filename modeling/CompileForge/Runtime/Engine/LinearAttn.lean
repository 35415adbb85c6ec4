/-
  Gated DeltaNet linear attention (`runtime/src/engine/linear_attn.rs`) in exact
  arithmetic: `f32` is an ordered field, `exp`, `ln` and `sqrt` are parameters, `usize`
  does not overflow.  A loop nest that fills a buffer is the list of its entries in the
  layout of the source.
-/

import CompileForge.Lib.RowMajor
import CompileForge.Lib.Stream
import Mathlib.Algebra.Field.Basic
import Mathlib.Algebra.Field.Rat
import Mathlib.Algebra.Order.Ring.Rat

namespace CompileForge.Runtime

open Lib List

/-- The real functions the kernels call. -/
structure Elementary (R : Type) where
  exp : R → R
  ln : R → R
  sqrt : R → R

namespace LinearAttn

/-- `anyhow::ensure!`. -/
def ensure (condition : Prop) [Decidable condition] (message : String) : Except String Unit :=
  if condition then .ok () else .error message

variable {R : Type} [Field R] [LinearOrder R]

/-! ## Primitives -/

def l2Eps : R := 1 / 1000000

def dot (a b : List R) : R := ((a.zip b).map fun p => p.1 * p.2).sum

/-- `sgemm_transb` is the matrix product. -/
def sgemmTransb (a : List R) (m n k : Nat) (b : List R) : List R :=
  grid m n fun i j => dot (slice a (i * k) k) (slice b (j * k) k)

variable (fn : Elementary R)

def l2normRow (row : List R) : List R :=
  let norm := fn.sqrt (row.map fun x => x * x).sum + l2Eps
  row.map (· / norm)

def silu (x : R) : R := x / (1 + fn.exp (-x))

/-! ## The gated delta rule -/

/-- One token of one head: the block of the state after it, and its output row. -/
def deltaStep (keyDim valueDim : Nat) (useQkL2norm : Bool)
    (state q k v : List R) (g beta : R) : List R × List R :=
  let scale := 1 / fn.sqrt (keyDim : R)
  let qScaled := (if useQkL2norm then l2normRow fn q else q).map (· * scale)
  let kNorm := if useQkL2norm then l2normRow fn k else k
  let decayed := state.map (· * fn.exp g)
  let kvMem := fun vd => ((range keyDim).map fun kd =>
    decayed.getD (kd * valueDim + vd) 0 * kNorm.getD kd 0).sum
  let delta := fun vd => (v.getD vd 0 - kvMem vd) * beta
  let state := grid keyDim valueDim fun kd vd =>
    decayed.getD (kd * valueDim + vd) 0 + kNorm.getD kd 0 * delta vd
  (state, (range valueDim).map fun vd => ((range keyDim).map fun kd =>
    state.getD (kd * valueDim + vd) 0 * qScaled.getD kd 0).sum)

/-- The loop over `s` for one head of one batch entry. -/
def headLoop (seq heads keyDim valueDim : Nat) (q k v g beta : List R)
    (useQkL2norm : Bool) (state : List R) (b h : Nat) : List R × List (List R) :=
  run (fun block s =>
      let row := (b * seq + s) * heads + h
      deltaStep fn keyDim valueDim useQkL2norm block (slice q (row * keyDim) keyDim)
        (slice k (row * keyDim) keyDim) (slice v (row * valueDim) valueDim) (g.getD row 0)
        (beta.getD row 0))
    (slice state ((b * heads + h) * (keyDim * valueDim)) (keyDim * valueDim)) (range seq)

/-- Lengths are checked first.  The block of each head is threaded through its own recurrence; the
    heads touch disjoint blocks. -/
def gatedDeltaRuleChecked (batch seq heads keyDim valueDim : Nat)
    (q k v g beta : List R) (initialState : Option (List R))
    (outputFinalState useQkL2norm : Bool) : Except String (List R × Option (List R)) := do
  let qLen := batch * seq * heads * keyDim
  let vLen := batch * seq * heads * valueDim
  let gLen := batch * seq * heads
  let stateLen := batch * heads * keyDim * valueDim
  ensure (q.length = qLen) s!"q length {q.length} != {qLen}"
  ensure (k.length = qLen) s!"k length {k.length} != {qLen}"
  ensure (v.length = vLen) s!"v length {v.length} != {vLen}"
  ensure (g.length = gLen) s!"g length {g.length} != {gLen}"
  ensure (beta.length = gLen) s!"beta length {beta.length} != {gLen}"
  match initialState with
  | some st =>
    ensure (st.length = stateLen) s!"initial_state length {st.length} != {stateLen}"
  | none => .ok ()
  let state := initialState.getD (replicate stateLen 0)
  let loops := headLoop fn seq heads keyDim valueDim q k v g beta useQkL2norm state
  let out := (range batch).flatMap fun b => (range seq).flatMap fun s =>
    (range heads).flatMap fun h => (loops b h).2.getD s []
  let final := (range batch).flatMap fun b => (range heads).flatMap fun h =>
    (loops b h).1
  .ok (out, if outputFinalState then some final else none)

/-- The input of the convolution with the state in front of it. -/
def effectiveInput (kernel seq : Nat) (state x : List R) (row idx : Nat) : R :=
  if idx < kernel then state.getD (row * kernel + idx) 0
  else if idx - kernel < seq then x.getD (row * seq + (idx - kernel)) 0
  else 0

/-- Causal depthwise 1D convolution; also the new state. -/
def causalConv1d (batch channels seq kernel : Nat) (x : List R)
    (state : Option (List R)) (weight : List R) (bias : Option (List R)) (newState : List R)
    (activationSilu : Bool) : Except String (List R × List R) := do
  ensure (x.length = batch * channels * seq) "conv x shape mismatch"
  ensure (weight.length = channels * kernel) "conv weight shape mismatch"
  ensure (newState.length = batch * channels * kernel) "conv new_state shape mismatch"
  match state with
  | some s => ensure (s.length = batch * channels * kernel) "conv state shape mismatch"
  | none => .ok ()
  match bias with
  | some bs => ensure (bs.length = channels) "conv bias shape mismatch"
  | none => .ok ()
  let acc := fun row c t =>
    match state with
    | some st => ((range kernel).map fun j =>
      weight.getD (c * kernel + j) 0 * effectiveInput kernel seq st x row (t + 1 + j)).sum
    | none => ((range kernel).map fun j =>
      if kernel ≤ t + 1 + j ∧ t + 1 + j - kernel < seq then
        weight.getD (c * kernel + j) 0 * x.getD (row * seq + (t + 1 + j - kernel)) 0
      else 0).sum
  let biased := fun row c t =>
    match bias with
    | some bs => acc row c t + bs.getD c 0
    | none => acc row c t
  let out := (range batch).flatMap fun b => grid channels seq fun c t =>
    let o := biased (b * channels + c) c t
    if activationSilu then silu fn o else o
  let carried := (range batch).flatMap fun b => grid channels kernel fun c j =>
    let row := b * channels + c
    match state with
    | some st =>
      -- the last `kernel` of `kernel + seq` inputs
      let idx := kernel + seq - kernel + j
      if idx < kernel then st.getD (row * kernel + idx) 0
      else x.getD (row * seq + (idx - kernel)) 0
    | none =>
      if kernel ≤ seq then x.getD (row * seq + (seq - kernel + j)) 0
      else if j < kernel - seq then 0
      else x.getD (row * seq + (j - (kernel - seq))) 0
  .ok (out, carried)

/-! ## The attention core -/

structure Shape where
  hidden : Nat
  numKHeads : Nat
  numVHeads : Nat
  keyDim : Nat
  valueDim : Nat
  convKernel : Nat
deriving DecidableEq, Repr

namespace Shape

variable (sh : Shape)

def keyTotal : Nat := sh.numKHeads * sh.keyDim

def valueTotal : Nat := sh.numVHeads * sh.valueDim

def qkvChannels : Nat := sh.numKHeads * sh.keyDim * 2 + sh.numVHeads * sh.valueDim

def stateLen : Nat := sh.numVHeads * sh.keyDim * sh.valueDim

/-- How often a key head is repeated. -/
def repeats : Nat :=
  if sh.numVHeads % sh.numKHeads = 0 then sh.numVHeads / sh.numKHeads else 1

end Shape

structure Weights (R : Type) where
  qkvW : List R
  zW : List R
  bW : List R
  aW : List R
  convW : List R
  aLog : List R
  dtBias : List R
  normW : List R
  outW : List R

/-- The two states a call updates in place. -/
structure States (R : Type) where
  recurrent : List R
  conv : List R
deriving DecidableEq

def toChannels (batch seq channels : Nat) (qkv : List R) : List R :=
  (range batch).flatMap fun bb => grid channels seq fun c s =>
    qkv.getD ((bb * seq + s) * channels + c) 0

def toTokens (batch seq channels : Nat) (convOut : List R) : List R :=
  (range batch).flatMap fun bb => grid seq channels fun s c =>
    convOut.getD ((bb * channels + c) * seq + s) 0

/-- Columns `off` to `off + len` of a matrix of the given width. -/
def columns (m width off len : Nat) (flat : List R) : List R :=
  (range m).flatMap fun r => slice flat (r * width + off) len

variable (sh : Shape)

/-- Each head of the keys is shared by as many heads of the values. -/
def repeatHeads (m : Nat) (q : List R) : List R :=
  (range m).flatMap fun r => (range sh.numKHeads).flatMap fun kh =>
    (range sh.repeats).flatMap fun _ => slice q (r * sh.keyTotal + kh * sh.keyDim) sh.keyDim

/-- `q_exp` and `k_exp`; `copy_from_slice` panics between different lengths. -/
def expandHeads (m : Nat) (q : List R) : Option (List R) :=
  if 1 < sh.repeats then some (repeatHeads sh m q)
  else if q.length = m * sh.numVHeads * sh.keyDim then some q
  else none

/-- `-(a_log.exp()) * softplus(a + dt_bias)`. -/
def gate (w : Weights R) (a : R) (h : Nat) : R :=
  let av := a + w.dtBias.getD h 0
  let decay := -fn.exp (w.aLog.getD h 0)
  let sp := if 20 < av then av else fn.ln (1 + fn.exp av)
  decay * sp

def sigmoid (x : R) : R := 1 / (1 + fn.exp (-x))

/-- The gated RMS norm of one head of one token. -/
def normRow (w : Weights R) (core z : List R) : List R :=
  let sq := ((range sh.valueDim).map fun d => core.getD d 0 * core.getD d 0).sum
  let rstd := 1 / fn.sqrt (sq / (sh.valueDim : R) + 1 / 1000000)
  (range sh.valueDim).map fun d =>
    core.getD d 0 * rstd * w.normW.getD d 0 * silu fn (z.getD d 0)

def gatedRmsNorm (w : Weights R) (m : Nat) (core z : List R) : List R :=
  (range m).flatMap fun r => (range sh.numVHeads).flatMap fun h =>
    let base := r * sh.valueTotal + h * sh.valueDim
    normRow fn sh w (slice core base sh.valueDim) (slice z base sh.valueDim)

def checkShapes (m : Nat) (x : List R) (w : Weights R) (st : States R) : Except String Unit := do
  ensure (x.length = m * sh.hidden) "linear_attn x shape mismatch"
  ensure (w.qkvW.length = sh.qkvChannels * sh.hidden) "qkv weight shape mismatch"
  ensure (w.zW.length = sh.valueTotal * sh.hidden) "z weight shape mismatch"
  ensure (w.bW.length = sh.numVHeads * sh.hidden) "b weight shape mismatch"
  ensure (w.aW.length = sh.numVHeads * sh.hidden) "a weight shape mismatch"
  ensure (w.convW.length = sh.qkvChannels * sh.convKernel) "conv weight shape mismatch"
  ensure (w.aLog.length = sh.numVHeads ∧ w.dtBias.length = sh.numVHeads)
    "a_log/dt_bias shape mismatch"
  ensure (w.normW.length = sh.valueDim) "norm weight shape mismatch"
  ensure (w.outW.length = sh.hidden * sh.valueTotal) "out weight shape mismatch"
  ensure (st.recurrent.length = sh.stateLen) "recurrent state shape mismatch"
  ensure (st.conv.length = sh.qkvChannels * sh.convKernel) "conv state shape mismatch"

/-- Qwen3.5 GatedDeltaNet attention core: the output and the states it leaves. -/
def linearAttnCore (batch seq : Nat) (sh : Shape) (x : List R)
    (w : Weights R) (st : States R) : Option (Except String (List R) × States R) :=
  let m := batch * seq
  match checkShapes sh m x w st with
  | .error e => some (.error e, st)
  | .ok () =>
    let qkv := sgemmTransb x m sh.qkvChannels sh.hidden w.qkvW
    let z := sgemmTransb x m sh.valueTotal sh.hidden w.zW
    let b := sgemmTransb x m sh.numVHeads sh.hidden w.bW
    let a := sgemmTransb x m sh.numVHeads sh.hidden w.aW
    let convX := toChannels batch seq sh.qkvChannels qkv
    match causalConv1d fn batch sh.qkvChannels seq sh.convKernel convX (some st.conv) w.convW none
        (replicate (sh.qkvChannels * sh.convKernel) 0) true with
    | .error e => some (.error e, st)
    | .ok (convOut, newConvState) =>
      let st := { st with conv := newConvState }
      let convFlat := toTokens batch seq sh.qkvChannels convOut
      let q := columns m sh.qkvChannels 0 sh.keyTotal convFlat
      let k := columns m sh.qkvChannels sh.keyTotal sh.keyTotal convFlat
      let v := columns m sh.qkvChannels (2 * sh.keyTotal) sh.valueTotal convFlat
      if sh.numKHeads = 0 then none
      else
        match expandHeads sh m q, expandHeads sh m k with
        | some qExp, some kExp =>
          let g := grid m sh.numVHeads fun r h => gate fn w (a.getD (r * sh.numVHeads + h) 0) h
          let beta := grid m sh.numVHeads fun r h => sigmoid fn (b.getD (r * sh.numVHeads + h) 0)
          match gatedDeltaRuleChecked fn batch seq sh.numVHeads sh.keyDim sh.valueDim qExp kExp v
              g beta (some st.recurrent) true true with
          | .error e => some (.error e, st)
          | .ok (core, finalState) =>
            let normalized := gatedRmsNorm fn sh w m core z
            some (.ok (sgemmTransb normalized m sh.hidden sh.valueTotal w.outW),
              { st with recurrent := finalState.getD [] })
        | _, _ => none

end LinearAttn

end CompileForge.Runtime
