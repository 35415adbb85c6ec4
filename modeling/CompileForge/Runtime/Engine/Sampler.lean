/-
  Token selection (`runtime/src/engine/sampler.rs`).
-/

import CompileForge.Runtime.Cache.Block

namespace CompileForge.Runtime

namespace F32

def negInfinity : F32 := ⟨0xff800000⟩

def one : F32 := ⟨0x3f800000⟩

variable (v : F32)

def exponent : UInt32 := (v.bits >>> 23) &&& 0xff

def magnitude : UInt32 := v.bits &&& 0x7fffffff

def isFinite : Bool := v.exponent ≠ 0xff

def isNan : Bool := 0x7f800000 < v.magnitude

/-- The value order of numbers that are not NaN; both zeros are equal. -/
def key : Int :=
  if v.bits < 0x80000000 then v.magnitude.toNat else -v.magnitude.toNat

/-- The greedy paths only compare; comparisons are those of the bit patterns. -/
def lt (a b : F32) : Bool := !a.isNan && !b.isNan && decide (a.key < b.key)

def le (a b : F32) : Bool := !a.isNan && !b.isNan && decide (a.key ≤ b.key)

end F32

/-! ## Sampling -/

structure SamplerConfig where
  temperature : F32
  topP : F32
  topK : Nat
  maxTokens : Option Nat
deriving DecidableEq, Repr

namespace SamplerConfig

def default : SamplerConfig := { temperature := .one, topP := .one, topK := 0, maxTokens := none }

def greedy : SamplerConfig := { temperature := 0, topP := .one, topK := 0, maxTokens := none }

def validate (config : SamplerConfig) : Except String Unit :=
  if config.temperature.lt 0 then .error "temperature must be >= 0"
  else if config.topP.lt 0 || F32.one.lt config.topP then .error "top_p must be in [0, 1]"
  else .ok ()

end SamplerConfig

namespace Sampler

/-- The running maximum of the argmax loops: the first of the greatest values. -/
def scan (best : F32 × UInt32) (entry : F32 × Nat) : F32 × UInt32 :=
  if best.1.lt entry.1 then (entry.1, UInt32.ofNat entry.2) else best

def greedy (logits : List F32) : UInt32 := (logits.zipIdx.foldl scan (.negInfinity, 0)).2

/-- What is drawn at a positive temperature (scaling, filters, softmax and the generator) is a
    parameter. -/
def sample {ω : Type} (draw : ω → List F32 → SamplerConfig → UInt32 × ω) (state : ω)
    (logits : List F32) (config : SamplerConfig) : UInt32 × ω :=
  if logits.isEmpty then (0, state)
  else if logits.any (!·.isFinite) then
    -- greedy on the finite entries
    (((logits.zipIdx.filter (·.1.isFinite)).foldl scan (.negInfinity, 0)).2, state)
  else if config.temperature.le 0 then (greedy logits, state)
  else draw state logits config

example : greedy [⟨0x3f800000⟩, ⟨0x40000000⟩, ⟨0xc0400000⟩] = 1 := by decide

end Sampler

end CompileForge.Runtime
