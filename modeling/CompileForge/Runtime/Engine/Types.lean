/-
  The data types the scheduler and its callers share
  (`runtime/src/engine/types.rs`).
-/

import Mathlib.Algebra.Group.Nat.Defs
import Mathlib.Data.List.Basic

namespace CompileForge.Runtime

open List

inductive RequestState where
  | waiting
  | prefill
  | decode
  | finished
deriving DecidableEq, Repr

/-- Counts and cursors are `usize`, kept as `Nat`. -/
structure Request where
  requestId : String
  promptTokens : List UInt32
  outputTokens : List UInt32
  state : RequestState
  priority : Int
  prefillPos : Nat
  maxTokens : Nat
  stopTokenIds : List UInt32
deriving DecidableEq, Repr

namespace Request

def new (requestId : String) (promptTokens : List UInt32) (priority : Int) (maxTokens : Nat)
    (stopTokenIds : List UInt32) : Request :=
  { requestId, promptTokens, outputTokens := [], state := .waiting, priority, prefillPos := 0,
    maxTokens, stopTokenIds }

variable (r : Request)

def isFinished : Bool := r.state = .finished

def tokensRemaining : Nat := r.promptTokens.length - r.prefillPos

def markFinished : Request := { r with state := .finished }

def appendToken (tokenId : UInt32) : Request :=
  { r with outputTokens := r.outputTokens ++ [tokenId] }

end Request

structure ScheduledRequest where
  requestId : String
  inputIds : List UInt32
  positions : List UInt32
  state : RequestState
  blockTable : List Nat
  useKvCache : Bool
  kvCacheBlockTable : List Nat
  nTokens : Nat
deriving DecidableEq, Repr

/-- The output of one `schedule()` call. -/
structure Batch where
  requests : List ScheduledRequest
  totalTokens : Nat
deriving DecidableEq, Repr

def Batch.empty : Batch := { requests := [], totalTokens := 0 }

structure PrefixCacheHit where
  requestId : String
  matchedBlocks : List Nat
  matchedTokens : Nat
deriving DecidableEq, Repr

/-- Token ids and positions are `u32`; `as u32` casts are `UInt32.ofNat`. -/
def u32Range (startPos endPos : Nat) : List UInt32 :=
  let first := (UInt32.ofNat startPos).toNat
  let last := (UInt32.ofNat endPos).toNat
  (range' first (last - first)).map UInt32.ofNat

variable {startPos endPos : Nat}

theorem u32Range_eq (hle : startPos ≤ endPos) (h : endPos < 2 ^ 32) :
    u32Range startPos endPos = (range' startPos (endPos - startPos)).map UInt32.ofNat := by
  have hstart : (UInt32.ofNat startPos).toNat = startPos :=
    UInt32.toNat_ofNat_of_lt' (Nat.lt_of_le_of_lt hle h)
  have hend : (UInt32.ofNat endPos).toNat = endPos := UInt32.toNat_ofNat_of_lt' h
  rw [u32Range, hstart, hend]

theorem toNat_u32Range (hle : startPos ≤ endPos) (h : endPos < 2 ^ 32) :
    (u32Range startPos endPos).map UInt32.toNat = range' startPos (endPos - startPos) := by
  rw [u32Range_eq hle h, List.map_map]
  refine (map_congr_left fun p hp => ?_).trans (List.map_id _)
  have hlt : p < 2 ^ 32 := by
    have := mem_range'_1.1 hp
    omega
  exact UInt32.toNat_ofNat_of_lt' hlt

theorem length_u32Range (hle : startPos ≤ endPos) (h : endPos < 2 ^ 32) :
    (u32Range startPos endPos).length = endPos - startPos := by
  rw [u32Range_eq hle h, length_map, length_range']

end CompileForge.Runtime
