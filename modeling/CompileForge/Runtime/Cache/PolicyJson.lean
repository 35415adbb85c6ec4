/-
  The cache policy as the runtime reads it from `metadata.json` (`CachePolicy::from_dict` of
  `runtime/src/cache/policy.rs`).
-/

import CompileForge.Runtime.Cache.Policy
import CompileForge.Lib.Outcome

namespace CompileForge.Runtime

open Lib

/-- `serde_json::Value`, of its numbers the integers. -/
inductive Json where
  | null
  | bool (b : Bool)
  | num (n : Int)
  | str (s : String)
  | arr (items : List Json)
  | obj (fields : List (String × Json))

namespace Json

/-- The keys of an object are distinct. -/
def asObject : Json → Option (List (String × Json))
  | obj fields => some fields
  | _ => none

def asStr : Json → Option String
  | str s => some s
  | _ => none

def asU64 : Json → Option Nat
  | num n => if 0 ≤ n ∧ n < 2 ^ 64 then some n.toNat else none
  | _ => none

def getStr (fields : List (String × Json)) (key : String) : Option String :=
  (fields.lookup key).bind asStr

def getU64 (fields : List (String × Json)) (key : String) : Option Nat :=
  (fields.lookup key).bind asU64

end Json

/-- The loop over `dims`. -/
def dimsFromJson (fields : List (String × Json)) :
    Except String (AList fun _ : String => Nat) :=
  fields.foldlM (fun dims (kv : String × Json) => do
    let n ← okOr s!"dims.{kv.1}: expected integer" kv.2.asU64
    return dims.insert kv.1 n) ∅

/-- A slab; the dtype is `float32` where it is missing. -/
def slabFromJson (sv : Json) : Except String CacheSlab := do
  let so ← okOr "expected object in slabs array" sv.asObject
  let dimsObj ← okOr "expected dims object in slab" ((so.lookup "dims").bind Json.asObject)
  let dims ← dimsFromJson dimsObj
  let slabId ← okOr "missing slab_id" (Json.getStr so "slab_id")
  let storage ← okOr "missing storage" (Json.getStr so "storage")
  let layout ← okOr "missing layout" (Json.getStr so "layout")
  return {
    dims := dims
    slabId := slabId
    storage := storage
    layout := layout
    dtype := (Json.getStr so "dtype").getD "float32" }

/-- An intercept, `none` for one that is skipped: both indices have to be there. -/
def interceptFromJson (iv : Json) : Except String (Option InterceptSpec) := do
  let io ← okOr "expected object in intercepts array" iv.asObject
  match Json.getU64 io "func_index", Json.getU64 io "output_index" with
  | some funcIndex, some outputIndex =>
    let slabId ← okOr "missing slab_id in intercept" (Json.getStr io "slab_id")
    let opName ← okOr "missing op_name in intercept" (Json.getStr io "op_name")
    let direction ← okOr "missing direction in intercept" (Json.getStr io "direction")
    let source ← okOr "missing source in intercept" (Json.getStr io "source")
    return some {
      slabId := slabId
      opName := opName
      direction := direction
      source := source
      layer := (Json.getStr io "layer").getD "sequential"
      funcIndex := funcIndex
      outputIndex := outputIndex }
  | _, _ => return none

def arrayField (fields : List (String × Json)) (key message : String) :
    Except String (List Json) :=
  match fields.lookup key with
  | some (.arr items) => .ok items
  | none => .ok []
  | some _ => .error message

/-- Where several dims are no integers, which of them the error names depends on the order the
    object is walked in. -/
def CachePolicy.fromDict : Json → Except String CachePolicy
  | .null => .ok .none
  | val => do
    let fields ← okOr "expected JSON object for CachePolicy" val.asObject
    let slabs ← (← arrayField fields "slabs" "slabs must be an array").mapM slabFromJson
    let intercepts ←
      (← arrayField fields "intercepts" "intercepts must be an array").mapM interceptFromJson
    return {
      slabs := slabs
      intercepts := intercepts.filterMap id
      blockSize := (Json.getU64 fields "block_size").getD 16
      maxRequests := (Json.getU64 fields "max_requests").getD 256 }

end CompileForge.Runtime
