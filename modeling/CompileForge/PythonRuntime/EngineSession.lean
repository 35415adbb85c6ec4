/-
  Histories of an engine: requests are added and steps are taken.
-/

import CompileForge.PythonRuntime.SlabRows
import CompileForge.Runtime.Engine.DecodePositions

namespace CompileForge.PythonRuntime

open Lib CompileForge.Runtime List

variable {Row Logits : Type} {heap : MaxHeap QueueEntry QueueEntry.rank}

structure Submission where
  requestId : String
  promptTokens : List UInt32
  maxTokens : Nat
  stopTokenIds : List UInt32
deriving DecidableEq, Repr

inductive EngineEvent where
  | addRequest (sub : Submission)
  | step
deriving DecidableEq, Repr

def tokensOf (results : List GenerationResult) (rid : String) : List UInt32 :=
  (results.filter fun r => r.requestId = rid).flatMap GenerationResult.newTokens

def FinishedIn (results : List GenerationResult) (rid : String) : Prop :=
  ∃ r ∈ results, r.requestId = rid ∧ r.isFinished = true
deriving Decidable

/-- The engine, what was submitted and every result emitted. -/
structure Session (heap : MaxHeap QueueEntry QueueEntry.rank) (Row : Type) where
  engine : Engine heap Row
  submitted : List Submission
  results : List GenerationResult

/-! ## Steps -/

namespace Engine

variable (e : Engine heap Row)

def admission : Scheduler heap × BlockManager := e.sched.admitRequests e.bm e.buildCacheHits

def admitted : List Request :=
  e.admission.1.running.drop (e.sched.running.filter (!·.isFinished)).length

def slots : List Slot := (e.admission.1.buildBatch e.admission.2).1

/-- Every allocation succeeds, no prompt is cut into chunks, and positions fit. -/
def Undisturbed : Prop :=
  (∀ slot ∈ e.slots, slot.result ≠ .skipped .outOfMemory) ∧
    (∀ sr ∈ e.scheduleBatch.2, sr.state ≠ .prefill) ∧
    ∀ req ∈ e.admission.1.running, req.sequence.length < 2 ^ 32
deriving Decidable

/-- The hit of an admitted request leaves nothing out that the executor needs. -/
def HitServed (ex : Executor Row Logits) (req : Request) : Prop :=
  (e.matchPrefix req.promptTokens).2 = 0 ∨ (if ex.usesCacheManager then
      req.promptTokens.length ≤ (e.matchPrefix req.promptTokens).2 + 1 ∧
        (e.matchPrefix req.promptTokens).2 =
          ex.blockSize * (e.matchPrefix req.promptTokens).1.length ∧
        ∀ p < (e.matchPrefix req.promptTokens).2,
          RowAt ex.blockSize (e.matchPrefix req.promptTokens).1 e.slab
            (ex.model.rows (placed req.promptTokens)) p
    else req.promptTokens.length ≤ (e.matchPrefix req.promptTokens).2)

instance [DecidableEq Row] (ex : Executor Row Logits) (req : Request) :
    Decidable (e.HitServed ex req) :=
  inferInstanceAs (Decidable (_ ∨ if ex.usesCacheManager then
    _ ∧ _ ∧ ∀ p < (e.matchPrefix req.promptTokens).2, _ else _))

end Engine

namespace Session

def start [Zero Row] (sched : Scheduler heap) (bm : BlockManager) (enablePrefixCache : Bool) :
    Session heap Row :=
  { engine := .new sched bm enablePrefixCache, submitted := [], results := [] }

variable [Zero Row] (ex : Executor Row Logits) (s : Session heap Row)

def apply : EngineEvent → Session heap Row
  | .addRequest sub =>
    { s with
      engine := s.engine.addRequest sub.requestId sub.promptTokens sub.maxTokens
        sub.stopTokenIds
      submitted := s.submitted ++ [sub] }
  | .step =>
    { s with
      engine := (s.engine.step ex).1
      results := s.results ++ (s.engine.step ex).2 }

/-- A new id for every request, as the monotonic clock gives, and undisturbed steps. -/
def Permitted : EngineEvent → Prop
  | .addRequest sub => sub.requestId ∉ s.submitted.map Submission.requestId
  | .step => s.engine.evictCacheIfNeeded.Undisturbed

instance (s : Session heap Row) : (e : EngineEvent) → Decidable (s.Permitted e)
  | .addRequest sub =>
    inferInstanceAs (Decidable (sub.requestId ∉ s.submitted.map Submission.requestId))
  | .step => inferInstanceAs (Decidable s.engine.evictCacheIfNeeded.Undisturbed)

def Step (e : EngineEvent) (s' : Session heap Row) : Prop :=
  s.Permitted e ∧ s' = s.apply ex e

/-- The executor can serve the hit of every request the step admits. -/
def HitsServed : EngineEvent → Prop
  | .addRequest _ => True
  | .step => ∀ req ∈ s.engine.evictCacheIfNeeded.admitted,
      s.engine.evictCacheIfNeeded.HitServed ex req

instance [DecidableEq Row] (s : Session heap Row) : (e : EngineEvent) →
    Decidable (s.HitsServed ex e)
  | .addRequest _ => isTrue trivial
  | .step => inferInstanceAs (Decidable (∀ req ∈ s.engine.evictCacheIfNeeded.admitted, _))

/-- A permitted step whose hits the executor can serve. -/
def ServedStep (e : EngineEvent) (s' : Session heap Row) : Prop :=
  (s.Permitted e ∧ s.HitsServed ex e) ∧ s' = s.apply ex e

end Session

/-! ## What a scheduled request is fed -/

section Turn

variable {cfg : SchedulerConfig} {budget : Budget} {req : Request} {bm : BlockManager}
  {turn : Turn} {sr : ScheduledRequest}

theorem after_eq_of_turned (h : Turned cfg budget req bm turn) :
    turn.slot.after =
      { req with prefillPos := turn.slot.after.prefillPos, state := turn.slot.after.state } := by
  cases h with
  | chunk =>
    dsimp only
    rw [Request.settlePrefill]
    split <;> rfl
  | _ => rfl

/-- Between steps: a waiting prompt is untouched, or lacks its last token behind a hit. -/
def AtRest (kv : Bool) (req : Request) : Prop :=
  req.state = .prefill → req.outputTokens = [] ∧
    (req.prefillPos = 0 ∨ kv = true ∧ req.prefillPos + 1 = req.promptTokens.length)

variable {tokens : List UInt32} {c : Nat}

theorem drop_placed (h : tokens.length < 2 ^ 32)
    (hc : c ≤ tokens.length) :
    (tokens.drop c).zip (u32Range c tokens.length) = (placed tokens).drop c := by
  rw [placed, u32Range_eq hc h, u32Range_eq (Nat.zero_le _) h, zip_eq_zipWith,
    zip_eq_zipWith, drop_zipWith, ← map_drop, drop_range', Nat.zero_add,
    Nat.sub_zero, mul_one]

theorem chunk_whole (hrest : req.tokensRemaining ≠ 0)
    (hwhole : (req.advance (chunkLen cfg budget req)).settlePrefill.state ≠ .prefill)
    (hstate : req.state = .prefill) :
    req.prefillPos + chunkLen cfg budget req = req.promptTokens.length ∧
      (req.advance (chunkLen cfg budget req)).settlePrefill.state = .decode := by
  have hlt : req.prefillPos < req.promptTokens.length := tokensRemaining_ne_zero_iff.1 hrest
  have hle := chunkLen_le cfg budget req
  rw [state_settlePrefill] at hwhole ⊢
  have hdone : req.promptTokens.length ≤ req.prefillPos + chunkLen cfg budget req := by
    by_contra hnot
    exact hwhole ((if_neg hnot).trans hstate)
  refine ⟨by omega, if_pos hdone⟩

theorem feedsEnd_chunk (hlt : tokens.length < 2 ^ 32)
    (hc : c < tokens.length) (hdecode : c = 0 ∨ c + 1 = tokens.length)
    (hids : sr.inputIds = tokens.drop c) (hpos : sr.positions = u32Range c tokens.length)
    (hn : sr.nTokens = tokens.length - c) : FeedsEnd sr (placed tokens) c where
  lt := by
    rw [length_placed hlt]
    exact hc
  fed_eq := by
    rw [hids, hpos, drop_placed hlt hc.le]
  positions_eq := by
    rw [hpos, toNat_u32Range hc.le hlt, length_placed hlt]
  decode := by
    rw [length_placed hlt, hn]
    omega

theorem feedsEnd_decode (hlt : tokens.length < 2 ^ 32)
    (hids : sr.inputIds = [tokens.getLast?.getD 0])
    (hpos : sr.positions = [UInt32.ofNat (tokens.length - 1)]) (hn : sr.nTokens = 1) :
    FeedsEnd sr (fedSequence tokens) ((fedSequence tokens).length - 1) := by
  have hlen := length_fedSequence hlt
  have hone : (fedSequence tokens).length - 1 + 1 = (fedSequence tokens).length := by omega
  have hsub : (fedSequence tokens).length - ((fedSequence tokens).length - 1) = 1 := by omega
  refine ⟨by omega, ?_, ?_, .inl ⟨hn, hone⟩⟩
  · rw [hids, hpos]
    cases tokens using reverseRecOn with
    | nil => rfl
    | append_singleton tokens token =>
      rw [length_append, length_singleton] at hlt
      have hfed : fedSequence (tokens ++ [token]) =
          placed tokens ++ [(token, UInt32.ofNat tokens.length)] := by
        rw [fedSequence, if_neg (by simp), placed_snoc hlt]
      have hinit : (placed tokens ++ [(token, UInt32.ofNat tokens.length)]).length - 1 =
          (placed tokens).length := by
        rw [length_append, length_singleton, Nat.add_sub_cancel]
      rw [hfed, hinit, drop_left]
      simp
  · have hsmall : tokens.length - 1 < UInt32.size := lt_of_le_of_lt (Nat.sub_le _ _) hlt
    rw [hpos, hsub, map_singleton, range'_one, hlen, UInt32.toNat_ofNat_of_lt' hsmall]
    congr 1
    omega

theorem feedsEnd_of_turned (h : Turned cfg budget req bm turn) (hkv : cfg.useKvCache = true)
    (hrest : AtRest true req) (hlt : req.sequence.length < 2 ^ 32)
    (hsr : turn.slot.scheduled? = some sr) (hwhole : sr.state ≠ .prefill) :
    turn.slot.after.state = .decode ∧ sr.requestId = req.requestId ∧
      turn.bm.blockTables.lookup req.requestId = some sr.blockTable ∧
      (fedSequence req.sequence).length ≤ turn.bm.blockSize * sr.blockTable.length ∧
      FeedsEnd sr (fedSequence req.sequence) (if req.state = .prefill then req.prefillPos
        else (fedSequence req.sequence).length - 1) := by
  have hlen := length_fedSequence hlt
  cases h with
  | @chunk hstate hremains hbudget bm' blocks hreserve hgrows hcovers =>
    cases hsr
    obtain ⟨hend, hdecode⟩ := chunk_whole hremains hwhole hstate
    obtain ⟨hnil, hpos⟩ := hrest hstate
    have hposlt : req.prefillPos < req.promptTokens.length :=
      tokensRemaining_ne_zero_iff.1 hremains
    have hseq : req.sequence = req.promptTokens := by
      rw [Request.sequence, hnil, append_nil]
    have hne : req.promptTokens ≠ [] := ne_nil_of_length_pos (Nat.zero_lt_of_lt hposlt)
    have hfed : fedSequence req.promptTokens = placed req.promptTokens := if_neg hne
    have hn : chunkLen cfg budget req = req.promptTokens.length - req.prefillPos := by omega
    rw [hseq] at hlen hlt ⊢
    rw [if_pos hstate]
    refine ⟨hdecode, rfl, hcovers.1, ?_, ?_⟩
    · rw [hlen, max_eq_right (Nat.zero_lt_of_lt hposlt)]
      exact hcovers.2
    · rw [hfed]
      refine feedsEnd_chunk hlt hposlt (hpos.imp id And.right) ?_ ?_ hn
      · show slice req.promptTokens req.prefillPos (chunkLen cfg budget req) = _
        rw [hn, slice, take_of_length_le]
        rw [length_drop]
      · show u32Range req.prefillPos (req.prefillPos + chunkLen cfg budget req) = _
        rw [hend]
  | @decodeCached hstate hbudget _ bm' blocks hreserve hgrows hcovers =>
    cases hsr
    rw [if_neg (by rw [hstate]; decide)]
    refine ⟨hstate, rfl, hcovers.1, ?_, feedsEnd_decode hlt ?_ ?_ rfl⟩
    · have hcover := hcovers.2
      have hseq : req.sequence.length = req.promptTokens.length + req.outputTokens.length :=
        length_append
      rw [hlen]
      exact le_trans (by omega) hcover
    · show [(req.outputTokens.getLast?).getD ((req.promptTokens.getLast?).getD 0)] = _
      rw [Request.sequence, getLast?_append]
      cases req.outputTokens.getLast? <;> rfl
    · show [UInt32.ofNat (req.promptTokens.length + req.outputTokens.length - 1)] = _
      rw [Request.sequence, length_append]
  | decodeFull hstate hbudget hfull htable => exact absurd (hkv.symm.trans hfull) (by decide)
  | _ => cases hsr

theorem feedsAll_of_turned (h : Turned cfg budget req bm turn) (hkv : cfg.useKvCache = false)
    (hrest : AtRest false req) (hsr : turn.slot.scheduled? = some sr)
    (hwhole : sr.state ≠ .prefill) :
    turn.slot.after.state = .decode ∧ sr.requestId = req.requestId ∧
      sr.inputIds.zip sr.positions = placed req.sequence := by
  cases h with
  | @chunk hstate hremains hbudget bm' blocks hreserve hgrows hcovers =>
    cases hsr
    obtain ⟨hend, hdecode⟩ := chunk_whole hremains hwhole hstate
    obtain ⟨hnil, hpos | ⟨hfalse, -⟩⟩ := hrest hstate
    · refine ⟨hdecode, rfl, ?_⟩
      show (slice req.promptTokens req.prefillPos (chunkLen cfg budget req)).zip
        (u32Range req.prefillPos (req.prefillPos + chunkLen cfg budget req)) = _
      have hn : chunkLen cfg budget req = req.promptTokens.length := by omega
      rw [hn, hpos, zero_add, Request.sequence, hnil, append_nil, placed, slice,
        drop_zero, take_length]
    · cases hfalse
  | decodeCached hstate hbudget hcached => exact absurd (hkv.symm.trans hcached) (by decide)
  | @decodeFull hstate hbudget _ blocks htable =>
    cases hsr
    exact ⟨hstate, rfl, rfl⟩
  | _ => cases hsr

end Turn

end CompileForge.PythonRuntime
