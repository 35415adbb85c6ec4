/-
  What a step leaves behind when one of its requests fails.

  The loop over a batch returns at the first error: the results so far are dropped,
  and the chunks of the failing request and of those behind it lie in front of
  cursors that have moved.
-/

import CompileForge.Runtime.Engine.ServedLog

namespace CompileForge.Runtime

open Lib List

variable {heap : MaxHeap QueueEntry QueueEntry.rank} {ω : Type}

/-! ## A runner that is observed -/

/-- A runner with its prompts, the log of its steps, and what its caller received. -/
structure Serving (heap : MaxHeap QueueEntry QueueEntry.rank) (ω : Type) where
  runner : InferenceRunner heap ω
  prompts : List (String × List UInt32)
  log : List ServedEntry
  reported : List StepResult

namespace Serving

variable {s s' : Serving heap ω} {backend : Backend ω} {r r' : InferenceRunner heap ω}

variable (r backend)

/-- A runner with its log and what its caller received. -/
def start : Serving heap ω := ⟨r, [], [], []⟩

/-- A call that returned; a step that fails reports nothing. -/
def call (s : Serving heap ω) : RunnerCall → Option (Serving heap ω)
  | .add inputIds sampling =>
    let added := s.runner.addRequestTokens backend inputIds sampling
    some { s with
      runner := added.2
      prompts := s.prompts ++ (added.1.toOption.map fun rid => (rid, inputIds)).toList }
  | .step sampling =>
    (s.runner.step backend sampling).map fun out =>
      { s with
        runner := out.2
        log := s.log ++ (s.runner.servedStep backend sampling).1
        reported := s.reported ++ out.1.toOption.getD [] }

def Called (s : Serving heap ω) (c : RunnerCall) (s' : Serving heap ω) :
    Prop := s.call backend c = some s'

/-- A call at which neither a chunk nor a token is lost. -/
def KeepsAll (s : Serving heap ω) : RunnerCall → Prop
  | .add .. => True
  | .step sampling => s.runner.ChunksFit ∧ s.runner.FailsClean backend sampling

variable {r backend}

instance (s : Serving heap ω) : (c : RunnerCall) → Decidable (s.KeepsAll backend c)
  | .add .. => isTrue trivial
  | .step _ => inferInstanceAs (Decidable (_ ∧ _))

/-- Recorded tokens were reported, cursors stand behind what was executed, prompts come first. -/
structure LosesNothing (s : Serving heap ω) : Prop where
  reported_eq : s.reported = resultsOf s.log
  outputs : ∀ req ∈ s.runner.liveRequests, tokensFor req.requestId s.reported = req.outputTokens
  fed : ∀ req ∈ s.runner.liveRequests,
    fedFor req.requestId s.log = req.promptTokens.take req.prefillPos
  resumes : ∀ e ∈ s.runner.emissions, e.phase = .prefill →
    ∃ prompt, (e.request.requestId, prompt) ∈ s.prompts ∧
      e.request.inputIds <+: prompt.drop (fedFor e.request.requestId s.log).length
  whole : WholeBefore s.prompts s.log

/-- The invariant of the runs that keep all. -/
structure Accounted (s : Serving heap ω) : Prop where
  logged : s.runner.Logged s.prompts s.log []
  reported_eq : s.reported = resultsOf s.log

theorem Accounted.losesNothing (h : s.Accounted) : s.LosesNothing where
  reported_eq := h.reported_eq
  outputs := h.reported_eq ▸ h.logged.outputs
  fed := fun req hreq => by simpa [chunksFor] using h.logged.fed req hreq
  resumes := h.logged.resumes
  whole := h.logged.whole

theorem accounted_start (h : r.Inv) (hempty : r.liveRequests = []) : (start r).Accounted := by
  have hnone : ∀ req ∈ r.liveRequests, False := fun req hreq => by
    rw [hempty] at hreq
    cases hreq
  refine ⟨⟨h, nodup_nil, ?_, ?_, ?_, ?_, ?_, ?_, ?_, ?_, nodup_nil, ?_⟩, rfl⟩
  · exact nofun
  · exact fun req hreq => (hnone req hreq).elim
  · exact nofun
  · exact fun req hreq => (hnone req hreq).elim
  · exact fun req hreq => (hnone req hreq).elim
  · exact fun req hreq => (hnone req (mem_append_left _ hreq)).elim
  · exact fun pre res post heq => absurd (show [] = pre ++ _ from heq) (by simp)
  · exact nofun
  · exact nofun

theorem Accounted.called (h : s.Accounted) {c : RunnerCall} (hkeeps : s.KeepsAll backend c)
    (hcall : s.Called backend c s') : s'.Accounted := by
  cases c with
  | add inputIds sampling =>
    obtain rfl : _ = s' := Option.some.inj hcall
    by_cases hne : inputIds = []
    · -- an empty prompt is refused
      subst hne
      refine ⟨?_, h.reported_eq⟩
      simpa [InferenceRunner.addRequestTokens, Except.toOption] using h.logged
    · have hlogged : (s.runner.addRequestTokens backend inputIds sampling).2.Logged _ s.log [] :=
        h.logged.addRequest hne
      refine ⟨?_, h.reported_eq⟩
      rw [h.logged.inv.addRequestTokens_eq hne rfl] at hlogged ⊢
      exact hlogged
  | step =>
    obtain ⟨⟨result, r'⟩, hstep, rfl⟩ := Option.map_eq_some_iff.1 hcall
    obtain ⟨hfits, hclean⟩ := hkeeps
    have hout := hstep
    rw [InferenceRunner.step, h.logged.inv.requests_eq] at hout
    obtain ⟨hlogged, hok⟩ := (h.logged.scheduleStep hfits).processBatch hout
    cases result with
    | ok results =>
      obtain ⟨hresults, hempty⟩ := hok results rfl
      rw [hempty] at hlogged
      refine ⟨hlogged, ?_⟩
      show s.reported ++ results = resultsOf (s.log ++ _)
      rw [resultsOf_append, h.reported_eq]
      exact congrArg _ hresults.symm
    | error =>
      -- nothing was sampled, and what is left of the batch carries no chunk
      obtain ⟨cut, hcut, hback, hnone⟩ := InferenceRunner.failure?_of_error hout
      obtain ⟨hfront, hdecode⟩ := hclean cut hcut
      refine ⟨hlogged.dropPending (hback ▸ hdecode), ?_⟩
      show s.reported ++ [] = resultsOf (s.log ++ _)
      rw [resultsOf_append, h.reported_eq]
      exact congrArg _ (hnone hfront).symm

end Serving

/-- Nothing is lost while no chunk is cut without blocks and no step fails half-way. -/
theorem InferenceRunner.losesNothing_of_run {executor : ω} {config : RunnerConfig}
    {backend : Backend ω} {r₀ : InferenceRunner heap ω} {calls : List RunnerCall}
    {s : Serving heap ω} (hnew : InferenceRunner.new heap backend executor config = .ok r₀)
    (hrun : Run (fun s c s' => s.KeepsAll backend c ∧ s.Called backend c s') (.start r₀) calls s) :
    s.LosesNothing := by
  have hempty : r₀.liveRequests = [] := liveRequests_new hnew
  exact (hrun.invariant (I := Serving.Accounted) (Serving.accounted_start (.new hnew) hempty)
    fun _ _ _ hm hstep => hm.called hstep.1 hstep.2).losesNothing

/-! ## Runs with transient errors -/

/-- An executor of one token whose forward passes return or fail as its state says. -/
def scriptedBackend : Backend (List Bool) where
  forwardWithKv outcomes _ _ bm _ :=
    match outcomes with
    | false :: rest => some (.error "transient", ⟨bm, .refl bm⟩, rest)
    | outcomes => some (.ok [0], ⟨bm, .refl bm⟩, outcomes.tail)
  forwardWithPositions outcomes _ _ :=
    match outcomes with
    | false :: rest => some (.error "transient", rest)
    | outcomes => some (.ok [0], outcomes.tail)
  draw outcomes _ _ := (0, outcomes)
  stopTokenIds := []
  decode _ := .ok ""
  decodeToken _ := ""
  vocabSize := 1
  kvFunctions := [0]

/-- A prompt of one token, and two decode steps. -/
def retriedCalls : List RunnerCall :=
  [.add [5] .default, .step .default, .step .default, .step .default]

/-- Two requests, and two steps with both. -/
def pairCalls : List RunnerCall :=
  [.add [5] .default, .add [6] .default, .step .default, .step .default]

def chunkedCalls : List RunnerCall := [.add [1, 2, 3] .default, .step .default, .step .default]

/-- The only request of a batch fails in its decode step, and is scheduled again. -/
theorem InferenceRunner.losesNothing_of_run_witness :
    ∃ (r₀ : InferenceRunner listHeap (List Bool)) (s : Serving listHeap (List Bool)),
      InferenceRunner.new listHeap scriptedBackend [true, false] (pairConfig 2 4) = .ok r₀ ∧
      Run (fun s c s' => s.KeepsAll scriptedBackend c ∧ s.Called scriptedBackend c s') (.start r₀)
        retriedCalls s ∧
      s.reported.map StepResult.tokenId = [0, 0] ∧ s.LosesNothing := by
  obtain ⟨r₀, hnew⟩ : ∃ r₀ : InferenceRunner listHeap (List Bool),
    InferenceRunner.new listHeap scriptedBackend [true, false] (pairConfig 2 4) = .ok r₀ := ⟨_, rfl⟩
  have hcalls : (retriedCalls.foldlM (fun (s : Serving listHeap (List Bool)) c =>
      if s.KeepsAll scriptedBackend c then s.call scriptedBackend c else none)
      (.start r₀)).any (fun s => s.reported.map StepResult.tokenId = [0, 0]) = true := by
    cases hnew
    decide +kernel
  obtain ⟨s, hfold, htokens⟩ := (Option.any_eq_true ..).1 hcalls
  have hrun : Run (fun s c s' => s.KeepsAll scriptedBackend c ∧ s.Called scriptedBackend c s')
      (.start r₀) retriedCalls s := by
    refine Run.of_foldlM (fun s c s' hcall => ?_) hfold
    split at hcall
    · exact ⟨‹_›, hcall⟩
    · cases hcall
  exact ⟨r₀, s, hnew, hrun, of_decide_eq_true htokens,
    InferenceRunner.losesNothing_of_run hnew hrun⟩

/-- A token in front of a failing request is not reported, and a failing chunk is never executed. -/
theorem losesNothing_fails :
    ∃ r₁ r₂ : InferenceRunner listHeap (List Bool),
      InferenceRunner.new listHeap scriptedBackend [true, true, true, false] (pairConfig 2 4) =
        .ok r₁ ∧
      InferenceRunner.new listHeap scriptedBackend [false] (pairConfig 2 4) = .ok r₂ ∧
      (∃ s, Run (Serving.Called scriptedBackend) (.start r₁)
          pairCalls s ∧
        s.reported.map (fun res => (res.requestId, res.tokenId)) = [("req_1", 0), ("req_2", 0)] ∧
        s.runner.scheduler.running.map (fun req => (req.requestId, req.outputTokens)) =
          [("req_1", [0, 0]), ("req_2", [0])] ∧ ¬ s.LosesNothing) ∧
      ∃ s, Run (Serving.Called scriptedBackend) (.start r₂)
          chunkedCalls s ∧
        fedFor "req_1" s.log = [3] ∧ s.reported.map StepResult.tokenId = [0] ∧
        ¬ s.LosesNothing := by
  obtain ⟨r₁, hnew₁⟩ : ∃ r₁ : InferenceRunner listHeap (List Bool),
    InferenceRunner.new listHeap scriptedBackend [true, true, true, false] (pairConfig 2 4) =
      .ok r₁ := ⟨_, rfl⟩
  obtain ⟨r₂, hnew₂⟩ : ∃ r₂ : InferenceRunner listHeap (List Bool),
    InferenceRunner.new listHeap scriptedBackend [false] (pairConfig 2 4) = .ok r₂ := ⟨_, rfl⟩
  refine ⟨r₁, r₂, hnew₁, hnew₂, ?_, ?_⟩
  · have hcalls : (pairCalls.foldlM (Serving.call scriptedBackend) (.start r₁)).any (fun s =>
        decide (s.reported.map (fun res => (res.requestId, res.tokenId)) =
          [("req_1", 0), ("req_2", 0)] ∧
        s.runner.scheduler.running.map (fun req => (req.requestId, req.outputTokens)) =
          [("req_1", [0, 0]), ("req_2", [0])] ∧ s.reported ≠ resultsOf s.log)) = true := by
      cases hnew₁
      decide +kernel
    obtain ⟨s, hfold, hs⟩ := (Option.any_eq_true ..).1 hcalls
    obtain ⟨hreported, houtputs, hlost⟩ := of_decide_eq_true hs
    exact ⟨s, Run.of_foldlM (fun _ _ _ h => h) hfold, hreported, houtputs,
      fun hkept => hlost hkept.reported_eq⟩
  · have hcalls : (chunkedCalls.foldlM (Serving.call scriptedBackend) (.start r₂)).any (fun s =>
        decide (fedFor "req_1" s.log = [3] ∧ s.reported.map StepResult.tokenId = [0] ∧
          ∃ req ∈ s.runner.scheduler.running,
            fedFor req.requestId s.log ≠ req.promptTokens.take req.prefillPos)) = true := by
      cases hnew₂
      decide +kernel
    obtain ⟨s, hfold, hs⟩ := (Option.any_eq_true ..).1 hcalls
    obtain ⟨hfed, hreported, req, hreq, hlost⟩ := of_decide_eq_true hs
    exact ⟨s, Run.of_foldlM (fun _ _ _ h => h) hfold, hfed, hreported,
      fun hkept => hlost (hkept.fed req (mem_append_left _ hreq))⟩

end CompileForge.Runtime
