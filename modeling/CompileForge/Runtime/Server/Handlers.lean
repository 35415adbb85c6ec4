/-
  The generating handlers of the server: `v1_completions` and the two forms of
  `v1_chat_completions` (`runtime/src/server/handlers.rs`, `streaming.rs`) over one runner
  behind a lock.
-/

import CompileForge.Runtime.Engine.StepRecord

namespace CompileForge.Runtime

open Lib

variable {heap : MaxHeap QueueEntry QueueEntry.rank} {ω : Type}

/-- `encode` is the tokenizer with its chat template. -/
def InferenceRunner.addRequest (encode : String → Except String (List UInt32))
    (backend : Backend ω) (r : InferenceRunner heap ω) (prompt : String)
    (sampling : SamplerConfig) : Except String String × InferenceRunner heap ω :=
  match encode prompt with
  | .error e => (.error e, r)
  | .ok inputIds => r.addRequestTokens backend inputIds sampling

/-! ## Clients -/

/-- What a poll of a stream sends. -/
inductive StreamEvent where
  | token (content : String) (stop : Bool)
  | empty
  | error (message : String)
  | done
deriving DecidableEq, Repr

/-- The locals of a completion handler, and its response once it has returned. -/
structure Completion where
  allTokens : List UInt32
  outputText : String
  finished : Bool
  response : Option (Except String Unit)

/-- What a client has got so far. -/
inductive Received where
  | stream (events : List StreamEvent)
  | completion (c : Completion)

/-- A request of a client; `rid` is set by `add_request`. -/
structure Client where
  prompt : String
  sampling : SamplerConfig
  rid : Option String
  received : Received

/-- `v1_completions`, or `v1_chat_completions` without `stream`. -/
def Client.newCompletion (prompt : String) (sampling : SamplerConfig) : Client :=
  ⟨prompt, sampling, none, .completion ⟨[], "", false, none⟩⟩

/-- `v1_chat_completions_stream`. -/
def Client.newStream (prompt : String) (sampling : SamplerConfig) : Client :=
  ⟨prompt, sampling, none, .stream []⟩

/-- The results of a step for this request, up to the one that finishes it. -/
def Completion.collect (rid : String) (c : Completion) : List StepResult → Completion
  | [] => c
  | res :: rest =>
    if res.requestId = rid then
      let c := { c with
        allTokens := c.allTokens ++ [res.tokenId]
        outputText := c.outputText ++ res.text }
      if res.finished then { c with finished := true } else c.collect rid rest
    else c.collect rid rest

/-! ## The server -/

/-- The runner, its clients, the holder of the lock and a log of recorded tokens, which is not part
    of the source: it says what to deliver. -/
structure Server (heap : MaxHeap QueueEntry QueueEntry.rank) (ω : Type) where
  runner : InferenceRunner heap ω
  clients : List Client
  /-- The completion that holds the lock. -/
  holder : Option Nat
  /-- Every token that a step has recorded, with the sampling of the step. -/
  log : List (SamplerConfig × StepResult)

/-- A turn of one handler.  A completion holds the lock from `add_request` to its response, with
    one event for each turn of its loop; between the polls of a stream the lock is free. -/
inductive ServerEvent where
  | connect (prompt : String) (sampling : SamplerConfig) (streaming : Bool)
  | acquire (i : Nat)
  | turn
  | poll (i : Nat)

namespace Server

def start (runner : InferenceRunner heap ω) : Server heap ω := ⟨runner, [], none, []⟩

def update (s : Server heap ω) (i : Nat) (c : Client) (rid : Option String)
    (received : Received) : Server heap ω :=
  { s with clients := s.clients.set i { c with rid, received } }

/-- A call of `step`, which may record tokens before it fails. -/
def runStep (backend : Backend ω) (s : Server heap ω) (sampling : SamplerConfig) :
    Option (Except String (List StepResult) × Server heap ω) :=
  (s.runner.step backend sampling).map fun out =>
    (out.1, { s with
      runner := out.2
      log := s.log ++ (s.runner.recordedStep backend sampling).map fun res => (sampling, res) })

variable (encode : String → Except String (List UInt32))

variable (backend : Backend ω) (s : Server heap ω) (i : Nat) (c : Client)

/-- The completion takes the lock and adds its request. -/
def acquire (done : Completion) : Server heap ω :=
  match s.runner.addRequest encode backend c.prompt c.sampling with
  | (.error e, runner) =>
    { s with runner }.update i c none
      (.completion { done with response := some (.error s!"add_request: {e}") })
  | (.ok rid, runner) =>
    { s with runner, holder := some i }.update i c (some rid) c.received

/-- A turn of the loop of the completion that holds the lock. -/
def turn (rid : String) (done : Completion) : Option (Server heap ω) :=
  if s.runner.hasWork then do
    let (results, s) ← s.runStep backend c.sampling
    match results with
    | .error e =>
      some ({ s with holder := none }.update i c (some rid)
        (.completion { done with response := some (.error s!"step: {e}") }))
    | .ok results =>
      let done := done.collect rid results
      if done.finished then
        some ({ s with holder := none }.update i c (some rid)
          (.completion { done with response := some (.ok ()) }))
      else some (s.update i c (some rid) (.completion done))
  else
    some ({ s with holder := none }.update i c (some rid)
      (.completion { done with response := some (.ok ()) }))

/-- The request of a stream, added at its first poll. -/
def requestOf : Except String String × InferenceRunner heap ω :=
  match c.rid with
  | some rid => (.ok rid, s.runner)
  | none => s.runner.addRequest encode backend c.prompt c.sampling

def pollEvent (rid : String) (results : List StepResult) : StreamEvent :=
  match results.find? fun res => res.requestId = rid with
  | some res => .token res.text res.finished
  | none => .empty

/-- A poll of a stream, behind whose last event comes `[DONE]`. -/
def poll (events : List StreamEvent) : Option (Server heap ω) :=
  match s.requestOf encode backend c with
  | (.error e, runner) =>
    some ({ s with runner }.update i c none
      (.stream (events ++ [StreamEvent.error s!"error: {e}"])))
  | (.ok rid, runner) =>
    let s := { s with runner }
    if s.runner.hasWork then do
      let (results, s) ← s.runStep backend c.sampling
      match results with
      | .ok results =>
        some (s.update i c (some rid) (.stream (events ++ [pollEvent rid results])))
      | .error e =>
        some (s.update i c (some rid) (.stream (events ++ [StreamEvent.error s!"error: {e}"])))
    else some (s.update i c (some rid) (.stream (events ++ [.done])))

/-- One event of the server, if it can happen and does not panic. -/
def next : ServerEvent → Option (Server heap ω)
  | .connect prompt sampling streaming =>
    let client :=
      if streaming then Client.newStream prompt sampling
      else Client.newCompletion prompt sampling
    some { s with clients := s.clients ++ [client] }
  | .acquire i => do
      let c ← s.clients[i]?
      match s.holder, c.rid, c.received with
      | none, none, .completion done =>
        if done.response.isNone then some (s.acquire encode backend i c done) else none
      | _, _, _ => none
  | .turn => do
      let i ← s.holder
      let c ← s.clients[i]?
      let rid ← c.rid
      match c.received with
      | .completion done => s.turn backend i c rid done
      | .stream _ => none
  | .poll i => do
      let c ← s.clients[i]?
      match s.holder, c.received with
      | none, .stream events =>
        if .done ∈ events then none else s.poll encode backend i c events
      | _, _ => none

end Server

end CompileForge.Runtime
