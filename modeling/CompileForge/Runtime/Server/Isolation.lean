/-
  What the clients of the server get of the tokens that are recorded for them.  One runner steps
  all live requests at once, and a handler keeps the results of its own request only.
-/

import CompileForge.Runtime.Server.Handlers
import CompileForge.Runtime.Engine.RunnerRelease

namespace CompileForge.Runtime

open Lib List

variable {heap : MaxHeap QueueEntry QueueEntry.rank} {ω : Type}

def StreamEvent.token? : StreamEvent → Option (String × Bool)
  | .token content stop => some (content, stop)
  | _ => none

def StreamEvent.plain : StreamEvent → Prop
  | .token _ stop => stop = false
  | .empty => True
  | .error _ => False
  | .done => False

/-- The finishing token. -/
def StreamEvent.stops : StreamEvent → Bool
  | .token _ stop => stop
  | _ => false

/-- The finishing token, or an error. -/
def StreamEvent.last : StreamEvent → Prop
  | .token _ stop => stop = true
  | .error _ => True
  | _ => False

/-- A response that has ended has its `[DONE]` right behind its last token or one error. -/
def WellEnded (events : List StreamEvent) : Prop :=
  ∃ before, (∀ e ∈ before, e.plain) ∧ (events = before ∨ ∃ e : StreamEvent, e.last ∧
      (events = before ++ [e] ∨ events = before ++ [e, .done]))

/-- The client has got exactly these tokens; a failed completion has got none. -/
def Received.Got (results : List StepResult) : Received → Prop
  | .stream events =>
    events.filterMap StreamEvent.token? = results.map fun res => (res.text, res.finished)
  | .completion c =>
    match c.response with
    | some (.error _) => results = []
    | _ => c.allTokens = results.map StepResult.tokenId ∧
        c.outputText = results.foldl (fun text res => text ++ res.text) ""

def Received.events? : Received → Option (List StreamEvent)
  | .stream events => some events
  | .completion _ => none

/-- Two clients that ask for the same sampling. -/
def SamplerConfig.SameSettings (a b : SamplerConfig) : Prop :=
  a.temperature = b.temperature ∧ a.topP = b.topP ∧ a.topK = b.topK

namespace Server

/-- The tokens recorded for a request, with the sampling of their steps. -/
def recordedFor (s : Server heap ω) (rid : Option String) : List (SamplerConfig × StepResult) :=
  s.log.filter fun e => rid = some e.2.requestId

/-- Every token belongs to one client, once and in order, and is sampled with its settings. -/
structure Isolated (s : Server heap ω) : Prop where
  owned : ∀ e ∈ s.log, ∃! i : Nat, ∃ c : Client, s.clients[i]? = some c ∧ c.rid = some e.2.requestId
  delivered : ∀ c ∈ s.clients, c.received.Got ((s.recordedFor c.rid).map Prod.snd)
  sampled : ∀ c ∈ s.clients, ∀ e ∈ s.recordedFor c.rid, e.1.SameSettings c.sampling
  ended : ∀ c ∈ s.clients, ∀ events, c.received = .stream events → WellEnded events

/-! ## Steps that sample for their caller only -/

variable (backend : Backend ω)

/-- The next step samples for no other request, and does not fail. -/
def Undisturbed (sampling : SamplerConfig) (rid : String) (r : InferenceRunner heap ω) : Prop :=
  (∀ sr ∈ r.scheduleStep.1.requests, sr.requestId ≠ rid → sr.state = .prefill) ∧
    ∀ e r', r.step backend sampling ≠ some (.error e, r')

variable (encode : String → Except String (List UInt32)) (backend : Backend ω) (s : Server heap ω)

/-- The poll is its request's only, up to its last token. -/
def QuietPoll (i : Nat) : Prop :=
  ∀ c ∈ s.clients[i]?, ∀ events ∈ c.received.events?,
    ∃ rid ∈ (s.requestOf encode backend c).1.toOption,
      (s.requestOf encode backend c).2.hasWork = true → (∀ e ∈ events, e.stops = false) ∧
        Undisturbed backend c.sampling rid (s.requestOf encode backend c).2

/-- The step of the completion is for its request only. -/
def QuietTurn : Prop :=
  ∀ i ∈ s.holder, ∀ c ∈ s.clients[i]?, ∀ rid ∈ c.rid,
    s.runner.hasWork = true → Undisturbed backend c.sampling rid s.runner

/-- The event steps the runner for its own client only. -/
def Quiet : ServerEvent → Prop
  | .poll i => s.QuietPoll encode backend i
  | .turn => s.QuietTurn backend
  | _ => True

instance decidableUndisturbed (sampling : SamplerConfig) (rid : String)
    (r : InferenceRunner heap ω) : Decidable (Undisturbed backend sampling rid r) :=
  have : Decidable (∀ e r', r.step backend sampling ≠ some (.error e, r')) :=
    match h : r.step backend sampling with
    | some (.error e, r') => isFalse fun hnone => hnone e r' rfl
    | some (.ok _, _) => isTrue fun e r' heq => by cases heq
    | none => isTrue fun e r' heq => by cases heq
  inferInstanceAs (Decidable (_ ∧ _))

instance decidableQuiet (s : Server heap ω) : ∀ e, Decidable (Quiet encode backend s e)
  | .connect _ _ _ => isTrue trivial
  | .acquire _ => isTrue trivial
  | .turn =>
    inferInstanceAs (Decidable (∀ i ∈ s.holder, ∀ c ∈ s.clients[i]?, ∀ rid ∈ c.rid, _ → _))
  | .poll i =>
    inferInstanceAs (Decidable (∀ c ∈ s.clients[i]?, ∀ events ∈ c.received.events?,
      ∃ rid ∈ (s.requestOf encode backend c).1.toOption, _ → (∀ e ∈ events, _) ∧ _))

/-! ## The invariant -/

/-- Nothing before its request, no error, and its request is live up to its last token. -/
def Streaming (live : List String) (rid : Option String) (events : List StreamEvent) : Prop :=
  ∃ before, (∀ e ∈ before, e.plain) ∧
    ((events = before ∧ (rid = none → before = []) ∧ ∀ id, rid = some id → id ∈ live) ∨
      (rid ≠ none ∧ ∃ text, events = before ++ [.token text true] ∨
        events = before ++ [.token text true, .done]))

/-- A client, `own` being what was recorded for its request. -/
structure ClientOk (live : List String) (own : List (SamplerConfig × StepResult)) (c : Client) :
    Prop where
  got : c.received.Got (own.map Prod.snd)
  sampled : ∀ e ∈ own, e.1.SameSettings c.sampling
  stream : ∀ events, c.received = .stream events → Streaming live c.rid events

structure Inv (s : Server heap ω) : Prop where
  runner : s.runner.Inv
  named : ∀ (i : Nat) (c : Client) (rid : String), s.clients[i]? = some c → c.rid = some rid →
    ∃ k ≤ s.runner.scheduler.requestCounter, rid = s!"req_{k}"
  distinct : ∀ (i j : Nat) (c c' : Client) (rid : String), s.clients[i]? = some c →
    s.clients[j]? = some c' → c.rid = some rid → c'.rid = some rid → i = j
  owned : ∀ e ∈ s.log, ∃ (i : Nat) (c : Client), s.clients[i]? = some c ∧ c.rid = some e.2.requestId
  clients : ∀ (i : Nat) (c : Client), s.clients[i]? = some c →
    ClientOk s.runner.liveIds (s.recordedFor c.rid) c
  holder : ∀ (i : Nat), s.holder = some i → ∃ (c : Client) (done : Completion),
    s.clients[i]? = some c ∧ c.received = .completion done ∧ done.response = none

variable {s s' : Server heap ω} {live live' : List String} {rid : Option String}
  {events : List StreamEvent}

theorem Streaming.mono (h : Streaming live rid events)
    (hlive : ∀ id ∈ live, rid = some id → id ∈ live') : Streaming live' rid events := by
  obtain ⟨before, hplain, ⟨heq, hnone, hsome⟩ | hended⟩ := h
  · exact ⟨before, hplain, .inl ⟨heq, hnone, fun id hid => hlive id (hsome id hid) hid⟩⟩
  · exact ⟨before, hplain, .inr hended⟩

theorem Streaming.wellEnded (h : Streaming live rid events) : WellEnded events := by
  obtain ⟨before, hplain, ⟨heq, _, _⟩ | ⟨_, text, hended⟩⟩ := h
  · exact ⟨before, hplain, .inl heq⟩
  · exact ⟨before, hplain, .inr ⟨.token text true, rfl, hended⟩⟩

theorem Inv.isolated (h : s.Inv) : s.Isolated where
  owned := by
    intro e he
    obtain ⟨i, c, hc, hrid⟩ := h.owned e he
    refine ⟨i, ⟨c, hc, hrid⟩, ?_⟩
    rintro j ⟨c', hc', hrid'⟩
    exact h.distinct j i c' c _ hc' hc hrid' hrid
  delivered := by
    intro c hmem
    obtain ⟨i, hc⟩ := mem_iff_getElem?.mp hmem
    exact (h.clients i c hc).got
  sampled := by
    intro c hmem
    obtain ⟨i, hc⟩ := mem_iff_getElem?.mp hmem
    exact (h.clients i c hc).sampled
  ended := by
    intro c hmem events hevents
    obtain ⟨i, hc⟩ := mem_iff_getElem?.mp hmem
    exact ((h.clients i c hc).stream events hevents).wellEnded

theorem recordedFor_none (s : Server heap ω) : s.recordedFor none = [] :=
  filter_eq_nil_iff.2 fun e _ => by simp

theorem Inv.start {runner : InferenceRunner heap ω} (h : runner.Inv) : (start runner).Inv where
  runner := h
  named := fun i c rid hc => by cases hc
  distinct := fun i j c c' rid hc => by cases hc
  owned := nofun
  clients := fun i c hc => by cases hc
  holder := fun i hi => by cases hi

variable {new : List (SamplerConfig × StepResult)}

theorem recordedFor_append
    (hlog : s'.log = s.log ++ new) (rid : Option String) : s'.recordedFor rid =
      s.recordedFor rid ++ new.filter fun e => rid = some e.2.requestId := by
  rw [recordedFor, hlog, filter_append]
  rfl

/-- Client `i` goes on as `c'`, and tokens are recorded for it alone. -/
theorem Inv.advance (h : s.Inv) {i : Nat} {c c' : Client} (hi : s.clients[i]? = some c)
    (hclients : s'.clients = s.clients.set i c')
    (hlog : s'.log = s.log ++ new) (hrunner : s'.runner.Inv)
    (hcounter : s.runner.scheduler.requestCounter ≤ s'.runner.scheduler.requestCounter)
    (hkeep : ∀ id, c.rid = some id → c'.rid = some id)
    (hfresh : ∀ id, c'.rid = some id → c.rid = some id ∨
      (∃ k ≤ s'.runner.scheduler.requestCounter, id = s!"req_{k}") ∧
        ∀ (j : Nat) (d : Client), s.clients[j]? = some d → d.rid ≠ some id)
    (hnew : ∀ e ∈ new, c'.rid = some e.2.requestId)
    (hlive : ∀ id ∈ s.runner.liveIds, c'.rid ≠ some id → id ∈ s'.runner.liveIds)
    (hok : ClientOk s'.runner.liveIds (s'.recordedFor c'.rid) c')
    (hholder : ∀ j, s'.holder = some j → ∃ (d : Client) (done : Completion),
      s'.clients[j]? = some d ∧ d.received = .completion done ∧ done.response = none) :
    s'.Inv := by
  have hlt : i < s.clients.length := (List.getElem?_eq_some_iff.1 hi).1
  have hself : s'.clients[i]? = some c' := by
    rw [hclients, getElem?_set_self hlt]
  have hother : ∀ (j : Nat), j ≠ i → s'.clients[j]? = s.clients[j]? := by
    intro j hj
    rw [hclients, getElem?_set_ne (Ne.symm hj)]
  -- nobody else has the request of the client
  have hsingle : ∀ (j : Nat) (d : Client) (id : String), j ≠ i → s.clients[j]? = some d →
      d.rid = some id → c'.rid ≠ some id := by
    intro j d id hj hd hid hc'
    rcases hfresh id hc' with hc | ⟨_, hnone⟩
    · exact hj (h.distinct j i d c id hd hi hid hc)
    · exact hnone j d hd hid
  refine ⟨hrunner, ?_, ?_, ?_, ?_, hholder⟩
  · intro j d id hd hid
    by_cases hj : j = i
    · subst hj
      rw [hself] at hd
      cases hd
      rcases hfresh id hid with hc | ⟨hnamed, _⟩
      · obtain ⟨k, hk, hname⟩ := h.named j c id hi hc
        exact ⟨k, hk.trans hcounter, hname⟩
      · exact hnamed
    · rw [hother j hj] at hd
      obtain ⟨k, hk, hname⟩ := h.named j d id hd hid
      exact ⟨k, hk.trans hcounter, hname⟩
  · intro j k d d' id hd hd' hid hid'
    by_cases hj : j = i
    · by_cases hk : k = i
      · rw [hj, hk]
      · rw [hj, hself] at hd
        cases hd
        rw [hother k hk] at hd'
        exact absurd hid (hsingle k d' id hk hd' hid')
    · rw [hother j hj] at hd
      by_cases hk : k = i
      · rw [hk, hself] at hd'
        cases hd'
        exact absurd hid' (hsingle j d id hj hd hid)
      · rw [hother k hk] at hd'
        exact h.distinct j k d d' id hd hd' hid hid'
  · intro e he
    rw [hlog] at he
    rcases mem_append.1 he with hold | hnow
    · obtain ⟨j, d, hd, hid⟩ := h.owned e hold
      by_cases hj : j = i
      · rw [hj, hi] at hd
        cases hd
        exact ⟨i, c', hself, hkeep _ hid⟩
      · exact ⟨j, d, (hother j hj).trans hd, hid⟩
    · exact ⟨i, c', hself, hnew e hnow⟩
  · intro j d hd
    by_cases hj : j = i
    · rw [hj, hself] at hd
      cases hd
      exact hok
    · rw [hother j hj] at hd
      have hold := h.clients j d hd
      have hnone : (new.filter fun e => d.rid = some e.2.requestId) = [] := by
        refine filter_eq_nil_iff.2 fun e he hid => ?_
        exact hsingle j d _ hj hd (of_decide_eq_true hid) (hnew e he)
      rw [recordedFor_append hlog, hnone, append_nil]
      refine ⟨hold.got, hold.sampled, fun events hevents => ?_⟩
      refine (hold.stream events hevents).mono fun id hid hrid => ?_
      exact hlive id hid (hsingle j d id hj hd hrid)

theorem addRequest_cases {r : InferenceRunner heap ω} (h : r.Inv)
    (encode : String → Except String (List UInt32)) (backend : Backend ω) (prompt : String)
    (sampling : SamplerConfig) :
    (∃ e, r.addRequest encode backend prompt sampling = (.error e, r)) ∨
      ∃ r' : InferenceRunner heap ω, r.addRequest encode backend prompt sampling =
          (.ok s!"req_{r.scheduler.requestCounter + 1}", r') ∧ r'.Inv ∧
        r'.scheduler.requestCounter = r.scheduler.requestCounter + 1 ∧
        ∀ id, id ∈ r'.liveIds ↔ id = s!"req_{r.scheduler.requestCounter + 1}" ∨ id ∈ r.liveIds := by
  unfold InferenceRunner.addRequest
  cases encode prompt with
  | error e => exact .inl ⟨e, rfl⟩
  | ok inputIds =>
    by_cases hne : inputIds = []
    · subst hne
      exact .inl ⟨_, rfl⟩
    · right
      show ∃ r', r.addRequestTokens backend inputIds sampling = _ ∧ _
      rw [h.addRequestTokens_eq hne rfl]
      refine ⟨_, rfl, h.addRequest hne _ _, rfl, fun id => ?_⟩
      have hperm := (heap.items_push r.scheduler.waiting ⟨0, Request.new
        s!"req_{r.scheduler.requestCounter + 1}" inputIds 0
        (sampling.maxTokens.getD r.config.maxTokensPerRequest) backend.stopTokenIds⟩).map
          fun e => e.request.requestId
      have hmem := hperm.mem_iff (a := id)
      rw [map_cons, mem_cons] at hmem
      rw [InferenceRunner.liveIds, InferenceRunner.liveIds, InferenceRunner.liveRequests,
        InferenceRunner.liveRequests, InferenceRunner.waitingRequests,
        InferenceRunner.waitingRequests, map_append, map_append, mem_append,
        mem_append, map_map, map_map]
      show _ ∨ id ∈ (heap.items (heap.push r.scheduler.waiting _)).map
        (fun e => e.request.requestId) ↔ _
      rw [hmem]
      exact or_left_comm

section Step

variable {encode : String → Except String (List UInt32)} {backend : Backend ω}
  {sampling : SamplerConfig} {r r' : InferenceRunner heap ω} {id : String}
  {results : List StepResult}

theorem own_results (h : r.Inv) (hquiet : Undisturbed backend sampling id r)
    (hstep : r.step backend sampling = some (.ok results, r')) :
    results = [] ∨ ∃ res, results = [res] ∧ res.requestId = id := by
  obtain ⟨hstepped, _⟩ := h.stepped hstep
  have hown : ∀ res ∈ results, res.requestId = id := by
    intro res hres
    obtain ⟨sr, hsr, hname, hstate⟩ := hstepped.source res hres
    by_contra hne
    exact hstate (hquiet.1 sr hsr (by rw [hname]; exact hne))
  match results, hown, hstepped.distinct with
  | [], _, _ => exact .inl rfl
  | [res], hown, _ => exact .inr ⟨res, rfl, hown res mem_cons_self⟩
  | res :: res' :: rest, hown, hdistinct =>
    have hsame : res.requestId = res'.requestId :=
      (hown res mem_cons_self).trans
        (hown res' (mem_cons_of_mem res mem_cons_self)).symm
    rw [map_cons, map_cons, hsame] at hdistinct
    exact absurd mem_cons_self (nodup_cons.1 hdistinct).1

theorem runStep_cases (h : s.runner.Inv) (hquiet : Undisturbed backend sampling id s.runner)
    {result : Except String (List StepResult)}
    (hout : s.runStep backend sampling = some (result, s')) :
    ∃ results r', result = .ok results ∧
      s' = { s with runner := r', log := s.log ++ results.map fun res => (sampling, res) } ∧
      InferenceRunner.Stepped s.runner r' results ∧
      (results = [] ∨ ∃ res, results = [res] ∧ res.requestId = id) := by
  obtain ⟨⟨result', r'⟩, hstep, heq⟩ := Option.map_eq_some_iff.1 hout
  cases heq
  cases hresult : result' with
  | error e =>
    rw [hresult] at hstep
    exact absurd hstep (hquiet.2 e r')
  | ok results =>
    rw [hresult] at hstep
    obtain ⟨hstepped, hlog⟩ := h.stepped hstep
    refine ⟨results, r', rfl, ?_, hstepped, own_results h hquiet hstep⟩
    rw [hlog]

theorem live_of_own (hstepped : InferenceRunner.Stepped r r' results)
    (hown : results = [] ∨ ∃ res, results = [res] ∧ res.requestId = id) :
    ∀ other ∈ r.liveIds, some id ≠ some other → other ∈ r'.liveIds := by
  intro other hother hne
  refine hstepped.stays other hother fun res hres hname => ?_
  rcases hown with rfl | ⟨res', rfl, hid⟩
  · cases hres
  · rw [mem_singleton] at hres
    subst hres
    exact absurd (congrArg some (hid.symm.trans hname)) hne

structure Requests (s : Server heap ω) (i : Nat) (c : Client) (id : String)
    (r : InferenceRunner heap ω) : Prop where
  inv : r.Inv
  counter : s.runner.scheduler.requestCounter ≤ r.scheduler.requestCounter
  live : ∀ other ∈ s.runner.liveIds, other ∈ r.liveIds
  keep : ∀ other, c.rid = some other → id = other
  fresh : c.rid = some id ∨ (∃ k ≤ r.scheduler.requestCounter, id = s!"req_{k}") ∧
    ∀ (j : Nat) (d : Client), s.clients[j]? = some d → d.rid ≠ some id

variable {i : Nat} {c : Client} {received : Received} {done : Completion} {own : List StepResult}

theorem Requests.recordedFor_eq (h : s.Inv) (hr : Requests s i c id r) :
    s.recordedFor (some id) = s.recordedFor c.rid := by
  cases hrid : c.rid with
  | some other => rw [hr.keep other hrid]
  | none =>
    rw [recordedFor_none]
    refine filter_eq_nil_iff.2 fun e he hid => ?_
    obtain ⟨j, d, hd, howner⟩ := h.owned e he
    rcases hr.fresh with hsame | ⟨_, hnone⟩
    · rw [hrid] at hsame
      cases hsame
    · exact hnone j d hd (howner.trans (of_decide_eq_true hid).symm)

theorem Inv.serve (h : s.Inv) (hi : s.clients[i]? = some c)
    (hr : Requests s i c id r) (hstepped : InferenceRunner.Stepped r r' results)
    (hown : results = [] ∨ ∃ res, results = [res] ∧ res.requestId = id)
    (hclients : s'.clients = s.clients.set i { c with rid := some id, received })
    (hlog : s'.log = s.log ++ results.map fun res => (c.sampling, res))
    (hrunner : s'.runner = r')
    (hgot : received.Got ((s.recordedFor c.rid).map Prod.snd ++ results))
    (hstream : ∀ events, received = .stream events → Streaming r'.liveIds (some id) events)
    (hholder : ∀ j, s'.holder = some j → ∃ (d : Client) (done : Completion),
      s'.clients[j]? = some d ∧ d.received = .completion done ∧ done.response = none) :
    s'.Inv := by
  have hnew : ∀ e ∈ results.map (fun res => (c.sampling, res)), some id = some e.2.requestId := by
    intro e he
    obtain ⟨res, hres, rfl⟩ := mem_map.1 he
    rcases hown with rfl | ⟨res', rfl, hid⟩
    · cases hres
    · rw [mem_singleton] at hres
      rw [hres, hid]
  have hrecorded : s'.recordedFor (some id) =
      s.recordedFor c.rid ++ results.map fun res => (c.sampling, res) := by
    rw [recordedFor_append hlog, hr.recordedFor_eq h]
    refine congrArg _ (filter_eq_self.2 fun e he => ?_)
    exact decide_eq_true (hnew e he)
  have hsnd : (results.map fun res => (c.sampling, res)).map Prod.snd = results := by
    rw [map_map]
    exact map_id results
  refine h.advance hi hclients hlog (hrunner ▸ hstepped.inv) ?_ ?_ ?_ hnew ?_ ?_ hholder
  · rw [hrunner, hstepped.counter]
    exact hr.counter
  · exact fun other hother => congrArg some (hr.keep other hother)
  · intro other hother
    cases hother
    rw [hrunner, hstepped.counter]
    exact hr.fresh
  · rw [hrunner]
    exact fun other hother hne => live_of_own hstepped hown other (hr.live other hother) hne
  · rw [hrunner]
    refine ⟨?_, fun e he => ?_, hstream⟩
    · rw [hrecorded, map_append, hsnd]
      exact hgot
    · rw [hrecorded] at he
      rcases mem_append.1 he with hold | hnow
      · exact (h.clients i c hi).sampled e hold
      · obtain ⟨res, _, rfl⟩ := mem_map.1 hnow
        exact ⟨rfl, rfl, rfl⟩

theorem Inv.settle (h : s.Inv) (hi : s.clients[i]? = some c) (hr : Requests s i c id r)
    (hclients : s'.clients = s.clients.set i { c with rid := some id, received })
    (hlog : s'.log = s.log) (hrunner : s'.runner = r)
    (hgot : received.Got ((s.recordedFor c.rid).map Prod.snd))
    (hstream : ∀ events, received = .stream events → Streaming r.liveIds (some id) events)
    (hholder : ∀ j, s'.holder = some j → ∃ (d : Client) (done : Completion),
      s'.clients[j]? = some d ∧ d.received = .completion done ∧ done.response = none) :
    s'.Inv := by
  have hstepped : InferenceRunner.Stepped r r [] :=
    ⟨hr.inv, rfl, nodup_nil, nofun, fun _ hid _ => hid⟩
  refine h.serve hi hr hstepped (.inl rfl) hclients (hlog.trans (append_nil _).symm) hrunner ?_
    hstream hholder
  rw [append_nil]
  exact hgot

theorem Inv.requests_self (h : s.Inv) (hrid : c.rid = some id) :
    Requests s i c id s.runner where
  inv := h.runner
  counter := Nat.le_refl _
  live := fun _ hother => hother
  keep := fun _ hother => Option.some.inj (hrid.symm.trans hother)
  fresh := .inl hrid

theorem Inv.requests_new (h : s.Inv) (hrid : c.rid = none)
    (hr : r.Inv) (hcounter : r.scheduler.requestCounter = s.runner.scheduler.requestCounter + 1)
    (hlive : ∀ other, other ∈ r.liveIds ↔
      other = s!"req_{s.runner.scheduler.requestCounter + 1}" ∨ other ∈ s.runner.liveIds) :
    Requests s i c s!"req_{s.runner.scheduler.requestCounter + 1}" r where
  inv := hr
  counter := by omega
  live := fun other hother => (hlive other).2 (.inr hother)
  keep := fun other hother => by
    rw [hrid] at hother
    cases hother
  fresh := by
    refine .inr ⟨⟨_, le_of_eq hcounter.symm, rfl⟩, fun j d hd hid => ?_⟩
    obtain ⟨k, hk, hname⟩ := h.named j d _ hd hid
    have hsame := request_name_inj hname
    omega

/-! ## Completions -/

theorem Received.got_completion (hok : ∀ e, done.response ≠ some (.error e)) :
    (Received.completion done).Got own ↔ done.allTokens = own.map StepResult.tokenId ∧
      done.outputText = own.foldl (fun text res => text ++ res.text) "" := by
  unfold Received.Got
  cases hresponse : done.response with
  | none => simp only
  | some result =>
    cases result with
    | error e => exact absurd hresponse (hok e)
    | ok => simp only

theorem collect_got (hown : results = [] ∨ ∃ res, results = [res] ∧ res.requestId = id)
    (hgot : done.allTokens = own.map StepResult.tokenId ∧
      done.outputText = own.foldl (fun text res => text ++ res.text) "") :
    (done.collect id results).allTokens = (own ++ results).map StepResult.tokenId ∧
      (done.collect id results).outputText =
        (own ++ results).foldl (fun text res => text ++ res.text) "" ∧
      (done.collect id results).response = done.response := by
  rw [map_append, foldl_append, ← hgot.1, ← hgot.2]
  rcases hown with rfl | ⟨res, rfl, hid⟩
  · exact ⟨(append_nil _).symm, rfl, rfl⟩
  · rw [Completion.collect, if_pos hid]
    cases res.finished with
    | false => exact ⟨rfl, rfl, rfl⟩
    | true => exact ⟨rfl, rfl, rfl⟩

theorem Inv.turn (h : s.Inv)
    (hholder : s.holder = some i) (hi : s.clients[i]? = some c) (hrid : c.rid = some id)
    (hdone : c.received = .completion done)
    (hquiet : s.runner.hasWork = true → Undisturbed backend c.sampling id s.runner)
    (hout : s.turn backend i c id done = some s') : s'.Inv := by
  have hr : Requests s i c id s.runner := h.requests_self hrid
  have hlt : i < s.clients.length := (List.getElem?_eq_some_iff.1 hi).1
  have hresponse : done.response = none := by
    obtain ⟨c', done', hc', hreceived, hnone⟩ := h.holder i hholder
    rw [hi] at hc'
    cases hc'
    rw [hdone] at hreceived
    cases hreceived
    exact hnone
  have hgot := (h.clients i c hi).got
  rw [hdone, Received.got_completion (fun e he => by rw [hresponse] at he; cases he)] at hgot
  have hreturned : ∀ e, (some (.ok ()) : Option (Except String Unit)) ≠ some (.error e) :=
    fun e he => by cases he
  unfold Server.turn at hout
  by_cases hwork : s.runner.hasWork = true
  · rw [if_pos hwork] at hout
    obtain ⟨⟨result, s₁⟩, hstep, hout⟩ := Option.bind_eq_some_iff.1 hout
    obtain ⟨results, r', rfl, rfl, hstepped, hown⟩ :=
      runStep_cases h.runner (hquiet hwork) hstep
    obtain ⟨htokens, htext, hkeep⟩ := collect_got hown hgot
    dsimp only at hout
    by_cases hfinished : (done.collect id results).finished = true
    · -- the response, and the lock is free
      rw [if_pos hfinished] at hout
      cases hout
      refine h.serve hi hr hstepped hown rfl rfl rfl ?_ (fun events hevents => by cases hevents)
        (fun j hj => by cases hj)
      exact (Received.got_completion hreturned).2 ⟨htokens, htext⟩
    · rw [if_neg hfinished] at hout
      cases hout
      refine h.serve hi hr hstepped hown rfl rfl rfl ?_ (fun events hevents => by cases hevents)
        (fun j hj => ?_)
      · refine (Received.got_completion fun e he => ?_).2 ⟨htokens, htext⟩
        rw [hkeep, hresponse] at he
        cases he
      · have hsame : i = j := Option.some.inj (hholder.symm.trans hj)
        subst hsame
        exact ⟨_, _, getElem?_set_self hlt, rfl, hkeep.trans hresponse⟩
  · rw [if_neg hwork] at hout
    cases hout
    refine h.settle hi hr rfl rfl rfl ?_ (fun events hevents => by cases hevents)
      (fun j hj => by cases hj)
    exact (Received.got_completion hreturned).2 hgot

/-! ## Streams -/

theorem Inv.requestOf (h : s.Inv) (hok : (s.requestOf encode backend c).1 = .ok id) :
    Requests s i c id (s.requestOf encode backend c).2 ∧
      (c.rid = none → id ∈ (s.requestOf encode backend c).2.liveIds) := by
  unfold Server.requestOf at hok ⊢
  cases hrid : c.rid with
  | some =>
    rw [hrid] at hok
    cases hok
    exact ⟨h.requests_self hrid, nofun⟩
  | none =>
    rw [hrid] at hok
    dsimp only at hok ⊢
    rcases addRequest_cases h.runner encode backend c.prompt c.sampling with
      ⟨e, heq⟩ | ⟨r', heq, hinv, hcounter, hlive⟩
    · rw [heq] at hok
      cases hok
    · rw [heq] at hok ⊢
      cases hok
      exact ⟨h.requests_new hrid hinv hcounter hlive, fun _ => (hlive _).2 (.inl rfl)⟩

theorem pollEvent_own (hown : results = [] ∨ ∃ res, results = [res] ∧ res.requestId = id) :
    [pollEvent id results].filterMap StreamEvent.token? =
        results.map (fun res => (res.text, res.finished)) ∧
      ((pollEvent id results).plain ∧ (∀ res ∈ results, res.requestId = id → res.finished = false) ∨
        ∃ text, pollEvent id results = .token text true) := by
  rcases hown with rfl | ⟨res, rfl, hid⟩
  · exact ⟨rfl, .inl ⟨trivial, nofun⟩⟩
  · have hevent : pollEvent id [res] = .token res.text res.finished := by
      rw [pollEvent, find?_cons_of_pos (by simpa using hid)]
    rw [hevent]
    refine ⟨rfl, ?_⟩
    cases hfinished : res.finished with
    | true => exact .inr ⟨_, rfl⟩
    | false =>
      refine .inl ⟨rfl, fun res' hres' _ => ?_⟩
      rw [mem_singleton] at hres'
      rw [hres', hfinished]

theorem Inv.poll (h : s.Inv) (hholder : s.holder = none)
    (hi : s.clients[i]? = some c) (hevents : c.received = .stream events)
    (hopen : StreamEvent.done ∉ events)
    (hquiet : ∃ rid, (s.requestOf encode backend c).1 = .ok rid ∧
      ((s.requestOf encode backend c).2.hasWork = true → (∀ e ∈ events, e.stops = false) ∧
        Undisturbed backend c.sampling rid (s.requestOf encode backend c).2))
    (hout : s.poll encode backend i c events = some s') : s'.Inv := by
  obtain ⟨id, hok, hquiet⟩ := hquiet
  obtain ⟨hr, hadded⟩ := h.requestOf (i := i) hok
  generalize hreq : s.requestOf encode backend c = request at hok hr hadded hquiet
  obtain ⟨added, r⟩ := request
  obtain rfl : added = .ok id := hok
  have hclient := h.clients i c hi
  have hgot := hclient.got
  rw [hevents] at hgot
  -- the events so far, up to the last token if it was sent
  obtain ⟨before, hplain, hstate⟩ := hclient.stream events hevents
  have hlive : (∀ e ∈ events, e.stops = false) → (∀ e ∈ events, e.plain) ∧ id ∈ r.liveIds := by
    intro hnone
    have hmore : ∀ text, StreamEvent.token text true ∉ events := fun text hmem =>
      absurd (hnone _ hmem) (by decide : ¬ true = false)
    rcases hstate with ⟨rfl, _, hsome⟩ | ⟨_, text, rfl | rfl⟩
    · refine ⟨hplain, ?_⟩
      cases hrid : c.rid with
      | none => exact hadded hrid
      | some other =>
        rw [hr.keep other hrid]
        exact hr.live other (hsome other hrid)
    · exact absurd (mem_append_right _ mem_cons_self) (hmore text)
    · exact absurd (mem_append_right _ mem_cons_self) (hmore text)
  unfold Server.poll at hout
  rw [hreq] at hout
  dsimp only at hout
  by_cases hwork : r.hasWork = true
  · rw [if_pos hwork] at hout
    obtain ⟨hnone, hundisturbed⟩ := hquiet hwork
    obtain ⟨hplain, hmine⟩ := hlive hnone
    obtain ⟨⟨result, s₁⟩, hstep, hout⟩ := Option.bind_eq_some_iff.1 hout
    obtain ⟨results, r', rfl, rfl, hstepped, hown⟩ :=
      runStep_cases (s := { s with runner := r }) hr.inv hundisturbed hstep
    cases hout
    obtain ⟨htoken, hevent⟩ := pollEvent_own hown
    refine h.serve hi hr hstepped hown rfl rfl rfl ?_ (fun events' heq => ?_) (fun j hj => ?_)
    · show (events ++ [pollEvent id results]).filterMap StreamEvent.token? = _
      rw [filterMap_append, hgot, htoken, map_append]
    · obtain rfl := Received.stream.inj heq
      rcases hevent with ⟨hnow, hmore⟩ | ⟨text, hlast⟩
      · refine ⟨_, fun e he => ?_,
          .inl ⟨rfl, fun hnone => (by cases hnone), fun other hother => ?_⟩⟩
        · rcases mem_append.1 he with hold | hnew
          · exact hplain e hold
          · rw [mem_singleton] at hnew
            rw [hnew]
            exact hnow
        · cases hother
          exact hstepped.stays id hmine hmore
      · refine ⟨events, hplain, .inr ⟨Option.some_ne_none id, text, .inl ?_⟩⟩
        rw [hlast]
    · rw [show s.holder = some j from hj] at hholder
      cases hholder
  · -- the runner is idle: the last token has been sent
    rw [if_neg hwork] at hout
    cases hout
    refine h.settle hi hr rfl rfl rfl ?_ (fun events' heq => ?_) (fun j hj => ?_)
    · show (events ++ [StreamEvent.done]).filterMap StreamEvent.token? = _
      rw [filterMap_append, hgot]
      exact append_nil _
    · obtain rfl := Received.stream.inj heq
      refine ⟨before, hplain, .inr ⟨Option.some_ne_none id, ?_⟩⟩
      by_cases hnone : ∀ e ∈ events, e.stops = false
      · exact absurd (InferenceRunner.hasWork_of_live (hlive hnone).2) hwork
      · rcases hstate with ⟨rfl, _, _⟩ | ⟨_, text, rfl | rfl⟩
        · refine absurd (fun e he => ?_) hnone
          cases e with
          | token => exact hplain _ he
          | _ => rfl
        · refine ⟨text, .inr ?_⟩
          rw [append_assoc]
          rfl
        · exact absurd (mem_append_right _ (mem_cons_of_mem _ mem_cons_self)) hopen
    · rw [show s.holder = some j from hj] at hholder
      cases hholder

/-! ## Clients that come -/

theorem Inv.connect (h : s.Inv) {client : Client} (hrid : client.rid = none)
    (hgot : client.received.Got []) (hstream : ∀ events, client.received = .stream events →
      Streaming s.runner.liveIds none events) :
    ({ s with clients := s.clients ++ [client] } : Server heap ω).Inv := by
  have hcases : ∀ (j : Nat) (d : Client), (s.clients ++ [client])[j]? = some d →
      s.clients[j]? = some d ∨ d = client := by
    intro j d hd
    by_cases hlt : j < s.clients.length
    · rw [getElem?_append_left hlt] at hd
      exact .inl hd
    · rw [getElem?_append_right (not_lt.1 hlt)] at hd
      exact .inr (mem_singleton.1 (mem_of_getElem? hd))
  have hold : ∀ (j : Nat) (d : Client), s.clients[j]? = some d →
      (s.clients ++ [client])[j]? = some d := by
    intro j d hd
    rw [getElem?_append_left (List.getElem?_eq_some_iff.1 hd).1]
    exact hd
  have hnamed : ∀ (j : Nat) (d : Client) (rid : String), (s.clients ++ [client])[j]? = some d →
      d.rid = some rid → s.clients[j]? = some d := by
    intro j d rid hd hsome
    rcases hcases j d hd with hd | rfl
    · exact hd
    · rw [hrid] at hsome
      cases hsome
  refine ⟨h.runner, fun j d rid hd hsome => h.named j d rid (hnamed j d rid hd hsome) hsome,
    fun j k d d' rid hd hd' hsome hsome' => ?_, fun e he => ?_, fun j d hd => ?_, fun j hj => ?_⟩
  · exact h.distinct j k d d' rid (hnamed j d rid hd hsome) (hnamed k d' rid hd' hsome') hsome
      hsome'
  · obtain ⟨j, d, hd, howner⟩ := h.owned e he
    exact ⟨j, d, hold j d hd, howner⟩
  · rcases hcases j d hd with hd | rfl
    · exact h.clients j d hd
    · have hnone : ({ s with clients := s.clients ++ [d] } : Server heap ω).recordedFor d.rid =
          [] := by
        rw [hrid]
        exact recordedFor_none _
      rw [hnone]
      refine ⟨hgot, nofun, fun events hevents => ?_⟩
      rw [hrid]
      exact hstream events hevents
  · obtain ⟨d, done, hd, hreceived⟩ := h.holder j hj
    exact ⟨d, done, hold j d hd, hreceived⟩

theorem Inv.acquire (h : s.Inv)
    (hholder : s.holder = none) (hi : s.clients[i]? = some c) (hrid : c.rid = none)
    (hdone : c.received = .completion done) (hresponse : done.response = none) :
    (s.acquire encode backend i c done).Inv := by
  have hlt : i < s.clients.length := (List.getElem?_eq_some_iff.1 hi).1
  have hgot := (h.clients i c hi).got
  unfold Server.acquire
  rcases addRequest_cases h.runner encode backend c.prompt c.sampling with
    ⟨e, heq⟩ | ⟨r', heq, hinv, hcounter, hlive⟩
  · -- refused: nothing was recorded
    rw [heq]
    dsimp only
    refine h.advance hi rfl (append_nil _).symm h.runner le_rfl (fun other hother => ?_)
      (fun other hother => by cases hother) (nofun)
      (fun other hother _ => hother) ?_ (fun j hj => ?_)
    · rw [hrid] at hother
      cases hother
    · show ClientOk s.runner.liveIds (s.recordedFor none) _
      rw [recordedFor_none]
      exact ⟨rfl, nofun, fun events hevents => by cases hevents⟩
    · rw [show s.holder = some j from hj] at hholder
      cases hholder
  · rw [heq]
    dsimp only
    refine h.settle hi (h.requests_new hrid hinv hcounter hlive) rfl rfl rfl hgot
      (fun events hevents => ?_) (fun j hj => ?_)
    · rw [hdone] at hevents
      cases hevents
    · cases hj
      exact ⟨_, done, getElem?_set_self hlt, hdone, hresponse⟩

theorem Inv.next (h : s.Inv) {e : ServerEvent} (hquiet : Quiet encode backend s e)
    (hout : s.next encode backend e = some s') : s'.Inv := by
  cases e with
  | connect prompt sampling streaming =>
    cases hout
    cases streaming with
    | true =>
      refine h.connect rfl rfl fun events hevents => ?_
      obtain rfl := Received.stream.inj hevents
      exact ⟨[], nofun,
        .inl ⟨rfl, fun _ => rfl, fun id hid => by cases hid⟩⟩
    | false => exact h.connect rfl ⟨rfl, rfl⟩ fun events hevents => by cases hevents
  | acquire i =>
    obtain ⟨c, hi, hout⟩ := Option.bind_eq_some_iff.1 hout
    split at hout
    · rename_i done hholder hrid hdone
      split at hout
      · rename_i hresponse
        cases hout
        exact h.acquire hholder hi hrid hdone (Option.isNone_iff_eq_none.1 hresponse)
      · cases hout
    · cases hout
  | turn =>
    obtain ⟨i, hholder, hout⟩ := Option.bind_eq_some_iff.1 hout
    obtain ⟨c, hi, hout⟩ := Option.bind_eq_some_iff.1 hout
    obtain ⟨id, hrid, hout⟩ := Option.bind_eq_some_iff.1 hout
    split at hout
    · rename_i done hdone
      exact h.turn hholder hi hrid hdone (hquiet i hholder c hi id hrid) hout
    · cases hout
  | poll i =>
    obtain ⟨c, hi, hout⟩ := Option.bind_eq_some_iff.1 hout
    split at hout
    · rename_i events hholder hevents
      split at hout
      · cases hout
      · rename_i hopen
        obtain ⟨id, hid, hwork⟩ := hquiet c hi events (by rw [hevents]; rfl)
        have hok : (s.requestOf encode backend c).1 = .ok id := by
          cases hrequest : (s.requestOf encode backend c).1 with
          | error =>
            rw [hrequest] at hid
            cases hid
          | ok =>
            rw [hrequest] at hid
            cases hid
            rfl
        exact h.poll hholder hi hevents hopen ⟨id, hok, hwork⟩ hout
    · cases hout

/-- In a run of quiet events the clients are isolated. -/
theorem isolated_of_run {executor : ω} {config : RunnerConfig} {r₀ : InferenceRunner heap ω}
    {es : List ServerEvent} (hnew : InferenceRunner.new heap backend executor config = .ok r₀)
    (hrun : Run (fun s e s' => Quiet encode backend s e ∧ s.next encode backend e = some s')
      (start r₀) es s) : s.Isolated := by
  have hinv : s.Inv := hrun.invariant (I := Inv) (Inv.start (InferenceRunner.Inv.new hnew))
    fun m e m' hm hstep => hm.next hstep.1 hstep.2
  exact hinv.isolated

end Step

/-! ## Two clients one after the other, and two at once -/

instance decidableGot (results : List StepResult) : ∀ r : Received, Decidable (r.Got results)
  | .stream _ => inferInstanceAs (Decidable (_ = _))
  | .completion ⟨_, _, _, none⟩ => inferInstanceAs (Decidable (_ ∧ _))
  | .completion ⟨_, _, _, some (.ok _)⟩ => inferInstanceAs (Decidable (_ ∧ _))
  | .completion ⟨_, _, _, some (.error _)⟩ => inferInstanceAs (Decidable (_ = _))

/-- The events of a run, as far as they are quiet and can happen. -/
def quietNext (s : Server heap ω) (e : ServerEvent) : Option (Server heap ω) :=
  if Quiet encode backend s e then s.next encode backend e else none

theorem run_of_quietNext {encode : String → Except String (List UInt32)} {backend : Backend ω}
    {es : List ServerEvent} (h : es.foldlM (quietNext encode backend) s = some s') :
    Run (fun s e s' => Quiet encode backend s e ∧ s.next encode backend e = some s') s es s' := by
  refine Run.of_foldlM (fun m e m' hm => ?_) h
  unfold quietNext at hm
  by_cases hquiet : Quiet encode backend m e
  · rw [if_pos hquiet] at hm
    exact ⟨hquiet, hm⟩
  · rw [if_neg hquiet] at hm
    cases hm

def encodeFive (_ : String) : Except String (List UInt32) := .ok [5]

/-- A stream up to its `[DONE]`, then a completion that came before the end of the stream. -/
def inTurn : List ServerEvent :=
  [.connect "a" .default true, .poll 0, .connect "b" .greedy false, .poll 0, .poll 0,
    .acquire 1, .turn, .turn]

/-- Two streams, polled in turn. -/
def atOnce : List ServerEvent :=
  [.connect "a" .default true, .connect "b" .greedy true, .poll 0, .poll 1]

theorem isolated_of_run_witness :
    ∃ (r₀ : InferenceRunner listHeap Unit) (s : Server listHeap Unit),
      InferenceRunner.new listHeap constantBackend () (pairConfig 4 2) = .ok r₀ ∧
      Run (fun s e s' => Quiet encodeFive constantBackend s e ∧
        s.next encodeFive constantBackend e = some s') (start r₀) inTurn s ∧
      s.log.map (fun e => e.2.requestId) = ["req_1", "req_1", "req_2", "req_2"] ∧ s.Isolated := by
  obtain ⟨r₀, hnew⟩ : ∃ r₀ : InferenceRunner listHeap Unit,
    InferenceRunner.new listHeap constantBackend () (pairConfig 4 2) = .ok r₀ := ⟨_, rfl⟩
  have hcalls : (inTurn.foldlM (quietNext encodeFive constantBackend) (start r₀)).any (fun s =>
      s.log.map (fun e => e.2.requestId) = ["req_1", "req_1", "req_2", "req_2"]) = true := by
    cases hnew
    decide +kernel
  obtain ⟨s, hfold, hlog⟩ := (Option.any_eq_true ..).1 hcalls
  have hrun := run_of_quietNext hfold
  exact ⟨r₀, s, hnew, hrun, of_decide_eq_true hlog, isolated_of_run hnew hrun⟩

/-- The second client steps the first request too, with its own settings, and drops the token. -/
theorem isolated_fails :
    ∃ (r₀ : InferenceRunner listHeap Unit) (s : Server listHeap Unit),
      InferenceRunner.new listHeap constantBackend () (pairConfig 4 2) = .ok r₀ ∧
      Run (fun s e s' => s.next encodeFive constantBackend e = some s') (start r₀) atOnce s ∧
      s.log = [(.default, ⟨"req_1", 0, "", false⟩), (.greedy, ⟨"req_1", 0, "", true⟩),
        (.greedy, ⟨"req_2", 0, "", false⟩)] ∧
      ¬ s.Isolated := by
  obtain ⟨r₀, hnew⟩ : ∃ r₀ : InferenceRunner listHeap Unit,
    InferenceRunner.new listHeap constantBackend () (pairConfig 4 2) = .ok r₀ := ⟨_, rfl⟩
  have hcalls : (atOnce.foldlM (next encodeFive constantBackend) (start r₀)).any (fun s =>
        decide (s.log = [(.default, ⟨"req_1", 0, "", false⟩),
          (.greedy, ⟨"req_1", 0, "", true⟩), (.greedy, ⟨"req_2", 0, "", false⟩)]) &&
        decide (¬ ∀ c ∈ s.clients, c.received.Got ((s.recordedFor c.rid).map Prod.snd))) =
      true := by
    cases hnew
    decide +kernel
  obtain ⟨s, hfold, hany⟩ := (Option.any_eq_true ..).1 hcalls
  obtain ⟨hlog, hgot⟩ := Bool.and_eq_true_iff.1 hany
  exact ⟨r₀, s, hnew, Run.of_foldlM (fun _ _ _ h => h) hfold, of_decide_eq_true hlog,
    fun h => of_decide_eq_true hgot h.delivered⟩

end Server

end CompileForge.Runtime
