/-
  One step of the runner, request by request.
-/

import CompileForge.Runtime.Engine.RunnerInvariant

namespace CompileForge.Runtime

open Lib List

variable {heap : MaxHeap QueueEntry QueueEntry.rank} {ω : Type}

namespace InferenceRunner

variable {r r' : InferenceRunner heap ω} {backend : Backend ω} {sampling : SamplerConfig}
  {req : ScheduledRequest} {rid : String} {tokenId : UInt32}

/-! ## The forward pass -/

/-- A forward pass changes the pool and the executor only. -/
structure Forwarded (r r' : InferenceRunner heap ω) : Prop where
  eq : r' = { r with blockManager := r'.blockManager, executor := r'.executor }
  pool : Pooled r.config.useKvCache r.kvLayerIds r.held r.runningIds r'.blockManager
  tables : ∀ key ∈ r.blockManager.blockTables, key ∈ r'.blockManager.blockTables

theorem Forwarded.inv (hf : Forwarded r r') (h : r.Inv) : r'.Inv := by
  rw [hf.eq]
  exact ⟨h.kv_eq, h.perStep_eq, h.noHits, h.ids, h.named, h.prompts, h.queued, h.active, h.tree,
    hf.pool⟩

theorem forward_spec (h : r.Inv) (hrid : req.requestId ∈ r.runningIds)
    {result : Except String (List F32)} (hout : r.forward backend req = some (result, r')) :
    Forwarded r r' := by
  unfold forward at hout
  split at hout
  · have hensured := h.pool.ensureLayers hrid (kvTargetTokens req)
    have hmono : ∀ key ∈ r.blockManager.blockTables, key ∈ (ensureKvLayerBlocks req.requestId
        (kvTargetTokens req) r.kvLayerIds r.blockManager).2.blockTables :=
      ensureKvLayerBlocks_rule
        (P := fun bm => ∀ key ∈ r.blockManager.blockTables, key ∈ bm.blockTables)
        (fun fi _ bm bm' hbm hgrows key hkey => hgrows.mem_tables.1 (hbm key hkey))
        (fun key hkey => hkey) (kvTargetTokens req)
    split at hout
    · rename_i e bm heq
      rw [heq] at hensured hmono
      cases hout
      exact ⟨rfl, hensured, hmono⟩
    · rename_i bm heq
      rw [heq] at hensured hmono
      split at hout
      · cases hout
      · rename_i logits bm' executor hforward
        cases hout
        refine ⟨rfl, hensured.sameLedger bm'.2, fun key hkey => ?_⟩
        show key ∈ bm'.1.blockTables
        rw [bm'.2.blockTables_eq]
        exact hmono key hkey
  · split at hout
    · cases hout
    · cases hout
      exact ⟨rfl, h.pool, fun key hkey => hkey⟩

theorem sampleToken_forwarded (h : r.Inv) (backend : Backend ω) (sampling : SamplerConfig)
    (req : ScheduledRequest) (allLogits : List F32) :
    Forwarded r (r.sampleToken backend sampling req allLogits).2 := by
  unfold sampleToken
  split
  · exact ⟨rfl, h.pool, fun key hkey => hkey⟩
  · split
    · exact ⟨rfl, h.pool, fun key hkey => hkey⟩
    · exact ⟨rfl, h.pool, fun key hkey => hkey⟩

variable {r₁ r₂ : InferenceRunner heap ω} {allLogits : List F32} {request : Request}
  {result : Except String (Option StepResult)} {batch : List ScheduledRequest}

theorem Forwarded.trans (hf : Forwarded r r₁) (hf' : Forwarded r₁ r₂) : Forwarded r r₂ := by
  refine ⟨?_, ?_, fun key hkey => hf'.tables key (hf.tables key hkey)⟩
  · rw [hf'.eq, hf.eq]
  · have hpool := hf'.pool
    rw [hf.eq] at hpool
    exact hpool

theorem forwarded_sampled (h : r.Inv) (hrid : req.requestId ∈ r.runningIds) {token? : Option UInt32}
    (hforward : r.forward backend req = some (.ok allLogits, r₁))
    (hsample : r₁.sampleToken backend sampling req allLogits = (token?, r₂)) :
    Forwarded r r₂ := by
  have hf := forward_spec h hrid hforward
  have hsampled := sampleToken_forwarded (hf.inv h) backend sampling req allLogits
  rw [hsample] at hsampled
  exact hf.trans hsampled

theorem state_of_sampled
    (hsample : r.sampleToken backend sampling req allLogits = (some tokenId, r')) :
    req.state ≠ .prefill := by
  intro hprefill
  unfold sampleToken at hsample
  rw [if_pos hprefill, ite_self] at hsample
  cases hsample

/-! ## Recording a token -/

variable (r rid tokenId request)

def recorded : List Request :=
  updateFirst (fun req => req.requestId = rid) (fun req => (Scheduler.recordToken req tokenId).1)
    r.scheduler.running

/-- The runner without a finished request, `inserted` being cache and pool behind it. -/
def left (inserted : RadixCache × BlockManager) : InferenceRunner heap ω :=
  { r with
    scheduler := { r.scheduler with
      running := r.scheduler.running.eraseP fun req => req.requestId = rid }
    radixCache := inserted.1
    blockManager :=
      if r.config.useKvCache then
        flushKvLayerBlocks rid r.kvLayerIds (inserted.2.flushRequest rid)
      else inserted.2 }

theorem cacheEntry_eq : r.cacheEntry rid request =
    (request.promptTokens ++ request.outputTokens, r.blockManager.table rid) := by
  unfold cacheEntry BlockManager.getBlocks BlockManager.table
  cases r.blockManager.blockTables.lookup rid <;> rfl

variable {r rid tokenId request}

theorem finishRequest_eq (hfind : r.scheduler.runningRequest rid = some request)
    (hne : request.promptTokens ++ request.outputTokens ≠ []) :
    r.finishRequest rid = (r.radixCache.insert (request.promptTokens ++ request.outputTokens)
      (r.blockManager.table rid) r.blockManager).map (r.left rid) := by
  have htokens : (request.promptTokens ++ request.outputTokens).isEmpty = false :=
    isEmpty_eq_false_iff.2 hne
  have htaken : r.scheduler.getFinishedRequest rid = (some request,
      { r.scheduler with
        running := r.scheduler.running.eraseP fun req => req.requestId = rid }) := by
    rw [Scheduler.getFinishedRequest, hfind]
  simp only [finishRequest, htaken, cacheEntry_eq, htokens, Bool.false_eq_true, if_false]
  cases r.radixCache.insert (request.promptTokens ++ request.outputTokens)
      (r.blockManager.table rid) r.blockManager with
  | none => rfl
  | some inserted =>
    cases hkv : r.config.useKvCache with
    | true => simp [left, hkv]
    | false => simp [left, hkv]

theorem outputTokens_recordToken (req : Request) (tokenId : UInt32) :
    (Scheduler.recordToken req tokenId).1.outputTokens = req.outputTokens ++ [tokenId] := by
  rcases Scheduler.recordToken_cases req tokenId with ⟨heq, -⟩ | ⟨heq, -⟩
  · rw [heq]
    rfl
  · rw [heq]
    rfl

/-- A recorded token extends its request, or takes it out of the runner. -/
theorem recordToken_cases (hrid : rid ∈ r.runningIds) :
    ∃ request ∈ r.scheduler.running, request.requestId = rid ∧
      (((Scheduler.recordToken request tokenId).2 = false ∧ r.recordToken backend rid tokenId =
          some (⟨rid, tokenId, backend.decodeToken tokenId, false⟩,
            { r with scheduler := { r.scheduler with running := r.recorded rid tokenId } })) ∨
      ((Scheduler.recordToken request tokenId).2 = true ∧ r.recordToken backend rid tokenId =
          (r.radixCache.insert (request.promptTokens ++ (request.outputTokens ++ [tokenId]))
            (r.blockManager.table rid) r.blockManager).map fun inserted =>
              (⟨rid, tokenId, backend.decodeToken tokenId, true⟩, r.left rid inserted))) := by
  obtain ⟨old, hold, hid⟩ := mem_map.1 hrid
  obtain ⟨request, hfind⟩ : ∃ request, r.scheduler.runningRequest rid = some request := by
    cases hfind : r.scheduler.runningRequest rid with
    | some request => exact ⟨request, rfl⟩
    | none =>
      have := find?_eq_none.1 hfind old hold
      exact absurd (decide_eq_true hid) this
  have hmem : request ∈ r.scheduler.running := mem_of_find?_eq_some hfind
  have hname : request.requestId = rid := by simpa using find?_some hfind
  refine ⟨request, hmem, hname, ?_⟩
  have hsame : ∀ req : Request, decide ((Scheduler.recordToken req tokenId).1.requestId = rid) =
      decide (req.requestId = rid) := by
    intro req
    rw [Scheduler.requestId_recordToken]
  -- the request taken out is the one recorded
  have htaken : ((r.recorded rid tokenId).find? fun req => req.requestId = rid) =
      some (Scheduler.recordToken request tokenId).1 := by
    have hfound : (r.scheduler.running.find? fun req => req.requestId = rid) = some request := hfind
    rw [recorded, find?_updateFirst hsame, hfound]
    rfl
  have herase : ((r.recorded rid tokenId).eraseP fun req => req.requestId = rid) =
      r.scheduler.running.eraseP fun req => req.requestId = rid := eraseP_updateFirst hsame
  cases hlast : (Scheduler.recordToken request tokenId).2 with
  | false =>
    refine .inl ⟨rfl, ?_⟩
    simp only [recordToken, Scheduler.recordOutput, hfind, hlast]
    rfl
  | true =>
    refine .inr ⟨rfl, ?_⟩
    have htokens : (Scheduler.recordToken request tokenId).1.promptTokens ++
        (Scheduler.recordToken request tokenId).1.outputTokens =
          request.promptTokens ++ (request.outputTokens ++ [tokenId]) := by
      rcases Scheduler.recordToken_cases request tokenId with ⟨heq, -⟩ | ⟨heq, -⟩
      · rw [heq]
        rfl
      · rw [heq]
        rfl
    have hfinish := finishRequest_eq
      (r := { r with scheduler := { r.scheduler with running := r.recorded rid tokenId } })
      htaken (by rw [htokens]; simp)
    rw [htokens] at hfinish
    have hleft : InferenceRunner.left
        { r with scheduler := { r.scheduler with running := r.recorded rid tokenId } } rid =
          r.left rid := by
      funext inserted
      simp only [left, herase]
    rw [hleft] at hfinish
    simp only [recordToken, Scheduler.recordOutput, hfind, hlast, if_true]
    exact (congrArg _ hfinish).trans (Option.map_map ..)

variable (rid tokenId r)

theorem map_requestId_updateFirst (l : List Request) : (updateFirst (fun req => req.requestId = rid)
    (fun req => (Scheduler.recordToken req tokenId).1) l).map Request.requestId = l.map
    Request.requestId := by
  have hmap := Driver.map_updateFirst (p := fun req : Request => req.requestId = rid)
    (q := fun id => id = rid) (f := fun req => (Scheduler.recordToken req tokenId).1) (g := id)
    Request.requestId (fun _ => rfl) (fun req => Scheduler.requestId_recordToken req tokenId) l
  rw [hmap, Driver.updateFirst_id]

theorem runningIds_recorded : (r.recorded rid tokenId).map Request.requestId = r.runningIds :=
  map_requestId_updateFirst rid tokenId r.scheduler.running

variable {rid tokenId r}

/-- A request that is not finished by its token stays, with one token more. -/
theorem Inv.recorded (h : r.Inv) (hmem : request ∈ r.scheduler.running)
    (hid : request.requestId = rid) (hmore : (Scheduler.recordToken request tokenId).2 = false) :
    ({ r with scheduler := { r.scheduler with running := r.recorded rid tokenId } } :
      InferenceRunner heap ω).Inv := by
  have hids := runningIds_recorded r rid tokenId
  have hold : ∀ req ∈ r.recorded rid tokenId, ∃ old ∈ r.scheduler.running,
      old.requestId = req.requestId ∧ old.promptTokens = req.promptTokens ∧
        old.state = req.state := by
    intro req hreq
    rcases Driver.mem_updateFirst_key h.runningIds_nodup hreq with
      ⟨hsame, -⟩ | ⟨old, hold, hkey, rfl⟩
    · exact ⟨req, hsame, rfl, rfl, rfl⟩
    · -- ids are distinct, so this is the request itself
      have heq : old = request := inj_on_of_nodup_map h.runningIds_nodup hold hmem
        (hkey.trans hid.symm)
      subst heq
      refine ⟨old, hold, ?_⟩
      rcases Scheduler.recordToken_cases old tokenId with ⟨hlast, -⟩ | ⟨hnext, -⟩
      · rw [hlast] at hmore
        cases hmore
      · rw [hnext]
        exact ⟨rfl, rfl, rfl⟩
  have hlive : ∀ req ∈ r.recorded rid tokenId ++ r.waitingRequests, ∃ old ∈ r.liveRequests,
      old.requestId = req.requestId ∧ old.promptTokens = req.promptTokens := by
    intro req hreq
    rcases mem_append.1 hreq with hrun | hwait
    · obtain ⟨old, hmem, hname, hprompt, -⟩ := hold req hrun
      exact ⟨old, mem_append_left _ hmem, hname, hprompt⟩
    · exact ⟨req, mem_append_right _ hwait, rfl, rfl⟩
  refine ⟨h.kv_eq, h.perStep_eq, h.noHits, ?_, fun req hreq => ?_, fun req hreq => ?_, h.queued,
    fun req hreq => ?_, h.tree, ?_⟩
  · show ((r.recorded rid tokenId ++ r.waitingRequests).map Request.requestId).Nodup
    rw [map_append, hids]
    have hnodup := h.ids
    rw [liveRequests, map_append] at hnodup
    exact hnodup
  · obtain ⟨old, hmem, hname, -⟩ := hlive req hreq
    rw [← hname]
    exact h.named old hmem
  · obtain ⟨old, hmem, -, hprompt⟩ := hlive req hreq
    rw [← hprompt]
    exact h.prompts old hmem
  · obtain ⟨old, hmem, -, -, hstate⟩ := hold req hreq
    rw [← hstate]
    exact h.active old hmem
  · show Pooled _ _ _ ((r.recorded rid tokenId).map Request.requestId) _
    rw [hids]
    exact h.pool

theorem key_notMem_eraseP {l : List Request} (hnodup : (l.map Request.requestId).Nodup) :
    rid ∉ (l.eraseP fun req => req.requestId = rid).map Request.requestId := by
  induction l with
  | nil => exact not_mem_nil
  | cons req l ih =>
    rw [map_cons, nodup_cons] at hnodup
    by_cases hreq : req.requestId = rid
    · have htail : ((req :: l).eraseP fun req => req.requestId = rid) = l :=
        eraseP_cons_of_pos (by simpa using hreq)
      rw [htail, ← hreq]
      exact hnodup.1
    · rw [eraseP_cons_of_neg (by simpa using hreq), map_cons, mem_cons]
      rintro (heq | hmem)
      · exact hreq heq.symm
      · exact ih hnodup.2 hmem

theorem Inv.left (h : r.Inv) {tokens : List UInt32} {inserted : RadixCache × BlockManager}
    (hins : r.radixCache.insert tokens (r.blockManager.table rid) r.blockManager =
      some inserted) : (r.left rid inserted).Inv := by
  have hsub : ∀ req ∈ (r.left rid inserted).scheduler.running, req ∈ r.scheduler.running :=
    fun req hreq => mem_of_mem_eraseP hreq
  have hlive : ((r.left rid inserted).liveRequests).Sublist r.liveRequests :=
    eraseP_sublist.append (List.Sublist.refl _)
  obtain ⟨hexact, hwf, htables⟩ := exact_insert h.pool.exact h.tree (fun b hb => by
    have hpos := BlockManager.tableRefs_pos hb
    omega) hins
  have hinserted : Pooled r.config.useKvCache r.kvLayerIds
      (fun b => inserted.1.root.heldBlocks.count b) r.runningIds inserted.2 := by
    refine ⟨hexact, ?_⟩
    rw [htables]
    exact h.pool.owned
  refine ⟨h.kv_eq, h.perStep_eq, h.noHits, h.ids.sublist (hlive.map _),
    fun req hreq => h.named req (hlive.subset hreq),
    fun req hreq => h.prompts req (hlive.subset hreq), h.queued,
    fun req hreq => h.active req (hsub req hreq), hwf, ?_⟩
  show Pooled r.config.useKvCache r.kvLayerIds (fun b => inserted.1.root.heldBlocks.count b) _
    (if r.config.useKvCache then
      flushKvLayerBlocks rid r.kvLayerIds (inserted.2.flushRequest rid) else inserted.2)
  cases hkv : r.config.useKvCache with
  | true =>
    rw [hkv] at hinserted
    refine hinserted.flush rid fun other hother hne => ?_
    obtain ⟨req, hreq, rfl⟩ := mem_map.1 hother
    exact mem_map_of_mem ((mem_eraseP_of_neg (by simpa using hne)).2 hreq)
  | false => exact ⟨hexact, nofun⟩

/-! ## One request of a batch -/

/-- Everything the body of the loop over a batch can do. -/
inductive RequestOutcome (backend : Backend ω) (sampling : SamplerConfig)
    (r : InferenceRunner heap ω) (req : ScheduledRequest) :
    Except String (Option StepResult) → InferenceRunner heap ω → Prop
  | skipped (hempty : req.inputIds = []) : RequestOutcome backend sampling r req (.ok none) r
  | failed {e : String} {r' : InferenceRunner heap ω}
      (hforward : r.forward backend req = some (.error e, r')) :
      RequestOutcome backend sampling r req (.error e) r'
  | unsampled {allLogits : List F32} {r₁ r' : InferenceRunner heap ω}
      (hforward : r.forward backend req = some (.ok allLogits, r₁))
      (hsample : r₁.sampleToken backend sampling req allLogits = (none, r')) :
      RequestOutcome backend sampling r req (.ok none) r'
  | sampled {allLogits : List F32} {tokenId : UInt32} {r₁ r₂ r' : InferenceRunner heap ω}
      {res : StepResult} (hforward : r.forward backend req = some (.ok allLogits, r₁))
      (hsample : r₁.sampleToken backend sampling req allLogits = (some tokenId, r₂))
      (hrecord : r₂.recordToken backend req.requestId tokenId = some (res, r')) :
      RequestOutcome backend sampling r req (.ok (some res)) r'

/-- What processing one request of a batch can do. -/
theorem processRequest_outcome (hout : r.processRequest backend sampling req = some (result, r')) :
    RequestOutcome backend sampling r req result r' := by
  unfold InferenceRunner.processRequest at hout
  split at hout
  · rename_i hempty
    cases hout
    exact .skipped (isEmpty_iff.1 hempty)
  · split at hout
    · cases hout
    · rename_i e r₁ hforward
      cases hout
      exact .failed hforward
    · rename_i allLogits r₁ hforward
      split at hout
      · rename_i r₂ hsample
        cases hout
        exact .unsampled hforward hsample
      · rename_i tokenId r₂ hsample
        obtain ⟨out, hrecord, hpair⟩ := Option.map_eq_some_iff.1 hout
        cases hpair
        exact .sampled hforward hsample hrecord

/-- A recorded token extends its request, or takes it out. -/
structure Processed (r r' : InferenceRunner heap ω) (rid : String)
    (result : Except String (Option StepResult)) : Prop where
  inv : r'.Inv
  config_eq : r'.config = r.config
  subset : ∀ id ∈ r'.runningIds, id ∈ r.runningIds
  others : ∀ id ∈ r.runningIds, id ≠ rid → id ∈ r'.runningIds
  result_eq : ∀ res, result = .ok (some res) →
    res.requestId = rid ∧ (res.finished = true → rid ∉ r'.runningIds)
  tables : r.config.useKvCache = false →
    ∀ key ∈ r.blockManager.blockTables, key ∈ r'.blockManager.blockTables

theorem Forwarded.runningIds_eq (hf : Forwarded r r') : r'.runningIds = r.runningIds := by
  rw [hf.eq]
  rfl

theorem Forwarded.scheduler_eq (hf : Forwarded r r') : r'.scheduler = r.scheduler := by
  rw [hf.eq]

theorem Forwarded.config_eq (hf : Forwarded r r') : r'.config = r.config := by
  rw [hf.eq]

theorem Forwarded.processed (hf : Forwarded r r') (h : r.Inv)
    (hnone : ∀ res, result ≠ .ok (some res)) :
    Processed r r' rid result := by
  refine ⟨hf.inv h, hf.config_eq, fun id hid => ?_, fun id hid _ => ?_,
    fun res hres => absurd hres (hnone res), fun _ => hf.tables⟩
  · rw [hf.runningIds_eq] at hid
    exact hid
  · rw [hf.runningIds_eq]
    exact hid

theorem Inv.recordToken (h : r.Inv) (hrid : rid ∈ r.runningIds) {res : StepResult}
    (hout : r.recordToken backend rid tokenId = some (res, r')) :
    Processed r r' rid (.ok (some res)) := by
  obtain ⟨request, hmem, hid, ⟨hmore, heq⟩ | ⟨hlast, heq⟩⟩ := recordToken_cases hrid
  · rw [heq] at hout
    cases hout
    have hids := runningIds_recorded r rid tokenId
    refine ⟨h.recorded hmem hid hmore, rfl, fun id hmem => ?_, fun id hmem _ => ?_,
      fun res hres => ?_, fun _ key hkey => hkey⟩
    · rw [← hids]
      exact hmem
    · show id ∈ (r.recorded rid tokenId).map Request.requestId
      rw [hids]
      exact hmem
    · cases hres
      exact ⟨rfl, nofun⟩
  · rw [heq] at hout
    obtain ⟨inserted, hins, hpair⟩ := Option.map_eq_some_iff.1 hout
    cases hpair
    refine ⟨h.left hins, rfl, fun id hid => ?_, fun id hid hne => ?_, fun res hres => ?_,
      fun hkv key hkey => ?_⟩
    · obtain ⟨req, hreq, rfl⟩ := mem_map.1 hid
      exact mem_map_of_mem (mem_of_mem_eraseP hreq)
    · obtain ⟨req, hreq, rfl⟩ := mem_map.1 hid
      exact mem_map_of_mem ((mem_eraseP_of_neg (by simpa using hne)).2 hreq)
    · cases hres
      exact ⟨rfl, fun _ => key_notMem_eraseP h.runningIds_nodup⟩
    · obtain ⟨-, -, htables⟩ := exact_insert h.pool.exact h.tree (fun b hb => by
        have hpos := BlockManager.tableRefs_pos hb
        omega) hins
      show key ∈ (if r.config.useKvCache then _ else inserted.2).blockTables
      rw [hkv, if_neg (by decide), htables]
      exact hkey

theorem Forwarded.andThen (hf : Forwarded r r₁) (hp : Processed r₁ r₂ rid result) :
    Processed r r₂ rid result := by
  refine ⟨hp.inv, hp.config_eq.trans hf.config_eq, fun id hid => ?_, fun id hid hne => ?_,
    hp.result_eq, fun hkv key hkey => ?_⟩
  · have hmem := hp.subset id hid
    rw [hf.runningIds_eq] at hmem
    exact hmem
  · have hmem : id ∈ r₁.runningIds := by
      rw [hf.runningIds_eq]
      exact hid
    exact hp.others id hmem hne
  · rw [← hf.config_eq] at hkv
    exact hp.tables hkv key (hf.tables key hkey)

theorem Inv.processRequest (h : r.Inv) (hrid : req.requestId ∈ r.runningIds)
    (hout : r.processRequest backend sampling req = some (result, r')) :
    Processed r r' req.requestId result := by
  have hsame : Forwarded r r := ⟨rfl, h.pool, fun key hkey => hkey⟩
  cases processRequest_outcome hout with
  | skipped hempty => exact hsame.processed h fun res heq => by cases heq
  | failed hforward => exact (forward_spec h hrid hforward).processed h fun res heq => by cases heq
  | unsampled hforward hsample =>
    exact (forwarded_sampled h hrid hforward hsample).processed h fun res heq => by cases heq
  | sampled hforward hsample hrecord =>
    have hf := forwarded_sampled h hrid hforward hsample
    exact hf.andThen ((hf.inv h).recordToken (hf.runningIds_eq ▸ hrid) hrecord)

/-! ## A batch -/

theorem Processed.still_running {sr : ScheduledRequest} (hp : Processed r r' sr.requestId result)
    (hrunning : ∀ sr' ∈ sr :: batch, sr'.requestId ∈ r.runningIds)
    (hnew : sr.requestId ∉ batch.map ScheduledRequest.requestId) :
    ∀ sr' ∈ batch, sr'.requestId ∈ r'.runningIds := by
  intro sr' hsr'
  refine hp.others _ (hrunning sr' (mem_cons_of_mem sr hsr')) fun heq => ?_
  exact hnew (heq ▸ mem_map_of_mem hsr')

/-- What a batch does to the runner; `ids` are the requests it schedules. -/
structure Served (r r' : InferenceRunner heap ω) (ids : List String)
    (result : Except String (List StepResult)) : Prop where
  inv : r'.Inv
  config_eq : r'.config = r.config
  subset : ∀ id ∈ r'.runningIds, id ∈ r.runningIds
  others : ∀ id ∈ r.runningIds, id ∉ ids → id ∈ r'.runningIds
  result_eq : ∀ results, result = .ok results → ∀ res ∈ results,
    res.requestId ∈ ids ∧ (res.finished = true → res.requestId ∉ r'.runningIds)
  tables : r.config.useKvCache = false →
    ∀ key ∈ r.blockManager.blockTables, key ∈ r'.blockManager.blockTables

theorem Inv.processBatch (h : r.Inv) (hrunning : ∀ sr ∈ batch, sr.requestId ∈ r.runningIds)
    (hnodup : (batch.map ScheduledRequest.requestId).Nodup)
    {result : Except String (List StepResult)}
    (hout : InferenceRunner.processBatch backend sampling batch r = some (result, r')) :
    Served r r' (batch.map ScheduledRequest.requestId) result := by
  induction batch generalizing r result with
  | nil =>
    cases hout
    refine ⟨h, rfl, fun _ hid => hid, fun _ hid _ => hid, fun results heq res hres => ?_,
      fun _ _ hkey => hkey⟩
    cases heq
    cases hres
  | cons sr rest ih =>
    rw [InferenceRunner.processBatch] at hout
    rw [map_cons, nodup_cons] at hnodup
    have hrid := hrunning sr mem_cons_self
    split at hout
    · cases hout
    · rename_i e r₁ hfirst
      cases hout
      have hp := h.processRequest hrid hfirst
      refine ⟨hp.inv, hp.config_eq, hp.subset, fun id hid hne => hp.others id hid fun heq => ?_,
        fun results heq => ?_, hp.tables⟩
      · exact hne (heq ▸ mem_cons_self)
      · cases heq
    · rename_i first r₁ hfirst
      have hp := h.processRequest hrid hfirst
      obtain ⟨⟨result', r₂⟩, hrest, hpair⟩ := Option.map_eq_some_iff.1 hout
      cases hpair
      have hs := ih hp.inv (hp.still_running hrunning hnodup.1) hnodup.2 hrest
      refine ⟨hs.inv, hs.config_eq.trans hp.config_eq, fun id hid =>
        hp.subset id (hs.subset id hid),
        fun id hid hne => ?_, fun results heq res hres => ?_, fun hkv key hkey => ?_⟩
      · rw [map_cons, mem_cons, not_or] at hne
        exact hs.others id (hp.others id hid hne.1) hne.2
      · cases result' with
        | error => cases heq
        | ok results' =>
          cases heq
          rcases mem_append.1 hres with hhere | hlater
          · obtain ⟨hname, hfinished⟩ := hp.result_eq res (congrArg _ (Option.mem_toList.1 hhere))
            rw [hname]
            exact ⟨mem_cons_self, fun hfin hid => hfinished hfin (hs.subset _ hid)⟩
          · obtain ⟨hmem, hfinished⟩ := hs.result_eq results' rfl res hlater
            exact ⟨mem_cons_of_mem _ hmem, hfinished⟩
      · rw [← hp.config_eq] at hkv
        exact hs.tables hkv key (hp.tables (hp.config_eq ▸ hkv) key hkey)

/-- What every request of a batch keeps, the loop over the batch keeps. -/
theorem Inv.processBatch_rule {I : InferenceRunner heap ω → Prop}
    (hkeeps : ∀ sr ∈ batch, ∀ r result r', r.Inv → sr.requestId ∈ r.runningIds → I r →
      r.processRequest backend sampling sr = some (result, r') → I r')
    (h : r.Inv) (hrunning : ∀ sr ∈ batch, sr.requestId ∈ r.runningIds)
    (hnodup : (batch.map ScheduledRequest.requestId).Nodup) (hI : I r)
    {result : Except String (List StepResult)}
    (hout : InferenceRunner.processBatch backend sampling batch r = some (result, r')) : I r' := by
  induction batch generalizing r result with
  | nil =>
    cases hout
    exact hI
  | cons sr rest ih =>
    rw [InferenceRunner.processBatch] at hout
    rw [map_cons, nodup_cons] at hnodup
    have hrid := hrunning sr mem_cons_self
    split at hout
    · cases hout
    · rename_i e r₁ hfirst
      cases hout
      exact hkeeps sr mem_cons_self r _ _ h hrid hI hfirst
    · rename_i first r₁ hfirst
      obtain ⟨⟨result', r₂⟩, hrest, hpair⟩ := Option.map_eq_some_iff.1 hout
      cases hpair
      have hp := h.processRequest hrid hfirst
      exact ih (fun sr' hsr' => hkeeps sr' (mem_cons_of_mem sr hsr')) hp.inv
        (hp.still_running hrunning hnodup.1) hnodup.2
        (hkeeps sr mem_cons_self r _ _ h hrid hI hfirst) hrest

theorem Inv.scheduleStep_running (h : r.Inv) :
    (∀ sr ∈ r.scheduleStep.1.requests, sr.requestId ∈ r.scheduleStep.2.runningIds) ∧
      (r.scheduleStep.1.requests.map ScheduledRequest.requestId).Nodup := by
  obtain ⟨hinv, hsub, -⟩ := h.scheduleStep
  exact ⟨fun sr hsr => hsub.subset (mem_map_of_mem hsr), hsub.nodup hinv.runningIds_nodup⟩

theorem Inv.step (h : r.Inv) {result : Except String (List StepResult)}
    (hout : r.step backend sampling = some (result, r')) :
    Served r.scheduleStep.2 r' (r.scheduleStep.1.requests.map ScheduledRequest.requestId)
      result := by
  obtain ⟨hrunning, hnodup⟩ := h.scheduleStep_running
  exact h.scheduleStep.1.processBatch hrunning hnodup hout

end InferenceRunner

end CompileForge.Runtime
