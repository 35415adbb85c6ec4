/-
  The two graph runners side by side.  Without a block manager the intercepting runner goes in
  lockstep with `run_function_graph`: both hold the same tensors, one of them partly in `kv_new`,
  and both return the same tensor or fail in the same way.
-/

import CompileForge.Runtime.Engine.GraphWiring

namespace CompileForge.Runtime

open Lib List

variable {env : GraphEnv} {g : ComputeGraph} {policy : CachePolicy} {rid : Option String}
  {fd : FuncDef} {raw : Bool} {inputs : List BoundInput} {cache cache' : WeightCache}

/-! ## Indices into `func_outputs` -/

/-- The computation does not index `func_outputs` out of range. -/
abbrev InRange {α : Type} (x : Except Failure α) : Prop := Avoids Failure.funcOutputsRange x

variable {α : Type} {readSsa : Nat → Nat → Except Failure Value} {numInputs bi p o k i : Nat}
  {ins : List (InputBinding × GraphTensorDef)} {s : KvGraphState} {d : GraphTensorDef}
  {key : String} {t : GraphState} {l : List (List Value)} {values : List Value}

theorem inRange_error (message : String) :
    InRange (.error (.error message) : Except Failure α) := nofun

theorem inRange_orPanic (o : Option α) : InRange (orPanic o) := by
  cases o with
  | none => exact nofun
  | some a => exact avoids_ok a

theorem inRange_orError (message : String) (o : Option α) :
    InRange (orError message o) := by
  cases o with
  | none => exact inRange_error message
  | some a => exact avoids_ok a

theorem inRange_ensureOr (condition : Prop) [Decidable condition] (message : String) :
    InRange (ensureOr condition message) := by
  unfold ensureOr
  exact .ite (avoids_ok ()) (inRange_error message)

theorem inRange_ofResult (r : Option (Except String α)) : InRange (ofResult r) := by
  match r with
  | some (.ok a) => exact avoids_ok a
  | some (.error e) => exact inRange_error e
  | none => exact nofun

theorem loadWeightTensor_inRange (key : String) (d : GraphTensorDef) :
    InRange (loadWeightTensor env cache key d) := by
  unfold loadWeightTensor
  cases cache.lookup key with
  | some => exact avoids_ok _
  | none =>
    refine (inRange_orError _ _).bind fun _ _ => ?_
    refine (inRange_ensureOr _ _).bind fun _ _ => ?_
    exact avoids_ok _

theorem buildGlobalInputBuffer_inRange (d : GraphTensorDef) (bi : Nat) :
    InRange (buildGlobalInputBuffer env d bi) := by
  unfold buildGlobalInputBuffer
  refine (inRange_ofResult _).bind fun _ _ => ?_
  refine Avoids.bind ?_ fun _ _ => avoids_ok _
  refine Avoids.mapM fun i _ => ?_
  exact (inRange_orPanic _).bind fun _ _ => avoids_ok _

theorem bindTensor_inRange (numInputs bi : Nat) (v : Value) :
    InRange (bindTensor numInputs bi v) := by
  unfold bindTensor
  refine Avoids.bind ?_ fun _ _ => ?_
  · unfold wrapTensorBuffer
    cases v with
    | other => exact inRange_error _
    | f32 => exact avoids_ok _
    | half => exact avoids_ok _
    | i64 => exact avoids_ok _
  · exact .ite (avoids_ok _) nofun

theorem bindInputs_inRange (h : ∀ p o d, (InputBinding.ssa p o, d) ∈ ins → InRange (readSsa p o)) :
    InRange (bindInputs env readSsa numInputs cache bi ins) := by
  induction ins generalizing cache bi with
  | nil => exact avoids_ok _
  | cons input rest ih =>
    unfold bindInputs
    have hfirst : InRange (bindInput env readSsa numInputs cache bi input) := by
      obtain ⟨binding, d⟩ := input
      unfold bindInput
      cases binding with
      | globalInput => exact (buildGlobalInputBuffer_inRange d bi).bind fun _ _ => avoids_ok _
      | weight key =>
        refine (loadWeightTensor_inRange key d).bind fun _ _ => ?_
        exact (bindTensor_inRange _ _ _).bind fun _ _ => avoids_ok _
      | ssa p o =>
        refine (h p o d mem_cons_self).bind fun _ _ => ?_
        exact (bindTensor_inRange _ _ _).bind fun _ _ => avoids_ok _
    refine hfirst.bind fun _ _ => ?_
    refine Avoids.bind (ih fun p o d hmem => h p o d (mem_cons_of_mem _ hmem)) fun _ _ => ?_
    exact avoids_ok _

theorem buildMain0_inRange (aliases : List (Nat × Nat)) (t p : Nat) :
    InRange (buildMain0OutputsFastpath env fd inputs aliases t p) := by
  unfold buildMain0OutputsFastpath
  iterate 2 refine (inRange_orError _ _).bind fun _ _ => ?_
  iterate 3 refine (inRange_orPanic _).bind fun _ _ => ?_
  refine (inRange_ensureOr _ _).bind fun _ _ => ?_
  iterate 2 refine (@inRange_ensureOr _ (List.decidableBAll _ _) _).bind fun _ _ => ?_
  iterate 2 refine (inRange_orPanic _).bind fun _ _ => ?_
  refine Avoids.bind ?_ fun _ _ => ?_
  · refine Avoids.mapM fun e _ => Avoids.mapM fun d _ => ?_
    refine (inRange_orPanic _).bind fun _ _ => ?_
    exact (inRange_orPanic _).bind fun _ _ => avoids_ok _
  · refine Avoids.mapM fun oi _ => ?_
    -- the first fifteen outputs are computed, the others are aliases
    iterate 4 refine .ite (avoids_ok _) ?_
    cases aliases.lookup oi with
    | some => exact inRange_orError _ _
    | none => exact .ite (avoids_ok _) (inRange_error _)

theorem main15WeightKey_inRange : InRange (main15WeightKey g fd) := by
  unfold main15WeightKey
  match fd.inputs[1]? with
  | none => exact avoids_ok _
  | some (.weight key, _) => exact avoids_ok _
  | some (.globalInput, _) => exact avoids_ok _
  | some (.ssa p o, _) =>
    refine (inRange_orError _ _).bind fun producer _ => ?_
    cases (main0WeightPassthroughMap producer).lookup o with
    | none => exact avoids_ok _
    | some =>
      refine (inRange_orPanic _).bind fun input _ => ?_
      obtain ⟨binding, d⟩ := input
      cases binding with
      | weight => exact avoids_ok _
      | ssa => exact avoids_ok _
      | globalInput => exact avoids_ok _

theorem runMain15Fastpath_inRange : InRange (runMain15Fastpath env g fd raw inputs cache) := by
  unfold runMain15Fastpath
  iterate 2 refine (inRange_orError _ _).bind fun _ _ => ?_
  iterate 2 refine (inRange_ensureOr _ _).bind fun _ _ => ?_
  refine main15WeightKey_inRange.bind fun key _ => ?_
  refine (inRange_orPanic _).bind fun _ _ => ?_
  refine Avoids.bind ?_ fun _ _ => ?_
  · unfold selectRawWeight
    match raw, key with
    | true, some key =>
      refine (inRange_orError _ _).bind fun _ _ => ?_
      exact (loadWeightTensor_inRange _ _).bind fun _ _ => avoids_ok _
    | true, none => exact avoids_ok _
    | false, _ => exact avoids_ok _
  · iterate 2 refine (inRange_orPanic _).bind fun _ _ => ?_
    exact avoids_ok _

theorem runFunction_inRange : InRange (runFunction env g fd raw inputs cache) := by
  unfold runFunction
  refine .ite ?_ ?_
  · exact runMain15Fastpath_inRange.bind fun _ _ => avoids_ok _
  · cases hmain0 : main0FastpathContract fd (main0WeightPassthroughMap fd) with
    | none =>
      simp only [hmain0]
      exact avoids_ok _
    | some =>
      simp only [hmain0]
      exact (buildMain0_inRange _ _ _).bind fun _ _ => avoids_ok _

theorem pushFuncOutputs_inRange {funcOutputs : List (List α)} {fi : Nat}
    (values : List α) (h : fi < funcOutputs.length) :
    InRange (pushFuncOutputs funcOutputs fi values) := by
  rw [pushFuncOutputs, if_pos h]
  exact avoids_ok _

theorem storeOutput_inRange (e : Value × Nat) (hfi : fd.index < s.funcOutputs.length) :
    InRange (storeOutput env policy rid fd inputs s e) := by
  unfold storeOutput
  refine (inRange_orPanic _).bind fun d _ => ?_
  refine .ite ?_ ?_
  · unfold interceptOutput
    cases s.blockManager with
    | none => exact avoids_ok _
    | some =>
      cases rid with
      | none => exact inRange_error _
      | some =>
        iterate 2 refine (inRange_orPanic _).bind fun r _ => ?_
        obtain ⟨result, _, _⟩ := r
        cases result with
        | error e => exact inRange_error e
        | ok => exact avoids_ok _
  · exact (pushFuncOutputs_inRange _ hfi).bind fun _ _ => avoids_ok _

theorem kvGraphStep_inRange (hfi : fd.index < s.funcOutputs.length)
    (h : ∀ p o d, (InputBinding.ssa p o, d) ∈ fd.inputs →
      InRange (readSsaKv env g policy rid s p o)) :
    InRange (kvGraphStep env g policy rid s fd) := by
  unfold kvGraphStep
  refine (bindInputs_inRange h).bind fun e _ => ?_
  obtain ⟨inputs, cache⟩ := e
  refine runFunction_inRange.bind fun e hrun => ?_
  obtain ⟨produced, cache'⟩ := e
  cases produced with
  | fastpath => exact (pushFuncOutputs_inRange _ hfi).bind fun _ _ => avoids_ok _
  | executed outputs =>
    -- the number of stored lists does not change in the loop over the outputs
    refine Avoids.foldlM (P := fun (_ : Nat) (s' : KvGraphState) =>
      s'.funcOutputs.length = s.funcOutputs.length) rfl fun k e s' _ hs' => ?_
    have hfi' : fd.index < s'.funcOutputs.length := by rw [hs']; exact hfi
    exact ⟨storeOutput_inRange e hfi', fun s'' hstep => (storeOutput_length hfi' hstep).trans hs'⟩

theorem interceptInput_inRange {slab : Option SlabSpec} :
    InRange (interceptInput env rid fd slab s p o) := by
  unfold interceptInput
  refine (inRange_orError _ _).bind fun v _ => ?_
  refine .ite (avoids_ok _) ?_
  · refine (inRange_ofResult _).bind fun _ _ => ?_
    exact (inRange_orPanic _).bind fun _ _ => avoids_ok _

/-! ## Edges of a function -/

/-- Every edge of the function to an output that is not intercepted is aligned. -/
def EdgesAligned (g : ComputeGraph) (policy : CachePolicy) (fd : FuncDef) : Prop :=
  ∀ p o d, (InputBinding.ssa p o, d) ∈ fd.inputs →
    (∀ pd, g.functions[p]? = some pd → intercepted policy pd o = false) → EdgeAligned g policy p o

theorem readSsaKv_eq (hg : g.WellFormed)
    (hfd : g.functions[k]? = some fd) (hedge : (InputBinding.ssa p o, d) ∈ fd.inputs) :
    ∃ pd, p < k ∧ g.functions[p]? = some pd ∧ o < pd.outputs.length ∧
      readSsaKv env g policy rid s p o = if intercepted policy pd o then
          interceptInput env rid pd ((findSlabForIntercept policy p o).map (·.toSlabSpec)) s p o
        else (readStored g s.funcOutputs p o).map (·.value) := by
  obtain ⟨hp, pd, od, hpd, hod⟩ := hg.edges k fd hfd p o d hedge
  refine ⟨pd, hp, hpd, (List.getElem?_eq_some_iff.1 hod).1, ?_⟩
  have hint : intercepted policy pd o = shouldInterceptConsumed p o policy od := by
    simp only [intercepted, hod, hg.index p pd hpd]
  rw [hint]
  unfold readSsaKv
  rw [hpd]
  simp only [orPanic, hod, bind, Except.bind]
  by_cases hcut : shouldInterceptConsumed p o policy od = true
  · rw [if_pos hcut, if_pos hcut]
  · rw [if_neg hcut, if_neg hcut]
    cases readStored g s.funcOutputs p o with
    | error => rfl
    | ok => rfl

theorem Laid.readSsaKv_inRange (hg : g.WellFormed)
    (hs : Laid g policy k s.funcOutputs) (hfd : g.functions[k]? = some fd)
    (haligned : EdgesAligned g policy fd) (hedge : (InputBinding.ssa p o, d) ∈ fd.inputs) :
    InRange (readSsaKv env g policy rid s p o) := by
  obtain ⟨pd, hp, hpd, ho, hread⟩ := readSsaKv_eq hg hfd hedge
  rw [hread]
  cases hcut : intercepted policy pd o with
  | true => exact interceptInput_inRange
  | false =>
    have hedgeAligned : EdgeAligned g policy p o := by
      refine haligned p o d hedge fun pd' hpd' => ?_
      rw [hpd] at hpd'
      cases hpd'
      exact hcut
    obtain ⟨v, hv⟩ := (hs.readStored_iff hp hpd ho hcut).2 hedgeAligned
    rw [if_neg (by decide), hv]
    exact avoids_ok _

theorem runKv_inRange (hg : g.WellFormed) (bm : Option BlockManager)
    (haligned : ∀ fd ∈ g.functions, EdgesAligned g policy fd) (houtput : OutputAligned g policy) :
    InRange (runFunctionGraphWithKvIntercept env g bm rid policy cache) := by
  unfold runFunctionGraphWithKvIntercept
  refine Avoids.bind ?_ fun s hrun => ?_
  · refine Avoids.foldlM (P := fun (k : Nat) (s : KvGraphState) => Laid g policy k s.funcOutputs)
      (laid_init bm) fun k fd s hfd hs => ?_
    refine ⟨kvGraphStep_inRange (hs.index_lt hg hfd) fun p o d hedge => ?_,
      fun s' hstep => hs.step hg hfd hstep⟩
    exact hs.readSsaKv_inRange hg hfd (haligned fd (mem_of_getElem? hfd)) hedge
  · rw [← take_length (l := g.functions)] at hrun
    have hs := laid_of_run hg le_rfl hrun
    obtain ⟨v, hv⟩ := (hs.readGlobalOutput_iff hg).2 houtput
    rw [hv]
    exact avoids_ok _

/-! ## The weight cache -/

def Cached (cache : WeightCache) (key : String) : Prop := (cache.lookup key).isSome = true

/-- Every cached weight is one that the provider has. -/
def Provided (env : GraphEnv) (cache : WeightCache) : Prop :=
  ∀ key, Cached cache key → (env.provider key).isSome = true

structure Grown (env : GraphEnv) (cache cache' : WeightCache) : Prop where
  cached : ∀ key, Cached cache key → Cached cache' key
  provided : Provided env cache → Provided env cache'

theorem Grown.refl (cache : WeightCache) : Grown env cache cache :=
  ⟨fun _ h => h, fun h => h⟩

theorem Grown.trans {cache'' : WeightCache} (h : Grown env cache cache')
    (h' : Grown env cache' cache'') : Grown env cache cache'' :=
  ⟨fun key hkey => h'.cached key (h.cached key hkey), fun hp => h'.provided (h.provided hp)⟩

theorem loadWeightTensor_grown {t : Tensor}
    (h : loadWeightTensor env cache key d = .ok (t, cache')) :
    Grown env cache cache' ∧ Cached cache' key := by
  unfold loadWeightTensor at h
  cases hlookup : cache.lookup key with
  | some =>
    rw [hlookup] at h
    cases h
    refine ⟨.refl _, ?_⟩
    rw [Cached, hlookup]
    rfl
  | none =>
    rw [hlookup] at h
    obtain ⟨⟨sizes, data⟩, hprovider, h⟩ := bind_eq_ok h
    obtain ⟨_, _, h⟩ := bind_eq_ok h
    cases h
    have hsome := Option.isSome_of_eq_some (orError_eq_ok.1 hprovider)
    refine ⟨⟨fun other hother => ?_, fun hp other hother => ?_⟩, ?_⟩
    · by_cases hkey : other = key
      · subst hkey
        rw [Cached, AList.lookup_insert]
        rfl
      · rw [Cached, AList.lookup_insert_ne hkey]
        exact hother
    · by_cases hkey : other = key
      · rw [hkey]
        exact hsome
      · rw [Cached, AList.lookup_insert_ne hkey] at hother
        exact hp other hother
    · rw [Cached, AList.lookup_insert]
      rfl

theorem bindInputs_grown {bounds : List BoundInput}
    (h : bindInputs env readSsa numInputs cache bi ins = .ok (bounds, cache')) :
    Grown env cache cache' ∧ ∀ key d, (InputBinding.weight key, d) ∈ ins → Cached cache' key := by
  induction ins generalizing cache bi bounds with
  | nil =>
    cases h
    exact ⟨.refl _, nofun⟩
  | cons input rest ih =>
    unfold bindInputs at h
    obtain ⟨⟨bound, cache1⟩, hfirst, h⟩ := bind_eq_ok h
    obtain ⟨⟨more, cache2⟩, hrest, h⟩ := bind_eq_ok h
    cases h
    obtain ⟨hgrown, hcached⟩ := ih hrest
    have hinput : Grown env cache cache1 ∧
        ∀ key d, (InputBinding.weight key, d) = input → Cached cache1 key := by
      obtain ⟨binding, d⟩ := input
      unfold bindInput at hfirst
      cases binding with
      | globalInput =>
        obtain ⟨_, _, hfirst⟩ := bind_eq_ok hfirst
        cases hfirst
        exact ⟨.refl _, fun key d h => by cases h⟩
      | weight =>
        obtain ⟨⟨t, cache3⟩, hload, hfirst⟩ := bind_eq_ok hfirst
        obtain ⟨_, _, hfirst⟩ := bind_eq_ok hfirst
        cases hfirst
        refine ⟨(loadWeightTensor_grown hload).1, fun key' d' h => ?_⟩
        cases h
        exact (loadWeightTensor_grown hload).2
      | ssa =>
        obtain ⟨_, _, hfirst⟩ := bind_eq_ok hfirst
        obtain ⟨_, _, hfirst⟩ := bind_eq_ok hfirst
        cases hfirst
        exact ⟨.refl _, fun key d h => by cases h⟩
    refine ⟨hinput.1.trans hgrown, fun key d hmem => ?_⟩
    rcases mem_cons.1 hmem with heq | hmem
    · exact hgrown.cached key (hinput.2 key d heq)
    · exact hcached key d hmem

/-! ## The raw weight of the logits projection -/

theorem main15WeightKey_spec (h : main15WeightKey g fd = .ok (some key)) :
    (∃ d, (InputBinding.weight key, d) ∈ fd.inputs) ∨
      ∃ p o d pd d', (InputBinding.ssa p o, d) ∈ fd.inputs ∧ g.functions[p]? = some pd ∧
        (InputBinding.weight key, d') ∈ pd.inputs := by
  unfold main15WeightKey at h
  cases hinput : fd.inputs[1]? with
  | none =>
    rw [hinput] at h
    cases h
  | some input =>
    obtain ⟨binding, d⟩ := input
    have hmem := mem_of_getElem? hinput
    cases binding with
    | globalInput =>
      rw [hinput] at h
      cases h
    | weight =>
      rw [hinput] at h
      cases h
      exact .inl ⟨d, hmem⟩
    | ssa p o =>
      rw [hinput] at h
      obtain ⟨pd, hpd, h⟩ := bind_eq_ok h
      cases hlookup : (main0WeightPassthroughMap pd).lookup o with
      | none =>
        rw [hlookup] at h
        cases h
      | some =>
        rw [hlookup] at h
        obtain ⟨⟨binding, d'⟩, hin, h⟩ := bind_eq_ok h
        cases binding with
        | ssa => cases h
        | globalInput => cases h
        | weight =>
          cases h
          exact .inr ⟨p, o, d, pd, d', hmem, orError_eq_ok.1 hpd,
            mem_of_getElem? (orPanic_eq_ok.1 hin)⟩

theorem selectRawWeight_cached {key : Option String} (d : GraphTensorDef)
    (h : ∀ k, key = some k → Cached cache k ∧ (env.provider k).isSome = true) :
    selectRawWeight env cache true key d = .ok cache := by
  cases key with
  | none => rfl
  | some k =>
    obtain ⟨hcached, hprovided⟩ := h k rfl
    obtain ⟨t, ht⟩ := Option.isSome_iff_exists.1 hcached
    obtain ⟨e, he⟩ := Option.isSome_iff_exists.1 hprovided
    unfold selectRawWeight loadWeightTensor
    simp only [he, ht, orError, bind, Except.bind]

theorem runFunction_raw (h : ∀ key, main15WeightKey g fd = .ok (some key) →
      Cached cache key ∧ (env.provider key).isSome = true) :
    runFunction env g fd true inputs cache = runFunction env g fd false inputs cache := by
  have hmain15 : runMain15Fastpath env g fd true inputs cache =
      runMain15Fastpath env g fd false inputs cache := by
    unfold runMain15Fastpath
    cases hkey : main15WeightKey g fd with
    | error => rfl
    | ok key =>
      have hselect : ∀ d, selectRawWeight env cache true key d =
          selectRawWeight env cache false key d := by
        intro d
        rw [selectRawWeight_cached d fun k hk => h k (by rw [hkey, hk])]
        rfl
      simp only [bind, Except.bind, hselect]
  unfold runFunction
  rw [hmain15]

theorem runFunction_cache {produced : Produced}
    (h : runFunction env g fd false inputs cache = .ok (produced, cache')) : cache' = cache := by
  unfold runFunction at h
  by_cases hmain15 : isMain15 g fd = true
  · rw [if_pos hmain15] at h
    obtain ⟨⟨logits, cache1⟩, hfast, h⟩ := bind_eq_ok h
    cases h
    unfold runMain15Fastpath at hfast
    iterate 6 obtain ⟨_, _, hfast⟩ := bind_eq_ok hfast
    obtain ⟨_, hselect, hfast⟩ := bind_eq_ok hfast
    cases hselect
    obtain ⟨_, _, hfast⟩ := bind_eq_ok hfast
    obtain ⟨_, _, hfast⟩ := bind_eq_ok hfast
    cases hfast
    rfl
  · rw [if_neg hmain15] at h
    cases hmain0 : main0FastpathContract fd (main0WeightPassthroughMap fd) with
    | some =>
      simp only [hmain0] at h
      obtain ⟨_, _, h⟩ := bind_eq_ok h
      cases h
      rfl
    | none =>
      simp only [hmain0] at h
      cases h
      rfl

theorem bindInputs_congr {readSsa' : Nat → Nat → Except Failure Value}
    (h : ∀ p o d, (InputBinding.ssa p o, d) ∈ ins → readSsa p o = readSsa' p o) :
    bindInputs env readSsa numInputs cache bi ins =
      bindInputs env readSsa' numInputs cache bi ins := by
  induction ins generalizing cache bi with
  | nil => rfl
  | cons input rest ih =>
    have hfirst : bindInput env readSsa numInputs cache bi input =
        bindInput env readSsa' numInputs cache bi input := by
      obtain ⟨binding, d⟩ := input
      cases binding with
      | globalInput => rfl
      | weight => rfl
      | ssa p o =>
        unfold bindInput
        simp only [h p o d mem_cons_self]
    have hrest : ∀ cache bi, bindInputs env readSsa numInputs cache bi rest =
        bindInputs env readSsa' numInputs cache bi rest := fun cache bi =>
      ih fun p o d hmem => h p o d (mem_cons_of_mem _ hmem)
    unfold bindInputs
    simp only [hfirst, hrest]

/-- Without a block manager every output is stored: the intercepted ones in `kv_new`. -/
theorem storeOutputs_none {s : KvGraphState} {es : List (Value × Nat)}
    (hfi : fd.index < s.funcOutputs.length) (hes : ∀ e ∈ es, e.2 < fd.outputs.length)
    (hnodup : (es.map Prod.snd).Nodup) (hnone : s.blockManager = none) :
    ∃ s', es.foldlM (storeOutput env policy rid fd inputs) s = .ok s' ∧ s'.blockManager = none ∧
      (∀ key, (∀ e ∈ es, key ≠ (fd.index, e.2)) → s'.kvNew.lookup key = s.kvNew.lookup key) ∧
      ∀ e ∈ es, intercepted policy fd e.2 = true → s'.kvNew.lookup (fd.index, e.2) = some e.1 := by
  induction es generalizing s with
  | nil => exact ⟨s, rfl, hnone, fun _ _ => rfl, fun e he => absurd he not_mem_nil⟩
  | cons e es ih =>
    obtain ⟨hfresh, hnodup⟩ := nodup_cons.1 hnodup
    obtain ⟨d, hd⟩ : ∃ d, fd.outputs[e.2]? = some d :=
      ⟨_, getElem?_eq_getElem (hes e mem_cons_self)⟩
    have hint : intercepted policy fd e.2 = shouldInterceptConsumed fd.index e.2 policy d := by
      simp only [intercepted, hd]
    -- the first output: pushed, or kept in `kv_new`
    obtain ⟨s1, hfirst, hlen, hnone1, hother, hthis⟩ : ∃ s1,
        storeOutput env policy rid fd inputs s e = .ok s1 ∧
        s1.funcOutputs.length = s.funcOutputs.length ∧ s1.blockManager = none ∧
        (∀ key, key ≠ (fd.index, e.2) → s1.kvNew.lookup key = s.kvNew.lookup key) ∧
        (intercepted policy fd e.2 = true → s1.kvNew.lookup (fd.index, e.2) = some e.1) := by
      cases hcut : intercepted policy fd e.2 with
      | true =>
        refine ⟨{ s with kvNew := s.kvNew.insert (fd.index, e.2) e.1 }, ?_, rfl, hnone,
          fun key hkey => AList.lookup_insert_ne hkey, fun _ => AList.lookup_insert _⟩
        unfold storeOutput interceptOutput
        rw [hint] at hcut
        simp only [hd, orPanic, bind, Except.bind, hcut, if_true, hnone]
      | false =>
        let added := outputSlots fd.index [(aliased fd inputs e.2 e.1, e.2)]
        refine ⟨{ s with funcOutputs := s.funcOutputs.modify fd.index (· ++ added) }, ?_,
          length_modify .., hnone, fun key _ => rfl, fun h => by cases h⟩
        unfold storeOutput pushFuncOutputs
        rw [hint] at hcut
        simp only [hd, orPanic, bind, Except.bind, hcut, Bool.false_eq_true, if_false, hfi, if_true]
        rfl
    obtain ⟨s', hrest, hnone', hother', hthis'⟩ :=
      ih (s := s1) (by omega) (fun e' he' => hes e' (mem_cons_of_mem e he')) hnodup hnone1
    refine ⟨s', ?_, hnone', fun key hkey => ?_, fun e' he' hcut => ?_⟩
    · rw [foldlM_cons, hfirst]
      exact hrest
    · rw [hother' key fun e' he' => hkey e' (mem_cons_of_mem e he')]
      exact hother key (hkey e mem_cons_self)
    · rcases mem_cons.1 he' with rfl | he'
      · rw [hother' _ fun e'' he'' hsame => ?_]
        · exact hthis hcut
        · refine hfresh ?_
          have heq : e'.2 = e''.2 := (Prod.mk.inj hsame).2
          rw [heq]
          exact mem_map_of_mem he''
      · exact hthis' e' he' hcut

/-! ## Lockstep -/

variable (env g policy k s t fd)

/-- After `k` functions both runners hold the same tensors. -/
structure Agrees : Prop where
  cache : s.weightCache = t.weightCache
  provided : Provided env t.weightCache
  noManager : s.blockManager = none
  laid : Laid g policy k s.funcOutputs
  length : t.funcOutputs.length = g.functions.length
  /-- A slot holds what the plain runner holds at its origin. -/
  slots : ∀ p slots, s.funcOutputs[p]? = some slots → ∀ slot ∈ slots,
    readFuncOutput t.funcOutputs p slot.origin.2 = .ok slot.value
  /-- So does `kv_new`, for an output that is not a pass-through. -/
  kept : ∀ p (pd : FuncDef), p < k → g.functions[p]? = some pd → fastPath g pd = false →
    ∀ o, o < pd.outputs.length → intercepted policy pd o = true →
    (main0WeightPassthroughMap pd).lookup o = none →
    ∃ v, s.kvNew.lookup (p, o) = some v ∧ readFuncOutput t.funcOutputs p o = .ok v
  todo : ∀ p, k ≤ p → p < g.functions.length → t.funcOutputs[p]? = some []
  loaded : ∀ p (pd : FuncDef), p < k → g.functions[p]? = some pd →
    ∀ key d, (InputBinding.weight key, d) ∈ pd.inputs → Cached t.weightCache key

/-- The intercepted outputs that edges read are not pushed by a fast path or passed through. -/
def EdgesKept : Prop :=
  ∀ p o d, (InputBinding.ssa p o, d) ∈ fd.inputs → ∀ pd, g.functions[p]? = some pd →
    intercepted policy pd o = true →
      fastPath g pd = false ∧ (main0WeightPassthroughMap pd).lookup o = none

variable {env g policy k s t fd}

theorem agrees_init (hcache : Provided env cache) :
    Agrees env g policy 0 (.init g none cache)
      ⟨replicate g.functions.length [], cache⟩ where
  cache := rfl
  provided := hcache
  noManager := rfl
  laid := laid_init none
  length := length_replicate
  slots := by
    intro p slots hslots slot hslot
    have hmem := mem_of_getElem? hslots
    rw [KvGraphState.init] at hmem
    rw [eq_of_mem_replicate hmem] at hslot
    cases hslot
  kept := by
    intro p pd hp
    omega
  todo := by
    intro p _ hp
    rw [getElem?_replicate, if_pos hp]
  loaded := by
    intro p pd hp
    omega

theorem Agrees.read (hg : g.WellFormed)
    (hs : Agrees env g policy k s t) (hfd : g.functions[k]? = some fd)
    (haligned : EdgesAligned g policy fd) (hkept : EdgesKept g policy fd)
    (hedge : (InputBinding.ssa p o, d) ∈ fd.inputs) :
    readSsaKv env g policy rid s p o = readFuncOutput t.funcOutputs p o := by
  obtain ⟨pd, hp, hpd, ho, hread⟩ := readSsaKv_eq hg hfd hedge
  rw [hread]
  cases hcut : intercepted policy pd o with
  | true =>
    obtain ⟨hfast, halias⟩ := hkept p o d hedge pd hpd hcut
    obtain ⟨v, hv, hplain⟩ := hs.kept p pd hp hpd hfast o ho hcut halias
    rw [if_pos rfl, hplain]
    unfold interceptInput
    simp only [hv, orError, bind, Except.bind, hs.noManager, Option.isNone_none, or_true, if_true]
  | false =>
    have hedgeAligned : EdgeAligned g policy p o := by
      refine haligned p o d hedge fun pd' hpd' => ?_
      rw [hpd] at hpd'
      cases hpd'
      exact hcut
    obtain ⟨v, hv⟩ := (hs.laid.readStored_iff hp hpd ho hcut).2 hedgeAligned
    have hslot : readFuncOutput t.funcOutputs p o = .ok v := by
      unfold readStored at hv
      obtain ⟨pd', _, hv⟩ := bind_eq_ok hv
      obtain ⟨slots, hslots, hat⟩ := readFuncOutput_eq_ok.1 hv
      exact hs.slots p slots hslots _ (mem_of_getElem? hat)
    rw [if_neg (by decide), hv, hslot]
    rfl

theorem readFuncOutput_modify_self (h : l[i]? = some []) (o : Nat) (v : Value) :
    readFuncOutput (l.modify i (· ++ values)) i o = .ok v ↔ values[o]? = some v := by
  rw [readFuncOutput_eq_ok, getElem?_modify_eq, h]
  constructor
  · rintro ⟨outputs, houtputs, ho⟩
    cases houtputs
    exact ho
  · intro ho
    exact ⟨_, rfl, ho⟩

theorem readFuncOutput_modify_ne (values : List Value) (h : p ≠ i) (o : Nat) :
    readFuncOutput (l.modify i (· ++ values)) p o = readFuncOutput l p o := by
  unfold readFuncOutput
  rw [getElem?_modify_ne _ _ (Ne.symm h)]

/-- Storing the outputs of function `k` on both sides keeps the agreement. -/
theorem Agrees.store {s' : KvGraphState} {slots : List OutputSlot} (hs : Agrees env g policy k s t)
    (hfd : g.functions[k]? = some fd)
    (hslots : s'.funcOutputs = s.funcOutputs.modify k (· ++ slots))
    (horigin : slots.map (·.origin) = (pushed g policy fd).map fun o => (k, o))
    (hvalues : ∀ slot ∈ slots, values[slot.origin.2]? = some slot.value)
    (hnone : s'.blockManager = none)
    (hold : ∀ p o, p ≠ k → s'.kvNew.lookup (p, o) = s.kvNew.lookup (p, o))
    (hnew : fastPath g fd = false → ∀ o, o < fd.outputs.length → intercepted policy fd o = true →
      (main0WeightPassthroughMap fd).lookup o = none →
      ∃ v, s'.kvNew.lookup (k, o) = some v ∧ values[o]? = some v)
    (hgrown : Grown env t.weightCache s'.weightCache)
    (hloaded : ∀ key d, (InputBinding.weight key, d) ∈ fd.inputs → Cached s'.weightCache key) :
    Agrees env g policy (k + 1) s' ⟨t.funcOutputs.modify k (· ++ values), s'.weightCache⟩ := by
  have hk := (List.getElem?_eq_some_iff.1 hfd).1
  have hempty := hs.todo k (Nat.le_refl k) hk
  have hlaid : Laid g policy (k + 1) s'.funcOutputs := by
    rw [hslots]
    exact hs.laid.append hfd horigin
  refine
    { cache := rfl
      provided := hgrown.provided hs.provided
      noManager := hnone
      laid := hlaid
      length := by rw [length_modify, hs.length]
      slots := ?_, kept := ?_, todo := ?_, loaded := ?_ }
  · intro p slots' hslots' slot hslot
    rw [hslots] at hslots'
    by_cases hp : p = k
    · subst hp
      rw [getElem?_modify_eq, hs.laid.todo hfd] at hslots'
      cases hslots'
      exact (readFuncOutput_modify_self hempty _ _).2 (hvalues slot hslot)
    · rw [getElem?_modify_ne _ _ (Ne.symm hp)] at hslots'
      rw [readFuncOutput_modify_ne _ hp]
      exact hs.slots p slots' hslots' slot hslot
  · intro p pd hp hpd hfast o ho hcut halias
    by_cases hpk : p = k
    · subst hpk
      rw [hfd] at hpd
      cases hpd
      obtain ⟨v, hv, hat⟩ := hnew hfast o ho hcut halias
      exact ⟨v, hv, (readFuncOutput_modify_self hempty _ _).2 hat⟩
    · obtain ⟨v, hv, hat⟩ := hs.kept p pd (by omega) hpd hfast o ho hcut halias
      exact ⟨v, (hold p o hpk).trans hv, by rw [readFuncOutput_modify_ne _ hpk, hat]⟩
  · intro p hp hlt
    have hne : p ≠ k := by omega
    rw [getElem?_modify_ne _ _ (Ne.symm hne)]
    exact hs.todo p (by omega) hlt
  · intro p pd hp hpd key d hmem
    by_cases hpk : p = k
    · subst hpk
      rw [hfd] at hpd
      cases hpd
      exact hloaded key d hmem
    · exact hgrown.cached key (hs.loaded p pd (by omega) hpd key d hmem)

theorem mem_visible {outputs : List Value} {slot : OutputSlot}
    (h : slot ∈ visible policy fd inputs outputs.zipIdx) :
    (outputs.zipIdx.map fun e => aliased fd inputs e.2 e.1)[slot.origin.2]? = some slot.value := by
  obtain ⟨e', he', rfl⟩ := mem_map.1 h
  obtain ⟨e, he, rfl⟩ := mem_map.1 he'
  have hat := mem_zipIdx_iff_getElem?.mp (mem_of_mem_filter he)
  rw [getElem?_map, getElem?_zipIdx, hat]
  simp only [Option.map_some, zero_add]

theorem Agrees.step {k : Nat} {s : KvGraphState} {t : GraphState} (hg : g.WellFormed)
    (hs : Agrees env g policy k s t) (hfd : g.functions[k]? = some fd)
    (haligned : EdgesAligned g policy fd) (hkept : EdgesKept g policy fd) :
    Lockstep (Agrees env g policy (k + 1)) (kvGraphStep env g policy rid s fd)
      (graphStep env g t fd) := by
  have hindex := hg.index k fd hfd
  have hfi := hs.laid.index_lt hg hfd
  have hfi' : fd.index < t.funcOutputs.length := by rw [hs.length, ← hs.laid.1]; exact hfi
  have hbind : bindInputs env (readSsaKv env g policy rid s) fd.numInputs
      s.weightCache 0 fd.inputs =
      bindInputs env (readFuncOutput t.funcOutputs) fd.numInputs t.weightCache 0 fd.inputs := by
    rw [hs.cache]
    exact bindInputs_congr fun p o d hedge => hs.read hg hfd haligned hkept hedge
  unfold kvGraphStep graphStep
  rw [hbind]
  refine (Lockstep.refl _).bind fun e e' hinputs he => ?_
  subst he
  obtain ⟨inputs, cache⟩ := e
  obtain ⟨hgrown, hweights⟩ := bindInputs_grown hinputs
  -- the weight of the logits projection is loaded by now
  have hraw : runFunction env g fd true inputs cache = runFunction env g fd false inputs cache := by
    refine runFunction_raw fun key hkey => ?_
    have hcached : Cached cache key := by
      rcases main15WeightKey_spec hkey with ⟨d, hmem⟩ | ⟨p, o, d, pd, d', hedge, hpd, hmem⟩
      · exact hweights key d hmem
      · exact hgrown.cached key (hs.loaded p pd (hg.edges k fd hfd p o d hedge).1 hpd key d' hmem)
    exact ⟨hcached, hgrown.provided hs.provided key hcached⟩
  simp only [hraw]
  refine (Lockstep.refl _).bind fun e e' hrun he => ?_
  subst he
  obtain ⟨produced, cache'⟩ := e
  have hcache' : cache' = cache := runFunction_cache hrun
  subst hcache'
  have hloaded : ∀ key d, (InputBinding.weight key, d) ∈ fd.inputs → Cached cache' key := hweights
  rcases runFunction_spec hrun with ⟨outputs, rfl, hlen, hfast⟩ | ⟨rfl, hfast⟩
  · -- a fast path: both runners push all its outputs
    let s' : KvGraphState :=
      { s with
        funcOutputs := s.funcOutputs.modify fd.index (· ++ outputSlots fd.index outputs.zipIdx)
        weightCache := cache' }
    have hkv : (do
        let funcOutputs ← pushFuncOutputs s.funcOutputs fd.index
          (outputSlots fd.index outputs.zipIdx)
        (.ok { s with weightCache := cache', funcOutputs } : Except Failure KvGraphState)) =
        .ok s' := by
      rw [pushFuncOutputs, if_pos hfi]
      rfl
    have hplain : (do
        let funcOutputs ← pushFuncOutputs t.funcOutputs fd.index outputs
        (.ok ⟨funcOutputs, cache'⟩ : Except Failure GraphState)) =
        .ok ⟨t.funcOutputs.modify k (· ++ outputs), s'.weightCache⟩ := by
      rw [pushFuncOutputs, if_pos hfi', hindex]
      rfl
    refine Eq.mpr (congrArg₂ (Lockstep _) hkv hplain) (.ok ?_)
    have hslots : s'.funcOutputs =
        s.funcOutputs.modify k (· ++ outputSlots fd.index outputs.zipIdx) := by
      rw [← hindex]
    refine hs.store hfd hslots ?_ ?_ hs.noManager (fun _ _ _ => rfl) ?_ hgrown hloaded
    · rw [← hindex]
      exact fastpath_origin outputs hlen hfast
    · intro slot hslot
      obtain ⟨e, he, rfl⟩ := mem_map.1 hslot
      exact mem_zipIdx_iff_getElem?.mp he
    · intro hplain
      rw [hfast] at hplain
      cases hplain
  · -- the executable: the first runner keeps back the intercepted outputs
    let outputs := (range fd.outputs.length).map
      (env.execute fd.symbol (inputs.map (·.buffer)))
    have hlen : outputs.length = fd.outputs.length := by
      rw [length_map, length_range]
    let s0 : KvGraphState := { s with weightCache := cache' }
    have hes : ∀ e ∈ outputs.zipIdx, e.2 < fd.outputs.length := by
      intro e he
      have := snd_lt_of_mem_zipIdx he
      omega
    have hnodup : (outputs.zipIdx.map Prod.snd).Nodup := by
      rw [zipIdx_map_snd]
      exact nodup_range'
    obtain ⟨s', hkv, hnone, hother, hthis⟩ :=
      @storeOutputs_none env policy rid fd inputs s0 _ hfi hes hnodup hs.noManager
    obtain ⟨hcache, hslots⟩ := storeOutputs_spec (s := s0) hfi hes hkv
    let values := outputs.zipIdx.map fun e => aliased fd inputs e.2 e.1
    have hplain : (do
        let funcOutputs ← pushFuncOutputs t.funcOutputs fd.index values
        (.ok ⟨funcOutputs, cache'⟩ : Except Failure GraphState)) =
        .ok ⟨t.funcOutputs.modify k (· ++ values), s'.weightCache⟩ := by
      rw [pushFuncOutputs, if_pos hfi', hindex, hcache]
      rfl
    refine Eq.mpr (congrArg₂ (Lockstep _) hkv hplain) (.ok ?_)
    rw [hindex] at hslots
    refine hs.store hfd hslots ?_ ?_ hnone ?_ ?_ ?_ ?_
    · rw [← hindex]
      exact visible_origin outputs hlen hfast
    · intro slot hslot
      exact mem_visible hslot
    · intro p o hp
      refine hother (p, o) fun e _ hsame => hp ?_
      rw [← hindex]
      exact congrArg Prod.fst hsame
    · intro _ o ho hcut halias
      have hat : outputs[o]? = some (outputs.get ⟨o, by omega⟩) := getElem?_eq_getElem _
      refine ⟨outputs.get ⟨o, by omega⟩, ?_, ?_⟩
      · rw [← hindex]
        exact hthis (_, o) (mem_zipIdx_iff_getElem?.mpr hat) hcut
      · show (outputs.zipIdx.map fun e => aliased fd inputs e.2 e.1)[o]? = _
        rw [getElem?_map, getElem?_zipIdx, hat]
        simp only [Option.map_some, zero_add, aliased, halias]
    · rw [hcache]
      exact hgrown
    · rw [hcache]
      exact hloaded

theorem runKv_eq_runFunctionGraph (hg : g.WellFormed) (hcache : Provided env cache)
    (haligned : ∀ fd ∈ g.functions, EdgesAligned g policy fd) (houtput : OutputAligned g policy)
    (hkept : ∀ fd ∈ g.functions, EdgesKept g policy fd) :
    runFunctionGraphWithKvIntercept env g none rid policy cache = runFunctionGraph env g cache := by
  have hrun : Lockstep (Agrees env g policy g.functions.length)
      (runKvFunctions env g policy rid (.init g none cache) g.functions)
      (g.functions.foldlM (graphStep env g) ⟨replicate g.functions.length [], cache⟩) := by
    refine Lockstep.foldlM (agrees_init hcache) fun k fd s t hfd hs => ?_
    have hmem := mem_of_getElem? hfd
    exact hs.step hg hfd (haligned fd hmem) (hkept fd hmem)
  refine (Lockstep.bind hrun fun s t _ hs => ?_).eq
  -- both runners read the result at its own index
  obtain ⟨v, hv⟩ := (hs.laid.readGlobalOutput_iff hg).2 houtput
  obtain ⟨slots, hslots, hat⟩ := readFuncOutput_eq_ok.1 hv
  rw [hs.slots _ slots hslots _ (mem_of_getElem? hat), hv]
  exact .ok rfl

/-- With flags and intercepts aligned, the KV pass is `run_function_graph`'s and in range. -/
theorem kvGraph_wired (env : GraphEnv) (g : ComputeGraph) (hg : g.WellFormed)
    (policy : CachePolicy) (rid : Option String) (bm : Option BlockManager) (cache : WeightCache) :
    (∀ k fd s, g.functions[k]? = some fd →
      runKvFunctions env g policy rid (.init g bm cache) (g.functions.take k) = .ok s →
      ∀ p o d pd, (InputBinding.ssa p o, d) ∈ fd.inputs → g.functions[p]? = some pd →
        intercepted policy pd o = false →
          readSsaKv env g policy rid s p o = (readStored g s.funcOutputs p o).map (·.value) ∧
          ((∃ v, readStored g s.funcOutputs p o = .ok ⟨v, (p, o)⟩) ↔ EdgeAligned g policy p o)) ∧
    (∀ s, runKvFunctions env g policy rid (.init g bm cache) g.functions = .ok s →
      ((∃ v, readGlobalOutput g s = .ok ⟨v, g.globalOutput⟩) ↔ OutputAligned g policy)) ∧
    ((∀ fd ∈ g.functions, EdgesAligned g policy fd) → OutputAligned g policy →
      runFunctionGraphWithKvIntercept env g bm rid policy cache ≠ .error .funcOutputsRange ∧
      ((∀ fd ∈ g.functions, EdgesKept g policy fd) → Provided env cache →
        runFunctionGraphWithKvIntercept env g none rid policy cache =
          runFunctionGraph env g cache)) := by
  refine ⟨?_, ?_, ?_⟩
  · intro k fd s hfd hrun p o d pd hedge hpd hcut
    have hk := (List.getElem?_eq_some_iff.1 hfd).1
    have hs := laid_of_run hg (le_of_lt hk) hrun
    obtain ⟨pd', hp, hpd', ho, hread⟩ := readSsaKv_eq hg hfd hedge
    rw [hpd] at hpd'
    cases hpd'
    rw [hcut, if_neg (by decide)] at hread
    exact ⟨hread, hs.readStored_iff hp hpd ho hcut⟩
  · intro s hrun
    rw [← take_length (l := g.functions)] at hrun
    exact (laid_of_run hg le_rfl hrun).readGlobalOutput_iff hg
  · intro haligned houtput
    refine ⟨runKv_inRange hg bm haligned houtput, fun hkept hcache => ?_⟩
    exact runKv_eq_runFunctionGraph hg hcache haligned houtput hkept

/-! ### Two functions -/

/-- The second function reads output 1 of the first, behind an output with the flag. -/
def twoFuncGraph (flag : Bool) : ComputeGraph :=
  let ioDef (consumed : Bool) : GraphTensorDef :=
    { consumedInternally := consumed, rank := 1, shape := [1], dtype := .i64 }
  { functions :=
      [{ index := 0
         symbol := "main_0"
         numInputs := 1
         numOutputs := 2
         inputs := [(.globalInput, ioDef false)]
         outputs := [ioDef flag, ioDef false]
         consumedSubOutputFlags := [] },
       { index := 1
         symbol := "main_1"
         numInputs := 1
         numOutputs := 1
         inputs := [(.ssa 0 1, ioDef false)]
         outputs := [ioDef false]
         consumedSubOutputFlags := [] }]
    globalInput := (0, 0)
    globalOutput := (1, 0) }

/-- Output `oi` of the first function is the number `oi`; the second returns its input. -/
def twoFuncEnv : GraphEnv where
  execute symbol inputs oi :=
    if symbol = "main_0" then .i64 ⟨[1], [oi]⟩ else inputs.headD (.i64 ⟨[1], [oi]⟩)
  provider _ := none
  sgemm _ _ _ := []
  add a _ := a
  ofUsize _ := 0
  inputIds := [7]
  positions := [0]

def onePolicy (fi oi : Nat) : CachePolicy where
  slabs := []
  intercepts := [⟨"kv", "main", "write", "output", "", fi, oi⟩]
  blockSize := 16
  maxRequests := 256

theorem twoFuncGraph_wellFormed (flag : Bool) : (twoFuncGraph flag).WellFormed where
  index i fd h := by
    match i, h with
    | 0, h =>
      cases h
      rfl
    | 1, h =>
      cases h
      rfl
  numInputs fd h := by
    rcases mem_cons.1 h with rfl | h
    · rfl
    · rw [mem_singleton.1 h]
      rfl
  edges i fd h p o d hedge := by
    match i, h with
    | 0, h =>
      cases h
      cases mem_singleton.1 hedge
    | 1, h =>
      cases h
      cases mem_singleton.1 hedge
      exact ⟨Nat.zero_lt_one, _, _, rfl, rfl⟩
  output := ⟨_, _, rfl, rfl⟩

theorem twoFuncGraph_edge {flag : Bool} (h : fd ∈ (twoFuncGraph flag).functions)
    (hedge : (InputBinding.ssa p o, d) ∈ fd.inputs) : p = 0 ∧ o = 1 := by
  rcases mem_cons.1 h with rfl | h
  · cases mem_singleton.1 hedge
  · rw [mem_singleton.1 h] at hedge
    cases mem_singleton.1 hedge
    exact ⟨rfl, rfl⟩

/-- The flagged output is the intercepted one. -/
theorem kvGraph_wired_witness : (twoFuncGraph true).WellFormed ∧
    runFunctionGraphWithKvIntercept twoFuncEnv (twoFuncGraph true) none none (onePolicy 0 0) ∅ =
      runFunctionGraph twoFuncEnv (twoFuncGraph true) ∅ := by
  have hwired := kvGraph_wired twoFuncEnv (twoFuncGraph true) (twoFuncGraph_wellFormed true)
    (onePolicy 0 0) none none ∅
  refine ⟨twoFuncGraph_wellFormed true, (hwired.2.2 ?_ ?_).2 ?_ ?_⟩
  · intro fd hfd p o d hedge _ pd hpd
    obtain ⟨rfl, rfl⟩ := twoFuncGraph_edge hfd hedge
    cases hpd
    rfl
  · intro fd hfd
    cases hfd
    exact .inr rfl
  · intro fd hfd p o d hedge pd hpd hcut
    obtain ⟨rfl, rfl⟩ := twoFuncGraph_edge hfd hedge
    cases hpd
    cases hcut
  · intro key hkey
    cases hkey

/-- A flag without an intercept shifts the read, and an intercept without a flag leaves the list. -/
theorem kvGraph_wired_fails : (twoFuncGraph true).WellFormed ∧ (twoFuncGraph false).WellFormed ∧
    runFunctionGraphWithKvIntercept twoFuncEnv (twoFuncGraph true) none none (onePolicy 5 0) ∅ =
      .ok (.i64 ⟨[1], [0]⟩) ∧
    runFunctionGraph twoFuncEnv (twoFuncGraph true) ∅ = .ok (.i64 ⟨[1], [1]⟩) ∧
    runFunctionGraphWithKvIntercept twoFuncEnv (twoFuncGraph false) none none (onePolicy 0 0) ∅ =
      .error .funcOutputsRange :=
  ⟨twoFuncGraph_wellFormed true, twoFuncGraph_wellFormed false, rfl, rfl, rfl⟩

end CompileForge.Runtime
