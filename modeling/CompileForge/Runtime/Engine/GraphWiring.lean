/-
  Where `run_function_graph_with_kv_intercept` stores the outputs of a function, and
  what its edges and its result read.
-/

import CompileForge.Runtime.Engine.GraphRunner
import CompileForge.Lib.Outcome
import CompileForge.Lib.Renumber

namespace CompileForge.Runtime

open Lib List

variable {α : Type} {funcOutputs : List (List OutputSlot)} {p o k : Nat} {s s' : KvGraphState}
  {e : Value × Nat} {pd : FuncDef}

theorem readFuncOutput_eq_ok {funcOutputs : List (List α)} {v : α} :
    readFuncOutput funcOutputs p o = .ok v ↔
      ∃ outputs, funcOutputs[p]? = some outputs ∧ outputs[o]? = some v := by
  unfold readFuncOutput
  cases hp : funcOutputs[p]? with
  | none => exact iff_of_false nofun nofun
  | some outputs =>
    have hread : (∃ outputs', some outputs = some outputs' ∧ outputs'[o]? = some v) ↔
        outputs[o]? = some v := by
      constructor
      · rintro ⟨_, h, hv⟩
        cases h
        exact hv
      · intro hv
        exact ⟨outputs, rfl, hv⟩
    rw [hread]
    simp only
    cases outputs[o]? with
    | none => exact iff_of_false nofun nofun
    | some => rw [Except.ok.injEq, Option.some_inj]

theorem pushFuncOutputs_eq_ok {funcOutputs funcOutputs' : List (List α)} {fi : Nat}
    {values : List α} (hfi : fi < funcOutputs.length)
    (h : pushFuncOutputs funcOutputs fi values = .ok funcOutputs') :
    funcOutputs' = funcOutputs.modify fi (· ++ values) := by
  rw [pushFuncOutputs, if_pos hfi] at h
  exact (Except.ok.inj h).symm

/-! ## Graphs -/

/-- A graph whose edges point to an existing output of an earlier function. -/
structure ComputeGraph.WellFormed (g : ComputeGraph) : Prop where
  index : ∀ i (fd : FuncDef), g.functions[i]? = some fd → fd.index = i
  numInputs : ∀ fd ∈ g.functions, fd.numInputs = fd.inputs.length
  edges : ∀ i (fd : FuncDef), g.functions[i]? = some fd →
    ∀ p o d, (InputBinding.ssa p o, d) ∈ fd.inputs →
    p < i ∧ ∃ (pd : FuncDef) (od : GraphTensorDef),
      g.functions[p]? = some pd ∧ pd.outputs[o]? = some od
  output : ∃ (fd : FuncDef) (od : GraphTensorDef), g.functions[g.globalOutput.1]? = some fd ∧
    fd.outputs[g.globalOutput.2]? = some od

/-- The functions that are not called; they push every output. -/
def fastPath (g : ComputeGraph) (fd : FuncDef) : Bool :=
  isMain15 g fd || (main0FastpathContract fd (main0WeightPassthroughMap fd)).isSome

def intercepted (policy : CachePolicy) (fd : FuncDef) (oi : Nat) : Bool :=
  match fd.outputs[oi]? with
  | some d => shouldInterceptConsumed fd.index oi policy d
  | none => false

def interceptedBefore (policy : CachePolicy) (fd : FuncDef) (o : Nat) : Nat :=
  (range o).countP (intercepted policy fd)

/-- The policy decides which outputs are pushed; the flags decide where they are read. -/
def pushed (g : ComputeGraph) (policy : CachePolicy) (fd : FuncDef) : List Nat :=
  if fastPath g fd then range fd.outputs.length
  else (range fd.outputs.length).filter fun oi => !intercepted policy fd oi

/-! ## What a function pushes -/

variable {env : GraphEnv} {g : ComputeGraph} {policy : CachePolicy} {rid : Option String}
  {fd : FuncDef} {raw : Bool} {inputs : List BoundInput} {cache cache' : WeightCache}

theorem buildMain0_length {aliases : List (Nat × Nat)} {t : Nat} {outputs : List Value}
    (h : buildMain0OutputsFastpath env fd inputs aliases t p = .ok outputs) :
    outputs.length = fd.outputs.length := by
  unfold buildMain0OutputsFastpath at h
  iterate 11 obtain ⟨_, _, h⟩ := bind_eq_ok h
  rw [length_mapM_ok h, length_range]

theorem runFunction_spec {produced : Produced}
    (h : runFunction env g fd raw inputs cache = .ok (produced, cache')) :
    (∃ outputs, produced = .fastpath outputs ∧ outputs.length = fd.outputs.length ∧
      fastPath g fd = true) ∨
    (produced = .executed ((range fd.outputs.length).map
        (env.execute fd.symbol (inputs.map (·.buffer)))) ∧ fastPath g fd = false) := by
  unfold runFunction at h
  by_cases hmain15 : isMain15 g fd = true
  · rw [if_pos hmain15] at h
    obtain ⟨⟨logits, _⟩, _, h⟩ := bind_eq_ok h
    cases h
    have hone : fd.outputs.length = 1 := by
      unfold isMain15 at hmain15
      simp only [Bool.and_eq_true, decide_eq_true_eq] at hmain15
      exact hmain15.1.2
    refine .inl ⟨_, rfl, by rw [hone, length_singleton], ?_⟩
    rw [fastPath, hmain15, Bool.true_or]
  · rw [if_neg hmain15] at h
    simp only [Bool.not_eq_true] at hmain15
    cases hmain0 : main0FastpathContract fd (main0WeightPassthroughMap fd) with
    | some =>
      simp only [hmain0] at h
      obtain ⟨outputs, houtputs, h⟩ := bind_eq_ok h
      cases h
      refine .inl ⟨_, rfl, buildMain0_length houtputs, ?_⟩
      rw [fastPath, hmain0, Option.isSome_some, Bool.or_true]
    | none =>
      simp only [hmain0] at h
      cases h
      refine .inr ⟨rfl, ?_⟩
      rw [fastPath, hmain15, hmain0, Option.isSome_none, Bool.false_or]

theorem storeOutput_spec {d : GraphTensorDef}
    (hfi : fd.index < s.funcOutputs.length) (hd : fd.outputs[e.2]? = some d)
    (h : storeOutput env policy rid fd inputs s e = .ok s') :
    s'.weightCache = s.weightCache ∧ s'.funcOutputs =
      if intercepted policy fd e.2 then s.funcOutputs
      else s.funcOutputs.modify fd.index
        (· ++ outputSlots fd.index [(aliased fd inputs e.2 e.1, e.2)]) := by
  unfold storeOutput at h
  obtain ⟨ioDef, hioDef, h⟩ := bind_eq_ok h
  rw [orPanic_eq_ok, hd] at hioDef
  cases hioDef
  have hint : intercepted policy fd e.2 = shouldInterceptConsumed fd.index e.2 policy d := by
    simp only [intercepted, hd]
  rw [hint]
  by_cases hcut : shouldInterceptConsumed fd.index e.2 policy d = true
  · rw [if_pos hcut] at h ⊢
    unfold interceptOutput at h
    cases hbm : s.blockManager with
    | none =>
      simp only [hbm] at h
      cases h
      exact ⟨rfl, rfl⟩
    | some =>
      simp only [hbm] at h
      cases rid with
      | none => cases h
      | some =>
        obtain ⟨_, _, h⟩ := bind_eq_ok h
        obtain ⟨⟨result, _, _⟩, _, h⟩ := bind_eq_ok h
        cases result with
        | error => cases h
        | ok =>
          cases h
          exact ⟨rfl, rfl⟩
  · rw [if_neg hcut] at h ⊢
    obtain ⟨funcOutputs, hpush, h⟩ := bind_eq_ok h
    cases h
    exact ⟨rfl, pushFuncOutputs_eq_ok hfi hpush⟩

theorem storeOutput_length (hfi : fd.index < s.funcOutputs.length)
    (h : storeOutput env policy rid fd inputs s e = .ok s') :
    s'.funcOutputs.length = s.funcOutputs.length := by
  obtain ⟨d, hd, _⟩ := bind_eq_ok h
  rw [(storeOutput_spec hfi (orPanic_eq_ok.1 hd) h).2]
  by_cases hcut : intercepted policy fd e.2 = true
  · rw [if_pos hcut]
  · rw [if_neg hcut, length_modify]

theorem modify_append (l : List (List α)) (i : Nat) (a b : List α) :
    (l.modify i (· ++ a)).modify i (· ++ b) = l.modify i (· ++ (a ++ b)) := by
  rw [modify_modify_eq]
  refine congrArg (l.modify i) (funext fun x => ?_)
  exact append_assoc x a b

/-- The outputs among `es` that are not intercepted, as they are pushed. -/
def visible (policy : CachePolicy) (fd : FuncDef) (inputs : List BoundInput)
    (es : List (Value × Nat)) : List OutputSlot :=
  outputSlots fd.index ((es.filter fun e => !intercepted policy fd e.2).map fun e =>
    (aliased fd inputs e.2 e.1, e.2))

theorem storeOutputs_spec {es : List (Value × Nat)}
    (hfi : fd.index < s.funcOutputs.length) (hes : ∀ e ∈ es, e.2 < fd.outputs.length)
    (h : es.foldlM (storeOutput env policy rid fd inputs) s = .ok s') :
    s'.weightCache = s.weightCache ∧
      s'.funcOutputs = s.funcOutputs.modify fd.index (· ++ visible policy fd inputs es) := by
  induction es generalizing s with
  | nil =>
    cases h
    refine ⟨rfl, ?_⟩
    have hid : (fun l : List OutputSlot => l ++ visible policy fd inputs []) = id :=
      funext fun l => append_nil l
    rw [hid, modify_id]
  | cons e es ih =>
    rw [foldlM_cons] at h
    obtain ⟨s1, hfirst, h⟩ := bind_eq_ok h
    have he := hes e mem_cons_self
    obtain ⟨hcache, houtputs⟩ := storeOutput_spec hfi (getElem?_eq_getElem he) hfirst
    have hlen := storeOutput_length hfi hfirst
    obtain ⟨hcache', houtputs'⟩ :=
      ih (by omega) (fun e' he' => hes e' (mem_cons_of_mem e he')) h
    refine ⟨hcache'.trans hcache, ?_⟩
    rw [houtputs', houtputs]
    by_cases hcut : intercepted policy fd e.2 = true
    · rw [if_pos hcut, visible, visible, filter_cons_of_neg (by rw [hcut]; decide)]
    · have hkeep : (!intercepted policy fd e.2) = true := by
        rw [Bool.not_eq_true] at hcut
        rw [hcut]
        rfl
      have hfilter : (e :: es).filter (fun e => !intercepted policy fd e.2) =
          e :: es.filter fun e => !intercepted policy fd e.2 := filter_cons_of_pos hkeep
      rw [if_neg hcut, modify_append, visible, visible, hfilter]
      rfl

theorem visible_origin (outputs : List Value) (hlen : outputs.length = fd.outputs.length)
    (hfast : fastPath g fd = false) :
    (visible policy fd inputs outputs.zipIdx).map (·.origin) =
      (pushed g policy fd).map fun o => (fd.index, o) := by
  have hidx : outputs.zipIdx.map Prod.snd = range fd.outputs.length := by
    rw [zipIdx_map_snd, hlen, range_eq_range']
  have hfilter := filter_map (f := Prod.snd)
    (p := fun oi => !intercepted policy fd oi) (l := outputs.zipIdx)
  rw [hidx] at hfilter
  rw [pushed, hfast, if_neg (by decide), hfilter, visible, outputSlots, map_map, map_map, map_map]
  rfl

theorem fastpath_origin (outputs : List Value) (hlen : outputs.length = fd.outputs.length)
    (hfast : fastPath g fd = true) :
    (outputSlots fd.index outputs.zipIdx).map (·.origin) =
      (pushed g policy fd).map fun o => (fd.index, o) := by
  have hidx : outputs.zipIdx.map Prod.snd = range fd.outputs.length := by
    rw [zipIdx_map_snd, hlen, range_eq_range']
  rw [pushed, hfast, if_pos rfl, ← hidx, outputSlots, map_map, map_map]
  rfl

theorem kvGraphStep_spec (hfi : fd.index < s.funcOutputs.length)
    (h : kvGraphStep env g policy rid s fd = .ok s') :
    ∃ outputs : List OutputSlot,
      outputs.map (·.origin) = (pushed g policy fd).map (fun o => (fd.index, o)) ∧
      s'.funcOutputs = s.funcOutputs.modify fd.index (· ++ outputs) := by
  unfold kvGraphStep at h
  obtain ⟨⟨inputs, cache⟩, _, h⟩ := bind_eq_ok h
  obtain ⟨⟨produced, cache'⟩, hrun, h⟩ := bind_eq_ok h
  rcases runFunction_spec hrun with ⟨outputs, rfl, hlen, hfast⟩ | ⟨rfl, hfast⟩
  · obtain ⟨funcOutputs, hpush, h⟩ := bind_eq_ok h
    cases h
    exact ⟨outputSlots fd.index outputs.zipIdx, fastpath_origin outputs hlen hfast,
      pushFuncOutputs_eq_ok hfi hpush⟩
  · have hlen : ((range fd.outputs.length).map
        (env.execute fd.symbol (inputs.map (·.buffer)))).length = fd.outputs.length := by
      rw [length_map, length_range]
    have hes : ∀ e ∈ ((range fd.outputs.length).map
        (env.execute fd.symbol (inputs.map (·.buffer)))).zipIdx, e.2 < fd.outputs.length := by
      intro e he
      have := snd_lt_of_mem_zipIdx he
      omega
    have hfi' : fd.index < ({ s with weightCache := cache' } : KvGraphState).funcOutputs.length :=
      hfi
    obtain ⟨_, houtputs⟩ := storeOutputs_spec hfi' hes h
    exact ⟨_, visible_origin _ hlen hfast, houtputs⟩

/-! ## A run over the first functions -/

/-- Each of the first `k` functions has left its pushed outputs, the others nothing. -/
def Laid (g : ComputeGraph) (policy : CachePolicy) (k : Nat)
    (funcOutputs : List (List OutputSlot)) :
    Prop :=
  funcOutputs.length = g.functions.length ∧
    ∀ (p : Nat) (fd : FuncDef), g.functions[p]? = some fd → ∃ outputs : List OutputSlot,
      funcOutputs[p]? = some outputs ∧
      outputs.map (·.origin) = if p < k then (pushed g policy fd).map fun o => (p, o) else []

theorem laid_init (bm : Option BlockManager) :
    Laid g policy 0 (KvGraphState.init g bm cache).funcOutputs := by
  refine ⟨length_replicate, fun p fd hp => ⟨[], ?_, rfl⟩⟩
  have hlt := (List.getElem?_eq_some_iff.1 hp).1
  rw [KvGraphState.init, getElem?_replicate, if_pos hlt]

theorem Laid.append {added : List OutputSlot}
    (hs : Laid g policy k funcOutputs) (hfd : g.functions[k]? = some fd)
    (horigin : added.map (·.origin) = (pushed g policy fd).map fun o => (k, o)) :
    Laid g policy (k + 1) (funcOutputs.modify k (· ++ added)) := by
  refine ⟨by rw [length_modify, hs.1], fun p pd hpd => ?_⟩
  obtain ⟨outputs, hread, hprev⟩ := hs.2 p pd hpd
  by_cases hp : p = k
  · subst hp
    rw [hfd] at hpd
    cases hpd
    -- nothing was stored for this function before
    rw [if_neg (lt_irrefl p)] at hprev
    refine ⟨outputs ++ added, ?_, ?_⟩
    · rw [getElem?_modify_eq, hread]
      rfl
    · rw [map_append, hprev, horigin, nil_append, if_pos (Nat.lt_succ_self p)]
  · refine ⟨outputs, ?_, ?_⟩
    · rw [getElem?_modify_ne _ _ (Ne.symm hp), hread]
    · rw [hprev]
      by_cases hpk : p < k
      · rw [if_pos hpk, if_pos (by omega)]
      · rw [if_neg hpk, if_neg (by omega)]

theorem Laid.todo (hs : Laid g policy k funcOutputs) (hfd : g.functions[k]? = some fd) :
    funcOutputs[k]? = some [] := by
  obtain ⟨outputs, hread, hprev⟩ := hs.2 k fd hfd
  rw [if_neg (lt_irrefl k), map_eq_nil_iff] at hprev
  rw [hread, hprev]

theorem Laid.index_lt (hg : g.WellFormed)
    (hs : Laid g policy k funcOutputs) (hfd : g.functions[k]? = some fd) :
    fd.index < funcOutputs.length := by
  rw [hg.index k fd hfd, hs.1]
  exact (List.getElem?_eq_some_iff.1 hfd).1

theorem Laid.step (hg : g.WellFormed) {k : Nat} {s s' : KvGraphState}
    (hs : Laid g policy k s.funcOutputs) (hfd : g.functions[k]? = some fd)
    (h : kvGraphStep env g policy rid s fd = .ok s') : Laid g policy (k + 1) s'.funcOutputs := by
  obtain ⟨added, horigin, houtputs⟩ := kvGraphStep_spec (hs.index_lt hg hfd) h
  rw [hg.index k fd hfd] at horigin houtputs
  rw [houtputs]
  exact hs.append hfd horigin

theorem laid_of_run (hg : g.WellFormed) {bm : Option BlockManager} (hk : k ≤ g.functions.length)
    (h : runKvFunctions env g policy rid (.init g bm cache) (g.functions.take k) = .ok s) :
    Laid g policy k s.funcOutputs := by
  induction k generalizing s with
  | zero =>
    cases h
    exact laid_init bm
  | succ k ih =>
    have hfd := getElem?_eq_getElem (show k < g.functions.length from hk)
    rw [runKvFunctions, take_add_one, hfd, Option.toList_some, foldlM_append] at h
    obtain ⟨s1, hfirst, h⟩ := bind_eq_ok h
    rw [foldlM_cons] at h
    obtain ⟨s2, hstep, h⟩ := bind_eq_ok h
    cases h
    exact (ih (Nat.le_of_succ_le hk) hfirst).step hg hfd hstep

/-! ## What a read finds -/

variable (g policy)

/-- The flags before output `o` agree with what is not stored. -/
def EdgeAligned (p o : Nat) : Prop :=
  ∀ pd, g.functions[p]? = some pd →
    consumedBefore pd o = if fastPath g pd then 0 else interceptedBefore policy pd o

/-- The result is stored at its own index. -/
def OutputAligned : Prop :=
  ∀ fd, g.functions[g.globalOutput.1]? = some fd → fastPath g fd = true ∨
    interceptedBefore policy fd (g.globalOutput.2 + 1) = 0

variable {g policy}

theorem Laid.read_iff (hs : Laid g policy k funcOutputs) {i : Nat} (hp : p < k)
    (hpd : g.functions[p]? = some pd) :
    (∃ v, readFuncOutput funcOutputs p i = .ok ⟨v, (p, o)⟩) ↔
      (pushed g policy pd)[i]? = some o := by
  obtain ⟨outputs, hread, horigin⟩ := hs.2 p pd hpd
  rw [if_pos hp] at horigin
  have hat : outputs[i]?.map (·.origin) = (pushed g policy pd)[i]?.map fun o => (p, o) := by
    rw [← getElem?_map, horigin, getElem?_map]
  constructor
  · rintro ⟨v, hv⟩
    obtain ⟨outputs', houtputs, hv⟩ := readFuncOutput_eq_ok.1 hv
    rw [hread] at houtputs
    cases houtputs
    rw [hv, Option.map_some] at hat
    obtain ⟨o', ho', hpair⟩ := Option.map_eq_some_iff.1 hat.symm
    have : o' = o := congrArg Prod.snd hpair
    rw [ho', this]
  · intro ho
    rw [ho, Option.map_some] at hat
    obtain ⟨⟨v, origin⟩, hv, rfl⟩ := Option.map_eq_some_iff.1 hat
    exact ⟨v, readFuncOutput_eq_ok.2 ⟨outputs, hread, hv⟩⟩

theorem consumedBefore_le (pd : FuncDef) (o : Nat) : consumedBefore pd o ≤ o :=
  le_trans (countP_le_length) (by rw [length_take]; omega)

theorem Laid.readStored_iff (hs : Laid g policy k funcOutputs) (hp : p < k)
    (hpd : g.functions[p]? = some pd) (ho : o < pd.outputs.length)
    (hvisible : intercepted policy pd o = false) :
    (∃ v, readStored g funcOutputs p o = .ok ⟨v, (p, o)⟩) ↔ EdgeAligned g policy p o := by
  have hread : ∀ st, readStored g funcOutputs p o = .ok st ↔
      readFuncOutput funcOutputs p (o - consumedBefore pd o) = .ok st := by
    intro st
    unfold readStored
    rw [hpd]
    exact Iff.rfl
  simp only [hread]
  rw [hs.read_iff hp hpd]
  have haligned : EdgeAligned g policy p o ↔
      consumedBefore pd o = if fastPath g pd then 0 else interceptedBefore policy pd o := by
    constructor
    · intro h
      exact h pd hpd
    · intro h pd' hpd'
      rw [hpd] at hpd'
      cases hpd'
      exact h
  rw [haligned]
  have hle := consumedBefore_le pd o
  unfold pushed
  cases hfast : fastPath g pd with
  | true =>
    rw [if_pos rfl, if_pos rfl, List.getElem?_eq_some_iff]
    simp only [length_range, getElem_range]
    constructor
    · rintro ⟨_, h⟩
      omega
    · intro h
      exact ⟨by omega, by omega⟩
  | false =>
    have hcut := countP_range_le (intercepted policy pd) o
    rw [if_neg (by decide), if_neg (by decide), getElem?_filter_range_iff, countP_range_not,
      interceptedBefore]
    constructor
    · rintro ⟨_, _, h⟩
      omega
    · intro h
      exact ⟨ho, by rw [hvisible]; rfl, by omega⟩

/-- The result is the output it names exactly when no output up to it is intercepted. -/
theorem Laid.readGlobalOutput_iff (hg : g.WellFormed)
    (hs : Laid g policy g.functions.length s.funcOutputs) :
    (∃ v, readGlobalOutput g s = .ok ⟨v, g.globalOutput⟩) ↔ OutputAligned g policy := by
  obtain ⟨fd, od, hfd, hod⟩ := hg.output
  have hlt := (List.getElem?_eq_some_iff.1 hfd).1
  have ho := (List.getElem?_eq_some_iff.1 hod).1
  have haligned : OutputAligned g policy ↔ fastPath g fd = true ∨
      interceptedBefore policy fd (g.globalOutput.2 + 1) = 0 := by
    constructor
    · intro h
      exact h fd hfd
    · intro h fd' hfd'
      rw [hfd] at hfd'
      cases hfd'
      exact h
  have hread := hs.read_iff (i := g.globalOutput.2) (o := g.globalOutput.2) hlt hfd
  rw [haligned]
  refine Iff.trans hread ?_
  unfold pushed
  cases hfast : fastPath g fd with
  | true =>
    rw [if_pos rfl]
    constructor
    · intro _
      exact .inl rfl
    · intro _
      exact getElem?_range ho
  | false =>
    have hcut := countP_range_le (intercepted policy fd) g.globalOutput.2
    rw [if_neg (by decide), getElem?_filter_range_iff, countP_range_not, interceptedBefore,
      range_succ, countP_append, countP_singleton]
    cases hlast : intercepted policy fd g.globalOutput.2 with
    | true =>
      constructor
      · rintro ⟨_, h, _⟩
        cases h
      · rintro (h | h)
        · cases h
        · simp at h
    | false =>
      constructor
      · rintro ⟨_, _, h⟩
        refine .inr ?_
        simp only [Bool.false_eq_true, if_false]
        omega
      · rintro (h | h)
        · cases h
        · simp only [Bool.false_eq_true, if_false] at h
          exact ⟨ho, rfl, by omega⟩

end CompileForge.Runtime
