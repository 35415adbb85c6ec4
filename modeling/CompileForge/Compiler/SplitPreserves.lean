/-
  Splitting preserves a program exactly when it is `Splittable`.

  The functions are run beside the environment `u` in which the unsplit program ends.
  Where the program is splittable every function has agreed with `u` on the values that
  count (`Delivered`).  Conversely, in the free interpretation a value that counts tells
  which ops made it, so that none of them was changed.
-/

import CompileForge.Compiler.SplitWiring

namespace CompileForge.Compiler

open Abi Lib.StraightLine List

variable {V : Type} {interp : Interp V} {values : List V} {u env : Env String V}
  {sets : SetOrder} {args : SplitArgs} {blocks : List (List MlirOp)} {f p : Nat}
  {block other : List MlirOp} {n v : String} {r : SplitResult} {func : MlirFunction}
  {step : ExecutionStep} {outs : List (List V)}

theorem length_inputKeys (inputs : List (String × String)) :
    (inputKeys inputs).length = inputs.length := length_map _

variable {names : List String} {ops : List MlirOp}

theorem bindNames_of_notMem (hlen : values.length = names.length)
    (h : n ∉ names) : bindNames names values n = none := by
  rw [bindNames, idxOf_of_notMem h, getElem?_eq_none (le_of_eq hlen)]

theorem bindNames_eq (h : names.map u = values.map some) (hn : n ∈ names) :
    bindNames names values n = u n := by
  have hlt := idxOf_lt_length_of_mem hn
  obtain ⟨w, hw, hu⟩ := getElem?_of_map_eq h (getElem?_eq_getElem hlt)
  rw [getElem_idxOf] at hu
  rw [bindNames, hw, hu]

/-! ## The unsplit program -/

/-- The environment in which the unsplit program ends, from the global inputs. -/
def Ends (interp : Interp V) (args : SplitArgs) (blocks : List (List MlirOp)) (values : List V)
    (u : Env String V) : Prop :=
  values.length = args.globalInputs.length ∧
    evalOps interp (bindNames (inputKeys args.globalInputs) values) blocks.flatten = some u

theorem Ends.solves (hp : SsaProgram blocks args) (hu : Ends interp args blocks values u)
    (hblock : block ∈ blocks) {op : MlirOp} (hop : op ∈ block) : Solves interp u op.instr := by
  obtain ⟨hlen, hrun⟩ := hu
  have hnodup : (defined (program blocks.flatten)).Nodup := by
    rw [defined_program]
    exact hp.ssaBlocks.nodup
  refine run_solves hnodup (fun n hn => ?_) hrun op.instr
    (mem_map_of_mem (mem_flatten.2 ⟨block, hblock, hop⟩))
  refine bindNames_of_notMem (by rw [hlen, length_inputKeys]) fun hglobal => ?_
  exact (nodup_append.1 hp.distinct).2.2 n hglobal n hn rfl

theorem Ends.result_isSome (hp : SsaProgram blocks args) (hu : Ends interp args blocks values u)
    (hblock : block ∈ blocks) (hn : n ∈ blockResults block) : (u n).isSome = true := by
  obtain ⟨op, hop, hres⟩ := mem_blockResults.1 hn
  obtain ⟨_, _, hsome⟩ := hu.solves hp hblock hop
  obtain ⟨k, hk⟩ := mem_iff_getElem?.mp hres
  rw [hsome k n hk]
  rfl

theorem Ends.global (hp : SsaProgram blocks args) (hu : Ends interp args blocks values u)
    {i : Nat} {input : String × String} (hinput : args.globalInputs[i]? = some input) :
    u (ssaKey input.1) = values[i]? := by
  have hkey : (inputKeys args.globalInputs)[i]? = some (ssaKey input.1) := by
    rw [inputKeys, getElem?_map, hinput, Option.map_some]
  obtain ⟨hi, hget⟩ := List.getElem?_eq_some_iff.1 hkey
  have hkeys : (inputKeys args.globalInputs).Nodup := (nodup_append.1 hp.distinct).1
  have hnot : ssaKey input.1 ∉ defined (program blocks.flatten) := fun hmem =>
    (nodup_append.1 hp.distinct).2.2 _ (mem_of_getElem? hkey) _ hmem rfl
  rw [run_of_notMem hu.2 hnot, bindNames, ← hget, hkeys.idxOf_getElem i hi]

theorem exists_ends (hp : SsaProgram blocks args) (interp : Interp V)
    (hlen : values.length = args.globalInputs.length) :
    ∃ u, Ends interp args blocks values u := by
  obtain ⟨u, hu, _⟩ := @run_of_scoped _ _ _ _ interp _ _ _ hp.inScope fun _ hn =>
    (isSome_bindNames (hlen.trans (length_inputKeys _).symm)).2 hn
  exact ⟨u, hlen, hu⟩

/-! ## Evaluation of the functions -/

theorem evalBody_eq_some :
    evalBody interp values outs func step = some env ↔ ∃ ins : List V,
      step.inputs.map (deliver values outs) = ins.map some ∧
      run interp (bindNames (inputKeys func.inputs) ins) (program func.ops) = some env := by
  unfold evalBody
  constructor
  · intro h
    obtain ⟨ins, hins, h⟩ := Option.bind_eq_some_iff.1 h
    exact ⟨ins, mapM_eq_some.1 hins, h⟩
  · rintro ⟨ins, hins, h⟩
    rw [mapM_eq_some.2 hins]
    exact h

theorem evalFunction_eq_some {o : List V} :
    evalFunction interp values outs func step = some o ↔ ∃ env,
      evalBody interp values outs func step = some env ∧
      (outputKeys func.outputs).map env = o.map some := by
  unfold evalFunction
  have hkeys : ∀ env : Env String V, (outputKeys func.outputs).map env =
      func.outputs.map fun o => env (ssaKey o.name) := by
    intro env
    rw [outputKeys, map_map]
    rfl
  constructor
  · intro h
    obtain ⟨env, hbody, h⟩ := Option.bind_eq_some_iff.1 h
    exact ⟨env, hbody, (hkeys env).trans (mapM_eq_some.1 h)⟩
  · rintro ⟨env, hbody, h⟩
    rw [hkeys] at h
    rw [hbody]
    exact mapM_eq_some.2 h

theorem evalSteps_concat (l : List (MlirFunction × ExecutionStep))
    (e : MlirFunction × ExecutionStep) :
    evalSteps interp values outs (l ++ [e]) = (evalSteps interp values outs l).bind fun outs' =>
      (evalFunction interp values outs' e.1 e.2).bind fun o => some (outs' ++ [o]) := by
  rw [evalSteps, foldlM_append]
  refine Option.bind_congr fun outs' _ => ?_
  rw [foldlM_cons]
  cases evalFunction interp values outs' e.1 e.2 with
  | none => rfl
  | some => rfl

theorem evalSteps_at {l : List (MlirFunction × ExecutionStep)}
    (h : evalSteps interp values [] l = some outs) :
    outs.length = l.length ∧ ∀ k e, l[k]? = some e → ∃ o, outs[k]? = some o ∧
      evalFunction interp values (outs.take k) e.1 e.2 = some o := by
  induction l using reverseRecOn generalizing outs with
  | nil =>
    cases h
    exact ⟨rfl, fun k e hk => by cases hk⟩
  | append_singleton l e ih =>
    rw [evalSteps_concat] at h
    obtain ⟨outs', hprev, h⟩ := Option.bind_eq_some_iff.1 h
    obtain ⟨o, ho, h⟩ := Option.bind_eq_some_iff.1 h
    cases h
    obtain ⟨hlen, hat⟩ := ih hprev
    refine ⟨by rw [length_append, length_append, hlen]; rfl, fun k e' hk => ?_⟩
    by_cases hlt : k < l.length
    · rw [getElem?_append_left hlt] at hk
      obtain ⟨o', ho', heval⟩ := hat k e' hk
      refine ⟨o', ?_, ?_⟩
      · rw [getElem?_append_left (by omega), ho']
      · rw [take_append_of_le_length (by omega), heval]
    · have hkl : k = l.length := by
        have := (List.getElem?_eq_some_iff.1 hk).1
        rw [length_append, length_singleton] at this
        omega
      subst hkl
      rw [getElem?_concat_length] at hk
      cases hk
      refine ⟨o, ?_, ?_⟩
      · rw [← hlen, getElem?_concat_length]
      · rw [← hlen, take_left, ho]

/-! ## A function beside the unsplit program -/

/-- The outputs that count, of the functions so far, are those of the unsplit program. -/
structure Delivered (blocks : List (List MlirOp)) (args : SplitArgs) (u : Env String V)
    (funcs : List MlirFunction) (outs : List (List V)) : Prop where
  le : outs.length ≤ funcs.length
  value : ∀ (f : Nat) (func : MlirFunction) (o : Nat) (out : FuncOutput), f < outs.length →
    funcs[f]? = some func → func.outputs[o]? = some out →
    Contributes blocks args (ssaKey out.name) → outputAt outs f o = u (ssaKey out.name)

theorem map_of_map_eq {α β γ : Type} {g : α → Option β} {l : List α} {l' : List β} {d : β → γ}
    {w : α → γ} (h : l.map g = l'.map some) (hd : ∀ a ∈ l, ∃ b, g a = some b ∧ d b = w a) :
    l'.map d = l.map w := by
  induction l generalizing l' with
  | nil =>
    have hnil : l' = [] := map_eq_nil_iff.1 h.symm
    rw [hnil]
    rfl
  | cons a l ih =>
    obtain ⟨b, hb, hdb⟩ := hd a mem_cons_self
    cases l' with
    | nil => cases h
    | cons =>
      rw [map_cons, map_cons, hb] at h
      injection h with hhead htail
      cases hhead
      rw [map_cons, map_cons, hdb, ih htail fun a' ha' => hd a' (mem_cons_of_mem a ha')]

theorem contributes_of_needed (hp : SsaProgram blocks args) (hblock : blocks[f]? = some block)
    (hf : f ≠ 0) (hv : v ∈ needed sets blocks f block) : Contributes blocks args v := by
  obtain ⟨hread, p, other, hother, hne, hmade⟩ := (mem_needed hp.ssaBlocks.nodup).1 hv
  exact .crossing hblock hother hne hread hmade hf

/-- Where values were delivered, the edges of the next function bring its inputs. -/
theorem Delivered.edges (hp : SsaProgram blocks args) (hr : Returned sets args blocks r)
    (hu : Ends interp args blocks values u) (hd : Delivered blocks args u r.functions outs)
    (hfunc : r.functions[outs.length]? = some func)
    (hstep : r.plan.steps[outs.length]? = some step) :
    step.inputs.map (deliver values outs) = (inputKeys func.inputs).map u := by
  obtain ⟨first, step', hfirst, hstep', hedges⟩ := hr.edges _ func hfunc
  rw [hstep] at hstep'
  cases hstep'
  obtain ⟨block, hblock, hbuild⟩ := hr.built.block_of hfunc
  have hinputs := (buildFunction_spec hbuild).1
  have hmap : step.inputs.map (deliver values outs) = func.inputs.map fun i => u (ssaKey i.1) := by
    refine map_of_map_eq hedges fun input hinput => ?_
    rw [hinputs] at hinput
    by_cases hf : outs.length = 0
    · rw [hf, funcInputs, if_pos rfl] at hinput
      obtain ⟨i, hi⟩ := mem_iff_getElem?.mp hinput
      refine ⟨⟨.globalInput, i, 0⟩, ?_, (hu.global hp hi).symm⟩
      rw [hf]
      exact inputEdge_first hp.ssaBlocks hr.built hfirst hi
    · have hkey : ssaKey input.1 ∈ inputKeys (funcInputs sets args blocks outs.length block) :=
        mem_map.2 ⟨input, hinput, rfl⟩
      rw [inputKeys_later hp.ssaBlocks.nodup hf] at hkey
      have hneeded := mem_laterInputs.1 hkey
      obtain ⟨p, _, func', o, out, hlt, _, _, hfunc', hout, hname, hedge⟩ :=
        inputEdge_later (globalNames args first) hp.ssaBlocks hr.built hblock hf hneeded rfl
      refine ⟨_, hedge, ?_⟩
      show outputAt outs p o = _
      rw [← hname]
      refine hd.value p func' o out hlt hfunc' hout ?_
      rw [hname]
      exact contributes_of_needed hp hblock hf hneeded
  rw [hmap, inputKeys, map_map]
  rfl

theorem func_inScope (hp : SsaProgram blocks args) (hs : Splittable blocks args)
    (hblock : blocks[f]? = some block)
    (hbuild : buildFunction sets args blocks f block = some func) :
    Scoped (· ∈ inputKeys func.inputs) (program func.ops) := by
  obtain ⟨hinputs, _, hops⟩ := buildFunction_spec hbuild
  have hscope : Scoped (· ∈ inputKeys func.inputs) (program block) := by
    refine (hp.ssaBlocks.block_scoped hblock).mono fun i hi a ha hK => ?_
    obtain ⟨op, hop, rfl⟩ := mem_map.1 hi
    rw [hinputs]
    by_cases hf : f = 0
    · subst hf
      rw [funcInputs, if_pos rfl]
      refine hK.resolve_right fun hmem => ?_
      obtain ⟨p, _, hlt, _⟩ := mem_blockResults_take.1 hmem
      omega
    · rw [inputKeys_later hp.ssaBlocks.nodup hf]
      have hread : a ∈ blockOperands block := by
        rw [hp.ssaBlocks.args_later hblock hf hop] at ha
        exact mem_blockOperands.2 ⟨op, hop, ha⟩
      rcases hK with hglobal | hmem
      · exact absurd hglobal (hs.globals f block hblock hf a hread)
      · obtain ⟨p, other, hlt, hother, hmade⟩ := mem_blockResults_take.1 hmem
        exact mem_laterInputs.2
          ((mem_needed hp.ssaBlocks.nodup).2 ⟨hread, p, other, hother, by omega, hmade⟩)
  rw [hops, program, map_map]
  exact hscope.congr (fun op => (instr_adjust op _).1) fun op => (instr_adjust op _).2.1

theorem defined_func (hbuild : buildFunction sets args blocks f block = some func) :
    defined (program func.ops) = blockResults block := by
  rw [(buildFunction_spec hbuild).2.2, ← defined_program, program, program, map_map, defined,
    defined, flatMap_map, flatMap_map]
  refine congrArg List.flatten (map_congr_left fun op _ => ?_)
  exact (instr_adjust op _).2.1

/-- A function runs, and agrees with the unsplit program on the values that count. -/
theorem evalBody_agree (hp : SsaProgram blocks args) (hs : Splittable blocks args)
    (hu : Ends interp args blocks values u) (hblock : blocks[f]? = some block)
    (hbuild : buildFunction sets args blocks f block = some func)
    (hedges : step.inputs.map (deliver values outs) = (inputKeys func.inputs).map u) :
    ∃ env, evalBody interp values outs func step = some env ∧
      ∀ n ∈ blockResults block, (env n).isSome = true ∧
        (Contributes blocks args n → env n = u n) := by
  obtain ⟨hinputs, _, hops⟩ := buildFunction_spec hbuild
  have hmem := mem_of_getElem? hblock
  -- the inputs have values
  obtain ⟨ins, hins⟩ : ∃ ins : List V, (inputKeys func.inputs).map u = ins.map some := by
    refine exists_values fun n hn => ?_
    rw [hinputs] at hn
    by_cases hf : f = 0
    · subst hf
      rw [funcInputs, if_pos rfl] at hn
      obtain ⟨input, hinput, rfl⟩ := mem_map.1 hn
      obtain ⟨i, hi⟩ := mem_iff_getElem?.mp hinput
      have hlt : i < values.length := by
        rw [hu.1]
        exact (List.getElem?_eq_some_iff.1 hi).1
      rw [hu.global hp hi, getElem?_eq_getElem hlt]
      rfl
    · rw [inputKeys_later hp.ssaBlocks.nodup hf] at hn
      obtain ⟨_, p, other, hother, _, hmade⟩ := (mem_needed hp.ssaBlocks.nodup).1
        (mem_laterInputs.1 hn)
      exact hu.result_isSome hp (mem_of_getElem? hother) hmade
  have hlen : ins.length = (inputKeys func.inputs).length := by
    rw [← length_map (f := u), hins, length_map]
  have hknown : ∀ n, n ∈ inputKeys func.inputs →
      (bindNames (inputKeys func.inputs) ins n).isSome = true := by
    intro n hn
    obtain ⟨w, _, hw⟩ := getElem?_of_map_eq hins
      (getElem?_eq_getElem (idxOf_lt_length_of_mem hn))
    rw [bindNames_eq hins hn, ← getElem_idxOf (idxOf_lt_length_of_mem hn), hw]
    rfl
  obtain ⟨env, hrun, hdefined⟩ :=
    @run_of_scoped _ _ _ _ interp _ _ _ (func_inScope hp hs hblock hbuild) hknown
  refine ⟨env, evalBody_eq_some.2 ⟨ins, hedges.trans hins, hrun⟩, fun n hn => ?_⟩
  have hsome : (env n).isSome = true := by
    refine hdefined n (.inr ?_)
    rw [defined_func hbuild]
    exact hn
  refine ⟨hsome, fun hcount => ?_⟩
  have hprogram : program func.ops = block.map fun op =>
      (adjustOpAttributes op (inputRankMap (funcInputs sets args blocks f block))).instr := by
    rw [hops, program, map_map]
    rfl
  rw [hprogram] at hrun
  refine run_agree MlirOp.instr _ (fun op => (instr_adjust op _).1)
    (fun op => (instr_adjust op _).2.1) (fun op hop => hu.solves hp hmem hop) ?_ ?_ ?_ hrun n hcount
    (fun hnone => by rw [hnone] at hsome; cases hsome)
  · -- the results of an op are distinct
    intro op hop
    have hnodup := hp.ssaBlocks.nodup
    rw [blockResults_flatten] at hnodup
    have hb := (nodup_flatMap.1 hnodup).1 block hmem
    exact (nodup_flatMap.1 hb).1 op hop
  · intro op hop res hres hcounts
    refine ⟨fun a ha => .operand hmem hop hres hcounts ha, ?_⟩
    have hsame := hs.attributes f block hblock op hop res hres hcounts
    have hranks : adjustOpAttributes op (inputRankMap (funcInputs sets args blocks f block)) =
        adjustOpAttributes op (outerRank blocks args f) := adjust_congr fun a ha =>
      inputRankMap_eq hp.ssaBlocks.nodup (mem_blockOperands.2 ⟨op, hop, ha⟩)
    rw [hranks, hsame]
  · intro a _ ha
    by_cases hin : a ∈ inputKeys func.inputs
    · exact bindNames_eq hins hin
    · exact absurd (bindNames_of_notMem hlen hin) ha

/-! ## A splittable program is preserved -/

theorem Delivered.take (hd : Delivered blocks args u r.functions outs) (k : Nat) :
    Delivered blocks args u r.functions (outs.take k) where
  le := by
    have := hd.le
    rw [length_take]
    omega
  value f func o out hf hfunc hout hcount := by
    rw [length_take] at hf
    rw [← hd.value f func o out (by omega) hfunc hout hcount]
    unfold outputAt
    rw [getElem?_take, if_pos (by omega)]

theorem Delivered.next (hp : SsaProgram blocks args) (hs : Splittable blocks args)
    (hr : Returned sets args blocks r) (hu : Ends interp args blocks values u)
    (hd : Delivered blocks args u r.functions outs) (hfunc : r.functions[outs.length]? = some func)
    (hstep : r.plan.steps[outs.length]? = some step) :
    ∃ o, evalFunction interp values outs func step = some o ∧
      Delivered blocks args u r.functions (outs ++ [o]) := by
  obtain ⟨block, hblock, hbuild⟩ := hr.built.block_of hfunc
  obtain ⟨env, hbody, henv⟩ :=
    evalBody_agree hp hs hu hblock hbuild (hd.edges hp hr hu hfunc hstep)
  have houtputs := (buildFunction_spec hbuild).2.1
  obtain ⟨o, ho⟩ := exists_values fun n (hn : n ∈ outputKeys func.outputs) =>
    (henv n (outputKeys_subset houtputs hn)).1
  refine ⟨o, evalFunction_eq_some.2 ⟨env, hbody, ho⟩, ?_, ?_⟩
  · have := (List.getElem?_eq_some_iff.1 hfunc).1
    rw [length_append, length_singleton]
    omega
  · intro f func' i out hf hfunc' hout hcount
    rw [length_append, length_singleton] at hf
    by_cases hlt : f < outs.length
    · rw [← hd.value f func' i out hlt hfunc' hout hcount]
      unfold outputAt
      rw [getElem?_append_left hlt]
    · have hfk : f = outs.length := by omega
      subst hfk
      rw [hfunc] at hfunc'
      cases hfunc'
      have hkey : (outputKeys func.outputs)[i]? = some (ssaKey out.name) := by
        rw [outputKeys, getElem?_map, hout, Option.map_some]
      obtain ⟨w, hw, hval⟩ := getElem?_of_map_eq ho hkey
      have hmem := outputKeys_subset houtputs (mem_of_getElem? hkey)
      rw [← (henv _ hmem).2 hcount, hval]
      unfold outputAt
      rw [getElem?_concat_length]
      exact hw

theorem evalSteps_delivered (hp : SsaProgram blocks args) (hs : Splittable blocks args)
    (hr : Returned sets args blocks r) (hu : Ends interp args blocks values u) {k : Nat}
    (hk : k ≤ r.functions.length) :
    ∃ outs : List (List V),
      evalSteps interp values [] ((r.functions.zip r.plan.steps).take k) = some outs ∧
      outs.length = k ∧ Delivered blocks args u r.functions outs := by
  induction k with
  | zero =>
    refine ⟨[], rfl, rfl, Nat.zero_le _, fun f func o out hf => ?_⟩
    exact absurd hf (Nat.not_lt_zero f)
  | succ k ih =>
    obtain ⟨outs, hrun, hlen, hd⟩ := ih (by omega)
    subst hlen
    obtain ⟨func, hfunc⟩ : ∃ func, r.functions[outs.length]? = some func :=
      ⟨_, getElem?_eq_getElem (by omega)⟩
    obtain ⟨step, hstep⟩ : ∃ step, r.plan.steps[outs.length]? = some step :=
      ⟨_, getElem?_eq_getElem (by rw [hr.steps]; omega)⟩
    have hzip : (r.functions.zip r.plan.steps)[outs.length]? = some (func, step) :=
      getElem?_zip_eq_some.2 ⟨hfunc, hstep⟩
    obtain ⟨o, ho, hd'⟩ := hd.next hp hs hr hu hfunc hstep
    refine ⟨outs ++ [o], ?_, by rw [length_append]; rfl, hd'⟩
    rw [take_add_one, hzip, Option.toList_some, evalSteps_concat, hrun, Option.bind_some, ho]
    rfl

theorem Returned.global_output (hp : SsaProgram blocks args) (hr : Returned sets args blocks r)
    {g : FuncOutput} (hg : g ∈ args.globalOutputs) :
    ∃ (f : Nat) (block : List MlirOp) (func : MlirFunction) (o : Nat) (out : FuncOutput),
      blocks[f]? = some block ∧ ssaKey g.name ∈ blockResults block ∧
      r.functions[f]? = some func ∧ func.outputs[o]? = some out ∧
      ssaKey out.name = ssaKey g.name := by
  have hmade := hp.outputs g hg
  rw [defined_program, blockResults_flatten] at hmade
  obtain ⟨block, hmem, hmade⟩ := mem_flatMap.1 hmade
  obtain ⟨f, hblock⟩ := mem_iff_getElem?.mp hmem
  obtain ⟨func, hfunc, hbuild⟩ := hr.built.func f block hblock
  have hkey := mem_outputKeys_of_exported (buildFunction_spec hbuild).2.1
    (mem_exported.2 ⟨hmade, .inr ⟨g, hg, rfl⟩⟩)
  obtain ⟨o, out, _, hout, hname⟩ := outputIndex_spec hkey
  exact ⟨f, block, func, o, out, hblock, hmade, hfunc, hout, hname⟩

/-- The first output of the last function is the least global output made there. -/
theorem last_iff (hr : Returned sets args blocks r) :
    (∃ (func : MlirFunction) (out g : FuncOutput), r.functions.getLast? = some func ∧
      func.outputs[0]? = some out ∧ args.globalOutputs[0]? = some g ∧
      ssaKey out.name = ssaKey g.name) ↔
    ∃ (g : FuncOutput) (block : List MlirOp), args.globalOutputs[0]? = some g ∧
      blocks.getLast? = some block ∧ ssaKey g.name ∈ blockResults block ∧
      ∀ g' ∈ args.globalOutputs, ssaKey g'.name ∈ blockResults block →
        ssaKey g.name ≤ ssaKey g'.name := by
  cases hlast : blocks.getLast? with
  | none =>
    have hnil : blocks = [] := getLast?_eq_none_iff.1 hlast
    have hfuncs : r.functions = [] := length_eq_zero_iff.1 (by rw [hr.built.length, hnil]; rfl)
    rw [hfuncs]
    constructor
    · rintro ⟨_, _, _, h, _⟩
      cases h
    · rintro ⟨_, _, _, h, _⟩
      cases h
  | some block =>
    have hblock : blocks[blocks.length - 1]? = some block := by
      rw [← getLast?_eq_getElem?, hlast]
    obtain ⟨func, hfunc, hbuild⟩ := hr.built.func _ block hblock
    have hget : r.functions.getLast? = some func := by
      rw [getLast?_eq_getElem?, hr.built.length, hfunc]
    have houtputs := (buildFunction_spec hbuild).2.1
    -- nothing follows the last block, so it exports global outputs only, in order
    have hdrop : blocks.drop (blocks.length - 1 + 1) = [] := drop_eq_nil_of_le (by omega)
    have hexported : ∀ v, v ∈ exported args blocks (blocks.length - 1) block ↔
        v ∈ blockResults block ∧ ∃ g ∈ args.globalOutputs, ssaKey g.name = v := by
      intro v
      rw [mem_exported, hdrop, flatMap_nil, or_iff_right not_mem_nil]
    have hordered : orderedOutputs args blocks (blocks.length - 1) block =
        exported args blocks (blocks.length - 1) block := by
      have hnot : isABlock blocks (blocks.length - 1) = false := by
        rw [isABlock, getElem?_eq_none (by omega)]
      rw [orderedOutputs, hnot]
      rfl
    have hhead : ∀ out : FuncOutput, func.outputs[0]? = some out →
        (outputKeys func.outputs)[0]? = some (ssaKey out.name) := by
      intro out hout
      rw [outputKeys, getElem?_map, hout, Option.map_some]
    have hsorted : (exported args blocks (blocks.length - 1) block).Pairwise (· ≤ ·) :=
      exported_sorted
    constructor
    · rintro ⟨func', out, g, hget', hout, hg, hname⟩
      rw [hget] at hget'
      cases hget'
      have hkey := hhead out hout
      have hmade := outputKeys_subset houtputs (mem_of_getElem? hkey)
      rw [hname] at hmade hkey
      refine ⟨g, block, hg, rfl, hmade, fun g' hg' hmade' => ?_⟩
      have hin := (hexported _).2 ⟨hmade, g, mem_of_getElem? hg, rfl⟩
      have hin' := (hexported _).2 ⟨hmade', g', hg', rfl⟩
      rcases outputKeys_cases houtputs with ⟨hkeys, _⟩ | ⟨hnil, _⟩
      · rw [hkeys, hordered] at hkey
        cases hexp : exported args blocks (blocks.length - 1) block with
        | nil =>
          rw [hexp] at hin
          cases hin
        | cons =>
          rw [hexp] at hkey hin' hsorted
          cases hkey
          rcases mem_cons.1 hin' with heq | hmem
          · exact le_of_eq heq.symm
          · exact (pairwise_cons.1 hsorted).1 _ hmem
      · rw [hnil] at hin
        cases hin
    · rintro ⟨g, block', hg, hlast', hmade, hleast⟩
      cases hlast'
      have hin := (hexported _).2 ⟨hmade, g, mem_of_getElem? hg, rfl⟩
      rcases outputKeys_cases houtputs with ⟨hkeys, _⟩ | ⟨hnil, _⟩
      · rw [hordered] at hkeys
        cases hexp : exported args blocks (blocks.length - 1) block with
        | nil =>
          rw [hexp] at hin
          cases hin
        | cons w =>
          rw [hexp] at hkeys hin hsorted
          have hw : ssaKey g.name = w := by
            obtain ⟨hmade', g', hg', hname⟩ := (hexported w).1 (by rw [hexp]; exact mem_cons_self)
            rcases mem_cons.1 hin with heq | hmem
            · exact heq
            · refine le_antisymm ?_ ((pairwise_cons.1 hsorted).1 _ hmem)
              rw [← hname] at hmade' ⊢
              exact hleast g' hg' hmade'
          cases hout : func.outputs with
          | nil =>
            rw [hout] at hkeys
            cases hkeys
          | cons out =>
            rw [hout, outputKeys, map_cons] at hkeys
            injection hkeys with hfirst _
            refine ⟨func, out, g, hget, by rw [hout]; rfl, hg, ?_⟩
            rw [hfirst, hw]
      · rw [hnil] at hin
        cases hin

theorem preserves_of_splittable (hp : SsaProgram blocks args) (hs : Splittable blocks args)
    (hr : Returned sets args blocks r) : Preserves blocks args r where
  inScope := by
    intro func hfunc
    obtain ⟨f, hf⟩ := mem_iff_getElem?.mp hfunc
    obtain ⟨block, hblock, hbuild⟩ := hr.built.block_of hf
    exact func_inScope hp hs hblock hbuild
  values := by
    intro V interp values u hlen heval
    have hu : Ends interp args blocks values u := ⟨hlen, heval⟩
    obtain ⟨outs, hrun, houts, hd⟩ := evalSteps_delivered hp hs hr hu le_rfl
    have hall : (r.functions.zip r.plan.steps).take r.functions.length =
        r.functions.zip r.plan.steps := by
      refine take_of_length_le ?_
      rw [length_zip]
      omega
    rw [hall] at hrun
    refine ⟨outs, hrun, fun f func step hfunc hstep => ?_, fun g hg => ?_, ?_⟩
    · have hf : (outs.take f).length = f := by
        have := (List.getElem?_eq_some_iff.1 hfunc).1
        rw [length_take]
        omega
      refine (hd.take f).edges hp hr hu ?_ ?_
      · rw [hf, hfunc]
      · rw [hf, hstep]
    · obtain ⟨f, _, func, o, out, _, _, hfunc, hout, hname⟩ := hr.global_output hp hg
      exact ⟨f, func, o, out, hfunc, hout, hname⟩
    · rintro f func o out hfunc hout ⟨g, hg, hname⟩
      have hf := (List.getElem?_eq_some_iff.1 hfunc).1
      refine hd.value f func o out (by omega) hfunc hout ?_
      rw [hname]
      exact .output hg
  last := (last_iff hr).2 hs.last

/-! ## A preserved program is splittable -/

/-- The functions of a preserved program in the free interpretation, beside the unsplit program. -/
structure FreeRun (blocks : List (List MlirOp)) (args : SplitArgs) (r : SplitResult)
    (u : Env String (Term String OpCode))
    (env : Nat → Env String (Term String OpCode)) : Prop where
  solves : ∀ f (func : MlirFunction), r.functions[f]? = some func →
    ∀ op ∈ func.ops, Solves Term.node (env f) op.instr
  input : ∀ f (func : MlirFunction), r.functions[f]? = some func →
    ∀ n ∈ inputKeys func.inputs, env f n = u n
  crossing : ∀ f p block other n, blocks[f]? = some block → blocks[p]? = some other → p ≠ f →
    f ≠ 0 → n ∈ blockOperands block → n ∈ blockResults other → env p n = u n
  output : ∀ g ∈ args.globalOutputs, ∀ p other, blocks[p]? = some other →
    ssaKey g.name ∈ blockResults other → env p (ssaKey g.name) = u (ssaKey g.name)

/-- What counts has the value of the unsplit program in the function that makes it. -/
theorem FreeRun.contributes {env : Nat → Env String (Term String OpCode)}
    {u : Env String (Term String OpCode)} {values : List (Term String OpCode)}
    (hp : SsaProgram blocks args) (hr : Returned sets args blocks r)
    (hu : Ends Term.node args blocks values u) (he : FreeRun blocks args r u env)
    (h : Contributes blocks args n) (hblock : blocks[f]? = some block)
    (hn : n ∈ blockResults block) : env f n = u n := by
  induction h generalizing f block with
  | output hg => exact he.output _ hg f block hblock hn
  | crossing hblock' hother hne hread hmade hf =>
    have hsame := block_unique hp.ssaBlocks.nodup hblock hn hother hmade
    subst hsame
    exact he.crossing _ _ _ _ _ hblock' hother hne hf hread hmade
  | @operand block' op res n hmem hop hres _ ha ih =>
    obtain ⟨q, hq⟩ := mem_iff_getElem?.mp hmem
    obtain ⟨func, hfunc, hbuild⟩ := hr.built.func q block' hq
    have hmade : res ∈ blockResults block' := mem_blockResults.2 ⟨op, hop, hres⟩
    by_cases hqf : q = f
    · -- the op stands in the same function: its operands are read off its result
      subst hqf
      rw [hq] at hblock
      cases hblock
      have hop' : adjustOpAttributes op (inputRankMap (funcInputs sets args blocks q block')) ∈
          func.ops := by
        rw [(buildFunction_spec hbuild).2.2]
        exact mem_map_of_mem hop
      obtain ⟨hargs, hresults, _⟩ :=
        instr_adjust op (inputRankMap (funcInputs sets args blocks q block'))
      obtain ⟨k, hk⟩ := mem_iff_getElem?.mp hres
      have hsame := (solves_free (hu.solves hp hmem hop) (he.solves q func hfunc _ hop') hk
        (by rw [hresults]; exact hk) (ih hq hmade)).2
      rw [hargs] at hsame
      exact (map_inj_left.1 hsame) _ ha
    · -- it stands in another function, to which the operand crosses
      have hread : n ∈ op.operands.map ssaKey := by
        by_cases hweight : op.opName = "weight"
        · rw [MlirOp.instr, if_pos hweight] at ha
          cases ha
        · rw [MlirOp.instr, if_neg hweight] at ha
          exact ha
      have hq0 : q ≠ 0 := by
        intro hq0
        subst hq0
        -- the first block reads nothing of later blocks
        rcases (hp.ssaBlocks.block_scoped hq).args (mem_map_of_mem hop) ha with
          (hglobal | hearly) | hown
        · exact hp.ssaBlocks.result_ne_global hblock hn hglobal
        · obtain ⟨p, _, hlt, _⟩ := mem_blockResults_take.1 hearly
          omega
        · rw [defined_program] at hown
          exact hqf (block_unique hp.ssaBlocks.nodup hblock hn hq hown)
      exact he.crossing q f block' block n hq hblock (Ne.symm hqf) hq0
        (mem_blockOperands.2 ⟨op, hop, hread⟩) hn

theorem input_ne_result (hp : SsaProgram blocks args) (hblock : blocks[f]? = some block)
    (hbuild : buildFunction sets args blocks f block = some func)
    (hn : n ∈ inputKeys func.inputs) : n ∉ blockResults block := by
  intro hown
  rw [(buildFunction_spec hbuild).1] at hn
  by_cases hf : f = 0
  · rw [funcInputs, if_pos hf] at hn
    exact hp.ssaBlocks.result_ne_global hblock hown hn
  · rw [inputKeys_later hp.ssaBlocks.nodup hf] at hn
    obtain ⟨_, p, other, hother, hne, hmade⟩ := (mem_needed hp.ssaBlocks.nodup).1
      (mem_laterInputs.1 hn)
    exact hne (block_unique hp.ssaBlocks.nodup hblock hown hother hmade)

theorem Preserves.freeRun (hp : SsaProgram blocks args) (hr : Returned sets args blocks r)
    (h : Preserves blocks args r) :
    ∃ (values : List (Term String OpCode)) (u : Env String (Term String OpCode))
      (env : Nat → Env String (Term String OpCode)),
      Ends Term.node args blocks values u ∧ FreeRun blocks args r u env := by
  let values : List (Term String OpCode) := args.globalInputs.map fun i => .input (ssaKey i.1)
  have hlen : values.length = args.globalInputs.length := length_map _
  obtain ⟨u, hu⟩ := exists_ends hp (Term.node (N := String) (O := OpCode)) hlen
  obtain ⟨outs, hrun, hedges, _, houtput⟩ := h.values _ Term.node values u hlen hu.2
  obtain ⟨houts, hat⟩ := evalSteps_at hrun
  -- the environment of each function
  have hbody : ∀ f (func : MlirFunction), r.functions[f]? = some func → ∃ env step,
      r.plan.steps[f]? = some step ∧
      evalBody Term.node values (outs.take f) func step = some env ∧
      ∀ o (out : FuncOutput), func.outputs[o]? = some out →
        outputAt outs f o = env (ssaKey out.name) := by
    intro f func hfunc
    obtain ⟨step, hstep⟩ : ∃ step, r.plan.steps[f]? = some step := by
      have := (List.getElem?_eq_some_iff.1 hfunc).1
      exact ⟨_, getElem?_eq_getElem (by rw [hr.steps]; exact this)⟩
    obtain ⟨o, ho, heval⟩ := hat f (func, step) (getElem?_zip_eq_some.2 ⟨hfunc, hstep⟩)
    obtain ⟨env, hbody, hvals⟩ := evalFunction_eq_some.1 heval
    refine ⟨env, step, hstep, hbody, fun i out hout => ?_⟩
    have hkey : (outputKeys func.outputs)[i]? = some (ssaKey out.name) := by
      rw [outputKeys, getElem?_map, hout, Option.map_some]
    obtain ⟨w, hw, hval⟩ := getElem?_of_map_eq hvals hkey
    unfold outputAt
    rw [ho, hval]
    exact hw
  choose env step hstep heval hout using hbody
  let envAt : Nat → Env String (Term String OpCode) := fun f =>
    if hf : f < r.functions.length then env f _ (getElem?_eq_getElem hf) else fun _ => none
  have henvAt : ∀ f (func : MlirFunction) (hfunc : r.functions[f]? = some func),
      envAt f = env f func hfunc := by
    intro f func hfunc
    obtain ⟨hf, rfl⟩ := List.getElem?_eq_some_iff.1 hfunc
    exact dif_pos hf
  -- each body runs from its inputs, as they are in `u`
  have hruns : ∀ f (func : MlirFunction), r.functions[f]? = some func →
      ∃ ins : List (Term String OpCode), (inputKeys func.inputs).map u = ins.map some ∧
        run Term.node (bindNames (inputKeys func.inputs) ins) (program func.ops) =
          some (envAt f) := by
    intro f func hfunc
    obtain ⟨ins, hins, hbody⟩ := evalBody_eq_some.1 (heval f func hfunc)
    rw [hedges f func _ hfunc (hstep f func hfunc)] at hins
    rw [henvAt f func hfunc]
    exact ⟨ins, hins, hbody⟩
  refine ⟨values, u, envAt, hu, ?_, ?_, ?_, ?_⟩
  · intro f func hfunc op hop
    obtain ⟨block, hblock, hbuild⟩ := hr.built.block_of hfunc
    obtain ⟨ins, hins, hbody⟩ := hruns f func hfunc
    have hlength : ins.length = (inputKeys func.inputs).length := by
      have := congrArg length hins
      rw [length_map, length_map] at this
      exact this.symm
    have hdefined := defined_func hbuild
    refine run_solves ?_ (fun n hn => ?_) hbody op.instr (mem_map_of_mem hop)
    · rw [hdefined]
      have hnodup := hp.ssaBlocks.nodup
      rw [blockResults_flatten] at hnodup
      exact (nodup_flatMap.1 hnodup).1 block (mem_of_getElem? hblock)
    · rw [hdefined] at hn
      exact bindNames_of_notMem hlength fun hin => input_ne_result hp hblock hbuild hin hn
  · intro f func hfunc n hn
    obtain ⟨block, hblock, hbuild⟩ := hr.built.block_of hfunc
    obtain ⟨ins, hins, hbody⟩ := hruns f func hfunc
    have hnot : n ∉ defined (program func.ops) := by
      rw [defined_func hbuild]
      exact input_ne_result hp hblock hbuild hn
    rw [run_of_notMem hbody hnot, bindNames_eq hins hn]
  · intro f p block other n hblock hother hne hf hread hmade
    obtain ⟨func, hfunc, hbuild⟩ := hr.built.func f block hblock
    have hneeded : n ∈ needed sets blocks f block :=
      (mem_needed hp.ssaBlocks.nodup).2 ⟨hread, p, other, hother, hne, hmade⟩
    -- the edge of the input that is called `n`
    have hkey : n ∈ inputKeys func.inputs := by
      rw [(buildFunction_spec hbuild).1, inputKeys_later hp.ssaBlocks.nodup hf]
      exact mem_laterInputs.2 hneeded
    obtain ⟨input, hinput, hname⟩ := mem_map.1 hkey
    obtain ⟨i, hi⟩ := mem_iff_getElem?.mp hinput
    obtain ⟨first, step', hfirst, hstep', hmap⟩ := hr.edges f func hfunc
    obtain ⟨q, other', func', o, out, hlt, hother', hmade', hfunc', hout', hname', hedge⟩ :=
      inputEdge_later (globalNames args first) hp.ssaBlocks hr.built hblock hf hneeded hname
    have hqp := block_unique hp.ssaBlocks.nodup hother hmade hother' hmade'
    subst hqp
    obtain ⟨e, he, hedge'⟩ := getElem?_of_map_eq hmap hi
    rw [hedge] at hedge'
    cases hedge'
    -- it delivers the output of the other function
    have hdeliver := congrArg (fun l => l[i]?) (hedges f func step' hfunc hstep')
    simp only [inputKeys, getElem?_map, he, hi, Option.map_some, Option.some_inj] at hdeliver
    rw [hname] at hdeliver
    have hread' : outputAt outs q o = u n := by
      rw [← hdeliver]
      show _ = outputAt (outs.take f) q o
      unfold outputAt
      rw [getElem?_take, if_pos hlt]
    rw [hout q func' hfunc' o out hout', hname'] at hread'
    rw [henvAt q func' hfunc', hread']
  · intro g hg p other hother hmade
    obtain ⟨func, hfunc, hbuild⟩ := hr.built.func p other hother
    have hkey := mem_outputKeys_of_exported (buildFunction_spec hbuild).2.1
      (mem_exported.2 ⟨hmade, .inr ⟨g, hg, rfl⟩⟩)
    obtain ⟨o, out, _, hout', hname⟩ := outputIndex_spec hkey
    have hvalue := houtput p func o out hfunc hout' ⟨g, hg, hname⟩
    rw [hout p func hfunc o out hout', hname] at hvalue
    rw [henvAt p func hfunc, hvalue]

theorem splittable_of_preserves (hp : SsaProgram blocks args) (hr : Returned sets args blocks r)
    (h : Preserves blocks args r) : Splittable blocks args where
  results := by
    intro block hmem
    obtain ⟨f, hblock⟩ := mem_iff_getElem?.mp hmem
    obtain ⟨func, _, hbuild⟩ := hr.built.func f block hblock
    refine (buildFunction_isSome sets args blocks f block).1 ?_
    rw [hbuild]
    rfl
  globals := by
    intro f block hblock hf n hread hglobal
    obtain ⟨func, hfunc, hbuild⟩ := hr.built.func f block hblock
    obtain ⟨op, hop, hn⟩ := mem_blockOperands.1 hread
    have hop' : adjustOpAttributes op (inputRankMap (funcInputs sets args blocks f block)) ∈
        func.ops := by
      rw [(buildFunction_spec hbuild).2.2]
      exact mem_map_of_mem hop
    rw [← hp.ssaBlocks.args_later hblock hf hop, ← (instr_adjust op _).1] at hn
    -- an operand in scope is an input, made by another block, or a result of this one
    rcases (h.inScope func (mem_of_getElem? hfunc)).args (mem_map_of_mem hop') hn with
      hin | hown
    · rw [(buildFunction_spec hbuild).1, inputKeys_later hp.ssaBlocks.nodup hf] at hin
      obtain ⟨_, p, other, hother, _, hmade⟩ := (mem_needed hp.ssaBlocks.nodup).1
        (mem_laterInputs.1 hin)
      exact hp.ssaBlocks.result_ne_global hother hmade hglobal
    · rw [defined_func hbuild] at hown
      exact hp.ssaBlocks.result_ne_global hblock hown hglobal
  attributes := by
    intro f block hblock op hop res hres hcount
    obtain ⟨values, u, env, hu, he⟩ := h.freeRun hp hr
    obtain ⟨func, hfunc, hbuild⟩ := hr.built.func f block hblock
    have hsame := he.contributes hp hr hu hcount hblock (mem_blockResults.2 ⟨op, hop, hres⟩)
    have hop' : adjustOpAttributes op (inputRankMap (funcInputs sets args blocks f block)) ∈
        func.ops := by
      rw [(buildFunction_spec hbuild).2.2]
      exact mem_map_of_mem hop
    obtain ⟨k, hk⟩ := mem_iff_getElem?.mp hres
    have hcode := (solves_free (hu.solves hp (mem_of_getElem? hblock) hop)
      (he.solves f func hfunc _ hop') hk (by rw [(instr_adjust op _).2.1]; exact hk) hsame).1
    have hranks : adjustOpAttributes op (outerRank blocks args f) =
        adjustOpAttributes op (inputRankMap (funcInputs sets args blocks f block)) :=
      adjust_congr fun a ha =>
        (inputRankMap_eq hp.ssaBlocks.nodup (mem_blockOperands.2 ⟨op, hop, ha⟩)).symm
    rw [hranks]
    exact adjust_eq_self (congrArg Prod.snd hcode)
  last := (last_iff hr).1 h.last

/-! ## The split -/

theorem partitionBlocks_flatten (current ops : List MlirOp) :
    (partitionBlocks current ops).flatten =
      current ++ ops.filter fun op => op.opName ≠ "_func_boundary" := by
  induction ops generalizing current with
  | nil =>
    rw [partitionBlocks]
    by_cases hnil : current = []
    · rw [if_pos hnil, hnil]
      rfl
    · rw [if_neg hnil, filter_nil, flatten_singleton, append_nil]
  | cons op ops ih =>
    rw [partitionBlocks]
    by_cases hsentinel : op.opName = "_func_boundary"
    · rw [if_pos hsentinel, filter_cons_of_neg (by simpa using hsentinel)]
      by_cases hnil : current = []
      · rw [if_pos hnil, ih, hnil]
      · rw [if_neg hnil, flatten_cons, ih, nil_append]
    · rw [if_neg hsentinel, filter_cons_of_pos (by simpa using hsentinel), ih, append_assoc]
      rfl

theorem splitIntoFunctions_filter (opsPerFunc : Nat) (boundaries : List Nat)
    (hops : ∀ op ∈ ops, op.opName ≠ "_func_boundary") :
    ((splitIntoFunctions ops opsPerFunc boundaries).1.filter fun op =>
      op.opName ≠ "_func_boundary") = ops := by
  have hinsert : ∀ (cut : Nat → Bool) (ops : List MlirOp) (k : Nat),
      (∀ op ∈ ops, op.opName ≠ "_func_boundary") →
      (((ops.zipIdx k).flatMap fun e => if cut e.2 then [funcBoundary, e.1] else [e.1]).filter
        fun op => op.opName ≠ "_func_boundary") = ops := by
    intro cut ops
    induction ops with
    | nil => exact fun _ _ => rfl
    | cons op ops ih =>
      intro k hall
      have hop := hall op mem_cons_self
      have hrest := ih (k + 1) fun o ho => hall o (mem_cons_of_mem op ho)
      rw [zipIdx_cons, flatMap_cons, filter_append, hrest]
      cases cut k with
      | true => simp [funcBoundary, hop]
      | false => simp [hop]
  have hall : (ops.filter fun op => op.opName ≠ "_func_boundary") = ops :=
    filter_eq_self.2 fun op hop => decide_eq_true (hops op hop)
  unfold splitIntoFunctions
  by_cases hb : boundaries ≠ []
  · rw [if_pos hb]
    have h := hinsert (fun i => decide (i ∈ boundaries)) ops 0 hops
    simp only [decide_eq_true_eq] at h
    exact h
  · rw [if_neg hb]
    by_cases hlen : ops.length ≤ opsPerFunc
    · rw [if_pos hlen]
      exact hall
    · rw [if_neg hlen]
      have h := hinsert (fun i => decide (0 < i ∧ i % opsPerFunc = 0)) ops 0 hops
      simp only [decide_eq_true_eq] at h
      exact h

/-- The blocks between the boundaries. -/
def splitBlocks (ops : List MlirOp) (opsPerFunc : Nat) (boundaries : List Nat) :
    List (List MlirOp) :=
  partitionBlocks [] (splitIntoFunctions ops opsPerFunc boundaries).1

theorem splitBlocks_flatten (opsPerFunc : Nat) (boundaries : List Nat)
    (hops : ∀ op ∈ ops, op.opName ≠ "_func_boundary") :
    (splitBlocks ops opsPerFunc boundaries).flatten = ops := by
  rw [splitBlocks, partitionBlocks_flatten, nil_append]
  exact splitIntoFunctions_filter opsPerFunc boundaries hops

/-- A program split into at least two functions is preserved exactly when it is splittable. -/
theorem split_preserves_iff (sets : SetOrder) (ops : List MlirOp) (opsPerFunc : Nat)
    (boundaries : List Nat) (args : SplitArgs) (hops : ∀ op ∈ ops, op.opName ≠ "_func_boundary")
    (hp : SsaProgram (splitBlocks ops opsPerFunc boundaries) args)
    (htwo : 2 ≤ (splitBlocks ops opsPerFunc boundaries).length) :
    (splitBlocks ops opsPerFunc boundaries).flatten = ops ∧
    ((∃ r, makeMultiFunctions sets (splitIntoFunctions ops opsPerFunc boundaries).1 args = some r ∧
      Preserves (splitBlocks ops opsPerFunc boundaries) args r) ↔
      Splittable (splitBlocks ops opsPerFunc boundaries) args) := by
  refine ⟨splitBlocks_flatten opsPerFunc boundaries hops, ?_, fun hs => ?_⟩
  · rintro ⟨r, hr, h⟩
    exact splittable_of_preserves hp (returned_of_makeMultiFunctions htwo hr) h
  · obtain ⟨r, hr⟩ := Option.isSome_iff_exists.1
      ((makeMultiFunctions_isSome sets hp htwo).2 hs.results)
    exact ⟨r, hr, preserves_of_splittable hp hs (returned_of_makeMultiFunctions htwo hr)⟩

/-! ### Two functions -/

/-- A weight, a product with it, and a softmax cut off behind them. -/
def softmaxOps : List MlirOp :=
  [⟨"sf.weight", "sf", "weight", ["w"], ["%w"], [("name", .scalar (.str "w"))], [],
      ["tensor<8x8xf32>"]⟩,
    ⟨"sf.linear", "sf", "linear", ["%x", "%w"], ["%h"], [], [], ["tensor<4x8xf32>"]⟩,
    ⟨"sf.softmax", "sf", "softmax", ["%h"], ["%y"], [("dim", .scalar (.int 1))], [],
      ["tensor<4x8xf32>"]⟩]

def softmaxArgs : SplitArgs where
  globalInputs := [("%x", "tensor<4x8xf32>")]
  globalOutputs := [⟨"%y", "tensor<4x8xf32>", false⟩]
  weights := ["w"]
  paramNames := ["w"]
  constNames := []
  baseName := "main"
  cachePolicy := none

/-- The last function makes two results and reads a global input. -/
def maskOps : List MlirOp :=
  [⟨"sf.linear", "sf", "linear", ["%x"], ["%h"], [], [], ["tensor<4x8xf32>"]⟩,
    ⟨"sf.add", "sf", "add", ["%h", "%mask"], ["%b"], [], [], ["tensor<4x8xf32>"]⟩,
    ⟨"sf.mul", "sf", "mul", ["%h", "%h"], ["%a"], [], [], ["tensor<4x8xf32>"]⟩]

def maskArgs : SplitArgs where
  globalInputs := [("%x", "tensor<4x8xf32>"), ("%mask", "tensor<4x8xf32>")]
  globalOutputs := [⟨"%b", "tensor<4x8xf32>", false⟩, ⟨"%a", "tensor<4x8xf32>", false⟩]
  weights := []
  paramNames := []
  constNames := []
  baseName := "main"
  cachePolicy := none

theorem forall_blocks (blocks : List (List MlirOp)) {P : Nat → MlirOp → Prop}
    (h : ∀ e ∈ blocks.zipIdx, ∀ op ∈ e.1, P e.2 op) (f : Nat) (block : List MlirOp)
    (hblock : blocks[f]? = some block) (op : MlirOp) (hop : op ∈ block) : P f op :=
  h (block, f) (mem_zipIdx_iff_getElem?.mpr hblock) op hop

theorem softmax_ssa : SsaProgram (splitBlocks softmaxOps 500 [2]) softmaxArgs where
  distinct := by decide
  inScope := by decide
  outputs := by decide
  weightsFirst := forall_blocks _ (by decide)
  weights := by decide
  weightNames := by decide

theorem softmax_splittable : Splittable (splitBlocks softmaxOps 500 [2]) softmaxArgs where
  results := by decide
  globals := by
    intro f block hblock hf n hn
    obtain ⟨op, hop, hn⟩ := mem_blockOperands.1 hn
    have h := forall_blocks (splitBlocks softmaxOps 500 [2])
      (P := fun f op => f ≠ 0 →
        ∀ n ∈ op.operands.map ssaKey, n ∉ inputKeys softmaxArgs.globalInputs)
      (by decide)
    exact h f block hblock op hop hf n hn
  attributes := by
    intro f block hblock op hop _ _ _
    have h := forall_blocks (splitBlocks softmaxOps 500 [2])
      (P := fun f op =>
        adjustOpAttributes op (outerRank (splitBlocks softmaxOps 500 [2]) softmaxArgs f) = op)
      (by decide)
    exact h f block hblock op hop
  last := ⟨_, _, rfl, rfl, by decide, by decide⟩

theorem split_preserves_iff_witness :
    Splittable (splitBlocks softmaxOps 500 [2]) softmaxArgs ∧
    ∃ r, makeMultiFunctions .insertion (splitIntoFunctions softmaxOps 500 [2]).1 softmaxArgs =
      some r ∧ Preserves (splitBlocks softmaxOps 500 [2]) softmaxArgs r :=
  ⟨softmax_splittable, (split_preserves_iff .insertion softmaxOps 500 [2] softmaxArgs (by decide)
    softmax_ssa (by decide)).2.2 softmax_splittable⟩

theorem mask_ssa : SsaProgram (splitBlocks maskOps 500 [1]) maskArgs where
  distinct := by decide
  inScope := by decide
  outputs := by decide
  weightsFirst := forall_blocks _ (by decide)
  weights := by decide
  weightNames := by decide

/-- The second function reads an undeclared mask, and returns `%a` before `%b`. -/
theorem split_preserves_fails :
    SsaProgram (splitBlocks maskOps 500 [1]) maskArgs ∧
    2 ≤ (splitBlocks maskOps 500 [1]).length ∧
    ∃ r, makeMultiFunctions .insertion (splitIntoFunctions maskOps 500 [1]).1 maskArgs = some r ∧
      ¬ Preserves (splitBlocks maskOps 500 [1]) maskArgs r := by
  have htwo : 2 ≤ (splitBlocks maskOps 500 [1]).length := by decide
  refine ⟨mask_ssa, htwo, ?_⟩
  obtain ⟨r, hr⟩ := Option.isSome_iff_exists.1
    ((makeMultiFunctions_isSome .insertion mask_ssa htwo).2 (by decide))
  refine ⟨r, hr, fun h => ?_⟩
  have hs := splittable_of_preserves mask_ssa (returned_of_makeMultiFunctions htwo hr) h
  exact hs.globals 1 _ rfl (by decide) "mask" (by decide) (by decide)

end CompileForge.Compiler
